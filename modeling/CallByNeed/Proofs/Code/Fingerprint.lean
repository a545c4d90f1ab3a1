import CallByNeed.Code.Unit
import Mathlib.Data.List.Forall2
import Mathlib.Tactic.Common

/-!
# What a fingerprint covers

What is hashed of a unit are its parts in a row, with nothing between them. Of units with parts of
the same lengths the digest identifies the parts, as long as the hash function tells the messages
apart that are hashed for the two units and the units inside them (`CodeUnit.digestWith_eq_iff`).

The lengths are needed: of the names of formals a digest covers only the text they make in a row, so
function literals with different formals have the same digest whatever the hash function is
(`CodeUnit.digestWith_congr_text`). The names of units are not covered at all.
-/

namespace CallByNeed

/-- What is hashed of a name. -/
def Symbol.bytes (s : Symbol) : List UInt8 := s.name.toUTF8.toList

/-- What is hashed of a constant. -/
def Constant.bytes (c : Constant) : List UInt8 := c.toJson.compact.toUTF8.toList

namespace CodeUnit

/-! ## Comparing units part by part -/

mutual

/-- The parts of two units are related, one by one; their names need not be. -/
inductive Alike (R : List UInt8 → List UInt8 → Prop) : CodeUnit → CodeUnit → Prop
  | unit {name name' code code' constants constants' slots slots' thunks thunks' closures
      closures'} : R code.toList code'.toList →
      R (Sha256.bigEndian 4 slots) (Sha256.bigEndian 4 slots') →
      List.Forall₂ (fun c c' => R c.bytes c'.bytes) constants.toList constants'.toList →
      AllAlike R thunks thunks' → ClosuresAlike R closures closures' →
      Alike R ⟨name, code, constants, slots, thunks, closures⟩
        ⟨name', code', constants', slots', thunks', closures'⟩

/-- The units of two lists are related, one by one. -/
inductive AllAlike (R : List UInt8 → List UInt8 → Prop) : List CodeUnit → List CodeUnit → Prop
  | nil : AllAlike R [] []
  | cons {u u' us us'} : Alike R u u' → AllAlike R us us' → AllAlike R (u :: us) (u' :: us')

/-- The function literals of two lists are related, one by one. -/
inductive ClosuresAlike (R : List UInt8 → List UInt8 → Prop) :
    List FunctionUnit → List FunctionUnit → Prop
  | nil : ClosuresAlike R [] []
  | cons {name name' formals formals' body body' fs fs'} : FormalsAlike R formals formals' →
      Alike R body body' → ClosuresAlike R fs fs' →
      ClosuresAlike R (⟨name, formals, body⟩ :: fs) (⟨name', formals', body'⟩ :: fs')

/-- The formals of two lists are related, one by one: both have a default or neither has one. -/
inductive FormalsAlike (R : List UInt8 → List UInt8 → Prop) :
    List (Formal CodeUnit) → List (Formal CodeUnit) → Prop
  | nil : FormalsAlike R [] []
  | bare {x x' fs fs'} : R x.bytes x'.bytes → FormalsAlike R fs fs' →
      FormalsAlike R (⟨x, none⟩ :: fs) (⟨x', none⟩ :: fs')
  | byDefault {x x' u u' fs fs'} : R x.bytes x'.bytes → Alike R u u' → FormalsAlike R fs fs' →
      FormalsAlike R (⟨x, some u⟩ :: fs) (⟨x', some u'⟩ :: fs')

end

/-- Two units have parts of the same lengths. -/
abbrev SameLayout (u u' : CodeUnit) : Prop := Alike (fun bs bs' => bs.length = bs'.length) u u'

/-- Two units have the same parts, up to the names of units. -/
abbrev SameParts (u u' : CodeUnit) : Prop := Alike (· = ·) u u'

/-! ## What is hashed -/

variable (hash : List UInt8 → List UInt8)

mutual

/-- The messages that are hashed for a unit, those of the units inside it included. -/
def messages : CodeUnit → List (List UInt8)
  | ⟨_, code, constants, slots, thunks, closures⟩ =>
    (ownPreimage code constants slots ++ digests hash thunks ++ closureDigests hash closures) ::
      (messagesOfAll thunks ++ messagesOfClosures closures)

/-- The messages that are hashed for several units. -/
def messagesOfAll : List CodeUnit → List (List UInt8)
  | [] => []
  | u :: rest => messages u ++ messagesOfAll rest

/-- The messages that are hashed for function literals. -/
def messagesOfClosures : List FunctionUnit → List (List UInt8)
  | [] => []
  | ⟨_, formals, body⟩ :: rest =>
    messagesOfFormals formals ++ messages body ++ messagesOfClosures rest

/-- The messages that are hashed for the defaults of formals. -/
def messagesOfFormals : List (Formal CodeUnit) → List (List UInt8)
  | [] => []
  | ⟨_, some u⟩ :: rest => messages u ++ messagesOfFormals rest
  | ⟨_, none⟩ :: rest => messagesOfFormals rest

end

/-- No message of one list has the hash of another message in the other list. -/
def TellsApart (M M' : List (List UInt8)) : Prop :=
  ∀ m ∈ M, ∀ m' ∈ M', hash m = hash m' → m = m'

variable {hash}

/-! ## The same parts have the same digest -/

section

variable {α β : Type} {f : α → List β} {as as' : List α}

lemma flatMap_congr_forall₂ (h : List.Forall₂ (fun a a' => f a = f a') as as') :
    as.flatMap f = as'.flatMap f := by
  induction h with
  | nil => rfl
  | cons ha _ ih => rw [List.flatMap_cons, List.flatMap_cons, ha, ih]

lemma length_flatMap_forall₂ (h : List.Forall₂ (fun a a' => (f a).length = (f a').length) as as') :
    (as.flatMap f).length = (as'.flatMap f).length := by
  induction h with
  | nil => rfl
  | cons ha _ ih =>
    rw [List.flatMap_cons, List.flatMap_cons, List.length_append, List.length_append, ha, ih]

/-- Pieces of the same lengths are read off what they make in a row. -/
lemma forall₂_of_flatMap (h : List.Forall₂ (fun a a' => (f a).length = (f a').length) as as')
    (heq : as.flatMap f = as'.flatMap f) : List.Forall₂ (fun a a' => f a = f a') as as' := by
  induction h with
  | nil => exact .nil
  | cons ha _ ih =>
    obtain ⟨hhead, htail⟩ := List.append_inj heq ha
    exact .cons hhead (ih htail)

end

mutual

lemma digestWith_congr : ∀ {u u' : CodeUnit}, SameParts u u' →
    digestWith hash u = digestWith hash u'
  | _, _, .unit hcode hslots hconstants hthunks hclosures => by
    rw [digestWith, digestWith, digests_congr hthunks, closureDigests_congr hclosures]
    unfold ownPreimage
    rw [hcode, hslots]
    exact congrArg (fun pool => hash (_ ++ pool ++ _ ++ _)) (flatMap_congr_forall₂ hconstants)

lemma digests_congr : ∀ {us us' : List CodeUnit}, AllAlike (· = ·) us us' →
    digests hash us = digests hash us'
  | _, _, .nil => rfl
  | _, _, .cons h hs => by rw [digests, digests, digestWith_congr h, digests_congr hs]

lemma closureDigests_congr : ∀ {fs fs' : List FunctionUnit}, ClosuresAlike (· = ·) fs fs' →
    closureDigests hash fs = closureDigests hash fs'
  | _, _, .nil => rfl
  | _, _, .cons hformals hbody hs => by
    rw [closureDigests, closureDigests, formalDigests_congr hformals, digestWith_congr hbody,
      closureDigests_congr hs]

lemma formalDigests_congr : ∀ {fs fs' : List (Formal CodeUnit)}, FormalsAlike (· = ·) fs fs' →
    formalDigests hash fs = formalDigests hash fs'
  | _, _, .nil => rfl
  | _, _, .bare hname hs => by
    rw [formalDigests, formalDigests, formalDigests_congr hs]
    exact congrArg (· ++ _) hname
  | _, _, .byDefault hname hu hs => by
    rw [formalDigests, formalDigests, digestWith_congr hu, formalDigests_congr hs]
    exact congrArg (· ++ _ ++ _) hname

end

/-! ## The same digest has the same parts -/

section

variable {n : Nat} (hlen : ∀ m, (hash m).length = n)

include hlen

lemma length_digestWith (u : CodeUnit) : (digestWith hash u).length = n := by
  obtain ⟨_, _, _, _, _, _⟩ := u
  rw [digestWith]
  exact hlen _

lemma length_digests : ∀ {us us' : List CodeUnit},
    AllAlike (fun bs bs' => bs.length = bs'.length) us us' →
      (digests hash us).length = (digests hash us').length
  | _, _, .nil => rfl
  | _, _, .cons _ hs => by
    rw [digests, digests, List.length_append, List.length_append, length_digestWith hlen,
      length_digestWith hlen, length_digests hs]

lemma length_formalDigests : ∀ {fs fs' : List (Formal CodeUnit)},
    FormalsAlike (fun bs bs' => bs.length = bs'.length) fs fs' →
      (formalDigests hash fs).length = (formalDigests hash fs').length
  | _, _, .nil => rfl
  | _, _, .bare hname hs => by
    rw [formalDigests, formalDigests, List.length_append, List.length_append,
      length_formalDigests hs]
    exact congrArg (· + _) hname
  | _, _, .byDefault hname _ hs => by
    rw [formalDigests, formalDigests, List.length_append, List.length_append, List.length_append,
      List.length_append, length_digestWith hlen, length_digestWith hlen, length_formalDigests hs]
    exact congrArg (· + n + _) hname

lemma length_closureDigests : ∀ {fs fs' : List FunctionUnit},
    ClosuresAlike (fun bs bs' => bs.length = bs'.length) fs fs' →
      (closureDigests hash fs).length = (closureDigests hash fs').length
  | _, _, .nil => rfl
  | _, _, .cons hformals _ hs => by
    rw [closureDigests, closureDigests, List.length_append, List.length_append, List.length_append,
      List.length_append, length_digestWith hlen, length_digestWith hlen,
      length_formalDigests hlen hformals, length_closureDigests hs]

variable {M M' : List (List UInt8)}

mutual

lemma sameParts_of_digestWith (hfree : TellsApart hash M M') : ∀ {u u' : CodeUnit},
    SameLayout u u' → messages hash u ⊆ M → messages hash u' ⊆ M' →
      digestWith hash u = digestWith hash u' → SameParts u u'
  | _, _, .unit hcode hslots hconstants hthunks hclosures, hM, hM', heq => by
    rw [messages, List.cons_subset, List.append_subset] at hM hM'
    rw [digestWith, digestWith] at heq
    -- The parts are taken off from behind, each with its length.
    obtain ⟨heq, hclosureDigests⟩ := List.append_inj' (hfree _ hM.1 _ hM'.1 heq)
      (length_closureDigests hlen hclosures)
    obtain ⟨heq, hdigests⟩ := List.append_inj' heq (length_digests hlen hthunks)
    obtain ⟨heq, hpool⟩ := List.append_inj' heq (length_flatMap_forall₂ hconstants)
    obtain ⟨hcode', hslots'⟩ := List.append_inj heq hcode
    exact .unit hcode' hslots' (forall₂_of_flatMap hconstants hpool)
      (allAlike_of_digests hfree hthunks hM.2.1 hM'.2.1 hdigests)
      (closuresAlike_of_digests hfree hclosures hM.2.2 hM'.2.2 hclosureDigests)

lemma allAlike_of_digests (hfree : TellsApart hash M M') : ∀ {us us' : List CodeUnit},
    AllAlike (fun bs bs' => bs.length = bs'.length) us us' → messagesOfAll hash us ⊆ M →
    messagesOfAll hash us' ⊆ M' → digests hash us = digests hash us' → AllAlike (· = ·) us us'
  | _, _, .nil, _, _, _ => .nil
  | _, _, .cons hu hs, hM, hM', heq => by
    rw [messagesOfAll, List.append_subset] at hM hM'
    rw [digests, digests] at heq
    obtain ⟨hdigest, hdigests⟩ := List.append_inj heq
      ((length_digestWith hlen _).trans (length_digestWith hlen _).symm)
    exact .cons (sameParts_of_digestWith hfree hu hM.1 hM'.1 hdigest)
      (allAlike_of_digests hfree hs hM.2 hM'.2 hdigests)

lemma closuresAlike_of_digests (hfree : TellsApart hash M M') : ∀ {fs fs' : List FunctionUnit},
    ClosuresAlike (fun bs bs' => bs.length = bs'.length) fs fs' → messagesOfClosures hash fs ⊆ M →
    messagesOfClosures hash fs' ⊆ M' → closureDigests hash fs = closureDigests hash fs' →
      ClosuresAlike (· = ·) fs fs'
  | _, _, .nil, _, _, _ => .nil
  | _, _, .cons hformals hbody hs, hM, hM', heq => by
    rw [messagesOfClosures, List.append_subset, List.append_subset] at hM hM'
    rw [closureDigests, closureDigests] at heq
    obtain ⟨heq, hrest⟩ := List.append_inj' heq (length_closureDigests hlen hs)
    obtain ⟨hformalDigests, hdigest⟩ := List.append_inj heq (length_formalDigests hlen hformals)
    exact .cons (formalsAlike_of_digests hfree hformals hM.1.1 hM'.1.1 hformalDigests)
      (sameParts_of_digestWith hfree hbody hM.1.2 hM'.1.2 hdigest)
      (closuresAlike_of_digests hfree hs hM.2 hM'.2 hrest)

lemma formalsAlike_of_digests (hfree : TellsApart hash M M') : ∀ {fs fs' : List (Formal CodeUnit)},
    FormalsAlike (fun bs bs' => bs.length = bs'.length) fs fs' → messagesOfFormals hash fs ⊆ M →
    messagesOfFormals hash fs' ⊆ M' → formalDigests hash fs = formalDigests hash fs' →
      FormalsAlike (· = ·) fs fs'
  | _, _, .nil, _, _, _ => .nil
  | _, _, .bare hname hs, hM, hM', heq => by
    rw [messagesOfFormals] at hM hM'
    rw [formalDigests, formalDigests] at heq
    obtain ⟨hname', hrest⟩ := List.append_inj heq hname
    exact .bare hname' (formalsAlike_of_digests hfree hs hM hM' hrest)
  | _, _, .byDefault hname hu hs, hM, hM', heq => by
    rw [messagesOfFormals, List.append_subset] at hM hM'
    rw [formalDigests, formalDigests] at heq
    obtain ⟨heq, hrest⟩ := List.append_inj' heq (length_formalDigests hlen hs)
    obtain ⟨hname', hdigest⟩ := List.append_inj heq hname
    exact .byDefault hname' (sameParts_of_digestWith hfree hu hM.1 hM'.1 hdigest)
      (formalsAlike_of_digests hfree hs hM.2 hM'.2 hrest)

end

end

/-- Of units with parts of the same lengths the digest identifies the parts, as long as the messages
that are hashed for them do not collide. -/
theorem digestWith_eq_iff {n : Nat} (hlen : ∀ m, (hash m).length = n) {u u' : CodeUnit}
    (hfree : TellsApart hash (messages hash u) (messages hash u')) (hlayout : SameLayout u u') :
    digestWith hash u = digestWith hash u' ↔ SameParts u u' :=
  ⟨sameParts_of_digestWith hlen hfree hlayout (List.Subset.refl _) (List.Subset.refl _),
    digestWith_congr⟩

/-! ## Fingerprints -/

lemma hex_injective {bs bs' : List UInt8} (h : Sha256.hex bs = Sha256.hex bs') : bs = bs' := by
  have hdigit : ∀ m < 16, ∀ n < 16,
      (if m < 10 then Char.ofNat ('0'.toNat + m) else Char.ofNat ('a'.toNat + (m - 10))) =
        (if n < 10 then Char.ofNat ('0'.toNat + n) else Char.ofNat ('a'.toNat + (n - 10))) →
      m = n := by decide
  unfold Sha256.hex at h
  replace h := String.ofList_injective h
  dsimp only at h
  induction bs generalizing bs' with
  | nil =>
    cases bs' with
    | nil => rfl
    | cons b' bs' => cases h
  | cons b bs ih =>
    cases bs' with
    | nil => cases h
    | cons b' bs' =>
      rw [List.flatMap_cons, List.flatMap_cons] at h
      obtain ⟨hb, hrest⟩ := List.append_inj h rfl
      rw [List.cons.injEq, List.cons.injEq] at hb
      have hlt := b.toNat_lt
      have hlt' := b'.toNat_lt
      have hhigh := hdigit _ (by omega) _ (by omega) hb.1
      have hlow := hdigit _ (by omega) _ (by omega) hb.2.1
      rw [ih hrest, UInt8.toNat_inj.1 (show b.toNat = b'.toNat by omega)]

/-- Of units with parts of the same lengths the fingerprint identifies the parts, as long as the
messages that are hashed for them do not collide. -/
theorem fingerprint_eq_iff {u u' : CodeUnit}
    (hfree : TellsApart Sha256.digest (messages Sha256.digest u) (messages Sha256.digest u'))
    (hlayout : SameLayout u u') : u.fingerprint = u'.fingerprint ↔ SameParts u u' := by
  rw [← digestWith_eq_iff (n := 32) (fun _ => rfl) hfree hlayout]
  exact ⟨hex_injective, congrArg Sha256.hex⟩

/-! ## Lengths are not covered -/

lemma formalDigests_of_bare {formals : List (Formal CodeUnit)}
    (h : ∀ f ∈ formals, f.default = none) :
    formalDigests hash formals = formals.flatMap fun f => f.name.bytes := by
  induction formals with
  | nil => rfl
  | cons f formals ih =>
    obtain ⟨hf, hformals⟩ := List.forall_mem_cons.1 h
    obtain ⟨name, default⟩ := f
    obtain rfl : default = none := hf
    rw [formalDigests, ih hformals, List.flatMap_cons]
    rfl

section

variable {name name' function function' : String} {code : Bytes} {constants : Array Constant}
  {slots : Nat} {thunks : List CodeUnit} {formals formals' : List (Formal CodeUnit)}
  {body : CodeUnit} {closures : List FunctionUnit}

/-- Function literals without defaults whose names make the same text in a row are not told apart,
whatever the hash function is. -/
theorem digestWith_congr_text (hash : List UInt8 → List UInt8)
    (hbare : ∀ f ∈ formals ++ formals', f.default = none)
    (htext : (formals.flatMap fun f => f.name.bytes) = formals'.flatMap fun f => f.name.bytes) :
    digestWith hash ⟨name, code, constants, slots, thunks, ⟨function, formals, body⟩ :: closures⟩ =
      digestWith hash
        ⟨name', code, constants, slots, thunks, ⟨function', formals', body⟩ :: closures⟩ := by
  obtain ⟨hbare, hbare'⟩ := List.forall_mem_append.1 hbare
  rw [digestWith, digestWith, closureDigests, closureDigests, formalDigests_of_bare hbare,
    formalDigests_of_bare hbare', htext]

/-- One formal of two letters and two formals of one letter. -/
example :
    fingerprint ⟨name, code, constants, slots, thunks, [⟨function, [⟨⟨"ab"⟩, none⟩], body⟩]⟩ =
      fingerprint ⟨name', code, constants, slots, thunks,
        [⟨function', [⟨⟨"a"⟩, none⟩, ⟨⟨"b"⟩, none⟩], body⟩]⟩ :=
  congrArg Sha256.hex (digestWith_congr_text Sha256.digest (by simp) (by cbv))

end

end CodeUnit

end CallByNeed
