import CallByNeed.Proofs.Flow.Lines
import CallByNeed.Proofs.Source.Operands

/-!
# Lines that carry out an evaluation

The lines drafted for an expression, followed by the operand that holds its value, carry out what the
expression means (`Achieves`), whatever lines come behind them. An operand may be evaluated long after
the lines in front of it, so that this says what has been reached when the lines are through, and
leaves the operand to what comes next. Slots that were handed out earlier stay as they are.
-/

namespace CallByNeed.Flow

open Action

variable {α β : Type}

/-! ## Frames -/

/-- The number of a slot. Temporaries and local variables are numbered together. -/
def SlotKey.number : SlotKey → Nat
  | .temp id | .local id => id

namespace Frame

variable {F G : Frame} {n m : Nat}

/-- The slots below a number are as they were. -/
def Kept (n : Nat) (F G : Frame) : Prop := ∀ k : SlotKey, k.number < n → G.slots k = F.slots k

lemma Kept.refl (n : Nat) (F : Frame) : Kept n F F := fun _ _ => rfl

lemma Kept.trans {H : Frame} (h : Kept n F G) (h' : Kept n G H) : Kept n F H := fun k hk =>
  (h' k hk).trans (h k hk)

lemma Kept.mono (hle : n ≤ m) (h : Kept m F G) : Kept n F G := fun k hk =>
  h k (Nat.lt_of_lt_of_le hk hle)

lemma Kept.of_slots (h : G.slots = F.slots) : Kept n F G := fun k _ => congrFun h k

@[simp] lemma set_same (F : Frame) (key : SlotKey) (v : Value) :
    (F.set key v).slots key = some v := by
  simp [set]

lemma Kept.set {key : SlotKey} (hkey : n ≤ key.number) (v : Value) : Kept n F (F.set key v) := by
  intro k hk
  have hne : k ≠ key := by
    rintro rfl
    omega
  simp [Frame.set, hne]

end Frame

/-- Running a return. -/
lemma Scene.statement_ret {X : Scene} (t : Term) (F : Frame) (s : Store) :
    X.statement (.ret t) F s = match X.term t F s with
      | .ok (v, G) s' => .ok (.ret v, G) s'
      | .error e s' => .error e s' := by
  rw [statement, bind_apply]
  cases X.term t F s <;> rfl

/-- What an operand without effect holds, and what stands in the place of `...`. -/
def Term.held (F : Frame) : Term → Option Value
  | .int n => some (.int n)
  | .literal e => some (.ofExpr e)
  | .temp id => F.slots (.temp id)
  | .local id _ => F.slots (.local id)
  | .ellipsis => some .null
  | _ => none

namespace Term

variable {t : Term} {F G : Frame} {n : Nat}

/-- The operand reads slots below a number only. -/
def Low (n : Nat) (t : Term) : Prop := ∀ k ∈ t.reads, k.number < n

lemma Low.mono {m : Nat} (hle : n ≤ m) (h : t.Low n) : t.Low m := fun k hk =>
  Nat.lt_of_lt_of_le (h k hk) hle

/-- What an operand holds is kept with the slots that it reads. -/
lemma held_of_kept (h : t.Low n) (hkept : F.Kept n G) : t.held G = t.held F := by
  cases t with
  | temp id => exact hkept _ (h _ (List.mem_singleton.2 rfl))
  | «local» id name => exact hkept _ (h _ (List.mem_singleton.2 rfl))
  | _ => rfl

end Term

namespace Scene

variable {X : Scene} {t : Term} {F G : Frame} {v : Value} {s : Store}

/-- An operand without effect gives what it holds. -/
lemma term_of_held (ht : t.isTrivial = true) (hv : t.held F = some v) :
    X.term t F s = .ok (v, F) s := by
  cases t with
  | int n =>
    cases hv
    rfl
  | literal e =>
    cases hv
    rfl
  | temp id =>
    rw [term, read_apply, show F.slots (.temp id) = some v from hv]
  | «local» id name =>
    rw [term, read_apply, show F.slots (.local id) = some v from hv]
  | _ => cases ht

/-- The values of operands that are held. -/
lemma values_of_held {ts : List Term} {vs : List Value}
    (h : List.Forall₂ (fun t v => (t.isTrivial = true ∨ t.isEllipsis = true) ∧ t.held F = some v)
      ts vs) : X.values ts F s = .ok (vs, F) s := by
  induction h with
  | nil => rfl
  | @cons t v ts vs ht _ ih =>
    obtain ⟨ht, hv⟩ := ht
    rcases ht with ht | ht
    · have hne : t = .ellipsis → False := by
        rintro rfl
        cases ht
      rw [values, bind_apply]
      · simp only [term_of_held ht hv, bind_apply, ih]
        rfl
      · exact hne
    · cases t with
      | ellipsis =>
        cases hv
        rw [values, bind_apply]
        show (do let rest ← X.values ts; pure (Value.null :: rest) : Action _) F s = _
        rw [bind_apply, ih]
        rfl
      | _ => cases ht

end Scene

/-! ## Carrying out -/

/-- The lines carry out the evaluation: a run that comes to them gets behind them, with the result as
`post` says of the frame, the store and the result, and the run ends as the evaluation and what
follows it does. A result may be an error that the run will only meet behind the lines. -/
def Achieves (X : Scene) (b : Body) (n : Nat) (lines : Body)
    (post : Frame → Store → Result α → Prop) (M : Eval α) : Prop :=
  ∀ (rest : Body) (F : Frame) (s : Store) (next : α → Eval Value), lines ++ rest <:+ b →
    (∀ G t, F.Kept n G → post G t (M s) →
      Ends (X.along (Graph.ofBody b)) (rest.cursor, G) t ((M >>= next) s)) →
    Ends (X.along (Graph.ofBody b)) ((lines ++ rest).cursor, F) s ((M >>= next) s)

/-- What is left is to evaluate an operand. One without effect has its value already. -/
structure Awaits (X : Scene) (t : Term) (F : Frame) (s : Store) (r : Result Value) : Prop where
  yields : Yields F (X.term t F s) r
  held : t.isTrivial = true → ∃ v, t.held F = some v

lemma Awaits.result_of_held {X : Scene} {t : Term} {F : Frame} {s : Store} {r : Result Value}
    (h : Awaits X t F s r) (ht : t.isTrivial = true) {v : Value} (hv : t.held F = some v) :
    r = .ok v s := by
  have hyields := h.yields
  rw [Scene.term_of_held ht hv] at hyields
  cases hyields
  rfl

/-- A slot holds the value. -/
def Stored (key : SlotKey) (F : Frame) (s : Store) (r : Result Value) : Prop :=
  ∃ v, r = .ok v s ∧ F.slots key = some v

/-- What reads the slot gives the value. -/
lemma Stored.awaits {X : Scene} {r : Nat} {F : Frame} {s : Store} {m : Result Value}
    (h : Stored (.temp r) F s m) : Awaits X (.temp r) F s m := by
  obtain ⟨v, rfl, hv⟩ := h
  refine ⟨?_, fun _ => ⟨v, hv⟩⟩
  rw [Scene.term_of_held (t := .temp r) rfl hv]
  exact .ok v rfl s

lemma Eval.bind_ok {M : Eval α} {f : α → Eval β} {s t : Store} {a : α} (h : M s = .ok a t) :
    (M >>= f) s = f a t := by
  rw [CallByNeed.Eval.bind_apply, h]

lemma Eval.bind_error {M : Eval α} {f : α → Eval β} {s t : Store} {e : Halt}
    (h : M s = .error e t) : (M >>= f) s = .error e t := by
  rw [CallByNeed.Eval.bind_apply, h]

namespace Achieves

variable {X : Scene} {b lines lines' rest : Body} {n : Nat} {t : Term} {F : Frame} {s : Store}
  {post post' : Frame → Store → Result α → Prop} {M : Eval α} {key : SlotKey} {target : Target}

/-- No lines at all. -/
lemma nil (h : ∀ F s, post F s (M s)) : Achieves X b n [] post M := fun _ F s _ _ hnext =>
  hnext F s (.refl n F) (h F s)

lemma imp (h : Achieves X b n lines post M) (hpost : ∀ F s r, post F s r → post' F s r) :
    Achieves X b n lines post' M := fun rest F s next hsuffix hnext =>
  h rest F s next hsuffix fun G t hkept hG => hnext G t hkept (hpost G t _ hG)

/-- What is left to do with a result that the lines end with. -/
lemma andThen {R : Frame → α → Prop} {g : α → Eval β}
    {post' : Frame → Store → Result β → Prop}
    (h : Achieves X b n lines (fun F s r => ∃ a, r = .ok a s ∧ R F a) M)
    (h' : ∀ F s a, R F a → post' F s (g a s)) : Achieves X b n lines post' (M >>= g) := by
  intro rest F s next hsuffix hnext
  rw [bind_assoc] at hnext ⊢
  refine h rest F s _ hsuffix fun G t hkept hG => ?_
  obtain ⟨a, ha, hR⟩ := hG
  refine hnext G t hkept ?_
  rw [Eval.bind_ok ha]
  exact h' G t a hR

/-- Lines that come behind others. -/
lemma bind {g : α → Eval β} {post' : Frame → Store → Result β → Prop}
    (h : Achieves X b n lines (fun _ s r => ∃ a, r = .ok a s) M)
    (h' : ∀ a, Achieves X b n lines' post' (g a)) :
    Achieves X b n (lines ++ lines') post' (M >>= g) := by
  intro rest F s next hsuffix hnext
  rw [List.append_assoc] at hsuffix ⊢
  rw [bind_assoc] at hnext ⊢
  refine h _ F s _ hsuffix fun G t hkept hG => ?_
  obtain ⟨a, ha⟩ := hG
  rw [Eval.bind_ok ha]
  refine h' a rest G t next ((List.suffix_append _ _).trans hsuffix) fun H u hkept' hH => ?_
  have hnext := hnext H u (hkept.trans hkept')
  rw [Eval.bind_ok ha, Eval.bind_ok ha] at hnext
  exact hnext hH

/-- What is left to do with a result that is still to be evaluated. -/
lemma extend {u : Term} {M : Eval Value} {g : Value → Eval Value}
    (h : Achieves X b n lines (Awaits X t) M) (hu : u.isTrivial = false)
    (h' : ∀ F s s', Yields F (X.term t F s) (M s') → Yields F (X.term u F s) ((M >>= g) s')) :
    Achieves X b n lines (Awaits X u) (M >>= g) := by
  intro rest F s next hsuffix hnext
  rw [bind_assoc] at hnext ⊢
  refine h rest F s _ hsuffix fun G t hkept hG => hnext G t hkept ⟨h' G t s hG.yields, fun htrivial => ?_⟩
  rw [hu] at htrivial
  cases htrivial

/-- Running an assignment to a slot. -/
lemma statement_keep (htarget : target.slotKey? = some key) :
    X.statement (.assign target t) F s = match X.term t F s with
      | .ok (v, G) s' => .ok (.next, G.set key v) s'
      | .error e s' => .error e s' := by
  have hstore : ∀ v G s', X.store v target G s' = .ok (⟨⟩, G.set key v) s' := by
    intro v G s'
    cases target <;> cases htarget <;> rfl
  rw [Scene.statement, bind_apply]
  cases X.term t F s with
  | error e s' => rfl
  | ok r s' =>
    dsimp only
    rw [bind_apply, hstore]
    rfl

/-- The operand is put into a slot. -/
lemma keep {M : Eval Value} (target : Target) (hb : b.labels.Nodup)
    (h : Achieves X b n lines (Awaits X t) M) (htarget : target.slotKey? = some key) (hkey : n ≤ key.number) :
    Achieves X b n (lines ++ [.statement (.assign target t)]) (Stored key) M := by
  intro rest F s next hsuffix hnext
  rw [List.append_assoc] at hsuffix ⊢
  refine h _ F s next hsuffix fun G t' hkept hawaits => ?_
  have hst := statement_keep (X := X) (t := t) (F := G) (s := t') htarget
  rcases hawaits.yields.cases with ⟨v, G', u, hterm, hslots, hM⟩ | ⟨e, u, hterm, hM⟩
  · rw [hterm] at hst
    refine (Scene.reaches_next hb ((List.suffix_append _ _).trans hsuffix) rfl hst).ends ?_
    refine hnext _ _ ((hkept.trans (.of_slots hslots)).trans (.set hkey v)) ?_
    exact ⟨v, hM, Frame.set_same _ _ _⟩
  · rw [hterm] at hst
    rw [Eval.bind_error hM]
    exact Scene.ends_error hst

/-- A variable is set to what a slot holds. -/
lemma assign {M : Eval Value} {r : Nat} {name : Symbol} (hb : b.labels.Nodup)
    (h : Achieves X b n lines (Stored (.temp r)) M) :
    Achieves X b n (lines ++ [.statement (.assign (.env name) (.temp r))]) (Stored (.temp r))
      (Meaning.assign X.env name M) := by
  intro rest F s next hsuffix hnext
  rw [List.append_assoc] at hsuffix ⊢
  have hassoc : (Meaning.assign X.env name M >>= next) s
      = (M >>= fun v => (do Eval.setVariable X.env name v; pure v) >>= next) s := by
    unfold Meaning.assign
    rw [bind_assoc]
  rw [hassoc]
  refine h _ F s _ hsuffix fun G t hkept hstored => ?_
  obtain ⟨v, hM, hv⟩ := hstored
  have hst : X.statement (.assign (.env name) (.temp r)) G t
      = .ok (.next, G) (t.set X.env name v) := by
    rw [Scene.statement, bind_apply, Scene.term_of_held (t := .temp r) rfl hv]
    rfl
  refine (Scene.reaches_next hb ((List.suffix_append _ _).trans hsuffix) rfl hst).ends ?_
  rw [← hassoc]
  refine hnext G _ hkept ⟨v, ?_, hv⟩
  unfold Meaning.assign
  rw [Eval.bind_ok hM]
  rfl

/-- An operand is evaluated for its effect. -/
lemma effect {M : Eval Value} (hb : b.labels.Nodup) (h : Achieves X b n lines (Awaits X t) M) :
    Achieves X b n (lines ++ effectOf t) (fun _ s r => ∃ v, r = .ok v s) M := by
  unfold effectOf
  split
  · rename_i htrivial
    rw [List.append_nil]
    intro rest F s next hsuffix hnext
    refine h rest F s next hsuffix fun G u hkept hawaits => ?_
    obtain ⟨v, hv⟩ := hawaits.held htrivial
    exact hnext G u hkept ⟨v, hawaits.result_of_held htrivial hv⟩
  · intro rest F s next hsuffix hnext
    rw [List.append_assoc] at hsuffix ⊢
    refine h _ F s next hsuffix fun G u hkept hawaits => ?_
    have hst : X.statement (.eval t) G u = match X.term t G u with
        | .ok (_, G) u => .ok (.next, G) u
        | .error e u => .error e u := by
      rw [Scene.statement, bind_apply]
      cases X.term t G u <;> rfl
    rcases hawaits.yields.cases with ⟨v, G', w, hterm, hslots, hM⟩ | ⟨e, w, hterm, hM⟩
    · rw [hterm] at hst
      refine (Scene.reaches_next hb ((List.suffix_append _ _).trans hsuffix) rfl hst).ends ?_
      exact hnext _ _ (hkept.trans (.of_slots hslots)) ⟨v, hM⟩
    · rw [hterm] at hst
      rw [Eval.bind_error hM]
      exact Scene.ends_error hst

/-- Lines that keep more slots. -/
lemma weaken {m : Nat} (hle : n ≤ m) (h : Achieves X b m lines post M) :
    Achieves X b n lines post M := fun rest F s next hsuffix hnext =>
  h rest F s next hsuffix fun G t hkept => hnext G t (hkept.mono hle)

/-- An arm of a conditional: the value goes into a slot, and the run goes on behind the label. -/
lemma arm {M : Eval Value} {r : Nat} {l : Label} {tail : Body} (hb : b.labels.Nodup)
    (h : Achieves X b n lines (Awaits X t) M) (hr : n ≤ r)
    (hsuffix : lines ++ (.statement (.assign (.temp r) t) :: .statement (.goto l) :: tail) <:+ b)
    (htarget : .label l :: rest <:+ b) {next : Value → Eval Value}
    (hnext : ∀ G t, F.Kept n G → Stored (.temp r) G t (M s) →
      Ends (X.along (Graph.ofBody b)) (rest.cursor, G) t ((M >>= next) s)) :
    Ends (X.along (Graph.ofBody b))
      ((lines ++ (.statement (.assign (.temp r) t) :: .statement (.goto l) :: tail)).cursor, F) s
      ((M >>= next) s) := by
  have hkeep := h.keep (.temp r) hb rfl hr (.statement (.goto l) :: tail) F s next
  rw [List.append_assoc] at hkeep
  refine hkeep hsuffix fun G u hkept hstored => ?_
  have hst : X.statement (.goto l) G u = .ok (.jump l, G) u := rfl
  exact (Scene.advances_jump hb rfl hst htarget).reaches.ends (hnext G u hkept hstored)

/-- A conditional. -/
lemma choice {C Y N : Eval Value} {m r l : Nat} {bc yb nb : Body} {tc ty tn : Term}
    (hb : b.labels.Nodup) (hc : Achieves X b n bc (Awaits X tc) C)
    (hy : Achieves X b m yb (Awaits X ty) Y) (hn : Achieves X b m nb (Awaits X tn) N) (hr : n ≤ r)
    (hm : n ≤ m) :
    Achieves X b n (choiceLines bc yb nb tc ty tn r l) (Stored (.temp r)) (Meaning.branch C Y N) := by
  intro rest F s next hsuffix hnext
  unfold choiceLines at hsuffix ⊢
  simp only [List.append_assoc, List.cons_append, List.nil_append] at hsuffix ⊢
  have hbranch := (List.suffix_append _ _).trans hsuffix
  have hyes := (List.suffix_cons _ _).trans hbranch
  have hassign := (List.suffix_append _ _).trans ((List.suffix_cons _ _).trans hyes)
  have hno := (List.suffix_cons _ _).trans ((List.suffix_cons _ _).trans hassign)
  have hdone := (List.suffix_cons _ _).trans ((List.suffix_cons _ _).trans
    ((List.suffix_append _ _).trans ((List.suffix_cons _ _).trans hno)))
  have hassoc : (Meaning.branch C Y N >>= next) s
      = (C >>= fun v => (do if ← Eval.ofExcept v.truthy then Y else N) >>= next) s := by
    unfold Meaning.branch
    rw [bind_assoc]
  rw [hassoc] at hnext ⊢
  refine hc _ F s _ hsuffix fun G u hkept hawaits => ?_
  have hst : X.statement (.branch tc ⟨l⟩ ⟨l + 1⟩) G u = match X.term tc G u with
      | .error e u => .error e u
      | .ok (v, G) u => match v.truthy with
        | .error e => .error (.error e) u
        | .ok t => .ok (.jump (if t then ⟨l⟩ else ⟨l + 1⟩), G) u := by
    rw [Scene.statement, bind_apply]
    cases X.term tc G u with
    | error e u => rfl
    | ok r u =>
      obtain ⟨v, G⟩ := r
      dsimp only
      cases v.truthy <;> rfl
  rcases hawaits.yields.cases with ⟨v, G', w, hterm, hslots, hC⟩ | ⟨e, w, hterm, hC⟩
  · rw [hterm] at hst
    have hvalue : (Meaning.branch C Y N) s
        = (do if ← Eval.ofExcept v.truthy then Y else N : Eval Value) w := by
      unfold Meaning.branch
      rw [Eval.bind_ok hC]
    rw [hvalue] at hnext
    rw [Eval.bind_ok hC] at hnext ⊢
    dsimp only at hst
    have hkept' : F.Kept n G' := hkept.trans (.of_slots hslots)
    revert hst hnext
    cases v.truthy with
    | error e =>
      intro hnext hst
      exact Scene.ends_error hst
    | ok t =>
      cases t with
      | true =>
        intro hnext hst
        refine (Scene.advances_jump hb rfl hst hyes).reaches.ends ?_
        exact (hy.weaken hm).arm hb hr ((List.suffix_cons _ _).trans hyes) hdone
          fun H x hkept => hnext H x (hkept'.trans hkept)
      | false =>
        intro hnext hst
        refine (Scene.advances_jump hb rfl hst hno).reaches.ends ?_
        exact (hn.weaken hm).arm hb hr ((List.suffix_cons _ _).trans hno) hdone
          fun H x hkept => hnext H x (hkept'.trans hkept)
  · rw [hterm] at hst
    rw [Eval.bind_error hC]
    exact Scene.ends_error hst

end Achieves

/-! ## Loops -/

/-- Counting on stays within the native integers below one of them. -/
lemma successor_ofNat {i : Nat} {n : Int32} (h : i < n.toInt.toNat) (s : Store) :
    successor (Int32.ofNat i) s = .ok (Int32.ofNat (i + 1)) s := by
  have hmax := n.toInt_lt
  have hi : (Int32.ofNat i).toInt = i := Int32.toInt_ofNat_of_lt (by omega)
  rw [successor_apply, hi, Value.int32?, if_pos]
  · rfl
  · constructor
    · have : Int32.minValue.toInt ≤ 0 := by decide
      omega
    · have : Int32.maxValue.toInt = 2147483647 := by decide
      omega

/-- Whether a loop is through. -/
lemma atLeast_ofNat {i : Nat} {n : Int32} (h : i ≤ n.toInt.toNat) :
    (Value.int (Int32.ofNat i)).atLeast (.int n) = .ok (i = n.toInt.toNat) := by
  have hmax := n.toInt_lt
  have hi : (Int32.ofNat i).toInt = i := Int32.toInt_ofNat_of_lt (by omega)
  show Except.ok (decide (n ≤ Int32.ofNat i)) = _
  congr 1
  rw [decide_eq_decide, Int32.le_iff_toInt_le, hi]
  omega

namespace Scene

variable {X : Scene} {F : Frame} {s : Store} {n : Nat}

/-- An integer is a native one. -/
lemma native_apply (i : Int32) (F : Frame) (s : Store) :
    lift (Eval.ofExcept ((Value.int i).asInt "integer operand")) F s = .ok (i, F) s := rfl

/-- Taking the length of a sequence. -/
lemma statement_length {seq : Nat} {v : Value} (hseq : F.slots (.temp seq) = some v) :
    X.statement (.assign (.local n ⟨"length"⟩) (.length (.temp seq))) F s
      = match Builtin.lengthOf v with
        | .ok N => .ok (.next, F.set (.local n) (.int N)) s
        | .error e => .error (.error e) s := by
  have hterm : X.term (.temp seq) F s = .ok (v, F) s := term_of_held (t := .temp seq) rfl hseq
  rw [Achieves.statement_keep rfl, term, bind_apply, hterm]
  dsimp only
  rw [bind_apply, lift_apply]
  cases Builtin.lengthOf v <;> rfl

/-- Comparing the counter of a loop with the length. -/
lemma statement_branch_counter {i : Nat} {N : Int32} (exit inside : Label)
    (hlength : F.slots (.local n) = some (.int N))
    (hcounter : F.slots (.local (n + 1)) = some (.int (Int32.ofNat i))) (h : i ≤ N.toInt.toNat) :
    X.statement (.branch (.atLeast (counterOf n) (.local n ⟨"length"⟩)) exit inside) F s
      = .ok (.jump (if i = N.toInt.toNat then exit else inside), F) s := by
  have hleft : ∀ s, X.term (counterOf n) F s = .ok (.int (Int32.ofNat i), F) s := fun s =>
    term_of_held (t := .local (n + 1) ⟨"i"⟩) rfl hcounter
  have hright : ∀ s, X.term (.local n ⟨"length"⟩) F s = .ok (.int N, F) s := fun s =>
    term_of_held (t := .local n ⟨"length"⟩) rfl hlength
  have hterm : X.term (.atLeast (counterOf n) (.local n ⟨"length"⟩)) F s
      = .ok (.logical (i = N.toInt.toNat), F) s := by
    rw [term, bind_apply, hleft]
    dsimp only
    rw [bind_apply, hright]
    dsimp only
    rw [bind_apply, lift_apply, atLeast_ofNat h]
    rfl
  rw [statement, bind_apply, hterm]
  dsimp only
  rw [bind_apply, lift_apply]
  simp only [Value.truthy]
  show EStateM.Result.ok _ s = _
  simp

/-- Taking the element at the counter of a loop. -/
lemma statement_element {seq i : Nat} {v : Value} (name : Symbol)
    (hseq : F.slots (.temp seq) = some v)
    (hcounter : F.slots (.local (n + 1)) = some (.int (Int32.ofNat i))) :
    X.statement (.assign (.env name) (.element (.temp seq) (counterOf n))) F s
      = match v.elementAt (Int32.ofNat i) with
        | .ok x => .ok (.next, F) (s.set X.env name x)
        | .error e => .error (.error e) s := by
  have hleft : ∀ s, X.term (.temp seq) F s = .ok (v, F) s := fun s =>
    term_of_held (t := .temp seq) rfl hseq
  have hright : ∀ s, X.term (counterOf n) F s = .ok (.int (Int32.ofNat i), F) s := fun s =>
    term_of_held (t := .local (n + 1) ⟨"i"⟩) rfl hcounter
  rw [statement, bind_apply, term, bind_apply, hleft]
  dsimp only
  rw [bind_apply, hright]
  dsimp only
  rw [bind_apply, native_apply]
  dsimp only
  rw [lift_apply]
  cases v.elementAt (Int32.ofNat i) <;> rfl

/-- Counting on. -/
lemma statement_increment {i : Nat} {N : Int32}
    (hcounter : F.slots (.local (n + 1)) = some (.int (Int32.ofNat i))) (h : i < N.toInt.toNat) :
    X.statement (.assign (.local (n + 1) ⟨"i"⟩) (.increment (counterOf n))) F s
      = .ok (.next, F.set (.local (n + 1)) (.int (Int32.ofNat (i + 1)))) s := by
  have hterm : X.term (counterOf n) F s = .ok (.int (Int32.ofNat i), F) s :=
    term_of_held (t := .local (n + 1) ⟨"i"⟩) rfl hcounter
  rw [Achieves.statement_keep rfl, term, bind_apply, hterm]
  dsimp only
  rw [bind_apply, native_apply]
  dsimp only
  rw [bind_apply, lift_apply, successor_ofNat h]
  rfl

end Scene

namespace Achieves

variable {X : Scene} {b rest be : Body} {n m q len l : Nat} {te : Term} {B : Eval Value}
  {name : Symbol}

/-- The rounds of a loop from the comparison on. The counter says how many have been made, and how
many are left is what the induction is on. -/
lemma rounds (hb : b.labels.Nodup) (hB : Achieves X b m be (Awaits X te) B) (hn : n ≤ len)
    (hq : q < len) (hm : len + 2 ≤ m) {v : Value} {N : Int32}
    (hhead : .label ⟨l⟩ :: .statement (.branch (.atLeast (counterOf len) (.local len ⟨"length"⟩))
        ⟨l + 2⟩ ⟨l + 1⟩) :: .label ⟨l + 1⟩ ::
      .statement (.assign (.env name) (.element (.temp q) (counterOf len))) ::
      (be ++ (effectOf te ++ (loopTail len l ++ rest))) <:+ b) :
    ∀ (left i : Nat), i + left = N.toInt.toNat → ∀ (F : Frame) (s : Store)
      (next : PUnit → Eval Value), F.slots (.temp q) = some v → F.slots (.local len) = some (.int N) →
      F.slots (.local (len + 1)) = some (.int (Int32.ofNat i)) →
      (∀ G t, F.Kept n G → Meaning.elements X.env name v B left i s = .ok ⟨⟩ t →
        Ends (X.along (Graph.ofBody b)) (rest.cursor, G) t (next ⟨⟩ t)) →
      Ends (X.along (Graph.ofBody b))
        (Body.cursor (.statement (.branch (.atLeast (counterOf len) (.local len ⟨"length"⟩))
            ⟨l + 2⟩ ⟨l + 1⟩) :: .label ⟨l + 1⟩ ::
          .statement (.assign (.env name) (.element (.temp q) (counterOf len))) ::
          (be ++ (effectOf te ++ (loopTail len l ++ rest)))), F) s
        ((Meaning.elements X.env name v B left i >>= next) s) := by
  have hinside := (List.suffix_cons _ _).trans ((List.suffix_cons _ _).trans hhead)
  have helement := (List.suffix_cons _ _).trans hinside
  have hbody := (List.suffix_cons _ _).trans helement
  have htail := (List.suffix_append _ _).trans ((List.suffix_append _ _).trans hbody)
  have hexit : .label ⟨l + 2⟩ :: rest <:+ b :=
    (List.suffix_cons _ _).trans ((List.suffix_cons _ _).trans htail)
  intro left
  induction left with
  | zero =>
    intro i hi F s next hseq hlength hcounter hnext
    have hst := Scene.statement_branch_counter (X := X) (s := s) ⟨l + 2⟩ ⟨l + 1⟩ hlength
      hcounter (show i ≤ N.toInt.toNat by omega)
    rw [if_pos (by omega)] at hst
    refine (Scene.advances_jump hb rfl hst hexit).reaches.ends ?_
    exact hnext F s (.refl n F) rfl
  | succ left ih =>
    intro i hi F s next hseq hlength hcounter hnext
    have hst := Scene.statement_branch_counter (X := X) (s := s) ⟨l + 2⟩ ⟨l + 1⟩ hlength
      hcounter (show i ≤ N.toInt.toNat by omega)
    rw [if_neg (by omega)] at hst
    refine (Scene.advances_jump hb rfl hst hinside).reaches.ends ?_
    have helt := Scene.statement_element (X := X) (s := s) name hseq hcounter
    have hround : ∀ x, v.elementAt (Int32.ofNat i) = .ok x →
        Meaning.elements X.env name v B (left + 1) i s
          = (B >>= fun _ => Meaning.elements X.env name v B left (i + 1)) (s.set X.env name x) := by
      intro x hx
      rw [Meaning.elements, hx]
      rfl
    cases hx : v.elementAt (Int32.ofNat i) with
    | error e =>
      rw [hx] at helt
      have hstop : Meaning.elements X.env name v B (left + 1) i s = .error (.error e) s := by
        rw [Meaning.elements, hx]
        rfl
      rw [Eval.bind_error hstop]
      exact Scene.ends_error helt
    | ok x =>
      rw [hx] at helt
      refine (Scene.reaches_next hb helement rfl helt).ends ?_
      have hbind : (Meaning.elements X.env name v B (left + 1) i >>= next) s
          = (B >>= fun _ => Meaning.elements X.env name v B left (i + 1) >>= next)
            (s.set X.env name x) := by
        rw [CallByNeed.Eval.bind_apply, hround x hx, ← CallByNeed.Eval.bind_apply, bind_assoc]
      rw [hbind]
      have heffect := hB.effect hb (loopTail len l ++ rest) F (s.set X.env name x)
        fun _ => Meaning.elements X.env name v B left (i + 1) >>= next
      rw [List.append_assoc] at heffect
      refine heffect hbody fun G u hkept hvalue => ?_
      obtain ⟨w, hw⟩ := hvalue
      have hinc := Scene.statement_increment (X := X) (s := u)
        ((hkept (.local (len + 1)) (show len + 1 < m by omega)).trans hcounter) (show i < N.toInt.toNat by omega)
      refine (Scene.reaches_next hb htail rfl hinc).ends ?_
      refine (Scene.advances_jump hb rfl (F := G.set (.local (len + 1)) _) (s := u) rfl
        hhead).reaches.ends ?_
      rw [Eval.bind_ok hw]
      have hset : G.Kept (len + 1) (G.set (.local (len + 1)) (.int (Int32.ofNat (i + 1)))) :=
        .set (show len + 1 ≤ (SlotKey.local (len + 1)).number from Nat.le_refl _) _
      refine ih (i + 1) (by omega) _ u next ?_ ?_ (Frame.set_same _ _ _) fun H t hkept' hrest => ?_
      · exact (hset (.temp q) (show q < len + 1 by omega)).trans
          ((hkept (.temp q) (show q < m by omega)).trans hseq)
      · exact (hset (.local len) (show len < len + 1 by omega)).trans
          ((hkept (.local len) (show len < m by omega)).trans hlength)
      · refine hnext H t (((hkept.mono (by omega)).trans (hset.mono (by omega))).trans hkept') ?_
        rw [hround x hx, Eval.bind_ok hw, hrest]

/-- A loop. -/
lemma loop {Q : Eval Value} {m₁ : Nat} {bq : Body} {tq : Term} (hb : b.labels.Nodup)
    (hQ : Achieves X b m₁ bq (Awaits X tq) Q) (hB : Achieves X b m be (Awaits X te) B) (hn : n ≤ q)
    (hm₁ : q < m₁) (hq : q < len) (hm : len + 2 ≤ m) :
    Achieves X b n (bq ++ (loopHead name tq q len l ++ (be ++ (effectOf te ++ loopTail len l))))
      (Awaits X .null) (Meaning.loop X.env name Q B) := by
  intro rest F s next hsuffix hnext
  simp only [loopHead, List.append_assoc, List.cons_append, List.nil_append] at hsuffix ⊢
  rw [List.append_cons] at hsuffix ⊢
  have hlength := (List.suffix_append _ _).trans hsuffix
  have hzero := (List.suffix_cons _ _).trans hlength
  have hhead := (List.suffix_cons _ _).trans hzero
  have hassoc : (Meaning.loop X.env name Q B >>= next) s
      = (Q >>= fun v => (do
          let n ← Eval.ofExcept (Builtin.lengthOf v)
          Meaning.elements X.env name v B n.toInt.toNat 0
          return .null) >>= next) s := by
    unfold Meaning.loop
    rw [bind_assoc]
  rw [hassoc] at hnext ⊢
  refine (hQ.weaken (by omega)).keep (.temp q) hb rfl hn _ F s _ hsuffix
    fun G u hkept hstored => ?_
  obtain ⟨v, hQ, hv⟩ := hstored
  have hst := Scene.statement_length (X := X) (n := len) (s := u) hv
  have hvalue : Meaning.loop X.env name Q B s = (do
      let n ← Eval.ofExcept (Builtin.lengthOf v)
      Meaning.elements X.env name v B n.toInt.toNat 0
      return .null : Eval Value) u := by
    unfold Meaning.loop
    rw [Eval.bind_ok hQ]
  rw [hvalue] at hnext
  rw [Eval.bind_ok hQ] at hnext ⊢
  cases hN : Builtin.lengthOf v with
  | error e =>
    rw [hN] at hst
    exact Scene.ends_error hst
  | ok N =>
    rw [hN] at hst hnext
    have hrounds : (do
        let n ← Eval.ofExcept (Except.ok N)
        Meaning.elements X.env name v B n.toInt.toNat 0
        return .null : Eval Value)
        = Meaning.elements X.env name v B N.toInt.toNat 0 >>= fun _ => pure .null := pure_bind N _
    rw [hrounds, bind_assoc] at hnext ⊢
    refine (Scene.reaches_next hb hlength rfl hst).ends ?_
    have hst₀ : ∀ H x, X.statement (.assign (.local (len + 1) ⟨"i"⟩) (.int 0)) H x
        = .ok (.next, H.set (.local (len + 1)) (.int (Int32.ofNat 0))) x := fun _ _ => rfl
    refine (Scene.reaches_next hb hzero rfl (hst₀ _ u)).ends ?_
    have hkept₁ : G.Kept len (G.set (.local len) (.int N)) :=
      .set (show len ≤ (SlotKey.local len).number from Nat.le_refl _) _
    have hkept₂ : (G.set (.local len) (.int N)).Kept (len + 1)
        ((G.set (.local len) (.int N)).set (.local (len + 1)) (.int (Int32.ofNat 0))) :=
      .set (show len + 1 ≤ (SlotKey.local (len + 1)).number from Nat.le_refl _) _
    refine rounds hb hB (n := n) (by omega) hq hm (v := v) hhead N.toInt.toNat 0 (by omega)
      _ u (fun _ => pure .null >>= next)
      ((hkept₂ (.temp q) (show q < len + 1 by omega)).trans ((hkept₁ (.temp q) hq).trans hv))
      ((hkept₂ (.local len) (Nat.lt_succ_self len)).trans (Frame.set_same _ _ _))
      (Frame.set_same _ _ _) fun H t hkept' helements => ?_
    rw [Eval.bind_ok helements, Eval.bind_ok helements] at hnext
    exact hnext H t (((hkept.trans (hkept₁.mono (by omega))).trans
      (hkept₂.mono (by omega))).trans hkept') ⟨.ok Value.null rfl t, fun _ => ⟨Value.null, rfl⟩⟩

end Achieves

end CallByNeed.Flow
