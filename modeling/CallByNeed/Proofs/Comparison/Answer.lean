import CallByNeed.Eval.Answer
import CallByNeed.Proofs.Comparison.Machine

/-!
# Answering tasks side by side

The hosts that programs run on do related tasks alike, for any bounds, if they do so for tasks that
evaluate related code and may use that smaller bounds do (`answer_rel`). The first instance is that
of one and the same code: a host does not look at the journal, and what it gives with some bound it
gives with every larger one.

So a unit that follows some other evaluation may be replaced by it, on either side of a comparison
(`EvalRel.run_left`, `EvalRel.run_right`), whether it is traced or not.
-/

namespace CallByNeed

variable {W : World} {n : Nat}

/-! ## All bounds -/

/-- Hosts do related tasks alike if they evaluate related code alike. -/
theorem answer_rel (hW : W.Lawful) {o o' : RuntimeOptions} (hdepth : o.maxDepth = o'.maxDepth)
    (hcode : ∀ b g, W.Bounds b g →
      (∀ j ≤ b, ∀ g, W.Bounds j g → HostRel W (answer o j) fun k => answer o' (g k)) →
      ∀ n c c' env, W.code c c' → W.Valid n env →
        EvalRel W n (ValueRel W) (perform o (answer o b) b (c.task env))
          fun k => perform o' (answer o' (g k)) (g k) (c'.task env))
    (b : Nat) : ∀ g, W.Bounds b g → HostRel W (answer o b) fun k => answer o' (g k) := by
  induction b using Nat.strongRecOn with
  | ind b ih =>
    intro g hg
    cases b with
    | zero =>
      intro n τ τ' hτ s t hst hn
      rcases hg with ⟨hc, -⟩ | ⟨-, hg⟩
      · exact .excused rfl hc
      · refine .same ⟨0, fun k _ => ?_⟩ (.error (.refl False.elim) hst (.refl s) (.refl t))
        dsimp only
        rw [hg k]
        rfl
    | succ b =>
      obtain ⟨m₀, hm₀⟩ := hg.succ
      have hH : ∀ j ≤ b, ∀ g, W.Bounds j g → HostRel W (answer o j) fun k => answer o' (g k) :=
        fun j hj => ih j (Nat.lt_succ_of_le hj)
      have hperform : ∀ n τ τ', TaskRel W n τ τ' → EvalRel W n (ValueRel W)
          (perform o (answer o b) b τ)
          fun k => perform o' (answer o' (g k - 1)) (g k - 1) τ' := by
        intro n τ τ' hτ
        cases hτ with
        | force p =>
          unfold perform
          rw [← hdepth]
          exact forcePromise_rel hW (hH b (Nat.le_refl b) _ hg.pred) p
        | code hc he => exact hcode b _ hg.pred hH n _ _ _ hc he
      intro n τ τ' hτ s t hst hn
      refine (hperform n τ τ' hτ s t hst hn).eventually (m := m₀) fun k hk => ?_
      show answer o' (g k) τ' t = perform o' (answer o' (g k - 1)) (g k - 1) τ' t
      conv_lhs => rw [hm₀ k hk]
      rfl

/-! ## The same code -/

/-- The same code on both sides; the first run may use up its bound or not. -/
def World.plain (cut : Prop) : World where
  code := Eq
  named := True
  defects := True
  deep := True
  cut
  dropped _ := False
  pins := False
  pinned _ := False

namespace World

variable {cut : Prop}

lemma lawful_plain : (World.plain cut).Lawful where
  level _ _ _ h := by
    obtain rfl : _ = _ := h
    exact .rfl
  depth h := absurd trivial h
  sound _ h := h.elim

lemma reflexive_plain : (World.plain cut).Reflexive where
  unpinned := id
  named := trivial
  defects := trivial
  code _ := rfl

end World

/-- A larger bound gives the same, and the journal is not looked at. -/
theorem answer_plain (cut : Prop) (o : RuntimeOptions) (b : Nat) (g : Nat → Nat)
    (hg : (World.plain cut).Bounds b g) :
    HostRel (World.plain cut) (answer o b) fun k => answer o (g k) := by
  refine answer_rel World.lawful_plain rfl (fun b g hg hH n c c' env hc henv => ?_) b g hg
  obtain rfl : c = c' := hc
  cases c with
  | unit u =>
    exact Machine.run_rel World.reflexive_plain World.lawful_plain env rfl
      (.inl ⟨rfl, fun _ => trivial⟩) (hH b (Nat.le_refl b) g hg) hg trivial
      (Machine.start_rel u env)
  | expr e =>
    exact Interpreter.eval_rel World.lawful_plain World.reflexive_plain.transparent
      (hH b (Nat.le_refl b) g hg) e

/-! ## What the journal does not change -/

/-- The same value or the same reason to stop, and the same store but for the journal. What is wrong
with defective code may differ. -/
inductive Alike {α : Type} : Result α → Result α → Prop
  | ok (a : α) (s : Store) (journal : Journal) : Alike (.ok a s) (.ok a { s with journal })
  | error {h h' : Halt} (hh : h.Agrees h') (s : Store) (journal : Journal) :
    Alike (.error h s) (.error h' { s with journal })

lemma Agrees.alike {α : Type} {r r' : Result α} (h : Agrees r r') : Alike r r' := by
  cases h with
  | ok a s => exact .ok a s s.journal
  | error hh s => exact .error hh s s.journal

namespace Alike

variable {α β : Type} {r r' r'' : Result α}

lemma symm (h : Alike r r') : Alike r' r := by
  cases h with
  | ok a s journal => exact .ok a { s with journal } s.journal
  | error hh s journal => exact .error hh.symm { s with journal } s.journal

lemma trans (h : Alike r r') (h' : Alike r' r'') : Alike r r'' := by
  cases h with
  | ok a s journal =>
    cases h' with
    | ok _ _ journal' => exact .ok a s journal'
  | error hh s journal =>
    cases h' with
    | error hh' _ journal' => exact .error (hh.trans hh') s journal'

lemma exhausts (h : Alike r r') (hr : Exhausts r) : Exhausts r' := by
  obtain ⟨s, rfl⟩ := hr
  cases h with
  | error hh s journal =>
    obtain rfl := hh.symm.exhausted
    exact ⟨_, rfl⟩

end Alike

/-- The journal is not compared. -/
lemma StoreRel.journal {s t : Store} (h : StoreRel W s t) (j j' : Journal) :
    StoreRel W { s with journal := j } { t with journal := j' } :=
  h.of_eq rfl rfl h.promises h.depth

lemma World.HaltRel.agrees_left {h₁ h h' : Halt} (hh : W.HaltRel h h') (h₁h : h₁.Agrees h) :
    W.HaltRel h₁ h' := by
  rcases h₁h with rfl | ⟨hi₁, hi⟩
  · exact hh
  · rcases hh with ⟨rfl, hd⟩ | ⟨hd, -, hi'⟩
    · exact .inr ⟨hd hi, hi₁, hi⟩
    · exact .inr ⟨hd, hi₁, hi'⟩

lemma World.HaltRel.agrees_right {h h' h₁ : Halt} (hh : W.HaltRel h h') (h'h : h'.Agrees h₁) :
    W.HaltRel h h₁ := by
  rcases h'h with rfl | ⟨hi', hi₁⟩
  · exact hh
  · rcases hh with ⟨rfl, hd⟩ | ⟨hd, hi, -⟩
    · exact .inr ⟨hd hi', hi', hi₁⟩
    · exact .inr ⟨hd, hi, hi₁⟩

namespace ResultRel

variable {α β : Type} {R : Nat → α → β → Prop} {s t : Store} {r₁ r : Result α} {r' r₂ : Result β}

lemma alike_left (h : ResultRel W R s t r r') (h₁ : Alike r₁ r) : ResultRel W R s t r₁ r' := by
  cases h₁ with
  | ok a s₁ journal =>
    cases h with
    | ok hab hst hs ht =>
      exact .ok hab (hst.journal s₁.journal _) (hs.trans (.of_eq rfl)) ht
  | error hh s₁ journal =>
    cases h with
    | error hh' hst hs ht =>
      exact .error (hh'.agrees_left hh) (hst.journal s₁.journal _) (hs.trans (.of_eq rfl)) ht

lemma alike_right (h : ResultRel W R s t r r') (h₂ : Alike r' r₂) : ResultRel W R s t r r₂ := by
  cases h₂ with
  | ok b t₁ journal =>
    cases h with
    | ok hab hst hs ht => exact .ok hab (hst.journal _ journal) hs (ht.trans (.of_eq rfl))
  | error hh t₁ journal =>
    cases h with
    | error hh' hst hs ht =>
      exact .error (hh'.agrees_right hh) (hst.journal _ journal) hs (ht.trans (.of_eq rfl))

end ResultRel

/-! ### Relatedness that is equality -/

section

variable {cut : Prop}

lemma FunctionRel.eq_of_plain {f f' : FunctionUnit} (h : FunctionRel (.plain cut) f f') :
    f = f' := by
  obtain ⟨name, formals, body⟩ := f
  obtain ⟨name', formals', body'⟩ := f'
  obtain ⟨hname, hformals, hbody⟩ := h
  obtain rfl : name = name' := hname trivial
  cases (show Code.unit body = .unit body' from hbody)
  have heq : formals = formals' := by
    dsimp only at hformals
    clear hname hbody
    induction hformals with
    | nil => rfl
    | @cons f f' fs fs' hf _ ih =>
      obtain ⟨x, d⟩ := f
      obtain ⟨x', d'⟩ := f'
      obtain ⟨hx, -, hd⟩ := hf
      dsimp only at hx hd
      subst hx
      rw [ih]
      cases hd with
      | none => rfl
      | some hu =>
        cases (show Code.unit _ = .unit _ from hu)
        rfl
  rw [heq]

mutual

lemma ValueRel.eq_of_plain : ∀ {v v' : Value}, ValueRel (.plain cut) n v v' → v = v'
  | _, _, .vector h => by rw [h.eq_of_plain]
  | _, _, .closure hf _ => by rw [hf.eq_of_plain]
  | _, _, .dots _ h => by rw [h.eq_of_plain]
  | _, _, .null | _, _, .logical _ | _, _, .int _ | _, _, .double _ | _, _, .str _
  | _, _, .symbol _ | _, _, .language _ | _, _, .promise _ _ | _, _, .builtin _
  | _, _, .special _ => rfl

lemma ValuesRel.eq_of_plain : ∀ {vs vs' : List Value}, ValuesRel (.plain cut) n vs vs' → vs = vs'
  | _, _, .nil => rfl
  | _, _, .cons h hs => by rw [h.eq_of_plain, hs.eq_of_plain]

lemma BoundRel.eq_of_plain : ∀ {v v' : Value}, BoundRel (.plain cut) n v v' → v = v'
  | _, _, .value h => h.eq_of_plain
  | _, _, .promise _ => rfl

lemma ArgsRel.eq_of_plain : ∀ {as as' : ArgList}, ArgsRel (.plain cut) n as as' → as = as'
  | _, _, .nil => rfl
  | _, _, .cons h _ hs => by rw [h.eq_of_plain, hs.eq_of_plain]

end

lemma ArrayRel.eq {α : Type} {R : α → α → Prop} (hR : ∀ a b, R a b → a = b) {as bs : Array α}
    (h : ArrayRel R as bs) : as = bs := by
  refine Array.ext h.size fun i hi hi' => ?_
  exact hR _ _ (h.entry i _ _ (Array.getElem?_eq_getElem hi) (Array.getElem?_eq_getElem hi'))

lemma StoreRel.eq_of_plain {s t : Store} (h : StoreRel (.plain cut) s t) :
    t = { s with journal := t.journal } := by
  have henvironments : s.environments = t.environments := h.environments.eq fun E E' hE => by
    obtain ⟨vars, outer⟩ := E
    obtain ⟨vars', outer'⟩ := E'
    obtain ⟨houter, hvars⟩ := hE
    dsimp only at houter hvars
    subst houter
    have heq : vars = vars' := by
      induction hvars with
      | nil => rfl
      | @cons x x' xs xs' hx _ ih =>
        rw [ih, Prod.ext hx.name (hx.value.read nofun).eq_of_plain]
    rw [heq]
  have hpromises : s.promises = t.promises := h.promises.eq fun p p' hp => by
    obtain ⟨status, count⟩ := p
    obtain ⟨status', count'⟩ := p'
    obtain ⟨hstatus, hcount⟩ := hp
    dsimp only at hstatus hcount
    subst hcount
    have hsuspension : ∀ {m} {x x' : Suspension}, SuspensionRel (.plain cut) m x x' → x = x' := by
      intro m x x' hx
      cases hx with
      | reading => rfl
      | missing => rfl
      | code hc _ => rw [show _ = _ from hc]
    cases hstatus with
    | pending h => rw [hsuspension h]
    | forcing h => rw [hsuspension h]
    | forced h => rw [h.eq_of_plain]
  obtain ⟨environments, promises, depth, journal⟩ := s
  obtain ⟨environments', promises', depth', journal'⟩ := t
  have hdepth : depth = depth' := h.depth trivial
  dsimp only at henvironments hpromises
  subst henvironments hpromises hdepth
  rfl

end

/-! ### Everything is related to itself -/

mutual

lemma ValueRel.refl (hR : W.Reflexive) : ∀ v : Value, ValueRel W n v v
  | .null => .null
  | .logical b => .logical b
  | .int i => .int i
  | .double x => .double x
  | .str s => .str s
  | .vector vs => .vector (ValuesRel.refl hR vs)
  | .symbol s => .symbol s
  | .language e => .language e
  | .promise p => .promise hR.unpinned p
  | .closure f env => .closure (hR.function f) (hR.transparent.valid env)
  | .builtin b => .builtin b
  | .special s => .special (hR.transparent.loose s)
  | .dots as => .dots hR.unpinned (ArgsRel.refl hR as)

lemma ValuesRel.refl (hR : W.Reflexive) : ∀ vs : List Value, ValuesRel W n vs vs
  | [] => .nil
  | v :: vs => .cons (ValueRel.refl hR v) (ValuesRel.refl hR vs)

lemma ArgsRel.refl (hR : W.Reflexive) : ∀ as : ArgList, ArgsRel W n as as
  | [] => .nil
  | ⟨_, v⟩ :: as => .cons (.value (ValueRel.refl hR v)) rfl (ArgsRel.refl hR as)

end

lemma ArrayRel.refl {α : Type} {R : α → α → Prop} (hR : ∀ a, R a a) (as : Array α) :
    ArrayRel R as as :=
  ⟨rfl, fun i a b ha hb => by
    cases ha.symm.trans hb
    exact hR a⟩

lemma StoreRel.refl (hR : W.Reflexive) (s : Store) : StoreRel W s s where
  environments := .refl (fun E => ⟨rfl, List.forall₂_same.2 fun x _ => ⟨rfl, .bound (.value (.refl hR x.2))⟩⟩) _
  promises := by
    refine .refl (fun p => ⟨?_, rfl⟩) _
    have hsuspension : ∀ x : Suspension, SuspensionRel W s.environments.size x x := by
      intro x
      match x with
      | .variable name env =>
        exact .reading (hR.transparent.readable name) (hR.transparent.valid env)
      | .compiled u env => exact .code (hR.code (.unit u)) (hR.transparent.valid env)
      | .interpreted e env => exact .code (hR.code (.expr e)) (hR.transparent.valid env)
      | .missing name => exact .missing name
    cases p.status with
    | pending x => exact .pending (hsuspension x)
    | forcing x => exact .forcing (hsuspension x)
    | forced v => exact .forced (.refl hR v)
  depth _ := rfl
  left hp := absurd hp hR.unpinned
  right hp := absurd hp hR.unpinned

/-- Results that are related up to nothing but code that is the same. -/
lemma ResultRel.alike {cut : Prop} {s t : Store} {r r' : Result Value}
    (h : ResultRel (.plain cut) (ValueRel (.plain cut)) s t r r') : Alike r r' := by
  have hhalt : ∀ {h h' : Halt}, (World.plain cut).HaltRel h h' → h.Agrees h' := by
    rintro h h' (⟨rfl, -⟩ | ⟨-, hi, hi'⟩)
    · exact .refl h
    · exact .inr ⟨hi, hi'⟩
  cases h with
  | @ok a b s' t' hab hst _ _ =>
    obtain rfl := hab.eq_of_plain
    rw [hst.eq_of_plain]
    exact .ok a s' t'.journal
  | @error h h' s' t' hh hst _ _ =>
    rw [hst.eq_of_plain]
    exact .error (hhalt hh) s' t'.journal

/-! ## Units in the place of what they follow -/

/-- The options without tracing. -/
def RuntimeOptions.untraced (o : RuntimeOptions) : RuntimeOptions := { o with trace := false }

/-- The host gives the same whatever the journal, up to what is wrong with defective code. -/
def Host.Oblivious (H : Host) : Prop := HostRel (.plain False) H fun _ => H

lemma answer_oblivious (o : RuntimeOptions) (b : Nat) : (answer o b).Oblivious :=
  answer_plain False o b _ (.const id b)

/-- Tracing a run of a unit changes the journal only. -/
lemma Machine.run_alike (o : RuntimeOptions) {H : Host} (hH : H.Oblivious) {u : CodeUnit}
    {B : Nat → Prop} (hu : u.Steps B) (env : EnvId) (n : Nat) (s : Store) :
    Alike (run o H u env n (.start u env) s) (run o.untraced H u env n (.start u env) s) := by
  have hm := run_rel World.reflexive_plain World.lawful_plain env
    (show o.maxDepth = o.untraced.maxDepth from rfl)
    (.inr hu) hH (.const id n) hu.start (start_rel u env) s s (.refl World.reflexive_plain s)
    (Nat.le_refl _)
  cases hm with
  | excused hr hh =>
    exfalso
    revert hh
    rename_i h s'
    cases h with
    | error e => exact Or.rec And.left id
    | _ => exact id
  | dropped hB he => exact he.elim
  | same hB hr =>
    obtain ⟨m, hm⟩ := hB
    obtain rfl := hm m (Nat.le_refl m)
    exact hr.alike

/-- What a run of a unit gives with some bounds, it gives with all larger ones. -/
lemma Machine.run_settles (o : RuntimeOptions) {g : Nat → Nat}
    (hg : Unbounded g) {u : CodeUnit} {B : Nat → Prop} (hu : u.Steps B)
    (env : EnvId) (b n : Nat) (s : Store)
    (h : ¬ Exhausts (run o.untraced (answer o b) u env n (.start u env) s)) :
    ∃ r, Settles (fun k => run o (answer o (g k)) u env (g k) (.start u env)) s r ∧
      Alike (run o.untraced (answer o b) u env n (.start u env) s) r := by
  have hH : HostRel (.plain True) (answer o b) fun k => answer o (g k) :=
    answer_plain True o b _ (.inl ⟨trivial, hg⟩)
  have hm := run_rel World.reflexive_plain World.lawful_plain env
    (show o.untraced.maxDepth = o.maxDepth from rfl)
    (.inr hu) hH (b := n) (g := g) (.inl ⟨trivial, hg⟩) hu.start (start_rel u env) s s
    (.refl World.reflexive_plain s) (Nat.le_refl _)
  cases hm with
  | @excused h' s' hr hh =>
    cases h' with
    | error e => exact (hh.elim And.left id).elim
    | exhausted => exact absurd ⟨s', hr⟩ h
    | abort => exact hh.elim
  | dropped hB he => exact he.elim
  | same hB hr => exact ⟨_, hB, hr.alike⟩

namespace EvalRel

variable {o : RuntimeOptions} {u : CodeUnit} {B₀ : Nat → Prop} {env : EnvId}

/-- A unit may be replaced by what it follows on the left. -/
theorem run_left (hW : W.Lawful) (hcut : W.cut) {H : Host} (hH : H.Oblivious) {i : Nat}
    (hu : u.Steps B₀) {G : Nat → Eval Value}
    (hF : Follows (fun n => Machine.run o.untraced H u env n (.start u env)) G)
    {B : Nat → Eval Value} (h : EvalRel W n (ValueRel W) (G i) B) :
    EvalRel W n (ValueRel W) (Machine.run o H u env i (.start u env)) B := by
  intro s t hst hn
  have halike := Machine.run_alike o hH hu env i s
  have hexcused : ∀ {r : Result Value}, Exhausts r →
      Alike (Machine.run o H u env i (.start u env) s) r →
      Matches W (ValueRel W) s t (Machine.run o H u env i (.start u env) s) B := by
    intro r hr hl
    obtain ⟨s', hs'⟩ := hl.symm.exhausts hr
    exact .excused hs' hcut
  by_cases hG : Exhausts (G i s)
  · exact hexcused ((hF i s).1 hG) halike
  · obtain ⟨k, hk, hlow⟩ := (hF i s).2 hG
    by_cases hlt : i < k
    · exact hexcused (hlow i hlt) halike
    · have hall := halike.trans (hk i (Nat.le_of_not_lt hlt)).alike
      have hm := h s t hst hn
      revert hm hall
      generalize Machine.run o H u env i (.start u env) s = r
      generalize G i s = r'
      intro hall hm
      cases hm with
      | @excused e s' hr hh =>
        subst hr
        cases hall with
        | @error e' _ hee s'' journal =>
          cases e with
          | exhausted =>
            obtain rfl := hee.exhausted
            exact .excused rfl hh
          | abort =>
            rcases hee with rfl | ⟨-, hi⟩
            · exact .excused rfl hh
            · exact hi.elim
          | error e =>
            rcases hee with rfl | ⟨hi', hi⟩
            · exact .excused rfl hh
            · refine .excused rfl (hh.elim (fun hd => absurd hi (hW.sound e hd.1)) fun hl => ?_)
              cases e' with
              | error e' => exact .inr hl
              | _ => exact hi'.elim
      | dropped hB he => exact .dropped hB he
      | same hB hr => exact .same hB (hr.alike_left hall)

/-- A unit may be replaced by what it follows on the right. -/
theorem run_right (hW : W.Lawful) (hcut : W.cut) {g i : Nat → Nat}
    (hg : Unbounded g) (hu : u.Steps B₀) {G : Nat → Nat → Eval Value}
    (hF : ∀ k, Follows
      (fun n => Machine.run o.untraced (answer o (g k)) u env n (.start u env)) (G k))
    {A : Eval Value} (h : EvalRel W n (ValueRel W) A fun k => G k (i k)) :
    EvalRel W n (ValueRel W) A
      fun k => Machine.run o (answer o (g k)) u env (g k) (.start u env) := by
  intro s t hst hn
  have hsettles : ∀ {r}, ¬ Exhausts r → Settles (fun k => G k (i k)) t r →
      ∃ r', Settles (fun k => Machine.run o (answer o (g k)) u env (g k) (.start u env)) t r' ∧
        Alike r r' := by
    rintro r hr ⟨m, hm⟩
    have hGr : G m (i m) t = r := hm m (Nat.le_refl m)
    obtain ⟨k, hk, -⟩ := (hF m (i m) t).2 (by rwa [hGr])
    have hagrees := hk k (Nat.le_refl k)
    rw [hGr] at hagrees
    obtain ⟨r', hB, halike⟩ := Machine.run_settles o hg hu env (g m) k t
      fun he => hr (hagrees.symm.exhausts he)
    exact ⟨r', hB, hagrees.symm.alike.trans halike⟩
  have hm := h s t hst hn
  revert hm
  generalize A s = r
  intro hm
  cases hm with
  | excused hr hh => exact .excused hr hh
  | @dropped e t' hB he =>
    obtain ⟨r', hB', halike⟩ := hsettles (by rintro ⟨_, ⟨⟩⟩) hB
    cases halike with
    | @error _ e' hee t' journal =>
      rcases hee with rfl | ⟨hi, -⟩
      · exact .dropped hB' he
      · exact absurd hi (hW.sound e he)
  | @same r' hB hr =>
    by_cases hex : Exhausts r'
    · obtain ⟨t', rfl⟩ := hex
      cases hr with
      | @error e _ s' t' hh _ _ _ =>
        rcases hh with ⟨rfl, -⟩ | ⟨-, -, hi⟩
        · exact .excused rfl hcut
        · exact hi.elim
    · obtain ⟨r'', hB', halike⟩ := hsettles hex hB
      exact .same hB' (hr.alike_right halike)

end EvalRel

end CallByNeed
