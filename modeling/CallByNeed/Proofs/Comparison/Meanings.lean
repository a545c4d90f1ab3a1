import CallByNeed.Proofs.Comparison.Answer
import CallByNeed.Proofs.Source.Meaning

/-!
# Meanings side by side

The evaluations that meanings are made of, put together from related ones on hosts that do the same
tasks alike: one rule for each. None of them finds a defect, since builtins get as many names as
values, and what is called is a function.
-/

namespace CallByNeed

variable {W : World} {n m : Nat} {H : Host} {H' : Nat → Host} {env : EnvId} {limit : Nat}

/-! ## What holds of one run -/

/-- What always holds of the values of the first run holds of related values. -/
lemma EvalRel.and_left {α β : Type} {R : Nat → α → β → Prop} {A : Eval α} {B : Nat → Eval β}
    {P : α → Prop} (h : EvalRel W n R A B) (hA : ∀ s a s', A s = .ok a s' → P a) :
    EvalRel W n (fun m a b => R m a b ∧ P a) A B := by
  intro s t hst hn
  have hm := h s t hst hn
  have hP := hA s
  revert hm hP
  generalize A s = r
  intro hm hP
  cases hm with
  | excused hr hh => exact .excused hr hh
  | dropped hB he => exact .dropped hB he
  | same hB hr =>
    refine .same hB ?_
    cases hr with
    | ok h hst' hs ht => exact .ok ⟨h, hP _ _ rfl⟩ hst' hs ht
    | error hh hst' hs ht => exact .error hh hst' hs ht

/-- Evaluations of the entries of a list give one value each. -/
lemma Eval.length_mapM {α β : Type} {f : α → Eval β} {l : List α} {s s' : Store} {bs : List β}
    (h : l.mapM f s = .ok bs s') : bs.length = l.length := by
  induction l generalizing s bs with
  | nil =>
    cases h
    rfl
  | cons a l ih =>
    rw [List.mapM_cons, Eval.bind_apply] at h
    cases hf : f a s with
    | error e s₁ => simp [hf] at h
    | ok b s₁ =>
      simp only [hf] at h
      rw [Eval.bind_apply] at h
      cases hl : l.mapM f s₁ with
      | error e s₂ => simp [hl] at h
      | ok cs s₂ =>
        simp only [hl] at h
        cases h
        exact congrArg (· + 1) (ih hl)

/-! ## Assignment forms under their own names -/

/-- What a call as written may assign. -/
structure World.Targets (W : World) (c : Call) : Prop where
  assign : c.callee = .symbol ⟨Special.assign.name⟩ → ∀ e name, c.arg? 0 = some e →
    (e = .symbol name ∨ e = .str name.name) → W.Settable name
  loop : c.callee = .symbol ⟨Special.loop.name⟩ → ∀ name, c.arg? 0 = some (.symbol name) →
    W.Settable name

/-- A form that may not be had as a value, called under its own name. -/
lemma Special.invoke_form_rel (hH : HostRel W H H') (henv : W.Valid n env) {call : Call}
    (hargs : ∀ a ∈ call.args, W.code (.expr a.value) (.expr a.value)) (htargets : W.Targets call)
    {s : Special} (hs : ¬ W.Loose s) (hname : call.callee = .symbol ⟨s.name⟩) :
    EvalRel W n (ValueRel W) (s.invoke H env call) fun k => s.invoke (H' k) env call := by
  have harg : ∀ {i e}, call.arg? i = some e → W.code (.expr e) (.expr e) := by
    intro i e h
    obtain ⟨a, ha, rfl⟩ := Option.map_eq_some_iff.1 h
    exact hargs a (List.mem_of_getElem? ha)
  cases s with
  | assign =>
    exact invoke_assign_rel hH henv (fun e he => harg he) (htargets.assign hname)
  | loop =>
    exact invoke_loop_rel hH henv (fun i e _ he => harg he) (htargets.loop hname)
  | _ => exact absurd (fun _ => ⟨nofun, nofun⟩) hs

/-! ## Variables and control flow -/

namespace Meaning

lemma lookup_rel (hH : HostRel W H H') {name : Symbol} (hname : W.Readable name) :
    EvalRel W n (ValueRel W) (lookup H env name) fun k => lookup (H' k) env name :=
  (EvalRel.findVariable hname).bind fun _ _ _ _ hv => Host.force_rel hH hv

section

variable {C Y N : Eval Value} {C' Y' N' : Nat → Eval Value}

lemma branch_rel (hc : EvalRel W n (ValueRel W) C C') (hy : EvalRel W n (ValueRel W) Y Y')
    (hno : EvalRel W n (ValueRel W) N N') :
    EvalRel W n (ValueRel W) (branch C Y N) fun k => branch (C' k) (Y' k) (N' k) := by
  refine hc.bind fun m hm v v' hv => ?_
  refine (EvalRel.ofSaid hv.truthy).bind fun m' hm' b b' hb => ?_
  have hle := Nat.le_trans hm hm'
  subst hb
  cases b with
  | true => exact hy.mono hle
  | false => exact hno.mono hle

lemma elements_rel {name : Symbol} (hname : W.Settable name) {v v' : Value}
    (hv : ValueRel W n v v') (hbody : EvalRel W n (ValueRel W) Y Y') (count index : Nat) :
    EvalRel W n (fun _ _ _ => True) (elements env name v Y count index)
      fun k => elements env name v' (Y' k) count index := by
  induction count generalizing n index with
  | zero => exact EvalRel.pure fun _ _ => trivial
  | succ count ih =>
    refine (hv.element_rel (Int32.ofNat index)).bind fun m hm x x' hx => ?_
    refine (EvalRel.setVariable hname hx).bind fun m₁ hm₁ _ _ _ => ?_
    have hle := Nat.le_trans hm hm₁
    refine (hbody.mono hle).bind fun m₂ hm₂ _ _ _ => ?_
    have hle₂ := Nat.le_trans hle hm₂
    exact ih (hv.mono hle₂) (hbody.mono hle₂) (index + 1)

lemma loop_rel {name : Symbol} (hname : W.Settable name) (hq : EvalRel W n (ValueRel W) C C')
    (hbody : EvalRel W n (ValueRel W) Y Y') :
    EvalRel W n (ValueRel W) (loop env name C Y) fun k => loop env name (C' k) (Y' k) := by
  refine hq.bind fun m hm v v' hv => ?_
  refine (EvalRel.ofSaid (Builtin.lengthOf_related hv)).bind fun m₁ hm₁ i i' hi => ?_
  subst hi
  refine (elements_rel hname (hv.mono hm₁) (hbody.mono (Nat.le_trans hm hm₁)) _ 0).bind
    fun _ _ _ _ _ => ?_
  exact EvalRel.pure fun _ _ => .null

lemma assign_rel {name : Symbol} (hname : W.Settable name)
    (h : EvalRel W n (ValueRel W) Y Y') :
    EvalRel W n (ValueRel W) (assign env name Y) fun k => assign env name (Y' k) := by
  refine h.bind fun m _ v v' hv => ?_
  refine (EvalRel.setVariable hname hv).bind fun m₁ hm₁ _ _ _ => ?_
  exact EvalRel.pure fun _ hm => hv.mono (Nat.le_trans hm₁ hm)

end

/-! ## Builtins -/

/-- Values one by one, of which there are `count`. -/
abbrev CountRel (W : World) (count : Nat) (n : Nat) (vs vs' : List Value) : Prop :=
  ValuesRel W n vs vs' ∧ vs.length = count

/-- The same names, and related values, one for each name. -/
abbrev SuppliedRel (W : World) (n : Nat) (x x' : List (Option Symbol) × List Value) : Prop :=
  x.1 = x'.1 ∧ ValuesRel W n x.2 x'.2 ∧ x.1.length = x.2.length

/-- The values of `...`, forced. -/
lemma forceAll_rel (hH : HostRel W H H') {dots dots' : ArgList} (h : ArgsRel W n dots dots') :
    EvalRel W n (CountRel W dots.length) (dots.mapM fun d => H.force d.value)
      fun k => dots'.mapM fun d => (H' k).force d.value := by
  exact ((Host.forceEach_rel hH h).and_left fun _ _ _ hr => Eval.length_mapM hr).weaken fun m _ vs vs' hvs =>
    ⟨valuesRel_iff.2 hvs.1, hvs.2⟩

/-- Replacing an entry keeps lists as long as each other. -/
lemma length_splicedAt {α β : Type} {as : List α} {bs : List β} (h : as.length = bs.length)
    (position : Nat) {xs : List α} {ys : List β} (hxs : xs.length = ys.length) :
    (Flow.splicedAt as position xs).length = (Flow.splicedAt bs position ys).length := by
  simp [Flow.splicedAt, h, hxs]

/-- What a builtin is given when the values of `...` come last. -/
lemma splice_rel (hH : HostRel W H H') (call : Call) (position : Nat) {dots dots' : ArgList}
    (hdots : ArgsRel W n dots dots') {vs vs' : List Value}
    (hvs : CountRel W call.args.length n vs vs') :
    EvalRel W n (SuppliedRel W)
      (do
        let entries ← dots.mapM fun d => H.force d.value
        return (Flow.splicedAt (call.args.map Arg.name) position (dots.map Arg.name),
          Flow.splicedAt vs position entries))
      fun k => do
        let entries ← dots'.mapM fun d => (H' k).force d.value
        return (Flow.splicedAt (call.args.map Arg.name) position (dots'.map Arg.name),
          Flow.splicedAt vs' position entries) := by
  refine (forceAll_rel hH hdots).bind fun m hm es es' hes => ?_
  refine EvalRel.pure fun m' hm' => ⟨?_, ?_, ?_⟩
  · dsimp only
    rw [hdots.names]
  · have hvalues := valuesRel_iff.1 (hvs.1.mono (Nat.le_trans hm hm'))
    have hentries := valuesRel_iff.1 (hes.1.mono hm')
    rw [valuesRel_iff]
    exact List.rel_append (List.rel_append (List.forall₂_take _ hvalues) hentries)
      (List.forall₂_drop _ hvalues)
  · exact length_splicedAt (by rw [List.length_map, hvs.2]) position
      (by rw [List.length_map, hes.2])

lemma gather_rel (hH : HostRel W H H') (call : Call) {values : Eval (List Value)}
    {values' : Nat → Eval (List Value)}
    (h : EvalRel W n (CountRel W call.args.length) values values') :
    EvalRel W n (SuppliedRel W) (gather H env call values)
      fun k => gather (H' k) env call (values' k) := by
  unfold gather
  cases call.ellipsisIndex? with
  | none =>
    refine h.bind fun m _ vs vs' hvs => ?_
    exact EvalRel.pure fun _ hm => ⟨rfl, hvs.1.mono hm, by rw [List.length_map, hvs.2]⟩
  | some position =>
    refine EvalRel.findDots.bind fun m hm dots dots' hdots => ?_
    refine (h.mono hm).bind fun m₁ hm₁ vs vs' hvs => ?_
    exact splice_rel hH call position (hdots.mono hm₁) hvs

/-- A builtin on what it is given. -/
lemma invoke_rel (b : Builtin) (call : Call) {x x' : List (Option Symbol) × List Value}
    (h : SuppliedRel W n x x') :
    EvalRel W n (ValueRel W) (Flow.ofResult (b.invoke call x.1 x.2))
      fun _ => Flow.ofResult (b.invoke call x'.1 x'.2) := by
  rw [← h.1]
  exact .ofResult ((b.invoke_answers call h.2.1 h.2.2).weaken fun _ _ h _ hm => h.mono hm)

lemma builtin_rel (hH : HostRel W H H') (call : Call) {values : Eval (List Value)}
    {values' : Nat → Eval (List Value)}
    (h : EvalRel W n (CountRel W call.args.length) values values') (b : Builtin) :
    EvalRel W n (ValueRel W) (builtin H env call values b)
      fun k => builtin (H' k) env call (values' k) b :=
  (gather_rel hH call h).bind fun _ _ _ _ hx => invoke_rel b call hx

end Meaning

/-! ## Arguments -/

/-- Arguments that are passed in the same way. -/
inductive PassedRel (W : World) : Passed → Passed → Prop
  | ellipsis : PassedRel W .ellipsis .ellipsis
  | literal (e : Expr) : PassedRel W (.literal e) (.literal e)
  | reading {name : Symbol} (h : W.Readable name) : PassedRel W (.reading name) (.reading name)
  | unit {u u' : CodeUnit} (h : W.code (.unit u) (.unit u')) : PassedRel W (.unit u) (.unit u')

namespace PassedRel

variable {p p' : Passed}

lemma now (h : PassedRel W p p') (limit : Nat) (hW : W.Lawful) (hH : HostRel W H H') (henv : W.Valid n env) :
    EvalRel W n (ValueRel W) (p.now limit H env) fun k => p'.now limit (H' k) env := by
  cases h with
  | ellipsis => exact EvalRel.pure fun _ _ => .null
  | literal e => exact EvalRel.pure fun _ _ => .ofExpr e
  | reading hname => exact Meaning.lookup_rel hH hname
  | unit hu => exact Host.executeNested_rel hW hH hu henv

lemma later (h : PassedRel W p p') (henv : W.Valid n env) (name : Option Symbol) :
    EvalRel W n (fun m => List.Forall₂ (ArgRel W m)) (p.later env name)
      fun _ => p'.later env name := by
  cases h with
  | ellipsis => exact EvalRel.findDots.weaken fun _ _ _ _ h => argsRel_iff.1 h
  | literal e => exact EvalRel.pure fun _ _ => .cons ⟨rfl, .value (.ofExpr e), rfl⟩ .nil
  | reading hname =>
    refine (EvalRel.promise (.reading hname henv)).bind fun m _ v v' hv => ?_
    obtain ⟨rfl, p, rfl⟩ := hv
    exact EvalRel.pure fun _ _ => .cons ⟨rfl, .promise p, rfl⟩ .nil
  | unit hu =>
    refine (EvalRel.promise (.code hu henv)).bind fun m _ v v' hv => ?_
    obtain ⟨rfl, p, rfl⟩ := hv
    exact EvalRel.pure fun _ _ => .cons ⟨rfl, .promise p, rfl⟩ .nil

end PassedRel

/-! ## Calls -/

namespace Meaning

variable {call : Call} {passed passed' : List Passed}

lemma nows_rel (limit : Nat) (hW : W.Lawful) (hH : HostRel W H H') (henv : W.Valid n env)
    (h : List.Forall₂ (PassedRel W) passed passed') :
    EvalRel W n (CountRel W passed.length) (passed.mapM (Passed.now limit H env))
      fun k => passed'.mapM (Passed.now limit (H' k) env) := by
  have hall := EvalRel.mapM (W := W) (n := n) (R := ValueRel W)
    (L := fun m p p' => PassedRel W p p' ∧ W.Valid m env)
    (fun hle h => ⟨h.1, h.2.mono hle⟩) (fun hle h => h.mono hle)
    (fun m p p' hp => hp.1.now limit hW hH hp.2) (h.imp fun _ _ h => ⟨h, henv⟩)
  exact (hall.and_left fun _ _ _ hr => Eval.length_mapM hr).weaken fun m _ vs vs' hvs =>
    ⟨valuesRel_iff.2 hvs.1, hvs.2⟩

lemma laters_rel (henv : W.Valid n env) (h : List.Forall₂ (PassedRel W) passed passed')
    (args : List (Arg Expr)) :
    EvalRel W n (fun m => List.Forall₂ (List.Forall₂ (ArgRel W m)))
      ((args.zip passed).mapM fun a => a.2.later env a.1.name)
      fun _ => (args.zip passed').mapM fun a => a.2.later env a.1.name := by
  have hzip : List.Forall₂ (fun a a' : Arg Expr × Passed =>
      a.1 = a'.1 ∧ PassedRel W a.2 a'.2 ∧ W.Valid n env) (args.zip passed) (args.zip passed') := by
    induction args generalizing passed passed' with
    | nil => exact .nil
    | cons a args ih =>
      cases h with
      | nil => exact .nil
      | cons hp h => exact .cons ⟨rfl, hp, henv⟩ (ih h)
  refine EvalRel.mapM (L := fun m (a a' : Arg Expr × Passed) =>
      a.1 = a'.1 ∧ PassedRel W a.2 a'.2 ∧ W.Valid m env)
    (fun hle h => ⟨h.1, h.2.1, h.2.2.mono hle⟩)
    (fun hle h => h.imp fun _ _ h => ⟨h.name, h.value.mono hle, h.text⟩)
    (fun m a a' ha => ?_) hzip
  rw [← ha.1]
  exact ha.2.1.later ha.2.2 a.1.name

section

variable (hW : W.Lawful) (hH : HostRel W H H') (henv : W.Valid n env)
  (hargs : ∀ a ∈ call.args, W.code (.expr a.value) (.expr a.value))
  (hpassed : List.Forall₂ (PassedRel W) passed passed') (hlength : passed.length = call.args.length)
include hW hH henv hargs hpassed hlength

/-- Related functions are applied alike. -/
theorem apply_rel {v v' : Value} (hv : ValueRel W n v v') (hfunction : v.category?.isSome) :
    EvalRel W n (ValueRel W) (apply limit H env call passed v)
      fun k => apply limit (H' k) env call passed' v' := by
  cases hv with
  | builtin b =>
    exact builtin_rel hH call (hlength ▸ nows_rel limit hW hH henv hpassed) b
  | closure hf he =>
    refine (laters_rel henv hpassed call.args).bind fun m hm as as' has => ?_
    exact applyClosure_rel hW hH hf (he.mono hm) call (argsRel_iff.2 (List.rel_flatten has))
  | special hs => exact Special.invoke_rel hH henv hargs hs
  | _ => cases hfunction

/-- What is found under a name is applied alike. -/
theorem found_rel (htargets : W.Targets call) {name : Symbol} (hname : call.callee = .symbol name)
    {v v' : Value} (hv : FoundRel W name n v v') :
    EvalRel W n (ValueRel W) (apply limit H env call passed v)
      fun k => apply limit (H' k) env call passed' v' := by
  cases hv with
  | value hv hf => exact apply_rel hW hH henv hargs hpassed hlength hv hf
  | form s hs hform hv hv' =>
    subst hv hv' hform
    exact Special.invoke_form_rel hH henv hargs htargets hs hname

end

/-- The function that a value must be. -/
lemma callable_rel (hH : HostRel W H H') {v v' : Value} (hv : ValueRel W n v v') :
    EvalRel W n (fun m f f' => ValueRel W m f f' ∧ f.category?.isSome) (callable H call v)
      fun k => callable (H' k) call v' := by
  refine (Host.force_rel hH (.value hv)).bind fun m _ f f' hf => ?_
  rw [← hf.category]
  split
  · exact EvalRel.pure fun _ hm => ⟨hf.mono hm, ‹_›⟩
  · exact .fail False.elim

end Meaning

end CallByNeed
