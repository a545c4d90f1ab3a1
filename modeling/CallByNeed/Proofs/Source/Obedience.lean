import CallByNeed.Proofs.Eval.Laws
import CallByNeed.Proofs.Source.Meaning

/-!
# Meanings obey the laws of evaluations

What an expression means obeys every law of evaluations (`Means.directs`). It meets no defect of its
own: what is called is a function, and a builtin gets as many names as values. And it has no bound of
its own that it could use up.
-/

namespace CallByNeed

variable {limit : Nat} {L : Law limit} {env : EnvId} {c : Call}

/-! ## Parts of meanings -/

namespace Law

lemma lookup (env : EnvId) (name : Symbol) : L.Directs fun H => Meaning.lookup H env name :=
  (Directs.findVariable env name).bind fun v => force v

lemma branch {C Y N : Host → Eval Value} (hc : L.Directs C) (hy : L.Directs Y) (hn : L.Directs N) :
    L.Directs fun H => Meaning.branch (C H) (Y H) (N H) := by
  refine hc.bind fun v => (Directs.ofExcept fun _ => v.truthy_error).bind fun t => ?_
  cases t with
  | true => exact hy
  | false => exact hn

lemma elements {B : Host → Eval Value} (hb : L.Directs B) (name : Symbol) (v : Value) :
    ∀ count index, L.Directs fun H => Meaning.elements env name v (B H) count index
  | 0, _ => Directs.pure ()
  | count + 1, index =>
    (Directs.ofExcept fun _ => v.elementAt_error _).bind fun x =>
      (Directs.setVariable env name x).bind fun _ => hb.bind fun _ =>
        elements hb name v count (index + 1)

lemma loop {Q B : Host → Eval Value} (hq : L.Directs Q) (hb : L.Directs B) (name : Symbol) :
    L.Directs fun H => Meaning.loop env name (Q H) (B H) :=
  hq.bind fun v => (Directs.ofExcept fun _ => Builtin.lengthOf_error v).bind fun _ =>
    (elements hb name v _ 0).bind fun _ => Directs.pure _

lemma assign {A : Host → Eval Value} (ha : L.Directs A) (name : Symbol) :
    L.Directs fun H => Meaning.assign env name (A H) :=
  ha.bind fun v => (Directs.setVariable env name v).bind fun _ => Directs.pure v

/-- A builtin is given as many names as values. -/
lemma gather {A : Host → Eval (List Value)} (ha : L.Gives (fun vs => vs.length = c.args.length) A) :
    L.Gives (fun r => r.1.length = r.2.length) fun H => Meaning.gather H env c (A H) := by
  unfold Meaning.gather
  cases c.ellipsisIndex? with
  | none => exact ha.bind fun vs hvs => Gives.pure (by simp [hvs])
  | some position =>
    refine (Gives.of_directs (Directs.findDots env)).bind fun dots _ => ha.bind fun vs hvs => ?_
    refine (Directs.mapM_gives (fun d : Arg Value => force d.value) dots).bind fun es hes => ?_
    exact Gives.pure (by simp [Flow.splicedAt, hvs, hes])

lemma builtin {A : Host → Eval (List Value)} (ha : L.Gives (fun vs => vs.length = c.args.length) A)
    (b : Builtin) : L.Directs fun H => Meaning.builtin H env c (A H) b := by
  refine .after (gather ha) fun r hr => ?_
  dsimp only
  cases hb : b.invoke c r.1 r.2 with
  | ok v => exact Directs.pure v
  | error h => exact .of_governs (.throw h (Builtin.ne_exhausted hb) (Builtin.proper hb hr))

lemma now (p : Passed) : L.Directs fun H => p.now limit H env := by
  cases p with
  | ellipsis => exact Directs.pure _
  | literal e => exact Directs.pure _
  | reading name => exact lookup env name
  | unit u => exact executeNested u env

lemma later (name : Option Symbol) (p : Passed) : L.Directs fun _ => p.later env name := by
  cases p with
  | ellipsis => exact Directs.findDots env
  | literal e => exact Directs.pure _
  | reading x => exact (Directs.promise _).bind fun v => Directs.pure _
  | unit u => exact (Directs.promise _).bind fun v => Directs.pure _

/-- A function is called. -/
lemma call {passed : List Passed} (hlen : passed.length = c.args.length) {f : Value}
    (hf : f.category?.isSome) : L.Directs fun H => Meaning.apply limit H env c passed f := by
  cases f with
  | builtin b =>
    refine builtin ?_ b
    rw [← hlen]
    exact Directs.mapM_gives now passed
  | closure unit closureEnv =>
    exact (Directs.mapM (fun a : Arg Expr × Passed => later a.1.name a.2) _).bind fun args =>
      applyClosure unit closureEnv c _
  | special g => exact special env c g
  | _ => cases hf

/-- The function that a value must be is one. -/
lemma functionOf (v : Value) :
    L.Gives (fun f => f.category?.isSome) fun H => Meaning.callable H c v := by
  refine (Gives.of_directs (force v)).bind fun w _ => ?_
  split
  · rename_i hw
    exact Gives.pure hw
  · exact Gives.fail _ id

end Law

/-! ## Meanings -/

section

variable {o : CompilerOptions}

mutual

/-- **What an expression means obeys every law.** -/
theorem Means.directs :
    ∀ {e : Expr} {M : Host → Eval Value}, Means o limit env e M → L.Directs M
  | _, _, @Means.reading _ _ _ name _ => Law.lookup env name
  | _, _, .literal _ => Law.Directs.pure _
  | _, _, .closure _ => Law.Directs.pure _
  | _, _, .whether _ _ hc hy => Law.branch hc.directs hy.directs (Law.Directs.pure _)
  | _, _, .choice _ _ hc hy hn => Law.branch hc.directs hy.directs hn.directs
  | _, _, @Means.loop _ _ _ _ name _ _ _ _ _ _ _ hq hb => Law.loop hq.directs hb.directs name
  | _, _, .block _ _ _ h => h.directs
  | _, _, @Means.assignment _ _ _ _ name _ _ _ _ _ h => Law.assign h.directs name
  | _, _, @Means.primitive _ _ _ s b args _ _ _ _ _ h =>
    .after h.gives fun vs hvs => Law.builtin (c := ⟨.symbol s, args⟩) (Law.Gives.pure hvs) b
  | _, _, @Means.named _ _ _ s args passed _ _ _ _ h =>
    .after (Law.findFunction env s) fun f hf =>
      Law.call (c := ⟨.symbol s, args⟩) (by simpa using h.length_eq.symm) hf
  | _, _, @Means.computed _ _ _ callee args passed _ _ _ hc h =>
    hc.directs.bind fun v => .after (Law.functionOf v) fun f hf =>
      Law.call (c := ⟨callee, args⟩) (by simpa using h.length_eq.symm) hf

theorem MeansSteps.directs :
    ∀ {args : List (Arg Expr)} {M : Host → Eval Value}, MeansSteps o limit env args M → L.Directs M
  | _, _, .nil => Law.Directs.pure _
  | _, _, .last h => h.directs
  | _, _, .step h hrest => h.directs.bind fun _ => hrest.directs

/-- Arguments that are evaluated at once have as many values. -/
theorem MeansNow.gives : ∀ {args : List (Arg Expr)} {M : Host → Eval (List Value)},
    MeansNow o limit env args M → L.Gives (fun vs => vs.length = args.length) M
  | _, _, .nil => Law.Gives.pure rfl
  | _, _, .ellipsis _ hrest => hrest.gives.bind fun _ hvs => Law.Gives.pure (by simp [hvs])
  | _, _, .value _ h hrest =>
    (Law.Gives.of_directs h.directs).bind fun _ _ => hrest.gives.bind fun _ hvs =>
      Law.Gives.pure (by simp [hvs])

end

end

end CallByNeed
