import CallByNeed.Eval.Interpreter
import CallByNeed.Proofs.Comparison.Calls

/-!
# Evaluating expressions side by side

Special forms and the evaluation of expressions as written, on both sides by hosts that do the same
tasks alike.
-/

namespace CallByNeed

variable {W : World} {n : Nat} {H : Host} {H' : Nat → Host} {env : EnvId} {limit : Nat}

namespace World

/-- The argument may be evaluated and promised. -/
structure Passes (W : World) (a : Arg Expr) : Prop where
  code : W.code (.expr a.value) (.expr a.value)
  readable : ∀ name, a.value = .symbol name → name.isEllipsis = false → W.Readable name

/-- Any expression may be evaluated as written. -/
structure Transparent (W : World) : Prop where
  unpinned : ¬ W.pins
  code : ∀ e, W.code (.expr e) (.expr e)
  literal : ∀ f u j, Compiling.functionLiteral {} .counting none "closure" f #[] = .ok u j →
    FunctionRel W u u

namespace Transparent

lemma valid (h : W.Transparent) (env : EnvId) : W.Valid n env := fun hp => absurd hp h.unpinned

lemma readable (h : W.Transparent) (name : Symbol) : W.Readable name :=
  fun hp => absurd hp h.unpinned

lemma settable (h : W.Transparent) (name : Symbol) : W.Settable name :=
  fun hp => absurd hp h.unpinned

lemma bindable (h : W.Transparent) (name : Symbol) : W.Bindable name :=
  fun hp => absurd hp h.unpinned

lemma loose (h : W.Transparent) (s : Special) : W.Loose s := fun hp => absurd hp h.unpinned

lemma passes (h : W.Transparent) (a : Arg Expr) : W.Passes a :=
  ⟨h.code a.value, fun name _ _ => h.readable name⟩

end Transparent

end World

/-! ## Special forms -/

namespace Special

/-- An operand is an argument of the call. -/
lemma operand_rel (s : Special) (call : Call) (index : Nat) :
    EvalRel W n (fun _ e e' => e = e' ∧ call.arg? index = some e) (s.operand call index)
      fun _ => s.operand call index := by
  unfold operand
  cases h : call.arg? index with
  | none => exact .fail False.elim
  | some e => exact EvalRel.pure fun _ _ => ⟨rfl, rfl⟩

/-- Arguments that are evaluated in order. -/
lemma sequence_rel (hH : HostRel W H H') (henv : W.Valid n env) {args : List (Arg Expr)}
    (hargs : ∀ a ∈ args, W.code (.expr a.value) (.expr a.value)) {last last' : Value}
    (hlast : ValueRel W n last last') :
    EvalRel W n (ValueRel W) (sequence H env last args)
      fun k => sequence (H' k) env last' args := by
  induction args generalizing n last last' with
  | nil => exact EvalRel.pure fun _ hm => hlast.mono hm
  | cons a args ih =>
    refine (hH n _ _ (.code (hargs a (by simp)) henv)).bind fun m hm v v' hv => ?_
    exact ih (henv.mono hm) (fun b hb => hargs b (by simp [hb])) hv

/-- The rounds of a loop. -/
lemma iterate_rel (hH : HostRel W H H') (henv : W.Valid n env) {name : Symbol}
    (hname : W.Settable name) {values values' : Value} (hvalues : ValueRel W n values values')
    {body : Expr} (hbody : W.code (.expr body) (.expr body)) (count index : Nat) :
    EvalRel W n (fun _ _ _ => True) (iterate H env name values body count index)
      fun k => iterate (H' k) env name values' body count index := by
  induction count generalizing n index with
  | zero => exact EvalRel.pure fun _ _ => trivial
  | succ count ih =>
    unfold iterate
    cases Value.int32? index with
    | none => exact .fail False.elim
    | some i =>
      refine (hvalues.element_rel i).bind fun m hm v v' hv => ?_
      refine (EvalRel.setVariable hname hv).bind fun m₁ hm₁ _ _ _ => ?_
      have hle : n ≤ m₁ := Nat.le_trans hm hm₁
      refine (hH m₁ _ _ (.code hbody (henv.mono hle))).bind fun m₂ hm₂ _ _ _ => ?_
      have hle₂ : n ≤ m₂ := Nat.le_trans hle hm₂
      exact ih (henv.mono hle₂) (hvalues.mono hle₂) (index + 1)

section

variable {call : Call}

lemma invoke_cond_rel (hH : HostRel W H H') (henv : W.Valid n env)
    (hargs : ∀ a ∈ call.args, W.code (.expr a.value) (.expr a.value)) :
    EvalRel W n (ValueRel W) (cond.invoke H env call) fun k => cond.invoke (H' k) env call := by
  have harg : ∀ {i e}, call.arg? i = some e → W.code (.expr e) (.expr e) := by
    intro i e h
    obtain ⟨a, ha, rfl⟩ := Option.map_eq_some_iff.1 h
    exact hargs a (List.mem_of_getElem? ha)
  refine (operand_rel cond call 0).bind fun m hm e e' he => ?_
  obtain ⟨rfl, he⟩ := he
  refine (hH m _ _ (.code (harg he) (henv.mono hm))).bind fun m₁ hm₁ v v' hv => ?_
  have hle : n ≤ m₁ := Nat.le_trans hm hm₁
  refine (EvalRel.ofSaid hv.truthy).bind fun m₂ hm₂ b b' hb => ?_
  have hle₂ : n ≤ m₂ := Nat.le_trans hle hm₂
  subst hb
  cases b with
  | true =>
    refine (operand_rel cond call 1).bind fun m₃ hm₃ e e' he => ?_
    obtain ⟨rfl, he⟩ := he
    exact hH m₃ _ _ (.code (harg he) (henv.mono (Nat.le_trans hle₂ hm₃)))
  | false =>
    simp only [Bool.false_eq_true, if_false]
    cases hno : call.arg? 2 with
    | none => exact EvalRel.pure fun _ _ => .null
    | some e => exact hH m₂ _ _ (.code (harg hno) (henv.mono hle₂))

/-- An assignment to a name that may be assigned. -/
lemma invoke_assign_rel (hH : HostRel W H H') (henv : W.Valid n env)
    (hargs : ∀ e, call.arg? 1 = some e → W.code (.expr e) (.expr e))
    (htarget : ∀ e name, call.arg? 0 = some e → (e = .symbol name ∨ e = .str name.name) →
      W.Settable name) :
    EvalRel W n (ValueRel W) (assign.invoke H env call)
      fun k => assign.invoke (H' k) env call := by
  refine (operand_rel assign call 0).bind fun m hm e e' he => ?_
  obtain ⟨rfl, he⟩ := he
  have hname : EvalRel W m (fun _ x x' => x = x' ∧ W.Settable x) (assignmentTarget e)
      fun _ => assignmentTarget e := by
    cases e with
    | symbol x => exact EvalRel.pure fun _ _ => ⟨rfl, htarget _ x he (.inl rfl)⟩
    | str x => exact EvalRel.pure fun _ _ => ⟨rfl, htarget _ ⟨x⟩ he (.inr rfl)⟩
    | _ => exact .fail False.elim
  refine hname.bind fun m₁ hm₁ x x' hx => ?_
  obtain ⟨rfl, hx⟩ := hx
  have hle : n ≤ m₁ := Nat.le_trans hm hm₁
  refine (operand_rel assign call 1).bind fun m₂ hm₂ e e' he => ?_
  obtain ⟨rfl, he⟩ := he
  have hle₂ : n ≤ m₂ := Nat.le_trans hle hm₂
  refine (hH m₂ _ _ (.code (hargs e he) (henv.mono hle₂))).bind fun m₃ _ v v' hv => ?_
  refine (EvalRel.setVariable hx hv).bind fun m₄ hm₄ _ _ _ => ?_
  exact EvalRel.pure fun _ hm => hv.mono (Nat.le_trans hm₄ hm)

/-- A loop over a variable that may be assigned. -/
lemma invoke_loop_rel (hH : HostRel W H H') (henv : W.Valid n env)
    (hargs : ∀ i e, 0 < i → call.arg? i = some e → W.code (.expr e) (.expr e))
    (htarget : ∀ name, call.arg? 0 = some (.symbol name) → W.Settable name) :
    EvalRel W n (ValueRel W) (loop.invoke H env call) fun k => loop.invoke (H' k) env call := by
  refine (operand_rel loop call 0).bind fun m hm e e' he => ?_
  obtain ⟨rfl, he⟩ := he
  cases e with
  | symbol name =>
    refine (operand_rel loop call 1).bind fun m₁ hm₁ e e' he₁ => ?_
    obtain ⟨rfl, he₁⟩ := he₁
    have hle : n ≤ m₁ := Nat.le_trans hm hm₁
    have hvalues := hH m₁ _ _ (.code (hargs 1 e (by decide) he₁) (henv.mono hle))
    refine hvalues.bind fun m₂ hm₂ v v' hv => ?_
    refine (operand_rel loop call 2).bind fun m₃ hm₃ e e' he₂ => ?_
    obtain ⟨rfl, he₂⟩ := he₂
    have hle₃ : n ≤ m₃ := Nat.le_trans (Nat.le_trans hle hm₂) hm₃
    rw [← hv.length]
    refine (iterate_rel hH (henv.mono hle₃) (htarget name he) (hv.mono hm₃)
      (hargs 2 e (by decide) he₂) v.length 0).bind fun _ _ _ _ _ => ?_
    exact EvalRel.pure fun _ _ => .null
  | _ => exact .fail False.elim

/-- A special form that may be had as a value. -/
theorem invoke_rel (hH : HostRel W H H') (henv : W.Valid n env)
    (hargs : ∀ a ∈ call.args, W.code (.expr a.value) (.expr a.value)) {s : Special}
    (hs : W.Loose s) :
    EvalRel W n (ValueRel W) (s.invoke H env call) fun k => s.invoke (H' k) env call := by
  have harg : ∀ {i e}, call.arg? i = some e → W.code (.expr e) (.expr e) := by
    intro i e h
    obtain ⟨a, ha, rfl⟩ := Option.map_eq_some_iff.1 h
    exact hargs a (List.mem_of_getElem? ha)
  cases s with
  | quote =>
    refine (operand_rel quote call 0).bind fun m hm e e' he => ?_
    obtain ⟨rfl, -⟩ := he
    exact EvalRel.pure fun _ _ => .ofExpr e
  | cond => exact invoke_cond_rel hH henv hargs
  | block => exact sequence_rel hH henv hargs .null
  | assign =>
    have hunpinned : ¬ W.pins := fun hp => (hs hp).1 rfl
    exact invoke_assign_rel hH henv (fun e he => harg he)
      fun e name _ _ hp => absurd hp hunpinned
  | loop =>
    have hunpinned : ¬ W.pins := fun hp => (hs hp).2 rfl
    exact invoke_loop_rel hH henv (fun i e _ he => harg he) fun name _ hp => absurd hp hunpinned

end

end Special

/-! ## Expressions as written -/

namespace Interpreter

/-- Arguments of a function that wants values. -/
lemma argumentValues_rel (hH : HostRel W H H') (henv : W.Valid n env) {a : Arg Expr}
    (ha : W.Passes a) :
    EvalRel W n (fun m => List.Forall₂ fun b b' => b.name = b'.name ∧ ValueRel W m b.value b'.value)
      (argumentValues H env a) fun k => argumentValues (H' k) env a := by
  unfold argumentValues
  cases hdots : a.value.isEllipsis with
  | true =>
    simp only [if_true]
    refine EvalRel.findDots.bind fun m _ dots dots' hd => ?_
    refine EvalRel.mapM (L := ArgRel W) (fun hle h => ⟨h.name, h.value.mono hle, h.text⟩)
      (fun hle h => ⟨h.1, h.2.mono hle⟩) (fun m d d' hd => ?_) (argsRel_iff.1 hd)
    rw [← hd.name]
    exact (Host.force_rel hH hd.value).bind fun m' _ v v' hv =>
      EvalRel.pure fun _ hm => ⟨rfl, hv.mono hm⟩
  | false =>
    simp only [Bool.false_eq_true, if_false]
    refine (hH n _ _ (.code ha.code henv)).bind fun m hm v v' hv => ?_
    exact EvalRel.pure fun _ hm => .cons ⟨rfl, hv.mono hm⟩ .nil

/-- Arguments of a closure. -/
lemma argumentPromises_rel (henv : W.Valid n env) {a : Arg Expr} (ha : W.Passes a) :
    EvalRel W n (fun m => List.Forall₂ (ArgRel W m)) (argumentPromises env a)
      fun _ => argumentPromises env a := by
  have hpromise : ∀ {x : Suspension}, SuspensionRel W n x x →
      EvalRel W n (fun m => List.Forall₂ (ArgRel W m))
        (do return [⟨a.name, ← Eval.promise x⟩]) fun _ => do
          return [⟨a.name, ← Eval.promise x⟩] := by
    intro x hx
    refine (EvalRel.promise hx).bind fun m _ v v' hv => ?_
    obtain ⟨rfl, p, rfl⟩ := hv
    exact EvalRel.pure fun _ _ => .cons ⟨rfl, .promise p, rfl⟩ .nil
  unfold argumentPromises
  cases hdots : a.value.isEllipsis with
  | true =>
    simp only [if_true]
    exact EvalRel.findDots.weaken fun _ _ _ _ h => argsRel_iff.1 h
  | false =>
    simp only [Bool.false_eq_true, if_false]
    cases hconst : a.value.isConstant with
    | true =>
      simp only [if_true]
      exact EvalRel.pure fun _ _ => .cons ⟨rfl, .value (.ofExpr _), rfl⟩ .nil
    | false =>
      simp only [Bool.false_eq_true, if_false]
      refine hpromise ?_
      have hcode := ha.code
      have hname := ha.readable
      revert hcode hname hdots
      generalize a.value = e
      intro hdots hcode hname
      cases e with
      | symbol name => exact .reading (hname name rfl hdots) henv
      | _ => exact .code hcode henv

/-- Applying what a callee is to the arguments of the call. -/
def applyTo (limit : Nat) (host : Host) (env : EnvId) (call : Call) : Value → Eval Value
  | .builtin b => do
    let args := (← call.args.mapM (argumentValues host env)).flatten
    match b.invoke call (args.map Arg.name) (args.map Arg.value) with
    | .ok v => return v
    | .error h => throw h
  | .closure unit closureEnv => do
    let args := (← call.args.mapM (argumentPromises env)).flatten
    applyClosure limit host unit closureEnv call args
  | .special s => s.invoke host env call
  | v => Eval.fail (.internal (.strangeCallee call.text v.typeName))

lemma apply_eq (limit : Nat) (host : Host) (env : EnvId) (call : Call) :
    apply limit host env call = callee host env call >>= applyTo limit host env call := by
  unfold apply
  refine congrArg (callee host env call >>= ·) (funext fun v => ?_)
  cases v <;> rfl

/-- Related functions are applied alike to the arguments of a call. -/
theorem applyTo_rel (hW : W.Lawful) (hH : HostRel W H H') (henv : W.Valid n env) {call : Call}
    (hargs : ∀ a ∈ call.args, W.Passes a) {v v' : Value} (hv : ValueRel W n v v')
    (hfunction : v.category?.isSome) :
    EvalRel W n (ValueRel W) (applyTo limit H env call v)
      fun k => applyTo limit (H' k) env call v' := by
  have hsame : List.Forall₂ (fun a a' => a = a' ∧ W.Passes a ∧ W.Valid n env) call.args call.args :=
    List.forall₂_same.2 fun a ha => ⟨rfl, hargs a ha, henv⟩
  cases hv with
  | builtin b =>
    refine EvalRel.bind (R := fun m => List.Forall₂ (List.Forall₂ fun b b' : Arg Value =>
      b.name = b'.name ∧ ValueRel W m b.value b'.value)) ?_ fun m _ bs bs' hbs => ?_
    · refine EvalRel.mapM (L := fun m a a' => a = a' ∧ W.Passes a ∧ W.Valid m env)
        (fun hle h => ⟨h.1, h.2.1, h.2.2.mono hle⟩)
        (fun hle h => h.imp fun _ _ h => ⟨h.1, h.2.mono hle⟩) (fun m a a' h => ?_) hsame
      obtain ⟨rfl, ha, henv⟩ := h
      exact argumentValues_rel hH henv ha
    · have hflat := List.rel_flatten hbs
      revert hflat
      generalize bs.flatten = as
      generalize bs'.flatten = as'
      intro hflat
      have hnames : as.map Arg.name = as'.map Arg.name := by
        rw [← List.forall₂_eq_eq_eq, List.forall₂_map_left_iff, List.forall₂_map_right_iff]
        exact hflat.imp fun _ _ h => h.1
      have hvalues : ValuesRel W m (as.map Arg.value) (as'.map Arg.value) := by
        rw [valuesRel_iff, List.forall₂_map_left_iff, List.forall₂_map_right_iff]
        exact hflat.imp fun _ _ h => h.2
      have hlength : (as.map Arg.name).length = (as.map Arg.value).length := by simp
      have hinvoke := b.invoke_answers call hvalues hlength
      rw [hnames] at hinvoke
      dsimp only
      rw [hnames]
      revert hinvoke
      generalize b.invoke call (as'.map Arg.name) (as.map Arg.value) = r
      generalize b.invoke call (as'.map Arg.name) (as'.map Arg.value) = r'
      intro hinvoke
      cases hinvoke with
      | ok h => exact EvalRel.pure fun _ hm => h.mono hm
      | error he => exact EvalRel.throw fun hi => absurd hi he
  | closure hf he =>
    refine EvalRel.bind (R := fun m => List.Forall₂ (List.Forall₂ (ArgRel W m))) ?_
      fun m hm as as' has => ?_
    · refine EvalRel.mapM (L := fun m a a' => a = a' ∧ W.Passes a ∧ W.Valid m env)
        (fun hle h => ⟨h.1, h.2.1, h.2.2.mono hle⟩)
        (fun hle h => h.imp fun _ _ h => ⟨h.name, h.value.mono hle, h.text⟩)
        (fun m a a' h => ?_) hsame
      obtain ⟨rfl, ha, henv⟩ := h
      exact argumentPromises_rel henv ha
    · exact applyClosure_rel hW hH hf (he.mono hm) call (argsRel_iff.2 (List.rel_flatten has))
  | special hs => exact Special.invoke_rel hH henv (fun a ha => (hargs a ha).code) hs
  | _ => cases hfunction

/-- A value that must be a function. -/
lemma callable_rel {call : Call} {v v' : Value} (hv : ValueRel W n v v') :
    EvalRel W n (fun m f f' => ValueRel W m f f' ∧ f.category?.isSome) (callee.callable call v)
      fun _ => callee.callable call v' := by
  unfold callee.callable
  rw [← hv.category]
  split
  · exact EvalRel.pure fun _ hm => ⟨hv.mono hm, ‹_›⟩
  · exact .fail False.elim

/-- A literal of a function that may be made. -/
lemma closure_rel (henv : W.Valid n env) (f : Function)
    (hf : ∀ u j, Compiling.functionLiteral {} .counting none "closure" f #[] = .ok u j →
      FunctionRel W u u) :
    EvalRel W n (ValueRel W) (closure env f) fun _ => closure env f := by
  intro s t hst hn
  have hjournal : ∀ notes, StoreRel W { s with journal := s.journal ++ notes }
      { t with journal := t.journal ++ notes } := fun _ =>
    hst.of_eq rfl rfl hst.promises hst.depth
  have hgrows : ∀ (s : Store) notes, s.Grows W { s with journal := s.journal ++ notes } :=
    fun _ _ => .of_eq rfl
  refine .same (.const _ t) ?_
  unfold closure
  cases hu : Compiling.functionLiteral {} .counting none "closure" f #[] with
  | ok u notes =>
    exact .ok (ValueRel.closure (hf u notes hu) (henv.mono hn)) (hjournal _) (hgrows ..) (hgrows ..)
  | error e notes => exact .error (.refl False.elim) (hjournal _) (hgrows ..) (hgrows ..)

/-- Any expression has related values where any expression may be evaluated. -/
theorem eval_rel (hW : W.Lawful) (hT : W.Transparent) (hH : HostRel W H H') (e : Expr) :
    EvalRel W n (ValueRel W) (eval limit H env e) fun k => eval limit (H' k) env e := by
  have henv : ∀ {n}, W.Valid n env := hT.valid env
  cases e with
  | symbol name =>
    simp only [eval]
    split
    · exact .fail False.elim
    · exact (EvalRel.findVariable (hT.readable name)).bind fun _ _ _ _ hv => Host.force_rel hH hv
  | function formals body => exact closure_rel henv _ (hT.literal _)
  | call f args =>
    simp only [eval, apply_eq]
    refine EvalRel.bind (R := fun m v v' => ValueRel W m v v' ∧ v.category?.isSome) ?_
      fun m _ v v' hv => applyTo_rel hW hH henv (fun a _ => hT.passes a) hv.1 hv.2
    have hcomputed : EvalRel W n (fun m v v' => ValueRel W m v v' ∧ v.category?.isSome)
        (H (.eval env f) >>= callee.callable ⟨f, args⟩)
        fun k => H' k (.eval env f) >>= callee.callable ⟨f, args⟩ :=
      (hH n _ _ (.code (hT.code f) henv)).bind fun _ _ _ _ hv => callable_rel hv
    unfold callee
    cases Call.name? ⟨f, args⟩ with
    | none => exact hcomputed
    | some name =>
      dsimp only
      split
      · exact hcomputed
      · exact (Host.findFunction_rel hH name).weaken fun _ _ _ _ h => h.unpinned hT.unpinned
  | _ => exact EvalRel.pure fun _ _ => .ofExpr _

end Interpreter

end CallByNeed
