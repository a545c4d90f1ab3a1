import CallByNeed.Proofs.Comparison.Compiled
import CallByNeed.Proofs.Source.Literals
import CallByNeed.Proofs.Source.Sweeps

/-!
# Evaluating as written what is compiled

Evaluating an expression as written goes together with all that it means (`Rendering.renders`), for
expressions of some kind and in a world that allows for the difference (`Rendering`). The proof is by
induction on the size. A form as written does what it is inlined to if its operands do what they mean
(`Inlined.invoke_rel`); any other call applies its function to arguments as written or as
compiled (`Rendering.apply`).
-/

namespace CallByNeed

open Meaning

variable {W : World} {F : HostFamily} {o : CompilerOptions} {n b limit : Nat} {env : EnvId} {e : Expr}
  {H : Host} {H' : Nat → Host}

/-! ## Inlined control flow -/

/-- Asking a host for the expression as written goes together with all that the expression means. -/
def Delivers (W : World) (o : CompilerOptions) (limit : Nat) (env : EnvId) (n : Nat) (H : Host)
    (H' : Nat → Host) (e : Expr) : Prop :=
  ∀ M, Means o limit env e M → EvalRel W n (ValueRel W) (H (.eval env e)) fun k => M (H' k)

lemma Delivers.mono (h : Delivers W o limit env n H H' e) {m : Nat} (hnm : n ≤ m) :
    Delivers W o limit env m H H' e := fun M hM => (h M hM).mono hnm

/-- An index that fits is the integer. -/
lemma Value.int32?_of_lt {i : Nat} (h : i < 2147483648) : Value.int32? i = some (Int32.ofNat i) := by
  have hleast : Int32.minValue.toInt = -2147483648 := by decide
  have hgreatest : Int32.maxValue.toInt = 2147483647 := by decide
  rw [Value.int32?, if_pos ⟨by omega, by omega⟩, Int32.ofInt_eq_ofNat]

/-- A length that does not fit is an error. -/
lemma Builtin.lengthOf_eq_error {v : Value} (h : 2147483648 ≤ v.length) :
    Builtin.lengthOf v = .error (.primitive "length" .lengthTooLarge) := by
  have hgreatest : Int32.maxValue.toInt = 2147483647 := by decide
  rw [Builtin.lengthOf, Value.int32?, if_neg fun h' => by omega]

namespace Special

/-- Forms of one name are one. -/
lemma eq_of_name {f g : Special} (h : (⟨f.name⟩ : Symbol) = ⟨g.name⟩) : f = g := by
  cases f <;> cases g <;> first | rfl | exact absurd h (by decide)

/-- The rounds of a loop over elements whose positions are integers. -/
lemma iterate_elements_rel {name : Symbol} (hname : W.Settable name) {v v' : Value}
    (hv : ValueRel W n v v') {body : Expr} {B : Nat → Eval Value}
    (hbody : EvalRel W n (ValueRel W) (H (.eval env body)) B) (count index : Nat)
    (hfits : index + count ≤ 2147483648) :
    EvalRel W n (fun _ _ _ => True) (iterate H env name v body count index)
      fun k => elements env name v' (B k) count index := by
  induction count generalizing n index with
  | zero => exact EvalRel.pure fun _ _ => trivial
  | succ count ih =>
    simp only [iterate, elements, Value.int32?_of_lt (show index < 2147483648 by omega)]
    refine (hv.element_rel (Int32.ofNat index)).bind fun m hm x x' hx => ?_
    refine (EvalRel.setVariable hname hx).bind fun m₁ hm₁ _ _ _ => ?_
    have hle := Nat.le_trans hm hm₁
    refine (hbody.mono hle).bind fun m₂ hm₂ _ _ _ => ?_
    have hle₂ := Nat.le_trans hle hm₂
    exact ih (hv.mono hle₂) (hbody.mono hle₂) (index + 1) (by omega)

/-- A loop as written and an inlined one, unless the sequence is too long. -/
lemma invoke_loop_elements_rel (hlong : W.dropped (.primitive "length" .lengthTooLarge))
    {name : Symbol} (hname : W.Settable name) {callee q body : Expr} {Q B : Nat → Eval Value}
    (hq : EvalRel W n (ValueRel W) (H (.eval env q)) Q)
    (hbody : EvalRel W n (ValueRel W) (H (.eval env body)) B) :
    EvalRel W n (ValueRel W)
      (loop.invoke H env ⟨callee, [⟨none, .symbol name⟩, ⟨none, q⟩, ⟨none, body⟩]⟩)
      fun k => Meaning.loop env name (Q k) (B k) := by
  have hform : loop.invoke H env ⟨callee, [⟨none, .symbol name⟩, ⟨none, q⟩, ⟨none, body⟩]⟩ = (do
      let values ← H (.eval env q)
      iterate H env name values body values.length 0
      return .null) := rfl
  rw [hform]
  refine hq.bind fun m hm v v' hv => ?_
  by_cases hlength : v'.length < 2147483648
  · obtain ⟨i, hi, hcount⟩ := Builtin.lengthOf_eq_ok hlength
    simp only [hi, Eval.ofExcept, pure_bind, hcount]
    have hrounds := iterate_elements_rel hname hv (hbody.mono hm) v.length 0
      (by rw [hv.length]; omega)
    rw [← hv.length]
    exact hrounds.bind fun _ _ _ _ _ => EvalRel.pure fun _ _ => .null
  · rw [Builtin.lengthOf_eq_error (Nat.le_of_not_lt hlength)]
    exact fun s t _ _ => .dropped (by exact ⟨0, fun _ _ => rfl⟩) hlong

end Special

/-- Quotations are not inlined. -/
lemma Inlined.ne_quote {f : Special} {args : List (Arg Expr)}
    (hi : Inlined (.symbol ⟨f.name⟩) args) : f ≠ .quote := by
  rintro rfl
  cases hi with
  | whether hs | choice hs | loop hs | block hs | assignment hs => exact absurd hs (by decide)

section

variable {args : List (Arg Expr)} {M : Host → Eval Value}
  (hargs : ∀ a ∈ args, Delivers W o limit env n H H' a.value)
include hargs

/-- The steps of a block. -/
lemma MeansSteps.sequence_rel (hM : MeansSteps o limit env args M) (last : Value)
    (hlast : args = [] → last = .null) :
    EvalRel W n (ValueRel W) (Special.sequence H env last args) fun k => M (H' k) := by
  induction args generalizing n M last with
  | nil =>
    cases hM
    rw [hlast rfl]
    exact EvalRel.pure fun _ _ => .null
  | cons a args ih =>
    have hfirst := hargs a List.mem_cons_self
    cases hM with
    | last hA =>
      have h := hfirst _ hA
      rwa [← bind_pure (H (.eval env a.value))] at h
    | step hA hrest =>
      refine (hfirst _ hA).bind fun m hm v _ _ => ?_
      exact ih (fun a ha => (hargs a (List.mem_cons_of_mem _ ha)).mono hm) hrest v nofun

/-- **A form as written does what it is inlined to** if its operands do what they mean. -/
theorem Inlined.invoke_rel {f : Special} (hi : Inlined (.symbol ⟨f.name⟩) args)
    (ho : o.inlineControlFlow = true) (hlong : W.dropped (.primitive "length" .lengthTooLarge))
    (htargets : W.Targets ⟨.symbol ⟨f.name⟩, args⟩)
    (hM : Means o limit env (.call (.symbol ⟨f.name⟩) args) M) :
    EvalRel W n (ValueRel W) (f.invoke H env ⟨.symbol ⟨f.name⟩, args⟩) fun k => M (H' k) := by
  cases hi with
  | whether hs c y =>
    obtain rfl := Special.eq_of_name hs
    obtain ⟨C, Y, hC, hY, rfl⟩ := hM.whether_inv ho rfl
    exact branch_rel (hargs ⟨none, c⟩ (by simp) C hC) (hargs ⟨none, y⟩ (by simp) Y hY)
      (EvalRel.pure fun _ _ => .null)
  | choice hs c y no =>
    obtain rfl := Special.eq_of_name hs
    obtain ⟨C, Y, N, hC, hY, hN, rfl⟩ := hM.choice_inv ho rfl
    exact branch_rel (hargs ⟨none, c⟩ (by simp) C hC) (hargs ⟨none, y⟩ (by simp) Y hY)
      (hargs ⟨none, no⟩ (by simp) N hN)
  | @loop _ name hs hname q body =>
    obtain rfl := Special.eq_of_name hs
    obtain ⟨Q, B, hQ, hB, rfl⟩ := hM.loop_inv ho rfl hname
    exact Special.invoke_loop_elements_rel hlong (htargets.loop rfl name rfl)
      (hargs ⟨none, q⟩ (by simp) Q hQ) (hargs ⟨none, body⟩ (by simp) B hB)
  | block hs hnames =>
    obtain rfl := Special.eq_of_name hs
    exact (hM.block_inv ho rfl hnames).sequence_rel hargs .null fun _ => rfl
  | @assignment _ name hs hname value =>
    obtain rfl := Special.eq_of_name hs
    obtain ⟨A, hA, rfl⟩ := hM.assignment_inv ho rfl hname
    exact assign_rel (htargets.assign rfl _ name rfl (.inl rfl)) (hargs ⟨none, value⟩ (by simp) A hA)

end

/-! ## Both ways of evaluating an expression -/

/-- Evaluating the expression as written goes together with all that it means. -/
def Renders (W : World) (F : HostFamily) (b : Nat) (env : EnvId) (e : Expr) : Prop :=
  ∀ M, Means {} F.limit env e M → Together W F b env (fun H => H (.eval env e)) M

lemma Renders.delivers (h : Renders W F b env e) (hcut : W.cut) (henv : W.Valid n env) {i : Nat}
    (hi : i + 1 ≤ b) {g : Nat → Nat} (hg : Unbounded g) :
    Delivers W {} F.limit env n (F.host i) (fun k => answer F.options (g k)) e :=
  fun M hM => h M hM i (Nat.le_of_succ_le hi) n g henv (.inl ⟨hcut, hg⟩)

/-- It is enough to look one level further on. -/
lemma Together.of_eval (hcut : W.cut) {M : Host → Eval Value}
    (h : ∀ i, i + 1 ≤ b → ∀ n g, W.Valid n env → Unbounded g →
      EvalRel W n (ValueRel W) (Interpreter.eval F.limit (F.host i) env e)
        fun k => M (answer F.options (g k))) :
    Together W F b env (fun H => H (.eval env e)) M := by
  intro j hj n g henv hg
  refine EvalRel.ask_left hcut fun i hi => ?_
  exact h i (hi ▸ hj) n g henv (hg.unbounded hcut)

/-- A call that is written as one of a form is one if looking up the name finds the form. -/
lemma Interpreter.eval_of_findFunction {s : Store} {f : Special} {args : List (Arg Expr)}
    (h : H.findFunction env ⟨f.name⟩ s = .ok (.special f) s) :
    eval limit H env (.call (.symbol ⟨f.name⟩) args) s
      = f.invoke H env ⟨.symbol ⟨f.name⟩, args⟩ s := by
  have hdots : Symbol.isEllipsis ⟨f.name⟩ = false := by cases f <;> rfl
  simp only [eval, apply_eq, callee, Call.name?, Expr.symbol?, hdots, Bool.false_eq_true, if_false]
  rw [Eval.bind_apply, h]
  rfl

/-- The host breaks off or finds the form under its name where it is asked for a call. -/
def HostFamily.Finds (F : HostFamily) (j : Nat) (env : EnvId) (f : Special) (args : List (Arg Expr))
    (s : Store) : Prop :=
  Exhausts (F.host j (.eval env (.call (.symbol ⟨f.name⟩) args)) s) ∨ ∃ i, j = i + 1 ∧
    F.host j (.eval env (.call (.symbol ⟨f.name⟩) args)) s
      = f.invoke (F.host i) env ⟨.symbol ⟨f.name⟩, args⟩ s

/-- Expressions that may be evaluated as written in one run and compiled in the other one: no call
passes `...` on, forms are found under their names, and what evaluations come to is no promise. -/
structure Rendering (W : World) (F : HostFamily) (kept : Expr → Prop) : Prop where
  lawful : W.Lawful
  cut : W.cut
  shallow : ¬ W.deep
  long : W.dropped (.primitive "length" .lengthTooLarge)
  callee : ∀ {callee args}, kept (.call callee args) →
    callee.isEllipsis = false ∧ (callee.symbol? = none → kept callee)
  arg : ∀ {callee args}, kept (.call callee args) →
    ∀ a ∈ args, a.value.isEllipsis = false ∧ kept a.value
  targets : ∀ {callee args}, kept (.call callee args) → W.Targets ⟨callee, args⟩
  readable : ∀ {name}, kept (.symbol name) → name.isEllipsis = false → W.Readable name
  written : ∀ {e}, kept e → W.code (.expr e) (.expr e)
  compiled : ∀ {e u}, kept e → CompiledFrom {} e u → W.code (.expr e) (.unit u)
  literal : ∀ {formals body u u'}, kept (.function formals body) →
    CompiledLiteral {} ⟨formals, body⟩ u → CompiledLiteral {} ⟨formals, body⟩ u' → FunctionRel W u u'
  finds : ∀ {f args}, f ≠ .quote → kept (.call (.symbol ⟨f.name⟩) args) → ∀ j env s t,
    StoreRel W s t → W.Valid s.environments.size env → F.Finds j env f args s
  value : ∀ {n v v'} j τ s s', F.host j τ s = .ok v s' → ValueRel W n v v' → ∀ p, v ≠ .promise p

namespace Rendering

variable {kept : Expr → Prop} (hR : Rendering W F kept)
include hR

/-- A call under the name of a form that the compiler inlines. -/
lemma form {f : Special} {args : List (Arg Expr)} (hkept : kept (.call (.symbol ⟨f.name⟩) args))
    (hi : Inlined (.symbol ⟨f.name⟩) args) (hargs : ∀ a ∈ args, Renders W F b env a.value) :
    Renders W F b env (.call (.symbol ⟨f.name⟩) args) := by
  intro M hM j hj n g henv hg s t hst hn
  obtain ⟨s', hs'⟩ | ⟨i, rfl, heq⟩ := hR.finds hi.ne_quote hkept j env s t hst (henv.mono hn)
  · exact .excused hs' hR.cut
  · dsimp only
    rw [heq]
    exact hi.invoke_rel (fun a ha => (hargs a ha).delivers hR.cut henv hj (hg.unbounded hR.cut)) rfl
      hR.long (hR.targets hkept) hM s t hst hn

/-! ## Arguments -/

/-- Evaluating an expression as written goes together with passing it at once. -/
lemma now (he : Renders W F b env e) (hdots : e.isEllipsis = false) {p : Passed}
    (hp : Passes {} e p) :
    Together W F b env (fun H => H (.eval env e)) fun H => p.now F.limit H env := by
  obtain ⟨M, hM, heq⟩ | ⟨u, hu, heq⟩ := hp.now_cases F.limit env hdots
  · rw [heq]
    exact he M hM
  · rw [heq]
    exact .unit_right hR.lawful hR.cut hR.shallow hu he

/-- The arguments of a builtin, with their names, and their values alone. -/
lemma values {args : List (Arg Expr)} {passed : List Passed}
    (hargs : ∀ a ∈ args, a.value.isEllipsis = false ∧ Renders W F b env a.value)
    (hpassed : List.Forall₂ (Passes {}) (args.map Arg.value) passed) (henv : W.Valid n env) {i : Nat}
    (hi : i + 1 ≤ b) {g : Nat → Nat} (hg : Unbounded g) :
    EvalRel W n
      (fun m as vs => as.flatten.map Arg.name = args.map Arg.name ∧
        ValuesRel W m (as.flatten.map Arg.value) vs)
      (args.mapM (Interpreter.argumentValues (F.host i) env))
      fun k => passed.mapM (Passed.now F.limit (answer F.options (g k)) env) := by
  induction args generalizing n passed with
  | nil =>
    cases hpassed
    exact EvalRel.pure fun _ _ => ⟨rfl, .nil⟩
  | cons a args ih =>
    cases hpassed with
    | cons hp hpassed =>
      obtain ⟨hdots, ha⟩ := hargs a List.mem_cons_self
      simp only [List.mapM_cons, Interpreter.argumentValues, hdots, Bool.false_eq_true, if_false,
        bind_assoc, pure_bind]
      refine (hR.now ha hdots hp i (Nat.le_of_succ_le hi) n g henv (.inl ⟨hR.cut, hg⟩)).bind
        fun m hm v v' hv => ?_
      refine (ih (fun a ha => hargs a (List.mem_cons_of_mem _ ha)) hpassed (henv.mono hm)).bind
        fun m₁ hm₁ as vs has => ?_
      refine EvalRel.pure fun m₂ hm₂ => ⟨?_, ?_⟩
      · rw [List.flatten_cons, List.singleton_append, List.map_cons, List.map_cons, has.1]
      · rw [List.flatten_cons, List.singleton_append, List.map_cons]
        exact .cons (hv.mono (Nat.le_trans hm₁ hm₂)) (has.2.mono hm₂)

/-- An argument of a closure, as it is written and as it is compiled. -/
lemma later {a : Arg Expr} {p : Passed} (ha : kept a.value) (hdots : a.value.isEllipsis = false)
    (hp : Passes {} a.value p) (henv : W.Valid n env) :
    EvalRel W n (fun m => List.Forall₂ (ArgRel W m)) (Interpreter.argumentPromises env a)
      fun _ => p.later env a.name := by
  have hpromise : ∀ {x x' : Suspension}, SuspensionRel W n x x' →
      EvalRel W n (fun m => List.Forall₂ (ArgRel W m))
        (do return [⟨a.name, ← Eval.promise x⟩]) fun _ => do
          return [⟨a.name, ← Eval.promise x'⟩] := by
    intro x x' hx
    refine (EvalRel.promise hx).bind fun m _ v v' hv => ?_
    obtain ⟨rfl, p, rfl⟩ := hv
    exact EvalRel.pure fun _ _ => .cons ⟨rfl, .promise p, rfl⟩ .nil
  obtain ⟨name, e⟩ := a
  unfold Interpreter.argumentPromises
  simp only [hdots, Bool.false_eq_true, if_false]
  dsimp only at ha hdots hp
  cases hp with
  | ellipsis h => exact absurd h (by simp [hdots])
  | literal h =>
    simp only [h, if_true]
    exact EvalRel.pure fun _ _ => .cons ⟨rfl, .value (.ofExpr e), rfl⟩ .nil
  | reading h => exact hpromise (.reading (hR.readable ha h) henv)
  | unit hconstant hname h =>
    have hcode := @SuspensionRel.code W n (.expr e) (.unit _) env (hR.compiled ha h) henv
    simp only [hconstant, Bool.false_eq_true, if_false]
    cases e with
    | symbol => cases hname
    | _ => exact hpromise hcode

/-- The arguments of a closure. -/
lemma laters {args : List (Arg Expr)} {passed : List Passed}
    (hargs : ∀ a ∈ args, a.value.isEllipsis = false ∧ kept a.value)
    (hpassed : List.Forall₂ (Passes {}) (args.map Arg.value) passed) (henv : W.Valid n env) :
    EvalRel W n (fun m => List.Forall₂ (List.Forall₂ (ArgRel W m)))
      (args.mapM (Interpreter.argumentPromises env))
      fun _ => (args.zip passed).mapM fun a => a.2.later env a.1.name := by
  have hzip : List.Forall₂ (fun a (x : Arg Expr × Passed) => x.1 = a ∧
      a.value.isEllipsis = false ∧ kept a.value ∧ Passes {} a.value x.2 ∧ W.Valid n env)
      args (args.zip passed) := by
    induction args generalizing passed with
    | nil => exact .nil
    | cons a args ih =>
      cases hpassed with
      | cons hp hpassed =>
        obtain ⟨hdots, ha⟩ := hargs a List.mem_cons_self
        exact .cons ⟨rfl, hdots, ha, hp, henv⟩
          (ih (fun a ha => hargs a (List.mem_cons_of_mem _ ha)) hpassed)
  refine EvalRel.mapM (L := fun m a (x : Arg Expr × Passed) => x.1 = a ∧
      a.value.isEllipsis = false ∧ kept a.value ∧ Passes {} a.value x.2 ∧ W.Valid m env)
    (fun hle h => ⟨h.1, h.2.1, h.2.2.1, h.2.2.2.1, h.2.2.2.2.mono hle⟩)
    (fun hle h => h.imp fun _ _ h => ⟨h.name, h.value.mono hle, h.text⟩) (fun m a x hx => ?_) hzip
  obtain ⟨rfl, hdots, ha, hp, henv⟩ := hx
  exact hR.later ha hdots hp henv

/-! ## Calls -/

section

variable {call : Call} {passed : List Passed} {i : Nat} (hi : i + 1 ≤ b + 1) {g : Nat → Nat}
  (hg : Unbounded g) (hH : W.Hosts F b) (henv : W.Valid n env)
  (hargs : ∀ a ∈ call.args, a.value.isEllipsis = false ∧ kept a.value ∧
    Renders W F (b + 1) env a.value)
  (hpassed : List.Forall₂ (Passes {}) (call.args.map Arg.value) passed)
include hi hg hH henv hargs hpassed

/-- A function is applied alike to arguments as they are written and as they are compiled. -/
theorem apply {v v' : Value} (hv : ValueRel W n v v') (hf : v.category?.isSome) :
    EvalRel W n (ValueRel W) (Interpreter.applyTo F.limit (F.host i) env call v)
      fun k => Meaning.apply F.limit (answer F.options (g k)) env call passed v' := by
  have hhost := hH i (Nat.le_of_succ_le_succ hi) g (.inl ⟨hR.cut, hg⟩)
  cases hv with
  | builtin f =>
    have hnone : call.ellipsisIndex? = none := by
      rw [Call.ellipsisIndex?, List.findIdx?_eq_none_iff]
      exact fun a ha => (hargs a ha).1
    simp only [Interpreter.applyTo, Meaning.apply, builtin, gather, hnone, bind_assoc, pure_bind]
    refine (hR.values (fun a ha => ⟨(hargs a ha).1, (hargs a ha).2.2⟩) hpassed henv hi hg).bind
      fun m _ as vs has => ?_
    have hsupplied : SuppliedRel W m
        (as.flatten.map Arg.name, as.flatten.map Arg.value) (call.args.map Arg.name, vs) :=
      ⟨has.1, has.2, by rw [List.length_map, List.length_map]⟩
    have hinvoke := invoke_rel f call hsupplied
    cases hr : f.invoke call (as.flatten.map Arg.name) (as.flatten.map Arg.value) with
    | ok w => rwa [hr] at hinvoke
    | error h => rwa [hr] at hinvoke
  | closure hunit he =>
    refine (hR.laters (fun a ha => ⟨(hargs a ha).1, (hargs a ha).2.1⟩) hpassed henv).bind
      fun m hm as as' has => ?_
    exact applyClosure_rel hR.lawful hhost hunit (he.mono hm) call
      (argsRel_iff.2 (List.rel_flatten has))
  | special hs =>
    exact Special.invoke_rel hhost henv (fun a ha => hR.written (hargs a ha).2.1) hs
  | _ => cases hf

/-- What is found under a name is applied alike. -/
theorem found (htargets : W.Targets call) {name : Symbol} (hname : call.callee = .symbol name)
    {v v' : Value} (hv : FoundRel W name n v v') :
    EvalRel W n (ValueRel W) (Interpreter.applyTo F.limit (F.host i) env call v)
      fun k => Meaning.apply F.limit (answer F.options (g k)) env call passed v' := by
  cases hv with
  | value hv hf => exact hR.apply hi hg hH henv hargs hpassed hv hf
  | form s hs hform hv hv' =>
    subst hv hv' hform
    exact Special.invoke_form_rel (hH i (Nat.le_of_succ_le_succ hi) g (.inl ⟨hR.cut, hg⟩)) henv
      (fun a ha => hR.written (hargs a ha).2.1) htargets hs hname

end

/-! ## Expressions -/

/-- A function literal is compiled before or when it is evaluated. -/
lemma closure {formals : List (Formal Expr)} {body : Expr} (hkept : kept (.function formals body)) :
    Renders W F b env (.function formals body) := by
  intro M hM
  obtain ⟨u, h, rfl⟩ := hM.closure_inv
  obtain ⟨u', notes, hu'⟩ := h.succeeds none "closure" #[]
  have hfunction : FunctionRel W u' u :=
    hR.literal hkept (Compiling.compiledLiteral_of_functionLiteral hu') h
  refine .of_eval hR.cut fun i _ n g henv _ s t hst hn => ?_
  have hclosure : Interpreter.eval F.limit (F.host i) env (.function formals body) s
      = .ok (.closure u' env) { s with journal := s.journal ++ notes } := by
    simp only [Interpreter.eval, Interpreter.closure, hu']
  rw [hclosure]
  exact .same (.const _ t) (.ok (.closure hfunction (henv.mono hn))
    (hst.journal _ t.journal) (.of_eq rfl) (.refl t))

section

variable (hH : W.Hosts F b)
include hH

/-- A call of a name that the compiler does not inline. -/
lemma named {s : Symbol} {args : List (Arg Expr)} (hkept : kept (.call (.symbol s) args))
    (hargs : ∀ a ∈ args, a.value.isEllipsis = false ∧ kept a.value ∧ Renders W F (b + 1) env a.value)
    {M : Host → Eval Value} (hM : MeansPlain {} F.limit env s args M) :
    Together W F (b + 1) env (fun H => H (.eval env (.call (.symbol s) args))) M := by
  have hdots : s.isEllipsis = false := (hR.callee hkept).1
  cases hM with
  | primitive hs => cases hs
  | named _ hpassed =>
    refine .of_eval hR.cut fun i hi n g henv hg => ?_
    have hhost := hH i (Nat.le_of_succ_le_succ hi) g (.inl ⟨hR.cut, hg⟩)
    simp only [Interpreter.eval, Interpreter.apply_eq, Interpreter.callee, Call.name?, Expr.symbol?,
      hdots, Bool.false_eq_true, if_false]
    refine (Host.findFunction_rel hhost s).bind fun m hm v v' hv => ?_
    exact hR.found hi hg hH (henv.mono hm) hargs hpassed (hR.targets hkept) rfl hv

/-- A call of a function that is computed. -/
lemma computed {callee : Expr} {args : List (Arg Expr)} {passed : List Passed}
    {C : Host → Eval Value} (hname : callee.symbol? = none)
    (hcallee : Renders W F (b + 1) env callee)
    (hargs : ∀ a ∈ args, a.value.isEllipsis = false ∧ kept a.value ∧ Renders W F (b + 1) env a.value)
    (hC : Means {} F.limit env callee C)
    (hpassed : List.Forall₂ (Passes {}) (args.map Arg.value) passed) :
    Together W F (b + 1) env (fun H => H (.eval env (.call callee args))) fun H =>
      C H >>= fun v => callable H ⟨callee, args⟩ v >>=
        Meaning.apply F.limit H env ⟨callee, args⟩ passed := by
  refine .of_eval hR.cut fun i hi n g henv hg => ?_
  simp only [Interpreter.eval, Interpreter.apply_eq, Interpreter.callee, Call.name?, hname,
    bind_assoc]
  -- The interpreter does not force what the callee comes to, which is no promise.
  have hvalue := (hcallee.delivers hR.cut henv hi hg C hC).and_left (P := fun v =>
    ∀ m v', ValueRel W m v v' → ∀ p, v ≠ .promise p) fun s v t hv m v' hv' => hR.value i _ s t hv hv'
  refine hvalue.bind fun m hm v v' hv => ?_
  obtain ⟨hv, hplain⟩ := hv
  have hforce : ∀ k, callable (answer F.options (g k)) ⟨callee, args⟩ v'
      = Interpreter.callee.callable ⟨callee, args⟩ v' := by
    intro k
    cases hv with
    | promise hp p => exact absurd rfl (hplain m _ (.promise hp p) p)
    | _ => rfl
  simp only [hforce]
  refine (Interpreter.callable_rel hv).bind fun m₁ hm₁ f f' hf => ?_
  exact hR.apply hi hg hH ((henv.mono hm).mono hm₁) hargs hpassed hf.1 hf.2

/-- **What is evaluated as written is what it means.** -/
theorem renders (e : Expr) (he : kept e) : Renders W F (b + 1) env e := by
  induction hsize : sizeOf e using Nat.strongRecOn generalizing e with
  | ind size ih =>
  subst hsize
  cases e with
  | symbol name =>
    intro M hM
    obtain ⟨hdots, rfl⟩ := hM.reading_inv
    refine .of_eval hR.cut fun i hi n g henv hg => ?_
    simp only [Interpreter.eval, hdots, Bool.false_eq_true, if_false]
    exact lookup_rel (hH i (Nat.le_of_succ_le_succ hi) g (.inl ⟨hR.cut, hg⟩)) (hR.readable he hdots)
  | function formals body => exact hR.closure he
  | call callee args =>
    have hargs : ∀ a ∈ args, a.value.isEllipsis = false ∧ kept a.value ∧
        Renders W F (b + 1) env a.value := fun a ha =>
      have h := hR.arg he a ha
      ⟨h.1, h.2, ih _ (Expr.sizeOf_arg ha) a.value h.2 rfl⟩
    cases hname : callee.symbol? with
    | none =>
      intro M hM
      obtain ⟨C, passed, hC, hpassed, rfl⟩ := hM.computed_inv hname
      have hcallee := ih _ (Expr.sizeOf_callee callee args) callee ((hR.callee he).2 hname) rfl
      exact hR.computed hH hname hcallee hargs hC hpassed
    | some s =>
      obtain rfl : callee = .symbol s := by
        cases callee <;> first | cases hname; rfl | cases hname
      by_cases hi : CompilerOptions.Inlines {} (.symbol s) args
      · obtain ⟨f, rfl⟩ : ∃ f : Special, s = ⟨f.name⟩ := by
          cases hi.2 <;> exact ⟨_, ‹_›⟩
        exact hR.form he hi.2 fun a ha => (hargs a ha).2.2
      · exact fun M hM => hR.named hH he hargs (hM.plain_inv hi)
  | _ =>
    intro M hM
    rw [hM.literal_inv rfl]
    exact .of_eval hR.cut fun _ _ _ _ _ _ => EvalRel.pure fun _ _ => .ofExpr _

end

end Rendering

end CallByNeed
