import CallByNeed.Proofs.Comparison.Dots
import CallByNeed.Proofs.Comparison.Together
import CallByNeed.Proofs.Plain.Evaluations
import CallByNeed.Proofs.Source.Shapes

/-!
# One expression, compiled in two ways

Two meanings of one expression, for two ways of compiling it, go together (`Means.together`), whenever
the units that they hold do and the world allows for the difference: both ways inline control flow or
neither does, and a builtin that only one of them calls directly has a pinned name. There is one lemma
for each shape, which takes what is shown of the parts.
-/

namespace CallByNeed

open Meaning

variable {W : World} {l : Leeway} {o o' : CompilerOptions} {F : HostFamily} {b : Nat}
  {env : EnvId} {limit : Nat}

/-! ## What is supposed -/

/-- Two ways of compiling whose units go together. -/
structure Aligned (W : World) (l : Leeway) (o o' : CompilerOptions) : Prop extends W.Heeds l where
  lawful : W.Lawful
  unnamed : ¬ W.named
  units : ∀ e u u', e.keepsTo l = true → CompiledFrom o e u → CompiledFrom o' e u' →
    W.code (.unit u) (.unit u')
  inlined : o.inlineControlFlow = o'.inlineControlFlow

/-- The arguments of builtins, whichever way they are evaluated, keep what `...` is bound to. -/
structure Steadying (W : World) (l : Leeway) (o : CompilerOptions) (F : HostFamily)
    (b : Nat) : Prop where
  now : ∀ env args A, (∀ a ∈ args, a.value.keepsTo l = true) → MeansNow o F.limit env args A →
    ∀ j ≤ b, ∀ n, W.Valid n env → Keeps W n (A (F.host j))
  passed : ∀ env (args : List (Arg Expr)) passed, (∀ a ∈ args, a.value.keepsTo l = true) →
    List.Forall₂ (Passes o) (args.map Arg.value) passed →
    ∀ j ≤ b, ∀ n, W.Valid n env →
      Keeps W n (passed.mapM (Passed.now F.limit (F.host j) env))

/-- In the world it makes no difference whether a builtin of that name is called directly. -/
structure Exchangeable (W : World) (l : Leeway) (o : CompilerOptions) (F : HostFamily) (b : Nat)
    (s : Symbol) : Prop where
  pins : W.pins
  pinned : W.pinned s
  steady : W.steady
  lax : W.lax
  cut : W.cut
  deep : ¬ W.deep
  steadying : Steadying W l o F b

/-- All meanings of the expression go together. -/
def MeansTogether (W : World) (o o' : CompilerOptions) (F : HostFamily) (b : Nat) (env : EnvId)
    (e : Expr) : Prop :=
  ∀ M M', Means o F.limit env e M → Means o' F.limit env e M' → Together W F b env M M'

/-- The builtin of a name is a global function. -/
lemma Store.lookup_globals {s : Symbol} {f : Builtin} (h : Builtin.ofName? s.name = some f) :
    Store.globals.lookup s = some (.builtin f) := by
  obtain ⟨name⟩ := s
  unfold Builtin.ofName? at h
  have hname := List.find?_some h
  obtain rfl : f.name = name := of_decide_eq_true hname
  clear h hname
  cases f <;> rfl

/-! ## Arguments -/

/-- An argument that is evaluated at once comes to what it means, or to its unit. -/
lemma Passes.now_cases {e : Expr} {p : Passed} (h : Passes o e p) (limit : Nat) (env : EnvId)
    (he : e.isEllipsis = false) :
    (∃ M, Means o limit env e M ∧ (fun H => p.now limit H env) = M) ∨
      ∃ u, CompiledFrom o e u ∧ (fun H => p.now limit H env) =
        fun H => H.executeNested limit u env := by
  cases h with
  | ellipsis h => exact absurd h (by simp [he])
  | literal h => exact .inl ⟨_, .literal h, rfl⟩
  | reading h => exact .inl ⟨_, .reading h, rfl⟩
  | unit _ _ h => exact .inr ⟨_, h, rfl⟩

/-- Only `...` is passed as `...`. -/
lemma Passes.ellipsis_inv {e : Expr} {p : Passed} (h : Passes o e p) (he : e.isEllipsis = true) :
    p = .ellipsis := by
  obtain rfl : e = .symbol .ellipsis := by
    cases e <;> first | cases he | exact congrArg Expr.symbol (of_decide_eq_true he)
  cases h with
  | ellipsis => rfl
  | literal h => cases h
  | reading h => cases h
  | unit _ h => cases h

/-- An argument is passed in the same way if its units count as the same. -/
lemma Passes.related {e : Expr} {p p' : Passed}
    (hname : ∀ name, e = .symbol name → name.isEllipsis = false → W.Readable name)
    (hunits : UnitsAlike W o o' e) (h : Passes o e p) (h' : Passes o' e p') : PassedRel W p p' := by
  cases hdots : e.isEllipsis with
  | true =>
    rw [h.ellipsis_inv hdots, h'.ellipsis_inv hdots]
    exact .ellipsis
  | false =>
    cases h with
    | ellipsis h => exact absurd h (by simp [hdots])
    | literal h =>
      cases h' with
      | ellipsis h' => exact absurd h' (by simp [hdots])
      | literal => exact .literal e
      | reading => cases h
      | unit h' => exact absurd h (by simp [h'])
    | reading h =>
      cases h' with
      | ellipsis h' => exact absurd h' (by simp [hdots])
      | literal h' => cases h'
      | reading => exact .reading (hname _ rfl h)
      | unit _ h' => cases h'
    | unit hc hs h =>
      cases h' with
      | ellipsis h' => exact absurd h' (by simp [hdots])
      | literal h' => exact absurd h' (by simp [hc])
      | reading => cases hs
      | unit _ _ h' => exact .unit (hunits _ _ h h')

lemma Passes.all_related {args : List (Arg Expr)} {passed passed' : List Passed}
    (hargs : ∀ a ∈ args,
      (∀ name, a.value = .symbol name → name.isEllipsis = false → W.Readable name) ∧
        UnitsAlike W o o' a.value)
    (h : List.Forall₂ (Passes o) (args.map Arg.value) passed)
    (h' : List.Forall₂ (Passes o') (args.map Arg.value) passed') :
    List.Forall₂ (PassedRel W) passed passed' :=
  forall₂_of_common h h' fun _ he _ _ hp hp' => by
    obtain ⟨a, ha, rfl⟩ := List.mem_map.1 he
    exact hp.related (hargs a ha).1 (hargs a ha).2 hp'

/-- What keeps to the leeway is passed in the same way. -/
lemma Aligned.passed {args : List (Arg Expr)} {passed passed' : List Passed} (hA : Aligned W l o o')
    (hargs : ∀ a ∈ args, a.value.keepsTo l = true)
    (h : List.Forall₂ (Passes o) (args.map Arg.value) passed)
    (h' : List.Forall₂ (Passes o') (args.map Arg.value) passed') :
    List.Forall₂ (PassedRel W) passed passed' :=
  Passes.all_related (fun a ha => ⟨fun _ he => hA.readable (he ▸ hargs a ha),
    fun u u' => hA.units _ u u' (hargs a ha)⟩) h h'

section

variable {e : Expr} {p : Passed} {A B : Host → Eval Value} (hW : W.Lawful) (hcut : W.cut)
  (hdeep : ¬ W.deep) (h : MeansTogether W o o' F b env e) (hdots : e.isEllipsis = false)
include hW hcut hdeep h hdots

/-- What an expression means on the left goes together with passing it on the right. -/
lemma Means.now_right (hM : Means o F.limit env e A) (hp : Passes o' e p) :
    Together W F b env A fun H => p.now F.limit H env := by
  obtain ⟨M, hM', heq⟩ | ⟨u, hu, heq⟩ := hp.now_cases F.limit env hdots
  · rw [heq]
    exact h A M hM hM'
  · rw [heq]
    exact .unit_right hW hcut hdeep hu fun M hM' => h A M hM hM'

/-- Passing an expression on the left goes together with what it means on the right. -/
lemma Means.now_left (hp : Passes o e p) (hM : Means o' F.limit env e B) :
    Together W F b env (fun H => p.now F.limit H env) B := by
  obtain ⟨M, hM', heq⟩ | ⟨u, hu, heq⟩ := hp.now_cases F.limit env hdots
  · rw [heq]
    exact h M B hM' hM
  · rw [heq]
    exact .unit_left hW hcut hdeep hu fun M hM' => h M B hM' hM

end

/-! ## Lists of arguments -/

/-- Evaluations of arguments are alike on hosts whose bounds are at most `b`. -/
def AllTogether (W : World) (F : HostFamily) (b : Nat) (env : EnvId) (count : Nat)
    (A B : Host → Eval (List Value)) : Prop :=
  ∀ j ≤ b, ∀ n g, W.Valid n env → W.Bounds j g →
    EvalRel W n (CountRel W count) (A (F.host j)) fun k => B (answer F.options (g k))

namespace AllTogether

variable {count : Nat} {A B : Host → Eval Value} {As Bs : Host → Eval (List Value)}

lemma nil : AllTogether W F b env 0 (fun _ => pure []) fun _ => pure [] :=
  fun _ _ _ _ _ _ => EvalRel.pure fun _ _ => ⟨.nil, rfl⟩

lemma cons (h : Together W F b env A B) (hs : AllTogether W F b env count As Bs) :
    AllTogether W F b env (count + 1)
      (fun H => do
        let v ← A H
        let vs ← As H
        return v :: vs)
      fun H => do
        let v ← B H
        let vs ← Bs H
        return v :: vs := by
  intro j hj n g henv hg
  refine (h j hj n g henv hg).bind fun m hm v v' hv => ?_
  refine (hs j hj m g (henv.mono hm) hg).bind fun m₁ hm₁ vs vs' hvs => ?_
  exact EvalRel.pure fun m₂ hm₂ =>
    ⟨.cons (hv.mono (Nat.le_trans hm₁ hm₂)) (hvs.1.mono hm₂), congrArg (· + 1) hvs.2⟩

/-- `NULL` stands in the place of `...`. -/
lemma skip (hs : AllTogether W F b env count As Bs) :
    AllTogether W F b env (count + 1)
      (fun H => do
        let vs ← As H
        return .null :: vs)
      fun H => do
        let vs ← Bs H
        return .null :: vs := by
  intro j hj n g henv hg
  refine (hs j hj n g henv hg).bind fun m₁ _ vs vs' hvs => ?_
  exact EvalRel.pure fun m₂ hm₂ => ⟨.cons .null (hvs.1.mono hm₂), congrArg (· + 1) hvs.2⟩

end AllTogether

section

variable {args : List (Arg Expr)} {As Bs : Host → Eval (List Value)} {passed passed' : List Passed}

lemma List.mapM_now_cons (p : Passed) (ps : List Passed) (H : Host) :
    (p :: ps).mapM (Passed.now limit H env) = (do
      let v ← p.now limit H env
      let vs ← ps.mapM (Passed.now limit H env)
      return v :: vs) := List.mapM_cons

/-- The arguments are evaluated at once in both runs. -/
lemma MeansNow.together (h : ∀ a ∈ args, MeansTogether W o o' F b env a.value)
    (hA : MeansNow o F.limit env args As) (hB : MeansNow o' F.limit env args Bs) :
    AllTogether W F b env args.length As Bs := by
  induction args generalizing As Bs with
  | nil =>
    cases hA
    cases hB
    exact .nil
  | cons a args ih =>
    have ih := fun {As Bs} => @ih As Bs fun a ha => h a (List.mem_cons_of_mem _ ha)
    cases hA with
    | ellipsis ha hA =>
      cases hB with
      | ellipsis _ hB => exact (ih hA hB).skip
      | value ha' => exact absurd ha (by simp [ha'])
    | value ha hM hA =>
      cases hB with
      | ellipsis ha' => exact absurd ha' (by simp [ha])
      | value _ hM' hB => exact .cons (h a List.mem_cons_self _ _ hM hM') (ih hA hB)

section

variable (hW : W.Lawful) (hcut : W.cut) (hdeep : ¬ W.deep)
  (h : ∀ a ∈ args, MeansTogether W o o' F b env a.value)
include hW hcut hdeep h

/-- The arguments are passed in the second run. -/
lemma MeansNow.together_passed (hA : MeansNow o F.limit env args As)
    (hB : List.Forall₂ (Passes o') (args.map Arg.value) passed) :
    AllTogether W F b env args.length As fun H => passed.mapM (Passed.now F.limit H env) := by
  induction args generalizing As passed with
  | nil =>
    cases hA
    cases hB
    exact .nil
  | cons a args ih =>
    have ih := fun {As passed} => @ih As passed fun a ha => h a (List.mem_cons_of_mem _ ha)
    cases hB with
    | cons hp hB =>
      simp only [List.mapM_now_cons]
      cases hA with
      | ellipsis ha hA =>
        rw [hp.ellipsis_inv ha]
        simp only [Passed.now, pure_bind]
        exact (ih hA hB).skip
      | value ha hM hA =>
        exact .cons (Means.now_right hW hcut hdeep (h a List.mem_cons_self) ha hM hp) (ih hA hB)

/-- The arguments are passed in the first run. -/
lemma MeansNow.passed_together (hA : List.Forall₂ (Passes o) (args.map Arg.value) passed)
    (hB : MeansNow o' F.limit env args Bs) :
    AllTogether W F b env args.length (fun H => passed.mapM (Passed.now F.limit H env)) Bs := by
  induction args generalizing Bs passed with
  | nil =>
    cases hA
    cases hB
    exact .nil
  | cons a args ih =>
    have ih := fun {Bs passed} => @ih Bs passed fun a ha => h a (List.mem_cons_of_mem _ ha)
    cases hA with
    | cons hp hA =>
      simp only [List.mapM_now_cons]
      cases hB with
      | ellipsis ha hB =>
        rw [hp.ellipsis_inv ha]
        simp only [Passed.now, pure_bind]
        exact (ih hA hB).skip
      | value ha hM hB =>
        exact .cons (Means.now_left hW hcut hdeep (h a List.mem_cons_self) ha hp hM) (ih hA hB)

end

end

/-! ## Calls -/

section

variable {args : List (Arg Expr)} {passed passed' : List Passed} (hW : W.Lawful) (hH : W.Hosts F b)
  (hargs : ∀ a ∈ args, W.code (.expr a.value) (.expr a.value))
  (hpassed : List.Forall₂ (PassedRel W) passed passed') (hcount : passed.length = args.length)
include hW hH hargs hpassed hcount

/-- The function that is called is looked up in both runs. -/
lemma Together.named {s : Symbol} (htargets : W.Targets ⟨.symbol s, args⟩) :
    Together W F b env
      (fun H => H.findFunction env s >>= apply F.limit H env ⟨.symbol s, args⟩ passed)
      fun H => H.findFunction env s >>= apply F.limit H env ⟨.symbol s, args⟩ passed' := by
  intro j hj n g henv hg
  have hHj := hH j hj g hg
  refine (Host.findFunction_rel hHj s).bind fun m hm f f' hf => ?_
  exact found_rel hW hHj (henv.mono hm) hargs hpassed hcount htargets rfl hf

/-- The function that is called is computed in both runs. -/
lemma Together.computed {callee : Expr} {C C' : Host → Eval Value} (hc : Together W F b env C C') :
    Together W F b env
      (fun H => C H >>= fun v => callable H ⟨callee, args⟩ v >>=
        apply F.limit H env ⟨callee, args⟩ passed)
      fun H => C' H >>= fun v => callable H ⟨callee, args⟩ v >>=
        apply F.limit H env ⟨callee, args⟩ passed' := by
  intro j hj n g henv hg
  have hHj := hH j hj g hg
  refine (hc j hj n g henv hg).bind fun m hm v v' hv => ?_
  refine (callable_rel hHj hv).bind fun m₁ hm₁ f f' hf => ?_
  exact apply_rel hW hHj ((henv.mono hm).mono hm₁) hargs hpassed hcount hf.1 hf.2

end

/-! ## Expressions -/

section

variable {e : Expr} {s : Symbol} {args : List (Arg Expr)} {M M' : Host → Eval Value}

/-- The steps of a block. -/
lemma MeansSteps.together {A B : Host → Eval Value}
    (h : ∀ a ∈ args, MeansTogether W o o' F b env a.value) (hA : MeansSteps o F.limit env args A)
    (hB : MeansSteps o' F.limit env args B) : Together W F b env A B := by
  induction args generalizing A B with
  | nil =>
    cases hA
    cases hB
    exact fun _ _ _ _ _ _ => EvalRel.pure fun _ _ => .null
  | cons a args ih =>
    have hfirst := h a List.mem_cons_self
    cases hA with
    | last hA =>
      cases hB with
      | last hB => exact hfirst _ _ hA hB
    | step hA hrest =>
      cases hB with
      | step hB hrest' =>
        intro j hj n g henv hg
        refine (hfirst _ _ hA hB j hj n g henv hg).bind fun m hm _ _ _ => ?_
        exact ih (fun a ha => h a (List.mem_cons_of_mem _ ha)) hrest hrest' j hj m g
          (henv.mono hm) hg

section

variable (hA : Aligned W l o o') (hH : W.Hosts F b)
include hA

/-- Control flow is inlined for the call, in both ways of compiling. -/
lemma Means.together_inlined (hargs : ∀ a ∈ args, MeansTogether W o o' F b env a.value)
    (hallowed : l.allows ⟨.symbol s, args⟩ = true) (ho : o.inlineControlFlow = true)
    (hi : Inlined (.symbol s) args) (hM : Means o F.limit env (.call (.symbol s) args) M)
    (hM' : Means o' F.limit env (.call (.symbol s) args) M') : Together W F b env M M' := by
  have ho' : o'.inlineControlFlow = true := hA.inlined ▸ ho
  have htargets := hA.targets hallowed
  intro j hj n g henv hg
  cases hi with
  | whether hs c y =>
    obtain ⟨C, Y, hC, hY, rfl⟩ := hM.whether_inv ho hs
    obtain ⟨C', Y', hC', hY', rfl⟩ := hM'.whether_inv ho' hs
    exact branch_rel (hargs ⟨none, c⟩ (by simp) _ _ hC hC' j hj n g henv hg)
      (hargs ⟨none, y⟩ (by simp) _ _ hY hY' j hj n g henv hg)
      (EvalRel.pure fun _ _ => .null)
  | choice hs c y no =>
    obtain ⟨C, Y, N, hC, hY, hN, rfl⟩ := hM.choice_inv ho hs
    obtain ⟨C', Y', N', hC', hY', hN', rfl⟩ := hM'.choice_inv ho' hs
    exact branch_rel (hargs ⟨none, c⟩ (by simp) _ _ hC hC' j hj n g henv hg)
      (hargs ⟨none, y⟩ (by simp) _ _ hY hY' j hj n g henv hg)
      (hargs ⟨none, no⟩ (by simp) _ _ hN hN' j hj n g henv hg)
  | @loop _ name hs hname q e =>
    obtain ⟨Q, B, hQ, hB, rfl⟩ := hM.loop_inv ho hs hname
    obtain ⟨Q', B', hQ', hB', rfl⟩ := hM'.loop_inv ho' hs hname
    exact loop_rel (htargets.loop (congrArg _ hs) name rfl)
      (hargs ⟨none, q⟩ (by simp) _ _ hQ hQ' j hj n g henv hg)
      (hargs ⟨none, e⟩ (by simp) _ _ hB hB' j hj n g henv hg)
  | block hs hnames =>
    exact (hM.block_inv ho hs hnames).together hargs (hM'.block_inv ho' hs hnames) j hj n g henv hg
  | @assignment _ name hs hname e =>
    obtain ⟨A, hA, rfl⟩ := hM.assignment_inv ho hs hname
    obtain ⟨A', hA', rfl⟩ := hM'.assignment_inv ho' hs hname
    exact assign_rel (htargets.assign (congrArg _ hs) _ name rfl (.inl rfl))
      (hargs ⟨none, e⟩ (by simp) _ _ hA hA' j hj n g henv hg)

include hH

/-- A builtin may be called directly in one of the ways of compiling only. -/
lemma MeansPlain.together (hargs : ∀ a ∈ args, MeansTogether W o o' F b env a.value)
    (he : (Expr.call (.symbol s) args).keepsTo l = true)
    (hs : o.isStaticPrimitive s.name ≠ o'.isStaticPrimitive s.name →
      (Builtin.ofName? s.name).isSome → Exchangeable W l o F b s)
    (hM : MeansPlain o F.limit env s args M) (hM' : MeansPlain o' F.limit env s args M') :
    Together W F b env M M' := by
  obtain ⟨-, hallowed, hkeeps⟩ := Expr.keepsTo_call.1 he
  intro j hj n g henv hg
  have hHj := hH j hj g hg
  cases hM with
  | primitive hp hf hA' =>
    cases hM' with
    | primitive _ hf' hB' =>
      obtain rfl := Option.some.inj (hf.symm.trans hf')
      refine (hA'.together hargs hB' j hj n g henv hg).bind fun m _ vs vs' hvs => ?_
      exact builtin_rel hHj _ (EvalRel.pure fun _ hm => ⟨hvs.1.mono hm, hvs.2⟩) _
    | named hp' hB' =>
      have hex := hs (by simp [hp, hp']) (by simp [hf])
      refine .pinned_right hex.pins henv hex.pinned (Store.lookup_globals hf) rfl ?_
      have hvalues := MeansNow.together_passed hA.lawful hex.cut hex.deep hargs hA' hB' j hj n g
        henv hg
      have hgather := gatherLast_gather_rel ⟨.symbol s, args⟩ hex.pins hex.steady hex.lax
        hex.cut hHj henv (hex.steadying.now env args _ hkeeps hA' j hj n henv) hvalues
      simp only [builtin, ← bind_assoc]
      exact hgather.bind fun _ _ _ _ hx => invoke_rel _ _ hx
  | named hp hA' =>
    cases hM' with
    | primitive hp' hf hB' =>
      have hex := hs (by simp [hp, hp']) (by simp [hf])
      refine .pinned_left hex.pins henv hex.pinned (Store.lookup_globals hf) rfl ?_
      have hvalues := MeansNow.passed_together hA.lawful hex.cut hex.deep hargs hA' hB' j hj n g
        henv hg
      have hgather := gather_gatherLast_rel ⟨.symbol s, args⟩ hex.pins hex.steady hex.lax
        hex.cut hHj henv (hex.steadying.passed env args _ hkeeps hA' j hj n henv) hvalues
      simp only [builtin, ← bind_assoc]
      exact hgather.bind fun _ _ _ _ hx => invoke_rel _ _ hx
    | named _ hB' =>
      exact Together.named hA.lawful hH (fun a ha => hA.code _ (hkeeps a ha))
        (hA.passed hkeeps hA' hB') (by rw [← hA'.length_eq, List.length_map]) (hA.targets hallowed)
        j hj n g henv hg

/-- **Meanings of one expression go together**, in two ways of compiling that are aligned. -/
theorem Means.together
    (hs : ∀ s : Symbol, o.isStaticPrimitive s.name ≠ o'.isStaticPrimitive s.name →
      (Builtin.ofName? s.name).isSome → Exchangeable W l o F b s)
    (e : Expr) (he : e.keepsTo l = true) : MeansTogether W o o' F b env e := by
  induction hsize : sizeOf e using Nat.strongRecOn generalizing e with
  | ind size ih =>
  subst hsize
  intro M M' hM hM'
  cases e with
  | symbol name =>
    obtain ⟨hdots, rfl⟩ := hM.reading_inv
    obtain ⟨-, rfl⟩ := hM'.reading_inv
    exact fun j hj n g _ hg => lookup_rel (hH j hj g hg) (hA.readable he hdots)
  | function formals body =>
    obtain ⟨u, h, rfl⟩ := hM.closure_inv
    obtain ⟨u', h', rfl⟩ := hM'.closure_inv
    have hf := h.related (f := ⟨formals, body⟩) hA.unnamed hA.toHeeds he hA.units h'
    exact fun _ _ _ _ henv _ => EvalRel.pure fun _ hm => .closure hf (henv.mono hm)
  | call callee args =>
    obtain ⟨hcallee, hallowed, hkeeps⟩ := Expr.keepsTo_call.1 he
    have hargs : ∀ a ∈ args, MeansTogether W o o' F b env a.value :=
      fun a ha => ih _ (Expr.sizeOf_arg ha) a.value (hkeeps a ha) rfl
    cases hname : callee.symbol? with
    | some s =>
      obtain rfl : callee = .symbol s := by
        cases callee <;> first | cases hname; rfl | cases hname
      by_cases hi : o.Inlines (.symbol s) args
      · exact Means.together_inlined hA hargs hallowed hi.1 hi.2 hM hM'
      · have hi' : ¬ o'.Inlines (.symbol s) args := fun h => hi (h.congr hA.inlined.symm)
        exact (hM.plain_inv hi).together hA hH hargs he (hs s) (hM'.plain_inv hi')
    | none =>
      obtain ⟨C, passed, hC, hpassed, rfl⟩ := hM.computed_inv hname
      obtain ⟨C', passed', hC', hpassed', rfl⟩ := hM'.computed_inv hname
      have hc := ih _ (Expr.sizeOf_callee callee args) callee (hcallee hname) rfl _ _ hC hC'
      exact .computed hA.lawful hH (fun a ha => hA.code _ (hkeeps a ha))
        (hA.passed hkeeps hpassed hpassed') (by rw [← hpassed.length_eq, List.length_map]) hc
  | _ =>
    rw [hM.literal_inv rfl, hM'.literal_inv rfl]
    exact fun _ _ _ _ _ _ => EvalRel.pure fun _ _ => .ofExpr _

end

end

end CallByNeed
