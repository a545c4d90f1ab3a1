import CallByNeed.Proofs.Comparison.Agreement

/-!
# Inlined control flow

A program that is compiled with control flow inlined means the same as one that is compiled without,
if no call passes `...` on and nobody binds the names of the forms (`Program.run_inlineControlFlow`).
Without inlining, the operands of forms are evaluated as written, and so are their parts; so the two
runs are compared by `Rendering`, in a world in which the names of the forms are pinned.

Calls that pass `...` on are left out for a reason: a compiled call of a builtin evaluates the values
of `...` after all other arguments, the interpreter evaluates them where `...` stands. And the other
settings are those with which the interpreter compiles function literals, which might not fit into
units with some and fit with others.
-/

namespace CallByNeed

open Meaning

variable {r : RuntimeOptions} {b : Nat} {env : EnvId}

/-! ## Programs that leave the forms alone -/

/-- The name is one of a form that the compiler inlines. -/
def Symbol.controls (s : Symbol) : Bool := Special.all.any fun f => f ≠ .quote && s = ⟨f.name⟩

lemma Symbol.controls_iff {s : Symbol} :
    s.controls = true ↔ ∃ f : Special, f ≠ .quote ∧ s = ⟨f.name⟩ := by
  have hall : ∀ f : Special, f ∈ Special.all := fun f => by cases f <;> decide
  simp [controls, hall]

/-- Programs bind none of these names, and have no form as a value that assigns. -/
def Leeway.controlled : Leeway where
  formal name := !name.controls
  target name := !name.controls

/-- No call in the program passes `...` on. -/
def Program.undotted (p : Program) : Bool :=
  (p.definitions.all fun d => d.function.toExpr.undotted) && p.body.undotted

/-- The expression leaves the names of forms alone, and no call in it passes `...` on. -/
structure Expr.Controlled (e : Expr) : Prop where
  keeps : e.keepsTo .controlled = true
  undotted : e.undotted = true

namespace Expr.Controlled

variable {f x : Expr} {args : List (Arg Expr)} {formals : List (Formal Expr)}

lemma callee (h : (Expr.call f args).Controlled) :
    f.isEllipsis = false ∧ (f.symbol? = none → f.Controlled) :=
  have hdots := Expr.undotted_call.1 h.undotted
  ⟨hdots.1, fun hname => ⟨(Expr.keepsTo_call.1 h.keeps).1 hname, hdots.2.1⟩⟩

lemma arg (h : (Expr.call f args).Controlled) {a : Arg Expr} (ha : a ∈ args) :
    a.value.isEllipsis = false ∧ a.value.Controlled :=
  have hdots := (Expr.undotted_call.1 h.undotted).2.2 a ha
  ⟨hdots.1, (Expr.keepsTo_call.1 h.keeps).2.2 a ha, hdots.2⟩

lemma body (h : (Expr.function formals x).Controlled) : x.Controlled :=
  ⟨(Expr.keepsTo_function.1 h.keeps).2, (Expr.undotted_function.1 h.undotted).2⟩

lemma formal (h : (Expr.function formals x).Controlled) {y : Formal Expr} (hy : y ∈ formals) :
    Leeway.controlled.formal y.name = true ∧ ∀ e, y.default = some e → e.Controlled :=
  have hkeeps := (Expr.keepsTo_function.1 h.keeps).1 y hy
  ⟨hkeeps.1, fun e he => ⟨hkeeps.2 e he, (Expr.undotted_function.1 h.undotted).1 y hy e he⟩⟩

end Expr.Controlled

/-! ## What may differ -/

/-- The settings of the compiler, without inlining. -/
def CompilerOptions.calling : CompilerOptions := { inlineControlFlow := false }

/-- The same code without inlining and with it. Code of both runs may be inlined; then `...` may be
passed on. -/
inductive InlinedCode : Code → Code → Prop
  | written {e : Expr} (he : e.keepsTo .controlled = true) : InlinedCode (.expr e) (.expr e)
  | unit {e : Expr} {u u' : CodeUnit} (he : e.keepsTo .controlled = true)
    (h : CompiledFrom {} e u) (h' : CompiledFrom {} e u') : InlinedCode (.unit u) (.unit u')
  | called {e : Expr} {u u' : CodeUnit} (he : e.Controlled) (h : CompiledFrom .calling e u)
    (h' : CompiledFrom {} e u') : InlinedCode (.unit u) (.unit u')
  | compiled {e : Expr} {u : CodeUnit} (he : e.Controlled) (h : CompiledFrom {} e u) :
    InlinedCode (.expr e) (.unit u)

/-- Two runs, of which the first one calls forms where the second one goes through inlined control
flow. Nothing is said of runs that nest too deeply, or come across a value whose length is no
integer. -/
def World.inlining : World where
  code := InlinedCode
  named := False
  defects := False
  deep := False
  cut := True
  dropped e := (∃ limit, e = .depthExceeded limit) ∨ e = .primitive "length" .lengthTooLarge
  pins := True
  pinned name := name.controls = true

namespace World

lemma lawful_inlining : World.inlining.Lawful where
  level h := h.elim
  depth _ limit := .inl ⟨limit, rfl⟩
  sound e h := by
    obtain ⟨limit, rfl⟩ | rfl := h <;> exact id

lemma heeds_inlining : World.inlining.Heeds .controlled where
  forms _ := rfl
  formal name h _ hname := by
    simp [Leeway.controlled, show name.controls = true from hname] at h
  target name h _ :=
    ⟨fun hname => by simp [Leeway.controlled, show name.controls = true from hname] at h, False.elim⟩
  code e he := .written he

lemma aligned_inlining : Aligned World.inlining .controlled {} {} where
  toHeeds := heeds_inlining
  lawful := lawful_inlining
  unnamed := id
  units _ _ _ he h h' := .unit he h h'
  inlined := rfl

/-- The names of forms are pinned, to the forms. -/
lemma pinned_inlining {f : Special} (hf : f ≠ .quote) :
    World.inlining.pinned ⟨f.name⟩ ∧ Store.globals.lookup ⟨f.name⟩ = some (.special f) :=
  ⟨Symbol.controls_iff.2 ⟨f, hf, rfl⟩, by cases f <;> rfl⟩

lemma targets_inlining {f : Expr} {args : List (Arg Expr)} (h : (Expr.call f args).Controlled) :
    World.inlining.Targets ⟨f, args⟩ := heeds_inlining.targets (Expr.keepsTo_call.1 h.keeps).2.1

/-- A function literal, compiled without inlining and with it. -/
lemma function_inlining {f : Function} {u u' : FunctionUnit} (hf : f.toExpr.Controlled)
    (h : CompiledLiteral .calling f u) (h' : CompiledLiteral {} f u') :
    FunctionRel World.inlining u u' :=
  h.related_of_parts id
    (fun _ hx => ⟨heeds_inlining.formal _ (hf.formal hx).1,
      fun e he _ _ hu hu' => .called ((hf.formal hx).2 e he) hu hu'⟩)
    (fun _ _ hu hu' => .called hf.body hu hu') h'

/-- Where nobody binds the names of forms, expressions that pass no `...` on may be evaluated as
written. -/
lemma rendering_inlining : Rendering World.inlining r Expr.Controlled where
  lawful := lawful_inlining
  cut := trivial
  shallow := id
  long := .inr rfl
  callee h := h.callee
  arg h _ ha := h.arg ha
  targets h := targets_inlining h
  readable h := heeds_inlining.readable h.keeps
  written h := .written h.keeps
  compiled h hu := .compiled h hu
  literal h hu hu' := hu.related id heeds_inlining (f := ⟨_, _⟩) h.keeps
    (fun _ _ _ he h h' => .unit he h h') hu'
  finds {f args} hf _ j env s t hst henv := by
    cases j with
    | zero => exact .inl ⟨s, rfl⟩
    | succ i =>
      obtain ⟨hpinned, hlookup⟩ := pinned_inlining hf
      exact .inr ⟨i, rfl, Interpreter.eval_of_findFunction
        ((hst.left trivial).findFunction _ hpinned hlookup rfl (henv trivial))⟩
  value _ _ _ _ _ hv p hp := by
    subst hp
    cases hv with
    | promise hunpinned => exact hunpinned trivial

end World

/-! ## Expressions -/

/-- Nothing is inlined. -/
lemma CompilerOptions.not_inlines_calling {callee : Expr} {args : List (Arg Expr)} :
    ¬ CompilerOptions.calling.Inlines callee args := fun h => Bool.noConfusion h.1

section

variable (hH : World.inlining.Hosts r b)
include hH

/-- A form that is called does what it is inlined to. -/
lemma Means.together_form {f : Special} {args : List (Arg Expr)} {passed : List Passed}
    (he : (Expr.call (.symbol ⟨f.name⟩) args).Controlled) (hi : Inlined (.symbol ⟨f.name⟩) args)
    {M : Host → Eval Value} (hM : Means {} r.maxDepth env (.call (.symbol ⟨f.name⟩) args) M) :
    Together World.inlining r b env
      (fun H => H.findFunction env ⟨f.name⟩ >>=
        apply r.maxDepth H env ⟨.symbol ⟨f.name⟩, args⟩ passed) M := by
  obtain ⟨hpinned, hlookup⟩ := World.pinned_inlining hi.ne_quote
  intro j hj n g henv hg
  have hdelivers : ∀ a ∈ args, Delivers World.inlining {} r.maxDepth env n (answer r j)
      (fun k => answer r (g k)) a.value := fun a ha =>
    (World.rendering_inlining.renders hH _ (he.arg ha).2).delivers trivial henv (Nat.succ_le_succ hj)
      (hg.unbounded trivial)
  exact .pinned_left trivial henv hpinned hlookup rfl
    (hi.invoke_rel hdelivers rfl (.inr rfl) (World.targets_inlining he) hM)

/-- **Meanings of one expression go together**, without inlining and with it. -/
theorem Means.together_inlining (e : Expr) (he : e.Controlled) :
    MeansTogether World.inlining .calling {} r b env e := by
  induction hsize : sizeOf e using Nat.strongRecOn generalizing e with
  | ind size ih =>
  subst hsize
  intro M M' hM hM'
  cases e with
  | symbol name =>
    obtain ⟨hdots, rfl⟩ := hM.reading_inv
    obtain ⟨-, rfl⟩ := hM'.reading_inv
    exact fun j hj n g _ hg =>
      lookup_rel (hH j hj g hg) (World.heeds_inlining.readable he.keeps hdots)
  | function formals body =>
    obtain ⟨u, h, rfl⟩ := hM.closure_inv
    obtain ⟨u', h', rfl⟩ := hM'.closure_inv
    have hf := World.function_inlining (f := ⟨formals, body⟩) he h h'
    exact fun _ _ _ _ henv _ => EvalRel.pure fun _ hm => .closure hf (henv.mono hm)
  | call callee args =>
    have hwritten : ∀ a ∈ args, World.inlining.code (.expr a.value) (.expr a.value) :=
      fun a ha => .written (he.arg ha).2.keeps
    have hpassed : ∀ {passed passed'}, List.Forall₂ (Passes .calling) (args.map Arg.value) passed →
        List.Forall₂ (Passes {}) (args.map Arg.value) passed' →
        List.Forall₂ (PassedRel World.inlining) passed passed' := fun h h' =>
      Passes.all_related (fun a ha => by
        have ha := (he.arg ha).2
        exact ⟨fun _ hs => World.heeds_inlining.readable (hs ▸ ha.keeps),
          fun _ _ hu hu' => .called ha hu hu'⟩) h h'
    cases hname : callee.symbol? with
    | none =>
      obtain ⟨C, passed, hC, hp, rfl⟩ := hM.computed_inv hname
      obtain ⟨C', passed', hC', hp', rfl⟩ := hM'.computed_inv hname
      have hc := ih _ (Expr.sizeOf_callee callee args) callee (he.callee.2 hname) rfl _ _ hC hC'
      exact .computed World.lawful_inlining hH hwritten (hpassed hp hp')
        (by rw [← hp.length_eq, List.length_map]) hc
    | some s =>
      obtain rfl : callee = .symbol s := by
        cases callee <;> first | cases hname; rfl | cases hname
      cases hM.plain_inv CompilerOptions.not_inlines_calling with
      | primitive hs => cases hs
      | named _ hp =>
        by_cases hi : CompilerOptions.Inlines {} (.symbol s) args
        · obtain ⟨f, rfl⟩ : ∃ f : Special, s = ⟨f.name⟩ := by
            cases hi.2 <;> exact ⟨_, ‹_›⟩
          exact Means.together_form hH he hi.2 hM'
        · cases hM'.plain_inv hi with
          | primitive hs => cases hs
          | named _ hp' =>
            exact .named World.lawful_inlining hH hwritten (hpassed hp hp')
              (by rw [← hp.length_eq, List.length_map]) (World.targets_inlining he)
  | _ =>
    rw [hM.literal_inv rfl, hM'.literal_inv rfl]
    exact fun _ _ _ _ _ _ => EvalRel.pure fun _ _ => .ofExpr _

end

/-- Hosts of all bounds do the same without inlining and with it. -/
theorem World.hosts_inlining (b : Nat) : World.inlining.Hosts r b := by
  refine hosts_of_code lawful_inlining trivial (fun b hH c c' env hc n g henv hg => ?_) b
  have hunbounded := hg.unbounded trivial
  cases hc with
  | written he =>
    exact Interpreter.keeping_rel lawful_inlining id heeds_inlining
      (fun _ _ _ he h h' => .unit he h h') (hH b (Nat.le_refl b) g hg) henv he
  | unit he hu hu' =>
    refine hu.run_left lawful_inlining trivial (answer_oblivious r b) (fun M hM => ?_) b
    refine hu'.run_right lawful_inlining trivial hunbounded fun M' hM' => ?_
    exact Means.together aligned_inlining hH (fun s hs => absurd rfl hs) _ he M M' hM hM' b
      (Nat.le_refl b) n g henv hg
  | called he hu hu' =>
    refine hu.run_left lawful_inlining trivial (answer_oblivious r b) (fun M hM => ?_) b
    refine hu'.run_right lawful_inlining trivial hunbounded fun M' hM' => ?_
    exact Means.together_inlining hH _ he M M' hM hM' b (Nat.le_refl b) n g henv hg
  | compiled he hu =>
    refine hu.run_right lawful_inlining trivial hunbounded fun M hM => ?_
    exact rendering_inlining.renders hH _ he M hM (b + 1) (Nat.le_refl _) n g henv
      (.inl ⟨trivial, hunbounded⟩)

/-! ## Programs -/

section

variable {p : Program} {c c' : CompiledProgram} {k k' : Journal}
  (hp : p.keepsTo .controlled = true) (hdots : p.undotted = true)
include hp hdots

/-- The parts of the program leave the forms alone. -/
lemma Program.controlled : p.body.Controlled ∧ ∀ d ∈ p.definitions,
    Leeway.controlled.formal d.name = true ∧ d.function.toExpr.Controlled := by
  rw [keepsTo, Bool.and_eq_true, List.all_eq_true] at hp
  rw [undotted, Bool.and_eq_true, List.all_eq_true] at hdots
  refine ⟨⟨hp.2, hdots.2⟩, fun d hd => ?_⟩
  have hkeeps := hp.1 d hd
  rw [Bool.and_eq_true] at hkeeps
  exact ⟨hkeeps.1, hkeeps.2, hdots.1 d hd⟩

/-- A program that is compiled without inlining and with it: what the two come to goes together. -/
theorem Compiling.program_inlining (hc : program .calling .counting p #[] = .ok c k)
    (hc' : program {} .counting p #[] = .ok c' k') (notes notes' : Journal) (bound : Nat) :
    Matches World.inlining (ValueRel .inlining) (c.opening notes) (c'.opening notes')
      (answer r bound (.execute c.main globalEnv) (c.opening notes))
      fun k => answer r k (.execute c'.main globalEnv) := by
  obtain ⟨hbody, hdefinitions⟩ := p.controlled hp hdots
  have hrelated := Compiling.definitions_rel (W := .inlining) (fun d hd => by
    obtain ⟨hname, hf⟩ := hdefinitions d hd
    exact ⟨World.heeds_inlining.formal _ hname, fun _ _ hu hu' => World.function_inlining hf hu hu'⟩)
    hc hc'
  have hmain := InlinedCode.called hbody (compiled_of_program hc).2 (compiled_of_program hc').2
  have hglobal := (program_opens hc notes).2.2
  exact World.hosts_inlining (r := r) bound bound (Nat.le_refl bound) _ (.inl ⟨trivial, .id⟩) _ _ _
    (TaskRel.execute hmain fun _ => hglobal) _ _ (.opening hrelated notes notes') (Nat.le_refl _)

end

/-- The program came to values that are the same in some sense, or failed for the same reason. -/
inductive Outcome.Agrees (R : Nat → Value → Value → Prop) : Outcome → Outcome → Prop
  | value {v v' : Value} {s s' : Store} (h : R s.environments.size v v') :
    Agrees R ⟨.ok v, s⟩ ⟨.ok v', s'⟩
  | failure (e : Failure) (s s' : Store) : Agrees R ⟨.error e, s⟩ ⟨.error e, s'⟩

/-- What a program comes to if evaluating its body gives the result. -/
def Outcome.ofResult : Result Value → Outcome
  | .ok v s => ⟨.ok v, s⟩
  | .error h s => ⟨.error (.ofHalt h), s⟩

lemma Outcome.agrees_of_resultRel {s t : Store} {x y : Result Value}
    (h : ResultRel .inlining (ValueRel .inlining) s t x y) :
    (ofResult x).Agrees (ValueRel .inlining) (ofResult y) := by
  cases h with
  | ok hv => exact .value hv
  | error hh =>
    obtain ⟨rfl, -⟩ := hh.resolve_right fun h => h.1
    exact .failure _ _ _

/-- The outcome of a compiled program is that of its body, under all large bounds. -/
lemma Program.run_of_finishes {p : Program} {config : Config} {c : CompiledProgram} {k : Journal}
    (hc : Compiling.program config.compiler .counting p #[] = .ok c k) {x : Outcome} {N : Nat}
    (hx : ∀ bound ≥ N, p.run config bound = x) :
    ∃ notes y, ¬ Exhausts y ∧ x = .ofResult y ∧
      Settles (fun bound => answer config.runtime bound (.execute c.main globalEnv)) (c.opening notes)
        y := by
  obtain ⟨notes, hrun⟩ := run_of_compiled hc
  obtain ⟨y, hy, m, hm⟩ := (Compiling.program_finishes hc config.runtime notes).settles
  refine ⟨notes, y, hy, ?_, m, hm⟩
  rw [← hx _ (Nat.le_max_left N m)]
  have hend := hm _ (Nat.le_max_right N m)
  cases y with
  | ok v t => exact (hrun _).1 v t hend
  | error e t => exact (hrun _).2 e t hend

/-- **Inlining control flow makes no difference** for programs that pass no `...` on and leave the
names of the forms alone: both runs come to the same value, up to the units in closures, or fail with
the same error, unless the program is not compiled, or nests too deeply, or comes across a value whose
length is no integer. -/
theorem Program.run_inlineControlFlow (p : Program) (r : RuntimeOptions)
    (hp : p.keepsTo .controlled = true) (hdots : p.undotted = true) :
    ∃ N x x', (∀ bound ≥ N, p.run ⟨.calling, r⟩ bound = x) ∧ (∀ bound ≥ N, p.run ⟨{}, r⟩ bound = x') ∧
      (x.Regular → x'.Regular → x'.result ≠ .error (.eval (.primitive "length" .lengthTooLarge)) →
        x.Agrees (ValueRel .inlining) x') := by
  obtain ⟨-, N, x, -, hx⟩ := p.run_ends ⟨.calling, r⟩
  obtain ⟨-, N', x', -, hx'⟩ := p.run_ends ⟨{}, r⟩
  refine ⟨max N N', x, x', fun bound hb => hx bound (le_trans (le_max_left N N') hb),
    fun bound hb => hx' bound (le_trans (le_max_right N N') hb), fun hregular hregular' hlong => ?_⟩
  cases hc : Compiling.program .calling .counting p #[] with
  | error e k =>
    refine absurd ?_ (hregular.compiled e)
    rw [← hx N (Nat.le_refl N), Program.run, hc]
  | ok c k =>
    cases hc' : Compiling.program {} .counting p #[] with
    | error e k' =>
      refine absurd ?_ (hregular'.compiled e)
      rw [← hx' N' (Nat.le_refl N'), Program.run, hc']
    | ok c' k' =>
      obtain ⟨notes, y, hy, rfl, m, hm⟩ := @run_of_finishes p ⟨.calling, r⟩ c k hc x N hx
      obtain ⟨notes', y', -, rfl, hsettles⟩ := @run_of_finishes p ⟨{}, r⟩ c' k' hc' x' N' hx'
      have hmatches := Compiling.program_inlining (r := r) hp hdots hc hc' notes notes' m
      rw [show answer r m (.execute c.main globalEnv) (c.opening notes) = y from
        hm m (Nat.le_refl m)] at hmatches
      obtain ⟨limit, t, rfl⟩ | ⟨limit, t, rfl⟩ | ⟨t, rfl⟩ | hr :=
        hmatches.agree id (fun _ he => he) hy hsettles
      · exact absurd rfl (hregular.shallow limit)
      · exact absurd rfl (hregular'.shallow limit)
      · exact absurd rfl hlong
      · exact Outcome.agrees_of_resultRel hr

/-- If `...` is passed on, the two runs may fail with different errors: in a block that is called, the
builtin meets what `...` stands for first. -/
example :
    let p : Program := ⟨[⟨⟨"f"⟩, [⟨.ellipsis, none⟩], .call (.symbol ⟨"\x7b"⟩)
        [⟨none, .call (.symbol ⟨"c"⟩) [⟨none, .symbol .ellipsis⟩, ⟨none, .symbol ⟨"b"⟩⟩]⟩]⟩],
      .call (.symbol ⟨"f"⟩) [⟨none, .symbol ⟨"a"⟩⟩]⟩
    let fails (config : Config) (name : String) : Bool := match (p.run config 64).result with
      | .error e => e = .eval (.unbound name)
      | .ok _ => false
    fails ⟨.calling, {}⟩ "a" = true ∧ fails ⟨{}, {}⟩ "b" = true := by
  decide +kernel

end CallByNeed
