import CallByNeed.Proofs.Comparison.Rendering
import CallByNeed.Proofs.Comparison.Watched
import CallByNeed.Proofs.Source.Parts

/-!
# Compiled code and expressions as written

Parts of an expression that are evaluated as written are compared with what they are compiled to
(`World.rendered`). Evaluating a part goes together with all that the part means
(`World.rendering_rendered`), so that hosts of all bounds do related tasks alike
(`World.hosts_rendered`).

That needs the names of forms to stand for the forms. The hosts of the run as written watch for it:
they break off where a call of the expression is evaluated that is written with the name of a form
which is not found (`Expr.FindsForms`), and what is broken off need not be compared.
-/

namespace CallByNeed

variable {whole e : Expr} {r : RuntimeOptions} {b n : Nat} {env : EnvId} {limit : Nat}

/-! ## What may differ -/

/-- The same code, as it is written and compiled: all expressions as they are written, parts of the
whole and what they are compiled to, and what one expression is compiled to twice. -/
inductive Rendered (whole : Expr) : Code → Code → Prop
  | written (e : Expr) : Rendered whole (.expr e) (.expr e)
  | compiled {e : Expr} {u : CodeUnit} (he : whole.Part e) (h : CompiledFrom {} e u) :
    Rendered whole (.expr e) (.unit u)
  | unit {o : CompilerOptions} {e : Expr} {u u' : CodeUnit} (h : CompiledFrom o e u)
    (h' : CompiledFrom o e u') : Rendered whole (.unit u) (.unit u')

/-- Two runs, of which the first one may evaluate parts of the expression as they are written where
the second one executes what they are compiled to. Nothing is said of runs that nest too deeply, or
come across a value whose length is no integer. -/
def World.rendered (whole : Expr) : World where
  code := Rendered whole
  named := False
  defects := False
  deep := False
  cut := True
  dropped e := (∃ limit, e = .depthExceeded limit) ∨ e = .primitive "length" .lengthTooLarge
  pins := False
  pinned _ := False

namespace World

lemma lawful_rendered : (World.rendered whole).Lawful where
  level h := h.elim
  depth _ limit := .inl ⟨limit, rfl⟩
  sound e h := by
    obtain ⟨limit, rfl⟩ | rfl := h <;> exact id

lemma aligned_rendered (o : CompilerOptions) :
    Aligned (World.rendered whole) .free o o where
  forms h := h.elim
  formal _ _ h := h.elim
  target _ _ h := h.elim
  code e _ := .written e
  lawful := lawful_rendered
  unnamed := id
  units _ _ _ _ h h' := .unit h h'
  inlined := rfl

lemma function_rendered {o : CompilerOptions} {f : Function} {u u' : FunctionUnit}
    (h : CompiledLiteral o f u) (h' : CompiledLiteral o f u') :
    FunctionRel (World.rendered whole) u u' :=
  h.related id (aligned_rendered o).toHeeds (Expr.keepsTo_free _)
    (fun _ _ _ _ h h' => .unit h h') h'

lemma transparent_rendered : (World.rendered whole).Transparent where
  unpinned := id
  code := .written
  literal _ _ _ h :=
    have hliteral := Compiling.compiledLiteral_of_functionLiteral h
    function_rendered hliteral hliteral

end World

/-! ## Forms that are found -/

/-- The name is found to be that of the form where a call in the whole is evaluated that is written as
one of a form which the compiler inlines. -/
def Expr.FindsForms (whole : Expr) (τ : Task) (s : Store) : Prop :=
  ∀ env (f : Special) args, f ≠ .quote → τ = .eval env (.call (.symbol ⟨f.name⟩) args) →
    whole.Part (.call (.symbol ⟨f.name⟩) args) → s.find? env ⟨f.name⟩ = some (.special f)

/-- The hosts that break off where a form is not found. -/
noncomputable def Expr.watching (whole : Expr) (r : RuntimeOptions) : HostFamily :=
  .watched r whole.FindsForms fun _ _ _ h => h

/-- A name that is bound to a function is found to be one of it. -/
lemma Host.functionIn_of_findSome? {H : Host} {s : Store} {name : Symbol} {f : Value}
    (hf : f.category?.isSome) : ∀ {envs : List EnvId},
      envs.findSome? (fun env => s.local? env name) = some f → H.functionIn name envs s = .ok f s
  | [], h => by cases h
  | env :: envs, h => by
    unfold functionIn
    rw [Eval.get_bind_apply]
    rw [List.findSome?_cons] at h
    cases hlocal : s.local? env name with
    | none =>
      rw [hlocal] at h
      exact functionIn_of_findSome? hf h
    | some v =>
      rw [hlocal] at h
      obtain rfl : v = f := Option.some.inj h
      have hforce : H.force v = pure v := by
        cases v <;> first | rfl | cases hf
      dsimp only
      rw [hforce, pure_bind, if_pos hf]
      rfl

/-- A call that is written as one of a form is one if the form is found. -/
lemma Interpreter.eval_of_find? {H : Host} {s : Store} {f : Special} {args : List (Arg Expr)}
    (h : s.find? env ⟨f.name⟩ = some (.special f)) :
    eval limit H env (.call (.symbol ⟨f.name⟩) args) s
      = f.invoke H env ⟨.symbol ⟨f.name⟩, args⟩ s :=
  eval_of_findFunction (Host.functionIn_of_findSome? rfl h)

/-! ## Both ways of evaluating an expression -/

/-- Where a host that watches does not break off, forms are found. -/
lemma Expr.finds_watching {f : Special} {args : List (Arg Expr)} (hf : f ≠ .quote)
    (hpart : whole.Part (.call (.symbol ⟨f.name⟩) args)) (j : Nat) (s : Store) :
    (whole.watching r).Finds j env f args s := by
  obtain ⟨s', hs'⟩ | ⟨hfine, i, rfl, heq⟩ := watched_cases r whole.FindsForms j
    (.eval env (.call (.symbol ⟨f.name⟩) args)) s
  · exact .inl ⟨s', hs'⟩
  · exact .inr ⟨i, rfl, heq.trans (Interpreter.eval_of_find? (hfine env f args hf rfl hpart))⟩

/-- Parts of an expression in which no call passes `...` on may be evaluated as written. -/
lemma World.rendering_rendered (hwhole : whole.undotted = true) :
    Rendering (World.rendered whole) (whole.watching r) whole.Part where
  lawful := lawful_rendered
  cut := trivial
  shallow := id
  long := .inr rfl
  callee h := ⟨(Expr.undotted_call.1 (h.undotted hwhole)).1, fun _ => h.callee⟩
  arg h a ha := ⟨((Expr.undotted_call.1 (h.undotted hwhole)).2.2 a ha).1, h.arg ha⟩
  targets _ := (aligned_rendered {}).targets (Leeway.allows_free _)
  readable _ _ := transparent_rendered.readable _
  written _ := .written _
  compiled h hu := .compiled h hu
  literal _ h h' := function_rendered h h'
  finds hf hpart j _ s _ _ _ := Expr.finds_watching hf hpart j s
  value _ _ _ s' h _ p hp := watched_ne_promise p s' (hp ▸ h)

/-- **Parts of an expression do what they are compiled to**, and everything else is alike anyway. -/
theorem World.hosts_rendered (hwhole : whole.undotted = true) (b : Nat) :
    (World.rendered whole).Hosts (whole.watching r) b := by
  refine hosts_of_code lawful_rendered trivial (fun b hH c c' env hc n g henv hg => ?_) b
  have hunbounded := hg.unbounded trivial
  cases hc with
  | written e =>
    refine EvalRel.ask_left trivial fun j hj => ?_
    obtain rfl := Nat.succ.inj hj
    exact Interpreter.eval_rel lawful_rendered transparent_rendered (hH b (Nat.le_refl b) g hg) e
  | compiled he hu =>
    refine hu.run_right lawful_rendered trivial hunbounded fun M hM => ?_
    exact (rendering_rendered hwhole).renders hH _ he M hM (b + 1) (Nat.le_refl _) n g henv
      (.inl ⟨trivial, hunbounded⟩)
  | @unit o e u u' hu hu' =>
    refine EvalRel.ask_left trivial fun j hj => ?_
    obtain rfl := Nat.succ.inj hj
    refine hu.run_left lawful_rendered trivial ((whole.watching r).oblivious b) (fun M hM => ?_) b
    refine hu'.run_right lawful_rendered trivial hunbounded fun M' hM' => ?_
    exact Means.together (aligned_rendered o) hH (fun s hs => absurd rfl hs) e (Expr.keepsTo_free e)
      M M' hM hM' b (Nat.le_refl b) n g henv hg

end CallByNeed
