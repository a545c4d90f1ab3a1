import CallByNeed.Proofs.Plain.Ending
import CallByNeed.Proofs.Source.Placement

/-!
# Programs that quote

The compiler does not know that `quote` is a special form: it compiles the operand of a call of `quote`
as a late argument, though the code is never run. So a program that quotes an expression compiles if
and only if the expression is placed right (`Expr.Placed`) or is `...` itself, and then the program
comes to the expression, whatever calls, control flow and function literals are in it
(`Program.run_quoting`).
-/

namespace CallByNeed

/-- The program without definitions that quotes an expression. -/
def Program.quoting (e : Expr) : Program := ⟨[], .call (.symbol ⟨Special.quote.name⟩) [⟨none, e⟩]⟩

variable {o : CompilerOptions} {e : Expr} {u : CodeUnit} {env : EnvId} {s : Store} {v : Value}

/-- Calls of `quote` are not inlined. -/
lemma not_inlines_quote {args : List (Arg Expr)} :
    ¬ o.Inlines (.symbol ⟨Special.quote.name⟩) args := by
  rintro ⟨-, h⟩
  cases h with
  | whether hs => exact absurd hs (by decide)
  | choice hs => exact absurd hs (by decide)
  | loop hs => exact absurd hs (by decide)
  | block hs => exact absurd hs (by decide)
  | assignment hs => exact absurd hs (by decide)

/-- What is quoted may be `...` itself. -/
lemma placed_quoting : (Program.quoting e).body.Placed o ↔ e.isEllipsis = true ∨ e.Placed o := by
  constructor
  · intro h
    cases h with
    | literal h => cases h
    | inlined h => exact absurd h not_inlines_quote
    | call _ _ _ hargs =>
      cases he : e.isEllipsis with
      | true => exact .inl rfl
      | false => exact .inr (hargs _ List.mem_cons_self he)
  · intro h
    have hcount : (Call.mk (.symbol ⟨Special.quote.name⟩) [⟨none, e⟩]).ellipsisCount ≤ 1 :=
      List.countP_le_length
    refine .call not_inlines_quote (.name (by decide)) hcount fun a ha he => ?_
    obtain rfl := List.mem_singleton.1 ha
    exact h.resolve_left (by simp [he])

/-! ## Running -/

/-- Quoting means the expression, on every host. -/
lemma Means.quoting {limit : Nat} {M : Host → Eval Value} (hstatic : o.staticPrimitives = [])
    (h : Means o limit globalEnv (Program.quoting e).body M) (notes : Journal) (H : Host) :
    M H (.freshWith notes) = .ok (.ofExpr e) (.freshWith notes) := by
  cases plain_inv not_inlines_quote h with
  | primitive hs => simp [CompilerOptions.isStaticPrimitive, hstatic] at hs
  | named _ h => rfl

/-- A unit that was compiled from an expression comes to what the expression means. -/
lemma CompiledFrom.answers (h : CompiledFrom o e u) (options : RuntimeOptions)
    (hmeans : ∀ M, Means o options.maxDepth env e M → ∀ H, M H s = .ok v s) :
    ∃ bound t, answer options bound (.execute u env) s = .ok v t := by
  obtain ⟨M, hM, hfollows⟩ := h.executes options.maxDepth env
  obtain ⟨B, hB⟩ := h.handsOn
  have hmeaning : M (answer options 0) s = .ok v s := hmeans M hM _
  have hended : ¬ Exhausts (M (answer options 0) s) := by
    rw [hmeaning]
    rintro ⟨_, ⟨⟩⟩
  obtain ⟨k, hk, -⟩ := (hfollows (answer options 0) 0 s).2 hended
  -- The unit comes to the value on a host that evaluates nothing, and so it does on all others.
  have hrun : Alike (Machine.run options.untraced (answer options 0) u env k (.start u env) s)
      (.ok v s) := hmeaning ▸ (hk k (Nat.le_refl k)).alike
  obtain ⟨r, ⟨m, hm⟩, hr⟩ := Machine.run_settles options .id hB.steps env 0 k s fun hex => by
    obtain ⟨_, ⟨⟩⟩ := hrun.exhausts hex
  have hperformed : answer options (m + 1) (.execute u env) s = r := hm m (Nat.le_refl m)
  have halike := hrun.symm.trans hr
  cases halike with
  | ok _ t journal => exact ⟨m + 1, _, hperformed⟩

/-- A program that quotes an expression is compiled if its body is, and refused if that is refused. -/
lemma Compiling.program_quoting (j : Journal) :
    (∀ u k, expression o .counting mainUnit (Program.quoting e).body j = .ok u k →
      ∃ c k', program o .counting (.quoting e) j = .ok c k') ∧
    ∀ err k, expression o .counting mainUnit (Program.quoting e).body j = .error err k →
      program o .counting (.quoting e) j = .error err k := by
  unfold program
  rw [Assemble.nested_bind_apply]
  dsimp only [Program.quoting, List.mapM_nil, Pure.pure, EStateM.pure]
  rw [Assemble.nested_bind_apply]
  constructor
  · intro u k h
    rw [h]
    exact ⟨_, _, rfl⟩
  · intro err k h
    rw [h]

/-- **A program that quotes an expression comes to it**, and compiles if and only if the expression is
placed right or is `...`, as long as the program is not refused for its size and no builtin is called
directly. -/
theorem Program.run_quoting (config : Config) (e : Expr)
    (hstatic : config.compiler.staticPrimitives = [])
    (hsize : ∀ err k, Compiling.program config.compiler .counting (quoting e) #[] = .error err k →
      ¬ err.OfSize) :
    ((∃ c k, Compiling.program config.compiler .counting (quoting e) #[] = .ok c k) ↔
      e.isEllipsis = true ∨ e.Placed config.compiler) ∧
    (e.isEllipsis = true ∨ e.Placed config.compiler →
      ∃ N, ∀ bound ≥ N, ((quoting e).run config bound).result = .ok (.ofExpr e)) := by
  have hcompiled : (∃ c k, Compiling.program config.compiler .counting (quoting e) #[] = .ok c k) ↔
      e.isEllipsis = true ∨ e.Placed config.compiler := by
    rw [← placed_quoting, ← Compiling.exists_expression_iff hstatic fun err k h =>
      hsize err k ((Compiling.program_quoting #[]).2 err k h)]
    constructor
    · rintro ⟨c, k, h⟩
      cases hu : Compiling.expression config.compiler .counting mainUnit (quoting e).body #[] with
      | ok u k => exact ⟨u, k, rfl⟩
      | error err k' =>
        rw [(Compiling.program_quoting #[]).2 err k' hu] at h
        cases h
    · rintro ⟨u, k, h⟩
      exact (Compiling.program_quoting #[]).1 u k h
  refine ⟨hcompiled, fun hplaced => ?_⟩
  obtain ⟨⟨definitions, main⟩, k, hc⟩ := hcompiled.2 hplaced
  obtain ⟨hdefinitions, hmain⟩ := Compiling.compiled_of_program hc
  cases hdefinitions
  obtain ⟨notes, hrun⟩ := run_of_compiled hc
  obtain ⟨bound, t, hanswer⟩ := hmain.answers config.runtime fun M hM H =>
    hM.quoting hstatic notes H
  exact run_settles (congrArg Outcome.result ((hrun bound).1 _ _ hanswer))

/-- A function that calls itself with `...` in a branch, quoted where nothing may nest. -/
theorem Program.run_quoting_function :
    let e : Expr := .function [⟨.ellipsis, none⟩] (.call (.symbol ⟨"if"⟩)
      [⟨none, .call (.symbol ⟨"f"⟩) [⟨none, .symbol .ellipsis⟩]⟩, ⟨none, .int 1⟩])
    let config : Config := { runtime := { maxDepth := 0 } }
    (∀ err k, Compiling.program config.compiler .counting (quoting e) #[] = .error err k →
      ¬ err.OfSize) ∧
    ∃ N, ∀ bound ≥ N, ((quoting e).run config bound).result = .ok (.ofExpr e) := by
  intro e config
  obtain ⟨c, k, h⟩ : ∃ c k, Compiling.program config.compiler .counting (quoting e) #[] = .ok c k :=
    Compiling.exists_of_accepts (by decide +kernel)
  have hsize : ∀ err k, Compiling.program config.compiler .counting (quoting e) #[] = .error err k →
      ¬ err.OfSize := fun err k' herr => by
    rw [h] at herr
    cases herr
  obtain ⟨hcompiled, hrun⟩ := run_quoting config e rfl hsize
  exact ⟨hsize, hrun (hcompiled.1 ⟨c, k, h⟩)⟩

/-- The error that a program is refused with. -/
def Compiling.refusal? (o : CompilerOptions) (p : Program) : Option CompileError :=
  match program o .counting p #[] with
  | .ok _ _ => none
  | .error err _ => some err

lemma Compiling.refusal?_eq {p : Program} {c : CompileError} (h : refusal? o p = some c) :
    ∃ k, program o .counting p #[] = .error c k := by
  unfold refusal? at h
  cases hp : program o .counting p #[] with
  | ok _ _ =>
    rw [hp] at h
    cases h
  | error err k =>
    rw [hp] at h
    cases h
    exact ⟨k, rfl⟩

/-- A block that evaluates `...` and a call with `...` twice are not compiled though they would never
run, and are not refused for their size. -/
theorem Program.not_run_quoting_dots :
    let block : Expr := .call (.symbol ⟨Special.block.name⟩) [⟨none, .symbol .ellipsis⟩]
    let twice : Expr := .call (.symbol ⟨"g"⟩) [⟨none, .symbol .ellipsis⟩, ⟨none, .symbol .ellipsis⟩]
    let quotes : Expr → Prop := fun e => ∀ config : Config, config.compiler.staticPrimitives = [] →
      (∀ err k, Compiling.program config.compiler .counting (quoting e) #[] = .error err k →
        ¬ err.OfSize) →
      ∃ c k, Compiling.program config.compiler .counting (quoting e) #[] = .ok c k
    ¬ quotes block ∧ ¬ quotes twice := by
  intro block twice quotes
  have hrefused : ∀ {e : Expr} {err : CompileError}, ¬ err.OfSize →
      Compiling.refusal? {} (quoting e) = some err → ¬ quotes e := by
    intro e err hsize href hquotes
    obtain ⟨k, herr⟩ := Compiling.refusal?_eq href
    obtain ⟨c, k', h⟩ := hquotes {} rfl fun err' k' h => by
      cases herr.symm.trans h
      exact hsize
    cases herr.symm.trans h
  have hblock : Compiling.refusal? {} (quoting block) = some .misplacedEllipsis := by
    decide +kernel
  have htwice : Compiling.refusal? {} (quoting twice) = some (.multipleEllipsis "g(..., ...)") := by
    decide +kernel
  exact ⟨hrefused id hblock, hrefused id htwice⟩

end CallByNeed
