import CallByNeed.Proofs.Comparison.Scene

/-!
# The fast path for integers

A body that is compiled with the fast path and without it becomes two units with different slots and
different instructions. Both follow the graph of the body, in which slots have no kinds, and their
tables hold the units of the same nested bodies, compiled with the fast path and without it. So
executing the one or the other makes no difference (`fastPath_agrees`), from any store: it may hold
code that no compiler made.
-/

namespace CallByNeed

open CallByNeed.Flow (Term Procedure NodeId)

/-! ## The same body, compiled twice -/

/-- The options with the fast path or without it. -/
def CompilerOptions.withFastPath (o : CompilerOptions) (fast : Bool) : CompilerOptions :=
  { o with integerFastPath := fast }

/-- The same code, or two units of one body, one compiled with the fast path and one without. -/
inductive Recompiled (o : CompilerOptions) : Code → Code → Prop
  | same (c : Code) : Recompiled o c c
  | body (fast : Bool) {depth : Nat} {name : String} {b : Flow.Body} {u u' : CodeUnit}
    {j j' k k' : Journal}
    (h : Compiling.unitWithin (o.withFastPath fast) depth name b j = .ok u k)
    (h' : Compiling.unitWithin (o.withFastPath !fast) depth name b j' = .ok u' k') :
    Recompiled o (.unit u) (.unit u')

/-- Two runs that differ in the fast path of some code only. -/
def World.recompiled (o : CompilerOptions) : World where
  code := Recompiled o
  named := True
  defects := True
  deep := True
  cut := True
  dropped _ := False
  pins := False
  pinned _ := False

namespace World

variable {o : CompilerOptions}

lemma lawful_recompiled : (World.recompiled o).Lawful where
  level _ _ _ h := by
    cases h with
    | same => exact .rfl
    | body => exact ⟨fun _ => ⟨_, rfl⟩, fun _ => ⟨_, rfl⟩⟩
  depth h := absurd trivial h
  sound _ h := h.elim

lemma reflexive_recompiled : (World.recompiled o).Reflexive where
  unpinned := id
  named := trivial
  defects := trivial
  code := .same

end World

/-! ## Tables -/

section

variable {o : CompilerOptions} {fast : Bool} {depth : Nat} {name : String}

/-- One function literal, compiled twice. -/
lemma MadeFunction.recompiled {p : Procedure Term} {f f' : FunctionUnit}
    (h : MadeFunction (Compiling.unitWithin (o.withFastPath fast) depth) name p f)
    (h' : MadeFunction (Compiling.unitWithin (o.withFastPath !fast) depth) name p f') :
    FunctionRel (.recompiled o) f f' where
  name _ := h.name.trans h'.name.symm
  formals := forall₂_of_common h.formals h'.formals fun _ _ _ _ hy hy' =>
    ⟨hy.name.trans hy'.name.symm, nofun, optionRel_of_common hy.default hy'.default
      fun _ _ _ _ ⟨_, _, hu⟩ ⟨_, _, hu'⟩ => .body fast hu hu'⟩
  body := by
    obtain ⟨j, k, hu⟩ := h.body
    obtain ⟨j', k', hu'⟩ := h'.body
    exact .body fast hu hu'

/-- The tables of one body, compiled twice. -/
lemma Made.tables_recompiled {b : Flow.Body} {z z' : Assembly} {u u' : CodeUnit}
    (h : Made (Compiling.unitWithin (o.withFastPath fast) depth) name b z u)
    (h' : Made (Compiling.unitWithin (o.withFastPath !fast) depth) name b z' u') :
    TablesRel (.recompiled o) z.tables z'.tables where
  thunk node := by
    unfold Assembly.tables
    rcases h.lists.thunks.find node with ⟨i, d, t, hi, hd, -, ht, j, k, hmade⟩ | ⟨hi, ht⟩
    · rcases h'.lists.thunks.find node with ⟨i', d', t', hi', hd', -, ht', j', k', hmade'⟩ | ⟨hi', -⟩
      · cases hi.symm.trans hi'
        cases hd.symm.trans hd'
        dsimp only
        rw [ht, ht', Option.getD_some, Option.getD_some]
        rw [h.name] at hmade
        rw [h'.name] at hmade'
        exact .body fast hmade hmade'
      · cases hi.symm.trans hi'
    · rcases h'.lists.thunks.find node with ⟨i', d', t', hi', -⟩ | ⟨-, ht'⟩
      · cases hi.symm.trans hi'
      · dsimp only
        rw [ht, ht']
        exact .same _
  closure node := by
    unfold Assembly.tables
    rcases h.lists.closures.find node with ⟨i, d, f, hi, hd, -, hf, j, k, hmade⟩ | ⟨hi, hf⟩
    · rcases h'.lists.closures.find node
        with ⟨i', d', f', hi', hd', -, hf', j', k', hmade'⟩ | ⟨hi', -⟩
      · cases hi.symm.trans hi'
        cases hd.symm.trans hd'
        dsimp only
        rw [hf, hf', Option.getD_some, Option.getD_some]
        rw [h.name] at hmade
        rw [h'.name] at hmade'
        exact (Assemble.madeFunction_of_eq_ok hmade).recompiled
          (Assemble.madeFunction_of_eq_ok hmade')
      · cases hi.symm.trans hi'
    · rcases h'.lists.closures.find node with ⟨i', d', f', hi', -⟩ | ⟨-, hf'⟩
      · cases hi.symm.trans hi'
      · dsimp only
        rw [hf, hf']
        exact World.reflexive_recompiled.function _
  call id := by
    unfold Assembly.tables
    dsimp only
    rw [h.lists.sites id, h'.lists.sites id]

end

/-! ## Executing -/

/-- Code that differs in the fast path only is evaluated alike, with any bounds. -/
theorem answer_recompiled (o : CompilerOptions) (r : RuntimeOptions) (b : Nat) (g : Nat → Nat)
    (hg : (World.recompiled o).Bounds b g) :
    HostRel (.recompiled o) (answer r b) fun k => answer r (g k) := by
  refine answer_rel World.lawful_recompiled rfl (fun b g hg hH n c c' env hc henv => ?_) b g hg
  have hhost := hH b (Nat.le_refl b) g hg
  have hsame : ∀ c : Code, EvalRel (.recompiled o) n (ValueRel (.recompiled o))
      (perform r (answer r b) b (c.task env))
      fun k => perform r (answer r (g k)) (g k) (c.task env) := by
    intro c
    cases c with
    | unit u =>
      exact Machine.run_rel World.reflexive_recompiled World.lawful_recompiled env rfl
        (.inl ⟨rfl, fun _ => trivial⟩) hhost hg trivial (Machine.start_rel u env)
    | expr e =>
      exact Interpreter.eval_rel World.lawful_recompiled World.reflexive_recompiled.transparent
        hhost e
  cases hc with
  | same c => exact hsame c
  | @body fast depth name body u u' j j' k k' h h' =>
    cases depth with
    | zero =>
      cases h
      cases h'
      exact hsame _
    | succ depth =>
      obtain ⟨z, hz⟩ := Compiling.made_of_unitWithin h
      obtain ⟨z', hz'⟩ := Compiling.made_of_unitWithin h'
      obtain ⟨B, hB⟩ := hz.steps
      obtain ⟨B', hB'⟩ := hz'.steps
      have hgraph := Flow.Scene.graph_rel (n := n)
        (X := ⟨r.maxDepth, answer r b, env, z.tables⟩) World.reflexive_recompiled
        World.lawful_recompiled hhost (hz.tables_recompiled hz') (Flow.Graph.ofBody body) b
      refine EvalRel.run_left World.lawful_recompiled trivial (answer_oblivious r b) hB
        (hz.follows r.maxDepth _ env) ?_
      exact EvalRel.run_right World.lawful_recompiled trivial (hg.unbounded trivial) hB'
        (fun k => hz'.follows r.maxDepth (answer r (g k)) env) hgraph

/-- Executing a unit that was compiled with the fast path gives what executing the one without it
gives, and the other way round: the same value, up to such units in closures, or the same error, and
the same environments and promises. Neither ends if the other one does not. -/
theorem fastPath_agrees {o : CompilerOptions} (fast : Bool) {name : String} {b : Flow.Body}
    {u u' : CodeUnit} {j j' k k' : Journal}
    (h : Compiling.unit (o.withFastPath fast) name b j = .ok u k)
    (h' : Compiling.unit (o.withFastPath !fast) name b j' = .ok u' k') (r : RuntimeOptions)
    (env : EnvId) (s : Store) (bound : Nat) :
    Exhausts (answer r bound (.execute u env) s) ∨
      ∃ result, Settles (fun n => answer r n (.execute u' env)) s result ∧
        ResultRel (.recompiled o) (ValueRel (.recompiled o)) s s
          (answer r bound (.execute u env) s) result := by
  have hhost := answer_recompiled o r bound (fun k => k) (.inl ⟨trivial, .id⟩)
  have htask : TaskRel (.recompiled o) s.environments.size (.execute u env) (.execute u' env) :=
    .execute (Recompiled.body fast h h') nofun
  have hm := hhost _ _ _ htask s s
    (.refl World.reflexive_recompiled s) (Nat.le_refl _)
  cases hm with
  | @excused halt s' hr hh =>
    cases halt with
    | error e => exact (hh.elim And.left id).elim
    | exhausted => exact .inl ⟨s', hr⟩
    | abort => exact hh.elim
  | dropped hB he => exact he.elim
  | same hB hr => exact .inr ⟨_, hB, hr⟩

/-- A body that counts on in a temporary, where the fast path makes a difference. -/
def countingBody : Flow.Body :=
  [.statement (.assign (.temp 0) (.int 1)),
    .statement (.assign (.temp 0) (.increment (.temp 0))), .statement (.ret (.temp 0))]

theorem fastPath_agrees_counting :
    ∃ u u' k k', Compiling.unit (CompilerOptions.withFastPath {} true) "count" countingBody #[]
        = .ok u k ∧
      Compiling.unit (CompilerOptions.withFastPath {} !true) "count" countingBody #[] = .ok u' k' ∧
      (Exhausts (answer {} 9 (.execute u globalEnv) .fresh) ∨
        ∃ result, Settles (fun n => answer {} n (.execute u' globalEnv)) .fresh result ∧
          ResultRel (.recompiled {}) (ValueRel (.recompiled {})) .fresh .fresh
            (answer {} 9 (.execute u globalEnv) .fresh) result) := by
  have hfast : ∃ u k, Compiling.unit (CompilerOptions.withFastPath {} true) "count" countingBody #[]
      = .ok u k := ⟨_, _, rfl⟩
  have hslow : ∃ u k, Compiling.unit (CompilerOptions.withFastPath {} !true) "count" countingBody
      #[] = .ok u k := ⟨_, _, rfl⟩
  obtain ⟨u, k, h⟩ := hfast
  obtain ⟨u', k', h'⟩ := hslow
  exact ⟨u, u', k, k', h, h', fastPath_agrees true h h' {} globalEnv .fresh 9⟩

end CallByNeed
