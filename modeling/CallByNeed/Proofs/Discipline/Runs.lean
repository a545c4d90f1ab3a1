import CallByNeed.Proofs.Code.Within
import CallByNeed.Proofs.Discipline.Step
import CallByNeed.Proofs.Discipline.Unit
import CallByNeed.Proofs.Eval.Visits

/-!
# Runs of compiled units

A chart of a unit says what lies on the stack of every machine that any run visits. So all compiled
units are disciplined (`Compiling.unit_disciplined`): the kinds of the words on the stack depend on the
position only, and no instruction finds too few of them or others than it takes.
-/

namespace CallByNeed

open CallByNeed.Flow (Frame)

/-! ## Runs on a chart -/

/-- Why an instruction of a compiled unit stops for a defect: a slip of its own, or one that the host
has met while it carried out an evaluation. -/
def CodeUnit.Blames (u : CodeUnit) (host : Host) (m : Machine) (h : Halt) : Prop :=
  (∃ i, u.code.Holds m.position i ∧ Slip m.slots i h) ∨ host.Stops h

/-- The machine is where the chart has a layout, and its stack has that layout. -/
def Machine.Fits (T : Nat → Option Layout) (z : Slots) (env : EnvId) (m : Machine) : Prop :=
  ∃ Γ F, T m.position = some Γ ∧ Holds z env F m.slots ∧ Γ.Covers F.work m.stack

/-- What executing the instruction of a machine on a chart may give. -/
inductive Machine.Abides (T : Nat → Option Layout) (z : Slots) (u : CodeUnit) (host : Host)
    (env : EnvId) (m : Machine) : Result Machine.Turn → Prop
  | on {m' : Machine} {s : Store} (hm : m'.Fits T z env) : Abides T z u host env m (.ok (.on m') s)
  | back {v : Value} {s : Store} : Abides T z u host env m (.ok (.back v) s)
  | stops {h : Halt} {s : Store} (hh : h.IsInternal → u.Blames host m h) :
    Abides T z u host env m (.error h s)

namespace Charts

variable {z : Assembly} {u : CodeUnit} {T : Nat → Option Layout} {options : RuntimeOptions}
  {host : Host} {env : EnvId} {m : Machine} {s s₀ : Store}

/-- What the instruction of a machine on the chart does: it abides by a rule that leads to where the
chart has a layout. -/
lemma proceeds {X : Site} (hs : X.slots.Sound) (hT : Charted X.slots X.unit T)
    (hm : m.Fits T X.slots X.env) :
    ∃ i Γ succs, X.unit.code.Holds m.position i ∧ Rule X.slots X.unit m.position i Γ succs ∧
      (∀ r ∈ succs, T r.1 = some r.2) ∧
      ∀ s, X.Proceeds m.position i succs m.slots (X.step i.op m s) := by
  obtain ⟨position, stack, slots⟩ := m
  obtain ⟨Γ, F, hΓ, hF, hcovers⟩ := hm
  obtain ⟨i, succs, hi, hrule, -, hsuccs⟩ := hT.rule _ _ hΓ
  exact ⟨i, Γ, succs, hi, hrule, fun r hr => (hsuccs r hr).resolve_right id,
    fun s => hrule.proceeds hs hi hF hcovers⟩

/-- One instruction. -/
lemma advance (hz : z.Links u) (hT : Charted z.slots u T) (hm : m.Fits T z.slots env)
    {r : Result Machine.Turn} (hr : Machine.advance options host u env m s = r) :
    m.Abides T z.slots u host env r := by
  let X : Site := ⟨⟨options.maxDepth, host, env, z.tables⟩, u, z.slots⟩
  obtain ⟨i, Γ, succs, hi, -, hsuccs, hproceeds⟩ := proceeds (X := X) hz.sound.slots hT hm
  obtain ⟨journal, hrun⟩ := @Machine.advance_apply options host u env m i hi s
  have hstep : X.Proceeds m.position i succs m.slots
      (Machine.step options.maxDepth host u env i.op m { s with journal }) := hproceeds _
  rw [← hr, hrun, Eval.bind_apply]
  generalize Machine.step options.maxDepth host u env i.op m { s with journal } = r at hstep
  cases hstep with
  | @goes transfer m' s' t Δ F' hp ht hΔ hF' hw =>
    have hTt : T t = some Δ := hsuccs _ hΔ
    cases transfer with
    | next =>
      obtain rfl := Option.some.inj ht
      exact .on ⟨Δ, F', by rw [hp]; exact hTt, hF', hw⟩
    | jump target =>
      obtain rfl := Option.some.inj ht
      exact .on ⟨Δ, F', hTt, hF', hw⟩
    | ret v => cases ht
  | returns => exact .back
  | stops hh => exact .stops fun hi' => (hh hi').imp_left fun hslip => ⟨i, hi, hslip⟩

/-- Every machine that a run visits fits the chart. -/
theorem fits (hz : z.Links u) (hT : Charted z.slots u T)
    (h : Machine.Visits options host u env s₀ m s) : m.Fits T z.slots env := by
  induction h with
  | start => exact ⟨[], .empty, hT.starts, hz.holds_start env, rfl⟩
  | on _ hm ih =>
    cases advance hz hT ih hm with
    | on h => exact h

/-- No visited machine stops for another defect than one to blame. -/
theorem stops (hz : z.Links u) (hT : Charted z.slots u T)
    (hm : Machine.Visits options host u env s₀ m s) {h : Halt} {s' : Store}
    (hs : Machine.advance options host u env m s = .error h s') (hi : h.IsInternal) :
    u.Blames host m h := by
  cases advance hz hT (fits hz hT hm) hs with
  | stops hh => exact hh hi

end Charts

/-! ## The discipline of a unit -/

/-- The kinds of words that may lie on an operand stack: all but that of an unused slot. -/
def Word.operandKinds : List String :=
  ["int", "value", "context", "environment", "call", "names", "values", "argument list"]

/-- The stack discipline of a unit: whatever the host answers and from whatever store a run begins,
the stack at an offset consists of words of these kinds, the top first. -/
structure CodeUnit.Disciplined (u : CodeUnit) (kinds : Nat → List String) : Prop where
  operands : ∀ p, ∀ k ∈ kinds p, k ∈ Word.operandKinds
  stack : ∀ {options host env s₀ m s}, Machine.Visits options host u env s₀ m s →
    m.stack.map Word.kind = kinds m.position
  /-- A unit returns with its value alone on the stack. -/
  returns : ∀ {options host env s₀ m s}, Machine.Visits options host u env s₀ m s →
    u.code[m.position]?.bind Opcode.ofByte? = some .ret → ∃ v, m.stack = [.value v]
  /-- No instruction takes a word that is not there, or one of another kind than it expects. -/
  stops : ∀ {options host env s₀ m s h s'}, Machine.Visits options host u env s₀ m s →
    Machine.advance options host u env m s = .error h s' → h.IsInternal → u.Blames host m h
  /-- So no run of the unit stops for another defect. -/
  runs : ∀ {options host env n s₀ h s'},
    Machine.run options host u env n (.start u env) s₀ = .error h s' → h.IsInternal →
      ∃ m s, Machine.Visits options host u env s₀ m s ∧ u.Blames host m h

/-- The parts of a stack consist of words that may lie there. -/
lemma Item.kinds_mem (x : Item) : ∀ k ∈ x.kinds, k ∈ Word.operandKinds := by
  cases x <;> simp [Item.kinds, Word.operandKinds]

lemma Layout.kinds_mem {Γ : Layout} : ∀ k ∈ Γ.kinds, k ∈ Word.operandKinds := by
  intro k hk
  obtain ⟨x, -, hk⟩ := List.mem_flatMap.1 hk
  exact x.kinds_mem k hk

/-- A unit returns its value alone. -/
lemma Rule.covers_of_ret {z : Slots} {u : CodeUnit} {p : Nat} {i : Instruction} {Γ : Layout}
    {succs : List (Nat × Layout)} (h : Rule z u p i Γ succs) (hi : i.op = .ret)
    {work : Option ArgList} {st : List Word} (hcovers : Γ.Covers work st) :
    Layout.Covers work [.value] st := by
  cases h with
  | effect he => cases he <;> cases hi
  | ret => exact hcovers
  | _ => cases hi

/-- A unit with a chart is disciplined. -/
theorem Charts.disciplined {z : Assembly} {u : CodeUnit} {T : Nat → Option Layout} (hz : z.Links u)
    (hT : Charted z.slots u T) : u.Disciplined fun p => ((T p).map Layout.kinds).getD [] where
  operands p k hk := by
    cases hp : T p with
    | none => simp [hp] at hk
    | some Γ =>
      rw [hp] at hk
      exact Γ.kinds_mem k hk
  stack h := by
    obtain ⟨Γ, F, hΓ, -, hcovers⟩ := fits hz hT h
    rw [hΓ]
    exact hcovers.kinds
  returns h hret := by
    obtain ⟨Γ, F, hΓ, -, hcovers⟩ := fits hz hT h
    obtain ⟨i, succs, hi, hrule, -, -⟩ := hT.rule _ _ hΓ
    obtain ⟨_, _, ⟨v, rfl⟩, rfl, hstack⟩ := hrule.covers_of_ret (by simpa [hi.op] using hret) hcovers
    exact ⟨v, hstack⟩
  stops h hs hi := stops hz hT h hs hi
  runs {options host env n s₀ h s'} hr hi := by
    have hstart : Machine.Visits options host u env s₀ (.start u env) s₀ := .start
    obtain ⟨m, s, hm, hend | ⟨v, t, -, hend⟩ | ⟨e, t, hs, hend⟩⟩ := Machine.ends_at_visited n hstart
    · cases hend.symm.trans hr
      exact hi.elim
    · cases hend.symm.trans hr
    · cases hend.symm.trans hr
      exact ⟨m, s, hm, stops hz hT hm hs hi⟩

/-- **Compiled units are disciplined**, whatever they are compiled from, and so are all units inside
them. -/
theorem Compiling.unit_disciplined {o : CompilerOptions} {name : String} {b : Flow.Body}
    {u : CodeUnit} {j k : Journal} (h : Compiling.unit o name b j = .ok u k) {v : CodeUnit}
    (hv : v.Within u) : ∃ kinds, v.Disciplined kinds := by
  obtain ⟨b', hv⟩ := (compiles_of_unit h).within hv
  obtain ⟨_, _, z, -, hz⟩ := hv.made
  obtain ⟨T, hT⟩ := hz.charted
  exact ⟨_, hT.disciplined hz.links⟩

/-- A body that returns a function literal. -/
def literalBody : Flow.Body :=
  [.statement (.ret (.closure ⟨0⟩ ⟨none, [], [.statement (.ret (.int 1))]⟩))]

theorem Compiling.unit_disciplined_literal :
    ∃ u f k, Compiling.unit {} "main" literalBody #[] = .ok u k ∧ u.closures = [f] ∧
      f.body.Within u ∧ ∃ kinds, f.body.Disciplined kinds := by
  have hunit : ∃ u f k, Compiling.unit {} "main" literalBody #[] = .ok u k ∧ u.closures = [f] :=
    ⟨_, _, _, rfl, rfl⟩
  obtain ⟨u, f, k, h, hf⟩ := hunit
  have hwithin : f.body.Within u := .body (by simp [hf]) .self
  exact ⟨u, f, k, h, hf, hwithin, unit_disciplined h hwithin⟩

end CallByNeed
