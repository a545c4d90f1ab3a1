import CallByNeed.Proofs.Comparison.Machine

/-!
# Machines that a run visits

A run of a unit executes one instruction and then goes on (`Machine.run_eq_advance`). So it visits
machines, one after the other (`Machine.Visits`), and ends at one that it has visited
(`Machine.ends_at_visited`).
-/

namespace CallByNeed

namespace Machine

/-- What a machine does when it has executed an instruction: it goes on, or returns a value. -/
inductive Turn where
  | on (m : Machine)
  | back (v : Value)

/-- Where the machine goes that has executed an instruction at its position. -/
def Transfer.turn (op : Opcode) (m : Machine) : Transfer → Turn
  | .next => .on { m with position := m.position + op.size }
  | .jump target => .on { m with position := target }
  | .ret v => .back v

/-- The rest of a run, given what is done with a machine that goes on. -/
def Turn.rest (run : Machine → Eval Value) : Turn → Eval Value
  | .on m => run m
  | .back v => pure v

/-- Executes one instruction, as a run does. -/
def advance (options : RuntimeOptions) (host : Host) (unit : CodeUnit) (env : EnvId) (m : Machine) :
    Eval Turn :=
  match unit.code[m.position]? with
  | none => Eval.fail (.internal (.ranPast unit.name))
  | some byte =>
    match Opcode.ofByte? byte with
    | none => Eval.fail (.internal (.unknownOpcode byte.toNat))
    | some op => do
      if options.trace then trace unit op m
      let (transfer, m) ← step options.maxDepth host unit env op m
      return transfer.turn op m

variable {options : RuntimeOptions} {host : Host} {unit : CodeUnit} {env : EnvId} {s₀ s s' : Store}
  {m m' : Machine}

/-- Executing an instruction, written out. -/
lemma advance_of_op {op : Opcode} (hop : unit.code[m.position]?.bind Opcode.ofByte? = some op) :
    advance options host unit env m = (if options.trace then trace unit op m else pure ()) >>= fun _ =>
      step options.maxDepth host unit env op m >>= fun r => pure (r.1.turn op r.2) := by
  unfold advance
  cases hbyte : unit.code[m.position]? with
  | none => simp [hbyte] at hop
  | some byte =>
    rw [hbyte, Option.bind_some] at hop
    simp only [hop]
    cases options.trace <;> rfl

/-- A run executes one instruction and then goes on. -/
theorem run_eq_advance (n : Nat) (m : Machine) :
    run options host unit env (n + 1) m
      = advance options host unit env m >>= Turn.rest (run options host unit env n) := by
  rw [run_succ]
  cases hbyte : unit.code[m.position]? with
  | none => rw [advance, hbyte]; rfl
  | some byte =>
    cases hop : Opcode.ofByte? byte with
    | none => rw [advance, hbyte]; simp only [hop]; rfl
    | some op =>
      rw [advance_of_op (by rw [hbyte]; exact hop)]
      simp only [hop, bind_assoc, pure_bind]
      refine congrArg _ (funext fun _ => congrArg _ (funext fun r => ?_))
      obtain ⟨transfer, m'⟩ := r
      cases transfer <;> rfl

/-- Executing an instruction that can be read, apart from tracing it. -/
lemma advance_apply {i : Instruction} (hi : unit.code.Holds m.position i) (s : Store) :
    ∃ journal, advance options host unit env m s
      = (step options.maxDepth host unit env i.op m >>= fun r => pure (r.1.turn i.op r.2))
        { s with journal } := by
  have hread : (unit.code.readOperands? i.op.widths (m.position + 1)).isSome := by
    rw [hi.operands]
    rfl
  rw [advance_of_op hi.op, Eval.bind_apply]
  cases options.trace with
  | false => exact ⟨s.journal, rfl⟩
  | true =>
    obtain ⟨journal, hj⟩ := trace_apply hread s
    refine ⟨journal, ?_⟩
    rw [if_pos rfl, hj]

/-- The runs of the unit that begin in the store `s₀` visit the machine, in the store `s`. -/
inductive Visits (options : RuntimeOptions) (host : Host) (unit : CodeUnit) (env : EnvId)
    (s₀ : Store) : Machine → Store → Prop
  | start : Visits options host unit env s₀ (.start unit env) s₀
  | on {m m' : Machine} {s s' : Store} (h : Visits options host unit env s₀ m s)
    (hm : advance options host unit env m s = .ok (.on m') s') :
    Visits options host unit env s₀ m' s'

/-- A run ends at a machine it has visited: there its bound is used up, or the instruction there
returns or stops. -/
theorem ends_at_visited (n : Nat) (h : Visits options host unit env s₀ m s) :
    ∃ m' s', Visits options host unit env s₀ m' s' ∧
      (run options host unit env n m s = .error .exhausted s' ∨
        (∃ v t, advance options host unit env m' s' = .ok (.back v) t ∧
          run options host unit env n m s = .ok v t) ∨
        ∃ e t, advance options host unit env m' s' = .error e t ∧
          run options host unit env n m s = .error e t) := by
  induction n generalizing m s with
  | zero => exact ⟨m, s, h, .inl rfl⟩
  | succ n ih =>
    rw [run_eq_advance, Eval.bind_apply]
    cases ha : advance options host unit env m s with
    | error e t => exact ⟨m, s, h, .inr (.inr ⟨e, t, ha, rfl⟩)⟩
    | ok turn t =>
      cases turn with
      | back v => exact ⟨m, s, h, .inr (.inl ⟨v, t, ha, rfl⟩)⟩
      | on m' => exact ih (h.on ha)

end Machine

end CallByNeed
