import CallByNeed.Eval.Answer
import CallByNeed.Proofs.Eval.Visits

/-!
# Higher limits

A program that is evaluated with a higher limit for how deeply calls may nest does the same, unless it
stops at the lower one (`Program.run_of_le_maxDepth`). Nothing in the evaluator goes on once a nested
evaluation has stopped: promises and calls pass on what stopped it. So the two runs are in step until
the first one stops at its limit, and if it does so, this is what it ends with.
-/

namespace CallByNeed

variable {α β : Type} {limit limit' : Nat}

/-! ## Evaluations that are in step -/

/-- The first evaluation stops at the limit, or does what the second one does. -/
def Eval.InStep (limit : Nat) (A B : Eval α) : Prop :=
  ∀ s, (∃ t, A s = .error (.error (.depthExceeded limit)) t) ∨ A s = B s

/-- The steps are in step, from every machine. -/
def Stepping.InStep (limit : Nat) (A B : Stepping α) : Prop := ∀ m, Eval.InStep limit (A m) (B m)

namespace Eval.InStep

variable {A B : Eval α}

protected lemma refl (A : Eval α) : InStep limit A A := fun _ => .inr rfl

/-- One evaluation after the other: if the first one stops, so do both. -/
protected lemma bind {f g : α → Eval β} (h : InStep limit A B) (h' : ∀ a, InStep limit (f a) (g a)) :
    InStep limit (A >>= f) (B >>= g) := by
  intro s
  rw [Eval.bind_apply, Eval.bind_apply]
  obtain ⟨t, ht⟩ | heq := h s
  · exact .inl ⟨t, by rw [ht]⟩
  · rw [heq]
    cases B s with
    | ok a m => exact h' a m
    | error e m => exact .inr rfl

/-- The same evaluation first. -/
protected lemma after {f g : α → Eval β} (h : ∀ a, InStep limit (f a) (g a)) :
    InStep limit (A >>= f) (A >>= g) := (InStep.refl A).bind h

protected lemma mapM {f g : α → Eval β} (h : ∀ a, InStep limit (f a) (g a)) :
    ∀ as : List α, InStep limit (as.mapM f) (as.mapM g)
  | [] => .refl _
  | a :: as => by
    simp only [List.mapM_cons]
    exact (h a).bind fun b => (InStep.mapM h as).bind fun bs => .refl _

/-- What changes the store once an evaluation is over does not change why it stops. -/
protected lemma settled {settle : Except Halt α → Store → Store} (h : InStep limit A B) :
    InStep limit (A.settled settle) (B.settled settle) := by
  intro s
  rw [Eval.settled_apply, Eval.settled_apply]
  obtain ⟨t, ht⟩ | heq := h s
  · exact .inl ⟨_, by rw [ht]⟩
  · exact .inr (by rw [heq])

/-- One level deeper: where the higher limit is reached the lower one is. -/
protected lemma enter (hle : limit ≤ limit') (h : InStep limit A B) :
    InStep limit (Eval.enter limit A) (Eval.enter limit' B) := by
  intro s
  by_cases hlow : limit ≤ s.depth
  · exact .inl ⟨s, Eval.enter_of_le _ hlow⟩
  · by_cases hhigh : limit' ≤ s.depth
    · exact absurd (Nat.le_trans hle hhigh) hlow
    · rw [Eval.enter_of_lt _ hlow, Eval.enter_of_lt _ hhigh]
      exact h.settled _

end Eval.InStep

namespace Stepping.InStep

variable {A B : Stepping α}

protected lemma refl (A : Stepping α) : InStep limit A A := fun m => Eval.InStep.refl (A m)

protected lemma bind {f g : α → Stepping β} (h : InStep limit A B) (h' : ∀ a, InStep limit (f a) (g a)) :
    InStep limit (A >>= f) (B >>= g) := fun m => Eval.InStep.bind (h m) fun r => h' r.1 r.2

protected lemma after {f g : α → Stepping β} (h : ∀ a, InStep limit (f a) (g a)) :
    InStep limit (A >>= f) (A >>= g) := (InStep.refl A).bind h

protected lemma mapM {f g : α → Stepping β} (h : ∀ a, InStep limit (f a) (g a)) :
    ∀ as : List α, InStep limit (as.mapM f) (as.mapM g)
  | [] => .refl _
  | a :: as => by
    simp only [List.mapM_cons]
    exact (h a).bind fun b => (InStep.mapM h as).bind fun bs => .refl _

/-- An evaluation in a step. -/
protected lemma lift {A B : Eval α} (h : Eval.InStep limit A B) :
    InStep limit (liftM A : Stepping α) (liftM B) := fun _ => Eval.InStep.bind h fun _ => .refl _

end Stepping.InStep

/-! ## The evaluator with a lower and with a higher limit -/

/-- The first host stops at the limit, or does what the second one does. -/
def Host.InStep (limit : Nat) (H H' : Host) : Prop :=
  ∀ τ, Eval.InStep limit (H τ) (H' τ)

namespace Host.InStep

variable {H H' : Host} (hH : Host.InStep limit H H')

include hH

lemma force (v : Value) : Eval.InStep limit (H.force v) (H'.force v) := by
  cases v with
  | promise p => exact hH (.force p)
  | _ => exact .refl _

lemma functionIn (name : Symbol) : ∀ envs,
    Eval.InStep limit (H.functionIn name envs) (H'.functionIn name envs)
  | [] => .refl _
  | env :: rest => by
    refine .after fun s => ?_
    cases s.local? env name with
    | none => exact functionIn name rest
    | some v =>
      refine (hH.force v).bind fun w => ?_
      split
      · exact .refl _
      · exact functionIn name rest

lemma findFunction (env : EnvId) (name : Symbol) :
    Eval.InStep limit (H.findFunction env name) (H'.findFunction env name) :=
  .after fun s => hH.functionIn name (s.chain env)

/-- The value of a special form. -/
lemma invoke (env : EnvId) (call : Call) (f : Special) :
    Eval.InStep limit (f.invoke H env call) (f.invoke H' env call) := by
  have hsequence : ∀ (args : List (Arg Expr)) (last : Value),
      Eval.InStep limit (Special.sequence H env last args)
        (Special.sequence H' env last args) := by
    intro args
    induction args with
    | nil => exact fun _ => .refl _
    | cons a rest ih => exact fun _ => (hH (.eval env a.value)).bind ih
  have hiterate : ∀ name values body count index,
      Eval.InStep limit (Special.iterate H env name values body count index)
        (Special.iterate H' env name values body count index) := by
    intro name values body count
    induction count with
    | zero => exact fun _ => .refl _
    | succ count ih =>
      intro index
      unfold Special.iterate
      cases Value.int32? index with
      | none => exact .refl _
      | some i => exact .after fun v => .after fun _ => (hH (.eval env body)).bind fun _ => ih _
  cases f with
  | quote => exact .refl _
  | cond =>
    refine .after fun e => (hH (.eval env e)).bind fun v => .after fun t => ?_
    split
    · exact .after fun e => hH (.eval env e)
    · cases call.arg? 2 with
      | some no => exact hH (.eval env no)
      | none => exact .refl _
  | block => exact hsequence call.args .null
  | assign =>
    exact .after fun e => .after fun name => .after fun e => (hH (.eval env e)).bind fun v => .refl _
  | loop =>
    refine .after fun e => ?_
    cases e with
    | symbol name =>
      exact .after fun e => (hH (.eval env e)).bind fun values => .after fun body =>
        (hiterate name values body _ 0).bind fun _ => .refl _
    | _ => exact .refl _

variable (hle : limit ≤ limit')

include hle

lemma executeNested (u : CodeUnit) (env : EnvId) :
    Eval.InStep limit (H.executeNested limit u env)
      (H'.executeNested limit' u env) := (hH (.execute u env)).enter hle

/-- Forcing a promise. -/
lemma forcePromise (p : PromiseId) :
    Eval.InStep limit (CallByNeed.forcePromise limit H p)
      (CallByNeed.forcePromise limit' H' p) := by
  have hvalue : ∀ x : Suspension,
      Eval.InStep limit (x.value limit H) (x.value limit' H') := by
    intro x
    cases x with
    | «variable» name env => exact .after fun v => hH.force v
    | compiled u env => exact hH.executeNested hle u env
    | interpreted e env => exact hH (.eval env e)
    | missing name => exact .refl _
  refine .after fun s => ?_
  cases s.promises[p]?.map Promise.status with
  | none => exact .refl _
  | some status =>
    cases status with
    | forced v => exact .refl _
    | forcing x => exact .refl _
    | pending x => exact .after fun _ => (hvalue x).settled

/-- Applying a closure to arguments. -/
lemma applyClosure (f : FunctionUnit) (env : EnvId) (call : Call) (args : ArgList) :
    Eval.InStep limit (CallByNeed.applyClosure limit H f env call args)
      (CallByNeed.applyClosure limit' H' f env call args) :=
  .after fun frame => hH.executeNested hle f.body frame

/-- A call that is evaluated as written. -/
lemma apply (env : EnvId) (call : Call) :
    Eval.InStep limit (Interpreter.apply limit H env call)
      (Interpreter.apply limit' H' env call) := by
  have hcallee : Eval.InStep limit (Interpreter.callee H env call)
      (Interpreter.callee H' env call) := by
    unfold Interpreter.callee
    cases call.name? with
    | none => exact (hH _).bind fun _ => .refl _
    | some name =>
      dsimp only
      split
      · exact (hH _).bind fun _ => .refl _
      · exact hH.findFunction env name
  have hvalues : ∀ a : Arg Expr, Eval.InStep limit
      (Interpreter.argumentValues H env a) (Interpreter.argumentValues H' env a) := by
    intro a
    unfold Interpreter.argumentValues
    split
    · exact .after fun dots => .mapM (fun d => (hH.force d.value).bind fun v => .refl _) dots
    · exact (hH _).bind fun _ => .refl _
  refine hcallee.bind fun f => ?_
  cases f with
  | builtin b => exact (Eval.InStep.mapM hvalues call.args).bind fun _ => .refl _
  | closure f closureEnv => exact .after fun args => hH.applyClosure hle f closureEnv call _
  | special f => exact hH.invoke env call f
  | _ => exact .refl _

/-- Evaluating an expression as written. -/
lemma eval (env : EnvId) (e : Expr) :
    Eval.InStep limit (Interpreter.eval limit H env e)
      (Interpreter.eval limit' H' env e) := by
  cases e with
  | symbol name =>
    simp only [Interpreter.eval]
    split
    · exact .refl _
    · exact .after fun v => hH.force v
  | call f args => exact hH.apply hle env ⟨f, args⟩
  | _ => exact .refl _

/-- Executing an instruction. -/
lemma step (u : CodeUnit) (env : EnvId) (op : Opcode) :
    Stepping.InStep limit (Machine.step limit H u env op)
      (Machine.step limit' H' u env op) := by
  cases op with
  | findFunction =>
    exact .after fun name => (Stepping.InStep.lift (hH.findFunction env name)).bind fun _ => .refl _
  | force => exact .after fun v => (Stepping.InStep.lift (hH.force v)).bind fun _ => .refl _
  | checkFunction =>
    exact .after fun call => .after fun v => (Stepping.InStep.lift (hH.force v)).bind fun _ => .refl _
  | applySpecial =>
    refine .bind (.after fun call => .after fun env => .after fun _ => .after fun f => ?_) fun _ =>
      .refl _
    cases f with
    | special f => exact .lift (hH.invoke env call f)
    | _ => exact .refl _
  | applyClosure =>
    refine .bind (.after fun args => .after fun call => .after fun _ => .after fun f => ?_) fun _ =>
      .refl _
    cases f with
    | closure f closureEnv => exact .lift (hH.applyClosure hle f closureEnv call args.toList)
    | _ => exact .refl _
  | evalThunk =>
    exact .after fun thunk => .after fun env => .after fun _ =>
      (Stepping.InStep.lift (hH.executeNested hle thunk env)).bind fun _ => .refl _
  | spliceValues =>
    refine .after fun position => .after fun dots => .after fun values => ?_
    dsimp only
    split
    · exact (Stepping.InStep.mapM (fun d => .lift (hH.force d.value)) dots).bind fun _ => .refl _
    · exact .refl _
  | _ => exact .refl _

/-- Executing a unit. -/
lemma run (trace : Bool) (u : CodeUnit) (env : EnvId) : ∀ n m,
    Eval.InStep limit (Machine.run ⟨limit, trace⟩ H u env n m)
      (Machine.run ⟨limit', trace⟩ H' u env n m)
  | 0, _ => .refl _
  | n + 1, m => by
    rw [Machine.run_eq_advance, Machine.run_eq_advance]
    refine Eval.InStep.bind ?_ fun turn => ?_
    · cases hbyte : u.code[m.position]? with
      | none =>
        unfold Machine.advance
        rw [hbyte]
        exact .refl _
      | some byte =>
        cases hop : Opcode.ofByte? byte with
        | none =>
          unfold Machine.advance
          simp only [hbyte, hop]
          exact .refl _
        | some op =>
          rw [Machine.advance_of_op (by rw [hbyte]; exact hop),
            Machine.advance_of_op (by rw [hbyte]; exact hop)]
          exact .after fun _ => (hH.step hle u env op m).bind fun _ => .refl _
    · cases turn with
      | on m' => exact run trace u env n m'
      | back v => exact .refl _

/-- Carrying out a task. -/
lemma perform (trace : Bool) (n : Nat) : Host.InStep limit
    (CallByNeed.perform ⟨limit, trace⟩ H n) (CallByNeed.perform ⟨limit', trace⟩ H' n)
  | .force p => hH.forcePromise hle p
  | .eval env e => hH.eval hle env e
  | .execute u env => hH.run hle trace u env n (.start u env)

end Host.InStep

/-- **Hosts with a lower and with a higher limit are in step.** -/
theorem answer_inStep (hle : limit ≤ limit') (trace : Bool) :
    ∀ n, Host.InStep limit (answer ⟨limit, trace⟩ n) (answer ⟨limit', trace⟩ n)
  | 0 => fun _ => .refl _
  | n + 1 => (answer_inStep hle trace n).perform hle trace n

/-! ## Programs -/

lemma CompiledProgram.execute_inStep (c : CompiledProgram) (hle : limit ≤ limit') (trace : Bool)
    (bound : Nat) :
    Eval.InStep limit (c.execute ⟨limit, trace⟩ bound) (c.execute ⟨limit', trace⟩ bound) :=
  .after fun _ => answer_inStep hle trace bound (.execute c.main globalEnv)

/-- The settings with another limit. -/
def Config.withMaxDepth (config : Config) (limit : Nat) : Config :=
  { config with runtime := { config.runtime with maxDepth := limit } }

/-- **A higher limit changes no run that ends otherwise than by reaching the lower one**: the value or
the error is the same, and so is the store. -/
theorem Program.run_of_le_maxDepth (p : Program) (config : Config) {limit : Nat}
    (hle : config.runtime.maxDepth ≤ limit) (bound : Nat)
    (hended : (p.run config bound).result ≠ .error (.eval (.depthExceeded config.runtime.maxDepth))) :
    p.run (config.withMaxDepth limit) bound = p.run config bound := by
  have hcompiler : (config.withMaxDepth limit).compiler = config.compiler := rfl
  rw [Program.run, Program.run, hcompiler]
  cases hc : Compiling.program config.compiler .counting p #[] with
  | error e journal => rfl
  | ok c journal =>
    rw [Program.run, hc] at hended
    dsimp only at hended ⊢
    obtain ⟨t, ht⟩ | heq := c.execute_inStep hle config.runtime.trace bound
      ({ Store.fresh with journal }.log .info
        s!"running {c.main.fingerprint} ({c.definitions.length} definitions)")
    · rw [show config.runtime = ⟨config.runtime.maxDepth, config.runtime.trace⟩ from rfl, ht] at hended
      exact absurd rfl hended
    · rw [show (config.withMaxDepth limit).runtime = ⟨limit, config.runtime.trace⟩ from rfl, ← heq]

/-- A call whose argument is evaluated two levels deep, with room for no more levels and for three
more. -/
theorem Program.run_of_le_maxDepth_two :
    let p : Program := ⟨[⟨⟨"f"⟩, [⟨⟨"x"⟩, none⟩], .symbol ⟨"x"⟩⟩],
      .call (.symbol ⟨"f"⟩) [⟨none, .call (.symbol ⟨"list"⟩) [⟨none, .int 1⟩]⟩]⟩
    let config : Config := { runtime := ⟨2, false⟩ }
    (p.run config 64).result ≠ .error (.eval (.depthExceeded 2)) ∧
      p.run (config.withMaxDepth 5) 64 = p.run config 64 := by
  intro p config
  have hok : (p.run config 64).result.isOk = true := by decide +kernel
  have hended : (p.run config 64).result ≠ .error (.eval (.depthExceeded 2)) := fun h => by
    rw [h] at hok
    cases hok
  exact ⟨hended, run_of_le_maxDepth p config (by decide) 64 hended⟩

end CallByNeed
