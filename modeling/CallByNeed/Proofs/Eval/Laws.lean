import CallByNeed.Eval.Answer
import CallByNeed.Proofs.Comparison.Answer
import CallByNeed.Proofs.Eval.Inquiry
import CallByNeed.Proofs.Eval.Instructions
import CallByNeed.Proofs.Eval.Visits

/-!
# Laws of evaluations

A law says what an evaluation may do to the store: once for evaluations that have a value, once for
those that stop, and for what reason. It is given by what the smallest steps do to a store (setting a
variable, making an environment or a promise, one line in the journal) and by what the two brackets
do: one level of depth, and the forcing of a promise. It may be confined to stores of which something
is true that the steps keep true (`Law.inside`).

What is done with the help of a host obeys the law, and asks the host for nested evaluations in stores
inside only, if the host obeys it (`Law.Directs`); so it obeys the law on every host that does
(`Law.Directs.governs`). Every evaluation obeys every law that excuses defects in code and the use of the
whole bound (`Law.Lenient`, `Law.Bounded`, `Law.answer`). What runs no code of its own obeys every law that its host obeys. The proof follows the
evaluator once; what is to be shown about whole runs is then an instance.
-/

namespace CallByNeed

/-- What evaluations may do to the store, when calls nest up to a limit. -/
structure Law (limit : Nat) where
  /-- The stores that the law is about. -/
  inside : Store → Prop := fun _ => True
  /-- The store before and after an evaluation that has a value. -/
  done : Store → Store → Prop
  /-- Why an evaluation stops, with the store before and after it. -/
  failed : Halt → Store → Store → Prop
  refl : ∀ s, done s s
  trans : ∀ {s m t}, done s m → done m t → done s t
  stop : ∀ s {h : Halt}, h ≠ .exhausted → ¬ h.IsInternal → failed h s s
  after : ∀ {s m t h}, done s m → failed h m t → failed h s t
  set : ∀ s env name v, done s (s.set env name v)
  addChild : ∀ s env, done s (s.addChild env)
  addPromise : ∀ s x, done s (s.addPromise ⟨.pending x, 0⟩)
  note : ∀ (s : Store) j, done s { s with journal := j }
  left : ∀ {s t : Store}, done { s with depth := s.depth + 1 } t →
    done s { t with depth := t.depth - 1 }
  broken : ∀ {s t : Store} {h}, failed h { s with depth := s.depth + 1 } t →
    failed h s { t with depth := t.depth - 1 }
  forced : ∀ {s t : Store} {p x v}, s.promises[p]?.map Promise.status = some (.pending x) →
    done (s.begin p x) t → done s (t.setStatus p (.forced v))
  restored : ∀ {s t : Store} {p x h}, s.promises[p]?.map Promise.status = some (.pending x) →
    failed h (s.begin p x) t → failed h s (t.setStatus p (.pending x))
  stays : ∀ {s t}, inside s → done s t → inside t := by exact fun _ _ => trivial
  enters : ∀ {s : Store}, inside s → ¬ limit ≤ s.depth → inside { s with depth := s.depth + 1 } := by
    exact fun _ _ => trivial
  begins : ∀ {s : Store} {p x}, inside s → inside (s.begin p x) := by exact fun _ => trivial

/-- What is wrong with a subscript is no defect. -/
lemma Value.elementAt_error (v : Value) (i : Int32) {e : EvalError}
    (h : v.elementAt i = .error e) : ¬ e.IsInternal := by
  unfold Value.elementAt at h
  split at h
  · cases h
    exact id
  · split at h
    · split at h <;> cases h
      exact id
    · cases h
      exact id
    · split at h <;> cases h
      exact id

/-- What is wrong with a length is no defect. -/
lemma Builtin.lengthOf_error (v : Value) {e : EvalError} (h : lengthOf v = .error e) :
    ¬ e.IsInternal := by
  unfold lengthOf at h
  split at h <;> cases h
  exact id

/-- A builtin stops for no defect, given as many names as values. -/
lemma Builtin.apply_proper (b : Builtin) (call : Call) (names : List (Option Symbol))
    (values : List Value) {e : Halt} (h : b.apply call names values = .error e) :
    ¬ e.IsInternal := by
  have hvalues : ValuesRel (.plain True) 0 values values := .refl World.reflexive_plain values
  have hanswers := b.apply_answers call names hvalues
  rw [h] at hanswers
  cases hanswers with
  | error he => exact he

/-- A builtin stops for no defect if names and values are as many. -/
lemma Builtin.proper {b : Builtin} {call : Call} {names : List (Option Symbol)}
    {values : List Value} {h : Halt} (hb : b.invoke call names values = .error h)
    (hlen : names.length = values.length) : ¬ h.IsInternal := by
  rw [invoke, if_pos hlen] at hb
  exact b.apply_proper call names values hb

/-- Builtins are not bounded. -/
lemma Builtin.ne_exhausted {b : Builtin} {call : Call} {names : List (Option Symbol)}
    {values : List Value} {h : Halt} (hb : b.invoke call names values = .error h) :
    h ≠ .exhausted := by
  have hplain : ∀ {α : Type} {r : Except EvalError α}, r.mapError Halt.error ≠ .error .exhausted := by
    intro _ r
    cases r <;> nofun
  have hbind : ∀ {α β : Type} {r : Except Halt α} {f : α → Except Halt β},
      r >>= f = .error .exhausted → r = .error .exhausted ∨ ∃ a, f a = .error .exhausted := by
    intro _ _ r f hr
    cases r with
    | ok a => exact .inr ⟨a, hr⟩
    | error e => exact .inl (by cases hr; rfl)
  have helement : ∀ v i, elementOf v i ≠ .error .exhausted := by
    intro v i hv
    obtain hindex | ⟨k, hk⟩ := hbind hv
    · exact hplain hindex
    · split at hk
      · exact hplain hk
      · cases hk
  rintro rfl
  unfold Builtin.invoke at hb
  split at hb
  · unfold Builtin.apply at hb
    dsimp only at hb
    split at hb <;> first | exact hplain hb | exact helement _ _ hb | cases hb
  · cases hb

namespace Law

variable {limit : Nat} {L : Law limit} {α β : Type}

/-- The result of an evaluation begun in a store is one that the law allows. -/
inductive Allows (L : Law limit) (s : Store) : Result α → Prop
  | ok {a : α} {t : Store} (h : L.done s t) : Allows L s (.ok a t)
  | error {e : Halt} {t : Store} (h : L.failed e s t) : Allows L s (.error e t)

/-- The evaluation obeys the law, from every store inside. -/
def Governs (L : Law limit) (act : Eval α) : Prop := ∀ s, L.inside s → L.Allows s (act s)

/-- Everything may be asked for in the stores inside, and obeys the law. -/
def contract (L : Law limit) : Contract := ⟨fun _ => L.inside, fun _ s => L.Allows s⟩

/-- What is done with the help of a host obeys the law and asks the host in stores inside only, if the
host obeys the law. -/
def Directs (L : Law limit) (act : Host → Eval α) : Prop :=
  ∀ s, L.inside s → Inquiry L.contract (L.Allows s) fun H => act H s

/-- What is done obeys the law in the same way, and something is true of its value. -/
def Gives (L : Law limit) (Q : α → Prop) (act : Host → Eval α) : Prop :=
  ∀ s, L.inside s → Inquiry L.contract (fun r => L.Allows s r ∧ ∀ a t, r = .ok a t → Q a)
    fun H => act H s

/-- The law excuses defects in code. -/
class Lenient (L : Law limit) : Prop where
  excuse : ∀ s {h}, h ≠ .exhausted → L.failed h s s

/-- The law excuses evaluations that use up their bound. -/
class Bounded (L : Law limit) : Prop where
  cut : ∀ s, L.failed .exhausted s s

/-- The steps of a machine obey the law, from every machine. -/
def Steps (L : Law limit) (A : Host → Stepping α) : Prop := ∀ m, L.Directs fun H => A H m

/-- The law holds of what comes after a first evaluation. -/
lemma Allows.after {s m : Store} {r : Result α} (h : L.done s m) (hr : L.Allows m r) :
    L.Allows s r := by
  cases hr with
  | ok hd => exact .ok (L.trans h hd)
  | error hf => exact .error (L.after h hf)

/-! ## Evaluations -/

namespace Governs

protected lemma pure (a : α) : L.Governs (Pure.pure a : Eval α) := fun s _ => .ok (L.refl s)

protected lemma throw (h : Halt) (hh : h ≠ .exhausted) (hi : ¬ h.IsInternal) :
    L.Governs (MonadExcept.throw h : Eval α) := fun s _ => .error (L.stop s hh hi)

protected lemma fail (e : EvalError) (he : ¬ e.IsInternal) :
    L.Governs (Eval.fail e : Eval α) := Governs.throw _ nofun he

protected lemma ofExcept {r : Except EvalError α} (hr : ∀ e, r = .error e → ¬ e.IsInternal) :
    L.Governs (Eval.ofExcept r) := by
  cases r with
  | ok a => exact Governs.pure a
  | error e => exact Governs.fail e (hr e rfl)

/-- Stopping for any reason, where defects are excused. -/
protected lemma halt [L.Lenient] (h : Halt) (hh : h ≠ .exhausted) :
    L.Governs (MonadExcept.throw h : Eval α) := fun s _ => .error (Lenient.excuse s hh)

/-- Using up the bound, where that is excused. -/
protected lemma cut [L.Bounded] : L.Governs (MonadExcept.throw .exhausted : Eval α) :=
  fun s _ => .error (Bounded.cut s)

protected lemma outcome [L.Lenient] (r : Except EvalError α) : L.Governs (Eval.ofExcept r) := by
  cases r with
  | ok a => exact Governs.pure a
  | error e => exact Governs.halt (.error e) nofun

end Governs

namespace Directs

/-- The law holds on a host that obeys it. -/
theorem governs {act : Host → Eval α} (h : L.Directs act) {host : Host}
    (hH : ∀ τ, L.Governs (host τ)) : L.Governs (act host) := fun s hs =>
  (h s hs).holds fun τ s hs => hH τ s hs

/-- Something that asks for nothing. -/
lemma of_governs {act : Eval α} (h : L.Governs act) : L.Directs fun _ => act := fun s hs =>
  .done (h s hs)

/-- What the host carries out. -/
lemma ask (τ : Task) : L.Directs fun H => H τ := fun _ hs => .question hs fun _ hr => hr

protected lemma pure (a : α) : L.Directs fun _ => (Pure.pure a : Eval α) := of_governs (.pure a)

protected lemma fail (e : EvalError) (he : ¬ e.IsInternal) :
    L.Directs fun _ => (Eval.fail e : Eval α) := of_governs (.fail e he)

protected lemma ofExcept {r : Except EvalError α} (hr : ∀ e, r = .error e → ¬ e.IsInternal) :
    L.Directs fun _ => Eval.ofExcept r := of_governs (.ofExcept hr)

protected lemma halt [L.Lenient] (h : Halt) (hh : h ≠ .exhausted) :
    L.Directs fun _ => (MonadExcept.throw h : Eval α) := of_governs (.halt h hh)

protected lemma outcome [L.Lenient] (r : Except EvalError α) :
    L.Directs fun _ => Eval.ofExcept r := of_governs (.outcome r)

end Directs

namespace Gives

variable {Q : α → Prop} {R : β → Prop} {A : Host → Eval α}

lemma directs (h : L.Gives Q A) : L.Directs A := fun s hs => (h s hs).mono fun _ hr => hr.1

lemma of_directs (h : L.Directs A) : L.Gives (fun _ => True) A := fun s hs =>
  (h s hs).mono fun _ hr => ⟨hr, fun _ _ _ => trivial⟩

protected lemma pure {a : α} (h : Q a) : L.Gives Q fun _ => (Pure.pure a : Eval α) := fun s _ =>
  .done ⟨.ok (L.refl s), fun _ _ hr => by cases hr; exact h⟩

protected lemma fail (e : EvalError) (he : ¬ e.IsInternal) :
    L.Gives Q fun _ => (Eval.fail e : Eval α) := fun s _ =>
  .done ⟨.error (L.stop s nofun he), fun _ _ hr => by cases hr⟩

/-- One evaluation after the other. -/
protected lemma bind {f : Host → α → Eval β} (h : L.Gives Q A)
    (h' : ∀ a, Q a → L.Gives R fun H => f H a) : L.Gives R fun H => A H >>= f H := by
  intro s hs
  refine Inquiry.of_eq ((h s hs).andThen (fun r H => match r with
    | .ok a m => f H a m
    | .error e m => .error e m) (fun _ m => ⟨m, fun _ => rfl⟩) fun r hr => ?_) fun H =>
      Eval.bind_apply _ _ s
  obtain ⟨hallows, hQ⟩ := hr
  cases hallows with
  | @ok a m hd =>
    exact (h' a (hQ a m rfl) m (L.stays hs hd)).mono fun _ hr => ⟨hr.1.after hd, hr.2⟩
  | error hf => exact .done ⟨.error hf, fun _ _ hr => by cases hr⟩

/-- Reading the store first. -/
protected lemma read {f : Host → Store → Eval α} (h : ∀ s, L.Gives Q fun H => f H s) :
    L.Gives Q fun H => get >>= f H := fun s hs => h s s hs

end Gives

namespace Directs

/-- One evaluation after the other. -/
protected lemma bind {A : Host → Eval α} {f : Host → α → Eval β} (h : L.Directs A)
    (h' : ∀ a, L.Directs fun H => f H a) : L.Directs fun H => A H >>= f H :=
  ((Gives.of_directs h).bind fun a _ => .of_directs (h' a)).directs

/-- One evaluation after another one, of whose value something is true. -/
lemma after {A : Host → Eval α} {f : Host → α → Eval β} {Q : α → Prop} (h : L.Gives Q A)
    (h' : ∀ a, Q a → L.Directs fun H => f H a) : L.Directs fun H => A H >>= f H :=
  (h.bind fun a ha => .of_directs (h' a ha)).directs

/-- Reading the store first. -/
protected lemma read {f : Host → Store → Eval α} (h : ∀ s, L.Directs fun H => f H s) :
    L.Directs fun H => get >>= f H := fun s hs => h s s hs

/-- A change of the store that the law allows. -/
protected lemma modify {f : Store → Store} (h : ∀ s, L.done s (f s)) :
    L.Directs fun _ => (modify f : Eval Unit) := of_governs fun s _ => .ok (h s)

/-- Evaluating the entries of a list gives as many values. -/
lemma mapM_gives {f : Host → α → Eval β} (h : ∀ a, L.Directs fun H => f H a) :
    ∀ as : List α, L.Gives (fun bs => bs.length = as.length) fun H => as.mapM (f H)
  | [] => Gives.pure rfl
  | a :: as => by
    simp only [List.mapM_cons]
    exact (Gives.of_directs (h a)).bind fun b _ => (mapM_gives h as).bind fun bs hbs =>
      Gives.pure (by simp [hbs])

protected lemma mapM {f : Host → α → Eval β} (h : ∀ a, L.Directs fun H => f H a) (as : List α) :
    L.Directs fun H => as.mapM (f H) := (mapM_gives h as).directs

/-! ### The store -/

lemma findVariable (env : EnvId) (name : Symbol) :
    L.Directs fun _ => Eval.findVariable env name := by
  refine Directs.read fun s => ?_
  cases s.find? env name with
  | none => exact Directs.fail _ id
  | some v => exact Directs.pure v

lemma setVariable (env : EnvId) (name : Symbol) (v : Value) :
    L.Directs fun _ => Eval.setVariable env name v := Directs.modify fun s => L.set s env name v

lemma child (env : EnvId) : L.Directs fun _ => Eval.child env :=
  of_governs fun s _ => .ok (L.addChild s env)

lemma promise (x : Suspension) : L.Directs fun _ => Eval.promise x :=
  of_governs fun s _ => .ok (L.addPromise s x)

lemma findDots (env : EnvId) : L.Directs fun _ => Eval.findDots env := by
  refine (findVariable env .ellipsis).bind fun v => ?_
  cases v with
  | dots args => exact Directs.pure args
  | _ => exact Directs.fail _ id

/-- Changing the store once an evaluation is over that was begun in another store. -/
lemma settled {act : Host → Eval α} {settle : Except Halt α → Store → Store} {s m : Store}
    (h : L.Directs act) (hm : L.inside m)
    (hok : ∀ a t, L.done m t → L.done s (settle (.ok a) t))
    (herror : ∀ e t, L.failed e m t → L.failed e s (settle (.error e) t)) :
    Inquiry L.contract (L.Allows s) fun H => (act H).settled settle m := by
  refine Inquiry.of_eq ((h m hm).andThen (fun r _ => match r with
    | .ok a t => .ok a (settle (.ok a) t)
    | .error e t => .error e (settle (.error e) t)) (fun _ _ => ⟨_, fun _ => rfl⟩)
      fun r hr => ?_) fun H => Eval.settled_apply _ _ _
  cases hr with
  | ok hd => exact .done (.ok (hok _ _ hd))
  | error hf => exact .done (.error (herror _ _ hf))

/-- One level deeper. -/
lemma enter {act : Host → Eval α} (h : L.Directs act) :
    L.Directs fun H => Eval.enter limit (act H) := by
  intro s hs
  by_cases hle : limit ≤ s.depth
  · exact Inquiry.of_eq (.done (.error (L.stop s (h := .error (.depthExceeded limit)) nofun id)))
      fun H => Eval.enter_of_le _ hle
  · exact Inquiry.of_eq (h.settled (L.enters hs hle) (fun _ _ => L.left) fun _ _ => L.broken)
      fun H => Eval.enter_of_lt _ hle

end Directs

/-! ## Promises and functions -/

lemma force (v : Value) : L.Directs fun H => H.force v := by
  cases v with
  | promise p => exact .ask (.force p)
  | _ => exact Directs.pure _

/-- Looking for a function gives one. -/
lemma functionIn (name : Symbol) :
    ∀ envs, L.Gives (fun f => f.category?.isSome) fun H => H.functionIn name envs
  | [] => Gives.fail _ id
  | env :: rest => by
    refine Gives.read fun s => ?_
    cases s.local? env name with
    | none => exact functionIn name rest
    | some v =>
      refine (Gives.of_directs (force v)).bind fun w _ => ?_
      split
      · rename_i hw
        exact Gives.pure hw
      · exact functionIn name rest

/-- Looking up a function gives one. -/
lemma findFunction (env : EnvId) (name : Symbol) :
    L.Gives (fun f => f.category?.isSome) fun H => H.findFunction env name :=
  Gives.read fun s => functionIn name (s.chain env)

lemma executeNested (u : CodeUnit) (env : EnvId) :
    L.Directs fun H => H.executeNested limit u env := Directs.enter (.ask (.execute u env))

lemma suspensionValue (x : Suspension) : L.Directs fun H => x.value limit H := by
  cases x with
  | «variable» name env => exact (Directs.findVariable env name).bind fun v => force v
  | compiled u env => exact executeNested u env
  | interpreted e env => exact .ask (.eval env e)
  | missing name => exact Directs.fail _ id

/-- Forcing a promise. -/
lemma forcePromise (p : PromiseId) : L.Directs fun H => CallByNeed.forcePromise limit H p := by
  intro s hs
  refine Inquiry.of_eq ?_ fun H => forcePromise_apply limit H p s
  cases hp : s.promises[p]?.map Promise.status with
  | none => exact .done (.ok (L.refl s))
  | some status =>
    cases status with
    | forced v => exact .done (.ok (L.refl s))
    | forcing x => exact .done (.error (L.stop s nofun id))
    | pending x =>
      exact (suspensionValue x).settled (L.begins hs) (fun _ _ => L.forced hp)
        fun _ _ => L.restored hp

/-! ## Closures -/

lemma bindFormals (frame : EnvId) : ∀ (formals : List (Formal CodeUnit))
    (given : List (Option Value)) (left : ArgList),
    L.Directs fun _ => CallByNeed.bindFormals frame formals given left
  | [], _, _ => Directs.pure ()
  | f :: formals, given, left => by
    have hvalue : L.Directs fun _ => formalValue frame f given := by
      unfold formalValue
      split
      · exact Directs.pure _
      · exact Directs.promise _
      · exact Directs.promise _
    rw [bindFormals_cons]
    split
    · exact (Directs.setVariable _ _ _).bind fun _ => bindFormals frame formals _ _
    · exact hvalue.bind fun _ => (Directs.setVariable _ _ _).bind fun _ =>
        bindFormals frame formals _ _

lemma bindArguments (unit : FunctionUnit) (env : EnvId) (call : Call) (args : ArgList) :
    L.Directs fun _ => CallByNeed.bindArguments unit env call args := by
  unfold CallByNeed.bindArguments
  split
  · exact Directs.fail _ id
  · exact (Directs.child env).bind fun frame => (bindFormals frame _ _ _).bind fun _ =>
      Directs.pure frame

/-- Applying a closure to arguments. -/
lemma applyClosure (unit : FunctionUnit) (env : EnvId) (call : Call) (args : ArgList) :
    L.Directs fun H => CallByNeed.applyClosure limit H unit env call args :=
  (bindArguments unit env call args).bind fun frame => executeNested unit.body frame

/-! ## Special forms -/

lemma operand (f : Special) (call : Call) (i : Nat) : L.Directs fun _ => f.operand call i := by
  unfold Special.operand
  split
  · exact Directs.pure _
  · exact Directs.fail _ id

lemma sequence (env : EnvId) : ∀ (args : List (Arg Expr)) (last : Value),
    L.Directs fun H => Special.sequence H env last args
  | [], last => Directs.pure last
  | a :: rest, _ => (Directs.ask (.eval env a.value)).bind fun v => sequence env rest v

lemma iterate (env : EnvId) (name : Symbol) (values : Value) (body : Expr) :
    ∀ count index, L.Directs fun H => Special.iterate H env name values body count index
  | 0, _ => Directs.pure ()
  | count + 1, index => by
    unfold Special.iterate
    cases Value.int32? index with
    | none => exact Directs.fail _ id
    | some i =>
      exact (Directs.ofExcept fun _ => values.elementAt_error i).bind fun v =>
        (Directs.setVariable _ _ _).bind fun _ => (Directs.ask (.eval env body)).bind fun _ =>
          iterate env name values body count (index + 1)

lemma special (env : EnvId) (call : Call) (f : Special) :
    L.Directs fun H => f.invoke H env call := by
  cases f with
  | quote => exact (operand _ call 0).bind fun e => Directs.pure _
  | cond =>
    refine (operand _ call 0).bind fun e => (Directs.ask (.eval env e)).bind fun v =>
      (Directs.ofExcept fun _ => v.truthy_error).bind fun t => ?_
    split
    · exact (operand _ call 1).bind fun e => .ask (.eval env e)
    · cases call.arg? 2 with
      | some no => exact .ask (.eval env no)
      | none => exact Directs.pure _
  | block => exact sequence env call.args .null
  | assign =>
    refine (operand _ call 0).bind fun e => Directs.bind ?_ fun name =>
      (operand _ call 1).bind fun e => (Directs.ask (.eval env e)).bind fun v =>
        (Directs.setVariable _ _ _).bind fun _ => Directs.pure v
    unfold Special.assignmentTarget
    split
    · exact Directs.pure _
    · exact Directs.pure _
    · exact Directs.fail _ id
  | loop =>
    refine (operand _ call 0).bind fun e => ?_
    cases e with
    | symbol name =>
      exact (operand _ call 1).bind fun e => (Directs.ask (.eval env e)).bind fun values =>
        (operand _ call 2).bind fun body => (iterate env _ values body _ 0).bind fun _ =>
          Directs.pure _
    | _ => exact Directs.fail _ id

/-! ## Expressions as written -/

lemma closure (env : EnvId) (f : Function) : L.Directs fun _ => Interpreter.closure env f := by
  refine .of_governs fun s _ => ?_
  unfold Interpreter.closure
  split
  · exact .ok (L.note s _)
  · exact .error (L.after (L.note s _) (L.stop _ nofun id))

/-- The function that a call is of is one. -/
lemma callee (env : EnvId) (call : Call) :
    L.Gives (fun f => f.category?.isSome) fun H => Interpreter.callee H env call := by
  have hcallable : L.Gives (fun f => f.category?.isSome)
      fun H => H (.eval env call.callee) >>= Interpreter.callee.callable call := by
    refine (Gives.of_directs (.ask (.eval env call.callee))).bind fun v _ => ?_
    unfold Interpreter.callee.callable
    split
    · rename_i hv
      exact Gives.pure hv
    · exact Gives.fail _ id
  unfold Interpreter.callee
  cases call.name? with
  | none => exact hcallable
  | some name =>
    dsimp only
    split
    · exact hcallable
    · exact findFunction env _

lemma argumentValues (env : EnvId) (a : Arg Expr) :
    L.Directs fun H => Interpreter.argumentValues H env a := by
  unfold Interpreter.argumentValues
  split
  · exact (Directs.findDots env).bind fun dots =>
      Directs.mapM (fun d => (force d.value).bind fun v => Directs.pure _) dots
  · exact (Directs.ask (.eval env a.value)).bind fun v => Directs.pure _

lemma argumentPromises (env : EnvId) (a : Arg Expr) :
    L.Directs fun _ => Interpreter.argumentPromises env a := by
  unfold Interpreter.argumentPromises
  split
  · exact Directs.findDots env
  · split
    · exact Directs.pure _
    · exact (Directs.promise _).bind fun v => Directs.pure _

lemma applyTo (env : EnvId) (call : Call) {f : Value} (hf : f.category?.isSome) :
    L.Directs fun H => Interpreter.applyTo limit H env call f := by
  cases f with
  | builtin b =>
    refine (Directs.mapM (argumentValues env) call.args).bind fun args => ?_
    dsimp only
    split
    · exact Directs.pure _
    · rename_i h hb
      exact .of_governs (.throw h (Builtin.ne_exhausted hb) (Builtin.proper hb (by rw [List.length_map, List.length_map])))
  | closure unit closureEnv =>
    exact (Directs.mapM (argumentPromises env) call.args).bind fun args =>
      applyClosure unit closureEnv call _
  | special f => exact special env call f
  | _ => cases hf

/-- A call that is evaluated as written. -/
lemma apply (env : EnvId) (call : Call) :
    L.Directs fun H => Interpreter.apply limit H env call := by
  simp only [Interpreter.apply_eq]
  exact .after (callee env _) fun v hv => applyTo env _ hv

/-- Evaluating an expression. -/
lemma eval (env : EnvId) (e : Expr) :
    L.Directs fun H => Interpreter.eval limit H env e := by
  cases e with
  | symbol name =>
    simp only [Interpreter.eval]
    split
    · exact Directs.fail _ id
    · exact (Directs.findVariable env name).bind fun v => force v
  | function formals body => exact closure env _
  | call f args => exact apply env ⟨f, args⟩
  | _ => exact Directs.pure _

/-! ## Steps of machines -/

namespace Steps

variable {A : Host → Stepping α}

protected lemma pure (a : α) : L.Steps fun _ => (Pure.pure a : Stepping α) :=
  fun _ => Directs.pure _

/-- One step after the other. -/
protected lemma bind {f : Host → α → Stepping β} (h : L.Steps A)
    (h' : ∀ a, L.Steps fun H => f H a) : L.Steps fun H => A H >>= f H :=
  fun m => (h m).bind fun r => h' r.1 r.2

/-- An evaluation in a step. -/
protected lemma lift {act : Host → Eval α} (h : L.Directs act) :
    L.Steps fun H => (liftM (act H) : Stepping α) := fun _ => h.bind fun _ => Directs.pure _

/-- Steps for the entries of a list. -/
protected lemma mapM {f : Host → α → Stepping β} (h : ∀ a, L.Steps fun H => f H a) :
    ∀ as : List α, L.Steps fun H => as.mapM (f H)
  | [] => Steps.pure []
  | a :: as => by
    simp only [List.mapM_cons]
    exact (h a).bind fun _ => (Steps.mapM h as).bind fun _ => Steps.pure _

lemma push (w : Word) : L.Steps fun _ => Machine.push w := fun _ => Directs.pure _

lemma pushValue (v : Value) : L.Steps fun _ => Machine.pushValue v := push _

/-- An instruction that pushes what an evaluation gives. -/
lemma pushing {act : Host → Stepping Value} (h : L.Steps act) :
    L.Steps fun H => do
      let v ← act H
      Machine.pushValue v
      return Machine.Transfer.next :=
  h.bind fun v => (pushValue v).bind fun _ => Steps.pure _

variable [L.Lenient]

protected lemma defect (fault : InternalFault) :
    L.Steps fun _ => (Machine.defect fault : Stepping α) := Steps.lift (Directs.halt _ nofun)

protected lemma fail (e : EvalError) :
    L.Steps fun _ => (liftM (Eval.fail e : Eval α) : Stepping α) := Steps.lift (Directs.halt _ nofun)

lemma pop : L.Steps fun _ => Machine.pop := by
  rintro ⟨position, _ | ⟨w, stack⟩, slots⟩
  · exact Directs.halt _ nofun
  · exact Directs.pure _

lemma top : L.Steps fun _ => Machine.top :=
  Steps.bind pop fun w => (push w).bind fun _ => Steps.pure w

lemma popValue : L.Steps fun _ => Machine.popValue := Steps.bind pop fun w => by
  cases w with
  | value => exact Steps.pure _
  | _ => exact Steps.defect _

lemma popInt : L.Steps fun _ => Machine.popInt := Steps.bind pop fun w => by
  cases w with
  | int => exact Steps.pure _
  | _ => exact Steps.defect _

lemma popContext : L.Steps fun _ => Machine.popContext := Steps.bind pop fun w => by
  cases w with
  | context => exact Steps.pure _
  | _ => exact Steps.defect _

lemma popEnv : L.Steps fun _ => Machine.popEnv := Steps.bind pop fun w => by
  cases w with
  | env => exact Steps.pure _
  | _ => exact Steps.defect _

lemma popCall : L.Steps fun _ => Machine.popCall := Steps.bind pop fun w => by
  cases w with
  | call => exact Steps.pure _
  | _ => exact Steps.defect _

lemma popNames : L.Steps fun _ => Machine.popNames := Steps.bind pop fun w => by
  cases w with
  | names => exact Steps.pure _
  | _ => exact Steps.defect _

lemma popValues : L.Steps fun _ => Machine.popValues := Steps.bind pop fun w => by
  cases w with
  | values => exact Steps.pure _
  | _ => exact Steps.defect _

lemma popArgs : L.Steps fun _ => Machine.popArgs := Steps.bind pop fun w => by
  cases w with
  | args => exact Steps.pure _
  | _ => exact Steps.defect _

lemma popDots : L.Steps fun _ => Machine.popDots := Steps.bind popValue fun v => by
  cases v with
  | dots => exact Steps.pure _
  | _ => exact Steps.fail _

lemma slot (i : Nat) : L.Steps fun _ => Machine.slot i := by
  intro m
  show L.Directs fun _ => Machine.slot i m
  rw [Machine.slot_read]
  cases m.slots[i]? with
  | none => exact Directs.halt _ nofun
  | some w => exact Directs.pure _

lemma setSlot (i : Nat) (w : Word) : L.Steps fun _ => Machine.setSlot i w :=
  (slot i).bind fun _ => fun _ => Directs.pure _

variable (u : CodeUnit)

lemma operand (width skip : Nat) : L.Steps fun _ => Machine.operand u width skip := by
  intro m
  show L.Directs fun _ => Machine.operand u width skip m
  rw [Machine.operand_read]
  cases u.code.operand? m.position width skip with
  | none => exact Directs.halt _ nofun
  | some n => exact Directs.pure _

lemma constant (i : Nat) : L.Steps fun _ => Machine.constant u i := by
  unfold Machine.constant
  cases u.constants[i]? with
  | some => exact Steps.pure _
  | none => exact Steps.defect _

lemma nameOperand (skip : Nat) : L.Steps fun _ => Machine.nameOperand u skip :=
  (operand u 2 skip).bind fun i => (constant u i).bind fun c => by
    cases c <;> first | exact Steps.pure _ | exact Steps.defect _

lemma callOperand : L.Steps fun _ => Machine.callOperand u :=
  (operand u 2 0).bind fun i => (constant u i).bind fun c => by
    cases c with
    | call => exact Steps.pure _
    | _ => exact Steps.defect _

lemma thunkOperand : L.Steps fun _ => Machine.thunkOperand u :=
  (operand u 2 0).bind fun i => by
    cases u.thunks[i]? with
    | some => exact Steps.pure _
    | none => exact Steps.defect _

lemma closureOperand : L.Steps fun _ => Machine.closureOperand u :=
  (operand u 2 0).bind fun i => by
    cases u.closures[i]? with
    | some => exact Steps.pure _
    | none => exact Steps.defect _

lemma jumpIf (c : Bool) : L.Steps fun _ => Machine.jumpIf u c := by
  unfold Machine.jumpIf
  split
  · exact (operand u 2 0).bind fun _ => Steps.pure _
  · exact Steps.pure _

lemma invoke (b : Builtin) (call : Call) (names : List (Option Symbol)) (values : List Value) :
    L.Steps fun _ => Machine.invoke b call names values := by
  unfold Machine.invoke
  split
  · exact Steps.pure _
  · exact Steps.lift (Directs.halt _ (Builtin.ne_exhausted ‹_›))

lemma popBuiltinCall : L.Steps fun _ => Machine.popBuiltinCall :=
  popValues.bind fun _ => popNames.bind fun _ => popCall.bind fun _ => popEnv.bind fun _ =>
    popContext.bind fun _ => Steps.pure _

lemma applyBuiltin : L.Steps fun _ => Machine.applyBuiltin :=
  popBuiltinCall.bind fun r => popValue.bind fun v => by
    split
    exacts [invoke _ _ _ _, Steps.defect _]

lemma callPrimitive (name : Symbol) : L.Steps fun _ => Machine.callPrimitive name := by
  unfold Machine.callPrimitive
  split
  · exact Steps.defect _
  · exact popBuiltinCall.bind fun r => invoke _ _ _ _

lemma applySpecial : L.Steps fun H => Machine.applySpecial H :=
  popCall.bind fun call => popEnv.bind fun env => popContext.bind fun _ => popValue.bind fun v => by
    cases v with
    | special f => exact Steps.lift (special env call f)
    | _ => exact Steps.defect _

lemma applyClosure : L.Steps fun H => Machine.applyClosure limit H :=
  popArgs.bind fun args => popCall.bind fun call => popContext.bind fun _ =>
    popValue.bind fun v => by
      cases v with
      | closure unit env => exact Steps.lift (Law.applyClosure unit env call args.toList)
      | _ => exact Steps.defect _

/-- Every instruction obeys the law. -/
theorem step (env : EnvId) (op : Opcode) : L.Steps fun H => Machine.step limit H u env op := by
  have next : ∀ {w : Word}, L.Steps fun _ => (do Machine.push w; return Machine.Transfer.next) :=
    fun {w} => (push w).bind fun _ => Steps.pure _
  cases op with
  | constant =>
    refine (operand u 2 0).bind fun i => (constant u i).bind fun c => ?_
    cases c with
    | literal e => exact next
    | call c => exact next
    | _ => exact (Steps.defect _).bind fun _ => Steps.pure _
  | int => exact (operand u 4 0).bind fun n => next
  | load =>
    refine (operand u 1 0).bind fun i => (slot i).bind fun w => ?_
    cases w with
    | empty => exact (Steps.defect _).bind fun _ => Steps.pure _
    | _ => exact next
  | store => exact pop.bind fun w => (operand u 1 0).bind fun i => (setSlot i w).bind fun _ =>
      Steps.pure _
  | loadInt =>
    refine (operand u 1 0).bind fun i => (slot i).bind fun w => ?_
    cases w with
    | int n => exact next
    | _ => exact (Steps.defect _).bind fun _ => Steps.pure _
  | storeInt => exact popInt.bind fun n => (operand u 1 0).bind fun i => (setSlot i _).bind fun _ =>
      Steps.pure _
  | incLocal =>
    refine (operand u 1 0).bind fun i => (slot i).bind fun w => ?_
    cases w with
    | int n =>
      dsimp only
      split
      · exact (setSlot i _).bind fun _ => Steps.pure _
      · exact (Steps.fail _).bind fun _ => Steps.pure _
    | _ => exact (Steps.defect _).bind fun _ => Steps.pure _
  | dup => exact top.bind fun w => next
  | pop => exact pop.bind fun _ => Steps.pure _
  | jump => exact (operand u 2 0).bind fun t => Steps.pure _
  | jumpIfZero => exact popInt.bind fun n => jumpIf u _
  | jumpIfNonZero => exact popInt.bind fun n => jumpIf u _
  | jumpIfIntLess => exact popInt.bind fun b => popInt.bind fun a => jumpIf u _
  | findVariable =>
    exact (nameOperand u 0).bind fun name => pushing (Steps.lift (Directs.findVariable env name))
  | findFunction =>
    exact (nameOperand u 0).bind fun name => pushing (Steps.lift (findFunction env name).directs)
  | setVariable =>
    exact (nameOperand u 0).bind fun name => popValue.bind fun v =>
      (Steps.lift (Directs.setVariable env name v)).bind fun _ => Steps.pure _
  | force => exact popValue.bind fun v => pushing (Steps.lift (force v))
  | checkFunction =>
    refine (callOperand u).bind fun call => popValue.bind fun v => (Steps.lift (force v)).bind
      fun w => ?_
    split
    · exact next
    · exact (Steps.fail _).bind fun _ => Steps.pure _
  | isBuiltin => exact popValue.bind fun v => next
  | isClosure => exact popValue.bind fun v => next
  | castBuiltin =>
    refine top.bind fun w => ?_
    split
    exacts [Steps.pure _, Steps.defect _]
  | castClosure =>
    refine top.bind fun w => ?_
    split
    exacts [Steps.pure _, Steps.defect _]
  | applySpecial => exact pushing (applySpecial)
  | newArgList => exact next
  | argAdd => exact popValue.bind fun v => popArgs.bind fun args => next
  | argAddNamed =>
    exact (nameOperand u 0).bind fun name => popValue.bind fun v => popArgs.bind fun args => next
  | argAddAll => exact popDots.bind fun dots => popArgs.bind fun args => next
  | applyClosure => exact pushing (applyClosure)
  | makeVariablePromise =>
    exact (nameOperand u 0).bind fun name => popEnv.bind fun e =>
      pushing (Steps.lift (Directs.promise _))
  | makeThunk =>
    exact (thunkOperand u).bind fun t => popEnv.bind fun e => popContext.bind fun _ =>
      pushing (Steps.lift (Directs.promise _))
  | evalThunk =>
    exact (thunkOperand u).bind fun t => popEnv.bind fun e => popContext.bind fun _ =>
      pushing (Steps.lift (executeNested t e))
  | loadEllipsis => exact (Steps.lift (Directs.findDots env)).bind fun dots => next
  | newNames => exact (operand u 2 0).bind fun n => next
  | nameAt =>
    refine (operand u 2 0).bind fun i => (nameOperand u 2).bind fun name => popNames.bind
      fun names => ?_
    split
    · exact next
    · exact (Steps.defect _).bind fun _ => Steps.pure _
  | spliceNames =>
    refine (operand u 2 0).bind fun i => popDots.bind fun dots => popNames.bind fun names => ?_
    split
    · exact next
    · exact (Steps.defect _).bind fun _ => Steps.pure _
  | newValues => exact (operand u 2 0).bind fun n => next
  | valueAt =>
    refine (operand u 2 0).bind fun i => popValue.bind fun v => popValues.bind fun values => ?_
    split
    · exact next
    · exact (Steps.defect _).bind fun _ => Steps.pure _
  | spliceValues =>
    refine (operand u 2 0).bind fun i => popDots.bind fun dots => popValues.bind fun values => ?_
    split
    · exact (Steps.mapM (fun d => Steps.lift (force d.value)) dots).bind fun _ => next
    · exact (Steps.defect _).bind fun _ => Steps.pure _
  | applyBuiltin => exact pushing applyBuiltin
  | callPrimitive => exact (nameOperand u 0).bind fun name => pushing (callPrimitive name)
  | elementAt =>
    exact popInt.bind fun i => popValue.bind fun v => pushing (Steps.lift (Directs.outcome _))
  | length => exact popValue.bind fun v => (Steps.lift (Directs.outcome _)).bind fun n => next
  | addInt =>
    refine popInt.bind fun b => popInt.bind fun a => ?_
    split
    · exact next
    · exact (Steps.fail _).bind fun _ => Steps.pure _
  | greaterEqual =>
    exact popValue.bind fun b => (Steps.lift (Directs.outcome _)).bind fun _ =>
      popValue.bind fun a => (Steps.lift (Directs.outcome _)).bind fun _ => next
  | makeClosure => exact (closureOperand u).bind fun f => popEnv.bind fun e => next
  | truthy => exact popValue.bind fun v => (Steps.lift (Directs.outcome _)).bind fun _ => next
  | boxInt => exact popInt.bind fun n => next
  | unboxInt => exact popValue.bind fun v => (Steps.lift (Directs.outcome _)).bind fun _ => next
  | ret => exact popValue.bind fun v => Steps.pure _

end Steps

/-! ## Runs and tasks -/

lemma trace [L.Lenient] (u : CodeUnit) (op : Opcode) (m : Machine) :
    L.Directs fun _ => Machine.trace u op m := by
  unfold Machine.trace
  split
  · exact Directs.modify fun s => L.note s _
  · exact Directs.halt _ nofun

section

variable {options : RuntimeOptions} {L : Law options.maxDepth} [L.Lenient] [L.Bounded]

omit [L.Bounded] in
/-- Executing one instruction, as a run does. -/
lemma advance (u : CodeUnit) (env : EnvId) (m : Machine) :
    L.Directs fun H => Machine.advance options H u env m := by
  unfold Machine.advance
  cases u.code[m.position]? with
  | none => exact Directs.halt _ nofun
  | some byte =>
    dsimp only
    cases Opcode.ofByte? byte with
    | none => exact Directs.halt _ nofun
    | some op =>
      have hstep : L.Directs fun H => do
          let r ← Machine.step options.maxDepth H u env op m
          return r.1.turn op r.2 := (Steps.step (L := L) u env op m).bind fun r => Directs.pure _
      dsimp only
      split
      · exact (trace u op m).bind fun _ => hstep
      · exact hstep

/-- A run obeys the law: every step of it does. -/
lemma run (u : CodeUnit) (env : EnvId) :
    ∀ (steps : Nat) (m : Machine), L.Directs fun H => Machine.run options H u env steps m
  | 0, _ => .of_governs .cut
  | steps + 1, m => by
    simp only [Machine.run_eq_advance]
    refine (advance u env m).bind fun turn => ?_
    cases turn with
    | on m' => exact run u env steps m'
    | back v => exact Directs.pure v

/-- A task obeys the law where the host does. -/
lemma perform (steps : Nat) (τ : Task) :
    L.Directs fun H => CallByNeed.perform options H steps τ := by
  cases τ with
  | force p => exact forcePromise p
  | eval env e => exact eval env e
  | execute u env => exact run u env steps _

end

/-- **Every task obeys every law that excuses defects and the use of the whole bound**: by induction on
how deeply evaluations nest. -/
theorem answer (options : RuntimeOptions) (L : Law options.maxDepth) [L.Lenient] [L.Bounded] :
    ∀ (bound : Nat) (τ : Task), L.Governs (CallByNeed.answer options bound τ)
  | 0, _ => Governs.cut
  | bound + 1, τ => (perform bound τ).governs (answer options L bound)

end Law

end CallByNeed
