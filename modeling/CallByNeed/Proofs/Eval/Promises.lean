import CallByNeed.Proofs.Eval.Laws

/-!
# Promises over whole evaluations

What an evaluation does to the promises of a store, whatever it computes and whether it has a value
or stops (`promises_over_evaluations`).

* The promises change in a well-bracketed way (`Promises.History`): promises are made pending, and a
  pending promise is under evaluation for the length of an evaluation, after which it has its value,
  or is pending again with what it put off.
* So a promise goes one of three ways (`Promise.Moves`): it stays what it was, it gets its value, or
  its evaluation is begun and given up.
* That every evaluation has such a history is an instance of the laws of evaluations.
-/

namespace CallByNeed

/-- The computation that a promise puts off for as long as it has no value. -/
def Status.suspension? : Status → Option Suspension
  | .pending x | .forcing x => some x
  | .forced _ => none

namespace Promise

/-- A promise as it is made. -/
def ofSuspension (x : Suspension) : Promise := ⟨.pending x, 0⟩

/-- A promise whose evaluation begins. -/
def begun (x : Suspension) (q : Promise) : Promise := ⟨.forcing x, q.evaluations + 1⟩

/-- A promise whose evaluation is over. -/
def ended (status : Status) (q : Promise) : Promise := { q with status }

end Promise

/-! ## One promise -/

/-- What becomes of a promise in an evaluation that has a value (`done`) or stops. -/
inductive Promise.Moves (done : Bool) : Promise → Promise → Prop
  | stays (q : Promise) : Moves done q q
  | gets (x : Suspension) (n : Nat) (v : Value) : Moves done ⟨.pending x, n⟩ ⟨.forced v, n + 1⟩
  | givenUp (x : Suspension) (n : Nat) (h : done = false) :
      Moves done ⟨.pending x, n⟩ ⟨.pending x, n + 1⟩

namespace Promise.Moves

variable {done : Bool} {q m q' : Promise}

/-- A promise that got its value keeps it. -/
lemma trans (h : Moves true q m) (h' : Moves done m q') : Moves done q q' := by
  cases h with
  | stays => exact h'
  | gets x n v =>
    cases h' with
    | stays => exact .gets x n v
  | givenUp x n hd => cases hd

/-- What is under evaluation when an evaluation begins is so when it is over. -/
lemma forcing_iff (h : Moves done q q') (x : Suspension) :
    q'.status = .forcing x ↔ q.status = .forcing x := by
  cases h with
  | stays => rfl
  | gets x' n v => simp
  | givenUp x' n hd => simp

lemma forced (h : Moves done q q') {v : Value} (hv : q.status = .forced v) :
    q'.status = .forced v := by
  cases h with
  | stays => exact hv
  | gets x n v' => cases hv
  | givenUp x n hd => cases hv

/-- A promise without a value puts off what it put off. -/
lemma suspension? (h : Moves done q q') :
    (∃ v, q'.status = .forced v) ∨ q'.status.suspension? = q.status.suspension? := by
  cases h with
  | stays => exact .inr rfl
  | gets x n v => exact .inl ⟨v, rfl⟩
  | givenUp x n hd => exact .inr rfl

lemma evaluations (h : Moves true q q') : q'.evaluations = q.evaluations ∨
    (q'.evaluations = q.evaluations + 1 ∧ ∃ v, q'.status = .forced v) := by
  cases h with
  | stays => exact .inl rfl
  | gets x n v => exact .inr ⟨rfl, v, rfl⟩
  | givenUp x n hd => cases hd

end Promise.Moves

/-! ## All promises -/

namespace Promises

/-- The history of the promises of a store in an evaluation that has a value (`done`) or stops, with
what the promises made in it put off, in the order in which they were made. -/
inductive History : Bool → Array Promise → List Suspension → Array Promise → Prop
  | nothing (done : Bool) (ps : Array Promise) : History done ps [] ps
  /-- A promise is made. -/
  | make (ps : Array Promise) (x : Suspension) : History true ps [x] (ps.push (.ofSuspension x))
  /-- One thing after the other. -/
  | trans {done : Bool} {ps ms qs : Array Promise} {xs ys : List Suspension}
      (h : History true ps xs ms) (h' : History done ms ys qs) : History done ps (xs ++ ys) qs
  /-- A pending promise is evaluated and gets its value. -/
  | force {ps qs : Array Promise} {p : PromiseId} {x : Suspension} {xs : List Suspension}
      {v : Value} (hp : ps[p]?.map Promise.status = some (.pending x))
      (h : History true (ps.modify p (.begun x)) xs qs) :
      History true ps xs (qs.modify p (.ended (.forced v)))
  /-- The evaluation of a pending promise is given up. -/
  | giveUp {ps qs : Array Promise} {p : PromiseId} {x : Suspension} {xs : List Suspension}
      (hp : ps[p]?.map Promise.status = some (.pending x))
      (h : History false (ps.modify p (.begun x)) xs qs) :
      History false ps xs (qs.modify p (.ended (.pending x)))

/-- Promises, followed by promises that are made later. -/
def followedBy (ps : Array Promise) (xs : List Suspension) : List Promise :=
  ps.toList ++ xs.map .ofSuspension

/-- Every promise, and every promise made since, goes one of its ways. -/
def Moved (done : Bool) (ps : Array Promise) (xs : List Suspension) (qs : Array Promise) : Prop :=
  List.Forall₂ (Promise.Moves done) (followedBy ps xs) qs.toList

namespace Moved

variable {done : Bool} {ps ms qs : Array Promise} {xs ys : List Suspension}

lemma refl (done : Bool) (qs : List Promise) : List.Forall₂ (Promise.Moves done) qs qs :=
  List.forall₂_same.2 fun q _ => .stays q

lemma trans (h : Moved true ps xs ms) (h' : Moved done ms ys qs) : Moved done ps (xs ++ ys) qs := by
  have hcomp : ∀ {as bs cs : List Promise}, List.Forall₂ (Promise.Moves true) as bs →
      List.Forall₂ (Promise.Moves done) bs cs → List.Forall₂ (Promise.Moves done) as cs := by
    intro as bs cs hab
    induction hab generalizing cs with
    | nil => exact id
    | cons hq _ ih =>
      intro hbc
      cases hbc with
      | cons hq' hbc => exact .cons (hq.trans hq') (ih hbc)
  refine hcomp ?_ h'
  rw [followedBy, List.map_append, ← List.append_assoc]
  exact List.rel_append h (refl true _)

/-- What the bracket around an evaluation does to the promise evaluated. -/
lemma modify {f g : Promise → Promise} :
    ∀ {as bs : List Promise} {p : Nat} {q : Promise}, as[p]? = some q →
      List.Forall₂ (Promise.Moves done) (as.modify p f) bs →
      (∀ b, Promise.Moves done (f q) b → Promise.Moves done q (g b)) →
      List.Forall₂ (Promise.Moves done) as (bs.modify p g)
  | [], _, _, _, hq, _, _ => by cases hq
  | a :: as, bs, 0, q, hq, h, hg => by
    cases hq
    cases h with
    | cons hb h => exact .cons (hg _ hb) h
  | a :: as, bs, p + 1, q, hq, h, hg => by
    cases h with
    | cons hb h => exact .cons hb (modify hq h hg)

/-- The bracket around the evaluation of a pending promise: while it is under evaluation the promise
stays as it is, so that it is known what it becomes. -/
lemma bracket {p : PromiseId} {x : Suspension} {status : Status}
    (hp : ps[p]?.map Promise.status = some (.pending x))
    (h : Moved done (ps.modify p (.begun x)) xs qs)
    (hq : ∀ n, Promise.Moves done ⟨.pending x, n⟩ ⟨status, n + 1⟩) :
    Moved done ps xs (qs.modify p (.ended status)) := by
  obtain ⟨⟨_, n⟩, hget, hstatus⟩ := Option.map_eq_some_iff.1 hp
  cases hstatus
  have hlt : p < ps.size := (Array.getElem?_eq_some_iff.1 hget).1
  have hlist : (followedBy ps xs)[p]? = some ⟨.pending x, n⟩ := by
    rw [followedBy, List.getElem?_append_left (by simpa using hlt)]
    simpa using hget
  have hbegun : followedBy (ps.modify p (.begun x)) xs
      = (followedBy ps xs).modify p (.begun x) := by
    refine List.ext_getElem? fun i => ?_
    simp only [followedBy, Array.toList_modify, List.getElem?_append, List.getElem?_modify,
      List.length_modify, Array.length_toList]
    grind
  rw [Moved, Array.toList_modify]
  rw [Moved, hbegun] at h
  refine modify hlist h fun b hb => ?_
  cases hb with
  | stays => exact hq n

/-- The way of each promise: it was there before, or it was made since, or it is not there. -/
lemma way (h : Moved done ps xs qs) (p : PromiseId) :
    (∃ q q', ps[p]? = some q ∧ qs[p]? = some q' ∧ Promise.Moves done q q') ∨
      (ps[p]? = none ∧ ∃ x q', xs[p - ps.size]? = some x ∧ qs[p]? = some q' ∧
        Promise.Moves done (.ofSuspension x) q') ∨
      (ps[p]? = none ∧ qs[p]? = none) := by
  have hlen : ps.size + xs.length = qs.size := by simpa [followedBy] using h.length_eq
  by_cases hq : p < qs.size
  · have hmoves := h.get (by simpa [followedBy, hlen] using hq) (by simpa using hq)
    by_cases hp : p < ps.size
    · refine .inl ⟨ps[p], qs[p], by simp, by simp, ?_⟩
      simpa [followedBy, List.getElem_append, hp] using hmoves
    · have hx : p - ps.size < xs.length := by
        rw [← hlen] at hq
        grind
      refine .inr (.inl ⟨by simpa using hp, xs[p - ps.size], qs[p], by simp, by simp, ?_⟩)
      simpa [followedBy, List.getElem_append, hp] using hmoves
  · refine .inr (.inr ⟨?_, by simpa using hq⟩)
    rw [Array.getElem?_eq_none_iff]
    grind

end Moved

/-- A history moves every promise. -/
theorem History.moved {done : Bool} {ps qs : Array Promise} {xs : List Suspension}
    (h : History done ps xs qs) : Moved done ps xs qs := by
  induction h with
  | nothing done ps =>
    rw [Moved, followedBy, List.map_nil, List.append_nil]
    exact Moved.refl _ _
  | make ps x =>
    rw [Moved, followedBy, Array.toList_push]
    exact Moved.refl _ _
  | trans _ _ ih ih' => exact ih.trans ih'
  | force hp _ ih => exact ih.bracket hp fun n => .gets _ n _
  | giveUp hp _ ih => exact ih.bracket hp fun n => .givenUp _ n rfl

end Promises

/-! ## Every evaluation -/

/-- The history of promises, as a law of evaluations. -/
def Law.promises (limit : Nat) : Law limit where
  done s t := ∃ made, Promises.History true s.promises made t.promises
  failed _ s t := ∃ made, Promises.History false s.promises made t.promises
  refl s := ⟨[], .nothing _ _⟩
  trans := by
    rintro s m t ⟨xs, h⟩ ⟨ys, h'⟩
    exact ⟨xs ++ ys, h.trans h'⟩
  stop s _ _ _ := ⟨[], .nothing _ _⟩
  after := by
    rintro s m t _ ⟨xs, h⟩ ⟨ys, h'⟩
    exact ⟨xs ++ ys, h.trans h'⟩
  set s env name v := ⟨[], .nothing _ _⟩
  addChild s env := ⟨[], .nothing _ _⟩
  addPromise s x := ⟨[x], .make _ x⟩
  note s j := ⟨[], .nothing _ _⟩
  left h := h
  broken h := h
  forced := by
    rintro s t p x v hp ⟨made, h⟩
    exact ⟨made, .force hp h⟩
  restored := by
    rintro s t p x _ hp ⟨made, h⟩
    exact ⟨made, .giveUp hp h⟩

instance (limit : Nat) : (Law.promises limit).Lenient := ⟨fun _ _ _ => ⟨[], .nothing _ _⟩⟩

instance (limit : Nat) : (Law.promises limit).Bounded := ⟨fun _ => ⟨[], .nothing _ _⟩⟩

/-- The ways in which evaluation begins. -/
inductive Evaluation where
  /-- An expression is evaluated as it is written. -/
  | eval (env : EnvId) (e : Expr)
  /-- A unit is executed. -/
  | execute (unit : CodeUnit) (env : EnvId)
  /-- A closure is applied to arguments. -/
  | apply (unit : FunctionUnit) (env : EnvId) (call : Call) (args : ArgList)
  /-- A promise is forced. -/
  | force (p : PromiseId)
  /-- A function is looked up, forcing the promises on the way. -/
  | findFunction (env : EnvId) (name : Symbol)

/-- Evaluates, with a bound for how deeply evaluations nest, and one for the steps of a unit. -/
def Evaluation.perform (options : RuntimeOptions) (bound steps : Nat) : Evaluation → Eval Value
  | .eval env e => CallByNeed.perform options (answer options bound) steps (.eval env e)
  | .execute unit env => CallByNeed.perform options (answer options bound) steps (.execute unit env)
  | .apply unit env call args =>
    applyClosure options.maxDepth (answer options bound) unit env call args
  | .force p => CallByNeed.perform options (answer options bound) steps (.force p)
  | .findFunction env name => (answer options bound).findFunction env name

lemma Evaluation.governed (options : RuntimeOptions) (L : Law options.maxDepth) [L.Lenient]
    [L.Bounded] (bound steps : Nat) (e : Evaluation) : L.Governs (e.perform options bound steps) := by
  have hH := Law.answer options L bound
  cases e with
  | eval env e => exact (Law.perform steps (.eval env e)).governs hH
  | execute unit env => exact (Law.perform steps (.execute unit env)).governs hH
  | apply unit env call args => exact (Law.applyClosure unit env call args).governs hH
  | force p => exact (Law.perform steps (.force p)).governs hH
  | findFunction env name => exact (Law.findFunction env name).directs.governs hH

/-! ## What is kept -/

namespace Store

/-- How far a promise is. -/
def status? (s : Store) (p : PromiseId) : Option Status := s.promises[p]?.map Promise.status

/-- The number of times the evaluation of a promise was begun; that of a promise to come is zero. -/
def evaluations (s : Store) (p : PromiseId) : Nat :=
  (s.promises[p]?.map Promise.evaluations).getD 0

/-- What a promise was made to put off: for a promise that a store has what it puts off there, and
for one of those made since what it was made with. -/
def madeFor (s : Store) (made : List Suspension) (p : PromiseId) : Option Suspension :=
  if p < s.promises.size then (s.status? p).bind Status.suspension? else made[p - s.promises.size]?

/-- What an evaluation that has a value (`done`) or stops keeps of the promises. -/
structure Kept (done : Bool) (s : Store) (made : List Suspension) (t : Store) : Prop where
  /-- The promises of the later store are those of the earlier one and those made. -/
  history : Promises.History done s.promises made t.promises
  size : t.promises.size = s.promises.size + made.length
  /-- Under evaluation is what was under evaluation. -/
  forcing : ∀ p x, t.status? p = some (.forcing x) ↔ s.status? p = some (.forcing x)
  /-- A value once there stays. -/
  forced : ∀ p v, s.status? p = some (.forced v) → t.status? p = some (.forced v)
  /-- A promise without a value puts off what it was made for. -/
  held : ∀ p status, t.status? p = some status →
    (∃ v, status = .forced v) ∨ status.suspension? = s.madeFor made p
  /-- Nothing is evaluated twice, and what is evaluated gets its value. -/
  once : done = true → ∀ p, t.evaluations p = s.evaluations p ∨
    (t.evaluations p = s.evaluations p + 1 ∧ ∃ v, t.status? p = some (.forced v))

variable {done : Bool} {s t : Store} {made : List Suspension}

lemma Kept.ofHistory (h : Promises.History done s.promises made t.promises) :
    s.Kept done made t := by
  have way := h.moved.way
  refine ⟨h, ?_, fun p x => ?_, fun p v hs => ?_, fun p status ht => ?_, ?_⟩
  · simpa [Promises.followedBy] using h.moved.length_eq.symm
  · rcases way p with ⟨q, q', hq, hq', hmoves⟩ | ⟨hp, y, q', -, hq', hmoves⟩ | ⟨hp, hq'⟩
    · simpa [status?, hq, hq'] using hmoves.forcing_iff x
    · simpa [status?, hp, hq', Promise.ofSuspension] using hmoves.forcing_iff x
    · simp [status?, hp, hq']
  · rcases way p with ⟨q, q', hq, hq', hmoves⟩ | ⟨hp, -⟩ | ⟨hp, -⟩
    · simpa [status?, hq'] using hmoves.forced (v := v) (by simpa [status?, hq] using hs)
    · simp [status?, hp] at hs
    · simp [status?, hp] at hs
  · rcases way p with ⟨q, q', hq, hq', hmoves⟩ | ⟨hp, y, q', hy, hq', hmoves⟩ | ⟨hp, hq'⟩
    · obtain rfl : q'.status = status := by simpa [status?, hq'] using ht
      have hlt : p < s.promises.size := (Array.getElem?_eq_some_iff.1 hq).1
      rw [madeFor, if_pos hlt, status?, hq]
      exact hmoves.suspension?
    · obtain rfl : q'.status = status := by simpa [status?, hq'] using ht
      have hle : ¬ p < s.promises.size := by simpa using hp
      simpa [madeFor, hle, hy, Promise.ofSuspension, Status.suspension?] using hmoves.suspension?
    · simp [status?, hq'] at ht
  · rintro rfl p
    rcases way p with ⟨q, q', hq, hq', hmoves⟩ | ⟨hp, y, q', -, hq', hmoves⟩ | ⟨hp, hq'⟩
    · simpa [evaluations, status?, hq, hq'] using hmoves.evaluations
    · simpa [evaluations, status?, hp, hq', Promise.ofSuspension] using hmoves.evaluations
    · exact .inl (by simp [evaluations, hp, hq'])

end Store

/-- **Promises over whole evaluations.** -/
theorem promises_over_evaluations (options : RuntimeOptions) (bound steps : Nat) (e : Evaluation)
    (s : Store) :
    match e.perform options bound steps s with
    | .ok _ t => ∃ made, s.Kept true made t
    | .error _ t => ∃ made, s.Kept false made t := by
  have h := e.governed options (Law.promises options.maxDepth) bound steps s trivial
  generalize e.perform options bound steps s = r at h
  cases h with
  | ok h => exact h.imp fun _ => .ofHistory
  | error h => exact h.imp fun _ => .ofHistory

end CallByNeed
