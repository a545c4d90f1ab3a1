import CallByNeed.Proofs.Source.Execution
import CallByNeed.Proofs.Source.Shapes
import CallByNeed.Proofs.Source.Units

/-!
# What inlined loops do

An inlined loop evaluates its sequence and then goes through the elements by position: it binds the
variable to an element and evaluates the body, and stops where the body fails (`Sweeps`). Its code
keeps the sequence, the length and the position in slots. Of these the body knows nothing, so that
it may assign whatever it likes; and what the loop does of its own never fails (`loop_sweeps`).

Arguments bound to `...` have a length but no elements behind the first one, so they are no sequence
to go through, unless there are fewer than two of them (`Value.Indexed`).
-/

namespace CallByNeed

open Meaning

/-! ## Sweeps -/

/-- The evaluation of a body for each element of a value from a position on, right after a variable
was bound to the element, up to the first one that fails; then `NULL`. -/
inductive Sweeps (env : EnvId) (name : Symbol) (v : Value) (body : Eval Value) :
    Nat → Store → Result Value → Prop
  | done {k : Nat} (hk : k = v.length) (s : Store) : Sweeps env name v body k s (.ok .null s)
  | failed {k : Nat} {s t : Store} {x : Value} {h : Halt} (hk : k < v.length)
    (hx : v.elementAt (Int32.ofNat k) = .ok x) (hbody : body (s.set env name x) = .error h t) :
    Sweeps env name v body k s (.error h t)
  | next {k : Nat} {s t : Store} {x w : Value} {r : Result Value} (hk : k < v.length)
    (hx : v.elementAt (Int32.ofNat k) = .ok x) (hbody : body (s.set env name x) = .ok w t)
    (hrest : Sweeps env name v body (k + 1) t r) : Sweeps env name v body k s r

/-- Every position below the length has an element. -/
def Value.Indexed (v : Value) : Prop := ∀ args, v = .dots args → args.length ≤ 1

variable {env : EnvId} {name : Symbol} {v : Value} {body : Eval Value}

/-- The length is an integer. -/
lemma Builtin.lengthOf_eq_ok (hlength : v.length < 2147483648) :
    ∃ n : Int32, Builtin.lengthOf v = .ok n ∧ n.toInt.toNat = v.length := by
  have hleast : Int32.minValue.toInt = -2147483648 := by decide
  have hgreatest : Int32.maxValue.toInt = 2147483647 := by decide
  refine ⟨Int32.ofInt v.length, ?_, ?_⟩
  · rw [Builtin.lengthOf, Value.int32?, if_pos ⟨by omega, by omega⟩]
  · rw [Int32.toInt_ofInt_of_le (by omega) (by omega)]
    omega

lemma Value.Indexed.elementAt (hv : v.Indexed) {k : Nat} (hfits : k < 2147483648)
    (hk : k < v.length) : ∃ x, v.elementAt (Int32.ofNat k) = .ok x := by
  have hfirst : v.length ≤ 1 → k = 0 := fun h => by omega
  cases v with
  | null => cases hk
  | vector values =>
    have hint : (Int32.ofNat k).toInt = k := Int32.toInt_ofNat_of_lt (by omega)
    have hpos : ¬ Int32.ofNat k < 0 := by
      rw [Int32.lt_iff_toInt_lt, hint]
      simp
    obtain ⟨x, hx⟩ : ∃ x, values[k]? = some x :=
      Option.isSome_iff_exists.1 (by simpa [Value.length] using hk)
    exact ⟨x, by simp [Value.elementAt, hpos, hint, hx]⟩
  | dots args =>
    obtain rfl := hfirst (hv args rfl)
    exact ⟨_, rfl⟩
  | _ =>
    obtain rfl := hfirst (Nat.le_refl 1)
    exact ⟨_, rfl⟩

/-- What is left of a loop at some position is a sweep from there on. -/
lemma sweeps_elements (hv : v.Indexed) (hlength : v.length < 2147483648) :
    ∀ (count k : Nat) (s : Store), k + count = v.length →
      Sweeps env name v body k s ((do
        elements env name v body count k
        return .null : Eval Value) s)
  | 0, k, s, h => by
    exact .done h s
  | count + 1, k, s, h => by
    have hk : k < v.length := by omega
    obtain ⟨x, hx⟩ := hv.elementAt (Nat.lt_trans hk hlength) hk
    have hround : (do
        elements env name v body (count + 1) k
        return .null : Eval Value) s = (do
          let _ ← body
          elements env name v body count (k + 1)
          return .null : Eval Value) (s.set env name x) := by
      simp only [elements, hx, Eval.ofExcept, pure_bind, bind_assoc]
      rfl
    rw [hround, Eval.bind_apply]
    cases hbody : body (s.set env name x) with
    | error h t => exact .failed hk hx hbody
    | ok w t => exact .next hk hx hbody (sweeps_elements hv hlength count (k + 1) t (by omega))

/-! ## Loops -/

/-- A loop as it is written: the call of `for` with a variable, a sequence and a body. -/
def Expr.loop (name : Symbol) (sequence body : Expr) : Expr :=
  .call (.symbol ⟨Special.loop.name⟩) [⟨none, .symbol name⟩, ⟨none, sequence⟩, ⟨none, body⟩]

/-- **An inlined loop sweeps over its sequence.** Executing a unit does what its expression means,
on every host; and a loop, wherever in compiled code it stands, means that its sequence is evaluated
and then, if it has fewer than 2147483648 elements, its body for each of them. So an error of the loop is
one of the sequence or of the body. -/
theorem loop_sweeps {o : CompilerOptions} (ho : o.inlineControlFlow = true) {name : Symbol}
    (hname : name.isEllipsis = false) (limit : Nat) (env : EnvId) (q b : Expr) :
    (∀ e u, CompiledFrom o e u → ∃ M, Means o limit env e M ∧ ∀ H,
      Follows (fun n => Machine.run ⟨limit, false⟩ H u env n (.start u env)) fun _ => M H) ∧
    ∀ M, Means o limit env (.loop name q b) M →
      ∃ Q B, Means o limit env q Q ∧ Means o limit env b B ∧ ∀ H s,
        (∀ h t, Q H s = .error h t → M H s = .error h t) ∧
        ∀ v t, Q H s = .ok v t → v.Indexed → v.length < 2147483648 →
          Sweeps env name v (B H) 0 t (M H s) := by
  refine ⟨fun e u h => h.executes limit env, fun M hM => ?_⟩
  obtain ⟨Q, B, hQ, hB, rfl⟩ := Means.loop_inv ho rfl hname hM
  refine ⟨Q, B, hQ, hB, fun H s => ⟨fun h t hq => ?_, fun v t hq hv hlength => ?_⟩⟩
  · exact Flow.Eval.bind_error hq
  · obtain ⟨n, hn, hcount⟩ := Builtin.lengthOf_eq_ok hlength
    have hloop : Meaning.loop env name (Q H) (B H) s = (do
        elements env name v (B H) v.length 0
        return .null : Eval Value) t := by
      rw [Meaning.loop, Flow.Eval.bind_ok hq, hn, ← hcount]
      rfl
    show Sweeps env name v (B H) 0 t (Meaning.loop env name (Q H) (B H) s)
    rw [hloop]
    exact sweeps_elements hv hlength v.length 0 t (Nat.zero_add _)

/-- A body that assigns the variable which the sequence came from is evaluated for the elements that
the sequence had. -/
theorem loop_sweeps_reassigned :
    let e : Expr := .loop ⟨"x"⟩ (.symbol ⟨"y"⟩)
      (.call (.symbol ⟨Special.assign.name⟩) [⟨none, .symbol ⟨"y"⟩⟩, ⟨none, .symbol ⟨"x"⟩⟩])
    let s := Store.fresh.set globalEnv ⟨"y"⟩ (.vector [.int 1, .int 2])
    ∃ M, Means {} 1000 globalEnv e M ∧
      ∀ H, ∃ t, M H s = .ok .null t ∧ t.local? globalEnv ⟨"y"⟩ = some (.int 2) := by
  intro e s
  obtain ⟨M, hM⟩ : ∃ M, Means {} 1000 globalEnv e M :=
    ⟨_, .loop rfl rfl rfl (.reading rfl) (.assignment rfl rfl rfl (.reading rfl))⟩
  obtain ⟨Q, B, hQ, hB, hsweeps⟩ := (loop_sweeps (o := {}) rfl rfl 1000 globalEnv _ _).2 _ hM
  refine ⟨M, hM, fun H => ?_⟩
  obtain ⟨-, rfl⟩ := Means.reading_inv hQ
  obtain ⟨A, hA, rfl⟩ := Means.assignment_inv rfl rfl rfl hB
  obtain ⟨-, rfl⟩ := Means.reading_inv hA
  have hsweep := (hsweeps H s).2 (.vector [.int 1, .int 2]) s rfl nofun (by decide)
  generalize M H s = r at hsweep
  -- Two rounds, each of which binds both variables to the element, and no third one.
  cases hsweep with
  | done hk => cases hk
  | failed _ hx hbody => cases hx; cases hbody
  | next _ hx hbody hrest =>
    cases hx
    cases hbody
    cases hrest with
    | done hk => cases hk
    | failed _ hx hbody => cases hx; cases hbody
    | next _ hx hbody hrest =>
      cases hx
      cases hbody
      cases hrest with
      | done hk => exact ⟨_, rfl, rfl⟩
      | failed hk => exact absurd hk (by decide)
      | next hk => exact absurd hk (by decide)

/-- Two arguments bound to `...` are no sequence: there is no second element to go on with. -/
theorem not_loop_sweeps_of_dots :
    let e : Expr := .loop ⟨"x"⟩ (.symbol ⟨"y"⟩) (.int 1)
    let v : Value := .dots [⟨none, .int 1⟩, ⟨none, .int 2⟩]
    let s := Store.fresh.set globalEnv ⟨"y"⟩ v
    v.length = 2 ∧ ∃ u k, Compiling.expression {} .counting "loop" e #[] = .ok u k ∧ ∀ H, ∃ n t,
      ∀ m ≥ n, Machine.run ⟨1000, false⟩ H u globalEnv m (.start u globalEnv) s
        = .error (.error Value.outOfBounds) t := by
  intro e v s
  refine ⟨rfl, ?_⟩
  have hcompiles : (match Compiling.expression {} .counting "loop" e #[] with
      | .ok .. => true
      | .error .. => false) = true := by decide +kernel
  cases hu : Compiling.expression {} .counting "loop" e #[] with
  | error => simp [hu] at hcompiles
  | ok u k =>
    refine ⟨u, k, rfl, fun H => ?_⟩
    obtain ⟨M, hM, hruns⟩ := (Compiling.compiledFrom_of_expression hu).executes 1000 globalEnv
    obtain ⟨Q, B, hQ, hB, rfl⟩ := Means.loop_inv rfl rfl rfl hM
    obtain ⟨-, rfl⟩ := Means.reading_inv hQ
    obtain rfl := Means.literal_inv rfl hB
    have hmeaning : ∃ t, Meaning.loop globalEnv ⟨"x"⟩ (Meaning.lookup H globalEnv ⟨"y"⟩)
        (pure (.ofExpr (.int 1))) s = .error (.error Value.outOfBounds) t := ⟨_, rfl⟩
    obtain ⟨t, ht⟩ := hmeaning
    obtain ⟨n, hn, -⟩ := (hruns H 0 s).2 (by rintro ⟨_, h⟩; cases ht.symm.trans h)
    refine ⟨n, t, fun m hm => ?_⟩
    have hagrees := hn m hm
    dsimp only at hagrees
    rw [ht] at hagrees
    generalize Machine.run ⟨1000, false⟩ H u globalEnv m (.start u globalEnv) s = r at hagrees
    cases hagrees with
    | error hh =>
      rcases hh with rfl | ⟨-, hinternal⟩
      · rfl
      · exact hinternal.elim

end CallByNeed
