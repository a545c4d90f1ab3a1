import CallByNeed.Proofs.Comparison.Rules

/-!
# Builtins on related values

What builtins look at is the same in related values: kinds, numbers, truth values, texts, lengths.
So they compute related values or fail with the same error, which is never a defect.
-/

namespace CallByNeed

/-! ## Answers -/

/-- Related results, or the same error, which is not a bad one. -/
inductive Answers {ε α β : Type} (bad : ε → Prop) (R : α → β → Prop) :
    Except ε α → Except ε β → Prop
  | ok {a : α} {b : β} (h : R a b) : Answers bad R (.ok a) (.ok b)
  | error {e : ε} (he : ¬ bad e) : Answers bad R (.error e) (.error e)

/-- The error is a defect. -/
def EvalError.IsInternal (e : EvalError) : Prop := (Halt.error e).IsInternal

/-- Related results, or the same error of the language. -/
abbrev Says {α β : Type} (R : α → β → Prop) : Except EvalError α → Except EvalError β → Prop :=
  Answers EvalError.IsInternal R

namespace Answers

variable {ε α β γ δ : Type} {bad : ε → Prop} {R : α → β → Prop} {R' : γ → δ → Prop}
  {r : Except ε α} {r' : Except ε β}

/-- One computation after the other. -/
protected lemma bind {f : α → Except ε γ} {g : β → Except ε δ} (h : Answers bad R r r')
    (h' : ∀ a b, R a b → Answers bad R' (f a) (g b)) : Answers bad R' (r >>= f) (r' >>= g) := by
  cases h with
  | ok hab => exact h' _ _ hab
  | error he => exact .error he

/-- A function of the result. -/
protected lemma map {f : α → γ} {g : β → δ} (h : Answers bad R r r')
    (h' : ∀ a b, R a b → R' (f a) (g b)) : Answers bad R' (r.map f) (r'.map g) := by
  cases h with
  | ok hab => exact .ok (h' _ _ hab)
  | error he => exact .error he

/-- Less may be claimed of the results. -/
lemma weaken {R' : α → β → Prop} (h : Answers bad R r r') (h' : ∀ a b, R a b → R' a b) :
    Answers bad R' r r' := by
  cases h with
  | ok hab => exact .ok (h' _ _ hab)
  | error he => exact .error he

/-- Errors of the language as ways to stop. -/
lemma halts {r : Except EvalError α} {r' : Except EvalError β} (h : Says R r r') :
    Answers Halt.IsInternal R (r.mapError Halt.error) (r'.mapError Halt.error) := by
  cases h with
  | ok hab => exact .ok hab
  | error he => exact .error he

end Answers

/-- A computation with two results, equal if it has any. -/
lemma Says.of_eq {α : Type} {r r' : Except EvalError α} (h : r = r')
    (hr : ∀ e, r = .error e → ¬ e.IsInternal) : Says Eq r r' := by
  subst h
  cases r with
  | ok a => exact .ok rfl
  | error e => exact .error (hr e rfl)

variable {W : World} {n : Nat}

namespace EvalRel

variable {α β : Type} {R : Nat → α → β → Prop}

/-- Going on with the outcome of a computation. -/
lemma ofExcept {r : Except EvalError α} {r' : Except EvalError β}
    (h : Says (fun a b => ∀ m ≥ n, R m a b) r r') :
    EvalRel W n R (Eval.ofExcept r) fun _ => Eval.ofExcept r' := by
  cases h with
  | ok hab => exact EvalRel.pure hab
  | error he => exact fail fun hi => absurd hi he

/-- Going on with the same outcome. -/
lemma ofSaid {r r' : Except EvalError α} (h : Says Eq r r') :
    EvalRel W n (fun _ => Eq) (Eval.ofExcept r) fun _ => Eval.ofExcept r' :=
  ofExcept (h.weaken fun _ _ h _ _ => h)

/-- Going on with what a builtin computes. -/
lemma ofResult {r : Except Halt α} {r' : Except Halt β}
    (h : Answers Halt.IsInternal (fun a b => ∀ m ≥ n, R m a b) r r') :
    EvalRel W n R (Flow.ofResult r) fun _ => Flow.ofResult r' := by
  cases h with
  | ok hab => exact EvalRel.pure hab
  | error he => exact EvalRel.throw fun hi => absurd hi he

end EvalRel

/-- Related lists have related entries. -/
lemma forall₂_getElem? {α β : Type} {R : α → β → Prop} {as : List α} {bs : List β}
    (h : List.Forall₂ R as bs) (i : Nat) : Option.Rel R as[i]? bs[i]? := by
  induction h generalizing i with
  | nil => exact .none
  | cons hab _ ih =>
    cases i with
    | zero => exact .some hab
    | succ i => exact ih i

/-! ## What is looked at -/

namespace ValueRel

variable {v v' w w' : Value}

lemma category (h : ValueRel W n v v') : v.category? = v'.category? := by
  cases h <;> rfl

/-- A literal is related to itself. -/
lemma ofExpr (e : Expr) : ValueRel W n (.ofExpr e) (.ofExpr e) := by
  cases e <;> constructor

end ValueRel

namespace BoundRel

variable {v v' : Value}

/-- Without pinned names, expressions may have promises as their values. -/
lemma unpinned (hp : ¬ W.pins) (h : BoundRel W n v v') : ValueRel W n v v' := by
  cases h with
  | value h => exact h
  | promise p => exact .promise hp p

end BoundRel

/-- What a variable that may be read is bound to. -/
lemma BindingRel.read {name : Symbol} {v v' : Value} (h : BindingRel W n name v v')
    (hname : W.Readable name) : BoundRel W n v v' := by
  cases h with
  | bound h => exact h
  | @form s hs =>
    refine absurd (fun hp => ⟨?_, ?_⟩) hs
    · rintro rfl
      exact (hname hp).1 rfl
    · rintro rfl
      exact (hname hp).2.1 rfl
  | dots h =>
    refine .value (.dots (fun hp => ?_) h)
    exact (hname hp).2.2 rfl

lemma ValuesRel.length {vs vs' : List Value} (h : ValuesRel W n vs vs') :
    vs.length = vs'.length := by
  match h with
  | .nil => rfl
  | .cons _ hs => rw [List.length_cons, List.length_cons, hs.length]

lemma ArgsRel.length {as as' : ArgList} (h : ArgsRel W n as as') : as.length = as'.length := by
  match h with
  | .nil => rfl
  | .cons _ _ hs => rw [List.length_cons, List.length_cons, hs.length]

lemma ValuesRel.append {vs vs' ws ws' : List Value} (h : ValuesRel W n vs vs')
    (h' : ValuesRel W n ws ws') : ValuesRel W n (vs ++ ws) (vs' ++ ws') := by
  match h with
  | .nil => exact h'
  | .cons hv hs => exact .cons hv (hs.append h')

lemma ArgsRel.append {as as' bs bs' : ArgList} (h : ArgsRel W n as as')
    (h' : ArgsRel W n bs bs') : ArgsRel W n (as ++ bs) (as' ++ bs') := by
  match h with
  | .nil => exact h'
  | .cons hv ht hs => exact .cons hv ht (hs.append h')

/-! ## Texts -/

mutual

/-- Values have the same text if closures have the names of their code. -/
lemma ValueRel.text (hnamed : W.named) : ∀ {v v' : Value}, ValueRel W n v v' → v.text = v'.text
  | _, _, .vector h => by
    simp only [Value.text]
    rw [h.texts hnamed]
  | _, _, .closure hf _ => by
    simp only [Value.text]
    rw [hf.name hnamed]
  | _, _, .dots _ h => by
    simp only [Value.text]
    rw [h.length]
  | _, _, .null | _, _, .logical _ | _, _, .int _ | _, _, .double _ | _, _, .str _
  | _, _, .symbol _ | _, _, .language _ | _, _, .promise _ _ | _, _, .builtin _
  | _, _, .special _ => rfl

lemma ValuesRel.texts (hnamed : W.named) :
    ∀ {vs vs' : List Value}, ValuesRel W n vs vs' → Value.texts vs = Value.texts vs'
  | _, _, .nil => rfl
  | _, _, .cons h hs => by
    simp only [Value.texts]
    rw [h.text hnamed, hs.texts hnamed]

end

/-- Related lists of values, entry by entry. -/
lemma valuesRel_iff {vs vs' : List Value} :
    ValuesRel W n vs vs' ↔ List.Forall₂ (ValueRel W n) vs vs' := by
  constructor
  · intro h
    induction vs generalizing vs' with
    | nil => cases h; exact .nil
    | cons v vs ih =>
      cases h with
      | cons hv hs => exact .cons hv (ih hs)
  · intro h
    induction h with
    | nil => exact .nil
    | cons hv _ ih => exact .cons hv ih

/-- Related arguments, entry by entry. -/
structure ArgRel (W : World) (n : Nat) (a a' : Arg Value) : Prop where
  name : a.name = a'.name
  value : BoundRel W n a.value a'.value
  text : a.value.text = a'.value.text

/-- Related lists of arguments, entry by entry. -/
lemma argsRel_iff {as as' : ArgList} :
    ArgsRel W n as as' ↔ List.Forall₂ (ArgRel W n) as as' := by
  constructor
  · intro h
    induction as generalizing as' with
    | nil => cases h; exact .nil
    | cons a as ih =>
      cases h with
      | cons hv ht hs => exact .cons ⟨rfl, hv, ht⟩ (ih hs)
  · intro h
    induction h with
    | nil => exact .nil
    | @cons a a' as as' ha _ ih =>
      obtain ⟨name, v⟩ := a
      obtain ⟨name', v'⟩ := a'
      obtain rfl : name = name' := ha.name
      exact .cons ha.value ha.text ih

/-- Related arguments have the same names. -/
lemma ArgsRel.names {as as' : ArgList} (h : ArgsRel W n as as') :
    as.map Arg.name = as'.map Arg.name := by
  rw [← List.forall₂_eq_eq_eq, List.forall₂_map_left_iff, List.forall₂_map_right_iff]
  exact (argsRel_iff.1 h).imp fun _ _ ha => ha.name

/-! ## What all values in lists have in common -/

namespace ValueRel

variable {v v' w w' : Value}

lemma length (h : ValueRel W n v v') : v.length = v'.length := by
  cases h with
  | vector h => exact h.length
  | dots _ h => exact h.length
  | _ => rfl

/-- Something that is read off a value: of a vector with one value, from that value, and of anything
but closures, vectors and arguments, from the value itself. -/
lemma read {α : Type} {f : Value → Except EvalError α}
    (hone : ∀ v, f (.vector [v]) = f v)
    (hmany : ∀ vs vs', vs.length ≠ 1 → vs'.length ≠ 1 → f (.vector vs) = f (.vector vs'))
    (hclosure : ∀ u env u' env', f (.closure u env) = f (.closure u' env'))
    (hdots : ∀ as as', f (.dots as) = f (.dots as'))
    : ∀ {v v' : Value}, ValueRel W n v v' → f v = f v'
  | _, _, .vector .nil => rfl
  | _, _, .vector (.cons h .nil) => by
    rw [hone, hone]
    exact h.read hone hmany hclosure hdots
  | _, _, .vector (.cons _ (.cons _ _)) => hmany _ _ (by simp) (by simp)
  | _, _, .closure _ _ => hclosure _ _ _ _
  | _, _, .dots _ _ => hdots _ _
  | _, _, .null | _, _, .logical _ | _, _, .int _ | _, _, .double _ | _, _, .str _
  | _, _, .symbol _ | _, _, .language _ | _, _, .promise _ _ | _, _, .builtin _
  | _, _, .special _ => rfl

end ValueRel

/-! ## Numbers and truth values -/

namespace Value

/-- What is wrong with a value as an integer is no defect. -/
lemma asInt_error (context : String) (v : Value) {e : EvalError}
    (h : v.asInt context = .error e) : ¬ e.IsInternal := by
  fun_induction Value.asInt context v with
  | case1 => cases h
  | case2 => cases h
  | case3 => cases h
  | case4 => cases h; exact id
  | case5 v ih => exact ih h
  | case6 => cases h; exact id

/-- What is wrong with a value as a double is no defect. -/
lemma asDouble_error (context : String) (v : Value) {e : EvalError}
    (h : v.asDouble context = .error e) : ¬ e.IsInternal := by
  fun_induction Value.asDouble context v with
  | case1 => cases h
  | case2 => cases h
  | case3 => cases h
  | case4 v ih => exact ih h
  | case5 => cases h; exact id

/-- What is wrong with a value as a condition is no defect. -/
lemma truthy_error (v : Value) {e : EvalError} (h : v.truthy = .error e) : ¬ e.IsInternal := by
  fun_induction Value.truthy v with
  | case1 => cases h
  | case2 => cases h
  | case3 => cases h; exact id
  | case4 => cases h
  | case5 v _ ih => exact ih h
  | case6 => cases h; exact id

/-- What is wrong with a value as a number is no defect. -/
lemma numeric_error (function : String) (v : Value) {e : EvalError}
    (h : v.numeric function = .error e) : ¬ e.IsInternal := by
  fun_induction Value.numeric function v with
  | case1 => cases h
  | case2 => cases h
  | case3 => cases h
  | case4 v ih => exact ih h
  | case5 => cases h; exact id

/-- A vector is a number only if it holds one value. -/
lemma numeric_vector {function : String} {vs : List Value} (h : vs.length ≠ 1) :
    Value.numeric function (.vector vs) = .error (.argumentType
      ("non-numeric argument to `" ++ function ++ "`") "numeric" "list") := by
  cases vs with
  | nil => rfl
  | cons v vs =>
    cases vs with
    | nil => simp at h
    | cons => rfl

/-- A vector is an integer only if it holds one value. -/
lemma asInt_vector {context : String} {vs : List Value} (h : vs.length ≠ 1) :
    Value.asInt context (.vector vs) = .error (.argumentType context "integer" "list") := by
  cases vs with
  | nil => rfl
  | cons v vs =>
    cases vs with
    | nil => simp at h
    | cons => rfl

/-- A vector is a double only if it holds one value. -/
lemma asDouble_vector {context : String} {vs : List Value} (h : vs.length ≠ 1) :
    Value.asDouble context (.vector vs) = .error (.argumentType context "numeric" "list") := by
  cases vs with
  | nil => rfl
  | cons v vs =>
    cases vs with
    | nil => simp at h
    | cons => rfl

end Value

namespace ValueRel

variable {v v' w w' : Value}

/-- The same integer. -/
lemma asInt (h : ValueRel W n v v') (context : String) :
    Says Eq (v.asInt context) (v'.asInt context) := by
  refine .of_eq (h.read ?_ ?_ ?_ ?_) fun e => Value.asInt_error context v
  · exact fun _ => rfl
  · intro vs vs' hvs hvs'
    rw [Value.asInt_vector hvs, Value.asInt_vector hvs']
  · exact fun _ _ _ _ => rfl
  · exact fun _ _ => rfl

/-- The same double. -/
lemma asDouble (h : ValueRel W n v v') (context : String) :
    Says Eq (v.asDouble context) (v'.asDouble context) := by
  refine .of_eq (h.read ?_ ?_ ?_ ?_) fun e => Value.asDouble_error context v
  · exact fun _ => rfl
  · intro vs vs' hvs hvs'
    rw [Value.asDouble_vector hvs, Value.asDouble_vector hvs']
  · exact fun _ _ _ _ => rfl
  · exact fun _ _ => rfl

/-- The same number. -/
lemma numeric (h : ValueRel W n v v') (function : String) :
    Says Eq (v.numeric function) (v'.numeric function) := by
  refine .of_eq (h.read ?_ ?_ ?_ ?_) fun e => Value.numeric_error function v
  · exact fun _ => rfl
  · intro vs vs' hvs hvs'
    rw [Value.numeric_vector hvs, Value.numeric_vector hvs']
  · exact fun _ _ _ _ => rfl
  · exact fun _ _ => rfl

lemma truthy_eq : ∀ {v v' : Value}, ValueRel W n v v' → v.truthy = v'.truthy
  | _, _, .vector (.cons h _) => by
    simp only [Value.truthy]
    exact h.truthy_eq
  | _, _, .vector .nil => rfl
  | _, _, .closure _ _ | _, _, .dots _ _ | _, _, .null | _, _, .logical _ | _, _, .int _
  | _, _, .double _ | _, _, .str _ | _, _, .symbol _ | _, _, .language _ | _, _, .promise _ _
  | _, _, .builtin _ | _, _, .special _ => rfl

/-- The same condition. -/
lemma truthy (h : ValueRel W n v v') : Says Eq v.truthy v'.truthy :=
  .of_eq h.truthy_eq fun _ => Value.truthy_error v

/-- The same comparison. -/
lemma atLeast (h : ValueRel W n v v') (h' : ValueRel W n w w') :
    Says Eq (v.atLeast w) (v'.atLeast w') := by
  have hdoubles : Says Eq (do
        let y ← w.asDouble ">="
        let x ← v.asDouble ">="
        return decide (x ≥ y)) (do
        let y ← w'.asDouble ">="
        let x ← v'.asDouble ">="
        return decide (x ≥ y)) := by
    refine (h'.asDouble ">=").bind fun y _ hy => (h.asDouble ">=").bind fun x _ hx => ?_
    rw [hy, hx]
    exact .ok rfl
  cases h <;> cases h' <;> first | exact .ok rfl | exact hdoubles

/-- Related elements. -/
lemma elementAt (h : ValueRel W n v v') (index : Int32) :
    Says (ValueRel W n) (v.elementAt index) (v'.elementAt index) := by
  have hout : Says (ValueRel W n) (.error Value.outOfBounds) (.error Value.outOfBounds) :=
    .error id
  unfold Value.elementAt
  by_cases hneg : index < 0
  · simp only [if_pos hneg]
    exact hout
  · simp only [if_neg hneg]
    cases h with
    | vector h =>
      have hrel := valuesRel_iff.1 h
      dsimp only
      rename_i vs vs'
      have hget := forall₂_getElem? hrel index.toInt.toNat
      revert hget
      generalize vs[index.toInt.toNat]? = x
      generalize vs'[index.toInt.toNat]? = y
      intro hget
      cases hget with
      | none => exact hout
      | some h => exact .ok h
    | null => exact hout
    | _ =>
      dsimp only
      split
      · refine .ok ?_
        constructor <;> assumption
      · exact hout

/-- Going on with an element. -/
lemma element_rel (h : ValueRel W n v v') (index : Int32) :
    EvalRel W n (ValueRel W) (Eval.ofExcept (v.elementAt index))
      fun _ => Eval.ofExcept (v'.elementAt index) :=
  .ofExcept ((h.elementAt index).weaken fun _ _ h _ hm => h.mono hm)

end ValueRel

/-! ## Builtins -/

namespace Builtin

variable {a a' b b' : Value} {vs vs' : List Value}

/-- A number is related to itself. -/
lemma toValue_rel (x : Numeric) : ValueRel W n x.toValue x.toValue := by
  cases x <;> constructor

lemma exact_related (function : String) (i : Int) : Says Eq (exact function i) (exact function i) := by
  unfold exact
  cases Value.int32? i with
  | some k => exact .ok rfl
  | none => exact .error id

lemma arithmetic_related (ha : ValueRel W n a a') (hb : ValueRel W n b b') (function : String)
    (ints : Int → Int → Int) (doubles : Float → Float → Float) :
    Says (ValueRel W n) (arithmetic function ints doubles a b)
      (arithmetic function ints doubles a' b') := by
  refine (ha.numeric function).bind fun x _ hx => (hb.numeric function).bind fun y _ hy => ?_
  subst hx hy
  cases x with
  | double x => cases y <;> exact .ok (.double _)
  | int x =>
    cases y with
    | double y => exact .ok (.double _)
    | int y =>
      refine (exact_related function _).bind fun k _ hk => ?_
      subst hk
      exact .ok (toValue_rel k)

lemma onDoubles_related (ha : ValueRel W n a a') (hb : ValueRel W n b b') (function : String)
    {op : Float → Float → Value} (hop : ∀ x y, ValueRel W n (op x y) (op x y)) :
    Says (ValueRel W n) (onDoubles function op a b) (onDoubles function op a' b') := by
  refine (ha.numeric function).bind fun x _ hx => (hb.numeric function).bind fun y _ hy => ?_
  subst hx hy
  exact .ok (hop _ _)

lemma negate_related (ha : ValueRel W n a a') : Says (ValueRel W n) (negate a) (negate a') := by
  refine (ha.numeric "-").bind fun x _ hx => ?_
  subst hx
  cases x with
  | double x => exact .ok (.double _)
  | int x =>
    refine (exact_related "-" _).bind fun k _ hk => ?_
    subst hk
    exact .ok (toValue_rel k)

lemma equality_related (ha : ValueRel W n a a') (hb : ValueRel W n b b') :
    Says (ValueRel W n) (equality a b) (equality a' b') := by
  have hdoubles := onDoubles_related ha hb "==" fun x y => .logical (x == y)
  cases ha with
  | str s =>
    cases hb with
    | str t => exact .ok (.logical _)
    | _ => exact hdoubles
  | _ => exact hdoubles

/-! ### Sums -/

mutual

lemma addends_rel : ∀ {v v' : Value}, ValueRel W n v v' → ValuesRel W n (addends v) (addends v')
  | _, _, .null => .nil
  | _, _, .vector h => addendsOf_rel h
  | _, _, .logical b => .cons (.logical b) .nil
  | _, _, .int i => .cons (.int i) .nil
  | _, _, .double x => .cons (.double x) .nil
  | _, _, .str s => .cons (.str s) .nil
  | _, _, .symbol s => .cons (.symbol s) .nil
  | _, _, .language e => .cons (.language e) .nil
  | _, _, .promise hp p => .cons (.promise hp p) .nil
  | _, _, .closure hf he => .cons (.closure hf he) .nil
  | _, _, .builtin b => .cons (.builtin b) .nil
  | _, _, .special h => .cons (.special h) .nil
  | _, _, .dots hp h => .cons (.dots hp h) .nil

lemma addendsOf_rel :
    ∀ {vs vs' : List Value}, ValuesRel W n vs vs' → ValuesRel W n (addendsOf vs) (addendsOf vs')
  | _, _, .nil => .nil
  | _, _, .cons h hs => (addends_rel h).append (addendsOf_rel hs)

end

lemma addTo_related (total : Numeric) (ha : ValueRel W n a a') :
    Says Eq (addTo total a) (addTo total a') := by
  refine (ha.numeric "sum").bind fun x _ hx => ?_
  subst hx
  cases total with
  | double t => exact .ok rfl
  | int t =>
    cases x with
    | double x => exact .ok rfl
    | int x => exact exact_related "sum" _

lemma sumOf_related (h : ValuesRel W n vs vs') : Says (ValueRel W n) (sumOf vs) (sumOf vs') := by
  have hfold : ∀ {ws ws' : List Value}, ValuesRel W n ws ws' → ∀ total : Numeric,
      Says Eq (ws.foldlM addTo total) (ws'.foldlM addTo total) := by
    intro ws
    induction ws with
    | nil =>
      intro ws' hws total
      cases hws
      exact .ok rfl
    | cons w ws ih =>
      intro ws' hws total
      cases hws with
      | cons hw hws =>
        refine (addTo_related total hw).bind fun t _ ht => ?_
        subst ht
        exact ih hws t
  refine (hfold (addendsOf_rel h) (.int 0)).bind fun t _ ht => ?_
  subst ht
  exact .ok (toValue_rel t)

/-! ### Vectors and texts -/

lemma contribution_rel (h : ValueRel W n a a') :
    ValuesRel W n (contribution a) (contribution a') := by
  cases h with
  | null => exact .nil
  | vector h => exact h
  | _ => exact .cons (by constructor <;> assumption) .nil

lemma contributions_rel (h : ValuesRel W n vs vs') :
    ValuesRel W n (vs.flatMap contribution) (vs'.flatMap contribution) := by
  induction vs generalizing vs' with
  | nil => cases h; exact .nil
  | cons v vs ih =>
    cases h with
    | cons hv hs =>
      rw [List.flatMap_cons, List.flatMap_cons]
      exact (contribution_rel hv).append (ih hs)

lemma concatenation_rel (h : ValuesRel W n vs vs') :
    ValueRel W n (concatenation vs) (concatenation vs') := by
  have hs := contributions_rel h
  unfold concatenation
  revert hs
  generalize vs.flatMap contribution = ws
  generalize vs'.flatMap contribution = ws'
  intro hs
  cases hs with
  | nil => exact .null
  | cons hv hs => exact .vector (.cons hv hs)

lemma pasted_related (h : ValueRel W n a a') : Says Eq (pasted a) (pasted a') := by
  cases h <;> first | exact .ok rfl | exact .error id

/-- The values that have a name of some kind. -/
lemma selected_rel (p : Option Symbol → Bool) (names : List (Option Symbol))
    (h : ValuesRel W n vs vs') :
    ValuesRel W n
      ((names.zip vs).filterMap fun x => if p x.1 then some x.2 else none)
      ((names.zip vs').filterMap fun x => if p x.1 then some x.2 else none) := by
  induction names generalizing vs vs' with
  | nil => exact .nil
  | cons name names ih =>
    cases h with
    | nil => exact .nil
    | cons hv hs =>
      rw [List.zip_cons_cons, List.zip_cons_cons, List.filterMap_cons, List.filterMap_cons]
      cases p name with
      | true => exact .cons hv (ih hs)
      | false => exact ih hs

lemma separator_related (names : List (Option Symbol)) (h : ValuesRel W n vs vs') :
    Says Eq (separator names vs) (separator names vs') := by
  induction names generalizing vs vs' with
  | nil => exact .ok rfl
  | cons name names ih =>
    cases h with
    | nil => exact .ok rfl
    | cons hv hs =>
      have hrest := ih hs
      unfold separator at hrest ⊢
      rw [List.zip_cons_cons, List.zip_cons_cons, List.find?_cons, List.find?_cons]
      by_cases hname : name = some ⟨"sep"⟩
      · simp only [hname, decide_true]
        cases hv <;> first | exact .ok rfl | exact .error id
      · simp only [hname, decide_false]
        exact hrest

lemma pasteOf_related (names : List (Option Symbol)) (h : ValuesRel W n vs vs') :
    Says (ValueRel W n) (pasteOf names vs) (pasteOf names vs') := by
  have htexts : ∀ {ws ws' : List Value}, ValuesRel W n ws ws' →
      Says Eq (ws.mapM pasted) (ws'.mapM pasted) := by
    intro ws
    induction ws with
    | nil =>
      intro ws' hws
      cases hws
      exact .ok rfl
    | cons w ws ih =>
      intro ws' hws
      cases hws with
      | cons hw hws =>
        rw [List.mapM_cons, List.mapM_cons]
        refine (pasted_related hw).bind fun t _ ht => (ih hws).bind fun ts _ hts => ?_
        subst ht hts
        exact .ok rfl
  refine (separator_related names h).bind fun sep _ hsep => ?_
  refine (htexts (contributions_rel (selected_rel Option.isNone names h))).bind fun ts _ hts => ?_
  subst hsep hts
  exact .ok (.str _)

lemma elementOf_answers (ha : ValueRel W n a a') (hb : ValueRel W n b b') :
    Answers Halt.IsInternal (ValueRel W n) (elementOf a b) (elementOf a' b') := by
  refine (hb.asInt "subscript").halts.bind fun i _ hi => ?_
  subst hi
  cases Value.int32? (i.toInt - 1) with
  | some k => exact (ha.elementAt k).halts
  | none => exact .error id

lemma lengthOf_related (ha : ValueRel W n a a') : Says Eq (lengthOf a) (lengthOf a') := by
  unfold lengthOf
  rw [ha.length]
  cases Value.int32? a'.length with
  | some k => exact .ok rfl
  | none => exact .error id

/-! ### Invocation -/

/-- Results that only depend on two values, when there are two. -/
lemma binary_answers {F F' : List Value → Except Halt Value} (h : ValuesRel W n vs vs')
    (hother : ∀ vs vs', vs.length = vs'.length → vs.length ≠ 2 →
      Answers Halt.IsInternal (ValueRel W n) (F vs) (F' vs'))
    (htwo : ∀ a a' b b', ValueRel W n a a' → ValueRel W n b b' →
      Answers Halt.IsInternal (ValueRel W n) (F [a, b]) (F' [a', b'])) :
    Answers Halt.IsInternal (ValueRel W n) (F vs) (F' vs') := by
  have hlen := h.length
  match h with
  | .nil => exact hother _ _ rfl (by simp)
  | .cons _ .nil => exact hother _ _ rfl (by simp)
  | .cons ha (.cons hb .nil) => exact htwo _ _ _ _ ha hb
  | .cons _ (.cons _ (.cons _ hs)) => exact hother _ _ hlen (by simp)

/-- Results that only depend on one value, when there is one. -/
lemma unary_answers {F F' : List Value → Except Halt Value} (h : ValuesRel W n vs vs')
    (hother : ∀ vs vs', vs.length = vs'.length → vs.length ≠ 1 →
      Answers Halt.IsInternal (ValueRel W n) (F vs) (F' vs'))
    (hone : ∀ a a', ValueRel W n a a' →
      Answers Halt.IsInternal (ValueRel W n) (F [a]) (F' [a'])) :
    Answers Halt.IsInternal (ValueRel W n) (F vs) (F' vs') := by
  have hlen := h.length
  match h with
  | .nil => exact hother _ _ rfl (by simp)
  | .cons ha .nil => exact hone _ _ ha
  | .cons _ (.cons _ hs) => exact hother _ _ hlen (by simp)

/-- A builtin of two values takes no other number of them. -/
lemma apply_of_length_ne_two {f : Builtin} (hf : f.arity? = some (2, 2)) (call : Call)
    (names : List (Option Symbol)) (h : vs.length ≠ 2) :
    f.apply call names vs = .error (.error (f.arityError call vs.length)) := by
  match vs with
  | [] => cases f <;> first | rfl | cases hf
  | [_] => cases f <;> first | rfl | cases hf
  | [_, _] => exact absurd rfl h
  | _ :: _ :: _ :: _ => cases f <;> first | rfl | cases hf

/-- A builtin of one value takes no other number of them. -/
lemma apply_of_length_ne_one {f : Builtin} (hf : f.arity? = some (1, 1)) (call : Call)
    (names : List (Option Symbol)) (h : vs.length ≠ 1) :
    f.apply call names vs = .error (.error (f.arityError call vs.length)) := by
  match vs with
  | [] => cases f <;> first | rfl | cases hf
  | [_] => exact absurd rfl h
  | _ :: _ :: _ => cases f <;> first | rfl | cases hf

/-- A builtin computes related results from related values. -/
theorem apply_answers (f : Builtin) (call : Call) (names : List (Option Symbol))
    (h : ValuesRel W n vs vs') :
    Answers Halt.IsInternal (ValueRel W n) (f.apply call names vs) (f.apply call names vs') := by
  have harity : ∀ (f : Builtin) {vs vs' : List Value}, vs.length = vs'.length →
      Answers Halt.IsInternal (ValueRel W n)
        (.error (.error (f.arityError call vs.length)))
        (.error (.error (f.arityError call vs'.length))) := by
    intro f vs vs' hlen
    rw [hlen]
    exact .error id
  have hone : ∀ {f : Builtin}, f.arity? = some (1, 1) →
      (∀ a a', ValueRel W n a a' → Answers Halt.IsInternal (ValueRel W n)
        (f.apply call names [a]) (f.apply call names [a'])) →
      Answers Halt.IsInternal (ValueRel W n) (f.apply call names vs) (f.apply call names vs') := by
    intro f hf hvalue
    refine unary_answers h (fun vs vs' hlen hne => ?_) hvalue
    rw [apply_of_length_ne_one hf _ _ hne, apply_of_length_ne_one hf _ _ (hlen ▸ hne)]
    exact harity f hlen
  have htwo : ∀ {f : Builtin}, f.arity? = some (2, 2) →
      (∀ a a' b b', ValueRel W n a a' → ValueRel W n b b' →
        Answers Halt.IsInternal (ValueRel W n) (f.apply call names [a, b])
          (f.apply call names [a', b'])) →
      Answers Halt.IsInternal (ValueRel W n) (f.apply call names vs) (f.apply call names vs') := by
    intro f hf hvalues
    refine binary_answers h (fun vs vs' hlen hne => ?_) hvalues
    rw [apply_of_length_ne_two hf _ _ hne, apply_of_length_ne_two hf _ _ (hlen ▸ hne)]
    exact harity f hlen
  have hlen := h.length
  cases f with
  | sum => exact (sumOf_related h).halts
  | concat => exact .ok (concatenation_rel h)
  | list => exact .ok (.vector h)
  | paste => exact (pasteOf_related names h).halts
  | add =>
    match h with
    | .nil => exact harity .add rfl
    | .cons ha .nil => exact .ok ha
    | .cons ha (.cons hb .nil) => exact (arithmetic_related ha hb "+" _ _).halts
    | .cons _ (.cons _ (.cons _ _)) => exact harity .add hlen
  | sub =>
    match h with
    | .nil => exact harity .sub rfl
    | .cons ha .nil => exact (negate_related ha).halts
    | .cons ha (.cons hb .nil) => exact (arithmetic_related ha hb "-" _ _).halts
    | .cons _ (.cons _ (.cons _ _)) => exact harity .sub hlen
  | mul => exact htwo rfl fun _ _ _ _ ha hb => (arithmetic_related ha hb "*" _ _).halts
  | div => exact htwo rfl fun _ _ _ _ ha hb => (onDoubles_related ha hb "/" fun _ _ => .double _).halts
  | atLeast =>
    exact htwo rfl fun _ _ _ _ ha hb => (onDoubles_related ha hb ">=" fun _ _ => .logical _).halts
  | less =>
    exact htwo rfl fun _ _ _ _ ha hb => (onDoubles_related ha hb "<" fun _ _ => .logical _).halts
  | equal => exact htwo rfl fun _ _ _ _ ha hb => (equality_related ha hb).halts
  | element => exact htwo rfl fun _ _ _ _ ha hb => elementOf_answers ha hb
  | «not» =>
    refine hone rfl fun _ _ ha => (ha.truthy.map fun t t' ht => ?_).halts
    rw [ht]
    exact .logical _
  | length =>
    refine hone rfl fun _ _ ha => ((lengthOf_related ha).map fun k k' hk => ?_).halts
    rw [hk]
    exact .int _
  | identity => exact hone rfl fun _ _ ha => .ok ha

/-- A call of a builtin with related values, as many as there are names. -/
theorem invoke_answers (f : Builtin) (call : Call) {names : List (Option Symbol)}
    (h : ValuesRel W n vs vs') (hnames : names.length = vs.length) :
    Answers Halt.IsInternal (ValueRel W n) (f.invoke call names vs) (f.invoke call names vs') := by
  unfold invoke
  rw [if_pos hnames, if_pos (hnames.trans h.length)]
  exact f.apply_answers call names h

end Builtin

end CallByNeed
