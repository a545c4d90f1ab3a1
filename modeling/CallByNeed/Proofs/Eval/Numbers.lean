import CallByNeed.Proofs.Plain.Values
import Mathlib.Data.List.Infix

/-!
# Sums and subscripts at the limits of integers

A sum adds up integers exactly, and stops at the first total that has more than 32 bits: what comes
behind makes no difference, be it a double or a number that would bring the total back
(`Builtin.sumOf_numbers`). A position in a vector counts from one and is taken down by one before it
is looked at, so that the least integer breaks the evaluation off and every other integer gives an
element or is out of bounds (`Builtin.elementOf_cases`).
-/

namespace CallByNeed

/-! ## Integers of 32 bits -/

namespace Value

/-- The integer has 32 bits. -/
def InRange (i : Int) : Prop := Int32.minValue.toInt ≤ i ∧ i ≤ Int32.maxValue.toInt

/-- An integer of 32 bits is kept. -/
lemma int32?_of_inRange {i : Int} (h : InRange i) :
    ∃ n : Int32, int32? i = some n ∧ n.toInt = i := by
  have hleast : Int32.minValue.toInt = -2147483648 := by decide
  have hgreatest : Int32.maxValue.toInt = 2147483647 := by decide
  obtain ⟨hlow, hhigh⟩ := h
  exact ⟨Int32.ofInt i, if_pos ⟨hlow, hhigh⟩, Int32.toInt_ofInt_of_le (by omega) (by omega)⟩

/-- An integer of more than 32 bits is not. -/
lemma int32?_of_not_inRange {i : Int} (h : ¬ InRange i) : int32? i = none := if_neg h

/-- Integers of 32 bits are in range. -/
lemma inRange_toInt (n : Int32) : InRange n.toInt :=
  ⟨Int32.minValue_le_toInt n, Int32.toInt_le n⟩

end Value

/-! ## Sums -/

namespace Numeric

/-- The integers in front of the first double. -/
def leading : List Numeric → List Int
  | .int n :: xs => n.toInt :: leading xs
  | _ => []

/-- The numbers from the first double on. -/
def trailing : List Numeric → List Numeric
  | .int _ :: xs => trailing xs
  | xs => xs

/-- The number that is the total of integers and of numbers from the first double on. -/
def total (t : Int32) : List Numeric → Numeric
  | [] => .int t
  | xs => .double (xs.foldl (fun d x => d + x.toDouble) (Value.doubleOfInt t))

end Numeric

namespace Builtin

open Numeric

/-- One more number. -/
def plus (total x : Numeric) : Except EvalError Numeric :=
  match total, x with
  | .int a, .int b => exact "sum" (a.toInt + b.toInt)
  | total, x => .ok (.double (total.toDouble + x.toDouble))

/-- Adding a value adds the number that it is. -/
lemma addTo_eq {v : Value} {x : Numeric} (h : v.numeric "sum" = .ok x) (total : Numeric) :
    addTo total v = plus total x := by
  unfold addTo
  rw [h]
  cases total <;> cases x <;> rfl

/-- Adding values adds the numbers that they are. -/
lemma foldlM_addTo {vs : List Value} {xs : List Numeric}
    (h : vs.mapM (Value.numeric "sum") = .ok xs) (total : Numeric) :
    vs.foldlM addTo total = xs.foldlM plus total := by
  induction vs generalizing xs total with
  | nil =>
    cases h
    rfl
  | cons v vs ih =>
    rw [List.mapM_cons] at h
    obtain ⟨x, hx, h⟩ := bind_eq_ok h
    obtain ⟨rest, hrest, h⟩ := bind_eq_ok h
    cases h
    rw [List.foldlM_cons, List.foldlM_cons, addTo_eq hx]
    exact bind_congr fun total => ih hrest total

/-- From the first double on, the total is a double. -/
lemma foldlM_plus_double (xs : List Numeric) (d : Float) :
    xs.foldlM plus (.double d) = .ok (.double (xs.foldl (fun d x => d + x.toDouble) d)) := by
  induction xs generalizing d with
  | nil => rfl
  | cons x xs ih => exact ih (d + x.toDouble)

/-- The totals of integers that lead are exact up to the first one out of range. -/
lemma foldlM_plus_int (xs : List Numeric) (a : Int32) :
    ((∃ pre, pre <+: leading xs ∧ ¬ Value.InRange (pre.foldl (· + ·) a.toInt)) ∧
        xs.foldlM plus (.int a) = .error (.primitive "sum" .integerOverflow)) ∨
      (∀ pre, pre <+: leading xs → Value.InRange (pre.foldl (· + ·) a.toInt)) ∧
        ∃ t : Int32, t.toInt = (leading xs).foldl (· + ·) a.toInt ∧
          xs.foldlM plus (.int a) = .ok (total t (trailing xs)) := by
  induction xs generalizing a with
  | nil =>
    refine .inr ⟨fun pre hpre => ?_, a, rfl, rfl⟩
    rw [List.prefix_nil.1 hpre]
    exact Value.inRange_toInt a
  | cons x xs ih =>
    cases x with
    | double d =>
      refine .inr ⟨fun pre hpre => ?_, a, rfl, foldlM_plus_double xs _⟩
      rw [List.prefix_nil.1 hpre]
      exact Value.inRange_toInt a
    | int b =>
      by_cases hsum : Value.InRange (a.toInt + b.toInt)
      · obtain ⟨c, hc, hcint⟩ := Value.int32?_of_inRange hsum
        have hstep : (Numeric.int b :: xs).foldlM plus (.int a) = xs.foldlM plus (.int c) := by
          rw [List.foldlM_cons, plus, exact, hc]
          rfl
        rw [hstep]
        -- a running total is that of the first integer, or one behind it
        rcases ih c with ⟨⟨pre, hpre, hout⟩, h⟩ | ⟨hall, t, ht, h⟩
        · refine .inl ⟨⟨b.toInt :: pre, List.cons_prefix_cons.2 ⟨rfl, hpre⟩, ?_⟩, h⟩
          rwa [List.foldl_cons, ← hcint]
        · refine .inr ⟨fun pre hpre => ?_, t, ?_, h⟩
          · rcases List.prefix_cons_iff.1 hpre with rfl | ⟨rest, rfl, hrest⟩
            · exact Value.inRange_toInt a
            · rw [List.foldl_cons, ← hcint]
              exact hall rest hrest
          · rw [ht, leading, List.foldl_cons, hcint]
      · refine .inl ⟨⟨[b.toInt], ?_, hsum⟩, ?_⟩
        · exact List.cons_prefix_cons.2 ⟨rfl, List.nil_prefix⟩
        · rw [List.foldlM_cons, plus, exact, Value.int32?_of_not_inRange hsum]
          rfl

/-- **What a sum of numbers is.** Let all that values add to a sum be numbers. If a running total of
the integers in front of the first double is out of range, the sum overflows; else it is the exact
total of all numbers if none of them is a double, and the double that they add up to if one is. -/
theorem sumOf_numbers {values : List Value} {xs : List Numeric}
    (h : (addendsOf values).mapM (Value.numeric "sum") = .ok xs) :
    ((∃ pre, pre <+: leading xs ∧ ¬ Value.InRange (pre.foldl (· + ·) 0)) ∧
        sumOf values = .error (.primitive "sum" .integerOverflow)) ∨
      (∀ pre, pre <+: leading xs → Value.InRange (pre.foldl (· + ·) 0)) ∧
        ∃ t : Int32, t.toInt = (leading xs).foldl (· + ·) 0 ∧
          sumOf values = .ok (total t (trailing xs)).toValue := by
  unfold sumOf
  rw [foldlM_addTo h]
  rcases foldlM_plus_int xs 0 with ⟨hout, hsum⟩ | ⟨hall, t, ht, hsum⟩
  · refine .inl ⟨hout, ?_⟩
    rw [hsum]
    rfl
  · refine .inr ⟨hall, t, ht, ?_⟩
    rw [hsum]
    rfl

/-- The order of numbers matters: a double in front keeps integers from overflowing, behind them it
comes too late, and so does a number that would bring their total back. -/
theorem sumOf_order (x : Float) :
    sumOf [.int Int32.maxValue, .int 1, .double x] = .error (.primitive "sum" .integerOverflow) ∧
      sumOf [.int Int32.maxValue, .int 1, .int (-1)] = .error (.primitive "sum" .integerOverflow) ∧
      (∃ d, sumOf [.double x, .int Int32.maxValue, .int 1] = .ok (.double d)) ∧
      sumOf [.int Int32.maxValue, .int (-1), .int 1] = .ok (.int Int32.maxValue) :=
  ⟨rfl, rfl, ⟨_, rfl⟩, rfl⟩

/-! ## Subscripts -/

/-- What the search for an element gives. -/
def found : Option Value → Except EvalError Value
  | some x => .ok x
  | none => .error Value.outOfBounds

/-- The element among several at a position from zero. -/
def pick (values : List Value) (i : Int) : Except EvalError Value :=
  found (if 0 ≤ i then values[i.toNat]? else none)

variable {values : List Value} {i : Int}

lemma pick_of_lt (h : 0 ≤ i) (hi : i.toNat < values.length) :
    pick values i = .ok values[i.toNat] := by
  rw [pick, if_pos h, List.getElem?_eq_getElem hi, found]

/-- In front of the first element and behind the last one there is none. -/
lemma pick_of_out (h : i < 0 ∨ values.length ≤ i) :
    pick values i = .error Value.outOfBounds := by
  have hnone : (if 0 ≤ i then values[i.toNat]? else none) = none := by
    split
    · exact List.getElem?_eq_none (by omega)
    · rfl
  rw [pick, hnone, found]

/-- The element at a position from zero is the one among the elements. -/
lemma elementAt_eq (v : Value) (index : Int32) :
    v.elementAt index = pick (contribution v) index.toInt := by
  have hneg : index < 0 ↔ index.toInt < 0 := Int32.lt_iff_toInt_lt
  unfold Value.elementAt
  by_cases hindex : index < 0
  · rw [if_pos hindex, pick_of_out (.inl (hneg.1 hindex))]
  · have hpos : 0 ≤ index.toInt := by
      rw [hneg] at hindex
      omega
    have hscalar : ∀ x : Value, (if index = 0 then .ok x else .error Value.outOfBounds) =
        pick [x] index.toInt := by
      intro x
      by_cases hzero : index = 0
      · rw [if_pos hzero, hzero]
        rfl
      · have hne : index.toInt ≠ 0 := fun h => hzero (Int32.toInt_inj.1 h)
        rw [if_neg hzero, pick_of_out (.inr (by rw [List.length_singleton]; omega))]
    rw [if_neg hindex]
    cases v with
    | null => simp [pick, found, contribution]
    | vector values =>
      show _ = pick values index.toInt
      rw [pick, if_pos hpos]
      rfl
    | _ => exact hscalar _

/-- An element is looked for one position before the subscript, from zero; below the least integer
there is none. -/
lemma elementOf_eq {v subscript : Value} {n : Int32} (h : subscript.asInt "subscript" = .ok n) :
    elementOf v subscript =
      if n = Int32.minValue then .error .abort
      else (pick (contribution v) (n.toInt - 1)).mapError Halt.error := by
  have hleast : Int32.minValue.toInt = -2147483648 := by decide
  have hgreatest : Int32.maxValue.toInt = 2147483647 := by decide
  unfold elementOf
  rw [h]
  by_cases hn : n = Int32.minValue
  · rw [if_pos hn, hn]
    rfl
  · have hlow : n.toInt ≠ -2147483648 := fun h' => hn (Int32.toInt_inj.1 (h'.trans hleast.symm))
    have hrange : Value.InRange (n.toInt - 1) := by
      obtain ⟨hge, hle⟩ := Value.inRange_toInt n
      exact ⟨by omega, by omega⟩
    obtain ⟨index, hindex, hint⟩ := Value.int32?_of_inRange hrange
    rw [if_neg hn, ← hint, ← elementAt_eq]
    have hnarrow : (.ok n : Except EvalError Int32).mapError Halt.error = .ok n := rfl
    simp only [hnarrow, bind, Except.bind, hindex]

/-- A value has as many elements as its length says, unless it is a list of arguments. -/
lemma length_contribution {v : Value} (hv : ∀ args, v ≠ .dots args) :
    (contribution v).length = v.length := by
  cases v with
  | dots args => exact absurd rfl (hv args)
  | _ => rfl

/-- **What a subscript gives.** A position from one up to the length gives the element there, and
any other integer is out of bounds, except for the least one: that breaks the evaluation off. -/
theorem elementOf_cases {v subscript : Value} (hv : ∀ args, v ≠ .dots args) {n : Int32}
    (h : subscript.asInt "subscript" = .ok n) :
    (1 ≤ n.toInt → n.toInt ≤ v.length →
        ∃ x, (contribution v)[n.toInt.toNat - 1]? = some x ∧ elementOf v subscript = .ok x) ∧
      (¬ (1 ≤ n.toInt ∧ n.toInt ≤ v.length) → n ≠ Int32.minValue →
        elementOf v subscript = .error (.error Value.outOfBounds)) ∧
      (n = Int32.minValue → elementOf v subscript = .error .abort) := by
  have hlength := length_contribution hv
  rw [elementOf_eq h]
  refine ⟨fun hlow hhigh => ?_, fun hout hn => ?_, fun hn => if_pos hn⟩
  · have hn : n ≠ Int32.minValue := by
      rintro rfl
      exact absurd hlow (by decide)
    have hpos : n.toInt.toNat - 1 = (n.toInt - 1).toNat := by omega
    have hx : (n.toInt - 1).toNat < (contribution v).length := by omega
    refine ⟨(contribution v)[(n.toInt - 1).toNat], ?_, ?_⟩
    · rw [hpos, List.getElem?_eq_getElem hx]
    · rw [if_neg hn, pick_of_lt (by omega) hx]
      rfl
  · rw [if_neg hn, pick_of_out (by omega)]
    rfl

/-- The least integer is no position, and it is no error to ask for it either, while the integer
above it is out of bounds. -/
theorem elementOf_least (v : Value) :
    elementOf v (.int Int32.minValue) = .error .abort ∧
      elementOf v (.int (Int32.minValue + 1)) = .error (.error Value.outOfBounds) := by
  have hnext : (Int32.minValue + 1).toInt - 1 < 0 := by decide
  refine ⟨?_, ?_⟩
  · rw [elementOf_eq rfl, if_pos rfl]
  · rw [elementOf_eq rfl, if_neg (by decide), pick_of_out (.inl hnext)]
    rfl

end Builtin
end CallByNeed
