import CallByNeed.Json.Number
import CallByNeed.Json.Reader
import CallByNeed.Json.Writer
import Mathlib.Data.List.TakeDrop
import Mathlib.Data.List.TakeWhile
import Mathlib.Tactic.Common

/-!
# The leaves of a JSON text

What is written for a text or for a number is read back as that text or number, whatever follows it.

A text is closed by its quote, so that nothing needs to be known of what follows
(`readText?_escape`). A number ends where no character can belong to it any more (`Stops`). Its text
is legible if the reader takes all of it and finds the number that was written (`Number.Legible`);
integers always have legible texts (`legible_ofInt`). -/

namespace CallByNeed.Json

/-! ## Texts -/

/-- A hexadecimal digit has the value it was written for. -/
lemma hexValue?_hexDigit : ∀ n < 16, hexValue? (hexDigit n) = some n := by
  decide

/-- A control character is the unit that its escape names. -/
lemma ofUnit_control {c : Char} (h : c.toNat < 0x20) :
    Piece.ofUnit (((0 * 16 + 0) * 16 + c.toNat / 16) * 16 + c.toNat % 16) = .char c := by
  have hunit : ((0 * 16 + 0) * 16 + c.toNat / 16) * 16 + c.toNat % 16 = c.toNat := by omega
  rw [hunit, Piece.ofUnit, if_neg (by omega), Char.ofNat_toNat]

/-- An escaped character is read as one unit. -/
lemma readPieces?_escape (c : Char) (rest : List Char) (acc : List Piece) :
    readPieces? (escape c ++ rest) acc = readPieces? rest (.char c :: acc) := by
  unfold escape
  split_ifs with hquote hslash hb ht hn hf hr hcontrol
  · simp [hquote, readPieces?, escaped?]
  · simp [hslash, readPieces?, escaped?]
  · simp [hb, readPieces?, escaped?]
  · simp [ht, readPieces?, escaped?]
  · simp [hn, readPieces?, escaped?]
  · simp [hf, readPieces?, escaped?]
  · simp [hr, readPieces?, escaped?]
  · have hzero : hexValue? '0' = some 0 := rfl
    have hhigh := hexValue?_hexDigit (c.toNat / 16) (by omega)
    have hlow := hexValue?_hexDigit (c.toNat % 16) (by omega)
    simp only [List.cons_append, List.nil_append, readPieces?, hzero, hhigh, hlow,
      ofUnit_control hcontrol]
  · rw [List.singleton_append, readPieces?, if_neg hcontrol]
    · exact fun hc => hquote (by simpa using hc)
    · exact fun _ _ _ _ _ hc => (hslash hc).elim
    · exact fun _ _ hc => (hslash hc).elim

/-- The units of a text are its characters, and the closing quote is taken. -/
lemma readPieces?_escaped (cs rest : List Char) (acc : List Piece) :
    readPieces? (cs.flatMap escape ++ '"' :: rest) acc
      = some ((cs.map Piece.char).reverse ++ acc, rest) := by
  induction cs generalizing acc with
  | nil => simp [readPieces?]
  | cons c cs ih =>
    rw [List.flatMap_cons, List.append_assoc, readPieces?_escape, ih]
    simp

/-- Characters are no halves of pairs. -/
lemma joinHalves?_chars (cs acc : List Char) :
    joinHalves? (cs.map Piece.char) acc = some (cs.reverse ++ acc) := by
  induction cs generalizing acc with
  | nil => simp [joinHalves?]
  | cons c cs ih => simp [joinHalves?, ih]

/-- A text that was written is read back, up to its closing quote. -/
lemma readText?_escape (s : String) (rest : List Char) :
    readText? (s.toList.flatMap escape ++ '"' :: rest) = some (some s, rest) := by
  have hjoin := joinHalves?_chars s.toList.reverse []
  simp only [List.map_reverse, List.reverse_reverse, List.append_nil] at hjoin
  rw [readText?, readPieces?_escaped, Option.map_some, List.append_nil, hjoin, Option.map_some,
    String.ofList_toList]

/-! ## Where numbers end -/

/-- The character may go on a number. -/
def continuesNumber (c : Char) : Bool := c.isDigit || c = '.' || c = 'e' || c = 'E'

/-- No number goes on into this text. -/
def Stops (rest : List Char) : Prop := ∀ c ∈ rest.head?, continuesNumber c = false

lemma stops_cons {c : Char} {rest : List Char} (h : continuesNumber c = false) :
    Stops (c :: rest) := by
  intro d hd
  obtain rfl : c = d := by simpa using hd
  exact h

lemma stops_nil : Stops [] := by
  intro c hc
  simp at hc

/-- The characters of a class in front of a text do not reach into what follows it. -/
lemma span_append {p : Char → Bool} {rest : List Char} (hrest : ∀ c ∈ rest.head?, p c = false) :
    ∀ cs : List Char, (cs ++ rest).span p = ((cs.span p).1, (cs.span p).2 ++ rest)
  | [] => by
    cases rest with
    | nil => rfl
    | cons c rest => simp [List.span_eq_takeWhile_dropWhile, hrest c (by simp)]
  | c :: cs => by
    have ih := span_append hrest cs
    simp only [List.span_eq_takeWhile_dropWhile] at ih ⊢
    by_cases hc : p c = true
    · simpa [hc] using ih
    · simp [hc]

section

variable {rest cs r : List Char}

lemma Stops.digit (h : Stops rest) : ∀ c ∈ rest.head?, c.isDigit = false := by
  intro c hc
  have hcontinues := h c hc
  simp only [continuesNumber, Bool.or_eq_false_iff] at hcontinues
  exact hcontinues.1.1.1

lemma Stops.head_ne (h : Stops rest) {c : Char} (hc : continuesNumber c = true) :
    ∀ tail, rest ≠ c :: tail := by
  rintro tail rfl
  simp [h c (by simp)] at hc

/-- The whole part of a number does not reach into what follows the number. -/
lemma readWhole?_append (hrest : Stops rest) {whole : List Char}
    (h : readWhole? cs = some (whole, r)) : readWhole? (cs ++ rest) = some (whole, r ++ rest) := by
  unfold readWhole? at h ⊢
  rw [span_append hrest.digit]
  generalize cs.span Char.isDigit = digits at h ⊢
  obtain ⟨digits, left⟩ := digits
  cases digits with
  | nil => simp at h
  | cons c ds =>
    dsimp only at h ⊢
    split at h
    · simp at h
    · simp at h
    · rename_i hne hzero heq
      obtain ⟨rfl, rfl⟩ := Prod.mk.injEq .. ▸ Option.some.inj h
      split <;> simp_all

/-- Digits do not reach into what follows the number. -/
lemma digits_append (hrest : Stops rest) {digits : List Char}
    (h : cs.span Char.isDigit = (digits, r)) :
    (cs ++ rest).span Char.isDigit = (digits, r ++ rest) := by
  rw [span_append hrest.digit, h]

/-- Nor does its fraction. -/
lemma readFraction?_append (hrest : Stops rest) {fraction : List Char}
    (h : readFraction? cs = some (fraction, r)) :
    readFraction? (cs ++ rest) = some (fraction, r ++ rest) := by
  match cs with
  | [] =>
    obtain ⟨rfl, rfl⟩ : fraction = [] ∧ r = [] := by simpa [readFraction?, eq_comm] using h
    rw [List.nil_append, readFraction?]
    exact fun tail heq => hrest.head_ne rfl tail heq
  | c :: cs =>
    by_cases hc : c = '.'
    · subst hc
      rw [List.cons_append]
      simp only [readFraction?] at h ⊢
      generalize hspan : cs.span Char.isDigit = digits at h
      obtain ⟨digits, left⟩ := digits
      rw [digits_append hrest hspan]
      match digits with
      | [] => simp at h
      | d :: ds =>
        obtain ⟨rfl, rfl⟩ : d :: ds = fraction ∧ left = r := by simpa using h
        rfl
    · have hother : ∀ tail, readFraction? (c :: tail) = some ([], c :: tail) := by
        intro tail
        rw [readFraction?]
        exact fun _ heq => hc (List.cons.inj heq).1
      rw [hother] at h
      obtain ⟨rfl, rfl⟩ : fraction = [] ∧ r = c :: cs := by simpa [eq_comm] using h
      exact hother _

/-- The digits of an exponent, with its sign. -/
def exponentDigits? (negative : Bool) (input : List Char) :
    Option (Option (Bool × List Char) × List Char) :=
  match input.span Char.isDigit with
  | ([], _) => none
  | (digits, rest) => some (some (negative, digits), rest)

lemma exponentDigits?_append (hrest : Stops rest) {negative : Bool}
    {exponent : Option (Bool × List Char)} (h : exponentDigits? negative cs = some (exponent, r)) :
    exponentDigits? negative (cs ++ rest) = some (exponent, r ++ rest) := by
  unfold exponentDigits? at h ⊢
  generalize hspan : cs.span Char.isDigit = digits at h
  obtain ⟨digits, left⟩ := digits
  rw [digits_append hrest hspan]
  match digits with
  | [] => simp at h
  | d :: ds =>
    obtain ⟨rfl, rfl⟩ : some (negative, d :: ds) = exponent ∧ left = r := by simpa using h
    rfl

section

variable {c : Char} (hc : c = 'e' ∨ c = 'E')
include hc

lemma readExponent?_minus (tail : List Char) :
    readExponent? (c :: '-' :: tail) = exponentDigits? true tail := by
  unfold readExponent?
  exact if_pos (by simpa using hc)

lemma readExponent?_plus (tail : List Char) :
    readExponent? (c :: '+' :: tail) = exponentDigits? false tail := by
  unfold readExponent?
  exact if_pos (by simpa using hc)

lemma readExponent?_unsigned {d : Char} (hminus : d ≠ '-') (hplus : d ≠ '+') (tail : List Char) :
    readExponent? (c :: d :: tail) = exponentDigits? false (d :: tail) := by
  rw [readExponent?, if_pos (by simpa using hc)]
  · rfl
  · exact fun _ heq => hminus (List.cons.inj heq).1
  · exact fun _ heq => hplus (List.cons.inj heq).1

end

/-- Any other letter begins no exponent. -/
lemma readExponent?_other {c : Char} (hc : ¬ (c = 'e' ∨ c = 'E')) (tail : List Char) :
    readExponent? (c :: tail) = some (none, c :: tail) := by
  unfold readExponent?
  exact if_neg (by simpa using hc)

/-- Nor does its exponent. -/
lemma readExponent?_append (hrest : Stops rest) {exponent : Option (Bool × List Char)}
    (h : readExponent? cs = some (exponent, r)) :
    readExponent? (cs ++ rest) = some (exponent, r ++ rest) := by
  match cs with
  | [] =>
    obtain ⟨rfl, rfl⟩ : exponent = none ∧ r = [] := by simpa [readExponent?, eq_comm] using h
    match rest with
    | [] => rfl
    | c :: tail =>
      refine readExponent?_other (fun hc => ?_) tail
      rcases hc with rfl | rfl <;> exact hrest.head_ne rfl tail rfl
  | [c] =>
    by_cases hc : c = 'e' ∨ c = 'E'
    · rcases hc with rfl | rfl <;> simp [readExponent?, List.span_eq_takeWhile_dropWhile] at h
    · rw [readExponent?_other hc] at h
      obtain ⟨rfl, rfl⟩ : exponent = none ∧ r = [c] := by simpa [eq_comm] using h
      exact readExponent?_other hc _
  | c :: d :: cs =>
    by_cases hc : c = 'e' ∨ c = 'E'
    · by_cases hminus : d = '-'
      · subst hminus
        rw [readExponent?_minus hc] at h
        simpa only [List.cons_append, readExponent?_minus hc] using exponentDigits?_append hrest h
      by_cases hplus : d = '+'
      · subst hplus
        rw [readExponent?_plus hc] at h
        simpa only [List.cons_append, readExponent?_plus hc] using exponentDigits?_append hrest h
      rw [readExponent?_unsigned hc hminus hplus] at h
      simpa only [List.cons_append, readExponent?_unsigned hc hminus hplus]
        using exponentDigits?_append hrest h
    · rw [readExponent?_other hc] at h
      obtain ⟨rfl, rfl⟩ : exponent = none ∧ r = c :: d :: cs := by simpa [eq_comm] using h
      exact readExponent?_other hc _

/-- A number does not reach into what follows it. -/
lemma readNumber?_append (hrest : Stops rest) {n : Number} (h : readNumber? cs = some (n, r)) :
    readNumber? (cs ++ rest) = some (n, r ++ rest) := by
  have hmagnitude : ∀ {negative : Bool} {cs : List Char}, readMagnitude? negative cs = some (n, r) →
      readMagnitude? negative (cs ++ rest) = some (n, r ++ rest) := by
    intro negative cs h
    simp only [readMagnitude?, Option.bind_eq_bind, Option.bind_eq_some_iff, Prod.exists] at h ⊢
    obtain ⟨whole, r₁, hwhole, fraction, r₂, hfraction, exponent, r₃, hexponent, heq⟩ := h
    obtain ⟨rfl, rfl⟩ : _ = n ∧ r₃ = r := by simpa using heq
    exact ⟨whole, _, readWhole?_append hrest hwhole, fraction, _,
      readFraction?_append hrest hfraction, exponent, _, readExponent?_append hrest hexponent, rfl⟩
  match cs with
  | '-' :: cs => exact hmagnitude h
  | [] => simp [readNumber?, readMagnitude?, readWhole?, List.span_eq_takeWhile_dropWhile] at h
  | c :: cs =>
    by_cases hc : c = '-'
    · subst hc
      exact hmagnitude h
    · have hplain : ∀ tail, readNumber? (c :: tail) = readMagnitude? false (c :: tail) := by
        intro tail
        rw [readNumber?]
        exact fun _ heq => hc (List.cons.inj heq).1
      rw [hplain] at h
      rw [List.cons_append, hplain]
      exact hmagnitude h

end

/-! ## Legible numbers -/

namespace Number

/-- The text of the number is read as the number. -/
def Legible (n : Number) : Prop := readNumber? n.chars = some (n, [])

instance (n : Number) : Decidable n.Legible :=
  inferInstanceAs (Decidable (readNumber? n.chars = some (n, [])))

/-- It still is if no other number goes on behind it. -/
lemma Legible.append {n : Number} (h : n.Legible) {rest : List Char} (hrest : Stops rest) :
    readNumber? (n.chars ++ rest) = some (n, rest) :=
  readNumber?_append hrest h

/-- A double is written as a legible number, and the number stands for the double. -/
structure Returns (x : Float) : Prop where
  legible : (ofFloat x).Legible
  value : (ofFloat x).toFloat? = some x

end Number

/-- A number begins with a digit or a sign. -/
lemma head_of_readNumber? {cs : List Char} {p : Number × List Char} (h : readNumber? cs = some p) :
    ∃ c tail, cs = c :: tail ∧ (c = '-' ∨ c.isDigit = true) := by
  match cs with
  | [] => simp [readNumber?, readMagnitude?, readWhole?, List.span_eq_takeWhile_dropWhile] at h
  | c :: cs =>
    refine ⟨c, cs, rfl, ?_⟩
    by_contra hc
    rw [not_or] at hc
    rw [readNumber?] at h
    · simp [readMagnitude?, readWhole?, List.span_eq_takeWhile_dropWhile, hc.2] at h
    · exact fun _ heq => hc.1 (List.cons.inj heq).1

/-! ## Integers -/

namespace Number

open Decimal

lemma isDigit_of_mem_digitsOf {n : Nat} {c : Char} (h : c ∈ digitsOf n) : c.isDigit = true :=
  Nat.isDigit_of_mem_toDigits (by decide) (by decide) h

/-- Nothing but digits is read as digits. -/
lemma span_digits {cs : List Char} (h : ∀ c ∈ cs, c.isDigit = true) :
    cs.span Char.isDigit = (cs, []) := by
  have htake : cs.takeWhile Char.isDigit = cs := List.takeWhile_eq_self_iff.2 h
  have hdrop : cs.dropWhile Char.isDigit = [] := List.dropWhile_eq_nil_iff.2 h
  simp [List.span_eq_takeWhile_dropWhile, htake, hdrop]

/-- Only zero is written with a zero in front. -/
lemma eq_zero_of_head_digitsOf {n : Nat} (h : (digitsOf n).head? = some '0') : n = 0 := by
  induction n using Nat.strongRecOn with
  | ind n ih =>
    rw [digitsOf, Nat.toDigits_eq_if (by decide)] at h
    split at h
    · have hsmall : ∀ k < 10, Nat.digitChar k = '0' → k = 0 := by decide
      exact hsmall n ‹_› (by simpa using h)
    · have hhead : (digitsOf (n / 10)).head? = some '0' := by
        rwa [List.head?_append, Option.or_of_isSome (by simp)] at h
      have hquotient := ih (n / 10) (by omega) hhead
      omega

/-- The digits of a number do not begin with a zero that others follow. -/
lemma digitsOf_no_leading_zero (n : Nat) (c : Char) (tail : List Char) :
    digitsOf n ≠ '0' :: c :: tail := by
  intro h
  obtain rfl : n = 0 := eq_zero_of_head_digitsOf (by simp [h])
  simp [digitsOf] at h

/-- The digits say what the number is. -/
lemma valueOf_digitsOf (n : Nat) : valueOf (digitsOf n) = n := by
  have h := @Nat.ofDigitChars_ten_toDigits n
  rwa [Nat.ofDigitChars_eq_foldl] at h

lemma legible_ofInt (i : Int) : (ofInt i).Legible := by
  have hspan : (digitsOf i.natAbs).span Char.isDigit = (digitsOf i.natAbs, []) :=
    span_digits fun c hc => isDigit_of_mem_digitsOf hc
  have hwhole : readWhole? (digitsOf i.natAbs) = some (digitsOf i.natAbs, []) := by
    unfold readWhole?
    rw [hspan]
    have hne : digitsOf i.natAbs ≠ [] := Nat.toDigits_ne_nil
    have hzero := digitsOf_no_leading_zero i.natAbs
    generalize digitsOf i.natAbs = digits at hne hzero
    split <;> simp_all
  have hmagnitude : ∀ negative, readMagnitude? negative (digitsOf i.natAbs)
      = some (⟨negative, digitsOf i.natAbs, [], none⟩, []) := by
    intro negative
    simp [readMagnitude?, hwhole, readFraction?, readExponent?]
  by_cases hi : i < 0
  · simp [Legible, chars, ofInt, hi, readNumber?, hmagnitude]
  · have hsign : ∀ tail, digitsOf i.natAbs ≠ '-' :: tail := by
      intro tail heq
      have hdigit : Char.isDigit '-' = true :=
        isDigit_of_mem_digitsOf (n := i.natAbs) (by simp [heq])
      exact absurd hdigit (by decide)
    have hread : readNumber? (digitsOf i.natAbs) = readMagnitude? false (digitsOf i.natAbs) := by
      rw [readNumber?]
      exact hsign
    simp [Legible, chars, ofInt, hi, hread, hmagnitude]

lemma toInt?_ofInt (i : Int) : (ofInt i).toInt? = some i := by
  simp only [ofInt, toInt?, List.isEmpty_nil, Option.isNone_none, Bool.and_self, if_true,
    valueOf_digitsOf]
  by_cases h : i < 0
  · rw [if_pos (by simpa using h), if_neg (by omega)]
    congr 1
    omega
  · rw [if_neg (by simpa using h)]
    congr 1
    omega

end Number

end CallByNeed.Json
