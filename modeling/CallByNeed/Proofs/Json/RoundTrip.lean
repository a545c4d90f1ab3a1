import CallByNeed.Proofs.Json.Leaves

/-!
# Reading what was written

The pretty text of a value is read back as the value (`read?_pretty`), provided that the texts in it
have characters and its numbers are legible (`Json.Legible`). The reader is bounded by a number of
steps; the length of the text is enough.

The induction is on the value, for every text that may follow it: what follows never goes on a
number, since it begins with a comma or a new line. -/

namespace CallByNeed.Json

/-! ## Legible values -/

mutual

/-- All texts in the value have characters, and all numbers are legible. -/
def Legible : Json → Prop
  | .number n => n.Legible
  | .text t => t.isSome = true
  | .array items => LegibleItems items
  | .object fields => LegibleFields fields
  | .null | .bool _ => True

/-- All items are legible. -/
def LegibleItems : List Json → Prop
  | [] => True
  | item :: items => item.Legible ∧ LegibleItems items

/-- All keys have characters, and all values are legible. -/
def LegibleFields : List (Text × Json) → Prop
  | [] => True
  | (key, value) :: fields => key.isSome = true ∧ value.Legible ∧ LegibleFields fields

end

/-! ## Blanks -/

lemma isBlank_of_mem_newline {level : Nat} {c : Char} (h : c ∈ newline level) :
    isBlank c = true := by
  rcases List.mem_cons.1 h with rfl | hc
  · rfl
  · obtain rfl := List.eq_of_mem_replicate hc
    rfl

@[simp] lemma skipBlanks_newline (level : Nat) (rest : List Char) :
    skipBlanks (newline level ++ rest) = skipBlanks rest :=
  List.dropWhile_append_of_pos fun _ hc => isBlank_of_mem_newline hc

lemma skipBlanks_cons {c : Char} (hc : isBlank c = false) (rest : List Char) :
    skipBlanks (c :: rest) = c :: rest := by
  simp [skipBlanks, hc]

/-- Blanks in front of a value do not count. -/
lemma readValue?_congr {fuel : Nat} {cs ds : List Char} (h : skipBlanks cs = skipBlanks ds) :
    readValue? fuel cs = readValue? fuel ds := by
  match fuel with
  | 0 => rfl
  | fuel + 1 => rw [readValue?, readValue?, h]

lemma readItems?_newline (fuel level : Nat) (cs : List Char) (acc : List Json) :
    readItems? fuel (newline level ++ cs) acc = readItems? fuel cs acc := by
  match fuel with
  | 0 => rfl
  | fuel + 1 => rw [readItems?, readItems?, readValue?_congr (skipBlanks_newline level cs)]

lemma readFields?_newline (fuel level : Nat) (cs : List Char) (acc : List (Text × Json)) :
    readFields? fuel (newline level ++ cs) acc = readFields? fuel cs acc := by
  match fuel with
  | 0 => rfl
  | fuel + 1 => rw [readFields?, readFields?, skipBlanks_newline]

/-! ## What a value begins with -/

/-- The character begins a value: it is no blank and closes nothing. -/
def Begins (c : Char) : Prop := isBlank c = false ∧ c ≠ ']' ∧ c ≠ '\x7d'

instance (c : Char) : Decidable (Begins c) :=
  inferInstanceAs (Decidable (isBlank c = false ∧ c ≠ ']' ∧ c ≠ '\x7d'))

lemma begins_of_digit {c : Char} (h : c = '-' ∨ c.isDigit = true) : Begins c := by
  rcases h with rfl | h
  · decide
  · refine ⟨?_, ?_, ?_⟩
    · by_contra hblank
      simp only [isBlank, Bool.not_eq_false, Bool.or_eq_true, decide_eq_true_eq] at hblank
      rcases hblank with ((rfl | rfl) | rfl) | rfl <;> exact absurd h (by decide)
    · rintro rfl
      exact absurd h (by decide)
    · rintro rfl
      exact absurd h (by decide)

/-- A legible value begins with a character that begins values. -/
lemma begins_prettyChars {j : Json} (h : j.Legible) (level : Nat) :
    ∃ c tail, j.prettyChars level = c :: tail ∧ Begins c := by
  match j with
  | .null => exact ⟨'n', _, rfl, by decide⟩
  | .bool true => exact ⟨'t', _, rfl, by decide⟩
  | .bool false => exact ⟨'f', _, rfl, by decide⟩
  | .text t => exact ⟨'"', _, rfl, by decide⟩
  | .array [] => exact ⟨'[', _, rfl, by decide⟩
  | .array (item :: items) => exact ⟨'[', _, by rw [prettyChars], by decide⟩
  | .object [] => exact ⟨'\x7b', _, rfl, by decide⟩
  | .object ((key, value) :: fields) => exact ⟨'\x7b', _, by rw [prettyChars], by decide⟩
  | .number n =>
    obtain ⟨c, tail, hchars, hc⟩ := head_of_readNumber? h
    exact ⟨c, tail, hchars, begins_of_digit hc⟩

/-- A number is read as one wherever a value may stand. -/
lemma readValue?_number {n : Number} (h : n.Legible) (fuel : Nat) {rest : List Char}
    (hrest : Stops rest) : readValue? (fuel + 1) (n.chars ++ rest) = some (.number n, rest) := by
  obtain ⟨c, tail, hchars, hc⟩ := head_of_readNumber? h
  have hread := h.append hrest
  rw [hchars, List.cons_append] at hread ⊢
  rw [readValue?, skipBlanks_cons (begins_of_digit hc).1]
  have hletter : ∀ d, (d = '-' ∨ d.isDigit = true) = False →
      ∀ rest', c :: (tail ++ rest) ≠ d :: rest' := by
    intro d hd rest' heq
    exact (hd ▸ (List.cons.inj heq).1 ▸ hc : False)
  split
  case h_7 => simp [hread]
  all_goals
    rename_i heq
    exact absurd heq (hletter _ (by decide) _)

/-! ## Values -/

lemma stops_prettyItems (level : Nat) (items : List Json) (rest : List Char) :
    Stops (prettyItems level items ++ rest) := by
  match items with
  | [] => exact stops_cons rfl
  | _ :: _ => exact stops_cons rfl

lemma stops_prettyFields (level : Nat) (fields : List (Text × Json)) (rest : List Char) :
    Stops (prettyFields level fields ++ rest) := by
  match fields with
  | [] => exact stops_cons rfl
  | (_, _) :: _ => exact stops_cons rfl

lemma length_prettyItems_pos (level : Nat) (items : List Json) :
    0 < (prettyItems level items).length := by
  match items with
  | [] => simp [prettyItems]
  | _ :: _ => simp [prettyItems]

lemma length_prettyFields_pos (level : Nat) (fields : List (Text × Json)) :
    0 < (prettyFields level fields).length := by
  match fields with
  | [] => simp [prettyFields]
  | (_, _) :: _ => simp [prettyFields]

/-- A word that names a value is taken off. -/
lemma takeWord?_append : ∀ word rest : List Char, takeWord? word (word ++ rest) = some rest
  | [], _ => rfl
  | c :: word, rest => by rw [List.cons_append, takeWord?, if_pos rfl, takeWord?_append word rest]

/-- A text in front of which stands its quote. -/
lemma readText?_chars {t : Text} (h : t.isSome = true) (rest : List Char) :
    ∃ tail, t.chars ++ rest = '"' :: tail ∧ readText? tail = some (t, rest) := by
  obtain ⟨s, rfl⟩ := Option.isSome_iff_exists.1 h
  refine ⟨s.toList.flatMap escape ++ '"' :: rest, ?_, readText?_escape s rest⟩
  simp [Text.chars]

mutual

/-- **A value is read back from its pretty text**, whatever follows it that goes on no number. -/
theorem readValue?_prettyChars : ∀ {j : Json} (level fuel : Nat) (rest : List Char), j.Legible →
    (j.prettyChars level).length < fuel → Stops rest →
    readValue? fuel (j.prettyChars level ++ rest) = some (j, rest)
  | .null, _, fuel + 1, rest, _, _, _ => by
    show readValue? (fuel + 1) ('n' :: ("ull".toList ++ rest)) = _
    rw [readValue?, skipBlanks_cons rfl]
    simp only [takeWord?_append, Option.map_some]
  | .bool true, _, fuel + 1, rest, _, _, _ => by
    show readValue? (fuel + 1) ('t' :: ("rue".toList ++ rest)) = _
    rw [readValue?, skipBlanks_cons rfl]
    simp only [takeWord?_append, Option.map_some]
  | .bool false, _, fuel + 1, rest, _, _, _ => by
    show readValue? (fuel + 1) ('f' :: ("alse".toList ++ rest)) = _
    rw [readValue?, skipBlanks_cons rfl]
    simp only [takeWord?_append, Option.map_some]
  | .number n, _, fuel + 1, rest, h, _, hrest => readValue?_number h fuel hrest
  | .text t, _, fuel + 1, rest, h, _, _ => by
    obtain ⟨tail, hchars, hread⟩ := readText?_chars h rest
    rw [prettyChars, hchars, readValue?, skipBlanks_cons rfl]
    simp only [hread, Option.map_some]
  | .array [], _, fuel + 1, rest, _, _, _ => by
    show readValue? (fuel + 1) ('[' :: ']' :: rest) = _
    rw [readValue?, skipBlanks_cons rfl]
    simp only [skipBlanks_cons (show isBlank ']' = false from rfl)]
  | .array (item :: items), level, fuel + 1, rest, h, hfuel, _ => by
    obtain ⟨hitem, hitems⟩ := h
    obtain ⟨c, tail, hchars, hbegins⟩ := begins_prettyChars hitem (level + 1)
    simp only [prettyChars, List.length_cons, List.length_append] at hfuel
    have hread := readItems?_prettyChars [] level fuel rest hitem hitems (by omega)
    rw [prettyChars, List.cons_append, readValue?, skipBlanks_cons rfl]
    simp only [List.append_assoc, skipBlanks_newline]
    rw [hchars, List.cons_append] at hread ⊢
    rw [skipBlanks_cons hbegins.1]
    split
    · rename_i heq
      exact absurd (List.cons.inj heq).1 hbegins.2.1
    · simpa using hread
  | .object [], _, fuel + 1, rest, _, _, _ => by
    show readValue? (fuel + 1) ('\x7b' :: '\x7d' :: rest) = _
    rw [readValue?, skipBlanks_cons rfl]
    simp only [skipBlanks_cons (show isBlank '\x7d' = false from rfl)]
  | .object ((key, value) :: fields), level, fuel + 1, rest, h, hfuel, _ => by
    obtain ⟨hkey, hvalue, hfields⟩ := h
    simp only [prettyChars, List.length_cons, List.length_append] at hfuel
    have hread := readFields?_prettyChars [] level fuel rest hkey hvalue hfields (by omega)
    obtain ⟨tail, hchars, -⟩ := readText?_chars hkey
      ([':', ' '] ++ (value.prettyChars (level + 1) ++ (prettyFields level fields ++ rest)))
    rw [prettyChars, List.cons_append, readValue?, skipBlanks_cons rfl]
    simp only [List.append_assoc, skipBlanks_newline]
    rw [hchars] at hread ⊢
    rw [skipBlanks_cons rfl]
    simpa using hread

/-- The items of an array are read back. -/
theorem readItems?_prettyChars : ∀ {item : Json} {items : List Json} (acc : List Json)
    (level fuel : Nat) (rest : List Char), item.Legible → LegibleItems items →
    (item.prettyChars (level + 1)).length + (prettyItems level items).length < fuel →
    readItems? fuel (item.prettyChars (level + 1) ++ (prettyItems level items ++ rest)) acc
      = some (.array (acc.reverse ++ item :: items), rest)
  | item, items, acc, level, fuel + 1, rest, hitem, hitems, hfuel => by
    have hpos := length_prettyItems_pos level items
    have hread := readValue?_prettyChars (level + 1) fuel _ hitem (by omega)
      (stops_prettyItems level items rest)
    rw [readItems?, hread]
    dsimp only
    match items with
    | [] =>
      rw [prettyItems, List.append_assoc, skipBlanks_newline, List.singleton_append,
        skipBlanks_cons rfl]
      simp
    | next :: items =>
      obtain ⟨hnext, hitems⟩ := hitems
      simp only [prettyItems, List.length_cons, List.length_append] at hfuel
      have hrest := readItems?_prettyChars (item :: acc) level fuel rest hnext hitems (by omega)
      rw [prettyItems, List.cons_append, skipBlanks_cons rfl]
      simp only [List.append_assoc, readItems?_newline]
      simpa using hrest

/-- The fields of an object are read back. -/
theorem readFields?_prettyChars : ∀ {key : Text} {value : Json} {fields : List (Text × Json)}
    (acc : List (Text × Json)) (level fuel : Nat) (rest : List Char),
    key.isSome = true → value.Legible → LegibleFields fields →
    key.chars.length + (value.prettyChars (level + 1)).length + (prettyFields level fields).length
      < fuel →
    readFields? fuel (key.chars ++ ([':', ' '] ++ (value.prettyChars (level + 1)
        ++ (prettyFields level fields ++ rest)))) acc
      = some (.object (acc.reverse ++ (key, value) :: fields), rest)
  | key, value, fields, acc, level, fuel + 1, rest, hkey, hvalue, hfields, hfuel => by
    have hpos := length_prettyFields_pos level fields
    obtain ⟨tail, hchars, htext⟩ := readText?_chars hkey
      ([':', ' '] ++ (value.prettyChars (level + 1) ++ (prettyFields level fields ++ rest)))
    have hread := readValue?_prettyChars (level + 1) fuel _ hvalue (by omega)
      (stops_prettyFields level fields rest)
    have hspace : ∀ cs, readValue? fuel (' ' :: cs) = readValue? fuel cs := fun cs =>
      readValue?_congr rfl
    rw [hchars, readFields?, skipBlanks_cons rfl]
    simp only [htext, List.cons_append, List.nil_append, hspace, hread,
      skipBlanks_cons (show isBlank ':' = false from rfl)]
    match fields with
    | [] =>
      rw [prettyFields, List.append_assoc, skipBlanks_newline, List.singleton_append,
        skipBlanks_cons rfl]
      simp
    | (key', value') :: fields =>
      obtain ⟨hkey', hvalue', hfields⟩ := hfields
      simp only [prettyFields, List.length_cons, List.length_append] at hfuel
      have hrest := readFields?_prettyChars ((key, value) :: acc) level fuel rest hkey' hvalue'
        hfields (by omega)
      rw [prettyFields, List.cons_append, skipBlanks_cons rfl]
      simp only [List.append_assoc, readFields?_newline]
      simpa using hrest

end

/-- **A legible value is read back from its pretty text.** -/
theorem read?_pretty {j : Json} (h : j.Legible) : read? j.pretty = some j := by
  have hread := readValue?_prettyChars 0 _ [] h (Nat.lt_succ_self _) stops_nil
  rw [List.append_nil] at hread
  simp only [read?, pretty, String.toList_ofList]
  rw [hread]
  rfl

end CallByNeed.Json
