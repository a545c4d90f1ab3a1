import CallByNeed.Proofs.Code.Requests

/-!
# The tables of a unit at any time

While a unit is assembled its tables change through requests only (`Assembly.Answers`), which may be
answered or refused. So at any time they agree with the requests that have been answered
(`Assembly.Filed`, kept by every step), and what has been handed out stays what it is
(`Assembly.Answers.retains`).
-/

namespace CallByNeed

open CallByNeed.Flow (NodeId SlotKey Graph)

namespace Assembly

open Assemble (Request Table)

/-! ## Requests in a row -/

/-- The tables are the same. -/
structure SameTables (a b : Assembly) : Prop where
  unit : b.unit = a.unit
  pool : b.pool = a.pool
  thunks : b.thunks = a.thunks
  closures : b.closures = a.closures

/-- The second assembly comes from the first one by requests to the tables, and by what does not
concern the tables. Those that were answered are listed with the indexes that they got. -/
inductive Answers (nested : Nested) (a : Assembly) : List (Request × Nat) → Assembly → Prop where
  | refl : Answers nested a [] a
  | aside {given b c} : Answers nested a given b → b.SameTables c → Answers nested a given c
  | answered {given b c i} {r : Request} : Answers nested a given b → r.answer nested b = .ok i c →
    Answers nested a (given ++ [(r, i)]) c
  | refused {given b c e} {r : Request} : Answers nested a given b →
    r.answer nested b = .error e c →
    Answers nested a given c

variable {nested : Nested} {name : String} {given given' : List (Request × Nat)}
  {a b c z : Assembly} {r r' x : Request} {i k : Nat} {e : CompileError}

lemma Answers.trans (h : Answers nested a given b) (h' : Answers nested b given' c) :
    Answers nested a (given ++ given') c := by
  induction h' with
  | refl => rwa [List.append_nil]
  | aside _ hsame ih => exact ih.aside hsame
  | answered _ hanswer ih =>
    rw [← List.append_assoc]
    exact ih.answered hanswer
  | refused _ hanswer ih => exact ih.refused hanswer

lemma SameTables.retains (h : a.SameTables b) : a.Retains b where
  unit := h.unit
  owner := by rw [h.pool]
  entries i c hc := by rw [h.pool]; exact hc
  thunks i u hu := by rw [h.thunks]; exact hu
  closures i f hf := by rw [h.closures]; exact hf

lemma SameTables.entered? (h : a.SameTables b) (r : Request) : r.entered? b = r.entered? a := by
  cases r with
  | literal => rfl
  | name | primitive | call => simp only [Request.entered?, h.pool]
  | thunk => simp only [Request.entered?, h.thunks]
  | closure => simp only [Request.entered?, h.closures]

lemma SameTables.count (h : a.SameTables b) (T : Table) : T.count b = T.count a := by
  cases T with
  | constants => simp only [Table.count, h.pool]
  | thunks => simp only [Table.count, h.thunks]
  | closures => simp only [Table.count, h.closures]

/-- What a request is refused for does not concern the tables. -/
lemma sameTables_of_refused (h : r.answer nested a = .error e b) : a.SameTables b := by
  rw [Request.eq_of_answer_error h]
  exact ⟨rfl, rfl, rfl, rfl⟩

/-- **What has been handed out stays what it is.** -/
theorem Answers.retains (h : Answers nested a given b) : a.Retains b := by
  induction h with
  | refl => exact .refl a
  | aside _ hsame ih => exact ih.trans hsame.retains
  | refused _ hanswer ih => exact ih.trans (sameTables_of_refused hanswer).retains
  | answered _ hanswer ih =>
    rcases Request.cases_of_answer hanswer with ⟨-, rfl⟩ | ⟨-, -, henters⟩
    · exact ih
    · exact ih.trans henters.retains

/-! ## What the tables hold -/

/-- The tables of a unit agree with the requests that have been answered. -/
structure Filed (nested : Nested) (name : String) (given : List (Request × Nat)) (z : Assembly) :
    Prop where
  unit : z.unit = name
  owner : z.pool.unit = name
  room : ∀ T : Table, T.count z ≤ maxConstants
  entered : ∀ r i, r.entered? z = some i ↔ ∃ r', (r', i) ∈ given ∧ r'.Shares r
  denotes : ∀ r i, (r, i) ∈ given →
    ∃ r', (r', i) ∈ given ∧ (r' = r ∨ r'.Shares r) ∧ r'.Denotes nested z i
  complete : ∀ (T : Table) i, i < T.count z →
    ∃ r, (r, i) ∈ given ∧ r.table = T ∧ r.Denotes nested z i
  indexes : given.Pairwise fun x y => x.1.table = y.1.table → (x.2 = y.2 ↔ x.1.Shares y.1)

/-- Before any request the tables are empty. -/
lemma filed_start (nested : Nested) (name : String) (o : CompilerOptions) (j : Journal) :
    Filed nested name [] (.start name o j) where
  unit := rfl
  owner := rfl
  room T := by cases T <;> exact Nat.zero_le _
  entered r i := by
    have hnone : r.entered? (.start name o j) = none := by
      cases r <;> rfl
    simp [hnone]
  denotes _ _ h := nomatch h
  complete T i h := by cases T <;> exact absurd h (Nat.not_lt_zero i)
  indexes := .nil

namespace Filed

/-- What does not concern the tables keeps the agreement. -/
lemma aside (h : Filed nested name given b) (hsame : b.SameTables c) :
    Filed nested name given c where
  unit := hsame.unit.trans h.unit
  owner := by rw [hsame.pool, h.owner]
  room T := by rw [hsame.count]; exact h.room T
  entered r i := by rw [hsame.entered?]; exact h.entered r i
  denotes r i hr := by
    obtain ⟨r', hr', halike, hdenotes⟩ := h.denotes r i hr
    exact ⟨r', hr', halike, hdenotes.mono hsame.retains⟩
  complete T i hi := by
    rw [hsame.count] at hi
    obtain ⟨r, hr, htable, hdenotes⟩ := h.complete T i hi
    exact ⟨r, hr, htable, hdenotes.mono hsame.retains⟩
  indexes := h.indexes

/-- An index lies within its table. -/
lemma lt (h : Filed nested name given z) (hr : (r, i) ∈ given) : i < r.table.count z := by
  obtain ⟨r', -, rfl | hshares, hdenotes⟩ := h.denotes r i hr
  · exact hdenotes.lt
  · rw [← hshares.table]
    exact hdenotes.lt

/-- Requests to one table that got one index share the entry there. -/
lemma alike (h : Filed nested name given z) (hr : (r, i) ∈ given) (hr' : (r', i) ∈ given)
    (htable : r.table = r'.table) : r = r' ∨ r.Shares r' := by
  refine List.Pairwise.forall_of_forall_of_flip (l := given) (R := fun x y =>
    x.1.table = y.1.table → x.2 = y.2 → x.1 = y.1 ∨ x.1.Shares y.1) (fun _ _ _ _ => .inl rfl)
    (h.indexes.imp fun hxy ht hi => .inr ((hxy ht).1 hi))
    (h.indexes.imp fun hxy ht hi => .inr ((hxy ht.symm).1 hi.symm).symm) hr hr' htable rfl

/-- An answer that is the index of an entry made before keeps the agreement. -/
lemma again (h : Filed nested name given z) (hr : r.entered? z = some i) :
    Filed nested name (given ++ [(r, i)]) z where
  unit := h.unit
  owner := h.owner
  room := h.room
  entered x k := by
    rw [h.entered]
    constructor
    · rintro ⟨r', hr', hshares⟩
      exact ⟨r', List.mem_append_left _ hr', hshares⟩
    · rintro ⟨r', hr', hshares⟩
      rcases List.mem_append.1 hr' with hr' | hr'
      · exact ⟨r', hr', hshares⟩
      · cases List.mem_singleton.1 hr'
        obtain ⟨r'', hr'', hshares'⟩ := (h.entered r i).1 hr
        exact ⟨r'', hr'', hshares'.trans hshares⟩
  denotes x k hx := by
    rcases List.mem_append.1 hx with hx | hx
    · obtain ⟨r', hr', halike, hdenotes⟩ := h.denotes x k hx
      exact ⟨r', List.mem_append_left _ hr', halike, hdenotes⟩
    · cases List.mem_singleton.1 hx
      obtain ⟨r', hr', hshares⟩ := (h.entered r i).1 hr
      obtain ⟨r'', hr'', halike, hdenotes⟩ := h.denotes r' i hr'
      refine ⟨r'', List.mem_append_left _ hr'', .inr ?_, hdenotes⟩
      rcases halike with rfl | halike
      · exact hshares
      · exact halike.trans hshares
  complete T k hk := by
    obtain ⟨x, hx, htable, hdenotes⟩ := h.complete T k hk
    exact ⟨x, List.mem_append_left _ hx, htable, hdenotes⟩
  indexes := by
    refine List.pairwise_append.2 ⟨h.indexes, List.pairwise_singleton .., ?_⟩
    rintro ⟨x, k⟩ hx ⟨y, l⟩ hy htable
    cases List.mem_singleton.1 hy
    constructor
    · rintro rfl
      obtain ⟨r', hr', hshares⟩ := (h.entered r k).1 hr
      rcases h.alike hx hr' (htable.trans hshares.table.symm) with rfl | halike
      · exact hshares
      · exact halike.trans hshares
    · intro hshares
      have hk : x.entered? z = some k := (h.entered x k).2 ⟨x, hx, hshares.trans hshares.symm⟩
      rw [hshares.entered?, hr] at hk
      exact (Option.some.inj hk).symm

/-- A new entry keeps the agreement. -/
lemma new (h : Filed nested name given b) (hnone : r.entered? b = none)
    (hroom : r.table.count b < maxConstants) (henters : r.Enters nested b i c) :
    Filed nested name (given ++ [(r, i)]) c where
  unit := henters.retains.unit.trans h.unit
  owner := henters.retains.owner.trans h.owner
  room T := by
    by_cases hT : T = r.table
    · rw [hT, henters.count]
      exact hroom
    · rw [henters.counts T hT]
      exact h.room T
  entered x k := by
    constructor
    · intro hx
      by_cases hshares : r.Shares x
      · rw [henters.shared x hshares] at hx
        cases hx
        exact ⟨r, by simp, hshares⟩
      · rw [henters.others x hshares, h.entered] at hx
        obtain ⟨r', hr', hshares'⟩ := hx
        exact ⟨r', List.mem_append_left _ hr', hshares'⟩
    · rintro ⟨r', hr', hshares⟩
      rcases List.mem_append.1 hr' with hr' | hr'
      · have hx : x.entered? b = some k := (h.entered x k).2 ⟨r', hr', hshares⟩
        rw [henters.others x fun hrx => ?_]
        · exact hx
        · rw [← hrx.entered? b, hnone] at hx
          cases hx
      · cases List.mem_singleton.1 hr'
        exact henters.shared x hshares
  denotes x k hx := by
    rcases List.mem_append.1 hx with hx | hx
    · obtain ⟨r', hr', halike, hdenotes⟩ := h.denotes x k hx
      exact ⟨r', List.mem_append_left _ hr', halike, hdenotes.mono henters.retains⟩
    · cases List.mem_singleton.1 hx
      exact ⟨r, List.mem_append_right _ hx, .inl rfl, henters.denotes⟩
  complete T k hk := by
    by_cases hlt : k < T.count b
    · obtain ⟨x, hx, htable, hdenotes⟩ := h.complete T k hlt
      exact ⟨x, List.mem_append_left _ hx, htable, hdenotes.mono henters.retains⟩
    · by_cases hT : T = r.table
      · rw [hT] at hk hlt
        rw [henters.count] at hk
        obtain rfl : k = i := by
          rw [henters.index]
          omega
        exact ⟨r, by simp, hT.symm, henters.denotes⟩
      · rw [henters.counts T hT] at hk
        exact absurd hk hlt
  indexes := by
    refine List.pairwise_append.2 ⟨h.indexes, List.pairwise_singleton .., ?_⟩
    rintro ⟨x, k⟩ hx ⟨y, l⟩ hy htable
    cases List.mem_singleton.1 hy
    have hlt := h.lt hx
    constructor
    · intro hk
      have hk : k = r.table.count b := hk.trans henters.index
      have htable : x.table = r.table := htable
      rw [hk, htable] at hlt
      exact absurd hlt (Nat.lt_irrefl _)
    · intro hshares
      have hk : r.entered? b = some k := (h.entered r k).2 ⟨x, hx, hshares⟩
      rw [hnone] at hk
      cases hk

end Filed

/-- **The tables agree with the requests that have been answered**, by induction on what has been
asked: every request keeps the agreement. -/
theorem Answers.filed (h : Answers nested a given z) {o : CompilerOptions} {j : Journal}
    (ha : a = .start name o j) : Filed nested name given z := by
  induction h with
  | refl =>
    rw [ha]
    exact filed_start nested name o j
  | aside _ hsame ih => exact ih.aside hsame
  | refused _ hanswer ih => exact ih.aside (sameTables_of_refused hanswer)
  | answered _ hanswer ih =>
    rcases Request.cases_of_answer hanswer with ⟨hr, rfl⟩ | ⟨hnone, hroom, henters⟩
    · exact ih.again hr
    · exact ih.new hnone hroom henters

/-! ## The tables of every unit -/

/-- What is known of the tables of the unit `name` after the requests `given` got these indexes. -/
structure Ledger (nested : Nested) (name : String) (given : List (Request × Nat)) (z : Assembly) :
    Prop where
  /-- Every index that was handed out fits two bytes and denotes what it was handed out for, which
  was asked for now or before. -/
  handed : ∀ r i, (r, i) ∈ given → i < maxConstants ∧
    ∃ r', (r', i) ∈ given ∧ (r' = r ∨ r'.Shares r) ∧ r'.Denotes nested z i
  /-- In one table, the requests that share an entry got one index and others got different ones. -/
  indexes : given.Pairwise fun x y => x.1.table = y.1.table → (x.2 = y.2 ↔ x.1.Shares y.1)
  /-- There is nothing in a table that was not asked for. -/
  complete : ∀ (T : Table) i, i < T.count z →
    ∃ r, (r, i) ∈ given ∧ r.table = T ∧ r.Denotes nested z i
  names : ∀ s (i k : Nat), z.pool.entries[i]? = some (.name s) →
    z.pool.entries[k]? = some (.name s) → i = k
  primitives : ∀ s (i k : Nat), z.pool.entries[i]? = some (.primitive s) →
    z.pool.entries[k]? = some (.primitive s) → i = k
  /-- Every call among the constants has been entered under one identity. -/
  calls : ∀ (i : Nat) c, z.pool.entries[i]? = some (.call c) →
    ∃ id : Nat, z.pool.calls[id]? = some i ∧ ∀ id' : Nat, z.pool.calls[id']? = some i → id' = id
  /-- Every identity of a late argument has one unit of its own. -/
  thunks : ∀ node i, z.thunks.index? node = some i → (∃ u, z.thunks.units[i]? = some u) ∧
    ∀ node', z.thunks.index? node' = some i → node' = node
  /-- Every identity of a function literal has one unit of its own. -/
  closures : ∀ node i, z.closures.index? node = some i → (∃ f, z.closures.units[i]? = some f) ∧
    ∀ node', z.closures.index? node' = some i → node' = node
  /-- A request is refused when it needs a new entry, and either the table is full or the unit that
  it needs does not compile. -/
  refused : ∀ (r : Request) e, (∃ b, r.answer nested z = .error e b) ↔
    (∀ r' i, (r', i) ∈ given → ¬ r'.Shares r) ∧
      ((maxConstants ≤ r.table.count z ∧ e = .tooManyConstants name maxConstants) ∨
        (r.table.count z < maxConstants ∧ r.Fails nested z e))
  /-- A request that is refused changes no table, and nothing else but the journal. -/
  unchanged : ∀ (r : Request) e b, r.answer nested z = .error e b →
    b = { z with journal := b.journal }

namespace Filed

/-- A constant was asked for at the index where it stands. -/
lemma of_entry (h : Filed nested name given z) {c : Constant} (hi : z.pool.entries[i]? = some c) :
    ∃ r, (r, i) ∈ given ∧ r.table = .constants ∧ r.Denotes nested z i :=
  h.complete .constants i (Array.getElem?_eq_some_iff.1 hi).1

/-- Shared requests got one index. -/
lemma index_unique (h : Filed nested name given z) (hr : (r, i) ∈ given) (hr' : (r', k) ∈ given)
    (hshares : r.Shares r') : i = k := by
  have hi : r'.entered? z = some i := (h.entered r' i).2 ⟨r, hr, hshares⟩
  have hk : r'.entered? z = some k := (h.entered r' k).2 ⟨r', hr', hshares.symm.trans hshares⟩
  rw [hi] at hk
  exact Option.some.inj hk

lemma mem_of_name (h : Filed nested name given z) {s : Symbol}
    (hi : z.pool.entries[i]? = some (.name s)) : (.name s, i) ∈ given := by
  obtain ⟨r, hr, htable, hdenotes⟩ := h.of_entry hi
  cases r with
  | thunk | closure => cases htable
  | literal | name | primitive | call =>
    cases hi.symm.trans hdenotes
    try exact hr

lemma mem_of_primitive (h : Filed nested name given z) {s : Symbol}
    (hi : z.pool.entries[i]? = some (.primitive s)) : (.primitive s, i) ∈ given := by
  obtain ⟨r, hr, htable, hdenotes⟩ := h.of_entry hi
  cases r with
  | thunk | closure => cases htable
  | literal | name | primitive | call =>
    cases hi.symm.trans hdenotes
    try exact hr

lemma mem_of_call (h : Filed nested name given z) {c : Call}
    (hi : z.pool.entries[i]? = some (.call c)) : ∃ id, (.call ⟨id, c⟩, i) ∈ given := by
  obtain ⟨r, hr, htable, hdenotes⟩ := h.of_entry hi
  cases r with
  | thunk | closure => cases htable
  | literal | name | primitive => cases hi.symm.trans hdenotes
  | call site =>
    cases hi.symm.trans hdenotes
    exact ⟨site.id, hr⟩

/-- One index belongs to one key: requests that find it share the entry. -/
lemma shares_of_entered? (h : Filed nested name given z) (r r' : Request)
    (hr : r.entered? z = some i) (hr' : r'.entered? z = some i) (htable : r.table = r'.table) :
    r.Shares r' := by
  obtain ⟨x, hx, hshares⟩ := (h.entered r i).1 hr
  obtain ⟨x', hx', hshares'⟩ := (h.entered r' i).1 hr'
  have hxx' : x.table = x'.table := hshares.table.trans (htable.trans hshares'.table.symm)
  rcases h.alike hx hx' hxx' with rfl | halike
  · exact hshares.symm.trans hshares'
  · exact hshares.symm.trans (halike.trans hshares')

/-- What is found again stands at its index. -/
lemma denotes_of_entered? (h : Filed nested name given z) (r : Request)
    (hr : r.entered? z = some i) :
    ∃ r' : Request, r'.Shares r ∧ r'.Denotes nested z i := by
  obtain ⟨x, hx, hshares⟩ := (h.entered r i).1 hr
  obtain ⟨r', -, rfl | halike, hdenotes⟩ := h.denotes x i hx
  · exact ⟨r', hshares, hdenotes⟩
  · exact ⟨r', halike.trans hshares, hdenotes⟩

/-- Nothing is found that was not asked for. -/
lemma entered?_eq_none_iff (h : Filed nested name given z) :
    r.entered? z = none ↔ ∀ r' i, (r', i) ∈ given → ¬ r'.Shares r := by
  rw [Option.eq_none_iff_forall_ne_some]
  constructor
  · exact fun hnone r' i hr' hshares => hnone i ((h.entered r i).2 ⟨r', hr', hshares⟩)
  · intro hnone i hi
    obtain ⟨r', hr', hshares⟩ := (h.entered r i).1 hi
    exact hnone r' i hr' hshares

/-- The name of the unit stands in all of its tables. -/
lemma owner_eq (h : Filed nested name given z) (T : Table) : T.owner z = name := by
  cases T with
  | constants => exact h.owner
  | thunks | closures => exact h.unit

/-- Where the tables agree with the requests, the ledger is in order. -/
theorem ledger (h : Filed nested name given z) : Ledger nested name given z where
  handed r i hr := ⟨Nat.lt_of_lt_of_le (h.lt hr) (h.room _), h.denotes r i hr⟩
  indexes := h.indexes
  complete := h.complete
  names _ _ _ hi hk := h.index_unique (h.mem_of_name hi) (h.mem_of_name hk) rfl
  primitives _ _ _ hi hk := h.index_unique (h.mem_of_primitive hi) (h.mem_of_primitive hk) rfl
  calls i c hi := by
    obtain ⟨id, hcall⟩ := h.mem_of_call hi
    have hid : (Request.call ⟨id, c⟩).entered? z = some i := (h.entered _ i).2 ⟨_, hcall, rfl⟩
    exact ⟨id, hid, fun id' hid' =>
      h.shares_of_entered? (.call ⟨id', c⟩) (.call ⟨id, c⟩) hid' hid rfl⟩
  thunks node i hi := by
    obtain ⟨r', hshares, hdenotes⟩ := h.denotes_of_entered? (.thunk ⟨node, .null, []⟩) hi
    cases r' with
    | thunk d =>
      obtain ⟨u, -, -, hu, -⟩ := hdenotes
      exact ⟨⟨u, hu⟩, fun node' hi' => h.shares_of_entered?
        (.thunk ⟨node', .null, []⟩) (.thunk ⟨node, .null, []⟩) hi' hi rfl⟩
    | literal | name | primitive | call | closure => exact hshares.elim
  closures node i hi := by
    obtain ⟨r', hshares, hdenotes⟩ := h.denotes_of_entered? (.closure node ⟨none, [], []⟩) hi
    cases r' with
    | closure node' p =>
      obtain ⟨f, -, -, hf, -⟩ := hdenotes
      exact ⟨⟨f, hf⟩, fun node' hi' => h.shares_of_entered?
        (.closure node' ⟨none, [], []⟩) (.closure node ⟨none, [], []⟩) hi' hi rfl⟩
    | literal | name | primitive | call | thunk => exact hshares.elim
  refused r e := by
    rw [Request.answer_eq_error_iff, h.entered?_eq_none_iff, h.owner_eq]
  unchanged _ _ _ := Request.eq_of_answer_error

end Filed

/-! ## Sequences of requests -/

/-- Requests in order, those that are answered with their indexes, and the assembly after them. A
request that is refused does not stop those behind it. -/
def ask (nested : Nested) (a : Assembly) : List Request → List (Request × Nat) × Assembly
  | [] => ([], a)
  | r :: rs =>
    match r.answer nested a with
    | .ok i b => ((r, i) :: (ask nested b rs).1, (ask nested b rs).2)
    | .error _ b => ask nested b rs

lemma answers_ask (nested : Nested) (a : Assembly) (rs : List Request) :
    Answers nested a (a.ask nested rs).1 (a.ask nested rs).2 := by
  induction rs generalizing a with
  | nil => exact .refl
  | cons r rs ih =>
    rw [ask]
    cases hanswer : r.answer nested a with
    | ok i b => exact (Answers.refl.answered hanswer).trans (ih b)
    | error e b => exact (Answers.refl.refused hanswer).trans (ih b)

lemma ask_append (nested : Nested) (a : Assembly) (rs more : List Request) :
    (a.ask nested (rs ++ more)).2 = ((a.ask nested rs).2.ask nested more).2 := by
  induction rs generalizing a with
  | nil => rfl
  | cons r rs ih =>
    rw [List.cons_append, ask, ask]
    cases r.answer nested a with
    | ok i b => exact ih b
    | error e b => exact ih b

end Assembly

/-! ## The tables of a body -/

/-- Under these options the step changes the tables through requests only, whether it fails or
not. -/
def Asks {α : Type} (nested : Nested) (options : CompilerOptions) (c : Assemble α) : Prop :=
  ∀ a, a.options = options → match c a with
    | .ok _ b => b.options = options ∧ ∃ given, a.Answers nested given b
    | .error _ b => ∃ given, a.Answers nested given b

namespace Assemble

variable {nested : Nested} {options : CompilerOptions}

lemma asks_answer (r : Request) : Asks nested options (r.answer nested) := by
  intro a ha
  cases hanswer : r.answer nested a with
  | error e b => exact ⟨_, .refused .refl hanswer⟩
  | ok i b =>
    refine ⟨?_, _, .answered .refl hanswer⟩
    rcases Request.cases_of_answer hanswer with ⟨-, rfl⟩ | ⟨-, -, henters⟩
    · exact ha
    · exact henters.options.trans ha

/-- A step that does not concern the tables. -/
lemma asks_of_sameTables {α : Type} {c : Assemble α} (h : ∀ a, match c a with
    | .ok _ b => b.options = a.options ∧ a.SameTables b
    | .error _ b => a.SameTables b) : Asks nested options c := by
  intro a ha
  have hca := h a
  cases hc : c a with
  | ok x b =>
    rw [hc] at hca
    exact ⟨hca.1.trans ha, _, .aside .refl hca.2⟩
  | error e b =>
    rw [hc] at hca
    exact ⟨_, .aside .refl hca⟩

/-- All steps of assembling change the tables through requests only. -/
lemma stepClosed_asks (nested : Nested) (options : CompilerOptions) :
    StepClosed nested options (fun _ _ => True) fun _ c => Asks nested options c where
  spares {α c} h := asks_of_sameTables fun a => by
    have hca := h a
    cases hc : c a with
    | ok x b =>
      rw [hc] at hca
      exact ⟨hca.options, hca.unit, hca.pool, hca.thunks, hca.closures⟩
    | error e b =>
      rw [hc] at hca
      exact ⟨hca.1.unit, hca.1.pool, hca.1.thunks, hca.1.closures⟩
  bind {α β c f} h h' a ha := by
    rw [bind_apply]
    have hca := h a ha
    cases hc : c a with
    | error e b =>
      rw [hc] at hca
      exact hca
    | ok x b =>
      rw [hc] at hca
      obtain ⟨hb, given, hgiven⟩ := hca
      have hfb := h' x b hb
      dsimp only
      cases hf : f x b with
      | ok y z =>
        rw [hf] at hfb
        obtain ⟨hz, given', hgiven'⟩ := hfb
        exact ⟨hz, _, hgiven.trans hgiven'⟩
      | error e z =>
        rw [hf] at hfb
        obtain ⟨given', hgiven'⟩ := hfb
        exact ⟨_, hgiven.trans hgiven'⟩
  get h a ha := h a ha a ha
  literal e := asks_answer (.literal e)
  name s := asks_answer (.name s)
  primitive s := asks_answer (.primitive s)
  call c := asks_answer (.call c)
  slot {key kind} _ := asks_of_sameTables fun a => by
    rw [slotFor, Assembly.onSlots_apply]
    cases Slots.slotFor key kind a.slots with
    | ok slot s => exact ⟨rfl, rfl, rfl, rfl, rfl⟩
    | error e s => exact ⟨rfl, rfl, rfl, rfl⟩
  thunk d := asks_answer (.thunk d)
  closure node p := asks_answer (.closure node p)

/-- Assembling a body changes the tables through requests only. -/
lemma asks_body (nested : Nested) (b : Flow.Body) : Asks nested options (body nested b) := by
  have h := stepClosed_asks nested options
  have hreport : ∀ ss, Asks nested options (reportUnreachable ss) := by
    intro ss
    induction ss with
    | nil => exact h.pure ()
    | cons s ss ih => exact h.seq (h.modify fun _ => ⟨rfl, rfl, rfl, rfl, rfl, rfl⟩) ih
  have hplan : Asks nested options (modify fun a : Assembly =>
      { a with slots := planSlots a.options a.slots (Graph.ofBody b) }) :=
    asks_of_sameTables fun a => ⟨rfl, rfl, rfl, rfl, rfl⟩
  exact h.seq (hreport _) (h.seq hplan (h.seq (h.blocks fun s _ => by
    cases s <;> simp [StepClosed.Plans]) h.finish))

/-- A unit is taken with all of its tables. -/
lemma tables_of_finish {a z : Assembly} {u : CodeUnit} (h : finish a = .ok u z) :
    u.constants = z.pool.entries ∧ u.thunks = z.thunks.units.toList ∧
      u.closures = z.closures.units.toList := by
  simp only [finish, get_bind_apply] at h
  cases hcode : a.jumps.apply a.emitter.code with
  | mk code failure =>
    rw [hcode] at h
    cases failure with
    | none =>
      cases h
      exact ⟨rfl, rfl, rfl⟩
    | some failure =>
      cases failure <;> cases h

/-- The same for the unit of a body. -/
lemma tables_of_body {b : Flow.Body} {a z : Assembly} {u : CodeUnit}
    (h : body nested b a = .ok u z) :
    u.constants = z.pool.entries ∧ u.thunks = z.thunks.units.toList ∧
      u.closures = z.closures.units.toList := by
  have hlast : ∀ {α : Type} {c : Assemble α} {d : Assemble CodeUnit} {a : Assembly},
      (c >>= fun _ => d) a = .ok u z → ∃ b, d b = .ok u z := by
    intro α c d a hcd
    rw [bind_apply] at hcd
    cases hc : c a with
    | error e b => rw [hc] at hcd; cases hcd
    | ok x b =>
      rw [hc] at hcd
      exact ⟨b, hcd⟩
  obtain ⟨a₁, h₁⟩ := hlast h
  obtain ⟨a₂, h₂⟩ := hlast h₁
  obtain ⟨a₃, h₃⟩ := hlast h₂
  exact tables_of_finish h₃

end Assemble

/-- **The tables of a unit stay in order**, whatever is asked of them: what has been handed out
stays what it is, and what is shared is entered once. In the unit of a body the tables are those of
such requests, whether it compiles or not. -/
theorem Assembly.ledger_kept :
    (∀ (nested : Nested) (name : String) (o : CompilerOptions) (j : Journal)
        (rs : List Assemble.Request), Assembly.Ledger nested name
      ((Assembly.start name o j).ask nested rs).1 ((Assembly.start name o j).ask nested rs).2) ∧
    (∀ (nested : Nested) (a : Assembly) (rs more : List Assemble.Request),
      (a.ask nested rs).2.Retains (a.ask nested (rs ++ more)).2) ∧
    ∀ (o : CompilerOptions) (depth : Nat) (name : String) (b : Flow.Body) (j : Journal),
      match Assemble.body (Compiling.unitWithin o depth) b (.start name o j) with
      | .ok u z => (∃ given,
          (Assembly.start name o j).Answers (Compiling.unitWithin o depth) given z ∧
            Assembly.Ledger (Compiling.unitWithin o depth) name given z) ∧
          u.constants = z.pool.entries ∧ u.thunks = z.thunks.units.toList ∧
            u.closures = z.closures.units.toList
      | .error _ z => ∃ given,
          (Assembly.start name o j).Answers (Compiling.unitWithin o depth) given z ∧
            Assembly.Ledger (Compiling.unitWithin o depth) name given z := by
  refine ⟨fun nested name o j rs => ((Assembly.answers_ask nested _ rs).filed rfl).ledger,
    fun nested a rs more => ?_, fun o depth name b j => ?_⟩
  · rw [Assembly.ask_append]
    exact (Assembly.answers_ask nested _ more).retains
  · have hasks := Assemble.asks_body (Compiling.unitWithin o depth) b (.start name o j) rfl
    cases hrun : Assemble.body (Compiling.unitWithin o depth) b (.start name o j) with
    | ok u z =>
      rw [hrun] at hasks
      obtain ⟨-, given, hgiven⟩ := hasks
      exact ⟨⟨given, hgiven, (hgiven.filed rfl).ledger⟩, Assemble.tables_of_body hrun⟩
    | error e z =>
      rw [hrun] at hasks
      obtain ⟨given, hgiven⟩ := hasks
      exact ⟨given, hgiven, (hgiven.filed rfl).ledger⟩

end CallByNeed
