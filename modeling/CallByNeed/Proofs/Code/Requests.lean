import CallByNeed.Proofs.Code.Composition

/-!
# Requests to the tables of a unit

Constants, late arguments and function literals get their indexes in one way
(`Assemble.Request.answer_eq`): what has been entered keeps its index, anything new comes last in
its table while there is room, and a full table stays as it is. What a new entry changes is said
once for all requests (`Assemble.Request.enters_of_enter`).
-/

namespace CallByNeed

open CallByNeed.Flow (Term Thunk Procedure NodeId CallSite SlotKey Graph)

/-- What has been entered in the tables of a unit stays where it is. -/
structure Assembly.Retains (a b : Assembly) : Prop where
  unit : b.unit = a.unit
  owner : b.pool.unit = a.pool.unit
  entries : ∀ (i : Nat) c, a.pool.entries[i]? = some c → b.pool.entries[i]? = some c
  thunks : ∀ (i : Nat) u, a.thunks.units[i]? = some u → b.thunks.units[i]? = some u
  closures : ∀ (i : Nat) f, a.closures.units[i]? = some f → b.closures.units[i]? = some f

lemma Assembly.Retains.refl (a : Assembly) : a.Retains a :=
  ⟨rfl, rfl, fun _ _ h => h, fun _ _ h => h, fun _ _ h => h⟩

lemma Assembly.Retains.trans {a b c : Assembly} (h : a.Retains b) (h' : b.Retains c) :
    a.Retains c :=
  ⟨h'.unit.trans h.unit, h'.owner.trans h.owner, fun i c hc => h'.entries i c (h.entries i c hc),
    fun i u hu => h'.thunks i u (h.thunks i u hu),
    fun i f hf => h'.closures i f (h.closures i f hf)⟩

namespace Assemble

/-- What can be asked of the tables of a unit. -/
inductive Request where
  | literal (e : Expr)
  | name (s : Symbol)
  | primitive (s : Symbol)
  | call (c : CallSite)
  | thunk (d : Thunk)
  | closure (node : NodeId) (p : Procedure Term)

/-- The tables of a unit that hand out indexes. -/
inductive Table where
  | constants
  | thunks
  | closures

/-- How many entries a table has. -/
def Table.count (a : Assembly) : Table → Nat
  | constants => a.pool.size
  | thunks => a.thunks.size
  | closures => a.closures.size

/-- The name that a table has for its unit. -/
def Table.owner (a : Assembly) : Table → String
  | constants => a.pool.unit
  | thunks | closures => a.unit

namespace Request

variable {nested : Nested} {a b : Assembly} {r r' x : Request} {i : Nat} {e : CompileError}

/-- The table that the request is for. -/
def table : Request → Table
  | literal _ | name _ | primitive _ | call _ => .constants
  | thunk _ => .thunks
  | closure .. => .closures

/-- Answering a request. -/
def answer (nested : Nested) : Request → Assemble Nat
  | literal e => onPool (Pool.literal e)
  | name s => nameIndex s
  | primitive s => primitiveIndex s
  | call c => callIndex c
  | thunk d => thunkIndex nested d
  | closure node p => closureIndex nested node p

/-- Two requests get one entry: the same name, the same builtin, or the same identity. A literal is
entered each time. -/
def Shares : Request → Request → Prop
  | name s, name s' => s = s'
  | primitive s, primitive s' => s = s'
  | call c, call c' => c.id = c'.id
  | thunk d, thunk d' => d.node = d'.node
  | closure node _, closure node' _ => node = node'
  | _, _ => False

/-- The index of what has been entered already. -/
def entered? (a : Assembly) : Request → Option Nat
  | literal _ => none
  | name s => a.pool.names[s.name]?
  | primitive s => a.pool.primitives[s.name]?
  | call c => a.pool.calls[c.id]?
  | thunk d => a.thunks.index? d.node
  | closure node _ => a.closures.index? node

/-- What the request asks for stands at the index: a constant, or a unit made of the body under the
name for this index. -/
def Denotes (nested : Nested) (a : Assembly) (i : Nat) : Request → Prop
  | literal e => a.pool.entries[i]? = some (.literal e)
  | name s => a.pool.entries[i]? = some (.name s)
  | primitive s => a.pool.entries[i]? = some (.primitive s)
  | call c => a.pool.entries[i]? = some (.call c.call)
  | thunk d => ∃ u j j', a.thunks.units[i]? = some u ∧
      nested (nestedName a.unit "thunk" i) d.body j = .ok u j'
  | closure _ p => ∃ f j j', a.closures.units[i]? = some f ∧
      functionUnit nested (closureName a.unit i p) p j = .ok f j'

/-- The unit that the request needs does not compile. -/
def Fails (nested : Nested) (a : Assembly) (e : CompileError) : Request → Prop
  | thunk d =>
    ∃ j, nested (nestedName a.unit "thunk" a.thunks.size) d.body a.journal = .error e j
  | closure _ p => ∃ j,
    functionUnit nested (closureName a.unit a.closures.size p) p a.journal = .error e j
  | _ => False

/-- Making a new entry. -/
def enter (nested : Nested) : Request → Assemble Nat
  | literal e => onPool (Pool.push (.literal e))
  | name s => onPool do
    let i ← Pool.push (.name s)
    modify fun p => { p with names := p.names.insert s.name i }
    return i
  | primitive s => onPool do
    let i ← Pool.push (.primitive s)
    modify fun p => { p with primitives := p.primitives.insert s.name i }
    return i
  | call c => onPool do
    let i ← Pool.push (.call c.call)
    modify fun p => { p with calls := p.calls.insert c.id i }
    return i
  | thunk d => do
    let a ← get
    let u ← journaled (nested (nestedName a.unit "thunk" a.thunks.size) d.body)
    modifyGet fun a => ((a.thunks.insert d.node u).1,
      { a with thunks := (a.thunks.insert d.node u).2 })
  | closure node p => do
    let a ← get
    let f ← journaled (functionUnit nested (closureName a.unit a.closures.size p) p)
    modifyGet fun a => ((a.closures.insert node f).1,
      { a with closures := (a.closures.insert node f).2 })

/-! ## One request -/

/-- Entering a constant. -/
lemma onPool_push (c : Constant) (a : Assembly) :
    onPool (Pool.push c) a = if a.pool.size < maxConstants then
        .ok a.pool.size { a with pool := { a.pool with entries := a.pool.entries.push c } }
      else .error (.tooManyConstants a.pool.unit maxConstants) a := by
  rw [Assembly.onPool_apply, Pool.push]
  by_cases h : a.pool.size < maxConstants
  · rw [if_pos h, if_pos h]
  · rw [if_neg h, if_neg h]

/-- Entering a constant that is remembered. -/
lemma onPool_push_bind (c : Constant) (g : Nat → Pool → Pool) (a : Assembly) :
    onPool (do
      let i ← Pool.push c
      modify (g i)
      return i) a =
    if a.pool.size < maxConstants then
      .ok a.pool.size { a with
        pool := g a.pool.size { a.pool with entries := a.pool.entries.push c } }
    else .error (.tooManyConstants a.pool.unit maxConstants) a := by
  rw [Assembly.onPool_apply, Pool.bind_apply, Pool.push]
  by_cases h : a.pool.size < maxConstants
  · rw [if_pos h, if_pos h]
    rfl
  · rw [if_neg h, if_neg h]

/-- There is room for another unit, or the table is full. -/
lemma checkRoom_bind {α : Type} (n : Nat) (c : Assemble α) (a : Assembly) :
    (checkRoom n >>= fun _ => c) a =
      if n < maxConstants then c a else .error (.tooManyConstants a.unit maxConstants) a := by
  rw [bind_apply, checkRoom]
  by_cases h : n < maxConstants
  · rw [if_neg (Nat.not_le_of_lt h), if_pos h]
    rfl
  · rw [if_pos (Nat.le_of_not_lt h), if_neg h]
    rfl

/-- A full pool takes nothing. -/
lemma enter_full (hr : r.table = .constants) (hfull : ¬ a.pool.size < maxConstants) :
    r.enter nested a = .error (.tooManyConstants a.pool.unit maxConstants) a := by
  cases r with
  | literal => exact (onPool_push ..).trans (if_neg hfull)
  | name | primitive | call => exact (onPool_push_bind ..).trans (if_neg hfull)
  | thunk | closure => cases hr

/-- **Answering a request**: what has been entered keeps its index, anything new comes last in its
table while there is room. -/
theorem answer_eq (nested : Nested) (r : Request) (a : Assembly) :
    r.answer nested a = match r.entered? a with
      | some i => .ok i a
      | none =>
        if r.table.count a < maxConstants then r.enter nested a
        else .error (.tooManyConstants (r.table.owner a) maxConstants) a := by
  have hconstant : r.table = .constants → r.enter nested a =
      if r.table.count a < maxConstants then r.enter nested a
      else .error (.tooManyConstants (r.table.owner a) maxConstants) a := by
    intro hr
    rw [hr]
    by_cases hroom : a.pool.size < maxConstants
    · exact (if_pos hroom).symm
    · exact (enter_full hr hroom).trans (if_neg hroom).symm
  cases r with
  | literal e => exact hconstant rfl
  | name s =>
    show onPool (Pool.name s) a = match a.pool.names[s.name]? with | some i => _ | none => _
    rw [Assembly.onPool_apply, Pool.name_apply]
    cases a.pool.names[s.name]? with
    | some i => rfl
    | none => exact hconstant rfl
  | primitive s =>
    show onPool (Pool.primitive s) a
      = match a.pool.primitives[s.name]? with | some i => _ | none => _
    rw [Assembly.onPool_apply, Pool.primitive_apply]
    cases a.pool.primitives[s.name]? with
    | some i => rfl
    | none => exact hconstant rfl
  | call c =>
    show onPool (Pool.call c) a = match a.pool.calls[c.id]? with | some i => _ | none => _
    rw [Assembly.onPool_apply, Pool.call_apply]
    cases a.pool.calls[c.id]? with
    | some i => rfl
    | none => exact hconstant rfl
  | thunk d =>
    show thunkIndex nested d a = match a.thunks.index? d.node with | some i => _ | none => _
    rw [thunkIndex, get_bind_apply]
    cases a.thunks.index? d.node with
    | some i => rfl
    | none => exact checkRoom_bind ..
  | closure node p =>
    show closureIndex nested node p a
      = match a.closures.index? node with | some i => _ | none => _
    rw [Assembly.closureIndex_apply]
    cases a.closures.index? node with
    | some i => rfl
    | none => exact checkRoom_bind ..

/-! ## Entries -/

lemma Shares.symm (h : r.Shares r') : r'.Shares r := by
  cases r <;> cases r' <;> first | exact h.elim | exact Eq.symm h

lemma Shares.trans (h : r.Shares r') (h' : r'.Shares x) : r.Shares x := by
  cases r <;> cases r' <;> first | exact h.elim | skip
  all_goals cases x <;> first | exact h'.elim | exact Eq.trans h h'

lemma Shares.table (h : r.Shares r') : r.table = r'.table := by
  cases r <;> cases r' <;> first | exact h.elim | rfl

/-- Requests that share an entry find it at the same index. -/
lemma Shares.entered? (h : r.Shares r') (a : Assembly) : r.entered? a = r'.entered? a := by
  cases r <;> cases r' <;> first | exact h.elim | skip
  case closure =>
    cases h
    rfl
  all_goals
    simp only [Shares] at h
    simp only [Request.entered?, h]

lemma Denotes.mono (h : r.Denotes nested a i) (hab : a.Retains b) : r.Denotes nested b i := by
  cases r with
  | literal | name | primitive | call => exact hab.entries _ _ h
  | thunk d =>
    obtain ⟨u, j, j', hu, hmade⟩ := h
    exact ⟨u, j, j', hab.thunks _ _ hu, by rw [hab.unit]; exact hmade⟩
  | closure node p =>
    obtain ⟨f, j, j', hf, hmade⟩ := h
    exact ⟨f, j, j', hab.closures _ _ hf, by rw [hab.unit]; exact hmade⟩

/-- What a request asks for stands in its table. -/
lemma Denotes.lt (h : r.Denotes nested a i) : i < r.table.count a := by
  have hlt : ∀ {υ : Type} {xs : Array υ} {x : υ}, xs[i]? = some x → i < xs.size :=
    fun hx => (Array.getElem?_eq_some_iff.1 hx).1
  cases r with
  | literal | name | primitive | call => exact hlt h
  | thunk d =>
    obtain ⟨u, j, j', hu, -⟩ := h
    exact hlt hu
  | closure node p =>
    obtain ⟨f, j, j', hf, -⟩ := h
    exact hlt hf

/-! ## New entries -/

/-- What a new entry changes: it comes last in its table, under a key that was not in use. -/
structure Enters (nested : Nested) (r : Request) (a : Assembly) (i : Nat) (b : Assembly) :
    Prop where
  index : i = r.table.count a
  retains : a.Retains b
  denotes : r.Denotes nested b i
  /-- Whoever shares the entry finds it from now on. -/
  shared : ∀ x : Request, r.Shares x → x.entered? b = some i
  others : ∀ x : Request, ¬ r.Shares x → x.entered? b = x.entered? a
  count : r.table.count b = r.table.count a + 1
  counts : ∀ T : Table, T ≠ r.table → T.count b = T.count a
  options : b.options = a.options
  slots : b.slots = a.slots

/-- After entering a key in a map, either it is the key that is looked up, or nothing has changed
for that one. -/
lemma getElem?_insert_cases {κ : Type} [Ord κ] [Std.TransOrd κ] [Std.LawfulEqOrd κ]
    (m : Std.TreeMap κ Nat) (k k' : κ) (i : Nat) :
    (k = k' ∧ (m.insert k i)[k']? = some i) ∨ (k ≠ k' ∧ (m.insert k i)[k']? = m[k']?) := by
  rw [Std.TreeMap.getElem?_insert]
  by_cases h : k = k'
  · exact .inl ⟨h, if_pos (by simpa using h)⟩
  · exact .inr ⟨h, if_neg (by simpa using h)⟩

/-- The same for a table of units. -/
lemma index?_insert_cases {υ : Type} (t : Registry υ) (node node' : NodeId) (u : υ) :
    (node = node' ∧ (t.insert node u).2.index? node' = some t.size) ∨
      (node ≠ node' ∧ (t.insert node u).2.index? node' = t.index? node') := by
  rw [Registry.index?_insert]
  by_cases h : node = node'
  · exact .inl ⟨h, if_pos h⟩
  · exact .inr ⟨h, if_neg h⟩

/-- Entering a constant. -/
lemma enters_constant {c : Constant} {p : Pool} {e : CompileError}
    (h : (if a.pool.size < maxConstants then .ok a.pool.size { a with pool := p }
      else .error e a : EStateM.Result CompileError Assembly Nat) = .ok i b)
    (htable : r.table = .constants) (hunit : p.unit = a.pool.unit)
    (hentries : p.entries = a.pool.entries.push c)
    (hdenotes : ∀ b : Assembly, b.pool.entries[a.pool.size]? = some c →
      r.Denotes nested b a.pool.size)
    (hentered : ∀ x : Request,
      (r.Shares x ∧ x.entered? { a with pool := p } = some a.pool.size) ∨
        (¬ r.Shares x ∧ x.entered? { a with pool := p } = x.entered? a)) :
    r.Enters nested a i b := by
  split at h
  case isFalse => cases h
  case isTrue =>
    cases h
    exact
      { index := by rw [htable]; rfl
        retains := { Assembly.Retains.refl a with
          owner := hunit
          entries := fun i d h => by
            show p.entries[i]? = some d
            rw [hentries]
            exact Pool.entry_push h }
        denotes := hdenotes _ (by rw [hentries]; exact Array.getElem?_push_size)
        shared := fun x hx => (hentered x).elim And.right fun h => absurd hx h.1
        others := fun x hx => (hentered x).elim (fun h => absurd h.1 hx) And.right
        count := by
          rw [htable]
          show p.entries.size = a.pool.entries.size + 1
          rw [hentries, Array.size_push]
        counts := fun T hT => by
          cases T with
          | constants => exact absurd htable.symm hT
          | thunks | closures => rfl
        options := rfl
        slots := rfl }

/-- Taking in the unit of a nested body succeeds as compiling the body does. -/
lemma journaled_bind_eq_ok_iff {υ : Type} {step : EStateM CompileError Journal υ}
    {g : υ → Assembly → Nat × Assembly} :
    (journaled step >>= fun u => modifyGet (g u)) a = .ok i b ↔
      ∃ u j, step a.journal = .ok u j ∧ g u { a with journal := j } = (i, b) := by
  rw [bind_apply, Assembly.journaled_apply]
  cases step a.journal with
  | error e j =>
    constructor
    · intro h
      cases h
    · rintro ⟨u, j', h, -⟩
      cases h
  | ok u j =>
    constructor
    · intro h
      cases h
      exact ⟨u, j, rfl, rfl⟩
    · rintro ⟨u', j', h, hg⟩
      cases h
      show EStateM.Result.ok (g u { a with journal := j }).1 (g u { a with journal := j }).2 = _
      rw [hg]

/-- Taking in the unit of a nested body fails as compiling the body does. -/
lemma journaled_bind_eq_error_iff {υ : Type} {step : EStateM CompileError Journal υ}
    {g : υ → Assembly → Nat × Assembly} :
    (journaled step >>= fun u => modifyGet (g u)) a = .error e b ↔
      ∃ j, step a.journal = .error e j ∧ b = { a with journal := j } := by
  rw [bind_apply, Assembly.journaled_apply]
  cases step a.journal with
  | ok u j =>
    constructor
    · intro h
      cases h
    · rintro ⟨j', h, -⟩
      cases h
  | error e' j =>
    constructor
    · intro h
      cases h
      exact ⟨j, rfl, rfl⟩
    · rintro ⟨j', h, rfl⟩
      cases h
      rfl

/-- **Making a new entry** changes what it must and nothing else. -/
theorem enters_of_enter (h : r.enter nested a = .ok i b) : r.Enters nested a i b := by
  cases r with
  | literal e =>
    refine enters_constant ((onPool_push ..).symm.trans h) rfl rfl rfl (fun b hb => hb) fun x => ?_
    cases x <;> exact .inr ⟨id, rfl⟩
  | name s =>
    refine enters_constant ((onPool_push_bind ..).symm.trans h) rfl rfl rfl (fun b hb => hb)
      fun x => ?_
    cases x with
    | name s' =>
      exact (getElem?_insert_cases a.pool.names s.name s'.name _).imp
        (.imp_left (congrArg Symbol.mk)) (.imp_left fun hne heq => hne (congrArg Symbol.name heq))
    | literal | primitive | call | thunk | closure => exact .inr ⟨id, rfl⟩
  | primitive s =>
    refine enters_constant ((onPool_push_bind ..).symm.trans h) rfl rfl rfl (fun b hb => hb)
      fun x => ?_
    cases x with
    | primitive s' =>
      exact (getElem?_insert_cases a.pool.primitives s.name s'.name _).imp
        (.imp_left (congrArg Symbol.mk)) (.imp_left fun hne heq => hne (congrArg Symbol.name heq))
    | literal | name | call | thunk | closure => exact .inr ⟨id, rfl⟩
  | call c =>
    refine enters_constant ((onPool_push_bind ..).symm.trans h) rfl rfl rfl (fun b hb => hb)
      fun x => ?_
    cases x with
    | call c' => exact getElem?_insert_cases a.pool.calls c.id c'.id _
    | literal | name | primitive | thunk | closure => exact .inr ⟨id, rfl⟩
  | thunk d =>
    rw [enter, get_bind_apply, journaled_bind_eq_ok_iff] at h
    obtain ⟨u, j, hj, h⟩ := h
    cases h
    have hentered := fun x : Thunk => index?_insert_cases a.thunks d.node x.node u
    exact
      { index := rfl
        retains := { Assembly.Retains.refl a with
          thunks := fun k v hv => Registry.unit_insert hv }
        denotes := ⟨u, _, j, Array.getElem?_push_size, hj⟩
        shared := fun x hx => by
          cases x with
          | thunk x => exact (hentered x).elim And.right fun h => absurd hx h.1
          | literal | name | primitive | call | closure => exact hx.elim
        others := fun x hx => by
          cases x with
          | thunk x => exact (hentered x).elim (fun h => absurd h.1 hx) And.right
          | literal | name | primitive | call | closure => rfl
        count := Array.size_push ..
        counts := fun T hT => by
          cases T with
          | thunks => exact absurd rfl hT
          | constants | closures => rfl
        options := rfl
        slots := rfl }
  | closure node p =>
    rw [enter, get_bind_apply, journaled_bind_eq_ok_iff] at h
    obtain ⟨f, j, hj, h⟩ := h
    cases h
    have hentered := fun node' => index?_insert_cases a.closures node node' f
    exact
      { index := rfl
        retains := { Assembly.Retains.refl a with
          closures := fun k v hv => Registry.unit_insert hv }
        denotes := ⟨f, _, j, Array.getElem?_push_size, hj⟩
        shared := fun x hx => by
          cases x with
          | closure node' => exact (hentered node').elim And.right fun h => absurd hx h.1
          | literal | name | primitive | call | thunk => exact hx.elim
        others := fun x hx => by
          cases x with
          | closure node' => exact (hentered node').elim (fun h => absurd h.1 hx) And.right
          | literal | name | primitive | call | thunk => rfl
        count := Array.size_push ..
        counts := fun T hT => by
          cases T with
          | closures => exact absurd rfl hT
          | constants | thunks => rfl
        options := rfl
        slots := rfl }

/-- While there is room, an entry is not made when its unit does not compile, and only then. -/
lemma enter_eq_error_iff (hroom : r.table.count a < maxConstants) :
    (∃ b, r.enter nested a = .error e b) ↔ r.Fails nested a e := by
  cases r with
  | literal =>
    have hroom : a.pool.size < maxConstants := hroom
    simp only [enter, onPool_push, if_pos hroom, reduceCtorEq, exists_false, Fails]
  | name | primitive | call =>
    have hroom : a.pool.size < maxConstants := hroom
    simp only [enter, onPool_push_bind, if_pos hroom, reduceCtorEq, exists_false, Fails]
  | thunk d =>
    simp only [enter, get_bind_apply, journaled_bind_eq_error_iff]
    simp only [exists_comm, exists_and_left, exists_eq, and_true, Fails]
  | closure node p =>
    simp only [enter, get_bind_apply, journaled_bind_eq_error_iff]
    simp only [exists_comm, exists_and_left, exists_eq, and_true, Fails]

/-- The journal is all that remains of an entry that is not made. -/
lemma eq_of_enter_error (h : r.enter nested a = .error e b) :
    b = { a with journal := b.journal } := by
  cases r with
  | literal c =>
    rw [enter, onPool_push] at h
    split at h <;> cases h
    rfl
  | name | primitive | call =>
    rw [enter, onPool_push_bind] at h
    split at h <;> cases h
    rfl
  | thunk | closure =>
    rw [enter, get_bind_apply, journaled_bind_eq_error_iff] at h
    obtain ⟨j, -, rfl⟩ := h
    rfl

/-- An answer is the index that was there or that of a new entry. -/
lemma cases_of_answer (h : r.answer nested a = .ok i b) :
    (r.entered? a = some i ∧ b = a) ∨
      r.entered? a = none ∧ r.table.count a < maxConstants ∧ r.Enters nested a i b := by
  rw [answer_eq] at h
  cases hr : r.entered? a with
  | some k =>
    rw [hr] at h
    cases h
    exact .inl ⟨rfl, rfl⟩
  | none =>
    simp only [hr] at h
    split at h
    case isTrue hroom => exact .inr ⟨rfl, hroom, enters_of_enter h⟩
    case isFalse => cases h

/-- A request is refused when it needs a new entry and the table is full, or the unit that it needs
does not compile. -/
lemma answer_eq_error_iff : (∃ b, r.answer nested a = .error e b) ↔ r.entered? a = none ∧
    ((maxConstants ≤ r.table.count a ∧ e = .tooManyConstants (r.table.owner a) maxConstants) ∨
      (r.table.count a < maxConstants ∧ r.Fails nested a e)) := by
  rw [answer_eq]
  cases r.entered? a with
  | some k => simp
  | none =>
    by_cases hroom : r.table.count a < maxConstants
    · simp only [hroom, if_true, enter_eq_error_iff, Nat.not_le_of_lt hroom, true_and, false_and,
        false_or]
    · simp [hroom, Nat.le_of_not_lt hroom, eq_comm]

/-- The journal is all that a refused request changes. -/
lemma eq_of_answer_error (h : r.answer nested a = .error e b) :
    b = { a with journal := b.journal } := by
  rw [answer_eq] at h
  cases hr : r.entered? a with
  | some k =>
    rw [hr] at h
    cases h
  | none =>
    simp only [hr] at h
    split at h
    · exact eq_of_enter_error h
    · cases h
      rfl

end Request

end Assemble

end CallByNeed
