import CallByNeed.Proofs.Code.Tables

/-!
# What numbering nested units leaves

The rules of `Emits` for the indexes of late arguments and function literals. The unit at the index
is the one made of the body that was met first under the identity.
-/

namespace CallByNeed

open CallByNeed.Flow (Term Thunk Procedure NodeId CallSite)

/-! ## Registries -/

namespace Registry

variable {υ β : Type} {r : Registry υ} {node : NodeId} {unit : υ} {i : Nat}

/-- The index of the unit added last, and of those before. -/
lemma index?_insert (r : Registry υ) (node : NodeId) (unit : υ) (node' : NodeId) :
    (r.insert node unit).2.index? node' = if node = node' then some r.size else r.index? node' := by
  show (r.indexes.insert node.id r.size)[node'.id]? = _
  rw [Std.TreeMap.getElem?_insert]
  by_cases h : node = node'
  · simp [h]
  · have hid : node.id ≠ node'.id := fun hid => h (by cases node; cases node'; cases hid; rfl)
    rw [if_neg h, if_neg (by simpa using hid)]
    rfl

/-- The units before the one added last stay where they are. -/
lemma unit_insert {u : υ} (h : r.units[i]? = some u) :
    (r.insert node unit).2.units[i]? = some u := by
  show (r.units.push unit)[i]? = _
  rw [Array.getElem?_push]
  split
  · rename_i heq
    rw [heq, Array.getElem?_size] at h
    cases h
  · exact h

/-- A unit is added under a new identity while there is room. -/
lemma Sound.insert (hr : r.Sound) (hroom : r.size < maxConstants) :
    (r.insert node unit).2.Sound where
  size := by
    show (r.units.push unit).size ≤ _
    rw [Array.size_push]
    exact hroom
  index node' i h := by
    rw [index?_insert] at h
    show i < (r.units.push unit).size
    rw [Array.size_push]
    split at h
    · cases h
      exact Nat.lt_succ_self _
    · exact Nat.lt_succ_of_lt (hr.index node' i h)

variable {key : β → NodeId} {made : Nat → β → υ → Prop} {ds : List β} {d : β}

/-- An identity that has an index was met. -/
lemma Lists.any_of_some (h : r.Lists key made ds) (hi : r.index? node = some i) :
    ds.any (fun e => key e = node) = true := by
  rw [h.index] at hi
  obtain ⟨hlt, hat, -⟩ := List.findIdx?_eq_some_iff_getElem.1 hi
  exact List.any_eq_true.2 ⟨ds[i], List.getElem_mem hlt, hat⟩

/-- An identity that has no index was not met. -/
lemma Lists.not_any_of_none (h : r.Lists key made ds) (hi : r.index? node = none) :
    ¬ ds.any (fun e => key e = node) = true := by
  rw [h.index, List.findIdx?_eq_none_iff] at hi
  rw [List.any_eq_true]
  rintro ⟨e, he, heq⟩
  rw [hi e he] at heq
  cases heq

/-- A unit made of a body that was not met is added at the end. -/
lemma Lists.insert (h : r.Lists key made ds) (hi : r.index? (key d) = none)
    (hmade : made r.size d unit) :
    (r.insert (key d) unit).2.Lists key made (ds ++ [d]) where
  size := by
    show (r.units.push unit).size = _
    rw [Array.size_push, h.size, List.length_append]
    rfl
  index node' := by
    rw [index?_insert, List.findIdx?_append, ← h.index node']
    by_cases hn : key d = node'
    · have hsize : r.size = ds.length := h.size
      subst hn
      rw [if_pos rfl, hi, hsize]
      simp
    · rw [if_neg hn]
      simp [hn]
  made k e u he hu := by
    have hu : (r.units.push unit)[k]? = some u := hu
    rw [Array.getElem?_push] at hu
    split at hu
    · rename_i hk
      cases hu
      rw [hk, h.size, List.getElem?_append_right (Nat.le_refl _), Nat.sub_self] at he
      cases he
      rw [hk]
      exact hmade
    · have hlt : k < r.units.size := by
        by_contra hge
        rw [Array.getElem?_eq_none (Nat.le_of_not_lt hge)] at hu
        cases hu
      rw [h.size] at hlt
      rw [List.getElem?_append_left hlt] at he
      exact h.made k e u he hu

end Registry

/-! ## Steps -/

namespace Assembly

variable {nested : Nested} {a : Assembly}

/-- Running a step that needs the journal only. -/
lemma journaled_apply {α : Type} (step : EStateM CompileError Journal α) (a : Assembly) :
    Assemble.journaled step a = match step a.journal with
      | .ok x j => .ok x { a with journal := j }
      | .error e j => .error e { a with journal := j } := rfl

/-- A step on the journal succeeds as it does by itself. -/
lemma journaled_eq_ok {α : Type} {step : EStateM CompileError Journal α} {x : α} {a' : Assembly}
    (h : Assemble.journaled step a = .ok x a') :
    ∃ j, step a.journal = .ok x j ∧ a' = { a with journal := j } := by
  rw [journaled_apply] at h
  cases hs : step a.journal with
  | ok y j =>
    rw [hs] at h
    cases h
    exact ⟨j, rfl, rfl⟩
  | error e j =>
    rw [hs] at h
    cases h

/-- There is room for one more unit. -/
lemma checkRoom_eq_ok {n : Nat} {x : Unit} {a' : Assembly}
    (h : Assemble.checkRoom n a = .ok x a') : n < maxConstants ∧ a' = a := by
  unfold Assemble.checkRoom at h
  split at h
  · cases h
  · rename_i hroom
    cases h
    exact ⟨Nat.lt_of_not_le hroom, rfl⟩

/-- The unit of a late argument is the one of its identity, or a new one at the end. -/
lemma thunkIndex_eq_ok {d : Thunk} {i : Nat} {a' : Assembly}
    (h : Assemble.thunkIndex nested d a = .ok i a') :
    (a' = a ∧ a.thunks.index? d.node = some i) ∨
      ∃ unit j, a.thunks.index? d.node = none ∧ a.thunks.size < maxConstants ∧ i = a.thunks.size ∧
        nested (nestedName a.unit "thunk" a.thunks.size) d.body a.journal = .ok unit j ∧
        a' = { a with thunks := (a.thunks.insert d.node unit).2, journal := j } := by
  rw [Assemble.thunkIndex, Assemble.get_bind_apply] at h
  cases hi : a.thunks.index? d.node with
  | some k =>
    rw [hi] at h
    cases h
    exact .inl ⟨rfl, rfl⟩
  | none =>
    rw [hi] at h
    simp only [Assemble.bind_apply] at h
    cases hroom : Assemble.checkRoom a.thunks.size a with
    | error e b => rw [hroom] at h; cases h
    | ok _ b =>
      obtain ⟨hlt, rfl⟩ := checkRoom_eq_ok hroom
      rw [hroom] at h
      dsimp only at h
      cases hunit : Assemble.journaled
          (nested (nestedName b.unit "thunk" b.thunks.size) d.body) b with
      | error e c => rw [hunit] at h; cases h
      | ok unit c =>
        obtain ⟨j, hj, rfl⟩ := journaled_eq_ok hunit
        rw [hunit] at h
        cases h
        exact .inr ⟨unit, j, rfl, hlt, rfl, hj, rfl⟩

/-- Running what numbers a function literal. -/
lemma closureIndex_apply (node : NodeId) (p : Procedure Term) (a : Assembly) :
    Assemble.closureIndex nested node p a = (match a.closures.index? node with
      | some index => (return index : Assemble Nat)
      | none => do
        Assemble.checkRoom a.closures.size
        let unit ← Assemble.journaled
          (Assemble.functionUnit nested (closureName a.unit a.closures.size p) p)
        modifyGet fun a : Assembly =>
          ((a.closures.insert node unit).1,
            { a with closures := (a.closures.insert node unit).2 })) a := rfl

/-- The unit of a function literal is the one of its identity, or a new one at the end. -/
lemma closureIndex_eq_ok {node : NodeId} {p : Procedure Term} {i : Nat} {a' : Assembly}
    (h : Assemble.closureIndex nested node p a = .ok i a') :
    (a' = a ∧ a.closures.index? node = some i) ∨
      ∃ unit j, a.closures.index? node = none ∧ a.closures.size < maxConstants ∧
        i = a.closures.size ∧
        Assemble.functionUnit nested (closureName a.unit a.closures.size p) p a.journal
          = .ok unit j ∧
        a' = { a with closures := (a.closures.insert node unit).2, journal := j } := by
  rw [closureIndex_apply] at h
  cases hi : a.closures.index? node with
  | some k =>
    rw [hi] at h
    cases h
    exact .inl ⟨rfl, rfl⟩
  | none =>
    rw [hi] at h
    simp only [Assemble.bind_apply] at h
    cases hroom : Assemble.checkRoom a.closures.size a with
    | error e b => rw [hroom] at h; cases h
    | ok _ b =>
      obtain ⟨hlt, rfl⟩ := checkRoom_eq_ok hroom
      rw [hroom] at h
      dsimp only at h
      cases hunit : Assemble.journaled
          (Assemble.functionUnit nested (closureName b.unit b.closures.size p) p) b with
      | error e c =>
        rw [hunit] at h
        cases h
      | ok unit c =>
        obtain ⟨j, hj, rfl⟩ := journaled_eq_ok hunit
        rw [hunit] at h
        cases h
        exact .inr ⟨unit, j, rfl, hlt, rfl, hj, rfl⟩

end Assembly

namespace Emits

variable {nested : Nested} {anon : List Mark}

/-- The index of the unit of a late argument. -/
lemma thunkIndex (d : Thunk) :
    Emits nested anon [.thunk d] (Assemble.thunkIndex nested d) (fun i p q z u =>
      q = p ∧ i < maxConstants ∧ z.thunks.index? d.node = some i ∧
        ∃ unit, u.thunks[i]? = some unit) := by
  intro a i a' hc ha _
  have hat : ∀ {z b : Assembly} {u : CodeUnit}, z.Links u → b.Extends z → b.Sound →
      b.thunks.index? d.node = some i → i < maxConstants ∧ z.thunks.index? d.node = some i ∧
        ∃ unit, u.thunks[i]? = some unit := by
    intro z b u hz he hb hi
    have hlt := hb.thunks.index _ _ hi
    refine ⟨Nat.lt_of_lt_of_le hlt hb.thunks.size, he.thunks _ _ hi, b.thunks.units[i], ?_⟩
    rw [hz.thunks, Array.getElem?_toList]
    exact he.thunkUnits _ _ (Array.getElem?_eq_getElem hlt)
  rcases Assembly.thunkIndex_eq_ok hc with ⟨rfl, hi⟩ | ⟨unit, j, hnone, hroom, rfl, hunit, rfl⟩
  · refine ⟨⟨.refl _, ha, fun _ h => h, fun _ h => h, fun ds hds => ?_⟩,
      fun z u hz he => ⟨rfl, hat hz he ha hi⟩⟩
    rw [Notes.addAll_cons, Notes.addAll_nil, Notes.add, if_pos (hds.thunks.any_of_some hi)]
    exact hds
  · have hindex : (a.thunks.insert d.node unit).2.index? d.node = some a.thunks.size := by
      rw [Registry.index?_insert, if_pos rfl]
    have hsound : ({ a with
        thunks := (a.thunks.insert d.node unit).2, journal := j } : Assembly).Sound :=
      ⟨ha.draws.imp fun _ h => h.congr rfl rfl, ha.pool, ha.slots, ha.thunks.insert hroom,
        ha.closures, ha.jumps⟩
    refine ⟨{
      unit := rfl
      options := rfl
      draws := fun ks h => ⟨[], by rw [List.append_nil]; exact h.congr rfl rfl⟩
      marks := fun _ _ h => h
      labels := fun _ _ h => h
      entries := fun _ _ h => h
      calls := fun _ _ h => h
      slots := fun _ _ h => h
      thunks := fun node k hk => by
        rw [Registry.index?_insert, if_neg]
        · exact hk
        · rintro rfl
          rw [hnone] at hk
          cases hk
      thunkUnits := fun k v hv => Registry.unit_insert hv
      closures := fun _ _ h => h
      closureUnits := fun _ _ h => h
      sound := hsound
      anonymous := fun _ h => h
      binds := fun _ h => h
      notes := fun ds hds => ?_ }, fun z u hz he => ⟨rfl, hat hz he hsound hindex⟩⟩
    rw [Notes.addAll_cons, Notes.addAll_nil, Notes.add,
      if_neg (hds.thunks.not_any_of_none hnone)]
    exact ⟨hds.thunks.insert hnone ⟨_, _, hunit⟩, hds.closures, hds.sites⟩

/-- The index of a function literal. -/
lemma closureIndex (node : NodeId) (f : Procedure Term) :
    Emits nested anon [.closure node f] (Assemble.closureIndex nested node f) (fun i p q z u =>
      q = p ∧ i < maxConstants ∧ z.closures.index? node = some i ∧
        ∃ unit, u.closures[i]? = some unit) := by
  intro a i a' hc ha _
  have hat : ∀ {z b : Assembly} {u : CodeUnit}, z.Links u → b.Extends z → b.Sound →
      b.closures.index? node = some i → i < maxConstants ∧ z.closures.index? node = some i ∧
        ∃ unit, u.closures[i]? = some unit := by
    intro z b u hz he hb hi
    have hlt := hb.closures.index _ _ hi
    refine ⟨Nat.lt_of_lt_of_le hlt hb.closures.size, he.closures _ _ hi, b.closures.units[i], ?_⟩
    rw [hz.closures, Array.getElem?_toList]
    exact he.closureUnits _ _ (Array.getElem?_eq_getElem hlt)
  rcases Assembly.closureIndex_eq_ok hc with ⟨rfl, hi⟩ | ⟨unit, j, hnone, hroom, rfl, hunit, rfl⟩
  · refine ⟨⟨.refl _, ha, fun _ h => h, fun _ h => h, fun ds hds => ?_⟩,
      fun z u hz he => ⟨rfl, hat hz he ha hi⟩⟩
    rw [Notes.addAll_cons, Notes.addAll_nil, Notes.add, if_pos (hds.closures.any_of_some hi)]
    exact hds
  · have hindex : (a.closures.insert node unit).2.index? node = some a.closures.size := by
      rw [Registry.index?_insert, if_pos rfl]
    have hsound : ({ a with
        closures := (a.closures.insert node unit).2, journal := j } : Assembly).Sound :=
      ⟨ha.draws.imp fun _ h => h.congr rfl rfl, ha.pool, ha.slots, ha.thunks,
        ha.closures.insert hroom, ha.jumps⟩
    refine ⟨{
      unit := rfl
      options := rfl
      draws := fun ks h => ⟨[], by rw [List.append_nil]; exact h.congr rfl rfl⟩
      marks := fun _ _ h => h
      labels := fun _ _ h => h
      entries := fun _ _ h => h
      calls := fun _ _ h => h
      slots := fun _ _ h => h
      thunks := fun _ _ h => h
      thunkUnits := fun _ _ h => h
      closures := fun node' k hk => by
        rw [Registry.index?_insert, if_neg]
        · exact hk
        · rintro rfl
          rw [hnone] at hk
          cases hk
      closureUnits := fun k v hv => Registry.unit_insert hv
      sound := hsound
      anonymous := fun _ h => h
      binds := fun _ h => h
      notes := fun ds hds => ?_ }, fun z u hz he => ⟨rfl, hat hz he hsound hindex⟩⟩
    rw [Notes.addAll_cons, Notes.addAll_nil, Notes.add,
      if_neg (hds.closures.not_any_of_none hnone)]
    exact ⟨hds.thunks, hds.closures.insert (d := (node, f)) hnone ⟨_, _, hunit⟩, hds.sites⟩

end Emits

end CallByNeed
