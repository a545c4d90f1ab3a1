import CallByNeed.Proofs.Flow.Depth

/-!
# Units inside units

A unit holds the units of its late arguments and of its function literals, those of defaults
included, and so on to the bottom. Every unit inside a compiled unit was itself compiled from a body
(`Compiles.within`).
-/

namespace CallByNeed

open CallByNeed.Flow (Term Thunk Procedure NodeId Tables Body)

/-- The unit was compiled from the body. -/
def Compiles (o : CompilerOptions) (b : Flow.Body) (u : CodeUnit) : Prop :=
  ∃ depth name j k, b.depth < depth ∧ Compiling.unitWithin o depth name b j = .ok u k

/-- The formal of a unit was compiled from a formal in flow form. -/
structure FitsFormal (o : CompilerOptions) (x : Formal Thunk) (y : Formal CodeUnit) : Prop where
  name : y.name = x.name
  default : Option.Rel (fun (d : Thunk) u => Compiles o d.body u) x.default y.default

/-- The tables hold what something stands for. -/
def Fits (o : CompilerOptions) (T : Tables) : Visit → Prop
  | .thunk d => Compiles o d.body (T.thunk d.node)
  | .closure node p => List.Forall₂ (FitsFormal o) p.formals (T.closure node).formals ∧
    Compiles o p.body (T.closure node).body
  | .site c => T.call c.id = c.call

/-- The unit is this one or lies inside it, at any depth. -/
inductive CodeUnit.Within (v : CodeUnit) : CodeUnit → Prop
  | self : Within v v
  | thunk {u t : CodeUnit} (ht : t ∈ u.thunks) (h : v.Within t) : Within v u
  | body {u : CodeUnit} {f : FunctionUnit} (hf : f ∈ u.closures) (h : v.Within f.body) : Within v u
  | default {u d : CodeUnit} {f : FunctionUnit} {x : Formal CodeUnit} (hf : f ∈ u.closures)
    (hx : x ∈ f.formals) (hd : x.default = some d) (h : v.Within d) : Within v u

lemma Compiling.compiles_of_unit {o : CompilerOptions} {name : String} {b : Body} {u : CodeUnit}
    {j k : Journal} (h : unit o name b j = .ok u k) : Compiles o b u :=
  ⟨b.depth + 1, name, j, k, Nat.lt_succ_self _, h⟩

/-- A unit that was compiled was made of its body. -/
lemma Compiles.made {o : CompilerOptions} {b : Body} {u : CodeUnit} (h : Compiles o b u) :
    ∃ depth name z, b.depth ≤ depth ∧ Made (Compiling.unitWithin o depth) name b z u := by
  obtain ⟨depth, name, j, k, hdepth, h⟩ := h
  obtain ⟨depth, rfl⟩ := Nat.exists_eq_succ_of_ne_zero (Nat.ne_zero_of_lt hdepth)
  obtain ⟨z, hz⟩ := Compiling.made_of_unitWithin h
  exact ⟨depth, name, z, Nat.le_of_lt_succ hdepth, hz⟩

/-! ## Depth -/

namespace Visit

variable {o : CompilerOptions} {depth : Nat} {d : Thunk}

/-- The unit of a late argument that is not too deep was compiled. -/
lemma compiles_thunk (hle : (Visit.thunk d).depth ≤ depth) {name : String} {j k : Journal}
    {u : CodeUnit} (h : Compiling.unitWithin o depth name d.body j = .ok u k) :
    Compiles o d.body u :=
  ⟨depth, name, j, k, hle, h⟩

/-- The function unit of a literal that is not too deep was compiled. -/
lemma compiles_closure {node : NodeId} {p : Procedure Term}
    (hle : (Visit.closure node p).depth ≤ depth) {owner : String} {f : FunctionUnit}
    (h : MadeFunction (Compiling.unitWithin o depth) owner p f) :
    List.Forall₂ (FitsFormal o) p.formals f.formals ∧ Compiles o p.body f.body := by
  have hle : p.depth ≤ depth := hle
  obtain ⟨j, k, hunit⟩ := h.body
  refine ⟨?_, depth, owner, j, k, Nat.lt_of_lt_of_le p.depth_body hle, hunit⟩
  have hdefaults : ∀ x ∈ p.formals, ∀ d : Thunk, x.default = some d → Body.depth d.body < depth :=
    fun x hx d hd => Nat.lt_of_lt_of_le (Flow.Procedure.depth_default hx hd) hle
  refine ((List.forall₂_and_left _ _).2 ⟨hdefaults, h.formals⟩).imp fun x y ⟨hdeep, hxy⟩ =>
    ⟨hxy.name, ?_⟩
  have hdefault := hxy.default
  revert hdeep hdefault
  generalize x.default = d
  generalize y.default = u
  intro hdeep hdefault
  cases hdefault with
  | none => exact .none
  | some hd =>
    obtain ⟨j, k, hd⟩ := hd
    exact .some ⟨depth, _, j, k, hdeep _ rfl, hd⟩

end Visit

/-! ## Tables -/

/-- The units of a registry are made of the listed bodies. -/
lemma Registry.Lists.mem {υ β : Type} {r : Registry υ} {key : β → NodeId}
    {made : Nat → β → υ → Prop} {ds : List β} (h : r.Lists key made ds) {u : υ}
    (hu : u ∈ r.units.toList) : ∃ i, ∃ d ∈ ds, made i d u := by
  obtain ⟨i, hi⟩ := List.getElem?_of_mem hu
  rw [Array.getElem?_toList] at hi
  have hlt : i < ds.length := by
    rw [← h.size]
    exact (Array.getElem?_eq_some_iff.1 hi).1
  exact ⟨i, ds[i], List.getElem_mem hlt, h.made i _ _ (List.getElem?_eq_getElem hlt) hi⟩

/-- The unit that an identity stands for is made of a listed body with that identity. -/
lemma Registry.Lists.find_mem {υ β : Type} {r : Registry υ} {key : β → NodeId}
    {made : Nat → β → υ → Prop} {ds : List β} (h : r.Lists key made ds) {d : β} (hd : d ∈ ds) :
    ∃ d' u, d' ∈ ds ∧ key d' = key d ∧
      (r.index? (key d)).bind (fun i => r.units[i]?) = some u ∧ ∃ i, made i d' u := by
  rcases h.find (key d) with ⟨i, d', u, -, hi, hkey, hu, hmade⟩ | ⟨hi, -⟩
  · exact ⟨d', u, List.mem_of_getElem? hi, hkey, hu, i, hmade⟩
  · have hnone := List.findIdx?_eq_none_iff.1 hi d hd
    simp at hnone

namespace Made

variable {o : CompilerOptions} {depth : Nat} {name : String} {b : Body} {z : Assembly}
  {u : CodeUnit}

/-- What was noted is met in the body. -/
lemma meets_noted {v : Visit} (h : v ∈ (Notes.addAll {} b.visits).visits) : v ∈ b.meets :=
  Body.mem_meets ((Notes.mem_of_mem_addAll _ _ h).resolve_left (by simp [Notes.visits]))

/-- So it is not too deep. -/
lemma depth_noted (hb : b.depth ≤ depth) {v : Visit}
    (h : v ∈ (Notes.addAll {} b.visits).visits) : v.depth ≤ depth :=
  Nat.le_trans (Body.depth_meets (meets_noted h)) hb

/-- The units of late arguments were compiled. -/
lemma compiles_of_mem_thunks (h : Made (Compiling.unitWithin o depth) name b z u)
    (hb : b.depth ≤ depth) {t : CodeUnit} (ht : t ∈ u.thunks) :
    ∃ d, Visit.thunk d ∈ b.meets ∧ Compiles o d.body t := by
  rw [h.links.thunks] at ht
  obtain ⟨i, d, hd, j, k, ht⟩ := h.lists.thunks.mem ht
  have hnoted := Notes.mem_visits.2 (.inl ⟨d, hd, rfl⟩)
  exact ⟨d, meets_noted hnoted, Visit.compiles_thunk (depth_noted hb hnoted) ht⟩

/-- The units of function literals were compiled, those of their defaults included. -/
lemma compiles_of_mem_closures (h : Made (Compiling.unitWithin o depth) name b z u)
    (hb : b.depth ≤ depth) {f : FunctionUnit} (hf : f ∈ u.closures) :
    ∃ node, ∃ p : Procedure Term, Visit.closure node p ∈ b.meets ∧
      List.Forall₂ (FitsFormal o) p.formals f.formals ∧ Compiles o p.body f.body := by
  rw [h.links.closures] at hf
  obtain ⟨i, d, hd, j, k, hf⟩ := h.lists.closures.mem hf
  have hnoted := Notes.mem_visits.2 (.inr (.inl ⟨d, hd, rfl⟩))
  exact ⟨d.1, d.2, meets_noted hnoted, Visit.compiles_closure (depth_noted hb hnoted)
    (Assemble.madeFunction_of_eq_ok hf)⟩

/-- The tables of a unit hold what its body meets. -/
theorem fits (h : Made (Compiling.unitWithin o depth) name b z u) (hb : b.depth ≤ depth) {v : Visit}
    (hv : v ∈ (Notes.addAll {} b.visits).visits) : Fits o z.tables v := by
  have hdistinct := Notes.distinct_addAll b.visits
  have hdepth := depth_noted hb hv
  cases v with
  | thunk d =>
    obtain ⟨d', t, hd', hnode, ht, _, j, k, hmade⟩ :=
      h.lists.thunks.find_mem (Notes.thunk_mem_visits.1 hv)
    obtain rfl := List.inj_on_of_nodup_map hdistinct.thunks hd' (Notes.thunk_mem_visits.1 hv) hnode
    show Compiles o d'.body (Option.getD _ _)
    rw [ht]
    exact Visit.compiles_thunk hdepth hmade
  | closure node p =>
    obtain ⟨d, f, hd, hnode, hf, _, j, k, hmade⟩ :=
      h.lists.closures.find_mem (Notes.closure_mem_visits.1 hv)
    obtain rfl := List.inj_on_of_nodup_map hdistinct.closures hd (Notes.closure_mem_visits.1 hv) hnode
    show List.Forall₂ _ _ (Option.getD _ _ : FunctionUnit).formals ∧
      Compiles o _ (Option.getD _ _ : FunctionUnit).body
    rw [hf]
    exact Visit.compiles_closure hdepth (Assemble.madeFunction_of_eq_ok hmade)
  | site c =>
    have hc := Notes.site_mem_visits.1 hv
    obtain ⟨c', hc'⟩ := Option.isSome_iff_exists.1 (List.find?_isSome
      (p := fun d => d.id = c.id).2 ⟨c, hc, by simp⟩)
    have hid : c'.id = c.id := by simpa using List.find?_some hc'
    obtain rfl := List.inj_on_of_nodup_map hdistinct.sites (List.mem_of_find?_eq_some hc') hc hid
    have hsite := h.lists.sites c'.id
    rw [hc'] at hsite
    unfold Fits Assembly.tables
    dsimp only
    rw [hsite]
    rfl

end Made

namespace Compiles

variable {o : CompilerOptions} {b : Body} {u v : CodeUnit}

/-- The default of a formal that was compiled. -/
lemma of_mem_formals {xs : List (Formal Thunk)} {ys : List (Formal CodeUnit)}
    (h : List.Forall₂ (FitsFormal o) xs ys) {y : Formal CodeUnit} (hy : y ∈ ys)
    (hu : y.default = some u) : ∃ b, Compiles o b u := by
  induction h with
  | nil => cases hy
  | cons hxy _ ih =>
    rcases List.mem_cons.1 hy with rfl | hy
    · have hdefault := hxy.default
      rw [hu] at hdefault
      generalize Formal.default _ = d at hdefault
      cases hdefault with
      | some hd => exact ⟨_, hd⟩
    · exact ih hy

/-- **A unit inside a compiled unit was compiled.** -/
theorem within (h : Compiles o b u) (hv : v.Within u) : ∃ b', Compiles o b' v := by
  induction hv generalizing b with
  | self => exact ⟨b, h⟩
  | thunk ht _ ih =>
    obtain ⟨_, _, _, hdepth, hz⟩ := h.made
    obtain ⟨d, -, ht⟩ := hz.compiles_of_mem_thunks hdepth ht
    exact ih ht
  | body hf _ ih =>
    obtain ⟨_, _, _, hdepth, hz⟩ := h.made
    obtain ⟨_, p, -, -, hbody⟩ := hz.compiles_of_mem_closures hdepth hf
    exact ih hbody
  | default hf hx hd _ ih =>
    obtain ⟨_, _, _, hdepth, hz⟩ := h.made
    obtain ⟨_, p, -, hformals, -⟩ := hz.compiles_of_mem_closures hdepth hf
    obtain ⟨b', hb'⟩ := of_mem_formals hformals hx hd
    exact ih hb'

end Compiles

end CallByNeed
