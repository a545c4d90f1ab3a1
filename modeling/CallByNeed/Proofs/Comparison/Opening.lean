import CallByNeed.Proofs.Comparison.Pinned
import CallByNeed.Proofs.Plain.Program

/-!
# Where programs begin

The fresh store binds the functions that every program can call, pinned or not, and so it is related
to itself in every world (`StoreRel.fresh`). One program that is compiled in two ways has related
definitions, which are bound in it next (`StoreRel.opening`).
-/

namespace CallByNeed

variable {W : World} {n : Nat}

/-! ## The fresh store -/

lemma Store.pinned_fresh (notes : Journal) : (Store.freshWith notes).Pinned W where
  exists_global := Nat.one_pos
  global _ _ := rfl
  inner env _ henv _ := by
    cases env with
    | zero => exact absurd rfl henv
    | succ env => rfl
  around env henv := by
    obtain rfl : env = 0 := Nat.lt_one_iff.1 henv
    exact List.mem_singleton.2 rfl
  within env henv e he := by
    obtain rfl : env = 0 := Nat.lt_one_iff.1 henv
    obtain rfl : e = 0 := List.mem_singleton.1 he
    exact Nat.one_pos

/-- Every global function is bound alike in both runs. -/
lemma EntryRel.global {x : Symbol × Value} (hx : x ∈ Store.globals) : EntryRel W n x x := by
  refine ⟨rfl, ?_⟩
  rcases List.mem_append.1 hx with hx | hx
  · obtain ⟨b, -, rfl⟩ := List.mem_map.1 hx
    exact .bound (.value (.builtin b))
  · obtain ⟨s, -, rfl⟩ := List.mem_map.1 hx
    by_cases hs : W.Loose s
    · exact .bound (.value (.special hs))
    · exact .form hs

lemma StoreRel.fresh (notes notes' : Journal) :
    StoreRel W (Store.freshWith notes) (Store.freshWith notes') where
  environments := by
    refine ⟨rfl, fun i E E' hE hE' => ?_⟩
    obtain rfl : E = E' := Option.some.inj (hE.symm.trans hE')
    cases i with
    | zero =>
      cases hE
      exact ⟨rfl, List.forall₂_same.2 fun x hx => .global hx⟩
    | succ i => cases hE
  promises := ⟨rfl, fun _ _ _ hp => by cases hp⟩
  depth _ := rfl
  left _ := Store.pinned_fresh notes
  right _ := Store.pinned_fresh notes'

/-! ## Definitions -/

/-- Definitions under the same names, of related functions, that may be bound. -/
structure DefinitionRel (W : World) (d d' : Symbol × FunctionUnit) : Prop where
  name : d.1 = d'.1
  bindable : W.Bindable d.1
  function : FunctionRel W d.2 d'.2

lemma StoreRel.define {ds ds' : List (Symbol × FunctionUnit)}
    (hds : List.Forall₂ (DefinitionRel W) ds ds') {s t : Store} (h : StoreRel W s t)
    (hs : 0 < s.environments.size) :
    StoreRel W (ds.foldl (fun s d => s.set globalEnv d.1 (.closure d.2 globalEnv)) s)
      (ds'.foldl (fun s d => s.set globalEnv d.1 (.closure d.2 globalEnv)) t) := by
  induction hds generalizing s t with
  | nil => exact h
  | @cons d d' ds ds' hd _ ih =>
    rw [List.foldl_cons, List.foldl_cons]
    refine ih ?_ (by rwa [Store.size_set])
    rw [← hd.name]
    exact h.set globalEnv hd.bindable (.bound (.value (.closure hd.function fun _ => hs)))

/-- The stores in which the bodies of related programs are evaluated. -/
theorem StoreRel.opening {c c' : CompiledProgram}
    (h : List.Forall₂ (DefinitionRel W) c.definitions c'.definitions) (notes notes' : Journal) :
    StoreRel W (c.opening notes) (c'.opening notes') :=
  .define h (.fresh notes notes') Nat.one_pos

/-- The definitions of a program, compiled in two ways, if all that they define counts as the same. -/
lemma Compiling.definitions_rel {o o' : CompilerOptions} {p : Program} {c c' : CompiledProgram}
    {j j' k k' : Journal}
    (hdefinitions : ∀ d ∈ p.definitions, W.Bindable d.name ∧ ∀ u u', CompiledLiteral o d.function u →
      CompiledLiteral o' d.function u' → FunctionRel W u u')
    (h : program o .counting p j = .ok c k) (h' : program o' .counting p j' = .ok c' k') :
    List.Forall₂ (DefinitionRel W) c.definitions c'.definitions := by
  refine forall₂_of_common (compiled_of_program h).1 (compiled_of_program h').1
    fun d hd u u' hu hu' => ?_
  obtain ⟨hbindable, hfunction⟩ := hdefinitions d hd
  exact ⟨hu.1.trans hu'.1.symm, hu.1 ▸ hbindable, hfunction _ _ hu.2 hu'.2⟩

/-- The definitions of a program that keeps to its leeway. -/
lemma Compiling.definitions_related {l : Leeway} {o o' : CompilerOptions} {p : Program}
    {c c' : CompiledProgram} {j j' k k' : Journal} (hnamed : ¬ W.named) (hW : W.Heeds l)
    (hcode : ∀ e u u', e.keepsTo l = true → CompiledFrom o e u → CompiledFrom o' e u' →
      W.code (.unit u) (.unit u'))
    (hp : p.keepsTo l = true) (h : program o .counting p j = .ok c k)
    (h' : program o' .counting p j' = .ok c' k') :
    List.Forall₂ (DefinitionRel W) c.definitions c'.definitions := by
  have hall : ∀ d ∈ p.definitions, l.formal d.name = true ∧ d.function.keepsTo l = true := by
    rw [Program.keepsTo, Bool.and_eq_true, List.all_eq_true] at hp
    exact fun d hd => by simpa using hp.1 d hd
  refine definitions_rel (fun d hd => ?_) h h'
  obtain ⟨hformal, hf⟩ := hall d hd
  exact ⟨hW.formal _ hformal, fun u u' hu hu' => hu.related hnamed hW hf hcode hu'⟩

end CallByNeed
