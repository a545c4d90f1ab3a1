import CallByNeed.Proofs.Flow.Tidy
import CallByNeed.Proofs.Source.Meaning

/-!
# Tables that serve a body

The tables of a unit serve an operand when they hold what its identities stand for, and the operand
has passed the checks of the compiler (`Serves`). The tables of a unit serve the operands of the body
that it was compiled from, if that body was drafted: then every identity stands for one thing only,
and every statement is in the graph (`Made.serves`).
-/

namespace CallByNeed

open CallByNeed.Flow (Term Thunk Procedure NodeId CallSite Tables Taken Graph Body)

/-! ## Serving -/

/-- The operand has passed the checks of the compiler: `...` stands at most once among the arguments
of a call, and only builtins are called directly. -/
def Flow.Term.Checked : Term → Prop
  | .primitive name operands =>
    (Builtin.ofName? name.name).isSome = true ∧ operands.ellipsisCount ≤ 1
  | .call (.name _) operands => operands.ellipsisCount ≤ 1
  | .call (.computed t) operands => t.Checked ∧ operands.ellipsisCount ≤ 1
  | _ => True

/-- The tables serve an operand that was compiled. -/
structure Serves (o : CompilerOptions) (T : Tables) (t : Term) : Prop where
  fits : ∀ v ∈ t.visits, Fits o T v
  checked : t.Checked

/-! ## What has been noted -/

namespace Notes

/-- What is new gets noted, unless its identity is known; what was noted stays. -/
lemma noted_add {ds : Notes} {v w : Visit} (h : w ∈ ds.visits ∨ w = v) :
    ∃ x ∈ (ds.add v).visits, x.Alike w ∨ x = w := by
  have hkept : w ∈ ds.visits → w ∈ (ds.add v).visits := by
    intro hw
    cases v <;> simp only [add] <;> split
    all_goals first
      | exact hw
      | (simp only [visits, List.map_append, List.mem_append] at hw ⊢
         tauto)
  rcases h with hw | rfl
  · exact ⟨w, hkept hw, .inr rfl⟩
  · cases w with
    | thunk d =>
      simp only [add]
      split
      · rename_i hany
        obtain ⟨e, he, hnode⟩ := List.any_eq_true.1 hany
        exact ⟨.thunk e, by simp [visits, he], .inl (show _ = _ from of_decide_eq_true hnode)⟩
      · exact ⟨.thunk d, by simp [visits], .inr rfl⟩
    | closure node p =>
      simp only [add]
      split
      · rename_i hany
        obtain ⟨e, he, hnode⟩ := List.any_eq_true.1 hany
        exact ⟨.closure e.1 e.2, mem_visits.2 (.inr (.inl ⟨e, he, rfl⟩)),
          .inl (show _ = _ from of_decide_eq_true hnode)⟩
      · exact ⟨.closure node p, by simp [visits], .inr rfl⟩
    | site c =>
      simp only [add]
      split
      · rename_i hany
        obtain ⟨e, he, hid⟩ := List.any_eq_true.1 hany
        exact ⟨.site e, by simp [visits, he], .inl (show _ = _ from of_decide_eq_true hid)⟩
      · exact ⟨.site c, by simp [visits], .inr rfl⟩

/-- Things with identities of their own are all noted, and nothing else is. -/
theorem mem_addAll {vs : List Visit}
    (hunique : ∀ v ∈ vs, ∀ w ∈ vs, v.Alike w → v = w) {v : Visit} :
    v ∈ (addAll {} vs).visits ↔ v ∈ vs := by
  have hfold : ∀ (ws : List Visit) (ds : Notes), (∀ v ∈ ds.visits, v ∈ vs) → (∀ v ∈ ws, v ∈ vs) →
      (∀ v, v ∈ (ds.addAll ws).visits ↔ v ∈ ds.visits ∨ v ∈ ws) := by
    intro ws
    induction ws with
    | nil => simp
    | cons w ws ih =>
      intro ds hds hws v
      have hadd : ∀ v, v ∈ (ds.add w).visits ↔ v ∈ ds.visits ∨ v = w := by
        intro v
        refine ⟨mem_of_mem_add, fun h => ?_⟩
        have hv : v ∈ vs := by
          rcases h with h | rfl
          · exact hds v h
          · exact hws v List.mem_cons_self
        obtain ⟨x, hx, hxv⟩ := noted_add h
        have hxs : x ∈ vs := by
          rcases mem_of_mem_add hx with hx | rfl
          · exact hds x hx
          · exact hws x List.mem_cons_self
        rcases hxv with hxv | rfl
        · rwa [← hunique x hxs v hv hxv]
        · exact hx
      rw [addAll_cons, ih _ _ fun u hu => hws u (List.mem_cons_of_mem w hu), hadd, List.mem_cons,
        or_assoc]
      intro u hu
      rcases (hadd u).1 hu with hu | rfl
      · exact hds u hu
      · exact hws u List.mem_cons_self
  have hempty : ∀ v, v ∉ ({} : Notes).visits := fun v => by simp [visits]
  rw [hfold vs {} (fun v hv => absurd hv (hempty v)) fun v hv => hv]
  simp [hempty v]

end Notes

/-! ## The checks of the compiler -/

namespace Assemble

variable {nested : Nested} {a a' : Assembly}

lemma bind_eq_ok {α β : Type} {c : Assemble α} {f : α → Assemble β} {y : β}
    (h : (c >>= f) a = .ok y a') : ∃ x a₁, c a = .ok x a₁ ∧ f x a₁ = .ok y a' := by
  rw [bind_apply] at h
  cases hc : c a with
  | error e a₁ =>
    rw [hc] at h
    cases h
  | ok x a₁ =>
    rw [hc] at h
    exact ⟨x, a₁, rfl, h⟩

/-- Operands that pass the checks have `...` at most once. -/
lemma ellipsisCount_of_checkOperands {operands : Flow.Operands Term} {x : Unit}
    (h : checkOperands operands a = .ok x a') : operands.ellipsisCount ≤ 1 := by
  unfold checkOperands at h
  split at h
  · obtain ⟨_, a₁, h, -⟩ := bind_eq_ok h
    cases h
  · dsimp only at h
    split at h
    · obtain ⟨_, a₁, h, -⟩ := bind_eq_ok h
      cases h
    · omega

/-- An operand that is compiled has passed the checks. -/
lemma checked_of_term : ∀ (t : Term) {kind : SlotKind} {a a' : Assembly},
    term nested t a = .ok kind a' → t.Checked
  | .int _, _, _, _, _ | .literal _, _, _, _, _ | .temp _, _, _, _, _ | .local .., _, _, _, _
  | .env _, _, _, _, _ | .element .., _, _, _, _ | .length _, _, _, _, _
  | .increment _, _, _, _, _ | .atLeast .., _, _, _, _ | .closure .., _, _, _, _
  | .thunk _, _, _, _, _ | .ellipsis, _, _, _, _ => trivial
  | .primitive name ⟨site, args, names⟩, _, _, _, h => by
    unfold term at h
    obtain ⟨_, a₁, hoperands, h⟩ := bind_eq_ok h
    refine ⟨?_, ellipsisCount_of_checkOperands hoperands⟩
    dsimp only at h
    split at h
    · obtain ⟨_, a₂, h, -⟩ := bind_eq_ok h
      cases h
    · rename_i hsome
      simpa [Option.isSome_iff_ne_none] using hsome
  | .call (.name _) ⟨site, args, names⟩, _, _, _, h => by
    unfold term at h
    obtain ⟨_, a₁, hoperands, -⟩ := bind_eq_ok h
    exact ellipsisCount_of_checkOperands hoperands
  | .call (.computed t) ⟨site, args, names⟩, _, _, _, h => by
    unfold term at h
    obtain ⟨_, a₁, hoperands, h⟩ := bind_eq_ok h
    refine ⟨?_, ellipsisCount_of_checkOperands hoperands⟩
    dsimp only at h
    obtain ⟨_, a₂, hboxed, -⟩ := bind_eq_ok h
    obtain ⟨kind, a₃, ht, -⟩ := bind_eq_ok hboxed
    exact checked_of_term t ht

/-- The operand of a statement that is compiled has passed the checks. -/
lemma checked_of_statement {s : Flow.Statement Term} {x : Unit}
    (h : statement nested s a = .ok x a') {t : Term} (ht : s.operand? = some t) : t.Checked := by
  have hboxed : ∀ {t : Term} {a a' : Assembly} {x : Unit},
      boxed (term nested t) a = .ok x a' → t.Checked := by
    intro t a a' x h
    obtain ⟨kind, a₁, ht, -⟩ := bind_eq_ok h
    exact checked_of_term t ht
  cases s with
  | assign target value =>
    cases ht
    have hslot : ∀ {key : Flow.SlotKey} {x : Unit}, assignSlot nested key t a = .ok x a' →
        t.Checked := by
      intro key x h
      unfold assignSlot at h
      rw [get_bind_apply] at h
      cases hcounter : counterInPlace? a.options a.slots key t with
      | some slot =>
        unfold counterInPlace? at hcounter
        split at hcounter
        · trivial
        · cases hcounter
      | none =>
        rw [hcounter] at h
        obtain ⟨slot, a₁, -, h⟩ := bind_eq_ok h
        cases hkind : slot.kind with
        | int =>
          simp only [hkind] at h
          obtain ⟨_, a₂, hunboxed, -⟩ := bind_eq_ok h
          obtain ⟨kind, a₃, hterm, -⟩ := bind_eq_ok hunboxed
          exact checked_of_term t hterm
        | value =>
          simp only [hkind] at h
          obtain ⟨_, a₂, hvalue, -⟩ := bind_eq_ok h
          exact hboxed hvalue
    cases target with
    | temp id => exact hslot h
    | «local» id name => exact hslot h
    | env name =>
      obtain ⟨_, a₁, hvalue, -⟩ := bind_eq_ok h
      exact hboxed hvalue
  | eval value =>
    cases ht
    obtain ⟨kind, a₁, hterm, -⟩ := bind_eq_ok h
    exact checked_of_term t hterm
  | goto l => cases ht
  | branch condition yes no =>
    cases ht
    obtain ⟨_, a₁, -, h⟩ := bind_eq_ok h
    obtain ⟨_, a₂, -, h⟩ := bind_eq_ok h
    have h := (get_bind_apply _ _).symm.trans h
    dsimp only at h
    cases hnative : nativeComparison? a₂.options a₂.slots t with
    | some slots =>
      unfold nativeComparison? at hnative
      split at hnative
      · trivial
      · cases hnative
    | none =>
      simp only [hnative] at h
      obtain ⟨_, a₃, h, -⟩ := bind_eq_ok h
      exact hboxed h
  | ret value =>
    cases ht
    obtain ⟨_, a₁, hvalue, -⟩ := bind_eq_ok h
    exact hboxed hvalue

/-- The operands of blocks that are compiled have passed the checks. -/
lemma checked_of_blocks {g : Graph} {x : Unit} (h : blocks nested g a = .ok x a')
    {s : Flow.Statement Term} (hs : s ∈ g.flatMap Flow.Block.statements) {t : Term}
    (ht : s.operand? = some t) : t.Checked := by
  have hstatements : ∀ {ss : List (Flow.Statement Term)} {x : Unit} {a a' : Assembly},
      statements nested ss a = .ok x a' → s ∈ ss → t.Checked := by
    intro ss
    induction ss with
    | nil => exact fun _ hs => by cases hs
    | cons s' ss ih =>
      intro x a a' h hs
      obtain ⟨_, a₁, hfirst, hrest⟩ := bind_eq_ok h
      rcases List.mem_cons.1 hs with rfl | hs
      · exact checked_of_statement hfirst ht
      · exact ih hrest hs
  induction g generalizing a with
  | nil => cases hs
  | cons b g ih =>
    obtain ⟨_, a₁, hblock, hrest⟩ := bind_eq_ok h
    rw [List.flatMap_cons, List.mem_append] at hs
    rcases hs with hs | hs
    · obtain ⟨_, a₂, -, hblock⟩ := bind_eq_ok hblock
      obtain ⟨_, a₃, hblock, -⟩ := bind_eq_ok hblock
      exact hstatements hblock hs
    · exact ih hrest hs

end Assemble

/-- The operands of a body that is compiled have passed the checks, where control can get. -/
theorem Compiling.checked_of_unitWithin {o : CompilerOptions} {depth : Nat} {name : String}
    {b : Body} {u : CodeUnit} {j k : Journal} (h : unitWithin o (depth + 1) name b j = .ok u k)
    {s : Flow.Statement Term} (hs : s ∈ (Graph.ofBody b).flatMap Flow.Block.statements) {t : Term}
    (ht : s.operand? = some t) : t.Checked := by
  unfold unitWithin unitWith at h
  cases hbody : Assemble.body (unitWithin o depth) b (.start name o j) with
  | error e a =>
    rw [hbody] at h
    cases h
  | ok v a =>
    unfold Assemble.body at hbody
    obtain ⟨_, a₁, -, hbody⟩ := Assemble.bind_eq_ok hbody
    obtain ⟨_, a₂, -, hbody⟩ := Assemble.bind_eq_ok hbody
    obtain ⟨_, a₃, hblocks, -⟩ := Assemble.bind_eq_ok hbody
    exact Assemble.checked_of_blocks hblocks hs ht

end CallByNeed
