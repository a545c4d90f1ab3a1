import CallByNeed.Eval.Builtins
import CallByNeed.Proofs.Source.Units

/-!
# Ordinary values

Promises and the arguments bound to `...` are values only so that they can be bound to names. All
other values are ordinary (`Value.Plain`), at every depth: no vector holds one of the two. Builtins
make ordinary values of ordinary values (`Builtin.plain_of_invoke`).
-/

namespace CallByNeed

/-! ## Compiled code -/

/-- The unit was compiled from an expression. -/
def CodeUnit.Compiled (u : CodeUnit) : Prop := ∃ o e, CompiledFrom o e u

/-- The function unit was compiled from a function literal. -/
def FunctionUnit.Compiled (f : FunctionUnit) : Prop := ∃ o g, CompiledLiteral o g f

namespace FunctionUnit.Compiled

variable {f : FunctionUnit}

lemma body (h : f.Compiled) : f.body.Compiled := by
  obtain ⟨o, g, h⟩ := h
  exact ⟨o, g.body, h.body⟩

lemma default (h : f.Compiled) {x : Formal CodeUnit} (hx : x ∈ f.formals) {u : CodeUnit}
    (hu : x.default = some u) : u.Compiled := by
  obtain ⟨o, g, h⟩ := h
  obtain ⟨w, -, hw⟩ := exists_left_of_forall₂ h.formals hx
  have hdefault := hw.default
  rw [hu] at hdefault
  generalize w.default = d at hdefault
  cases hdefault with
  | some hd => exact ⟨o, _, hd⟩

end FunctionUnit.Compiled

namespace CodeUnit.Compiled

variable {u : CodeUnit}

lemma thunk (h : u.Compiled) {t : CodeUnit} (ht : t ∈ u.thunks) : t.Compiled := by
  obtain ⟨o, e, h⟩ := h
  obtain ⟨e', h'⟩ := h.thunk ht
  exact ⟨o, e', h'⟩

lemma closure (h : u.Compiled) {f : FunctionUnit} (hf : f ∈ u.closures) : f.Compiled := by
  obtain ⟨o, e, h⟩ := h
  obtain ⟨g, h'⟩ := h.closure hf
  exact ⟨o, g, h'⟩

lemma handsOn (h : u.Compiled) : ∃ B, u.HandsOn B := by
  obtain ⟨o, e, h⟩ := h
  exact h.handsOn

end CodeUnit.Compiled

/-! ## Ordinary values -/

namespace Value

mutual

/-- The value is ordinary where there are `n` environments: it is neither a promise nor what is bound
to `...`, and holds neither. A closure is of a compiled function literal, over one of the
environments. -/
def Plain (n : Nat) : Value → Prop
  | .promise _ | .dots _ => False
  | .vector vs => PlainAll n vs
  | .closure f env => f.Compiled ∧ env < n
  | .null | .logical _ | .int _ | .double _ | .str _ | .symbol _ | .language _ | .builtin _
  | .special _ => True

/-- All of the values are ordinary. -/
def PlainAll (n : Nat) : List Value → Prop
  | [] => True
  | v :: vs => v.Plain n ∧ PlainAll n vs

end

variable {n m : Nat} {v w : Value} {vs : List Value}

lemma plainAll_iff : PlainAll n vs ↔ ∀ v ∈ vs, v.Plain n := by
  induction vs with
  | nil => simp [PlainAll]
  | cons v vs ih => simp [PlainAll, ih]

mutual

/-- Ordinary values stay so when environments are made. -/
theorem Plain.mono (hnm : n ≤ m) : ∀ {v : Value}, v.Plain n → v.Plain m
  | .vector _, h => PlainAll.mono hnm h
  | .closure .., h => ⟨h.1, Nat.lt_of_lt_of_le h.2 hnm⟩
  | .null, _ | .logical _, _ | .int _, _ | .double _, _ | .str _, _ | .symbol _, _ | .language _, _
  | .builtin _, _ | .special _, _ => trivial

theorem PlainAll.mono (hnm : n ≤ m) : ∀ {vs : List Value}, PlainAll n vs → PlainAll m vs
  | [], _ => trivial
  | _ :: _, h => ⟨h.1.mono hnm, PlainAll.mono hnm h.2⟩

end

lemma plain_ofExpr (e : Expr) : (Value.ofExpr e).Plain n := by
  cases e <;> trivial

/-- The elements of ordinary values are ordinary. -/
lemma Plain.elementAt (h : v.Plain n) {i : Int32} (hw : v.elementAt i = .ok w) : w.Plain n := by
  unfold Value.elementAt at hw
  split at hw
  · cases hw
  · split at hw
    · rename_i vs
      split at hw
      · rename_i x hx
        cases hw
        exact plainAll_iff.1 h _ (List.mem_of_getElem? hx)
      · cases hw
    · cases hw
    · split at hw <;> cases hw
      exact h

end Value

/-! ## Builtins -/

namespace Builtin

variable {n : Nat} {v a b : Value} {vs : List Value}

/-- What comes of a computation that goes on with a result. -/
lemma bind_eq_ok {ε α β : Type} {r : Except ε α} {f : α → Except ε β} {y : β}
    (h : (r >>= f) = .ok y) : ∃ x, r = .ok x ∧ f x = .ok y := by
  cases r with
  | error e => cases h
  | ok x => exact ⟨x, rfl, h⟩

lemma plain_toValue (x : Numeric) : x.toValue.Plain n := by
  cases x <;> trivial

lemma plain_arithmetic {function : String} {ints : Int → Int → Int} {doubles : Float → Float → Float}
    (h : arithmetic function ints doubles a b = .ok v) : v.Plain n := by
  obtain ⟨x, -, h⟩ := bind_eq_ok h
  obtain ⟨y, -, h⟩ := bind_eq_ok h
  split at h
  · obtain ⟨z, -, h⟩ := bind_eq_ok h
    cases h
    exact plain_toValue z
  · cases h
    trivial

lemma plain_onDoubles {function : String} {op : Float → Float → Value}
    (h : onDoubles function op a b = .ok v) (hop : ∀ x y, (op x y).Plain n) : v.Plain n := by
  obtain ⟨x, -, h⟩ := bind_eq_ok h
  obtain ⟨y, -, h⟩ := bind_eq_ok h
  cases h
  exact hop _ _

lemma plain_negate (h : negate a = .ok v) : v.Plain n := by
  obtain ⟨x, -, h⟩ := bind_eq_ok h
  split at h
  · obtain ⟨z, -, h⟩ := bind_eq_ok h
    cases h
    exact plain_toValue z
  · cases h
    trivial

lemma plain_equality (h : equality a b = .ok v) : v.Plain n := by
  unfold equality at h
  split at h
  · cases h
    trivial
  · exact plain_onDoubles h fun _ _ => trivial

lemma plain_sumOf (h : sumOf vs = .ok v) : v.Plain n := by
  obtain ⟨x, -, h⟩ := bind_eq_ok h
  cases h
  exact plain_toValue x

lemma plain_contribution (h : v.Plain n) : ∀ w ∈ contribution v, w.Plain n := by
  cases v with
  | null => exact fun _ hw => absurd hw List.not_mem_nil
  | vector vs => exact Value.plainAll_iff.1 h
  | _ => exact fun w hw => List.mem_singleton.1 hw ▸ h

lemma plain_concatenation (h : ∀ v ∈ vs, v.Plain n) : (concatenation vs).Plain n := by
  have hall : ∀ w ∈ vs.flatMap contribution, w.Plain n := fun w hw => by
    obtain ⟨v, hv, hw⟩ := List.mem_flatMap.1 hw
    exact plain_contribution (h v hv) w hw
  unfold concatenation
  split
  · trivial
  · exact Value.plainAll_iff.2 hall

lemma plain_pasteOf {names : List (Option Symbol)} (h : pasteOf names vs = .ok v) : v.Plain n := by
  obtain ⟨sep, -, h⟩ := bind_eq_ok h
  obtain ⟨texts, -, h⟩ := bind_eq_ok h
  cases h
  trivial

lemma plain_elementOf (ha : a.Plain n) (h : elementOf a b = .ok v) : v.Plain n := by
  obtain ⟨i, -, h⟩ := bind_eq_ok h
  split at h
  · rename_i k _
    cases hk : a.elementAt k with
    | error e =>
      rw [hk] at h
      cases h
    | ok w =>
      rw [hk] at h
      cases h
      exact ha.elementAt hk
  · cases h

/-- **What builtins make of ordinary values is ordinary.** -/
theorem plain_of_invoke {f : Builtin} {call : Call} {names : List (Option Symbol)}
    (hvs : ∀ v ∈ vs, v.Plain n) (h : f.invoke call names vs = .ok v) : v.Plain n := by
  have hresult : ∀ {r : Except EvalError Value}, r.mapError Halt.error = .ok v → r = .ok v := by
    intro r hr
    cases r with
    | error e => cases hr
    | ok w => exact congrArg Except.ok (Except.ok.inj hr)
  have hmap : ∀ {α : Type} {r : Except EvalError α} {g : α → Value}, r.map g = .ok v →
      (∀ x, (g x).Plain n) → v.Plain n := by
    intro α r g hr hg
    cases r with
    | error e => cases hr
    | ok x => exact Except.ok.inj hr ▸ hg x
  unfold invoke at h
  split at h
  · unfold apply at h
    dsimp only at h
    split at h
    · exact Except.ok.inj h ▸ hvs _ List.mem_cons_self
    · exact plain_arithmetic (hresult h)
    · exact plain_negate (hresult h)
    · exact plain_arithmetic (hresult h)
    · exact plain_arithmetic (hresult h)
    · exact plain_onDoubles (hresult h) fun _ _ => trivial
    · exact plain_onDoubles (hresult h) fun _ _ => trivial
    · exact plain_onDoubles (hresult h) fun _ _ => trivial
    · exact plain_equality (hresult h)
    · exact hmap (hresult h) fun _ => trivial
    · exact hmap (hresult h) fun _ => trivial
    · exact Except.ok.inj h ▸ hvs _ List.mem_cons_self
    · exact plain_elementOf (hvs _ List.mem_cons_self) h
    · exact plain_sumOf (hresult h)
    · exact Except.ok.inj h ▸ plain_concatenation hvs
    · exact Except.ok.inj h ▸ Value.plainAll_iff.2 hvs
    · exact plain_pasteOf (hresult h)
    · cases h
  · cases h

end Builtin

end CallByNeed
