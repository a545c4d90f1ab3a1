import CallByNeed.Proofs.Comparison.Compiled

/-!
# The first run alone

What two runs have in common says something about each of them: related stores of one world are, the
first one of each pair with itself, related stores of a world in which code is the same on both sides
(`StoreRel.diag`). So what such a world shows of evaluations holds of all first runs; in particular
they leave `...` bound as it is (`Aligned.steadying`).
-/

namespace CallByNeed

variable {W W₀ : World} {n : Nat}

/-- What is related in the first world is, on the left, related to itself in the second one. -/
structure World.Halves (W W₀ : World) : Prop where
  code : ∀ c c', W.code c c' → W₀.code c c
  pins : W.pins ↔ W₀.pins
  pinned : ∀ name, W.pinned name ↔ W₀.pinned name
  steady : W.steady ↔ W₀.steady

section

variable (h : W.Halves W₀)
include h

namespace World.Halves

lemma valid {env : EnvId} (hv : W.Valid n env) : W₀.Valid n env := fun hp => hv (h.pins.2 hp)

lemma loose {s : Special} : W.Loose s ↔ W₀.Loose s :=
  ⟨fun hl hp => hl (h.pins.2 hp), fun hl hp => hl (h.pins.1 hp)⟩

lemma readable {name : Symbol} (hr : W.Readable name) : W₀.Readable name :=
  fun hp => hr (h.pins.2 hp)

lemma bindable {name : Symbol} (hb : W.Bindable name) : W₀.Bindable name :=
  fun hp hname => hb (h.pins.2 hp) ((h.pinned name).2 hname)

lemma pinnedStore {s : Store} (hs : s.Pinned W) : s.Pinned W₀ where
  exists_global := hs.exists_global
  global name hname := hs.global name ((h.pinned name).2 hname)
  inner env name henv hname := hs.inner env name henv ((h.pinned name).2 hname)
  around := hs.around
  within := hs.within

lemma grows {s s' : Store} (hs : s.Grows W₀ s') : s.Grows W s' where
  size := hs.size
  chain := hs.chain
  dots hp hsteady := hs.dots (h.pins.1 hp) (h.steady.1 hsteady)

end World.Halves

lemma FunctionRel.diag {f f' : FunctionUnit} (hf : FunctionRel W f f') : FunctionRel W₀ f f where
  name _ := rfl
  formals := by
    have hformals := hf.formals
    revert hformals
    generalize f.formals = xs
    generalize f'.formals = ys
    intro hformals
    induction hformals with
    | nil => exact .nil
    | @cons x y xs ys hx _ ih =>
      refine .cons ⟨rfl, h.bindable hx.bindable, ?_⟩ ih
      have hd := hx.default
      revert hd
      generalize x.default = d
      generalize y.default = d'
      intro hd
      cases hd with
      | none => exact .none
      | some hu => exact .some (h.code _ _ hu)
  body := h.code _ _ hf.body

mutual

lemma ValueRel.diag : ∀ {v v' : Value}, ValueRel W n v v' → ValueRel W₀ n v v
  | _, _, .null => .null
  | _, _, .logical b => .logical b
  | _, _, .int i => .int i
  | _, _, .double x => .double x
  | _, _, .str s => .str s
  | _, _, .vector hv => .vector hv.diag
  | _, _, .symbol s => .symbol s
  | _, _, .language e => .language e
  | _, _, .promise hp p => .promise (fun hp₀ => hp (h.pins.2 hp₀)) p
  | _, _, .closure hf he => .closure (hf.diag h) (h.valid he)
  | _, _, .builtin b => .builtin b
  | _, _, .special hs => .special (h.loose.1 hs)
  | _, _, .dots hp hd => .dots (fun hp₀ => hp (h.pins.2 hp₀)) hd.diag

lemma ValuesRel.diag : ∀ {vs vs' : List Value}, ValuesRel W n vs vs' → ValuesRel W₀ n vs vs
  | _, _, .nil => .nil
  | _, _, .cons hv hs => .cons hv.diag hs.diag

lemma BoundRel.diag : ∀ {v v' : Value}, BoundRel W n v v' → BoundRel W₀ n v v
  | _, _, .value hv => .value hv.diag
  | _, _, .promise p => .promise p

lemma ArgsRel.diag : ∀ {as as' : ArgList}, ArgsRel W n as as' → ArgsRel W₀ n as as
  | _, _, .nil => .nil
  | _, _, .cons hv _ hs => .cons hv.diag rfl hs.diag

end

lemma BindingRel.diag {name : Symbol} {v v' : Value} (hb : BindingRel W n name v v') :
    BindingRel W₀ n name v v := by
  cases hb with
  | bound hb => exact .bound (hb.diag h)
  | form hs => exact .form fun hl => hs (h.loose.2 hl)
  | dots hd => exact .dots (hd.diag h)

lemma SuspensionRel.diag {p p' : Suspension} (hp : SuspensionRel W n p p') :
    SuspensionRel W₀ n p p := by
  cases hp with
  | reading hr he => exact .reading (h.readable hr) (h.valid he)
  | code hc he => exact .code (h.code _ _ hc) (h.valid he)
  | missing name => exact .missing name

lemma PromiseRel.diag {p p' : Promise} (hp : PromiseRel W n p p') : PromiseRel W₀ n p p where
  status := by
    have hstatus := hp.status
    revert hstatus
    generalize p.status = status
    generalize p'.status = status'
    intro hstatus
    cases hstatus with
    | pending hx => exact .pending (hx.diag h)
    | forcing hx => exact .forcing (hx.diag h)
    | forced hv => exact .forced (hv.diag h)
  evaluations := rfl

lemma EnvironmentRel.diag {E E' : Environment} (hE : EnvironmentRel W n E E') :
    EnvironmentRel W₀ n E E where
  outer := rfl
  vars := by
    have hvars := hE.vars
    revert hvars
    generalize E.vars = xs
    generalize E'.vars = ys
    intro hvars
    induction hvars with
    | nil => exact .nil
    | cons hx _ ih => exact .cons ⟨rfl, hx.value.diag h⟩ ih

omit h in
/-- Entries that are related to some are related to themselves. -/
lemma ArrayRel.diag {α β : Type} {R : α → β → Prop} {S : α → α → Prop} {as : Array α}
    {bs : Array β} (has : ArrayRel R as bs) (hRS : ∀ a b, R a b → S a a) : ArrayRel S as as where
  size := rfl
  entry i a a' ha ha' := by
    obtain rfl : a = a' := Option.some.inj (ha.symm.trans ha')
    have hb := has.getElem? i
    rw [ha] at hb
    generalize bs[i]? = b at hb
    cases hb with
    | some hab => exact hRS _ _ hab

/-- The first one of related stores. -/
theorem StoreRel.diag {s t : Store} (hst : StoreRel W s t) : StoreRel W₀ s s where
  environments := hst.environments.diag fun _ _ hE => hE.diag h
  promises := hst.promises.diag fun _ _ hp => hp.diag h
  depth _ := rfl
  left hp := h.pinnedStore (hst.left (h.pins.2 hp))
  right hp := h.pinnedStore (hst.left (h.pins.2 hp))

/-- An evaluation that is alike in a world in which nothing excuses values keeps `...` as it is. -/
lemma EvalRel.keeps {α : Type} {R : Nat → α → α → Prop} {A : Eval α} {B : Nat → Eval α}
    (hA : EvalRel W₀ n R A B) (hdropped : ∀ e, ¬ W₀.dropped e) : Keeps W n A := by
  intro s t hst hn a s' ha
  have hm := hA s s (hst.diag h) hn
  rw [ha] at hm
  cases hm with
  | excused hr => cases hr
  | dropped _ he => exact absurd he (hdropped _)
  | same _ hr =>
    cases hr with
    | ok _ _ hs => exact h.grows hs

/-- The arguments of builtins keep what `...` is bound to. -/
theorem Aligned.steadying {l : Leeway} {o : CompilerOptions} {r : RuntimeOptions} {b : Nat}
    (hA : Aligned W₀ l o o) (hH : W₀.Hosts r b) (hcut : W₀.cut)
    (hdropped : ∀ e, ¬ W₀.dropped e) : Steadying W l o r b where
  now env args A hargs hM j hj n henv := by
    have htogether : ∀ a ∈ args, MeansTogether W₀ o o r b env a.value := fun a ha =>
      Means.together hA hH (fun s hs => absurd rfl hs) a.value (hargs a ha)
    exact (hM.together htogether hM j hj n _ (h.valid henv) (.inl ⟨hcut, .id⟩)).keeps h hdropped
  passed env args passed hargs hpassed j hj n henv := by
    have hall := hA.passed hargs hpassed hpassed
    exact (Meaning.nows_rel r.maxDepth hA.lawful (hH j hj _ (.inl ⟨hcut, .id⟩))
      (h.valid henv) hall).keeps h hdropped

end

end CallByNeed
