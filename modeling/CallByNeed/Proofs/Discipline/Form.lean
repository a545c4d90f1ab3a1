import CallByNeed.Proofs.Discipline.Runs
import Mathlib.Data.List.Induction

/-!
# The form of compiled units

The code of a compiled unit is a list of whole instructions, and each of their operands refers to
what the instruction expects (`CodeUnit.WellFormed`). The chart of the unit gives this for the
instruction at every offset where one begins; that no operand was cut when it was written shows in
what a run does, which is what the body says.
-/

namespace CallByNeed

open CallByNeed.Flow (Tables Body Graph Scene)

/-! ## What operands refer to -/

/-- What an operand is. -/
inductive Role where
  /-- A slot of the frame. -/
  | slot
  /-- A constant that is pushed. -/
  | pushed
  | name
  | call
  | primitive
  | thunk
  | closure
  /-- Where a jump goes. -/
  | target
  /-- A size, a position or an integer. -/
  | number

/-- What the operands of a kind of instructions are. -/
def Opcode.roles : Opcode → List Role
  | .constant => [.pushed]
  | .load | .store | .loadInt | .storeInt | .incLocal => [.slot]
  | .int | .newNames | .spliceNames | .newValues | .valueAt | .spliceValues => [.number]
  | .jump | .jumpIfZero | .jumpIfNonZero | .jumpIfIntLess => [.target]
  | .findVariable | .findFunction | .setVariable | .argAddNamed | .makeVariablePromise => [.name]
  | .checkFunction => [.call]
  | .makeThunk | .evalThunk => [.thunk]
  | .makeClosure => [.closure]
  | .nameAt => [.number, .name]
  | .callPrimitive => [.primitive]
  | .dup | .pop | .force | .isBuiltin | .isClosure | .castBuiltin | .castClosure | .applySpecial
  | .newArgList | .argAdd | .argAddAll | .applyClosure | .loadEllipsis | .applyBuiltin | .elementAt
  | .length | .addInt | .greaterEqual | .truthy | .boxInt | .unboxInt | .ret => []

/-- The operand refers to what it should, in a unit where instructions begin at these offsets. -/
def Role.Admits (u : CodeUnit) (starts : Nat → Prop) : Role → Nat → Prop
  | .slot, n => n < u.slots
  | .pushed, n => (∃ e, u.constants[n]? = some (.literal e)) ∨ ∃ c, u.constants[n]? = some (.call c)
  | .name, n => ∃ s, u.constants[n]? = some (.name s)
  | .call, n => ∃ c, u.constants[n]? = some (.call c)
  | .primitive, n => ∃ s, u.constants[n]? = some (.primitive s) ∧ (Builtin.ofName? s.name).isSome
  | .thunk, n => n < u.thunks.length
  | .closure, n => n < u.closures.length
  | .target, t => starts t
  | .number, _ => True

/-- The operands of an instruction that has an effect refer to what they should. -/
lemma Effect.admits {z : Slots} {u : CodeUnit} {i : Instruction} {pre post : Layout}
    (h : Effect z u i pre post) (hz : z.Sound) (hu : u.slots = z.frameSize) (starts : Nat → Prop) :
    List.Forall₂ (Role.Admits u starts) i.op.roles i.operands := by
  have hslot : ∀ {key slot}, z.lookup? key = some slot → Role.Admits u starts .slot slot.index :=
    fun hl => by
      show _ < u.slots
      rw [hu]
      exact (hz.range hl).2
  have hreserved : ∀ {n}, n < firstLocalSlot → Role.Admits u starts .slot n := fun hn => by
    show _ < u.slots
    rw [hu, Slots.frameSize, hz.firstFree]
    omega
  cases h with
  | literal hc => exact .cons (.inl ⟨_, hc⟩) .nil
  | site hc => exact .cons (.inr ⟨_, hc⟩) .nil
  | loadContext | loadEnvironment | loadWork | storeWork => exact .cons (hreserved (by decide)) .nil
  | load hl | loadInt hl | store hl | storeInt hl | incLocal hl => exact .cons (hslot hl) .nil
  | findVariable hc | findFunction hc | setVariable hc | checkFunction hc | argAddNamed hc
  | makeVariablePromise hc => exact .cons ⟨_, hc⟩ .nil
  | makeThunk ht | evalThunk ht => exact .cons (List.getElem?_eq_some_iff.1 ht).1 .nil
  | makeClosure hf => exact .cons (List.getElem?_eq_some_iff.1 hf).1 .nil
  | int | newNames | newValues | spliceNames | valueAt | spliceValues => exact .cons trivial .nil
  | nameAt hc => exact .cons trivial (.cons ⟨_, hc⟩ .nil)
  | callPrimitive _ hc hb => exact .cons ⟨_, hc, by rw [hb]; rfl⟩ .nil
  | _ => exact .nil

/-! ## Lists of instructions -/

namespace Instruction

/-- The instruction is one of these and begins at the offset. -/
def At (is : List Instruction) (p : Nat) (i : Instruction) : Prop :=
  ∃ before after, is = before ++ i :: after ∧ p = (before.flatMap encode).length

/-- The instruction as it is read back: each operand as far as its width holds it. -/
def cut (i : Instruction) : Instruction :=
  ⟨i.op, List.zipWith (fun width n => n % Nat.pow 256 width) i.op.widths i.operands⟩

/-- The bytes of a number depend only on what they hold. -/
lemma operandBytes_mod (width n : Nat) :
    operandBytes width (n % Nat.pow 256 width) = operandBytes width n := by
  induction width generalizing n with
  | zero => rfl
  | succ width ih =>
    have hsucc : Nat.pow 256 (width + 1) = Nat.pow 256 width * 256 := rfl
    have hpos : 0 < Nat.pow 256 width := Nat.pow_pos (by decide)
    rw [operandBytes, operandBytes, ← ih (n % _), ← ih n, hsucc, Nat.mod_mul_right_mod,
      Nat.mod_mul_right_div_self]
    congr 1
    exact UInt8.toNat_inj.1 (by simp)

/-- An instruction that fits takes as many bytes as its kind says. -/
lemma Fits.length_encode {i : Instruction} (h : i.Fits) : i.encode.length = i.op.size :=
  Shaped.length_encode h.length_eq.symm

/-- What is cut fits. -/
lemma fits_cut {i : Instruction} (h : i.Shaped) : i.cut.Fits := by
  obtain ⟨op, ns⟩ := i
  unfold Fits cut
  unfold Shaped at h
  dsimp only at h ⊢
  generalize op.widths = ws at h
  induction ws generalizing ns with
  | nil => exact .nil
  | cons w ws ih =>
    cases ns with
    | nil => cases h
    | cons n ns =>
      exact .cons (Nat.mod_lt _ (Nat.pow_pos (by decide))) (ih ns (by simpa using h))

/-- Cutting an instruction changes none of its bytes. -/
lemma encode_cut (i : Instruction) : i.cut.encode = i.encode := by
  obtain ⟨op, ns⟩ := i
  refine congrArg (op.toByte :: ·) ?_
  show (op.widths.zip (List.zipWith _ op.widths ns)).flatMap _ = (op.widths.zip ns).flatMap _
  generalize op.widths = ws
  induction ws generalizing ns with
  | nil => rfl
  | cons w ws ih =>
    cases ns with
    | nil => rfl
    | cons n ns =>
      rw [List.zipWith_cons_cons, List.zip_cons_cons, List.zip_cons_cons, List.flatMap_cons,
        List.flatMap_cons, ih, operandBytes_mod]

lemma At.mem {is : List Instruction} {p : Nat} {i : Instruction} (h : At is p i) : i ∈ is := by
  obtain ⟨before, after, rfl, -⟩ := h
  simp

/-- What an instruction of the list is read back as. -/
lemma At.holds {is : List Instruction} {code : Bytes} (h : code.toList = is.flatMap encode) {p : Nat}
    {i : Instruction} (hi : At is p i) (hfit : i.Fits) : code.Holds p i := by
  obtain ⟨before, after, rfl, rfl⟩ := hi
  refine Bytes.holds_of_append (after.flatMap encode) hfit ?_
  rw [h]
  simp

end Instruction

/-! ## Well-formed units -/

/-- The form of a unit that was compiled from a body, with these instructions. -/
structure CodeUnit.WellFormed (o : CompilerOptions) (b : Body) (u : CodeUnit)
    (is : List Instruction) : Prop where
  /-- The code consists of whole instructions. -/
  code : u.code.toList = is.flatMap Instruction.encode
  /-- A reader finds each of them, with as many operands as its kind has, none of them too large. -/
  reads : ∀ p i, Instruction.At is p i → u.code.Holds p i ∧ i.Fits
  /-- Operands refer to what they should; a jump goes to where an instruction begins. -/
  operands : ∀ p i, Instruction.At is p i →
    List.Forall₂ (Role.Admits u fun t => ∃ j, Instruction.At is t j) i.op.roles i.operands
  last : ∃ first i, is = first ++ [i] ∧ (i.op = .ret ∨ i.op = .jump)
  /-- All that operands refer to can be told apart by as many bytes as they have. -/
  slots : u.slots ≤ maxSlots
  constants : u.constants.size ≤ maxConstants
  thunks : u.thunks.length ≤ maxConstants
  closures : u.closures.length ≤ maxConstants
  /-- Names and values go to positions that the arrays have which they are put in. -/
  positions : ∃ z T, Charted z u T ∧
    (∀ options host env s₀ m s, Machine.Visits options host u env s₀ m s → m.Fits T z env) ∧ ∀ p n,
    (∀ c, Instruction.At is p ⟨.nameAt, [n, c]⟩ →
      ∃ k Γ, T p = some (.names (some k) :: Γ) ∧ n < k) ∧
    (Instruction.At is p ⟨.valueAt, [n]⟩ →
      ∃ k Γ, T p = some (.value :: .values (some k) :: Γ) ∧ n < k)
  /-- No operand was cut when it was written: a run does what the body says, where the identities in
  the body stand for what the compiler met under them. -/
  uncut : ∃ T : Tables, (∀ v ∈ (Notes.addAll {} b.visits).visits, Fits o T v) ∧
    ∀ limit host env, Follows (fun n => Machine.run ⟨limit, false⟩ host u env n (.start u env))
      (Scene.graph ⟨limit, host, env, T⟩ (Graph.ofBody b))

namespace Charts

variable {z : Slots} {u : CodeUnit} {T : Nat → Option Layout} {is : List Instruction} {p : Nat}
  {i : Instruction}

/-- A chart has a layout at each instruction. -/
lemma charted_at (hT : Charted z u T) (hcode : u.code.toList = is.flatMap Instruction.encode)
    (hfit : ∀ i ∈ is, i.Fits) (hi : Instruction.At is p i) : ∃ Γ, T p = some Γ := by
  obtain ⟨before, after, rfl, rfl⟩ := hi
  induction before using List.reverseRecOn generalizing i after with
  | nil => exact ⟨[], hT.starts⟩
  | append_singleton before j ih =>
    obtain ⟨Γ, hΓ⟩ := @ih j (i :: after) (by simpa using hcode) (by simpa using hfit)
    obtain ⟨j', succs, hj', -, hnext, -⟩ := hT.rule _ _ hΓ
    have hj : Instruction.At (before ++ [j] ++ i :: after) (before.flatMap Instruction.encode).length j :=
      ⟨before, i :: after, by simp, rfl⟩
    have hfits := hfit j (by simp)
    obtain rfl := hj'.unique (hj.holds hcode hfits)
    have hlen := hfits.length_encode
    have hp : ((before ++ [j']).flatMap Instruction.encode).length
        = (before.flatMap Instruction.encode).length + j'.op.size := by
      simp [hlen]
    rw [hp]
    refine Option.isSome_iff_exists.1 (hnext.resolve_left fun hend => ?_)
    have hsize : u.code.size = (before.flatMap Instruction.encode).length + j'.op.size
        + (i.encode.length + (after.flatMap Instruction.encode).length) := by
      rw [← Array.length_toList, hcode]
      simp [hlen]
      omega
    have hpos : 0 < i.encode.length := Nat.succ_pos _
    omega

/-- The rule of each instruction holds. -/
lemma rule_at (hT : Charted z u T) (hcode : u.code.toList = is.flatMap Instruction.encode)
    (hfit : ∀ i ∈ is, i.Fits) (hi : Instruction.At is p i) :
    ∃ Γ succs, T p = some Γ ∧ Rule z u p i Γ succs ∧ ∀ r ∈ succs, T r.1 = some r.2 := by
  obtain ⟨Γ, hΓ⟩ := charted_at hT hcode hfit hi
  obtain ⟨j, succs, hj, hrule, -, hsuccs⟩ := hT.rule _ _ hΓ
  obtain rfl := hj.unique (hi.holds hcode (hfit i hi.mem))
  exact ⟨Γ, succs, hΓ, hrule, fun r hr => (hsuccs r hr).resolve_right id⟩

/-- The last instruction transfers control. -/
lemma transfer_of_last (hT : Charted z u T) {first : List Instruction}
    (hcode : u.code.toList = (first ++ [i]).flatMap Instruction.encode)
    (hfit : ∀ j ∈ first ++ [i], j.Fits) : i.op = .ret ∨ i.op = .jump := by
  have hi : Instruction.At (first ++ [i]) (first.flatMap Instruction.encode).length i :=
    ⟨first, [], rfl, rfl⟩
  obtain ⟨Γ, succs, hΓ, hrule, hsuccs⟩ := rule_at hT hcode hfit hi
  have hend : (first.flatMap Instruction.encode).length + i.op.size = u.code.size := by
    rw [← Array.length_toList, hcode, List.flatMap_append, List.length_append,
      ← (hfit i (by simp)).length_encode]
    simp
  have hnext : ∀ Δ, (((first.flatMap Instruction.encode).length + i.op.size), Δ) ∉ succs := by
    intro Δ hΔ
    have hlt := (hT.inside _ _ (hsuccs _ hΔ)).2
    rw [hend] at hlt
    exact Nat.lt_irrefl _ hlt
  cases hrule with
  | ret => exact .inl rfl
  | jump => exact .inr rfl
  | effect | jumpIfZero | jumpIfNonZero | jumpIfIntLess =>
    exact absurd List.mem_cons_self (hnext _)

end Charts

/-! ## Compiled units -/

namespace Assembly

variable {z : Assembly} {u : CodeUnit} {ks : List Sketch}

/-- The instructions that sketches are read back as when all jumps are completed. -/
def instructions (z : Assembly) (ks : List Sketch) : List Instruction :=
  ks.map fun k => (k.linked z.jumps).cut

lemma Links.code_instructions (hz : z.Links u) (hks : z.Draws ks) :
    u.code.toList = (z.instructions ks).flatMap Instruction.encode := by
  rw [hz.code ks hks, instructions, List.flatMap_map, Sketch.linkedBytes]
  exact congrArg (fun f => List.flatMap f ks) (funext fun k => (Instruction.encode_cut _).symm)

lemma Draws.fits_instructions (hks : z.Draws ks) : ∀ i ∈ z.instructions ks, i.Fits := by
  intro i hi
  obtain ⟨k, hk, rfl⟩ := List.mem_map.1 hi
  exact Instruction.fits_cut ((hks.sound k hk).shaped_linked _)

/-- Sketches take as many bytes as the instructions they are read back as. -/
lemma length_instructions {before : List Sketch} (h : ∀ k ∈ before, k.Sound) :
    ((z.instructions before).flatMap Instruction.encode).length = (Sketch.bytes before).length := by
  rw [← Sketch.length_linkedBytes z.jumps h, instructions, List.flatMap_map, Sketch.linkedBytes]
  exact congrArg (fun f => (List.flatMap f before).length)
    (funext fun k => Instruction.encode_cut _)

/-- Instructions begin where sketches do. -/
lemma Draws.boundary_of_at (hks : z.Draws ks) {p : Nat} {i : Instruction}
    (hi : Instruction.At (z.instructions ks) p i) : Sketch.Boundary ks p := by
  obtain ⟨before, after, his, rfl⟩ := hi
  obtain ⟨before, rest, rfl, rfl, -⟩ := List.map_eq_append_iff.1 his
  exact ⟨before, rest, rfl, length_instructions fun k hk => hks.sound k (by simp [hk])⟩

lemma Draws.at_of_boundary (hks : z.Draws ks) {t : Nat} (ht : Sketch.Boundary ks t)
    (hlt : t < z.position) : ∃ i, Instruction.At (z.instructions ks) t i := by
  obtain ⟨before, after, rfl, rfl⟩ := ht
  cases after with
  | nil =>
    rw [hks.position, List.append_nil] at hlt
    exact absurd hlt (Nat.lt_irrefl _)
  | cons k after =>
    refine ⟨_, z.instructions before, z.instructions after, List.map_append, ?_⟩
    exact (length_instructions fun k hk => hks.sound k (by simp [hk])).symm

/-- A jump goes to where an instruction begins, if a chart has a layout there. -/
lemma Links.target_at (hz : z.Links u) (hks : z.Draws ks) {T : Nat → Option Layout}
    (hT : Charted z.slots u T) {p t : Nat} {op : Opcode} (hop : op.isJump = true)
    (hi : Instruction.At (z.instructions ks) p ⟨op, [t]⟩) {Γ : Layout} (ht : T t = some Γ) :
    ∃ i, Instruction.At (z.instructions ks) t i := by
  have hholds := hi.holds (hz.code_instructions hks) (hks.fits_instructions _ hi.mem)
  refine hks.at_of_boundary ?_ (hz.size ▸ (hT.inside _ _ ht).2)
  rcases (hz.steps hks).reads p (hks.boundary_of_at hi) with hend | ⟨op', hop', -, -, hjump⟩
  · have hread := hholds.op
    simp [hend] at hread
  · obtain rfl : op' = op := Option.some.inj (hop'.symm.trans hholds.op)
    exact hjump hop t (hholds.operand (Opcode.widths_of_isJump hop))

end Assembly

/-- **A unit that was made of a body is well formed.** -/
theorem Made.wellFormed {o : CompilerOptions} {depth : Nat} {name : String} {b : Body}
    {z : Assembly} {u : CodeUnit} (h : Made (Compiling.unitWithin o depth) name b z u)
    (hb : b.depth ≤ depth) : ∃ is, u.WellFormed o b is := by
  obtain ⟨ks, hks⟩ := h.links.sound.draws
  obtain ⟨T, hT⟩ := h.charted
  have hsound := h.links.sound
  have hcode := h.links.code_instructions hks
  have hfit := hks.fits_instructions
  have hpositions : ∀ {p i}, Instruction.At (z.instructions ks) p i →
      ∃ Γ succs, T p = some Γ ∧ Rule z.slots u p i Γ succs ∧ ∀ r ∈ succs, T r.1 = some r.2 :=
    fun hi => hT.rule_at hcode hfit hi
  refine ⟨z.instructions ks, {
    code := hcode
    reads := fun p i hi => ⟨hi.holds hcode (hfit i hi.mem), hfit i hi.mem⟩
    operands := fun p i hi => ?_
    last := ?_
    slots := h.links.slots ▸ hsound.slots.bound
    constants := h.links.constants ▸ hsound.pool.size
    thunks := by
      rw [h.links.thunks, Array.length_toList]
      exact hsound.thunks.size
    closures := by
      rw [h.links.closures, Array.length_toList]
      exact hsound.closures.size
    positions := ⟨z.slots, T, hT, fun _ _ _ _ _ _ hm => hT.fits h.links hm,
      fun p n => ⟨fun c hi => ?_, fun hi => ?_⟩⟩
    uncut := ⟨z.tables, fun v hv => h.fits hb hv, fun limit host env => h.follows limit host env⟩ }⟩
  · obtain ⟨Γ, succs, hΓ, hrule, hsuccs⟩ := hpositions hi
    cases hrule with
    | effect he => exact he.admits hsound.slots h.links.slots _
    | ret => exact .nil
    | jump => exact .cons (h.links.target_at hks hT rfl hi (hsuccs _ List.mem_cons_self)) .nil
    | jumpIfZero | jumpIfNonZero | jumpIfIntLess =>
      have ht := hsuccs _ (List.mem_cons_of_mem _ List.mem_cons_self)
      exact .cons (h.links.target_at hks hT rfl hi ht) .nil
  · have hne : z.instructions ks ≠ [] := by
      intro hnil
      rw [hnil] at hcode
      have hsize : u.code.size = 0 := congrArg List.length hcode
      have hlt := (hT.inside 0 [] hT.starts).2
      omega
    obtain ⟨first, i, hconcat⟩ := (List.eq_nil_or_concat _).resolve_left hne
    rw [List.concat_eq_append] at hconcat
    exact ⟨first, i, hconcat, hT.transfer_of_last (hconcat ▸ hcode) (hconcat ▸ hfit)⟩
  · obtain ⟨Γ, succs, hΓ, hrule, -⟩ := hpositions hi
    cases hrule with
    | effect he =>
      cases he with
      | nameAt hc hn => exact ⟨_, _, hΓ, hn⟩
  · obtain ⟨Γ, succs, hΓ, hrule, -⟩ := hpositions hi
    cases hrule with
    | effect he =>
      cases he with
      | valueAt hn => exact ⟨_, _, hΓ, hn⟩

/-- **Compiled units are well formed**, whatever they are compiled from, and so are all units inside
them. -/
theorem Compiling.unit_wellFormed {o : CompilerOptions} {name : String} {b : Body} {u : CodeUnit}
    {j k : Journal} (h : Compiling.unit o name b j = .ok u k) :
    (∃ is, u.WellFormed o b is) ∧
      ∀ v : CodeUnit, v.Within u → ∃ b' is, Compiles o b' v ∧ v.WellFormed o b' is := by
  have hall : ∀ {b' : Body} {v : CodeUnit}, Compiles o b' v → ∃ is, v.WellFormed o b' is := by
    intro b' v hv
    obtain ⟨_, _, z, hdepth, hz⟩ := hv.made
    exact hz.wellFormed hdepth
  have hu := compiles_of_unit h
  refine ⟨hall hu, fun v hv => ?_⟩
  obtain ⟨b', hb'⟩ := hu.within hv
  obtain ⟨is, his⟩ := hall hb'
  exact ⟨b', is, hb', his⟩

theorem Compiling.unit_wellFormed_literal :
    ∃ u k, Compiling.unit {} "main" literalBody #[] = .ok u k ∧
      (∃ is, u.WellFormed {} literalBody is) ∧
        ∀ v : CodeUnit, v.Within u → ∃ b' is, Compiles {} b' v ∧ v.WellFormed {} b' is := by
  have hunit : ∃ u k, Compiling.unit {} "main" literalBody #[] = .ok u k := ⟨_, _, rfl⟩
  obtain ⟨u, k, h⟩ := hunit
  exact ⟨u, k, h, unit_wellFormed h⟩

end CallByNeed
