import CallByNeed.Proofs.Code.Operand
import CallByNeed.Proofs.Discipline.Region

/-!
# The layouts of the code of operands

The code of an operand finds nothing on the stack that it needs, and leaves one word of the kind that
it says (`Emits.leaves_term`). A call sequence may start in the middle of another one: what is said
of it holds over any rest of the stack. Its three ways meet again with the value of the call on top of
that rest.
-/

namespace CallByNeed

open CallByNeed.Flow (Term Thunk CallSite Operands)

/-- What a slot of a kind holds, as a part of the stack. -/
def SlotKind.item : SlotKind → Item
  | .int => .int
  | .value => .value

namespace Emits

variable {α : Type} {nested : Nested} {anon : List Mark} {vs ws : List Visit}

/-! ## Common pieces -/

lemma leaves_loadContext :
    Emits nested anon [] Assemble.loadContext (fun _ => Leaves [] [.context]) :=
  (slotted .load rfl rfl).mono fun _ _ _ _ _ _ ⟨hq, h⟩ => .one (h (by decide)) .loadContext hq

lemma leaves_loadEnvironment :
    Emits nested anon [] Assemble.loadEnvironment (fun _ => Leaves [] [.env]) :=
  (slotted .load rfl rfl).mono fun _ _ _ _ _ _ ⟨hq, h⟩ => .one (h (by decide)) .loadEnvironment hq

/-- The work slot is pushed where it has been stored in. -/
lemma leaves_loadWork (Δ : Layout) :
    Emits nested anon [] Assemble.loadWork
      (fun _ => Leaves (Δ ++ [.parked]) (.dots :: (Δ ++ [.parked]))) :=
  (slotted .load rfl rfl).mono fun _ _ _ _ _ _ ⟨hq, h⟩ => .one (h (by decide)) (.loadWork Δ) hq

lemma leaves_storeWork : Emits nested anon [] Assemble.storeWork (fun _ => Leaves [.dots] [.parked]) :=
  (slotted .store rfl rfl).mono fun _ _ _ _ _ _ ⟨hq, h⟩ => .one (h (by decide)) .storeWork hq

lemma leaves_pushLiteral (e : Expr) :
    Emits nested anon [] (Assemble.pushLiteral e) (fun _ => Leaves [] [.value]) := by
  refine ((literalIndex e).bind fun i => indexed .constant rfl rfl).mono ?_
  rintro _ p q z u _ ⟨i, _, ⟨rfl, hi, hc⟩, hq, h⟩
  exact .one (h hi) (.literal hc) hq

lemma leaves_pushInt (k : Int32) :
    Emits nested anon [] (Assemble.pushInt k) (fun _ => Leaves [] [.int]) :=
  (emit (show [intOperand k].length = Opcode.int.widths.length from rfl) rfl).mono
    fun _ _ _ _ _ _ ⟨hq, h⟩ => .one (h (Instruction.fits_int k)) (.int k) hq

lemma leaves_pushCall (c : CallSite) :
    Emits nested anon [.site c] (Assemble.pushCall c) (fun _ => Leaves [] [.call]) := by
  refine ((callIndex c).bind fun i => indexed .constant rfl rfl).mono ?_
  rintro _ p q z u _ ⟨i, _, ⟨rfl, hi, -, call, hc⟩, hq, h⟩
  exact .one (h hi) (.site hc) hq

lemma leaves_loadVariable (s : Symbol) :
    Emits nested anon [] (Assemble.loadVariable s) (fun _ => Leaves [] [.value]) := by
  refine ((nameIndex s).bind fun i => (indexed .findVariable rfl rfl).seq (plain .force rfl rfl)).mono ?_
  rintro _ p q z u _ ⟨i, _, ⟨rfl, hi, hc⟩, r, ⟨hr, h⟩, hq, h'⟩
  exact .trans (.one (h hi) (.findVariable hc) hr) (.one h' .force hq)

/-! ## Boxing -/

lemma leaves_boxed {c : Assemble SlotKind}
    (h : Emits nested anon vs c (fun kind => Leaves [] [kind.item])) :
    Emits nested anon vs (Assemble.boxed c) (fun _ => Leaves [] [.value]) := by
  have hbox : ∀ kind : SlotKind,
      Emits nested anon [] (if kind = .int then Assemble.emit .boxInt [] else pure ())
        (fun _ => Leaves [kind.item] [.value]) := fun kind => by
    cases kind with
    | int => exact (plain .boxInt rfl rfl).mono fun _ _ _ _ _ _ ⟨hq, h⟩ => .one h .boxInt hq
    | value => exact (nothing ()).mono fun _ _ _ _ _ _ ⟨_, hq⟩ => hq ▸ .refl
  refine ((h.bind hbox).mono ?_).meets (List.append_nil vs)
  rintro _ p q z u _ ⟨kind, r, hc, hb⟩
  exact hc.trans hb

lemma leaves_unboxed {c : Assemble SlotKind}
    (h : Emits nested anon vs c (fun kind => Leaves [] [kind.item])) :
    Emits nested anon vs (Assemble.unboxed c) (fun _ => Leaves [] [.int]) := by
  have hunbox : ∀ kind : SlotKind,
      Emits nested anon [] (if kind = .value then Assemble.emit .unboxInt [] else pure ())
        (fun _ => Leaves [kind.item] [.int]) := fun kind => by
    cases kind with
    | int => exact (nothing ()).mono fun _ _ _ _ _ _ ⟨_, hq⟩ => hq ▸ .refl
    | value => exact (plain .unboxInt rfl rfl).mono fun _ _ _ _ _ _ ⟨hq, h⟩ => .one h .unboxInt hq
  refine ((h.bind hunbox).mono ?_).meets (List.append_nil vs)
  rintro _ p q z u _ ⟨kind, r, hc, hb⟩
  exact hc.trans hb

/-- Code that leaves a value says so. -/
lemma leaves_asWord {c : Assemble α} (h : Emits nested anon vs c (fun _ => Leaves [] [.value])) :
    Emits nested anon vs (do let _ ← c; return SlotKind.value)
      (fun kind => Leaves [] [kind.item]) := by
  refine ((h.bind fun _ => nothing SlotKind.value).mono ?_).meets (List.append_nil vs)
  rintro kind p q z u _ ⟨_, r, hc, rfl, rfl⟩
  exact hc

/-! ## Slots -/

/-- Pushing what the slot of a key holds. -/
lemma leaves_load {key : Flow.SlotKey} {slot : Slot} {p q : Nat} {z : Assembly}
    {u : CodeUnit} (hl : z.slots.lookup? key = some slot)
    (hi : u.code.Holds p ⟨Tracks.loadOp slot.kind, [slot.index]⟩)
    (hq : q = p + (Tracks.loadOp slot.kind).size) : Leaves [] [slot.kind.item] p q z u := by
  obtain ⟨index, kind⟩ := slot
  cases kind with
  | int => exact .one hi (.loadInt hl) hq
  | value => exact .one hi (.load hl) hq

lemma leaves_loadSlot (key : Flow.SlotKey) (operand : String) :
    Emits nested anon [] (Assemble.loadSlot key operand) (fun kind => Leaves [] [kind.item]) := by
  intro a kind a' hc ha hm
  rw [Assemble.loadSlot, Assemble.get_bind_apply] at hc
  cases hl : a.slots.lookup? key with
  | none =>
    rw [hl] at hc
    cases hc
  | some slot =>
    rw [hl] at hc
    obtain ⟨hg, hs⟩ := loadFrom slot a kind a' hc ha hm
    refine ⟨hg, fun z u hz he => ?_⟩
    obtain ⟨rfl, hq, h⟩ := hs z u hz he
    have hlz : z.slots.lookup? key = some slot := (hg.toExtends.trans he).slots key slot hl
    have hlt := Nat.lt_of_lt_of_le (hz.sound.slots.range hlz).2 hz.sound.slots.bound
    exact leaves_load hlz (h hlt) hq

/-! ## Late arguments -/

lemma leaves_evaluateThunk (d : Thunk) :
    Emits nested anon (lateVisits d) (Assemble.evaluateThunk nested d)
      (fun _ => Leaves [] [.value]) := by
  unfold Assemble.evaluateThunk lateVisits
  cases hd : d.name? with
  | some name => exact leaves_loadVariable name
  | none =>
    refine ((thunkIndex d).bind fun i => leaves_loadContext.seq (leaves_loadEnvironment.seq
      (indexed .evalThunk rfl rfl))).mono ?_
    rintro _ p q z u _ ⟨i, _, ⟨rfl, hi, -, t, ht⟩, r, hctx, r', henv, hq, h⟩
    exact hctx.trans ((henv.under [.context]).trans (.one (h hi) (.evalThunk ht) hq))

lemma leaves_promised (d : Thunk) :
    Emits nested anon (lateVisits d)
      (match d.name? with
        | some bare => do
          let index ← Assemble.nameIndex bare
          Assemble.loadEnvironment
          Assemble.emit .makeVariablePromise [index]
        | none => do
          let index ← Assemble.thunkIndex nested d
          Assemble.loadContext
          Assemble.loadEnvironment
          Assemble.emit .makeThunk [index])
      (fun _ => Leaves [] [.value]) := by
  unfold lateVisits
  cases hd : d.name? with
  | some name =>
    refine ((nameIndex name).bind fun i => leaves_loadEnvironment.seq
      (indexed .makeVariablePromise rfl rfl)).mono ?_
    rintro _ p q z u _ ⟨i, _, ⟨rfl, hi, hc⟩, r, henv, hq, h⟩
    exact henv.trans (.one (h hi) (.makeVariablePromise hc) hq)
  | none =>
    refine ((thunkIndex d).bind fun i => leaves_loadContext.seq (leaves_loadEnvironment.seq
      (indexed .makeThunk rfl rfl))).mono ?_
    rintro _ p q z u _ ⟨i, _, ⟨rfl, hi, -, t, ht⟩, r, hctx, r', henv, hq, h⟩
    exact hctx.trans ((henv.under [.context]).trans (.one (h hi) (.makeThunk ht) hq))

/-! ## Arguments of closures -/

lemma leaves_addArgument (name : Option Symbol) :
    Emits nested anon [] (Assemble.addArgument name) (fun _ => Leaves [.value, .args] [.args]) := by
  unfold Assemble.addArgument
  cases name with
  | some name =>
    refine ((nameIndex name).bind fun i => indexed .argAddNamed rfl rfl).mono ?_
    rintro _ p q z u _ ⟨i, _, ⟨rfl, hi, hc⟩, hq, h⟩
    exact .one (h hi) (.argAddNamed hc) hq
  | none => exact (plain .argAdd rfl rfl).mono fun _ _ _ _ _ _ ⟨hq, h⟩ => .one h .argAdd hq

/-- One argument is appended, and then the others. -/
lemma leaves_append (name : Option Symbol) {c d : Assemble Unit}
    (hc : Emits nested anon vs c (fun _ => Leaves [] [.value]))
    (hd : Emits nested anon ws d (fun _ => Leaves [.args] [.args])) :
    Emits nested anon (vs ++ ws) (do c; Assemble.addArgument name; d)
      (fun _ => Leaves [.args] [.args]) := by
  refine ((hc.seq ((leaves_addArgument name).seq hd)).mono ?_).meets (by simp)
  rintro _ p q z u _ ⟨r₁, hc, r₂, hadd, hd⟩
  exact (hc.under [.args]).trans (hadd.trans hd)

/-- The caller's `...` is appended, and then the others. -/
lemma leaves_appendDots {d : Assemble Unit}
    (hd : Emits nested anon ws d (fun _ => Leaves [.args] [.args])) :
    Emits nested anon ws (do Assemble.emit .loadEllipsis []; Assemble.emit .argAddAll []; d)
      (fun _ => Leaves [.args] [.args]) := by
  refine ((plain .loadEllipsis rfl rfl).seq ((plain .argAddAll rfl rfl).seq hd)).mono ?_
  rintro _ p q z u _ ⟨r₁, ⟨hr₁, h₁⟩, r₂, ⟨hr₂, h₂⟩, hd⟩
  exact ((Leaves.one h₁ .loadEllipsis hr₁).under [.args]).trans
    ((Leaves.one h₂ .argAddAll hr₂).trans hd)

/-! ## Arguments of builtins -/

end Emits

/-- What is noted of the work slot while the arguments are passed. -/
def Flow.Operands.note (o : Operands Term) : Layout :=
  if o.ellipsisIndex?.isSome then [.parked] else []

/-- The size of the arrays that are passed, if it is known. -/
def Flow.Operands.size? (o : Operands Term) : Option Nat :=
  if o.ellipsisIndex?.isSome then none else some o.args.length

/-- The arrays and the note belong together. -/
lemma Flow.Operands.counted (o : Operands Term) : Counted o.size? o.note := by
  unfold size? note
  split
  · exact .spliced
  · exact .fixed _

namespace Emits

variable {α : Type} {nested : Nested} {anon : List Mark} {vs ws : List Visit}

lemma leaves_storeEllipsis (o : Operands Term) :
    Emits nested anon [] (Assemble.storeEllipsis o) (fun _ => Leaves [] o.note) := by
  unfold Assemble.storeEllipsis Flow.Operands.note
  split
  · refine ((plain .loadEllipsis rfl rfl).seq leaves_storeWork).mono ?_
    rintro _ p q z u _ ⟨r, ⟨hr, h⟩, hstore⟩
    exact (Leaves.one h .loadEllipsis hr).trans hstore
  · exact (nothing ()).mono fun _ _ _ _ _ _ ⟨_, hq⟩ => hq ▸ .refl

/-- Names are filled in within the array. -/
lemma leaves_nameArguments {k : Nat} (hk : k < maxConstants) (names : List (Option Symbol))
    (position : Nat) (hle : position + names.length ≤ k) :
    Emits nested anon [] (Assemble.nameArguments names position)
      (fun _ => Leaves [.names (some k)] [.names (some k)]) := by
  induction names generalizing position with
  | nil => exact (nothing ()).mono fun _ _ _ _ _ _ ⟨_, hq⟩ => hq ▸ .refl
  | cons name names ih =>
    rw [List.length_cons] at hle
    have hrest := ih (position + 1) (by omega)
    cases name with
    | none => exact hrest
    | some name =>
      refine ((nameIndex name).bind fun i =>
        (emit (show [position, i].length = Opcode.nameAt.widths.length from rfl) rfl).seq hrest).mono ?_
      rintro _ p q z u _ ⟨i, _, ⟨rfl, hi, hc⟩, r, ⟨hr, h⟩, hrest⟩
      exact (Leaves.one (h (Instruction.fits_pair rfl (by omega) hi)) (.nameAt hc (by omega))
        hr).trans hrest

/-- Splicing into an array that lies above the note about the work slot. -/
lemma leaves_splice {op : Opcode} (array : Option Nat → Item) {o : Operands Term}
    (ho : Passable o) (Δ : Layout) (hw : op.widths = [2]) (hop : op.isJump = false)
    (heffect : ∀ {z : Slots} {u : CodeUnit} {n k : Nat}, n < k →
      Effect z u ⟨op, [n]⟩ [.dots, array (some k)] [array none]) :
    Emits nested anon [] (Assemble.splice op o) (fun _ =>
      Leaves (array (some o.args.length) :: (Δ ++ o.note)) (array o.size? :: (Δ ++ o.note))) := by
  unfold Assemble.splice Flow.Operands.note Flow.Operands.size?
  cases hi : o.ellipsisIndex? with
  | none => exact (nothing ()).mono fun _ _ _ _ _ _ ⟨_, hq⟩ => hq ▸ .refl
  | some n =>
    obtain ⟨hn, hmax⟩ := ho.position hi
    refine ((leaves_loadWork (array (some o.args.length) :: Δ)).seq (indexed op hw hop)).mono ?_
    rintro _ p q z u _ ⟨r, hload, hq, h⟩
    exact hload.trans ((Leaves.one (h hmax) (heffect hn) hq).under (Δ ++ [.parked]))

lemma leaves_pushNames {o : Operands Term} (ho : Passable o) (Δ : Layout) :
    Emits nested anon [] (Assemble.pushNames o)
      (fun _ => Leaves (Δ ++ o.note) (.names o.size? :: (Δ ++ o.note))) := by
  refine ((indexed .newNames rfl rfl).seq ((leaves_nameArguments ho.count o.names 0
    (by rw [ho.names]; omega)).seq (leaves_splice .names ho Δ rfl rfl
      .spliceNames))).mono ?_
  rintro _ p q z u _ ⟨r, ⟨hr, h⟩, r', hnames, hsplice⟩
  exact ((Leaves.one (h ho.count) (.newNames _) hr).under _).trans
    ((hnames.under (Δ ++ o.note)).trans hsplice)

/-- What a builtin needs below its values. -/
abbrev frameLayout (o : Operands Term) : Layout :=
  [.names o.size?, .call, .env, .context] ++ o.note

lemma leaves_pushBuiltinFrame {o : Operands Term} (ho : Passable o) :
    Emits nested anon [.site o.site] (Assemble.pushBuiltinFrame o)
      (fun _ => Leaves [] (.values (some o.args.length) :: frameLayout o)) := by
  refine ((leaves_storeEllipsis o).seq (leaves_loadContext.seq (leaves_loadEnvironment.seq
    ((leaves_pushCall o.site).seq ((leaves_pushNames ho [.call, .env, .context]).seq
      (indexed .newValues rfl rfl)))))).mono ?_
  rintro _ p q z u _ ⟨r₁, hdots, r₂, hctx, r₃, henv, r₄, hcall, r₅, hnames, hq, h⟩
  exact hdots.trans ((hctx.under o.note).trans ((henv.under (.context :: o.note)).trans
    ((hcall.under (.env :: .context :: o.note)).trans (hnames.trans
      ((Leaves.one (h ho.count) (.newValues _) hq).under (frameLayout o))))))

/-- One value is filled in, and then the others. -/
lemma leaves_fillValue {c d : Assemble Unit} {position k : Nat} (hk : k < maxConstants)
    (hlt : position < k) (hc : Emits nested anon vs c (fun _ => Leaves [] [.value]))
    (hd : Emits nested anon ws d (fun _ => Leaves [.values (some k)] [.values (some k)])) :
    Emits nested anon (vs ++ ws) (do c; Assemble.emit .valueAt [position]; d)
      (fun _ => Leaves [.values (some k)] [.values (some k)]) := by
  refine ((hc.seq ((indexed .valueAt rfl rfl).seq hd)).mono ?_).meets (by simp)
  rintro _ p q z u _ ⟨r₁, hc, r₂, ⟨hr₂, h⟩, hd⟩
  exact (hc.under [.values (some k)]).trans
    ((Leaves.one (h (by omega)) (.valueAt hlt) hr₂).trans hd)

/-! ## Calls -/

/-- The categories of a function that nothing is known of. -/
abbrev anyFunction : Item := .function [.builtin, .closure, .special]

lemma leaves_findFunction (name : Symbol) :
    Emits nested anon [] (Assemble.findFunction name) (fun _ => Leaves [] [anyFunction]) := by
  refine ((nameIndex name).bind fun i => indexed .findFunction rfl rfl).mono ?_
  rintro _ p q z u _ ⟨i, _, ⟨rfl, hi, hc⟩, hq, h⟩
  exact .one (h hi) (.findFunction hc) hq

lemma leaves_checkFunction (o : Operands Term) :
    Emits nested anon [.site o.site] (Assemble.checkFunction o)
      (fun _ => Leaves [.value] [anyFunction]) := by
  refine ((callIndex o.site).bind fun i => indexed .checkFunction rfl rfl).mono ?_
  rintro _ p q z u _ ⟨i, _, ⟨rfl, hi, -, call, hc⟩, hq, h⟩
  exact .one (h hi) (.checkFunction hc) hq

/-- A test tells whether the function is of a category, and jumps away if it is. -/
lemma test {z : Slots} {u : CodeUnit} {op : Opcode} {c : Category}
    {p r₁ r₂ q t : Nat}
    (heffect : ∀ cs, Effect z u ⟨op, []⟩ [.twice cs] [.test c cs])
    (h₁ : u.code.Holds p ⟨.dup, []⟩) (hr₁ : r₁ = p + Opcode.dup.size)
    (h₂ : u.code.Holds r₁ ⟨op, []⟩) (hr₂ : r₂ = r₁ + op.size)
    (h₃ : u.code.Holds r₂ ⟨.jumpIfNonZero, [t]⟩) (hq : q = r₂ + Opcode.jumpIfNonZero.size)
    (cs : List Category) (Γ : Layout) :
    Region z u p (.function cs :: Γ) q fun s Δ =>
      (s = q ∧ Δ = .function (cs.filter (· ≠ c)) :: Γ) ∨ (s = t ∧ Δ = .function [c] :: Γ) := by
  subst hr₁ hr₂ hq
  refine (Region.one h₁ (.effect (.dup cs) Γ) (by simp [OnlyAt])).andThen
    ((Region.one h₂ (.effect (heffect cs) Γ) (by simp [OnlyAt])).andThen
      (Region.one h₃ (.jumpIfNonZero c cs t Γ) (by simp)))

/-- The tests tell the category of the function, and jump away if it is one of two. -/
lemma leaves_categoryTests (mb mc : Mark) :
    Emits nested anon [] (do
        Assemble.emit .dup []
        Assemble.emit .isBuiltin []
        Assemble.jump .jumpIfNonZero mb
        Assemble.emit .dup []
        Assemble.emit .isClosure []
        Assemble.jump .jumpIfNonZero mc : Assemble Unit) (fun _ p q z u =>
      ∃ tb tc, z.jumps.position? mb = some tb ∧ z.jumps.position? mc = some tc ∧ (q < tb →
        ∀ Γ, Region z.slots u p (anyFunction :: Γ) q fun t Δ =>
          (t = tb ∧ Δ = .function [.builtin] :: Γ) ∨ (t = tc ∧ Δ = .function [.closure] :: Γ) ∨
            (t = q ∧ Δ = .function [.special] :: Γ))) := by
  refine ((plain .dup rfl rfl).seq ((plain .isBuiltin rfl rfl).seq ((jump .jumpIfNonZero mb rfl).seq
    ((plain .dup rfl rfl).seq ((plain .isClosure rfl rfl).seq (jump .jumpIfNonZero mc rfl)))))).mono ?_
  rintro _ p q z u _ ⟨r₁, ⟨hr₁, h₁⟩, r₂, ⟨hr₂, h₂⟩, r₃, ⟨hr₃, tb, htb, h₃⟩, r₄, ⟨hr₄, h₄⟩,
    r₅, ⟨hr₅, h₅⟩, hq, tc, htc, h₆⟩
  refine ⟨tb, tc, htb, htc, fun hlt Γ => ?_⟩
  have hbuiltin := test (z := z.slots) .isBuiltin h₁ hr₁ h₂ hr₂ h₃ hr₃
    [.builtin, .closure, .special] Γ
  have hclosure := test (z := z.slots) .isClosure h₄ hr₄ h₅ hr₅ h₆ hq
    [.closure, .special] Γ
  have hle := hclosure.le
  refine hbuiltin.join hclosure (fun t Θ h => ?_) fun t Θ h => ?_
  · rcases h with ⟨rfl, rfl⟩ | ⟨rfl, rfl⟩
    · exact .inl ⟨rfl, rfl⟩
    · exact .inr ⟨by omega, .inl ⟨rfl, rfl⟩⟩
  · exact .inr h.symm

/-- What the way of a category does: it finds a function of the category and goes on elsewhere with
the value of the call. -/
def Way (c : Category) (t p q : Nat) (z : Assembly) (u : CodeUnit) : Prop :=
  ∀ Γ, Region z.slots u p (.function [c] :: Γ) q (OnlyAt t (.value :: Γ))

/-- A way is not empty. -/
lemma Way.lt {c : Category} {t p q : Nat} {z : Assembly} {u : CodeUnit} (h : Way c t p q z u) :
    p < q := by
  obtain ⟨T, hT⟩ := h []
  rcases hT.entry with ⟨hlt, -⟩ | ⟨-, -, heq⟩
  · exact hlt
  · cases heq

lemma leaves_specialWay (o : Operands Term) (mf : Mark) :
    Emits nested anon [.site o.site] (do
        Assemble.loadContext
        Assemble.loadEnvironment
        Assemble.pushCall o.site
        Assemble.emit .applySpecial []
        Assemble.jump .jump mf : Assemble Unit) (fun _ p q z u =>
      ∃ t, z.jumps.position? mf = some t ∧ Way .special t p q z u) := by
  refine (leaves_loadContext.seq (leaves_loadEnvironment.seq ((leaves_pushCall o.site).seq
    ((plain .applySpecial rfl rfl).seq (jump .jump mf rfl))))).mono ?_
  rintro _ p q z u _ ⟨r₁, hctx, r₂, henv, r₃, hcall, r₄, ⟨hr₄, h⟩, hq, t, ht, hj⟩
  have hcode : Leaves [.function [.special]] [.value] p r₄ z u :=
    (hctx.under _).trans ((henv.under _).trans ((hcall.under _).trans
      (.one h .applySpecial hr₄)))
  rw [hq]
  exact ⟨t, ht, fun Γ => (hcode Γ).andJump hj⟩

lemma leaves_closureWay {o : Operands Term} {closureArguments : Assemble Unit} {mc : Mark}
    (mf : Mark) (hmem : mc ∈ anon)
    (hargs : Emits nested anon vs closureArguments (fun _ => Leaves [.args] [.args])) :
    Emits nested anon (.site o.site :: vs) (do
        Assemble.place mc
        Assemble.emit .castClosure []
        Assemble.loadContext
        Assemble.pushCall o.site
        Assemble.emit .newArgList []
        closureArguments
        Assemble.emit .applyClosure []
        Assemble.jump .jump mf : Assemble Unit) (fun _ p q z u =>
      z.jumps.position? mc = some p ∧ ∃ t, z.jumps.position? mf = some t ∧
        Way .closure t p q z u) := by
  refine (((place mc hmem).seq ((plain .castClosure rfl rfl).seq (leaves_loadContext.seq
    ((leaves_pushCall o.site).seq ((plain .newArgList rfl rfl).seq (hargs.seq ((plain .applyClosure rfl rfl).seq
      (jump .jump mf rfl)))))))).mono ?_).meets (by simp)
  rintro _ p q z u _ ⟨r₁, ⟨rfl, hmc⟩, r₂, ⟨hr₂, h₂⟩, r₃, hctx, r₄, hcall, r₅, ⟨hr₅, h₅⟩, r₆,
    hargs, r₇, ⟨hr₇, h₇⟩, hq, t, ht, hj⟩
  have hcode : Leaves [.function [.closure]] [.value] r₁ r₇ z u :=
    (Leaves.one h₂ .castClosure hr₂).trans ((hctx.under _).trans ((hcall.under _).trans
      (((Leaves.one h₅ .newArgList hr₅).under _).trans ((hargs.under _).trans
        (.one h₇ .applyClosure hr₇)))))
  rw [hq]
  exact ⟨hmc, t, ht, fun Γ => (hcode Γ).andJump hj⟩

lemma leaves_builtinWay {o : Operands Term} (ho : Passable o) {builtinValues : Assemble Unit}
    {mb mf : Mark} (hmb : mb ∈ anon) (hmf : mf ∈ anon)
    (hvalues : Emits nested anon vs builtinValues
      (fun _ => Leaves [.values (some o.args.length)] [.values (some o.args.length)])) :
    Emits nested anon (.site o.site :: vs) (do
        Assemble.place mb
        Assemble.emit .castBuiltin []
        Assemble.pushBuiltinFrame o
        builtinValues
        Assemble.splice .spliceValues o
        Assemble.emit .applyBuiltin []
        Assemble.place mf : Assemble Unit) (fun _ p q z u =>
      z.jumps.position? mb = some p ∧ z.jumps.position? mf = some q ∧
        Way .builtin q p q z u) := by
  refine (((place mb hmb).seq ((plain .castBuiltin rfl rfl).seq ((leaves_pushBuiltinFrame ho).seq
    (hvalues.seq ((leaves_splice .values ho [.names o.size?, .call, .env, .context]
      rfl rfl .spliceValues).seq
        ((plain .applyBuiltin rfl rfl).seq (place mf hmf))))))).mono ?_).meets (by simp)
  rintro _ p q z u _ ⟨r₁, ⟨rfl, hmb⟩, r₂, ⟨hr₂, h₂⟩, r₃, hframe, r₄, hvalues, r₅, hsplice, r₆,
    ⟨hr₆, h₆⟩, rfl, hmf⟩
  have hcode : Leaves [.function [.builtin]] [.value] _ _ z u :=
    (Leaves.one h₂ .castBuiltin hr₂).trans ((hframe.under [.function [.builtin]]).trans
      ((hvalues.under (frameLayout o ++ [.function [.builtin]])).trans
        ((hsplice.under [.function [.builtin]]).trans (.one h₆ (.applyBuiltin o.counted) hr₆))))
  exact ⟨hmb, hmf, hcode⟩

/-- The three ways of a call meet with its value on top of the stack. -/
lemma leaves_dispatch {o : Operands Term} {closureArguments builtinValues : Assemble Unit}
    (ho : Passable o)
    (hargs : ∀ anon, Emits nested anon vs closureArguments (fun _ => Leaves [.args] [.args]))
    (hvalues : ∀ anon, Emits nested anon ws builtinValues
      (fun _ => Leaves [.values (some o.args.length)] [.values (some o.args.length)])) :
    Emits nested anon (.site o.site :: .site o.site :: (vs ++ .site o.site :: ws))
      (Assemble.dispatch o closureArguments builtinValues)
      (fun _ => Leaves [anyFunction] [.value]) := by
  rw [dispatch_eq]
  refine freshMark fun mb => freshMark fun mc => freshMark fun mf => ?_
  refine (((leaves_categoryTests mb mc).seq ((leaves_specialWay o mf).seq
    ((leaves_closureWay mf (by simp) (hargs _)).seq
      (leaves_builtinWay ho (by simp) (by simp) (hvalues _))))).mono ?_).meets (by simp)
  rintro _ p q z u _ ⟨r₁, ⟨tb, tc, htb, htc, htest⟩, r₂, ⟨ts, hts, hspecial⟩, r₃,
    ⟨hmc, tf, htf, hclosure⟩, hmb, hmf, hbuiltin⟩ Γ
  obtain rfl : tb = r₃ := Option.some.inj (htb.symm.trans hmb)
  obtain rfl : tc = r₂ := Option.some.inj (htc.symm.trans hmc)
  obtain rfl : ts = q := Option.some.inj (hts.symm.trans hmf)
  obtain rfl : tf = ts := Option.some.inj (htf.symm.trans hmf)
  have hlt₁ := hspecial.lt
  have hlt₂ := hclosure.lt
  have hlt₃ := hbuiltin.lt
  have hfirst : Region z.slots u p (anyFunction :: Γ) tc fun t Δ =>
      (t = tb ∧ Δ = .function [.builtin] :: Γ) ∨ (t = tc ∧ Δ = .function [.closure] :: Γ) ∨
        (t = tf ∧ Δ = .value :: Γ) := by
    refine (htest (by omega) Γ).join (hspecial Γ) (fun t Θ h => ?_) fun t Θ h => .inr (.inr h)
    rcases h with ⟨rfl, rfl⟩ | ⟨rfl, rfl⟩ | h
    · exact .inr ⟨by omega, .inl ⟨rfl, rfl⟩⟩
    · exact .inr ⟨by omega, .inr (.inl ⟨rfl, rfl⟩)⟩
    · exact .inl h
  have hsecond : Region z.slots u p (anyFunction :: Γ) tb fun t Δ =>
      (t = tb ∧ Δ = .function [.builtin] :: Γ) ∨ (t = tf ∧ Δ = .value :: Γ) := by
    refine hfirst.join (hclosure Γ) (fun t Θ h => ?_) fun t Θ h => .inr h
    rcases h with ⟨rfl, rfl⟩ | h | ⟨rfl, rfl⟩
    · exact .inr ⟨by omega, .inl ⟨rfl, rfl⟩⟩
    · exact .inl h
    · exact .inr ⟨by omega, .inr ⟨rfl, rfl⟩⟩
  refine hsecond.join (hbuiltin Γ) (fun t Θ h => ?_) fun _ _ h => h
  rcases h with h | ⟨rfl, rfl⟩
  · exact .inl h
  · exact .inr ⟨by omega, rfl, rfl⟩

/-! ## Operands -/

mutual

/-- **The code of an operand** leaves one word of the kind that it says. -/
theorem leaves_term (nested : Nested) (anon : List Mark) : ∀ t : Term,
    Emits nested anon t.visits (Assemble.term nested t) (fun kind => Leaves [] [kind.item])
  | .int n => by
    refine ((leaves_pushInt n).seq (nothing SlotKind.int)).mono ?_
    rintro _ p q z u _ ⟨r, h, rfl, rfl⟩
    exact h
  | .literal e => leaves_asWord (leaves_pushLiteral e)
  | .temp id => leaves_loadSlot (.temp id) _
  | .local id name => leaves_loadSlot (.local id) _
  | .env name => leaves_asWord (leaves_loadVariable name)
  | .element vector index => by
    refine (((leaves_boxed (leaves_term nested anon vector)).seq
      ((leaves_unboxed (leaves_term nested anon index)).seq
        ((plain .elementAt rfl rfl).seq (nothing SlotKind.value)))).mono ?_).meets
          (by simp [Flow.Term.visits])
    rintro _ p q z u _ ⟨r₁, hvector, r₂, hindex, r₃, ⟨hr₃, h⟩, rfl, rfl⟩
    exact hvector.trans ((hindex.under [.value]).trans (.one h .elementAt hr₃))
  | .length vector => by
    refine (((leaves_boxed (leaves_term nested anon vector)).seq ((plain .length rfl rfl).seq
      (nothing SlotKind.int))).mono ?_).meets (by simp [Flow.Term.visits])
    rintro _ p q z u _ ⟨r₁, hvector, r₂, ⟨hr₂, h⟩, rfl, rfl⟩
    exact hvector.trans (.one h .length hr₂)
  | .increment counter => by
    refine (((leaves_unboxed (leaves_term nested anon counter)).seq ((leaves_pushInt 1).seq
      ((plain .addInt rfl rfl).seq (nothing SlotKind.int)))).mono ?_).meets (by simp [Flow.Term.visits])
    rintro _ p q z u _ ⟨r₁, hcounter, r₂, hone, r₃, ⟨hr₃, h⟩, rfl, rfl⟩
    exact hcounter.trans ((hone.under [.int]).trans (.one h .addInt hr₃))
  | .atLeast left right => by
    refine (((leaves_boxed (leaves_term nested anon left)).seq
      ((leaves_boxed (leaves_term nested anon right)).seq
        ((plain .greaterEqual rfl rfl).seq (nothing SlotKind.value)))).mono ?_).meets
          (by simp [Flow.Term.visits])
    rintro _ p q z u _ ⟨r₁, hleft, r₂, hright, r₃, ⟨hr₃, h⟩, rfl, rfl⟩
    exact hleft.trans ((hright.under [.value]).trans (.one h .greaterEqual hr₃))
  | .closure node procedure => by
    refine ((closureIndex node procedure).bind fun i => leaves_loadEnvironment.seq
      ((indexed .makeClosure rfl rfl).seq (nothing SlotKind.value))).mono ?_
    rintro _ p q z u _ ⟨i, _, ⟨rfl, hi, -, f, hf⟩, r₁, henv, r₂, ⟨hr₂, h⟩, rfl, rfl⟩
    exact henv.trans (.one (h hi) (.makeClosure hf) hr₂)
  | .thunk deferred => leaves_asWord (leaves_evaluateThunk deferred)
  | .ellipsis => throw _
  | .primitive name ⟨site, args, names⟩ => by
    refine checked fun ho => ?_
    cases hb : Builtin.ofName? name.name with
    | none => exact throw _
    | some b =>
      let o : Operands Term := ⟨site, args, names⟩
      refine (((primitiveIndex name).bind fun i => (leaves_pushBuiltinFrame ho).seq
        ((leaves_builtinValues nested anon ho.count args 0 (by simp)).seq
          ((leaves_splice .values ho [.names o.size?, .call, .env, .context] rfl rfl
            .spliceValues).seq
              ((indexed .callPrimitive rfl rfl).seq (nothing SlotKind.value))))).mono ?_).meets
        (by simp [Flow.Term.visits])
      rintro _ p q z u _ ⟨i, _, ⟨rfl, hi, hc⟩, r₁, hframe, r₂, hvalues, r₃, hsplice, r₄,
        ⟨hr₄, h⟩, rfl, rfl⟩
      exact hframe.trans ((hvalues.under (frameLayout o)).trans
        (hsplice.trans (.one (h hi) (.callPrimitive o.counted hc hb) hr₄)))
  | .call (.name name) ⟨site, args, names⟩ => by
    refine checked fun ho => ?_
    refine (((leaves_findFunction name).seq ((leaves_dispatch ho
      (fun anon => leaves_closureArguments nested anon args names ho.names)
      (fun anon => leaves_builtinValues nested anon ho.count args 0 (by simp))).seq
        (nothing SlotKind.value))).mono ?_).meets (by simp [Flow.Term.visits])
    rintro _ p q z u _ ⟨r₁, hfind, r₂, hcall, rfl, rfl⟩
    exact hfind.trans hcall
  | .call (.computed t) ⟨site, args, names⟩ => by
    refine checked fun ho => ?_
    refine (((leaves_boxed (leaves_term nested anon t)).seq
      ((leaves_checkFunction ⟨site, args, names⟩).seq ((leaves_dispatch ho
        (fun anon => leaves_closureArguments nested anon args names ho.names)
        (fun anon => leaves_builtinValues nested anon ho.count args 0 (by simp))).seq
          (nothing SlotKind.value)))).mono ?_).meets (by simp [Flow.Term.visits])
    rintro _ p q z u _ ⟨r₁, hterm, r₂, hcheck, r₃, hcall, rfl, rfl⟩
    exact hterm.trans (hcheck.trans hcall)

/-- The code of the arguments of a closure finds a list and leaves one. -/
theorem leaves_closureArguments (nested : Nested) (anon : List Mark) :
    ∀ (ts : List Term) (names : List (Option Symbol)), names.length = ts.length →
      Emits nested anon (Flow.Term.visitsOf ts) (Assemble.closureArguments nested ts names)
        (fun _ => Leaves [.args] [.args])
  | [], [], _ => (nothing ()).mono fun _ _ _ _ _ _ ⟨_, hq⟩ => hq ▸ .refl
  | t :: ts, name :: names, hlen => by
    have hrest := leaves_closureArguments nested anon ts names (Nat.succ.inj hlen)
    cases t with
    | ellipsis => exact leaves_appendDots hrest
    | thunk d =>
      have h := leaves_append name (leaves_promised d) hrest
      refine cast (congrArg (fun c => Emits nested anon _ c _) ?_) h
      simp only [Assemble.closureArguments]
      cases d.name? <;> simp only [bind_assoc]
    | _ => exact leaves_append name (leaves_boxed (leaves_term nested anon _)) hrest

/-- The code of the values of a builtin fills an array that has room for them. -/
theorem leaves_builtinValues (nested : Nested) (anon : List Mark) {k : Nat}
    (hk : k < maxConstants) : ∀ (ts : List Term) (position : Nat), position + ts.length ≤ k →
      Emits nested anon (Flow.Term.visitsOf ts) (Assemble.builtinValues nested ts position)
        (fun _ => Leaves [.values (some k)] [.values (some k)])
  | [], _, _ => (nothing ()).mono fun _ _ _ _ _ _ ⟨_, hq⟩ => hq ▸ .refl
  | t :: ts, position, hle => by
    rw [List.length_cons] at hle
    have hrest := leaves_builtinValues nested anon hk ts (position + 1) (by omega)
    cases t with
    | ellipsis => exact hrest
    | thunk d => exact leaves_fillValue hk (by omega) (leaves_evaluateThunk d) hrest
    | _ => exact leaves_fillValue hk (by omega) (leaves_boxed (leaves_term nested anon _)) hrest

end

end Emits

end CallByNeed
