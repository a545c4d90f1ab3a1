import CallByNeed.Proofs.Code.Nesting
import CallByNeed.Proofs.Eval.Instructions

/-!
# The pieces that code consists of

What the code of a call is put together from: loads, arrays of names and values, the frame of a
builtin, the three ways that a call can go. What a piece does is said by `Carries`, for every way of
executing the finished unit.
-/

namespace CallByNeed

open CallByNeed.Flow (Term Thunk Procedure NodeId CallSite Operands Action)

/-! ## Fitting operands -/

namespace Instruction

variable {op : Opcode} {n : Nat}

lemma fits_nil (hw : op.widths = []) : Fits ⟨op, []⟩ := by
  unfold Fits
  rw [hw]
  exact .nil

/-- An index fits two bytes. -/
lemma fits_index (hw : op.widths = [2]) (hn : n < maxConstants) : Fits ⟨op, [n]⟩ := by
  unfold Fits
  rw [hw]
  exact .cons hn .nil

/-- A slot fits one byte. -/
lemma fits_slot (hw : op.widths = [1]) (hn : n < maxSlots) : Fits ⟨op, [n]⟩ := by
  unfold Fits
  rw [hw]
  exact .cons hn .nil

/-- A native integer fits four bytes. -/
lemma fits_int (k : Int32) : Fits ⟨.int, [intOperand k]⟩ := by
  have hk : intOperand k < Nat.pow 256 4 := k.toUInt32.toNat_lt
  exact .cons hk .nil

/-- Two indexes fit two bytes each. -/
lemma fits_pair {k : Nat} (hw : op.widths = [2, 2]) (hn : n < maxConstants)
    (hk : k < maxConstants) : Fits ⟨op, [n, k]⟩ := by
  unfold Fits
  rw [hw]
  exact .cons hn (.cons hk .nil)

end Instruction

/-! ## Executing finished units -/

/-- The finished unit of an assembly is executed, and identities stand for what it has for them. -/
structure Site.On (X : Site) (z : Assembly) (u : CodeUnit) : Prop where
  unit : X.unit = u
  slots : X.slots = z.slots
  thunk : ∀ (node : NodeId) (i : Nat) (t : CodeUnit), z.thunks.index? node = some i →
    u.thunks[i]? = some t → X.tables.thunk node = t
  closure : ∀ (node : NodeId) (i : Nat) (f : FunctionUnit), z.closures.index? node = some i →
    u.closures[i]? = some f → X.tables.closure node = f
  call : ∀ (id i : Nat) (c : Call), z.pool.calls[id]? = some i →
    u.constants[i]? = some (.call c) → X.tables.call id = c

/-- What code does: from some words on top of the stack it carries out an action and leaves others. -/
def Carries {β : Type} (pre : List Word) (A : Site → Action β) (f : Site → β → List Word)
    (p q : Nat) (z : Assembly) (u : CodeUnit) : Prop :=
  ∀ X : Site, X.On z u → Tracks X p pre (A X) (Tracks.At q (f X))

/-- Code that leaves a word of a kind for a value. -/
def CarriesWord (A : Site → Action Value) (kind : SlotKind) (p q : Nat) (z : Assembly)
    (u : CodeUnit) : Prop :=
  ∀ X : Site, X.On z u → Tracks X p [] (A X) (fun v r ws => r = q ∧
    ∃ w, ws = [w] ∧ Word.Keeps kind (some v) w)

namespace Emits

variable {α β : Type} {nested : Nested} {anon : List Mark} {vs ws : List Visit}
  {S : α → Nat → Nat → Assembly → CodeUnit → Prop}

/-- What is met may be written differently. -/
lemma meets {c : Assemble α} (h : Emits nested anon vs c S) (heq : vs = ws) :
    Emits nested anon ws c S := heq ▸ h

/-- An instruction without operands. -/
lemma plain (op : Opcode) (hw : op.widths = []) (hop : op.isJump = false) :
    Emits nested anon [] (Assemble.emit op []) (fun _ p q _ u =>
      q = p + op.size ∧ u.code.Holds p ⟨op, []⟩) :=
  (emit (by rw [hw]) hop).mono fun _ _ _ _ _ _ h => ⟨h.1, h.2 (Instruction.fits_nil hw)⟩

/-- An instruction with an index. -/
lemma indexed (op : Opcode) {n : Nat} (hw : op.widths = [2])
    (hop : op.isJump = false) :
    Emits nested anon [] (Assemble.emit op [n]) (fun _ p q _ u =>
      q = p + op.size ∧ (n < maxConstants → u.code.Holds p ⟨op, [n]⟩)) :=
  (emit (by rw [hw]; rfl) hop).mono fun _ _ _ _ _ _ h =>
    ⟨h.1, fun hn => h.2 (Instruction.fits_index hw hn)⟩

/-- An instruction with a slot. -/
lemma slotted (op : Opcode) {n : Nat} (hw : op.widths = [1])
    (hop : op.isJump = false) :
    Emits nested anon [] (Assemble.emit op [n]) (fun _ p q _ u =>
      q = p + op.size ∧ (n < maxSlots → u.code.Holds p ⟨op, [n]⟩)) :=
  (emit (by rw [hw]; rfl) hop).mono fun _ _ _ _ _ _ h =>
    ⟨h.1, fun hn => h.2 (Instruction.fits_slot hw hn)⟩

/-! ## Common pieces -/

/-- Pushing the context. -/
lemma loadContext : Emits nested anon [] Assemble.loadContext (fun _ =>
    Carries [] (fun _ => pure ()) fun _ _ => [.context]) := by
  refine (slotted .load rfl rfl).mono fun _ p q z u _ ⟨hq, h⟩ X hX => ?_
  obtain rfl := hX.unit
  rw [hq]
  exact Tracks.loadContext (h (by decide))

/-- Pushing the environment. -/
lemma loadEnvironment : Emits nested anon [] Assemble.loadEnvironment (fun _ =>
    Carries [] (fun _ => pure ()) fun X _ => [.env X.env]) := by
  refine (slotted .load rfl rfl).mono fun _ p q z u _ ⟨hq, h⟩ X hX => ?_
  obtain rfl := hX.unit
  rw [hq]
  exact Tracks.loadEnvironment (h (by decide))

/-- Pushing the caller's `...`. -/
lemma loadWork : Emits nested anon [] Assemble.loadWork (fun _ =>
    Carries [] (fun _ => Action.work) fun _ dots => [.value (.dots dots)]) := by
  refine (slotted .load rfl rfl).mono fun _ p q z u _ ⟨hq, h⟩ X hX => ?_
  obtain rfl := hX.unit
  rw [hq]
  exact Tracks.loadWork (h (by decide))

/-- Keeping the caller's `...`. -/
lemma storeWork : Emits nested anon [] Assemble.storeWork (fun _ p q z u => ∀ dots,
    Carries [.value (.dots dots)] (fun _ => modify fun F => { F with work := some dots })
      (fun _ _ => []) p q z u) := by
  refine (slotted .store rfl rfl).mono fun _ p q z u hz ⟨hq, h⟩ dots X hX => ?_
  obtain rfl := hX.unit
  rw [hq]
  refine Tracks.storeWork ?_ (h (by decide)) dots
  rw [hX.slots]
  exact hz.sound.slots

/-- Pushing a literal. -/
lemma pushLiteral (e : Expr) : Emits nested anon [] (Assemble.pushLiteral e) (fun _ =>
    Carries [] (fun _ => pure ()) fun _ _ => [.value (.ofExpr e)]) := by
  refine ((literalIndex e).bind fun i => indexed .constant rfl rfl).mono ?_
  rintro _ p q z u _ ⟨i, r, ⟨rfl, hi, hc⟩, hq, h⟩ X hX
  obtain rfl := hX.unit
  rw [hq]
  exact (Site.Does.pushLiteral (h hi) hc).moves

/-- Pushing a native integer. -/
lemma pushInt (k : Int32) : Emits nested anon [] (Assemble.pushInt k) (fun _ =>
    Carries [] (fun _ => pure ()) fun _ _ => [.int k]) := by
  refine mono (emit (show [intOperand k].length = Opcode.int.widths.length from rfl) rfl) ?_
  rintro _ p q z u _ ⟨hq, h⟩ X hX
  obtain rfl := hX.unit
  rw [hq]
  exact (Site.Does.pushInt (h (Instruction.fits_int k))).moves

/-- Pushing a call as written. -/
lemma pushCall (c : CallSite) : Emits nested anon [.site c] (Assemble.pushCall c) (fun _ =>
    Carries [] (fun _ => pure ()) fun X _ => [.call (X.tables.call c.id)]) := by
  refine ((callIndex c).bind fun i => indexed .constant rfl rfl).mono ?_
  rintro _ p q z u _ ⟨i, r, ⟨rfl, hi, hid, call, hc⟩, hq, h⟩ X hX
  have hcall := hX.call _ _ _ hid hc
  obtain rfl := hX.unit
  rw [hq]
  exact (Site.Does.pushCall (h hi) (by rw [hc, hcall])).moves

/-- Looking up a variable and forcing it. -/
lemma loadVariable (s : Symbol) : Emits nested anon [] (Assemble.loadVariable s) (fun _ =>
    Carries [] (fun X => X.term (.env s)) fun _ v => [.value v]) := by
  refine ((nameIndex s).bind fun i => (indexed .findVariable rfl rfl).seq (plain .force rfl rfl)).mono ?_
  rintro _ p q z u _ ⟨i, r, ⟨rfl, hi, hc⟩, m, ⟨hm, h⟩, hq, h'⟩ X hX
  obtain rfl := hX.unit
  refine Tracks.congr ?_ (Action.lift_bind ..)
  refine (Site.Does.findVariable (h hi) hc).tracks.andThen fun v => ?_
  rw [← hm, hq]
  exact (Site.Does.force h' v).tracks

/-! ## Boxing -/

/-- A value is made of the word that a piece leaves. -/
lemma boxed {c : Assemble SlotKind} {A : Site → Action Value}
    (h : Emits nested anon vs c (CarriesWord A)) :
    Emits nested anon vs (Assemble.boxed c)
      (fun _ => Carries [] A fun _ v => [.value v]) := by
  have hbox : ∀ kind : SlotKind,
      Emits nested anon [] (if kind = .int then Assemble.emit .boxInt [] else Pure.pure ())
        (fun _ p q _ u => (kind = .int → q = p + Opcode.boxInt.size ∧
          u.code.Holds p ⟨.boxInt, []⟩) ∧ (kind = .value → q = p)) := by
    intro kind
    cases kind with
    | int => exact (plain .boxInt rfl rfl).mono fun _ _ _ _ _ _ h => ⟨fun _ => h, nofun⟩
    | value => exact (nothing ()).mono fun _ _ _ _ _ _ h => ⟨nofun, fun _ => h.2⟩
  refine ((h.bind hbox).mono ?_).meets (List.append_nil vs)
  rintro _ p q z u _ ⟨kind, r, hc, hint, hvalue⟩ X hX
  refine Tracks.congr (Tracks.bind (hc X hX) ?_) (bind_pure (A X)).symm
  rintro v _ ws ⟨rfl, w, rfl, hw⟩
  obtain rfl := hX.unit
  cases hw with
  | int n =>
    obtain ⟨hq, hi⟩ := hint rfl
    rw [hq]
    exact (Site.Does.boxInt hi n).moves.first (Tracks.done ⟨rfl, rfl⟩)
  | value v =>
    rw [hvalue rfl]
    exact Tracks.done ⟨rfl, rfl⟩

/-- The value of an operand as a native integer. -/
def unbox (A : Site → Action Value) (X : Site) : Action Int32 := do
  let v ← A X
  Action.lift (Eval.ofExcept (v.asInt "integer operand"))

/-- A native integer is made of the word that a piece leaves. -/
lemma unboxed {c : Assemble SlotKind} {A : Site → Action Value}
    (h : Emits nested anon vs c (CarriesWord A)) :
    Emits nested anon vs (Assemble.unboxed c)
      (fun _ => Carries [] (unbox A) fun _ k => [.int k]) := by
  have hunbox : ∀ kind : SlotKind,
      Emits nested anon [] (if kind = .value then Assemble.emit .unboxInt [] else Pure.pure ())
        (fun _ p q _ u => (kind = .value → q = p + Opcode.unboxInt.size ∧
          u.code.Holds p ⟨.unboxInt, []⟩) ∧ (kind = .int → q = p)) := by
    intro kind
    cases kind with
    | int => exact (nothing ()).mono fun _ _ _ _ _ _ h => ⟨nofun, fun _ => h.2⟩
    | value => exact (plain .unboxInt rfl rfl).mono fun _ _ _ _ _ _ h => ⟨fun _ => h, nofun⟩
  refine ((h.bind hunbox).mono ?_).meets (List.append_nil vs)
  rintro _ p q z u _ ⟨kind, r, hc, hvalue, hint⟩ X hX
  refine Tracks.bind (hc X hX) ?_
  rintro v _ ws ⟨rfl, w, rfl, hw⟩
  obtain rfl := hX.unit
  cases hw with
  | int n =>
    rw [hint rfl]
    exact Tracks.done ⟨rfl, rfl⟩
  | value v =>
    obtain ⟨hq, hi⟩ := hvalue rfl
    rw [hq]
    exact (Site.Does.unboxInt hi v).tracks

/-- Code that leaves a value leaves a word of that kind. -/
lemma asWord {c : Assemble α} {A : Site → Action Value}
    (h : Emits nested anon vs c (fun _ => Carries [] A fun _ v => [.value v])) :
    Emits nested anon vs (do let _ ← c; return SlotKind.value) (CarriesWord A) := by
  refine ((h.bind fun _ => nothing SlotKind.value).mono ?_).meets (List.append_nil vs)
  rintro kind p q z u _ ⟨_, r, hc, rfl, rfl⟩ X hX
  refine (hc X hX).mono ?_
  rintro v r ws ⟨rfl, rfl⟩
  exact ⟨rfl, _, rfl, .value v⟩

/-! ## Reading slots -/

/-- Pushing what a slot of a kind holds. -/
lemma loadFrom (slot : Slot) : Emits nested anon []
    (do
      match slot.kind with
      | .int => Assemble.emit .loadInt [slot.index]
      | .value => Assemble.emit .load [slot.index]
      return slot.kind : Assemble SlotKind)
    (fun kind p q _ u => kind = slot.kind ∧ q = p + (Tracks.loadOp slot.kind).size ∧
      (slot.index < maxSlots → u.code.Holds p ⟨Tracks.loadOp slot.kind, [slot.index]⟩)) := by
  obtain ⟨index, kind⟩ := slot
  cases kind with
  | int =>
    refine mono ((slotted .loadInt rfl rfl).seq (nothing SlotKind.int)) ?_
    rintro kind p q z u _ ⟨r, ⟨hr, h⟩, rfl, rfl⟩
    exact ⟨rfl, hr, h⟩
  | value =>
    refine mono ((slotted .load rfl rfl).seq (nothing SlotKind.value)) ?_
    rintro kind p q z u _ ⟨r, ⟨hr, h⟩, rfl, rfl⟩
    exact ⟨rfl, hr, h⟩

/-- Pushing what a slot holds. -/
lemma loadSlot (key : Flow.SlotKey) (operand : String) :
    Emits nested anon [] (Assemble.loadSlot key operand)
      (CarriesWord fun _ => Action.read key) := by
  intro a kind a' hc ha hm
  rw [Assemble.loadSlot, Assemble.get_bind_apply] at hc
  cases hl : a.slots.lookup? key with
  | none =>
    rw [hl] at hc
    cases hc
  | some slot =>
    rw [hl] at hc
    obtain ⟨hg, hs⟩ := loadFrom slot a kind a' hc ha hm
    refine ⟨hg, fun z u hz he X hX => ?_⟩
    obtain ⟨rfl, hq, h⟩ := hs z u hz he
    have hlz : X.slots.lookup? key = some slot := by
      rw [hX.slots]
      exact (hg.toExtends.trans he).slots key slot hl
    have hlt : slot.index < maxSlots := by
      rw [hX.slots] at hlz
      exact Nat.lt_of_lt_of_le (hz.sound.slots.range hlz).2 hz.sound.slots.bound
    obtain rfl := hX.unit
    rw [hq]
    exact Tracks.load hlz (h hlt)

/-! ## Late arguments -/

/-- The visits of a late argument. -/
def lateVisits (d : Thunk) : List Visit := if d.name?.isSome then [] else [.thunk d]

/-- Evaluating a late argument now. -/
lemma evaluateThunk (d : Thunk) :
    Emits nested anon (lateVisits d) (Assemble.evaluateThunk nested d)
      (fun _ => Carries [] (fun X => Action.lift (X.late d)) fun _ v => [.value v]) := by
  unfold Assemble.evaluateThunk lateVisits
  cases hd : d.name? with
  | some name =>
    refine (loadVariable name).mono fun _ p q z u _ h X hX => (h X hX).congr ?_
    simp only [Flow.Scene.late, hd, Flow.Scene.term]
  | none =>
    refine ((thunkIndex d).bind fun i => loadContext.seq (loadEnvironment.seq
      (indexed .evalThunk rfl rfl))).mono ?_
    rintro _ p q z u _ ⟨i, _, ⟨rfl, hi, hid, t, ht⟩, r, hctx, r', henv, hq, h⟩ X hX
    have htable := hX.thunk _ _ _ hid ht
    have hlate : X.late d = X.host.executeNested X.limit t X.env := by
      simp only [Flow.Scene.late, hd, htable]
    refine Tracks.congr ?_ (congrArg Action.lift hlate)
    refine (hctx X hX).first (((henv X hX).under [.context]).first ?_)
    obtain rfl := hX.unit
    rw [hq]
    exact (Site.Does.evalThunk (h hi) ht X.env).tracks

/-- Promising a late argument. -/
lemma promised (d : Thunk) :
    Emits nested anon (lateVisits d)
      (match d.name? with
        | some bare => do
          let index ← Assemble.nameIndex bare
          Assemble.loadEnvironment
          Assemble.emit .makeVariablePromise [index]
        | none => do
          let index ← Assemble.thunkIndex nested d
          Assemble.loadContext
          Assemble.loadEnvironment
          Assemble.emit .makeThunk [index])
      (fun _ => Carries [] (fun X => Action.lift (X.promised d)) fun _ v => [.value v]) := by
  unfold lateVisits
  cases hd : d.name? with
  | some name =>
    refine ((nameIndex name).bind fun i => loadEnvironment.seq
      (indexed .makeVariablePromise rfl rfl)).mono ?_
    rintro _ p q z u _ ⟨i, _, ⟨rfl, hi, hc⟩, r, henv, hq, h⟩ X hX
    have hpromised : X.promised d = Eval.promise (.variable name X.env) := by
      simp only [Flow.Scene.promised, hd]
    refine Tracks.congr ?_ (congrArg Action.lift hpromised)
    refine (henv X hX).first ?_
    obtain rfl := hX.unit
    rw [hq]
    exact (Site.Does.makeVariablePromise (h hi) hc X.env).tracks
  | none =>
    refine ((thunkIndex d).bind fun i => loadContext.seq (loadEnvironment.seq
      (indexed .makeThunk rfl rfl))).mono ?_
    rintro _ p q z u _ ⟨i, _, ⟨rfl, hi, hid, t, ht⟩, r, hctx, r', henv, hq, h⟩ X hX
    have htable := hX.thunk _ _ _ hid ht
    have hpromised : X.promised d = Eval.promise (.compiled t X.env) := by
      simp only [Flow.Scene.promised, hd, htable]
    refine Tracks.congr ?_ (congrArg Action.lift hpromised)
    refine (hctx X hX).first (((henv X hX).under [.context]).first ?_)
    obtain rfl := hX.unit
    rw [hq]
    exact (Site.Does.makeThunk (h hi) ht X.env).tracks

/-! ## Arguments of closures -/

/-- Appending the argument on top of the stack. -/
lemma addArgument (name : Option Symbol) :
    Emits nested anon [] (Assemble.addArgument name) (fun _ p q z u => ∀ v (as : ArgList),
      Carries [.value v, .args as.toArray] (fun _ => Pure.pure ())
        (fun _ _ => [.args (as ++ [Arg.mk name v]).toArray]) p q z u) := by
  unfold Assemble.addArgument
  cases name with
  | some name =>
    refine ((nameIndex name).bind fun i => indexed .argAddNamed rfl rfl).mono ?_
    rintro _ p q z u _ ⟨i, _, ⟨rfl, hi, hc⟩, hq, h⟩ v as X hX
    obtain rfl := hX.unit
    rw [hq]
    exact (Site.Does.argAddNamed (h hi) hc v as).moves
  | none =>
    refine (plain .argAdd rfl rfl).mono ?_
    rintro _ p q z u _ ⟨hq, h⟩ v as X hX
    obtain rfl := hX.unit
    rw [hq]
    exact (Site.Does.argAdd h v as).moves

/-- Appending the caller's `...`. -/
lemma addDots :
    Emits nested anon [] (do
        Assemble.emit .loadEllipsis []
        Assemble.emit .argAddAll [] : Assemble Unit) (fun _ p q z u => ∀ as : ArgList,
      Carries [.args as.toArray] (fun X => Action.lift (Eval.findDots X.env))
        (fun _ dots => [.args (as ++ dots).toArray]) p q z u) := by
  refine ((plain .loadEllipsis rfl rfl).seq (plain .argAddAll rfl rfl)).mono ?_
  rintro _ p q z u _ ⟨r, ⟨hr, h⟩, hq, h'⟩ as X hX
  obtain rfl := hX.unit
  refine ((Site.Does.loadEllipsis h).tracks.under [.args as.toArray]).last fun dots => ?_
  rw [← hr, hq]
  exact (Site.Does.argAddAll h' dots as).moves

/-! ## Arguments of builtins -/

/-- The operands can be passed. -/
structure Passable (o : Operands Term) : Prop where
  names : o.names.length = o.args.length
  count : o.args.length < maxConstants

/-- The place of `...` is one of the arguments. -/
lemma Passable.position {o : Operands Term} (ho : Passable o) {n : Nat}
    (hn : o.ellipsisIndex? = some n) : n < o.args.length ∧ n < maxConstants := by
  obtain ⟨hlt, -, -⟩ := List.findIdx?_eq_some_iff_getElem.1 hn
  exact ⟨hlt, Nat.lt_trans hlt ho.count⟩

/-- Keeping the caller's `...`. -/
lemma storeEllipsis (o : Operands Term) :
    Emits nested anon [] (Assemble.storeEllipsis o)
      (fun _ => Carries [] (fun X => X.keepDots o) fun _ _ => []) := by
  unfold Assemble.storeEllipsis
  by_cases ho : o.ellipsisIndex?.isSome
  · rw [if_pos ho]
    refine ((plain .loadEllipsis rfl rfl).seq storeWork).mono ?_
    rintro _ p q z u _ ⟨r, ⟨hr, h⟩, hstore⟩ X hX
    have hact : X.keepDots o = (do
        let dots ← Action.lift (Eval.findDots X.env)
        modify fun F => { F with work := some dots }) := by
      unfold Flow.Scene.keepDots
      rw [if_pos ho]
    have hs := fun dots => hstore dots X hX
    obtain rfl := hX.unit
    rw [hr] at hs
    exact Tracks.congr ((Site.Does.loadEllipsis h).tracks.andThen hs) hact
  · rw [if_neg ho]
    refine (nothing ()).mono fun _ p q z u _ ⟨_, hq⟩ X hX => ?_
    have hact : X.keepDots o = Pure.pure () := by
      unfold Flow.Scene.keepDots
      rw [if_neg ho]
    rw [hq]
    exact Tracks.congr (Tracks.done ⟨rfl, rfl⟩) hact

/-- Filling in the names from a position on. -/
lemma nameArguments (names : List (Option Symbol)) (position : Nat) :
    Emits nested anon [] (Assemble.nameArguments names position) (fun _ p q z u =>
      ∀ done : List (Option Symbol), done.length = position →
        position + names.length ≤ maxConstants →
          Carries [.names (done ++ List.replicate names.length none).toArray]
            (fun _ => Pure.pure ()) (fun _ _ => [.names (done ++ names).toArray]) p q z u) := by
  induction names generalizing position with
  | nil =>
    refine (nothing ()).mono fun _ p q z u _ ⟨_, hq⟩ done _ _ X _ => ?_
    rw [hq]
    exact Tracks.done ⟨rfl, rfl⟩
  | cons name names ih =>
    have hgrow : ∀ (done : List (Option Symbol)) n,
        done ++ n :: names = (done ++ [n]) ++ names := by simp
    cases name with
    | none =>
      refine (ih (position + 1)).mono fun _ p q z u _ h done hdone hmax => ?_
      rw [hgrow, List.length_cons, List.replicate_succ,
        show done ++ none :: List.replicate names.length none
          = (done ++ [none]) ++ List.replicate names.length none by simp]
      exact h (done ++ [none]) (by simp [hdone])
        (by rw [List.length_cons] at hmax; omega)
    | some name =>
      refine ((nameIndex name).bind fun i =>
        (emit (show [position, i].length = Opcode.nameAt.widths.length from rfl) rfl).seq
          (ih (position + 1))).mono ?_
      rintro _ p q z u _ ⟨i, _, ⟨rfl, hi, hc⟩, r, ⟨hr, h⟩, hrest⟩ done hdone hmax X hX
      rw [List.length_cons] at hmax
      have hset : (done ++ List.replicate (some name :: names).length none).set position (some name)
          = (done ++ [some name]) ++ List.replicate names.length none := by
        rw [List.length_cons, List.replicate_succ,
          List.set_append_right _ _ (by omega), hdone, Nat.sub_self, List.set_cons_zero]
        simp
      have hrun := hrest (done ++ [some name]) (by simp [hdone]) (by omega) X hX
      rw [← hset, ← hgrow] at hrun
      obtain rfl := hX.unit
      have hlt : position < (done ++ List.replicate (some name :: names).length none).length := by
        rw [List.length_append, List.length_replicate, List.length_cons]
        omega
      refine (Site.Does.nameAt (h (Instruction.fits_pair rfl (by omega) hi)) hc hlt).moves.first ?_
      rw [← hr]
      exact hrun

/-- Splicing names. -/
lemma spliceNames (o : Operands Term) :
    Emits nested anon [] (Assemble.splice .spliceNames o) (fun _ p q z u =>
      Passable o → ∀ ns : List (Option Symbol), ns.length = o.args.length →
        Carries [.names ns.toArray]
          (fun _ => Flow.Scene.spliceDots o (fun dots => Pure.pure (dots.map Arg.name)) ns)
          (fun _ ns => [.names ns.toArray]) p q z u) := by
  unfold Assemble.splice Flow.Scene.spliceDots
  cases hi : o.ellipsisIndex? with
  | none =>
    refine (nothing ()).mono fun _ p q z u _ ⟨_, hq⟩ _ ns _ X _ => ?_
    rw [hq]
    exact Tracks.done ⟨rfl, rfl⟩
  | some n =>
    refine (loadWork.seq (indexed .spliceNames rfl rfl)).mono ?_
    rintro _ p q z u _ ⟨r, hload, hq, h⟩ ho ns hns X hX
    obtain ⟨hn, hmax⟩ := ho.position hi
    refine ((hload X hX).under [.names ns.toArray]).andThen fun dots => ?_
    obtain rfl := hX.unit
    rw [hq]
    exact (Site.Does.spliceNames (h hmax) dots (by rw [hns]; exact hn)).moves.first
      (Tracks.done ⟨rfl, rfl⟩)

/-- Splicing values. -/
lemma spliceValues (o : Operands Term) :
    Emits nested anon [] (Assemble.splice .spliceValues o) (fun _ p q z u =>
      Passable o → ∀ vs : List Value, vs.length = o.args.length →
        Carries [.values vs.toArray]
          (fun X => Flow.Scene.spliceDots o
            (fun dots => dots.mapM fun d => X.host.force d.value) vs)
          (fun _ vs => [.values vs.toArray]) p q z u) := by
  unfold Assemble.splice Flow.Scene.spliceDots
  cases hi : o.ellipsisIndex? with
  | none =>
    refine (nothing ()).mono fun _ p q z u _ ⟨_, hq⟩ _ vs _ X _ => ?_
    rw [hq]
    exact Tracks.done ⟨rfl, rfl⟩
  | some n =>
    refine (loadWork.seq (indexed .spliceValues rfl rfl)).mono ?_
    rintro _ p q z u _ ⟨r, hload, hq, h⟩ ho vs hvs X hX
    obtain ⟨hn, hmax⟩ := ho.position hi
    refine ((hload X hX).under [.values vs.toArray]).andThen fun dots => ?_
    obtain rfl := hX.unit
    rw [hq]
    exact (Site.Does.spliceValues (h hmax) dots (by rw [hvs]; exact hn)).tracks.andThen
      fun entries => Tracks.done ⟨rfl, rfl⟩

/-- Pushing the array of names. -/
lemma pushNames (o : Operands Term) :
    Emits nested anon [] (Assemble.pushNames o) (fun _ p q z u => Passable o →
      Carries []
        (fun _ => Flow.Scene.spliceDots o (fun dots => Pure.pure (dots.map Arg.name)) o.names)
        (fun _ ns => [.names ns.toArray]) p q z u) := by
  refine ((indexed .newNames rfl rfl).seq ((nameArguments o.names 0).seq (spliceNames o))).mono ?_
  rintro _ p q z u _ ⟨r, ⟨hr, h⟩, r', hnames, hsplice⟩ ho X hX
  have hfill := hnames [] rfl (by rw [Nat.zero_add, ho.names]; exact Nat.le_of_lt ho.count) X hX
  rw [ho.names] at hfill
  refine Tracks.first ?_ (hfill.first (hsplice ho o.names ho.names X hX))
  obtain rfl := hX.unit
  rw [hr]
  exact (Site.Does.newNames (h ho.count)).moves

/-- What a builtin needs below its values. -/
def frameWords (X : Site) (o : Operands Term) (ns : List (Option Symbol)) : List Word :=
  [.names ns.toArray, .call (X.tables.call o.site.id), .env X.env, .context]

/-- Everything a builtin needs but the values. -/
lemma pushBuiltinFrame (o : Operands Term) :
    Emits nested anon [.site o.site] (Assemble.pushBuiltinFrame o) (fun _ p q z u => Passable o →
      Carries []
        (fun X => do
          X.keepDots o
          Flow.Scene.spliceDots o (fun dots => Pure.pure (dots.map Arg.name)) o.names)
        (fun X ns => .values (List.replicate o.args.length .null).toArray :: frameWords X o ns)
        p q z u) := by
  refine ((storeEllipsis o).seq (loadContext.seq (loadEnvironment.seq ((pushCall o.site).seq
    ((pushNames o).seq (indexed .newValues rfl rfl)))))).mono ?_
  rintro _ p q z u _ ⟨r₁, hdots, r₂, hctx, r₃, henv, r₄, hcall, r₅, hnames, hq, h⟩ ho X hX
  refine (hdots X hX).andThen fun _ => (hctx X hX).first (((henv X hX).under _).first
    (((hcall X hX).under _).first ((hnames ho X hX |>.under _).last fun ns => ?_)))
  obtain rfl := hX.unit
  rw [hq]
  exact (Site.Does.newValues (h ho.count)).moves.under _

/-- Code that fills an array with the values of arguments. -/
def CarriesValues (args : List Term) (p q : Nat) (z : Assembly) (u : CodeUnit) : Prop :=
  ∀ X : Site, X.On z u →
    Tracks X p [.values (List.replicate args.length .null).toArray] (X.values args)
      (fun vs r ws => r = q ∧ ws = [.values vs.toArray] ∧ vs.length = args.length)

/-- The frame of a builtin, its values and the splicing of `...` make up its arguments. -/
lemma builtinArguments {o : Operands Term} {X : Site} {z : Assembly} {u : CodeUnit}
    {p q r t : Nat} (hX : X.On z u)
    (hframe : Tracks X p [] (do
        X.keepDots o
        Flow.Scene.spliceDots o (fun dots => Pure.pure (dots.map Arg.name)) o.names)
      (Tracks.At q fun ns =>
        .values (List.replicate o.args.length .null).toArray :: frameWords X o ns))
    (hvalues : CarriesValues o.args q r z u)
    (hsplice : ∀ vs : List Value, vs.length = o.args.length →
      Carries [.values vs.toArray]
        (fun X => Flow.Scene.spliceDots o (fun dots => dots.mapM fun d => X.host.force d.value) vs)
        (fun _ vs => [.values vs.toArray]) r t z u) :
    Tracks X p [] (X.builtinArguments o (X.values o.args))
      (Tracks.At t fun a => .values a.2.toArray :: frameWords X o a.1) := by
  have hact : X.builtinArguments o (X.values o.args) = (do
      let names ← (do
        X.keepDots o
        Flow.Scene.spliceDots o (fun dots => Pure.pure (dots.map Arg.name)) o.names)
      let values ← X.values o.args
      let values ← Flow.Scene.spliceDots o
        (fun dots => dots.mapM fun d => X.host.force d.value) values
      return (names, values)) := by
    unfold Flow.Scene.builtinArguments
    rw [bind_assoc]
  refine Tracks.congr (hframe.andThen fun ns => ?_) hact
  refine ((hvalues X hX).below (frameWords X o ns)).bind fun vs _ ws hvs => ?_
  obtain ⟨_, ⟨rfl, rfl, hlen⟩, rfl⟩ := hvs
  exact ((hsplice vs hlen X hX).under (frameWords X o ns)).andThen fun vs =>
    Tracks.done ⟨rfl, rfl⟩

/-! ## Calls -/

/-- Finding the function of a name. -/
lemma findFunction (name : Symbol) :
    Emits nested anon [] (Assemble.findFunction name) (fun _ =>
      Carries [] (fun X => Action.lift (X.host.findFunction X.env name))
        fun _ f => [.value f]) := by
  refine ((nameIndex name).bind fun i => indexed .findFunction rfl rfl).mono ?_
  rintro _ p q z u _ ⟨i, _, ⟨rfl, hi, hc⟩, hq, h⟩ X hX
  obtain rfl := hX.unit
  rw [hq]
  exact (Site.Does.findFunction (h hi) hc).tracks

/-- Checking that a value can be called. -/
lemma checkFunction (o : Operands Term) :
    Emits nested anon [.site o.site] (Assemble.checkFunction o) (fun _ p q z u => ∀ v,
      Carries [.value v] (fun X => Action.lift (X.callable (X.tables.call o.site.id) v))
        (fun _ f => [.value f]) p q z u) := by
  refine ((callIndex o.site).bind fun i => indexed .checkFunction rfl rfl).mono ?_
  rintro _ p q z u _ ⟨i, _, ⟨rfl, hi, hid, call, hc⟩, hq, h⟩ v X hX
  have hcall := hX.call _ _ _ hid hc
  obtain rfl := hX.unit
  rw [hq]
  exact (Site.Does.checkFunction (h hi) (by rw [hc, hcall]) v).tracks

/-- Code that appends the arguments of a closure to a list. -/
def CarriesArguments (args : List Term) (names : List (Option Symbol)) (p q : Nat) (z : Assembly)
    (u : CodeUnit) : Prop :=
  ∀ as : ArgList, Carries [.args as.toArray] (fun X => X.arguments args names)
    (fun _ more => [.args (as ++ more).toArray]) p q z u

/-- The function on the stack is called in one of three ways. -/
def callOf (o : Operands Term) (f : Value) (X : Site) : Action Value :=
  X.apply (X.tables.call o.site.id) (X.arguments o.args o.names)
    (X.builtinArguments o (X.values o.args)) f

/-- Finding out the category of the function on the stack. -/
lemma categoryTests (mb mc : Mark) :
    Emits nested anon [] (do
        Assemble.emit .dup []
        Assemble.emit .isBuiltin []
        Assemble.jump .jumpIfNonZero mb
        Assemble.emit .dup []
        Assemble.emit .isClosure []
        Assemble.jump .jumpIfNonZero mc : Assemble Unit) (fun _ p q z u =>
      ∃ tb tc, z.jumps.position? mb = some tb ∧ z.jumps.position? mc = some tc ∧
        ∀ X : Site, X.On z u → ∀ f : Value, Tracks X p [.value f] (Pure.pure ()) (Tracks.At
          (if f.category? = some .builtin then tb
            else if f.category? = some .closure then tc else q) fun _ => [.value f])) := by
  refine ((plain .dup rfl rfl).seq ((plain .isBuiltin rfl rfl).seq ((jump .jumpIfNonZero mb rfl).seq
    ((plain .dup rfl rfl).seq ((plain .isClosure rfl rfl).seq (jump .jumpIfNonZero mc rfl)))))).mono ?_
  rintro _ p q z u _ ⟨r₁, ⟨hr₁, h₁⟩, r₂, ⟨hr₂, h₂⟩, r₃, ⟨hr₃, tb, htb, h₃⟩, r₄, ⟨hr₄, h₄⟩,
    r₅, ⟨hr₅, h₅⟩, hq, tc, htc, h₆⟩
  refine ⟨tb, tc, htb, htc, fun X hX f => ?_⟩
  obtain rfl := hX.unit
  refine (Site.Does.dup h₁ (.value f)).moves.first ?_
  rw [← hr₁]
  refine ((Site.Does.isBuiltin h₂ f).moves.under [.value f]).first ?_
  rw [← hr₂]
  refine (Tracks.jumpIfNonZero h₃ _ (.value f)).first ?_
  by_cases hb : f.category? = some .builtin
  · simp only [hb, decide_true, if_true]
    exact Tracks.done ⟨rfl, rfl⟩
  · simp only [hb, decide_false, if_false, Bool.false_eq_true]
    rw [← hr₃]
    refine (Site.Does.dup h₄ (.value f)).moves.first ?_
    rw [← hr₄]
    refine ((Site.Does.isClosure h₅ f).moves.under [.value f]).first ?_
    rw [← hr₅]
    refine (Tracks.jumpIfNonZero h₆ _ (.value f)).first (Tracks.done ⟨?_, rfl⟩)
    by_cases hc : f.category? = some .closure
    · simp [hc]
    · simp [hc, hq]

/-- Calling a special form, and what is no function. -/
lemma specialWay (o : Operands Term) (mf : Mark) :
    Emits nested anon [.site o.site] (do
        Assemble.loadContext
        Assemble.loadEnvironment
        Assemble.pushCall o.site
        Assemble.emit .applySpecial []
        Assemble.jump .jump mf : Assemble Unit) (fun _ p _ z u =>
      ∃ t, z.jumps.position? mf = some t ∧ ∀ X : Site, X.On z u → ∀ f : Value,
        f.category? ≠ some .builtin → f.category? ≠ some .closure →
          Tracks X p [.value f] (callOf o f X) (Tracks.At t fun v => [.value v])) := by
  refine (loadContext.seq (loadEnvironment.seq ((pushCall o.site).seq
    ((plain .applySpecial rfl rfl).seq (jump .jump mf rfl))))).mono ?_
  rintro _ p q z u _ ⟨r₁, hctx, r₂, henv, r₃, hcall, r₄, ⟨hr₄, h⟩, -, t, ht, hj⟩
  refine ⟨t, ht, fun X hX f hb hc => ?_⟩
  refine ((hctx X hX).under [.value f]).first (((henv X hX).under _).first
    (((hcall X hX).under _).first ?_))
  obtain rfl := hX.unit
  have hspecial : ∀ s : Special, Tracks X r₃
      [.call (X.tables.call o.site.id), .env X.env, .context, .value (.special s)]
      (Action.lift (s.invoke X.host X.env (X.tables.call o.site.id)))
      (Tracks.At t fun v => [.value v]) := fun s => by
    refine (Site.Does.applySpecial h _ _ s).tracks.last fun v => ?_
    rw [← hr₄]
    exact Tracks.jump hj _ _
  cases f with
  | builtin b => exact absurd rfl hb
  | closure unit env => exact absurd rfl hc
  | special s => exact hspecial s
  | _ => exact Tracks.applySpecial_stuck h _ _ (by simp)

/-- Calling a closure. -/
lemma closureWay {o : Operands Term} {closureArguments : Assemble Unit} {mc : Mark} (mf : Mark)
    (hmem : mc ∈ anon)
    (hargs : Emits nested anon vs closureArguments (fun _ => CarriesArguments o.args o.names)) :
    Emits nested anon (.site o.site :: vs) (do
        Assemble.place mc
        Assemble.emit .castClosure []
        Assemble.loadContext
        Assemble.pushCall o.site
        Assemble.emit .newArgList []
        closureArguments
        Assemble.emit .applyClosure []
        Assemble.jump .jump mf : Assemble Unit) (fun _ p _ z u =>
      z.jumps.position? mc = some p ∧ ∃ t, z.jumps.position? mf = some t ∧
        ∀ X : Site, X.On z u → ∀ unit env,
          Tracks X p [.value (.closure unit env)] (callOf o (.closure unit env) X)
            (Tracks.At t fun v => [.value v])) := by
  refine (((place mc hmem).seq ((plain .castClosure rfl rfl).seq (loadContext.seq ((pushCall o.site).seq
    ((plain .newArgList rfl rfl).seq (hargs.seq ((plain .applyClosure rfl rfl).seq
      (jump .jump mf rfl)))))))).mono ?_).meets (by simp)
  rintro _ p q z u _ ⟨r₁, ⟨rfl, hmc⟩, r₂, ⟨hr₂, h₂⟩, r₃, hctx, r₄, hcall, r₅, ⟨hr₅, h₅⟩, r₆,
    hargs, r₇, ⟨hr₇, h₇⟩, -, t, ht, hj⟩
  refine ⟨hmc, t, ht, fun X hX unit env => ?_⟩
  have happend := hargs [] X hX
  have hcontext := hctx X hX
  have hsite := hcall X hX
  obtain rfl := hX.unit
  refine (Site.Does.castClosure h₂ unit env).moves.first ?_
  rw [← hr₂]
  refine (hcontext.under _).first ((hsite.under _).first ?_)
  refine ((Site.Does.newArgList h₅).moves.under _).first ?_
  rw [← hr₅]
  refine (happend.under _).andThen fun args => ?_
  refine (Site.Does.applyClosure h₇ _ args unit env).tracks.last fun v => ?_
  rw [← hr₇]
  exact Tracks.jump hj _ _

/-- Calling a builtin. -/
lemma builtinWay {o : Operands Term} (ho : Passable o) {builtinValues : Assemble Unit}
    {mb mf : Mark} (hmb : mb ∈ anon) (hmf : mf ∈ anon)
    (hvalues : Emits nested anon vs builtinValues (fun _ => CarriesValues o.args)) :
    Emits nested anon (.site o.site :: vs) (do
        Assemble.place mb
        Assemble.emit .castBuiltin []
        Assemble.pushBuiltinFrame o
        builtinValues
        Assemble.splice .spliceValues o
        Assemble.emit .applyBuiltin []
        Assemble.place mf : Assemble Unit) (fun _ p q z u =>
      z.jumps.position? mb = some p ∧ z.jumps.position? mf = some q ∧
        ∀ X : Site, X.On z u → ∀ b,
          Tracks X p [.value (.builtin b)] (callOf o (.builtin b) X)
            (Tracks.At q fun v => [.value v])) := by
  refine (((place mb hmb).seq ((plain .castBuiltin rfl rfl).seq ((pushBuiltinFrame o).seq (hvalues.seq
    ((spliceValues o).seq ((plain .applyBuiltin rfl rfl).seq (place mf hmf))))))).mono ?_).meets (by simp)
  rintro _ p q z u _ ⟨r₁, ⟨rfl, hmb⟩, r₂, ⟨hr₂, h₂⟩, r₃, hframe, r₄, hvalues, r₅, hsplice, r₆,
    ⟨hr₆, h₆⟩, rfl, hmf⟩
  refine ⟨hmb, hmf, fun X hX b => ?_⟩
  have harguments := builtinArguments hX (hframe ho X hX) hvalues (hsplice ho)
  obtain rfl := hX.unit
  refine (Site.Does.castBuiltin h₂ b).moves.first ?_
  rw [← hr₂]
  refine (harguments.under [.value (.builtin b)]).andThen fun a => ?_
  rw [hr₆]
  exact (Site.Does.applyBuiltin h₆ _ _ a.1 a.2 b).tracks

/-- A call is made of the tests of the category and the three ways. -/
lemma dispatch_eq (o : Operands Term) (closureArguments builtinValues : Assemble Unit) :
    Assemble.dispatch o closureArguments builtinValues
      = (Assemble.freshMark >>= fun mb => Assemble.freshMark >>= fun mc =>
      Assemble.freshMark >>= fun mf =>
      (do
        Assemble.emit .dup []
        Assemble.emit .isBuiltin []
        Assemble.jump .jumpIfNonZero mb
        Assemble.emit .dup []
        Assemble.emit .isClosure []
        Assemble.jump .jumpIfNonZero mc : Assemble Unit) >>= fun _ =>
      (do
        Assemble.loadContext
        Assemble.loadEnvironment
        Assemble.pushCall o.site
        Assemble.emit .applySpecial []
        Assemble.jump .jump mf : Assemble Unit) >>= fun _ =>
      (do
        Assemble.place mc
        Assemble.emit .castClosure []
        Assemble.loadContext
        Assemble.pushCall o.site
        Assemble.emit .newArgList []
        closureArguments
        Assemble.emit .applyClosure []
        Assemble.jump .jump mf : Assemble Unit) >>= fun _ =>
      (do
        Assemble.place mb
        Assemble.emit .castBuiltin []
        Assemble.pushBuiltinFrame o
        builtinValues
        Assemble.splice .spliceValues o
        Assemble.emit .applyBuiltin []
        Assemble.place mf : Assemble Unit)) := by
  simp only [Assemble.dispatch, bind_assoc]

/-- A call of a function that is on the stack. -/
lemma dispatch {o : Operands Term} {closureArguments builtinValues : Assemble Unit}
    (ho : Passable o)
    (hargs : ∀ anon, Emits nested anon vs closureArguments
      (fun _ => CarriesArguments o.args o.names))
    (hvalues : ∀ anon, Emits nested anon ws builtinValues (fun _ => CarriesValues o.args)) :
    Emits nested anon (.site o.site :: .site o.site :: (vs ++ .site o.site :: ws))
      (Assemble.dispatch o closureArguments builtinValues) (fun _ p q z u => ∀ f,
        Carries [.value f] (callOf o f) (fun _ v => [.value v]) p q z u) := by
  rw [dispatch_eq]
  refine freshMark fun mb => freshMark fun mc => freshMark fun mf => ?_
  refine (((categoryTests mb mc).seq ((specialWay o mf).seq
    ((closureWay mf (by simp) (hargs _)).seq
      (builtinWay ho (by simp) (by simp) (hvalues _))))).mono ?_).meets (by simp)
  rintro _ p q z u _ ⟨r₁, ⟨tb, tc, htb, htc, htest⟩, r₂, ⟨ts, hts, hspecial⟩, r₃,
    ⟨hmc, tf, htf, hclosure⟩, hmb, hmf, hbuiltin⟩ f X hX
  refine (htest X hX f).first ?_
  obtain rfl : tb = r₃ := Option.some.inj (htb.symm.trans hmb)
  obtain rfl : tc = r₂ := Option.some.inj (htc.symm.trans hmc)
  obtain rfl : ts = q := Option.some.inj (hts.symm.trans hmf)
  obtain rfl : tf = ts := Option.some.inj (htf.symm.trans hmf)
  cases f with
  | builtin b => exact hbuiltin X hX b
  | closure unit env => exact hclosure X hX unit env
  | _ => exact hspecial X hX _ (by simp [Value.category?]) (by simp [Value.category?])

end Emits

end CallByNeed
