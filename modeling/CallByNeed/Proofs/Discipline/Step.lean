import CallByNeed.Proofs.Comparison.Answer
import CallByNeed.Proofs.Discipline.Layout
import CallByNeed.Proofs.Eval.Laws

/-!
# Executing an instruction on a stack of known layout

One instruction that is executed on a stack of the layout its rule asks for goes on where the rule
says, with the stack as the rule says (`Rule.leads`). If it stops, it is no defect in the code, unless
one of its nested evaluations met one, or it reads or increases a slot that is not assigned
(`Slip`), or a builtin gets arrays of different sizes, into both of which `...` was spliced.
-/

namespace CallByNeed

open CallByNeed.Flow (Frame)

/-! ## Defects of nested evaluations -/

/-- Some evaluation that the host carries out stops so. -/
def Host.Stops (host : Host) (h : Halt) : Prop := ∃ τ s s', host τ s = .error h s'

/-- Evaluations meet no defect in code but one that the host has met. -/
def Law.innocent (limit : Nat) (host : Host) : Law limit where
  done _ _ := True
  failed h _ _ := h.IsInternal → host.Stops h
  refl _ := trivial
  trans _ _ := trivial
  stop _ _ _ h hi := absurd hi h
  after _ h := h
  set _ _ _ _ := trivial
  addChild _ _ := trivial
  addPromise _ _ := trivial
  note _ _ := trivial
  left _ := trivial
  broken h := h
  forced _ _ := trivial
  restored _ h := h

lemma Host.governs_innocent (limit : Nat) (host : Host) (τ : Task) :
    (Law.innocent limit host).Governs (host τ) := by
  intro s _
  cases hr : host τ s with
  | ok v s' => exact .ok trivial
  | error e s' => exact .error fun _ => ⟨τ, s, s', hr⟩

/-- The host has met the defect that an evaluation without one of its own stops for. -/
lemma Law.Governs.stops {α : Type} {limit : Nat} {host : Host} {act : Eval α}
    (h : (Law.innocent limit host).Governs act) {s s' : Store} {e : Halt} (he : act s = .error e s')
    (hi : e.IsInternal) : host.Stops e := by
  have hs := h s trivial
  rw [he] at hs
  cases hs with
  | error hf => exact hf hi

/-- What is wrong with a comparison is no defect. -/
lemma Value.atLeast_error (a b : Value) {e : EvalError} (h : a.atLeast b = .error e) :
    ¬ e.IsInternal := by
  have hsame : ∀ v : Value, ValueRel (.plain True) 0 v v := .refl World.reflexive_plain
  have hsays := (hsame a).atLeast (hsame b)
  rw [h] at hsays
  cases hsays with
  | error he => exact he

/-! ## What executing an instruction gives -/

/-- Why an instruction of compiled code may still meet a defect: it reads or increases a slot that
nothing was stored in, or a builtin gets names and values of different numbers in a frame that has
spliced `...`. -/
inductive Slip (S : Array Word) : Instruction → Halt → Prop
  | read {op : Opcode} {n : Nat} (hop : op = .load ∨ op = .loadInt) (hn : S[n]? = some .empty) :
    Slip S ⟨op, [n]⟩ (.error (.internal (.unassignedSlot n)))
  | increment {n : Nat} (hn : S[n]? = some .empty) :
    Slip S ⟨.incLocal, [n]⟩ (.error (.internal (.wrongWord "int" "empty")))
  | mismatch {i : Instruction} (hop : i.op = .applyBuiltin ∨ i.op = .callPrimitive) {ds : ArgList}
    (hwork : S[workSlot]? = some (.value (.dots ds))) (b : Builtin) {names values : Nat}
    (hne : names ≠ values) : Slip S i (.error (.internal (.nameCount b.name names values)))

/-- What executing an instruction gives that has an effect: the words it leaves have the layout
`post`, and nothing below them is touched. -/
inductive Site.Gives (X : Site) (p : Nat) (i : Instruction) (post : Layout) (rest : List Word)
    (S : Array Word) (F : Frame) : Result (Machine.Transfer × Machine) → Prop
  | next (ws : List Word) {S' : Array Word} {F' : Frame} {s : Store}
    (hF : Holds X.slots X.env F' S') (hwork : F.work.isSome → F'.work.isSome)
    (hw : post.Covers F'.work ws) : Gives X p i post rest S F (.ok (.next, ⟨p, ws ++ rest, S'⟩) s)
  | stops {h : Halt} {s : Store} (hh : h.IsInternal → Slip S i h ∨ X.host.Stops h) :
    Gives X p i post rest S F (.error h s)

section

variable {X : Site} {p n : Nat} {i : Instruction} {pre post : Layout} {rest ws ws' : List Word}
  {S : Array Word} {F : Frame} {s : Store}

/-- An instruction that carries out an evaluation. -/
lemma Site.Does.gives {β : Type} {act : Eval β} {f : β → List Word} (hd : X.Does p i ws act f)
    (hF : Holds X.slots X.env F S) (hpost : ∀ s b s', act s = .ok b s' → post.Covers F.work (f b))
    (hstop : ∀ s h s', act s = .error h s' → h.IsInternal → Slip S i h ∨ X.host.Stops h) :
    X.Gives p i post rest S F (X.step i.op ⟨p, ws ++ rest, S⟩ s) := by
  rw [hd.run]
  cases hr : act s with
  | ok b s' => exact .next (f b) hF id (hpost s b s' hr)
  | error h s' => exact .stops (hstop s h s' hr)

/-- An instruction that carries out an evaluation that meets no defect of its own. -/
lemma Site.Does.gives_of_governs {β : Type} {act : Eval β} {f : β → List Word}
    (hd : X.Does p i ws act f) (hF : Holds X.slots X.env F S)
    (hact : (Law.innocent X.limit X.host).Governs act)
    (hpost : ∀ s b s', act s = .ok b s' → post.Covers F.work (f b)) :
    X.Gives p i post rest S F (X.step i.op ⟨p, ws ++ rest, S⟩ s) :=
  hd.gives hF hpost fun _ _ _ he hi => .inr (hact.stops he hi)

/-- Further words may lie below. -/
lemma Site.Does.below {β : Type} {act : Eval β} {f : β → List Word} (hd : X.Does p i ws act f)
    (low : List Word) : X.Does p i (ws ++ low) act fun b => f b ++ low where
  holds := hd.holds
  run rest S s := by
    simp only [List.append_assoc]
    exact hd.run (low ++ rest) S s

/-- An instruction that only rearranges words. -/
lemma Site.Does.gives_moves (hd : X.Does p i ws (pure ()) fun _ => ws')
    (hF : Holds X.slots X.env F S) (hpost : post.Covers F.work ws') :
    X.Gives p i post rest S F (X.step i.op ⟨p, ws ++ rest, S⟩ s) :=
  hd.gives_of_governs hF (.pure ()) fun _ _ _ _ => hpost

/-! ### Slots -/

/-- Pushing a slot that is not empty. -/
lemma Site.gives_load (ws : List Word) {w : Word} (hi : X.unit.code.Holds p ⟨.load, [n]⟩) (hw : S[n]? = some w)
    (hne : w ≠ .empty) (hF : Holds X.slots X.env F S) (hpost : post.Covers F.work (w :: ws)) :
    X.Gives p ⟨.load, [n]⟩ post rest S F (X.step .load ⟨p, ws ++ rest, S⟩ s) := by
  rw [Tracks.step_load hi hw hne]
  exact .next (w :: ws) hF id hpost

/-- Pushing the slot of a key for values. -/
lemma Site.gives_loadValue {key : Flow.SlotKey} (hl : X.slots.lookup? key = some ⟨n, .value⟩)
    (hi : X.unit.code.Holds p ⟨.load, [n]⟩) (hF : Holds X.slots X.env F S) :
    X.Gives p ⟨.load, [n]⟩ [.value] rest S F (X.step .load ⟨p, rest, S⟩ s) := by
  obtain ⟨w, hw, hkeeps⟩ := hF.slot key _ hl
  generalize F.slots key = v at hkeeps
  cases hkeeps with
  | empty =>
    simp only [Site.step, Machine.step, Machine.bind_apply, Machine.operand_apply hi rfl,
      Machine.slot_apply hw]
    exact .stops fun _ => .inl (.read (.inl rfl) hw)
  | value v => exact X.gives_load [] hi hw (by simp) hF (.one ⟨v, rfl⟩)

/-- Pushing the slot of a key for native integers. -/
lemma Site.gives_loadInt {key : Flow.SlotKey} (hl : X.slots.lookup? key = some ⟨n, .int⟩)
    (hi : X.unit.code.Holds p ⟨.loadInt, [n]⟩) (hF : Holds X.slots X.env F S) :
    X.Gives p ⟨.loadInt, [n]⟩ [.int] rest S F (X.step .loadInt ⟨p, rest, S⟩ s) := by
  obtain ⟨w, hw, hkeeps⟩ := hF.slot key _ hl
  generalize F.slots key = v at hkeeps
  simp only [Site.step, Machine.step, Machine.bind_apply, Machine.operand_apply hi rfl,
    Machine.slot_apply hw]
  cases hkeeps with
  | empty => exact .stops fun _ => .inl (.read (.inr rfl) hw)
  | int k => exact .next [.int k] hF id (.one ⟨k, rfl⟩)

/-- Increasing the slot of a key for native integers. -/
lemma Site.gives_incLocal {key : Flow.SlotKey} (hs : X.slots.Sound)
    (hl : X.slots.lookup? key = some ⟨n, .int⟩) (hi : X.unit.code.Holds p ⟨.incLocal, [n]⟩)
    (hF : Holds X.slots X.env F S) :
    X.Gives p ⟨.incLocal, [n]⟩ [] rest S F (X.step .incLocal ⟨p, rest, S⟩ s) := by
  obtain ⟨w, hw, hkeeps⟩ := hF.slot key _ hl
  generalize F.slots key = v at hkeeps
  rw [Tracks.step_incLocal hi hw]
  cases hkeeps with
  | empty => exact .stops fun _ => .inl (.increment hw)
  | int k =>
    dsimp only
    cases Value.int32? (k.toInt + 1) with
    | none => exact .stops fun h => h.elim
    | some m => exact .next [] (hF.set hs hl (.int m)) id rfl

/-- Storing in the slot of a key. -/
lemma Site.gives_store {key : Flow.SlotKey} {slot : Slot} {v : Value} {w : Word}
    (hs : X.slots.Sound) (hl : X.slots.lookup? key = some slot)
    (hi : X.unit.code.Holds p ⟨Tracks.storeOp slot.kind, [slot.index]⟩)
    (hw : Word.Keeps slot.kind (some v) w) (hF : Holds X.slots X.env F S) :
    X.Gives p ⟨Tracks.storeOp slot.kind, [slot.index]⟩ [] rest S F
      (X.step (Tracks.storeOp slot.kind) ⟨p, w :: rest, S⟩ s) := by
  obtain ⟨old, hold, -⟩ := hF.slot key slot hl
  rw [Tracks.step_store hi hw hold]
  exact .next [] (hF.set hs hl hw) id rfl

/-- Keeping the caller's `...`. -/
lemma Site.gives_storeWork {ds : ArgList} (hs : X.slots.Sound)
    (hi : X.unit.code.Holds p ⟨.store, [workSlot]⟩) (hF : Holds X.slots X.env F S) :
    X.Gives p ⟨.store, [workSlot]⟩ [.parked] rest S F
      (X.step .store ⟨p, .value (.dots ds) :: rest, S⟩ s) := by
  rw [Tracks.step_storeWork hi hF.work]
  exact .next [] (hF.setWork hs ds) (fun _ => rfl) (.one ⟨rfl, rfl⟩)

/-! ### Functions -/

/-- The categories of a value that can be called. -/
lemma Value.category_mem {f : Value} (h : f.category?.isSome) :
    ∃ c ∈ [Category.builtin, .closure, .special], f.category? = some c := by
  obtain ⟨c, hc⟩ := Option.isSome_iff_exists.1 h
  refine ⟨c, ?_, hc⟩
  cases c <;> simp

/-- What is found as a function can be called. -/
lemma Host.functionIn_category {host : Host} {name : Symbol} {f : Value} :
    ∀ {envs : List EnvId} {s s' : Store}, host.functionIn name envs s = .ok f s' →
      f.category?.isSome
  | [], _, _, h => by cases h
  | env :: envs, s, s', h => by
    rw [Host.functionIn, Eval.bind_apply, show (get : Eval Store) s = .ok s s from rfl] at h
    dsimp only at h
    cases hl : s.local? env name with
    | none =>
      rw [hl] at h
      exact functionIn_category h
    | some v =>
      rw [hl] at h
      dsimp only at h
      rw [Eval.bind_apply] at h
      cases hv : host.force v s with
      | error e t =>
        rw [hv] at h
        cases h
      | ok w t =>
        rw [hv] at h
        dsimp only at h
        split at h
        · rename_i hw
          cases h
          exact hw
        · exact functionIn_category h

/-- What was checked can be called. -/
lemma Flow.Scene.callable_category {X : Flow.Scene} {c : Call} {v f : Value} {s s' : Store}
    (h : X.callable c v s = .ok f s') : f.category?.isSome := by
  rw [X.callable_apply] at h
  cases hv : X.host.force v s with
  | error e t =>
    rw [hv] at h
    cases h
  | ok w t =>
    rw [hv] at h
    dsimp only at h
    split at h
    · rename_i hw
      cases h
      exact hw
    · cases h

/-- Checking that a value can be called meets no defect of its own. -/
lemma Law.callable {limit : Nat} {L : Law limit} (X : Flow.Scene) (c : Call) (v : Value) :
    L.Directs fun H => { X with host := H }.callable c v := by
  refine (Law.force v).bind fun w => ?_
  split
  · exact .pure w
  · exact .fail _ id

/-- A builtin meets a defect only if names and values are not as many. -/
lemma Builtin.invoke_stops {b : Builtin} {c : Call} {ns : List (Option Symbol)} {vs : List Value}
    {h : Halt} {s' : Store} (he : Flow.ofResult (b.invoke c ns vs) s = .error h s')
    (hh : h.IsInternal) : ns.length ≠ vs.length ∧
      h = .error (.internal (.nameCount b.name ns.length vs.length)) := by
  unfold Builtin.invoke at he
  by_cases hlen : ns.length = vs.length
  · rw [if_pos hlen] at he
    cases hr : b.apply c ns vs with
    | ok v =>
      rw [hr] at he
      cases he
    | error e =>
      rw [hr] at he
      cases he
      exact absurd hh (b.apply_proper c ns vs hr)
  · rw [if_neg hlen] at he
    cases he
    exact ⟨hlen, rfl⟩

/-- The note about the work slot is no word. -/
lemma Counted.nothing {work : Option ArgList} {size : Option Nat} {Γ : Layout}
    (h : Counted size Γ) (hws : Γ.Covers work ws) : ws = [] := by
  cases h with
  | fixed k => exact hws
  | spliced =>
    obtain ⟨_, _, ⟨-, rfl⟩, rfl, rfl⟩ := hws
    rfl

/-- A builtin gets as many names as values unless `...` was spliced. -/
lemma Counted.slip {size : Option Nat} {Γ : Layout} (hΓ : Counted size Γ)
    (hop : i.op = .applyBuiltin ∨ i.op = .callPrimitive) (hF : Holds X.slots X.env F S)
    (hws : Γ.Covers F.work ws) {b : Builtin} {c : Call}
    {ns : List (Option Symbol)} {vs : List Value} (hns : ∀ k ∈ size, ns.length = k)
    (hvs : ∀ k ∈ size, vs.length = k) {h : Halt} {s' : Store}
    (he : Flow.ofResult (b.invoke c ns vs) s = .error h s') (hh : h.IsInternal) : Slip S i h := by
  obtain ⟨hne, rfl⟩ := Builtin.invoke_stops he hh
  cases hΓ with
  | fixed k => exact absurd ((hns k rfl).trans (hvs k rfl).symm) hne
  | spliced =>
    obtain ⟨_, _, ⟨hwork, -⟩, -, -⟩ := hws
    obtain ⟨ds, hds⟩ := Option.isSome_iff_exists.1 hwork
    have hslot := hF.work
    rw [hds] at hslot
    exact .mismatch hop hslot b hne

/-- A value of a category. -/
lemma Value.eq_builtin {f : Value} (h : f.category? = some .builtin) : ∃ b, f = .builtin b := by
  cases f <;> simp_all [Value.category?]

lemma Value.eq_closure {f : Value} (h : f.category? = some .closure) :
    ∃ u e, f = .closure u e := by
  cases f <;> simp_all [Value.category?]

lemma Value.eq_special {f : Value} (h : f.category? = some .special) : ∃ g, f = .special g := by
  cases f <;> simp_all [Value.category?]

/-! ### Effects -/

/-- An instruction with an effect gives what the effect says. -/
theorem Effect.gives (h : Effect X.slots X.unit i pre post) (hs : X.slots.Sound)
    (hi : X.unit.code.Holds p i) (hF : Holds X.slots X.env F S) (hw : pre.Covers F.work ws) :
    X.Gives p i post rest S F (X.step i.op ⟨p, ws ++ rest, S⟩ s) := by
  have hhost := X.host.governs_innocent X.limit
  have one : ∀ {act : Eval Value} (s : Store) (v : Value) (s' : Store), act s = .ok v s' →
      Layout.Covers F.work [.value] [.value v] := fun _ v _ _ => .one ⟨v, rfl⟩
  cases h with
  | literal hc =>
    obtain rfl := hw
    exact (Site.Does.pushLiteral hi hc).gives_moves hF (.one ⟨_, rfl⟩)
  | site hc =>
    obtain rfl := hw
    exact (Site.Does.pushCall hi hc).gives_moves hF (.one ⟨_, rfl⟩)
  | int k =>
    obtain rfl := hw
    exact (Site.Does.pushInt hi).gives_moves hF (.one ⟨k, rfl⟩)
  | loadContext =>
    obtain rfl := hw
    exact X.gives_load [] hi hF.context (by simp) hF (.one rfl)
  | loadEnvironment =>
    obtain rfl := hw
    exact X.gives_load [] hi hF.environment (by simp) hF (.one ⟨_, rfl⟩)
  | loadWork Γ =>
    obtain ⟨top, _, -, ⟨_, _, ⟨hwork, -⟩, -, -⟩, -⟩ := hw.split
    obtain ⟨ds, hds⟩ := Option.isSome_iff_exists.1 hwork
    have hslot := hF.work
    rw [hds] at hslot
    refine X.gives_load ws hi hslot (by simp [workWord]) hF ?_
    exact ⟨[_], ws, ⟨ds, rfl⟩, hw, rfl⟩
  | storeWork =>
    obtain ⟨_, _, ⟨ds, rfl⟩, rfl, rfl⟩ := hw
    exact X.gives_storeWork hs hi hF
  | load hl =>
    obtain rfl := hw
    exact X.gives_loadValue hl hi hF
  | loadInt hl =>
    obtain rfl := hw
    exact X.gives_loadInt hl hi hF
  | store hl =>
    obtain ⟨_, _, ⟨v, rfl⟩, rfl, rfl⟩ := hw
    exact X.gives_store hs hl hi (.value v) hF
  | storeInt hl =>
    obtain ⟨_, _, ⟨k, rfl⟩, rfl, rfl⟩ := hw
    exact X.gives_store hs hl hi (.int k) hF
  | incLocal hl =>
    obtain rfl := hw
    exact X.gives_incLocal hs hl hi hF
  | dup cs =>
    obtain ⟨_, _, ⟨f, hf, rfl⟩, rfl, rfl⟩ := hw
    exact (Site.Does.dup hi _).gives_moves hF (.one ⟨f, hf, rfl⟩)
  | isBuiltin cs =>
    obtain ⟨_, _, ⟨f, hf, rfl⟩, rfl, rfl⟩ := hw
    exact ((Site.Does.isBuiltin hi f).below [.value f]).gives_moves hF (.one ⟨f, hf, rfl⟩)
  | isClosure cs =>
    obtain ⟨_, _, ⟨f, hf, rfl⟩, rfl, rfl⟩ := hw
    exact ((Site.Does.isClosure hi f).below [.value f]).gives_moves hF (.one ⟨f, hf, rfl⟩)
  | castBuiltin =>
    obtain ⟨_, _, ⟨f, ⟨c, hc, hf⟩, rfl⟩, rfl, rfl⟩ := hw
    obtain rfl := List.mem_singleton.1 hc
    obtain ⟨b, rfl⟩ := Value.eq_builtin hf
    exact (Site.Does.castBuiltin hi b).gives_moves hF (.one ⟨_, ⟨_, hc, hf⟩, rfl⟩)
  | castClosure =>
    obtain ⟨_, _, ⟨f, ⟨c, hc, hf⟩, rfl⟩, rfl, rfl⟩ := hw
    obtain rfl := List.mem_singleton.1 hc
    obtain ⟨unit, e, rfl⟩ := Value.eq_closure hf
    exact (Site.Does.castClosure hi unit e).gives_moves hF (.one ⟨_, ⟨_, hc, hf⟩, rfl⟩)
  | popInt =>
    obtain ⟨_, _, ⟨k, rfl⟩, rfl, rfl⟩ := hw
    exact (Site.Does.pop hi _).gives_moves hF rfl
  | popValue =>
    obtain ⟨_, _, ⟨v, rfl⟩, rfl, rfl⟩ := hw
    exact (Site.Does.pop hi _).gives_moves hF rfl
  | findVariable hc =>
    obtain rfl := hw
    exact (Site.Does.findVariable hi hc).gives_of_governs hF
      ((Law.Directs.findVariable _ _).governs hhost) one
  | findFunction hc =>
    obtain rfl := hw
    exact (Site.Does.findFunction hi hc).gives_of_governs hF
      ((Law.findFunction _ _).directs.governs hhost)
      fun s f s' h => .one ⟨f, Value.category_mem (Host.functionIn_category h), rfl⟩
  | setVariable hc =>
    obtain ⟨_, _, ⟨v, rfl⟩, rfl, rfl⟩ := hw
    exact (Site.Does.setVariable hi hc v).gives_of_governs hF
      ((Law.Directs.setVariable _ _ _).governs hhost)
      fun _ _ _ _ => rfl
  | force =>
    obtain ⟨_, _, ⟨v, rfl⟩, rfl, rfl⟩ := hw
    exact (Site.Does.force hi v).gives_of_governs hF ((Law.force v).governs hhost) one
  | checkFunction hc =>
    obtain ⟨_, _, ⟨v, rfl⟩, rfl, rfl⟩ := hw
    exact (Site.Does.checkFunction hi hc v).gives_of_governs hF
      ((Law.callable X.toScene _ v).governs hhost)
      fun s f s' h => .one ⟨f, Value.category_mem (Flow.Scene.callable_category h), rfl⟩
  | applySpecial =>
    obtain ⟨_, _, ⟨c, rfl⟩, ⟨_, _, ⟨e, rfl⟩, ⟨_, _, rfl, ⟨_, _, ⟨f, ⟨d, hd, hf⟩, rfl⟩, rfl, rfl⟩,
      rfl⟩, rfl⟩, rfl⟩ := hw
    obtain rfl := List.mem_singleton.1 hd
    obtain ⟨g, rfl⟩ := Value.eq_special hf
    exact (Site.Does.applySpecial hi c e g).gives_of_governs hF
      ((Law.special e c g).governs hhost) one
  | newArgList =>
    obtain rfl := hw
    exact (Site.Does.newArgList hi).gives_moves hF (.one ⟨[], rfl⟩)
  | argAdd =>
    obtain ⟨_, _, ⟨v, rfl⟩, ⟨_, _, ⟨as, rfl⟩, rfl, rfl⟩, rfl⟩ := hw
    exact (Site.Does.argAdd hi v as).gives_moves hF (.one ⟨_, rfl⟩)
  | argAddNamed hc =>
    obtain ⟨_, _, ⟨v, rfl⟩, ⟨_, _, ⟨as, rfl⟩, rfl, rfl⟩, rfl⟩ := hw
    exact (Site.Does.argAddNamed hi hc v as).gives_moves hF (.one ⟨_, rfl⟩)
  | argAddAll =>
    obtain ⟨_, _, ⟨ds, rfl⟩, ⟨_, _, ⟨as, rfl⟩, rfl, rfl⟩, rfl⟩ := hw
    exact (Site.Does.argAddAll hi ds as).gives_moves hF (.one ⟨_, rfl⟩)
  | applyClosure =>
    obtain ⟨_, _, ⟨as, rfl⟩, ⟨_, _, ⟨c, rfl⟩, ⟨_, _, rfl, ⟨_, _, ⟨f, ⟨d, hd, hf⟩, rfl⟩, rfl, rfl⟩,
      rfl⟩, rfl⟩, rfl⟩ := hw
    obtain rfl := List.mem_singleton.1 hd
    obtain ⟨unit, e, rfl⟩ := Value.eq_closure hf
    exact (Site.Does.applyClosure hi c as unit e).gives_of_governs hF
      ((Law.applyClosure unit e c as).governs hhost) one
  | makeVariablePromise hc =>
    obtain ⟨_, _, ⟨e, rfl⟩, rfl, rfl⟩ := hw
    exact (Site.Does.makeVariablePromise hi hc e).gives_of_governs hF
      ((Law.Directs.promise _).governs hhost) one
  | makeThunk ht =>
    obtain ⟨_, _, ⟨e, rfl⟩, ⟨_, _, rfl, rfl, rfl⟩, rfl⟩ := hw
    exact (Site.Does.makeThunk hi ht e).gives_of_governs hF
      ((Law.Directs.promise _).governs hhost) one
  | evalThunk ht =>
    obtain ⟨_, _, ⟨e, rfl⟩, ⟨_, _, rfl, rfl, rfl⟩, rfl⟩ := hw
    exact (Site.Does.evalThunk hi ht e).gives_of_governs hF
      ((Law.executeNested _ e).governs hhost) one
  | loadEllipsis =>
    obtain rfl := hw
    exact (Site.Does.loadEllipsis hi).gives_of_governs hF
      ((Law.Directs.findDots _).governs hhost)
      fun _ ds _ _ => .one ⟨ds, rfl⟩
  | newNames k =>
    obtain rfl := hw
    exact (Site.Does.newNames hi).gives_moves hF
      (.one ⟨_, fun _ hk => by cases hk; simp, rfl⟩)
  | nameAt hc hn =>
    obtain ⟨_, _, ⟨ns, hns, rfl⟩, rfl, rfl⟩ := hw
    have hlen := hns _ rfl
    exact (Site.Does.nameAt hi hc (by rw [hlen]; exact hn)).gives_moves hF
      (.one ⟨_, fun _ hk => by cases hk; simpa using hlen, rfl⟩)
  | spliceNames hn =>
    obtain ⟨_, _, ⟨ds, rfl⟩, ⟨_, _, ⟨ns, hns, rfl⟩, rfl, rfl⟩, rfl⟩ := hw
    exact (Site.Does.spliceNames hi ds (by rw [hns _ rfl]; exact hn)).gives_moves hF
      (.one ⟨_, by simp, rfl⟩)
  | newValues k =>
    obtain rfl := hw
    exact (Site.Does.newValues hi).gives_moves hF
      (.one ⟨_, fun _ hk => by cases hk; simp, rfl⟩)
  | valueAt hn =>
    obtain ⟨_, _, ⟨v, rfl⟩, ⟨_, _, ⟨vs, hvs, rfl⟩, rfl, rfl⟩, rfl⟩ := hw
    have hlen := hvs _ rfl
    exact (Site.Does.valueAt hi v (by rw [hlen]; exact hn)).gives_moves hF
      (.one ⟨_, fun _ hk => by cases hk; simpa using hlen, rfl⟩)
  | spliceValues hn =>
    obtain ⟨_, _, ⟨ds, rfl⟩, ⟨_, _, ⟨vs, hvs, rfl⟩, rfl, rfl⟩, rfl⟩ := hw
    exact (Site.Does.spliceValues hi ds (by rw [hvs _ rfl]; exact hn)).gives_of_governs hF
      ((Law.Directs.mapM (fun d => Law.force d.value) ds).governs hhost)
      fun _ _ _ _ => .one ⟨_, by simp, rfl⟩
  | applyBuiltin hΓ =>
    obtain ⟨_, _, hframe, ⟨_, _, ⟨f, ⟨d, hd, hf⟩, rfl⟩, rfl, rfl⟩, rfl⟩ := hw.split
    obtain ⟨_, low, ⟨_, _, ⟨vs, hvs, rfl⟩, ⟨_, _, ⟨ns, hns, rfl⟩, ⟨_, _, ⟨c, rfl⟩, ⟨_, _, ⟨e, rfl⟩,
      ⟨_, _, rfl, rfl, rfl⟩, rfl⟩, rfl⟩, rfl⟩, rfl⟩, hlow, rfl⟩ := hframe.split
    obtain rfl := hΓ.nothing hlow
    obtain rfl := List.mem_singleton.1 hd
    obtain ⟨b, rfl⟩ := Value.eq_builtin hf
    exact (Site.Does.applyBuiltin hi c e ns vs b).gives hF one fun _ _ _ he hh =>
      .inl (hΓ.slip (.inl rfl) hF hlow hns hvs he hh)
  | callPrimitive hΓ hc hb =>
    obtain ⟨_, low, ⟨_, _, ⟨vs, hvs, rfl⟩, ⟨_, _, ⟨ns, hns, rfl⟩, ⟨_, _, ⟨c, rfl⟩, ⟨_, _, ⟨e, rfl⟩,
      ⟨_, _, rfl, rfl, rfl⟩, rfl⟩, rfl⟩, rfl⟩, rfl⟩, hlow, rfl⟩ := hw.split
    obtain rfl := hΓ.nothing hlow
    exact (Site.Does.callPrimitive hi hc hb c e ns vs).gives hF one fun _ _ _ he hh =>
      .inl (hΓ.slip (.inr rfl) hF hlow hns hvs he hh)
  | elementAt =>
    obtain ⟨_, _, ⟨k, rfl⟩, ⟨_, _, ⟨v, rfl⟩, rfl, rfl⟩, rfl⟩ := hw
    exact (Site.Does.elementAt hi v k).gives_of_governs hF
      (.ofExcept fun _ => v.elementAt_error k) one
  | length =>
    obtain ⟨_, _, ⟨v, rfl⟩, rfl, rfl⟩ := hw
    exact (Site.Does.length hi v).gives_of_governs hF
      (.ofExcept fun _ => Builtin.lengthOf_error v) fun _ k _ _ => .one ⟨k, rfl⟩
  | addInt =>
    obtain ⟨_, _, ⟨j, rfl⟩, ⟨_, _, ⟨k, rfl⟩, rfl, rfl⟩, rfl⟩ := hw
    refine (Site.Does.addInt hi k j).gives_of_governs hF ?_ fun _ r _ _ => .one ⟨r, rfl⟩
    split
    · exact .pure _
    · exact .fail _ id
  | greaterEqual =>
    obtain ⟨_, _, ⟨b, rfl⟩, ⟨_, _, ⟨a, rfl⟩, rfl, rfl⟩, rfl⟩ := hw
    exact (Site.Does.greaterEqual hi a b).gives_of_governs hF
      (.ofExcept fun _ => a.atLeast_error b) fun _ t _ _ => .one ⟨_, rfl⟩
  | makeClosure hf =>
    obtain ⟨_, _, ⟨e, rfl⟩, rfl, rfl⟩ := hw
    exact (Site.Does.makeClosure hi hf e).gives_moves hF (.one ⟨_, rfl⟩)
  | truthy =>
    obtain ⟨_, _, ⟨v, rfl⟩, rfl, rfl⟩ := hw
    exact (Site.Does.truthy hi v).gives_of_governs hF (.ofExcept fun _ => v.truthy_error)
      fun _ t _ _ => .one ⟨_, rfl⟩
  | boxInt =>
    obtain ⟨_, _, ⟨k, rfl⟩, rfl, rfl⟩ := hw
    exact (Site.Does.boxInt hi k).gives_moves hF (.one ⟨_, rfl⟩)
  | unboxInt =>
    obtain ⟨_, _, ⟨v, rfl⟩, rfl, rfl⟩ := hw
    exact (Site.Does.unboxInt hi v).gives_of_governs hF
      (.ofExcept fun _ => v.asInt_error _) fun _ k _ _ => .one ⟨k, rfl⟩

/-! ### Rules -/

/-- The offset where execution goes on after the instruction at `p`. -/
def Machine.Transfer.target? (p : Nat) (op : Opcode) : Machine.Transfer → Option Nat
  | .next => some (p + op.size)
  | .jump t => some t
  | .ret _ => none

/-- What executing the instruction at `p` gives that may go on at the offsets `succs`. -/
inductive Site.Proceeds (X : Site) (p : Nat) (i : Instruction) (succs : List (Nat × Layout))
    (S : Array Word) : Result (Machine.Transfer × Machine) → Prop
  | goes {tr : Machine.Transfer} {m : Machine} {s : Store} {t : Nat} {Δ : Layout} {F : Frame}
    (hp : m.position = p) (ht : tr.target? p i.op = some t) (hΔ : (t, Δ) ∈ succs) (hF : Holds X.slots X.env F m.slots)
    (hw : Δ.Covers F.work m.stack) : Proceeds X p i succs S (.ok (tr, m) s)
  | returns {v : Value} {m : Machine} {s : Store} : Proceeds X p i succs S (.ok (.ret v, m) s)
  | stops {h : Halt} {s : Store} (hh : h.IsInternal → Slip S i h ∨ X.host.Stops h) :
    Proceeds X p i succs S (.error h s)

/-- A jump that is taken or not. -/
lemma Site.proceeds_jumpIf {op : Opcode} {t : Nat} {st : List Word} {Γ Δ : Layout} {c : Bool}
    (hi : X.unit.code.Holds p ⟨op, [t]⟩) (hop : op.widths = [2])
    (hF : Holds X.slots X.env F S) (hno : c = false → Γ.Covers F.work st)
    (hyes : c = true → Δ.Covers F.work st) :
    X.Proceeds p ⟨op, [t]⟩ [(p + op.size, Γ), (t, Δ)] S
      (Machine.jumpIf X.unit c ⟨p, st, S⟩ s) := by
  rw [Machine.jumpIf_apply hi hop]
  cases c with
  | true => exact .goes (t := t) rfl rfl (by simp) hF (hyes rfl)
  | false => exact .goes (t := p + op.size) rfl rfl (by simp) hF (hno rfl)

/-- **Executing an instruction**: on a stack of the layout that its rule asks for it goes on where
the rule says, with a stack of the layout that the rule says, or stops for no defect of its own but
those that cannot be seen from the code. -/
theorem Rule.proceeds {Γ : Layout} {succs : List (Nat × Layout)} {st : List Word}
    (h : Rule X.slots X.unit p i Γ succs) (hs : X.slots.Sound) (hi : X.unit.code.Holds p i)
    (hF : Holds X.slots X.env F S) (hw : Γ.Covers F.work st) :
    X.Proceeds p i succs S (X.step i.op ⟨p, st, S⟩ s) := by
  cases h with
  | effect he Γ =>
    obtain ⟨ws, rest, hpre, hrest, rfl⟩ := hw.split
    have hgives : X.Gives p i _ rest S F (X.step i.op ⟨p, ws ++ rest, S⟩ s) :=
      he.gives hs hi hF hpre
    generalize X.step i.op ⟨p, ws ++ rest, S⟩ s = r at hgives
    cases hgives with
    | next ws' hF' hwork hpost =>
      exact .goes rfl rfl (by simp) hF' (hpost.append (hrest.mono hwork))
    | stops hh => exact .stops hh
  | jump t Γ =>
    have hrun : X.step .jump ⟨p, st, S⟩ s = .ok (.jump t, ⟨p, st, S⟩) s := by
      simp only [Site.step, Machine.step, Machine.bind_apply, Machine.operand_apply hi rfl]
      rfl
    rw [hrun]
    exact .goes rfl rfl (by simp) hF hw
  | jumpIfZero t Γ =>
    obtain ⟨_, rest, ⟨n, rfl⟩, hrest, rfl⟩ := hw
    exact X.proceeds_jumpIf hi rfl hF (fun _ => hrest) fun _ => hrest
  | jumpIfNonZero c cs t Γ =>
    obtain ⟨_, rest, ⟨f, ⟨d, hd, hf⟩, rfl⟩, hrest, rfl⟩ := hw
    have hrun : X.step .jumpIfNonZero
        ⟨p, [.ofBool (f.category? = some c), .value f] ++ rest, S⟩ s
        = Machine.jumpIf X.unit (decide (f.category? = some c)) ⟨p, .value f :: rest, S⟩ s := by
      by_cases hc : f.category? = some c <;> simp only [hc, decide_true, decide_false] <;> rfl
    rw [hrun]
    refine X.proceeds_jumpIf hi rfl hF (fun hc => ?_) fun hc => ?_
    · have hne : d ≠ c := by
        rintro rfl
        simp [hf] at hc
      exact ⟨[_], rest, ⟨f, ⟨d, List.mem_filter.2 ⟨hd, by simpa using hne⟩, hf⟩, rfl⟩, hrest, rfl⟩
    · exact ⟨[_], rest, ⟨f, ⟨c, by simp, by simpa using hc⟩, rfl⟩, hrest, rfl⟩
  | jumpIfIntLess t Γ =>
    obtain ⟨_, _, ⟨b, rfl⟩, ⟨_, rest, ⟨a, rfl⟩, hrest, rfl⟩, rfl⟩ := hw
    exact X.proceeds_jumpIf hi rfl hF (fun _ => hrest) fun _ => hrest
  | ret =>
    obtain ⟨_, _, ⟨v, rfl⟩, rfl, rfl⟩ := hw
    exact .returns

end

end CallByNeed
