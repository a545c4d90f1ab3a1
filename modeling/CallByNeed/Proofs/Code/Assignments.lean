import CallByNeed.Proofs.Code.Allotment
import CallByNeed.Proofs.Code.Requests

/-!
# What the compiler asks of the slots

A body is assembled by planning all assignments of its graph and then asking for a slot at each
assignment, for the kind that was planned (`Assemble.assigns_body`). Nothing else that is done while
a unit is assembled asks for a slot. So the slots of a unit are those of a sequence of calls whose
plans are made in time, and no slot that is kept for integers is ever asked to hold a value
(`Slots.allots`).
-/

namespace CallByNeed

open CallByNeed.Flow (Term Thunk Procedure SlotKey Graph)

namespace Slots

/-- The call asks for the slot of an assignment that is planned. -/
def Call.PlannedIn (plans : List Call) (c : Call) : Prop :=
  ∃ key kind, c = .slotFor key kind ∧ .plan key kind ∈ plans

/-- The second slots come from the first ones by asking for planned assignments only. -/
def Serves (plans : List Call) (s t : Slots) : Prop :=
  ∃ calls : List Call, (∀ c ∈ calls, c.PlannedIn plans) ∧ t = s.run calls

variable {plans : List Call} {s t r : Slots}

lemma Serves.refl (s : Slots) : Serves plans s s := ⟨[], nofun, rfl⟩

lemma Serves.trans (h : Serves plans s t) (h' : Serves plans t r) : Serves plans s r := by
  obtain ⟨calls, hcalls, rfl⟩ := h
  obtain ⟨calls', hcalls', rfl⟩ := h'
  refine ⟨calls ++ calls', fun c hc => ?_, (run_append s calls calls').symm⟩
  exact (List.mem_append.1 hc).elim (hcalls c) (hcalls' c)

end Slots

/-- Under these options the step asks the slots for planned assignments only, whether it fails or
not, and if it fails because a value is assigned to a slot for integers, such a call of the slots
fails. The options stay, as they decide what is planned. -/
def Assigns {α : Type} (options : CompilerOptions) (plans : List Slots.Call) (c : Assemble α) :
    Prop := ∀ a, a.options = options →
  match c a with
  | .ok _ b => b.options = options ∧ Slots.Serves plans a.slots b.slots
  | .error e b => Slots.Serves plans a.slots b.slots ∧
    (e.Reboxes → ∃ call : Slots.Call, call.PlannedIn plans ∧
      call.answer b.slots = .error e b.slots)

/-- What makes units of nested bodies does not fail because a slot for integers is assigned a
value. -/
def Nested.Sparing (nested : Nested) : Prop :=
  ∀ name b j e j', nested name b j = .error e j' → ¬ e.Reboxes

namespace Assemble

variable {nested : Nested} {options : CompilerOptions} {plans : List Slots.Call}

/-! ## All steps -/

/-- Steps in a row fail as one of them does. -/
lemma exists_error_of_mapM {α β : Type} {f : α → EStateM CompileError Journal β} {xs : List α}
    {j j' : Journal} {e : CompileError} (h : xs.mapM f j = .error e j') :
    ∃ x k k', f x k = .error e k' := by
  induction xs generalizing j with
  | nil => cases h
  | cons x xs ih =>
    simp only [List.mapM_cons, nested_bind_apply] at h
    cases hx : f x j with
    | error e' k =>
      rw [hx] at h
      cases h
      exact ⟨x, j, j', hx⟩
    | ok y k =>
      rw [hx] at h
      dsimp only at h
      cases hxs : xs.mapM f k with
      | ok ys k' =>
        rw [hxs] at h
        cases h
      | error e' k' =>
        rw [hxs] at h
        cases h
        exact ih hxs

/-- The unit of a function literal is refused for what one of its bodies is refused for. -/
lemma exists_error_of_functionUnit {name : String} {p : Procedure Term} {j j' : Journal}
    {e : CompileError} (h : functionUnit nested name p j = .error e j') :
    ∃ name b k k', nested name b k = .error e k' := by
  simp only [functionUnit, nested_bind_apply] at h
  cases hxs : p.formals.mapM (defaultUnit nested name) j with
  | ok ys k =>
    rw [hxs] at h
    dsimp only at h
    cases hu : nested name p.body k with
    | ok u k' =>
      rw [hu] at h
      cases h
    | error e' k' =>
      rw [hu] at h
      cases h
      exact ⟨name, p.body, k, j', hu⟩
  | error e' k =>
    rw [hxs] at h
    cases h
    obtain ⟨x, k, k', hx⟩ := exists_error_of_mapM hxs
    unfold defaultUnit at hx
    cases hd : x.default with
    | none =>
      rw [hd] at hx
      cases hx
    | some d =>
      rw [hd] at hx
      simp only [nested_bind_apply] at hx
      cases hu : nested s!"{name}$default_{x.name.name}" d.body k with
      | ok u l =>
        rw [hu] at hx
        cases hx
      | error e' l =>
        rw [hu] at hx
        cases hx
        exact ⟨_, d.body, k, k', hu⟩

/-- Constants and nested units do not concern the slots. -/
lemma assigns_answer (hn : nested.Sparing) (r : Request) :
    Assigns options plans (r.answer nested) := by
  intro a ha
  cases hanswer : r.answer nested a with
  | ok i b =>
    show b.options = options ∧ Slots.Serves plans a.slots b.slots
    rcases Request.cases_of_answer hanswer with ⟨-, rfl⟩ | ⟨-, -, henters⟩
    · exact ⟨ha, .refl _⟩
    · rw [henters.slots]
      exact ⟨henters.options.trans ha, .refl _⟩
  | error e b =>
    have hb := Request.eq_of_answer_error hanswer
    show Slots.Serves plans a.slots b.slots ∧ (e.Reboxes → _)
    rw [hb]
    refine ⟨.refl _, fun he => absurd he ?_⟩
    obtain ⟨-, ⟨-, rfl⟩ | ⟨-, hfails⟩⟩ := Request.answer_eq_error_iff.1 ⟨b, hanswer⟩
    · exact id
    · cases r with
      | literal | name | primitive | call => exact hfails.elim
      | thunk d =>
        obtain ⟨j, hj⟩ := hfails
        exact hn _ _ _ _ _ hj
      | closure node p =>
        obtain ⟨j, hj⟩ := hfails
        obtain ⟨name, b, k, k', hb⟩ := exists_error_of_functionUnit hj
        exact hn _ _ _ _ _ hb

/-- The slot for an assignment that is planned. -/
lemma assigns_slotFor {key : SlotKey} {kind : SlotKind} (h : .plan key kind ∈ plans) :
    Assigns options plans (slotFor key kind) := by
  intro a ha
  rw [slotFor, Assembly.onSlots_apply]
  have hplanned : (Slots.Call.slotFor key kind).PlannedIn plans := ⟨key, kind, rfl, h⟩
  have hserves : Slots.Serves plans a.slots (a.slots.after (.slotFor key kind)) :=
    ⟨[.slotFor key kind], List.forall_mem_singleton.2 hplanned, rfl⟩
  have hanswer := Slots.answer_slotFor key kind a.slots
  cases hslot : Slots.slotFor key kind a.slots with
  | ok slot t =>
    rw [hslot] at hanswer
    rw [Slots.after, hanswer] at hserves
    exact ⟨ha, hserves⟩
  | error e t =>
    rw [hslot] at hanswer
    rw [Slots.after, hanswer] at hserves
    obtain ⟨rfl, -⟩ := Slots.unchanged_of_error hanswer
    exact ⟨hserves, fun _ => ⟨_, hplanned, hanswer⟩⟩

/-- All steps of assembling ask the slots for planned assignments only. -/
lemma stepClosed_assigns (hn : nested.Sparing) (options : CompilerOptions)
    (plans : List Slots.Call) : StepClosed nested options (fun key kind => .plan key kind ∈ plans)
      fun _ c => Assigns options plans c where
  spares {α c} h a ha := by
    have hca := h a
    cases hc : c a with
    | ok x b =>
      rw [hc] at hca
      show b.options = options ∧ Slots.Serves plans a.slots b.slots
      rw [hca.slots]
      exact ⟨hca.options.trans ha, .refl _⟩
    | error e b =>
      rw [hc] at hca
      show Slots.Serves plans a.slots b.slots ∧ (e.Reboxes → _)
      rw [hca.1.slots]
      exact ⟨.refl _, fun he => absurd he hca.2⟩
  bind {α β c f} h h' a ha := by
    rw [bind_apply]
    have hca := h a ha
    cases hc : c a with
    | error e b =>
      rw [hc] at hca
      exact hca
    | ok x b =>
      rw [hc] at hca
      obtain ⟨hb, hserves⟩ := hca
      have hfb := h' x b hb
      dsimp only
      cases hf : f x b with
      | ok y z =>
        rw [hf] at hfb
        exact ⟨hfb.1, hserves.trans hfb.2⟩
      | error e z =>
        rw [hf] at hfb
        exact ⟨hserves.trans hfb.1, hfb.2⟩
  get h a ha := h a ha a ha
  literal e := assigns_answer hn (.literal e)
  name s := assigns_answer hn (.name s)
  primitive s := assigns_answer hn (.primitive s)
  call c := assigns_answer hn (.call c)
  slot hplan := assigns_slotFor hplan
  thunk d := assigns_answer hn (.thunk d)
  closure node p := assigns_answer hn (.closure node p)

/-! ## Plans -/

/-- The plan of a statement: an assignment to a slot is planned for the kind of what is assigned. -/
def planOf? (o : CompilerOptions) : Flow.Statement Term → Option Slots.Call
  | .assign target value => target.slotKey?.map fun key => .plan key (kindOf o value)
  | _ => none

/-- The plans of a graph, one for each assignment to a slot, in order. -/
def plansOf (o : CompilerOptions) (g : Graph) : List Slots.Call :=
  (g.flatMap Flow.Block.statements).filterMap (planOf? o)

/-- Planning the slots of a graph is asking for all its plans. -/
lemma planSlots_eq_run (o : CompilerOptions) (s : Slots) (g : Graph) :
    planSlots o s g = s.run (plansOf o g) := by
  unfold planSlots plansOf
  rw [← List.foldl_flatMap]
  induction g.flatMap Flow.Block.statements generalizing s with
  | nil => rfl
  | cons st ss ih =>
    rw [List.foldl_cons, ih]
    cases st with
    | assign target value =>
      have hplan : planOf? o (.assign target value)
          = target.slotKey?.map fun key => .plan key (kindOf o value) := rfl
      unfold planStatement
      dsimp only
      cases hkey : target.slotKey? with
      | none => rw [List.filterMap_cons_none (by rw [hplan, hkey]; rfl)]
      | some key =>
        rw [hkey] at hplan
        rw [List.filterMap_cons_some hplan]
        rfl
    | _ => rfl

/-- The assignments of a graph are planned. -/
lemma plans_of_mem {g : Graph} {s : Flow.Statement Term}
    (hs : s ∈ g.flatMap Flow.Block.statements) :
    StepClosed.Plans options (fun key kind => .plan key kind ∈ plansOf options g) s := by
  cases s with
  | assign target value =>
    intro key hkey
    exact List.mem_filterMap.2 ⟨_, hs, by rw [planOf?, hkey]; rfl⟩
  | eval | goto | branch | ret => trivial

/-! ## Bodies -/

/-- The slots of a body, whether it is assembled or not: all assignments of its graph are planned,
and then only slots for these are asked for. -/
theorem assigns_body (hn : nested.Sparing) (options : CompilerOptions) (name : String)
    (b : Flow.Body) (j : Journal) :
    ∃ late : List Slots.Call, (∀ c ∈ late, c.PlannedIn (plansOf options (Graph.ofBody b))) ∧
      match body nested b (.start name options j) with
      | .ok _ z => z.slots = (Slots.start name firstLocalSlot).run
          (plansOf options (Graph.ofBody b) ++ late)
      | .error e z => z.slots = (Slots.start name firstLocalSlot).run
          (plansOf options (Graph.ofBody b) ++ late) ∧
        (e.Reboxes → ∃ call : Slots.Call, call.PlannedIn (plansOf options (Graph.ofBody b)) ∧
          call.answer z.slots = .error e z.slots) := by
  have hsteps := stepClosed_assigns hn options (plansOf options (Graph.ofBody b))
  have hblocks : Assigns options (plansOf options (Graph.ofBody b)) (do
      blocks nested (Graph.ofBody b)
      finish) :=
    hsteps.seq (hsteps.blocks fun _ => plans_of_mem) hsteps.finish
  obtain ⟨journal, hreport⟩ :=
    reportUnreachable_eq (Graph.unreachable b) (.start name options j)
  let a : Assembly := { Assembly.start name options j with
    journal
    slots := (Slots.start name firstLocalSlot).run (plansOf options (Graph.ofBody b)) }
  have hbody : body nested b (.start name options j) = (do
      blocks nested (Graph.ofBody b)
      finish) a := by
    unfold body
    rw [bind_apply, hreport]
    show (do blocks nested (Graph.ofBody b); finish) { Assembly.start name options j with
      journal, slots := planSlots options (Slots.start name firstLocalSlot) (Graph.ofBody b) } = _
    rw [planSlots_eq_run]
  rw [hbody]
  have ha := hblocks a rfl
  cases hrun : (do blocks nested (Graph.ofBody b); finish) a with
  | ok u z =>
    rw [hrun] at ha
    obtain ⟨late, hlate, hz⟩ := ha.2
    exact ⟨late, hlate, hz.trans (Slots.run_append _ _ _).symm⟩
  | error e z =>
    rw [hrun] at ha
    obtain ⟨⟨late, hlate, hz⟩, he⟩ := ha
    exact ⟨late, hlate, hz.trans (Slots.run_append _ _ _).symm, he⟩

end Assemble

namespace Slots

/-- A body plans its assignments before it asks for slots. -/
lemma prepared_plansOf {o : CompilerOptions} {g : Graph} {late : List Call}
    (h : ∀ c ∈ late, c.PlannedIn (Assemble.plansOf o g)) :
    Prepared (Assemble.plansOf o g) late where
  early key kind hmem := by
    obtain ⟨s, -, hs⟩ := List.mem_filterMap.1 hmem
    cases s with
    | assign target value =>
      obtain ⟨key', -, heq⟩ := Option.map_eq_some_iff.1 hs
      cases heq
    | _ => cases hs
  planned key kind hmem := by
    obtain ⟨key', kind', heq, hplan⟩ := h _ hmem
    cases heq
    exact hplan
  late key kind hmem := by
    obtain ⟨key', kind', heq, -⟩ := h _ hmem
    cases heq

end Slots

namespace Compiling

open Slots

/-- The plans that make a slot one for values. -/
lemma mem_plansOf {o : CompilerOptions} {g : Graph} {key : SlotKey} {kind : SlotKind} :
    .plan key kind ∈ Assemble.plansOf o g ↔ ∃ target value,
      .assign target value ∈ g.flatMap Flow.Block.statements ∧ target.slotKey? = some key ∧
        Assemble.kindOf o value = kind := by
  rw [Assemble.plansOf, List.mem_filterMap]
  constructor
  · rintro ⟨s, hs, hplan⟩
    cases s with
    | assign target value =>
      obtain ⟨key', hkey, heq⟩ := Option.map_eq_some_iff.1 hplan
      cases heq
      exact ⟨target, value, hs, hkey, rfl⟩
    | _ => cases hplan
  · rintro ⟨target, value, hs, hkey, rfl⟩
    exact ⟨_, hs, by rw [Assemble.planOf?, hkey]; rfl⟩

/-- The slots of a body, whether it is assembled or not. -/
structure AllotsBody (o : CompilerOptions) (name : String) (b : Flow.Body) (s : Slots) : Prop where
  calls : ∃ late : List Slots.Call,
    (∀ c ∈ late, c.PlannedIn (Assemble.plansOf o (Graph.ofBody b))) ∧
    s = (start name firstLocalSlot).run (Assemble.plansOf o (Graph.ofBody b) ++ late)
  kinds : ∀ key slot, s.lookup? key = some slot → (slot.kind = .int ↔ ∀ target value,
    .assign target value ∈ (Graph.ofBody b).flatMap Flow.Block.statements →
      target.slotKey? = some key → Assemble.kindOf o value = .int)

lemma allotsBody_of_planned {o : CompilerOptions} {name : String} {b : Flow.Body}
    {late : List Slots.Call}
    (h : ∀ c ∈ late, c.PlannedIn (Assemble.plansOf o (Graph.ofBody b))) :
    AllotsBody o name b
      ((start name firstLocalSlot).run (Assemble.plansOf o (Graph.ofBody b) ++ late)) where
  calls := ⟨late, h, rfl⟩
  kinds key slot hslot := by
    rw [((prepared_plansOf h).settled name firstLocalSlot).kinds key slot hslot]
    exact ⟨fun hall target value hs hkey => hall _ (mem_plansOf.2 ⟨target, value, hs, hkey, rfl⟩),
      fun hall kind hplan =>
        have ⟨target, value, hs, hkey, heq⟩ := mem_plansOf.1 hplan
        heq ▸ hall target value hs hkey⟩

/-- A body is assembled with its slots in order, and is not refused because of their kinds. -/
lemma allotsBody {nested : Nested} (hn : nested.Sparing) (o : CompilerOptions) (name : String)
    (b : Flow.Body) (j : Journal) :
    match Assemble.body nested b (.start name o j) with
    | .ok _ z => AllotsBody o name b z.slots
    | .error e z => AllotsBody o name b z.slots ∧ ¬ e.Reboxes := by
  obtain ⟨late, hlate, hbody⟩ := Assemble.assigns_body hn o name b j
  cases hrun : Assemble.body nested b (.start name o j) with
  | ok u z =>
    simp only [hrun] at hbody
    show AllotsBody o name b z.slots
    rw [hbody]
    exact allotsBody_of_planned hlate
  | error e z =>
    simp only [hrun] at hbody
    obtain ⟨hz, hreboxes⟩ := hbody
    refine ⟨by rw [hz]; exact allotsBody_of_planned hlate, fun he => ?_⟩
    obtain ⟨call, ⟨key, kind, rfl, hplan⟩, hanswer⟩ := hreboxes he
    rw [hz, answer_slotFor] at hanswer
    split at hanswer
    · cases hanswer
    case h_2 e' t herror =>
      obtain rfl := (prepared_plansOf hlate).error_eq hplan herror
      cases hanswer
      exact he

/-- By induction on how deep bodies may nest: no unit is refused because a slot for integers is
assigned a value. -/
theorem sparing_unitWithin (o : CompilerOptions) (depth : Nat) :
    Nested.Sparing (unitWithin o depth) := by
  induction depth with
  | zero => exact fun name b j e j' h => nomatch h
  | succ depth ih =>
    intro name b j e j' h
    have hbody := allotsBody ih o name b j
    rw [unitWithin, unitWith] at h
    cases hrun : Assemble.body (unitWithin o depth) b (.start name o j) with
    | ok u z =>
      rw [hrun] at h
      cases h
    | error e' z =>
      rw [hrun] at h hbody
      cases h
      exact hbody.2

end Compiling

/-- **Slots are handed out in the order of first use**, whatever is asked of them, and no slot for
integers is asked to hold a value once all assignments have been planned, as they are in the unit of
every body. -/
theorem Slots.allots :
    (∀ (unit : String) (firstFree : Nat) (cs : List Slots.Call),
      Slots.Allots unit firstFree cs ((Slots.start unit firstFree).run cs)) ∧
    (∀ (unit : String) (firstFree : Nat) (plans calls : List Slots.Call),
      Slots.Prepared plans calls →
      Slots.Settled unit plans ((Slots.start unit firstFree).run (plans ++ calls))) ∧
    (∀ (o : CompilerOptions) (depth : Nat) (name : String) (b : Flow.Body) (j : Journal),
      match Assemble.body (Compiling.unitWithin o depth) b (.start name o j) with
      | .ok _ z => Compiling.AllotsBody o name b z.slots
      | .error e z => Compiling.AllotsBody o name b z.slots ∧ ¬ e.Reboxes) ∧
    (∀ (o : CompilerOptions) (name : String) (b : Flow.Body) (j : Journal) (e : CompileError)
      (k : Journal), Compiling.unit o name b j = .error e k → ¬ e.Reboxes) ∧
    ∀ (o : CompilerOptions) (name : String) (p : Procedure Term) (j : Journal) (e : CompileError)
      (k : Journal), Compiling.function o name p j = .error e k → ¬ e.Reboxes := by
  refine ⟨Slots.allots_run, fun unit firstFree _ _ h => h.settled unit firstFree,
    fun o depth => Compiling.allotsBody (Compiling.sparing_unitWithin o depth) o,
    fun o name b j e k h => Compiling.sparing_unitWithin o _ name b j e k h,
    fun o name p j e k h => ?_⟩
  obtain ⟨name, b, j, k, hb⟩ := Assemble.exists_error_of_functionUnit h
  exact Compiling.sparing_unitWithin o _ name b j e k hb

/-- Plans for a local variable that holds an integer first and then a value, and for a counter. -/
def reassigningPlans : List Slots.Call :=
  [.plan (.local 0) .int, .plan (.local 0) .value, .plan (.temp 1) .int]

/-- What is asked for after these plans. -/
def reassigningCalls : List Slots.Call :=
  [.slotFor (.local 0) .int, .lookup (.local 0), .slotFor (.temp 1) .int]

/-- A body that assigns a local variable an integer first and then something that is refused. -/
def reassigningBody : Flow.Body :=
  [.statement (.assign (.local 0 ⟨"x"⟩) (.int 1)),
    .statement (.assign (.local 0 ⟨"x"⟩) .ellipsis), .statement (.ret (.local 0 ⟨"x"⟩))]

theorem Slots.allots_reassigning :
    Slots.Prepared reassigningPlans reassigningCalls ∧
    (∃ slot, ((Slots.start "f" firstLocalSlot).run (reassigningPlans ++ reassigningCalls)).lookup?
      (.temp 1) = some slot ∧ slot.index = 4 ∧ slot.kind = .int) ∧
    (∃ e k, Compiling.unit {} "f" reassigningBody #[] = .error e k ∧ ¬ e.Reboxes) ∧
    ∃ e k, Compiling.function {} "f" ⟨none, [], reassigningBody⟩ #[] = .error e k ∧
      ¬ e.Reboxes := by
  have hprepared : Slots.Prepared reassigningPlans reassigningCalls := by
    refine ⟨fun key kind h => ?_, fun key kind h => ?_, fun key kind h => ?_⟩
    · simp [reassigningPlans] at h
    · simp only [reassigningCalls, List.mem_cons, Slots.Call.slotFor.injEq, reduceCtorEq,
        List.not_mem_nil, or_false, false_or] at h
      rcases h with ⟨rfl, rfl⟩ | ⟨rfl, rfl⟩ <;> simp [reassigningPlans]
    · simp [reassigningCalls] at h
  have hunit : ∃ e k, Compiling.unit {} "f" reassigningBody #[] = .error e k := ⟨_, _, rfl⟩
  have hfunction : ∃ e k, Compiling.function {} "f" ⟨none, [], reassigningBody⟩ #[] = .error e k :=
    ⟨_, _, rfl⟩
  obtain ⟨e, k, h⟩ := hunit
  obtain ⟨e', k', h'⟩ := hfunction
  refine ⟨hprepared, ?_, ⟨e, k, h, Slots.allots.2.2.2.1 _ _ _ _ e k h⟩,
    ⟨e', k', h', Slots.allots.2.2.2.2 _ _ _ _ e' k' h'⟩⟩
  obtain ⟨kind, hslot⟩ := (Slots.allots.1 "f" firstLocalSlot (reassigningPlans ++
    reassigningCalls)).given 1 (.temp 1) (by decide) (by decide)
  exact ⟨_, hslot, rfl, ((Slots.allots.2.1 "f" firstLocalSlot _ _ hprepared).kinds _ _ hslot).2
    (by simp [reassigningPlans])⟩

end CallByNeed
