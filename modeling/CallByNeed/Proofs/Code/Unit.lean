import CallByNeed.Proofs.Code.Blocks

/-!
# Finished units

What is known of a unit that was made of a body (`Made`): its instructions can be read one after the
other, its tables hold the units of what the body meets, and a run of it follows the graph of the
body (`Made.follows`). This is all that later modules use of the compiler.
-/

namespace CallByNeed

open CallByNeed.Flow (Term Thunk Procedure NodeId CallSite Action Label Exit Block Graph Scene)

/-! ## Following -/

/-- A bounded evaluation follows another one: it is cut off by every bound that cuts off the other
one, and gives the same result as soon as its own bound is large enough. -/
def Follows (R G : Nat → Eval Value) : Prop :=
  ∀ n s, (Exhausts (G n s) → Exhausts (R n s)) ∧
    (¬ Exhausts (G n s) →
      ∃ k, (∀ m ≥ k, Agrees (R m s) (G n s)) ∧ ∀ m < k, Exhausts (R m s))

/-! ## The tables of a unit -/

/-- A unit without code. -/
def CodeUnit.empty : CodeUnit := ⟨"", #[], #[], 0, [], []⟩

/-- A function literal without code. -/
def FunctionOf.empty : FunctionUnit := ⟨"", [], .empty⟩

namespace Assembly

/-- What identities stand for in a unit. -/
def tables (z : Assembly) : Flow.Tables where
  thunk node := ((z.thunks.index? node).bind fun i => z.thunks.units[i]?).getD .empty
  closure node := ((z.closures.index? node).bind fun i => z.closures.units[i]?).getD .empty
  call id :=
    match (z.pool.calls[id]?).bind fun i => z.pool.entries[i]? with
    | some (.call c) => c
    | _ => ⟨.null, []⟩

/-- A unit is executed with its own tables. -/
lemma Links.on {z : Assembly} {u : CodeUnit} (h : z.Links u) (limit : Nat) (host : Host)
    (env : EnvId) : Site.On ⟨⟨limit, host, env, z.tables⟩, u, z.slots⟩ z u where
  unit := rfl
  slots := rfl
  thunk node i t hi ht := by
    rw [h.thunks, Array.getElem?_toList] at ht
    simp [tables, hi, ht]
  closure node i f hi hf := by
    rw [h.closures, Array.getElem?_toList] at hf
    simp [tables, hi, hf]
  call id i c hi hc := by
    rw [h.constants] at hc
    simp [tables, hi, hc]

end Assembly

/-- The listed body of an identity is the first one. -/
lemma Registry.Lists.find {υ β : Type} {r : Registry υ} {key : β → NodeId}
    {made : Nat → β → υ → Prop} {ds : List β} (h : r.Lists key made ds) (node : NodeId) :
    (∃ i d u, ds.findIdx? (fun d => key d = node) = some i ∧ ds[i]? = some d ∧ key d = node ∧
      (r.index? node).bind (fun i => r.units[i]?) = some u ∧ made i d u) ∨
    (ds.findIdx? (fun d => key d = node) = none ∧
      (r.index? node).bind (fun i => r.units[i]?) = none) := by
  cases hi : ds.findIdx? fun d => key d = node with
  | none => exact .inr ⟨rfl, by rw [h.index, hi]; rfl⟩
  | some i =>
    obtain ⟨hlt, hkey, -⟩ := List.findIdx?_eq_some_iff_getElem.1 hi
    have hlt' : i < r.units.size := by rw [h.size]; exact hlt
    have hd := List.getElem?_eq_getElem hlt
    have hu := Array.getElem?_eq_getElem hlt'
    exact .inl ⟨i, ds[i], r.units[i], rfl, hd, by simpa using hkey, by
      rw [h.index, hi, Option.bind_some, hu], h.made i _ _ hd hu⟩

/-! ## Reading a unit from front to back -/

/-- The offsets in `B` are those of instructions that can be read, or the end of the code; execution
does not leave them. -/
structure CodeUnit.Steps (u : CodeUnit) (B : Nat → Prop) : Prop where
  start : B 0
  reads : ∀ p, B p → u.code[p]? = none ∨
    ∃ op, u.code[p]?.bind Opcode.ofByte? = some op ∧
      (u.code.readOperands? op.widths (p + 1)).isSome ∧ B (p + op.size) ∧
      (op.isJump = true → ∀ t, u.code.operand? p 2 0 = some t → B t)

/-- Where sketches begin and end in a finished unit. -/
def Sketch.Boundary (ks : List Sketch) (p : Nat) : Prop :=
  ∃ before after, ks = before ++ after ∧ p = (Sketch.bytes before).length

/-- Execution of a finished unit stays between its sketches. -/
theorem Assembly.Links.steps {z : Assembly} {u : CodeUnit} (h : z.Links u) {ks : List Sketch}
    (hks : z.Draws ks) : u.Steps (Sketch.Boundary ks) where
  start := ⟨[], ks, rfl, rfl⟩
  reads p hp := by
    obtain ⟨before, after, rfl, rfl⟩ := hp
    have hbefore : ∀ k ∈ before, k.Sound := fun k hk => hks.sound k (by simp [hk])
    have hcode := h.code _ hks
    rw [← Sketch.length_linkedBytes z.jumps hbefore]
    cases after with
    | nil =>
      rw [List.append_nil] at hcode
      refine .inl ?_
      rw [← Array.getElem?_toList, hcode]
      simp
    | cons k after =>
      have hk : k.Sound := hks.sound k (by simp)
      have hsplit : u.code.toList = Sketch.linkedBytes z.jumps before ++
          ((k.linked z.jumps).encode ++ Sketch.linkedBytes z.jumps after) := by
        rw [hcode]
        simp [Sketch.linkedBytes]
      obtain ⟨hop, hoperands⟩ := Bytes.reads_of_append _ (hk.shaped_linked z.jumps) hsplit
      refine .inr ⟨(k.linked z.jumps).op, hop, by rw [hoperands]; rfl,
        ⟨before ++ [k], after, by simp, ?_⟩, fun hjump t ht => ?_⟩
      · rw [Sketch.length_linkedBytes z.jumps hbefore, Sketch.bytes, Sketch.bytes,
          List.flatMap_append, List.length_append, Sketch.linked_op,
          ← hk.shaped_raw.length_encode]
        simp
      · rw [Sketch.length_linkedBytes z.jumps hbefore] at ht
        cases k with
        | plain i =>
          have hplain : i.op.isJump = false := hk.2
          rw [Sketch.linked_op] at hjump
          exact absurd hjump (by simp [Sketch.raw, hplain])
        | jump op m =>
          obtain ⟨target, htarget, hlt⟩ := h.bound _ hks op m (by simp)
          have hwidths : op.widths = [2] := Opcode.widths_of_isJump hk
          have hlinked : (Sketch.jump op m).linked z.jumps = ⟨op, [target]⟩ := by
            rw [Sketch.linked, htarget, Option.getD_some]
          have hholds : u.code.Holds (Sketch.bytes before).length ⟨op, [target]⟩ := by
            rw [← Sketch.length_linkedBytes z.jumps hbefore, ← hlinked]
            refine Bytes.holds_of_append (Sketch.linkedBytes z.jumps after) ?_ (by
              rw [hcode]; simp [Sketch.linkedBytes])
            rw [hlinked, Instruction.Fits, hwidths]
            exact .cons hlt .nil
          rw [hholds.operand hwidths] at ht
          cases ht
          exact hks.marks m t htarget

/-! ## Units of bodies -/

/-- The code of a unit ends where emitting has stopped. -/
lemma Assembly.Links.size {z : Assembly} {u : CodeUnit} (h : z.Links u) :
    u.code.size = z.position := by
  obtain ⟨ks, hks⟩ := h.sound.draws
  rw [hks.position, ← Sketch.length_linkedBytes z.jumps hks.sound, ← h.code ks hks,
    Array.length_toList]

/-- What the code of a body meets. -/
def Flow.Body.visits (b : Flow.Body) : List Visit :=
  ((Graph.ofBody b).flatMap Block.statements).flatMap Flow.Statement.visits

/-- The unit was made of a body and taken from the assembly `z`. -/
structure Made (nested : Nested) (name : String) (b : Flow.Body) (z : Assembly) (u : CodeUnit) :
    Prop where
  links : z.Links u
  name : z.unit = name
  lists : z.Lists nested (Notes.addAll {} b.visits)
  binds : z.Binds ((Graph.ofBody b).flatMap Block.labels)
  /-- Whatever holds of laying out the graph holds of the whole unit. -/
  lays : ∀ vs ls S, Lays nested vs ls (Assemble.blocks nested (Graph.ofBody b)) S →
    S 0 z.position z u

/-- The blocks are laid out from the start on. -/
lemma Made.laid {nested : Nested} {name : String} {b : Flow.Body} {z : Assembly} {u : CodeUnit}
    (h : Made nested name b z u) :
    ∃ starts, Laid (Graph.ofBody b) starts z u ∧ starts[0]? = some 0 := by
  obtain ⟨starts, hlaid, hstart⟩ := h.lays _ _ _ (Lays.blocks _)
  exact ⟨starts, hlaid, hstart (Graph.ofBody_ne_nil b)⟩

/-- Planning changes neither the slots handed out nor where they begin. -/
lemma Assemble.planSlots_eq (options : CompilerOptions) (s : Slots) (g : Graph) :
    ∃ boxed, Assemble.planSlots options s g = { s with boxed } := by
  have hstatement : ∀ (s : Slots) (st : Flow.Statement Term),
      ∃ boxed, Assemble.planStatement options s st = { s with boxed } := by
    intro s st
    have hplan : ∀ key kind, ∃ boxed, s.plan key kind = { s with boxed } := by
      intro key kind
      cases kind with
      | int => exact ⟨s.boxed, rfl⟩
      | value =>
        by_cases hkey : s.boxed.contains key
        · exact ⟨s.boxed, if_pos hkey⟩
        · exact ⟨_, if_neg hkey⟩
    cases st with
    | assign target value =>
      unfold Assemble.planStatement
      dsimp only
      cases target.slotKey? with
      | none => exact ⟨s.boxed, rfl⟩
      | some key => exact hplan key _
    | _ => exact ⟨s.boxed, rfl⟩
  have hstatements : ∀ (ss : List (Flow.Statement Term)) (s : Slots),
      ∃ boxed, ss.foldl (Assemble.planStatement options) s = { s with boxed } := by
    intro ss
    induction ss with
    | nil => exact fun s => ⟨s.boxed, rfl⟩
    | cons st ss ih =>
      intro s
      obtain ⟨boxed, hb⟩ := hstatement s st
      obtain ⟨boxed', hb'⟩ := ih (Assemble.planStatement options s st)
      exact ⟨boxed', by rw [List.foldl_cons, hb', hb]⟩
  unfold Assemble.planSlots
  induction g generalizing s with
  | nil => exact ⟨s.boxed, rfl⟩
  | cons b g ih =>
    obtain ⟨boxed, hb⟩ := hstatements b.statements s
    obtain ⟨boxed', hb'⟩ := ih (b.statements.foldl (Assemble.planStatement options) s)
    exact ⟨boxed', by rw [List.foldl_cons, hb', hb]⟩

/-- Reporting adds to the journal only. -/
lemma Assemble.reportUnreachable_eq (ss : List (Flow.Statement Term)) (a : Assembly) :
    ∃ journal, Assemble.reportUnreachable ss a = .ok () { a with journal } := by
  induction ss generalizing a with
  | nil => exact ⟨a.journal, rfl⟩
  | cons s ss ih =>
    obtain ⟨journal, h⟩ := ih { a with
      journal := a.journal.push ⟨.debug, s!"dropping unreachable statement `{s.text}`"⟩ }
    exact ⟨journal, h⟩

/-- Nothing has been emitted yet. -/
lemma Assembly.sound_start {a : Assembly} {name : String} {options : CompilerOptions}
    {journal journal' : Journal} {boxed : List Flow.SlotKey}
    (ha : a = { Assembly.start name options journal with
      journal := journal', slots := { unit := name, firstFree := firstLocalSlot, boxed } }) :
    a.Sound ∧ a.Binds [] ∧ (∀ nested, a.Lists nested {}) ∧ a.position = 0 := by
  subst ha
  have hnone : ∀ i : Nat, (∅ : Std.TreeMap Nat Nat)[i]? = none := fun i => by simp
  have hname : ∀ i : String, (∅ : Std.TreeMap String Nat)[i]? = none := fun i => by simp
  have hmark : ∀ m, ({} : Jumps).position? m = none := fun m => by simp [Jumps.position?]
  have hindex : ∀ {υ : Type} node, ({} : Registry υ).index? node = none := fun node => hnone node.id
  refine ⟨{
    draws := ⟨[], rfl, rfl, fun k h => absurd h List.not_mem_nil, fun m t h => ?_⟩
    pool := ⟨Nat.zero_le _, fun s i h => ?_, fun s i h => ?_, fun s i h => ?_⟩
    slots := ⟨rfl, fun i key slot h => ?_, (by decide : firstLocalSlot + 0 ≤ maxSlots)⟩
    thunks := ⟨Nat.zero_le _, fun node i h => ?_⟩
    closures := ⟨Nat.zero_le _, fun node i h => ?_⟩
    jumps := ⟨fun id i h => ?_, fun id id' i h => ?_⟩ }, fun id i t h => ?_, fun nested => {
    thunks := ⟨rfl, hindex, fun i d u h _ => ?_⟩
    closures := ⟨rfl, hindex, fun i d f h _ => ?_⟩
    sites := fun id => ?_ }, rfl⟩
  · cases (hmark m).symm.trans h
  · cases (hname s).symm.trans h
  · cases (hname s).symm.trans h
  · cases (hnone s).symm.trans h
  · cases h
  · cases (hindex node).symm.trans h
  · cases (hindex node).symm.trans h
  · cases (hnone id).symm.trans h
  · cases (hnone id).symm.trans h
  · cases (hnone id).symm.trans h
  · cases h
  · cases h
  · show ((∅ : Std.TreeMap Nat Nat)[id]?).bind _ = none
    rw [hnone, Option.bind_none]

/-- Assembling a body makes a unit of it. -/
theorem Assemble.made_of_body {nested : Nested} {name : String} {options : CompilerOptions}
    {journal : Journal} {b : Flow.Body} {u : CodeUnit} {a' : Assembly}
    (h : Assemble.body nested b (.start name options journal) = .ok u a') :
    ∃ z, Made nested name b z u := by
  unfold Assemble.body at h
  obtain ⟨journal', hreport⟩ :=
    Assemble.reportUnreachable_eq (Graph.unreachable b) (.start name options journal)
  obtain ⟨boxed, hplan⟩ := Assemble.planSlots_eq options
    { unit := name, firstFree := firstLocalSlot } (Graph.ofBody b)
  let a : Assembly := { Assembly.start name options journal with
    journal := journal', slots := { unit := name, firstFree := firstLocalSlot, boxed } }
  obtain ⟨hsound, hbinds, hlists, hposition⟩ := Assembly.sound_start (a := a) rfl
  have hrun : (do
      Assemble.blocks nested (Graph.ofBody b)
      Assemble.finish : Assemble CodeUnit) a = .ok u a' := by
    rw [Assemble.bind_apply, hreport] at h
    have hplanned : a = { Assembly.start name options journal with
        journal := journal'
        slots := Assemble.planSlots options
          (Slots.mk name firstLocalSlot [] []) (Graph.ofBody b) } := by
      rw [hplan]
    rw [hplanned]
    exact h
  rw [Assemble.bind_apply] at hrun
  cases hblocks : Assemble.blocks nested (Graph.ofBody b) a with
  | error e z =>
    rw [hblocks] at hrun
    cases hrun
  | ok x z =>
    rw [hblocks] at hrun
    obtain ⟨⟨hext, hz, hbound, hnotes⟩, -⟩ := Lays.blocks (Graph.ofBody b) a x z hblocks hsound
    have hlinks := hz.links hrun
    refine ⟨z, ⟨hlinks, hext.unit, hnotes _ (hlists nested), ?_, fun vs ls S hS => ?_⟩⟩
    · have := hbound [] hbinds
      rwa [List.nil_append] at this
    · rw [← hposition]
      exact (hS a x z hblocks hsound).2 z u hlinks (.refl z)

/-! ## Function literals -/

section

variable {α β γ : Type} {R : α → β → Prop} {S : α → γ → Prop} {T : β → γ → Prop}

/-- Lists that are both related to a third one are related to each other. -/
lemma forall₂_of_common {xs : List α} {ys : List β} {zs : List γ} (h : List.Forall₂ R xs ys)
    (h' : List.Forall₂ S xs zs) (hT : ∀ x ∈ xs, ∀ y z, R x y → S x z → T y z) :
    List.Forall₂ T ys zs := by
  induction h generalizing zs with
  | nil =>
    cases h'
    exact .nil
  | cons hxy _ ih =>
    cases h' with
    | cons hxz h' =>
      exact .cons (hT _ List.mem_cons_self _ _ hxy hxz)
        (ih h' fun x hx => hT x (List.mem_cons_of_mem _ hx))

/-- What stands for something in two ways, if anything does. -/
lemma optionRel_of_common {x : Option α} {y : Option β} {z : Option γ} (h : Option.Rel R x y)
    (h' : Option.Rel S x z) (hT : ∀ a, x = some a → ∀ b c, R a b → S a c → T b c) :
    Option.Rel T y z := by
  cases h with
  | none =>
    cases h'
    exact .none
  | some h =>
    cases h' with
    | some h' => exact .some (hT _ rfl _ _ h h')

end

/-- The formal of a unit that was made of a formal in flow form. -/
structure MadeFormal (nested : Nested) (owner : String) (x : Formal Thunk) (y : Formal CodeUnit) :
    Prop where
  name : y.name = x.name
  default : Option.Rel (fun (d : Thunk) u => ∃ j j',
    nested s!"{owner}$default_{x.name.name}" d.body j = .ok u j') x.default y.default

/-- The function unit was made of a function literal in flow form. -/
structure MadeFunction (nested : Nested) (owner : String) (p : Procedure Term)
    (f : FunctionUnit) : Prop where
  name : f.name = owner
  formals : List.Forall₂ (MadeFormal nested owner) p.formals f.formals
  body : ∃ j j', nested owner p.body j = .ok f.body j'

namespace Assemble

variable {nested : Nested} {name : String} {j j' : Journal}

/-- One step that needs the journal only after the other. -/
lemma nested_bind_apply {α β : Type} (c : EStateM CompileError Journal α)
    (g : α → EStateM CompileError Journal β) (j : Journal) :
    (c >>= g) j = match c j with
      | .ok x j => g x j
      | .error e j => .error e j := by
  show EStateM.bind c g j = _
  unfold EStateM.bind
  cases c j <;> rfl

lemma madeFormal_of_eq_ok {x : Formal Thunk} {y : Formal CodeUnit}
    (h : defaultUnit nested name x j = .ok y j') : MadeFormal nested name x y := by
  unfold defaultUnit at h
  cases hd : x.default with
  | none =>
    rw [hd] at h
    cases h
    exact ⟨rfl, by rw [hd]; exact .none⟩
  | some d =>
    rw [hd] at h
    simp only [nested_bind_apply] at h
    cases hu : nested s!"{name}$default_{x.name.name}" d.body j with
    | error e j =>
      rw [hu] at h
      cases h
    | ok u k =>
      rw [hu] at h
      cases h
      exact ⟨rfl, by rw [hd]; exact .some ⟨j, j', hu⟩⟩

/-- A function unit is made of its formals and its body. -/
lemma madeFunction_of_eq_ok {p : Procedure Term} {f : FunctionUnit}
    (h : functionUnit nested name p j = .ok f j') : MadeFunction nested name p f := by
  have hformals : ∀ (xs : List (Formal Thunk)) (ys : List (Formal CodeUnit)) (j j' : Journal),
      xs.mapM (defaultUnit nested name) j = .ok ys j' →
      List.Forall₂ (MadeFormal nested name) xs ys := by
    intro xs
    induction xs with
    | nil =>
      intro ys j j' h
      cases h
      exact .nil
    | cons x xs ih =>
      intro ys j j' h
      simp only [List.mapM_cons, nested_bind_apply] at h
      cases hy : defaultUnit nested name x j with
      | error e k =>
        rw [hy] at h
        cases h
      | ok y k =>
        rw [hy] at h
        dsimp only at h
        cases hys : xs.mapM (defaultUnit nested name) k with
        | error e k =>
          rw [hys] at h
          cases h
        | ok zs k =>
          rw [hys] at h
          cases h
          exact .cons (madeFormal_of_eq_ok hy) (ih _ _ _ hys)
  unfold functionUnit at h
  simp only [nested_bind_apply] at h
  cases hxs : p.formals.mapM (defaultUnit nested name) j with
  | error e k =>
    rw [hxs] at h
    cases h
  | ok ys k =>
    rw [hxs] at h
    dsimp only at h
    cases hu : nested name p.body k with
    | error e k =>
      rw [hu] at h
      cases h
    | ok u k' =>
      rw [hu] at h
      cases h
      exact ⟨rfl, hformals _ _ _ _ hxs, k, j', hu⟩

end Assemble

/-! ## Executing a unit -/

/-- At the start of a unit nothing is assigned. -/
lemma Assembly.Links.holds_start {z : Assembly} {u : CodeUnit} (h : z.Links u) (env : EnvId) :
    Holds z.slots env .empty (Machine.start u env).slots := by
  have hsize : ∀ i, (Machine.start u env).slots[i]?
      = if environmentSlot = i then some (.env env)
        else if contextSlot = i then some .context
        else if i < max u.slots firstLocalSlot then some .empty else none := by
    intro i
    have hlt : firstLocalSlot ≤ max u.slots firstLocalSlot := Nat.le_max_right ..
    unfold Machine.start
    simp only [Array.getElem?_setIfInBounds, Array.size_setIfInBounds, Array.size_replicate,
      Array.getElem?_replicate]
    unfold firstLocalSlot workSlot at hlt
    unfold firstLocalSlot environmentSlot contextSlot workSlot
    split
    · rw [if_pos (by omega)]
    · split
      · rw [if_pos (by omega)]
      · rfl
  have hlt : firstLocalSlot ≤ max u.slots firstLocalSlot := Nat.le_max_right ..
  refine ⟨?_, ?_, ?_, fun key slot hl => ⟨.empty, ?_, .empty _⟩⟩
  · rw [hsize]
    rfl
  · rw [hsize]
    rfl
  · rw [hsize, if_neg (by decide), if_neg (by decide), if_pos]
    · rfl
    · exact Nat.lt_of_lt_of_le (Nat.lt_succ_self workSlot) hlt
  · obtain ⟨hfirst, hlast⟩ := h.sound.slots.range hl
    rw [← h.slots] at hlast
    have hmax : u.slots ≤ max u.slots firstLocalSlot := Nat.le_max_left ..
    unfold firstLocalSlot workSlot at hfirst
    rw [hsize, if_neg (by unfold environmentSlot; omega), if_neg (by unfold contextSlot; omega),
      if_pos (by omega)]

/-- A run of the unit of a body follows the graph of the body. -/
theorem Made.follows {nested : Nested} {name : String} {b : Flow.Body} {z : Assembly}
    {u : CodeUnit} (h : Made nested name b z u) (limit : Nat) (host : Host) (env : EnvId) :
    Follows (fun n => Machine.run ⟨limit, false⟩ host u env n (.start u env))
      (Scene.graph ⟨limit, host, env, z.tables⟩ (Graph.ofBody b)) := by
  obtain ⟨starts, hlaid, hstart⟩ := h.laid
  have hX := h.links.on limit host env
  have hF := h.links.holds_start env
  have hclosed := Graph.closed_ofBody b
  intro n s
  have hends := hlaid.ends h.binds hclosed hX n hstart (s := s) hF
  have hexhausts := hlaid.exhausts h.binds hclosed hX n hstart (s := s) hF
  unfold Scene.graph
  cases hr : Flow.Scene.blocks ⟨limit, host, env, z.tables⟩ (Graph.ofBody b) n 0 .empty s with
  | ok r s' =>
    rw [hr] at hends
    obtain ⟨k, hk, hlow⟩ := hends (by rintro ⟨_, ⟨⟩⟩)
    exact ⟨by rintro ⟨_, ⟨⟩⟩, fun _ => ⟨k, hk, hlow⟩⟩
  | error e s' =>
    rw [hr] at hends hexhausts
    refine ⟨?_, fun hne => ?_⟩
    · rintro ⟨_, ⟨⟩⟩
      exact hexhausts ⟨_, rfl⟩
    · obtain ⟨k, hk, hlow⟩ := hends (by
        rintro ⟨_, ⟨⟩⟩
        exact hne ⟨_, rfl⟩)
      exact ⟨k, hk, hlow⟩

/-- Execution of a unit that was made of a body stays between its instructions. -/
lemma Made.steps {nested : Nested} {name : String} {b : Flow.Body} {z : Assembly} {u : CodeUnit}
    (h : Made nested name b z u) : ∃ B, u.Steps B := by
  obtain ⟨ks, hks⟩ := h.links.sound.draws
  exact ⟨_, h.links.steps hks⟩

/-- A unit that is compiled was made of its body. -/
lemma Compiling.made_of_unitWithin {o : CompilerOptions} {depth : Nat} {name : String}
    {b : Flow.Body} {u : CodeUnit} {j k : Journal}
    (h : unitWithin o (depth + 1) name b j = .ok u k) :
    ∃ z, Made (unitWithin o depth) name b z u := by
  unfold unitWithin unitWith at h
  cases hbody : Assemble.body (unitWithin o depth) b (.start name o j) with
  | error e a =>
    rw [hbody] at h
    cases h
  | ok v a =>
    rw [hbody] at h
    cases h
    exact Assemble.made_of_body hbody

end CallByNeed
