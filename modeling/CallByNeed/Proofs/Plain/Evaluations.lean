import CallByNeed.Proofs.Plain.Rules

/-!
# Special forms, expressions as written, and promises

Special forms, the evaluation of expressions as written, and the forcing of promises are orderly: one
rule for each (`Conducts.invoke`, `Conducts.eval`, `Conducts.forcePromise`).
-/

namespace CallByNeed

variable {α β ι : Type} {limit : Nat} {s₀ s t : Store} {r : Rank} {C : Contract} {env : EnvId}
  {size : ℕ∞} {call : Call} {fs : Frames}

/-! ## Sizes -/

lemma Expr.sizeOf_pos (e : Expr) : 0 < sizeOf e := by
  cases e <;> simp

lemma Expr.sizeOf_callee (callee : Expr) (args : List (Arg Expr)) :
    sizeOf callee < sizeOf (Expr.call callee args) := by
  simp
  omega

lemma Expr.sizeOf_arg {callee : Expr} {args : List (Arg Expr)} {a : Arg Expr} (ha : a ∈ args) :
    sizeOf a.value < sizeOf (Expr.call callee args) := by
  have hmem := List.sizeOf_lt_of_mem ha
  have hvalue : sizeOf a.value < sizeOf a := by
    cases a
    simp
  simp
  omega

section

variable [Inherited]

namespace Store.Changes

variable {v : Value} {args : ArgList}

lemma plainIn (h : s.Changes fs t) (hs : s.Proper) (hv : v.PlainIn s) : v.PlainIn t :=
  hv.mono (h.leads hs).before.environments

lemma lazy (h : s.Changes fs t) (hs : s.Proper) (hargs : ArgList.Lazy s env args) :
    ArgList.Lazy t env args := hargs.mono (h.leads hs).before (Nat.le_refl _)

end Store.Changes

namespace Conducts

variable {v : Value} {name : Symbol} {e : Expr}

/-- An expression that is small enough. -/
lemma evaluate (h : Room limit s₀ r env size s) (he : (sizeOf e : Nat) < size) :
    Conducts (.orderly limit s₀ r) s (fun H => H (.eval env e)) Value.PlainIn :=
  .ask (h.may_eval he)

/-! ## Special forms -/

lemma operand (f : Special) (i : Nat) (hcall : ∀ a ∈ call.args, (sizeOf a.value : Nat) < size) :
    Conducts C s (fun _ => f.operand call i) fun e _ => (sizeOf e : Nat) < size := by
  unfold Special.operand
  cases he : call.arg? i with
  | none => exact fail _
  | some e =>
    obtain ⟨a, ha, rfl⟩ := Option.map_eq_some_iff.1 he
    exact .pure (hcall a (List.mem_of_getElem? ha))

lemma assignmentTarget : Conducts C s (fun _ => Special.assignmentTarget e) fun _ _ => True := by
  cases e with
  | symbol | str => exact .pure trivial
  | _ => exact fail _

lemma sequence : ∀ {args : List (Arg Expr)} {s : Store} {last : Value},
    Room limit s₀ r env size s → last.PlainIn s → (∀ a ∈ args, (sizeOf a.value : Nat) < size) →
      Conducts (.orderly limit s₀ r) s (fun H => Special.sequence H env last args) Value.PlainIn
  | [], _, _, _, hlast, _ => .pure hlast
  | a :: args, s, last, h, _, hargs => by
    obtain ⟨ha, hargs⟩ := List.forall_mem_cons.1 hargs
    exact h.bind (evaluate h ha) fun v t fs _ h hv => sequence h hv hargs

lemma iterate {values : Value} {body : Expr} (hbody : (sizeOf body : Nat) < size) :
    ∀ {count index : Nat} {s : Store}, Room limit s₀ r env size s → values.PlainIn s →
      Conducts (.orderly limit s₀ r) s
        (fun H => Special.iterate H env name values body count index) fun _ _ => True
  | 0, _, _, _, _ => .pure trivial
  | count + 1, index, s, h, hvalues => by
    unfold Special.iterate
    cases hi : Value.int32? index with
    | none => exact fail _
    | some i =>
      have helement : Conducts (.orderly limit s₀ r) s
          (fun _ => Eval.ofExcept (values.elementAt i)) Value.PlainIn :=
        ofExcept fun v hv => hvalues.elementAt hv
      refine h.bind helement fun v m fs hm h' hv => ?_
      have hvalues := hm.plainIn h.proper hvalues
      refine h'.bind (setVariable hv) fun _ m' fs hm' h'' _ => ?_
      have hvalues := hm'.plainIn h'.proper hvalues
      exact h''.bind (evaluate h'' hbody) fun _ t fs ht h _ =>
        iterate hbody h (ht.plainIn h''.proper hvalues)

/-- A special form. -/
theorem invoke (h : Room limit s₀ r env size s)
    (hcall : ∀ a ∈ call.args, (sizeOf a.value : Nat) < size) (f : Special) :
    Conducts (.orderly limit s₀ r) s (fun H => f.invoke H env call) Value.PlainIn := by
  cases f with
  | quote => exact (operand .quote 0 hcall).bind fun e _ _ _ _ => .pure (Value.plain_ofExpr e)
  | cond =>
    refine h.bind (operand .cond 0 hcall) fun e t fs _ h he => ?_
    refine h.bind (evaluate h he) fun v t fs _ h _ => ?_
    refine h.bind (Q := fun _ _ => True) (ofExcept fun _ _ => trivial) fun b t fs _ h _ => ?_
    cases b with
    | true => exact h.bind (operand .cond 1 hcall) fun e t fs _ h he => evaluate h he
    | false =>
      cases hno : call.arg? 2 with
      | none => exact .pure trivial
      | some no =>
        obtain ⟨a, ha, rfl⟩ := Option.map_eq_some_iff.1 hno
        exact evaluate h (hcall a (List.mem_of_getElem? ha))
  | block => exact sequence h trivial hcall
  | assign =>
    refine h.bind (operand .assign 0 hcall) fun e t fs _ h _ => ?_
    refine h.bind assignmentTarget fun name t fs _ h _ => ?_
    refine h.bind (operand .assign 1 hcall) fun e t fs _ h he => ?_
    refine h.bind (evaluate h he) fun v t fs _ h hv => ?_
    exact h.bind (setVariable hv) fun _ _ _ ht _ _ => .pure (ht.plainIn h.proper hv)
  | loop =>
    refine h.bind (operand .loop 0 hcall) fun e t fs _ h _ => ?_
    cases e with
    | symbol name =>
      refine h.bind (operand .loop 1 hcall) fun e t fs _ h he => ?_
      refine h.bind (evaluate h he) fun v t fs _ h hv => ?_
      refine h.bind (operand .loop 2 hcall) fun body t fs ht h' hbody => ?_
      exact (iterate hbody h' (ht.plainIn h.proper hv)).bind fun _ _ _ _ _ => .pure trivial
    | _ => exact fail _

/-! ## Lists -/

/-- Evaluations for the entries of a list, from stores of which something is true that stays true. -/
lemma mapM {I : Store → Prop} {Q : β → Store → Prop} {f : Host → α → Eval β}
    (hI : ∀ {s t fs}, I s → s.Changes fs t → I t)
    (hQ : ∀ {b s t fs}, I s → s.Changes fs t → Q b s → Q b t) :
    ∀ {l : List α} {s : Store}, I s → (∀ a ∈ l, ∀ s, I s → Conducts C s (fun H => f H a) Q) →
      Conducts C s (fun H => l.mapM (f H)) fun (bs : List β) t => ∀ b ∈ bs, Q b t
  | [], _, _, _ => .pure fun _ hb => absurd hb List.not_mem_nil
  | a :: l, s, hs, hf => by
    obtain ⟨ha, hl⟩ := List.forall_mem_cons.1 hf
    simp only [List.mapM_cons]
    refine (ha s hs).bind fun b m fs hm hb => ?_
    have hm := hI hs hm
    exact (mapM (Q := Q) hI hQ hm hl).bind fun bs t fs ht hbs =>
      .pure (List.forall_mem_cons.2 ⟨hQ hm ht hb, hbs⟩)

/-- Something for each of several arguments once it is forced. -/
lemma mapM_force {args : ArgList} {Q : β → Store → Prop} {f : Arg Value → Value → β}
    (h : Room limit s₀ r env size s) (hsize : 0 < size) (hargs : ArgList.Lazy s env args)
    (hQ : ∀ {b s t fs}, s.Proper → s.Changes fs t → Q b s → Q b t)
    (hf : ∀ d (v : Value) t, v.PlainIn t → Q (f d v) t) :
    Conducts (.orderly limit s₀ r) s (fun H => args.mapM fun d => do return f d (← H.force d.value))
      fun (bs : List β) t => ∀ b ∈ bs, Q b t := by
  refine mapM (Q := Q) (I := fun s => Room limit s₀ r env size s ∧ ArgList.Lazy s env args)
    (fun hs ht => ⟨hs.1.changes ht, ht.lazy hs.1.proper hs.2⟩) (fun hs ht => hQ hs.1.proper ht)
    ⟨h, hargs⟩ fun d hd s hs => ?_
  exact (force hs.1 hsize (hs.2 d hd)).bind fun v t fs _ hv => .pure (hf d v t hv)

end Conducts

end

/-! ## Expressions as written -/

/-- The values of the arguments are ordinary. -/
def ArgList.PlainIn (args : ArgList) (s : Store) : Prop := ∀ a ∈ args, a.value.PlainIn s

lemma forall_mem_flatten {P : β → Prop} {ls : List (List β)} (h : ∀ l ∈ ls, ∀ b ∈ l, P b) :
    ∀ b ∈ ls.flatten, P b := fun b hb => by
  obtain ⟨l, hl, hb⟩ := List.mem_flatten.1 hb
  exact h l hl b hb

section

variable [Inherited]

/-- The arguments may be bound in an environment that is made next. -/
def ArgList.LazyIn (args : ArgList) (s : Store) : Prop := ArgList.Lazy s s.environments.size args

namespace ArgList

variable {args : ArgList}

lemma PlainIn.changes (h : s.Changes fs t) (hs : s.Proper) (hargs : args.PlainIn s) :
    args.PlainIn t := fun a ha => h.plainIn hs (hargs a ha)

lemma LazyIn.changes (h : s.Changes fs t) (hs : s.Proper) (hargs : args.LazyIn s) :
    args.LazyIn t :=
  ArgList.Lazy.mono (h.leads hs).before (h.leads hs).before.environments hargs

end ArgList

namespace Conducts

variable {a : Arg Expr} {v : Value}

/-- A function literal is compiled. -/
lemma closure (f : Function) (henv : env < s.environments.size) :
    Conducts C s (fun _ => Interpreter.closure env f) Value.PlainIn := by
  refine of_yields ?_
  unfold Interpreter.closure
  cases hf : Compiling.functionLiteral {} .counting none "closure" f #[] with
  | ok g notes =>
    exact .ok (.note s _) ⟨⟨_, f, Compiling.compiledLiteral_of_functionLiteral hf⟩, henv⟩
  | error e notes => exact .error (.note s _)

/-- The function that a call is of. -/
lemma callee (h : Room limit s₀ r env size s) (hcallee : (sizeOf call.callee : Nat) < size) :
    Conducts (.orderly limit s₀ r) s (fun H => Interpreter.callee H env call) Value.PlainIn := by
  have hsize : 0 < size := lt_of_le_of_lt zero_le hcallee
  have hcallable : ∀ {s : Store} {v : Value}, v.PlainIn s →
      Conducts (.orderly limit s₀ r) s (fun _ => Interpreter.callee.callable call v)
        Value.PlainIn := by
    intro s v hv
    unfold Interpreter.callee.callable
    split
    · exact .pure hv
    · exact fail _
  have hcomputed : Conducts (.orderly limit s₀ r) s
      (fun H => H (.eval env call.callee) >>= Interpreter.callee.callable call) Value.PlainIn :=
    (evaluate h hcallee).bind fun v t fs _ hv => hcallable hv
  unfold Interpreter.callee
  cases call.name? with
  | none => exact hcomputed
  | some name =>
    dsimp only
    split
    · exact hcomputed
    · exact findFunction h hsize

/-- An argument of a builtin. -/
lemma argumentValues (h : Room limit s₀ r env size s) (ha : (sizeOf a.value : Nat) < size) :
    Conducts (.orderly limit s₀ r) s (fun H => Interpreter.argumentValues H env a)
      ArgList.PlainIn := by
  have hsize : 0 < size := lt_of_le_of_lt zero_le ha
  unfold Interpreter.argumentValues
  split
  · refine h.bind (findDots h.proper) fun dots t fs _ h hdots => ?_
    exact mapM_force (Q := fun (b : Arg Value) t => b.value.PlainIn t) h hsize hdots
      (fun hs ht hb => ht.plainIn hs hb) fun _ _ _ hv => hv
  · exact (evaluate h ha).bind fun v t fs _ hv =>
      .pure (List.forall_mem_singleton.2 hv)

/-- An argument of a closure. -/
lemma argumentPromises (h : Room limit s₀ r env size s) :
    Conducts (.orderly limit s₀ r) s (fun _ => Interpreter.argumentPromises env a)
      ArgList.LazyIn := by
  unfold Interpreter.argumentPromises
  split
  · exact (findDots h.proper).mono fun dots t fs ht hdots =>
      hdots.mono (.refl t) (Nat.le_of_lt (h.changes ht).inside)
  · rename_i hellipsis
    split
    · exact .pure (List.forall_mem_singleton.2 (.plain (Value.plain_ofExpr _)))
    · have hpromise : ∀ x : Suspension, x.Proper s → (∀ env', x.env? = some env' → env' ≤ env) →
          Conducts (.orderly limit s₀ r) s
            (fun _ => do return [⟨a.name, ← Eval.promise x⟩]) ArgList.LazyIn := fun x hx hbelow =>
        (promise hx h.inside hbelow).bind fun v t fs _ hv =>
          .pure (List.forall_mem_singleton.2 hv)
      split
      · rename_i name hname
        refine hpromise (.variable name env) ⟨?_, h.inside⟩ fun env' he =>
          Nat.le_of_eq (Option.some.inj he).symm
        rw [hname] at hellipsis
        simpa [Expr.isEllipsis] using hellipsis
      · exact hpromise (.interpreted _ env) h.inside fun env' he =>
          Nat.le_of_eq (Option.some.inj he).symm

/-- The arguments of a builtin. -/
lemma values (h : Room limit s₀ r env size s)
    (hargs : ∀ a ∈ call.args, (sizeOf a.value : Nat) < size) :
    Conducts (.orderly limit s₀ r) s
      (fun H => call.args.mapM (Interpreter.argumentValues H env))
      fun args t => ArgList.PlainIn args.flatten t :=
  (mapM (I := fun s => Room limit s₀ r env size s) (Q := ArgList.PlainIn)
    (fun hs ht => hs.changes ht) (fun hs ht => .changes ht hs.proper) h
    fun a ha _ hs => argumentValues hs (hargs a ha)).mono fun _ _ _ _ h => forall_mem_flatten h

/-- The arguments of a closure. -/
lemma promises (h : Room limit s₀ r env size s) :
    Conducts (.orderly limit s₀ r) s (fun _ => call.args.mapM (Interpreter.argumentPromises env))
      fun args t => ArgList.LazyIn args.flatten t :=
  (mapM (I := fun s => Room limit s₀ r env size s) (Q := ArgList.LazyIn)
    (fun hs ht => hs.changes ht) (fun hs ht => .changes ht hs.proper) h
    fun _ _ _ hs => argumentPromises hs).mono fun _ _ _ _ h => forall_mem_flatten h

/-- A call that is evaluated as written. -/
lemma apply (h : Room limit s₀ r env size s) (hcallee : (sizeOf call.callee : Nat) < size)
    (hargs : ∀ a ∈ call.args, (sizeOf a.value : Nat) < size) :
    Conducts (.orderly limit s₀ r) s (fun H => Interpreter.apply limit H env call)
      Value.PlainIn := by
  unfold Interpreter.apply
  refine h.bind (callee h hcallee) fun v t fs _ h hv => ?_
  cases v with
  | builtin b =>
    refine h.bind (values h hargs) fun args t fs _ h hvalues => ?_
    dsimp only
    cases hv : b.invoke call (args.flatten.map Arg.name) (args.flatten.map Arg.value) with
    | error e => exact throw e
    | ok v =>
      refine .pure (Builtin.plain_of_invoke (fun w hw => ?_) hv)
      obtain ⟨a, ha, rfl⟩ := List.mem_map.1 hw
      exact hvalues a ha
  | closure f closureEnv =>
    refine h.bind (promises h) fun args t' fs ht h' hlazy => ?_
    obtain ⟨hf, henv⟩ := ht.plainIn h.proper hv
    exact applyClosure h' hf henv hlazy
  | special f => exact invoke h hargs f
  | _ => exact fail _

/-- **Evaluating an expression as written is orderly.** -/
theorem eval {e : Expr} (hs : ∃ fs, s₀.Reached fs s) (henv : env < s.environments.size) :
    Conducts (.orderly limit s₀ ((Task.eval env e).rank limit s)) s
      (fun H => Interpreter.eval limit H env e) Value.PlainIn := by
  have h : Room limit s₀ ((Task.eval env e).rank limit s) env (sizeOf e : Nat) s :=
    ⟨hs, henv, le_refl _⟩
  cases e with
  | symbol name =>
    cases hname : name.isEllipsis with
    | true =>
      simp only [Interpreter.eval, hname, if_true]
      exact fail _
    | false =>
      simp only [Interpreter.eval, hname, Bool.false_eq_true, if_false]
      exact lookup h (by exact_mod_cast Expr.sizeOf_pos _) hname
  | function formals body => exact closure ⟨formals, body⟩ henv
  | call callee args =>
    exact apply h (by exact_mod_cast Expr.sizeOf_callee callee args) fun a ha => by
      exact_mod_cast Expr.sizeOf_arg ha
  | _ => exact .pure (Value.plain_ofExpr _)

/-! ## Promises -/

/-- What a pending promise stands for. -/
lemma suspensionValue {p : PromiseId} {x : Suspension} (hs : ∃ fs, s₀.Reached fs s)
    (hx : s.promises[p]?.map Promise.status = some (.pending x)) :
    Conducts (.orderly limit s₀ ((Task.force p).rank limit s)) (s.begin p x)
      (fun H => x.value limit H) Value.PlainIn := by
  obtain ⟨fs, hreached⟩ := hs
  have hproper : x.Proper (s.begin p x) := by
    obtain ⟨q, hq, hstatus⟩ := Option.map_eq_some_iff.1 hx
    have hx' := hreached.proper.promises p q hq
    rw [hstatus] at hx'
    exact Suspension.Proper.mono (Store.before_begin hx) hx'
  have hbegun : ∃ fs, s₀.Reached fs (s.begin p x) := ⟨fs, hreached.begins hx⟩
  have hrank : (Task.force p).rank limit s = x.rank limit (s.begin p x) := by
    dsimp only [Task.rank]
    rw [Store.pending?_eq_some.2 hx, Option.elim_some]
  rw [hrank]
  cases x with
  | «variable» name env =>
    exact lookup ⟨hbegun, hproper.2, le_refl _⟩ ENat.top_pos hproper.1
  | compiled u env =>
    have hroom : Room limit s₀ (Suspension.rank limit _ (.compiled u env)) 0 0
        (s.begin p (.compiled u env)) :=
      ⟨hbegun, Nat.lt_of_le_of_lt (Nat.zero_le env) hproper.2, le_refl _⟩
    exact executeNested hroom hproper.1 hproper.2
  | interpreted e env => exact evaluate ⟨hbegun, hproper, le_refl _⟩ (ENat.natCast_lt_top _)
  | missing name => exact fail _

/-- **Forcing a promise is orderly.** -/
theorem forcePromise {p : PromiseId} (hs : ∃ fs, s₀.Reached fs s) :
    Conducts (.orderly limit s₀ ((Task.force p).rank limit s)) s
      (fun H => CallByNeed.forcePromise limit H p) Value.PlainIn := by
  obtain ⟨fs, hreached⟩ := hs
  refine Inquiry.of_eq ?_ fun H => forcePromise_apply limit H p s
  cases hp : s.promises[p]?.map Promise.status with
  | none => exact .done (.ok (.nothing s) trivial)
  | some status =>
    cases status with
    | forced v =>
      obtain ⟨q, hq, hstatus⟩ := Option.map_eq_some_iff.1 hp
      have hv := hreached.proper.promises p q hq
      rw [hstatus] at hv
      exact .done (.ok (.nothing s) hv)
    | forcing x => exact .done (.error (.nothing s))
    | pending x =>
      exact settled (suspensionValue ⟨fs, hreached⟩ hp)
        (fun v t fs ht hv => .ok (.force hp ht hv) hv) fun e t fs ht => .error (.giveUp hp ht)

end Conducts

end

end CallByNeed
