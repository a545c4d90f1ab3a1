import CallByNeed.Proofs.Comparison.Interpreted
import CallByNeed.Proofs.Comparison.Statics
import CallByNeed.Proofs.Plain.Ending

/-!
# Compiled code and the interpreter agree

An expression that passes no `...` on comes to the same whether it is evaluated as written or
compiled and executed (`Compiling.expression_agrees`): both runs end, with the same value or error, and
leave the same bindings, up to code. It is so in every sane store (`Store.Sane`), where promises and
lists of arguments are bound as running programs bind them, but promises may go round in circles.

The compiler takes the names of the forms that it inlines to be bound to these. So they have to be
found so where calls of the expression are evaluated that are written with them; it is enough that they
are bound in the global environment only (`Store.KeepsForms.findsForms`). What is evaluated in between
may bind them otherwise. Sane stores are needed, too, and vectors whose lengths are integers
(`Compiling.not_expression_agrees`).
-/

namespace CallByNeed

variable {whole e : Expr} {r : RuntimeOptions} {s t : Store} {env : EnvId} {n : Nat} {v : Value}

/-! ## Sane stores -/

/-- The value is ordinary, or a promise of the store. -/
def Value.Sane (s : Store) (v : Value) : Prop :=
  v.Plain s.environments.size ∨ ∃ p < s.promises.size, v = .promise p

/-- Variables are bound to ordinary values and promises, and only `...` to a list of these. Whatever
is put off is compiled, or an expression, or a variable, and the values of promises are ordinary. -/
structure Store.Sane (s : Store) : Prop where
  outer : ∀ (e : EnvId) (E : Environment), s.environments[e]? = some E → ∀ o ∈ E.outer, o < e
  vars : ∀ (e : EnvId) (E : Environment), s.environments[e]? = some E → ∀ x v, (x, v) ∈ E.vars →
    v.Sane s ∨ x = .ellipsis ∧ ∃ args : ArgList, v = .dots args ∧ ∀ a ∈ args, a.value.Sane s
  promises : ∀ (p : PromiseId) (q : Promise), s.promises[p]? = some q → q.status.Proper s

/-- A sane store is proper but for where promises are bound. -/
lemma Store.Sane.proper (h : s.Sane) : @Store.Proper ⟨s.promises.size⟩ s := by
  let _ : Inherited := ⟨s.promises.size⟩
  have hlazy : ∀ {v : Value} {bound : EnvId}, v.Sane s → v.Lazy s bound := by
    rintro v bound (hv | ⟨p, hp, rfl⟩)
    · exact .plain hv
    · exact .promise ⟨hp, fun hnew => absurd hp (Nat.not_lt.2 hnew)⟩
  refine ⟨fun e E hE => ⟨h.outer e E hE, fun x v hv => ?_⟩, h.promises, Nat.le_refl _⟩
  have hmem : (x, v) ∈ E.vars := by
    obtain ⟨front, back, heq, -⟩ := List.lookup_eq_some_iff.1 hv
    rw [heq]
    exact List.mem_append_right _ List.mem_cons_self
  obtain hv | ⟨rfl, args, rfl, hargs⟩ := h.vars e E hE x v hmem
  · exact .lazy (hlazy hv)
  · exact .dots rfl fun a ha => hlazy (hargs a ha)

/-- The fresh store is sane. -/
lemma Store.sane_fresh (notes : Journal) : (Store.freshWith notes).Sane where
  outer e E hE := by
    cases e with
    | zero =>
      cases hE
      exact fun o ho => absurd ho List.not_mem_nil
    | succ e => cases hE
  vars e E hE x v hv := by
    cases e with
    | zero =>
      cases hE
      exact .inl (.inl (plain_of_mem_globals hv))
    | succ e => cases hE
  promises p q hq := by cases hq

/-! ### Names of forms -/

/-- The names of the forms that the compiler inlines are bound in the global environment only, to the
forms. -/
def Store.KeepsForms (s : Store) : Prop :=
  ∀ f : Special, f ≠ .quote → ∀ env,
    s.local? env ⟨f.name⟩ = if env = globalEnv then some (.special f) else none

lemma Store.keepsForms_fresh (notes : Journal) : (Store.freshWith notes).KeepsForms := by
  intro f _ env
  cases env with
  | zero => cases f <;> rfl
  | succ env => rfl

/-- Forms are found that are bound in the global environment only. -/
lemma Store.KeepsForms.findsForms (h : s.KeepsForms) {τ : Task}
    (hτ : ∀ env e', τ = .eval env e' → globalEnv ∈ s.chain env) : e.FindsForms τ s := by
  intro env f args hf heq _
  have hfirst : ∀ envs : List EnvId, globalEnv ∈ envs →
      envs.findSome? (fun env => s.local? env ⟨f.name⟩) = some (.special f) := by
    intro envs hmem
    induction envs with
    | nil => exact absurd hmem List.not_mem_nil
    | cons env envs ih =>
      rw [List.findSome?_cons, h f hf env]
      split
      · rename_i hsome
        split at hsome
        · exact hsome.symm
        · cases hsome
      · rename_i hnone
        split at hnone
        · cases hnone
        · rename_i hne
          exact ih ((List.mem_cons.1 hmem).resolve_left fun h => hne h.symm)
  exact hfirst _ (hτ env _ heq)

/-! ### Sane stores are like themselves -/

lemma FunctionUnit.Compiled.related {f : FunctionUnit} (h : f.Compiled) :
    FunctionRel (World.rendered whole) f f := by
  obtain ⟨o, g, h⟩ := h
  exact World.function_rendered h h

mutual

lemma Value.Plain.related : ∀ {v : Value}, v.Plain n →
    ValueRel (World.rendered whole) n v v
  | .null, _ => .null
  | .logical b, _ => .logical b
  | .int i, _ => .int i
  | .double x, _ => .double x
  | .str s, _ => .str s
  | .vector _, h => .vector (Value.PlainAll.related h)
  | .symbol s, _ => .symbol s
  | .language e, _ => .language e
  | .closure _ env, h => .closure h.1.related (World.transparent_rendered.valid env)
  | .builtin b, _ => .builtin b
  | .special s, _ => .special (World.transparent_rendered.loose s)

lemma Value.PlainAll.related : ∀ {vs : List Value}, Value.PlainAll n vs →
    ValuesRel (World.rendered whole) n vs vs
  | [], _ => .nil
  | _ :: _, h => .cons h.1.related h.2.related

end

lemma Value.Sane.related (h : v.Sane s) :
    BoundRel (World.rendered whole) s.environments.size v v := by
  obtain h | ⟨p, -, rfl⟩ := h
  · exact .value h.related
  · exact .promise p

lemma ArgList.related : ∀ {args : ArgList}, (∀ a ∈ args, a.value.Sane s) →
    ArgsRel (World.rendered whole) s.environments.size args args
  | [], _ => .nil
  | ⟨_, _⟩ :: _, h =>
    have h := List.forall_mem_cons.1 h
    .cons h.1.related rfl (ArgList.related h.2)

lemma Suspension.Proper.related {x : Suspension} (h : x.Proper s) :
    SuspensionRel (World.rendered whole) n x x := by
  have hvalid : ∀ env, (World.rendered whole).Valid n env := World.transparent_rendered.valid
  cases x with
  | «variable» name env => exact .reading (World.transparent_rendered.readable name) (hvalid env)
  | compiled u env =>
    obtain ⟨o, e, hu⟩ := h.1
    exact @SuspensionRel.code _ n (.unit u) (.unit u) env (.unit hu hu) (hvalid env)
  | interpreted e env =>
    exact @SuspensionRel.code _ n (.expr e) (.expr e) env (.written e) (hvalid env)
  | missing name => exact .missing name

/-- A sane store is like itself. -/
lemma Store.Sane.related (h : s.Sane) : StoreRel (World.rendered whole) s s where
  environments := by
    refine ⟨rfl, fun i E E' hE hE' => ?_⟩
    obtain rfl := Option.some.inj (hE.symm.trans hE')
    refine ⟨rfl, List.forall₂_same.2 fun x hx => ⟨rfl, ?_⟩⟩
    obtain hv | ⟨hname, args, hv, hargs⟩ := h.vars i E hE x.1 x.2 hx
    · exact .bound hv.related
    · rw [hname, hv]
      exact .dots (ArgList.related hargs)
  promises := by
    refine ⟨rfl, fun i q q' hq hq' => ?_⟩
    obtain rfl := Option.some.inj (hq.symm.trans hq')
    refine ⟨?_, rfl⟩
    have hstatus := h.promises i q hq
    revert hstatus
    cases q.status with
    | pending x => exact fun hx => .pending (Suspension.Proper.related hx)
    | forcing x => exact fun hx => .forcing (Suspension.Proper.related hx)
    | forced v => exact fun hv => .forced (Value.Plain.related hv)
  depth h := h.elim
  left h := h.elim
  right h := h.elim

/-! ## Agreement -/

/-- The run stops because calls nest too deeply. -/
def TooDeep (x : Result Value) : Prop := ∃ limit t, x = .error (.error (.depthExceeded limit)) t

/-- The run stops because a length is no integer. -/
def TooLong (x : Result Value) : Prop :=
  ∃ t, x = .error (.error (.primitive "length" .lengthTooLarge)) t

/-- Evaluations settle to one result only. -/
lemma Settles.unique {β : Type} {B : Nat → Eval β} {y y' : Result β} (h : Settles B t y)
    (h' : Settles B t y') : y = y' := by
  obtain ⟨m, hm⟩ := h
  obtain ⟨m', hm'⟩ := h'
  exact (hm (max m m') (Nat.le_max_left m m')).symm.trans (hm' (max m m') (Nat.le_max_right m m'))

/-- What runs come to that match and end, if nothing else is dropped. -/
lemma Matches.agree {W : World} (hlax : ¬ W.lax) (hdropped : ∀ e, W.dropped e →
      (∃ limit, e = .depthExceeded limit) ∨ e = .primitive "length" .lengthTooLarge)
    {R : Nat → Value → Value → Prop} {x y : Result Value} {B : Nat → Eval Value}
    (h : Matches W R s t x B) (hx : ¬ Exhausts x) (hy : Settles B t y) :
    TooDeep x ∨ TooDeep y ∨ TooLong y ∨ ResultRel W R s t x y := by
  cases h with
  | @excused e s' hr hh =>
    subst hr
    cases e with
    | error e =>
      obtain ⟨limit, rfl⟩ := (hh.resolve_right hlax).2
      exact .inl ⟨limit, s', rfl⟩
    | exhausted => exact absurd ⟨s', rfl⟩ hx
    | abort => exact absurd hh hlax
  | @dropped e t' hB he =>
    obtain ⟨limit, rfl⟩ | rfl := hdropped e he
    · exact .inr (.inl ⟨limit, t', hy.unique hB⟩)
    · exact .inr (.inr (.inl ⟨t', hy.unique hB⟩))
  | same hB hr => exact .inr (.inr (.inr (hB.unique hy ▸ hr)))

/-- **A compiled expression does what it does as written**, in a sane store, if the names of forms
that the compiler inlines are found to be those of the forms where calls in the expression are
evaluated that are written with them. -/
theorem Compiling.expression_agrees {name : String} {j k : Journal} {u : CodeUnit}
    (h : Compiling.expression {} .counting name e j = .ok u k) (hdots : e.undotted = true)
    (r : RuntimeOptions) (hs : s.Sane) (henv : env < s.environments.size)
    (hforms : ∀ bound n τ t, Evaluations r bound (.eval env e) s n τ t → e.FindsForms τ t) :
    ∃ N x y, (∀ bound ≥ N, answer r bound (.eval env e) s = x ∧
        answer r bound (.execute u env) s = y) ∧
      ¬ Exhausts x ∧ ¬ Exhausts y ∧
      (TooDeep x ∨ TooDeep y ∨ TooLong y ∨
        ResultRel (.rendered e) (ValueRel (.rendered e)) s s x y) := by
  let _ : Inherited := ⟨s.promises.size⟩
  have hreached : ∃ fs, s.Reached fs s := ⟨[], .start hs.proper⟩
  have hcompiled := compiledFrom_of_expression h
  have hwritten : Task.Proper s (.eval env e) := henv
  have hunit : Task.Proper s (.execute u env) := ⟨⟨_, _, hcompiled⟩, henv⟩
  obtain ⟨x, hx, N, hN⟩ := (finishes r hreached hwritten).settles
  obtain ⟨y, hy, hsettles⟩ := (finishes r hreached hunit).settles
  have hmatches : Matches (World.rendered e) (ValueRel (.rendered e)) s s x
      fun bound => answer r bound (.execute u env) := by
    -- Nothing is broken off where forms are watched for, so that the run itself is compared.
    have hwatched : (e.watching r).host N (.eval env e) s = x :=
      (Evaluations.watched_eq hreached hwritten (hforms N) .main).trans (hN N (Nat.le_refl N))
    rw [← hwatched]
    exact World.hosts_rendered hdots N N (Nat.le_refl N) id (.inl ⟨trivial, .id⟩) 0 _ _
      (@TaskRel.code (.rendered e) 0 (.expr e) (.unit u) env (.compiled .whole hcompiled)
        (World.transparent_rendered.valid env)) s s hs.related (Nat.zero_le _)
  obtain ⟨N', hN'⟩ := hsettles
  exact ⟨max N N', x, y, fun bound hbound =>
      ⟨hN bound (le_trans (Nat.le_max_left N N') hbound),
        hN' bound (le_trans (Nat.le_max_right N N') hbound)⟩,
    hx, hy, hmatches.agree id (fun _ he => he) hx ⟨N', hN'⟩⟩

/-! ### A choice between constants -/

/-- Nothing is asked for a constant. -/
lemma not_consults_constant {τ : Task} (he : e.isConstant = true) :
    ¬ Consults (fun H => perform r H n (.eval env e) s) (answer r n) τ t := by
  rintro ⟨H, -, hne⟩
  cases e <;> first | exact hne rfl | cases he

section

variable {b : Bool} {y no : Expr}

/-- Only a constant is asked for when the choice is made between two of them. -/
lemma constant_of_consults_choice (hy : y.isConstant = true) (hno : no.isConstant = true)
    (hfind : s.find? env ⟨Special.cond.name⟩ = some (.special .cond)) {τ : Task}
    (h : Consults (fun H => perform r H n (.eval env (.call (.symbol ⟨Special.cond.name⟩)
      [⟨none, .logical b⟩, ⟨none, y⟩, ⟨none, no⟩])) s) (answer r n) τ t) :
    t = s ∧ ∃ e, e.isConstant = true ∧ τ = .eval env e := by
  obtain ⟨H, hsame, hne⟩ := h
  by_contra hother
  have hconstant : ∀ e : Expr, e.isConstant = true → H (.eval env e) s = answer r n (.eval env e) s :=
    fun e he => hsame _ _ fun h => hother ⟨h.2.symm, e, he, h.1.symm⟩
  refine hne ?_
  have hchoice : ∀ H : Host, perform r H n (.eval env (.call (.symbol ⟨Special.cond.name⟩)
      [⟨none, .logical b⟩, ⟨none, y⟩, ⟨none, no⟩])) s = (do
        let v ← H (.eval env (.logical b))
        if ← Eval.ofExcept v.truthy then H (.eval env y) else H (.eval env no)) s :=
    fun H => Interpreter.eval_of_find? hfind
  dsimp only
  rw [hchoice, hchoice, Eval.bind_apply, Eval.bind_apply, hconstant _ rfl]
  cases n with
  | zero => rfl
  | succ n =>
    cases b with
    | true => exact hconstant y hy
    | false => exact hconstant no hno

/-- The evaluation of a choice between constants consists of it and of constants. -/
lemma Evaluations.choice {bound : Nat} (hy : y.isConstant = true) (hno : no.isConstant = true)
    (hfind : s.find? env ⟨Special.cond.name⟩ = some (.special .cond)) {τ : Task}
    (h : Evaluations r bound (.eval env (.call (.symbol ⟨Special.cond.name⟩)
      [⟨none, .logical b⟩, ⟨none, y⟩, ⟨none, no⟩])) s n τ t) :
    t = s ∧ (τ = .eval env (.call (.symbol ⟨Special.cond.name⟩)
      [⟨none, .logical b⟩, ⟨none, y⟩, ⟨none, no⟩]) ∨ ∃ e, e.isConstant = true ∧ τ = .eval env e) := by
  induction h with
  | main => exact ⟨rfl, .inl rfl⟩
  | nested _ hask ih =>
    obtain ⟨rfl, rfl | ⟨e, he, rfl⟩⟩ := ih
    · exact (constant_of_consults_choice hy hno hfind hask).imp_right .inr
    · exact absurd hask (not_consults_constant he)

end

/-- A choice in the fresh store. -/
theorem Compiling.expression_agrees_choice :
    let e : Expr := .call (.symbol ⟨"if"⟩) [⟨none, .logical true⟩, ⟨none, .int 2⟩, ⟨none, .int 3⟩]
    let s := Store.freshWith #[]
    ∃ u k, Compiling.expression {} .counting "snippet" e #[] = .ok u k ∧ e.undotted = true ∧ s.Sane ∧
      (∀ bound n τ t, Evaluations {} bound (.eval globalEnv e) s n τ t → e.FindsForms τ t) ∧
      ∃ N x y, (∀ bound ≥ N, answer {} bound (.eval globalEnv e) s = x ∧
          answer {} bound (.execute u globalEnv) s = y) ∧
        ¬ Exhausts x ∧ ¬ Exhausts y ∧
        (TooDeep x ∨ TooDeep y ∨ TooLong y ∨
          ResultRel (.rendered e) (ValueRel (.rendered e)) s s x y) := by
  intro e s
  have hdots : e.undotted = true := by decide
  have hforms : ∀ bound n τ t, Evaluations {} bound (.eval globalEnv e) s n τ t →
      e.FindsForms τ t := by
    intro bound n τ t h
    obtain ⟨rfl, hτ⟩ := h.choice rfl rfl rfl
    refine (Store.keepsForms_fresh #[]).findsForms fun env e' heq => ?_
    obtain rfl : globalEnv = env := by
      obtain rfl | ⟨_, _, rfl⟩ := hτ <;> exact (Task.eval.inj heq).1
    exact List.mem_cons_self
  have hcompiles : (match Compiling.expression {} .counting "snippet" e #[] with
      | .ok .. => true
      | .error .. => false) = true := by decide +kernel
  cases hu : Compiling.expression {} .counting "snippet" e #[] with
  | error => simp [hu] at hcompiles
  | ok u k =>
    exact ⟨u, k, rfl, hdots, Store.sane_fresh #[], hforms,
      expression_agrees hu hdots {} (Store.sane_fresh #[]) Nat.one_pos hforms⟩

/-! ## Where they differ -/

/-- A store with an environment inside the global one, in which `x` is bound, and with a promise. -/
def Store.holding (q : Promise) (v : Value) : Store where
  environments := #[⟨globals, []⟩, ⟨[(⟨"x"⟩, v)], [globalEnv]⟩]
  promises := #[q]

lemma Store.keepsForms_holding (q : Promise) (v : Value) : (holding q v).KeepsForms := by
  intro f _ env
  match env with
  | 0 => cases f <;> rfl
  | 1 => cases f <;> rfl
  | env + 2 => rfl

lemma Store.sane_holding {q : Promise} {v : Value} (hq : q.status.Proper (holding q v))
    (hv : v.Sane (holding q v)) : (holding q v).Sane where
  outer e E hE := by
    match e with
    | 0 =>
      cases hE
      exact fun o ho => absurd ho List.not_mem_nil
    | 1 =>
      cases hE
      exact fun o ho => List.mem_singleton.1 ho ▸ Nat.one_pos
    | e + 2 => cases hE
  vars e E hE x w hw := by
    match e with
    | 0 =>
      cases hE
      exact .inl (.inl (plain_of_mem_globals hw))
    | 1 =>
      cases hE
      cases List.mem_singleton.1 hw
      exact .inl hv
    | e + 2 => cases hE
  promises p q' hq' := by
    cases p with
    | zero =>
      cases hq'
      exact hq
    | succ p => cases hq'

/-- The expression passes no `...` on and binds no name of a form that the compiler inlines, and these
are bound as they are at first. As written it comes to one thing in the end, and compiled to another. -/
structure Compiling.ComesTo (e : Expr) (s : Store) (written compiled : Result Value → Prop) :
    Prop where
  undotted : e.undotted = true
  keeps : e.keepsTo (.sparing ["if", "for", "\x7b", "<-"]) = true
  forms : s.KeepsForms
  runs : ∃ u k, Compiling.expression {} .counting "snippet" e #[] = .ok u k ∧
    ∃ N, ∀ bound ≥ N, written (answer {} bound (.eval 1 e) s) ∧
      compiled (answer {} bound (.execute u 1) s)

/-- The integer that an evaluation comes to, unless it stops with an error. -/
def integer? : Result Value → Option (Option Int32)
  | .ok (.int i) _ => some (some i)
  | .error (.error _) _ => some none
  | _ => none

lemma Alike.integer?_eq {x y : Result Value} (h : Alike x y) : integer? x = integer? y := by
  cases h with
  | ok v => cases v <;> rfl
  | @error h h' hh =>
    obtain rfl | ⟨hi, hi'⟩ := hh
    · cases h <;> rfl
    · cases h <;> cases h' <;> first | rfl | exact hi.elim | exact hi'.elim

/-- What is observed under one bound is what the evaluation comes to in the end. -/
lemma exists_integer?_eq {b : Nat} {τ : Task} {i : Option Int32}
    (h : integer? (answer r b τ s) = some i) :
    ∃ N, ∀ bound ≥ N, integer? (answer r bound τ s) = some i := by
  have hended : ¬ Exhausts (answer r b τ s) := by
    rintro ⟨_, hex⟩
    rw [hex] at h
    cases h
  obtain ⟨x, hx, N, hN⟩ := settles_of_answer hended
  refine ⟨N, fun bound hbound => ?_⟩
  rw [show answer r bound τ s = x from hN bound hbound, ← hx.integer?_eq, h]

/-- It is enough to look at one bound. -/
lemma Compiling.ComesTo.of_integer? {i j : Option Int32} (hdots : e.undotted = true)
    (hkeeps : e.keepsTo (.sparing ["if", "for", "\x7b", "<-"]) = true) (hforms : s.KeepsForms)
    (hwritten : integer? (answer {} 64 (.eval 1 e) s) = some i)
    (hcompiled : (match Compiling.expression {} .counting "snippet" e #[] with
      | .ok u _ => decide (integer? (answer {} 64 (.execute u 1) s) = some j)
      | .error .. => false) = true) :
    ComesTo e s (fun x => integer? x = some i) fun y => integer? y = some j := by
  refine ⟨hdots, hkeeps, hforms, ?_⟩
  cases hu : Compiling.expression {} .counting "snippet" e #[] with
  | error => simp [hu] at hcompiled
  | ok u k =>
    rw [hu] at hcompiled
    obtain ⟨N, hN⟩ := exists_integer?_eq hwritten
    obtain ⟨N', hN'⟩ := exists_integer?_eq (of_decide_eq_true hcompiled)
    exact ⟨u, k, rfl, max N N', fun bound hbound =>
      ⟨hN bound (le_trans (Nat.le_max_left N N') hbound),
        hN' bound (le_trans (Nat.le_max_right N N') hbound)⟩⟩

/-- A loop as written goes through all elements whose positions are integers if its body has a value
in every store. -/
lemma Special.iterate_ends {H : Host} {name : Symbol} {values w : Value} {body : Expr}
    (hvalues : values.Indexed) (hbody : ∀ t, H (.eval env body) t = .ok w t) :
    ∀ (count index : Nat) (s : Store), index + count ≤ 2147483648 →
      index + count ≤ values.length →
      ∃ t, Special.iterate H env name values body count index s = .ok () t
  | 0, _, s, _, _ => ⟨s, rfl⟩
  | count + 1, index, s, hfits, hlength => by
    obtain ⟨x, hx⟩ := hvalues.elementAt (show index < 2147483648 by omega) (by omega)
    obtain ⟨t, ht⟩ := iterate_ends hvalues hbody count (index + 1) (s.set env name x) (by omega)
      (by omega)
    refine ⟨t, ?_⟩
    have hindex : Value.int32? index = some (Int32.ofNat index) := Value.int32?_of_lt (by omega)
    simp only [iterate, hindex, hx, Eval.ofExcept, pure_bind]
    rw [Eval.bind_apply]
    show (H (.eval env body) >>= fun _ => iterate H env name values body count (index + 1))
      (s.set env name x) = _
    rw [Eval.bind_apply, hbody]
    exact ht

section

variable {vs : List Value} {q : Promise} {name : Symbol}

/-- A loop as written goes through a vector with as many elements as there are positions. -/
lemma Interpreter.loop_ends (hvs : vs.length = 2147483648) (hn : 2 ≤ n) :
    ∃ t, answer r n (.eval 1 (.loop name (.symbol ⟨"x"⟩) .null)) (.holding q (.vector vs))
      = .ok .null t := by
  obtain ⟨n, rfl⟩ := Nat.exists_eq_add_of_le' hn
  have hfind : (Store.holding q (.vector vs)).find? 1 ⟨Special.loop.name⟩ = some (.special .loop) := rfl
  have hinvoke : answer r (n + 2) (.eval 1 (.loop name (.symbol ⟨"x"⟩) .null))
      (.holding q (.vector vs)) = (do
        Special.iterate (answer r (n + 1)) 1 name (.vector vs) .null vs.length 0
        return Value.null) (.holding q (.vector vs)) := Interpreter.eval_of_find? hfind
  have hindexed : (Value.vector vs).Indexed := fun args h => by cases h
  have hbody : ∀ t, answer r (n + 1) (.eval 1 .null) t = .ok Value.null t := fun _ => rfl
  obtain ⟨t, ht⟩ : ∃ t, Special.iterate (answer r (n + 1)) 1 name (.vector vs) .null vs.length 0
      (.holding q (.vector vs)) = .ok () t :=
    Special.iterate_ends hindexed hbody vs.length 0 _ (by omega) (Nat.le_of_eq (Nat.zero_add _))
  exact ⟨t, by rw [hinvoke, Eval.bind_apply, ht]; rfl⟩

/-- A compiled one stops, since the length is no integer. -/
lemma CompiledFrom.loop_tooLong {u : CodeUnit}
    (hu : CompiledFrom {} (.loop name (.symbol ⟨"x"⟩) .null) u) (hname : name.isEllipsis = false)
    (hs : (Store.holding q (.vector vs)).Sane) (hvs : vs.length = 2147483648) :
    ∃ N, ∀ bound ≥ N, TooLong (answer {} bound (.execute u 1) (.holding q (.vector vs))) := by
  let _ : Inherited := ⟨(Store.holding q (.vector vs)).promises.size⟩
  have hreached : ∃ fs, (Store.holding q (.vector vs)).Reached fs (.holding q (.vector vs)) :=
    ⟨[], .start hs.proper⟩
  have hproper : (Task.execute u 1).Proper (.holding q (.vector vs)) :=
    ⟨⟨_, _, hu⟩, Nat.one_lt_two⟩
  obtain ⟨y, hy, N, hN⟩ := (finishes {} hreached hproper).settles
  refine ⟨N, fun bound hbound => ?_⟩
  have hrun : Machine.run {} (answer {} N) u 1 N (.start u 1) (.holding q (.vector vs)) = y :=
    hN (N + 1) (Nat.le_succ N)
  obtain ⟨M, hM, hfollows⟩ := hu.executes 1000 1
  obtain ⟨Q, B, hQ, -, rfl⟩ := Means.loop_inv rfl rfl hname hM
  obtain ⟨-, rfl⟩ := hQ.reading_inv
  have hmeaning : Meaning.loop 1 name (Meaning.lookup (answer {} N) 1 ⟨"x"⟩) (B (answer {} N))
      (.holding q (.vector vs))
        = .error (.error (.primitive "length" .lengthTooLarge)) (.holding q (.vector vs)) := by
    have hlength : Builtin.lengthOf (.vector vs) = _ :=
      Builtin.lengthOf_eq_error (Nat.le_of_eq hvs.symm)
    have hsequence : Meaning.lookup (answer {} N) 1 ⟨"x"⟩ (.holding q (.vector vs))
      = .ok (.vector vs) (.holding q (.vector vs)) := rfl
    rw [Meaning.loop, Eval.bind_apply, hsequence]
    dsimp only
    rw [hlength]
    rfl
  have hfails : ¬∃ e, Meaning.loop 1 name (Meaning.lookup (answer {} N) 1 ⟨"x"⟩) (B (answer {} N))
      (.holding q (.vector vs)) = .error .exhausted e := by
    rintro ⟨e, hex⟩
    cases hmeaning.symm.trans hex
  obtain ⟨k, hk, hlow⟩ := (hfollows (answer {} N) 0 (.holding q (.vector vs))).2 hfails
  obtain hlt | hle := Nat.lt_or_ge N k
  · exact absurd (hrun ▸ hlow N hlt) hy
  · have hagrees := hk N hle
    dsimp only at hagrees
    rw [hmeaning, hrun] at hagrees
    rw [show answer {} bound (.execute u 1) _ = y from hN bound hbound]
    cases hagrees with
    | error hh =>
      obtain rfl := hh.resolve_right fun h => h.2
      exact ⟨_, rfl⟩

/-- A loop over a vector with as many elements as there are positions. -/
lemma Compiling.comesTo_tooLong (hs : (Store.holding q (.vector vs)).Sane)
    (hvs : vs.length = 2147483648) :
    ComesTo (.loop ⟨"i"⟩ (.symbol ⟨"x"⟩) .null) (.holding q (.vector vs))
      (fun x => ∃ t, x = .ok .null t) TooLong := by
  refine ⟨by decide, by decide +kernel, Store.keepsForms_holding _ _, ?_⟩
  have hcompiles : (match Compiling.expression {} .counting "snippet"
        (.loop ⟨"i"⟩ (.symbol ⟨"x"⟩) .null) #[] with
      | .ok .. => true
      | .error .. => false) = true := by decide +kernel
  cases hu : Compiling.expression {} .counting "snippet" (.loop ⟨"i"⟩ (.symbol ⟨"x"⟩) .null) #[] with
  | error => simp [hu] at hcompiles
  | ok u k =>
    obtain ⟨N, hN⟩ := (compiledFrom_of_expression hu).loop_tooLong rfl hs hvs
    exact ⟨u, k, rfl, max N 2, fun bound hbound =>
      ⟨Interpreter.loop_ends hvs (le_trans (Nat.le_max_right N 2) hbound),
        hN bound (le_trans (Nat.le_max_left N 2) hbound)⟩⟩

end

/-- What is evaluated in between may bind the name of a form, as the promise here does that is forced
first. A function that is computed may be a promise if a vector holds one. And compiled loops count
elements with integers. -/
theorem Compiling.not_expression_agrees :
    let rebinding : Expr := .call (.symbol ⟨"<-"⟩) [⟨none, .symbol ⟨"if"⟩⟩, ⟨none, .symbol ⟨"sum"⟩⟩]
    let rebound := Store.holding ⟨.pending (.interpreted rebinding 1), 0⟩ (.promise 0)
    let held := Store.holding ⟨.forced (.builtin .sum), 1⟩ (.vector [.promise 0])
    let long := Store.holding ⟨.forced .null, 1⟩ (.vector (List.replicate 2147483648 .null))
    (rebound.Sane ∧ ComesTo (.call (.symbol ⟨"\x7b"⟩) [⟨none, .symbol ⟨"x"⟩⟩,
        ⟨none, .call (.symbol ⟨"if"⟩) [⟨none, .logical true⟩, ⟨none, .int 2⟩, ⟨none, .int 3⟩]⟩]) rebound
      (fun x => integer? x = some (some 6)) fun y => integer? y = some (some 2)) ∧
    ComesTo (.call (.call (.symbol ⟨"[["⟩) [⟨none, .symbol ⟨"x"⟩⟩, ⟨none, .int 1⟩]) [⟨none, .int 2⟩])
      held (fun x => integer? x = some none) (fun y => integer? y = some (some 2)) ∧
    long.Sane ∧ ComesTo (.call (.symbol ⟨"for"⟩) [⟨none, .symbol ⟨"i"⟩⟩, ⟨none, .symbol ⟨"x"⟩⟩,
        ⟨none, .null⟩]) long
      (fun x => ∃ t, x = .ok .null t) TooLong := by
  intro rebinding rebound held long
  have hrebound : rebound.Sane := Store.sane_holding (Nat.lt_succ_self 1) (.inr ⟨0, Nat.one_pos, rfl⟩)
  have hplain : (Value.vector (List.replicate 2147483648 .null)).Plain 2 :=
    Value.plainAll_iff.2 fun v hv => List.eq_of_mem_replicate hv ▸ trivial
  have hlong : long.Sane := Store.sane_holding trivial (.inl hplain)
  refine ⟨⟨hrebound, ?_⟩, ?_, hlong, comesTo_tooLong hlong List.length_replicate⟩
  · exact .of_integer? (by decide) (by decide +kernel) (Store.keepsForms_holding _ _)
      (by decide +kernel) (by decide +kernel)
  · exact .of_integer? (by decide) (by decide +kernel) (Store.keepsForms_holding _ _)
      (by decide +kernel) (by decide +kernel)

end CallByNeed
