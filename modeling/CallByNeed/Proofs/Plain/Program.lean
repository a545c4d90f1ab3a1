import CallByNeed.Proofs.Plain.Machine

/-!
# Runs of programs

A program runs in a fresh store, in which its definitions are bound first
(`CompiledProgram.opening`). Its evaluations are that of its body and those that they ask their hosts
for (`Evaluations`). Promises and lists of arguments stay in their places in all of them
(`Compiling.program_orderly`): no evaluation returns one, no vector holds one, and no variable but a
formal is bound to one.
-/

namespace CallByNeed

variable {options : RuntimeOptions} {limit : Nat} {s₀ s t : Store} {r : Rank} {env : EnvId} {n : Nat}
  {τ : Task}

/-! ## The host -/

section

variable [Inherited]

/-- What the host that programs run on makes of a proper task. -/
theorem answer_yields (options : RuntimeOptions) : ∀ (n : Nat) {τ : Task} {s : Store},
    (∃ fs, s₀.Reached fs s) → τ.Proper s → s.Yields Value.PlainIn (answer options n τ s)
  | 0, _, s, _, _ => .error (.nothing s)
  | n + 1, τ, s, hs, hτ => by
    have h : Conducts (.orderly options.maxDepth s₀ (τ.rank options.maxDepth s)) s
        (fun H => perform options H n τ) Value.PlainIn := .perform hs hτ
    exact h.yields fun _ _ hmay => answer_yields options n hmay.1 hmay.2.1

lemma answer_kept (options : RuntimeOptions) (n : Nat) (s₀ : Store) (r : Rank) :
    (Contract.orderly options.maxDepth s₀ r).Kept (answer options n) := fun _ _ hmay =>
  answer_yields options n hmay.1 hmay.2.1

end

/-! ## Evaluations of a run -/

/-- The evaluations that a run consists of, with how deeply those may nest that each of them asks for:
the one it begins with, and what an evaluation of the run asks for. -/
inductive Evaluations (options : RuntimeOptions) (bound : Nat) (τ₀ : Task) (s₀ : Store) :
    Nat → Task → Store → Prop
  | main : Evaluations options bound τ₀ s₀ bound τ₀ s₀
  | nested {n : Nat} {τ τ' : Task} {s s' : Store}
    (h : Evaluations options bound τ₀ s₀ (n + 1) τ s)
    (hask : Consults (fun H => perform options H n τ s) (answer options n) τ' s') :
    Evaluations options bound τ₀ s₀ n τ' s'

/-- Every evaluation of a run is of a proper task, in a store that is reached. -/
lemma Evaluations.proper [Inherited] {bound : Nat} {τ₀ : Task} {m : Store} (hm : ∃ fs, s₀.Reached fs m)
    (hτ₀ : τ₀.Proper m) (h : Evaluations options bound τ₀ m n τ s) :
    (∃ fs, s₀.Reached fs s) ∧ τ.Proper s := by
  induction h with
  | main => exact ⟨hm, hτ₀⟩
  | nested _ hask ih =>
    have hmay := (Conducts.perform ih.1 ih.2).may_of_consults (answer_kept options _ s₀ _) hask
    exact ⟨hmay.1, hmay.2.1⟩

/-! ## Stores -/

/-- A variable is bound to what is ordinary or, if it is a formal of the function that its environment
was made for, to a promise or, if it is `...`, to a list of these. Promises have ordinary values. -/
structure Store.Orderly (s₀ s : Store) : Prop where
  bound : ∃ fs, s₀.Reached fs s ∧ ∀ e x v, s.local? e x = some v → ¬ v.Plain s.environments.size →
    (∃ f, (e, f) ∈ fs ∧ x ∈ f.formals.map Formal.name) ∧
      ((∃ p, v = .promise p) ∨ x = .ellipsis ∧ ∃ args : ArgList, v = .dots args ∧
        ∀ a ∈ args, a.value.Plain s.environments.size ∨ ∃ p, a.value = .promise p)
  forced : ∀ (p : PromiseId) (q : Promise) (v : Value), s.promises[p]? = some q →
    q.status = .forced v → v.Plain s.environments.size

lemma Value.Lazy.plain_or_promise {v : Value} (h : v.Lazy s env) :
    v.Plain s.environments.size ∨ ∃ p, v = .promise p := by
  cases h with
  | plain h => exact .inl h
  | promise => exact .inr ⟨_, rfl⟩

/-- A store is orderly that is reached from one where only ordinary values are bound. -/
theorem Store.Reached.orderly {fs : Frames} (h : s₀.Reached fs s)
    (hs₀ : ∀ e x v, s₀.local? e x = some v → v.Plain s₀.environments.size) : s₀.Orderly s where
  bound := by
    refine ⟨fs, h, fun e x v hv hplain => ⟨?_, ?_⟩⟩
    · refine (h.formal e x v hv hplain).resolve_left fun hv₀ => hplain ?_
      exact (hs₀ e x v hv₀).mono h.before.environments
    · cases h.proper.bound_of_local? hv with
      | lazy hv => exact .inl (hv.plain_or_promise.resolve_left hplain)
      | dots hname hargs =>
        exact .inr ⟨hname, _, rfl, fun a ha => (hargs a ha).plain_or_promise⟩
  forced p q v hq hv := by
    have hstatus := h.proper.promises p q hq
    rw [hv] at hstatus
    exact hstatus

/-! ## Calls as written -/

/-- What comes of the parts of a call that is evaluated as written: of the callee, of the arguments,
and of the function. -/
structure Call.Orderly (limit : Nat) (host : Host) (env : EnvId) (call : Call) (s : Store) :
    Prop where
  callee : s.Yields Value.PlainIn (Interpreter.callee host env call s)
  builtin : ∀ b m, Interpreter.callee host env call s = .ok (.builtin b) m →
    m.Yields (fun (args : List ArgList) t => ArgList.PlainIn args.flatten t)
      (call.args.mapM (Interpreter.argumentValues host env) m)
  closure : ∀ f e m, Interpreter.callee host env call s = .ok (.closure f e) m → ∀ args t,
    call.args.mapM (Interpreter.argumentPromises env) m = .ok args t →
      t.Yields Value.PlainIn (applyClosure limit host f e call args.flatten t)
  special : ∀ f m, Interpreter.callee host env call s = .ok (.special f) m →
    m.Yields Value.PlainIn (f.invoke host env call m)

/-- The rank of a call leaves room for its parts. -/
theorem Room.call {host : Host} {call : Call} {size : ℕ∞} (h : Room limit s₀ r env size s)
    (hH : (Contract.orderly limit s₀ r).Kept host) (hcallee : (sizeOf call.callee : Nat) < size)
    (hargs : ∀ a ∈ call.args, (sizeOf a.value : Nat) < size) :
    call.Orderly limit host env s where
  callee := (Conducts.callee h hcallee).yields hH
  builtin b m hm := by
    obtain ⟨fs, hc, -⟩ := (Conducts.callee h hcallee).ok hH hm
    exact (Conducts.values (h.changes hc) hargs).yields hH
  closure f e m hm args t ht := by
    obtain ⟨fs, hc, hf, he⟩ := (Conducts.callee h hcallee).ok hH hm
    have h := h.changes hc
    obtain ⟨gs, hc', hlazy⟩ := (Conducts.promises h).ok hH ht
    have hv : Value.PlainIn (.closure f e) t := hc'.plainIn h.proper ⟨hf, he⟩
    exact (Conducts.applyClosure (h.changes hc') hv.1 hv.2 hlazy).yields hH
  special f m hm := by
    obtain ⟨fs, hc, -⟩ := (Conducts.callee h hcallee).ok hH hm
    exact (Conducts.invoke (h.changes hc) hargs f).yields hH

/-! ## Machines -/

/-- Every machine that a run of the unit visits is composed, and so it goes on, in stores that are
orderly. -/
def Machine.Orderly (options : RuntimeOptions) (host : Host) (s₀ : Store) (u : CodeUnit)
    (env : EnvId) (s : Store) : Prop :=
  ∃ B, ∀ m t, Machine.Visits options host u env s m t → s₀.Orderly t ∧ m.Composed u t env ∧
    t.Yields (Machine.Turn.Orderly u B m.position env) (Machine.advance options host u env m t)

/-- A machine that is visited is composed, at an instruction, and the store has a history. -/
lemma Machine.Visits.composed {host : Host} {u : CodeUnit} {B : Nat → Prop} {m : Machine}
    (hroom : Room options.maxDepth s₀ r env ⊤ s)
    (hH : (Contract.orderly options.maxDepth s₀ r).Kept host) (hu : u.Compiled)
    (hB : u.HandsOn B) (h : Machine.Visits options host u env s m t) :
    Room options.maxDepth s₀ r env ⊤ t ∧ B m.position ∧ m.Composed u t env := by
  induction h with
  | start => exact ⟨hroom, hB.steps.start, .inl (Machine.calm_start u env s)⟩
  | on _ hm ih =>
    obtain ⟨h, hp, hcomposed⟩ := ih
    obtain ⟨fs, hc, hp, hcomposed, -⟩ := (Conducts.advance h hu hB hp hcomposed).ok hH hm
    exact ⟨h.changes hc, hp, hcomposed⟩

/-! ## Programs -/

/-- What an evaluation of a run does: it begins and ends in orderly stores, gets from one to the other
by assignments of ordinary values and the like, and returns an ordinary value, and so it is with all
of its parts. -/
structure Evaluation.Orderly (options : RuntimeOptions) (s₀ : Store) (n : Nat) (τ : Task)
    (s : Store) : Prop where
  store : s₀.Orderly s
  result : s.Yields Value.PlainIn (answer options n τ s)
  after : ∀ t, (∃ v, answer options n τ s = .ok v t) ∨ (∃ h, answer options n τ s = .error h t) →
    s₀.Orderly t
  call : ∀ b env callee args, n = b + 1 → τ = .eval env (.call callee args) →
    Call.Orderly options.maxDepth (answer options b) env ⟨callee, args⟩ s
  machine : ∀ b u env, n = b + 1 → τ = .execute u env →
    Machine.Orderly options (answer options b) s₀ u env s

/-- The evaluation of a proper task in a store that is reached from one where only ordinary values are
bound. -/
theorem Evaluation.orderly (hs₀ : ∀ e x v, s₀.local? e x = some v → v.Plain s₀.environments.size)
    (hs : ∃ fs, s₀.Reached fs s) (hτ : τ.Proper s) : Evaluation.Orderly options s₀ n τ s := by
  have hH := fun b r => answer_kept options b s₀ r
  have hresult := answer_yields options n hs hτ
  obtain ⟨fs, hreached⟩ := hs
  refine ⟨hreached.orderly hs₀, hresult, ?_, ?_, ?_⟩
  · rintro t (⟨v, hv⟩ | ⟨h, hh⟩)
    · rw [hv] at hresult
      cases hresult with
      | ok hc => exact (hreached.changes hc).orderly hs₀
    · rw [hh] at hresult
      cases hresult with
      | error hc => exact (hreached.changes hc).orderly hs₀
  · rintro b env callee args rfl rfl
    have h : Room options.maxDepth s₀ _ env (sizeOf (Expr.call callee args) : Nat) s :=
      ⟨⟨fs, hreached⟩, hτ, le_refl _⟩
    exact h.call (hH b _) (by exact_mod_cast Expr.sizeOf_callee callee args) fun a ha => by
      exact_mod_cast Expr.sizeOf_arg ha
  · rintro b u env rfl rfl
    obtain ⟨B, hB⟩ := hτ.1.handsOn
    have h : Room options.maxDepth s₀ _ env ⊤ s := ⟨⟨fs, hreached⟩, hτ.2, le_refl _⟩
    refine ⟨B, fun m t hm => ?_⟩
    obtain ⟨⟨⟨gs, hreached⟩, henv, hrank⟩, hp, hcomposed⟩ := hm.composed h (hH b _) hτ.1 hB
    exact ⟨hreached.orderly hs₀, hcomposed,
      (Conducts.advance ⟨⟨gs, hreached⟩, henv, hrank⟩ hτ.1 hB hp hcomposed).yields (hH b _)⟩

/-- The fresh store, with a journal. -/
def Store.freshWith (notes : Journal) : Store := { Store.fresh with journal := notes }

/-- The store in which the body of a program is evaluated. -/
def CompiledProgram.opening (c : CompiledProgram) (notes : Journal) : Store :=
  c.definitions.foldl (fun s d => s.set globalEnv d.1 (.closure d.2 globalEnv))
    (Store.freshWith notes)

/-- The body of a program is executed once its definitions are bound. -/
lemma CompiledProgram.execute_eq (c : CompiledProgram) (options : RuntimeOptions) (bound : Nat)
    (notes : Journal) :
    c.execute options bound (Store.freshWith notes)
      = answer options bound (.execute c.main globalEnv) (c.opening notes) := by
  unfold CompiledProgram.execute CompiledProgram.opening
  generalize Store.freshWith notes = s
  induction c.definitions generalizing s with
  | nil => rfl
  | cons d ds ih =>
    rw [List.forIn_cons, List.foldl_cons]
    exact ih _

/-- What a run of a compiled program comes to. -/
lemma Program.run_of_compiled {p : Program} {config : Config} {c : CompiledProgram} {k : Journal}
    (hc : Compiling.program config.compiler .counting p #[] = .ok c k) : ∃ notes, ∀ bound,
      (∀ v t, answer config.runtime bound (.execute c.main globalEnv) (c.opening notes) = .ok v t →
        p.run config bound = ⟨.ok v, t⟩) ∧
      ∀ h t, answer config.runtime bound (.execute c.main globalEnv) (c.opening notes) = .error h t →
        p.run config bound = ⟨.error (.ofHalt h), t⟩ := by
  refine ⟨k.push ⟨.info, s!"running {c.main.fingerprint} ({c.definitions.length} definitions)"⟩,
    fun bound => ?_⟩
  have hexecute : c.execute config.runtime bound ({ Store.fresh with journal := k }.log .info
      s!"running {c.main.fingerprint} ({c.definitions.length} definitions)") = _ :=
    c.execute_eq config.runtime bound _
  constructor
  all_goals
    intro a t h
    rw [Program.run, hc]
    dsimp only
    rw [hexecute, h]

lemma exists_mem_of_lookup {α β : Type} [BEq α] {x : α} {v : β} {l : List (α × β)}
    (h : l.lookup x = some v) : ∃ y, (y, v) ∈ l := by
  induction l with
  | nil => cases h
  | cons d l ih =>
    obtain ⟨y, w⟩ := d
    rw [List.lookup_cons] at h
    split at h
    · cases h
      exact ⟨y, List.mem_cons_self⟩
    · obtain ⟨z, hz⟩ := ih h
      exact ⟨z, List.mem_cons_of_mem _ hz⟩

lemma Store.plain_of_mem_globals {x : Symbol} {v : Value} {n : Nat} (h : (x, v) ∈ Store.globals) :
    v.Plain n := by
  rcases List.mem_append.1 h with hmem | hmem
  · obtain ⟨b, -, heq⟩ := List.mem_map.1 hmem
    cases heq
    trivial
  · obtain ⟨f, -, heq⟩ := List.mem_map.1 hmem
    cases heq
    trivial

/-- Everything that is bound at first is ordinary. -/
lemma Store.plain_of_local?_fresh {notes : Journal} {e : EnvId} {x : Symbol} {v : Value} {n : Nat}
    (h : (Store.freshWith notes).local? e x = some v) : v.Plain n := by
  cases e with
  | zero =>
    obtain ⟨y, hmem⟩ := exists_mem_of_lookup h
    exact plain_of_mem_globals hmem
  | succ e => cases h

lemma Store.proper_fresh (notes : Journal) : (Store.freshWith notes).Proper where
  environments e E hE := by
    cases e with
    | zero =>
      cases hE
      refine ⟨fun o ho => absurd ho List.not_mem_nil, fun x v hv => .lazy (.plain ?_)⟩
      exact Store.plain_of_local?_fresh (show (freshWith notes).local? globalEnv x = some v from hv)
    | succ e => cases hE
  promises p q hq := by cases hq
  inherited := Nat.le_refl 0

/-- Binding compiled functions in the global environment. -/
lemma Store.Reached.define {definitions : List (Symbol × FunctionUnit)}
    (hdefinitions : ∀ d ∈ definitions, d.2.Compiled) (h : ∃ fs, s₀.Reached fs s)
    (hs : globalEnv < s.environments.size) :
    (∃ fs, s₀.Reached fs
      (definitions.foldl (fun s d => s.set globalEnv d.1 (.closure d.2 globalEnv)) s)) ∧
    globalEnv < (definitions.foldl (fun s d => s.set globalEnv d.1 (.closure d.2 globalEnv))
      s).environments.size := by
  induction definitions generalizing s with
  | nil => exact ⟨h, hs⟩
  | cons d ds ih =>
    obtain ⟨hd, hds⟩ := List.forall_mem_cons.1 hdefinitions
    obtain ⟨fs, hreached⟩ := h
    refine ih hds ⟨_, hreached.changes (.assign globalEnv d.1 ⟨hd, hs⟩)⟩ ?_
    rw [s.size_set]
    exact hs

/-- The body of a compiled program is executed in a store that is reached from the fresh one. -/
lemma Compiling.program_opens {o : CompilerOptions} {p : Program} {c : CompiledProgram}
    {j k : Journal} (h : Compiling.program o .counting p j = .ok c k) (notes : Journal) :
    (∃ fs, (Store.freshWith notes).Reached fs (c.opening notes)) ∧
      Task.Proper (c.opening notes) (.execute c.main globalEnv) := by
  obtain ⟨hdefinitions, hmain⟩ := compiled_of_program h
  have hcompiled : ∀ d ∈ c.definitions, d.2.Compiled := fun d hd => by
    obtain ⟨f, -, -, hf⟩ := exists_left_of_forall₂ hdefinitions hd
    exact ⟨o, f.function, hf⟩
  obtain ⟨hopening, hglobal⟩ :=
    Store.Reached.define hcompiled ⟨_, .start (Store.proper_fresh notes)⟩ Nat.one_pos
  exact ⟨hopening, ⟨o, p.body, hmain⟩, hglobal⟩

/-- **Promises and `...` never become ordinary values.** -/
theorem Compiling.program_orderly {o : CompilerOptions} {p : Program} {c : CompiledProgram}
    {j k : Journal} (h : Compiling.program o .counting p j = .ok c k) (options : RuntimeOptions)
    (bound : Nat) (notes : Journal) :
    c.execute options bound (Store.freshWith notes)
        = answer options bound (.execute c.main globalEnv) (c.opening notes) ∧
      ∀ n τ s, Evaluations options bound (.execute c.main globalEnv) (c.opening notes) n τ s →
        Evaluation.Orderly options (Store.freshWith notes) n τ s := by
  obtain ⟨hopening, hbody⟩ := program_opens h notes
  refine ⟨c.execute_eq options bound notes, fun n τ s hτ => ?_⟩
  obtain ⟨hs, hproper⟩ := hτ.proper hopening hbody
  exact Evaluation.orderly (fun _ _ _ => Store.plain_of_local?_fresh) hs hproper

/-- The program is accepted by the compiler. -/
def Compiling.accepts (o : CompilerOptions) (p : Program) : Bool :=
  match Compiling.program o .counting p #[] with
  | .ok _ _ => true
  | .error _ _ => false

lemma Compiling.exists_of_accepts {o : CompilerOptions} {p : Program} (h : accepts o p = true) :
    ∃ c k, program o .counting p #[] = .ok c k := by
  unfold accepts at h
  cases hc : program o .counting p #[] with
  | ok c k => exact ⟨c, k, rfl⟩
  | error e k =>
    rw [hc] at h
    cases h

/-- A function that returns its argument, applied to a call, so that it is handed a promise. -/
theorem Compiling.program_orderly_identity :
    let p : Program := ⟨[⟨⟨"f"⟩, [⟨⟨"x"⟩, none⟩], .symbol ⟨"x"⟩⟩],
      .call (.symbol ⟨"f"⟩) [⟨none, .call (.symbol ⟨"list"⟩) [⟨none, .int 1⟩]⟩]⟩
    ∃ c k, Compiling.program {} .counting p #[] = .ok c k ∧
      Evaluation.Orderly {} (Store.freshWith #[]) 9 (.execute c.main globalEnv) (c.opening #[]) := by
  intro p
  obtain ⟨c, k, h⟩ := exists_of_accepts (o := {}) (p := p) (by decide +kernel)
  exact ⟨c, k, h, (program_orderly h {} 9 #[]).2 _ _ _ .main⟩

end CallByNeed
