import CallByNeed.Proofs.Comparison.Diagonal
import CallByNeed.Proofs.Comparison.Opening
import CallByNeed.Proofs.Plain.Ending

/-!
# Builtins that are called directly

A builtin whose name a program leaves alone may be called directly or be looked up first, which makes
no difference for programs that run through (`Program.run_staticPrimitives`). The arguments are
evaluated in the unit that calls it or in units of their own, one level deeper, and `...` is read
after them or before.

So the two runs are equally deep only if both call the same builtins directly. What holds of such runs
is shown first, and tells of each run that `...` stays as it is; the second comparison uses this.
-/

namespace CallByNeed

variable {o o' : CompilerOptions} {statics : List String} {same : Prop} {n b : Nat}
  {r : RuntimeOptions}

/-! ## Names that are left alone -/

/-- Programs bind no function of these names, and do not assign `...`. -/
def Leeway.sparing (statics : List String) : Leeway where
  formal name := !statics.contains name.name
  target name := !statics.contains name.name && name != .ellipsis

/-- Code of one expression that leaves the names alone: compiled in two ways, compiled while it is
evaluated as written, or as it is written. -/
inductive CompiledTwice (l : Leeway) (o o' : CompilerOptions) : Code → Code → Prop
  | unit {e : Expr} {u u' : CodeUnit} (he : e.keepsTo l = true) (h : CompiledFrom o e u)
    (h' : CompiledFrom o' e u') : CompiledTwice l o o' (.unit u) (.unit u')
  | literal {e : Expr} {u u' : CodeUnit} (he : e.keepsTo l = true) (h : CompiledFrom {} e u)
    (h' : CompiledFrom {} e u') : CompiledTwice l o o' (.unit u) (.unit u')
  | written {e : Expr} (he : e.keepsTo l = true) : CompiledTwice l o o' (.expr e) (.expr e)

/-- Runs of code compiled in two ways that may call builtins of some names directly: the same ones in
both or not. If not, then only the values of the first run say something about the second one. -/
def World.sparing (statics : List String) (o o' : CompilerOptions) (same : Prop) : World where
  code := CompiledTwice (.sparing statics) o o'
  named := False
  defects := False
  deep := same
  cut := True
  dropped e := ¬ same ∧ ∃ limit, e = .depthExceeded limit
  pins := True
  pinned name := name.name ∈ statics
  steady := True
  lax := ¬ same

namespace World

lemma lawful_sparing : (World.sparing statics o o' same).Lawful where
  level _ _ _ h := by
    cases h with
    | unit => exact ⟨fun _ => ⟨_, rfl⟩, fun _ => ⟨_, rfl⟩⟩
    | literal => exact ⟨fun _ => ⟨_, rfl⟩, fun _ => ⟨_, rfl⟩⟩
    | written => exact .rfl
  depth h limit := ⟨h, limit, rfl⟩
  sound e h := by
    obtain ⟨-, limit, rfl⟩ := h
    exact id

lemma heeds_sparing : (World.sparing statics o o' same).Heeds (.sparing statics) where
  forms _ := rfl
  formal name h _ hname := by
    simp [Leeway.sparing, show name.name ∈ statics from hname] at h
  target name h _ := by
    simp only [Leeway.sparing, Bool.and_eq_true, Bool.not_eq_true', bne_iff_ne,
      List.contains_eq_mem, decide_eq_false_iff_not] at h
    exact ⟨h.1, fun _ => h.2⟩
  code e he := .written he

/-- The two ways of compiling are aligned if they differ in such builtins only. -/
lemma aligned_sparing (h : o.inlineControlFlow = o'.inlineControlFlow) :
    Aligned (World.sparing statics o o' same) (.sparing statics) o o' where
  toHeeds := heeds_sparing
  lawful := lawful_sparing
  unnamed := id
  units _ _ _ he h h' := .unit he h h'
  inlined := h

lemma aligned_literal : Aligned (World.sparing statics o o' same) (.sparing statics) {} {} where
  toHeeds := heeds_sparing
  lawful := lawful_sparing
  unnamed := id
  units _ _ _ he h h' := .literal he h h'
  inlined := rfl

/-- Hosts do such code alike if they do so with builtins that only one run calls directly. -/
lemma hosts_sparing (h : o.inlineControlFlow = o'.inlineControlFlow)
    (hs : ∀ b, (World.sparing statics o o' same).Hosts r b → ∀ s : Symbol,
      o.isStaticPrimitive s.name ≠ o'.isStaticPrimitive s.name → (Builtin.ofName? s.name).isSome →
        Exchangeable (World.sparing statics o o' same) (.sparing statics) o r b s) (b : Nat) :
    (World.sparing statics o o' same).Hosts r b := by
  refine hosts_of_code lawful_sparing trivial (fun b hH c c' env hc n g henv hg => ?_) b
  have hunbounded := hg.unbounded trivial
  cases hc with
  | unit he hu hu' =>
    refine hu.run_left lawful_sparing trivial (answer_oblivious r b) (fun M hM => ?_) b
    refine hu'.run_right lawful_sparing trivial hunbounded fun M' hM' => ?_
    exact Means.together (aligned_sparing h) hH (hs b hH) _ he M M' hM hM' b (Nat.le_refl b) n g
      henv hg
  | literal he hu hu' =>
    refine hu.run_left lawful_sparing trivial (answer_oblivious r b) (fun M hM => ?_) b
    refine hu'.run_right lawful_sparing trivial hunbounded fun M' hM' => ?_
    exact Means.together aligned_literal hH (fun s hs => absurd rfl hs) _ he M M' hM hM' b
      (Nat.le_refl b) n g henv hg
  | written he =>
    exact Interpreter.keeping_rel lawful_sparing id heeds_sparing
      (fun _ _ _ he h h' => .literal he h h') (hH b (Nat.le_refl b) g hg) henv he

lemma halves_sparing :
    (World.sparing statics o o' same).Halves (World.sparing statics o o True) where
  code c c' h := by
    cases h with
    | unit he h => exact .unit he h h
    | literal he h => exact .literal he h h
    | written he => exact .written he
  pins := .rfl
  pinned _ := .rfl
  steady := .rfl

/-- Builtins of these names may be called directly in one of the runs only. -/
theorem hosts_exchanging (h : o.inlineControlFlow = o'.inlineControlFlow)
    (hs : ∀ name, o.isStaticPrimitive name ≠ o'.isStaticPrimitive name → name ∈ statics) (b : Nat) :
    (World.sparing statics o o' False).Hosts r b := by
  refine hosts_sparing h (fun b _ s hdiffers _ => ?_) b
  have hsame : (World.sparing statics o o True).Hosts r b :=
    hosts_sparing rfl (fun _ _ s hs => absurd rfl hs) b
  exact {
    pins := trivial
    pinned := hs _ hdiffers
    steady := trivial
    lax := id
    cut := trivial
    deep := id
    steadying := (aligned_sparing rfl).steadying halves_sparing hsame trivial fun _ hd =>
      hd.1 trivial }

end World

/-! ## Programs -/

/-- Two compiled programs that may call builtins of these names directly, one or the other: if the
first one comes to a value, then so does the second one, unless it is nested too deeply. -/
theorem Compiling.program_exchanging {p : Program} {c c' : CompiledProgram} {k k' : Journal}
    (h : o.inlineControlFlow = o'.inlineControlFlow)
    (hs : ∀ name, o.isStaticPrimitive name ≠ o'.isStaticPrimitive name → name ∈ statics)
    (hp : p.keepsTo (.sparing statics) = true) (hc : program o .counting p #[] = .ok c k)
    (hc' : program o' .counting p #[] = .ok c' k') (notes notes' : Journal) {v : Value} {t : Store}
    (hv : answer r b (.execute c.main globalEnv) (c.opening notes) = .ok v t) :
    ∃ m, (∃ limit t', ∀ i ≥ m, answer r i (.execute c'.main globalEnv) (c'.opening notes')
        = .error (.error (.depthExceeded limit)) t') ∨
      ∃ v' t', ValueRel (.sparing statics o o' False) t.environments.size v v' ∧
        ∀ i ≥ m, answer r i (.execute c'.main globalEnv) (c'.opening notes') = .ok v' t' := by
  have hheeds : (World.sparing statics o o' False).Heeds (.sparing statics) := World.heeds_sparing
  have hbody : p.body.keepsTo (.sparing statics) = true := by
    rw [Program.keepsTo, Bool.and_eq_true] at hp
    exact hp.2
  have hstores := StoreRel.opening (Compiling.definitions_related id hheeds
    (fun _ _ _ he h h' => CompiledTwice.unit he h h') hp hc hc') notes notes'
  have hmain := CompiledTwice.unit hbody (compiled_of_program hc).2 (compiled_of_program hc').2
  have hglobal := (program_opens hc notes).2.2
  have hm := World.hosts_exchanging (r := r) h hs b b (Nat.le_refl b) _ (.inl ⟨trivial, .id⟩) _ _ _
    (TaskRel.execute hmain fun _ => hglobal) _ _ hstores (Nat.le_refl _)
  rw [show (HostFamily.whole r).host b _ _ = _ from hv] at hm
  cases hm with
  | excused hr => cases hr
  | dropped hB he =>
    obtain ⟨-, limit, rfl⟩ := he
    obtain ⟨m, hm⟩ := hB
    exact ⟨m, .inl ⟨limit, _, hm⟩⟩
  | same hB hr =>
    obtain ⟨m, hm⟩ := hB
    cases hr with
    | ok hvalue => exact ⟨m, .inr ⟨_, _, hvalue, hm⟩⟩

/-- The settings with other builtins that are called directly. -/
def Config.withStatics (config : Config) (statics : List String) : Config :=
  { config with compiler := { config.compiler with staticPrimitives := statics } }

/-- The program was compiled, and its run did not nest too deeply. -/
structure Outcome.Regular (x : Outcome) : Prop where
  compiled : ∀ e, x.result ≠ .error (.compile e)
  shallow : ∀ limit, x.result ≠ .error (.eval (.depthExceeded limit))

/-- If the program comes to a value in one of two ways, then it does in the other way. -/
lemma Program.value_of_run {p : Program} {config config' : Config} {x x' : Outcome} {v : Value}
    {N : Nat} (h : config.compiler.inlineControlFlow = config'.compiler.inlineControlFlow)
    (hs : ∀ name, config.compiler.isStaticPrimitive name ≠ config'.compiler.isStaticPrimitive name →
      name ∈ statics)
    (hruntime : config'.runtime = config.runtime) (hp : p.keepsTo (.sparing statics) = true)
    (hx : ∀ bound ≥ N, p.run config bound = x) (hx' : ∀ bound ≥ N, p.run config' bound = x')
    (hregular : x'.Regular) (hv : x.result = .ok v) :
    ∃ v', x'.result = .ok v' ∧ ValueRel (.sparing statics config.compiler config'.compiler False)
      x.store.environments.size v v' := by
  cases hc : Compiling.program config.compiler .counting p #[] with
  | error e k =>
    rw [← hx N (Nat.le_refl N), Program.run, hc] at hv
    cases hv
  | ok c k =>
    cases hc' : Compiling.program config'.compiler .counting p #[] with
    | error e k' =>
      refine absurd ?_ (hregular.compiled e)
      rw [← hx' N (Nat.le_refl N), Program.run, hc']
    | ok c' k' =>
      obtain ⟨notes, hrun⟩ := Program.run_of_compiled hc
      obtain ⟨notes', hrun'⟩ := Program.run_of_compiled hc'
      rw [hruntime] at hrun'
      cases ha : answer config.runtime N (.execute c.main globalEnv) (c.opening notes) with
      | error e t =>
        rw [← hx N (Nat.le_refl N), (hrun N).2 e t ha] at hv
        cases hv
      | ok w t =>
        obtain rfl : x = ⟨.ok w, t⟩ := (hx N (Nat.le_refl N)).symm.trans ((hrun N).1 w t ha)
        obtain rfl : w = v := Except.ok.inj hv
        obtain ⟨m, ⟨limit, t', hm⟩ | ⟨v', t', hvalue, hm⟩⟩ :=
          Compiling.program_exchanging h hs hp hc hc' notes notes' ha
        · refine absurd ?_ (hregular.shallow limit)
          rw [← hx' (max N m) (Nat.le_max_left N m),
            (hrun' _).2 _ _ (hm _ (Nat.le_max_right N m))]
          rfl
        · refine ⟨v', ?_, hvalue⟩
          rw [← hx' (max N m) (Nat.le_max_left N m),
            (hrun' _).1 _ _ (hm _ (Nat.le_max_right N m))]

/-- With both settings the program comes to a value or with neither, and the values are the same in
some sense, unless the program is not compiled or nested too deeply with one of them. -/
def Program.RunsAlike (p : Program) (config config' : Config) (R : Nat → Value → Value → Prop) :
    Prop :=
  ∃ N x x', (∀ bound ≥ N, p.run config bound = x) ∧ (∀ bound ≥ N, p.run config' bound = x') ∧
    (x.Regular → x'.Regular →
      ((∃ v, x.result = .ok v) ↔ ∃ v', x'.result = .ok v') ∧
      ∀ v v', x.result = .ok v → x'.result = .ok v' → R x.store.environments.size v v')

/-- **Calling builtins directly makes no difference for programs that leave their names alone**, and
in which assignment forms are no values. The values are the same up to the units in closures. -/
theorem Program.run_staticPrimitives (p : Program) (config : Config) (statics : List String)
    (hp : p.keepsTo (.sparing statics) = true) :
    p.RunsAlike (config.withStatics statics) (config.withStatics [])
      (ValueRel (.sparing statics (config.withStatics statics).compiler
        (config.withStatics []).compiler False)) := by
  obtain ⟨-, N, x, -, hx⟩ := p.run_ends (config.withStatics statics)
  obtain ⟨-, N', x', -, hx'⟩ := p.run_ends (config.withStatics [])
  have hstatic : ∀ name, (config.withStatics statics).compiler.isStaticPrimitive name
      ≠ (config.withStatics []).compiler.isStaticPrimitive name → name ∈ statics := by
    intro name hname
    simpa [CompilerOptions.isStaticPrimitive, Config.withStatics] using hname
  have hinlined : (config.withStatics statics).compiler.inlineControlFlow
      = (config.withStatics []).compiler.inlineControlFlow := rfl
  have hx₁ : ∀ bound ≥ max N N', p.run (config.withStatics statics) bound = x :=
    fun bound hb => hx bound (Nat.le_trans (Nat.le_max_left N N') hb)
  have hx₂ : ∀ bound ≥ max N N', p.run (config.withStatics []) bound = x' :=
    fun bound hb => hx' bound (Nat.le_trans (Nat.le_max_right N N') hb)
  refine ⟨max N N', x, x', hx₁, hx₂, fun hregular hregular' => ?_⟩
  have hforth := fun v (hv : x.result = .ok v) =>
    p.value_of_run hinlined hstatic rfl hp hx₁ hx₂ hregular' hv
  have hback := fun v (hv : x'.result = .ok v) =>
    p.value_of_run hinlined.symm (fun name h => hstatic name h.symm) rfl hp hx₂ hx₁ hregular hv
  refine ⟨⟨fun ⟨v, hv⟩ => ?_, fun ⟨v, hv⟩ => ?_⟩, fun v v' hv hv' => ?_⟩
  · obtain ⟨v', hv', -⟩ := hforth v hv
    exact ⟨v', hv'⟩
  · obtain ⟨v', hv', -⟩ := hback v hv
    exact ⟨v', hv'⟩
  · obtain ⟨w, hw, hvalue⟩ := hforth v hv
    exact Except.ok.inj (hw.symm.trans hv') ▸ hvalue

/-- The `...` of a function is spliced by a builtin, next to an argument that is a call. -/
theorem Program.run_staticPrimitives_splice :
    let p : Program := ⟨[⟨⟨"f"⟩, [⟨.ellipsis, none⟩], .call (.symbol ⟨"list"⟩)
        [⟨none, .symbol .ellipsis⟩, ⟨none, .call (.symbol ⟨"sum"⟩) [⟨none, .symbol .ellipsis⟩]⟩]⟩],
      .call (.symbol ⟨"f"⟩) [⟨none, .int 1⟩, ⟨none, .int 2⟩]⟩
    p.keepsTo (.sparing ["list", "sum"]) = true ∧
      p.RunsAlike (Config.withStatics {} ["list", "sum"]) (Config.withStatics {} [])
        (ValueRel (.sparing ["list", "sum"] (Config.withStatics {} ["list", "sum"]).compiler
          (Config.withStatics {} []).compiler False)) := by
  intro p
  have hp : p.keepsTo (.sparing ["list", "sum"]) = true := by decide +kernel
  exact ⟨hp, p.run_staticPrimitives {} ["list", "sum"] hp⟩

lemma Outcome.Regular.of_value {x : Outcome} {v : Value} (h : x.result = .ok v) : x.Regular where
  compiled e he := by
    rw [h] at he
    cases he
  shallow limit hl := by
    rw [h] at hl
    cases hl

/-- A program that has a value of some type under some bound has one under all large bounds. -/
lemma Program.value_of_typeName {p : Program} {config : Config} {bound N : Nat} {name : String}
    {x : Outcome} (h : (p.run config bound).result.toOption.map Value.typeName = some name)
    (hx : ∀ n ≥ N, p.run config n = x) : ∃ v, x.result = .ok v ∧ v.typeName = name := by
  obtain ⟨v, hv, htype⟩ := Option.map_eq_some_iff.1 h
  cases hr : (p.run config bound).result with
  | error e =>
    rw [hr] at hv
    cases hv
  | ok w =>
    rw [hr] at hv
    cases hv
    obtain ⟨m, hm⟩ := Program.run_settles hr
    have hend := hm (max N m) (Nat.le_max_right N m)
    rw [hx _ (Nat.le_max_left N m)] at hend
    exact ⟨v, hend, htype⟩

/-- A function may be handed the form that assigns, and so may bind a name that the program leaves
alone as far as one can see: the call of `list` is one of `sum`, unless the builtin is called
directly. -/
theorem Program.not_run_staticPrimitives_of_forms :
    let p : Program := ⟨[⟨⟨"g"⟩, [⟨⟨"op"⟩, none⟩], .call (.symbol ⟨"\x7b"⟩)
        [⟨none, .call (.symbol ⟨"op"⟩) [⟨none, .symbol ⟨"list"⟩⟩, ⟨none, .symbol ⟨"sum"⟩⟩]⟩,
          ⟨none, .call (.symbol ⟨"list"⟩) [⟨none, .int 1⟩, ⟨none, .int 2⟩]⟩]⟩],
      .call (.symbol ⟨"g"⟩) [⟨none, .symbol ⟨"<-"⟩⟩]⟩
    p.keepsTo { Leeway.sparing ["list"] with forms := true } = true ∧
      ¬ p.RunsAlike (Config.withStatics {} ["list"]) (Config.withStatics {} [])
        fun _ v v' => v.typeName = v'.typeName := by
  intro p
  refine ⟨by decide +kernel, ?_⟩
  rintro ⟨N, x, x', hx, hx', halike⟩
  have hdirect : (p.run (Config.withStatics {} ["list"]) 64).result.toOption.map Value.typeName
    = some "list" := by decide +kernel
  have hlooked : (p.run (Config.withStatics {} []) 64).result.toOption.map Value.typeName
    = some "integer" := by decide +kernel
  obtain ⟨v, hv, htype⟩ := p.value_of_typeName hdirect hx
  obtain ⟨v', hv', htype'⟩ := p.value_of_typeName hlooked hx'
  have hsame : v.typeName = v'.typeName := (halike (.of_value hv) (.of_value hv')).2 v v' hv hv'
  rw [htype, htype'] at hsame
  exact absurd hsame (by decide)

end CallByNeed
