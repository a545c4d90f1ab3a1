import CallByNeed.Code.OfProgram
import CallByNeed.Proofs.Flow.Tidy
import CallByNeed.Proofs.Plain.Handing
import CallByNeed.Proofs.Source.Meaning

/-!
# Units of expressions

Whatever is compiled for a program is compiled from an expression of it: the bodies, the late
arguments, the function literals and the defaults of their formals. So the units that a unit of an
expression holds are units of expressions (`CompiledFrom.thunk`, `CompiledFrom.closure`). What is
drafted for an expression does not read `...` by its name, so that its unit hands on the promises that
it pushes (`CompiledFrom.handsOn`).
-/

namespace CallByNeed

open CallByNeed.Flow (Term Thunk Procedure Body Statement Taken Drafted DraftedSteps DraftedNow
  DraftedLate DraftedFormals)

/-! ## What is met -/

/-- The formal was drafted for one of the source. -/
structure DraftedFormal (o : CompilerOptions) (x : Formal Expr) (y : Formal Thunk) : Prop where
  name : y.name = x.name
  default : Option.Rel (fun e (d : Thunk) => DraftedBody o e d.body) x.default y.default

/-- The procedure was drafted for the function literal. -/
structure DraftedLiteral (o : CompilerOptions) (f : Function) (p : Procedure Term) : Prop where
  formals : List.Forall₂ (DraftedFormal o) f.formals p.formals
  body : DraftedBody o f.body p.body

/-- What is met was drafted for an expression. -/
def Visit.Sourced (o : CompilerOptions) : Visit → Prop
  | .thunk d => DraftedBody o d.source d.body
  | .closure _ p => ∃ f, DraftedLiteral o f p
  | .site _ => True

/-- A bare name is no `...` if the expression is none. -/
lemma Expr.isEllipsis_of_symbol? {e : Expr} {s : Symbol} (hs : e.symbol? = some s)
    (h : e.isEllipsis = false) : s.isEllipsis = false := by
  cases e with
  | symbol name =>
    obtain rfl : name = s := Option.some.inj hs
    exact h
  | _ => cases hs

namespace Flow

variable {o : CompilerOptions} {ts us : List Term} {t u : Term} {b c : Body} {s : Statement Term}

/-- Lines and operands that were drafted for expressions: so was all that is nested in them, and no
operand reads `...` by its name. -/
structure Sourced (o : CompilerOptions) (ts : List Term) (b : Body) : Prop where
  visits : ∀ v ∈ b.meets ++ Term.visitsOf ts, v.Sourced o
  sober : ∀ t ∈ b.operands ++ ts, t.Sober

namespace Sourced

lemma append (h : Sourced o ts b) (h' : Sourced o us c) : Sourced o (ts ++ us) (b ++ c) where
  visits v hv := by
    have hb := h.visits v
    have hc := h'.visits v
    simp only [Body.meets_append, Term.visitsOf_append, List.mem_append] at hv hb hc
    tauto
  sober v hv := by
    have hb := h.sober v
    have hc := h'.sober v
    simp only [Body.operands_append, List.mem_append] at hv hb hc
    tauto

/-- An operand that needs no lines. -/
lemma operand (t : Term) (hvisits : ∀ v ∈ t.visits, v.Sourced o) (hsober : t.Sober) :
    Sourced o [t] [] where
  visits v hv := hvisits v (by simpa using hv)
  sober v hv := by
    obtain rfl : v = t := by simpa using hv
    exact hsober

/-- An operand in which nothing is nested. -/
lemma leaf (t : Term) (hvisits : t.visits = []) (hsober : t.Sober) : Sourced o [t] [] :=
  operand t (fun _ hv => absurd (hvisits ▸ hv) List.not_mem_nil) hsober

lemma nil : Sourced o [] [] where
  visits _ hv := absurd hv List.not_mem_nil
  sober _ ht := absurd ht List.not_mem_nil

/-- Operands that lines of others are followed by. -/
lemma operands (h : Sourced o ts b) (h' : Sourced o us []) : Sourced o us b where
  visits v hv := by
    rcases List.mem_append.1 hv with hv | hv
    · exact h.visits v (List.mem_append_left _ hv)
    · exact h'.visits v (by simpa using hv)
  sober v hv := by
    rcases List.mem_append.1 hv with hv | hv
    · exact h.sober v (List.mem_append_left _ hv)
    · exact h'.sober v (by simpa using hv)

/-- A statement that uses up the operand. -/
lemma statement (h : Sourced o [t] b) (hs : s.operand? = some t) :
    Sourced o [] (b ++ [.statement s]) where
  visits v hv := h.visits v (by simpa [Statement.visits_eq, hs] using hv)
  sober v hv := h.sober v (by simpa [hs] using hv)

lemma effect (h : Sourced o [t] b) : Sourced o [] (b ++ effectOf t) := by
  unfold effectOf
  split
  · rw [List.append_nil]
    exact ⟨fun v hv => h.visits v (List.mem_append_left _ (by simpa using hv)), fun v hv =>
      h.sober v (List.mem_append_left _ (by simpa using hv))⟩
  · exact h.statement rfl

/-- A conditional. -/
lemma choice {tc ty tn : Term} {bc yb nb : Body} {r l : Nat} (hc : Sourced o [tc] bc)
    (hy : Sourced o [ty] yb) (hn : Sourced o [tn] nb) :
    Sourced o [.temp r] (choiceLines bc yb nb tc ty tn r l) where
  visits v hv := by
    have hc := hc.visits v
    have hy := hy.visits v
    have hn := hn.visits v
    simp only [choiceLines, Body.meets_append, Body.meets_statement, Body.meets_label,
      Body.meets_nil, Statement.visits, Term.visitsOf_singleton, Term.visits, List.mem_append,
      List.not_mem_nil] at hv hc hy hn
    tauto
  sober t ht := by
    have hc := hc.sober t
    have hy := hy.sober t
    have hn := hn.sober t
    have htemp : t = .temp r → t.Sober := fun h => h ▸ trivial
    simp only [choiceLines, Body.operands_append, Body.operands_statement, Body.operands_label,
      Body.operands_nil, Statement.operand?, Option.toList, List.mem_append, List.mem_singleton,
      List.not_mem_nil] at ht hc hy hn
    tauto

/-- A loop. -/
lemma loop {name : Symbol} {tq te : Term} {bq be : Body} {q n l : Nat} (hq : Sourced o [tq] bq)
    (he : Sourced o [te] be) :
    Sourced o [.null] (bq ++ (loopHead name tq q n l ++ (be ++ (effectOf te ++ loopTail n l)))) where
  visits v hv := by
    have hq := hq.visits v
    have he := he.effect.visits v
    simp only [loopHead, loopTail, counterOf, Body.meets_append, Body.meets_statement,
      Body.meets_label, Body.meets_nil, Statement.visits, Term.visitsOf_singleton,
      Term.visitsOf_nil, Term.visits, Term.null, List.mem_append, List.not_mem_nil] at hv hq he
    tauto
  sober t ht := by
    have hq := hq.sober t
    have he := he.effect.sober t
    have hown : t ∈ [Term.null, .length (.temp q), .int 0,
        .atLeast (counterOf n) (.local n ⟨"length"⟩), .element (.temp q) (counterOf n),
        .increment (counterOf n)] → t.Sober := by
      intro h
      simp only [List.mem_cons, List.not_mem_nil, or_false] at h
      rcases h with rfl | rfl | rfl | rfl | rfl | rfl <;> simp [Term.Sober, counterOf, Term.null]
    simp only [loopHead, loopTail, Body.operands_append, Body.operands_statement,
      Body.operands_label, Body.operands_nil, Statement.operand?, Option.toList, List.mem_append,
      List.mem_cons, List.not_mem_nil] at ht hq he hown
    tauto

/-- An assignment of the environment. -/
lemma assignment {name : Symbol} {r : Nat} (h : Sourced o [t] b) :
    Sourced o [.temp r] (b ++ [.statement (.assign (.temp r) t),
      .statement (.assign (.env name) (.temp r))]) where
  visits v hv := h.visits v (by simpa [Statement.visits_eq, Statement.operand?, Term.visits] using hv)
  sober v hv := by
    have h := h.sober v
    have htemp : v = .temp r → v.Sober := fun h => h ▸ trivial
    simp only [Body.operands_append, Body.operands_statement, Body.operands_nil,
      Statement.operand?, Option.toList, List.mem_append, List.mem_singleton,
      List.not_mem_nil] at hv h
    tauto

/-- A call, given the operands that it takes. -/
lemma call (u : Term) (h : Sourced o ts b)
    (hvisits : ∀ v ∈ u.visits, v ∈ Term.visitsOf ts ∨ ∃ c, v = .site c)
    (hsober : (∀ t ∈ ts, t.Sober) → u.Sober) : Sourced o [u] b where
  visits v hv := by
    rw [Term.visitsOf_singleton, List.mem_append] at hv
    rcases hv with hv | hv
    · exact h.visits v (List.mem_append_left _ hv)
    · rcases hvisits v hv with hv | ⟨c, rfl⟩
      · exact h.visits v (List.mem_append_right _ hv)
      · trivial
  sober v hv := by
    rcases List.mem_append.1 hv with hv | hv
    · exact h.sober v (List.mem_append_left _ hv)
    · rw [List.mem_singleton.1 hv]
      exact hsober fun t ht => h.sober t (List.mem_append_right _ ht)

end Sourced

/-! ## Drafted lines -/

mutual

/-- What an expression is drafted to was drafted for expressions. -/
theorem sourced_of_drafted {e : Expr} {lo hi : Taken} {t : Term} {b : Body} :
    Drafted o e lo t b hi → Sourced o [t] b
  | .reading h => .leaf (.env _) rfl h
  | .literal _ => .leaf (.literal _) rfl trivial
  | .closure hformals hbody => by
    refine .operand (.closure _ _) (fun v hv => ?_) trivial
    rw [Term.visits, List.mem_singleton] at hv
    subst hv
    exact ⟨_, sourced_of_draftedFormals hformals, _, _, _, _, hbody, rfl⟩
  | .whether _ hc hy =>
    .choice (sourced_of_drafted hc) (sourced_of_drafted hy) (.leaf .null rfl trivial)
  | .choice _ hc hy hn =>
    .choice (sourced_of_drafted hc) (sourced_of_drafted hy) (sourced_of_drafted hn)
  | .loop _ _ hq he => .loop (sourced_of_drafted hq) (sourced_of_drafted he)
  | .block _ _ h => sourced_of_draftedSteps h
  | .assignment _ _ h => (sourced_of_drafted h).assignment
  | @Drafted.primitive _ s args _ hi ts _ _ _ h => by
    refine (sourced_of_draftedNow h).call (.primitive s (operandsOf hi ⟨.symbol s, args⟩ ts))
      (fun v hv => ?_) Term.soberAll_iff.2
    exact (List.mem_cons.1 hv).symm.imp_right fun h => ⟨_, h⟩
  | @Drafted.named _ s args _ hi ts _ _ _ h => by
    refine (sourced_of_draftedLate h).call (.call (.name s) (operandsOf hi ⟨.symbol s, args⟩ ts))
      (fun v hv => ?_) Term.soberAll_iff.2
    simp only [operandsOf, Term.visits, List.mem_append, List.mem_cons] at hv
    rcases hv with rfl | rfl | hv | rfl | hv
    exacts [.inr ⟨_, rfl⟩, .inr ⟨_, rfl⟩, .inl hv, .inr ⟨_, rfl⟩, .inl hv]
  | @Drafted.computed _ callee args _ _ hi t ts _ _ hc h => by
    have hparts := (sourced_of_drafted hc).append (sourced_of_draftedLate h)
    rw [List.append_nil] at hparts
    refine hparts.call (.call (.computed t) (operandsOf hi ⟨callee, args⟩ ts)) (fun v hv => ?_)
      fun hsober => ⟨hsober _ List.mem_cons_self, Term.soberAll_iff.2 fun t ht =>
        hsober t (List.mem_cons_of_mem _ ht)⟩
    simp only [operandsOf, Term.visits, Term.visitsOf, List.mem_append, List.mem_cons,
      List.cons_append, List.nil_append] at hv ⊢
    rcases hv with hv | rfl | rfl | rfl | hv | rfl | hv
    exacts [.inl (.inl hv), .inr ⟨_, rfl⟩, .inr ⟨_, rfl⟩, .inr ⟨_, rfl⟩, .inl (.inr hv),
      .inr ⟨_, rfl⟩, .inl (.inr hv)]

theorem sourced_of_draftedSteps {args : List (Arg Expr)} {lo hi : Taken} {t : Term} {b : Body} :
    DraftedSteps o args lo t b hi → Sourced o [t] b
  | .nil => .leaf .null rfl trivial
  | .last h => sourced_of_drafted h
  | .step h hrest => by
    rw [← List.append_assoc]
    exact (sourced_of_drafted h).effect.append (sourced_of_draftedSteps hrest)

theorem sourced_of_draftedNow {args : List (Arg Expr)} {lo hi : Taken} {ts : List Term} {b : Body} :
    DraftedNow o args lo ts b hi → Sourced o ts b
  | .nil => .nil
  | .ellipsis _ hrest => (Sourced.leaf .ellipsis rfl trivial).append (sourced_of_draftedNow hrest)
  | .trivial _ h _ hrest => (sourced_of_drafted h).append (sourced_of_draftedNow hrest)
  | .settled _ h _ hrest => by
    rw [List.append_cons]
    exact (((sourced_of_drafted h).statement rfl).operands (.leaf (.temp _) rfl trivial)).append
      (sourced_of_draftedNow hrest)

theorem sourced_of_draftedLate {args : List (Arg Expr)} {lo hi : Taken} {ts : List Term} :
    DraftedLate o args lo ts hi → Sourced o ts []
  | .nil => .nil
  | .ellipsis _ hrest => (Sourced.leaf .ellipsis rfl trivial).append (sourced_of_draftedLate hrest)
  | .literal _ hrest =>
    (Sourced.leaf (.literal _) rfl trivial).append (sourced_of_draftedLate hrest)
  | .thunk hellipsis _ h hrest => by
    refine (Sourced.operand (.thunk _) (fun v hv => ?_) fun s hs => ?_).append
      (sourced_of_draftedLate hrest)
    · rw [Term.visits, Emits.lateVisits] at hv
      split at hv
      · exact absurd hv List.not_mem_nil
      · rw [List.mem_singleton.1 hv]
        exact ⟨_, _, _, _, h, rfl⟩
    · exact Expr.isEllipsis_of_symbol? hs hellipsis

theorem sourced_of_draftedFormals {formals : List (Formal Expr)} {lo hi : Taken}
    {fs : List (Formal Thunk)} :
    DraftedFormals o formals lo fs hi → List.Forall₂ (DraftedFormal o) formals fs
  | .nil => .nil
  | .plain hrest => .cons ⟨rfl, .none⟩ (sourced_of_draftedFormals hrest)
  | .default h hrest => .cons ⟨rfl, .some ⟨_, _, _, _, h, rfl⟩⟩ (sourced_of_draftedFormals hrest)

end

end Flow

/-! ## Units -/

section

variable {o : CompilerOptions} {e : Expr} {b : Body} {u t : CodeUnit}

lemma DraftedBody.sourced (h : DraftedBody o e b) : Flow.Sourced o [] b := by
  obtain ⟨lo, hi, t, lines, h, rfl⟩ := h
  exact (Flow.sourced_of_drafted h).statement rfl

/-- What is drafted on its own before something is compiled of it. -/
lemma Compiling.draft_bind {α β : Type} {step : Flow.Drafting α} {next : α → Compiling β} {y : β}
    {j k : Journal} (h : (draft step >>= next) j = .ok y k) :
    ∃ x d, step {} = .ok (x, d) ∧ next x j = .ok y k := by
  rw [Assemble.nested_bind_apply, draft] at h
  cases hstep : step {} with
  | error e =>
    rw [hstep] at h
    cases h
  | ok r =>
    rw [hstep] at h
    exact ⟨r.1, r.2, rfl, h⟩

/-- What a formal is compiled to was compiled from the default in the source. -/
lemma FitsFormal.compiledFormal {w : Formal Expr} {x : Formal Thunk} {y : Formal CodeUnit}
    (h : FitsFormal o x y) (hw : DraftedFormal o w x) : CompiledFormal o w y := by
  refine ⟨h.name.trans hw.name, ?_⟩
  have hx := h.default
  have hy := hw.default
  revert hx hy
  generalize w.default = d
  generalize x.default = d'
  generalize y.default = d''
  intro hx hy
  cases hy with
  | none =>
    cases hx
    exact .none
  | some hdrafted =>
    cases hx with
    | some hcompiled => exact .some ⟨_, hdrafted, hcompiled⟩

/-- What a function literal is compiled to was compiled from the one in the source. -/
lemma DraftedLiteral.compiledLiteral {f : Function} {p : Procedure Term} {g : FunctionUnit}
    (h : DraftedLiteral o f p) (hformals : List.Forall₂ (FitsFormal o) p.formals g.formals)
    (hbody : Compiles o p.body g.body) : CompiledLiteral o f g := by
  refine ⟨?_, _, h.body, hbody⟩
  exact forall₂_of_common h.formals.flip hformals fun _ _ _ _ hw hxy => hxy.compiledFormal hw

/-- A unit that is compiled for an expression. -/
lemma Compiling.compiledFrom_of_expression {name : String} {j k : Journal}
    (h : expression o .counting name e j = .ok u k) : CompiledFrom o e u := by
  obtain ⟨b, d, hb, h⟩ := draft_bind h
  obtain ⟨t, lines, rfl, hdrafted⟩ := Flow.Drafting.drafted_of_bodyOf hb
  exact ⟨_, ⟨_, _, _, _, hdrafted, rfl⟩, compiles_of_unit h⟩

/-- A function unit that is compiled for a function literal. -/
lemma Compiling.compiledLiteral_of_functionLiteral {f : Function} {shown : Option Symbol}
    {name : String} {j k : Journal} {g : FunctionUnit}
    (h : functionLiteral o .counting shown name f j = .ok g k) : CompiledLiteral o f g := by
  obtain ⟨p, d, hp, h⟩ := draft_bind h
  obtain ⟨mid, t, lines, hformals, hbody, hdrafted⟩ := Flow.Drafting.drafted_of_procedureOf hp
  have hdepth : (Visit.closure ⟨0⟩ p).depth ≤ p.depth := Nat.le_refl _
  obtain ⟨hfits, hcompiles⟩ :=
    Visit.compiles_closure hdepth (Assemble.madeFunction_of_eq_ok h)
  have hliteral : DraftedLiteral o f p :=
    ⟨Flow.sourced_of_draftedFormals hformals, _, _, _, _, hdrafted, hbody⟩
  exact hliteral.compiledLiteral hfits hcompiles

namespace CompiledFrom

/-- **The late arguments in a unit were compiled from expressions.** -/
theorem thunk (h : CompiledFrom o e u) (ht : t ∈ u.thunks) : ∃ e', CompiledFrom o e' t := by
  obtain ⟨b, hb, h⟩ := h
  obtain ⟨_, _, _, hdepth, hz⟩ := h.made
  obtain ⟨d, hd, hcompiles⟩ := hz.compiles_of_mem_thunks hdepth ht
  exact ⟨d.source, d.body, hb.sourced.visits _ (List.mem_append_left _ hd), hcompiles⟩

/-- **The function literals in a unit were compiled from those of expressions.** -/
theorem closure (h : CompiledFrom o e u) {g : FunctionUnit} (hg : g ∈ u.closures) :
    ∃ f, CompiledLiteral o f g := by
  obtain ⟨b, hb, h⟩ := h
  obtain ⟨_, _, _, hdepth, hz⟩ := h.made
  obtain ⟨node, p, hp, hformals, hbody⟩ := hz.compiles_of_mem_closures hdepth hg
  obtain ⟨f, hf⟩ := hb.sourced.visits _ (List.mem_append_left _ hp)
  exact ⟨f, hf.compiledLiteral hformals hbody⟩

/-- **The unit of an expression hands on the promises that it pushes.** -/
theorem handsOn (h : CompiledFrom o e u) : ∃ B, u.HandsOn B := by
  obtain ⟨b, hb, h⟩ := h
  obtain ⟨_, _, _, -, hz⟩ := h.made
  exact hz.handsOn fun t ht => hb.sourced.sober t (List.mem_append_left _ ht)

end CompiledFrom

end

/-! ## Programs -/

/-- What stands in a list has its counterpart in the other one. -/
lemma exists_left_of_forall₂ {α β : Type} {R : α → β → Prop} {xs : List α} {ys : List β}
    (h : List.Forall₂ R xs ys) {y : β} (hy : y ∈ ys) : ∃ x ∈ xs, R x y := by
  induction h with
  | nil => cases hy
  | cons hxy _ ih =>
    rcases List.mem_cons.1 hy with rfl | hy
    · exact ⟨_, List.mem_cons_self, hxy⟩
    · obtain ⟨x, hx, hxy⟩ := ih hy
      exact ⟨x, List.mem_cons_of_mem _ hx, hxy⟩

/-- What is compiled one after the other. -/
lemma Compiling.forall₂_of_mapM {α β : Type} {f : α → Compiling β} {xs : List α} {ys : List β}
    {j k : Journal} (h : xs.mapM f j = .ok ys k) :
    List.Forall₂ (fun x y => ∃ j k, f x j = .ok y k) xs ys := by
  induction xs generalizing ys j with
  | nil =>
    cases h
    exact .nil
  | cons x xs ih =>
    rw [List.mapM_cons, Assemble.nested_bind_apply] at h
    cases hx : f x j with
    | error e m =>
      rw [hx] at h
      cases h
    | ok y m =>
      rw [hx] at h
      dsimp only at h
      rw [Assemble.nested_bind_apply] at h
      cases hxs : xs.mapM f m with
      | error e m' =>
        rw [hxs] at h
        cases h
      | ok ys m' =>
        rw [hxs] at h
        cases h
        exact .cons ⟨_, _, hx⟩ (ih hxs)

/-- What a program consists of: a function unit for each definition, and a unit for its body. -/
lemma Compiling.compiled_of_program {p : Program} {c : CompiledProgram} {j k : Journal}
    (h : program o .counting p j = .ok c k) :
    List.Forall₂ (fun d u => u.1 = d.name ∧ CompiledLiteral o d.function u.2) p.definitions
      c.definitions ∧ CompiledFrom o p.body c.main := by
  unfold program at h
  rw [Assemble.nested_bind_apply] at h
  cases hds : p.definitions.mapM (definition o .counting) j with
  | error e m =>
    rw [hds] at h
    cases h
  | ok ds m =>
    rw [hds] at h
    dsimp only at h
    rw [Assemble.nested_bind_apply] at h
    cases hmain : expression o .counting mainUnit p.body m with
    | error e m' =>
      rw [hmain] at h
      cases h
    | ok u m' =>
      rw [hmain] at h
      cases h
      refine ⟨(forall₂_of_mapM hds).imp ?_, compiledFrom_of_expression hmain⟩
      rintro d u ⟨j, k, hd⟩
      unfold definition at hd
      rw [Assemble.nested_bind_apply] at hd
      cases hf : functionLiteral o .counting (some d.name) d.name.name d.function j with
      | error e m =>
        rw [hf] at hd
        cases hd
      | ok f m =>
        rw [hf] at hd
        cases hd
        exact ⟨rfl, compiledLiteral_of_functionLiteral hf⟩

end CallByNeed
