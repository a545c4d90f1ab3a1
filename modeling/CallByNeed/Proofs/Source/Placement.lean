import CallByNeed.Proofs.Code.Refusals
import CallByNeed.Proofs.Code.Supplies
import CallByNeed.Proofs.Flow.Redrafting
import CallByNeed.Proofs.Source.Execution
import CallByNeed.Proofs.Source.Shapes

/-!
# Where `...` may stand

`...` may be an argument of a call that is looked up when it runs, once at most in each call, and
stands nowhere else in what is compiled: no variable of that name is read, called or assigned, and no
part of inlined control flow is `...` (`Expr.Placed`). As long as no table gets too large and no
builtin is called directly, that is all that the compiler asks of an expression
(`Compiling.exists_expression_iff`). It asks it of every part of the expression, also of those that
are never evaluated.
-/

namespace CallByNeed

open CallByNeed.Flow (Term Thunk Procedure Body Taken Drafted DraftedSteps DraftedLate
  DraftedFormals operandsOf returning choiceLines loopHead loopTail effectOf counterOf Marked)

/-- `...` stands only where the compiler knows what to do with it. -/
inductive Expr.Placed (o : CompilerOptions) : Expr → Prop
  | name {s : Symbol} (h : s.isEllipsis = false) : Placed o (.symbol s)
  | literal {e : Expr} (h : e.isConstant = true) : Placed o e
  | function {formals : List (Formal Expr)} {body : Expr}
    (hformals : ∀ f ∈ formals, ∀ e, f.default = some e → Placed o e) (hbody : Placed o body) :
    Placed o (.function formals body)
  | inlined {callee : Expr} {args : List (Arg Expr)} (h : o.Inlines callee args)
    (hargs : ∀ a ∈ args, Placed o a.value) : Placed o (.call callee args)
  | call {callee : Expr} {args : List (Arg Expr)} (h : ¬ o.Inlines callee args)
    (hcallee : Placed o callee) (hcount : (Call.mk callee args).ellipsisCount ≤ 1)
    (hargs : ∀ a ∈ args, a.value.isEllipsis = false → Placed o a.value) :
    Placed o (.call callee args)

variable {o : CompilerOptions} {e : Expr}

/-! ## What is placed right is drafted -/

/-- The operand is not refused for its spelling, nor is anything that is nested in it. -/
structure Flow.Term.Admitted (o : CompilerOptions) (t : Term) : Prop where
  acceptable : t.Acceptable
  taken : ∀ v ∈ t.visits, ∀ depth, v.TakenBy (Compiling.unitWithin o depth)

/-- No operand of the lines is refused for its spelling, nor is one that is left behind them. -/
def Flow.Body.Admitted (o : CompilerOptions) (ts : List Term) (b : Body) : Prop :=
  ∀ t ∈ b.operands ++ ts, t.Admitted o

/-- The expression is drafted to lines that are not refused for their spelling. -/
def Expr.Admitted (o : CompilerOptions) (e : Expr) : Prop :=
  ∀ lo, ∃ t b hi, Drafted o e lo t b hi ∧ Body.Admitted o [t] b

namespace Flow

variable {ts : List Term} {t tc ty tn tq te : Term} {b bc yb nb bq be : Body}

/-- An operand in which nothing is nested. -/
lemma Term.Admitted.leaf (h : t.Acceptable) (ht : t.visits = []) : t.Admitted o :=
  ⟨h, fun _ hv => absurd (ht ▸ hv) List.not_mem_nil⟩

namespace Body.Admitted

lemma operand (h : t.Admitted o) : Admitted o [t] [] := fun _ hu => List.mem_singleton.1 hu ▸ h

/-- The body that returns the operand is never refused for its spelling. -/
lemma takes (h : Admitted o [t] b) (depth : Nat) :
    Nested.Takes (Compiling.unitWithin o depth) (returning b t) := by
  cases depth with
  | zero => exact fun _ => .pure _
  | succ depth =>
    refine Compiling.accepts_unitWithin (Graph.forall_statements nofun ?_ fun s hs u hu => ?_)
    · rintro u ⟨⟩
      exact ⟨trivial, nofun⟩
    · have hmem : u ∈ b.operands ++ [t] := by
        have hoperands : (returning b t).operands = b.operands ++ [t] := Body.operands_append b _
        rw [← hoperands]
        exact List.mem_filterMap.2 ⟨s, hs, hu⟩
      exact ⟨(h u hmem).acceptable, fun v hv => (h u hmem).taken v hv depth⟩

lemma effect (h : Admitted o [t] b) : Admitted o [] (b ++ effectOf t) := by
  intro u hu
  refine h u ?_
  unfold effectOf at hu
  split at hu
  · simp only [List.append_nil] at hu
    exact List.mem_append_left _ hu
  · simpa [Statement.operand?] using hu

lemma choice {r l : Nat} (hc : Admitted o [tc] bc) (hy : Admitted o [ty] yb)
    (hn : Admitted o [tn] nb) : Admitted o [.temp r] (choiceLines bc yb nb tc ty tn r l) := by
  intro u hu
  have hc := hc u
  have hy := hy u
  have hn := hn u
  have htemp : u = .temp r → u.Admitted o := fun h => h ▸ .leaf trivial rfl
  simp only [choiceLines, Body.operands_append, Body.operands_statement, Body.operands_label,
    Body.operands_nil, Statement.operand?, Option.toList, List.mem_append, List.mem_singleton,
    List.not_mem_nil] at hu hc hy hn
  tauto

lemma loop {name : Symbol} {q n l : Nat} (hq : Admitted o [tq] bq) (he : Admitted o [te] be) :
    Admitted o [.null] (bq ++ (loopHead name tq q n l ++ (be ++ (effectOf te ++ loopTail n l)))) := by
  intro u hu
  have hq := hq u
  have he := he.effect u
  have hown : u ∈ [Term.null, .length (.temp q), .int 0,
      .atLeast (counterOf n) (.local n ⟨"length"⟩), .element (.temp q) (counterOf n),
      .increment (counterOf n)] → u.Admitted o := by
    intro h
    simp only [List.mem_cons, List.not_mem_nil, or_false] at h
    rcases h with rfl | rfl | rfl | rfl | rfl | rfl
    all_goals exact .leaf (by simp [Term.Acceptable, counterOf, Term.null]) rfl
  simp only [loopHead, loopTail, Body.operands_append, Body.operands_statement,
    Body.operands_label, Body.operands_nil, Statement.operand?, Option.toList, List.mem_append,
    List.mem_cons, List.not_mem_nil] at hu hq he hown
  tauto

lemma assignment {name : Symbol} {r : Nat} (h : Admitted o [t] b) :
    Admitted o [.temp r] (b ++ [.statement (.assign (.temp r) t),
      .statement (.assign (.env name) (.temp r))]) := by
  intro u hu
  have h := h u
  have htemp : u = .temp r → u.Admitted o := fun h => h ▸ .leaf trivial rfl
  simp only [Body.operands_append, Body.operands_statement, Body.operands_nil, Statement.operand?,
    Option.toList, List.mem_append, List.mem_singleton, List.not_mem_nil] at hu h
  tauto

end Body.Admitted

end Flow

/-! ### Parts of an expression -/

section

variable {args : List (Arg Expr)}

lemma Expr.admitted_steps (h : ∀ a ∈ args, a.value.Admitted o) :
    ∀ lo, ∃ t b hi, DraftedSteps o args lo t b hi ∧ Body.Admitted o [t] b := by
  induction args with
  | nil => exact fun lo => ⟨_, _, _, .nil, .operand (.leaf trivial rfl)⟩
  | cons a rest ih =>
    intro lo
    obtain ⟨t, b, mid, hdrafted, hb⟩ := h a List.mem_cons_self lo
    cases rest with
    | nil => exact ⟨t, b, mid, .last hdrafted, hb⟩
    | cons a' rest =>
      obtain ⟨t', b', hi, hrest, hb'⟩ := ih (fun x hx => h x (List.mem_cons_of_mem a hx)) mid
      refine ⟨t', _, hi, .step hdrafted hrest, fun u hu => ?_⟩
      rw [← List.append_assoc, Body.operands_append, List.append_assoc, List.mem_append] at hu
      rcases hu with hu | hu
      · exact hb.effect u (List.mem_append_left _ hu)
      · exact hb' u hu

lemma Expr.admitted_late (h : ∀ a ∈ args, a.value.isEllipsis = false → a.value.Admitted o) :
    ∀ lo, ∃ ts hi, DraftedLate o args lo ts hi ∧ List.Forall₂ Marked args ts ∧
      (∀ t ∈ ts, t.IsLate) ∧
        ∀ v ∈ Term.visitsOf ts, ∀ depth, v.TakenBy (Compiling.unitWithin o depth) := by
  induction args with
  | nil => exact fun lo => ⟨_, _, .nil, .nil, List.forall_mem_nil _, List.forall_mem_nil _⟩
  | cons a rest ih =>
    intro lo
    replace ih := ih fun x hx => h x (List.mem_cons_of_mem a hx)
    cases hellipsis : a.value.isEllipsis with
    | true =>
      obtain ⟨ts, hi, hrest, hmarked, hlate, htaken⟩ := ih lo
      exact ⟨_, _, .ellipsis hellipsis hrest, .cons hellipsis.symm hmarked,
        List.forall_mem_cons.2 ⟨trivial, hlate⟩, htaken⟩
    | false =>
      cases hconstant : a.value.isConstant with
      | true =>
        obtain ⟨ts, hi, hrest, hmarked, hlate, htaken⟩ := ih lo
        exact ⟨_, _, .literal hconstant hrest, .cons hellipsis.symm hmarked,
          List.forall_mem_cons.2 ⟨trivial, hlate⟩, htaken⟩
      | false =>
        obtain ⟨t, b, mid, hdrafted, hb⟩ := h a List.mem_cons_self hellipsis lo
        obtain ⟨ts, hi, hrest, hmarked, hlate, htaken⟩ := ih mid.takeNode
        refine ⟨_, _, .thunk hellipsis hconstant hdrafted hrest, .cons hellipsis.symm hmarked,
          List.forall_mem_cons.2 ⟨trivial, hlate⟩, fun v hv depth => ?_⟩
        rcases List.mem_append.1 hv with hv | hv
        · rw [Term.visits, Emits.lateVisits] at hv
          split at hv
          · exact absurd hv List.not_mem_nil
          · rw [List.mem_singleton.1 hv]
            exact hb.takes depth
        · exact htaken v hv depth

lemma Expr.admitted_formals {formals : List (Formal Expr)}
    (h : ∀ f ∈ formals, ∀ e, f.default = some e → e.Admitted o) :
    ∀ lo, ∃ fs hi, DraftedFormals o formals lo fs hi ∧ ∀ x ∈ fs, ∀ d, x.default = some d →
      ∀ depth, Nested.Takes (Compiling.unitWithin o depth) (Flow.Deferred.body d) := by
  induction formals with
  | nil => exact fun lo => ⟨_, _, .nil, nofun⟩
  | cons f rest ih =>
    intro lo
    replace ih := ih fun x hx => h x (List.mem_cons_of_mem f hx)
    obtain ⟨name, default⟩ := f
    cases default with
    | none =>
      obtain ⟨fs, hi, hrest, htakes⟩ := ih lo
      exact ⟨_, _, .plain hrest, List.forall_mem_cons.2 ⟨nofun, htakes⟩⟩
    | some e =>
      obtain ⟨t, b, mid, hdrafted, hb⟩ := h _ List.mem_cons_self e rfl lo
      obtain ⟨fs, hi, hrest, htakes⟩ := ih mid.takeNode
      refine ⟨_, _, .default hdrafted hrest, List.forall_mem_cons.2 ⟨?_, htakes⟩⟩
      rintro d ⟨⟩ depth
      exact hb.takes depth

/-- Control flow that is inlined, given its parts. -/
lemma Expr.admitted_inlined {callee : Expr} (h : o.Inlines callee args)
    (hargs : ∀ a ∈ args, a.value.Admitted o) : (Expr.call callee args).Admitted o := by
  obtain ⟨ho, h⟩ := h
  intro lo
  cases h with
  | whether hs c y =>
    subst hs
    obtain ⟨tc, bc, m₁, hc, hbc⟩ := hargs ⟨none, c⟩ (by simp) lo
    obtain ⟨ty, yb, hi, hy, hyb⟩ := hargs ⟨none, y⟩ (by simp) (m₁.take 1 3)
    exact ⟨_, _, _, .whether ho hc hy, .choice hbc hyb (.operand (.leaf trivial rfl))⟩
  | choice hs c y n =>
    subst hs
    obtain ⟨tc, bc, m₁, hc, hbc⟩ := hargs ⟨none, c⟩ (by simp) lo
    obtain ⟨ty, yb, m₂, hy, hyb⟩ := hargs ⟨none, y⟩ (by simp) (m₁.take 1 3)
    obtain ⟨tn, nb, hi, hn, hnb⟩ := hargs ⟨none, n⟩ (by simp) m₂
    exact ⟨_, _, _, .choice ho hc hy hn, .choice hbc hyb hnb⟩
  | loop hs hname q b =>
    subst hs
    obtain ⟨tq, bq, m₁, hq, hbq⟩ := hargs ⟨none, q⟩ (by simp) (lo.take 1 0)
    obtain ⟨te, be, hi, he, hbe⟩ := hargs ⟨none, b⟩ (by simp) (m₁.take 2 3)
    exact ⟨_, _, _, .loop ho hname hq he, .loop hbq hbe⟩
  | block hs hnames =>
    subst hs
    obtain ⟨t, b, hi, hsteps, hb⟩ := admitted_steps hargs lo
    exact ⟨_, _, _, .block ho hnames hsteps, hb⟩
  | assignment hs hname e =>
    subst hs
    obtain ⟨t, b, hi, he, hb⟩ := hargs ⟨none, e⟩ (by simp) lo
    exact ⟨_, _, _, .assignment ho hname he, hb.assignment⟩

/-- A call that is looked up when it runs, given its parts. -/
lemma Expr.admitted_call {callee : Expr} (hstatic : o.staticPrimitives = [])
    (hplain : ¬ o.Inlines callee args) (hplaced : callee.Placed o) (hcallee : callee.Admitted o)
    (hcount : (Call.mk callee args).ellipsisCount ≤ 1)
    (hargs : ∀ a ∈ args, a.value.isEllipsis = false → a.value.Admitted o) :
    (Expr.call callee args).Admitted o := by
  -- The operands take the place of the arguments, `...` that of `...`.
  have hoperands : ∀ {lo : Taken} {ts : List Term}, List.Forall₂ Marked args ts →
      (operandsOf lo ⟨callee, args⟩ ts).ellipsisCount ≤ 1 := fun hmarked =>
    Nat.le_trans (Nat.le_of_eq (Marked.count hmarked)) hcount
  intro lo
  cases hsymbol : callee.symbol? with
  | none =>
    obtain ⟨t, b, mid, hdrafted, hb⟩ := hcallee lo
    obtain ⟨ts, hi, hlate, hmarked, hall, htaken⟩ := admitted_late hargs mid
    refine ⟨_, _, _, .computed hsymbol hdrafted hlate, fun u hu => ?_⟩
    rcases List.mem_append.1 hu with hu | hu
    · exact hb u (List.mem_append_left _ hu)
    have ht := hb t (List.mem_append_right _ (List.mem_singleton_self t))
    rw [List.mem_singleton.1 hu]
    refine ⟨⟨ht.acceptable, hoperands hmarked, hall⟩, fun v hv => ?_⟩
    simp only [operandsOf, Term.visits, List.mem_append, List.mem_cons] at hv
    rcases hv with hv | rfl | rfl | rfl | hv | rfl | hv
    exacts [ht.taken v hv, fun _ => trivial, fun _ => trivial, fun _ => trivial, htaken v hv,
      fun _ => trivial, htaken v hv]
  | some s =>
    obtain rfl : callee = .symbol s := by
      cases callee with
      | symbol s' => exact congrArg Expr.symbol (Option.some.inj hsymbol)
      | _ => cases hsymbol
    have hs : s.isEllipsis = false := by
      cases hplaced with
      | name h => exact h
      | literal h => cases h
    have hdynamic : o.isStaticPrimitive s.name = false := by
      simp [CompilerOptions.isStaticPrimitive, hstatic]
    obtain ⟨ts, hi, hlate, hmarked, hall, htaken⟩ := admitted_late hargs lo
    refine ⟨_, _, _, .named hplain hs hdynamic hlate, .operand ⟨⟨hoperands hmarked, hall⟩,
      fun v hv => ?_⟩⟩
    simp only [operandsOf, Term.visits, List.mem_append, List.mem_cons] at hv
    rcases hv with rfl | rfl | hv | rfl | hv
    exacts [fun _ => trivial, fun _ => trivial, htaken v hv, fun _ => trivial, htaken v hv]

end

/-- **What is placed right is drafted**, and the lines are not refused for their spelling. -/
theorem Expr.Placed.admitted (hstatic : o.staticPrimitives = []) (h : e.Placed o) : e.Admitted o := by
  induction h with
  | name h => exact fun lo => ⟨_, _, _, .reading h, .operand (.leaf trivial rfl)⟩
  | literal h => exact fun lo => ⟨_, _, _, .literal h, .operand (.leaf trivial rfl)⟩
  | @function formals body hformals hbody ihformals ihbody =>
    intro lo
    obtain ⟨fs, mid, hfs, htakes⟩ := admitted_formals ihformals lo
    obtain ⟨t, b, hi, hdrafted, hb⟩ := ihbody mid
    refine ⟨_, _, _, .closure (f := ⟨formals, body⟩) hfs hdrafted, .operand ⟨trivial, ?_⟩⟩
    intro v hv depth
    rw [Term.visits, List.mem_singleton] at hv
    subst hv
    exact ⟨hb.takes depth, fun x hx d hd => htakes x hx d hd depth⟩
  | inlined h _ ih => exact admitted_inlined h ih
  | call h hcallee hcount _ ihcallee ih => exact admitted_call hstatic h hcallee ihcallee hcount ih

/-! ## What is compiled is placed right -/

section

variable {limit : Nat} {env : EnvId} {args : List (Arg Expr)}

lemma MeansSteps.means {A : Host → Eval Value} (h : MeansSteps o limit env args A) :
    ∀ a ∈ args, ∃ M, Means o limit env a.value M := by
  induction args generalizing A with
  | nil => exact nofun
  | cons a rest ih =>
    cases h with
    | last h => exact List.forall_mem_cons.2 ⟨⟨_, h⟩, nofun⟩
    | step h hrest => exact List.forall_mem_cons.2 ⟨⟨_, h⟩, ih hrest⟩

lemma MeansNow.means {A : Host → Eval (List Value)} (h : MeansNow o limit env args A) :
    ∀ a ∈ args, a.value.isEllipsis = false → ∃ M, Means o limit env a.value M := by
  induction args generalizing A with
  | nil => exact nofun
  | cons a rest ih =>
    cases h with
    | ellipsis ha hrest =>
      exact List.forall_mem_cons.2 ⟨fun h => absurd (ha.symm.trans h) (by decide), ih hrest⟩
    | value _ h hrest => exact List.forall_mem_cons.2 ⟨fun _ => ⟨_, h⟩, ih hrest⟩

/-- An argument that is passed has a meaning, unless it is `...`. -/
lemma means_of_passes {passed : List Passed}
    (h : List.Forall₂ (Passes o) (args.map Arg.value) passed) :
    ∀ a ∈ args, a.value.isEllipsis = false → ∃ M, Means o limit env a.value M := by
  have hmeans : ∀ e p, Passes o e p → e.isEllipsis = false → ∃ M, Means o limit env e M := by
    intro e p hp hellipsis
    cases hp with
    | ellipsis h => exact absurd (h.symm.trans hellipsis) (by decide)
    | literal h => exact ⟨_, .literal h⟩
    | reading h => exact ⟨_, .reading h⟩
    | unit _ _ h =>
      obtain ⟨M, hM, -⟩ := h.executes limit env
      exact ⟨M, hM⟩
  intro a ha
  obtain ⟨p, hp⟩ := exists_left_of_forall₂ h.flip (List.mem_map_of_mem ha)
  exact hmeans _ p hp.2

/-- A call that has a meaning, given its parts. -/
lemma Means.placed_call {callee : Expr} {M : Host → Eval Value}
    (hcallee : ∀ M, Means o limit env callee M → callee.Placed o)
    (hargs : ∀ a ∈ args, ∀ M, Means o limit env a.value M → a.value.Placed o)
    (h : Means o limit env (.call callee args) M) : (Expr.call callee args).Placed o := by
  have hlate : (∀ a ∈ args, a.value.isEllipsis = false → ∃ M, Means o limit env a.value M) →
      ∀ a ∈ args, a.value.isEllipsis = false → a.value.Placed o := fun h a ha hellipsis =>
    (h a ha hellipsis).elim (hargs a ha)
  cases h with
  | literal h => cases h
  | whether ho hs hc hy =>
    refine .inlined ⟨ho, .whether hs _ _⟩ ?_
    simp only [List.forall_mem_cons, List.not_mem_nil, false_imp_iff, implies_true, and_true]
      at hargs ⊢
    exact ⟨hargs.1 _ hc, hargs.2 _ hy⟩
  | choice ho hs hc hy hn =>
    refine .inlined ⟨ho, .choice hs _ _ _⟩ ?_
    simp only [List.forall_mem_cons, List.not_mem_nil, false_imp_iff, implies_true, and_true]
      at hargs ⊢
    exact ⟨hargs.1 _ hc, hargs.2.1 _ hy, hargs.2.2 _ hn⟩
  | loop ho hs hname hq hb =>
    refine .inlined ⟨ho, .loop hs hname _ _⟩ ?_
    simp only [List.forall_mem_cons, List.not_mem_nil, false_imp_iff, implies_true, and_true]
      at hargs ⊢
    exact ⟨.name hname, hargs.2.1 _ hq, hargs.2.2 _ hb⟩
  | block ho hs hnames h =>
    exact .inlined ⟨ho, .block hs hnames⟩ fun a ha => (h.means a ha).elim (hargs a ha)
  | assignment ho hs hname h =>
    refine .inlined ⟨ho, .assignment hs hname _⟩ ?_
    simp only [List.forall_mem_cons, List.not_mem_nil, false_imp_iff, implies_true, and_true]
      at hargs ⊢
    exact ⟨.name hname, hargs.2 _ h⟩
  | @primitive s _ _ _ hplain _ hb hdots h =>
    have hs : s.isEllipsis = false := by
      cases hname : s.isEllipsis with
      | false => rfl
      | true =>
        obtain rfl : s = .ellipsis := by simpa [Symbol.isEllipsis] using hname
        cases hb
    exact .call hplain (.name hs) hdots (hlate h.means)
  | named hplain hs _ hdots h => exact .call hplain (.name hs) hdots (hlate (means_of_passes h))
  | computed hsymbol hdots hc h =>
    refine .call ?_ (hcallee _ hc) hdots (hlate (means_of_passes h))
    rintro ⟨-, h⟩
    cases h <;> cases hsymbol

end

mutual

/-- **What has a meaning is placed right.** -/
theorem Means.placed {limit : Nat} {env : EnvId} : ∀ {e : Expr} {M : Host → Eval Value},
    Means o limit env e M → e.Placed o
  | .symbol s, _, h => .name h.reading_inv.1
  | .null, _, _ | .logical _, _, _ | .int _, _, _ | .double _, _, _ | .str _, _, _ => .literal rfl
  | .function formals body, _, h => by
    obtain ⟨u, ⟨hformals, hbody⟩, -⟩ := h.closure_inv
    obtain ⟨M, hM, -⟩ := hbody.executes limit env
    exact .function (placed_formals limit env hformals) hM.placed
  | .call callee args, _, h => h.placed_call (fun _ => Means.placed) (Means.placed_args args)

theorem Means.placed_args {limit : Nat} {env : EnvId} : ∀ args : List (Arg Expr), ∀ a ∈ args,
    ∀ M, Means o limit env a.value M → a.value.Placed o
  | [], _, ha => absurd ha List.not_mem_nil
  | ⟨_, e⟩ :: rest, a, ha => by
    rcases List.mem_cons.1 ha with rfl | ha
    · exact fun _ => Means.placed
    · exact Means.placed_args rest a ha

theorem Means.placed_formals (limit : Nat) (env : EnvId) : ∀ {formals : List (Formal Expr)}
    {units : List (Formal CodeUnit)}, List.Forall₂ (CompiledFormal o) formals units →
      ∀ f ∈ formals, ∀ e, f.default = some e → e.Placed o
  | [], _, _, _, hf => absurd hf List.not_mem_nil
  | ⟨_, none⟩ :: rest, _, .cons _ h, f, hf => by
    rcases List.mem_cons.1 hf with rfl | hf
    · exact nofun
    · exact Means.placed_formals limit env h f hf
  | ⟨_, some e⟩ :: rest, ⟨_, d⟩ :: _, .cons ⟨_, hx⟩ h, f, hf => by
    rcases List.mem_cons.1 hf with rfl | hf
    · rintro e' ⟨⟩
      cases d with
      | none => cases hx
      | some u =>
        obtain ⟨M, hM, -⟩ := (Option.rel_some_some.1 hx).executes limit env
        exact hM.placed
    · exact Means.placed_formals limit env h f hf

end

/-! ## Compiling -/

namespace Compiling

variable {name : String} {j : Journal}

/-- What is placed right is compiled, or is refused for its size. -/
theorem expression_of_placed (hstatic : o.staticPrimitives = []) (h : e.Placed o) :
    (∃ u k, expression o .counting name e j = .ok u k) ∨
      ∃ err k, expression o .counting name e j = .error err k ∧ err.OfSize := by
  rcases ((coincides_expression Flow.IdSource.injective_counting o name e).ofSource j).ends with
    ⟨u, k, _, hu, -, -⟩ | ⟨err, k, _, herr, -, hsource, -⟩
  · exact .inl ⟨u, k, hu⟩
  obtain ⟨t, b, hi, hdrafted, hb⟩ := h.admitted hstatic {}
  have hbody : Flow.bodyOf o .counting e {} = .ok (returning b t, ⟨hi, #[]⟩) :=
    (Flow.Drafting.yields_of_drafted hdrafted).nested #[]
  have hexpression : expression o .counting name e j = unit o name (returning b t) j := by
    show EStateM.bind (draft (Flow.bodyOf o .counting e)) (unit o name) j = _
    unfold EStateM.bind draft
    rw [hbody]
  rw [hexpression] at herr ⊢
  exact .inr ⟨err, k, herr, hsource.spelling_or_size.resolve_left (hb.takes _ name j err k herr)⟩

/-- **An expression is compiled exactly if `...` stands right in it**, all its parts included, as long
as it is not refused for its size and no builtin is called directly. -/
theorem exists_expression_iff (hstatic : o.staticPrimitives = [])
    (hsize : ∀ err k, expression o .counting name e j = .error err k → ¬ err.OfSize) :
    (∃ u k, expression o .counting name e j = .ok u k) ↔ e.Placed o := by
  constructor
  · rintro ⟨u, k, hu⟩
    obtain ⟨M, hM, -⟩ := (compiledFrom_of_expression hu).executes 0 globalEnv
    exact hM.placed
  · intro h
    refine (expression_of_placed hstatic h).resolve_right ?_
    rintro ⟨err, k, herr, hofSize⟩
    exact hsize err k herr hofSize

end Compiling

end CallByNeed
