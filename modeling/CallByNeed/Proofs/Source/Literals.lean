import CallByNeed.Proofs.Code.Nameless
import CallByNeed.Proofs.Code.Supplies
import CallByNeed.Proofs.Flow.Redrafting
import CallByNeed.Proofs.Source.Units

/-!
# Function literals on their own

A function literal that is compiled as part of something can be compiled on its own, under any name
(`CompiledLiteral.succeeds`). What is drafted for it there differs in identities only, which are
renamed without being repeated; the units of its defaults and of its body are then the same but for
names, and the bodies nest no deeper.
-/

namespace CallByNeed

open CallByNeed.Flow (Term Thunk Procedure Body Taken Draft Drafted DraftedFormals IdSource)
open Compiling (Succeeds)

variable {o : CompilerOptions} {e : Expr} {b b' : Body} {u : CodeUnit}

/-! ## Drafting anew -/

namespace Flow

lemma IdSource.injective_after (k : Taken) : (IdSource.counting.after k).Injective where
  label _ _ h := Nat.add_right_cancel h
  slot _ _ h := Nat.add_right_cancel h
  node _ _ h := Nat.add_right_cancel h
  site _ _ h := Nat.add_right_cancel h

/-- A draft that is empty but for what was taken before. -/
lemma Draft.past_empty (k : Taken) : Draft.past {} k = ⟨k, #[]⟩ := by
  simp [Draft.past]

lemma Draft.rename_empty (r : IdSource) : Draft.rename r {} = {} := by
  simp [Draft.rename]

/-- Pieces of drafting that do the same begin from nothing and after others alike. -/
lemma Renames.runs {α : Type} {r : IdSource} {k : Taken} {ρ : α → α} {c c' : Drafting α}
    (h : Renames r k ρ c c') :
    (∃ x d d', c ⟨k, #[]⟩ = .ok (x, d) ∧ c' {} = .ok (ρ x, d')) ∨
      c ⟨k, #[]⟩ = .error .misplacedEllipsis ∧ c' {} = .error .misplacedEllipsis := by
  have hrun := h {}
  rw [Draft.past_empty, Draft.rename_empty] at hrun
  obtain ⟨x, d, hc, hc'⟩ | hfail := hrun
  · exact .inl ⟨x, _, _, hc, hc'⟩
  · exact .inr hfail

/-- Drafting the body of an expression succeeds after others if it succeeds from nothing, and gives
the same lines, renamed. -/
lemma Drafting.runs_bodyOf (o : CompilerOptions) (e : Expr) (k : Taken) :
    (∃ b b₀ d d₀, bodyOf o .counting e ⟨k, #[]⟩ = .ok (b, d) ∧
      bodyOf o .counting e {} = .ok (b₀, d₀) ∧
        b.rename .counting = b₀.rename (IdSource.counting.after k)) ∨
      bodyOf o .counting e ⟨k, #[]⟩ = .error .misplacedEllipsis ∧
        bodyOf o .counting e {} = .error .misplacedEllipsis := by
  obtain ⟨b, d, d', hb, hb'⟩ | ⟨hfail, hfail'⟩ := (renames_bodyOf o .counting k e).runs
  · obtain ⟨b₀, d₀, d₀', hb₀, hb₀'⟩ | ⟨-, hfail⟩ :=
      (renames_bodyOf o (IdSource.counting.after k) {} e).runs
    · have hsame := (Prod.mk.inj (Except.ok.inj (hb'.symm.trans hb₀'))).1
      exact .inl ⟨b, b₀, _, _, hb, hb₀, hsame⟩
    · cases hb'.symm.trans hfail
  · obtain ⟨b₀, d₀, d₀', hb₀, hb₀'⟩ | ⟨hfail₀, -⟩ :=
      (renames_bodyOf o (IdSource.counting.after k) {} e).runs
    · cases hfail'.symm.trans hb₀'
    · exact .inr ⟨hfail, hfail₀⟩

/-- What can be drafted after some others can be drafted after any. -/
lemma Drafted.elsewhere {lo hi : Taken} {t : Term} {lines : Body} (h : Drafted o e lo t lines hi)
    (k : Taken) : ∃ t' lines' hi', Drafted o e k t' lines' hi' := by
  have hthere := (Drafting.yields_of_drafted h).nested #[]
  obtain ⟨b, b₀, d, d₀, -, hb₀, -⟩ | ⟨hfail, -⟩ := Drafting.runs_bodyOf o e lo
  · obtain ⟨b', b₀', d', d₀', hb', -, -⟩ | ⟨-, hfail⟩ := Drafting.runs_bodyOf o e k
    · obtain ⟨t', lines', -, h'⟩ := Drafting.drafted_of_bodyOf hb'
      exact ⟨t', lines', _, h'⟩
    · cases hb₀.symm.trans hfail
  · cases hthere.symm.trans hfail

/-- The formals of a function literal can be drafted after any others as well. -/
lemma exists_draftedFormals {formals : List (Formal Expr)}
    (h : ∀ x ∈ formals, ∀ e, x.default = some e → ∃ b, DraftedBody o e b) (lo : Taken) :
    ∃ fs hi, DraftedFormals o formals lo fs hi := by
  induction formals generalizing lo with
  | nil => exact ⟨[], lo, .nil⟩
  | cons x formals ih =>
    have ih := ih fun x hx => h x (List.mem_cons_of_mem _ hx)
    obtain ⟨name, _ | e⟩ := x
    · obtain ⟨fs, hi, hrest⟩ := ih lo
      exact ⟨_, hi, .plain hrest⟩
    · obtain ⟨b, _, _, _, _, hdrafted, -⟩ := h _ List.mem_cons_self e rfl
      obtain ⟨t, lines, mid, hhere⟩ := hdrafted.elsewhere lo
      obtain ⟨fs, hi, hrest⟩ := ih mid.takeNode
      exact ⟨_, hi, .default hhere hrest⟩

end Flow

/-! ## Compiling anew -/

/-- What is drafted for an expression is tidy. -/
lemma DraftedBody.tidy (h : DraftedBody o e b) : b.Tidy := by
  obtain ⟨_, _, _, _, hdrafted, rfl⟩ := h
  exact (Flow.tidy_of_drafted hdrafted).returning

/-- A body can be compiled as well as it can with its identities renamed. -/
lemma compiles_rename {ids : IdSource} (hids : ids.Injective) (hb : b.Tidy) :
    Compiles o (b.rename ids) u ↔ Compiles o b u := by
  unfold Compiles
  rw [Flow.Body.depth_rename]
  simp only [(Compiling.coincides_unitWithin hids o _ hb _).eq]

/-- **Whatever is drafted for an expression can be compiled if something drafted for it can be.** -/
theorem Compiles.redrafted (h : Compiles o b u) (hb : DraftedBody o e b) (hb' : DraftedBody o e b') :
    Compiles o b' u := by
  have hfirst : ∀ {b}, DraftedBody o e b → ∃ k b₀ d₀,
      Flow.bodyOf o .counting e {} = .ok (b₀, d₀) ∧
        b.rename .counting = b₀.rename (IdSource.counting.after k) := by
    rintro _ ⟨lo, hi, t, lines, hdrafted, rfl⟩
    have hthere := (Flow.Drafting.yields_of_drafted hdrafted).nested #[]
    obtain ⟨b, b₀, d, d₀, hb, hb₀, hsame⟩ | ⟨hfail, -⟩ := Flow.Drafting.runs_bodyOf o e lo
    · obtain rfl := (Prod.mk.inj (Except.ok.inj (hthere.symm.trans hb))).1
      exact ⟨lo, b₀, d₀, hb₀, hsame⟩
    · cases hthere.symm.trans hfail
  obtain ⟨k, b₀, d₀, hb₀, hsame⟩ := hfirst hb
  obtain ⟨k', b₀', d₀', hb₀', hsame'⟩ := hfirst hb'
  obtain rfl := (Prod.mk.inj (Except.ok.inj (hb₀.symm.trans hb₀'))).1
  have htidy : b₀.Tidy := by
    obtain ⟨t, lines, rfl, hdrafted⟩ := Flow.Drafting.drafted_of_bodyOf hb₀
    exact (Flow.tidy_of_drafted hdrafted).returning
  rw [← compiles_rename IdSource.injective_counting hb.tidy, hsame,
    compiles_rename (IdSource.injective_after k) htidy] at h
  rwa [← compiles_rename IdSource.injective_counting hb'.tidy, hsame',
    compiles_rename (IdSource.injective_after k') htidy]

/-- A body that can be compiled can be compiled under any name, within any depth that it fits. -/
lemma Compiles.succeeds (h : Compiles o b u) (hb : b.Tidy) {depth : Nat} (hdepth : b.depth < depth)
    (name : String) : Succeeds (Compiling.unitWithin o depth name b) := by
  obtain ⟨depth', name', j, k, hdepth', h⟩ := h
  rw [Compiling.unitWithin_eq_unit o hb hdepth', ← Compiling.unitWithin_eq_unit o hb hdepth] at h
  exact Compiling.nameless_unitWithin o depth b _ _ _ _ h name

/-- The defaults of a compiled function literal were compiled. -/
lemma CompiledLiteral.default {f : Function} {v : FunctionUnit} (h : CompiledLiteral o f v)
    {x : Formal Expr} (hx : x ∈ f.formals) (he : x.default = some e) :
    ∃ b u, DraftedBody o e b ∧ Compiles o b u := by
  obtain ⟨y, -, hy⟩ := exists_left_of_forall₂ h.formals.flip hx
  have hdefault := hy.default
  rw [he] at hdefault
  generalize y.default = d at hdefault
  cases hdefault with
  | some hu =>
    obtain ⟨b, hb, hu⟩ := hu
    exact ⟨b, _, hb, hu⟩

/-- **A function literal that is compiled as part of something can be compiled on its own**, under any
name, whatever has been reported before. -/
theorem CompiledLiteral.succeeds {f : Function} {v : FunctionUnit} (h : CompiledLiteral o f v)
    (shown : Option Symbol) (name : String) :
    Succeeds (Compiling.functionLiteral o .counting shown name f) := by
  obtain ⟨fs, mid, hfs⟩ : ∃ fs mid, DraftedFormals o f.formals {} fs mid :=
    Flow.exists_draftedFormals (fun x hx e he => (h.default hx he).imp fun _ ⟨_, hb, _⟩ => hb) {}
  obtain ⟨b, hb, hcompiles⟩ := h.body
  have ⟨_, _, _, _, hdrafted, _⟩ := hb
  obtain ⟨t, lines, hi, hbody⟩ := hdrafted.elsewhere mid
  let p : Procedure Term := ⟨shown, fs, Flow.returning lines t⟩
  have hprocedure : Flow.Drafting.Yields (Flow.procedureOf o .counting shown f) {} p [] hi :=
    (Flow.Drafting.yields_of_draftedFormals hfs).bind
      ((Flow.Drafting.yields_of_drafted hbody).nested.bind .pure)
  have hunit : Succeeds (Compiling.function o name p) := by
    have hdraftedBody : DraftedBody o f.body (Flow.returning lines t) := ⟨_, _, _, _, hbody, rfl⟩
    refine Assemble.succeeds_functionUnit (fun x hx d hd name => ?_)
      ((hcompiles.redrafted hb hdraftedBody).succeeds hdraftedBody.tidy
        (Flow.Procedure.depth_body p) name)
    obtain ⟨w, hw, hwx⟩ := exists_left_of_forall₂ (Flow.sourced_of_draftedFormals hfs) hx
    have hdefault := hwx.default
    rw [hd] at hdefault
    generalize hwd : w.default = e at hdefault
    cases hdefault with
    | some hd' =>
      obtain ⟨b', u', hb', hcompiles'⟩ := h.default hw hwd
      exact (hcompiles'.redrafted hb' hd').succeeds hd'.tidy
        (Flow.Procedure.depth_default (p := p) hx hd) name
  intro j
  have hdraft : Compiling.draft (Flow.procedureOf o .counting shown f) j = .ok p j := by
    rw [Compiling.draft, hprocedure #[]]
  unfold Compiling.functionLiteral
  rw [Assemble.nested_bind_apply, hdraft]
  exact hunit j

end CallByNeed
