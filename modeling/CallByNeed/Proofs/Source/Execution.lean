import CallByNeed.Proofs.Source.Carrying

/-!
# Compiled code means what its expression means

Executing the unit that an expression was compiled to does what the expression means
(`CompiledFrom.executes`), on every host: it has the same result and leaves the same store, once the
bound on its steps is large enough, and is cut off by smaller ones. Along the way, every expression
that was drafted has a meaning, and its lines carry it out (`means_of_drafted`).
-/

namespace CallByNeed

open CallByNeed.Flow (Term Thunk Tables Scene Frame Body Graph Drafted DraftedSteps DraftedNow
  DraftedLate Taken Achieves Awaits Stored Yields returning operandsOf choiceLines)

variable {o : CompilerOptions} {T : Tables} {limit : Nat} {env : EnvId}

/-! ## Drafted lines -/

/-- The lines carry out the evaluation, and an operand without effect reads slots of theirs only. -/
structure Carried (T : Tables) (limit : Nat) (env : EnvId) (lo hi : Taken) (lines : Body) (t : Term)
    (M : Host → Eval Value) : Prop where
  low : t.isTrivial = true → t.Low hi.slots
  carries : ∀ H (b : Body), b.labels.Nodup →
    Achieves ⟨limit, H, env, T⟩ b lo.slots lines (Awaits ⟨limit, H, env, T⟩ t) (M H)

/-- The operands hold the values. -/
def Held (ts : List Term) (F : Frame) (vs : List Value) : Prop :=
  List.Forall₂ (fun t v => (t.isTrivial = true ∨ t.isEllipsis = true) ∧ t.held F = some v) ts vs

/-- The lines carry out the evaluation of arguments, whose values the operands hold in the end. -/
structure CarriedNow (T : Tables) (limit : Nat) (env : EnvId) (lo : Taken) (lines : Body)
    (ts : List Term) (A : Host → Eval (List Value)) : Prop where
  carries : ∀ H (b : Body), b.labels.Nodup →
    Achieves ⟨limit, H, env, T⟩ b lo.slots lines (fun F s r => ∃ vs, r = .ok vs s ∧ Held ts F vs) (A H)

namespace Carried

variable {lo hi : Taken} {lines : Body} {t : Term}

/-- An operand without lines that computes the meaning. -/
lemma operand {M : Host → Eval Value} (ht : t.isTrivial = false)
    (h : ∀ H F, Flow.Action.Computes F (Scene.term ⟨limit, H, env, T⟩ t) (M H)) :
    Carried T limit env lo hi [] t M where
  low htrivial := absurd htrivial (by simp [ht])
  carries H b _ := .nil fun F s => ⟨h H F F s rfl, fun htrivial => absurd htrivial (by simp [ht])⟩

/-- An operand that holds a literal. -/
lemma literal (e : Expr) : Carried T limit env lo hi [] (.literal e) fun _ => pure (.ofExpr e) where
  low _ := nofun
  carries _ _ _ := .nil fun _ s => ⟨.ok (Value.ofExpr e) rfl s, fun _ => ⟨_, rfl⟩⟩

end Carried

section

variable {lo mid hi : Taken} {call : Call} {ts : List Term} {lines : Body}

/-- The call has `...` at most once, if its operands do. -/
lemma ellipsisCount_le (hmarked : List.Forall₂ Flow.Marked call.args ts)
    (h : (operandsOf hi call ts).ellipsisCount ≤ 1) : call.ellipsisCount ≤ 1 := by
  unfold Call.ellipsisCount
  rw [← Flow.Marked.count hmarked]
  exact h

/-- A function that is called with late arguments. -/
lemma computes_applyLate {H : Host} {F : Frame} {passed : List Passed}
    (hmarked : List.Forall₂ Flow.Marked call.args ts)
    (hstands : List.Forall₂ (Flow.Term.Stands T) ts passed) (f : Value) :
    Flow.Action.Computes F
      (Scene.apply ⟨limit, H, env, T⟩ call
        (Scene.arguments ⟨limit, H, env, T⟩ ts (call.args.map Arg.name))
        (Scene.builtinArguments ⟨limit, H, env, T⟩ (operandsOf hi call ts)
          (Scene.values ⟨limit, H, env, T⟩ ts)) f)
      (Meaning.apply limit H env call passed f) := by
  refine Scene.computes_apply (X := ⟨limit, H, env, T⟩) (Scene.arguments_late hstands _) ?_ f
  refine Scene.computes_builtinArguments (X := ⟨limit, H, env, T⟩) (Flow.Marked.index hmarked) rfl
    fun G s _ => ?_
  rw [Scene.values_late (X := ⟨limit, H, env, T⟩) hstands]

end

namespace Carried

variable {lo m₁ m₂ hi : Taken} {C Y N : Host → Eval Value} {bc yb nb : Body} {tc ty tn t : Term}
  {lines lines' : Body}

/-- A conditional. -/
lemma choice (hle : lo.slots ≤ m₁.slots) (hlt : m₁.slots < hi.slots)
    (hc : Carried T limit env lo m₁ bc tc C) (hy : Carried T limit env (m₁.take 1 3) m₂ yb ty Y)
    (hn : ∀ H (b : Body), b.labels.Nodup →
      Achieves ⟨limit, H, env, T⟩ b (m₁.take 1 3).slots nb (Awaits ⟨limit, H, env, T⟩ tn) (N H)) :
    Carried T limit env lo hi (choiceLines bc yb nb tc ty tn m₁.slots m₁.labels)
      (.temp m₁.slots) fun H => Meaning.branch (C H) (Y H) (N H) where
  low _ k hk := by
    obtain rfl := List.mem_singleton.1 hk
    exact hlt
  carries H b hb := ((hc.carries H b hb).choice hb (hy.carries H b hb) (hn H b hb) hle
    (Nat.le_succ_of_le hle)).imp fun _ _ _ h => h.awaits

/-- A loop. -/
lemma loop {Q B : Host → Eval Value} {bq be : Body} {tq te : Term} {name : Symbol}
    (hle : lo.slots < m₁.slots) (hq : Carried T limit env (lo.take 1 0) m₁ bq tq Q)
    (he : Carried T limit env (m₁.take 2 3) hi be te B) :
    Carried T limit env lo hi (bq ++ (Flow.loopHead name tq lo.slots m₁.slots m₁.labels ++
      (be ++ (Flow.effectOf te ++ Flow.loopTail m₁.slots m₁.labels)))) .null
      fun H => Meaning.loop env name (Q H) (B H) where
  low _ := nofun
  carries H b hb := Achieves.loop hb (hq.carries H b hb) (he.carries H b hb) (Nat.le_refl _)
    (Nat.lt_succ_self _) hle (Nat.le_refl _)

/-- An assignment. -/
lemma assignment {name : Symbol} {A : Host → Eval Value} (hle : lo.slots ≤ hi.slots)
    (h : Carried T limit env lo hi lines t A) :
    Carried T limit env lo (hi.take 1 0) (lines ++ [.statement (.assign (.temp hi.slots) t),
      .statement (.assign (.env name) (.temp hi.slots))]) (.temp hi.slots)
      fun H => Meaning.assign env name (A H) where
  low _ k hk := by
    obtain rfl := List.mem_singleton.1 hk
    exact Nat.lt_succ_self _
  carries H b hb := by
    rw [List.append_cons]
    exact (((h.carries H b hb).keep (.temp hi.slots) hb rfl hle).assign hb).imp
      fun _ _ _ h => h.awaits

/-- A step of a block, and the steps behind it. -/
lemma step {mid : Taken} {t' : Term} {A B : Host → Eval Value} (hle : lo.slots ≤ mid.slots)
    (h : Carried T limit env lo mid lines t A) (h' : Carried T limit env mid hi lines' t' B) :
    Carried T limit env lo hi (lines ++ (Flow.effectOf t ++ lines')) t' fun H => do
      let _ ← A H
      B H where
  low := h'.low
  carries H b hb := by
    rw [← List.append_assoc]
    exact ((h.carries H b hb).effect hb).bind fun _ => (h'.carries H b hb).weaken hle

end Carried

namespace Carried

variable {lo m₁ mid hi : Taken} {call : Call} {ts : List Term} {passed : List Passed}
  {lines : Body}

/-- A call of a function that is found by its name. -/
lemma named {name : Symbol} (hcall : T.call mid.sites = call)
    (hmarked : List.Forall₂ Flow.Marked call.args ts)
    (hstands : List.Forall₂ (Flow.Term.Stands T) ts passed) :
    Carried T limit env lo hi [] (.call (.name name) (operandsOf mid call ts)) (fun H => do
      let f ← H.findFunction env name
      Meaning.apply limit H env call passed f) := by
  refine .operand rfl fun H F => ?_
  unfold operandsOf
  rw [Scene.term]
  refine (Flow.Action.Computes.lift _).bind fun f => ?_
  rw [show (Tables.call T mid.sites) = call from hcall]
  exact computes_applyLate hmarked hstands f

/-- A call of a function that is computed. -/
lemma computed {C : Host → Eval Value} {t : Term} (hcall : T.call mid.sites = call)
    (hmarked : List.Forall₂ Flow.Marked call.args ts)
    (hstands : List.Forall₂ (Flow.Term.Stands T) ts passed)
    (h : Carried T limit env lo m₁ lines t C) :
    Carried T limit env lo hi lines (.call (.computed t) (operandsOf mid call ts)) fun H => do
      let v ← C H
      let f ← Meaning.callable H call v
      Meaning.apply limit H env call passed f where
  low htrivial := by cases htrivial
  carries H b hb := by
    refine (h.carries H b hb).extend rfl fun F s s' hyields => ?_
    unfold operandsOf
    rw [Scene.term, show (Tables.call T mid.sites) = call from hcall]
    refine hyields.bind fun v G u _ => ?_
    have hcallable : Flow.Action.Computes G
        (Flow.Action.lift (Scene.callable ⟨limit, H, env, T⟩ call v)) (Meaning.callable H call v) :=
      .lift _
    exact hcallable.bind (fun f => computes_applyLate hmarked hstands f) G u rfl

end Carried

/-- A call of a builtin that is known by its name. -/
lemma CarriedNow.primitive {lo hi hi' : Taken} {name : Symbol} {args : List (Arg Expr)}
    {ts : List Term} {lines : Body} {A : Host → Eval (List Value)} {b : Builtin}
    (h : CarriedNow T limit env lo lines ts A) (hb : Builtin.ofName? name.name = some b)
    (hcall : T.call hi.sites = ⟨.symbol name, args⟩) (hmarked : List.Forall₂ Flow.Marked args ts) :
    Carried T limit env lo hi' lines (.primitive name (operandsOf hi ⟨.symbol name, args⟩ ts))
      fun H => do
        let values ← A H
        Meaning.builtin H env ⟨.symbol name, args⟩ (pure values) b where
  low htrivial := by cases htrivial
  carries H body hbody := by
    refine (h.carries H body hbody).andThen fun F s vs hheld => ⟨?_, nofun⟩
    unfold operandsOf
    rw [Scene.term, hb, show (Tables.call T hi.sites) = ⟨.symbol name, args⟩ from hcall]
    refine Scene.computes_builtin
      (Scene.computes_builtinArguments (X := ⟨limit, H, env, T⟩) (Flow.Marked.index hmarked) rfl
        fun G u hG => ?_) b F s rfl
    refine Scene.values_of_held (X := ⟨limit, H, env, T⟩) (hheld.imp fun t v ht => ⟨ht.1, ?_⟩)
    rw [← ht.2]
    cases t <;> simp [Flow.Term.held, hG]

/-- An operand without effect is no place of `...`. -/
lemma isEllipsis_of_isTrivial {t : Term} (ht : t.isTrivial = true) : t.isEllipsis = false := by
  cases t <;> first | rfl | cases ht

namespace CarriedNow

variable {lo mid : Taken} {ts : List Term} {lines lines' : Body} {t : Term} {M : Host → Eval Value}
  {A : Host → Eval (List Value)}

lemma ellipsis (h : CarriedNow T limit env lo lines ts A) :
    CarriedNow T limit env lo lines (.ellipsis :: ts) fun H => do
      let vs ← A H
      return .null :: vs where
  carries H b hb := (h.carries H b hb).andThen fun _ _ vs hheld =>
    ⟨.null :: vs, rfl, .cons ⟨.inr rfl, rfl⟩ hheld⟩

/-- A first argument that is held in the end, and the arguments behind it. -/
lemma value {H : Host} {b before : Body} {A : Eval (List Value)} {M : Eval Value} {n m : Nat}
    (hle : n ≤ m) (ht : t.isTrivial = true) (hlow : t.Low m)
    (h : Achieves ⟨limit, H, env, T⟩ b n before
      (fun F s r => ∃ v, r = .ok v s ∧ t.held F = some v) M)
    (h' : Achieves ⟨limit, H, env, T⟩ b m lines
      (fun F s r => ∃ vs, r = .ok vs s ∧ Held ts F vs) A) :
    Achieves ⟨limit, H, env, T⟩ b n (before ++ lines)
      (fun F s r => ∃ vs, r = .ok vs s ∧ Held (t :: ts) F vs) do
        let v ← M
        let vs ← A
        return v :: vs := by
  intro rest F s next hsuffix hnext
  rw [List.append_assoc] at hsuffix ⊢
  rw [bind_assoc] at hnext ⊢
  refine h _ F s _ hsuffix fun G u hkept hG => ?_
  obtain ⟨v, hv, hheld⟩ := hG
  rw [Flow.Eval.bind_ok hv, bind_assoc]
  refine h' rest G u _ ((List.suffix_append _ _).trans hsuffix) fun K w hkept' hK => ?_
  obtain ⟨vs, hvs, hheld'⟩ := hK
  have hnext := hnext K w (hkept.trans (hkept'.mono hle))
  rw [Flow.Eval.bind_ok hv, Flow.Eval.bind_ok hv, bind_assoc, Flow.Eval.bind_ok hvs,
    Flow.Eval.bind_ok hvs] at hnext
  rw [Flow.Eval.bind_ok hvs]
  exact hnext ⟨v :: vs, rfl, .cons ⟨.inl ht, (Flow.Term.held_of_kept hlow hkept').trans hheld⟩ hheld'⟩

lemma trivial (hle : lo.slots ≤ mid.slots) (ht : t.isTrivial = true)
    (h : Carried T limit env lo mid lines t M) (h' : CarriedNow T limit env mid lines' ts A) :
    CarriedNow T limit env lo (lines ++ lines') (t :: ts) fun H => do
      let v ← M H
      let vs ← A H
      return v :: vs where
  carries H b hb := by
    refine value hle ht (h.low ht) ((h.carries H b hb).imp fun F s r hr => ?_) (h'.carries H b hb)
    obtain ⟨v, hv⟩ := hr.held ht
    exact ⟨v, hr.result_of_held ht hv, hv⟩

lemma settled (hle : lo.slots ≤ mid.slots) (h : Carried T limit env lo mid lines t M)
    (h' : CarriedNow T limit env (mid.take 1 0) lines' ts A) :
    CarriedNow T limit env lo
      (lines ++ (.statement (.assign (.temp mid.slots) t) :: lines')) (.temp mid.slots :: ts)
      fun H => do
        let v ← M H
        let vs ← A H
        return v :: vs where
  carries H b hb := by
    rw [List.append_cons]
    refine value (Nat.le_succ_of_le hle) rfl (fun k hk => ?_)
      ((h.carries H b hb).keep (.temp mid.slots) hb rfl hle) (h'.carries H b hb)
    obtain rfl := List.mem_singleton.1 hk
    exact Nat.lt_succ_self _

end CarriedNow

/-- An operand without effect needs no tables. -/
lemma Serves.of_trivial {t : Term} (ht : t.isTrivial = true) : Serves o T t := by
  cases t with
  | int n => exact ⟨nofun, trivial⟩
  | literal e => exact ⟨nofun, trivial⟩
  | temp id => exact ⟨nofun, trivial⟩
  | «local» id name => exact ⟨nofun, trivial⟩
  | _ => cases ht

/-- The operand of lines is among them, if it is evaluated for its effect. -/
lemma serves_effect {t u : Term} {lines : Body}
    (h : ∀ u ∈ lines.operands ++ (Flow.effectOf t).operands, Serves o T u)
    (hu : u ∈ lines.operands ++ [t]) : Serves o T u := by
  rcases List.mem_append.1 hu with hu | hu
  · exact h u (List.mem_append_left _ hu)
  · obtain rfl := List.mem_singleton.1 hu
    by_cases ht : u.isTrivial = true
    · exact .of_trivial ht
    · refine h u (List.mem_append_right _ ?_)
      rw [Flow.effectOf, if_neg ht]
      exact List.mem_singleton.2 rfl

mutual

/-- **An expression that was drafted has a meaning, and its lines carry it out**, if the tables serve
its operands. -/
theorem means_of_drafted {e : Expr} {lo hi : Taken} {t : Term} {lines : Body} :
    Drafted o e lo t lines hi → (∀ u ∈ lines.operands ++ [t], Serves o T u) →
      ∃ M, Means o limit env e M ∧ Carried T limit env lo hi lines t M
  | .reading h, _ => ⟨_, .reading h, .operand rfl fun _ _ => .lift _⟩
  | .literal h, _ => ⟨_, .literal h, .literal _⟩
  | .closure hformals hbody, hserves => by
    have hfits := (hserves (.closure _ _) (List.mem_singleton.2 rfl)).fits (.closure _ _)
      (List.mem_singleton.2 rfl)
    exact ⟨_, .closure (Flow.compiled_of_drafted hformals hbody hfits),
      .operand rfl fun _ _ => .pure _⟩
  | .whether ho hc hy, hserves => by
    obtain ⟨C, hC, hcarried⟩ := means_of_drafted hc fun u hu => hserves u (by
      simp [choiceLines, Flow.Statement.operand?] at hu ⊢
      tauto)
    obtain ⟨Y, hY, hcarried'⟩ := means_of_drafted hy fun u hu => hserves u (by
      simp [choiceLines, Flow.Statement.operand?] at hu ⊢
      tauto)
    have hle := (Flow.tidy_of_drafted hc).lines.le.slots
    have hlt := (Flow.tidy_of_drafted hy).lines.le.slots
    exact ⟨_, .whether ho rfl hC hY, hcarried.choice hle hlt hcarried' fun H b _ =>
      (@Carried.literal T limit env _ lo .null).carries H b ‹_›⟩
  | .choice ho hc hy hn, hserves => by
    obtain ⟨C, hC, hcarried⟩ := means_of_drafted hc fun u hu => hserves u (by
      simp [choiceLines, Flow.Statement.operand?] at hu ⊢
      tauto)
    obtain ⟨Y, hY, hcarried'⟩ := means_of_drafted hy fun u hu => hserves u (by
      simp [choiceLines, Flow.Statement.operand?] at hu ⊢
      tauto)
    obtain ⟨N, hN, hcarriedN⟩ := means_of_drafted hn fun u hu => hserves u (by
      simp [choiceLines, Flow.Statement.operand?] at hu ⊢
      tauto)
    have hle := (Flow.tidy_of_drafted hc).lines.le.slots
    have hlt := (Flow.tidy_of_drafted hy).lines.le.slots
    have hle' := (Flow.tidy_of_drafted hn).lines.le.slots
    exact ⟨_, .choice ho rfl hC hY hN, hcarried.choice hle (Nat.lt_of_lt_of_le hlt hle') hcarried'
      fun H b hb => (hcarriedN.carries H b hb).weaken hlt⟩
  | .loop ho hname hq he, hserves => by
    obtain ⟨Q, hQ, hcarried⟩ := means_of_drafted hq fun u hu => hserves u (by
      simp [Flow.loopHead, Flow.Statement.operand?] at hu ⊢
      tauto)
    obtain ⟨B, hB, hcarried'⟩ := means_of_drafted he fun u => serves_effect fun w hw =>
      hserves w (by
        simp [Flow.loopHead, Flow.loopTail, Flow.Statement.operand?] at hw ⊢
        tauto)
    exact ⟨_, .loop ho rfl hname hQ hB,
      .loop (Flow.tidy_of_drafted hq).lines.le.slots hcarried hcarried'⟩
  | .block ho hargs h, hserves => by
    obtain ⟨M, hM, hcarried⟩ := means_of_draftedSteps h hserves
    exact ⟨M, .block ho rfl hargs hM, hcarried⟩
  | .assignment ho hname h, hserves => by
    obtain ⟨A, hA, hcarried⟩ := means_of_drafted h fun u hu => hserves u (by
      simp [Flow.Statement.operand?] at hu ⊢
      tauto)
    exact ⟨_, .assignment ho rfl hname hA,
      hcarried.assignment (Flow.tidy_of_drafted h).lines.le.slots⟩
  | @Drafted.primitive _ name args lo hi ts lines hplain hs h, hserves => by
    have hserved := hserves (.primitive name (operandsOf hi ⟨.symbol name, args⟩ ts)) (by simp)
    obtain ⟨A, hA, hmarked, hcarried⟩ := means_of_draftedNow h
      (fun u hu => hserves u (List.mem_append_left _ hu))
      fun v hv => hserved.fits v (List.mem_cons_of_mem _ hv)
    have hcall : T.call hi.sites = ⟨.symbol name, args⟩ :=
      hserved.fits (.site ⟨hi.sites, _⟩) List.mem_cons_self
    obtain ⟨hbuiltin, hdots⟩ := hserved.checked
    obtain ⟨b, hb⟩ := Option.isSome_iff_exists.1 hbuiltin
    exact ⟨_, .primitive hplain hs hb (ellipsisCount_le hmarked hdots) hA,
      hcarried.primitive hb hcall hmarked⟩
  | @Drafted.named _ name args lo hi ts hplain hs hdynamic h, hserves => by
    have hserved := hserves (.call (.name name) (operandsOf hi ⟨.symbol name, args⟩ ts)) (by simp)
    obtain ⟨passed, hpasses, hstands, hmarked⟩ := Flow.passes_of_draftedLate h fun v hv =>
      hserved.fits v (List.mem_cons_of_mem _ (List.mem_cons_of_mem _ (List.mem_append_left _ hv)))
    have hcall : T.call hi.sites = ⟨.symbol name, args⟩ :=
      hserved.fits (.site ⟨hi.sites, _⟩) List.mem_cons_self
    exact ⟨_, .named hplain hs hdynamic (ellipsisCount_le hmarked hserved.checked) hpasses,
      .named hcall hmarked hstands⟩
  | @Drafted.computed _ callee args lo mid hi t ts lines hcallee hc h, hserves => by
    have hserved := hserves (.call (.computed t) (operandsOf hi ⟨callee, args⟩ ts)) (by simp)
    obtain ⟨C, hC, hcarried⟩ := means_of_drafted hc fun u hu => by
      rcases List.mem_append.1 hu with hu | hu
      · exact hserves u (List.mem_append_left _ hu)
      · obtain rfl := List.mem_singleton.1 hu
        exact ⟨fun v hv => hserved.fits v (List.mem_append_left _ hv), hserved.checked.1⟩
    obtain ⟨passed, hpasses, hstands, hmarked⟩ := Flow.passes_of_draftedLate h fun v hv =>
      hserved.fits v (List.mem_append_right _ (List.mem_cons_of_mem _ (List.mem_cons_of_mem _
        (List.mem_cons_of_mem _ (List.mem_append_left _ hv)))))
    have hcall : T.call hi.sites = ⟨callee, args⟩ :=
      hserved.fits (.site ⟨hi.sites, _⟩) (List.mem_append_right _ List.mem_cons_self)
    exact ⟨_, .computed hcallee (ellipsisCount_le hmarked hserved.checked.2) hC hpasses,
      hcarried.computed hcall hmarked hstands⟩

theorem means_of_draftedSteps {args : List (Arg Expr)} {lo hi : Taken} {t : Term} {lines : Body} :
    DraftedSteps o args lo t lines hi → (∀ u ∈ lines.operands ++ [t], Serves o T u) →
      ∃ M, MeansSteps o limit env args M ∧ Carried T limit env lo hi lines t M
  | .nil, _ => ⟨_, .nil, .literal .null⟩
  | .last h, hserves => by
    obtain ⟨M, hM, hcarried⟩ := means_of_drafted h hserves
    exact ⟨M, .last hM, hcarried⟩
  | .step h hrest, hserves => by
    obtain ⟨A, hA, hcarried⟩ := means_of_drafted h fun u => serves_effect fun w hw => hserves w (by
      simp at hw ⊢
      tauto)
    obtain ⟨B, hB, hcarried'⟩ := means_of_draftedSteps hrest fun u hu => hserves u (by
      simp at hu ⊢
      tauto)
    exact ⟨_, .step hA hB, hcarried.step (Flow.tidy_of_drafted h).lines.le.slots hcarried'⟩

theorem means_of_draftedNow {args : List (Arg Expr)} {lo hi : Taken} {ts : List Term}
    {lines : Body} :
    DraftedNow o args lo ts lines hi → (∀ u ∈ lines.operands, Serves o T u) →
      (∀ v ∈ Term.visitsOf ts, Fits o T v) →
      ∃ A, MeansNow o limit env args A ∧ List.Forall₂ Flow.Marked args ts ∧
        CarriedNow T limit env lo lines ts A
  | .nil, _, _ => ⟨_, .nil, .nil, ⟨fun H b _ => .nil fun F s => ⟨[], rfl, .nil⟩⟩⟩
  | .ellipsis ha hrest, hserves, hfits => by
    obtain ⟨A, hA, hmarked, hcarried⟩ := means_of_draftedNow hrest hserves hfits
    exact ⟨_, .ellipsis ha hA, .cons ha.symm hmarked, hcarried.ellipsis⟩
  | .trivial ha h ht hrest, hserves, hfits => by
    obtain ⟨M, hM, hcarried⟩ := means_of_drafted h fun u hu => by
      rcases List.mem_append.1 hu with hu | hu
      · exact hserves u (by simp [hu])
      · obtain rfl := List.mem_singleton.1 hu
        exact .of_trivial ht
    obtain ⟨A, hA, hmarked, hcarried'⟩ := means_of_draftedNow hrest
      (fun u hu => hserves u (by simp [hu])) fun v hv => hfits v (List.mem_append_right _ hv)
    have hne : Flow.Term.isEllipsis _ = false := isEllipsis_of_isTrivial ht
    exact ⟨_, .value ha hM hA, .cons (hne.trans ha.symm) hmarked,
      CarriedNow.trivial (Flow.tidy_of_drafted h).lines.le.slots ht hcarried hcarried'⟩
  | .settled ha h ht hrest, hserves, hfits => by
    obtain ⟨M, hM, hcarried⟩ := means_of_drafted h fun u hu => hserves u (by
      simp [Flow.Statement.operand?] at hu ⊢
      tauto)
    obtain ⟨A, hA, hmarked, hcarried'⟩ := means_of_draftedNow hrest
      (fun u hu => hserves u (by simp [hu])) fun v hv => hfits v (List.mem_append_right _ hv)
    exact ⟨_, .value ha hM hA, .cons ha.symm hmarked,
      CarriedNow.settled (Flow.tidy_of_drafted h).lines.le.slots hcarried hcarried'⟩

end

/-! ## Units -/

/-- What follows a graph that ends as an evaluation does follows the evaluation. -/
lemma Follows.const {R G : Nat → Eval Value} {M : Eval Value} (h : Follows R G)
    (hG : ∀ s, ∃ k, (∀ n ≥ k, Agrees (G n s) (M s)) ∧ ∀ n < k, Exhausts (G n s)) :
    Follows R fun _ => M := by
  intro n s
  obtain ⟨k, hk, hlow⟩ := hG s
  constructor
  · intro hM
    refine (h n s).1 ?_
    by_cases hn : n < k
    · exact hlow n hn
    · exact (hk n (Nat.le_of_not_lt hn)).exhausts hM
  · intro hM
    obtain ⟨j, hj, hjlow⟩ := (h k s).2 fun hG => hM ((hk k (Nat.le_refl k)).symm.exhausts hG)
    exact ⟨j, fun m hm => (hj m hm).trans (hk k (Nat.le_refl k)), hjlow⟩

section

variable {lo hi : Taken} {t : Term} {lines : Body} {e : Expr}

/-- The tables of a unit serve the operands of the lines that it was compiled from. -/
lemma serves_of_made {depth : Nat} {name : String} {z : Assembly} {u : CodeUnit} {j k : Journal}
    (hdrafted : Drafted o e lo t lines hi) (hdepth : (returning lines t).depth ≤ depth)
    (hcompiled : Compiling.unitWithin o (depth + 1) name (returning lines t) j = .ok u k)
    (hz : Made (Compiling.unitWithin o depth) name (returning lines t) z u) :
    ∀ w ∈ lines.operands ++ [t], Serves o z.tables w := by
  have hlines := (Flow.tidy_of_drafted hdrafted).lines
  have hmeets : ∀ v ∈ (returning lines t).meets, v ∈ lines.meets ++ Term.visitsOf [t] := by
    intro v hv
    simpa [returning, Flow.Statement.visits] using hv
  have hunique : ∀ v ∈ (returning lines t).visits, ∀ v' ∈ (returning lines t).visits,
      v.Alike v' → v = v' := fun v hv v' hv' =>
    hlines.numbered.unique v (hmeets v (Flow.Body.mem_meets hv)) v'
      (hmeets v' (Flow.Body.mem_meets hv'))
  intro w hw
  obtain ⟨st, hst, hoperand⟩ : ∃ st ∈ Body.statements (returning lines t), st.operand? = some w := by
    have hmem : w ∈ (returning lines t).operands := by
      simpa [returning, Flow.Statement.operand?] using hw
    obtain ⟨st, hst, hoperand⟩ := List.mem_filterMap.1 hmem
    exact ⟨st, hst, hoperand⟩
  have hgraph := hlines.live.mem_statements hst
  refine ⟨fun v hv => hz.fits hdepth ((Notes.mem_addAll hunique).2 ?_),
    Compiling.checked_of_unitWithin hcompiled hgraph hoperand⟩
  refine List.mem_flatMap.2 ⟨st, hgraph, ?_⟩
  rw [Flow.Statement.visits_eq, hoperand]
  exact hv

/-- The graph of the lines does what they carry out. -/
lemma Carried.graph_ends {M : Host → Eval Value} (h : Carried T limit env lo hi lines t M)
    (hlabels : lines.labels.Nodup) (H : Host) (s : Store) :
    ∃ k, (∀ n ≥ k, Agrees (Scene.graph ⟨limit, H, env, T⟩ (Graph.ofBody (returning lines t)) n s)
        (M H s)) ∧
      ∀ n < k, Exhausts (Scene.graph ⟨limit, H, env, T⟩ (Graph.ofBody (returning lines t)) n s) := by
  have hb : (returning lines t).labels.Nodup := by simpa [returning] using hlabels
  refine Scene.graph_ends hb ?_
  have hends := h.carries H _ hb [.statement (.ret t)] .empty s pure List.suffix_rfl
    fun F u _ hawaits => ?_
  · rwa [bind_pure] at hends
  · rw [bind_pure]
    have hst := Scene.statement_ret (X := ⟨limit, H, env, T⟩) t F u
    rcases hawaits.yields.cases with ⟨v, G, w, hterm, -, hM⟩ | ⟨e, w, hterm, hM⟩
    · rw [hterm] at hst
      rw [hM]
      exact Scene.ends_ret rfl hst
    · rw [hterm] at hst
      rw [hM]
      exact Scene.ends_error hst

end

/-- **A unit that was compiled from an expression does what the expression means.** -/
theorem CompiledFrom.executes {e : Expr} {u : CodeUnit} (h : CompiledFrom o e u) (limit : Nat)
    (env : EnvId) :
    ∃ M, Means o limit env e M ∧ ∀ H,
      Follows (fun n => Machine.run ⟨limit, false⟩ H u env n (.start u env)) fun _ => M H := by
  obtain ⟨b, ⟨lo, hi, t, lines, hdrafted, rfl⟩, depth, name, j, k, hdepth, hcompiled⟩ := h
  obtain ⟨depth, rfl⟩ := Nat.exists_eq_succ_of_ne_zero (Nat.ne_zero_of_lt hdepth)
  obtain ⟨z, hz⟩ := Compiling.made_of_unitWithin hcompiled
  have hserves := serves_of_made hdrafted (Nat.le_of_lt_succ hdepth) hcompiled hz
  obtain ⟨M, hM, hcarried⟩ := @means_of_drafted _ _ limit env _ _ _ _ _ hdrafted hserves
  exact ⟨M, hM, fun H => (hz.follows limit H env).const
    (hcarried.graph_ends (Flow.tidy_of_drafted hdrafted).aimed.nodup H)⟩

end CallByNeed
