import CallByNeed.Proofs.Flow.Drafted

/-!
# Drafting what is drafted

Lines that are those of an expression (`Drafted`) are what drafting the expression yields
(`yields_of_drafted`): drafting succeeds from the identities on where the lines begin, appends the lines
and ends with the identities that they have taken. So what was drafted once, on the way to something
larger, can be drafted on its own. The proof follows the derivation, with one statement for each kind of
things that are drafted.
-/

namespace CallByNeed.Flow

namespace Drafting

variable {o : CompilerOptions} {α β : Type}

/-- The piece of drafting succeeds from these identities on, with this result, these lines and those
identities taken in the end. -/
def Yields (c : Drafting α) (lo : Taken) (x : α) (b : Body) (hi : Taken) : Prop :=
  ∀ lines, c ⟨lo, lines⟩ = .ok (x, ⟨hi, lines ++ b.toArray⟩)

namespace Yields

variable {c : Drafting α} {f : α → Drafting β} {x : α} {y : β} {b b' : Body} {lo mid hi : Taken}

protected lemma pure : Yields (pure x) lo x [] lo := by
  intro lines
  show _ = Except.ok (x, (⟨lo, lines ++ #[]⟩ : Draft))
  rw [Array.append_empty]
  rfl

protected lemma bind (h : Yields c lo x b mid) (h' : Yields (f x) mid y b' hi) :
    Yields (c >>= f) lo y (b ++ b') hi := by
  intro lines
  rw [Drafts.bind_apply, h lines]
  dsimp only
  rw [h', Array.append_assoc, List.append_toArray b b']

/-- A piece that ends with one that appends nothing. -/
lemma last (h : Yields c lo x b mid) (h' : Yields (f x) mid y [] hi) :
    Yields (c >>= f) lo y b hi :=
  List.append_nil b ▸ h.bind h'

lemma line {l : Line Term} {f : PUnit → Drafting β} (h : Yields (f ⟨⟩) lo y b hi) :
    Yields (Drafting.line l >>= f) lo y (l :: b) hi := by
  have hline : Yields (Drafting.line l) lo ⟨⟩ [l] lo := by
    intro lines
    show Except.ok (PUnit.unit, (⟨lo, lines.push l⟩ : Draft)) = _
    rw [Array.push_eq_append]
  exact hline.bind h

lemma slot {f : Nat → Drafting β} (h : Yields (f lo.slots) (lo.take 1 0) y b hi) :
    Yields (Drafting.slot .counting >>= f) lo y b hi := h

lemma label {f : Label → Drafting β} (h : Yields (f ⟨lo.labels⟩) (lo.take 0 1) y b hi) :
    Yields (Drafting.label .counting >>= f) lo y b hi := h

lemma node {f : NodeId → Drafting β} (h : Yields (f ⟨lo.nodes⟩) lo.takeNode y b hi) :
    Yields (Drafting.node .counting >>= f) lo y b hi := h

lemma site (call : Call) {f : CallSite → Drafting β}
    (h : Yields (f ⟨lo.sites, call⟩) lo.takeSite y b hi) :
    Yields (Drafting.site .counting call >>= f) lo y b hi := h

lemma nested {value : Drafting Term} {t : Term} (h : Yields value lo t b hi) :
    Yields (Drafting.nested value) lo (returning b t) [] hi := by
  intro lines
  have hrun : Drafting.nested value ⟨lo, lines⟩ = match value ⟨lo, #[]⟩ with
      | .ok (t, d) => .ok ((d.lines.push (.statement (.ret t))).toList, { d with lines })
      | .error e => .error e := by
    show Except.bind (value ⟨lo, #[]⟩) _ = _
    unfold Except.bind
    cases value ⟨lo, #[]⟩ <;> rfl
  rw [hrun, h]
  simp [returning]

end Yields

lemma yields_conditional {c y n : Drafting Term} {tc ty tn : Term} {bc yb nb : Body}
    {lo m₁ m₂ hi : Taken} (hc : Yields c lo tc bc m₁) (hy : Yields y (m₁.take 1 3) ty yb m₂)
    (hn : Yields n m₂ tn nb hi) : Yields (conditional .counting c y n) lo (.temp m₁.slots)
      (choiceLines bc yb nb tc ty tn m₁.slots m₁.labels) hi :=
  hc.bind <| .slot <| .label <| .label <| .label <| .line <| .line <| hy.bind <| .line <| .line <|
    .line <| hn.bind <| .line <| .line <| .line .pure

lemma yields_evalUnlessTrivial (t : Term) (lo : Taken) :
    Yields (evalUnlessTrivial t) lo ⟨⟩ (effectOf t) lo := by
  unfold evalUnlessTrivial effectOf
  split
  · exact .pure
  · exact .line .pure

lemma yields_settle_of_trivial {t : Term} {lo : Taken} (ht : t.isTrivial = true) :
    Yields (settle .counting t) lo t [] lo := by
  unfold settle
  rw [if_pos ht]
  exact .pure

lemma yields_settle {t : Term} {lo : Taken} (ht : t.isTrivial = false) :
    Yields (settle .counting t) lo (.temp lo.slots)
      [.statement (.assign (.temp lo.slots) t)] (lo.take 1 0) := by
  unfold settle
  rw [if_neg (by simp [ht])]
  exact .slot (.line .pure)

lemma yields_loop (name : Symbol) {q e : Drafting Term} {tq te : Term} {bq be : Body}
    {lo m₁ hi : Taken} (hq : Yields q (lo.take 1 0) tq bq m₁)
    (he : Yields e (m₁.take 2 3) te be hi) : Yields (loop .counting name q e) lo .null
      (bq ++ (loopHead name tq lo.slots m₁.slots m₁.labels ++
        (be ++ (effectOf te ++ loopTail m₁.slots m₁.labels)))) hi :=
  .slot <| hq.bind <| .line <| .slot <| .slot <| .line <| .line <| .label <| .label <| .label <|
    .line <| .line <| .line <| .line <| he.bind <| (yields_evalUnlessTrivial te _).bind <| .line <|
      .line <| .line .pure

lemma yields_assignment (name : Symbol) {v : Drafting Term} {t : Term} {b : Body} {lo hi : Taken}
    (hv : Yields v lo t b hi) : Yields (assignment .counting name v) lo (.temp hi.slots)
      (b ++ [.statement (.assign (.temp hi.slots) t),
        .statement (.assign (.env name) (.temp hi.slots))]) (hi.take 1 0) :=
  hv.bind <| .slot <| .line <| .line .pure

/-! ### Calls -/

lemma yields_dynamicCall (call : Call) {c : Drafting (Callee Term)} {args : Drafting (List Term)}
    {f : Callee Term} {ts : List Term} {b : Body} {lo mid hi : Taken} (hc : Yields c lo f b mid)
    (hargs : Yields args mid ts [] hi) :
    Yields (dynamicCall .counting call c args) lo (.call f (operandsOf hi call ts)) b hi.takeSite :=
  hc.last (hargs.last (.site call .pure))

lemma yields_primitiveCall (name : Symbol) (call : Call) {args : Drafting (List Term)}
    {ts : List Term} {b : Body} {lo hi : Taken} (hargs : Yields args lo ts b hi) :
    Yields (primitiveCall .counting name call args) lo (.primitive name (operandsOf hi call ts)) b
      hi.takeSite :=
  hargs.last (.site call .pure)

/-- A call that is not inlined is drafted plainly. -/
lemma term_call_of_not_inlines {ids : IdSource} {callee : Expr} {args : List (Arg Expr)}
    (h : ¬ o.Inlines callee args) :
    term o ids (.call callee args) = plainCall o ids callee args := by
  rw [term_call]
  by_cases hinline : (o.inlineControlFlow && args.all fun a => a.name.isNone) = true
  · obtain ⟨ho, hall⟩ := Bool.and_eq_true_iff.1 hinline
    have hnone : ∀ a ∈ args, a.name = none := fun a ha =>
      Option.isNone_iff_eq_none.1 (List.all_eq_true.1 hall a ha)
    rw [if_pos hinline]
    split
    · rename_i n c n' y
      obtain rfl : n = none := hnone ⟨n, c⟩ (by simp)
      obtain rfl : n' = none := hnone ⟨n', y⟩ (by simp)
      exact absurd ⟨ho, .whether rfl c y⟩ h
    · rename_i n c n' y n'' e
      obtain rfl : n = none := hnone ⟨n, c⟩ (by simp)
      obtain rfl : n' = none := hnone ⟨n', y⟩ (by simp)
      obtain rfl : n'' = none := hnone ⟨n'', e⟩ (by simp)
      exact absurd ⟨ho, .choice rfl c y e⟩ h
    · rename_i n name n' q n'' e
      obtain rfl : n = none := hnone ⟨n, .symbol name⟩ (by simp)
      obtain rfl : n' = none := hnone ⟨n', q⟩ (by simp)
      obtain rfl : n'' = none := hnone ⟨n'', e⟩ (by simp)
      split
      · rfl
      · rename_i hname
        exact absurd ⟨ho, .loop rfl (by simpa using hname) q e⟩ h
    · exact absurd ⟨ho, .block rfl hnone⟩ h
    · rename_i n name n' e
      obtain rfl : n = none := hnone ⟨n, .symbol name⟩ (by simp)
      obtain rfl : n' = none := hnone ⟨n', e⟩ (by simp)
      split
      · rfl
      · rename_i hname
        exact absurd ⟨ho, .assignment rfl (by simpa using hname) e⟩ h
    · rfl
  · rw [if_neg hinline]

/-! ### Expressions -/

mutual

/-- **Lines that are drafted for an expression are those that drafting it gives.** -/
theorem yields_of_drafted {e : Expr} {lo hi : Taken} {t : Term} {b : Body} :
    Drafted o e lo t b hi → Yields (term o .counting e) lo t b hi
  | .reading h => by
    unfold term
    rw [if_neg (by simp [h])]
    exact .pure
  | .literal h => by
    cases e <;> first | exact .pure | cases h
  | .closure hformals hbody => by
    unfold term
    exact (yields_of_draftedFormals hformals).bind
      ((yields_of_drafted hbody).nested.bind (.node .pure))
  | .whether ho hc hy => by
    rw [term_call, if_pos (by simp [ho])]
    exact yields_conditional (yields_of_drafted hc) (yields_of_drafted hy) .pure
  | .choice ho hc hy hn => by
    rw [term_call, if_pos (by simp [ho])]
    exact yields_conditional (yields_of_drafted hc) (yields_of_drafted hy) (yields_of_drafted hn)
  | @Drafted.loop _ name q e _ _ _ _ _ _ _ ho hname hq he => by
    have hloop := yields_loop name (yields_of_drafted hq) (yields_of_drafted he)
    rw [term_call, if_pos (by simp [ho])]
    show Yields (if name.isEllipsis = true then _ else loop .counting name _ _) _ _ _ _
    rwa [if_neg (by simp [hname])]
  | .block ho hargs h => by
    have hsteps := yields_of_draftedSteps h
    rw [term_call, if_pos (by simpa [ho] using hargs)]
    exact hsteps
  | @Drafted.assignment _ name _ _ _ _ _ ho hname h => by
    have hassign := yields_assignment name (yields_of_drafted h)
    rw [term_call, if_pos (by simp [ho])]
    show Yields (if name.isEllipsis = true then _ else assignment .counting name _) _ _ _ _
    rwa [if_neg (by simp [hname])]
  | @Drafted.primitive _ s args _ _ _ _ hplain hs h => by
    have hcall := yields_primitiveCall s ⟨.symbol s, args⟩ (yields_of_draftedNow h)
    rw [term_call_of_not_inlines hplain, plainCall, if_pos hs]
    exact hcall
  | @Drafted.named _ s args _ _ _ hplain hs hdynamic h => by
    have hcall := yields_dynamicCall ⟨.symbol s, args⟩ (.pure (x := .name s)) (yields_of_draftedLate h)
    rw [term_call_of_not_inlines hplain, plainCall, if_neg (by simp [hdynamic]),
      if_neg (by simp [hs])]
    exact hcall
  | @Drafted.computed _ callee args lo mid _ t _ b hcallee hc h => by
    have hcomputed : Yields (do let t ← term o .counting callee; return Callee.computed t) lo
        (.computed t) b mid := (yields_of_drafted hc).last .pure
    have hcall := yields_dynamicCall ⟨callee, args⟩ hcomputed (yields_of_draftedLate h)
    have hplain : ¬ o.Inlines callee args := by
      rintro ⟨-, h⟩
      cases h <;> cases hcallee
    rw [term_call_of_not_inlines hplain]
    cases callee with
    | symbol s => cases hcallee
    | _ => exact hcall

theorem yields_of_draftedSteps {args : List (Arg Expr)} {lo hi : Taken} {t : Term} {b : Body} :
    DraftedSteps o args lo t b hi → Yields (steps o .counting args) lo t b hi
  | .nil => .pure
  | .last h => yields_of_drafted h
  | .step h hrest =>
    (yields_of_drafted h).bind ((yields_evalUnlessTrivial _ _).bind (yields_of_draftedSteps hrest))

theorem yields_of_draftedNow {args : List (Arg Expr)} {lo hi : Taken} {ts : List Term} {b : Body} :
    DraftedNow o args lo ts b hi → Yields (eagerArgs o .counting args) lo ts b hi
  | .nil => .pure
  | .ellipsis ha hrest => by
    unfold eagerArgs
    rw [if_pos ha]
    exact Yields.bind .pure ((yields_of_draftedNow hrest).last .pure)
  | .trivial ha h ht hrest => by
    unfold eagerArgs
    rw [if_neg (by simp [ha])]
    exact (yields_of_drafted h).bind ((yields_settle_of_trivial ht).bind
      ((yields_of_draftedNow hrest).last .pure))
  | .settled ha h ht hrest => by
    unfold eagerArgs
    rw [if_neg (by simp [ha])]
    exact (yields_of_drafted h).bind ((yields_settle ht).bind
      ((yields_of_draftedNow hrest).last .pure))

theorem yields_of_draftedLate {args : List (Arg Expr)} {lo hi : Taken} {ts : List Term} :
    DraftedLate o args lo ts hi → Yields (lateArgs o .counting args) lo ts [] hi
  | .nil => .pure
  | .ellipsis ha hrest => by
    unfold lateArgs
    rw [if_pos ha]
    exact Yields.bind .pure ((yields_of_draftedLate hrest).last .pure)
  | @DraftedLate.literal _ a _ _ _ _ ha hrest => by
    have hellipsis : a.value.isEllipsis = false := by
      cases hvalue : a.value <;> first | rfl | (rw [hvalue] at ha; cases ha)
    unfold lateArgs
    rw [if_neg (by simp [hellipsis]), if_pos ha]
    exact Yields.bind .pure ((yields_of_draftedLate hrest).last .pure)
  | .thunk hellipsis hconstant h hrest => by
    unfold lateArgs
    rw [if_neg (by simp [hellipsis]), if_neg (by simp [hconstant])]
    exact (yields_of_drafted h).nested.bind (.node (Yields.bind .pure
      ((yields_of_draftedLate hrest).last .pure)))

theorem yields_of_draftedFormals {formals : List (Formal Expr)} {lo hi : Taken}
    {fs : List (Formal Thunk)} :
    DraftedFormals o formals lo fs hi → Yields (defaults o .counting formals) lo fs [] hi
  | .nil => .pure
  | .plain hrest => (yields_of_draftedFormals hrest).bind .pure
  | .default h hrest =>
    (yields_of_drafted h).nested.bind (.node ((yields_of_draftedFormals hrest).bind .pure))

end

end Drafting

end CallByNeed.Flow
