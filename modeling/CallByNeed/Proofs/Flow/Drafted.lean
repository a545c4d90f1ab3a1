import CallByNeed.Proofs.Flow.Drafts

/-!
# The lines that an expression is drafted to

`Drafted o e lo t b hi` says of an expression `e` which lines `b` are appended for it and which
operand `t` then holds its value, when the identities `lo` were taken before and `hi` are taken in the
end. It has one constructor for each shape of expressions, with the lines written out, so that what
is shown of drafted bodies is shown by induction on it and not by running the drafting again
(`Drafting.drafts_term`).
-/

namespace CallByNeed

/-- The calls that become branches and assignments when control flow is inlined. -/
inductive Inlined : Expr → List (Arg Expr) → Prop
  | whether {s : Symbol} (hs : s = ⟨Special.cond.name⟩) (c y : Expr) :
    Inlined (.symbol s) [⟨none, c⟩, ⟨none, y⟩]
  | choice {s : Symbol} (hs : s = ⟨Special.cond.name⟩) (c y n : Expr) :
    Inlined (.symbol s) [⟨none, c⟩, ⟨none, y⟩, ⟨none, n⟩]
  | loop {s name : Symbol} (hs : s = ⟨Special.loop.name⟩) (hname : name.isEllipsis = false)
    (q b : Expr) : Inlined (.symbol s) [⟨none, .symbol name⟩, ⟨none, q⟩, ⟨none, b⟩]
  | block {s : Symbol} {args : List (Arg Expr)} (hs : s = ⟨Special.block.name⟩)
    (hargs : ∀ a ∈ args, a.name = none) : Inlined (.symbol s) args
  | assignment {s name : Symbol} (hs : s = ⟨Special.assign.name⟩) (hname : name.isEllipsis = false)
    (e : Expr) : Inlined (.symbol s) [⟨none, .symbol name⟩, ⟨none, e⟩]

namespace Inlined

variable {s name : Symbol} {args : List (Arg Expr)}

/-- Only arguments without a name are inlined. -/
lemma positional {callee : Expr} (h : Inlined callee args) : ∀ a ∈ args, a.name = none := by
  cases h with
  | block _ hargs => exact hargs
  | _ => simp

/-- What is looped over is bound to a name other than `...`. -/
lemma loop_name {q b : Arg Expr} {n : Option Symbol} (hs : s = ⟨Special.loop.name⟩)
    (h : Inlined (.symbol s) [⟨n, .symbol name⟩, q, b]) : name.isEllipsis = false := by
  subst hs
  cases h with
  | loop _ hname => exact hname
  | choice hs => exact absurd hs (by decide)
  | block hs => exact absurd hs (by decide)

/-- What is assigned is bound to a name other than `...`. -/
lemma assignment_name {e : Arg Expr} {n : Option Symbol} (hs : s = ⟨Special.assign.name⟩)
    (h : Inlined (.symbol s) [⟨n, .symbol name⟩, e]) : name.isEllipsis = false := by
  subst hs
  cases h with
  | assignment _ hname => exact hname
  | whether hs => exact absurd hs (by decide)
  | block hs => exact absurd hs (by decide)

end Inlined

/-- The options inline the call. -/
def CompilerOptions.Inlines (o : CompilerOptions) (callee : Expr) (args : List (Arg Expr)) : Prop :=
  o.inlineControlFlow = true ∧ Inlined callee args

end CallByNeed

namespace CallByNeed.Flow

/-- The lines that evaluate an operand for its effect, if it can have one. -/
def effectOf (t : Term) : Body := if t.isTrivial then [] else [.statement (.eval t)]

/-- The lines of a conditional, given those of its parts. -/
def choiceLines (condition yes no : Body) (tc ty tn : Term) (result : Nat) (l : Nat) : Body :=
  condition ++ ([.statement (.branch tc ⟨l⟩ ⟨l + 1⟩), .label ⟨l⟩] ++
    (yes ++ ([.statement (.assign (.temp result) ty), .statement (.goto ⟨l + 2⟩), .label ⟨l + 1⟩] ++
      (no ++ [.statement (.assign (.temp result) tn), .statement (.goto ⟨l + 2⟩),
        .label ⟨l + 2⟩]))))

/-- The counter of a loop. -/
def counterOf (length : Nat) : Term := .local (length + 1) ⟨"i"⟩

/-- The head of a loop: the sequence and its length are kept, and the counter starts at zero. -/
def loopHead (name : Symbol) (tq : Term) (seq length l : Nat) : Body :=
  [.statement (.assign (.temp seq) tq),
    .statement (.assign (.local length ⟨"length"⟩) (.length (.temp seq))),
    .statement (.assign (.local (length + 1) ⟨"i"⟩) (.int 0)), .label ⟨l⟩,
    .statement (.branch (.atLeast (counterOf length) (.local length ⟨"length"⟩)) ⟨l + 2⟩ ⟨l + 1⟩),
    .label ⟨l + 1⟩, .statement (.assign (.env name) (.element (.temp seq) (counterOf length)))]

/-- The end of a loop: the counter is increased. -/
def loopTail (length l : Nat) : Body :=
  [.statement (.assign (.local (length + 1) ⟨"i"⟩) (.increment (counterOf length))),
    .statement (.goto ⟨l⟩), .label ⟨l + 2⟩]

/-- The body that returns an operand behind the lines that it needs. -/
def returning (b : Body) (t : Term) : Body := b ++ [.statement (.ret t)]

namespace Taken

/-- Slots and labels taken next. -/
def take (lo : Taken) (slots labels : Nat) : Taken :=
  { lo with slots := lo.slots + slots, labels := lo.labels + labels }

/-- One more nested body. -/
def takeNode (lo : Taken) : Taken := { lo with nodes := lo.nodes + 1 }

/-- One more call site. -/
def takeSite (lo : Taken) : Taken := { lo with sites := lo.sites + 1 }

end Taken

/-- The operands of a call that was drafted last. -/
def operandsOf (lo : Taken) (call : Call) (ts : List Term) : Operands Term :=
  ⟨⟨lo.sites, call⟩, ts, call.args.map Arg.name⟩

mutual

/-- The lines of an expression, and the operand that holds its value. -/
inductive Drafted (o : CompilerOptions) : Expr → Taken → Term → Body → Taken → Prop
  | reading {name : Symbol} {lo : Taken} (h : name.isEllipsis = false) :
    Drafted o (.symbol name) lo (.env name) [] lo
  | literal {e : Expr} {lo : Taken} (h : e.isConstant = true) : Drafted o e lo (.literal e) [] lo
  | closure {f : Function} {lo mid hi : Taken} {formals : List (Formal Thunk)} {t : Term} {b : Body}
    (hformals : DraftedFormals o f.formals lo formals mid) (hbody : Drafted o f.body mid t b hi) :
    Drafted o (.function f.formals f.body) lo
      (.closure ⟨hi.nodes⟩ ⟨none, formals, returning b t⟩) [] hi.takeNode
  | whether {c y : Expr} {lo m₁ hi : Taken} {tc ty : Term} {bc yb : Body}
    (ho : o.inlineControlFlow = true) (hc : Drafted o c lo tc bc m₁)
    (hy : Drafted o y (m₁.take 1 3) ty yb hi) :
    Drafted o (.call (.symbol ⟨Special.cond.name⟩) [⟨none, c⟩, ⟨none, y⟩]) lo
      (.temp m₁.slots) (choiceLines bc yb [] tc ty .null m₁.slots m₁.labels) hi
  | choice {c y n : Expr} {lo m₁ m₂ hi : Taken} {tc ty tn : Term} {bc yb nb : Body}
    (ho : o.inlineControlFlow = true) (hc : Drafted o c lo tc bc m₁)
    (hy : Drafted o y (m₁.take 1 3) ty yb m₂) (hn : Drafted o n m₂ tn nb hi) :
    Drafted o (.call (.symbol ⟨Special.cond.name⟩) [⟨none, c⟩, ⟨none, y⟩, ⟨none, n⟩]) lo
      (.temp m₁.slots) (choiceLines bc yb nb tc ty tn m₁.slots m₁.labels) hi
  | loop {name : Symbol} {q e : Expr} {lo m₁ hi : Taken} {tq te : Term} {bq be : Body}
    (ho : o.inlineControlFlow = true) (hname : name.isEllipsis = false)
    (hq : Drafted o q (lo.take 1 0) tq bq m₁) (he : Drafted o e (m₁.take 2 3) te be hi) :
    Drafted o
      (.call (.symbol ⟨Special.loop.name⟩) [⟨none, .symbol name⟩, ⟨none, q⟩, ⟨none, e⟩]) lo
      .null (bq ++ (loopHead name tq lo.slots m₁.slots m₁.labels ++
        (be ++ (effectOf te ++ loopTail m₁.slots m₁.labels)))) hi
  | block {args : List (Arg Expr)} {lo hi : Taken} {t : Term} {b : Body}
    (ho : o.inlineControlFlow = true) (hargs : ∀ a ∈ args, a.name = none)
    (h : DraftedSteps o args lo t b hi) :
    Drafted o (.call (.symbol ⟨Special.block.name⟩) args) lo t b hi
  | assignment {name : Symbol} {e : Expr} {lo hi : Taken} {t : Term} {b : Body}
    (ho : o.inlineControlFlow = true) (hname : name.isEllipsis = false)
    (h : Drafted o e lo t b hi) :
    Drafted o (.call (.symbol ⟨Special.assign.name⟩) [⟨none, .symbol name⟩, ⟨none, e⟩]) lo
      (.temp hi.slots) (b ++ [.statement (.assign (.temp hi.slots) t),
        .statement (.assign (.env name) (.temp hi.slots))]) (hi.take 1 0)
  | primitive {s : Symbol} {args : List (Arg Expr)} {lo hi : Taken} {ts : List Term} {b : Body}
    (hplain : ¬ o.Inlines (.symbol s) args) (hs : o.isStaticPrimitive s.name = true)
    (h : DraftedNow o args lo ts b hi) :
    Drafted o (.call (.symbol s) args) lo
      (.primitive s (operandsOf hi ⟨.symbol s, args⟩ ts)) b hi.takeSite
  | named {s : Symbol} {args : List (Arg Expr)} {lo hi : Taken} {ts : List Term}
    (hplain : ¬ o.Inlines (.symbol s) args) (hs : s.isEllipsis = false)
    (hdynamic : o.isStaticPrimitive s.name = false) (h : DraftedLate o args lo ts hi) :
    Drafted o (.call (.symbol s) args) lo
      (.call (.name s) (operandsOf hi ⟨.symbol s, args⟩ ts)) [] hi.takeSite
  | computed {callee : Expr} {args : List (Arg Expr)} {lo mid hi : Taken} {t : Term}
    {ts : List Term} {b : Body} (hcallee : callee.symbol? = none)
    (hc : Drafted o callee lo t b mid) (h : DraftedLate o args mid ts hi) :
    Drafted o (.call callee args) lo
      (.call (.computed t) (operandsOf hi ⟨callee, args⟩ ts)) b hi.takeSite

/-- The lines of the steps of a block, and the operand that holds the value of the last one. -/
inductive DraftedSteps (o : CompilerOptions) :
    List (Arg Expr) → Taken → Term → Body → Taken → Prop
  | nil {lo : Taken} : DraftedSteps o [] lo .null [] lo
  | last {a : Arg Expr} {lo hi : Taken} {t : Term} {b : Body} (h : Drafted o a.value lo t b hi) :
    DraftedSteps o [a] lo t b hi
  | step {a a' : Arg Expr} {rest : List (Arg Expr)} {lo mid hi : Taken} {t t' : Term} {b b' : Body}
    (h : Drafted o a.value lo t b mid) (hrest : DraftedSteps o (a' :: rest) mid t' b' hi) :
    DraftedSteps o (a :: a' :: rest) lo t' (b ++ (effectOf t ++ b')) hi

/-- The lines of arguments that are evaluated at once, and the operands that hold their values. -/
inductive DraftedNow (o : CompilerOptions) :
    List (Arg Expr) → Taken → List Term → Body → Taken → Prop
  | nil {lo : Taken} : DraftedNow o [] lo [] [] lo
  | ellipsis {a : Arg Expr} {rest : List (Arg Expr)} {lo hi : Taken} {ts : List Term} {b : Body}
    (ha : a.value.isEllipsis = true) (hrest : DraftedNow o rest lo ts b hi) :
    DraftedNow o (a :: rest) lo (.ellipsis :: ts) b hi
  /-- An operand without effect stays where it is. -/
  | trivial {a : Arg Expr} {rest : List (Arg Expr)} {lo mid hi : Taken} {t : Term} {ts : List Term}
    {b b' : Body} (ha : a.value.isEllipsis = false) (h : Drafted o a.value lo t b mid)
    (ht : t.isTrivial = true) (hrest : DraftedNow o rest mid ts b' hi) :
    DraftedNow o (a :: rest) lo (t :: ts) (b ++ b') hi
  /-- Any other operand is put into a temporary. -/
  | settled {a : Arg Expr} {rest : List (Arg Expr)} {lo mid hi : Taken} {t : Term} {ts : List Term}
    {b b' : Body} (ha : a.value.isEllipsis = false) (h : Drafted o a.value lo t b mid)
    (ht : t.isTrivial = false) (hrest : DraftedNow o rest (mid.take 1 0) ts b' hi) :
    DraftedNow o (a :: rest) lo (.temp mid.slots :: ts)
      (b ++ (.statement (.assign (.temp mid.slots) t) :: b')) hi

/-- The operands of arguments that are evaluated late. -/
inductive DraftedLate (o : CompilerOptions) :
    List (Arg Expr) → Taken → List Term → Taken → Prop
  | nil {lo : Taken} : DraftedLate o [] lo [] lo
  | ellipsis {a : Arg Expr} {rest : List (Arg Expr)} {lo hi : Taken} {ts : List Term}
    (ha : a.value.isEllipsis = true) (hrest : DraftedLate o rest lo ts hi) :
    DraftedLate o (a :: rest) lo (.ellipsis :: ts) hi
  | literal {a : Arg Expr} {rest : List (Arg Expr)} {lo hi : Taken} {ts : List Term}
    (ha : a.value.isConstant = true) (hrest : DraftedLate o rest lo ts hi) :
    DraftedLate o (a :: rest) lo (.literal a.value :: ts) hi
  | thunk {a : Arg Expr} {rest : List (Arg Expr)} {lo mid hi : Taken} {t : Term} {ts : List Term}
    {b : Body} (hellipsis : a.value.isEllipsis = false) (hconstant : a.value.isConstant = false)
    (h : Drafted o a.value lo t b mid) (hrest : DraftedLate o rest mid.takeNode ts hi) :
    DraftedLate o (a :: rest) lo (.thunk ⟨⟨mid.nodes⟩, a.value, returning b t⟩ :: ts) hi

/-- The formals of a function literal. -/
inductive DraftedFormals (o : CompilerOptions) :
    List (Formal Expr) → Taken → List (Formal Thunk) → Taken → Prop
  | nil {lo : Taken} : DraftedFormals o [] lo [] lo
  | plain {name : Symbol} {rest : List (Formal Expr)} {lo hi : Taken} {formals : List (Formal Thunk)}
    (hrest : DraftedFormals o rest lo formals hi) :
    DraftedFormals o (⟨name, none⟩ :: rest) lo (⟨name, none⟩ :: formals) hi
  | default {name : Symbol} {e : Expr} {rest : List (Formal Expr)} {lo mid hi : Taken} {t : Term}
    {b : Body} {formals : List (Formal Thunk)} (h : Drafted o e lo t b mid)
    (hrest : DraftedFormals o rest mid.takeNode formals hi) :
    DraftedFormals o (⟨name, some e⟩ :: rest) lo
      (⟨name, some ⟨⟨mid.nodes⟩, e, returning b t⟩⟩ :: formals) hi

end

/-! ## Drafting gives these lines -/

namespace Drafting

variable {o : CompilerOptions}

/-- Conditions on the parts of something drafted, which relate the identities, results and lines. -/
abbrev Spec (α : Type) : Type := Taken → α → Body → Taken → Prop

/-! ### Reading a piece of drafting from its end -/

section

variable {α β : Type} {S : Spec β} {f : α → Drafting β}

/-- A piece that is done. -/
lemma drafts_done {x : β} (h : ∀ lo, S lo x [] lo) : Drafts (pure x) S := by
  intro d y d' hc
  cases hc
  exact ⟨[], (List.append_nil _).symm, h d.taken⟩

/-- A piece that begins with another one. -/
lemma drafts_then {c : Drafting α} {C : Spec α} (hc : Drafts c C)
    (h : ∀ x, Drafts (f x) fun mid y b hi => ∀ lo b₀, C lo x b₀ mid → S lo y (b₀ ++ b) hi) :
    Drafts (c >>= f) S := by
  refine (hc.bind h).mono ?_
  rintro lo y _ hi ⟨x, mid, b₀, b, rfl, hC, hS⟩
  exact hS lo b₀ hC

/-- A piece that begins with a line. -/
lemma drafts_line {l : Line Term} {f : PUnit → Drafting β}
    (h : Drafts (f ⟨⟩) fun lo y b hi => S lo y (l :: b) hi) : Drafts (line l >>= f) S := by
  refine drafts_then (Drafts.line l) fun _ => h.mono ?_
  rintro mid y b hi hS lo _ ⟨rfl, rfl⟩
  exact hS

/-- A piece that begins by taking a slot. -/
lemma drafts_slot {f : Nat → Drafting β}
    (h : ∀ i, Drafts (f i) fun mid y b hi => ∀ lo, i = lo.slots → mid = lo.take 1 0 → S lo y b hi) :
    Drafts (slot .counting >>= f) S := by
  refine drafts_then Drafts.slot fun i => (h i).mono ?_
  rintro mid y b hi hS lo _ ⟨hi', rfl, hmid⟩
  exact hS lo hi' hmid

/-- A piece that begins by taking a label. -/
lemma drafts_label {f : Label → Drafting β}
    (h : ∀ n, Drafts (f ⟨n⟩) fun mid y b hi =>
      ∀ lo, n = lo.labels → mid = lo.take 0 1 → S lo y b hi) :
    Drafts (label .counting >>= f) S := by
  refine drafts_then Drafts.label fun l => (h l.id).mono ?_
  rintro mid y b hi hS lo _ ⟨hl, rfl, hmid⟩
  exact hS lo (congrArg Label.id hl) hmid

end

/-! ### The shapes -/

/-- Evaluating an operand for its effect. -/
lemma drafts_evalUnlessTrivial (t : Term) :
    Drafts (evalUnlessTrivial t) fun lo _ b hi => b = effectOf t ∧ hi = lo := by
  unfold evalUnlessTrivial effectOf
  split
  · exact drafts_done fun _ => ⟨rfl, rfl⟩
  · exact Drafts.line _

/-- A conditional, given its parts. -/
lemma drafts_conditional {condition yes no : Drafting Term} {C Y N : Spec Term}
    (hc : Drafts condition C) (hy : Drafts yes Y) (hn : Drafts no N) :
    Drafts (conditional .counting condition yes no) fun lo t b hi =>
      ∃ m₁ m₂ tc ty tn bc yb nb, C lo tc bc m₁ ∧ Y (m₁.take 1 3) ty yb m₂ ∧ N m₂ tn nb hi ∧
        t = .temp m₁.slots ∧ b = choiceLines bc yb nb tc ty tn m₁.slots m₁.labels := by
  refine drafts_then hc fun tc => drafts_slot fun r => drafts_label fun ly => drafts_label fun ln =>
    drafts_label fun ld => drafts_line <| drafts_line <| drafts_then hy fun ty => drafts_line <|
      drafts_line <| drafts_line <| drafts_then hn fun tn => drafts_line <| drafts_line <|
        drafts_line <| drafts_done ?_
  intro hi m₂ nb hN m₅ yb hY m₄ hld hm₅ m₃ hln hm₄ m₂' hly hm₃ m₁ hr hm₂' lo bc hC
  subst hm₅ hm₄ hm₃ hm₂' hld hln hly hr
  exact ⟨m₁, m₂, tc, ty, tn, bc, yb, nb, hC, hY, hN, rfl, rfl⟩

/-- A loop, given its parts. -/
lemma drafts_loop (name : Symbol) {sequence body : Drafting Term} {Q E : Spec Term}
    (hq : Drafts sequence Q) (he : Drafts body E) :
    Drafts (loop .counting name sequence body) fun lo t b hi =>
      ∃ m₁ tq te bq be, Q (lo.take 1 0) tq bq m₁ ∧ E (m₁.take 2 3) te be hi ∧ t = .null ∧
        b = bq ++ (loopHead name tq lo.slots m₁.slots m₁.labels ++
          (be ++ (effectOf te ++ loopTail m₁.slots m₁.labels))) := by
  refine drafts_slot fun q => drafts_then hq fun tq => drafts_line <| drafts_slot fun n =>
    drafts_slot fun i => drafts_line <| drafts_line <| drafts_label fun lh => drafts_label fun li =>
      drafts_label fun le => drafts_line <| drafts_line <| drafts_line <| drafts_line <|
        drafts_then he fun te => drafts_then (drafts_evalUnlessTrivial te) fun _ => drafts_line <|
          drafts_line <| drafts_line <| drafts_done ?_
  intro hi _ _ ⟨hb, hm⟩ m₆ be hE m₅ hle hm₆ m₄ hli hm₅ m₃ hlh hm₄ m₂ hi' hm₃ m₁ hn hm₂ m₀ bq hQ lo
    hq' hm₀
  subst hb hm hm₆ hm₅ hm₄ hm₃ hm₂ hm₀ hle hli hlh hi' hn hq'
  exact ⟨m₁, tq, te, bq, be, hQ, hE, rfl, rfl⟩

/-- An assignment, given the value. -/
lemma drafts_assignment (name : Symbol) {value : Drafting Term} {V : Spec Term}
    (hv : Drafts value V) :
    Drafts (assignment .counting name value) fun lo t b hi => ∃ mid tv bv, V lo tv bv mid ∧
      hi = mid.take 1 0 ∧ t = .temp mid.slots ∧
        b = bv ++ [.statement (.assign (.temp mid.slots) tv),
          .statement (.assign (.env name) (.temp mid.slots))] := by
  refine drafts_then hv fun tv => drafts_slot fun r => drafts_line <| drafts_line <|
    drafts_done ?_
  intro hi mid hr hhi lo bv hV
  subst hr
  exact ⟨mid, tv, bv, hV, hhi, rfl, rfl⟩

/-- A call, given its callee and its arguments. -/
lemma drafts_dynamicCall (call : Call) {callee : Drafting (Callee Term)}
    {args : Drafting (List Term)} {C : Spec (Callee Term)} {A : Spec (List Term)}
    (hc : Drafts callee C) (ha : Drafts args A) :
    Drafts (dynamicCall .counting call callee args) fun lo t b hi =>
      ∃ m₁ m₂ g ts b₁ b₂, C lo g b₁ m₁ ∧ A m₁ ts b₂ m₂ ∧ hi = m₂.takeSite ∧
        t = .call g (operandsOf m₂ call ts) ∧ b = b₁ ++ b₂ := by
  refine drafts_then hc fun g => drafts_then ha fun ts => drafts_then (Drafts.site call) fun c =>
    drafts_done ?_
  intro hi m₂ b₃ ⟨hsite, hb₃, hhi⟩ m₁ b₂ hA lo b₁ hC
  subst hsite hb₃
  exact ⟨m₁, m₂, g, ts, b₁, b₂, hC, hA, hhi, rfl, by simp⟩

/-- A call of a builtin known by name, given its arguments. -/
lemma drafts_primitiveCall (name : Symbol) (call : Call) {args : Drafting (List Term)}
    {A : Spec (List Term)} (ha : Drafts args A) :
    Drafts (primitiveCall .counting name call args) fun lo t b hi =>
      ∃ mid ts, A lo ts b mid ∧ hi = mid.takeSite ∧
        t = .primitive name (operandsOf mid call ts) := by
  refine drafts_then ha fun ts => drafts_then (Drafts.site call) fun c => drafts_done ?_
  intro hi mid b' ⟨hsite, hb', hhi⟩ lo b hA
  subst hsite hb'
  exact ⟨mid, ts, by simpa using hA, hhi, rfl⟩

/-- A nested body, with the identity that is taken behind it. -/
lemma drafts_body {value : Drafting Term} {V : Spec Term} (hv : Drafts value V) {β : Type}
    {f : Body → NodeId → Drafting β} {S : Spec β}
    (h : ∀ b n, Drafts (f b n) fun mid y b' hi => ∀ lo m t lines, V lo t lines m →
      b = returning lines t → n = ⟨m.nodes⟩ → mid = m.takeNode → S lo y b' hi) :
    Drafts (do let b ← nested value; let n ← node .counting; f b n) S := by
  refine drafts_then (Drafts.nested hv) fun b => drafts_then Drafts.node fun n => (h b n).mono ?_
  intro mid y b' hi hS m b₁ ⟨hn, hb₁, hmid⟩ lo b₀ ⟨hb₀, t, lines, hb, hV⟩
  subst hb₁ hb₀
  exact hS lo m t lines hV hb hn hmid

/-- A settled operand stays where it is, or it is put into a temporary. -/
lemma drafts_settle (t : Term) :
    Drafts (settle .counting t) fun lo t' b hi =>
      (t.isTrivial = true ∧ t' = t ∧ b = [] ∧ hi = lo) ∨
      (t.isTrivial = false ∧ t' = .temp lo.slots ∧ hi = lo.take 1 0 ∧
        b = [.statement (.assign (.temp lo.slots) t)]) := by
  unfold settle
  cases ht : t.isTrivial with
  | true => exact drafts_done fun _ => .inl ⟨rfl, rfl, rfl, rfl⟩
  | false =>
    refine drafts_slot fun r => drafts_line <| drafts_done ?_
    intro hi lo hr hhi
    subst hr
    exact .inr ⟨rfl, rfl, hhi, rfl⟩

/-! ### Arguments and steps -/

section

variable {args : List (Arg Expr)}

lemma drafts_steps (h : ∀ a ∈ args, Drafts (term o .counting a.value) (Drafted o a.value)) :
    Drafts (steps o .counting args) (DraftedSteps o args) := by
  induction args with
  | nil => exact drafts_done fun _ => .nil
  | cons a rest ih =>
    have ha := h a List.mem_cons_self
    have hrest := ih fun x hx => h x (List.mem_cons_of_mem a hx)
    cases rest with
    | nil => exact ha.mono fun _ _ _ _ => .last
    | cons a' rest =>
      refine drafts_then ha fun t => drafts_then (drafts_evalUnlessTrivial t) fun _ =>
        hrest.mono ?_
      intro mid t' b' hi hrest m b₁ ⟨hb₁, hm⟩ lo b₀ ha
      subst hb₁ hm
      exact .step ha hrest

lemma drafts_eagerArgs (h : ∀ a ∈ args, Drafts (term o .counting a.value) (Drafted o a.value)) :
    Drafts (eagerArgs o .counting args) (DraftedNow o args) := by
  induction args with
  | nil => exact drafts_done fun _ => .nil
  | cons a rest ih =>
    have hrest := ih fun x hx => h x (List.mem_cons_of_mem a hx)
    unfold eagerArgs
    cases ha : a.value.isEllipsis with
    | true =>
      refine drafts_then (Drafts.pure _) fun t => drafts_then hrest fun ts => drafts_done ?_
      intro hi m b hrest lo b₀ ⟨ht, hb₀, hm⟩
      subst ht hb₀ hm
      rw [List.append_nil]
      exact .ellipsis ha hrest
    | false =>
      refine drafts_then (h a List.mem_cons_self) fun t => drafts_then (drafts_settle t) fun t' =>
        drafts_then hrest fun ts => drafts_done ?_
      intro hi m₂ b₂ hrest m₁ b₁ hsettle lo b₀ hterm
      rw [List.append_nil]
      rcases hsettle with ⟨ht, ht', hb₁, hm₂⟩ | ⟨ht, ht', hm₂, hb₁⟩
      · subst ht' hb₁ hm₂
        exact .trivial ha hterm ht hrest
      · subst ht' hb₁ hm₂
        exact .settled ha hterm ht hrest

lemma drafts_lateArgs (h : ∀ a ∈ args, Drafts (term o .counting a.value) (Drafted o a.value)) :
    Drafts (lateArgs o .counting args)
      fun lo ts b hi => b = [] ∧ DraftedLate o args lo ts hi := by
  induction args with
  | nil => exact drafts_done fun _ => ⟨rfl, .nil⟩
  | cons a rest ih =>
    have hrest := ih fun x hx => h x (List.mem_cons_of_mem a hx)
    unfold lateArgs
    cases ha : a.value.isEllipsis with
    | true =>
      refine drafts_then (Drafts.pure _) fun t => drafts_then hrest fun ts => drafts_done ?_
      intro hi m b ⟨hb, hrest⟩ lo b₀ ⟨ht, hb₀, hm⟩
      subst ht hb₀ hm hb
      exact ⟨rfl, .ellipsis ha hrest⟩
    | false =>
      cases hconstant : a.value.isConstant with
      | true =>
        refine drafts_then (Drafts.pure _) fun t => drafts_then hrest fun ts => drafts_done ?_
        intro hi m b ⟨hb, hrest⟩ lo b₀ ⟨ht, hb₀, hm⟩
        subst ht hb₀ hm hb
        exact ⟨rfl, .literal hconstant hrest⟩
      | false =>
        refine drafts_body (h a List.mem_cons_self) fun body n => ?_
        refine drafts_then (Drafts.pure _) fun t => drafts_then hrest fun ts => drafts_done ?_
        intro hi m₂ b₂ ⟨hb₂, hrest⟩ m₁ b₁ ⟨ht, hb₁, hm₂⟩ lo m t' lines hterm hbody hn hm₁
        subst ht hb₁ hm₂ hb₂ hbody hn hm₁
        exact ⟨rfl, .thunk ha hconstant hterm hrest⟩

end

lemma drafts_defaults {formals : List (Formal Expr)}
    (h : ∀ f ∈ formals, ∀ e, f.default = some e → Drafts (term o .counting e) (Drafted o e)) :
    Drafts (defaults o .counting formals)
      fun lo fs b hi => b = [] ∧ DraftedFormals o formals lo fs hi := by
  induction formals with
  | nil => exact drafts_done fun _ => ⟨rfl, .nil⟩
  | cons f rest ih =>
    have hrest := ih fun x hx => h x (List.mem_cons_of_mem f hx)
    obtain ⟨name, default⟩ := f
    cases default with
    | none =>
      refine drafts_then hrest fun fs => drafts_done ?_
      intro hi lo b ⟨hb, hrest⟩
      subst hb
      exact ⟨rfl, .plain hrest⟩
    | some e =>
      refine drafts_body (h _ List.mem_cons_self e rfl) fun body n => ?_
      refine drafts_then hrest fun fs => drafts_done ?_
      intro hi m₁ b ⟨hb, hrest⟩ lo m t lines hterm hbody hn hm₁
      subst hb hbody hn hm₁
      exact ⟨rfl, .default hterm hrest⟩

/-! ### Expressions -/

/-- A function literal, given its defaults and its body. -/
lemma drafts_function {formals : List (Formal Expr)} {body : Expr}
    (hformals : ∀ f ∈ formals, ∀ e, f.default = some e →
      Drafts (term o .counting e) (Drafted o e))
    (hbody : Drafts (term o .counting body) (Drafted o body)) :
    Drafts (term o .counting (.function formals body)) (Drafted o (.function formals body)) := by
  unfold term
  refine drafts_then (drafts_defaults hformals) fun fs => drafts_body hbody fun b n =>
    drafts_done ?_
  intro hi mid m t lines hterm hb hn hhi lo b₀ ⟨hb₀, hfs⟩
  subst hb hn hhi hb₀
  exact .closure (f := ⟨formals, body⟩) hfs hterm

/-- A call that is not one of the inlined shapes. -/
def plainCall (o : CompilerOptions) (ids : IdSource) (callee : Expr) (args : List (Arg Expr)) :
    Drafting Term :=
  match callee with
  | .symbol s =>
    if o.isStaticPrimitive s.name then
      primitiveCall ids s ⟨callee, args⟩ (eagerArgs o ids args)
    else if s.isEllipsis then throw .misplacedEllipsis
    else dynamicCall ids ⟨callee, args⟩ (return .name s) (lateArgs o ids args)
  | callee =>
    dynamicCall ids ⟨callee, args⟩ (return .computed (← term o ids callee)) (lateArgs o ids args)

lemma drafts_plainCall {callee : Expr} {args : List (Arg Expr)}
    (hplain : ¬ o.Inlines callee args)
    (hcallee : Drafts (term o .counting callee) (Drafted o callee))
    (hargs : ∀ a ∈ args, Drafts (term o .counting a.value) (Drafted o a.value)) :
    Drafts (plainCall o .counting callee args) (Drafted o (.call callee args)) := by
  have hcomputed : callee.symbol? = none →
      Drafts (dynamicCall .counting ⟨callee, args⟩
        (do let t ← term o .counting callee; return Callee.computed t) (lateArgs o .counting args))
        (Drafted o (.call callee args)) := by
    intro hsymbol
    have hc : Drafts (do let t ← term o .counting callee; return Callee.computed t : Drafting _)
        fun lo f b hi => ∃ t, f = .computed t ∧ Drafted o callee lo t b hi := by
      refine drafts_then hcallee fun t => drafts_done ?_
      intro mid lo b ht
      exact ⟨t, rfl, by rwa [List.append_nil]⟩
    refine (drafts_dynamicCall _ hc (drafts_lateArgs hargs)).mono ?_
    rintro lo t b hi ⟨m₁, m₂, _, ts, b₁, _, ⟨tc, rfl, hterm⟩, ⟨rfl, hlate⟩, rfl, rfl, rfl⟩
    rw [List.append_nil]
    exact .computed hsymbol hterm hlate
  unfold plainCall
  split
  · rename_i s
    split
    · rename_i hs
      refine (drafts_primitiveCall s _ (drafts_eagerArgs hargs)).mono ?_
      rintro lo t b hi ⟨mid, ts, hnow, rfl, rfl⟩
      exact .primitive hplain hs hnow
    · rename_i hdynamic
      split
      · exact Drafts.throw _
      · rename_i hs
        refine (drafts_dynamicCall _ (Drafts.pure _) (drafts_lateArgs hargs)).mono ?_
        rintro lo t b hi ⟨m₁, m₂, _, ts, b₁, _, ⟨rfl, rfl, rfl⟩, ⟨rfl, hlate⟩, rfl, rfl, rfl⟩
        exact .named hplain (by simpa using hs) (by simpa using hdynamic) hlate
  · rename_i hsymbol
    apply hcomputed
    cases callee with
    | symbol s => exact absurd rfl (hsymbol s)
    | _ => rfl

/-- A call is one of the inlined shapes or a plain one. -/
lemma term_call (ids : IdSource) (callee : Expr) (args : List (Arg Expr)) :
    term o ids (.call callee args) =
      if o.inlineControlFlow && args.all fun a => a.name.isNone then
        match callee, args with
        | .symbol ⟨"if"⟩, [⟨_, condition⟩, ⟨_, yes⟩] =>
          conditional ids (term o ids condition) (term o ids yes) (return .null)
        | .symbol ⟨"if"⟩, [⟨_, condition⟩, ⟨_, yes⟩, ⟨_, no⟩] =>
          conditional ids (term o ids condition) (term o ids yes) (term o ids no)
        | .symbol ⟨"for"⟩, [⟨_, .symbol name⟩, ⟨_, sequence⟩, ⟨_, body⟩] =>
          if name.isEllipsis then plainCall o ids callee args
          else loop ids name (term o ids sequence) (term o ids body)
        | .symbol ⟨"\x7b"⟩, args => steps o ids args
        | .symbol ⟨"<-"⟩, [⟨_, .symbol name⟩, ⟨_, value⟩] =>
          if name.isEllipsis then plainCall o ids callee args
          else assignment ids name (term o ids value)
        | _, _ => plainCall o ids callee args
      else plainCall o ids callee args := by
  conv_lhs => unfold term
  unfold plainCall
  cases callee <;> rfl

/-- A call, inlined or not, is drafted as `Drafted` says. -/
lemma drafts_call {callee : Expr} {args : List (Arg Expr)}
    (hcallee : Drafts (term o .counting callee) (Drafted o callee))
    (hargs : ∀ a ∈ args, Drafts (term o .counting a.value) (Drafted o a.value)) :
    Drafts (term o .counting (.call callee args)) (Drafted o (.call callee args)) := by
  have hplain (h : ¬ o.Inlines callee args) := drafts_plainCall h hcallee hargs
  have hname : args.all (fun a => a.name.isNone) = true → ∀ a ∈ args, a = ⟨none, a.value⟩ := by
    intro hall a ha
    obtain ⟨name, value⟩ := a
    have hnone := List.all_eq_true.1 hall _ ha
    cases name with
    | none => rfl
    | some name => cases hnone
  rw [term_call]
  by_cases hinline : (o.inlineControlFlow && args.all fun a => a.name.isNone) = true
  · obtain ⟨ho, hall⟩ := Bool.and_eq_true_iff.1 hinline
    have hnone := hname hall
    rw [if_pos hinline]
    split
    · rename_i n c n' y
      obtain rfl : n = none := congrArg Arg.name (hnone ⟨n, c⟩ (by simp))
      obtain rfl : n' = none := congrArg Arg.name (hnone ⟨n', y⟩ (by simp))
      refine (drafts_conditional (hargs ⟨none, c⟩ (by simp)) (hargs ⟨none, y⟩ (by simp))
        (Drafts.pure _)).mono ?_
      rintro lo t b hi ⟨m₁, m₂, tc, ty, _, bc, yb, _, hc, hy, ⟨rfl, rfl, rfl⟩, rfl, rfl⟩
      exact .whether ho hc hy
    · rename_i n c n' y n'' e
      obtain rfl : n = none := congrArg Arg.name (hnone ⟨n, c⟩ (by simp))
      obtain rfl : n' = none := congrArg Arg.name (hnone ⟨n', y⟩ (by simp))
      obtain rfl : n'' = none := congrArg Arg.name (hnone ⟨n'', e⟩ (by simp))
      refine (drafts_conditional (hargs ⟨none, c⟩ (by simp)) (hargs ⟨none, y⟩ (by simp))
        (hargs ⟨none, e⟩ (by simp))).mono ?_
      rintro lo t b hi ⟨m₁, m₂, tc, ty, te, bc, yb, eb, hc, hy, he, rfl, rfl⟩
      exact .choice ho hc hy he
    · rename_i n name n' q n'' e
      obtain rfl : n = none := congrArg Arg.name (hnone ⟨n, .symbol name⟩ (by simp))
      obtain rfl : n' = none := congrArg Arg.name (hnone ⟨n', q⟩ (by simp))
      obtain rfl : n'' = none := congrArg Arg.name (hnone ⟨n'', e⟩ (by simp))
      split
      · rename_i hname
        exact hplain fun h => absurd (h.2.loop_name rfl) (by simp [hname])
      · rename_i hname
        refine (drafts_loop name (hargs ⟨none, q⟩ (by simp)) (hargs ⟨none, e⟩ (by simp))).mono ?_
        rintro lo t b hi ⟨m₁, tq, te, bq, be, hq, he, rfl, rfl⟩
        exact .loop ho (by simpa using hname) hq he
    · exact (drafts_steps hargs).mono fun _ _ _ _ h =>
        .block ho (fun a ha => congrArg Arg.name (hnone a ha)) h
    · rename_i n name n' e
      obtain rfl : n = none := congrArg Arg.name (hnone ⟨n, .symbol name⟩ (by simp))
      obtain rfl : n' = none := congrArg Arg.name (hnone ⟨n', e⟩ (by simp))
      split
      · rename_i hname
        exact hplain fun h => absurd (h.2.assignment_name rfl) (by simp [hname])
      · rename_i hname
        refine (drafts_assignment name (hargs ⟨none, e⟩ (by simp))).mono ?_
        rintro lo t b hi ⟨mid, tv, bv, he, rfl, rfl, rfl⟩
        exact .assignment ho (by simpa using hname) he
    · rename_i hblock hwhether hchoice hloop hassignment
      refine hplain fun ⟨_, h⟩ => ?_
      cases h with
      | whether hs c y => exact hwhether _ _ _ _ (congrArg Expr.symbol hs) rfl
      | choice hs c y n => exact hchoice _ _ _ _ _ _ (congrArg Expr.symbol hs) rfl
      | loop hs _ q b => exact hloop _ _ _ _ _ _ (congrArg Expr.symbol hs) rfl
      | block hs _ => exact hblock (congrArg Expr.symbol hs)
      | assignment hs _ e => exact hassignment _ _ _ _ (congrArg Expr.symbol hs) rfl
  · rw [if_neg hinline]
    refine hplain fun ⟨ho, h⟩ => hinline ?_
    rw [ho, Bool.true_and, List.all_eq_true]
    intro a ha
    rw [h.positional a ha]
    rfl

mutual

/-- Every expression is drafted as `Drafted` says. -/
theorem drafts_term (o : CompilerOptions) : ∀ e : Expr,
    Drafts (term o .counting e) (Drafted o e)
  | .null | .logical _ | .int _ | .double _ | .str _ => drafts_done fun _ => .literal rfl
  | .symbol s => by
    unfold term
    split
    · exact Drafts.throw _
    · rename_i hs
      exact drafts_done fun _ => .reading (by simpa using hs)
  | .function formals body => drafts_function (drafts_formals o formals) (drafts_term o body)
  | .call callee args => drafts_call (drafts_term o callee) (drafts_args o args)

theorem drafts_args (o : CompilerOptions) : ∀ args : List (Arg Expr), ∀ a ∈ args,
    Drafts (term o .counting a.value) (Drafted o a.value)
  | [], _, ha => absurd ha List.not_mem_nil
  | ⟨_, e⟩ :: rest, a, ha => by
    rcases List.mem_cons.1 ha with rfl | ha
    · exact drafts_term o e
    · exact drafts_args o rest a ha

theorem drafts_formals (o : CompilerOptions) : ∀ formals : List (Formal Expr), ∀ f ∈ formals,
    ∀ e, f.default = some e → Drafts (term o .counting e) (Drafted o e)
  | [], _, hf => absurd hf List.not_mem_nil
  | ⟨_, none⟩ :: rest, f, hf => by
    rcases List.mem_cons.1 hf with rfl | hf
    · exact fun _ he => nomatch he
    · exact drafts_formals o rest f hf
  | ⟨_, some e⟩ :: rest, f, hf => by
    rcases List.mem_cons.1 hf with rfl | hf
    · intro e' he
      cases he
      exact drafts_term o e
    · exact drafts_formals o rest f hf

end

/-- A body that is drafted returns the operand of its expression. -/
theorem drafted_of_bodyOf {e : Expr} {d d' : Draft} {b : Body}
    (h : bodyOf o .counting e d = .ok (b, d')) :
    ∃ t lines, b = returning lines t ∧ Drafted o e d.taken t lines d'.taken := by
  obtain ⟨_, -, -, t, lines, hb, hdrafted⟩ := Drafts.nested (drafts_term o e) d b d' h
  exact ⟨t, lines, hb, hdrafted⟩

/-- The formals and the body of a function literal that is drafted. -/
theorem drafted_of_procedureOf {f : Function} {name : Option Symbol} {d d' : Draft}
    {p : Procedure Term} (h : procedureOf o .counting name f d = .ok (p, d')) :
    ∃ mid t lines, DraftedFormals o f.formals d.taken p.formals mid ∧
      p.body = returning lines t ∧ Drafted o f.body mid t lines d'.taken := by
  have hp : Drafts (procedureOf o .counting name f) fun lo p _ hi => ∃ mid t lines,
      DraftedFormals o f.formals lo p.formals mid ∧ p.body = returning lines t ∧
        Drafted o f.body mid t lines hi := by
    refine drafts_then (drafts_defaults (drafts_formals o f.formals)) fun fs =>
      drafts_then (Drafts.nested (drafts_term o f.body)) fun b => drafts_done ?_
    intro hi mid b₁ ⟨_, t, lines, hb, hdrafted⟩ lo b₀ ⟨_, hfs⟩
    exact ⟨mid, t, lines, hfs, hb, hdrafted⟩
  obtain ⟨_, -, hdrafted⟩ := hp d p d' h
  exact hdrafted

end Drafting

end CallByNeed.Flow
