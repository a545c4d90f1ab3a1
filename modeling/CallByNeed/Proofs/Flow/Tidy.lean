import CallByNeed.Proofs.Flow.Depth
import CallByNeed.Proofs.Flow.Drafted

/-!
# Drafted bodies are tidy

What the compiler relies on in a body without being able to see it at one place: labels are placed
once and in the body that refers to them, slots are assigned before they are read, in the order of
the lines, and the arguments of a call run beside those of the call as written (`Lines`). A body is
tidy if this holds of it and of all bodies nested in it (`Body.Tidy`). Every body that is drafted is
tidy (`tidy_of_drafted`).
-/

namespace CallByNeed

namespace Flow

/-! ## Slots -/

namespace Term

mutual

/-- The slots that an operand reads in the frame of its own body. -/
def reads : Term → List SlotKey
  | .temp id => [.temp id]
  | .local id _ => [.local id]
  | .element vector index => vector.reads ++ index.reads
  | .length t | .increment t => t.reads
  | .atLeast left right => left.reads ++ right.reads
  | .primitive _ ⟨_, args, _⟩ | .call (.name _) ⟨_, args, _⟩ => readsOf args
  | .call (.computed t) ⟨_, args, _⟩ => t.reads ++ readsOf args
  | .int _ | .literal _ | .env _ | .closure .. | .thunk _ | .ellipsis => []

/-- The slots that several operands read. -/
def readsOf : List Term → List SlotKey
  | [] => []
  | t :: ts => t.reads ++ readsOf ts

end

end Term

/-- The operands run beside the arguments of the call that they come from. -/
structure Operands.Paired (o : Operands Term) : Prop where
  names : o.names = o.site.call.args.map Arg.name
  length : o.args.length = o.site.call.args.length

namespace Term

mutual

/-- The arguments of all calls in an operand run beside those of the calls as written. -/
def Paired : Term → Prop
  | .element vector index => vector.Paired ∧ index.Paired
  | .length t | .increment t => t.Paired
  | .atLeast left right => left.Paired ∧ right.Paired
  | .primitive _ ⟨site, args, names⟩ | .call (.name _) ⟨site, args, names⟩ =>
    Operands.Paired ⟨site, args, names⟩ ∧ PairedAll args
  | .call (.computed t) ⟨site, args, names⟩ =>
    t.Paired ∧ Operands.Paired ⟨site, args, names⟩ ∧ PairedAll args
  | .int _ | .literal _ | .temp _ | .local .. | .env _ | .closure .. | .thunk _ | .ellipsis => True

/-- The arguments of all calls in several operands run beside those of the calls as written. -/
def PairedAll : List Term → Prop
  | [] => True
  | t :: ts => t.Paired ∧ PairedAll ts

end

lemma pairedAll_iff {ts : List Term} : PairedAll ts ↔ ∀ t ∈ ts, t.Paired := by
  induction ts with
  | nil => simp [PairedAll]
  | cons t ts ih => simp [PairedAll, ih]

@[simp] lemma visitsOf_nil : visitsOf [] = [] := rfl

@[simp] lemma visitsOf_singleton (t : Term) : visitsOf [t] = t.visits := List.append_nil _

@[simp] lemma readsOf_singleton (t : Term) : readsOf [t] = t.reads := List.append_nil _

@[simp] lemma readsOf_append (ts us : List Term) :
    readsOf (ts ++ us) = readsOf ts ++ readsOf us := by
  induction ts with
  | nil => rfl
  | cons t ts ih => simp [readsOf, ih]

@[simp] lemma visitsOf_append (ts us : List Term) :
    visitsOf (ts ++ us) = visitsOf ts ++ visitsOf us := by
  induction ts with
  | nil => rfl
  | cons t ts ih => simp [visitsOf, ih]

end Term

/-- The slots that a statement reads. -/
def Statement.reads (s : Statement Term) : List SlotKey :=
  match s.operand? with
  | some t => t.reads
  | none => []

/-- The slot that a statement assigns. -/
def Statement.slot? : Statement Term → Option SlotKey
  | .assign target _ => target.slotKey?
  | _ => none

namespace Body

/-- The operands of lines, in order. -/
def operands (b : Body) : List Term := b.statements.filterMap Statement.operand?

@[simp] lemma operands_nil : operands [] = [] := rfl

@[simp] lemma operands_label (l : Label) (b : Body) :
    operands (.label l :: b) = operands b := rfl

@[simp] lemma operands_append (b c : Body) : operands (b ++ c) = operands b ++ operands c := by
  unfold operands
  rw [statements_append, List.filterMap_append]

@[simp] lemma operands_statement (s : Statement Term) (b : Body) :
    operands (.statement s :: b) = s.operand?.toList ++ operands b := by
  unfold operands
  rw [statements_statement, List.filterMap_cons]
  cases s.operand? <;> rfl

/-- The slots that lines assign. -/
def assigned (b : Body) : List SlotKey := b.statements.filterMap Statement.slot?

/-- The labels that lines transfer control to. -/
def targets (b : Body) : List Label := b.statements.flatMap Statement.successors

/-- Lines read no slots but those given and those that were assigned in an earlier line. -/
def Defined (K : List SlotKey) : Body → Prop
  | [] => True
  | .label _ :: rest => Defined K rest
  | .statement s :: rest => (∀ k ∈ s.reads, k ∈ K) ∧ Defined (s.slot?.toList ++ K) rest

section

variable {b c : Body} {K K' : List SlotKey} {s : Statement Term} {l : Label}

@[simp] lemma assigned_nil : assigned [] = [] := rfl

@[simp] lemma assigned_label : assigned (.label l :: b) = assigned b := rfl

@[simp] lemma assigned_statement :
    assigned (.statement s :: b) = s.slot?.toList ++ assigned b := by
  unfold assigned
  rw [statements_statement, List.filterMap_cons]
  cases s.slot? <;> rfl

@[simp] lemma assigned_append : assigned (b ++ c) = assigned b ++ assigned c := by
  unfold assigned
  rw [statements_append, List.filterMap_append]

@[simp] lemma targets_nil : targets [] = [] := rfl

@[simp] lemma targets_label : targets (.label l :: b) = targets b := rfl

@[simp] lemma targets_statement : targets (.statement s :: b) = s.successors ++ targets b := rfl

@[simp] lemma targets_append : targets (b ++ c) = targets b ++ targets c := by
  unfold targets
  rw [statements_append, List.flatMap_append]

lemma Defined.mono (h : b.Defined K) (hK : ∀ k ∈ K, k ∈ K') : b.Defined K' := by
  induction b generalizing K K' with
  | nil => trivial
  | cons line b ih =>
    cases line with
    | label l => exact ih h hK
    | statement s =>
      refine ⟨fun k hk => hK k (h.1 k hk), ih h.2 ?_⟩
      intro k hk
      rw [List.mem_append] at hk ⊢
      exact hk.imp id (hK k)

lemma Defined.append (h : b.Defined K) (h' : c.Defined (b.assigned ++ K)) :
    Defined K (b ++ c) := by
  induction b generalizing K with
  | nil => exact h'
  | cons line b ih =>
    cases line with
    | label l => exact ih h h'
    | statement s =>
      refine ⟨h.1, ih h.2 (h'.mono ?_)⟩
      intro k hk
      simp only [assigned_statement, List.mem_append] at hk ⊢
      tauto

end

end Body

/-! ## Identities -/

namespace Taken

lemma le_take (lo : Taken) (slots labels : Nat) : lo.Le (lo.take slots labels) :=
  ⟨Nat.le_add_right .., Nat.le_add_right .., Nat.le_refl _, Nat.le_refl _⟩

lemma le_takeNode (lo : Taken) : lo.Le lo.takeNode :=
  ⟨Nat.le_refl _, Nat.le_refl _, Nat.le_succ _, Nat.le_refl _⟩

lemma le_takeSite (lo : Taken) : lo.Le lo.takeSite :=
  ⟨Nat.le_refl _, Nat.le_refl _, Nat.le_refl _, Nat.le_succ _⟩

end Taken

/-! ## Lines -/

/-- Pieces of lines that were drafted between two points, for some operands. -/
structure Lines (lo hi : Taken) (ts : List Term) (b : Body) : Prop where
  le : lo.Le hi
  live : b.Live
  numbered : Visit.Numbered lo hi (b.meets ++ Term.visitsOf ts)
  defined : b.Defined []
  reads : ∀ k ∈ Term.readsOf ts, k ∈ b.assigned
  paired : ∀ t ∈ b.operands ++ ts, t.Paired

/-- Lines place each of their labels once, and transfer control to those only. -/
structure Aimed (lo hi : Taken) (b : Body) : Prop where
  labels : ∀ l, b.labels.count l ≤ if lo.labels ≤ l.id ∧ l.id < hi.labels then 1 else 0
  targets : ∀ l ∈ b.targets, l ∈ b.labels

namespace Lines

variable {lo mid hi : Taken} {ts us : List Term} {t u : Term} {b c : Body} {s : Statement Term}

/-- Lines drafted one after the other. -/
lemma append (h : Lines lo mid ts b) (h' : Lines mid hi us c) : Lines lo hi (ts ++ us) (b ++ c) where
  le := h.le.trans h'.le
  live := h.live.append h'.live
  numbered := (h.numbered.append h.le h'.le h'.numbered).of_subset fun v hv => by
    simp only [Body.meets_append, Term.visitsOf_append, List.mem_append] at hv ⊢
    tauto
  defined := h.defined.append (h'.defined.mono nofun)
  reads k hk := by
    rw [Term.readsOf_append, List.mem_append] at hk
    rw [Body.assigned_append, List.mem_append]
    exact hk.imp (h.reads k) (h'.reads k)
  paired v hv := by
    have hb := h.paired v
    have hc := h'.paired v
    simp only [Body.operands_append, List.mem_append] at hv hb hc
    tauto

/-- Operands that need no lines and read no slots. -/
lemma of_nil (hle : lo.Le hi) (hnumbered : Visit.Numbered lo hi (Term.visitsOf ts))
    (hreads : Term.readsOf ts = []) (hpaired : ∀ t ∈ ts, t.Paired) : Lines lo hi ts [] where
  le := hle
  live := .nil
  numbered := hnumbered
  defined := trivial
  reads k hk := by
    rw [hreads] at hk
    cases hk
  paired := hpaired

/-- Identities may be taken before and behind. -/
lemma mono {lo' hi' : Taken} (hlo : lo'.Le lo) (hhi : hi.Le hi') (h : Lines lo hi ts b) :
    Lines lo' hi' ts b where
  le := (hlo.trans h.le).trans hhi
  live := h.live
  numbered := h.numbered.mono hlo hhi
  defined := h.defined
  reads := h.reads
  paired := h.paired

/-- A statement that uses up the operand. -/
lemma statement (h : Lines lo hi [t] b) (hs : s.operand? = some t) (htransfer : s.isTransfer = false) :
    Lines lo hi [] (b ++ [.statement s]) where
  le := h.le
  live := h.live.append (.statement htransfer)
  numbered := h.numbered.of_subset fun v hv => by
    simpa [Statement.visits_eq, hs, Term.visitsOf] using hv
  defined := h.defined.append ⟨fun k hk => by
    have hreads : s.reads = t.reads := by
      unfold Statement.reads
      rw [hs]
    rw [hreads] at hk
    exact List.mem_append_left _ (h.reads k (by simpa [Term.readsOf] using hk)), trivial⟩
  reads := nofun
  paired v hv := h.paired v (by simpa [hs, List.mem_append] using hv)

/-- An operand that reads slots that were assigned. -/
lemma operands {u : List Term} (h : Lines lo hi [] b) (hvisits : Term.visitsOf u = [])
    (hreads : ∀ k ∈ Term.readsOf u, k ∈ b.assigned) (hpaired : ∀ t ∈ u, t.Paired) :
    Lines lo hi u b where
  le := h.le
  live := h.live
  numbered := by
    rw [hvisits]
    exact h.numbered
  defined := h.defined
  reads := hreads
  paired v hv := by
    rw [List.mem_append] at hv
    exact hv.elim (fun hv => h.paired v (List.mem_append_left _ hv)) (hpaired v)

/-- Evaluating the operand for its effect. -/
lemma effect (h : Lines lo hi [t] b) : Lines lo hi [] (b ++ effectOf t) := by
  unfold effectOf
  split
  · rw [List.append_nil]
    exact ⟨h.le, h.live, h.numbered.of_subset (by simp +contextual), h.defined, nofun, fun v hv =>
      h.paired v (List.mem_append_left _ (by simpa using hv))⟩
  · exact h.statement rfl rfl

/-- A transfer of control behind lines, and a label that makes the next line reachable again. -/
lemma transfer {s : Statement Term} (h : Lines lo hi s.operand?.toList b) (l : Label) :
    Lines lo hi [] (b ++ [.statement s, .label l]) := by
  refine ⟨h.le, h.live.append (.transfer s l), h.numbered.of_subset ?_, h.defined.append ⟨?_, trivial⟩,
    nofun, fun v hv => h.paired v (by simpa using hv)⟩
  · intro v hv
    cases ho : s.operand? <;> simpa [Statement.visits_eq, ho] using hv
  · intro k hk
    refine List.mem_append_left _ (h.reads k ?_)
    unfold Statement.reads at hk
    cases ho : s.operand? with
    | none =>
      rw [ho] at hk
      cases hk
    | some t => simpa [ho] using hk

/-- The lines of a conditional. -/
lemma choice {m₁ m₂ : Taken} {tc ty tn : Term} {bc yb nb : Body} {l : Nat}
    (hc : Lines lo m₁ [tc] bc) (hy : Lines (m₁.take 1 3) m₂ [ty] yb) (hn : Lines m₂ hi [tn] nb) :
    Lines lo hi [.temp m₁.slots] (choiceLines bc yb nb tc ty tn m₁.slots l) := by
  have hle := m₁.le_take 1 3
  have hbranch : Lines lo m₁ [] (bc ++ [.statement (.branch tc ⟨l⟩ ⟨l + 1⟩), .label ⟨l⟩]) :=
    transfer (s := .branch tc ⟨l⟩ ⟨l + 1⟩) hc ⟨l⟩
  have hyes : Lines m₁ m₂ [] ((yb ++ [.statement (.assign (.temp m₁.slots) ty)]) ++
      [.statement (.goto ⟨l + 2⟩), .label ⟨l + 1⟩]) :=
    transfer (s := .goto ⟨l + 2⟩) ((hy.mono hle (.refl m₂)).statement rfl rfl) _
  have hno : Lines m₂ hi [] ((nb ++ [.statement (.assign (.temp m₁.slots) tn)]) ++
      [.statement (.goto ⟨l + 2⟩), .label ⟨l + 2⟩]) :=
    transfer (s := .goto ⟨l + 2⟩) (hn.statement rfl rfl) _
  have hall := ((hbranch.append (hyes.append hno)).operands (u := [.temp m₁.slots]) rfl
    (by simp [Term.reads, Statement.slot?, Target.slotKey?]) (by simp [Term.Paired]))
  simpa [choiceLines] using hall

/-- A label behind lines. -/
lemma label (h : Lines lo hi [] b) (l : Label) : Lines lo hi [] (b ++ [.label l]) where
  le := h.le
  live := h.live.append (.label l)
  numbered := h.numbered.of_subset (by simp)
  defined := h.defined.append trivial
  reads := nofun
  paired v hv := h.paired v (by simpa using hv)

/-- The lines of a loop. -/
lemma loop {m₁ : Taken} {name : Symbol} {tq te : Term} {bq be : Body} {l : Nat}
    (hq : Lines (lo.take 1 0) m₁ [tq] bq) (he : Lines (m₁.take 2 3) hi [te] be) :
    Lines lo hi [.null] (bq ++ (loopHead name tq lo.slots m₁.slots l ++
      (be ++ (effectOf te ++ loopTail m₁.slots l)))) := by
  have hlo := lo.le_take 1 0
  have hm := m₁.le_take 2 3
  have hsequence := (hq.mono hlo (.refl m₁)).statement
    (s := .assign (.temp lo.slots) tq) rfl rfl
  have hlength := (hsequence.operands (u := [.length (.temp lo.slots)]) rfl
    (by simp [Term.reads, Statement.slot?, Target.slotKey?]) (by simp [Term.Paired])).statement
    (s := .assign (.local m₁.slots ⟨"length"⟩) (.length (.temp lo.slots))) rfl rfl
  have hcounter := (hlength.operands (u := [.int 0]) rfl (by simp [Term.reads])
    (by simp [Term.Paired])).statement
    (s := .assign (.local (m₁.slots + 1) ⟨"i"⟩) (.int 0)) rfl rfl
  have hbranch := transfer (s := .branch (.atLeast (counterOf m₁.slots)
      (.local m₁.slots ⟨"length"⟩)) ⟨l + 2⟩ ⟨l + 1⟩)
    ((hcounter.label ⟨l⟩).operands rfl
      (by simp [Statement.operand?, counterOf, Term.reads, Statement.slot?, Target.slotKey?])
      (by simp [Statement.operand?, counterOf, Term.Paired])) ⟨l + 1⟩
  have hhead := (hbranch.operands (u := [.element (.temp lo.slots) (counterOf m₁.slots)]) rfl
    (by simp [counterOf, Term.reads, Statement.slot?, Target.slotKey?])
    (by simp [counterOf, Term.Paired])).statement
    (s := .assign (.env name) (.element (.temp lo.slots) (counterOf m₁.slots))) rfl rfl
  have hbody := hhead.append ((he.mono hm (.refl hi)).effect)
  have htail := ((hbody.operands (u := [.increment (counterOf m₁.slots)]) rfl
    (by simp [counterOf, Term.reads, Statement.slot?, Target.slotKey?])
    (by simp [counterOf, Term.Paired])).statement
    (s := .assign (.local (m₁.slots + 1) ⟨"i"⟩) (.increment (counterOf m₁.slots))) rfl rfl)
  have hall := (transfer (s := .goto ⟨l⟩) htail ⟨l + 2⟩).operands (u := [.null]) rfl
    (by simp [Term.null, Term.reads]) (by simp [Term.null, Term.Paired])
  simpa [loopHead, loopTail] using hall

end Lines

namespace Aimed

variable {lo mid hi : Taken} {b c : Body} {t : Term}

/-- A label is placed at most once, and only if it was taken meanwhile. -/
lemma count (h : Aimed lo hi b) (l : Label) : b.labels.count l ≤ 1 ∧
    (b.labels.count l = 1 → lo.labels ≤ l.id ∧ l.id < hi.labels) := by
  have hl := h.labels l
  split at hl <;> constructor <;> omega

lemma nodup (h : Aimed lo hi b) : b.labels.Nodup := by
  rw [List.nodup_iff_count_le_one]
  exact fun l => (h.count l).1

/-- Lines without labels that transfer control nowhere. -/
lemma of_none (hlabels : b.labels = []) (htargets : b.targets = []) : Aimed lo hi b where
  labels l := by simp [hlabels]
  targets l hl := by
    rw [htargets] at hl
    cases hl

/-- Lines drafted one after the other. -/
lemma append (hlo : lo.labels ≤ mid.labels) (hhi : mid.labels ≤ hi.labels) (h : Aimed lo mid b)
    (h' : Aimed mid hi c) : Aimed lo hi (b ++ c) where
  labels l := by
    have hb := h.labels l
    have hc := h'.labels l
    rw [Body.labels_append, List.count_append]
    split_ifs at * <;> omega
  targets l hl := by
    rw [Body.targets_append, List.mem_append] at hl
    rw [Body.labels_append, List.mem_append]
    exact hl.imp (h.targets l) (h'.targets l)

lemma mono {lo' hi' : Taken} (hlo : lo'.labels ≤ lo.labels) (hhi : hi.labels ≤ hi'.labels)
    (h : Aimed lo hi b) : Aimed lo' hi' b where
  labels l := by
    have hl := h.labels l
    split_ifs at * <;> omega
  targets := h.targets

lemma effect (t : Term) : Aimed lo hi (effectOf t) := by
  unfold effectOf
  split
  · exact of_none rfl rfl
  · exact of_none rfl rfl

/-- How often a label stands among one label. -/
private lemma count_label (l : Label) (n : Nat) :
    List.count l [(⟨n⟩ : Label)] = if l.id = n then 1 else 0 := by
  obtain ⟨i⟩ := l
  rw [List.count_singleton]
  by_cases h : i = n
  · simp [h]
  · have hne : ((⟨n⟩ : Label) == ⟨i⟩) = false := by
      simp only [beq_eq_false_iff_ne, ne_eq, Label.mk.injEq]
      exact fun heq => h heq.symm
    simp [h, hne]

/-- The labels of a conditional are taken between those of the condition and those of the
branches. -/
lemma choice {m₁ m₂ : Taken} {tc ty tn : Term} {bc yb nb : Body} {r : Nat}
    (hlo : lo.labels ≤ m₁.labels) (hy : (m₁.take 1 3).labels ≤ m₂.labels)
    (hhi : m₂.labels ≤ hi.labels) (h₁ : Aimed lo m₁ bc) (h₂ : Aimed (m₁.take 1 3) m₂ yb)
    (h₃ : Aimed m₂ hi nb) : Aimed lo hi (choiceLines bc yb nb tc ty tn r m₁.labels) where
  labels l := by
    obtain ⟨hc, hc'⟩ := h₁.count l
    obtain ⟨hy₁, hy₂⟩ := h₂.count l
    obtain ⟨hn, hn'⟩ := h₃.count l
    have hlabels : (choiceLines bc yb nb tc ty tn r m₁.labels).labels
        = bc.labels ++ ([⟨m₁.labels⟩] ++ (yb.labels ++ ([⟨m₁.labels + 1⟩] ++
          (nb.labels ++ [⟨m₁.labels + 2⟩])))) := by
      simp [choiceLines]
    rw [hlabels]
    simp only [List.count_append, count_label]
    simp only [Taken.take] at hy hy₂
    split_ifs <;> omega
  targets l hl := by
    have hc := h₁.targets l
    have hy' := h₂.targets l
    have hn := h₃.targets l
    simp only [choiceLines, Body.targets_append, Body.targets_statement, Body.targets_label,
      Body.targets_nil, Statement.successors, Body.labels_append, Body.labels_statement,
      Body.labels_label, Body.labels_nil, List.mem_append, List.mem_cons, List.not_mem_nil] at hl ⊢
    tauto

/-- The labels of a loop are taken between those of the sequence and those of the body. -/
lemma loop {m₁ : Taken} {name : Symbol} {tq te : Term} {bq be : Body} {r : Nat}
    (hlo : lo.labels ≤ m₁.labels) (hhi : (m₁.take 2 3).labels ≤ hi.labels) (h₁ : Aimed lo m₁ bq)
    (h₂ : Aimed (m₁.take 2 3) hi be) :
    Aimed lo hi (bq ++ (loopHead name tq r m₁.slots m₁.labels ++
      (be ++ (effectOf te ++ loopTail m₁.slots m₁.labels)))) where
  labels l := by
    obtain ⟨hq, hq'⟩ := h₁.count l
    obtain ⟨he, he'⟩ := h₂.count l
    have heffect : (effectOf te).labels = [] := by
      unfold effectOf
      split <;> rfl
    have hlabels : Body.labels (bq ++ (loopHead name tq r m₁.slots m₁.labels ++
        (be ++ (effectOf te ++ loopTail m₁.slots m₁.labels))))
        = bq.labels ++ ([⟨m₁.labels⟩] ++ ([⟨m₁.labels + 1⟩] ++
          (be.labels ++ [⟨m₁.labels + 2⟩]))) := by
      simp [loopHead, loopTail, heffect]
    rw [hlabels]
    simp only [List.count_append, count_label]
    simp only [Taken.take] at hhi he'
    split_ifs <;> omega
  targets l hl := by
    have hq := h₁.targets l
    have he := h₂.targets l
    have heffect : (effectOf te).targets = [] := by
      unfold effectOf
      split <;> rfl
    simp only [loopHead, loopTail, heffect, Body.targets_append, Body.targets_statement,
      Body.targets_label, Body.targets_nil, Statement.successors, Body.labels_append,
      Body.labels_statement, Body.labels_label, Body.labels_nil, List.mem_append, List.mem_cons,
      List.not_mem_nil] at hl ⊢
    tauto

end Aimed

/-! ## Tidy bodies -/

/-- A body whose lines are in order, and the bodies nested in it, to any depth. -/
inductive Body.Tidy : Body → Prop
  | returning {lo hi : Taken} {t : Term} {b : Body} (lines : Lines lo hi [t] b)
    (aimed : Aimed lo hi b) (thunks : ∀ d, .thunk d ∈ b.meets ++ t.visits → Tidy d.body)
    (literals : ∀ node p, .closure node p ∈ b.meets ++ t.visits → Tidy p.body)
    (defaults : ∀ node p, .closure node p ∈ b.meets ++ t.visits → ∀ f ∈ p.formals, ∀ d,
      f.default = some d → Tidy d.body) : Tidy (returning b t)

/-- The bodies of a function literal are tidy. -/
structure Procedure.Tidy (p : Procedure Term) : Prop where
  body : Body.Tidy p.body
  defaults : ∀ f ∈ p.formals, ∀ d, f.default = some d → Body.Tidy d.body

end Flow

open CallByNeed.Flow (Term Body Thunk Procedure Taken Lines Aimed Drafted DraftedSteps DraftedNow
  DraftedLate DraftedFormals)

/-- What is met has tidy bodies. -/
def Visit.Tidy : Visit → Prop
  | .thunk d => Body.Tidy d.body
  | .closure _ p => p.Tidy
  | .site _ => True

namespace Flow

variable {o : CompilerOptions} {lo mid hi : Taken} {t : Term} {ts us : List Term} {b c : Body}

/-- Lines that were drafted for some operands are in order, and so are the bodies nested in them. -/
structure Piece (lo hi : Taken) (ts : List Term) (b : Body) : Prop where
  lines : Lines lo hi ts b
  aimed : Aimed lo hi b
  tidy : ∀ v ∈ b.meets ++ Term.visitsOf ts, v.Tidy

namespace Piece

/-- The body that returns the operand is tidy. -/
lemma returning (h : Piece lo hi [t] b) : Body.Tidy (returning b t) := by
  have hv : ∀ v ∈ b.meets ++ t.visits, v.Tidy := by simpa using h.tidy
  exact .returning h.lines h.aimed (fun d hd => hv _ hd) (fun node p hp => (hv _ hp).body)
    fun node p hp => (hv _ hp).defaults

/-- Lines drafted one after the other. -/
lemma append (h : Piece lo mid ts b) (h' : Piece mid hi us c) : Piece lo hi (ts ++ us) (b ++ c) where
  lines := h.lines.append h'.lines
  aimed := h.aimed.append h.lines.le.labels h'.lines.le.labels h'.aimed
  tidy v hv := by
    have hb := h.tidy v
    have hc := h'.tidy v
    simp only [Body.meets_append, Term.visitsOf_append, List.mem_append] at hv hb hc
    tauto

/-- Operands that need no lines and read no slots. -/
lemma of_nil (hle : lo.Le hi) (hnumbered : Visit.Numbered lo hi (Term.visitsOf ts))
    (hreads : Term.readsOf ts = []) (hpaired : ∀ t ∈ ts, t.Paired)
    (htidy : ∀ v ∈ Term.visitsOf ts, v.Tidy) : Piece lo hi ts [] where
  lines := .of_nil hle hnumbered hreads hpaired
  aimed := .of_none rfl rfl
  tidy := htidy

/-- The operand of an expression that is evaluated in place. -/
lemma operand (hvisits : t.visits = []) (hreads : t.reads = []) (hpaired : t.Paired) :
    Piece lo lo [t] [] :=
  .of_nil (.refl lo) (by rw [Term.visitsOf_singleton, hvisits]; exact .nil)
    (by rw [Term.readsOf_singleton, hreads])
    (by simpa using hpaired) (by rw [Term.visitsOf_singleton, hvisits]; exact nofun)

/-- Evaluating the operand for its effect. -/
lemma effect (h : Piece lo hi [t] b) : Piece lo hi [] (b ++ effectOf t) where
  lines := h.lines.effect
  aimed := h.aimed.append h.lines.le.labels (Nat.le_refl _) (.effect t)
  tidy v hv := by
    refine h.tidy v ?_
    unfold effectOf at hv
    split at hv
    · simp only [List.append_nil, Term.visitsOf_nil] at hv
      exact List.mem_append_left _ hv
    · simpa [Statement.visits_eq, Statement.operand?] using hv

/-- The operand is put into a temporary. -/
lemma settled (h : Piece lo hi [t] b) :
    Piece lo (hi.take 1 0) [.temp hi.slots] (b ++ [.statement (.assign (.temp hi.slots) t)]) where
  lines := ((h.lines.statement (s := .assign (.temp hi.slots) t) rfl rfl).operands
    (u := [.temp hi.slots]) rfl (by simp [Term.reads, Statement.slot?, Target.slotKey?])
    (by simp [Term.Paired])).mono (.refl lo) (Taken.le_take hi 1 0)
  aimed := h.aimed.append h.lines.le.labels (by simp [Taken.take]) (.of_none rfl rfl)
  tidy v hv := by
    refine h.tidy v ?_
    simpa [Statement.visits_eq, Statement.operand?, Term.visits] using hv

/-- The value of an assignment, kept and bound. -/
lemma assignment {name : Symbol} (h : Piece lo hi [t] b) :
    Piece lo (hi.take 1 0) [.temp hi.slots] (b ++ [.statement (.assign (.temp hi.slots) t),
      .statement (.assign (.env name) (.temp hi.slots))]) := by
  have hs := h.settled
  have hlines := (hs.lines.statement (s := .assign (.env name) (.temp hi.slots)) rfl rfl).operands
    (u := [.temp hi.slots]) rfl (by simp [Term.reads, Statement.slot?, Target.slotKey?])
    (by simp [Term.Paired])
  have haimed := hs.aimed.append (c := [.statement (.assign (.env name) (.temp hi.slots))])
    hs.lines.le.labels (Nat.le_refl _) (.of_none rfl rfl)
  rw [List.append_assoc] at hlines haimed
  refine ⟨hlines, haimed, fun v hv => h.tidy v ?_⟩
  simpa [Statement.visits_eq, Statement.operand?, Term.visits] using hv

/-- A conditional. -/
lemma choice {m₁ m₂ : Taken} {tc ty tn : Term} {bc yb nb : Body} (hc : Piece lo m₁ [tc] bc)
    (hy : Piece (m₁.take 1 3) m₂ [ty] yb) (hn : Piece m₂ hi [tn] nb) :
    Piece lo hi [.temp m₁.slots] (choiceLines bc yb nb tc ty tn m₁.slots m₁.labels) where
  lines := .choice hc.lines hy.lines hn.lines
  aimed := .choice hc.lines.le.labels hy.lines.le.labels hn.lines.le.labels hc.aimed hy.aimed
    hn.aimed
  tidy v hv := by
    have hc := hc.tidy v
    have hy := hy.tidy v
    have hn := hn.tidy v
    simp only [choiceLines, Body.meets_append, Body.meets_statement, Body.meets_label,
      Body.meets_nil, Statement.visits, Term.visitsOf_singleton, Term.visits, List.mem_append,
      List.not_mem_nil] at hv hc hy hn
    tauto

/-- A loop. -/
lemma loop {m₁ : Taken} {name : Symbol} {tq te : Term} {bq be : Body}
    (hq : Piece (lo.take 1 0) m₁ [tq] bq) (he : Piece (m₁.take 2 3) hi [te] be) :
    Piece lo hi [.null] (bq ++ (loopHead name tq lo.slots m₁.slots m₁.labels ++
      (be ++ (effectOf te ++ loopTail m₁.slots m₁.labels)))) where
  lines := .loop hq.lines he.lines
  aimed := .loop hq.lines.le.labels he.lines.le.labels
    (hq.aimed.mono (by simp [Taken.take]) (Nat.le_refl _)) he.aimed
  tidy v hv := by
    have hq := hq.tidy v
    have he := he.effect.tidy v
    simp only [loopHead, loopTail, counterOf, Body.meets_append, Body.meets_statement,
      Body.meets_label, Body.meets_nil, Statement.visits, Term.visitsOf_singleton,
      Term.visitsOf_nil, Term.visits, Term.null, List.mem_append, List.not_mem_nil] at hv hq he
    tauto

/-- A call, given the operands that it takes. -/
lemma call {u : Term} (call : Call) (h : Piece lo hi ts b)
    (hvisits : ∀ v ∈ u.visits, v ∈ Term.visitsOf ts ∨ v = .site ⟨hi.sites, call⟩)
    (hreads : ∀ k ∈ u.reads, k ∈ Term.readsOf ts) (hpaired : (∀ t ∈ ts, t.Paired) → u.Paired) :
    Piece lo hi.takeSite [u] b := by
  have hle := hi.le_takeSite
  have hsite : Visit.Numbered hi hi.takeSite [.site ⟨hi.sites, call⟩] :=
    .of_forall_eq (v := .site ⟨hi.sites, call⟩) ⟨Nat.le_refl _, Nat.lt_succ_self _⟩ fun w hw =>
      List.mem_singleton.1 hw
  refine ⟨⟨h.lines.le.trans hle, h.lines.live, ?_, h.lines.defined, ?_, ?_⟩,
    h.aimed.mono (Nat.le_refl lo.labels) (Nat.le_refl hi.labels), ?_⟩
  · refine (h.lines.numbered.append h.lines.le hle hsite).of_subset fun v hv => ?_
    rw [Term.visitsOf_singleton, List.mem_append] at hv
    simp only [List.mem_append, List.mem_singleton]
    rcases hv with hv | hv
    · exact .inl (.inl hv)
    · rcases hvisits v hv with hv | hv
      · exact .inl (.inr hv)
      · exact .inr hv
  · intro k hk
    rw [Term.readsOf_singleton] at hk
    exact h.lines.reads k (hreads k hk)
  · intro v hv
    rcases List.mem_append.1 hv with hv | hv
    · exact h.lines.paired v (List.mem_append_left _ hv)
    · rw [List.mem_singleton.1 hv]
      exact hpaired fun t ht => h.lines.paired t (List.mem_append_right _ ht)
  · intro v hv
    rw [Term.visitsOf_singleton, List.mem_append] at hv
    rcases hv with hv | hv
    · exact h.tidy v (List.mem_append_left _ hv)
    · rcases hvisits v hv with hv | rfl
      · exact h.tidy v (List.mem_append_right _ hv)
      · trivial

/-- A nested body gets its identity when it was drafted. -/
lemma node {v : Visit} (hle : lo.Le hi) (hv : v.Within hi hi.takeNode)
    (hvisits : ∀ w ∈ t.visits, w = v) (hreads : t.reads = []) (hpaired : t.Paired) (htidy : v.Tidy) :
    Piece lo hi.takeNode [t] [] := by
  refine .of_nil (hle.trans hi.le_takeNode) ?_ (by rw [Term.readsOf_singleton, hreads])
    (by simpa using hpaired) ?_
  · rw [Term.visitsOf_singleton]
    exact .of_forall_eq (hv.mono hle (.refl _)) hvisits
  · intro w hw
    rw [Term.visitsOf_singleton] at hw
    rw [hvisits w hw]
    exact htidy

/-- A late argument. -/
lemma thunk {e : Expr} (h : Piece lo hi [t] b) :
    Piece lo hi.takeNode [.thunk ⟨⟨hi.nodes⟩, e, Flow.returning b t⟩] [] := by
  refine node (v := .thunk ⟨⟨hi.nodes⟩, e, Flow.returning b t⟩) h.lines.le
    ⟨Nat.le_refl _, Nat.lt_succ_self _⟩ ?_ rfl trivial h.returning
  intro w hw
  rw [Term.visits, Emits.lateVisits] at hw
  split at hw
  · cases hw
  · exact List.mem_singleton.1 hw

/-- A function literal. -/
lemma closure {formals : List (Formal Thunk)} (h : Piece mid hi [t] b) (hle : lo.Le mid)
    (hdefaults : ∀ f ∈ formals, ∀ d, f.default = some d → Body.Tidy d.body) :
    Piece lo hi.takeNode [.closure ⟨hi.nodes⟩ ⟨none, formals, Flow.returning b t⟩] [] :=
  node (v := .closure ⟨hi.nodes⟩ ⟨none, formals, Flow.returning b t⟩) (hle.trans h.lines.le)
    ⟨Nat.le_refl _, Nat.lt_succ_self _⟩ (fun _ hw => List.mem_singleton.1 hw) rfl trivial
    ⟨h.returning, hdefaults⟩

variable {call : Call} {name : Symbol}

/-- A call of a builtin known by name. -/
lemma primitive (h : Piece lo hi ts b) (hlength : ts.length = call.args.length) :
    Piece lo hi.takeSite [.primitive name (operandsOf hi call ts)] b := by
  refine h.call call ?_ (fun k hk => hk) fun hpaired => ?_
  · intro v hv
    rcases List.mem_cons.1 hv with hv | hv
    · exact .inr hv
    · exact .inl hv
  · exact ⟨⟨rfl, hlength⟩, Term.pairedAll_iff.2 hpaired⟩

/-- A call of a function known by name. -/
lemma named (h : Piece lo hi ts b) (hlength : ts.length = call.args.length) :
    Piece lo hi.takeSite [.call (.name name) (operandsOf hi call ts)] b := by
  refine h.call call ?_ (fun k hk => hk) fun hpaired => ?_
  · intro v hv
    simp only [operandsOf, Term.visits, List.mem_cons, List.mem_append] at hv
    tauto
  · exact ⟨⟨rfl, hlength⟩, Term.pairedAll_iff.2 hpaired⟩

/-- A call of a function that is computed. -/
lemma computed (h : Piece lo hi (t :: ts) b) (hlength : ts.length = call.args.length) :
    Piece lo hi.takeSite [.call (.computed t) (operandsOf hi call ts)] b := by
  refine h.call call ?_ (fun k hk => hk) fun hpaired => ?_
  · intro v hv
    simp only [operandsOf, Term.visits, List.mem_cons, List.mem_append, Term.visitsOf] at hv ⊢
    tauto
  · exact ⟨hpaired _ List.mem_cons_self, ⟨rfl, hlength⟩,
      Term.pairedAll_iff.2 fun t ht => hpaired t (List.mem_cons_of_mem _ ht)⟩

end Piece

/-! ## Drafted bodies -/

mutual

/-- What an expression is drafted to is in order. -/
theorem tidy_of_drafted {e : Expr} {lo hi : Taken} {t : Term} {b : Body} :
    Drafted o e lo t b hi → Piece lo hi [t] b
  | .reading _ => .operand rfl rfl trivial
  | .literal _ => .operand rfl rfl trivial
  | .closure hformals hbody => by
    obtain ⟨hle, hdefaults⟩ := tidy_of_draftedFormals hformals
    exact (tidy_of_drafted hbody).closure hle hdefaults
  | .whether _ hc hy => .choice (tidy_of_drafted hc) (tidy_of_drafted hy) (.operand rfl rfl trivial)
  | .choice _ hc hy hn => .choice (tidy_of_drafted hc) (tidy_of_drafted hy) (tidy_of_drafted hn)
  | .loop _ _ hq he => .loop (tidy_of_drafted hq) (tidy_of_drafted he)
  | .block _ _ h => tidy_of_draftedSteps h
  | .assignment _ _ h => (tidy_of_drafted h).assignment
  | .primitive _ _ h => by
    obtain ⟨hpiece, hlength⟩ := tidy_of_draftedNow h
    exact hpiece.primitive hlength
  | .named _ _ _ h => by
    obtain ⟨hpiece, hlength⟩ := tidy_of_draftedLate h
    exact hpiece.named hlength
  | .computed _ hc h => by
    obtain ⟨hlate, hlength⟩ := tidy_of_draftedLate h
    have hpiece := (tidy_of_drafted hc).append hlate
    rw [List.append_nil] at hpiece
    exact hpiece.computed hlength

theorem tidy_of_draftedSteps {args : List (Arg Expr)} {lo hi : Taken} {t : Term} {b : Body} :
    DraftedSteps o args lo t b hi → Piece lo hi [t] b
  | .nil => .operand rfl rfl trivial
  | .last h => tidy_of_drafted h
  | .step h hrest => by
    rw [← List.append_assoc]
    exact (tidy_of_drafted h).effect.append (tidy_of_draftedSteps hrest)

theorem tidy_of_draftedNow {args : List (Arg Expr)} {lo hi : Taken} {ts : List Term} {b : Body} :
    DraftedNow o args lo ts b hi → Piece lo hi ts b ∧ ts.length = args.length
  | .nil => ⟨.of_nil (.refl _) .nil rfl nofun nofun, rfl⟩
  | .ellipsis _ hrest => by
    obtain ⟨hpiece, hlength⟩ := tidy_of_draftedNow hrest
    exact ⟨(Piece.operand (t := .ellipsis) rfl rfl trivial).append hpiece,
      congrArg (· + 1) hlength⟩
  | .trivial _ h _ hrest => by
    obtain ⟨hpiece, hlength⟩ := tidy_of_draftedNow hrest
    exact ⟨(tidy_of_drafted h).append hpiece, congrArg (· + 1) hlength⟩
  | .settled _ h _ hrest => by
    obtain ⟨hpiece, hlength⟩ := tidy_of_draftedNow hrest
    rw [List.append_cons]
    exact ⟨(tidy_of_drafted h).settled.append hpiece, congrArg (· + 1) hlength⟩

theorem tidy_of_draftedLate {args : List (Arg Expr)} {lo hi : Taken} {ts : List Term} :
    DraftedLate o args lo ts hi → Piece lo hi ts [] ∧ ts.length = args.length
  | .nil => ⟨.of_nil (.refl _) .nil rfl nofun nofun, rfl⟩
  | .ellipsis _ hrest => by
    obtain ⟨hpiece, hlength⟩ := tidy_of_draftedLate hrest
    exact ⟨(Piece.operand (t := .ellipsis) rfl rfl trivial).append hpiece,
      congrArg (· + 1) hlength⟩
  | .literal _ hrest => by
    obtain ⟨hpiece, hlength⟩ := tidy_of_draftedLate hrest
    exact ⟨(Piece.operand (t := .literal _) rfl rfl trivial).append hpiece,
      congrArg (· + 1) hlength⟩
  | .thunk _ _ h hrest => by
    obtain ⟨hpiece, hlength⟩ := tidy_of_draftedLate hrest
    exact ⟨(tidy_of_drafted h).thunk.append hpiece, congrArg (· + 1) hlength⟩

theorem tidy_of_draftedFormals {formals : List (Formal Expr)} {lo hi : Taken}
    {fs : List (Formal Thunk)} :
    DraftedFormals o formals lo fs hi →
      lo.Le hi ∧ ∀ f ∈ fs, ∀ d, f.default = some d → Body.Tidy d.body
  | .nil => ⟨.refl _, nofun⟩
  | .plain hrest => by
    obtain ⟨hle, hall⟩ := tidy_of_draftedFormals hrest
    refine ⟨hle, fun f hf d hd => ?_⟩
    rcases List.mem_cons.1 hf with rfl | hf
    · cases hd
    · exact hall f hf d hd
  | .default h hrest => by
    obtain ⟨hle, hall⟩ := tidy_of_draftedFormals hrest
    have hbody := tidy_of_drafted h
    refine ⟨(hbody.lines.le.trans (Taken.le_takeNode _)).trans hle, fun f hf d hd => ?_⟩
    rcases List.mem_cons.1 hf with rfl | hf
    · cases hd
      exact hbody.returning
    · exact hall f hf d hd

end

end Flow

end CallByNeed
