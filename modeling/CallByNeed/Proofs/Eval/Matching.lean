import CallByNeed.Proofs.Comparison.Calls
import Mathlib.Data.List.Forall2
import Mathlib.Data.List.Nodup
import Mathlib.Data.List.TakeWhile
import Mathlib.Tactic.Common

/-!
# What matching gives

Arguments are matched in passes, each of which takes away what the next one must not see. Read
without passes, a formal gets the argument of its name, or its share of the arguments without a name
(`Matching.supplied`), and `...` gets the arguments that no formal has (`Matching.leftover`).

Applying a closure binds exactly that (`bindArguments_exact`): matching is refused only for a name
that is given twice or for an argument that nobody takes, and it touches nothing but the new
environment.
-/

namespace CallByNeed

/-! ## Who gets what -/

namespace Matching

/-- The first argument that carries a name. -/
def named? (args : ArgList) (name : Symbol) : Option Value :=
  (args.find? fun a => a.name = some name).map Arg.value

/-- The arguments without a name. -/
def unnamed (args : ArgList) : List Value :=
  (args.filter fun a => a.name.isNone).map Arg.value

/-- The formals that are filled by position: those before `...` whose name no argument carries. -/
def openFormals (formals : List Symbol) (args : ArgList) : List Symbol :=
  (formals.takeWhile fun f => !f.isEllipsis).filter fun f => (named? args f).isNone

/-- What a formal other than `...` is given: the argument of its name, or else the argument without
a name that stands where the formal does among the open ones. -/
def supplied (formals : List Symbol) (args : ArgList) (f : Symbol) : Option Value :=
  (named? args f).or (((openFormals formals args).zip (unnamed args)).lookup f)

/-- The arguments but for the first few of those without a name. -/
def dropUnnamed : Nat → ArgList → ArgList
  | 0, args => args
  | _ + 1, [] => []
  | n + 1, a :: rest => if a.name.isNone then dropUnnamed n rest else a :: dropUnnamed (n + 1) rest

@[simp] lemma dropUnnamed_zero (args : ArgList) : dropUnnamed 0 args = args := by
  rw [dropUnnamed]

/-- What `...` is given: the arguments that neither carry the name of a formal nor fill one. -/
def leftover (formals : List Symbol) (args : ArgList) : ArgList :=
  dropUnnamed (openFormals formals args).length (args.filter fun a => !isNamed formals a)

/-- Why arguments do not match. -/
inductive Refused (formals : List Symbol) (args : ArgList) : ArgumentFault → Prop
  /-- Two arguments carry the name of one formal. -/
  | twice (f : Symbol) : f ∈ formals → f ≠ .ellipsis →
      2 ≤ args.countP (fun a => a.name = some f) → Refused formals args (.matchedTwice f.name)
  /-- There is no `...` to take what is left. -/
  | unused (a : Arg Value) (rest : ArgList) : .ellipsis ∉ formals →
      leftover formals args = a :: rest → Refused formals args (.unused (argText a))

/-! ## Names that are given twice -/

lemma repeatedAfter?_eq_none {names : List Symbol} : ∀ {seen : List Symbol},
    repeatedAfter? seen names = none → names.Nodup ∧ ∀ n ∈ names, n ∉ seen := by
  induction names with
  | nil => simp
  | cons n rest ih =>
    intro seen h
    rw [repeatedAfter?] at h
    split at h
    · cases h
    · rename_i hn
      obtain ⟨hrest, hseen⟩ := ih h
      have hn : n ∉ seen := by simpa using hn
      refine ⟨List.nodup_cons.2 ⟨fun hmem => hseen n hmem List.mem_cons_self, hrest⟩, ?_⟩
      intro m hm
      rcases List.mem_cons.1 hm with rfl | hm
      · exact hn
      · exact fun hmem => hseen m hm (List.mem_cons_of_mem _ hmem)

lemma repeatedAfter?_eq_some {names : List Symbol} {name : Symbol} : ∀ {seen : List Symbol},
    repeatedAfter? seen names = some name →
      2 ≤ names.count name ∨ (name ∈ seen ∧ name ∈ names) := by
  induction names with
  | nil => simp [repeatedAfter?]
  | cons n rest ih =>
    intro seen h
    rw [repeatedAfter?] at h
    split at h
    · rename_i hn
      cases h
      exact .inr ⟨by simpa using hn, List.mem_cons_self⟩
    · rcases ih h with hcount | ⟨hseen, hmem⟩
      · exact .inl (Nat.le_trans hcount List.count_le_count_cons)
      · rcases List.mem_cons.1 hseen with rfl | hseen
        · refine .inl ?_
          have := List.count_pos_iff.2 hmem
          rw [List.count_cons_self]
          omega
        · exact .inr ⟨hseen, List.mem_cons_of_mem _ hmem⟩

/-- The names of the arguments that carry the name of a formal. -/
def givenNames (formals : List Symbol) (args : ArgList) : List Symbol :=
  (args.filter (isNamed formals)).filterMap Arg.name

lemma mem_of_mem_givenNames {formals : List Symbol} {args : ArgList} {f : Symbol}
    (h : f ∈ givenNames formals args) : f ∈ formals ∧ f ≠ .ellipsis := by
  obtain ⟨a, ha, hname⟩ := List.mem_filterMap.1 h
  have hnamed := (List.mem_filter.1 ha).2
  rw [isNamed, hname] at hnamed
  simpa [Symbol.isEllipsis, and_comm] using hnamed

lemma count_givenNames {formals : List Symbol} {f : Symbol} (hf : f ∈ formals)
    (hne : f ≠ .ellipsis) (args : ArgList) :
    (givenNames formals args).count f = args.countP fun a => a.name = some f := by
  rw [givenNames, List.count_filterMap, List.countP_filter]
  refine List.countP_congr fun a _ => ?_
  constructor
  · intro h
    simpa using (Bool.and_eq_true_iff.1 h).1
  · intro h
    have hname : a.name = some f := by simpa using h
    simp [isNamed, hname, Symbol.isEllipsis, hne, hf]

/-! ## Taking arguments -/

section

variable {args rest named others : ArgList} {formals : List Symbol} {name : Symbol} {v : Value}

lemma named?_cons (a : Arg Value) (args : ArgList) (name : Symbol) :
    named? (a :: args) name = if a.name = some name then some a.value else named? args name := by
  unfold named?
  rw [List.find?_cons]
  split_ifs <;> simp_all

lemma takeNamed_eq_none (h : takeNamed name args = none) : named? args name = none := by
  induction args with
  | nil => rfl
  | cons a args ih =>
    rw [takeNamed] at h
    split at h
    · cases h
    · rename_i hne
      rw [named?_cons, if_neg hne]
      exact ih (by simpa using h)

/-- Taking the argument of a name leaves those of the other names. -/
lemma takeNamed_eq_some (h : takeNamed name args = some (v, rest)) :
    named? args name = some v ∧ ∀ other ≠ name, named? rest other = named? args other := by
  induction args generalizing rest with
  | nil => cases h
  | cons a args ih =>
    rw [takeNamed] at h
    split at h
    · rename_i hname
      cases h
      refine ⟨by rw [named?_cons, if_pos hname], fun other hother => ?_⟩
      have hne : a.name ≠ some other := by
        rw [hname]
        exact fun heq => hother (Option.some.inj heq).symm
      rw [named?_cons, if_neg hne]
    · rename_i hne
      obtain ⟨⟨w, found⟩, hw, heq⟩ := Option.map_eq_some_iff.1 h
      cases heq
      obtain ⟨hv, hothers⟩ := ih hw
      refine ⟨by rw [named?_cons, if_neg hne, hv], fun other hother => ?_⟩
      rw [named?_cons, named?_cons, hothers other hother]

lemma takeUnnamed_eq_none (h : takeUnnamed args = none) :
    unnamed args = [] ∧ ∀ n, dropUnnamed n args = args := by
  induction args with
  | nil => exact ⟨rfl, fun n => by cases n <;> rfl⟩
  | cons a args ih =>
    rw [takeUnnamed] at h
    split at h
    · cases h
    · rename_i n hname
      obtain ⟨hnil, hdrop⟩ := ih (by simpa using h)
      refine ⟨by simpa [unnamed, hname] using hnil, fun k => ?_⟩
      cases k with
      | zero => rfl
      | succ k => simp [dropUnnamed, hname, hdrop]

/-- Taking the first argument without a name leaves the others. -/
lemma takeUnnamed_eq_some (h : takeUnnamed args = some (v, rest)) :
    unnamed args = v :: unnamed rest ∧ ∀ n, dropUnnamed (n + 1) args = dropUnnamed n rest := by
  induction args generalizing rest with
  | nil => cases h
  | cons a args ih =>
    rw [takeUnnamed] at h
    split at h
    · rename_i hname
      cases h
      exact ⟨by simp [unnamed, hname], fun n => by simp [dropUnnamed, hname]⟩
    · rename_i m hname
      obtain ⟨⟨w, found⟩, hw, heq⟩ := Option.map_eq_some_iff.1 h
      cases heq
      obtain ⟨hfirst, hdrop⟩ := ih hw
      refine ⟨by simpa [unnamed, hname] using hfirst, fun n => ?_⟩
      rw [dropUnnamed, if_neg (by simp [hname]), hdrop]
      cases n with
      | zero => rw [dropUnnamed_zero, dropUnnamed_zero]
      | succ n => rw [dropUnnamed, if_neg (by simp [hname])]

/-! ## Filling formals -/

/-- Each formal but `...` is given what a function says. -/
def Gives (give : Symbol → Option Value) (formals : List Symbol) (given : List (Option Value)) :
    Prop :=
  List.Forall₂ (fun f x => f ≠ .ellipsis → x = give f) formals given

lemma Gives.congr {give give' : Symbol → Option Value} {given : List (Option Value)}
    (h : Gives give formals given) (heq : ∀ f ∈ formals, f ≠ .ellipsis → give f = give' f) :
    Gives give' formals given := by
  induction h with
  | nil => exact .nil
  | cons hx _ ih =>
    refine .cons (fun hne => (hx hne).trans (heq _ List.mem_cons_self hne)) (ih fun f hf => ?_)
    exact heq f (List.mem_cons_of_mem _ hf)

/-- Behind `...` a formal is given the argument of its name, if there is one. -/
lemma byName_gives (hnodup : formals.Nodup) :
    Gives (named? named) formals (byName named formals) := by
  induction formals generalizing named with
  | nil => exact .nil
  | cons f formals ih =>
    obtain ⟨hf, hnodup⟩ := List.nodup_cons.1 hnodup
    rw [byName]
    by_cases hdots : f.isEllipsis = true
    · rw [if_pos hdots]
      exact .cons (fun hne => absurd (of_decide_eq_true hdots) hne) (ih hnodup)
    · rw [if_neg hdots]
      cases htake : takeNamed f named with
      | none => exact .cons (fun _ => (takeNamed_eq_none htake).symm) (ih hnodup)
      | some found =>
        obtain ⟨hv, hothers⟩ := takeNamed_eq_some htake
        refine .cons (fun _ => hv.symm) ((ih hnodup).congr fun g hg _ => ?_)
        exact hothers g fun heq => hf (heq ▸ hg)

/-- The formals are given what names and positions say; what is left is what positions do not
take. -/
lemma fill_gives (named others : ArgList) (hnodup : formals.Nodup) :
    Gives
        (fun f => (named? named f).or (((openFormals formals named).zip (unnamed others)).lookup f))
        formals (fill named others formals).1 ∧
      (fill named others formals).2 = dropUnnamed (openFormals formals named).length others := by
  induction formals generalizing named others with
  | nil => exact ⟨.nil, (dropUnnamed_zero others).symm⟩
  | cons f formals ih =>
    have hnames := hnodup
    obtain ⟨hf, hnodup⟩ := List.nodup_cons.1 hnodup
    rw [fill]
    by_cases hdots : f.isEllipsis = true
    · have hopen : openFormals (f :: formals) named = [] := by simp [openFormals, hdots]
      rw [if_pos hdots, hopen]
      exact ⟨(byName_gives hnames).congr fun g _ _ => by simp, (dropUnnamed_zero others).symm⟩
    rw [if_neg hdots]
    have hhead : openFormals (f :: formals) named =
        if (named? named f).isNone then f :: openFormals formals named
        else openFormals formals named := by
      simp [openFormals, hdots, List.filter_cons]
    cases htake : takeNamed f named with
    | some found =>
      obtain ⟨v, named'⟩ := found
      obtain ⟨hv, hothers⟩ := takeNamed_eq_some htake
      -- The argument is gone, but no other formal asks for its name.
      have hsame : ∀ g ∈ formals, named? named' g = named? named g :=
        fun g hg => hothers g fun heq => hf (heq ▸ hg)
      have hopen : openFormals formals named' = openFormals formals named :=
        List.filter_congr fun g hg => by
          rw [hsame g ((List.takeWhile_prefix _).subset hg)]
      rw [hhead, hv]
      obtain ⟨hgives, hleft⟩ := ih named' others hnodup
      rw [hopen] at hgives hleft
      refine ⟨.cons (fun _ => by simp [hv]) (hgives.congr fun g hg _ => ?_), hleft⟩
      simp [hsame g hg]
    | none =>
      have hnone := takeNamed_eq_none htake
      rw [hhead, hnone]
      cases hfirst : takeUnnamed others with
      | some found =>
        obtain ⟨v, others'⟩ := found
        obtain ⟨hpositions, hdrop⟩ := takeUnnamed_eq_some hfirst
        obtain ⟨hgives, hleft⟩ := ih named others' hnodup
        refine ⟨.cons (fun _ => by simp [hpositions, hnone]) (hgives.congr fun g hg _ => ?_), ?_⟩
        · have hne : g ≠ f := fun heq => hf (heq ▸ hg)
          simp [hpositions, List.lookup_cons, beq_eq_false_iff_ne.2 hne]
        · simpa [hdrop] using hleft
      | none =>
        obtain ⟨hnil, hdrop⟩ := takeUnnamed_eq_none hfirst
        obtain ⟨hgives, hleft⟩ := ih named others hnodup
        refine ⟨.cons (fun _ => by simp [hnil, hnone]) (hgives.congr fun g _ _ => ?_), ?_⟩
        · simp [hnil]
        · simpa [hdrop] using hleft

end

/-! ## Assignments -/

section

variable {formals : List Symbol} {f : Symbol}

lemma named?_givenArgs (hf : f ∈ formals) (hne : f ≠ .ellipsis) (args : ArgList) :
    named? (args.filter (isNamed formals)) f = named? args f := by
  unfold named?
  rw [List.find?_filter]
  congr 2
  funext a
  by_cases hname : a.name = some f
  · simp [isNamed, hname, Symbol.isEllipsis, hne, hf]
  · simp [hname]

lemma unnamed_otherArgs (formals : List Symbol) (args : ArgList) :
    unnamed (args.filter fun a => !isNamed formals a) = unnamed args := by
  unfold unnamed
  rw [List.filter_filter]
  congr 2
  funext a
  cases hname : a.name <;> simp [isNamed, hname]

lemma openFormals_givenArgs (formals : List Symbol) (args : ArgList) :
    openFormals formals (args.filter (isNamed formals)) = openFormals formals args := by
  refine List.filter_congr fun f hf => ?_
  have hne : f ≠ .ellipsis := by simpa [Symbol.isEllipsis] using List.mem_takeWhile_imp hf
  rw [named?_givenArgs ((List.takeWhile_prefix _).subset hf) hne]

/-- Arguments are matched, unless there is a reason to refuse them. -/
lemma assign_exact (hnodup : formals.Nodup) (args : ArgList) :
    (∃ fault, Refused formals args fault ∧ assign formals args = .error fault) ∨
      (¬∃ fault, Refused formals args fault) ∧ ∃ given,
        assign formals args = .ok (given, leftover formals args) ∧
          Gives (supplied formals args) formals given := by
  have hnames : (args.filter (isNamed formals)).filterMap Arg.name = givenNames formals args := rfl
  unfold assign
  dsimp only
  rw [hnames]
  cases htwice : repeated? (givenNames formals args) with
  | some f =>
    obtain hcount | ⟨hseen, -⟩ := repeatedAfter?_eq_some htwice
    · obtain ⟨hf, hne⟩ := mem_of_mem_givenNames (List.count_pos_iff.1 (Nat.lt_of_succ_le
        (Nat.le_of_succ_le hcount)))
      exact .inl ⟨_, .twice f hf hne (count_givenNames hf hne args ▸ hcount), rfl⟩
    · cases hseen
  | none =>
    have honce := List.nodup_iff_count_le_one.1 (repeatedAfter?_eq_none htwice).1
    obtain ⟨hgives, hleft⟩ := fill_gives (args.filter (isNamed formals))
      (args.filter fun a => !isNamed formals a) hnodup
    rw [openFormals_givenArgs] at hgives hleft
    generalize fill (args.filter (isNamed formals)) (args.filter fun a => !isNamed formals a)
      formals = filled at hgives hleft ⊢
    obtain ⟨given, left⟩ := filled
    replace hgives : Gives (supplied formals args) formals given :=
      hgives.congr fun g hg hne => by
        rw [named?_givenArgs hg hne, unnamed_otherArgs, supplied]
    obtain rfl : left = leftover formals args := hleft
    have htwice : ∀ g ∈ formals, g ≠ .ellipsis →
        ¬2 ≤ args.countP (fun a => a.name = some g) := by
      intro g hg hne hcount
      have := honce g
      rw [count_givenNames hg hne] at this
      omega
    by_cases hdots : .ellipsis ∈ formals
    · have hany : formals.any Symbol.isEllipsis = true :=
        List.any_eq_true.2 ⟨_, hdots, by simp [Symbol.isEllipsis]⟩
      refine .inr ⟨?_, given, by simp [hany], hgives⟩
      rintro ⟨_, ⟨g, hg, hne, hcount⟩ | ⟨_, _, hno, _⟩⟩
      · exact htwice g hg hne hcount
      · exact hno hdots
    · have hany : formals.any Symbol.isEllipsis = false := by
        refine List.any_eq_false.2 fun g hg hg' => hdots ?_
        exact of_decide_eq_true hg' ▸ hg
      cases hrest : leftover formals args with
      | cons a rest =>
        exact .inl ⟨_, .unused a rest hdots hrest, by simp [hany]⟩
      | nil =>
        refine .inr ⟨?_, given, by simp [hany], hgives⟩
        rintro ⟨_, ⟨g, hg, hne, hcount⟩ | ⟨_, _, _, hsome⟩⟩
        · exact htwice g hg hne hcount
        · rw [hrest] at hsome
          cases hsome

end

end Matching

/-! ## Binding -/

/-- Nothing was done to a store but to add promises and to change environments. -/
structure Store.Adds (s t : Store) : Prop where
  promises : ∃ added, t.promises = s.promises ++ added
  depth : t.depth = s.depth
  journal : t.journal = s.journal

namespace Store.Adds

variable {s m t : Store}

lemma refl (s : Store) : s.Adds s := ⟨⟨#[], by simp⟩, rfl, rfl⟩

lemma trans (h : s.Adds m) (h' : m.Adds t) : s.Adds t := by
  obtain ⟨added, hadded⟩ := h.promises
  obtain ⟨more, hmore⟩ := h'.promises
  exact ⟨⟨added ++ more, by rw [hmore, hadded, Array.append_assoc]⟩, h'.depth.trans h.depth,
    h'.journal.trans h.journal⟩

lemma addPromise (s : Store) (p : Promise) : s.Adds (s.addPromise p) :=
  ⟨⟨#[p], rfl⟩, rfl, rfl⟩

lemma size_le (h : s.Adds t) : s.promises.size ≤ t.promises.size := by
  obtain ⟨added, hadded⟩ := h.promises
  simp [hadded]

/-- Promises stay what they are. -/
lemma getElem? (h : s.Adds t) {p : PromiseId} {q : Promise} (hq : s.promises[p]? = some q) :
    t.promises[p]? = some q := by
  obtain ⟨added, hadded⟩ := h.promises
  have hlt := (Array.getElem?_eq_some_iff.1 hq).1
  rw [hadded, Array.getElem?_append_left hlt, hq]

end Store.Adds

/-- What a formal holds in a new environment: what `...` is given, what the formal is given, or a
promise that was not there before, of its default in the same environment or of nothing. -/
inductive Formal.Holds (give : Symbol → Option Value) (left : ArgList) (frame : EnvId)
    (s t : Store) (f : Formal CodeUnit) : Value → Prop
  | dots : f.name = .ellipsis → Holds give left frame s t f (.dots left)
  | argument (v : Value) : f.name ≠ .ellipsis → give f.name = some v → Holds give left frame s t f v
  | byDefault (unit : CodeUnit) (p : PromiseId) : f.name ≠ .ellipsis → give f.name = none →
      f.default = some unit → s.promises.size ≤ p →
      t.promises[p]? = some ⟨.pending (.compiled unit frame), 0⟩ →
      Holds give left frame s t f (.promise p)
  | missing (p : PromiseId) : f.name ≠ .ellipsis → give f.name = none → f.default = none →
      s.promises.size ≤ p → t.promises[p]? = some ⟨.pending (.missing f.name), 0⟩ →
      Holds give left frame s t f (.promise p)

section

variable {give : Symbol → Option Value} {left dots : ArgList} {frame : EnvId} {s m t t' : Store}
  {f : Formal CodeUnit} {formals : List (Formal CodeUnit)} {given : List (Option Value)} {v : Value}

lemma Formal.Holds.mono (h : f.Holds give left frame s t v) (ht : t.Adds t') :
    f.Holds give left frame s t' v := by
  cases h with
  | dots hname => exact .dots hname
  | argument v hname hv => exact .argument v hname hv
  | byDefault unit p hname hnone hunit hp hq =>
    exact .byDefault unit p hname hnone hunit hp (ht.getElem? hq)
  | missing p hname hnone hunit hp hq => exact .missing p hname hnone hunit hp (ht.getElem? hq)

lemma Formal.Holds.before (h : f.Holds give left frame m t v) (hm : s.Adds m) :
    f.Holds give left frame s t v := by
  have hsize := hm.size_le
  cases h with
  | dots hname => exact .dots hname
  | argument v hname hv => exact .argument v hname hv
  | byDefault unit p hname hnone hunit hp hq =>
    exact .byDefault unit p hname hnone hunit (Nat.le_trans hsize hp) hq
  | missing p hname hnone hunit hp hq =>
    exact .missing p hname hnone hunit (Nat.le_trans hsize hp) hq

/-- A formal that is not `...` gets its value, and at most a promise is made for it. -/
lemma formalValue_holds (given : List (Option Value)) (frame : EnvId) (left : ArgList) (s : Store)
    (hname : f.name ≠ .ellipsis)
    (hgive : given.head?.join = give f.name) :
    ∃ v t, formalValue frame f given s = .ok v t ∧ s.Adds t ∧ t.environments = s.environments ∧
      f.Holds give left frame s t v := by
  unfold formalValue
  rw [hgive]
  cases hv : give f.name with
  | some v => exact ⟨v, s, rfl, .refl s, rfl, .argument v hname hv⟩
  | none =>
    cases hunit : f.default with
    | some unit =>
      refine ⟨_, _, rfl, .addPromise s _, rfl, .byDefault unit _ hname hv hunit (Nat.le_refl _) ?_⟩
      simp [Store.addPromise]
    | none =>
      refine ⟨_, _, rfl, .addPromise s _, rfl, .missing _ hname hv hunit (Nat.le_refl _) ?_⟩
      simp [Store.addPromise]

lemma bindIn_of_not_mem {name : Symbol} {vars : List (Symbol × Value)}
    (h : ∀ x ∈ vars, x.1 ≠ name) (v : Value) : bindIn name v vars = vars ++ [(name, v)] := by
  induction vars with
  | nil => rfl
  | cons x vars ih =>
    obtain ⟨hx, hvars⟩ := List.forall_mem_cons.1 h
    rw [bindIn, if_neg hx, ih hvars, List.cons_append]

/-- The variable is new to the environment that was made last. -/
lemma environments_set {E : Array Environment} {outer : List EnvId} {name : Symbol}
    {vars : List (Symbol × Value)} (hs : s.environments = E.push ⟨vars, outer⟩)
    (hvars : ∀ x ∈ vars, x.1 ≠ name) (v : Value) :
    (s.set E.size name v).environments = E.push ⟨vars ++ [(name, v)], outer⟩ := by
  unfold Store.set
  dsimp only
  rw [hs, ← bindIn_of_not_mem hvars v]
  grind [Array.size_modify]

/-- Formals are bound in order, each to what it is given. -/
lemma bindFormals_holds {E : Array Environment} {outer : List EnvId} :
    ∀ {formals : List (Formal CodeUnit)} {given : List (Option Value)} (dots : ArgList)
      (vars : List (Symbol × Value)) (s : Store), (formals.map Formal.name).Nodup →
      Matching.Gives give (formals.map Formal.name) given →
      (.ellipsis ∈ formals.map Formal.name → dots = left) →
      (∀ x ∈ vars, x.1 ∉ formals.map Formal.name) → s.environments = E.push ⟨vars, outer⟩ →
      ∃ t bound, bindFormals E.size formals given dots s = .ok () t ∧ s.Adds t ∧
        t.environments = E.push ⟨vars ++ bound, outer⟩ ∧
        List.Forall₂ (fun f x => x.1 = f.name ∧ f.Holds give left E.size s t x.2) formals bound
  | [], _, _, vars, s, _, _, _, _, hs => ⟨s, [], rfl, .refl s, by simpa using hs, .nil⟩
  | f :: formals, given, dots, vars, s, hnodup, hgives, hdots, hvars, hs => by
    obtain ⟨hf, hnodup⟩ := List.nodup_cons.1 hnodup
    obtain ⟨x, rest, hx, htail, rfl⟩ := List.forall₂_cons_left_iff.1 hgives
    -- The rest is bound behind the first one, in a store where that one has its value.
    have hrest : ∀ {m : Store} {v : Value} (dots : ArgList), s.Adds m →
        m.environments = s.environments → f.Holds give left E.size s m v →
        (.ellipsis ∈ formals.map Formal.name → dots = left) →
        ∃ t bound, bindFormals E.size formals rest dots (m.set E.size f.name v) = .ok () t ∧
          s.Adds t ∧ t.environments = E.push ⟨vars ++ bound, outer⟩ ∧
          List.Forall₂ (fun f x => x.1 = f.name ∧ f.Holds give left E.size s t x.2)
            (f :: formals) bound := by
      intro m v dots hm henvs hholds hdots
      have hset : m.Adds (m.set E.size f.name v) := ⟨⟨#[], by simp [Store.set]⟩, rfl, rfl⟩
      have hvars' : ∀ x ∈ vars ++ [(f.name, v)], x.1 ∉ formals.map Formal.name := by
        intro x hx
        rcases List.mem_append.1 hx with hx | hx
        · exact fun hmem => hvars x hx (List.mem_cons_of_mem _ hmem)
        · obtain rfl : x = (f.name, v) := by simpa using hx
          exact hf
      have hlast : (m.set E.size f.name v).environments = E.push ⟨vars ++ [(f.name, v)], outer⟩ :=
        environments_set (henvs.trans hs) (fun x hx heq => hvars x hx (heq ▸ List.mem_cons_self)) v
      obtain ⟨t, bound, hrun, ht, henvs, hbound⟩ :=
        bindFormals_holds dots _ _ hnodup htail hdots hvars' hlast
      have hst := (hm.trans hset).trans ht
      refine ⟨t, (f.name, v) :: bound, hrun, hst, by simpa using henvs, .cons ?_ ?_⟩
      · exact ⟨rfl, hholds.mono (hset.trans ht)⟩
      · exact hbound.imp fun g x h => ⟨h.1, h.2.before (hm.trans hset)⟩
    rw [bindFormals_cons]
    by_cases hellipsis : f.name.isEllipsis = true
    · rw [if_pos hellipsis]
      have hname : f.name = .ellipsis := of_decide_eq_true hellipsis
      obtain rfl : dots = left := hdots (by simp [hname])
      have := hrest [] (.refl s) rfl (.dots hname) fun hmem => absurd (hname ▸ hmem) hf
      rwa [hname] at this
    · rw [if_neg hellipsis]
      have hname : f.name ≠ .ellipsis := by simpa [Symbol.isEllipsis] using hellipsis
      obtain ⟨v, m, hv, hm, henvs, hholds⟩ := formalValue_holds (x :: rest) E.size left s
        hname (by simpa using hx hname)
      obtain ⟨t, bound, hrun, hbound⟩ := hrest dots hm henvs hholds fun hmem =>
        hdots (List.mem_cons_of_mem _ hmem)
      refine ⟨t, bound, ?_, hbound⟩
      rw [Eval.bind_apply, hv]
      exact hrun

end

/-! ## Calls -/

/-- The names of a function's formals. -/
def FunctionUnit.names (unit : FunctionUnit) : List Symbol := unit.formals.map Formal.name

/-- A store after a closure's formals were bound to arguments: there is one more environment, inside
that of the closure, with the formals and nothing else. The others are what they were, and so is the
rest but for the new promises. -/
structure Store.Framed (s t : Store) (unit : FunctionUnit) (env : EnvId) (args : ArgList) :
    Prop where
  frame : ∃ vars, t.environments = s.environments.push ⟨vars, s.chain env⟩ ∧
    List.Forall₂ (fun f x => x.1 = f.name ∧
      f.Holds (Matching.supplied unit.names args) (Matching.leftover unit.names args)
        s.environments.size s t x.2) unit.formals vars
  adds : s.Adds t

/-- Applying a closure whose formals have different names to any arguments: matching is refused for
a name that is given twice or an argument that nobody takes, and then nothing has changed; or else
the new environment binds each formal to what names and positions say. -/
theorem bindArguments_exact (unit : FunctionUnit) (env : EnvId) (call : Call) (args : ArgList)
    (s : Store) (hnodup : unit.names.Nodup) :
    ((∃ fault, Matching.Refused unit.names args fault) →
      ∃ fault, Matching.Refused unit.names args fault ∧
        bindArguments unit env call args s = .error (.error (.argumentCount call.text fault)) s) ∧
    ((¬∃ fault, Matching.Refused unit.names args fault) →
      ∃ t, bindArguments unit env call args s = .ok s.environments.size t ∧
        s.Framed t unit env args) := by
  have hnames : unit.formals.map Formal.name = unit.names := rfl
  unfold bindArguments
  rw [hnames]
  rcases Matching.assign_exact hnodup args with ⟨fault, hfault, h⟩ | ⟨hnone, given, h, hgives⟩
  · rw [h]
    exact ⟨fun _ => ⟨fault, hfault, rfl⟩, fun hnone => absurd ⟨fault, hfault⟩ hnone⟩
  · refine ⟨fun hsome => absurd hsome hnone, fun _ => ?_⟩
    have hchild : (s.addChild env).environments = s.environments.push ⟨[], s.chain env⟩ := rfl
    obtain ⟨t, vars, hrun, ht, henvs, hvars⟩ := bindFormals_holds _ [] (s.addChild env) hnodup
      hgives (fun _ => rfl) (fun x hx => absurd hx List.not_mem_nil) hchild
    have hadds : s.Adds (s.addChild env) := ⟨⟨#[], by simp [Store.addChild]⟩, rfl, rfl⟩
    refine ⟨t, ?_, ⟨vars, henvs, hvars.imp fun f x hx => ⟨hx.1, hx.2.before hadds⟩⟩,
      hadds.trans ht⟩
    rw [h]
    dsimp only
    rw [Eval.bind_apply]
    change (bindFormals s.environments.size unit.formals given _ >>= _) (s.addChild env) = _
    rw [Eval.bind_apply, hrun]
    rfl

/-- A name takes its formal behind `...`, a position the first one, an unknown name goes to `...`,
and the formal that is left has its default. -/
theorem bindArguments_exact_mixed :
    let default : CodeUnit := ⟨"y", #[], #[], 0, [], []⟩
    let unit : FunctionUnit :=
      ⟨"f", [⟨⟨"x"⟩, none⟩, ⟨⟨"y"⟩, some default⟩, ⟨.ellipsis, none⟩, ⟨⟨"z"⟩, none⟩], default⟩
    let args : ArgList := [⟨some ⟨"z"⟩, .int 1⟩, ⟨none, .int 2⟩, ⟨some ⟨"q"⟩, .int 3⟩]
    unit.names.Nodup ∧
      unit.names.map (Matching.supplied unit.names args) =
        [some (.int 2), none, none, some (.int 1)] ∧
      Matching.leftover unit.names args = [⟨some ⟨"q"⟩, .int 3⟩] ∧
      ∃ t, bindArguments unit globalEnv ⟨.symbol ⟨"f"⟩, []⟩ args .fresh = .ok 1 t ∧
        Store.fresh.Framed t unit globalEnv args := by
  intro default unit args
  have hnodup : unit.names.Nodup := by decide
  refine ⟨hnodup, rfl, rfl, ?_⟩
  refine (bindArguments_exact unit globalEnv ⟨.symbol ⟨"f"⟩, []⟩ args .fresh hnodup).2 ?_
  have hnames : ∀ f ∈ unit.names, f ≠ .ellipsis →
      ¬2 ≤ args.countP (fun a => a.name = some f) := by decide
  rintro ⟨_, ⟨f, hf, hne, hcount⟩ | ⟨_, _, hdots, _⟩⟩
  · exact hnames f hf hne hcount
  · exact hdots (by decide)

end CallByNeed
