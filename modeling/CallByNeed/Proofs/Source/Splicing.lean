import CallByNeed.Proofs.Comparison.Meanings
import CallByNeed.Proofs.Eval.Matching
import CallByNeed.Proofs.Source.Execution
import CallByNeed.Proofs.Source.Shapes

/-!
# What functions are called with

The entries of a call are its arguments in the order in which they are written, with what the caller
has bound to `...` in the place of `...` (`entries`). A closure gets them one by one as they come; a
builtin gets an array of names and one of values that are made without `...` and then spliced. Both
get an argument for each entry (`call_entries`): a closure a literal, a promise or what is bound to
`...`, and a builtin the value.
-/

namespace CallByNeed

open Meaning

/-! ## Entries -/

/-- What a function gets an argument for: an argument of the call, or one bound to `...`. -/
inductive Entry where
  | own (name : Option Symbol) (e : Expr)
  | given (a : Arg Value)

namespace Entry

/-- The name of the argument. -/
def name : Entry → Option Symbol
  | own name _ => name
  | given a => a.name

/-- Values for entries: one after the other for those of the call, and for those of `...`. -/
def place : List Entry → List Value → List Value → List Value
  | .own _ _ :: es, v :: vs, ws => v :: place es vs ws
  | .given _ :: es, vs, w :: ws => w :: place es vs ws
  | _, _, _ => []

end Entry

/-- The arguments but for `...`. -/
def ownArgs (args : List (Arg Expr)) : List (Arg Expr) := args.filter fun a => !a.value.isEllipsis

/-- The arguments with those bound to `...` in its place. -/
def entries (dots : ArgList) (args : List (Arg Expr)) : List Entry :=
  args.flatMap fun a =>
    if a.value.isEllipsis then dots.map .given else [.own a.name a.value]

/-- What the caller has bound to `...`, if it is mentioned. -/
def callerDots (env : EnvId) (args : List (Arg Expr)) : Eval ArgList :=
  if args.any fun a => a.value.isEllipsis then Eval.findDots env else pure []

/-! ## Arguments of closures -/

/-- The argument that a closure gets for an entry: what is bound to `...` as it is, a literal, or a
promise that was not there before, of the expression. -/
inductive Suspended (o : CompilerOptions) (env : EnvId) (s t : Store) : Entry → Arg Value → Prop
  | given (a : Arg Value) : Suspended o env s t (.given a) a
  | literal {name : Option Symbol} {e : Expr} (h : e.isConstant = true) :
    Suspended o env s t (.own name e) ⟨name, .ofExpr e⟩
  | reading {name : Option Symbol} {x : Symbol} {p : PromiseId} (hnew : s.promises.size ≤ p)
    (h : t.promises[p]? = some ⟨.pending (.variable x env), 0⟩) :
    Suspended o env s t (.own name (.symbol x)) ⟨name, .promise p⟩
  | unit {name : Option Symbol} {e : Expr} {u : CodeUnit} {p : PromiseId}
    (hcompiled : CompiledFrom o e u) (hnew : s.promises.size ≤ p)
    (h : t.promises[p]? = some ⟨.pending (.compiled u env), 0⟩) :
    Suspended o env s t (.own name e) ⟨name, .promise p⟩

section

variable {o : CompilerOptions} {limit : Nat} {env : EnvId} {s m t t' : Store} {x : Entry}
  {a : Arg Value} {args : List (Arg Expr)} {passed : List Passed} {dots : ArgList}

namespace Suspended

lemma name_eq (h : Suspended o env s t x a) : a.name = x.name := by
  cases h <;> rfl

lemma names_eq {es : List Entry} {args : ArgList} (h : List.Forall₂ (Suspended o env s t) es args) :
    args.map Arg.name = es.map Entry.name := by
  induction h with
  | nil => rfl
  | cons h _ ih => rw [List.map_cons, List.map_cons, h.name_eq, ih]

lemma mono (h : Suspended o env s t x a) (ht : t.Adds t') : Suspended o env s t' x a := by
  cases h with
  | given a => exact .given a
  | literal h => exact .literal h
  | reading hnew h => exact .reading hnew (ht.getElem? h)
  | unit hcompiled hnew h => exact .unit hcompiled hnew (ht.getElem? h)

lemma before (h : Suspended o env m t x a) (hm : s.Adds m) : Suspended o env s t x a := by
  cases h with
  | given a => exact .given a
  | literal h => exact .literal h
  | reading hnew h => exact .reading (Nat.le_trans hm.size_le hnew) h
  | unit hcompiled hnew h => exact .unit hcompiled (Nat.le_trans hm.size_le hnew) h

end Suspended

/-- What is bound to `...` is up to the environments. -/
lemma findDots_cases (env : EnvId) (s : Store) :
    (∃ dots, ∀ t, t.environments = s.environments → Eval.findDots env t = .ok dots t) ∨
      ∃ h, ∀ t, t.environments = s.environments → Eval.findDots env t = .error h t := by
  have hfind : ∀ t : Store, t.environments = s.environments →
      t.find? env .ellipsis = s.find? env .ellipsis := by
    intro t ht
    unfold Store.find? Store.chain Store.local?
    rw [ht]
  cases hv : s.find? env .ellipsis with
  | none =>
    refine .inr ⟨.error (.unbound Symbol.ellipsis.name), fun t ht => ?_⟩
    rw [Eval.findDots, Eval.findVariable, Eval.bind_apply, Eval.get_bind_apply, hfind t ht, hv]
    rfl
  | some v =>
    have hrun : ∀ t : Store, t.environments = s.environments → Eval.findVariable env .ellipsis t
        = .ok v t := by
      intro t ht
      rw [Eval.findVariable, Eval.get_bind_apply, hfind t ht, hv]
      rfl
    cases v with
    | dots dots => exact .inl ⟨dots, fun t ht => Flow.Eval.bind_ok (hrun t ht)⟩
    | _ => exact .inr ⟨_, fun t ht => Flow.Eval.bind_ok (hrun t ht)⟩

/-- An argument other than `...` adds one to those of a closure. -/
lemma later_own (env : EnvId) {e : Expr} {p : Passed} (h : Passes o e p) (he : e.isEllipsis = false)
    (name : Option Symbol) (s : Store) :
    ∃ a t, p.later env name s = .ok [a] t ∧ s.Adds t ∧ t.environments = s.environments ∧
      Suspended o env s t (.own name e) a := by
  have hlast : ∀ q : Promise, (s.addPromise q).promises[s.promises.size]? = some q := fun q => by
    simp [Store.addPromise]
  cases h with
  | ellipsis h => rw [he] at h; cases h
  | literal h => exact ⟨_, s, rfl, .refl s, rfl, .literal h⟩
  | reading h => exact ⟨_, _, rfl, .addPromise s _, rfl, .reading (Nat.le_refl _) (hlast _)⟩
  | unit _ _ h => exact ⟨_, _, rfl, .addPromise s _, rfl, .unit h (Nat.le_refl _) (hlast _)⟩

lemma passes_ellipsis {e : Expr} {p : Passed} (h : Passes o e p) (he : e.isEllipsis = true) :
    p = .ellipsis := by
  obtain ⟨x, rfl⟩ : ∃ x, e = .symbol x := by
    cases e with
    | symbol x => exact ⟨x, rfl⟩
    | _ => cases he
  cases h with
  | ellipsis => rfl
  | literal h => cases h
  | reading h => cases he.symm.trans h
  | unit _ hname => cases hname

/-- The lists that the arguments of a call add to those of a closure. -/
abbrev laterAll (env : EnvId) (args : List (Arg Expr)) (passed : List Passed) :
    Eval (List ArgList) :=
  (args.zip passed).mapM fun a => a.2.later env a.1.name

/-- A closure gets an argument for each entry, if what is bound to `...` is found. -/
lemma laterAll_ok (dots : ArgList) (h : List.Forall₂ (Passes o) (args.map Arg.value) passed)
    (s : Store)
    (hdots : (∃ a ∈ args, a.value.isEllipsis = true) →
      ∀ t, t.environments = s.environments → Eval.findDots env t = .ok dots t) :
    ∃ lists t, laterAll env args passed s = .ok lists t ∧ s.Adds t ∧
      t.environments = s.environments ∧
      List.Forall₂ (Suspended o env s t) (entries dots args) lists.flatten := by
  induction args generalizing passed s with
  | nil => cases h; exact ⟨[], s, rfl, .refl s, rfl, .nil⟩
  | cons a args ih =>
    cases h with
    | @cons _ p _ passed hp h =>
    obtain ⟨as, m, hlater, hm, henvs, has⟩ : ∃ as m, p.later env a.name s = .ok as m ∧ s.Adds m ∧
        m.environments = s.environments ∧
        List.Forall₂ (Suspended o env s m) (entries dots [a]) as := by
      by_cases he : a.value.isEllipsis = true
      · obtain rfl := passes_ellipsis hp he
        refine ⟨dots, s, hdots ⟨a, List.mem_cons_self, he⟩ s rfl, .refl s, rfl, ?_⟩
        simp only [entries, List.flatMap_singleton, if_pos he, List.forall₂_map_left_iff]
        exact List.forall₂_same.2 fun d _ => .given d
      · have he : a.value.isEllipsis = false := by simpa using he
        obtain ⟨x, m, hlater, hm, henvs, hx⟩ := later_own env hp he a.name s
        exact ⟨[x], m, hlater, hm, henvs, by simpa [entries, he] using hx⟩
    obtain ⟨lists, t, hrest, ht, henvs', hlists⟩ := ih h m fun ⟨b, hb, he⟩ t ht =>
      hdots ⟨b, List.mem_cons_of_mem _ hb, he⟩ t (ht.trans henvs)
    refine ⟨as :: lists, t, ?_, hm.trans ht, henvs'.trans henvs, ?_⟩
    · rw [laterAll, List.zip_cons_cons, List.mapM_cons, Flow.Eval.bind_ok hlater,
        Flow.Eval.bind_ok hrest]
      rfl
    · have hsplit : entries dots (a :: args) = entries dots [a] ++ entries dots args := by
        simp [entries]
      rw [hsplit, List.flatten_cons]
      exact List.rel_append (has.imp fun _ _ h => h.mono ht) (hlists.imp fun _ _ h => h.before hm)

/-- A closure is not applied, if what is bound to `...` is not found. -/
lemma laterAll_error (h : List.Forall₂ (Passes o) (args.map Arg.value) passed) (s : Store)
    {e : Halt} (hargs : ∃ a ∈ args, a.value.isEllipsis = true)
    (hdots : ∀ t, t.environments = s.environments → Eval.findDots env t = .error e t) :
    ∃ t, laterAll env args passed s = .error e t := by
  induction args generalizing passed s with
  | nil => obtain ⟨_, ha, -⟩ := hargs; cases ha
  | cons a args ih =>
    cases h with
    | @cons _ p _ passed hp h =>
    rw [laterAll, List.zip_cons_cons, List.mapM_cons]
    by_cases he : a.value.isEllipsis = true
    · obtain rfl := passes_ellipsis hp he
      exact ⟨s, Flow.Eval.bind_error (hdots s rfl)⟩
    · obtain ⟨x, m, hlater, -, henvs, -⟩ :=
        later_own env hp (by simpa using he) a.name s
      have hargs : ∃ b ∈ args, b.value.isEllipsis = true := by simpa [he] using hargs
      obtain ⟨t, hrest⟩ := ih h m hargs fun t ht => hdots t (ht.trans henvs)
      exact ⟨t, by rw [Flow.Eval.bind_ok hlater, Flow.Eval.bind_error hrest]⟩

end

/-! ## Arguments of builtins -/

/-- Values of the arguments, with `NULL` in the place of `...`. -/
def withNull : List (Arg Expr) → List Value → List Value
  | [], _ => []
  | a :: rest, vs =>
    if a.value.isEllipsis then .null :: withNull rest vs
    else
      match vs with
      | v :: vs => v :: withNull rest vs
      | [] => []

/-- What a builtin gets for the entries of a call, given what is bound to `...` and the values of
the other arguments. -/
def handed (H : Host) (args : List (Arg Expr)) (dots : ArgList) (own : List Value) :
    Eval (List (Option Symbol) × List Value) := do
  let given ← dots.mapM fun d => H.force d.value
  return ((entries dots args).map Entry.name, Entry.place (entries dots args) own given)

section

variable {args : List (Arg Expr)} {dots : ArgList} {own given : List Value}

lemma Entry.place_given (es : List Entry) (own : List Value) (h : given.length = dots.length) :
    Entry.place (dots.map .given ++ es) own given = given ++ Entry.place es own [] := by
  induction dots generalizing given with
  | nil =>
    obtain rfl := List.length_eq_zero_iff.1 h
    rfl
  | cons d dots ih =>
    obtain ⟨v, given, rfl⟩ := List.exists_cons_of_length_eq_add_one h
    simpa [Entry.place] using ih (by simpa using h)

lemma exists_cons_of_own {a : Arg Expr} (ha : a.value.isEllipsis = false)
    (h : own.length = (ownArgs (a :: args)).length) :
    ∃ v rest, own = v :: rest ∧ rest.length = (ownArgs args).length := by
  rw [ownArgs, List.filter_cons_of_pos (by simp [ha])] at h
  obtain ⟨v, rest, rfl⟩ := List.exists_cons_of_length_eq_add_one h
  exact ⟨v, rest, rfl, Nat.succ_inj.1 h⟩

/-- Without `...` there is nothing to splice. -/
lemma entries_plain (h : ∀ a ∈ args, a.value.isEllipsis = false) (dots : ArgList) :
    (entries dots args).map Entry.name = args.map Arg.name ∧
      ∀ own given, own.length = (ownArgs args).length →
        Entry.place (entries dots args) own given = withNull args own := by
  induction args with
  | nil => exact ⟨rfl, fun own given _ => by cases own <;> cases given <;> rfl⟩
  | cons a args ih =>
    obtain ⟨ha, h⟩ := List.forall_mem_cons.1 h
    obtain ⟨hnames, hvalues⟩ := ih h
    have hentries : entries dots (a :: args) = .own a.name a.value :: entries dots args := by
      simp [entries, ha]
    rw [hentries]
    refine ⟨by simp [hnames, Entry.name], fun own given hown => ?_⟩
    obtain ⟨v, rest, rfl, hrest⟩ := exists_cons_of_own ha hown
    simp [Entry.place, withNull, ha, hvalues rest given hrest]

/-- Splicing puts the entries of `...` in its place. -/
lemma splicedAt_entries {position : Nat}
    (hposition : (args.findIdx? fun a => a.value.isEllipsis) = some position)
    (hcount : (args.countP fun a => a.value.isEllipsis) ≤ 1) (dots : ArgList) :
    Flow.splicedAt (args.map Arg.name) position (dots.map Arg.name)
        = (entries dots args).map Entry.name ∧
      ∀ own given, own.length = (ownArgs args).length → given.length = dots.length →
        Flow.splicedAt (withNull args own) position given
          = Entry.place (entries dots args) own given := by
  induction args generalizing position with
  | nil => cases hposition
  | cons a args ih =>
    by_cases ha : a.value.isEllipsis = true
    · obtain rfl : 0 = position := by simpa [List.findIdx?_cons, ha] using hposition
      have hnone : ∀ b ∈ args, b.value.isEllipsis = false := by
        have hzero : (args.countP fun a => a.value.isEllipsis) = 0 := by
          simpa [List.countP_cons, ha] using hcount
        exact fun b hb => by simpa using List.countP_eq_zero.1 hzero b hb
      obtain ⟨hnames, hvalues⟩ := entries_plain hnone dots
      have hentries : entries dots (a :: args) = dots.map .given ++ entries dots args := by
        simp [entries, ha]
      rw [hentries]
      constructor
      · simp [Flow.splicedAt, hnames, Entry.name]
      · intro own given hown hgiven
        have hown : own.length = (ownArgs args).length := by simpa [ownArgs, ha] using hown
        rw [Entry.place_given _ _ hgiven, hvalues own [] hown]
        simp [Flow.splicedAt, withNull, ha]
    · have ha : a.value.isEllipsis = false := by simpa using ha
      obtain ⟨position, hrest, rfl⟩ : ∃ k, (args.findIdx? fun a => a.value.isEllipsis) = some k ∧
          k + 1 = position := by
        simpa [List.findIdx?_cons, ha] using hposition
      obtain ⟨hnames, hvalues⟩ := ih hrest (by simpa [List.countP_cons, ha] using hcount)
      have hentries : entries dots (a :: args) = .own a.name a.value :: entries dots args := by
        simp [entries, ha]
      rw [hentries]
      constructor
      · simpa [Flow.splicedAt, Entry.name] using hnames
      · intro own given hown hgiven
        obtain ⟨v, rest, rfl, hrest⟩ := exists_cons_of_own ha hown
        have htail := hvalues rest given hrest hgiven
        simpa [Flow.splicedAt, withNull, ha, Entry.place] using htail

/-- A builtin gets a name and a value for each entry. -/
lemma gather_eq (H : Host) (env : EnvId) {c : Call} (hcount : c.ellipsisCount ≤ 1)
    (values : Eval (List Value))
    (hlength : ∀ s own t, values s = .ok own t → own.length = (ownArgs c.args).length) :
    gather H env c (do let own ← values; return withNull c.args own) = (do
      let dots ← callerDots env c.args
      let own ← values
      handed H c.args dots own) := by
  funext s
  cases hposition : c.ellipsisIndex? with
  | none =>
    have hnone : ∀ a ∈ c.args, a.value.isEllipsis = false := by
      simpa [Call.ellipsisIndex?] using hposition
    obtain ⟨hnames, hplace⟩ := entries_plain hnone []
    have hdots : callerDots env c.args = pure [] := by
      rw [callerDots, if_neg (by simpa using hnone)]
    rw [gather, hposition, hdots, pure_bind]
    dsimp only
    rw [bind_assoc, Eval.bind_apply, Eval.bind_apply]
    cases hown : values s with
    | error h t => rfl
    | ok own t =>
      have hlen := hlength s own t hown
      dsimp only
      rw [handed, hnames, List.mapM_nil, pure_bind, pure_bind, hplace own [] hlen]
  | some position =>
    have hsome : (c.args.any fun a => a.value.isEllipsis) = true := by
      by_contra hnot
      have hnone : c.ellipsisIndex? = none := List.findIdx?_eq_none_iff.2 (by simpa using hnot)
      rw [hnone] at hposition
      cases hposition
    have hdots : callerDots env c.args = Eval.findDots env := by rw [callerDots, if_pos hsome]
    rw [gather, hposition, hdots]
    dsimp only
    rw [Eval.bind_apply, Eval.bind_apply]
    cases Eval.findDots env s with
    | error h t => rfl
    | ok dots t =>
      dsimp only
      rw [bind_assoc, Eval.bind_apply, Eval.bind_apply]
      cases hown : values t with
      | error h m => rfl
      | ok own m =>
        have hlen := hlength t own m hown
        dsimp only
        rw [handed, pure_bind, Eval.bind_apply, Eval.bind_apply]
        cases hgiven : dots.mapM (fun d => H.force d.value) m with
        | error h k => rfl
        | ok given k =>
          obtain ⟨hnames, hplace⟩ := splicedAt_entries hposition hcount dots
          dsimp only
          rw [hnames, hplace own given hlen (Eval.length_mapM hgiven)]

end

/-! ## Evaluated arguments -/

/-- How a compiled call evaluates an argument, if the function turns out to be a builtin. -/
inductive Evaluated (o : CompilerOptions) (limit : Nat) (env : EnvId) :
    Expr → (Host → Eval Value) → Prop
  | literal {e : Expr} (h : e.isConstant = true) : Evaluated o limit env e fun _ => pure (.ofExpr e)
  | reading (x : Symbol) : Evaluated o limit env (.symbol x) fun H => lookup H env x
  | unit {e : Expr} {u : CodeUnit} (h : CompiledFrom o e u) :
    Evaluated o limit env e fun H => H.executeNested limit u env

section

variable {o : CompilerOptions} {limit : Nat} {env : EnvId} {args : List (Arg Expr)}
  {passed : List Passed} {a : Arg Expr} {H : Host} {E : Host → Eval Value}
  {Es : List (Host → Eval Value)} {rest : Eval (List Value)}

lemma withNull_ellipsis (ha : a.value.isEllipsis = true)
    (hrest : rest = do let own ← Es.mapM fun E => E H; return withNull args own) :
    (do let vs ← rest; return Value.null :: vs) = (do
      let own ← Es.mapM fun E => E H
      return withNull (a :: args) own) := by
  simp [hrest, withNull, ha]

lemma withNull_own (ha : a.value.isEllipsis = false)
    (hrest : rest = do let own ← Es.mapM fun E => E H; return withNull args own) :
    (do let v ← E H; let vs ← rest; return v :: vs) = (do
      let own ← (E :: Es).mapM fun E => E H
      return withNull (a :: args) own) := by
  simp [hrest, withNull, ha]

lemma evaluated_now (limit : Nat) (env : EnvId) {e : Expr} {p : Passed} (h : Passes o e p)
    (he : e.isEllipsis = false) : Evaluated o limit env e fun H => p.now limit H env := by
  cases h with
  | ellipsis h => rw [he] at h; cases h
  | literal h => exact .literal h
  | reading => exact .reading _
  | unit _ _ h => exact .unit h

/-- The arguments of a call that are evaluated once the function is known. -/
lemma mapM_now (limit : Nat) (env : EnvId)
    (h : List.Forall₂ (Passes o) (args.map Arg.value) passed) :
    ∃ Es, List.Forall₂ (fun a E => Evaluated o limit env a.value E) (ownArgs args) Es ∧
      ∀ H, passed.mapM (Passed.now limit H env) = (do
        let own ← Es.mapM fun E => E H
        return withNull args own) := by
  induction args generalizing passed with
  | nil => cases h; exact ⟨[], .nil, fun H => rfl⟩
  | cons a args ih =>
    cases h with
    | @cons _ p _ passed hp h =>
    obtain ⟨Es, hEs, heval⟩ := ih h
    by_cases ha : a.value.isEllipsis = true
    · obtain rfl := passes_ellipsis hp ha
      refine ⟨Es, by simpa [ownArgs, ha] using hEs, fun H => ?_⟩
      rw [← withNull_ellipsis ha (heval H), List.mapM_cons]
      rfl
    · have ha : a.value.isEllipsis = false := by simpa using ha
      have hown : ownArgs (a :: args) = a :: ownArgs args := by simp [ownArgs, ha]
      refine ⟨(fun H => p.now limit H env) :: Es, ?_, fun H => ?_⟩
      · rw [hown]
        exact .cons (evaluated_now limit env hp ha) hEs
      · rw [← withNull_own ha (heval H), List.mapM_cons]

/-- The arguments of a builtin that is called directly. -/
lemma means_own : ∀ {args : List (Arg Expr)} {A : Host → Eval (List Value)},
    MeansNow o limit env args A →
    ∃ Es, List.Forall₂ (fun a E => Means o limit env a.value E) (ownArgs args) Es ∧
      ∀ H, A H = (do
        let own ← Es.mapM fun E => E H
        return withNull args own)
  | [], _, .nil => ⟨[], .nil, fun H => rfl⟩
  | a :: args, _, .ellipsis ha hrest => by
    obtain ⟨Es, hEs, heval⟩ := means_own hrest
    exact ⟨Es, by simpa [ownArgs, ha] using hEs, fun H => withNull_ellipsis ha (heval H)⟩
  | a :: args, _, .value ha h hrest => by
    obtain ⟨Es, hEs, heval⟩ := means_own hrest
    have hown : ownArgs (a :: args) = a :: ownArgs args := by simp [ownArgs, ha]
    exact ⟨_ :: Es, by rw [hown]; exact .cons h hEs, fun H => withNull_own ha (heval H)⟩

end

/-! ## Calls -/

/-- How a compiled call finds its function: by name, or as the value of an expression. -/
inductive Call.Finds (o : CompilerOptions) (limit : Nat) (env : EnvId) (c : Call) :
    (Host → Eval Value) → Prop
  | named {x : Symbol} (hcallee : c.callee = .symbol x) :
    Finds o limit env c fun H => H.findFunction env x
  | computed {C : Host → Eval Value} (hcallee : c.callee.symbol? = none)
    (h : Means o limit env c.callee C) :
    Finds o limit env c fun H => do
      let v ← C H
      callable H c v

/-- A builtin is invoked with the entries of a call, given what is bound to `...` and the values of
the other arguments. -/
def Call.invoke (H : Host) (c : Call) (b : Builtin) (dots : ArgList) (own : List Value) :
    Eval Value := do
  let (names, values) ← handed H c.args dots own
  Flow.ofResult (b.invoke c names values)

/-- A call goes on with the function it has found by handing an argument for each entry on: to a
closure what stands for it, without evaluating anything, and to a builtin the values, those of the
arguments bound to `...` forced last. -/
structure Call.HandsOver (o : CompilerOptions) (limit : Nat) (env : EnvId) (c : Call)
    (A : Host → Value → Eval Value) : Prop where
  closure : ∀ H unit closureEnv s,
    (∀ dots, callerDots env c.args s = .ok dots s → ∃ args t,
      A H (.closure unit closureEnv) s = applyClosure limit H unit closureEnv c args t ∧
        s.Adds t ∧ t.environments = s.environments ∧
        List.Forall₂ (Suspended o env s t) (entries dots c.args) args) ∧
    ∀ h, callerDots env c.args s = .error h s → ∃ t, A H (.closure unit closureEnv) s = .error h t
  builtin : ∃ Es, List.Forall₂ (fun a E => Evaluated o limit env a.value E) (ownArgs c.args) Es ∧
    ∀ H b, A H (.builtin b) = (do
      let dots ← callerDots env c.args
      let own ← Es.mapM fun E => E H
      c.invoke H b dots own)

section

variable {o : CompilerOptions} {limit : Nat} {env : EnvId} {c : Call} {passed : List Passed}

/-- A function that is found is handed the entries. -/
lemma handsOver_apply (hcount : c.ellipsisCount ≤ 1)
    (h : List.Forall₂ (Passes o) (c.args.map Arg.value) passed) :
    c.HandsOver o limit env fun H => Meaning.apply limit H env c passed := by
  refine ⟨fun H unit closureEnv s => ?_, ?_⟩
  · have hsome : (c.args.any fun a => a.value.isEllipsis) = true ↔
        ∃ a ∈ c.args, a.value.isEllipsis = true := List.any_eq_true
    have happly : ∀ lists t, laterAll env c.args passed s = .ok lists t →
        Meaning.apply limit H env c passed (.closure unit closureEnv) s
          = applyClosure limit H unit closureEnv c lists.flatten t :=
      fun lists t hlists => Flow.Eval.bind_ok hlists
    constructor
    · intro dots hdots
      obtain ⟨lists, t, hlists, ht, henvs, hentries⟩ :=
        laterAll_ok dots h s fun hargs t ht => by
          rw [callerDots, if_pos (hsome.2 hargs)] at hdots
          rcases findDots_cases env s with ⟨dots', h'⟩ | ⟨_, h'⟩
          · cases hdots.symm.trans (h' s rfl)
            exact h' t ht
          · cases hdots.symm.trans (h' s rfl)
      exact ⟨lists.flatten, t, happly lists t hlists, ht, henvs, hentries⟩
    · intro e hdots
      by_cases hargs : ∃ a ∈ c.args, a.value.isEllipsis = true
      · rw [callerDots, if_pos (hsome.2 hargs)] at hdots
        obtain ⟨t, hlists⟩ := laterAll_error h s hargs fun t ht => by
          rcases findDots_cases env s with ⟨_, h'⟩ | ⟨e', h'⟩
          · cases hdots.symm.trans (h' s rfl)
          · cases hdots.symm.trans (h' s rfl)
            exact h' t ht
        exact ⟨t, Flow.Eval.bind_error hlists⟩
      · rw [callerDots, if_neg (fun h => hargs (hsome.1 h))] at hdots
        cases hdots
  · obtain ⟨Es, hEs, heval⟩ := mapM_now limit env h
    refine ⟨Es, hEs, fun H b => ?_⟩
    have hgather := gather_eq H env hcount (Es.mapM fun E => E H)
      fun s own t hown => (Eval.length_mapM hown).trans hEs.length_eq.symm
    show Meaning.builtin H env c (passed.mapM (Passed.now limit H env)) b = _
    rw [Meaning.builtin, heval, hgather]
    simp only [bind_assoc, Call.invoke]

/-- A builtin that is called directly gets the values of the entries. What is bound to `...` is read
once the other arguments have their values. -/
lemma builtin_eq (hcount : c.ellipsisCount ≤ 1) {H : Host} {Es : List (Host → Eval Value)}
    (hlength : Es.length = (ownArgs c.args).length) {values : Eval (List Value)}
    (hvalues : values = do
      let own ← Es.mapM fun E => E H
      return withNull c.args own) (b : Builtin) :
    (do
      let vs ← values
      Meaning.builtin H env c (pure vs) b) = (do
      let own ← Es.mapM fun E => E H
      let dots ← callerDots env c.args
      c.invoke H b dots own) := by
  funext s
  rw [hvalues, bind_assoc, Eval.bind_apply, Eval.bind_apply]
  cases hown : Es.mapM (fun E => E H) s with
  | error h t => rfl
  | ok own t =>
    have hgather := gather_eq H env hcount (pure own) fun s own' t h => by
      cases h
      exact (Eval.length_mapM hown).trans hlength
    simp only [pure_bind] at hgather
    dsimp only
    rw [pure_bind, Meaning.builtin, hgather, bind_assoc]
    rfl

end

/-- **Every function is called with the entries of the call.** Executing a unit does what its
expression means, on every host; and a call for which no control flow is inlined, wherever in
compiled code it stands, means that its function is found and handed the entries, or that the
builtin which its name stands for gets them. -/
theorem call_entries (o : CompilerOptions) (limit : Nat) (env : EnvId) :
    (∀ e u, CompiledFrom o e u → ∃ M, Means o limit env e M ∧ ∀ H,
      Follows (fun n => Machine.run ⟨limit, false⟩ H u env n (.start u env)) fun _ => M H) ∧
    ∀ (c : Call) M, ¬ o.Inlines c.callee c.args → Means o limit env (.call c.callee c.args) M →
      (∃ F A, c.Finds o limit env F ∧ c.HandsOver o limit env A ∧
        ∀ H, M H = (do
          let f ← F H
          A H f)) ∨
      ∃ x b Es, c.callee = .symbol x ∧ Builtin.ofName? x.name = some b ∧
        List.Forall₂ (fun a E => Means o limit env a.value E) (ownArgs c.args) Es ∧
        ∀ H, M H = (do
          let own ← Es.mapM fun E => E H
          let dots ← callerDots env c.args
          c.invoke H b dots own) := by
  refine ⟨fun e u h => h.executes limit env, fun ⟨callee, args⟩ M hplain hM => ?_⟩
  cases hM with
  | literal h => cases h
  | whether ho hs => exact absurd ⟨ho, .whether hs _ _⟩ hplain
  | choice ho hs => exact absurd ⟨ho, .choice hs _ _ _⟩ hplain
  | loop ho hs hname => exact absurd ⟨ho, .loop hs hname _ _⟩ hplain
  | block ho hs hargs => exact absurd ⟨ho, .block hs hargs⟩ hplain
  | assignment ho hs hname => exact absurd ⟨ho, .assignment hs hname _⟩ hplain
  | named _ _ _ hdots h => exact .inl ⟨_, _, .named rfl, handsOver_apply hdots h, fun H => rfl⟩
  | computed hcallee hdots hc h =>
    refine .inl ⟨_, _, .computed hcallee hc, handsOver_apply hdots h, fun H => ?_⟩
    exact (bind_assoc _ _ _).symm
  | @primitive s b _ A _ hs hb hdots h =>
    obtain ⟨Es, hEs, heval⟩ := means_own h
    exact .inr ⟨s, b, Es, rfl, hb, hEs, fun H =>
      builtin_eq (c := ⟨.symbol s, args⟩) hdots hEs.length_eq.symm (heval H) b⟩

/-- With two arguments bound to `...`, one of them named, a closure gets them between its own. -/
theorem call_entries_between :
    let c : Call :=
      ⟨.symbol ⟨"f"⟩, [⟨none, .int 1⟩, ⟨none, .symbol .ellipsis⟩, ⟨some ⟨"n"⟩, .null⟩]⟩
    let dots : ArgList := [⟨some ⟨"a"⟩, .int 2⟩, ⟨none, .int 3⟩]
    let s := Store.fresh.set globalEnv .ellipsis (.dots dots)
    ∃ (M F : Host → Eval Value) (A : Host → Value → Eval Value),
      Means {} 1000 globalEnv (.call c.callee c.args) M ∧ c.Finds {} 1000 globalEnv F ∧
      (∀ H, M H = F H >>= A H) ∧ ∀ H unit env, ∃ args t,
        A H (.closure unit env) s = applyClosure 1000 H unit env c args t ∧
        args.map Arg.name = [none, some ⟨"a"⟩, none, some ⟨"n"⟩] := by
  intro c dots s
  have hplain : ¬ CompilerOptions.Inlines {} c.callee c.args := by
    rintro ⟨-, h⟩
    exact absurd (h.positional ⟨some ⟨"n"⟩, .null⟩ (by simp [c])) (by simp)
  have hM : ∃ M, Means {} 1000 globalEnv (.call c.callee c.args) M :=
    ⟨_, .named hplain rfl rfl (by decide)
      (.cons (.literal rfl) (.cons (.ellipsis rfl) (.cons (.literal rfl) .nil)))⟩
  obtain ⟨M, hM⟩ := hM
  rcases (call_entries {} 1000 globalEnv).2 c M hplain hM with
    ⟨F, A, hF, hA, h⟩ | ⟨x, b, _, hx, hb, _⟩
  · refine ⟨M, F, A, hM, hF, h, fun H unit env => ?_⟩
    obtain ⟨args, t, happly, -, -, hargs⟩ := (hA.closure H unit env s).1 dots rfl
    exact ⟨args, t, happly, Suspended.names_eq hargs⟩
  · cases hx
    cases hb

end CallByNeed
