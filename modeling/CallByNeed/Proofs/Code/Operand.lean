import CallByNeed.Proofs.Code.Pieces

/-!
# The code of operands

The code of an operand leaves a word for its value on the stack, and meets the nested bodies and
call sites of the operand in order: `Emits.term`. One induction over operands, together with the
arguments of closures and builtins, puts the pieces together.
-/

namespace CallByNeed

open CallByNeed.Flow (Term Thunk Procedure NodeId CallSite Operands Action)

/-! ## What operands meet -/

namespace Flow.Term

mutual

/-- The nested bodies and call sites of an operand, in the order in which its code meets them. -/
def visits : Term → List Visit
  | .int _ | .literal _ | .temp _ | .local .. | .env _ | .ellipsis => []
  | .element vector index => vector.visits ++ index.visits
  | .length t | .increment t => t.visits
  | .atLeast left right => left.visits ++ right.visits
  | .closure node p => [.closure node p]
  | .thunk d => Emits.lateVisits d
  | .primitive _ ⟨site, args, _⟩ => .site site :: visitsOf args
  | .call (.name _) ⟨site, args, _⟩ =>
    .site site :: .site site :: (visitsOf args ++ .site site :: visitsOf args)
  | .call (.computed t) ⟨site, args, _⟩ =>
    t.visits ++ .site site ::
      .site site :: .site site :: (visitsOf args ++ .site site :: visitsOf args)

/-- The nested bodies and call sites of several operands. -/
def visitsOf : List Term → List Visit
  | [] => []
  | t :: ts => t.visits ++ visitsOf ts

end

end Flow.Term

namespace Emits

variable {α β : Type} {nested : Nested} {anon : List Mark} {vs ws : List Visit}
  {S : α → Nat → Nat → Assembly → CodeUnit → Prop}

/-- What follows a check may rely on it. -/
lemma checked {o : Operands Term} {c : Assemble α} (h : Passable o → Emits nested anon vs c S) :
    Emits nested anon vs (Assemble.checkOperands o >>= fun _ => c) S := by
  intro a x a' hc ha hm
  rw [Assemble.bind_apply] at hc
  unfold Assemble.checkOperands at hc
  by_cases hnames : o.names.length ≠ o.args.length
  · rw [if_pos hnames] at hc
    cases hc
  · rw [if_neg hnames] at hc
    by_cases hmany : o.ellipsisCount > 1
    · rw [if_pos hmany] at hc
      cases hc
    · rw [if_neg hmany] at hc
      by_cases hcount : o.args.length ≥ maxConstants
      · rw [if_pos hcount] at hc
        cases hc
      · rw [if_neg hcount] at hc
        exact h ⟨not_not.1 hnames, Nat.lt_of_not_le hcount⟩ a x a' hc ha hm

/-- Code that leaves a value leaves a word of that kind. -/
lemma CarriesWord.value {A : Site → Action Value} {p q : Nat} {z : Assembly} {u : CodeUnit}
    (h : Carries [] A (fun _ v => [.value v]) p q z u) : CarriesWord A .value p q z u := by
  intro X hX
  refine (h X hX).mono ?_
  rintro v r ws ⟨rfl, rfl⟩
  exact ⟨rfl, _, rfl, .value v⟩

/-- The arguments of a builtin are filled in from a position on. -/
def FillsValues (args : List Term) (position p q : Nat) (z : Assembly) (u : CodeUnit) : Prop :=
  ∀ X : Site, X.On z u → ∀ done : List Value, done.length = position →
    position + args.length ≤ maxConstants →
      Tracks X p [.values (done ++ List.replicate args.length Value.null).toArray] (X.values args)
        (fun vs r ws => r = q ∧ ws = [.values (done ++ vs).toArray] ∧ vs.length = args.length)

/-- Filling in from the start on. -/
lemma FillsValues.carries {args : List Term} {p q : Nat} {z : Assembly} {u : CodeUnit}
    (h : FillsValues args 0 p q z u) (hcount : args.length < maxConstants) :
    CarriesValues args p q z u := by
  intro X hX
  refine (h X hX [] rfl (by omega)).mono ?_
  rintro vs r ws ⟨rfl, rfl, hlen⟩
  exact ⟨rfl, rfl, hlen⟩

/-- One value is filled in, and then the others. -/
lemma fillValue {t : Term} {ts : List Term} {position : Nat} {c d : Assemble Unit}
    (ht : t.isEllipsis = false)
    (hc : Emits nested anon vs c (fun _ => Carries [] (fun X => X.term t) fun _ v => [.value v]))
    (hd : Emits nested anon ws d (fun _ => FillsValues ts (position + 1))) :
    Emits nested anon (vs ++ ws) (do c; Assemble.emit .valueAt [position]; d)
      (fun _ => FillsValues (t :: ts) position) := by
  refine ((hc.seq ((indexed .valueAt rfl rfl).seq hd)).mono ?_).meets (by simp)
  rintro _ p q z u _ ⟨r₁, hc, r₂, ⟨hr₂, h⟩, hd⟩ X hX done hdone hmax
  rw [List.length_cons] at hmax
  have hact : X.values (t :: ts) = (do
      let v ← X.term t
      let rest ← X.values ts
      return v :: rest) := by
    cases t <;> first | rfl | cases ht
  refine Tracks.congr (((hc X hX).under _).andThen fun v => ?_) hact
  have hset : (done ++ List.replicate (t :: ts).length Value.null).set position v
      = (done ++ [v]) ++ List.replicate ts.length .null := by
    rw [List.length_cons, List.replicate_succ, List.set_append_right _ _ (by omega), hdone,
      Nat.sub_self, List.set_cons_zero]
    simp
  have hlt : position < (done ++ List.replicate (t :: ts).length Value.null).length := by
    rw [List.length_append, List.length_replicate, List.length_cons]
    omega
  have hrest := hd X hX (done ++ [v]) (by simp [hdone]) (by omega)
  rw [← hset] at hrest
  obtain rfl := hX.unit
  refine (Site.Does.valueAt (h (by omega)) v hlt).moves.first ?_
  rw [← hr₂]
  refine hrest.bind ?_
  rintro vs r ws ⟨rfl, rfl, hlen⟩
  refine Tracks.done ⟨rfl, ?_, by simp [hlen]⟩
  simp

/-- The place of `...` is left alone. -/
lemma skipValue {ts : List Term} {position : Nat} {d : Assemble Unit}
    (hd : Emits nested anon ws d (fun _ => FillsValues ts (position + 1))) :
    Emits nested anon ws d (fun _ => FillsValues (.ellipsis :: ts) position) := by
  refine hd.mono ?_
  intro _ p q z u _ h X hX done hdone hmax
  rw [List.length_cons] at hmax
  have hact : X.values (.ellipsis :: ts) = (do
      let rest ← X.values ts
      return .null :: rest) := pure_bind _ _
  have hrest := h X hX (done ++ [.null]) (by simp [hdone]) (by omega)
  rw [show (done ++ [Value.null]) ++ List.replicate ts.length .null
    = done ++ List.replicate (Term.ellipsis :: ts).length .null by
      simp [List.replicate_succ]] at hrest
  refine Tracks.congr (hrest.bind ?_) hact
  rintro vs r ws ⟨rfl, rfl, hlen⟩
  refine Tracks.done ⟨rfl, ?_, by simp [hlen]⟩
  simp

/-- One argument is appended, and then the others. -/
lemma appendArgument {t : Term} {ts : List Term} {name : Option Symbol}
    {names : List (Option Symbol)} {c d : Assemble Unit} {A : Site → Action Value}
    (hact : ∀ X : Site, X.arguments (t :: ts) (name :: names) = (do
      let v ← A X
      let rest ← X.arguments ts names
      return Arg.mk name v :: rest))
    (hc : Emits nested anon vs c (fun _ => Carries [] A fun _ v => [.value v]))
    (hd : Emits nested anon ws d (fun _ => CarriesArguments ts names)) :
    Emits nested anon (vs ++ ws) (do c; Assemble.addArgument name; d)
      (fun _ => CarriesArguments (t :: ts) (name :: names)) := by
  refine ((hc.seq ((addArgument name).seq hd)).mono ?_).meets (by simp)
  rintro _ p q z u _ ⟨r₁, hc, r₂, hadd, hd⟩ as X hX
  refine Tracks.congr (((hc X hX).under _).andThen fun v => ?_) (hact X)
  refine (hadd v as X hX).first ((hd _ X hX).andThen fun rest => ?_)
  exact Tracks.done ⟨rfl, by simp⟩

/-- The caller's `...` is appended, and then the others. -/
lemma appendDots {ts : List Term} {name : Option Symbol} {names : List (Option Symbol)}
    {d : Assemble Unit} (hd : Emits nested anon ws d (fun _ => CarriesArguments ts names)) :
    Emits nested anon ws
      (do Assemble.emit .loadEllipsis []; Assemble.emit .argAddAll []; d)
      (fun _ => CarriesArguments (.ellipsis :: ts) (name :: names)) := by
  have hgroup : (do Assemble.emit .loadEllipsis []; Assemble.emit .argAddAll []; d :
      Assemble Unit) = (do
        Assemble.emit .loadEllipsis []
        Assemble.emit .argAddAll []) >>= fun _ => d := (bind_assoc _ _ _).symm
  rw [hgroup]
  refine (addDots.seq hd).mono ?_
  rintro _ p q z u _ ⟨r, hdots, hd⟩ as X hX
  have hact : X.arguments (.ellipsis :: ts) (name :: names) = (do
      let first ← Action.lift (Eval.findDots X.env)
      let rest ← X.arguments ts names
      return first ++ rest) := rfl
  refine Tracks.congr ((hdots as X hX).andThen fun dots => ?_) hact
  refine (hd _ X hX).andThen fun rest => Tracks.done ⟨rfl, by simp⟩

mutual

/-- The code of an operand. -/
theorem term (nested : Nested) (anon : List Mark) : ∀ t : Term,
    Emits nested anon t.visits (Assemble.term nested t) (CarriesWord fun X => X.term t)
  | .int n => by
    refine ((pushInt n).seq (nothing SlotKind.int)).mono ?_
    rintro _ p q z u _ ⟨r, h, rfl, rfl⟩ X hX
    exact (h X hX).first (Tracks.done ⟨rfl, _, rfl, .int n⟩)
  | .literal e => by
    refine ((pushLiteral e).seq (nothing SlotKind.value)).mono ?_
    rintro _ p q z u _ ⟨r, h, rfl, rfl⟩ X hX
    exact (h X hX).first (Tracks.done ⟨rfl, _, rfl, .value _⟩)
  | .temp id => loadSlot (.temp id) _
  | .local id name => loadSlot (.local id) _
  | .env name => asWord (loadVariable name)
  | .element vector index => by
    refine (((boxed (term nested anon vector)).seq ((unboxed (term nested anon index)).seq
      ((plain .elementAt rfl rfl).seq (nothing SlotKind.value)))).mono ?_).meets
        (by simp [Flow.Term.visits])
    rintro _ p q z u _ ⟨r₁, hvector, r₂, hindex, r₃, ⟨hr₃, h⟩, rfl, rfl⟩
    refine CarriesWord.value fun X hX => ?_
    have hact : X.term (.element vector index) = (do
        let v ← X.term vector
        let k ← unbox (fun X => X.term index) X
        Action.lift (Eval.ofExcept (v.elementAt k))) := by
      simp only [Flow.Scene.term, unbox, bind_assoc]
    refine Tracks.congr ((hvector X hX).andThen fun v => ?_) hact
    refine ((hindex X hX).under [.value v]).andThen fun k => ?_
    obtain rfl := hX.unit
    rw [hr₃]
    exact (Site.Does.elementAt h v k).tracks
  | .length vector => by
    refine (((boxed (term nested anon vector)).seq ((plain .length rfl rfl).seq
      (nothing SlotKind.int))).mono ?_).meets (by simp [Flow.Term.visits])
    rintro _ p q z u _ ⟨r₁, hvector, r₂, ⟨hr₂, h⟩, rfl, rfl⟩ X hX
    refine (hvector X hX).andThen fun v => ?_
    obtain rfl := hX.unit
    refine (Site.Does.length h v).tracks.andThen fun k => ?_
    rw [← hr₂]
    exact Tracks.done ⟨rfl, _, rfl, .int k⟩
  | .increment counter => by
    refine (((unboxed (term nested anon counter)).seq ((pushInt 1).seq ((plain .addInt rfl rfl).seq
      (nothing SlotKind.int)))).mono ?_).meets (by simp [Flow.Term.visits])
    rintro _ p q z u _ ⟨r₁, hcounter, r₂, hone, r₃, ⟨hr₃, h⟩, rfl, rfl⟩ X hX
    have hact : X.term (.increment counter) = (do
        let n ← unbox (fun X => X.term counter) X
        let m ← Action.lift (Flow.successor n)
        return .int m) := by
      simp only [Flow.Scene.term, unbox, bind_assoc]
    refine Tracks.congr ((hcounter X hX).andThen fun n => ?_) hact
    refine ((hone X hX).under [.int n]).first ?_
    obtain rfl := hX.unit
    refine (Site.Does.addOne h n).tracks.andThen fun m => ?_
    rw [← hr₃]
    exact Tracks.done ⟨rfl, _, rfl, .int m⟩
  | .atLeast left right => by
    refine (((boxed (term nested anon left)).seq ((boxed (term nested anon right)).seq
      ((plain .greaterEqual rfl rfl).seq (nothing SlotKind.value)))).mono ?_).meets
        (by simp [Flow.Term.visits])
    rintro _ p q z u _ ⟨r₁, hleft, r₂, hright, r₃, ⟨hr₃, h⟩, rfl, rfl⟩ X hX
    refine (hleft X hX).andThen fun a => ((hright X hX).under [.value a]).andThen fun b => ?_
    obtain rfl := hX.unit
    refine (Site.Does.greaterEqual h a b).tracks.andThen fun t => ?_
    rw [← hr₃]
    exact Tracks.done ⟨rfl, _, rfl, .value _⟩
  | .closure node procedure => by
    refine ((closureIndex node procedure).bind fun i => loadEnvironment.seq
      ((indexed .makeClosure rfl rfl).seq (nothing SlotKind.value))).mono ?_
    rintro _ p q z u _ ⟨i, _, ⟨rfl, hi, hid, f, hf⟩, r₁, henv, r₂, ⟨hr₂, h⟩, rfl, rfl⟩ X hX
    have htable := hX.closure _ _ _ hid hf
    have hact : X.term (.closure node procedure) = pure (.closure f X.env) := by
      simp only [Flow.Scene.term, htable]
    refine Tracks.congr ((henv X hX).first ?_) hact
    obtain rfl := hX.unit
    refine (Site.Does.makeClosure (h hi) hf X.env).moves.first ?_
    rw [← hr₂]
    exact Tracks.done ⟨rfl, _, rfl, .value _⟩
  | .thunk deferred => asWord (evaluateThunk deferred)
  | .ellipsis => throw _
  | .primitive name ⟨site, args, names⟩ => by
    refine checked fun ho => ?_
    cases hb : Builtin.ofName? name.name with
    | none => exact throw _
    | some b =>
      refine (((primitiveIndex name).bind fun i => (pushBuiltinFrame ⟨site, args, names⟩).seq
        ((builtinValues nested anon args 0).seq ((spliceValues ⟨site, args, names⟩).seq
          ((indexed .callPrimitive rfl rfl).seq (nothing SlotKind.value))))).mono ?_).meets
        (by simp [Flow.Term.visits])
      rintro _ p q z u _ ⟨i, _, ⟨rfl, hi, hc⟩, r₁, hframe, r₂, hvalues, r₃, hsplice, r₄,
        ⟨hr₄, h⟩, rfl, rfl⟩
      refine CarriesWord.value fun X hX => ?_
      have hact : X.term (.primitive name ⟨site, args, names⟩) = (do
          let (names, values) ← X.builtinArguments ⟨site, args, names⟩ (X.values args)
          Action.lift (Flow.ofResult (b.invoke (X.tables.call site.id) names values))) := by
        simp only [Flow.Scene.term, hb]
      refine Tracks.congr ((builtinArguments hX (hframe ho X hX) (hvalues.carries ho.count)
        (hsplice ho)).andThen fun a => ?_) hact
      obtain rfl := hX.unit
      rw [hr₄]
      exact (Site.Does.callPrimitive (h hi) hc hb _ _ a.1 a.2).tracks
  | .call (.name name) ⟨site, args, names⟩ => by
    refine checked fun ho => ?_
    refine (((findFunction name).seq ((dispatch ho
      (fun anon => closureArguments nested anon args names ho.names)
      (fun anon => (builtinValues nested anon args 0).mono fun _ _ _ _ _ _ h =>
        h.carries ho.count)).seq (nothing SlotKind.value))).mono ?_).meets
      (by simp [Flow.Term.visits])
    rintro _ p q z u _ ⟨r₁, hfind, r₂, hcall, rfl, rfl⟩
    refine CarriesWord.value fun X hX => ?_
    exact (hfind X hX).andThen fun f => hcall f X hX
  | .call (.computed t) ⟨site, args, names⟩ => by
    refine checked fun ho => ?_
    refine (((boxed (term nested anon t)).seq ((checkFunction ⟨site, args, names⟩).seq
      ((dispatch ho (fun anon => closureArguments nested anon args names ho.names)
        (fun anon => (builtinValues nested anon args 0).mono fun _ _ _ _ _ _ h =>
          h.carries ho.count)).seq (nothing SlotKind.value)))).mono ?_).meets
      (by simp [Flow.Term.visits])
    rintro _ p q z u _ ⟨r₁, hterm, r₂, hcheck, _, hcall, rfl, rfl⟩
    refine CarriesWord.value fun X hX => ?_
    have hact : X.term (.call (.computed t) ⟨site, args, names⟩) = (do
        let v ← X.term t
        let f ← Action.lift (X.callable (X.tables.call site.id) v)
        callOf ⟨site, args, names⟩ f X) := by
      simp only [Flow.Scene.term, callOf]
    refine Tracks.congr ((hterm X hX).andThen fun v => ?_) hact
    exact (hcheck v X hX).andThen fun f => hcall f X hX

/-- The code of the arguments of a closure. -/
theorem closureArguments (nested : Nested) (anon : List Mark) :
    ∀ (ts : List Term) (names : List (Option Symbol)), names.length = ts.length →
      Emits nested anon (Flow.Term.visitsOf ts) (Assemble.closureArguments nested ts names)
        (fun _ => CarriesArguments ts names)
  | [], [], _ => by
    refine (nothing ()).mono ?_
    rintro _ p q z u _ ⟨-, rfl⟩ as X hX
    exact Tracks.done ⟨rfl, by simp⟩
  | t :: ts, name :: names, hlen => by
    have hrest := closureArguments nested anon ts names (Nat.succ.inj hlen)
    cases t with
    | ellipsis => exact appendDots hrest
    | thunk d =>
      have hact : ∀ X : Site, X.arguments (.thunk d :: ts) (name :: names) = (do
          let v ← Action.lift (X.promised d)
          let rest ← X.arguments ts names
          return Arg.mk name v :: rest) := fun X => by
        simp only [Flow.Scene.arguments, pure_bind, List.cons_append, List.nil_append]
      have h := appendArgument hact (promised d) hrest
      refine cast (congrArg (fun c => Emits nested anon _ c _) ?_) h
      simp only [Assemble.closureArguments]
      cases d.name? <;> simp only [bind_assoc]
    | _ =>
      refine appendArgument (fun X => ?_) (boxed (term nested anon _)) hrest
      simp only [Flow.Scene.arguments, pure_bind, List.cons_append, List.nil_append]

/-- The code of the values of a builtin. -/
theorem builtinValues (nested : Nested) (anon : List Mark) : ∀ (ts : List Term) (position : Nat),
    Emits nested anon (Flow.Term.visitsOf ts) (Assemble.builtinValues nested ts position)
      (fun _ => FillsValues ts position)
  | [], position => by
    refine (nothing ()).mono ?_
    rintro _ p q z u _ ⟨-, rfl⟩ X hX done _ _
    exact Tracks.done ⟨rfl, by simp, rfl⟩
  | t :: ts, position => by
    have hrest := builtinValues nested anon ts (position + 1)
    cases t with
    | ellipsis => exact skipValue hrest
    | thunk d => exact fillValue rfl (evaluateThunk d) hrest
    | _ => exact fillValue rfl (boxed (term nested anon _)) hrest

end

end Emits

end CallByNeed
