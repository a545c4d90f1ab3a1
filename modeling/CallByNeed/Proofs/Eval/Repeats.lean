import CallByNeed.Proofs.Eval.Matching
import Mathlib.Data.List.ReduceOption

/-!
# Formals that repeat a name

Nothing rejects a function whose formals repeat a name, `...` included. Matching does not mind: each
argument goes to one formal or is left over, and none is lost (`Matching.assign_perm`). But the new
environment has one variable for each name. The formals are bound in order, so a name holds what its
last formal was bound to, and a second `...` is bound to nothing (`bindArguments_last`). What an
earlier formal of the name was given cannot be read any more.
-/

namespace CallByNeed

/-! ## Matching loses nothing -/

namespace Matching

section

variable {f : Symbol} {formals : List Symbol} {args rest named others : ArgList} {v : Value}

lemma takeNamed_perm (h : takeNamed f args = some (v, rest)) : args.Perm (⟨some f, v⟩ :: rest) := by
  induction args generalizing rest with
  | nil => cases h
  | cons a args ih =>
    rw [takeNamed] at h
    split at h
    · rename_i hname
      cases h
      rw [← hname]
    · obtain ⟨⟨w, found⟩, hw, heq⟩ := Option.map_eq_some_iff.1 h
      cases heq
      exact ((ih hw).cons a).trans (.swap ..)

lemma takeUnnamed_perm (h : takeUnnamed args = some (v, rest)) :
    args.Perm (⟨none, v⟩ :: rest) := by
  induction args generalizing rest with
  | nil => cases h
  | cons a args ih =>
    rw [takeUnnamed] at h
    split at h
    · rename_i hname
      cases h
      rw [← hname]
    · obtain ⟨⟨w, found⟩, hw, heq⟩ := Option.map_eq_some_iff.1 h
      cases heq
      exact ((ih hw).cons a).trans (.swap ..)

/-- Each of the arguments carries the name of a formal, and no two carry the same one. -/
structure Claimed (formals : List Symbol) (named : ArgList) : Prop where
  nodup : (named.map Arg.name).Nodup
  claims : ∀ a ∈ named, ∃ f ∈ formals, f ≠ .ellipsis ∧ a.name = some f

namespace Claimed

lemma eq_nil (h : Claimed [] named) : named = [] :=
  List.eq_nil_iff_forall_not_mem.2 fun a ha => by
    obtain ⟨f, hf, -⟩ := h.claims a ha
    cases hf

/-- A formal that no argument names can be left out. -/
lemma skip (h : Claimed (f :: formals) named) (hf : ∀ a ∈ named, a.name ≠ some f) :
    Claimed formals named where
  nodup := h.nodup
  claims a ha := by
    obtain ⟨g, hg, hne, hname⟩ := h.claims a ha
    obtain rfl | hg := List.mem_cons.1 hg
    · exact absurd hname (hf a ha)
    · exact ⟨g, hg, hne, hname⟩

/-- A formal goes with the argument that names it. -/
lemma take (h : Claimed (f :: formals) named) (hperm : named.Perm (⟨some f, v⟩ :: rest)) :
    Claimed formals rest := by
  have hnodup := (hperm.map Arg.name).nodup_iff.1 h.nodup
  rw [List.map_cons, List.nodup_cons] at hnodup
  refine skip (f := f) ⟨hnodup.2, fun a ha => ?_⟩ fun a ha hname => ?_
  · exact h.claims a (hperm.mem_iff.2 (List.mem_cons_of_mem _ ha))
  · exact hnodup.1 (List.mem_map.2 ⟨a, ha, hname⟩)

end Claimed

lemma name_ne_of_takeNamed (h : takeNamed f args = none) : ∀ a ∈ args, a.name ≠ some f := by
  intro a ha
  have := takeNamed_eq_none h
  rw [named?, Option.map_eq_none_iff, List.find?_eq_none] at this
  simpa using this a ha

/-- Where only names count, formals are given all the arguments that name them. -/
lemma byName_perm (h : Claimed formals named) :
    (byName named formals).length = formals.length ∧
      (byName named formals).reduceOption.Perm (named.map Arg.value) := by
  induction formals generalizing named with
  | nil =>
    rw [h.eq_nil]
    exact ⟨rfl, .nil⟩
  | cons f formals ih =>
    rw [byName]
    by_cases hdots : f.isEllipsis = true
    · rw [if_pos hdots]
      obtain ⟨hlength, hperm⟩ := ih <| h.skip fun a ha hname => by
        obtain ⟨g, -, hne, hg⟩ := h.claims a ha
        exact hne (Option.some.inj (hg.symm.trans hname) ▸ of_decide_eq_true hdots)
      exact ⟨congrArg (· + 1) hlength, hperm⟩
    · rw [if_neg hdots]
      cases htake : takeNamed f named with
      | none =>
        obtain ⟨hlength, hperm⟩ := ih (h.skip (name_ne_of_takeNamed htake))
        exact ⟨congrArg (· + 1) hlength, hperm⟩
      | some found =>
        have hsplit := takeNamed_perm htake
        obtain ⟨hlength, hperm⟩ := ih (h.take hsplit)
        refine ⟨congrArg (· + 1) hlength, ?_⟩
        exact (hperm.cons _).trans (hsplit.map Arg.value).symm

/-- What the formals are given and what is left are the arguments. -/
lemma fill_perm (others : ArgList) (h : Claimed formals named) :
    (fill named others formals).1.length = formals.length ∧
      ((fill named others formals).1.reduceOption ++
        (fill named others formals).2.map Arg.value).Perm
        (named.map Arg.value ++ others.map Arg.value) := by
  induction formals generalizing named others with
  | nil =>
    rw [h.eq_nil]
    exact ⟨rfl, .refl _⟩
  | cons f formals ih =>
    rw [fill]
    by_cases hdots : f.isEllipsis = true
    · rw [if_pos hdots]
      obtain ⟨hlength, hperm⟩ := byName_perm h
      exact ⟨hlength, hperm.append_right _⟩
    · rw [if_neg hdots]
      cases htake : takeNamed f named with
      | some found =>
        have hsplit := takeNamed_perm htake
        obtain ⟨hlength, hperm⟩ := ih others (h.take hsplit)
        refine ⟨congrArg (· + 1) hlength, ?_⟩
        exact (hperm.cons _).trans ((hsplit.map Arg.value).symm.append_right _)
      | none =>
        have hskip := h.skip (name_ne_of_takeNamed htake)
        cases hfirst : takeUnnamed others with
        | none =>
          obtain ⟨hlength, hperm⟩ := ih others hskip
          exact ⟨congrArg (· + 1) hlength, hperm⟩
        | some found =>
          have hsplit := takeUnnamed_perm hfirst
          obtain ⟨hlength, hperm⟩ := ih found.2 hskip
          refine ⟨congrArg (· + 1) hlength, ?_⟩
          -- The argument in front was taken from behind the named ones.
          exact ((hperm.cons _).trans List.perm_middle.symm).trans
            ((hsplit.map Arg.value).symm.append_left _)

lemma exists_of_isNamed {a : Arg Value} (h : isNamed formals a = true) :
    ∃ f ∈ formals, f ≠ .ellipsis ∧ a.name = some f := by
  rw [isNamed] at h
  cases hname : a.name with
  | none =>
    rw [hname] at h
    cases h
  | some f =>
    rw [hname] at h
    obtain ⟨hne, hf⟩ : f ≠ .ellipsis ∧ f ∈ formals := by simpa [Symbol.isEllipsis] using h
    exact ⟨f, hf, hne, rfl⟩

/-- The arguments that carry the name of a formal are claimed, unless a name is given twice. -/
lemma claimed (h : repeated? (givenNames formals args) = none) :
    Claimed formals (args.filter (isNamed formals)) where
  nodup := by
    have hsome : (args.filter (isNamed formals)).map Arg.name =
        (givenNames formals args).map some := by
      rw [givenNames, List.map_filterMap]
      refine (List.filterMap_eq_map_iff_forall_eq_some.2 fun a ha => ?_).symm
      obtain ⟨f, -, -, hname⟩ := exists_of_isNamed (List.mem_filter.1 ha).2
      rw [hname, Option.map_some]
    rw [hsome]
    exact (repeatedAfter?_eq_none h).1.map fun _ _ => Option.some.inj
  claims a ha := exists_of_isNamed (List.mem_filter.1 ha).2

/-- Matching gives each argument to one formal, or leaves it over for `...`. -/
lemma assign_perm {given : List (Option Value)} {left : ArgList}
    (h : assign formals args = .ok (given, left)) :
    given.length = formals.length ∧
      (given.reduceOption ++ left.map Arg.value).Perm (args.map Arg.value) ∧
      (.ellipsis ∉ formals → left = []) := by
  have hnames : (args.filter (isNamed formals)).filterMap Arg.name = givenNames formals args := rfl
  unfold assign at h
  dsimp only at h
  rw [hnames] at h
  cases htwice : repeated? (givenNames formals args) with
  | some f =>
    rw [htwice] at h
    cases h
  | none =>
    rw [htwice] at h
    obtain ⟨hlength, hperm⟩ := fill_perm (args.filter fun a => !isNamed formals a) (claimed htwice)
    generalize fill (args.filter (isNamed formals)) (args.filter fun a => !isNamed formals a)
      formals = filled at hlength hperm h
    obtain ⟨given', left'⟩ := filled
    have hall : given'.length = formals.length ∧
        (given'.reduceOption ++ left'.map Arg.value).Perm (args.map Arg.value) := by
      refine ⟨hlength, hperm.trans ?_⟩
      rw [← List.map_append]
      exact (List.filter_append_perm _ args).map Arg.value
    dsimp only at h
    split at h
    · cases h
    · rename_i hno
      cases h
      refine ⟨hall.1, hall.2, fun hdots => ?_⟩
      cases left with
      | nil => rfl
      | cons a rest =>
        refine absurd rfl (hno a rest ?_)
        exact List.any_eq_false.2 fun g hg hg' => hdots (of_decide_eq_true hg' ▸ hg)

end

end Matching

/-! ## Binding keeps the last one -/

/-- What formals are bound to, in order: a formal to the argument it was given, or else to a
promise; the first `...` to what is left, and any other one to nothing. -/
inductive Bindings : List (Formal CodeUnit) → List (Option Value) → ArgList →
    List (Symbol × Value) → Prop
  | nil (left : ArgList) : Bindings [] [] left []
  | dots {f formals given bound} (x : Option Value) (left : ArgList) : f.name = .ellipsis →
      Bindings formals given [] bound →
      Bindings (f :: formals) (x :: given) left ((.ellipsis, .dots left) :: bound)
  | argument {f formals given left bound} (v : Value) : f.name ≠ .ellipsis →
      Bindings formals given left bound →
      Bindings (f :: formals) (some v :: given) left ((f.name, v) :: bound)
  | promise {f formals given left bound} (p : PromiseId) : f.name ≠ .ellipsis →
      Bindings formals given left bound →
      Bindings (f :: formals) (none :: given) left ((f.name, .promise p) :: bound)

namespace Store

/-- Sets variables of an environment, in order. -/
def setAll (s : Store) (env : EnvId) (bound : List (Symbol × Value)) : Store :=
  bound.foldl (fun s x => s.set env x.1 x.2) s

lemma local?_set_same {s : Store} {env : EnvId} (henv : env < s.environments.size) (name : Symbol)
    (v : Value) : (s.set env name v).local? env name = some v := by
  unfold local? set
  rw [Array.getElem?_modify, if_pos rfl, Array.getElem?_eq_getElem henv]
  exact lookup_bindIn_same ..

/-- A variable holds what it was set to last. -/
lemma local?_setAll {s : Store} {env : EnvId} (henv : env < s.environments.size)
    (bound : List (Symbol × Value)) (name : Symbol) :
    (s.setAll env bound).local? env name =
      (bound.reverse.lookup name).or (s.local? env name) := by
  induction bound generalizing s with
  | nil => rfl
  | cons x bound ih =>
    obtain ⟨other, v⟩ := x
    have hsize : env < (s.set env other v).environments.size := by rwa [size_set]
    show ((s.set env other v).setAll env bound).local? env name = _
    rw [ih hsize, List.reverse_cons, List.lookup_append, Option.or_assoc]
    by_cases hname : name = other
    · rw [hname, local?_set_same henv, List.lookup_cons_self, Option.some_or]
    · rw [local?_set_of_ne_name s hname, List.lookup_cons, beq_eq_false_iff_ne.2 hname]
      rfl

end Store

section

variable {formals : List (Formal CodeUnit)} {given : List (Option Value)} {s : Store}

/-- A formal that is not `...` gets the argument that it was given, or a new promise. -/
lemma formalValue_cases (frame : EnvId) (f : Formal CodeUnit) (x : Option Value)
    (given : List (Option Value)) (s : Store) :
    ∃ v t, formalValue frame f (x :: given) s = .ok v t ∧ t.environments = s.environments ∧
      (x = some v ∨ x = none ∧ ∃ p, v = .promise p) := by
  unfold formalValue
  cases x with
  | some v => exact ⟨v, s, rfl, rfl, .inl rfl⟩
  | none =>
    cases f.default with
    | some unit => exact ⟨_, _, rfl, rfl, .inr ⟨rfl, _, rfl⟩⟩
    | none => exact ⟨_, _, rfl, rfl, .inr ⟨rfl, _, rfl⟩⟩

lemma Store.setAll_congr {t : Store} (h : t.environments = s.environments) (env : EnvId)
    (bound : List (Symbol × Value)) :
    (t.setAll env bound).environments = (s.setAll env bound).environments := by
  induction bound generalizing s t with
  | nil => exact h
  | cons x bound ih => exact ih (by simp only [set, h])

/-- Formals are bound one after the other, whatever their names are. -/
lemma bindFormals_bindings (hlength : given.length = formals.length) (frame : EnvId)
    (left : ArgList) (s : Store) :
    ∃ t bound, bindFormals frame formals given left s = .ok () t ∧
      Bindings formals given left bound ∧
      t.environments = (s.setAll frame bound).environments := by
  induction formals generalizing given left s with
  | nil =>
    obtain rfl := List.length_eq_zero_iff.1 hlength
    exact ⟨s, [], rfl, .nil left, rfl⟩
  | cons f formals ih =>
    obtain ⟨x, given, rfl⟩ := List.exists_cons_of_length_eq_add_one hlength
    replace hlength : given.length = formals.length := Nat.succ.inj hlength
    rw [bindFormals_cons]
    by_cases hdots : f.name.isEllipsis = true
    · rw [if_pos hdots]
      obtain ⟨t, bound, hrun, hbound, henvs⟩ := ih hlength [] (s.set frame .ellipsis (.dots left))
      exact ⟨t, _, hrun, .dots x left (of_decide_eq_true hdots) hbound, henvs⟩
    · rw [if_neg hdots]
      have hname : f.name ≠ .ellipsis := by simpa [Symbol.isEllipsis] using hdots
      obtain ⟨v, m, hv, hm, hx⟩ := formalValue_cases frame f x given s
      obtain ⟨t, bound, hrun, hbound, henvs⟩ := ih hlength left (m.set frame f.name v)
      refine ⟨t, (f.name, v) :: bound, ?_, ?_, ?_⟩
      · rw [Eval.bind_apply, hv]
        exact hrun
      · obtain rfl | ⟨rfl, p, rfl⟩ := hx
        · exact .argument v hname hbound
        · exact .promise p hname hbound
      · exact henvs.trans (Store.setAll_congr (by simp only [Store.set, hm]) frame bound)

end

/-- Applying a closure to arguments, whatever the names of its formals are: matching is refused, and
then nothing has changed; or else each argument went to one formal or was left over for `...`, and a
name of the new environment holds what its last formal was bound to. -/
theorem bindArguments_last (unit : FunctionUnit) (env : EnvId) (call : Call) (args : ArgList)
    (s : Store) :
    (∃ fault, bindArguments unit env call args s =
      .error (.error (.argumentCount call.text fault)) s) ∨
    ∃ given left bound t,
      bindArguments unit env call args s = .ok s.environments.size t ∧
      (given.reduceOption ++ left.map Arg.value).Perm (args.map Arg.value) ∧
      (.ellipsis ∉ unit.names → left = []) ∧
      Bindings unit.formals given left bound ∧
      ∀ name, t.local? s.environments.size name = bound.reverse.lookup name := by
  have hnames : unit.formals.map Formal.name = unit.names := rfl
  unfold bindArguments
  rw [hnames]
  cases hassign : Matching.assign unit.names args with
  | error fault => exact .inl ⟨fault, rfl⟩
  | ok assigned =>
    obtain ⟨given, left⟩ := assigned
    obtain ⟨hlength, hperm, hleft⟩ := Matching.assign_perm hassign
    rw [← hnames, List.length_map] at hlength
    obtain ⟨t, bound, hrun, hbound, henvs⟩ :=
      bindFormals_bindings hlength s.environments.size left (s.addChild env)
    refine .inr ⟨given, left, bound, t, ?_, hperm, hleft, hbound, fun name => ?_⟩
    · dsimp only
      rw [Eval.bind_apply]
      change (bindFormals s.environments.size unit.formals given left >>= _) (s.addChild env) = _
      rw [Eval.bind_apply, hrun]
      rfl
    · have hsize : s.environments.size < (s.addChild env).environments.size := by simp
      have hlocal := Store.local?_setAll hsize bound name
      rw [Store.local?_addChild] at hlocal
      unfold Store.local? at hlocal ⊢
      rw [henvs, hlocal, Array.getElem?_eq_none (Nat.le_refl _), Option.or_none]

/-- A second `...` hides what the first one was bound to. -/
example (unit : CodeUnit) :
    ∃ t, bindArguments ⟨"f", [⟨.ellipsis, none⟩, ⟨.ellipsis, none⟩], unit⟩ globalEnv
        ⟨.symbol ⟨"f"⟩, []⟩ [⟨none, .int 1⟩] .fresh = .ok 1 t ∧
      t.local? 1 .ellipsis = some (.dots []) :=
  ⟨_, rfl, rfl⟩

end CallByNeed
