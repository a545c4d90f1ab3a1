import CallByNeed.Builtin
import CallByNeed.Expr.Program
import Mathlib.Tactic.Lemma

/-!
# What programs bind

A program binds names in three ways: by definitions, by the formals of function literals, and by
assignments and loops. `Expr.keepsTo` says of an expression that it binds none but the names that some
`Leeway` allows, wherever in it, and, if the leeway says so, that the forms that assign stand nowhere
but in front of the arguments of a call. Then nothing else is assigned: an assignment form that is not
a value cannot be called under another name.
-/

namespace CallByNeed

/-- Which names may be bound, and whether a form that assigns may be a value. -/
structure Leeway where
  /-- By definitions and formals. -/
  formal : Symbol → Bool
  /-- By assignments and loops. -/
  target : Symbol → Bool
  forms : Bool := false

/-- The name of a form that assigns. -/
def Symbol.assigns (s : Symbol) : Bool := s = ⟨Special.assign.name⟩ || s = ⟨Special.loop.name⟩

/-- What a call assigns as it is written, if it is one of an assignment form, is allowed. -/
def Leeway.allows (l : Leeway) (c : Call) : Bool :=
  match c.callee, c.arg? 0 with
  | .symbol s, some (.symbol x) => !s.assigns || l.target x
  | .symbol s, some (.str x) => s != ⟨Special.assign.name⟩ || l.target ⟨x⟩
  | _, _ => true

mutual

/-- The expression binds allowed names only, and has no form as a value that may not be one. -/
def Expr.keepsTo (l : Leeway) : Expr → Bool
  | .symbol s => l.forms || !s.assigns
  | .call callee args =>
    (callee.symbol?.isSome || callee.keepsTo l) && l.allows ⟨callee, args⟩ && keepsToAll l args
  | .function formals body => keepsToFormals l formals && body.keepsTo l
  | _ => true

/-- All arguments do. -/
def Expr.keepsToAll (l : Leeway) : List (Arg Expr) → Bool
  | [] => true
  | ⟨_, e⟩ :: rest => e.keepsTo l && keepsToAll l rest

/-- The formals are allowed, and all defaults keep to what is. -/
def Expr.keepsToFormals (l : Leeway) : List (Formal Expr) → Bool
  | [] => true
  | ⟨name, none⟩ :: rest => l.formal name && keepsToFormals l rest
  | ⟨name, some e⟩ :: rest => l.formal name && e.keepsTo l && keepsToFormals l rest

end

/-- The function literal binds allowed names only. -/
def Function.keepsTo (l : Leeway) (f : Function) : Bool := f.toExpr.keepsTo l

/-- The program binds allowed names only. -/
def Program.keepsTo (l : Leeway) (p : Program) : Bool :=
  (p.definitions.all fun d => l.formal d.name && d.function.keepsTo l) && p.body.keepsTo l

namespace Expr

variable {l : Leeway} {callee body : Expr} {args : List (Arg Expr)} {formals : List (Formal Expr)}

lemma keepsToAll_iff : keepsToAll l args = true ↔ ∀ a ∈ args, a.value.keepsTo l = true := by
  induction args with
  | nil => simp [keepsToAll]
  | cons a args ih => simp [keepsToAll, ih]

lemma keepsToFormals_iff : keepsToFormals l formals = true ↔ ∀ f ∈ formals, l.formal f.name = true ∧
    ∀ e, f.default = some e → e.keepsTo l = true := by
  induction formals with
  | nil => simp [keepsToFormals]
  | cons f formals ih =>
    obtain ⟨name, _ | e⟩ := f <;> simp [keepsToFormals, ih, and_assoc]

lemma keepsTo_call : (Expr.call callee args).keepsTo l = true ↔
    (callee.symbol? = none → callee.keepsTo l = true) ∧ l.allows ⟨callee, args⟩ = true ∧
      ∀ a ∈ args, a.value.keepsTo l = true := by
  rw [keepsTo, Bool.and_eq_true, Bool.and_eq_true, keepsToAll_iff, and_assoc, Bool.or_eq_true]
  refine and_congr_left fun _ => ?_
  cases callee.symbol? <;> simp

lemma keepsTo_function : (Expr.function formals body).keepsTo l = true ↔
    (∀ f ∈ formals, l.formal f.name = true ∧ ∀ e, f.default = some e → e.keepsTo l = true) ∧
      body.keepsTo l = true := by
  rw [keepsTo, Bool.and_eq_true, keepsToFormals_iff]

end Expr

/-! ## No bounds at all -/

/-- Everything is allowed. -/
def Leeway.free : Leeway := ⟨fun _ => true, fun _ => true, true⟩

@[simp] lemma Leeway.formal_free (name : Symbol) : Leeway.free.formal name = true := rfl

lemma Leeway.allows_free (c : Call) : Leeway.free.allows c = true := by
  unfold allows
  split <;> simp [free]

mutual

/-- Every expression keeps to a leeway that allows everything. -/
theorem Expr.keepsTo_free : ∀ e : Expr, e.keepsTo .free = true
  | .symbol _ => rfl
  | .call callee args => by
    simp [keepsTo, keepsTo_free callee, keepsToAll_free args, Leeway.allows_free]
  | .function formals body => by
    simp [keepsTo, keepsTo_free body, keepsToFormals_free formals]
  | .null | .logical _ | .int _ | .double _ | .str _ => rfl

theorem Expr.keepsToAll_free : ∀ args : List (Arg Expr), keepsToAll .free args = true
  | [] => rfl
  | ⟨_, e⟩ :: rest => by simp [keepsToAll, keepsTo_free e, keepsToAll_free rest]

theorem Expr.keepsToFormals_free : ∀ formals : List (Formal Expr), keepsToFormals .free formals = true
  | [] => rfl
  | ⟨_, none⟩ :: rest => by simp [keepsToFormals, keepsToFormals_free rest]
  | ⟨_, some e⟩ :: rest => by simp [keepsToFormals, keepsTo_free e, keepsToFormals_free rest]

end

namespace Leeway

variable {l : Leeway} {c : Call} {e : Expr} {name : Symbol}

/-- What an assignment is to is allowed. -/
lemma target_of_assign (h : l.allows c = true) (hc : c.callee = .symbol ⟨Special.assign.name⟩)
    (he : c.arg? 0 = some e) (hname : e = .symbol name ∨ e = .str name.name) :
    l.target name = true := by
  unfold allows at h
  rw [hc, he] at h
  rcases hname with rfl | rfl <;> simpa [Symbol.assigns] using h

/-- What a loop assigns is allowed. -/
lemma target_of_loop (h : l.allows c = true) (hc : c.callee = .symbol ⟨Special.loop.name⟩)
    (he : c.arg? 0 = some (.symbol name)) : l.target name = true := by
  unfold allows at h
  rw [hc, he] at h
  simpa [Symbol.assigns] using h

end Leeway

end CallByNeed
