import CallByNeed.Expr.Basic
import Mathlib.Tactic.Lemma

/-!
# Parts of expressions

The parts of an expression are the expression itself, the callees and arguments of calls, and the
defaults and bodies of function literals, at every depth (`Expr.Part`). Of an expression in which no
call passes `...` on (`Expr.undotted`), neither does any of its parts.
-/

namespace CallByNeed

namespace Expr

/-- What an expression consists of. -/
inductive Part (whole : Expr) : Expr → Prop
  | whole : Part whole whole
  | callee {callee : Expr} {args : List (Arg Expr)} (h : Part whole (.call callee args)) :
    Part whole callee
  | arg {callee : Expr} {args : List (Arg Expr)} (h : Part whole (.call callee args))
    {a : Arg Expr} (ha : a ∈ args) : Part whole a.value
  | default {formals : List (Formal Expr)} {body : Expr} (h : Part whole (.function formals body))
    {f : Formal Expr} (hf : f ∈ formals) {e : Expr} (he : f.default = some e) : Part whole e
  | body {formals : List (Formal Expr)} {body : Expr} (h : Part whole (.function formals body)) :
    Part whole body

mutual

/-- No call has `...` as an argument or as its callee. -/
def undotted : Expr → Bool
  | .call callee args => !callee.isEllipsis && callee.undotted && undottedAll args
  | .function formals body => undottedFormals formals && body.undotted
  | _ => true

/-- None of the arguments is `...`, and no call in them has it. -/
def undottedAll : List (Arg Expr) → Bool
  | [] => true
  | ⟨_, e⟩ :: rest => !e.isEllipsis && e.undotted && undottedAll rest

/-- No call in the defaults has `...`. -/
def undottedFormals : List (Formal Expr) → Bool
  | [] => true
  | ⟨_, none⟩ :: rest => undottedFormals rest
  | ⟨_, some e⟩ :: rest => e.undotted && undottedFormals rest

end

variable {whole e callee body : Expr} {args : List (Arg Expr)} {formals : List (Formal Expr)}

lemma undottedAll_iff : undottedAll args = true ↔
    ∀ a ∈ args, a.value.isEllipsis = false ∧ a.value.undotted = true := by
  induction args with
  | nil => simp [undottedAll]
  | cons a args ih => simp [undottedAll, ih]

lemma undottedFormals_iff : undottedFormals formals = true ↔
    ∀ f ∈ formals, ∀ e, f.default = some e → e.undotted = true := by
  induction formals with
  | nil => simp [undottedFormals]
  | cons f formals ih =>
    obtain ⟨name, _ | e⟩ := f <;> simp [undottedFormals, ih]

lemma undotted_call : (Expr.call callee args).undotted = true ↔
    callee.isEllipsis = false ∧ callee.undotted = true ∧
      ∀ a ∈ args, a.value.isEllipsis = false ∧ a.value.undotted = true := by
  rw [undotted, Bool.and_eq_true, Bool.and_eq_true, undottedAll_iff, and_assoc, Bool.not_eq_true']

lemma undotted_function : (Expr.function formals body).undotted = true ↔
    (∀ f ∈ formals, ∀ e, f.default = some e → e.undotted = true) ∧ body.undotted = true := by
  rw [undotted, Bool.and_eq_true, undottedFormals_iff]

/-- What holds of no call in an expression holds of none in its parts. -/
lemma Part.undotted (h : whole.Part e) (hwhole : whole.undotted = true) : e.undotted = true := by
  induction h with
  | whole => exact hwhole
  | callee _ ih => exact (undotted_call.1 ih).2.1
  | arg _ ha ih => exact ((undotted_call.1 ih).2.2 _ ha).2
  | default _ hf he ih => exact (undotted_function.1 ih).1 _ hf _ he
  | body _ ih => exact (undotted_function.1 ih).2

end Expr

end CallByNeed
