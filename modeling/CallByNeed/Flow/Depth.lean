import CallByNeed.Flow.Basic

/-!
# How deeply bodies nest

The number of bodies inside one another: what bounds the recursion from a unit to the units of its
late arguments and function literals.
-/

namespace CallByNeed.Flow

namespace Term

mutual

/-- The larger of `acc` and the number of bodies nested in an operand. -/
def depth (acc : Nat) : Term → Nat
  | .int _ | .literal _ | .temp _ | .local .. | .env _ | .ellipsis => acc
  | .element vector index => index.depth (vector.depth acc)
  | .length t | .increment t => t.depth acc
  | .atLeast left right => right.depth (left.depth acc)
  | .closure _ ⟨_, formals, body⟩ =>
    max acc (linesDepth (formalsDepth 0 formals) body + 1)
  | .thunk ⟨_, _, body⟩ => max acc (linesDepth 0 body + 1)
  | .primitive _ ⟨_, args, _⟩ => depths acc args
  | .call (.name _) ⟨_, args, _⟩ => depths acc args
  | .call (.computed t) ⟨_, args, _⟩ => depths (t.depth acc) args

/-- The depth of several operands. -/
def depths (acc : Nat) : List Term → Nat
  | [] => acc
  | t :: ts => depths (t.depth acc) ts

/-- The depth of the defaults of formals. -/
def formalsDepth (acc : Nat) : List (Formal (Deferred Term)) → Nat
  | [] => acc
  | ⟨_, some ⟨_, _, body⟩⟩ :: rest => formalsDepth (linesDepth acc body) rest
  | ⟨_, none⟩ :: rest => formalsDepth acc rest

/-- The depth of the lines of a body. -/
def linesDepth (acc : Nat) : List (Line Term) → Nat
  | [] => acc
  | .label _ :: rest => linesDepth acc rest
  | .statement (.assign _ t) :: rest => linesDepth (t.depth acc) rest
  | .statement (.eval t) :: rest => linesDepth (t.depth acc) rest
  | .statement (.goto _) :: rest => linesDepth acc rest
  | .statement (.branch t _ _) :: rest => linesDepth (t.depth acc) rest
  | .statement (.ret t) :: rest => linesDepth (t.depth acc) rest

end

end Term

/-- The number of bodies nested in a body. -/
def Body.depth (b : Body) : Nat := Term.linesDepth 0 b

/-- The number of bodies nested in a procedure, its own counted. -/
def Procedure.depth (p : Procedure Term) : Nat :=
  Term.linesDepth (Term.formalsDepth 0 p.formals) p.body + 1

end CallByNeed.Flow
