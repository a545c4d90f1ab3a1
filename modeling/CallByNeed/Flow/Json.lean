import CallByNeed.Expr.Json
import CallByNeed.Flow.Text

/-!
# Flow bodies as JSON

The text of a body with the bodies nested in it, in the order in which its statements mention them:
of an element the vector before the index, of a comparison the left side before the right one, of a
call the callee before the arguments.
-/

namespace CallByNeed.Flow

/-- The lines of texts. A text that holds line breaks has several lines. -/
def linesJson (texts : List String) : Json :=
  .array ((texts.flatMap fun t => t.splitOn "\n").map Json.str)

/-- The outline of a body with a text, a number of statements and nested bodies. -/
def outline (texts : List String) (size : Nat) (nested : List Json) : Json :=
  .record [("body", linesJson texts), ("len", .number (.ofInt size)), ("nested", .array nested)]

mutual

/-- The outlines nested in an operand. -/
def Term.outlines : Term → List Json
  | .int _ | .literal _ | .temp _ | .local .. | .env _ | .ellipsis => []
  | .element v i => v.outlines ++ i.outlines
  | .length v => v.outlines
  | .increment t => t.outlines
  | .atLeast a b => a.outlines ++ b.outlines
  | .closure node ⟨name, formals, body⟩ =>
    [.record
      [("closure", .str node.text),
       ("function", .record
         [("name", .str (Procedure.displayName (⟨name, [], []⟩ : Procedure Term))),
          ("formals", .array (formalOutlines formals)),
          ("ir", outline (body.map Line.text) (Body.size body) (lineOutlines body))])]]
  | .thunk d => [deferredOutline d]
  | .primitive _ ⟨_, args, _⟩ => outlinesOf args
  | .call (.name _) ⟨_, args, _⟩ => outlinesOf args
  | .call (.computed c) ⟨_, args, _⟩ => c.outlines ++ outlinesOf args

/-- The outlines nested in operands. -/
def outlinesOf : List Term → List Json
  | [] => []
  | t :: ts => t.outlines ++ outlinesOf ts

/-- The outlines nested in lines. -/
def lineOutlines : List (Line Term) → List Json
  | [] => []
  | .label _ :: rest => lineOutlines rest
  | .statement (.assign _ v) :: rest => v.outlines ++ lineOutlines rest
  | .statement (.eval v) :: rest => v.outlines ++ lineOutlines rest
  | .statement (.goto _) :: rest => lineOutlines rest
  | .statement (.branch c _ _) :: rest => c.outlines ++ lineOutlines rest
  | .statement (.ret v) :: rest => v.outlines ++ lineOutlines rest

/-- The outline of a late argument. -/
def deferredOutline : Thunk → Json
  | ⟨node, source, body⟩ =>
    .record
      [("thunk", .str node.text), ("sexp", .str source.text),
       ("variable", Symbol.optionJson source.symbol?),
       ("ir", outline (body.map Line.text) (Body.size body) (lineOutlines body))]

/-- The formals of a function literal with the outlines of their defaults. -/
def formalOutlines : List (Formal Thunk) → List Json
  | [] => []
  | ⟨name, none⟩ :: rest =>
    .record [("name", .str name.name), ("default", .null)] :: formalOutlines rest
  | ⟨name, some d⟩ :: rest =>
    .record [("name", .str name.name), ("default", deferredOutline d)] :: formalOutlines rest

end

/-- The outline of a body. -/
def Body.toJson (b : Body) : Json := outline (Body.lines b) (Body.size b) (lineOutlines b)

end CallByNeed.Flow
