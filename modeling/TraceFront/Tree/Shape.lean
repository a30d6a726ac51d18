import TraceFront.Tree.Node
import TraceFront.Tree.NodeType

/-!
# The shape of a tree

A tree has the right shape when every tagged node in it has a known type and children as the table
of types lays them out, no application is without an operator, and what stands under a literal and
under a variable is a value.

* `Node.problem?`      what is wrong with one node;
* `Node.shapeError?`   the first problem of a tree, in the order of `Node.walk`.
-/

namespace TraceFront

/-- what can be wrong with a node -/
inductive ShapeProblem where
  | unknownType (tag : String)
  | noOperator
  | notSequence (tag : String)
  | definitionFields (found : List String)
  | wrongFields (tag : String) (found expected : List String)
  | notLeaf (field : String)
deriving DecidableEq

/-- texts in quotes, with commas, in square brackets -/
def quotedList (names : List String) : String :=
  "[" ++ ", ".intercalate (names.map Text.quoted) ++ "]"

def ShapeProblem.message : ShapeProblem → String
  | unknownType t => "unknown node type `" ++ t ++ "`"
  | noOperator => "application without an operator"
  | notSequence t => "`" ++ t ++ "` must hold a sequence"
  | definitionFields fs => "definition fields " ++ quotedList fs
  | wrongFields t fs es => "`" ++ t ++ "` fields " ++ quotedList fs ++ ", expected " ++ quotedList es
  | notLeaf f => "`" ++ f ++ "` must be a leaf"

structure ShapeError where
  address : Address
  problem : ShapeProblem
deriving DecidableEq

def ShapeError.message (e : ShapeError) : String :=
  "at " ++ e.address.render ++ ": " ++ e.problem.message

namespace Node

/-- the problem of a node whose field `f` has to hold an accepted value -/
def leafProblem? (n : Node) (f : Field) (accepts : Value → Bool) : Option ShapeProblem :=
  match n.field? f.text with
  | some m => if m.tag.isNone && m.value.any accepts then none else some (.notLeaf f.text)
  | none => some (.notLeaf f.text)

def sequenceProblem? (n : Node) (t : NodeType) : Option ShapeProblem :=
  match n.children with
  | .sequence ns => if t = .application && ns.isEmpty then some .noOperator else none
  | _ => some (.notSequence t.tag)

def definitionProblem? (n : Node) : Option ShapeProblem :=
  match n.fieldNames with
  | [p, v] =>
    if p = Field.pattern.text ∧ v ≠ Field.pattern.text then none
    else some (.definitionFields [p, v])
  | found => some (.definitionFields found)

/-- the problem of the children of a node whose type has a fixed list of fields -/
def fieldsProblem? (n : Node) (t : NodeType) (names : List Field) : Option ShapeProblem :=
  let expected := names.map Field.text
  if n.fieldNames ≠ expected then some (.wrongFields t.tag n.fieldNames expected)
  else
    match t with
    | .literal => n.leafProblem? .value fun _ => true
    | .reference => n.leafProblem? .name Value.isSymbol
    | _ => none

/-- what is wrong with a node; one without a tag is judged from the node above it -/
def problem? (n : Node) : Option ShapeProblem :=
  match n.tag with
  | none => none
  | some tag =>
    match NodeType.ofTag? tag with
    | none => some (.unknownType tag)
    | some t =>
      match t.layout with
      | .sequence => n.sequenceProblem? t
      | .definition => n.definitionProblem?
      | .fields names => n.fieldsProblem? t names

/-- the first problem of a tree -/
def shapeError? (n : Node) : Option ShapeError :=
  n.walk.findSome? fun e => e.2.problem?.map (⟨e.1, ·⟩)

end Node

end TraceFront
