import TraceFront.Diagnostic.Basic
import TraceFront.Expr.Basic
import TraceFront.Tree.Node
import TraceFront.Tree.NodeType

/-!
# From expressions to trees

Every form becomes one node of its type, and a pattern becomes the nodes of the expression that is
written in the same way.  A single statement is the body of a function; anything else is wrapped in
a block.  Each node is put to a test as soon as it is built, and the first one that fails is reported
with the expression that it was built for.

* `TreeError`                           why an expression has no tree;
* `checked`                             the test of one node;
* `Pattern.treeWith`, `Expr.treeWith`   the trees of patterns and expressions under a test;
* `Expr.tree`                           the tree of an expression under the usual test.
-/

namespace TraceFront

/-- why an expression has no tree -/
inductive TreeError where
  /-- a definition would have two fields of one name -/
  | fieldCollision (name : String) (span : Span)
  /-- a node, shown as `dump`, failed the test -/
  | rejectedNode (tag term dump : String) (span : Span)
deriving DecidableEq

namespace TreeError

def span : TreeError → Span
  | fieldCollision _ s => s
  | rejectedNode _ _ _ s => s

def code : TreeError → Code
  | fieldCollision _ _ => .fieldCollision
  | rejectedNode _ _ _ _ => .rejectedNode

def message : TreeError → String
  | fieldCollision n _ => "definition of `" ++ n ++ "` collides with the `pattern` field of its node"
  | rejectedNode tag term _ _ => "compiled `" ++ tag ++ "` node for `" ++ term ++ "` is malformed"

def label : TreeError → String
  | fieldCollision _ _ => "defined here"
  | rejectedNode _ _ _ _ => "while compiling this term"

def notes : TreeError → List String
  | fieldCollision _ _ => ["rename the binding; `pattern` names the definition's pattern field"]
  | rejectedNode _ _ dump _ => ["emitted:\n" ++ dump, "this is a compiler bug"]

def diagnostic (e : TreeError) : Diagnostic :=
  .ofError e.code e.message e.span e.label e.notes

end TreeError

/-- the error of a node that was built for `term` and failed the test -/
def Node.rejected (n : Node) (term : String) (span : Span) : TreeError :=
  .rejectedNode (n.tag.getD "leaf") term n.render span

def NodeType.keyed (t : NodeType) (fields : List (Field × Node)) : Node :=
  .keyed t.tag (fields.map fun f => (f.1.text, f.2))

def NodeType.sequence (t : NodeType) (items : List Node) : Node := .sequence t.tag items

/-- a node that was built for `owner`, if it passes the test -/
def checked (accepts : Node → Bool) (owner : Expr String) (n : Node) : Except TreeError Node :=
  if accepts n then .ok n else .error (n.rejected owner.render owner.span)

/-- the node of a literal: its value stands in a leaf -/
def literalTree (accepts : Node → Bool) (owner : Expr String) (l : Literal String) :
    Except TreeError Node := do
  let leaf ← checked accepts owner (.leaf (.constant l))
  checked accepts owner (NodeType.literal.keyed [(.value, leaf)])

def nameTree (accepts : Node → Bool) (owner : Expr String) (name : String) :
    Except TreeError Node := do
  let leaf ← checked accepts owner (.leaf (.symbol name))
  checked accepts owner (NodeType.reference.keyed [(.name, leaf)])

namespace Pattern

mutual

/-- the tree of a pattern of `owner` -/
def treeWith (accepts : Node → Bool) (owner : Expr String) : Pattern String → Except TreeError Node
  | name n => nameTree accepts owner n
  | wildcard => nameTree accepts owner Vocabulary.wildcard
  | tuple ps => do
    let nodes ← treesWith accepts owner ps
    let node := NodeType.tuple.sequence nodes
    if accepts node then .ok node
    else .error (node.rejected (tuple ps).render owner.span)

def treesWith (accepts : Node → Bool) (owner : Expr String) :
    List (Pattern String) → Except TreeError (List Node)
  | [] => .ok []
  | p :: ps => do
    let n ← treeWith accepts owner p
    let ns ← treesWith accepts owner ps
    return n :: ns

end

/-- the name of the field that holds the value of a definition -/
def valueField : Pattern String → String
  | name n => n
  | _ => Field.definiens.text

end Pattern

/-- the body of a function, from the trees of its statements -/
def bodyTree (accepts : Node → Bool) (owner : Expr String) : List Node → Except TreeError Node
  | [n] => .ok n
  | ns => checked accepts owner (NodeType.block.sequence ns)

/-- the node of a definition; the value's field must not be called like the pattern's -/
def definitionTree (accepts : Node → Bool) (owner : Expr String) (p : Pattern String)
    (pattern value : Node) : Except TreeError Node :=
  if p.valueField = Field.pattern.text then
    .error (.fieldCollision p.valueField owner.span)
  else
    checked accepts owner
      (.keyed NodeType.definition.tag [(Field.pattern.text, pattern), (p.valueField, value)])

namespace Expr

mutual

/-- the tree of an expression, if each of its nodes passes the test -/
def treeWith (accepts : Node → Bool) : Expr String → Except TreeError Node
  | program p body s => do
    let pattern ← p.treeWith accepts (program p body s)
    let nodes ← treesWith accepts body
    let block ← bodyTree accepts (program p body s) nodes
    checked accepts (program p body s) (NodeType.program.keyed [(.pattern, pattern), (.body, block)])
  | ifThen p t s => do
    let alternative ← literalTree accepts (ifThen p t s) .nil
    let predicate ← treeWith accepts p
    let consequent ← treeWith accepts t
    checked accepts (ifThen p t s) (NodeType.conditional.keyed
      [(.predicate, predicate), (.consequent, consequent), (.alternative, alternative)])
  | ifThenElse p t e s => do
    let alternative ← treeWith accepts e
    let predicate ← treeWith accepts p
    let consequent ← treeWith accepts t
    checked accepts (ifThenElse p t e s) (NodeType.conditional.keyed
      [(.predicate, predicate), (.consequent, consequent), (.alternative, alternative)])
  | block stmts s => do
    let nodes ← treesWith accepts stmts
    checked accepts (block stmts s) (NodeType.block.sequence nodes)
  | define p v s => do
    let pattern ← p.treeWith accepts (define p v s)
    let value ← treeWith accepts v
    definitionTree accepts (define p v s) p pattern value
  | withAddress t e s => do
    let tag ← treeWith accepts t
    let inner ← treeWith accepts e
    checked accepts (withAddress t e s)
      (NodeType.withAddress.keyed [(.tag, tag), (.expression, inner)])
  | tuple es s => do
    let nodes ← treesWith accepts es
    checked accepts (tuple es s) (NodeType.tuple.sequence nodes)
  | apply f args s => do
    let function ← treeWith accepts f
    let arguments ← treesWith accepts args
    checked accepts (apply f args s) (NodeType.application.sequence (function :: arguments))
  | literal l s => literalTree accepts (literal l s) l
  | var n s => nameTree accepts (var n s) n
  | this s => checked accepts (this s) (NodeType.this.keyed [])
  | splice e s => do
    let inner ← treeWith accepts e
    checked accepts (splice e s) (NodeType.splice.keyed [(.expression, inner)])
  | unquote e s => do
    let inner ← treeWith accepts e
    checked accepts (unquote e s) (NodeType.unquote.keyed [(.expression, inner)])

def treesWith (accepts : Node → Bool) : List (Expr String) → Except TreeError (List Node)
  | [] => .ok []
  | e :: es => do
    let n ← treeWith accepts e
    let ns ← treesWith accepts es
    return n :: ns

end

/-- the tree of an expression, each node being well formed -/
def tree (e : Expr String) : Except TreeError Node := e.treeWith Node.isWellFormed

end Expr

end TraceFront
