/-!
# The types of nodes

A compiled tree has twelve types of nodes.

| tag            | children                                         |
|----------------|--------------------------------------------------|
| `program`      | `pattern`, `body`                                |
| `if`           | `predicate`, `then`, `else`                      |
| `block`        | sequence                                         |
| `with_address` | `tag`, `expression`                              |
| `definition`   | `pattern`, then the bound name or `definiens`    |
| `application`  | sequence: operator, operands                     |
| `tuple`        | sequence                                         |
| `literal`      | `value`                                          |
| `variable`     | `name`                                           |
| `this`         | none                                             |
| `splice`       | `expression`                                     |
| `unquote`      | `expression`                                     |

* `NodeType.tag`      the tag of a type, and `NodeType.ofTag?` the type of a tag;
* `NodeType.layout`   the row of the table.
-/

namespace TraceFront

inductive Field where
  | pattern
  | body
  | predicate
  | consequent
  | alternative
  | tag
  | expression
  | definiens
  | value
  | name
deriving DecidableEq, Inhabited

def Field.text : Field → String
  | pattern => "pattern"
  | body => "body"
  | predicate => "predicate"
  | consequent => "then"
  | alternative => "else"
  | tag => "tag"
  | expression => "expression"
  | definiens => "definiens"
  | value => "value"
  | name => "name"

inductive NodeType where
  | program
  | conditional
  | block
  | withAddress
  | definition
  | application
  | tuple
  | literal
  | reference
  | this
  | splice
  | unquote
deriving DecidableEq, Inhabited

/-- how the children of a node are laid out -/
inductive Layout where
  /-- exactly these fields, in this order -/
  | fields (names : List Field)
  /-- any number of children in a sequence -/
  | sequence
  /-- the field `pattern` and one more field, whose name depends on the pattern -/
  | definition
deriving DecidableEq, Inhabited

namespace NodeType

def tag : NodeType → String
  | program => "program"
  | conditional => "if"
  | block => "block"
  | withAddress => "with_address"
  | definition => "definition"
  | application => "application"
  | tuple => "tuple"
  | literal => "literal"
  | reference => "variable"
  | this => "this"
  | splice => "splice"
  | unquote => "unquote"

def all : List NodeType :=
  [program, conditional, block, withAddress, definition, application, tuple, literal, reference,
   this, splice, unquote]

def ofTag? (s : String) : Option NodeType := all.find? fun t => t.tag == s

def layout : NodeType → Layout
  | program => .fields [.pattern, .body]
  | conditional => .fields [.predicate, .consequent, .alternative]
  | block => .sequence
  | withAddress => .fields [.tag, .expression]
  | definition => .definition
  | application => .sequence
  | tuple => .sequence
  | literal => .fields [.value]
  | reference => .fields [.name]
  | this => .fields []
  | splice => .fields [.expression]
  | unquote => .fields [.expression]

/-- the names of the fields of a type that has a fixed list of them -/
def fieldNames? (t : NodeType) : Option (List String) :=
  match t.layout with
  | .fields names => some (names.map Field.text)
  | _ => none

def isSequence (t : NodeType) : Bool := t.layout = .sequence

@[simp] theorem ofTag?_tag (t : NodeType) : ofTag? t.tag = some t := by
  cases t <;> decide

theorem tag_injective {t u : NodeType} (h : t.tag = u.tag) : t = u := by
  simpa using congrArg ofTag? h

end NodeType

end TraceFront
