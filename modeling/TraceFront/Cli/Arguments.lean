import TraceFront.Cli.Path
import TraceFront.Diagnostic.Render
import TraceFront.Scope

/-!
# Arguments of the command line

The first argument is a command.  A path whose file name ends in `.prob`, in any case, compiles that
file.  The arguments of `compile` are flags and one path, in any order; whatever else stands there is
ignored with a warning.

* `CompileRequest`   what to compile and what to print;
* `Command.ofArgs`   the command that arguments spell.
-/

namespace TraceFront.Cli

structure CompileRequest where
  path : String
  printTree : Bool
  printCore : Bool
  ns : Namespace
  checkNodes : Bool
  color : Coloring
deriving DecidableEq

def CompileRequest.ofPath (path : String) : CompileRequest :=
  ⟨path, false, false, .user, true, .auto⟩

/-- the arguments of `compile` as far as they have been read -/
structure Reading where
  request : CompileRequest
  path : Option String
  ignored : List String

/-- the text after a given beginning, if the text starts with it -/
def after? (beginning text : String) : Option String :=
  if beginning.toList.isPrefixOf text.toList then
    some (String.ofList (text.toList.drop beginning.toList.length))
  else none

def Reading.step (r : Reading) (arg : String) : Reading :=
  if arg = "--tree" then { r with request := { r.request with printTree := true } }
  else if arg = "--core" then { r with request := { r.request with printCore := true } }
  else
    match after? "--ns=" arg with
    | some ns => { r with request := { r.request with ns := ⟨ns⟩ } }
    | none =>
      if arg = "--no-check" then { r with request := { r.request with checkNodes := false } }
      else if arg = "--no-color" then { r with request := { r.request with color := .never } }
      else if arg.toList.head? ≠ some '-' ∧ r.path = none then { r with path := some arg }
      else { r with ignored := r.ignored ++ [arg] }

def Reading.ofArgs (args : List String) : Reading :=
  args.foldl step ⟨.ofPath "", none, []⟩

/-- the request that the arguments of `compile` spell, if they name a path -/
def Reading.request? (r : Reading) : Option CompileRequest :=
  r.path.map fun path => { r.request with path }

/-! ## commands -/

inductive Command where
  | usage
  | version
  | compile (request : Option CompileRequest) (ignored : List String)
  | explain (code : Option String)
  | unknown (word : String)
deriving DecidableEq

def Command.ofArgs : List String → Command
  | [] => .usage
  | word :: rest =>
    if word = "compile" then
      let r := Reading.ofArgs rest
      .compile r.request? r.ignored
    else if word = "--explain" ∨ word = "explain" then .explain rest.head?
    else if word = "help" ∨ word = "--help" ∨ word = "-h" then .usage
    else if word = "version" ∨ word = "--version" ∨ word = "-v" then .version
    else if isSourcePath word then .compile (some (.ofPath word)) []
    else .unknown word

end TraceFront.Cli
