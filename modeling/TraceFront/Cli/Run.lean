import TraceFront.Cli.Arguments
import TraceFront.Cli.File
import TraceFront.Session

/-!
# What the command line answers

Every command has an outcome: an exit code and the texts for the two output streams.  Compiling
prints the trees and the core terms that were asked for and one line for each procedure; diagnostics
and their summary go to the error stream.

* `Outcome`   exit code and output;
* `report`    the outcome of compiling a text;
* `run`       the outcome of a command line, given what comes of reading files.
-/

namespace TraceFront.Cli

structure Outcome where
  exit : Nat
  stdout : String
  stderr : String
deriving DecidableEq

def lines (ls : List String) : String := String.join (ls.map (· ++ "\n"))

def usage : String := lines
  ["Prob front end",
   "",
   "Usage: probc <command> [options]",
   "",
   "Commands:",
   "  compile <file.prob>  Compile a source file and report diagnostics",
   "  --explain <code>     Explain an error code (e.g., E2001)",
   "  help                 Show this help message",
   "  version              Show version information",
   "",
   "Compile options:",
   "  --tree               Print the trace tree of every form",
   "  --core               Print the desugared core form of every form",
   "  --ns=<name>          Namespace procedures capture (default: user)",
   "  --no-check           Skip the per-node well-formedness check",
   "  --no-color           Plain diagnostics",
   "",
   "Examples:",
   "  probc compile model.prob --tree",
   "  probc compile model.prob --core --ns=models",
   "  probc --explain W3001"]

def compileUsage : String := lines
  ["Usage: probc compile <file.prob> [options]",
   "",
   "Options:",
   "  --tree           Print the trace tree of every form",
   "  --core           Print the desugared core form of every form",
   "  --ns=<name>      Namespace procedures capture (default: user)",
   "  --no-check       Skip the per-node well-formedness check",
   "  --no-color       Plain diagnostics"]

def explainUsage : String := lines
  ["Usage: probc --explain <ERROR_CODE>",
   "Example: probc --explain E2001"]

def version : String := lines ["probc 0.1.0-alpha.1"]

/-! ## explanations -/

def explain (text : String) : Outcome :=
  match Code.read? text with
  | some code =>
    ⟨0, lines [code.text ++ " (" ++ code.stage.title ++ "): " ++ code.description], ""⟩
  | none =>
    ⟨1, "", lines
      ["Unknown error code: " ++ text,
       "",
       "Codes have the format EXXXX (errors) or WXXXX (warnings) where X is a digit.",
       "Examples: E0001, E1001, E2001, W3001"]⟩

/-! ## compilation -/

/-- the tree and the core term of the form with number `i`, as far as they were asked for -/
def formLines {σ : Type} (r : CompileRequest) (i : Nat) (f : Form String σ) : List String :=
  (if r.printTree || r.printCore then [";; form " ++ i.repr] else []) ++
  (if r.printTree then [f.tree.render] else []) ++
  (if r.printCore then [f.core.render] else [])

def formsLines {σ : Type} (r : CompileRequest) (i : Nat) : List (Form String σ) → List String
  | [] => []
  | f :: fs => formLines r i f ++ formsLines r (i + 1) fs

def procedureLine {σ : Type} (p : Procedure String σ) : String :=
  p.name.getD "<anonymous>" ++ " " ++ p.identity.render ++ " (" ++ p.body.size.repr ++ " nodes)"

def report (terminal : Bool) (r : CompileRequest) (source : String) : Outcome :=
  let renderer : Renderer := ⟨r.color.enabled terminal, some ⟨r.path, source⟩⟩
  let options : Options := { Options.default with ns := r.ns, checkNodes := r.checkNodes }
  match Session.empty.compile options source with
  | (.error e, _) => ⟨1, "", renderer.diagnostic e.diagnostic ++ renderer.summary 1 0⟩
  | (.ok forms, session) =>
    let forms := forms.map session.spell
    let warnings := forms.flatMap (·.warnings)
    ⟨0, lines (formsLines r 0 forms ++ (forms.filterMap (·.procedure)).map procedureLine),
      renderer.diagnostics warnings ++ renderer.summary 0 warnings.length⟩

def compileFile (terminal : Bool) (r : CompileRequest) : Except FileFault String → Outcome
  | .ok source => report terminal r source
  | .error fault => ⟨1, "", lines [fault.report r.path]⟩

/-! ## commands -/

def ignoredLines (ignored : List String) : String :=
  lines (ignored.map fun arg => "warning: ignoring unknown option '" ++ arg ++ "'")

def Command.path? : Command → Option String
  | .compile (some r) _ => some r.path
  | _ => none

/-- the outcome of a command, given what comes of reading its file -/
def Command.outcome (terminal : Bool) (file : Except FileFault String) : Command → Outcome
  | .usage => ⟨0, Cli.usage, ""⟩
  | .version => ⟨0, Cli.version, ""⟩
  | .explain none => ⟨1, "", explainUsage⟩
  | .explain (some code) => Cli.explain code
  | .unknown word => ⟨1, Cli.usage, lines ["Unknown command: " ++ word, ""]⟩
  | .compile none ignored => ⟨1, "", ignoredLines ignored ++ compileUsage⟩
  | .compile (some r) ignored =>
    let o := compileFile terminal r file
    { o with stderr := ignoredLines ignored ++ o.stderr }

/-- the outcome of a command line, given what comes of reading files -/
def run (terminal : Bool) (files : String → Except FileFault String) (args : List String) :
    Outcome :=
  let command := Command.ofArgs args
  command.outcome terminal (files (command.path?.getD ""))

end TraceFront.Cli
