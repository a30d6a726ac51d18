import TraceFront.Cli.File
import TraceFront.Cli.Path
import TraceFront.Text.Bytes

/-!
# Reading in a known directory

When all files of a directory are known, what comes of reading a path in it can be computed.  The
path is followed name by name: an empty name and a dot stay where they are, two dots go up, and every
other name goes down.  Each of them needs a directory to start from, so a slash after the name of a
file is refused.  Of what lies outside the directory only this is known, that it is no file.

* `Directory.ofFiles`   a directory with the given files;
* `Directory.step`      one name of a path;
* `Directory.read`      what comes of reading a path.
-/

namespace TraceFront.Cli

/-- the contents of files, each under the names on the way to it -/
structure Directory where
  files : List (List (List Char) × Except FileFault String)

inductive Place where
  /-- to a directory, by the names on the way to it -/
  | inside (names : List (List Char))
  /-- to a directory outside, where nothing is found -/
  | outside
  | file (contents : Except FileFault String)

namespace Directory

/-- the directory with the given files; a later one replaces an earlier one of the same path -/
def ofFiles (files : List (String × ByteArray)) : Directory :=
  ⟨files.reverse.map fun f => (components f.1.toList, textOfBytes f.2)⟩

/-- the most bytes in one name -/
def maxName : Nat := 255

/-- the most bytes in a path -/
def maxPath : Nat := 4095

def stays (name : List Char) : Bool := name = [] ∨ name = ['.']

def goesUp (name : List Char) : Bool := name = ['.', '.']

/-- what is found under the given names; a directory is there if a file is in it -/
def find (d : Directory) (names : List (List Char)) : Except FileFault Place :=
  match d.files.lookup names with
  | some contents => .ok (.file contents)
  | none => if d.files.any (names.isPrefixOf ·.1) then .ok (.inside names) else .error .missing

def step (d : Directory) (place : Place) (name : List Char) : Except FileFault Place :=
  match place with
  | .file _ => .error (.refused .notDirectory)
  | .inside names =>
    if stays name then .ok (.inside names)
    else if goesUp name then .ok (if names.isEmpty then .outside else .inside names.dropLast)
    else if maxName < Text.byteLength name then .error (.refused .nameTooLong)
    else d.find (names ++ [name])
  | .outside =>
    if stays name || goesUp name then .ok .outside
    else if maxName < Text.byteLength name then .error (.refused .nameTooLong)
    else .error .missing

def follow (d : Directory) (place : Place) : List (List Char) → Except FileFault Place
  | [] => .ok place
  | name :: names =>
    match d.step place name with
    | .ok next => d.follow next names
    | .error fault => .error fault

/-- where a path starts: one with a slash in front does not start in the directory -/
def start (path : List Char) : Place := if path.head? = some '/' then .outside else .inside []

def read (d : Directory) (path : String) : Except FileFault String :=
  if path.isEmpty then .error .missing
  else if maxPath < path.utf8ByteSize then .error (.refused .nameTooLong)
  else
    match d.follow (start path.toList) (Text.segments '/' path.toList) with
    | .ok (.file contents) => contents
    | .ok _ => .error (.refused .isDirectory)
    | .error fault => .error fault

theorem follow_append (d : Directory) (place : Place) (names names' : List (List Char)) :
    d.follow place (names ++ names') =
      match d.follow place names with
      | .ok next => d.follow next names'
      | .error fault => .error fault := by
  induction names generalizing place with
  | nil => rfl
  | cons name names ih =>
    simp only [List.cons_append, follow]
    cases d.step place name with
    | ok next => exact ih next
    | error fault => rfl

end Directory

end TraceFront.Cli
