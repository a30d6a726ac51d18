import TraceFront.Text.Segments

/-!
# Paths

A path is a text with slashes between the names on the way to a file.

* `components`     the names that lead somewhere else;
* `extension?`     the extension of the file that a path names;
* `isSourcePath`   the path names a source file.
-/

namespace TraceFront.Cli

/-- the components of a path that name something: empty ones and dots are dropped -/
def components (path : List Char) : List (List Char) :=
  (Text.segments '/' path).filter fun part => part ≠ [] ∧ part ≠ ['.']

/-- the text after the last dot of a file name, unless that dot comes first or there is none -/
def nameExtension? (name : List Char) : Option (List Char) :=
  let extension := name.reverse.takeWhile (· != '.')
  let stem := (name.reverse.dropWhile (· != '.')).tail
  if stem.isEmpty then none else some extension.reverse

def extension? (path : String) : Option String :=
  match (components path.toList).getLast? with
  | none => none
  | some name =>
    if name = ['.', '.'] then none else (nameExtension? name).map String.ofList

def isSourcePath (path : String) : Bool :=
  (extension? path).any fun e => e.map Char.toLower == "prob"

end TraceFront.Cli
