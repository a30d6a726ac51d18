/-!
# What comes of reading a file

A file is read as text.  That fails when there is no such file, when its bytes are no text, and when
the system refuses to read it.

* `Refusal`            why the system refuses, with its number and its words;
* `FileFault.report`   what is said about a path that could not be read;
* `textOfBytes`        the text of a file with given bytes.
-/

namespace TraceFront.Cli

/-- why the system refuses to read a path -/
inductive Refusal where
  | accessDenied
  | notDirectory
  | isDirectory
  | nameTooLong
  /-- another reason, in the words of the system -/
  | other (number : Nat) (words : String)
deriving DecidableEq

namespace Refusal

def number : Refusal → Nat
  | accessDenied => 13
  | notDirectory => 20
  | isDirectory => 21
  | nameTooLong => 36
  | other n _ => n

def words : Refusal → String
  | accessDenied => "Permission denied"
  | notDirectory => "Not a directory"
  | isDirectory => "Is a directory"
  | nameTooLong => "File name too long"
  | other _ w => w

def message (r : Refusal) : String := r.words ++ " (os error " ++ r.number.repr ++ ")"

/-- the reason with a number, in the given words if it has none of its own -/
def ofNumber (n : Nat) (words : String) : Refusal :=
  ([accessDenied, notDirectory, isDirectory, nameTooLong].find? (·.number == n)).getD
    (.other n words)

theorem number_ofNumber (n : Nat) (words : String) : (ofNumber n words).number = n := by
  unfold ofNumber
  cases h : [accessDenied, notDirectory, isDirectory, nameTooLong].find? (·.number == n) with
  | none => rfl
  | some r => simpa using List.find?_some h

end Refusal

/-- why a file could not be read as text -/
inductive FileFault where
  | missing
  | notText
  | refused (reason : Refusal)
deriving DecidableEq

def FileFault.report (path : String) : FileFault → String
  | missing => "cannot find file '" ++ path ++ "'"
  | notText => "'" ++ path ++ "' contains invalid UTF-8 data"
  | refused reason => "error reading '" ++ path ++ "': " ++ reason.message

def textOfBytes (bytes : ByteArray) : Except FileFault String :=
  match String.fromUTF8? bytes with
  | some text => .ok text
  | none => .error .notText

end TraceFront.Cli
