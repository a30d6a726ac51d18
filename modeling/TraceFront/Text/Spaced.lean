/-!
# Texts side by side

* `spaced`          texts with one space between neighbours;
* `parenthesized`   the same in round brackets, `bracketed` in square ones;
* `repeated`        copies of one character.
-/

namespace TraceFront.Text

/-- the texts with one space between neighbours -/
def spaced (parts : List String) : String := " ".intercalate parts

def parenthesized (parts : List String) : String := "(" ++ spaced parts ++ ")"

def bracketed (parts : List String) : String := "[" ++ spaced parts ++ "]"

def repeated (c : Char) (n : Nat) : String := String.ofList (List.replicate n c)

end TraceFront.Text
