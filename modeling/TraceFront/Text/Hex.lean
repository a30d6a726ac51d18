/-!
# Bytes in hexadecimal

* `hexOfBytes`   two lower-case digits for each byte.
-/

namespace TraceFront.Text

def hexDigit (n : Nat) : Char := Nat.digitChar n

/-- two lower-case hexadecimal digits for each byte -/
def hexOfBytes (bytes : List UInt8) : String :=
  String.ofList (bytes.flatMap fun b => [hexDigit (b.toNat / 16), hexDigit (b.toNat % 16)])

end TraceFront.Text
