import TraceFront.Digest.Blake3
import TraceFront.Text.Hex
import TraceFront.Tree.Encoding

/-!
# Identity of trees

The identity of a tree is the hash of its canonical bytes.  It depends on tags, values, names and
the order of children only.  Nothing is asked of the hash, and what is said about identities holds
for every one.

* `ContentHash`        a hash; where none is given, it is BLAKE3;
* `Identity.ofNode`    the identity of a tree;
* `Identity.hex`       its 64 digits, `Identity.short` the first twelve, and `Identity.render` those
                       after a hash sign;
* `Identity.compare`   byte by byte.
-/

namespace TraceFront

class ContentHash where
  hash : List UInt8 → List UInt8

instance : ContentHash := ⟨Digest.Blake3.hash⟩

/-- a hash of 32 bytes -/
structure Identity where
  bytes : List UInt8
deriving DecidableEq, Inhabited

namespace Identity

def ofNode [ContentHash] (n : Node) : Identity := ⟨ContentHash.hash n.encoding⟩

def hex (k : Identity) : String := Text.hexOfBytes k.bytes

def short (k : Identity) : String := String.ofList (k.hex.toList.take 12)

def render (k : Identity) : String := "#" ++ k.short

def compare (a b : Identity) : Ordering :=
  List.compareLex (fun x y => compareOfLessAndEq x y) a.bytes b.bytes

end Identity

end TraceFront
