import TraceFront.Text.Bytes
import TraceFront.Tree.Node

/-!
# Canonical bytes of a tree

A tree is written as bytes so that equal trees, and only those, have equal bytes.  Each part starts
with a marker byte; texts and children are preceded by their number.

* `lengthBytes`, `textBytes`, `Value.bytes`   the bytes of the parts;
* `Node.bytes`                                the bytes of a tree;
* `Node.encoding`                             the same after the version of the encoding.
-/

namespace TraceFront

def encodingVersion : UInt8 := 1

/-- the bytes of a word of 64 bits, least significant first -/
def wordBytes (w : UInt64) : List UInt8 :=
  [w.toUInt8, (w >>> 8).toUInt8, (w >>> 16).toUInt8, (w >>> 24).toUInt8,
   (w >>> 32).toUInt8, (w >>> 40).toUInt8, (w >>> 48).toUInt8, (w >>> 56).toUInt8]

def lengthBytes (n : Nat) : List UInt8 := wordBytes n.toUInt64

/-- the number of bytes of a text, and those bytes -/
def textBytes (s : String) : List UInt8 := lengthBytes s.utf8ByteSize ++ Text.bytes s

def Literal.bytes : Literal String → List UInt8
  | .nil => [0x11]
  | .bool b => [0x12, if b then 1 else 0]
  | .int n => 0x13 :: wordBytes n.toUInt64
  | .float x => 0x14 :: wordBytes x.bits
  | .str s => 0x15 :: textBytes s
  | .keyword k => 0x16 :: textBytes k

def Value.bytes : Value → List UInt8
  | .constant l => l.bytes
  | .symbol n => 0x17 :: textBytes n

def tagBytes : Option String → List UInt8
  | some t => 0x01 :: textBytes t
  | none => [0x02]

def valueBytes : Option Value → List UInt8
  | some v => v.bytes
  | none => [0x10]

namespace Node

mutual

def bytes : Node → List UInt8
  | ⟨t, v, c⟩ => tagBytes t ++ valueBytes v ++ childrenBytes c

/-- marker, number and bytes of the children -/
def childrenBytes : Children Node → List UInt8
  | .none => [0x20]
  | .keyed fs => 0x21 :: lengthBytes fs.length ++ fieldsBytes fs
  | .sequence ns => 0x22 :: lengthBytes ns.length ++ itemsBytes ns

def fieldsBytes : List (String × Node) → List UInt8
  | [] => []
  | (k, n) :: fs => textBytes k ++ n.bytes ++ fieldsBytes fs

def itemsBytes : List Node → List UInt8
  | [] => []
  | n :: ns => n.bytes ++ itemsBytes ns

end

def encoding (n : Node) : List UInt8 := encodingVersion :: n.bytes

end Node

end TraceFront
