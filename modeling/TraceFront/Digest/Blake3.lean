/-!
# The BLAKE3 hash of a byte string

The input is cut into chunks of 1024 bytes and each chunk into blocks of 64 bytes, the last block
being filled up with zeros.  A compression step turns a chaining value of eight words and a block of
sixteen words into a new chaining value.  Chunks start from a fixed value; the values of neighbouring
chunks are joined in pairs, level by level, until one is left.

* `compress`     one compression step;
* `chunkValue`   the value of a chunk;
* `root`         the value of two or more chunks;
* `hash`         the 32 bytes of the hash.
-/

namespace TraceFront.Digest.Blake3

abbrev Chain := Vector UInt32 8

/-- a block of a message, or the working state of a compression step -/
abbrev Block := Vector UInt32 16

/-- the chaining value that chunks start from -/
def start : Chain :=
  #v[0x6a09e667, 0xbb67ae85, 0x3c6ef372, 0xa54ff53a, 0x510e527f, 0x9b05688c, 0x1f83d9ab, 0x5be0cd19]

/-- the order in which the words of a block are used in the next round -/
def order : Vector (Fin 16) 16 := #v[2, 6, 3, 10, 7, 0, 4, 13, 1, 11, 12, 5, 9, 14, 15, 8]

/-! ## flags of a compression step -/

def chunkStart : UInt32 := 1

def chunkEnd : UInt32 := 2

/-- a pair of chaining values -/
def parent : UInt32 := 4

/-- the last step of all -/
def final : UInt32 := 8

/-! ## compression -/

/-- rotation by `k` places to the right, for `0 < k < 32` -/
def rotateRight (x : UInt32) (k : UInt32) : UInt32 := (x >>> k) ||| (x <<< (32 - k))

def mix (s : Block) (a b c d : Fin 16) (x y : UInt32) : Block :=
  let a₁ := s.get a + s.get b + x
  let d₁ := rotateRight (s.get d ^^^ a₁) 16
  let c₁ := s.get c + d₁
  let b₁ := rotateRight (s.get b ^^^ c₁) 12
  let a₂ := a₁ + b₁ + y
  let d₂ := rotateRight (d₁ ^^^ a₂) 8
  let c₂ := c₁ + d₂
  let b₂ := rotateRight (b₁ ^^^ c₂) 7
  (((s.set a a₂ a.isLt).set b b₂ b.isLt).set c c₂ c.isLt).set d d₂ d.isLt

/-- one round: the columns of the state, then its diagonals -/
def round (s m : Block) : Block :=
  let s := mix s 0 4 8 12 (m.get 0) (m.get 1)
  let s := mix s 1 5 9 13 (m.get 2) (m.get 3)
  let s := mix s 2 6 10 14 (m.get 4) (m.get 5)
  let s := mix s 3 7 11 15 (m.get 6) (m.get 7)
  let s := mix s 0 5 10 15 (m.get 8) (m.get 9)
  let s := mix s 1 6 11 12 (m.get 10) (m.get 11)
  let s := mix s 2 7 8 13 (m.get 12) (m.get 13)
  mix s 3 4 9 14 (m.get 14) (m.get 15)

/-- `n` rounds, with the words of the message reordered in between -/
def rounds : Nat → Block → Block → Block
  | 0, s, _ => s
  | n + 1, s, m => rounds n (round s m) (Vector.ofFn fun i => m.get (order.get i))

def initial (cv : Chain) (counter : UInt64) (length flags : UInt32) : Block :=
  #v[cv.get 0, cv.get 1, cv.get 2, cv.get 3, cv.get 4, cv.get 5, cv.get 6, cv.get 7,
    start.get 0, start.get 1, start.get 2, start.get 3,
    counter.toUInt32, (counter >>> 32).toUInt32, length, flags]

def compress (cv : Chain) (m : Block) (counter : UInt64) (length flags : UInt32) : Chain :=
  let s := rounds 7 (initial cv counter length flags) m
  Vector.ofFn fun i : Fin 8 => s.get ⟨i, by omega⟩ ^^^ s.get ⟨i + 8, by omega⟩

/-! ## chunks -/

/-- the little-endian word at a position; bytes past the end count as zero -/
def wordAt (input : Array UInt8) (i : Nat) : UInt32 :=
  let byte (j : Nat) : UInt32 := (input[i + j]?.getD 0).toUInt32
  byte 0 ||| (byte 1 <<< 8) ||| (byte 2 <<< 16) ||| (byte 3 <<< 24)

def blockAt (input : Array UInt8) (j : Nat) : Block :=
  Vector.ofFn fun k : Fin 16 => wordAt input (64 * j + 4 * k)

/-- the number of blocks; no input is one empty block -/
def blockCount (input : Array UInt8) : Nat := max 1 ((input.size + 63) / 64)

def chunkCount (input : Array UInt8) : Nat := (blockCount input + 15) / 16

/-- the value of the chunk with number `c`; `last` is added to the flags of its last block -/
def chunkValue (input : Array UInt8) (last : UInt32) (c : Nat) : Chain :=
  let blocks := min 16 (blockCount input - 16 * c)
  (List.range blocks).foldl (fun cv k =>
    let j := 16 * c + k
    let flags := (if k = 0 then chunkStart else 0) |||
      (if k + 1 = blocks then chunkEnd ||| last else 0)
    compress cv (blockAt input j) c.toUInt64 (min 64 (input.size - 64 * j)).toUInt32 flags) start

/-! ## the tree of chunks -/

def join (flags : UInt32) (a b : Chain) : Chain := compress start (a ++ b) 0 64 (parent ||| flags)

/-- neighbours joined in pairs; one without a neighbour is kept -/
def joinPairs : List Chain → List Chain
  | a :: b :: cs => join 0 a b :: joinPairs cs
  | cs => cs

theorem joinPairs_length_le (cs : List Chain) : (joinPairs cs).length ≤ cs.length := by
  fun_induction joinPairs cs with
  | case1 a b cs ih => simp; omega
  | case2 => exact Nat.le_refl _

def root : List Chain → Chain
  | [] => start
  | [a] => a
  | [a, b] => join final a b
  | a :: b :: c :: cs => root (join 0 a b :: joinPairs (c :: cs))
termination_by cs => cs.length
decreasing_by
  have := joinPairs_length_le (c :: cs)
  simp only [List.length_cons] at *
  omega

/-- the bytes of a word, least significant first -/
def wordBytes (w : UInt32) : List UInt8 :=
  [w.toUInt8, (w >>> 8).toUInt8, (w >>> 16).toUInt8, (w >>> 24).toUInt8]

def digest (input : Array UInt8) : Chain :=
  if chunkCount input ≤ 1 then chunkValue input final 0
  else root ((List.range (chunkCount input)).map (chunkValue input 0))

def hash (input : List UInt8) : List UInt8 := (digest input.toArray).toList.flatMap wordBytes

end TraceFront.Digest.Blake3
