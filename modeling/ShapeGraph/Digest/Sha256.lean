/-!
# SHA-256

The digest that identifies a bundle of documents.

## Main definitions

* `Sha256.digest` — the digest of some bytes, as eight words.
* `Sha256.hex` — a digest in hexadecimal.

## Implementation notes

Bytes are padded to blocks of sixteen words; each block is expanded to a schedule of sixty-four words
which stir the eight words of the state one after the other.
-/

set_option autoImplicit false

namespace ShapeGraph

namespace Sha256

/-! ## Constants -/

/-- The state before the first block. -/
def initialState : List UInt32 :=
  [0x6a09e667, 0xbb67ae85, 0x3c6ef372, 0xa54ff53a, 0x510e527f, 0x9b05688c, 0x1f83d9ab, 0x5be0cd19]

/-- The constant of each round. -/
def roundConstants : List UInt32 :=
  [0x428a2f98, 0x71374491, 0xb5c0fbcf, 0xe9b5dba5, 0x3956c25b, 0x59f111f1, 0x923f82a4, 0xab1c5ed5,
   0xd807aa98, 0x12835b01, 0x243185be, 0x550c7dc3, 0x72be5d74, 0x80deb1fe, 0x9bdc06a7, 0xc19bf174,
   0xe49b69c1, 0xefbe4786, 0x0fc19dc6, 0x240ca1cc, 0x2de92c6f, 0x4a7484aa, 0x5cb0a9dc, 0x76f988da,
   0x983e5152, 0xa831c66d, 0xb00327c8, 0xbf597fc7, 0xc6e00bf3, 0xd5a79147, 0x06ca6351, 0x14292967,
   0x27b70a85, 0x2e1b2138, 0x4d2c6dfc, 0x53380d13, 0x650a7354, 0x766a0abb, 0x81c2c92e, 0x92722c85,
   0xa2bfe8a1, 0xa81a664b, 0xc24b8b70, 0xc76c51a3, 0xd192e819, 0xd6990624, 0xf40e3585, 0x106aa070,
   0x19a4c116, 0x1e376c08, 0x2748774c, 0x34b0bcb5, 0x391c0cb3, 0x4ed8aa4a, 0x5b9cca4f, 0x682e6ff3,
   0x748f82ee, 0x78a5636f, 0x84c87814, 0x8cc70208, 0x90befffa, 0xa4506ceb, 0xbef9a3f7, 0xc67178f2]

/-! ## Padding -/

/-- The bytes of a number below `256 ^ n`, the most significant first. -/
def bigEndian : Nat → Nat → List UInt8
  | 0, _ => []
  | n + 1, value => bigEndian n (value / 256) ++ [UInt8.ofNat value]

/-- What follows the message: a one bit, zeros up to the last eight bytes of a block, and the number
of bits. -/
def padding (length : Nat) : List UInt8 :=
  0x80 :: List.replicate ((119 - length % 64) % 64) 0 ++ bigEndian 8 (8 * length)

/-- The words that bytes stand for, four each. -/
def wordsOf : List UInt8 → List UInt32
  | a :: b :: c :: d :: rest =>
    (a.toUInt32 <<< 24 ||| b.toUInt32 <<< 16 ||| c.toUInt32 <<< 8 ||| d.toUInt32) :: wordsOf rest
  | _ => []

/-- The blocks of sixteen words. -/
def blocksOf : Nat → List UInt32 → List (List UInt32)
  | 0, _ => []
  | n + 1, words => words.take 16 :: blocksOf n (words.drop 16)

/-! ## Compression -/

/-- Rotate a word to the right. -/
def rotate (x : UInt32) (n : UInt32) : UInt32 := x >>> n ||| x <<< (32 - n)

/-- The next word of the schedule, from the sixteen before it. -/
def nextWord (w : Array UInt32) : UInt32 :=
  let back (n : Nat) : UInt32 := w[w.size - n]?.getD 0
  let x := back 15
  let y := back 2
  let s := rotate x 7 ^^^ rotate x 18 ^^^ x >>> 3
  let t := rotate y 17 ^^^ rotate y 19 ^^^ y >>> 10
  back 16 + s + back 7 + t

/-- The schedule of a block. -/
def schedule (block : List UInt32) : Array UInt32 :=
  (List.range 48).foldl (fun w _ => w.push (nextWord w)) block.toArray

/-- One round: stir the state with a constant and a word of the schedule. -/
def stir (state : List UInt32) (input : UInt32 × UInt32) : List UInt32 :=
  match state with
  | [a, b, c, d, e, f, g, h] =>
    let s := rotate e 6 ^^^ rotate e 11 ^^^ rotate e 25
    let choice := (e &&& f) ^^^ (~~~e &&& g)
    let first := h + s + choice + input.1 + input.2
    let t := rotate a 2 ^^^ rotate a 13 ^^^ rotate a 22
    let majority := (a &&& b) ^^^ (a &&& c) ^^^ (b &&& c)
    [first + (t + majority), a, b, c, d + first, e, f, g]
  | other => other

/-- The state after a block. -/
def compress (state : List UInt32) (block : List UInt32) : List UInt32 :=
  let stirred := (roundConstants.zip (schedule block).toList).foldl stir state
  List.zipWith (· + ·) state stirred

/-- The digest of a message. -/
def digest (message : List UInt8) : List UInt32 :=
  let bytes := message ++ padding message.length
  (blocksOf (bytes.length / 64) (wordsOf bytes)).foldl compress initialState

/-- A word as eight hexadecimal digits. -/
def wordHex (w : UInt32) : String :=
  String.ofList ((List.range 8).map fun i => Nat.digitChar ((w.toNat >>> (4 * (7 - i))) % 16))

/-- A digest in hexadecimal. -/
def hex (words : List UInt32) : String := String.join (words.map wordHex)

end Sha256

end ShapeGraph
