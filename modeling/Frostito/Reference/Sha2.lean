import Mathlib.Data.List.Basic
import Frostito.Curve

/-!
# SHA-2

SHA-256 and SHA-512 as FIPS 180-4 defines them.  The protocols take the two functions as a
parameter; this is the instance they have in use.  The two functions differ in the width of
a word, in the rotations and in the number of rounds, and the constants of the narrower one
are the upper halves of those of the wider one.
-/

namespace Frostito.Reference

/-- The upper 64 bits of the fractional parts of the cube roots of the first 80 primes. -/
def roundConstants : List ℕ := [
  0x428a2f98d728ae22, 0x7137449123ef65cd, 0xb5c0fbcfec4d3b2f, 0xe9b5dba58189dbbc,
  0x3956c25bf348b538, 0x59f111f1b605d019, 0x923f82a4af194f9b, 0xab1c5ed5da6d8118,
  0xd807aa98a3030242, 0x12835b0145706fbe, 0x243185be4ee4b28c, 0x550c7dc3d5ffb4e2,
  0x72be5d74f27b896f, 0x80deb1fe3b1696b1, 0x9bdc06a725c71235, 0xc19bf174cf692694,
  0xe49b69c19ef14ad2, 0xefbe4786384f25e3, 0x0fc19dc68b8cd5b5, 0x240ca1cc77ac9c65,
  0x2de92c6f592b0275, 0x4a7484aa6ea6e483, 0x5cb0a9dcbd41fbd4, 0x76f988da831153b5,
  0x983e5152ee66dfab, 0xa831c66d2db43210, 0xb00327c898fb213f, 0xbf597fc7beef0ee4,
  0xc6e00bf33da88fc2, 0xd5a79147930aa725, 0x06ca6351e003826f, 0x142929670a0e6e70,
  0x27b70a8546d22ffc, 0x2e1b21385c26c926, 0x4d2c6dfc5ac42aed, 0x53380d139d95b3df,
  0x650a73548baf63de, 0x766a0abb3c77b2a8, 0x81c2c92e47edaee6, 0x92722c851482353b,
  0xa2bfe8a14cf10364, 0xa81a664bbc423001, 0xc24b8b70d0f89791, 0xc76c51a30654be30,
  0xd192e819d6ef5218, 0xd69906245565a910, 0xf40e35855771202a, 0x106aa07032bbd1b8,
  0x19a4c116b8d2d0c8, 0x1e376c085141ab53, 0x2748774cdf8eeb99, 0x34b0bcb5e19b48a8,
  0x391c0cb3c5c95a63, 0x4ed8aa4ae3418acb, 0x5b9cca4f7763e373, 0x682e6ff3d6b2b8a3,
  0x748f82ee5defb2fc, 0x78a5636f43172f60, 0x84c87814a1f0ab72, 0x8cc702081a6439ec,
  0x90befffa23631e28, 0xa4506cebde82bde9, 0xbef9a3f7b2c67915, 0xc67178f2e372532b,
  0xca273eceea26619c, 0xd186b8c721c0c207, 0xeada7dd6cde0eb1e, 0xf57d4f7fee6ed178,
  0x06f067aa72176fba, 0x0a637dc5a2c898a6, 0x113f9804bef90dae, 0x1b710b35131c471b,
  0x28db77f523047d84, 0x32caab7b40c72493, 0x3c9ebe0a15c9bebc, 0x431d67c49c100d4c,
  0x4cc5d4becb3e42b6, 0x597f299cfc657e2a, 0x5fcb6fab3ad6faec, 0x6c44198c4a475817]

/-- The upper 64 bits of the fractional parts of the square roots of the first 8 primes. -/
def initialHash : List ℕ := [
  0x6a09e667f3bcc908, 0xbb67ae8584caa73b, 0x3c6ef372fe94f82b, 0xa54ff53a5f1d36f1,
  0x510e527fade682d1, 0x9b05688c2b3e6c1f, 0x1f83d9abfb41bd6b, 0x5be0cd19137e2179]

/-- What the functions differ in. -/
structure Sha2Variant (w : ℕ) where
  constants : List (BitVec w)
  initial : List (BitVec w)
  bigSigma0 : BitVec w → BitVec w
  bigSigma1 : BitVec w → BitVec w
  smallSigma0 : BitVec w → BitVec w
  smallSigma1 : BitVec w → BitVec w

/-- The parameters of SHA-256. -/
def sha256Variant : Sha2Variant 32 where
  constants := (roundConstants.take 64).map fun k => BitVec.ofNat 32 (k >>> 32)
  initial := initialHash.map fun h => BitVec.ofNat 32 (h >>> 32)
  bigSigma0 x := x.rotateRight 2 ^^^ x.rotateRight 13 ^^^ x.rotateRight 22
  bigSigma1 x := x.rotateRight 6 ^^^ x.rotateRight 11 ^^^ x.rotateRight 25
  smallSigma0 x := x.rotateRight 7 ^^^ x.rotateRight 18 ^^^ x >>> 3
  smallSigma1 x := x.rotateRight 17 ^^^ x.rotateRight 19 ^^^ x >>> 10

/-- The parameters of SHA-512. -/
def sha512Variant : Sha2Variant 64 where
  constants := roundConstants.map fun k => BitVec.ofNat 64 k
  initial := initialHash.map fun h => BitVec.ofNat 64 h
  bigSigma0 x := x.rotateRight 28 ^^^ x.rotateRight 34 ^^^ x.rotateRight 39
  bigSigma1 x := x.rotateRight 14 ^^^ x.rotateRight 18 ^^^ x.rotateRight 41
  smallSigma0 x := x.rotateRight 1 ^^^ x.rotateRight 8 ^^^ x >>> 7
  smallSigma1 x := x.rotateRight 19 ^^^ x.rotateRight 61 ^^^ x >>> 6

namespace Sha2Variant

variable {w : ℕ} (v : Sha2Variant w)

/-- The message schedule of one block of sixteen words. -/
def schedule (block : List (BitVec w)) : List (BitVec w) :=
  (List.range (v.constants.length - 16)).foldl (fun ws t =>
    ws ++ [v.smallSigma1 (ws.getD (t + 14) 0) + ws.getD (t + 9) 0 +
      v.smallSigma0 (ws.getD (t + 1) 0) + ws.getD t 0]) block

/-- One round on the eight working variables. -/
def round (state : List (BitVec w)) (kw : BitVec w × BitVec w) : List (BitVec w) :=
  match state with
  | [a, b, c, d, e, f, g, h] =>
    let t1 := h + v.bigSigma1 e + ((e &&& f) ^^^ (~~~e &&& g)) + kw.1 + kw.2
    let t2 := v.bigSigma0 a + ((a &&& b) ^^^ (a &&& c) ^^^ (b &&& c))
    [t1 + t2, a, b, c, d + t1, e, f, g]
  | _ => state

/-- The intermediate hash value after one more block. -/
def compressBlock (hash : List (BitVec w)) (block : List (BitVec w)) : List (BitVec w) :=
  hash.zipWith (· + ·) ((v.constants.zip (v.schedule block)).foldl v.round hash)

/-- The message, a one bit, zeros up to the end of a block, and the bit length. -/
def pad (w : ℕ) (message : Bytes) : Bytes :=
  let blockSize := 2 * w
  let used := message.length + 1 + w / 4
  message ++ [0x80] ++ List.replicate ((blockSize - used % blockSize) % blockSize) 0 ++
    (Framing.leBytes (w / 4) (8 * message.length)).reverse

/-- The words of a byte string, most significant byte first. -/
def toWords (w : ℕ) (bytes : Bytes) : List (BitVec w) :=
  (bytes.toChunks (w / 8)).map fun chunk => BitVec.ofNat w (Framing.ofLeBytes chunk.reverse)

/-- The digest of a message. -/
def digest (message : Bytes) : Bytes :=
  let blocks := (toWords w (pad w message)).toChunks 16
  (blocks.foldl v.compressBlock v.initial).flatMap fun word =>
    (Framing.leBytes (w / 8) word.toNat).reverse

end Sha2Variant

/-- A byte string cut, or filled with zeros, to `n` bytes. -/
def toArray (n : ℕ) (bytes : Bytes) : Vector UInt8 n := ⟨(bytes.takeD n 0).toArray, by simp⟩

/-- The SHA-2 functions. -/
scoped instance sha2 : Sha2 where
  sha256 message := toArray 32 (sha256Variant.digest message)
  sha512 message := toArray 64 (sha512Variant.digest message)

end Frostito.Reference
