import Kraken.Basic

/-!
# SHA-256 and `digest.FromBytes`

The hash of FIPS 180-4 over a byte list, as `crypto/sha256` computes it, and the
digest string `go-digest` builds from it: `"sha256:"` and the sum in lowercase hex.
Nothing later looks inside the rounds: the proofs use only that a sum is 32 bytes,
so its hex form is 64 lowercase hex characters.
-/

namespace Kraken.Sha256

/-- The round constants `K` of FIPS 180-4, section 4.2.2. -/
def roundConstants : List UInt32 :=
  [0x428a2f98, 0x71374491, 0xb5c0fbcf, 0xe9b5dba5, 0x3956c25b, 0x59f111f1, 0x923f82a4, 0xab1c5ed5,
   0xd807aa98, 0x12835b01, 0x243185be, 0x550c7dc3, 0x72be5d74, 0x80deb1fe, 0x9bdc06a7, 0xc19bf174,
   0xe49b69c1, 0xefbe4786, 0x0fc19dc6, 0x240ca1cc, 0x2de92c6f, 0x4a7484aa, 0x5cb0a9dc, 0x76f988da,
   0x983e5152, 0xa831c66d, 0xb00327c8, 0xbf597fc7, 0xc6e00bf3, 0xd5a79147, 0x06ca6351, 0x14292967,
   0x27b70a85, 0x2e1b2138, 0x4d2c6dfc, 0x53380d13, 0x650a7354, 0x766a0abb, 0x81c2c92e, 0x92722c85,
   0xa2bfe8a1, 0xa81a664b, 0xc24b8b70, 0xc76c51a3, 0xd192e819, 0xd6990624, 0xf40e3585, 0x106aa070,
   0x19a4c116, 0x1e376c08, 0x2748774c, 0x34b0bcb5, 0x391c0cb3, 0x4ed8aa4a, 0x5b9cca4f, 0x682e6ff3,
   0x748f82ee, 0x78a5636f, 0x84c87814, 0x8cc70208, 0x90befffa, 0xa4506ceb, 0xbef9a3f7, 0xc67178f2]

/-- The eight working variables, which are also the chaining value. -/
structure State where
  a : UInt32
  b : UInt32
  c : UInt32
  d : UInt32
  e : UInt32
  f : UInt32
  g : UInt32
  h : UInt32

/-- The initial hash value `H(0)`, section 5.3.3. -/
def State.init : State :=
  ⟨0x6a09e667, 0xbb67ae85, 0x3c6ef372, 0xa54ff53a, 0x510e527f, 0x9b05688c, 0x1f83d9ab, 0x5be0cd19⟩

def rotr (x n : UInt32) : UInt32 := (x >>> n) ||| (x <<< (32 - n))

def bigSigma0 (x : UInt32) : UInt32 := rotr x 2 ^^^ rotr x 13 ^^^ rotr x 22

def bigSigma1 (x : UInt32) : UInt32 := rotr x 6 ^^^ rotr x 11 ^^^ rotr x 25

def smallSigma0 (x : UInt32) : UInt32 := rotr x 7 ^^^ rotr x 18 ^^^ (x >>> 3)

def smallSigma1 (x : UInt32) : UInt32 := rotr x 17 ^^^ rotr x 19 ^^^ (x >>> 10)

/-- The big-endian words of a block. -/
def words : List UInt8 → List UInt32
  | b0 :: b1 :: b2 :: b3 :: rest =>
      ((b0.toUInt32 <<< 24) ||| (b1.toUInt32 <<< 16) ||| (b2.toUInt32 <<< 8) ||| b3.toUInt32) ::
        words rest
  | _ => []

/-- `n` more schedule words, newest first: `W(t) = σ1(W(t-2)) + W(t-7) + σ0(W(t-15)) + W(t-16)`. -/
def extend : Nat → List UInt32 → List UInt32
  | 0, ws => ws
  | n + 1, ws =>
      let w := smallSigma1 (ws.getD 1 0) + ws.getD 6 0 + smallSigma0 (ws.getD 14 0) + ws.getD 15 0
      extend n (w :: ws)

/-- The message schedule of one 64-byte block, section 6.2.2 step 1. -/
def schedule (block : List UInt8) : List UInt32 := (extend 48 (words block).reverse).reverse

/-- One of the sixty-four rounds, section 6.2.2 step 3. -/
def round (s : State) (kw : UInt32 × UInt32) : State :=
  let t1 := s.h + bigSigma1 s.e + ((s.e &&& s.f) ^^^ (~~~s.e &&& s.g)) + kw.1 + kw.2
  let t2 := bigSigma0 s.a + ((s.a &&& s.b) ^^^ (s.a &&& s.c) ^^^ (s.b &&& s.c))
  ⟨t1 + t2, s.a, s.b, s.c, s.d + t1, s.e, s.f, s.g⟩

/-- The compression of one block into the chaining value. -/
def compress (s : State) (block : List UInt8) : State :=
  let t := (roundConstants.zip (schedule block)).foldl round s
  ⟨s.a + t.a, s.b + t.b, s.c + t.c, s.d + t.d, s.e + t.e, s.f + t.f, s.g + t.g, s.h + t.h⟩

/-- The padded message, section 5.1.1: a one bit, zeros, and the bit length in 64 bits. -/
def pad (msg : List UInt8) : List UInt8 :=
  let len := msg.length
  let bits := 8 * len
  msg ++ 0x80 :: List.replicate ((64 - (len + 9) % 64) % 64) 0 ++
    (List.range 8).reverse.map fun i => (bits / Nat.pow 2 (8 * i)).toUInt8

/-- The message in 64-byte blocks. -/
def blocks : Nat → List UInt8 → List (List UInt8)
  | 0, _ => []
  | n + 1, bs => bs.take 64 :: blocks n (bs.drop 64)

def wordBytes (w : UInt32) : List UInt8 :=
  [(w >>> 24).toUInt8, (w >>> 16).toUInt8, (w >>> 8).toUInt8, w.toUInt8]

/-- The sum as 32 bytes, `H(N)` in big-endian order. -/
def State.bytes (s : State) : List UInt8 :=
  wordBytes s.a ++ wordBytes s.b ++ wordBytes s.c ++ wordBytes s.d ++
    wordBytes s.e ++ wordBytes s.f ++ wordBytes s.g ++ wordBytes s.h

/-- `sha256.Sum256`. -/
def sha256 (msg : List UInt8) : List UInt8 :=
  let p := pad msg
  ((blocks (p.length / 64) p).foldl compress State.init).bytes

@[simp] theorem length_sha256 (msg : List UInt8) : (sha256 msg).length = 32 := by
  simp [sha256, State.bytes, wordBytes]

/-- Bytes in lowercase hex, as `%x` prints them. -/
def hexEncode (bs : List UInt8) : String :=
  String.mk (bs.flatMap fun b => [hexDigit (b.toNat / 16), hexDigit (b.toNat % 16)])

def isLowerHex (c : Char) : Bool := ('0' ≤ c && c ≤ '9') || ('a' ≤ c && c ≤ 'f')

theorem isLowerHex_hexDigit : ∀ n < 16, isLowerHex (hexDigit n) = true := by decide

theorem all_isLowerHex_hexEncode (bs : List UInt8) : (hexEncode bs).data.all isLowerHex = true := by
  simp only [hexEncode, List.all_eq_true, List.mem_flatMap, List.mem_cons, List.mem_singleton,
    List.not_mem_nil, or_false]
  rintro c ⟨b, -, rfl | rfl⟩
  · exact isLowerHex_hexDigit _ (Nat.div_lt_of_lt_mul b.toNat_lt_size)
  · exact isLowerHex_hexDigit _ (Nat.mod_lt _ (by decide))

@[simp] theorem length_hexEncode (bs : List UInt8) :
    (hexEncode bs).data.length = 2 * bs.length := by
  induction bs with
  | nil => rfl
  | cons b bs ih =>
      simp only [hexEncode, List.flatMap_cons, List.length_append] at ih ⊢
      simp only [ih, List.length_cons, List.length_nil]
      omega

set_option maxRecDepth 100000 in
example : hexEncode (sha256 (bytesOf "abc")) =
    "ba7816bf8f01cfea414140de5dae2223b00361a396177a9cb410ff61f20015ad" := by
  decide

end Kraken.Sha256

namespace Kraken.GoDigest

/-- `digest.FromBytes`: the canonical digest string of some bytes. -/
def fromBytes (b : List UInt8) : String := "sha256:" ++ Sha256.hexEncode (Sha256.sha256 b)

end Kraken.GoDigest
