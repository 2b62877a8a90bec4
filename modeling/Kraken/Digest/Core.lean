import Kraken.Json.Decode
import Kraken.Digest.Sha256

/-!
# Kraken's `core.Digest`

`core/digest.go` is not in this source tree; the digest type and its parser are
modelled from the spec: a digest is `<algo>:<hex>` with algorithm `sha256` and a hex
part of 64 lowercase hex characters, and parsing rejects every other string. The
parser accepts exactly the strings digests print as, and in particular every string
`digest.FromBytes` produces.
-/

namespace Kraken.Core

open Sha256

/-- Modelled from the spec: `core.ValidateSHA256`, 64 lowercase hex characters. -/
def validateSHA256 (hex : String) : Bool := hex.data.length == 64 && hex.data.all isLowerHex

/-- Modelled from the spec: `core.Digest`, a sha256 digest whose hex part is valid. -/
structure Digest where
  hex : String
  valid : validateSHA256 hex = true

namespace Digest

/-- `d.Algo()`: sha256 is the only algorithm. -/
def algo (_ : Digest) : String := "sha256"

/-- `d.String()`: `<algo>:<hex>`. -/
def raw (d : Digest) : String := "sha256:" ++ d.hex

theorem eq_iff_hex_eq {a b : Digest} : a = b ↔ a.hex = b.hex := by
  cases a; cases b; simp

instance : DecidableEq Digest := fun _ _ => decidable_of_iff _ eq_iff_hex_eq.symm

/-- The digest of some bytes, as `digest.FromBytes` names them. -/
def ofBytes (b : List UInt8) : Digest :=
  ⟨hexEncode (sha256 b), by
    simp only [validateSHA256, length_hexEncode, length_sha256, all_isLowerHex_hexEncode]; rfl⟩

theorem raw_ofBytes (b : List UInt8) : (ofBytes b).raw = GoDigest.fromBytes b := rfl

end Digest

/-- `strings.Split` on a one-character separator. -/
def split (sep : Char) : List Char → List (List Char)
  | [] => [[]]
  | c :: cs =>
      if c = sep then [] :: split sep cs
      else match split sep cs with
        | p :: ps => (c :: p) :: ps
        | [] => [[c]]

theorem split_of_not_mem {sep : Char} : ∀ {l : List Char}, sep ∉ l → split sep l = [l]
  | [], _ => rfl
  | c :: cs, h => by
      rw [List.mem_cons, not_or] at h
      simp [split, Ne.symm h.1, split_of_not_mem h.2]

theorem split_append {sep : Char} {b : List Char} :
    ∀ {a : List Char}, sep ∉ a → split sep (a ++ sep :: b) = a :: split sep b
  | [], _ => by simp [split]
  | c :: cs, h => by
      rw [List.mem_cons, not_or] at h
      simp [split, Ne.symm h.1, split_append h.2]

/-- Modelled from the spec: `core.ParseSHA256Digest`, which takes `<algo>:<hex>` with
algorithm `sha256` and a valid hex part, and fails on anything else. -/
def parseSHA256Digest (raw : String) : Except GoError Digest :=
  match split ':' raw.data with
  | [algo, hex] =>
      if algo ≠ "sha256".data then .error (.text ("unsupported algorithm: " ++ String.mk algo))
      else if h : validateSHA256 (String.mk hex) then .ok ⟨String.mk hex, h⟩
      else .error (.text ("invalid sha256: " ++ String.mk hex))
  | _ => .error (.text ("invalid digest: " ++ raw))

theorem colon_not_mem_hex (d : Digest) : ':' ∉ d.hex.data := fun h => by
  have := List.all_eq_true.mp (Bool.and_eq_true_iff.mp d.valid).2 ':' h
  exact absurd this (by decide)

/-- A digest parses back from the string it prints as. -/
theorem parseSHA256Digest_raw (d : Digest) : parseSHA256Digest d.raw = .ok d := by
  have hsplit : split ':' d.raw.data = ["sha256".data, d.hex.data] := by
    have : d.raw.data = "sha256".data ++ ':' :: d.hex.data := rfl
    rw [this, split_append (by decide), split_of_not_mem (colon_not_mem_hex d)]
  simp [parseSHA256Digest, hsplit, d.valid]

/-- `ParseSHA256Digest(digest.FromBytes(b))` always succeeds, with the digest of `b`. -/
theorem parseSHA256Digest_fromBytes (b : List UInt8) :
    parseSHA256Digest (GoDigest.fromBytes b) = .ok (Digest.ofBytes b) :=
  parseSHA256Digest_raw (Digest.ofBytes b)

end Kraken.Core
