import Kraken.Json.Scanner

/-!
# Writing a value and reading it back

A compact writer for `Value`: strings escape the quote, the backslash and the control
characters and keep every other character as its UTF-8 bytes; numbers keep their literal
text. This module follows the scanner through the tokens of a value: the UTF-8 bytes of a
character inside a string (`scan_utf8Bytes`), a number one part of its literal at a time
(`scan_numberLit`). `Reads` states what reading a whole token does, from a state `Pending`
on the completed token, since a number is only complete once the byte after it has been
read. `Json.Text` reads every spelling of a string and containers with any whitespace
between their tokens, and `Json.Layout` derives `parse_encode` from it.
-/

namespace Kraken.Json

/-! ## Bytes -/

/-- The byte of an ASCII character. -/
def asciiByte (c : Char) : UInt8 := c.toNat.toUInt8

theorem byte_lt_iff {a b : UInt8} : a < b ↔ a.toNat < b.toNat := Iff.rfl

theorem byte_le_iff {a b : UInt8} : a ≤ b ↔ a.toNat ≤ b.toNat := Iff.rfl

theorem byte_eq_iff {a b : UInt8} : a = b ↔ a.toNat = b.toNat := ⟨congrArg _, UInt8.toNat.inj⟩

theorem toNat_byteLit (n : Nat) : (no_index (OfNat.ofNat n : UInt8)).toNat = n % 256 := rfl

theorem toNat_toUInt8 {n : Nat} (h : n < 256) : n.toUInt8.toNat = n := UInt8.toNat_ofNat_of_lt h

theorem toNat_asciiByte {c : Char} (h : c.toNat < 256) : (asciiByte c).toNat = c.toNat :=
  toNat_toUInt8 h

theorem ofNat_toNat_asciiByte {c : Char} (h : c.toNat < 256) :
    Char.ofNat (asciiByte c).toNat = c := by
  rw [toNat_asciiByte h, Char.ofNat_toNat]

theorem isDigit_iff {c : Char} : c.isDigit ↔ 48 ≤ c.toNat ∧ c.toNat ≤ 57 := by
  simp only [Char.isDigit, Bool.and_eq_true, decide_eq_true_eq]
  exact Iff.rfl

/-- A digit's byte is a digit to the scanner. -/
theorem isDigit_asciiByte {d : Char} (h : d.isDigit) : isDigit (asciiByte d) := by
  have hd := isDigit_iff.mp h
  simp only [isDigit, Bool.and_eq_true, decide_eq_true_eq, byte_le_iff, toNat_byteLit,
    toNat_asciiByte (show d.toNat < 256 by omega)]
  omega

/-! ## The writer -/

/-- The UTF-8 bytes of code point `n`, in arithmetic form. -/
def utf8Bytes (n : Nat) : List UInt8 :=
  if n < 0x80 then [n.toUInt8]
  else if n < 0x800 then [(0xC0 + n / 64).toUInt8, (0x80 + n % 64).toUInt8]
  else if n < 0x10000 then
    [(0xE0 + n / 4096).toUInt8, (0x80 + n / 64 % 64).toUInt8, (0x80 + n % 64).toUInt8]
  else
    [(0xF0 + n / 262144).toUInt8, (0x80 + n / 4096 % 64).toUInt8,
      (0x80 + n / 64 % 64).toUInt8, (0x80 + n % 64).toUInt8]

/-- One character inside a string literal: the quote and the backslash escaped, a control
character as `\u00XX`, any other character as its UTF-8 bytes. -/
def encodeChar (c : Char) : List UInt8 :=
  if c.toNat = 0x22 then [0x5C, 0x22]
  else if c.toNat = 0x5C then [0x5C, 0x5C]
  else if c.toNat < 0x20 then
    [0x5C, 0x75, 0x30, 0x30, asciiByte (hexDigit (c.toNat / 16)),
      asciiByte (hexDigit (c.toNat % 16))]
  else utf8Bytes c.toNat

def encodeString (s : String) : List UInt8 := 0x22 :: s.data.flatMap encodeChar ++ [0x22]

/-- A JSON number literal by its parts (RFC 8259, section 6): an optional minus, the
integer digits with no leading zero, the fraction digits (none when empty), and an
exponent with its marker, an optional sign and its digits. -/
structure NumberLit where
  neg : Bool
  int : List Char
  frac : List Char
  exp : Option (Char × Option Char × List Char)
  int_ok : int = ['0'] ∨ ∃ d ds, int = d :: ds ∧ '1' ≤ d ∧ d ≤ '9' ∧ ∀ c ∈ ds, c.isDigit
  frac_ok : ∀ c ∈ frac, c.isDigit
  exp_ok : ∀ e ∈ exp, (e.1 = 'e' ∨ e.1 = 'E') ∧ (∀ x ∈ e.2.1, x = '+' ∨ x = '-') ∧
    e.2.2 ≠ [] ∧ ∀ c ∈ e.2.2, c.isDigit

namespace NumberLit

def signText (n : NumberLit) : List Char := if n.neg then ['-'] else []

def fracText (n : NumberLit) : List Char := if n.frac = [] then [] else '.' :: n.frac

def expText (n : NumberLit) : List Char :=
  match n.exp with
  | none => []
  | some (e, sign, ds) => e :: (sign.toList ++ ds)

def text (n : NumberLit) : List Char := n.signText ++ n.int ++ n.fracText ++ n.expText

end NumberLit

mutual

/-- The compact encoding of a value. -/
def Value.encode : Value → List UInt8
  | .null => [0x6E, 0x75, 0x6C, 0x6C]
  | .bool true => [0x74, 0x72, 0x75, 0x65]
  | .bool false => [0x66, 0x61, 0x6C, 0x73, 0x65]
  | .number lit => lit.data.map asciiByte
  | .string s => encodeString s
  | .array [] => [0x5B, 0x5D]
  | .array (e :: es) => 0x5B :: e.encode ++ encodeElems es ++ [0x5D]
  | .object [] => [0x7B, 0x7D]
  | .object ((k, e) :: ms) =>
      0x7B :: encodeString k ++ 0x3A :: e.encode ++ encodeMembers ms ++ [0x7D]

/-- The elements after the first, each after a comma. -/
def encodeElems : List Value → List UInt8
  | [] => []
  | e :: es => 0x2C :: e.encode ++ encodeElems es

/-- The members after the first, each after a comma. -/
def encodeMembers : List (String × Value) → List UInt8
  | [] => []
  | (k, e) :: ms => 0x2C :: encodeString k ++ 0x3A :: e.encode ++ encodeMembers ms

end

mutual

/-- How many containers are open at the value's innermost point. -/
def Value.depth : Value → Nat
  | .array es => depthElems es + 1
  | .object ms => depthMembers ms + 1
  | _ => 0

def depthElems : List Value → Nat
  | [] => 0
  | e :: es => max e.depth (depthElems es)

def depthMembers : List (String × Value) → Nat
  | [] => 0
  | (_, e) :: ms => max e.depth (depthMembers ms)

end

@[simp] theorem depth_null : Value.null.depth = 0 := rfl

@[simp] theorem depth_string (s : String) : (Value.string s).depth = 0 := rfl

@[simp] theorem depth_array (es : List Value) : (Value.array es).depth = depthElems es + 1 := rfl

@[simp] theorem depth_object (ms : List (String × Value)) :
    (Value.object ms).depth = depthMembers ms + 1 := rfl

@[simp] theorem depthMembers_nil : depthMembers [] = 0 := rfl

@[simp] theorem depthMembers_cons (k : String) (e : Value) (ms : List (String × Value)) :
    depthMembers ((k, e) :: ms) = max e.depth (depthMembers ms) := rfl

mutual

/-- Every number inside the value is a JSON number literal. -/
def Value.WellFormed : Value → Prop
  | .number lit => ∃ n : NumberLit, lit.data = n.text
  | .array es => ElemsWellFormed es
  | .object ms => MembersWellFormed ms
  | _ => True

def ElemsWellFormed : List Value → Prop
  | [] => True
  | e :: es => e.WellFormed ∧ ElemsWellFormed es

def MembersWellFormed : List (String × Value) → Prop
  | [] => True
  | (_, e) :: ms => e.WellFormed ∧ MembersWellFormed ms

end

@[simp] theorem wellFormed_string (s : String) : (Value.string s).WellFormed := trivial

theorem elemsWellFormed_iff : ∀ {es : List Value}, ElemsWellFormed es ↔ ∀ e ∈ es, e.WellFormed
  | [] => iff_of_true trivial nofun
  | _ :: _ => (and_congr_right' elemsWellFormed_iff).trans List.forall_mem_cons.symm

theorem membersWellFormed_iff :
    ∀ {ms : List (String × Value)}, MembersWellFormed ms ↔ ∀ m ∈ ms, m.2.WellFormed
  | [] => iff_of_true trivial nofun
  | (key, e) :: _ => (and_congr_right' membersWellFormed_iff).trans
      (List.forall_mem_cons (p := fun m : String × Value => m.2.WellFormed) (a := (key, e))).symm

theorem wellFormed_array {es : List Value} : (Value.array es).WellFormed ↔ ∀ e ∈ es, e.WellFormed :=
  elemsWellFormed_iff

theorem depthElems_le_iff {k : Nat} :
    ∀ {es : List Value}, depthElems es ≤ k ↔ ∀ e ∈ es, e.depth ≤ k
  | [] => iff_of_true (Nat.zero_le _) nofun
  | _ :: _ => Nat.max_le.trans ((and_congr_right' depthElems_le_iff).trans
      (List.forall_mem_cons (p := fun e : Value => e.depth ≤ k)).symm)

theorem depthMembers_le_iff {k : Nat} :
    ∀ {ms : List (String × Value)}, depthMembers ms ≤ k ↔ ∀ m ∈ ms, m.2.depth ≤ k
  | [] => iff_of_true (Nat.zero_le _) nofun
  | (key, e) :: _ =>
      Nat.max_le.trans ((and_congr_right' depthMembers_le_iff).trans
        (List.forall_mem_cons (p := fun m : String × Value => m.2.depth ≤ k) (a := (key, e))).symm)

/-- The states of `numStep` in which a number literal may end. -/
def NumState.final : NumState → Bool
  | .zero | .int | .frac | .expDigits => true
  | _ => false

namespace Scanner

/-! ## Runs -/

@[simp] theorem scan_nil (s : Scanner) : scan s [] = .ok s := rfl

theorem scan_cons (s : Scanner) (c : UInt8) (cs : List UInt8) :
    scan s (c :: cs) = (step { s with offset := s.offset + 1 } c).bind (scan · cs) := rfl

theorem scan_append (s : Scanner) (xs ys : List UInt8) :
    scan s (xs ++ ys) = (scan s xs).bind (scan · ys) := by
  induction xs generalizing s with
  | nil => rfl
  | cons c cs ih =>
      rw [List.cons_append, scan_cons, scan_cons]
      cases step { s with offset := s.offset + 1 } c with
      | error e => rfl
      | ok t => exact ih t

/-- A step that moves to a known state continues the run from there. -/
theorem scan_cons_of_step {ph ph' : Phase} {stk stk' : List Frame} {top top' : Option Value}
    {o : Nat} {c : UInt8} (h : step ⟨ph, stk, top, o + 1⟩ c = .ok ⟨ph', stk', top', o + 1⟩)
    (rest : List UInt8) : scan ⟨ph, stk, top, o⟩ (c :: rest) = scan ⟨ph', stk', top', o + 1⟩ rest := by
  rw [scan_cons]
  exact congrArg (·.bind (scan · rest)) h

/-- `complete` looks only at the stack and the top-level value. -/
theorem complete_mk (ph ph' : Phase) (stk : List Frame) (top : Option Value) (o o' : Nat)
    (v : Value) : { complete ⟨ph, stk, top, o⟩ v with offset := o' } = complete ⟨ph', stk, top, o'⟩ v :=
  rfl

theorem step_of_afterValue {s : Scanner} (h : s.phase = .afterValue) (c : UInt8) :
    s.step c = s.endValue c := by
  rw [step, h]

/-! ## Strings -/

theorem scan_str {st st' : StrState} {acc acc' : List Char} {c : UInt8}
    (h : strStep st acc c = .more st' acc') (stk : List Frame) (top : Option Value) (o : Nat)
    (rest : List UInt8) :
    scan ⟨.str st acc, stk, top, o⟩ (c :: rest) = scan ⟨.str st' acc', stk, top, o + 1⟩ rest :=
  scan_cons_of_step (by simp only [step, h]) rest

theorem plainStep_ascii {c : UInt8} (h1 : 0x20 ≤ c.toNat) (h2 : c.toNat < 0x80)
    (h3 : c.toNat ≠ 0x22) (h4 : c.toNat ≠ 0x5C) (acc : List Char) :
    plainStep acc c = .more .plain (Char.ofNat c.toNat :: acc) := by
  simp only [plainStep, byte_eq_iff, byte_lt_iff, toNat_byteLit, Nat.reduceMod]
  rw [if_neg h3, if_neg h4, if_neg (by omega), if_pos h2]

theorem plainStep_lead {c : UInt8} {need lo hi val : Nat} (h : 0x80 ≤ c.toNat)
    (hl : leadInfo c = some (need, lo, hi, val)) (acc : List Char) :
    plainStep acc c = .more (.utf8 need lo hi val 0) acc := by
  simp only [plainStep, byte_eq_iff, byte_lt_iff, toNat_byteLit, Nat.reduceMod]
  rw [if_neg (by omega), if_neg (by omega), if_neg (by omega), if_neg (by omega), hl]

theorem strStep_utf8_last {lo hi val seen : Nat} {c : UInt8} (h : lo ≤ c.toNat ∧ c.toNat ≤ hi)
    (acc : List Char) :
    strStep (.utf8 1 lo hi val seen) acc c = .more .plain (Char.ofNat (val * 64 + c.toNat % 64) :: acc) := by
  simp only [strStep, if_pos h, if_true]

theorem strStep_utf8_next {need lo hi val seen : Nat} {c : UInt8} (hn : need ≠ 1)
    (h : lo ≤ c.toNat ∧ c.toNat ≤ hi) (acc : List Char) :
    strStep (.utf8 need lo hi val seen) acc c =
      .more (.utf8 (need - 1) 0x80 0xBF (val * 64 + c.toNat % 64) (seen + 1)) acc := by
  simp only [strStep, if_pos h, if_neg hn]

theorem hexVal_hexDigit : ∀ k, k < 16 → hexVal (asciiByte (hexDigit k)) = some k := by
  decide

theorem strStep_plain_backslash (acc : List Char) : strStep .plain acc 0x5C = .more .esc acc :=
  rfl

theorem strStep_esc_u (acc : List Char) : strStep .esc acc 0x75 = .more (.escU 0 0) acc := rfl

theorem strStep_escU {k val d : Nat} {c : UInt8} (hc : hexVal c = some d) (hk : k ≠ 3)
    (acc : List Char) : strStep (.escU k val) acc c = .more (.escU (k + 1) (val * 16 + d)) acc := by
  simp only [strStep, hc, if_neg hk]

theorem strStep_escU_last {val d : Nat} {c : UInt8} (hc : hexVal c = some d) (acc : List Char) :
    strStep (.escU 3 val) acc c = runeStep (val * 16 + d) acc := by
  simp only [strStep, hc, if_true]

theorem leadInfo_two : ∀ k, k < 32 → k < 2 ∨ leadInfo (0xC0 + k).toUInt8 = some (1, 0x80, 0xBF, k) := by
  decide

theorem leadInfo_three : ∀ k, k < 16 → leadInfo (0xE0 + k).toUInt8 =
    some (2, if k = 0 then 0xA0 else 0x80, if k = 13 then 0x9F else 0xBF, k) := by
  decide

theorem leadInfo_four : ∀ k, k < 5 → leadInfo (0xF0 + k).toUInt8 =
    some (3, if k = 0 then 0x90 else 0x80, if k = 4 then 0x8F else 0xBF, k) := by
  decide

theorem strStep_plain (acc : List Char) (c : UInt8) : strStep .plain acc c = plainStep acc c := rfl

theorem toNat_cont (x : Nat) : (0x80 + x % 64).toUInt8.toNat = 0x80 + x % 64 :=
  toNat_toUInt8 (by omega)

/-- A continuation byte adds the six bits it carries to the character read so far. -/
theorem strStep_cont {need lo hi val seen x : Nat} (hn : need ≠ 1)
    (h : lo ≤ 0x80 + x % 64 ∧ 0x80 + x % 64 ≤ hi) (acc : List Char) :
    strStep (.utf8 need lo hi val seen) acc (0x80 + x % 64).toUInt8 =
      .more (.utf8 (need - 1) 0x80 0xBF (val * 64 + x % 64) (seen + 1)) acc := by
  rw [strStep_utf8_next hn (by rw [toNat_cont]; exact h), toNat_cont,
    show (0x80 + x % 64) % 64 = x % 64 by omega]

/-- The last continuation byte completes the character. -/
theorem strStep_cont_last (n seen : Nat) (acc : List Char) :
    strStep (.utf8 1 0x80 0xBF (n / 64) seen) acc (0x80 + n % 64).toUInt8 =
      .more .plain (Char.ofNat n :: acc) := by
  rw [strStep_utf8_last (by rw [toNat_cont]; omega), toNat_cont,
    show n / 64 * 64 + (0x80 + n % 64) % 64 = n by omega]

section Utf8

variable (acc : List Char) (stk : List Frame) (top : Option Value) (o : Nat) (rest : List UInt8)

theorem scan_utf8_one {n : Nat} (h1 : 0x20 ≤ n) (h2 : n < 0x80) (h3 : n ≠ 0x22) (h4 : n ≠ 0x5C) :
    scan ⟨.str .plain acc, stk, top, o⟩ (n.toUInt8 :: rest) =
      scan ⟨.str .plain (Char.ofNat n :: acc), stk, top, o + 1⟩ rest := by
  have e := toNat_toUInt8 (show n < 256 by omega)
  refine scan_str ?_ _ _ _ _
  rw [strStep_plain, plainStep_ascii (by omega) (by omega) (by omega) (by omega), e]

theorem scan_utf8_two {n : Nat} (h1 : 0x80 ≤ n) (h2 : n < 0x800) :
    scan ⟨.str .plain acc, stk, top, o⟩
        ((0xC0 + n / 64).toUInt8 :: (0x80 + n % 64).toUInt8 :: rest) =
      scan ⟨.str .plain (Char.ofNat n :: acc), stk, top, o + 2⟩ rest := by
  have e := toNat_toUInt8 (show 0xC0 + n / 64 < 256 by omega)
  have s1 : strStep .plain acc (0xC0 + n / 64).toUInt8 = .more (.utf8 1 0x80 0xBF (n / 64) 0) acc := by
    rw [strStep_plain, plainStep_lead (by omega) ((leadInfo_two _ (by omega)).resolve_left (by omega))]
  rw [scan_str s1, scan_str (strStep_cont_last n 0 acc)]

theorem scan_utf8_three {n : Nat} (h1 : 0x800 ≤ n) (h2 : n < 0x10000)
    (hs : n < 0xD800 ∨ 0xDFFF < n) :
    scan ⟨.str .plain acc, stk, top, o⟩ ((0xE0 + n / 4096).toUInt8 ::
        (0x80 + n / 64 % 64).toUInt8 :: (0x80 + n % 64).toUInt8 :: rest) =
      scan ⟨.str .plain (Char.ofNat n :: acc), stk, top, o + 3⟩ rest := by
  have e := toNat_toUInt8 (show 0xE0 + n / 4096 < 256 by omega)
  have s1 : strStep .plain acc (0xE0 + n / 4096).toUInt8 =
      .more (.utf8 2 (if n / 4096 = 0 then 0xA0 else 0x80) (if n / 4096 = 13 then 0x9F else 0xBF)
        (n / 4096) 0) acc := by
    rw [strStep_plain, plainStep_lead (by omega) (leadInfo_three _ (by omega))]
  have s2 : strStep (.utf8 2 (if n / 4096 = 0 then 0xA0 else 0x80)
      (if n / 4096 = 13 then 0x9F else 0xBF) (n / 4096) 0) acc (0x80 + n / 64 % 64).toUInt8 =
      .more (.utf8 1 0x80 0xBF (n / 64) 1) acc := by
    rw [strStep_cont (by decide) (by split_ifs <;> omega),
      show n / 4096 * 64 + n / 64 % 64 = n / 64 by omega]
  rw [scan_str s1, scan_str s2, scan_str (strStep_cont_last n 1 acc)]

theorem scan_utf8_four {n : Nat} (h1 : 0x10000 ≤ n) (h2 : n < 0x110000) :
    scan ⟨.str .plain acc, stk, top, o⟩ ((0xF0 + n / 262144).toUInt8 ::
        (0x80 + n / 4096 % 64).toUInt8 :: (0x80 + n / 64 % 64).toUInt8 ::
        (0x80 + n % 64).toUInt8 :: rest) =
      scan ⟨.str .plain (Char.ofNat n :: acc), stk, top, o + 4⟩ rest := by
  have e := toNat_toUInt8 (show 0xF0 + n / 262144 < 256 by omega)
  have s1 : strStep .plain acc (0xF0 + n / 262144).toUInt8 =
      .more (.utf8 3 (if n / 262144 = 0 then 0x90 else 0x80)
        (if n / 262144 = 4 then 0x8F else 0xBF) (n / 262144) 0) acc := by
    rw [strStep_plain, plainStep_lead (by omega) (leadInfo_four _ (by omega))]
  have s2 : strStep (.utf8 3 (if n / 262144 = 0 then 0x90 else 0x80)
      (if n / 262144 = 4 then 0x8F else 0xBF) (n / 262144) 0) acc (0x80 + n / 4096 % 64).toUInt8 =
      .more (.utf8 2 0x80 0xBF (n / 4096) 1) acc := by
    rw [strStep_cont (by decide) (by split_ifs <;> omega),
      show n / 262144 * 64 + n / 4096 % 64 = n / 4096 by omega]
  have s3 : strStep (.utf8 2 0x80 0xBF (n / 4096) 1) acc (0x80 + n / 64 % 64).toUInt8 =
      .more (.utf8 1 0x80 0xBF (n / 64) 2) acc := by
    rw [strStep_cont (by decide) (by omega), show n / 4096 * 64 + n / 64 % 64 = n / 64 by omega]
  rw [scan_str s1, scan_str s2, scan_str s3, scan_str (strStep_cont_last n 2 acc)]

end Utf8

/-- Reading the UTF-8 bytes of a character that needs no escape adds the character. -/
theorem scan_utf8Bytes {ch : Char} (h1 : 0x20 ≤ ch.toNat) (h2 : ch.toNat ≠ 0x22)
    (h3 : ch.toNat ≠ 0x5C) (acc : List Char) (stk : List Frame) (top : Option Value) (o : Nat)
    (rest : List UInt8) :
    scan ⟨.str .plain acc, stk, top, o⟩ (utf8Bytes ch.toNat ++ rest) =
      scan ⟨.str .plain (ch :: acc), stk, top, o + (utf8Bytes ch.toNat).length⟩ rest := by
  have hch : Char.ofNat ch.toNat = ch := Char.ofNat_toNat ch
  have hv : ch.toNat < 0xD800 ∨ (0xDFFF < ch.toNat ∧ ch.toNat < 0x110000) := ch.valid
  rw [utf8Bytes]
  split_ifs with h4 h5 h6
  · rw [List.singleton_append, scan_utf8_one acc stk top o rest h1 h4 h2 h3, hch]
    rfl
  · rw [List.cons_append, List.singleton_append, scan_utf8_two acc stk top o rest (by omega) h5,
      hch]
    rfl
  · rw [List.cons_append, List.cons_append, List.singleton_append,
      scan_utf8_three acc stk top o rest (by omega) h6 (by omega), hch]
    rfl
  · rw [List.cons_append, List.cons_append, List.cons_append, List.singleton_append,
      scan_utf8_four acc stk top o rest (by omega) (by omega), hch]
    rfl

theorem step_value_quote (stk : List Frame) (top : Option Value) (o : Nat) :
    step ⟨.value, stk, top, o⟩ 0x22 = .ok ⟨.str .plain [], stk, top, o⟩ := rfl

theorem step_key_quote (stk : List Frame) (top : Option Value) (o : Nat) :
    step ⟨.key, stk, top, o⟩ 0x22 = .ok ⟨.str .plain [], stk, top, o⟩ := rfl

theorem step_keyOrClose_quote (stk : List Frame) (top : Option Value) (o : Nat) :
    step ⟨.keyOrClose, stk, top, o⟩ 0x22 = .ok ⟨.str .plain [], stk, top, o⟩ := rfl

/-! ## Numbers -/

/-- A byte that may follow a complete value: white space, a comma, or a closing bracket. -/
def isDelim (c : UInt8) : Bool := isSpace c || c == 0x2C || c == 0x5D || c == 0x7D

theorem isDelim_space : isDelim 0x20 := rfl

theorem isDelim_comma : isDelim 0x2C := rfl

theorem isDelim_bracket : isDelim 0x5D := rfl

theorem isDelim_brace : isDelim 0x7D := rfl

theorem eq_of_isDelim {c : UInt8} (h : isDelim c) :
    c = 0x20 ∨ c = 0x09 ∨ c = 0x0A ∨ c = 0x0D ∨ c = 0x2C ∨ c = 0x5D ∨ c = 0x7D := by
  simpa only [isDelim, isSpace, Bool.or_eq_true, beq_iff_eq, or_assoc] using h

theorem scan_num {st st' : NumState} {lit : List Char} {c : UInt8}
    (h : numStep st c = .ok (some st')) (stk : List Frame) (top : Option Value) (o : Nat)
    (rest : List UInt8) :
    scan ⟨.num st lit, stk, top, o⟩ (c :: rest) =
      scan ⟨.num st' (Char.ofNat c.toNat :: lit), stk, top, o + 1⟩ rest :=
  scan_cons_of_step (by simp only [step, h]) rest

/-- Digits that keep the number in state `st`. -/
theorem scan_stay {st : NumState} (h : ∀ c, isDigit c → numStep st c = .ok (some st))
    (stk : List Frame) (top : Option Value) :
    ∀ (ds lit : List Char) (o : Nat) (rest : List UInt8), (∀ d ∈ ds, d.isDigit) →
      scan ⟨.num st lit, stk, top, o⟩ (ds.map asciiByte ++ rest) =
        scan ⟨.num st (ds.reverse ++ lit), stk, top, o + ds.length⟩ rest
  | [], _, _, _, _ => rfl
  | d :: ds, lit, o, rest, hd => by
      have hd₀ := isDigit_iff.mp (hd d (List.mem_cons_self _ _))
      rw [List.map_cons, List.cons_append, scan_num (h _ (isDigit_asciiByte (isDigit_iff.mpr hd₀))),
        ofNat_toNat_asciiByte (by omega),
        scan_stay h stk top ds _ _ _ (fun x hx => hd x (List.mem_cons_of_mem _ hx))]
      simp only [List.reverse_cons, List.append_assoc, List.singleton_append, List.length_cons]
      rw [show o + 1 + ds.length = o + (ds.length + 1) by omega]

/-- A non-empty run of digits: the first takes `st` to `st'`, which the others keep. -/
theorem scan_digits {st st' : NumState} (h : ∀ c, isDigit c → numStep st c = .ok (some st'))
    (h' : ∀ c, isDigit c → numStep st' c = .ok (some st')) {ds : List Char} (hne : ds ≠ [])
    (hds : ∀ d ∈ ds, d.isDigit) (stk : List Frame) (top : Option Value) (lit : List Char)
    (o : Nat) (rest : List UInt8) :
    scan ⟨.num st lit, stk, top, o⟩ (ds.map asciiByte ++ rest) =
      scan ⟨.num st' (ds.reverse ++ lit), stk, top, o + ds.length⟩ rest := by
  obtain ⟨d, ds, rfl⟩ := List.exists_cons_of_ne_nil hne
  have hd₀ := isDigit_iff.mp (hds d (List.mem_cons_self _ _))
  rw [List.map_cons, List.cons_append, scan_num (h _ (isDigit_asciiByte (isDigit_iff.mpr hd₀))),
    ofNat_toNat_asciiByte (by omega),
    scan_stay h' stk top ds _ _ _ (fun x hx => hds x (List.mem_cons_of_mem _ hx))]
  simp only [List.reverse_cons, List.append_assoc, List.singleton_append, List.length_cons]
  rw [show o + 1 + ds.length = o + (ds.length + 1) by omega]

theorem numStep_digit {c : UInt8} (h : isDigit c) :
    numStep .int c = .ok (some .int) ∧ numStep .dot c = .ok (some .frac) ∧
      numStep .frac c = .ok (some .frac) ∧ numStep .exp c = .ok (some .expDigits) ∧
      numStep .expSign c = .ok (some .expDigits) ∧ numStep .expDigits c = .ok (some .expDigits) := by
  have hc : 48 ≤ c.toNat ∧ c.toNat ≤ 57 := by
    simpa only [isDigit, Bool.and_eq_true, decide_eq_true_eq, byte_le_iff] using h
  have hsign : ¬(c = 0x2B ∨ c = 0x2D) := by
    simp only [byte_eq_iff, toNat_byteLit, Nat.reduceMod]
    omega
  simp only [numStep, h, hsign, if_true, if_false, and_self]

theorem numStep_of_isDelim {st : NumState} {c : UInt8} (hst : st.final) (hc : isDelim c) :
    numStep st c = .ok none := by
  cases st <;> simp only [NumState.final, Bool.false_eq_true] at hst <;>
    rcases eq_of_isDelim hc with rfl | rfl | rfl | rfl | rfl | rfl | rfl <;> rfl

theorem step_value_digit {c : UInt8} (h1 : 0x31 ≤ c.toNat) (h2 : c.toNat ≤ 0x39)
    (stk : List Frame) (top : Option Value) (o : Nat) :
    step ⟨.value, stk, top, o⟩ c = .ok ⟨.num .int [Char.ofNat c.toNat], stk, top, o⟩ := by
  have hs : isSpace c = false := by
    simp only [isSpace, Bool.or_eq_false_iff, beq_eq_false_iff_ne, ne_eq, byte_eq_iff,
      toNat_byteLit, Nat.reduceMod]
    omega
  have hd : isDigit c = true := by
    simp only [isDigit, Bool.and_eq_true, decide_eq_true_eq, byte_le_iff, toNat_byteLit,
      Nat.reduceMod]
    omega
  simp only [step, beginValue, hs, hd, byte_eq_iff, toNat_byteLit, Nat.reduceMod,
    Bool.false_eq_true, if_false, if_true]
  rw [if_neg (by omega), if_neg (by omega), if_neg (by omega), if_neg (by omega),
    if_neg (by omega)]

theorem numStep_neg_digit {c : UInt8} (h1 : 0x31 ≤ c.toNat) (h2 : c.toNat ≤ 0x39) :
    numStep .neg c = .ok (some .int) := by
  have hd : isDigit c = true := by
    simp only [isDigit, Bool.and_eq_true, decide_eq_true_eq, byte_le_iff, toNat_byteLit,
      Nat.reduceMod]
    omega
  simp only [numStep, hd, byte_eq_iff, toNat_byteLit, Nat.reduceMod, if_true]
  rw [if_neg (by omega)]

/-- The sign and the integer digits of a literal, from a state about to read a value. -/
theorem scan_intPart (n : NumberLit) (stk : List Frame) (top : Option Value) (o : Nat)
    (rest : List UInt8) :
    ∃ st : NumState, (st = .zero ∨ st = .int) ∧
      scan ⟨.value, stk, top, o⟩ ((n.signText ++ n.int).map asciiByte ++ rest) =
        scan ⟨.num st (n.signText ++ n.int).reverse, stk, top,
          o + (n.signText ++ n.int).length⟩ rest := by
  rcases n.int_ok with h | ⟨d, ds, h, hd1, hd9, hds⟩ <;> rw [h] <;>
    cases hneg : n.neg <;> simp only [NumberLit.signText, hneg, if_true, Bool.false_eq_true, if_false]
  · exact ⟨.zero, .inl rfl, rfl⟩
  · exact ⟨.zero, .inl rfl, rfl⟩
  all_goals
    have hd : 49 ≤ d.toNat ∧ d.toNat ≤ 57 := ⟨hd1, hd9⟩
    have e : (asciiByte d).toNat = d.toNat := toNat_asciiByte (by omega)
    refine ⟨.int, .inr rfl, ?_⟩
  · rw [List.nil_append, List.map_cons, List.cons_append,
      scan_cons_of_step (step_value_digit (by omega) (by omega) _ _ _), ofNat_toNat_asciiByte (by omega),
      scan_stay (fun c hc => (numStep_digit hc).1) _ _ ds _ _ _ hds]
    simp only [List.reverse_cons, List.length_cons, List.nil_append]
    rw [show o + 1 + ds.length = o + (ds.length + 1) by omega]
  · have hneg : step ⟨.value, stk, top, o + 1⟩ (asciiByte '-') =
        .ok ⟨.num .neg ['-'], stk, top, o + 1⟩ := rfl
    rw [List.singleton_append, List.map_cons, List.map_cons, List.cons_append, List.cons_append,
      scan_cons_of_step hneg, scan_num (numStep_neg_digit (by omega) (by omega)),
      ofNat_toNat_asciiByte (by omega),
      scan_stay (fun c hc => (numStep_digit hc).1) _ _ ds _ _ _ hds]
    simp only [List.reverse_cons, List.length_cons, List.singleton_append, List.append_assoc,
      List.cons_append, List.nil_append]
    rw [show o + 1 + 1 + ds.length = o + (ds.length + 1 + 1) by omega]

/-- The fraction of a literal, after its integer digits. -/
theorem scan_fracPart (n : NumberLit) {st : NumState} (hst : st = .zero ∨ st = .int)
    (stk : List Frame) (top : Option Value) (lit : List Char) (o : Nat) (rest : List UInt8) :
    ∃ st' : NumState, (st' = .zero ∨ st' = .int ∨ st' = .frac) ∧
      scan ⟨.num st lit, stk, top, o⟩ (n.fracText.map asciiByte ++ rest) =
        scan ⟨.num st' (n.fracText.reverse ++ lit), stk, top, o + n.fracText.length⟩ rest := by
  by_cases hf : n.frac = []
  · simp only [NumberLit.fracText, hf, if_true]
    exact ⟨st, by rcases hst with rfl | rfl <;> simp, rfl⟩
  · have hdot : numStep st (asciiByte '.') = .ok (some .dot) := by rcases hst with rfl | rfl <;> rfl
    have hchar : Char.ofNat (asciiByte '.').toNat = '.' := rfl
    refine ⟨.frac, .inr (.inr rfl), ?_⟩
    simp only [NumberLit.fracText, hf, if_false, List.map_cons, List.cons_append]
    rw [scan_num hdot, hchar, scan_digits (fun c hc => (numStep_digit hc).2.1)
      (fun c hc => (numStep_digit hc).2.2.1) hf n.frac_ok]
    simp only [List.reverse_cons, List.append_assoc, List.singleton_append, List.length_cons]
    rw [show o + 1 + n.frac.length = o + (n.frac.length + 1) by omega]

/-- The exponent of a literal, after its integer digits and fraction. -/
theorem scan_expPart (n : NumberLit) {st : NumState} (hst : st = .zero ∨ st = .int ∨ st = .frac)
    (stk : List Frame) (top : Option Value) (lit : List Char) (o : Nat) (rest : List UInt8) :
    ∃ st' : NumState, st'.final ∧
      scan ⟨.num st lit, stk, top, o⟩ (n.expText.map asciiByte ++ rest) =
        scan ⟨.num st' (n.expText.reverse ++ lit), stk, top, o + n.expText.length⟩ rest := by
  have hexp := n.exp_ok
  rw [NumberLit.expText]
  rcases h : n.exp with _ | ⟨e, sign, ds⟩
  · exact ⟨st, by rcases hst with rfl | rfl | rfl <;> rfl, rfl⟩
  · obtain ⟨he, hsign, hne, hds⟩ := hexp _ (by rw [h]; rfl)
    have hE : numStep st (asciiByte e) = .ok (some .exp) := by
      rcases he with rfl | rfl <;> rcases hst with rfl | rfl | rfl <;> rfl
    have hchar : Char.ofNat (asciiByte e).toNat = e := by
      rcases he with rfl | rfl <;> rfl
    refine ⟨.expDigits, rfl, ?_⟩
    simp only [List.map_cons, List.cons_append]
    rw [scan_num hE, hchar]
    cases sign with
    | none =>
        rw [Option.toList_none, List.nil_append, scan_digits (fun c hc => (numStep_digit hc).2.2.2.1)
          (fun c hc => (numStep_digit hc).2.2.2.2.2) hne hds]
        simp only [List.reverse_cons, List.append_assoc, List.singleton_append, List.length_cons]
        rw [show o + 1 + ds.length = o + (ds.length + 1) by omega]
    | some x =>
        have hx := hsign x rfl
        have hX : numStep .exp (asciiByte x) = .ok (some .expSign) := by
          rcases hx with rfl | rfl <;> rfl
        have hxchar : Char.ofNat (asciiByte x).toNat = x := by
          rcases hx with rfl | rfl <;> rfl
        rw [Option.toList_some, List.singleton_append, List.map_cons, List.cons_append,
          scan_num hX, hxchar, scan_digits (fun c hc => (numStep_digit hc).2.2.2.2.1)
          (fun c hc => (numStep_digit hc).2.2.2.2.2) hne hds]
        simp only [List.reverse_cons, List.append_assoc, List.singleton_append, List.length_cons]
        rw [show o + 1 + 1 + ds.length = o + (ds.length + 1 + 1) by omega]
        rfl

/-- A number literal, from a state about to read a value: the scanner is left inside the
number, in a state where it may end. -/
theorem scan_numberLit (n : NumberLit) (stk : List Frame) (top : Option Value) (o : Nat)
    (rest : List UInt8) :
    ∃ st : NumState, st.final ∧
      scan ⟨.value, stk, top, o⟩ (n.text.map asciiByte ++ rest) =
        scan ⟨.num st n.text.reverse, stk, top, o + n.text.length⟩ rest := by
  obtain ⟨st₁, h₁, e₁⟩ := scan_intPart n stk top o
    (n.fracText.map asciiByte ++ (n.expText.map asciiByte ++ rest))
  obtain ⟨st₂, h₂, e₂⟩ := scan_fracPart n h₁ stk top _ _ (n.expText.map asciiByte ++ rest)
  obtain ⟨st₃, h₃, e₃⟩ := scan_expPart n h₂ stk top _ _ rest
  have hsplit : n.text.map asciiByte ++ rest = (n.signText ++ n.int).map asciiByte ++
      (n.fracText.map asciiByte ++ (n.expText.map asciiByte ++ rest)) := by
    simp only [NumberLit.text, List.map_append, List.append_assoc]
  refine ⟨st₃, h₃, ?_⟩
  rw [hsplit, e₁, e₂, e₃]
  simp only [NumberLit.text, List.reverse_append, List.append_assoc, List.length_append,
    Nat.add_assoc]

/-! ## Values -/

/-- `t` acts as `u` on every byte that may follow a value, at any offset: `u` has completed a
value that `t` is still reading, a number waiting for the byte that ends it. -/
def Pending (t u : Scanner) : Prop :=
  t.offset = u.offset ∧
    ∀ c, isDelim c → ∀ o, step { t with offset := o } c = step { u with offset := o } c

theorem Pending.refl (t : Scanner) : Pending t t := ⟨rfl, fun _ _ _ => rfl⟩

theorem Pending.scan_cons {t u : Scanner} (h : Pending t u) {c : UInt8} (hc : isDelim c)
    (rest : List UInt8) : scan t (c :: rest) = scan u (c :: rest) := by
  rw [Scanner.scan_cons, Scanner.scan_cons, h.1, h.2 c hc]

/-- Reading the encoding of `v` from any state about to read a value, whose stack leaves
room for `v`'s containers, ends pending on the state that has completed `v`. -/
def Reads (v : Value) : Prop :=
  ∀ (stk : List Frame) (top : Option Value) (o : Nat), stk.length + v.depth ≤ maxNestingDepth →
    ∃ t, scan ⟨.value, stk, top, o⟩ v.encode = .ok t ∧
      Pending t (complete ⟨.value, stk, top, o + v.encode.length⟩ v)

theorem reads_null : Reads .null := fun _ _ _ _ => ⟨_, rfl, Pending.refl _⟩

theorem reads_bool (b : Bool) : Reads (.bool b) := by
  cases b <;> exact fun _ _ _ _ => ⟨_, rfl, Pending.refl _⟩

theorem reads_number {lit : String} (h : (Value.number lit).WellFormed) : Reads (.number lit) := by
  obtain ⟨n, hn⟩ := h
  intro stk top o _
  obtain ⟨st, hst, hrun⟩ := scan_numberLit n stk top o []
  have hlen : (Value.number lit).encode.length = n.text.length := by
    simp only [Value.encode, List.length_map, hn]
  refine ⟨⟨.num st n.text.reverse, stk, top, o + n.text.length⟩, ?_, by rw [hlen]; rfl, ?_⟩
  · rw [Value.encode, hn, ← List.append_nil (n.text.map asciiByte), hrun]
    rfl
  · intro c hc o'
    have hv : Value.number (String.mk n.text.reverse.reverse) = .number lit := by
      rw [List.reverse_reverse, ← hn]
    simp only [step, numStep_of_isDelim hst hc, hv]
    rfl

theorem step_value_bracket {stk : List Frame} (hd : stk.length < maxNestingDepth)
    (top : Option Value) (o : Nat) :
    step ⟨.value, stk, top, o⟩ 0x5B = .ok ⟨.valueOrClose, .array [] :: stk, top, o⟩ := by
  show push ⟨.value, stk, top, o⟩ 0x5B (.array []) .valueOrClose = _
  rw [push, if_neg (Nat.not_le.mpr hd)]

theorem step_value_brace {stk : List Frame} (hd : stk.length < maxNestingDepth)
    (top : Option Value) (o : Nat) :
    step ⟨.value, stk, top, o⟩ 0x7B = .ok ⟨.keyOrClose, .object [] none :: stk, top, o⟩ := by
  show push ⟨.value, stk, top, o⟩ 0x7B (.object [] none) .keyOrClose = _
  rw [push, if_neg (Nat.not_le.mpr hd)]

/-- The encoding of a value never starts with a closing bracket, so a value read as the
first element of an array is read as any other. -/
theorem head_encode {v : Value} (hv : v.WellFormed) :
    ∃ c cs, v.encode = c :: cs ∧ c ≠ 0x5D ∧ isSpace c = false := by
  cases v with
  | null => exact ⟨_, _, rfl, by decide, rfl⟩
  | bool b => cases b <;> exact ⟨_, _, rfl, by decide, rfl⟩
  | string s => exact ⟨_, _, List.cons_append _ _ _, by decide, rfl⟩
  | array es =>
      cases es
      · exact ⟨0x5B, _, rfl, by decide, rfl⟩
      · exact ⟨0x5B, _, by rw [Value.encode, List.append_assoc, List.cons_append], by decide, rfl⟩
  | object ms =>
      rcases ms with _ | ⟨⟨k, e⟩, ms⟩
      · exact ⟨0x7B, _, rfl, by decide, rfl⟩
      · exact ⟨0x7B, _, by simp only [Value.encode, List.cons_append]; rfl, by decide, rfl⟩
  | number lit =>
      obtain ⟨n, hn⟩ := hv
      have hhead : ∃ c cs, n.text = c :: cs ∧ (c = '-' ∨ c.isDigit) := by
        cases hneg : n.neg
        · rcases n.int_ok with h | ⟨d, ds, h, hd1, hd9, -⟩
          · exact ⟨'0', _, by simp only [NumberLit.text, NumberLit.signText, hneg, h,
              Bool.false_eq_true, if_false, List.nil_append, List.cons_append]; rfl, .inr rfl⟩
          · refine ⟨d, _, by simp only [NumberLit.text, NumberLit.signText, hneg, h,
              Bool.false_eq_true, if_false, List.nil_append, List.cons_append]; rfl, .inr ?_⟩
            exact isDigit_iff.mpr ⟨(show 49 ≤ d.toNat from hd1).trans' (by decide), hd9⟩
        · exact ⟨'-', _, by simp only [NumberLit.text, NumberLit.signText, hneg, if_true,
            List.cons_append, List.singleton_append]; rfl, .inl rfl⟩
      obtain ⟨c, cs, htext, hc⟩ := hhead
      refine ⟨asciiByte c, cs.map asciiByte, by rw [Value.encode, hn, htext, List.map_cons], ?_⟩
      rcases hc with rfl | hc
      · exact ⟨by decide, rfl⟩
      · have := isDigit_iff.mp hc
        simp only [Ne, isSpace, Bool.or_eq_false_iff, beq_eq_false_iff_ne, byte_eq_iff,
          toNat_asciiByte (show c.toNat < 256 by omega), toNat_byteLit, Nat.reduceMod]
        omega

theorem bind_ok {α β ε : Type} (a : α) (f : α → Except ε β) : (Except.ok a).bind f = f a := rfl

/-- The first value of an array is read as any other, its first byte being no `]`. -/
theorem scan_valueOrClose {stk : List Frame} {top : Option Value} {o : Nat} {xs : List UInt8}
    (h : ∃ c cs, xs = c :: cs ∧ c ≠ 0x5D ∧ isSpace c = false) (rest : List UInt8) :
    scan ⟨.valueOrClose, stk, top, o⟩ (xs ++ rest) = scan ⟨.value, stk, top, o⟩ (xs ++ rest) := by
  obtain ⟨c, cs, rfl, hc, hs⟩ := h
  have hb : beginValue ⟨.valueOrClose, stk, top, o + 1⟩ c =
      beginValue ⟨.value, stk, top, o + 1⟩ c := by
    simp only [beginValue, hs, Bool.false_eq_true, if_false]
    rfl
  simp only [List.cons_append, Scanner.scan_cons, step, if_neg hc, hb]

end Scanner

end Kraken.Json
