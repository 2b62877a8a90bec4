import Kraken.Json.Encode

/-!
# The texts of a JSON value

`encoding/json` reads many texts of one value. Whitespace may stand between any two tokens,
and a character of a string may be written in several ways:
- as its UTF-8 bytes;
- as one of the two-byte escapes `\"`, `\\`, `\/`, `\b`, `\f`, `\n`, `\r`, `\t`;
- as `\uXXXX`, with hexadecimal digits of either case;
- beyond the Basic Multilingual Plane, as two such escapes of a surrogate pair.
`Text v b` says that `b` is one of these texts of `v`, and `parse_text` shows that `parse`
reads `v` back from each of them, when `v` is well formed and within the nesting limit.

The scanner reads some texts that are not listed here: a lone surrogate or a broken UTF-8
sequence stands for `utf8.RuneError`. `Text` holds only the texts that spell `v` exactly.

A string is read one character text at a time (`scan_charText`). Containers are read one
element or member at a time, from a state `Pending` on the value before (`ReadsText`).
-/

namespace Kraken.Json

/-! ## Whitespace -/

/-- Bytes that are all JSON whitespace. -/
def Blank (w : List UInt8) : Prop := ∀ c ∈ w, isSpace c = true

instance (w : List UInt8) : Decidable (Blank w) := inferInstanceAs (Decidable (∀ c ∈ w, _))

theorem blank_nil : Blank [] := fun _ h => absurd h (List.not_mem_nil _)

/-! ## The texts of a string -/

/-- The number that the four hexadecimal digits after `\u` spell (`getu4`). -/
def hexCode : List UInt8 → Option Nat
  | [a, b, c, d] => do
      let ha ← hexVal a
      let hb ← hexVal b
      let hc ← hexVal c
      let hd ← hexVal d
      return ((ha * 16 + hb) * 16 + hc) * 16 + hd
  | _ => none

/-- The two-byte escapes, by the byte after the backslash (`stateInStringEsc`, `unquoteBytes`). -/
def shortEscapes : List (UInt8 × Char) :=
  [(0x22, '"'), (0x5C, '\\'), (0x2F, '/'), (0x62, '\x08'), (0x66, '\x0C'), (0x6E, '\n'),
    (0x72, '\r'), (0x74, '\t')]

/-- The texts of one character inside a string literal. -/
inductive CharText : Char → List UInt8 → Prop
  /-- Any character but the quote, the backslash and the control characters, as its bytes. -/
  | utf8 {c : Char} : 0x20 ≤ c.toNat → c.toNat ≠ 0x22 → c.toNat ≠ 0x5C →
      CharText c (utf8Bytes c.toNat)
  /-- A two-byte escape. -/
  | short {c : Char} {e : UInt8} : (e, c) ∈ shortEscapes → CharText c [0x5C, e]
  /-- `\uXXXX`, for a character of the Basic Multilingual Plane. -/
  | unicode {c : Char} {x : List UInt8} : c.toNat < 0x10000 → hexCode x = some c.toNat →
      CharText c (0x5C :: 0x75 :: x)
  /-- `\uXXXX\uXXXX`, the surrogate pair of any other character. -/
  | surrogates {c : Char} {x y : List UInt8} : 0x10000 ≤ c.toNat →
      hexCode x = some (0xD800 + (c.toNat - 0x10000) / 0x400) →
      hexCode y = some (0xDC00 + (c.toNat - 0x10000) % 0x400) →
      CharText c (0x5C :: 0x75 :: x ++ 0x5C :: 0x75 :: y)

/-- The texts of a sequence of characters: a text of each, one after the other. -/
inductive CharsText : List Char → List UInt8 → Prop
  | nil : CharsText [] []
  | cons {c : Char} {cs : List Char} {x xs : List UInt8} :
      CharText c x → CharsText cs xs → CharsText (c :: cs) (x ++ xs)

/-- The texts of a string: its characters' texts between quotes. -/
def StrText (s : String) (b : List UInt8) : Prop :=
  ∃ x, CharsText s.data x ∧ b = 0x22 :: x ++ [0x22]

/-- The four digits of `\u00XX`, the escape of a byte-sized code. -/
theorem hexCode_u00 {n : Nat} (h : n < 0x100) :
    hexCode [0x30, 0x30, asciiByte (hexDigit (n / 16)), asciiByte (hexDigit (n % 16))] =
      some n := by
  have h0 : hexVal 0x30 = some 0 := rfl
  simp only [hexCode, h0, Scanner.hexVal_hexDigit _ (show n / 16 < 16 by omega),
    Scanner.hexVal_hexDigit _ (show n % 16 < 16 by omega), Option.bind_eq_bind,
    Option.some_bind, Option.pure_def, Option.some.injEq]
  omega

/-- A two-byte escape of the character with code `n`. -/
theorem CharText.short_of_toNat {c : Char} {n : Nat} {e : UInt8} (h : c.toNat = n)
    (hm : (e, Char.ofNat n) ∈ shortEscapes) : CharText c [0x5C, e] := by
  rw [← h, Char.ofNat_toNat] at hm
  exact .short hm

/-- The model's spelling of a character is one of its texts. -/
theorem charText_encodeChar (c : Char) : CharText c (encodeChar c) := by
  rw [encodeChar]
  split_ifs with h1 h2 h3
  · exact .short_of_toNat h1 (by decide)
  · exact .short_of_toNat h2 (by decide)
  · exact .unicode (by omega) (hexCode_u00 (by omega))
  · exact .utf8 (by omega) h1 h2

/-- A writer that spells each character by one of its texts spells every sequence so. -/
theorem charsText_flatMap {f : Char → List UInt8} (hf : ∀ c, CharText c (f c)) :
    ∀ cs : List Char, CharsText cs (cs.flatMap f)
  | [] => .nil
  | c :: cs => .cons (hf c) (charsText_flatMap hf cs)

theorem strText_encodeString (s : String) : StrText s (encodeString s) :=
  ⟨_, charsText_flatMap charText_encodeChar s.data, rfl⟩

/-! ## The strings `encoding/json` writes -/

/-- `htmlSafeSet[b] || (!escapeHTML && safeSet[b])`: the ASCII characters `appendString`
copies as they are. -/
def safeASCII (escapeHTML : Bool) (n : Nat) : Bool :=
  0x20 ≤ n && n != 0x22 && n != 0x5C && !(escapeHTML && (n == 0x3C || n == 0x3E || n == 0x26))

/-- What `appendString` writes for one character of a string held as valid UTF-8 (the
escapes of Go 1.22 on): an unsafe ASCII character as a two-byte escape or as `\u00XX`, the
line and paragraph separators as `\u2028` and `\u2029`, any other character as its bytes. -/
def appendChar (escapeHTML : Bool) (c : Char) : List UInt8 :=
  if c.toNat < 0x80 then
    if safeASCII escapeHTML c.toNat then utf8Bytes c.toNat
    else if c.toNat = 0x5C ∨ c.toNat = 0x22 then [0x5C, c.toNat.toUInt8]
    else if c.toNat = 0x08 then [0x5C, 0x62]
    else if c.toNat = 0x0C then [0x5C, 0x66]
    else if c.toNat = 0x0A then [0x5C, 0x6E]
    else if c.toNat = 0x0D then [0x5C, 0x72]
    else if c.toNat = 0x09 then [0x5C, 0x74]
    else [0x5C, 0x75, 0x30, 0x30, asciiByte (hexDigit (c.toNat / 16)),
      asciiByte (hexDigit (c.toNat % 16))]
  else if c.toNat = 0x2028 ∨ c.toNat = 0x2029 then
    [0x5C, 0x75, 0x32, 0x30, 0x32, asciiByte (hexDigit (c.toNat % 16))]
  else utf8Bytes c.toNat

/-- `appendString(dst, s, escapeHTML)` after `dst`: the string between quotes. -/
def appendString (escapeHTML : Bool) (s : String) : List UInt8 :=
  0x22 :: s.data.flatMap (appendChar escapeHTML) ++ [0x22]

/-- A character written as a two-byte escape when its code is `n`, and by a text of it
otherwise, is written by a text of it. -/
theorem charText_ite_short {c : Char} {n : Nat} {e : UInt8} (hm : (e, Char.ofNat n) ∈ shortEscapes)
    {rest : List UInt8} (h : c.toNat ≠ n → CharText c rest) :
    CharText c (if c.toNat = n then [0x5C, e] else rest) := by
  by_cases hc : c.toNat = n
  · rw [if_pos hc]
    exact .short_of_toNat hc hm
  · rw [if_neg hc]
    exact h hc

/-- Each character `appendString` writes is one of the character's texts. -/
theorem charText_appendChar (escapeHTML : Bool) (c : Char) :
    CharText c (appendChar escapeHTML c) := by
  rw [appendChar]
  by_cases h1 : c.toNat < 0x80
  · rw [if_pos h1]
    by_cases h2 : safeASCII escapeHTML c.toNat
    · -- a safe character, copied
      rw [if_pos h2]
      simp only [safeASCII, Bool.and_eq_true, decide_eq_true_eq, bne_iff_ne, ne_eq] at h2
      exact .utf8 h2.1.1.1 h2.1.1.2 h2.1.2
    rw [if_neg h2]
    by_cases h3 : c.toNat = 0x5C ∨ c.toNat = 0x22
    · rw [if_pos h3]
      rcases h3 with h | h <;> exact .short_of_toNat h (by rw [h]; decide)
    rw [if_neg h3]
    exact charText_ite_short (by decide) fun _ => charText_ite_short (by decide) fun _ =>
      charText_ite_short (by decide) fun _ => charText_ite_short (by decide) fun _ =>
        charText_ite_short (by decide) fun _ => .unicode (by omega) (hexCode_u00 (by omega))
  rw [if_neg h1]
  by_cases h9 : c.toNat = 0x2028 ∨ c.toNat = 0x2029
  · -- the line and paragraph separators, as `\u2028` and `\u2029`
    rw [if_pos h9]
    refine .unicode (by omega) ?_
    rcases h9 with h | h <;> rw [h] <;> rfl
  rw [if_neg h9]
  exact .utf8 (by omega) (by omega) (by omega)

theorem strText_appendString (escapeHTML : Bool) (s : String) :
    StrText s (appendString escapeHTML s) :=
  ⟨_, charsText_flatMap (charText_appendChar escapeHTML) s.data, rfl⟩

/-- `json.Marshal` escapes `<` for HTML and writes a newline as `\n`. -/
example : appendString true "a<b\n" = bytesOf "\"a\\u003cb\\n\"" := by decide

/-- `"a/b"` spelled with the escape `\/`, as some JSON writers do. -/
example : StrText "a/b" [0x22, 0x61, 0x5C, 0x2F, 0x62, 0x22] :=
  ⟨[0x61, 0x5C, 0x2F, 0x62], .cons (.utf8 (by decide) (by decide) (by decide))
    (.cons (.short (by decide)) (.cons (.utf8 (by decide) (by decide) (by decide)) .nil)), rfl⟩

/-! ## The texts of a value -/

mutual

/-- The texts of a value: its tokens with whitespace between them and its strings in any
of their texts. Literals and numbers have one text each. -/
inductive Text : Value → List UInt8 → Prop
  | null : Text .null Value.null.encode
  | bool (b : Bool) : Text (.bool b) (Value.bool b).encode
  | number (lit : String) : Text (.number lit) (Value.number lit).encode
  | string {s : String} {b : List UInt8} : StrText s b → Text (.string s) b
  | emptyArray {w : List UInt8} : Blank w → Text (.array []) (0x5B :: w ++ [0x5D])
  | array {e : Value} {es : List Value} {w₁ x xs w₂ : List UInt8} : Blank w₁ → Text e x →
      ElemsText es xs → Blank w₂ → Text (.array (e :: es)) (0x5B :: w₁ ++ x ++ xs ++ w₂ ++ [0x5D])
  | emptyObject {w : List UInt8} : Blank w → Text (.object []) (0x7B :: w ++ [0x7D])
  | object {k : String} {e : Value} {ms : List (String × Value)} {w₁ x xs w₂ : List UInt8} :
      Blank w₁ → MemberText k e x → MembersText ms xs → Blank w₂ →
      Text (.object ((k, e) :: ms)) (0x7B :: w₁ ++ x ++ xs ++ w₂ ++ [0x7D])

/-- The elements after the first, each after a comma with whitespace around it. -/
inductive ElemsText : List Value → List UInt8 → Prop
  | nil : ElemsText [] []
  | cons {e : Value} {es : List Value} {w₁ w₂ x xs : List UInt8} : Blank w₁ → Blank w₂ →
      Text e x → ElemsText es xs → ElemsText (e :: es) (w₁ ++ 0x2C :: w₂ ++ x ++ xs)

/-- A member: a text of its key, the colon with whitespace around it, a text of its value. -/
inductive MemberText : String → Value → List UInt8 → Prop
  | mk {k : String} {e : Value} {kx w₁ w₂ x : List UInt8} : StrText k kx → Blank w₁ →
      Blank w₂ → Text e x → MemberText k e (kx ++ w₁ ++ 0x3A :: w₂ ++ x)

/-- The members after the first, each after a comma with whitespace around it. -/
inductive MembersText : List (String × Value) → List UInt8 → Prop
  | nil : MembersText [] []
  | cons {k : String} {e : Value} {ms : List (String × Value)} {w₁ w₂ x xs : List UInt8} :
      Blank w₁ → Blank w₂ → MemberText k e x → MembersText ms xs →
      MembersText ((k, e) :: ms) (w₁ ++ 0x2C :: w₂ ++ x ++ xs)

end

namespace Scanner

/-! ## Reading a string -/

theorem strStep_esc_short {e : UInt8} {c : Char} (h : (e, c) ∈ shortEscapes) (acc : List Char) :
    strStep .esc acc e = .more .plain (c :: acc) := by
  simp only [shortEscapes, List.mem_cons, Prod.mk.injEq, List.mem_nil_iff, or_false] at h
  rcases h with ⟨rfl, rfl⟩ | ⟨rfl, rfl⟩ | ⟨rfl, rfl⟩ | ⟨rfl, rfl⟩ | ⟨rfl, rfl⟩ | ⟨rfl, rfl⟩ |
    ⟨rfl, rfl⟩ | ⟨rfl, rfl⟩ <;> rfl

/-- `\uXXXX` of a character of the Basic Multilingual Plane adds the character. -/
theorem runeStep_char {c : Char} (h : c.toNat < 0x10000) (acc : List Char) :
    runeStep c.toNat acc = .more .plain (c :: acc) := by
  have hv : c.toNat < 0xD800 ∨ (0xDFFF < c.toNat ∧ c.toNat < 0x110000) := c.valid
  rw [runeStep, if_neg (by omega), if_neg (by omega), Char.ofNat_toNat]

/-- The four digits of a `\u` escape, read from the state `F 0 0`: `F k val` has read `k`
digits spelling `val`, and the last digit hands the code to `last`. -/
theorem scan_hexCode {F : Nat → Nat → StrState} {acc : List Char} (last : Nat → StrOut)
    (hF : ∀ k val c d, k < 3 → hexVal c = some d →
      strStep (F k val) acc c = .more (F (k + 1) (val * 16 + d)) acc)
    (hlast : ∀ val c d, hexVal c = some d → strStep (F 3 val) acc c = last (val * 16 + d))
    {x : List UInt8} {n : Nat} (hx : hexCode x = some n) {st : StrState} {acc' : List Char}
    (hn : last n = .more st acc') (stk : List Frame) (top : Option Value) (o : Nat)
    (rest : List UInt8) :
    scan ⟨.str (F 0 0) acc, stk, top, o⟩ (x ++ rest) =
      scan ⟨.str st acc', stk, top, o + x.length⟩ rest := by
  match x, hx with
  | [a, b, c, d], hx =>
      simp only [hexCode, Option.bind_eq_bind, Option.bind_eq_some, Option.pure_def,
        Option.some.injEq] at hx
      obtain ⟨ha, h1, hb, h2, hc, h3, hd, h4, rfl⟩ := hx
      have h4' : strStep (F 3 (((0 * 16 + ha) * 16 + hb) * 16 + hc)) acc d = .more st acc' := by
        rw [hlast _ _ _ h4, Nat.zero_mul, Nat.zero_add, hn]
      rw [List.cons_append, scan_str (hF 0 0 a ha (by decide) h1), List.cons_append,
        scan_str (hF 1 _ b hb (by decide) h2), List.cons_append,
        scan_str (hF 2 _ c hc (by decide) h3), List.singleton_append, scan_str h4']
      rfl

theorem strStep_pendHiU {hi k val d : Nat} {c : UInt8} (hc : hexVal c = some d) (hk : k < 3)
    (acc : List Char) :
    strStep (.pendHiU hi k val) acc c = .more (.pendHiU hi (k + 1) (val * 16 + d)) acc := by
  simp only [strStep, hc, if_neg (show k ≠ 3 by omega)]

/-- Reading a text of a character inside a string literal adds the character. -/
theorem scan_charText {c : Char} {x : List UInt8} (h : CharText c x) (acc : List Char)
    (stk : List Frame) (top : Option Value) (o : Nat) (rest : List UInt8) :
    scan ⟨.str .plain acc, stk, top, o⟩ (x ++ rest) =
      scan ⟨.str .plain (c :: acc), stk, top, o + x.length⟩ rest := by
  have hescU : ∀ k val c d, k < 3 → hexVal c = some d →
      strStep (.escU k val) acc c = .more (.escU (k + 1) (val * 16 + d)) acc :=
    fun _ _ _ _ hk hd => strStep_escU hd (by omega) acc
  cases h with
  | utf8 h1 h2 h3 => exact scan_utf8Bytes h1 h2 h3 acc stk top o rest
  | short h =>
      exact (scan_str (strStep_plain_backslash acc) _ _ _ _).trans
        (scan_str (strStep_esc_short h acc) _ _ _ _)
  | @unicode x hlt hx =>
      rw [List.cons_append, List.cons_append, scan_str (strStep_plain_backslash acc),
        scan_str (strStep_esc_u acc), scan_hexCode (runeStep · acc) hescU
          (fun _ _ _ hd => strStep_escU_last hd acc)
          hx (runeStep_char hlt acc), List.length_cons, List.length_cons,
        show o + 1 + 1 + x.length = o + (x.length + 1 + 1) by omega]
  | @surrogates x y hle hx hy =>
      have hv : c.toNat < 0x110000 := by
        have : c.toNat < 0xD800 ∨ (0xDFFF < c.toNat ∧ c.toNat < 0x110000) := c.valid
        omega
      set hi := 0xD800 + (c.toNat - 0x10000) / 0x400 with hhi
      set lo := 0xDC00 + (c.toNat - 0x10000) % 0x400 with hlo
      have hhigh : runeStep hi acc = .more (.pendHi hi) acc := by
        rw [runeStep, if_pos (by omega)]
      have hpair : (if 0xDC00 ≤ lo ∧ lo < 0xE000 then
          StrOut.more .plain (Char.ofNat (0x10000 + (hi - 0xD800) * 0x400 + (lo - 0xDC00)) :: acc)
          else runeStep lo (runeError :: acc)) = .more .plain (c :: acc) := by
        rw [if_pos (by omega), show 0x10000 + (hi - 0xD800) * 0x400 + (lo - 0xDC00) = c.toNat by
          omega, Char.ofNat_toNat]
      have hbs : strStep (.pendHi hi) acc 0x5C = .more (.pendHiEsc hi) acc := rfl
      have hu : strStep (.pendHiEsc hi) acc 0x75 = .more (.pendHiU hi 0 0) acc := rfl
      simp only [List.cons_append, List.append_assoc]
      rw [scan_str (strStep_plain_backslash acc), scan_str (strStep_esc_u acc),
        scan_hexCode (runeStep · acc) hescU
          (fun _ _ _ hd => strStep_escU_last hd acc) hx hhigh, scan_str hbs,
        scan_str hu, scan_hexCode (F := StrState.pendHiU hi)
          (fun r => if 0xDC00 ≤ r ∧ r < 0xE000 then
            .more .plain (Char.ofNat (0x10000 + (hi - 0xD800) * 0x400 + (r - 0xDC00)) :: acc)
          else runeStep r (runeError :: acc))
          (fun _ _ _ _ hk hd => strStep_pendHiU hd hk acc)
          (fun _ _ _ hd => by simp only [strStep, hd, if_true]) hy hpair]
      simp only [List.length_append, List.length_cons]
      rw [show o + 1 + 1 + x.length + 1 + 1 + y.length =
        o + (x.length + (y.length + 1 + 1) + 1 + 1) by omega]

theorem scan_charsText {stk : List Frame} {top : Option Value} :
    ∀ {cs : List Char} {x : List UInt8}, CharsText cs x → ∀ (acc : List Char) (o : Nat)
      (rest : List UInt8), scan ⟨.str .plain acc, stk, top, o⟩ (x ++ rest) =
        scan ⟨.str .plain (cs.reverse ++ acc), stk, top, o + x.length⟩ rest
  | _, _, .nil, _, _, _ => rfl
  | _, _, .cons hc hcs, acc, o, rest => by
      rw [List.append_assoc, scan_charText hc, scan_charsText hcs, List.reverse_cons,
        List.append_assoc, List.length_append, Nat.add_assoc]
      rfl

/-- A string is read whole and completed from any text of it, from any state where its
opening quote starts a string literal. -/
theorem scan_strText {ph : Phase} {stk : List Frame} {top : Option Value}
    (hq : ∀ o, step ⟨ph, stk, top, o⟩ 0x22 = .ok ⟨.str .plain [], stk, top, o⟩) {s : String}
    {b : List UInt8} (h : StrText s b) (o : Nat) (rest : List UInt8) :
    scan ⟨ph, stk, top, o⟩ (b ++ rest) =
      scan (complete ⟨ph, stk, top, o + b.length⟩ (.string s)) rest := by
  obtain ⟨x, hx, rfl⟩ := h
  have hclose : ∀ acc o', step ⟨.str .plain acc, stk, top, o'⟩ 0x22 =
      .ok (complete ⟨ph, stk, top, o'⟩ (.string (String.mk acc.reverse))) := fun _ _ => rfl
  rw [List.cons_append, List.cons_append, scan_cons_of_step (hq _), List.append_assoc,
    scan_charsText hx, List.singleton_append, scan_cons, hclose]
  simp only [Except.bind, List.append_nil, List.reverse_reverse, List.length_cons,
    List.length_append, List.length_singleton]
  rw [show o + 1 + x.length + 1 = o + (x.length + 1 + 1) by omega]
  rfl

/-! ## Skipping whitespace -/

/-- The phases that skip whitespace: `stateBeginValue`, `stateBeginValueOrEmpty`,
`stateBeginStringOrEmpty`, `stateBeginString` and `stateEndValue`. -/
def SkipsBlank : Phase → Prop
  | .value | .valueOrClose | .keyOrClose | .key | .afterValue => True
  | _ => False

theorem step_blank {ph : Phase} (hph : SkipsBlank ph) (stk : List Frame) (top : Option Value)
    (o : Nat) {c : UInt8} (hc : isSpace c = true) :
    step ⟨ph, stk, top, o⟩ c = .ok ⟨ph, stk, top, o⟩ := by
  have h5D : c ≠ 0x5D := by rintro rfl; exact absurd hc (by decide)
  have h7D : c ≠ 0x7D := by rintro rfl; exact absurd hc (by decide)
  cases ph <;> simp only [SkipsBlank] at hph
  · show beginValue _ c = _
    rw [beginValue, if_pos hc]
  · show (if c = 0x5D then _ else beginValue _ c) = _
    rw [if_neg h5D, beginValue, if_pos hc]
  · show (if c = 0x7D then _ else beginKey _ c) = _
    rw [if_neg h7D, beginKey, if_pos hc]
  · show beginKey _ c = _
    rw [beginKey, if_pos hc]
  · show endValue _ c = _
    cases stk <;> simp only [endValue, hc, if_true]

/-- Whitespace read where the scanner skips it only moves the offset. -/
theorem scan_blank {w : List UInt8} (hw : Blank w) (ph : Phase) (hph : SkipsBlank ph)
    (stk : List Frame) (top : Option Value) :
    ∀ o, scan ⟨ph, stk, top, o⟩ w = .ok ⟨ph, stk, top, o + w.length⟩ := by
  induction w with
  | nil => exact fun _ => rfl
  | cons c cs ih =>
      intro o
      rw [scan_cons_of_step (step_blank hph stk top (o + 1) (hw c (List.mem_cons_self _ _))),
        ih (fun x hx => hw x (List.mem_cons_of_mem _ hx)), List.length_cons, Nat.add_assoc,
        Nat.add_comm 1]

theorem isDelim_of_isSpace {c : UInt8} (h : isSpace c = true) : isDelim c := by
  simp only [isDelim, h, Bool.true_or]

/-- Whitespace after a value the scanner is still completing: the first blank completes
it, as a delimiter, and the rest is skipped. -/
theorem Pending.scan_blank {t : Scanner} {ph : Phase} {stk : List Frame} {top : Option Value}
    {o : Nat} (hp : Pending t ⟨ph, stk, top, o⟩) (hph : SkipsBlank ph) :
    ∀ {w : List UInt8}, Blank w →
      ∃ t', scan t w = .ok t' ∧ Pending t' ⟨ph, stk, top, o + w.length⟩
  | [], _ => ⟨t, rfl, hp⟩
  | c :: cs, hw =>
      ⟨_, (hp.scan_cons (isDelim_of_isSpace (hw c (List.mem_cons_self _ _))) cs).trans
        (Scanner.scan_blank hw ph hph stk top o), Pending.refl _⟩

/-! ## Reading a value -/

/-- Reading any text of `v`, from any state about to read a value whose stack leaves room
for `v`'s containers, ends pending on a state that has completed `v`. -/
def ReadsText (v : Value) : Prop :=
  ∀ b, Text v b → ∀ (stk : List Frame) (top : Option Value) (o : Nat),
    stk.length + v.depth ≤ maxNestingDepth →
    ∃ t o', scan ⟨.value, stk, top, o⟩ b = .ok t ∧ Pending t (complete ⟨.value, stk, top, o'⟩ v)

/-- A value with one text, its encoding, is read as its encoding is. -/
theorem readsText_of_reads {v : Value} (h : Reads v) (hb : ∀ b, Text v b → b = v.encode) :
    ReadsText v := fun b ht stk top o hd =>
  let ⟨t, hs, hp⟩ := h stk top o hd
  ⟨t, _, (hb b ht).symm ▸ hs, hp⟩

theorem readsText_string (s : String) : ReadsText (.string s) := by
  intro b hb stk top o _
  cases hb with
  | string h =>
      have hs := scan_strText (step_value_quote stk top) h o []
      rw [List.append_nil] at hs
      exact ⟨_, _, hs.trans rfl, Pending.refl _⟩

/-- No text of a value starts with a closing bracket or with whitespace. -/
theorem head_text {v : Value} {b : List UInt8} (ht : Text v b) (hv : v.WellFormed) :
    ∃ c cs, b = c :: cs ∧ c ≠ 0x5D ∧ isSpace c = false := by
  cases ht with
  | string h =>
      obtain ⟨x, -, rfl⟩ := h
      exact ⟨0x22, _, List.cons_append _ _ _, by decide, rfl⟩
  | emptyArray _ | array _ _ _ _ =>
      exact ⟨0x5B, _, by simp only [List.cons_append]; rfl, by decide, rfl⟩
  | emptyObject _ | object _ _ _ _ =>
      exact ⟨0x7B, _, by simp only [List.cons_append]; rfl, by decide, rfl⟩
  | _ => exact head_encode hv

/-- The elements after the first, each read after its comma, from a state pending on the
array holding the elements before. -/
theorem readsText_elems {stk : List Frame} {top : Option Value} :
    ∀ {es : List Value} {xs : List UInt8}, ElemsText es xs → (∀ e ∈ es, ReadsText e) →
      stk.length + 1 + depthElems es ≤ maxNestingDepth →
      ∀ (acc : List Value) (t₀ : Scanner) (o : Nat),
        Pending t₀ ⟨.afterValue, .array acc :: stk, top, o⟩ →
        ∃ t o', scan t₀ xs = .ok t ∧
          Pending t ⟨.afterValue, .array (es.reverse ++ acc) :: stk, top, o'⟩
  | [], _, .nil, _, _, _, t₀, o, hp => ⟨t₀, o, rfl, hp⟩
  | e :: es, _, @ElemsText.cons _ _ w₁ w₂ x xs h₁ h₂ hx hxs, h, hd, acc, t₀, o, hp => by
      have hde : e.depth ≤ depthElems (e :: es) := Nat.le_max_left _ _
      have hdes : depthElems es ≤ depthElems (e :: es) := Nat.le_max_right _ _
      obtain ⟨t₁, ht₁, hp₁⟩ := hp.scan_blank trivial h₁
      have hcomma : step ⟨.afterValue, .array acc :: stk, top, o + w₁.length + 1⟩ 0x2C =
          .ok ⟨.value, .array acc :: stk, top, o + w₁.length + 1⟩ := rfl
      obtain ⟨t₂, o₂, ht₂, hp₂⟩ := h e (List.mem_cons_self _ _) x hx (.array acc :: stk) top
        (o + w₁.length + 1 + w₂.length) (by simp only [List.length_cons]; omega)
      obtain ⟨t, o', ht, hpt⟩ := readsText_elems hxs
        (fun y hy => h y (List.mem_cons_of_mem _ hy)) (by omega) (e :: acc) t₂ o₂ hp₂
      refine ⟨t, o', ?_, by rwa [List.reverse_cons, List.append_assoc, List.singleton_append]⟩
      simp only [List.cons_append, List.append_assoc]
      rw [scan_append, ht₁, bind_ok, hp₁.scan_cons isDelim_comma, scan_cons_of_step hcomma,
        scan_append, scan_blank h₂ .value trivial, bind_ok, scan_append, ht₂, bind_ok]
      exact ht

/-- One member, from a state whose opening quote starts its key, in an object holding the
members before it. -/
theorem readsText_member {ph : Phase} {acc : List (String × Value)} {stk : List Frame}
    {top : Option Value} (hq : ∀ o, step ⟨ph, .object acc none :: stk, top, o⟩ 0x22 =
      .ok ⟨.str .plain [], .object acc none :: stk, top, o⟩)
    {k : String} {e : Value} {x : List UInt8} (hx : MemberText k e x) (h : ReadsText e)
    (hd : stk.length + 1 + e.depth ≤ maxNestingDepth) (o : Nat) :
    ∃ t o', scan ⟨ph, .object acc none :: stk, top, o⟩ x = .ok t ∧
      Pending t ⟨.afterValue, .object ((k, e) :: acc) none :: stk, top, o'⟩ := by
  cases hx with
  | @mk _ _ kx w₁ w₂ xv hk h₁ h₂ hv =>
      set o₁ := o + kx.length with ho₁
      have hkey : complete ⟨ph, .object acc none :: stk, top, o₁⟩ (.string k) =
          ⟨.afterValue, .object acc (some k) :: stk, top, o₁⟩ := rfl
      have hcolon : step ⟨.afterValue, .object acc (some k) :: stk, top, o₁ + w₁.length + 1⟩
          0x3A = .ok ⟨.value, .object acc (some k) :: stk, top, o₁ + w₁.length + 1⟩ := rfl
      obtain ⟨t, o', ht, hp⟩ := h xv hv (.object acc (some k) :: stk) top
        (o₁ + w₁.length + 1 + w₂.length) (by simp only [List.length_cons]; omega)
      refine ⟨t, o', ?_, hp⟩
      simp only [List.cons_append, List.append_assoc]
      rw [scan_strText hq hk, ← ho₁, hkey, scan_append, scan_blank h₁ .afterValue trivial,
        bind_ok, scan_cons_of_step hcolon, scan_append, scan_blank h₂ .value trivial, bind_ok, ht]

/-- The members after the first, each read after its comma, from a state pending on the
object holding the members before. -/
theorem readsText_members {stk : List Frame} {top : Option Value} :
    ∀ {ms : List (String × Value)} {xs : List UInt8}, MembersText ms xs →
      (∀ m ∈ ms, ReadsText m.2) → stk.length + 1 + depthMembers ms ≤ maxNestingDepth →
      ∀ (acc : List (String × Value)) (t₀ : Scanner) (o : Nat),
        Pending t₀ ⟨.afterValue, .object acc none :: stk, top, o⟩ →
        ∃ t o', scan t₀ xs = .ok t ∧
          Pending t ⟨.afterValue, .object (ms.reverse ++ acc) none :: stk, top, o'⟩
  | [], _, .nil, _, _, _, t₀, o, hp => ⟨t₀, o, rfl, hp⟩
  | (k, e) :: ms, _, @MembersText.cons _ _ _ w₁ w₂ x xs h₁ h₂ hx hxs, h, hd, acc, t₀, o, hp => by
      have hde : e.depth ≤ depthMembers ((k, e) :: ms) := Nat.le_max_left _ _
      have hdms : depthMembers ms ≤ depthMembers ((k, e) :: ms) := Nat.le_max_right _ _
      obtain ⟨t₁, ht₁, hp₁⟩ := hp.scan_blank trivial h₁
      have hcomma : step ⟨.afterValue, .object acc none :: stk, top, o + w₁.length + 1⟩ 0x2C =
          .ok ⟨.key, .object acc none :: stk, top, o + w₁.length + 1⟩ := rfl
      obtain ⟨t₂, o₂, ht₂, hp₂⟩ := readsText_member
        (step_key_quote (.object acc none :: stk) top) hx (h (k, e) (List.mem_cons_self _ _))
        (by omega) (o + w₁.length + 1 + w₂.length)
      obtain ⟨t, o', ht, hpt⟩ := readsText_members hxs
        (fun y hy => h y (List.mem_cons_of_mem _ hy)) (by omega) ((k, e) :: acc) t₂ o₂ hp₂
      refine ⟨t, o', ?_, by rwa [List.reverse_cons, List.append_assoc, List.singleton_append]⟩
      simp only [List.cons_append, List.append_assoc]
      rw [scan_append, ht₁, bind_ok, hp₁.scan_cons isDelim_comma, scan_cons_of_step hcomma,
        scan_append, scan_blank h₂ .key trivial, bind_ok, scan_append, ht₂, bind_ok]
      exact ht

theorem readsText_array {es : List Value} (hwf : ElemsWellFormed es)
    (h : ∀ e ∈ es, ReadsText e) : ReadsText (.array es) := by
  intro b hb stk top o hd
  have hdv : (Value.array es).depth = depthElems es + 1 := rfl
  have hlt : stk.length < maxNestingDepth := by omega
  cases hb with
  | @emptyArray w hw =>
      have hclose : step ⟨.valueOrClose, .array [] :: stk, top, o + 1 + w.length + 1⟩ 0x5D =
          .ok (complete ⟨.afterValue, stk, top, o + 1 + w.length + 1⟩ (.array [])) := rfl
      refine ⟨complete ⟨.afterValue, stk, top, o + 1 + w.length + 1⟩ (.array []), _, ?_,
        Pending.refl _⟩
      rw [List.cons_append, scan_cons_of_step (step_value_bracket hlt top _), scan_append,
        scan_blank hw .valueOrClose trivial, bind_ok, scan_cons_of_step hclose]
      rfl
  | @array e es w₁ x xs w₂ h₁ hx hxs h₂ =>
      have hde : e.depth ≤ depthElems (e :: es) := Nat.le_max_left _ _
      have hdes : depthElems es ≤ depthElems (e :: es) := Nat.le_max_right _ _
      obtain ⟨t₁, o₁, ht₁, hp₁⟩ := h e (List.mem_cons_self _ _) x hx (.array [] :: stk) top
        (o + 1 + w₁.length) (by simp only [List.length_cons]; omega)
      have hp₁' : Pending t₁ ⟨.afterValue, .array [e] :: stk, top, o₁⟩ := hp₁
      obtain ⟨t₂, o₂, ht₂, hp₂⟩ := readsText_elems hxs
        (fun y hy => h y (List.mem_cons_of_mem _ hy)) (by omega) [e] t₁ o₁ hp₁'
      obtain ⟨t₃, ht₃, hp₃⟩ := hp₂.scan_blank trivial h₂
      have hclose : step ⟨.afterValue, .array (es.reverse ++ [e]) :: stk, top,
          o₂ + w₂.length + 1⟩ 0x5D =
          .ok (complete ⟨.afterValue, stk, top, o₂ + w₂.length + 1⟩ (.array (e :: es))) := by
        show Except.ok (complete _ (.array (es.reverse ++ [e]).reverse)) = _
        rw [List.reverse_append, List.reverse_singleton, List.reverse_reverse]
        rfl
      refine ⟨complete ⟨.afterValue, stk, top, o₂ + w₂.length + 1⟩ (.array (e :: es)), _, ?_,
        Pending.refl _⟩
      simp only [List.cons_append, List.append_assoc]
      rw [scan_cons_of_step (step_value_bracket hlt top _), scan_append,
        scan_blank h₁ .valueOrClose trivial, bind_ok, scan_valueOrClose (head_text hx hwf.1),
        scan_append, ht₁, bind_ok, scan_append, ht₂, bind_ok, scan_append, ht₃, bind_ok,
        hp₃.scan_cons isDelim_bracket, scan_cons_of_step hclose]
      rfl

theorem readsText_object {ms : List (String × Value)} (h : ∀ m ∈ ms, ReadsText m.2) :
    ReadsText (.object ms) := by
  intro b hb stk top o hd
  have hdv : (Value.object ms).depth = depthMembers ms + 1 := rfl
  have hlt : stk.length < maxNestingDepth := by omega
  cases hb with
  | @emptyObject w hw =>
      have hclose : step ⟨.keyOrClose, .object [] none :: stk, top, o + 1 + w.length + 1⟩ 0x7D =
          .ok (complete ⟨.afterValue, stk, top, o + 1 + w.length + 1⟩ (.object [])) := rfl
      refine ⟨complete ⟨.afterValue, stk, top, o + 1 + w.length + 1⟩ (.object []), _, ?_,
        Pending.refl _⟩
      rw [List.cons_append, scan_cons_of_step (step_value_brace hlt top _), scan_append,
        scan_blank hw .keyOrClose trivial, bind_ok, scan_cons_of_step hclose]
      rfl
  | @object k e ms w₁ x xs w₂ h₁ hx hxs h₂ =>
      have hde : e.depth ≤ depthMembers ((k, e) :: ms) := Nat.le_max_left _ _
      have hdms : depthMembers ms ≤ depthMembers ((k, e) :: ms) := Nat.le_max_right _ _
      obtain ⟨t₁, o₁, ht₁, hp₁⟩ := readsText_member
        (step_keyOrClose_quote (.object [] none :: stk) top) hx (h (k, e) (List.mem_cons_self _ _))
        (by omega) (o + 1 + w₁.length)
      obtain ⟨t₂, o₂, ht₂, hp₂⟩ := readsText_members hxs
        (fun y hy => h y (List.mem_cons_of_mem _ hy)) (by omega) [(k, e)] t₁ o₁ hp₁
      obtain ⟨t₃, ht₃, hp₃⟩ := hp₂.scan_blank trivial h₂
      have hclose : step ⟨.afterValue, .object (ms.reverse ++ [(k, e)]) none :: stk, top,
          o₂ + w₂.length + 1⟩ 0x7D =
          .ok (complete ⟨.afterValue, stk, top, o₂ + w₂.length + 1⟩ (.object ((k, e) :: ms))) := by
        show Except.ok (complete _ (.object (ms.reverse ++ [(k, e)]).reverse)) = _
        rw [List.reverse_append, List.reverse_singleton, List.reverse_reverse]
        rfl
      refine ⟨complete ⟨.afterValue, stk, top, o₂ + w₂.length + 1⟩ (.object ((k, e) :: ms)), _,
        ?_, Pending.refl _⟩
      simp only [List.cons_append, List.append_assoc]
      rw [scan_cons_of_step (step_value_brace hlt top _), scan_append,
        scan_blank h₁ .keyOrClose trivial, bind_ok, scan_append, ht₁, bind_ok, scan_append, ht₂,
        bind_ok, scan_append, ht₃, bind_ok, hp₃.scan_cons isDelim_brace, scan_cons_of_step hclose]
      rfl

mutual

/-- Every well-formed value is read back from each of its texts. -/
theorem readsText : ∀ v : Value, v.WellFormed → ReadsText v
  | .null, _ => readsText_of_reads reads_null fun _ h => by cases h; rfl
  | .bool b, _ => readsText_of_reads (reads_bool b) fun _ h => by cases h; rfl
  | .number _, hv => readsText_of_reads (reads_number hv) fun _ h => by cases h; rfl
  | .string s, _ => readsText_string s
  | .array es, hv => readsText_array hv (readsText_elemsOf es hv)
  | .object ms, hv => readsText_object (readsText_membersOf ms hv)

theorem readsText_elemsOf : ∀ es : List Value, ElemsWellFormed es → ∀ e ∈ es, ReadsText e
  | [], _ => fun _ h => absurd h (List.not_mem_nil _)
  | e :: es, hes => List.forall_mem_cons.2 ⟨readsText e hes.1, readsText_elemsOf es hes.2⟩

theorem readsText_membersOf :
    ∀ ms : List (String × Value), MembersWellFormed ms → ∀ m ∈ ms, ReadsText m.2
  | [], _ => fun _ h => absurd h (List.not_mem_nil _)
  | (_, e) :: ms, hms =>
      List.forall_mem_cons.2 ⟨readsText e hms.1, readsText_membersOf ms hms.2⟩

end

end Scanner

/-- `parse` reads every well-formed value within the nesting limit back from each of its
texts, with any whitespace before and after it. -/
theorem parse_text {v : Value} {b : List UInt8} (ht : Text v b) (hv : v.WellFormed)
    (hd : v.depth ≤ maxNestingDepth) {w₁ w₂ : List UInt8} (h₁ : Blank w₁) (h₂ : Blank w₂) :
    parse (w₁ ++ b ++ w₂) = .ok v := by
  obtain ⟨t, o', hs, hp⟩ := Scanner.readsText v hv b ht [] none (0 + w₁.length)
    (by simpa using hd)
  have hp' : Scanner.Pending t ⟨.afterValue, [], some v, o'⟩ := hp
  obtain ⟨t', ht', hp''⟩ := hp'.scan_blank trivial h₂
  have hend : t'.step 0x20 = .ok ⟨.afterValue, [], some v, t'.offset⟩ :=
    (hp''.2 0x20 Scanner.isDelim_space t'.offset).trans rfl
  have hrun : Scanner.scan .init (w₁ ++ b ++ w₂) = .ok t' := by
    rw [List.append_assoc, Scanner.scan_append, Scanner.init,
      Scanner.scan_blank h₁ .value trivial, Scanner.bind_ok, Scanner.scan_append, hs,
      Scanner.bind_ok, ht']
  simp only [parse, Except.bind_eq_ok]
  exact ⟨t', hrun, _, hend, rfl⟩

end Kraken.Json
