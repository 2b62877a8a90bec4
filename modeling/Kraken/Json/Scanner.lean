import Kraken.Basic

/-!
# The `encoding/json` scanner over bytes

`json.Unmarshal` first runs `checkValid`, a byte-at-a-time state machine, over the
whole input and only then decodes. The machine here follows `scanner.go` state for
state and also builds the value it accepts, so a syntax error is reported at the
same byte, with the same message, as Go reports it. String contents are decoded as
Go's `unquote` does: escapes are resolved, a lone surrogate and every invalid UTF-8
byte become `U+FFFD`. Numbers keep their literal text, as the decoder does.

The input is consumed by structural recursion, so the scanner needs no fuel.
-/

namespace Kraken.Json

/-- A JSON value as the decoder holds it; a number keeps its literal text. -/
inductive Value where
  | null
  | bool (b : Bool)
  | number (lit : String)
  | string (s : String)
  | array (elems : List Value)
  | object (members : List (String × Value))

/-- The kind named in an `UnmarshalTypeError` for a value of the wrong kind. -/
def Value.kind : Value → String
  | .null => "null"
  | .bool _ => "bool"
  | .number _ => "number"
  | .string _ => "string"
  | .array _ => "array"
  | .object _ => "object"

/-- `*json.SyntaxError`: its message and the offset of the byte that caused it. -/
structure SyntaxError where
  msg : String
  offset : Nat
  deriving DecidableEq, Repr

/-- `maxNestingDepth` of `scanner.go`. -/
def maxNestingDepth : Nat := 10000

def isSpace (c : UInt8) : Bool := c == 0x20 || c == 0x09 || c == 0x0A || c == 0x0D

def isDigit (c : UInt8) : Bool := 0x30 ≤ c && c ≤ 0x39

def hexVal (c : UInt8) : Option Nat :=
  if 0x30 ≤ c ∧ c ≤ 0x39 then some (c.toNat - 0x30)
  else if 0x61 ≤ c ∧ c ≤ 0x66 then some (c.toNat - 0x61 + 10)
  else if 0x41 ≤ c ∧ c ≤ 0x46 then some (c.toNat - 0x41 + 10)
  else none

/-- `quoteChar`: a byte as the scanner's messages quote it, through
`strconv.Quote(string(rune(c)))`. -/
def quoteChar (c : UInt8) : String :=
  let n := c.toNat
  let hex2 := String.mk [hexDigit (n / 16), hexDigit (n % 16)]
  let body :=
    if n = 0x27 then "\\\x27"
    else if n = 0x22 then "\""
    else if n = 0x5C then "\\\\"
    else if 0x20 ≤ n ∧ n < 0x7F then String.mk [Char.ofNat n]
    else if n = 0x07 then "\\a" else if n = 0x08 then "\\b"
    else if n = 0x0C then "\\f" else if n = 0x0A then "\\n"
    else if n = 0x0D then "\\r" else if n = 0x09 then "\\t"
    else if n = 0x0B then "\\v"
    else if n < 0x80 then "\\x" ++ hex2
    else if n < 0xA1 ∨ n = 0xAD then "\\u00" ++ hex2
    else String.mk [Char.ofNat n]
  "\x27" ++ body ++ "\x27"

/-- `utf8.RuneError`. -/
def runeError : Char := Char.ofNat 0xFFFD

/-- For a byte that can lead a multi-byte UTF-8 sequence: the bytes still owed, the
range the next one must fall in, and the payload bits of the lead byte
(`utf8.first` and `utf8.acceptRanges`). -/
def leadInfo (c : UInt8) : Option (Nat × Nat × Nat × Nat) :=
  let n := c.toNat
  if 0xC2 ≤ n ∧ n ≤ 0xDF then some (1, 0x80, 0xBF, n % 32)
  else if n = 0xE0 then some (2, 0xA0, 0xBF, n % 16)
  else if 0xE1 ≤ n ∧ n ≤ 0xEC then some (2, 0x80, 0xBF, n % 16)
  else if n = 0xED then some (2, 0x80, 0x9F, n % 16)
  else if 0xEE ≤ n ∧ n ≤ 0xEF then some (2, 0x80, 0xBF, n % 16)
  else if n = 0xF0 then some (3, 0x90, 0xBF, n % 8)
  else if 0xF1 ≤ n ∧ n ≤ 0xF3 then some (3, 0x80, 0xBF, n % 8)
  else if n = 0xF4 then some (3, 0x80, 0x8F, n % 8)
  else none

/-- Progress inside a string literal. `utf8` holds a partly read sequence: bytes still
owed, the accepted range of the next one, the value so far and the bytes already
taken after the lead; `pendHi` a high surrogate waiting for a `\uXXXX` low half. -/
inductive StrState where
  | plain
  | esc
  | escU (k val : Nat)
  | utf8 (need lo hi val seen : Nat)
  | pendHi (hi : Nat)
  | pendHiEsc (hi : Nat)
  | pendHiU (hi k val : Nat)

/-- What one byte of a string literal does: go on, close the string, or fail with
the scanner's context text. -/
inductive StrOut where
  | more (st : StrState) (acc : List Char)
  | done (acc : List Char)
  | bad (context : String)

/-- The rune an escape `\uXXXX` of code `r` stands for when no low half follows it. -/
def runeStep (r : Nat) (acc : List Char) : StrOut :=
  if 0xD800 ≤ r ∧ r < 0xDC00 then .more (.pendHi r) acc
  else if 0xDC00 ≤ r ∧ r < 0xE000 then .more .plain (runeError :: acc)
  else .more .plain (Char.ofNat r :: acc)

def plainStep (acc : List Char) (c : UInt8) : StrOut :=
  if c = 0x22 then .done acc
  else if c = 0x5C then .more .esc acc
  else if c < 0x20 then .bad "in string literal"
  else if c < 0x80 then .more .plain (Char.ofNat c.toNat :: acc)
  else match leadInfo c with
    | some (need, lo, hi, val) => .more (.utf8 need lo hi val 0) acc
    | none => .more .plain (runeError :: acc)

def escStep (acc : List Char) (c : UInt8) : StrOut :=
  if c = 0x22 ∨ c = 0x5C ∨ c = 0x2F then .more .plain (Char.ofNat c.toNat :: acc)
  else if c = 0x62 then .more .plain ('\x08' :: acc)
  else if c = 0x66 then .more .plain ('\x0C' :: acc)
  else if c = 0x6E then .more .plain ('\n' :: acc)
  else if c = 0x72 then .more .plain ('\r' :: acc)
  else if c = 0x74 then .more .plain ('\t' :: acc)
  else if c = 0x75 then .more (.escU 0 0) acc
  else .bad "in string escape code"

/-- One byte inside a string literal. A UTF-8 sequence broken off at byte `c` turns
its lead and every byte taken after it into `RuneError`, and `c` starts afresh, as
repeated `utf8.DecodeRune` calls do. -/
def strStep (st : StrState) (acc : List Char) (c : UInt8) : StrOut :=
  match st with
  | .plain => plainStep acc c
  | .esc => escStep acc c
  | .escU k val =>
      match hexVal c with
      | none => .bad "in \\u hexadecimal character escape"
      | some h =>
          if k = 3 then runeStep (val * 16 + h) acc else .more (.escU (k + 1) (val * 16 + h)) acc
  | .utf8 need lo hi val seen =>
      if lo ≤ c.toNat ∧ c.toNat ≤ hi then
        if need = 1 then .more .plain (Char.ofNat (val * 64 + c.toNat % 64) :: acc)
        else .more (.utf8 (need - 1) 0x80 0xBF (val * 64 + c.toNat % 64) (seen + 1)) acc
      else plainStep (List.replicate (seen + 1) runeError ++ acc) c
  | .pendHi hi => if c = 0x5C then .more (.pendHiEsc hi) acc else plainStep (runeError :: acc) c
  | .pendHiEsc hi => if c = 0x75 then .more (.pendHiU hi 0 0) acc else escStep (runeError :: acc) c
  | .pendHiU hi k val =>
      match hexVal c with
      | none => .bad "in \\u hexadecimal character escape"
      | some h =>
          let r := val * 16 + h
          if k = 3 then
            if 0xDC00 ≤ r ∧ r < 0xE000 then
              .more .plain (Char.ofNat (0x10000 + (hi - 0xD800) * 0x400 + (r - 0xDC00)) :: acc)
            else runeStep r (runeError :: acc)
          else .more (.pendHiU hi (k + 1) r) acc

/-- Progress through a number literal: `stateNeg`, `state0`, `state1`, `stateDot`,
`stateDot0`, `stateE`, `stateESign`, `stateE0`. -/
inductive NumState where
  | neg | zero | int | dot | frac | exp | expSign | expDigits
  deriving DecidableEq

/-- A number literal after byte `c`: its next state, `none` when `c` ends it, or the
context of the error. -/
def numStep (st : NumState) (c : UInt8) : Except String (Option NumState) :=
  let e := c = 0x65 ∨ c = 0x45
  match st with
  | .neg => if c = 0x30 then .ok (some .zero) else if isDigit c then .ok (some .int)
      else .error "in numeric literal"
  | .zero => if c = 0x2E then .ok (some .dot) else if e then .ok (some .exp) else .ok none
  | .int => if isDigit c then .ok (some .int) else if c = 0x2E then .ok (some .dot)
      else if e then .ok (some .exp) else .ok none
  | .dot => if isDigit c then .ok (some .frac) else .error "after decimal point in numeric literal"
  | .frac => if isDigit c then .ok (some .frac) else if e then .ok (some .exp) else .ok none
  | .exp =>
      if c = 0x2B ∨ c = 0x2D then .ok (some .expSign)
      else if isDigit c then .ok (some .expDigits)
      else .error "in exponent of numeric literal"
  | .expSign => if isDigit c then .ok (some .expDigits) else .error "in exponent of numeric literal"
  | .expDigits => if isDigit c then .ok (some .expDigits) else .ok none

/-- An open container: an array's elements, or an object's members and the key
read for the member in progress (Go's `parseObjectKey` while it is set). Both lists
are newest first. -/
inductive Frame where
  | array (elems : List Value)
  | object (members : List (String × Value)) (key : Option String)

/-- Where the scanner stands: `stateBeginValue`, `stateBeginValueOrEmpty`,
`stateBeginStringOrEmpty`, `stateBeginString`, `stateEndValue`, inside a string,
inside a number, or inside one of `true`, `false`, `null`. -/
inductive Phase where
  | value
  | valueOrClose
  | keyOrClose
  | key
  | afterValue
  | str (st : StrState) (acc : List Char)
  | num (st : NumState) (lit : List Char)
  | word (name : String) (rest : List Char) (v : Value)

structure Scanner where
  phase : Phase
  stack : List Frame
  top : Option Value
  offset : Nat

namespace Scanner

def init : Scanner := ⟨.value, [], none, 0⟩

/-- `s.error(c, context)`. -/
def fail (s : Scanner) (c : UInt8) (context : String) : Except SyntaxError Scanner :=
  .error ⟨"invalid character " ++ quoteChar c ++ " " ++ context, s.offset⟩

/-- A value is complete: it becomes the top-level value, an array element, a key,
or the value of the member whose key was read. -/
def complete (s : Scanner) (v : Value) : Scanner :=
  let stack := match s.stack, v with
    | .array es :: fs, _ => .array (v :: es) :: fs
    | .object ms (some k) :: fs, _ => .object ((k, v) :: ms) none :: fs
    | .object ms none :: fs, .string k => .object ms (some k) :: fs
    | fs, _ => fs
  { s with phase := .afterValue, stack := stack, top := if s.stack.isEmpty then some v else s.top }

/-- `pushParseState`, with its depth limit. -/
def push (s : Scanner) (c : UInt8) (f : Frame) (ph : Phase) : Except SyntaxError Scanner :=
  if maxNestingDepth ≤ s.stack.length then s.fail c "exceeded max depth"
  else .ok { s with stack := f :: s.stack, phase := ph }

/-- `stateBeginValue`. -/
def beginValue (s : Scanner) (c : UInt8) : Except SyntaxError Scanner :=
  if isSpace c then .ok s
  else if c = 0x7B then s.push c (.object [] none) .keyOrClose
  else if c = 0x5B then s.push c (.array []) .valueOrClose
  else if c = 0x22 then .ok { s with phase := .str .plain [] }
  else if c = 0x2D then .ok { s with phase := .num .neg ['-'] }
  else if c = 0x30 then .ok { s with phase := .num .zero ['0'] }
  else if isDigit c then .ok { s with phase := .num .int [Char.ofNat c.toNat] }
  else if c = 0x74 then .ok { s with phase := .word "true" ['r', 'u', 'e'] (.bool true) }
  else if c = 0x66 then .ok { s with phase := .word "false" ['a', 'l', 's', 'e'] (.bool false) }
  else if c = 0x6E then .ok { s with phase := .word "null" ['u', 'l', 'l'] .null }
  else s.fail c "looking for beginning of value"

/-- `stateBeginString`. -/
def beginKey (s : Scanner) (c : UInt8) : Except SyntaxError Scanner :=
  if isSpace c then .ok s
  else if c = 0x22 then .ok { s with phase := .str .plain [] }
  else s.fail c "looking for beginning of object key string"

/-- `stateEndValue`, with `stateEndTop` once the stack is empty. -/
def endValue (s : Scanner) (c : UInt8) : Except SyntaxError Scanner :=
  match s.stack with
  | [] => if isSpace c then .ok s else s.fail c "after top-level value"
  | f :: fs =>
      if isSpace c then .ok s
      else match f with
        | .object _ (some _) =>
            if c = 0x3A then .ok { s with phase := .value } else s.fail c "after object key"
        | .object ms none =>
            if c = 0x2C then .ok { s with phase := .key }
            else if c = 0x7D then .ok (complete { s with stack := fs } (.object ms.reverse))
            else s.fail c "after object key:value pair"
        | .array es =>
            if c = 0x2C then .ok { s with phase := .value }
            else if c = 0x5D then .ok (complete { s with stack := fs } (.array es.reverse))
            else s.fail c "after array element"

/-- One byte, at the offset already counted in `s.offset`. -/
def step (s : Scanner) (c : UInt8) : Except SyntaxError Scanner :=
  match s.phase with
  | .value => s.beginValue c
  | .valueOrClose => if c = 0x5D then s.endValue c else s.beginValue c
  | .keyOrClose => if c = 0x7D then s.endValue c else s.beginKey c
  | .key => s.beginKey c
  | .afterValue => s.endValue c
  | .str st acc =>
      match strStep st acc c with
      | .more st' acc' => .ok { s with phase := .str st' acc' }
      | .done acc' => .ok (s.complete (.string (String.mk acc'.reverse)))
      | .bad context => s.fail c context
  | .num st lit =>
      match numStep st c with
      | .ok (some st') => .ok { s with phase := .num st' (Char.ofNat c.toNat :: lit) }
      | .ok none => (s.complete (.number (String.mk lit.reverse))).endValue c
      | .error context => s.fail c context
  | .word name rest v =>
      match rest with
      | r :: rs =>
          if c.toNat = r.toNat then
            .ok (if rs = [] then s.complete v else { s with phase := .word name rs v })
          else s.fail c ("in literal " ++ name ++ " (expecting \x27" ++ String.mk [r] ++ "\x27)")
      | [] => .ok (s.complete v)

/-- The `checkValid` loop: count each byte, then step on it. -/
def scan : Scanner → List UInt8 → Except SyntaxError Scanner
  | s, [] => .ok s
  | s, c :: cs => do
      let s' ← step { s with offset := s.offset + 1 } c
      scan s' cs

end Scanner

/-- `checkValid`, keeping the value: the end of input is read as one more space
(`scanner.eof`), after which the top-level value must be complete. -/
def parse (data : List UInt8) : Except SyntaxError Value := do
  let s ← Scanner.scan .init data
  let s ← s.step 0x20
  match s.top, s.stack with
  | some v, [] => .ok v
  | _, _ => .error ⟨"unexpected end of JSON input", s.offset⟩

end Kraken.Json
