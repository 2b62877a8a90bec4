import Kraken.Basic
import Kraken.Json.Scanner

/-!
# Decoding JSON into Go values

`decodeState.value` of Go 1.22's `encoding/json`, for the Go types the manifest packages
declare. A struct is a
table of fields, each a JSON name with the decoder of its Go type; a member goes to
the field its key names under Go's case folding, and unknown keys are skipped. As in
Go, a type error names the innermost struct around the failing field and the path of
JSON names down to it, array positions and map keys left out.

Two departures, neither changing whether decoding succeeds: a JSON array is decoded
into fresh slice elements, where Go reuses the stale elements of a slice's backing
array when a key is repeated; and the decoder stops at the first type error, the one
Go saves and reports, where Go goes on filling fields it then discards.
-/

namespace Kraken.Json

/-- `*json.UnmarshalTypeError`. `struct` is the struct holding the failing field, once
known; `field` the JSON names from the top-level value down to it. -/
structure UnmarshalTypeError where
  value : String
  goType : String
  struct : Option String
  field : List String
  deriving DecidableEq, Repr

namespace UnmarshalTypeError

def msg (e : UnmarshalTypeError) : String :=
  if e.struct.isNone ∧ e.field = [] then
    "json: cannot unmarshal " ++ e.value ++ " into Go value of type " ++ e.goType
  else
    "json: cannot unmarshal " ++ e.value ++ " into Go struct field " ++ e.struct.getD "" ++ "." ++
      ".".intercalate e.field ++ " of type " ++ e.goType

/-- A value of the wrong kind for `goType`, before any field context is added. -/
def ofValue (v : Value) (goType : String) : UnmarshalTypeError := ⟨v.kind, goType, none, []⟩

/-- The error leaving the field of JSON name `name`. -/
def inField (name : String) (e : UnmarshalTypeError) : UnmarshalTypeError :=
  { e with field := name :: e.field }

/-- The error leaving struct `name`: the innermost struct names it. -/
def inStruct (name : String) (e : UnmarshalTypeError) : UnmarshalTypeError :=
  if e.struct.isNone then { e with struct := some name } else e

end UnmarshalTypeError

/-- The errors `json.Unmarshal` returns. -/
inductive JsonError where
  | syntaxError (e : SyntaxError)
  | unmarshalType (e : UnmarshalTypeError)
  deriving DecidableEq, Repr

def JsonError.msg : JsonError → String
  | .syntaxError e => e.msg
  | .unmarshalType e => e.msg

/-- A JSON value into a Go string kind (`string`, `digest.Digest`). -/
def decodeString (goType : String) (cur : String) : Value → Except UnmarshalTypeError String
  | .null => .ok cur
  | .string s => .ok s
  | v => .error (.ofValue v goType)

def digitsVal (ds : List Char) : Nat := ds.foldl (fun n d => 10 * n + (d.toNat - 48)) 0

/-- `strconv.ParseInt(lit, 10, 64)` on a JSON number literal. -/
def parseInt64 (lit : String) : Option Int :=
  let (neg, ds) := match lit.data with
    | '-' :: ds => (true, ds)
    | ds => (false, ds)
  let n : Int := if neg then -(digitsVal ds : Int) else digitsVal ds
  if ds ≠ [] ∧ ds.all Char.isDigit ∧ -9223372036854775808 ≤ n ∧ n ≤ 9223372036854775807 then some n
  else none

/-- A JSON value into a Go integer kind (`int`, `int64`; both 64 bits wide). -/
def decodeInt (goType : String) (cur : Int) : Value → Except UnmarshalTypeError Int
  | .null => .ok cur
  | .number lit =>
      match parseInt64 lit with
      | some n => .ok n
      | none => .error ⟨"number " ++ lit, goType, none, []⟩
  | v => .error (.ofValue v goType)

/-- Whether `strconv.ParseFloat(lit, 64)` overflows: the literal's magnitude reaches
`2^1024 - 2^970`, the point halfway past the largest `float64`, where rounding gives
infinity. -/
def floatOverflows (lit : String) : Bool :=
  let body := match lit.data with
    | '-' :: cs => cs
    | cs => cs
  let intPart := body.takeWhile Char.isDigit
  let (fracPart, expPart) := match body.dropWhile Char.isDigit with
    | '.' :: cs => (cs.takeWhile Char.isDigit, cs.dropWhile Char.isDigit)
    | cs => ([], cs)
  let exp : Int := match expPart with
    | _ :: '-' :: cs => -(digitsVal cs : Int)
    | _ :: '+' :: cs => digitsVal cs
    | _ :: cs => digitsVal cs
    | [] => 0
  let m := digitsVal (intPart ++ fracPart)
  let e := exp - fracPart.length
  let limit := Nat.pow 2 1024 - Nat.pow 2 970
  if 0 ≤ e then decide (limit ≤ m * Nat.pow 10 e.toNat)
  else decide (limit * Nat.pow 10 (-e).toNat ≤ m)

mutual

/-- `valueInterface`: the first number that does not fit a `float64`, in document order. -/
def checkAny : Value → Except UnmarshalTypeError Unit
  | .number lit =>
      if floatOverflows lit then .error ⟨"number " ++ lit, "float64", none, []⟩ else .ok ()
  | .array es => checkAnyList es
  | .object ms => checkAnyMembers ms
  | _ => .ok ()

def checkAnyList : List Value → Except UnmarshalTypeError Unit
  | [] => .ok ()
  | e :: es => do checkAny e; checkAnyList es

def checkAnyMembers : List (String × Value) → Except UnmarshalTypeError Unit
  | [] => .ok ()
  | m :: ms => do checkAny m.2; checkAnyMembers ms

end

/-- A JSON value into an `interface{}`, keeping only whether the result is non-nil. -/
def decodeInterface (_cur : Bool) (v : Value) : Except UnmarshalTypeError Bool :=
  (checkAny v).map fun _ => match v with
    | .null => false
    | _ => true

/-- A JSON array into a slice, each element decoded into a fresh zero element;
`null` gives the nil slice. -/
def decodeSlice (goType : String) (elem : α → Value → Except UnmarshalTypeError α) (zero : α)
    (_cur : List α) : Value → Except UnmarshalTypeError (List α)
  | .null => .ok []
  | .array es => es.mapM (elem zero)
  | v => .error (.ofValue v goType)

/-- `m[k] = v` on a `map[string]string`. -/
def mapInsert (m : List (String × String)) (k v : String) : List (String × String) :=
  if m.any (·.1 == k) then m.map fun kv => if kv.1 = k then (k, v) else kv else m ++ [(k, v)]

/-- A JSON object into a `map[string]string`, added to the map already there;
`null` gives the nil map. -/
def decodeStringMap (cur : List (String × String)) :
    Value → Except UnmarshalTypeError (List (String × String))
  | .null => .ok []
  | .object ms => ms.foldlM (fun m kv => (decodeString "string" "" kv.2).map (mapInsert m kv.1)) cur
  | v => .error (.ofValue v "map[string]string")

/-- A JSON value into a pointer: `null` sets it nil, anything else is decoded into the
pointee, allocated when the pointer is nil. -/
def decodePointer (dec : α → Value → Except UnmarshalTypeError α) (zero : α) (cur : Option α) :
    Value → Except UnmarshalTypeError (Option α)
  | .null => .ok none
  | v => (dec (cur.getD zero) v).map some

/-- Go's case folding of a key character, as far as it decides a match with an ASCII field
name (`foldName` of Go 1.22's `encoding/json`, which folds each rune to the least of its
`unicode.SimpleFold` orbit): either case of a letter, the long s for `s`, the Kelvin sign
for `k`. No other orbit holds an ASCII letter, so any other character matches no field name;
among them are U+0130 and U+0131, whose orbits hold only themselves. -/
def foldChar (c : Char) : Char :=
  if 'A' ≤ c ∧ c ≤ 'Z' then Char.ofNat (c.toNat + 32)
  else if c.toNat = 0x17F then 's'
  else if c.toNat = 0x212A then 'k'
  else c

/-- Whether a member key selects the field of JSON name `name`. -/
def foldEq (key name : String) : Bool := key.data.map foldChar == name.data.map foldChar

/-- A struct field: its JSON name and how a member value updates the struct. -/
def StructField (α : Type) := String × (α → Value → Except UnmarshalTypeError α)

/-- The field named by its decoder for the field's own type. -/
def StructField.mk {α β : Type} (name : String) (get : α → β) (set : α → β → α)
    (dec : β → Value → Except UnmarshalTypeError β) : StructField α :=
  (name, fun s v => (dec (get s) v).map (set s))

/-- The fields of an embedded struct, promoted into the struct embedding it. -/
def StructField.lift {α β : Type} (get : α → β) (set : α → β → α) (fs : List (StructField β)) :
    List (StructField α) :=
  fs.map fun f => (f.1, fun s v => (f.2 (get s) v).map (set s))

/-- One member: the first field whose name the key folds to takes the value. -/
def setByName (fields : List (StructField α)) (s : α) (key : String) (v : Value) :
    Except UnmarshalTypeError α :=
  match fields.find? (fun f => foldEq key f.1) with
  | some f => (f.2 s v).mapError (.inField f.1)
  | none => .ok s

/-- `decodeState.object` into a struct of type `goType` named `name`. -/
def decodeStruct (name goType : String) (fields : List (StructField α)) (cur : α) :
    Value → Except UnmarshalTypeError α
  | .null => .ok cur
  | .object ms =>
      ms.foldlM (fun s kv => (setByName fields s kv.1 kv.2).mapError (.inStruct name)) cur
  | v => .error (.ofValue v goType)

/-- `json.Unmarshal(data, &v)` with `v` the zero value: the scanner's check over the
whole input, then decoding. -/
def unmarshal (dec : α → Value → Except UnmarshalTypeError α) (zero : α) (data : List UInt8) :
    Except JsonError α := do
  let v ← (parse data).mapError .syntaxError
  (dec zero v).mapError .unmarshalType

/-! ## Embedded structs

A Go struct embedding another promotes the embedded struct's fields. Decoding the
outer struct then decodes the embedded part exactly as decoding into the embedded
struct alone would: one member at a time, then along the whole member list. -/

/-- A run of `f` that `p` maps onto a run of `g`, step for step. -/
theorem foldlM_simulate {α β γ ε ε' : Type} {f : α → γ → Except ε α} {g : β → γ → Except ε' β}
    {p : α → β} (h : ∀ a c a', f a c = .ok a' → g (p a) c = .ok (p a')) :
    ∀ (l : List γ) (a a' : α), l.foldlM f a = .ok a' → l.foldlM g (p a) = .ok (p a')
  | [], a, a', hl => by
      cases hl
      rfl
  | c :: l, a, a', hl => by
      rw [List.foldlM_cons, Except.bind_eq_ok] at hl
      obtain ⟨a₁, h₁, hl⟩ := hl
      rw [List.foldlM_cons, h a c a₁ h₁]
      exact foldlM_simulate h l a₁ a' hl

/-- A field built by `StructField.mk` changes only its own part of the struct. -/
theorem StructField.exists_of_mk_ok {α β : Type} {name : String} {get : α → β} {set : α → β → α}
    {dec : β → Value → Except UnmarshalTypeError β} {s s' : α} {v : Value}
    (h : (StructField.mk name get set dec).2 s v = .ok s') : ∃ x, s' = set s x := by
  obtain ⟨x, -, rfl⟩ := Except.map_eq_ok.mp h
  exact ⟨x, rfl⟩

section Embedding

variable {α β : Type} {get : α → β} {set : α → β → α} {fs : List (StructField β)}
  {own : List (StructField α)}

/-- One member of the outer struct moves the embedded part as one member of the
embedded struct does, when the outer struct's own fields leave that part alone. -/
theorem setByName_lift (hget : ∀ s b, get (set s b) = b)
    (hown : ∀ f ∈ own, ∀ s v s', f.2 s v = .ok s' → get s' = get s)
    {s s' : α} {k : String} {v : Value}
    (h : setByName (StructField.lift get set fs ++ own) s k v = .ok s') :
    setByName fs (get s) k v = .ok (get s') := by
  unfold setByName at h ⊢
  simp only [List.find?_append, StructField.lift, List.find?_map, Function.comp_def] at h
  cases hf : fs.find? (fun f => foldEq k f.1) with
  | some f =>
      simp only [hf, Option.map_some', Option.or_some, Except.mapError_eq_ok,
        Except.map_eq_ok] at h ⊢
      obtain ⟨b, hb, rfl⟩ := h
      rw [hb, hget]
  | none =>
      simp only [hf, Option.map_none', Option.none_or] at h
      cases ho : own.find? (fun f => foldEq k f.1) with
      | some g =>
          rw [ho, Except.mapError_eq_ok] at h
          rw [hown g (List.mem_of_find?_eq_some ho) s v s' h]
      | none =>
          rw [ho] at h
          cases h
          rfl

/-- Decoding the outer struct decodes its embedded part as the embedded struct would. -/
theorem decodeStruct_lift (hget : ∀ s b, get (set s b) = b)
    (hown : ∀ f ∈ own, ∀ s v s', f.2 s v = .ok s' → get s' = get s)
    {name goType name' goType' : String} {cur s : α} {v : Value}
    (h : decodeStruct name goType (StructField.lift get set fs ++ own) cur v = .ok s) :
    decodeStruct name' goType' fs (get cur) v = .ok (get s) := by
  cases v with
  | null => cases h; rfl
  | object ms =>
      refine foldlM_simulate (fun a kv a' ha => ?_) ms cur s h
      rw [Except.mapError_eq_ok] at ha ⊢
      exact setByName_lift hget hown ha
  | _ => cases h

/-- Unmarshalling into the outer struct unmarshals its embedded part as unmarshalling
into the embedded struct would. -/
theorem unmarshal_lift {dec : α → Value → Except UnmarshalTypeError α}
    {dec' : β → Value → Except UnmarshalTypeError β} {zero s : α} {data : List UInt8}
    (hdec : ∀ {v s}, dec zero v = .ok s → dec' (get zero) v = .ok (get s))
    (h : unmarshal dec zero data = .ok s) : unmarshal dec' (get zero) data = .ok (get s) := by
  rw [unmarshal, Except.bind_eq_ok] at h ⊢
  obtain ⟨v, hv, h⟩ := h
  exact ⟨v, hv, by rw [Except.mapError_eq_ok] at h ⊢; exact hdec h⟩

end Embedding

end Kraken.Json

namespace Kraken

/-- A Go `error` value as the modelled code builds it. -/
inductive GoError where
  /-- `errors.New(msg)`, or `fmt.Errorf` with no error operand. -/
  | text (msg : String)
  /-- `fmt.Errorf(context + ": %s", err)`, or with `%w`. -/
  | wrap (context : String) (err : GoError)
  /-- An error returned by `encoding/json`. -/
  | json (err : Json.JsonError)
  deriving DecidableEq, Repr

/-- `err.Error()`. -/
def GoError.msg : GoError → String
  | .text m => m
  | .wrap c e => c ++ ": " ++ e.msg
  | .json e => e.msg

end Kraken
