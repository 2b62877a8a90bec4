import Kraken.Json.Text

/-!
# Whitespace between tokens

The documents a registry serves are seldom compact: `json.MarshalIndent` starts each element
on a new indented line, and the fixtures of the tests are laid out by hand in the same way.
`Value.write` writes a value with whitespace in every gap of its containers, chosen by the
kind of gap and the depth of the container, and its strings with a string writer: the
model's own `encodeString` (`Value.layout`) or `encoding/json`'s `appendString`. With a
writer of string texts, every such output is a text of the value (`text_write`), so `parse`
reads the value back from it, with any whitespace around it (`parse_layout`). The compact
encoding is the layout with empty gaps (`layout_compact`), and `json.MarshalIndent`'s
spacing is `indentSpacing`.
-/

namespace Kraken.Json

/-- Where whitespace may stand in a container: after its opening bracket, before and after
a comma, before and after a colon, before its closing bracket, and between the brackets of
an empty container. -/
inductive Gap where
  | opening
  | beforeComma
  | afterComma
  | beforeColon
  | afterColon
  | closing
  | empty

/-- The whitespace written in each gap of a container, by the container's depth. -/
abbrev Spacing := Gap → Nat → List UInt8

mutual

/-- The value with its strings written by `str` and the whitespace `sp` chooses in the gaps
of its containers, its own containers at depth `d`. -/
def Value.write (str : String → List UInt8) (sp : Spacing) (d : Nat) : Value → List UInt8
  | .null => Value.null.encode
  | .bool b => (Value.bool b).encode
  | .number lit => (Value.number lit).encode
  | .string s => str s
  | .array [] => 0x5B :: sp .empty d ++ [0x5D]
  | .array (e :: es) =>
      0x5B :: sp .opening d ++ e.write str sp (d + 1) ++ writeElems str sp d es ++
        sp .closing d ++ [0x5D]
  | .object [] => 0x7B :: sp .empty d ++ [0x7D]
  | .object ((k, e) :: ms) =>
      0x7B :: sp .opening d ++ str k ++ sp .beforeColon d ++ 0x3A :: sp .afterColon d ++
        e.write str sp (d + 1) ++ writeMembers str sp d ms ++ sp .closing d ++ [0x7D]

/-- The elements after the first, each after its comma. -/
def writeElems (str : String → List UInt8) (sp : Spacing) (d : Nat) : List Value → List UInt8
  | [] => []
  | e :: es =>
      sp .beforeComma d ++ 0x2C :: sp .afterComma d ++ e.write str sp (d + 1) ++
        writeElems str sp d es

/-- The members after the first, each after its comma. -/
def writeMembers (str : String → List UInt8) (sp : Spacing) (d : Nat) :
    List (String × Value) → List UInt8
  | [] => []
  | (k, e) :: ms =>
      sp .beforeComma d ++ 0x2C :: sp .afterComma d ++ str k ++ sp .beforeColon d ++
        0x3A :: sp .afterColon d ++ e.write str sp (d + 1) ++ writeMembers str sp d ms

end

/-- A member of an object: its key, the colon and its value. -/
def writeMember (str : String → List UInt8) (sp : Spacing) (d : Nat) (k : String) (e : Value) :
    List UInt8 :=
  str k ++ sp .beforeColon d ++ 0x3A :: sp .afterColon d ++ e.write str sp (d + 1)

theorem write_object_cons (str : String → List UInt8) (sp : Spacing) (d : Nat) (k : String)
    (e : Value) (ms : List (String × Value)) : (Value.object ((k, e) :: ms)).write str sp d =
      0x7B :: sp .opening d ++ writeMember str sp d k e ++ writeMembers str sp d ms ++
        sp .closing d ++ [0x7D] := by
  simp only [Value.write, writeMember, List.cons_append, List.append_assoc]

theorem writeMembers_cons (str : String → List UInt8) (sp : Spacing) (d : Nat) (k : String)
    (e : Value) (ms : List (String × Value)) : writeMembers str sp d ((k, e) :: ms) =
      sp .beforeComma d ++ 0x2C :: sp .afterComma d ++ writeMember str sp d k e ++
        writeMembers str sp d ms := by
  simp only [writeMembers, writeMember, List.cons_append, List.append_assoc]

/-- The value laid out with the model's own string writer. -/
def Value.layout (sp : Spacing) (d : Nat) (v : Value) : List UInt8 := v.write encodeString sp d

/-- No whitespace at all. -/
def compactSpacing : Spacing := fun _ _ => []

mutual

/-- With empty gaps the layout is the compact encoding. -/
theorem write_compact : ∀ (v : Value) (d : Nat), v.write encodeString compactSpacing d = v.encode
  | .null, _ | .bool _, _ | .number _, _ | .string _, _ | .array [], _ | .object [], _ => rfl
  | .array (e :: es), d => by
      simp only [Value.write, Value.encode, compactSpacing, List.nil_append, List.append_nil,
        write_compact e, writeElems_compact es, List.cons_append]
  | .object ((k, e) :: ms), d => by
      simp only [Value.write, Value.encode, compactSpacing, List.nil_append, List.append_nil,
        write_compact e, writeMembers_compact ms, List.cons_append, List.append_assoc]

theorem writeElems_compact : ∀ (es : List Value) (d : Nat),
    writeElems encodeString compactSpacing d es = encodeElems es
  | [], _ => rfl
  | e :: es, d => by
      simp only [writeElems, encodeElems, compactSpacing, List.nil_append, write_compact e,
        writeElems_compact es, List.cons_append]

theorem writeMembers_compact : ∀ (ms : List (String × Value)) (d : Nat),
    writeMembers encodeString compactSpacing d ms = encodeMembers ms
  | [], _ => rfl
  | (k, e) :: ms, d => by
      simp only [writeMembers, encodeMembers, compactSpacing, List.nil_append,
        write_compact e, writeMembers_compact ms, List.cons_append, List.append_assoc]

end

theorem layout_compact (v : Value) (d : Nat) : v.layout compactSpacing d = v.encode :=
  write_compact v d

/-- The spacing of `json.MarshalIndent(v, prefix, indent)`: each element of a non-empty
container, and its closing bracket, start a new line with the prefix and one indent per
level; a space follows each colon. -/
def indentSpacing (pre ind : List UInt8) : Spacing
  | .opening, d | .afterComma, d => 0x0A :: pre ++ (List.replicate (d + 1) ind).flatten
  | .closing, d => 0x0A :: pre ++ (List.replicate d ind).flatten
  | .afterColon, _ => [0x20]
  | _, _ => []

theorem blank_indentSpacing {pre ind : List UInt8} (hpre : Blank pre) (hind : Blank ind) :
    ∀ g d, Blank (indentSpacing pre ind g d) := by
  have hrep : ∀ n, Blank (List.replicate n ind).flatten := fun n c hc => by
    obtain ⟨l, hl, hcl⟩ := List.mem_flatten.mp hc
    exact hind c ((List.eq_of_mem_replicate hl) ▸ hcl)
  have hline : ∀ n, Blank (0x0A :: pre ++ (List.replicate n ind).flatten) := fun n c hc => by
    rcases List.mem_cons.mp (List.cons_append _ _ _ ▸ hc) with rfl | hc
    · rfl
    · exact (List.mem_append.mp hc).elim (hpre c) (hrep n c)
  intro g d
  cases g
  all_goals first
    | exact hline _
    | exact blank_nil
    | exact fun c hc => by rw [List.mem_singleton.mp hc]; rfl

/-! ## What is written is a text -/

mutual

/-- Every value written with a writer of string texts and whitespace in its gaps is written
as one of its texts. -/
theorem text_write {str : String → List UInt8} (hstr : ∀ s, StrText s (str s)) {sp : Spacing}
    (hsp : ∀ g d, Blank (sp g d)) : ∀ (v : Value) (d : Nat), Text v (v.write str sp d)
  | .null, _ => .null
  | .bool b, _ => .bool b
  | .number lit, _ => .number lit
  | .string s, _ => .string (hstr s)
  | .array [], d => .emptyArray (hsp .empty d)
  | .array (e :: es), d =>
      .array (hsp .opening d) (text_write hstr hsp e (d + 1)) (elemsText_write hstr hsp es d)
        (hsp .closing d)
  | .object [], d => .emptyObject (hsp .empty d)
  | .object ((k, e) :: ms), d => by
      rw [write_object_cons]
      exact .object (hsp .opening d) (memberText_write hstr hsp k e d)
        (membersText_write hstr hsp ms d) (hsp .closing d)

theorem elemsText_write {str : String → List UInt8} (hstr : ∀ s, StrText s (str s))
    {sp : Spacing} (hsp : ∀ g d, Blank (sp g d)) :
    ∀ (es : List Value) (d : Nat), ElemsText es (writeElems str sp d es)
  | [], _ => .nil
  | e :: es, d =>
      .cons (hsp .beforeComma d) (hsp .afterComma d) (text_write hstr hsp e (d + 1))
        (elemsText_write hstr hsp es d)

theorem memberText_write {str : String → List UInt8} (hstr : ∀ s, StrText s (str s))
    {sp : Spacing} (hsp : ∀ g d, Blank (sp g d)) (k : String) (e : Value) (d : Nat) :
    MemberText k e (writeMember str sp d k e) :=
  .mk (hstr k) (hsp .beforeColon d) (hsp .afterColon d) (text_write hstr hsp e (d + 1))

theorem membersText_write {str : String → List UInt8} (hstr : ∀ s, StrText s (str s))
    {sp : Spacing} (hsp : ∀ g d, Blank (sp g d)) :
    ∀ (ms : List (String × Value)) (d : Nat), MembersText ms (writeMembers str sp d ms)
  | [], _ => .nil
  | (k, e) :: ms, d => by
      rw [writeMembers_cons]
      exact .cons (hsp .beforeComma d) (hsp .afterComma d) (memberText_write hstr hsp k e d)
        (membersText_write hstr hsp ms d)

end

theorem text_layout {sp : Spacing} (hsp : ∀ g d, Blank (sp g d)) (v : Value) (d : Nat) :
    Text v (v.layout sp d) :=
  text_write strText_encodeString hsp v d

/-- `parse` reads every well-formed value within the nesting limit back from each of its
layouts, with any whitespace before and after it. -/
theorem parse_layout {sp : Spacing} (hsp : ∀ g d, Blank (sp g d)) {v : Value}
    (hv : v.WellFormed) (hd : v.depth ≤ maxNestingDepth) {w₁ w₂ : List UInt8}
    (h₁ : Blank w₁) (h₂ : Blank w₂) : parse (w₁ ++ v.layout sp 0 ++ w₂) = .ok v :=
  parse_text (text_layout hsp v 0) hv hd h₁ h₂

/-- `parse` reads every value back from its compact encoding, when the value's numbers are
JSON number literals and it nests at most `maxNestingDepth` containers deep. -/
theorem parse_encode (v : Value) (hv : v.WellFormed) (hd : v.depth ≤ maxNestingDepth) :
    parse v.encode = .ok v := by
  have h : parse ([] ++ v.layout compactSpacing 0 ++ []) = .ok v :=
    parse_layout (fun _ _ => blank_nil) hv hd blank_nil blank_nil
  rwa [List.nil_append, List.append_nil, layout_compact] at h

end Kraken.Json
