import Kraken.Json.Accept

/-!
# Every text the scanner accepts is JSON

`Json.Text` shows that `parse` reads every JSON text of a value back. This module shows the
converse: every byte string `parse` accepts is a JSON text, one value with whitespace around
it (`jsonText_of_parse`), in a grammar over bytes that does not mention the scanner:
`JsonValue k b` says that `b` is a value whose containers nest at most `k` deep. A string of
the grammar holds any bytes the scanner takes between quotes, broken UTF-8 included, which
`parse` reads as `utf8.RuneError`.

The proof reads a run backwards. For each state, `Scanner.Completes` says which bytes may
still follow it for the whole input to be a JSON text: the rest of the token in progress,
then what closes each open container, innermost first, then whitespace. A step maps the
continuations of the state after a byte to those of the state before it (`Good.step`), so a
run maps the continuations of its last state to those of its first (`completes_of_scan`).
Reading a step back needs a little of the state the scanner is in (`Shape`), which every
step keeps.
-/

namespace Kraken.Json

/-! ## JSON texts as bytes -/

/-- The bytes between the quotes of a string literal: any byte but the quote, the backslash
and the control characters; a two-byte escape; or `\u` and four hexadecimal digits. -/
inductive JsonChars : List UInt8 → Prop
  | nil : JsonChars []
  | byte {c : UInt8} {x : List UInt8} : 0x20 ≤ c.toNat → c ≠ 0x22 → c ≠ 0x5C → JsonChars x →
      JsonChars (c :: x)
  | short {e : UInt8} {x : List UInt8} : e ∈ shortEscapes.map Prod.fst → JsonChars x →
      JsonChars (0x5C :: e :: x)
  | unicode {h x : List UInt8} : (hexCode h).isSome → JsonChars x →
      JsonChars (0x5C :: 0x75 :: h ++ x)

mutual

/-- The JSON values whose containers nest at most `k` deep, as bytes, with whitespace
between the tokens of their containers. -/
inductive JsonValue : Nat → List UInt8 → Prop
  | null {k : Nat} : JsonValue k Value.null.encode
  | bool {k : Nat} (b : Bool) : JsonValue k (Value.bool b).encode
  | number {k : Nat} (n : NumberLit) : JsonValue k (n.text.map asciiByte)
  | string {k : Nat} {x : List UInt8} : JsonChars x → JsonValue k (0x22 :: x ++ [0x22])
  | emptyArray {k : Nat} {w : List UInt8} : Blank w → JsonValue (k + 1) (0x5B :: w ++ [0x5D])
  | array {k : Nat} {w₁ x xs w₂ : List UInt8} : Blank w₁ → JsonValue k x → JsonElems k xs →
      Blank w₂ → JsonValue (k + 1) (0x5B :: w₁ ++ x ++ xs ++ w₂ ++ [0x5D])
  | emptyObject {k : Nat} {w : List UInt8} : Blank w → JsonValue (k + 1) (0x7B :: w ++ [0x7D])
  | object {k : Nat} {w₁ x xs w₂ : List UInt8} : Blank w₁ → JsonMember k x →
      JsonMembers k xs → Blank w₂ → JsonValue (k + 1) (0x7B :: w₁ ++ x ++ xs ++ w₂ ++ [0x7D])

/-- The elements of an array after its first: each a comma and a value. -/
inductive JsonElems : Nat → List UInt8 → Prop
  | nil {k : Nat} : JsonElems k []
  | cons {k : Nat} {w₁ w₂ x xs : List UInt8} : Blank w₁ → Blank w₂ → JsonValue k x →
      JsonElems k xs → JsonElems k (w₁ ++ 0x2C :: w₂ ++ x ++ xs)

/-- A member of an object: a key, a colon and a value. -/
inductive JsonMember : Nat → List UInt8 → Prop
  | mk {k : Nat} {kx w₁ w₂ x : List UInt8} : JsonChars kx → Blank w₁ → Blank w₂ →
      JsonValue k x → JsonMember k (0x22 :: kx ++ 0x22 :: w₁ ++ 0x3A :: w₂ ++ x)

/-- The members of an object after its first: each a comma and a member. -/
inductive JsonMembers : Nat → List UInt8 → Prop
  | nil {k : Nat} : JsonMembers k []
  | cons {k : Nat} {w₁ w₂ x xs : List UInt8} : Blank w₁ → Blank w₂ → JsonMember k x →
      JsonMembers k xs → JsonMembers k (w₁ ++ 0x2C :: w₂ ++ x ++ xs)

end

/-- A JSON text: one value nesting at most `maxNestingDepth` deep, with whitespace around
it. -/
def JsonText (b : List UInt8) : Prop :=
  ∃ w₁ x w₂, b = w₁ ++ x ++ w₂ ∧ Blank w₁ ∧ JsonValue maxNestingDepth x ∧ Blank w₂

theorem Blank.cons {c : UInt8} {w : List UInt8} (hw : Blank w) (hc : isSpace c = true) :
    Blank (c :: w) :=
  List.forall_mem_cons.mpr ⟨hc, hw⟩

/-! ## What may follow a state -/

/-- What an open container waits for: more elements, the colon after a key, or more
members. -/
inductive Kind where
  | array
  | colon
  | member

def Frame.kind : Frame → Kind
  | .array _ => .array
  | .object _ (some _) => .colon
  | .object _ none => .member

/-- The kinds of the open containers, innermost first. -/
def kinds (stk : List Frame) : List Kind := stk.map Frame.kind

/-- The kind of a container once the value in it is complete: a key's value completes a
member. -/
def Kind.next : Kind → Kind
  | .colon => .member
  | k => k

/-- The kinds once a value other than a string is complete. -/
def nextKinds : List Kind → List Kind
  | k :: ks => k.next :: ks
  | [] => []

/-- The kinds once a string is complete: in an object waiting for a member it is a key. -/
def keyKinds : List Kind → List Kind
  | .member :: ks => .colon :: ks
  | ks => nextKinds ks

/-- The bytes that close an open container of kind `k` whose values nest at most `d` deep:
the rest of its elements or members, and its bracket. -/
def Closes (d : Nat) : Kind → List UInt8 → Prop
  | .array, a => ∃ xs w, a = xs ++ w ++ [0x5D] ∧ JsonElems d xs ∧ Blank w
  | .member, a => ∃ xs w, a = xs ++ w ++ [0x7D] ∧ JsonMembers d xs ∧ Blank w
  | .colon, a => ∃ w₁ w₂ x xs w, a = w₁ ++ 0x3A :: w₂ ++ x ++ xs ++ w ++ [0x7D] ∧ Blank w₁ ∧
      Blank w₂ ∧ JsonValue d x ∧ JsonMembers d xs ∧ Blank w

/-- How deep the values in a container may nest with the containers `ks` around it. -/
def room (ks : List Kind) : Nat := maxNestingDepth - (ks.length + 1)

/-- What may follow a value in progress while the containers `ks` are open: what closes each
once the value is complete, innermost first, then whitespace. -/
def Below : List Kind → List UInt8 → Prop
  | [], r => Blank r
  | k :: ks, r => ∃ a b, r = a ++ b ∧ Closes (room ks) k.next a ∧ Below ks b

/-- What may follow a complete value while the containers `ks` are open. -/
def After : List Kind → List UInt8 → Prop
  | [], r => Blank r
  | k :: ks, r => ∃ a b, r = a ++ b ∧ Closes (room ks) k a ∧ Below ks b

theorem after_nextKinds (ks : List Kind) (r : List UInt8) :
    After (nextKinds ks) r ↔ Below ks r := by
  cases ks <;> rfl

theorem keyKinds_of_ne {ks : List Kind} (h : ks.head? ≠ some .member) :
    keyKinds ks = nextKinds ks := by
  rcases ks with _ | ⟨_ | _ | _, ks⟩
  · rfl
  · rfl
  · rfl
  · exact absurd rfl h

/-- The rest of an escape after its backslash, then the rest of the string. -/
def EscRest (x : List UInt8) : Prop :=
  (∃ e y, x = e :: y ∧ e ∈ shortEscapes.map Prod.fst ∧ JsonChars y) ∨
    ∃ h y, x = 0x75 :: h ++ y ∧ (hexCode h).isSome ∧ JsonChars y

/-- The rest of `\uXXXX` after `k` of its digits, then the rest of the string. -/
def HexRest (k : Nat) (x : List UInt8) : Prop :=
  ∃ h y, x = h ++ y ∧ h.length + k = 4 ∧ (∀ c ∈ h, (hexVal c).isSome) ∧ JsonChars y

/-- The rest of a string literal before its closing quote, from a state inside it. -/
def StrRest : StrState → List UInt8 → Prop
  | .esc, x | .pendHiEsc _, x => EscRest x
  | .escU k _, x | .pendHiU _ k _, x => HexRest k x
  | _, x => JsonChars x

/-- The rest of a number literal from a state of the number automaton: bytes it takes, up
to a state in which the literal may end. -/
inductive NumRest : NumState → List UInt8 → Prop
  | done {st : NumState} : st.final → NumRest st []
  | more {st st' : NumState} {c : UInt8} {x : List UInt8} : numStep st c = .ok (some st') →
      NumRest st' x → NumRest st (c :: x)

/-- A value after whitespace, then what may follow it. -/
def ValueThen (ks : List Kind) (r : List UInt8) : Prop :=
  ∃ w x r', r = w ++ x ++ r' ∧ Blank w ∧ JsonValue (maxNestingDepth - ks.length) x ∧
    Below ks r'

/-- A key after whitespace, then what may follow it. -/
def KeyThen (ks : List Kind) (r : List UInt8) : Prop :=
  ∃ w x r', r = w ++ 0x22 :: x ++ 0x22 :: r' ∧ Blank w ∧ JsonChars x ∧ After (keyKinds ks) r'

/-- A closing bracket after whitespace, then what may follow the container it closes. -/
def CloseThen (c : UInt8) (ks : List Kind) (r : List UInt8) : Prop :=
  ∃ w r', r = w ++ c :: r' ∧ Blank w ∧ Below ks.tail r'

/-- The bytes that may follow a state in phase `ph` with the containers `ks` open, for the
whole input to be a JSON text. -/
def Lang (ph : Phase) (ks : List Kind) (r : List UInt8) : Prop :=
  match ph with
  | .value => ValueThen ks r
  | .valueOrClose => CloseThen 0x5D ks r ∨ ValueThen ks r
  | .keyOrClose => CloseThen 0x7D ks r ∨ KeyThen ks r
  | .key => KeyThen ks r
  | .afterValue => After ks r
  | .str st _ => ∃ x r', r = x ++ 0x22 :: r' ∧ StrRest st x ∧ After (keyKinds ks) r'
  | .num st _ => ∃ x r', r = x ++ r' ∧ NumRest st x ∧ Below ks r'
  | .word _ rs _ => ∃ r', r = rs.map asciiByte ++ r' ∧ Below ks r'

/-- The bytes that may follow the state `s` for the whole input to be a JSON text. -/
def Scanner.Completes (s : Scanner) (r : List UInt8) : Prop := Lang s.phase (kinds s.stack) r

/-! ## The states a run reaches -/

/-- A string state in the middle of a UTF-8 sequence expects a continuation byte. -/
def StrFits : StrState → Prop
  | .utf8 _ lo _ _ _ => 0x80 ≤ lo
  | _ => True

/-- What a phase says of the containers open around it and of its own state. -/
def PhaseFits : Phase → List Kind → Prop
  | .value, ks => ks.head? ≠ some .member
  | .valueOrClose, ks => ks.head? = some .array
  | .keyOrClose, ks | .key, ks => ks.head? = some .member
  | .str st _, _ => StrFits st
  | .word _ rs v, _ => rs ≠ [] ∧ (∀ r ∈ rs, 0x61 ≤ r.toNat) ∧ (v = .null ∨ ∃ b, v = .bool b)
  | _, _ => True

/-- The shape of every state a run reaches: its phase fits the open containers, and a
top-level value is complete only once nothing is open and nothing is in progress. -/
structure Shape (s : Scanner) : Prop where
  fits : PhaseFits s.phase (kinds s.stack)
  top : s.top.isSome → s.stack = [] ∧ s.phase = .afterValue

theorem shape_init : Shape Scanner.init := ⟨nofun, nofun⟩

theorem Shape.top_eq_none {s : Scanner} (hs : Shape s) (h : s.phase ≠ .afterValue ∨ s.stack ≠ []) :
    s.top = none :=
  Option.not_isSome_iff_eq_none.mp fun ht => by
    obtain ⟨h₁, h₂⟩ := hs.top ht
    exact h.elim (absurd h₂) (absurd h₁)

theorem shape_of_top {s : Scanner} (htop : s.top = none) (hf : PhaseFits s.phase (kinds s.stack)) :
    Shape s :=
  ⟨hf, fun h => by rw [htop] at h; cases h⟩

theorem Shape.setOffset {s : Scanner} (hs : Shape s) (o : Nat) : Shape { s with offset := o } :=
  ⟨hs.fits, hs.top⟩

/-- A completed value leaves a state of the shape. -/
theorem shape_complete {s : Scanner} (htop : s.top = none) (v : Value) : Shape (s.complete v) := by
  obtain ⟨ph, stk, top, o⟩ := s
  subst htop
  refine ⟨trivial, fun h => ?_⟩
  rcases stk with _ | ⟨f, fs⟩
  · exact ⟨rfl, rfl⟩
  · cases h

/-! ## Whitespace -/

theorem Closes.cons_space {d : Nat} {k : Kind} {a : List UInt8} {c : UInt8} (h : Closes d k a)
    (hc : isSpace c = true) : Closes d k (c :: a) := by
  cases k with
  | array =>
      obtain ⟨xs, w, rfl, hxs, hw⟩ := h
      cases hxs with
      | nil => exact ⟨[], c :: w, rfl, .nil, hw.cons hc⟩
      | cons h₁ h₂ hx hxs => exact ⟨_, w, rfl, .cons (h₁.cons hc) h₂ hx hxs, hw⟩
  | member =>
      obtain ⟨xs, w, rfl, hxs, hw⟩ := h
      cases hxs with
      | nil => exact ⟨[], c :: w, rfl, .nil, hw.cons hc⟩
      | cons h₁ h₂ hx hxs => exact ⟨_, w, rfl, .cons (h₁.cons hc) h₂ hx hxs, hw⟩
  | colon =>
      obtain ⟨w₁, w₂, x, xs, w, rfl, h₁, h₂, hx, hxs, hw⟩ := h
      exact ⟨c :: w₁, w₂, x, xs, w, rfl, h₁.cons hc, h₂, hx, hxs, hw⟩

theorem Below.cons_space {ks : List Kind} {r : List UInt8} {c : UInt8} (h : Below ks r)
    (hc : isSpace c = true) : Below ks (c :: r) := by
  cases ks with
  | nil => exact Blank.cons h hc
  | cons k ks =>
      obtain ⟨a, b, rfl, ha, hb⟩ := h
      exact ⟨c :: a, b, rfl, ha.cons_space hc, hb⟩

theorem After.cons_space {ks : List Kind} {r : List UInt8} {c : UInt8} (h : After ks r)
    (hc : isSpace c = true) : After ks (c :: r) := by
  cases ks with
  | nil => exact Blank.cons h hc
  | cons k ks =>
      obtain ⟨a, b, rfl, ha, hb⟩ := h
      exact ⟨c :: a, b, rfl, ha.cons_space hc, hb⟩

/-- Whitespace may precede whatever may follow a phase that skips it. -/
theorem Lang.cons_space {ph : Phase} {ks : List Kind} {r : List UInt8} {c : UInt8}
    (hph : Scanner.SkipsBlank ph) (h : Lang ph ks r) (hc : isSpace c = true) :
    Lang ph ks (c :: r) := by
  have hv : ValueThen ks r → ValueThen ks (c :: r) := fun ⟨w, x, r', he, hw, hx, hr⟩ =>
    ⟨c :: w, x, r', by rw [he]; rfl, hw.cons hc, hx, hr⟩
  have hk : KeyThen ks r → KeyThen ks (c :: r) := fun ⟨w, x, r', he, hw, hx, hr⟩ =>
    ⟨c :: w, x, r', by rw [he]; rfl, hw.cons hc, hx, hr⟩
  have hcl : ∀ {b}, CloseThen b ks r → CloseThen b ks (c :: r) := fun ⟨w, r', he, hw, hr⟩ =>
    ⟨c :: w, r', by rw [he]; rfl, hw.cons hc, hr⟩
  cases ph with
  | value => exact hv h
  | valueOrClose => exact h.imp hcl hv
  | keyOrClose => exact h.imp hcl hk
  | key => exact hk h
  | afterValue => exact After.cons_space h hc
  | _ => exact hph.elim

/-! ## Strings -/

theorem jsonChars_of_escRest {x : List UInt8} (h : EscRest x) : JsonChars (0x5C :: x) := by
  rcases h with ⟨e, y, rfl, he, hy⟩ | ⟨h, y, rfl, hh, hy⟩
  exacts [.short he hy, .unicode hh hy]

/-- Every byte from `0x80` on is taken as it is: the bytes of a UTF-8 sequence, broken or
not. -/
theorem JsonChars.cons_high {c : UInt8} {x : List UInt8} (h : JsonChars x) (hc : 0x80 ≤ c.toNat) :
    JsonChars (c :: x) :=
  .byte (by omega) (fun he => by rw [he] at hc; exact absurd hc (by decide))
    (fun he => by rw [he] at hc; exact absurd hc (by decide)) h

theorem hexCode_isSome {h : List UInt8} (hlen : h.length = 4) (hx : ∀ c ∈ h, (hexVal c).isSome) :
    (hexCode h).isSome := by
  match h, hlen with
  | [a, b, c, d], _ =>
      simp only [List.mem_cons, List.mem_singleton, List.not_mem_nil, or_false,
        forall_eq_or_imp, forall_eq, Option.isSome_iff_exists] at hx
      obtain ⟨⟨va, ha⟩, ⟨vb, hb⟩, ⟨vc, hc⟩, ⟨vd, hd⟩⟩ := hx
      simp only [hexCode, ha, hb, hc, hd, Option.bind_eq_bind, Option.some_bind]
      rfl

theorem escRest_u {x : List UInt8} (h : HexRest 0 x) : EscRest (0x75 :: x) := by
  obtain ⟨h, y, rfl, hlen, hx, hy⟩ := h
  exact .inr ⟨h, y, rfl, hexCode_isSome hlen hx, hy⟩

theorem HexRest.cons {k : Nat} {c : UInt8} {x : List UInt8} (h : HexRest (k + 1) x)
    (hc : (hexVal c).isSome) : HexRest k (c :: x) := by
  obtain ⟨h, y, rfl, hlen, hx, hy⟩ := h
  exact ⟨c :: h, y, rfl, by simp only [List.length_cons]; omega, List.forall_mem_cons.mpr ⟨hc, hx⟩,
    hy⟩

theorem hexRest_last {c : UInt8} {x : List UInt8} (hc : (hexVal c).isSome) (hx : JsonChars x) :
    HexRest 3 (c :: x) :=
  ⟨[c], x, rfl, rfl, List.forall_mem_singleton.mpr hc, hx⟩

theorem leadInfo_lo {c : UInt8} {need lo hi val : Nat} (h : leadInfo c = some (need, lo, hi, val)) :
    0x80 ≤ lo := by
  let Q : Option (Nat × Nat × Nat × Nat) → Prop := fun o => ∀ t ∈ o, 0x80 ≤ t.2.1
  have hite : ∀ {p : Prop} [Decidable p] {a b}, Q a → Q b → Q (if p then a else b) := by
    intro p _ a b ha hb
    split
    exacts [ha, hb]
  have hs : ∀ {x : Nat × Nat × Nat × Nat}, 0x80 ≤ x.2.1 → Q (some x) := by
    rintro x hx t ⟨⟩
    exact hx
  have hq : Q (leadInfo c) := by
    dsimp only [leadInfo]
    have hA0 : 0x80 ≤ 0xA0 := by decide
    have h90 : 0x80 ≤ 0x90 := by decide
    exact hite (hs le_rfl) <| hite (hs hA0) <| hite (hs le_rfl) <| hite (hs le_rfl) <|
      hite (hs le_rfl) <| hite (hs h90) <| hite (hs le_rfl) <| hite (hs le_rfl) nofun
  exact hq _ h

/-- A byte outside an escape that keeps the string open. -/
theorem plainStep_more {acc acc' : List Char} {c : UInt8} {st' : StrState}
    (h : plainStep acc c = .more st' acc') :
    StrFits st' ∧ ∀ x, StrRest st' x → JsonChars (c :: x) := by
  unfold plainStep at h
  by_cases hq : c = 0x22
  · rw [if_pos hq] at h
    cases h
  rw [if_neg hq] at h
  by_cases hb : c = 0x5C
  · rw [if_pos hb] at h
    cases h
    subst hb
    exact ⟨trivial, fun x hx => jsonChars_of_escRest hx⟩
  rw [if_neg hb] at h
  by_cases hl : c < 0x20
  · rw [if_pos hl] at h
    cases h
  rw [if_neg hl] at h
  have hc : 0x20 ≤ c.toNat := by
    simp only [byte_lt_iff, toNat_byteLit, Nat.reduceMod] at hl
    omega
  have hbyte : ∀ x, JsonChars x → JsonChars (c :: x) := fun x hx => .byte hc hq hb hx
  split_ifs at h
  · cases h
    exact ⟨trivial, hbyte⟩
  · split at h
    · cases h
      exact ⟨leadInfo_lo ‹_›, hbyte⟩
    · cases h
      exact ⟨trivial, hbyte⟩

/-- A byte after a backslash is one of the short escapes, or `u`. -/
theorem escStep_more {acc acc' : List Char} {c : UInt8} {st' : StrState}
    (h : escStep acc c = .more st' acc') :
    StrFits st' ∧ ∀ x, StrRest st' x → EscRest (c :: x) := by
  let Q : StrOut → Prop := fun o => ∀ st' acc', o = .more st' acc' →
    StrFits st' ∧ ∀ x, StrRest st' x → EscRest (c :: x)
  have hite : ∀ {p : Prop} [Decidable p] {a b}, (p → Q a) → (¬p → Q b) →
      Q (if p then a else b) := by
    intro p _ a b ha hb
    split
    exacts [ha ‹_›, hb ‹_›]
  have hshort : ∀ {ch : Char}, c ∈ shortEscapes.map Prod.fst → Q (.more .plain (ch :: acc)) := by
    rintro ch hm _ _ ⟨⟩
    exact ⟨trivial, fun x hx => .inl ⟨c, x, rfl, hm, hx⟩⟩
  have hq : Q (escStep acc c) := by
    unfold escStep
    refine hite (fun h => hshort (by rcases h with rfl | rfl | rfl <;> decide)) fun _ =>
      hite (fun h => hshort (by rw [h]; decide)) fun _ =>
      hite (fun h => hshort (by rw [h]; decide)) fun _ =>
      hite (fun h => hshort (by rw [h]; decide)) fun _ =>
      hite (fun h => hshort (by rw [h]; decide)) fun _ =>
      hite (fun h => hshort (by rw [h]; decide)) fun _ =>
      hite (fun h => ?_) fun _ => nofun
    rintro _ _ ⟨⟩
    exact ⟨trivial, fun x hx => h ▸ escRest_u hx⟩
  exact hq _ _ h

theorem runeStep_more {r : Nat} {acc acc' : List Char} {st' : StrState}
    (h : runeStep r acc = .more st' acc') : StrFits st' ∧ ∀ x, StrRest st' x → JsonChars x := by
  unfold runeStep at h
  split_ifs at h <;> cases h <;> exact ⟨trivial, fun _ hx => hx⟩

/-- One byte inside a string literal that keeps it open: the state after it still has the
shape, and the byte followed by the rest of the literal from there is a rest of the literal
from the state before it. -/
theorem strStep_more {st st' : StrState} {acc acc' : List Char} {c : UInt8} (hf : StrFits st)
    (h : strStep st acc c = .more st' acc') :
    StrFits st' ∧ ∀ x, StrRest st' x → StrRest st (c :: x) := by
  cases st with
  | plain => exact plainStep_more h
  | esc => exact escStep_more h
  | escU k val =>
      simp only [strStep] at h
      split at h
      · cases h
      · rename_i d hd
        have hc : (hexVal c).isSome := by rw [hd]; rfl
        split_ifs at h with hk
        · subst hk
          exact ⟨(runeStep_more h).1, fun x hx => hexRest_last hc ((runeStep_more h).2 x hx)⟩
        · cases h
          exact ⟨trivial, fun x hx => hx.cons hc⟩
  | utf8 need lo hi val seen =>
      simp only [strStep] at h
      split_ifs at h with hr hn
      · cases h
        exact ⟨trivial, fun x hx => hx.cons_high (le_trans hf hr.1)⟩
      · cases h
        exact ⟨le_rfl, fun x hx => hx.cons_high (le_trans hf hr.1)⟩
      · exact plainStep_more h
  | pendHi hi =>
      simp only [strStep] at h
      split_ifs at h with hb
      · cases h
        subst hb
        exact ⟨trivial, fun x hx => jsonChars_of_escRest hx⟩
      · exact plainStep_more h
  | pendHiEsc hi =>
      simp only [strStep] at h
      split_ifs at h with hu
      · cases h
        subst hu
        exact ⟨trivial, fun x hx => escRest_u hx⟩
      · exact escStep_more h
  | pendHiU hi k val =>
      simp only [strStep] at h
      split at h
      · cases h
      · rename_i d hd
        have hc : (hexVal c).isSome := by rw [hd]; rfl
        split_ifs at h with hk hlow
        · cases h
          subst hk
          exact ⟨trivial, fun x hx => hexRest_last hc hx⟩
        · subst hk
          exact ⟨(runeStep_more h).1, fun x hx => hexRest_last hc ((runeStep_more h).2 x hx)⟩
        · cases h
          exact ⟨trivial, fun x hx => hx.cons hc⟩

theorem plainStep_done {acc acc' : List Char} {c : UInt8} (h : plainStep acc c = .done acc') :
    c = 0x22 := by
  unfold plainStep at h
  split_ifs at h with hq
  · exact hq
  all_goals first | cases h | (split at h <;> cases h)

theorem escStep_ne_done {acc acc' : List Char} {c : UInt8} : escStep acc c ≠ .done acc' := by
  have hite : ∀ {p : Prop} [Decidable p] {a b : StrOut}, a ≠ .done acc' → b ≠ .done acc' →
      (if p then a else b) ≠ .done acc' := by
    intro p _ a b ha hb
    split
    exacts [ha, hb]
  unfold escStep
  exact hite nofun <| hite nofun <| hite nofun <| hite nofun <| hite nofun <| hite nofun <|
    hite nofun nofun

theorem runeStep_ne_done {r : Nat} {acc acc' : List Char} : runeStep r acc ≠ .done acc' := by
  unfold runeStep
  split_ifs <;> nofun

/-- A string closes only at a quote, and only in a state where the literal may end. -/
theorem strStep_done {st : StrState} {acc acc' : List Char} {c : UInt8}
    (h : strStep st acc c = .done acc') : c = 0x22 ∧ StrRest st [] := by
  cases st with
  | plain => exact ⟨plainStep_done h, .nil⟩
  | esc => exact absurd h escStep_ne_done
  | escU k val | pendHiU hi k val =>
      simp only [strStep] at h
      split at h
      · cases h
      · split_ifs at h
        exact absurd h runeStep_ne_done
  | utf8 need lo hi val seen | pendHi hi =>
      simp only [strStep] at h
      split_ifs at h
      exact ⟨plainStep_done h, .nil⟩
  | pendHiEsc hi =>
      simp only [strStep] at h
      split_ifs at h
      exact absurd h escStep_ne_done

/-! ## Numbers and keywords -/

theorem asciiByte_charOfByte (c : UInt8) : asciiByte (Char.ofNat c.toNat) = c := by
  have hc : c.toNat < 256 := c.val.isLt
  rw [byte_eq_iff, toNat_asciiByte (by rw [toNat_charOfNat (by omega)]; exact hc),
    toNat_charOfNat (by omega)]

theorem final_of_numStep_none {st : NumState} {c : UInt8} (h : numStep st c = .ok none) :
    st.final := by
  cases st <;> simp only [numStep] at h <;> split_ifs at h <;> cases h <;> rfl

/-- The bytes of a number literal's rest complete the literal read so far. -/
theorem NumRest.exists_numberLit {st : NumState} {x : List UInt8} (h : NumRest st x) :
    ∀ {lit : List Char}, NumInv st lit →
      ∃ n : NumberLit, n.text = lit ++ x.map (fun c => Char.ofNat c.toNat) := by
  induction h with
  | done hf =>
      intro lit hi
      obtain ⟨n, hn⟩ :=
        exists_numberLit_of_end (Scanner.numStep_of_isDelim hf Scanner.isDelim_space) hi
      exact ⟨n, by rw [← hn, List.map_nil, List.append_nil]⟩
  | more hs _ ih =>
      intro lit hi
      obtain ⟨n, hn⟩ := ih (numInv_step hs hi)
      exact ⟨n, by rw [hn, List.map_cons, List.append_assoc]; rfl⟩

/-- A number literal: its first byte, then a rest of the literal from the state it starts. -/
theorem jsonValue_number {k : Nat} {st : NumState} {ch : Char} {c : UInt8} {x : List UInt8}
    (hi : NumInv st [ch]) (hc : asciiByte ch = c) (hx : NumRest st x) : JsonValue k (c :: x) := by
  obtain ⟨n, hn⟩ := hx.exists_numberLit hi
  have hb : n.text.map asciiByte = c :: x := by
    rw [hn, List.map_append, List.map_map]
    simp only [List.map_cons, List.map_nil, hc, List.singleton_append, Function.comp_def,
      asciiByte_charOfByte, List.map_id']
  exact hb ▸ .number n

/-! ## Containers -/

theorem kinds_complete_string (s : Scanner) (t : String) :
    kinds (s.complete (.string t)).stack = keyKinds (kinds s.stack) := by
  obtain ⟨ph, stk, top, o⟩ := s
  rcases stk with _ | ⟨_ | ⟨ms, _ | k⟩, fs⟩ <;> rfl

theorem kinds_complete (s : Scanner) {v : Value} (hv : ∀ t, v ≠ .string t) :
    kinds (s.complete v).stack = nextKinds (kinds s.stack) := by
  obtain ⟨ph, stk, top, o⟩ := s
  rcases stk with _ | ⟨_ | ⟨ms, _ | k⟩, fs⟩
  · rfl
  · rfl
  · cases v <;> first | rfl | exact absurd rfl (hv _)
  · rfl

/-- After a completed value other than a string, what may follow is what may follow the value
while it was in progress. -/
theorem completes_complete {s : Scanner} {v : Value} (hv : ∀ t, v ≠ .string t)
    {r : List UInt8} : (s.complete v).Completes r ↔ Below (kinds s.stack) r := by
  show After _ r ↔ _
  rw [kinds_complete s hv, after_nextKinds]

theorem completes_complete_string {s : Scanner} {t : String} {r : List UInt8} :
    (s.complete (.string t)).Completes r ↔ After (keyKinds (kinds s.stack)) r := by
  show After _ r ↔ _
  rw [kinds_complete_string]

theorem stack_eq_nil_of_complete {s : Scanner} {v : Value} (h : (s.complete v).stack = []) :
    s.stack = [] := by
  obtain ⟨ph, stk, top, o⟩ := s
  rcases stk with _ | ⟨_ | ⟨ms, _ | k⟩, fs⟩
  · rfl
  · cases h
  · cases v <;> cases h
  · cases h

theorem exists_array_of_kinds {stk : List Frame} (h : (kinds stk).head? = some .array) :
    ∃ es fs, stk = .array es :: fs := by
  rcases stk with _ | ⟨_ | ⟨ms, _ | k⟩, fs⟩
  · cases h
  · exact ⟨_, _, rfl⟩
  · cases h
  · cases h

theorem exists_member_of_kinds {stk : List Frame} (h : (kinds stk).head? = some .member) :
    ∃ ms fs, stk = .object ms none :: fs := by
  rcases stk with _ | ⟨_ | ⟨ms, _ | k⟩, fs⟩
  · cases h
  · cases h
  · exact ⟨_, _, rfl⟩
  · cases h

theorem depth_eq_room_succ {ks : List Kind} (h : ks.length < maxNestingDepth) :
    maxNestingDepth - ks.length = room ks + 1 := by
  unfold room
  omega

/-- An array opened below the containers `ks`: whitespace and its bracket, or its first value
and the rest of its elements. -/
theorem valueThen_array {ks : List Kind} {r : List UInt8} (hlen : ks.length < maxNestingDepth)
    (h : Lang .valueOrClose (.array :: ks) r) : ValueThen ks (0x5B :: r) := by
  rcases h with ⟨w, r', rfl, hw, hr'⟩ |
    ⟨w, x, r', rfl, hw, hx, a, b, rfl, ⟨xs, w', rfl, hxs, hw'⟩, hb⟩
  · refine ⟨[], 0x5B :: w ++ [0x5D], r', by simp, blank_nil, ?_, hr'⟩
    rw [depth_eq_room_succ hlen]
    exact .emptyArray hw
  · refine ⟨[], 0x5B :: w ++ x ++ xs ++ w' ++ [0x5D], b, by simp, blank_nil, ?_, hb⟩
    rw [depth_eq_room_succ hlen]
    exact .array hw hx hxs hw'

/-- An object opened below the containers `ks`: whitespace and its brace, or its first member
and the rest of its members. -/
theorem valueThen_object {ks : List Kind} {r : List UInt8} (hlen : ks.length < maxNestingDepth)
    (h : Lang .keyOrClose (.member :: ks) r) : ValueThen ks (0x7B :: r) := by
  rcases h with ⟨w, r', rfl, hw, hr'⟩ |
    ⟨w, kx, r', rfl, hw, hkx, a, b, rfl, ⟨w₁, w₂, x, xs, w', rfl, h₁, h₂, hx, hxs, hw'⟩, hb⟩
  · refine ⟨[], 0x7B :: w ++ [0x7D], r', by simp, blank_nil, ?_, hr'⟩
    rw [depth_eq_room_succ hlen]
    exact .emptyObject hw
  · refine ⟨[], 0x7B :: w ++ (0x22 :: kx ++ 0x22 :: w₁ ++ 0x3A :: w₂ ++ x) ++ xs ++ w' ++ [0x7D],
      b, by simp, blank_nil, ?_, hb⟩
    rw [depth_eq_room_succ hlen]
    exact .object hw (.mk hkx h₁ h₂ hx) hxs hw'

/-- A string in a value's place: outside an object waiting for a member it is not a key. -/
theorem valueThen_string {ks : List Kind} {r : List UInt8} (hks : ks.head? ≠ some .member)
    (h : Lang (.str .plain []) ks r) : ValueThen ks (0x22 :: r) := by
  obtain ⟨x, r', rfl, hx, hr'⟩ := h
  rw [keyKinds_of_ne hks, after_nextKinds] at hr'
  exact ⟨[], 0x22 :: x ++ [0x22], r', by simp, blank_nil, .string hx, hr'⟩

theorem valueThen_word {ks : List Kind} {r : List UInt8} {name : String} {rs : List Char}
    {v : Value} {c : UInt8} (hv : JsonValue (maxNestingDepth - ks.length) (c :: rs.map asciiByte))
    (h : Lang (.word name rs v) ks r) : ValueThen ks (c :: r) := by
  obtain ⟨r', rfl, hr'⟩ := h
  exact ⟨[], c :: rs.map asciiByte, r', rfl, blank_nil, hv, hr'⟩

theorem valueThen_number {ks : List Kind} {r : List UInt8} {st : NumState} {lit : List Char}
    {ch : Char} {c : UInt8} (hi : NumInv st [ch]) (hc : asciiByte ch = c)
    (h : Lang (.num st lit) ks r) : ValueThen ks (c :: r) := by
  obtain ⟨x, r', rfl, hx, hr'⟩ := h
  exact ⟨[], c :: x, r', rfl, blank_nil, jsonValue_number hi hc hx, hr'⟩

theorem keyThen_quote {ks : List Kind} {r : List UInt8} (h : Lang (.str .plain []) ks r) :
    KeyThen ks (0x22 :: r) := by
  obtain ⟨x, r', rfl, hx, hr'⟩ := h
  exact ⟨[], x, r', rfl, blank_nil, hx, hr'⟩

theorem after_colon {ks : List Kind} {r : List UInt8} (h : ValueThen (.colon :: ks) r) :
    After (.colon :: ks) (0x3A :: r) := by
  obtain ⟨w, x, r', rfl, hw, hx, a, b, rfl, ⟨xs, w', rfl, hxs, hw'⟩, hb⟩ := h
  exact ⟨0x3A :: w ++ x ++ xs ++ w' ++ [0x7D], b, by simp,
    ⟨[], w, x, xs, w', by simp, blank_nil, hw, hx, hxs, hw'⟩, hb⟩

theorem after_comma_member {ks : List Kind} {r : List UInt8} (h : KeyThen (.member :: ks) r) :
    After (.member :: ks) (0x2C :: r) := by
  obtain ⟨w, kx, r', rfl, hw, hkx, a, b, rfl, ⟨w₁, w₂, x, xs, w', rfl, h₁, h₂, hx, hxs, hw'⟩, hb⟩ :=
    h
  exact ⟨0x2C :: w ++ (0x22 :: kx ++ 0x22 :: w₁ ++ 0x3A :: w₂ ++ x) ++ xs ++ w' ++ [0x7D], b,
    by simp, ⟨_, w', by simp, .cons blank_nil hw (.mk hkx h₁ h₂ hx) hxs, hw'⟩, hb⟩

theorem after_comma_array {ks : List Kind} {r : List UInt8} (h : ValueThen (.array :: ks) r) :
    After (.array :: ks) (0x2C :: r) := by
  obtain ⟨w, x, r', rfl, hw, hx, a, b, rfl, ⟨xs, w', rfl, hxs, hw'⟩, hb⟩ := h
  exact ⟨0x2C :: w ++ x ++ xs ++ w' ++ [0x5D], b, by simp,
    ⟨_, w', by simp, .cons blank_nil hw hx hxs, hw'⟩, hb⟩

theorem after_close_array {ks : List Kind} {r : List UInt8} (h : Below ks r) :
    After (.array :: ks) (0x5D :: r) :=
  ⟨[0x5D], r, rfl, ⟨[], [], rfl, .nil, blank_nil⟩, h⟩

theorem after_close_member {ks : List Kind} {r : List UInt8} (h : Below ks r) :
    After (.member :: ks) (0x7D :: r) :=
  ⟨[0x7D], r, rfl, ⟨[], [], rfl, .nil, blank_nil⟩, h⟩

/-! ## One step read back -/

namespace Scanner

/-- A transition from `s` on the byte `c` is read back: the state it returns has the shape,
and whatever may follow that state, after `c`, may follow `s`. -/
def Good (s : Scanner) (c : UInt8) : Except SyntaxError Scanner → Prop
  | .ok s' => Shape s' ∧ ∀ r, s'.Completes r → s.Completes (c :: r)
  | .error _ => True

theorem Good.ite {s : Scanner} {c : UInt8} {p : Prop} [Decidable p]
    {a b : Except SyntaxError Scanner} (ha : p → Good s c a) (hb : ¬p → Good s c b) :
    Good s c (if p then a else b) := by
  split
  · exact ha ‹_›
  · exact hb ‹_›

theorem Good.mono {s t : Scanner} {c : UInt8} {e : Except SyntaxError Scanner} (h : Good t c e)
    (ht : ∀ r, t.Completes (c :: r) → s.Completes (c :: r)) : Good s c e := by
  cases e with
  | ok s' => exact ⟨h.1, fun r hr => ht r (h.2 r hr)⟩
  | error _ => trivial

variable {s : Scanner}

theorem Good.elim_ok {c : UInt8} {e : Except SyntaxError Scanner} {s' : Scanner} (hg : Good s c e)
    (h : e = .ok s') : Shape s' ∧ ∀ r, s'.Completes r → s.Completes (c :: r) := by
  subst h
  exact hg

theorem endValue_space {c : UInt8} (hc : isSpace c = true) : s.endValue c = .ok s := by
  unfold Scanner.endValue
  split <;> rw [if_pos hc]

theorem Good.push {c : UInt8} {f : Frame} {ph : Phase}
    (h : s.stack.length < maxNestingDepth →
      Good s c (.ok { s with stack := f :: s.stack, phase := ph })) :
    Good s c (s.push c f ph) :=
  Good.ite (fun _ => trivial) fun hlen => h (by omega)

/-- `stateBeginValue`, read back from a phase that waits for a value. -/
theorem Good.beginValue (hs : Shape s) (hph : s.phase = .value ∨ s.phase = .valueOrClose)
    (c : UInt8) : Good s c (s.beginValue c) := by
  have htop : s.top = none := hs.top_eq_none (.inl (by rcases hph with h | h <;> rw [h] <;> nofun))
  have hks : (kinds s.stack).head? ≠ some .member := by
    have hf := hs.fits
    rcases hph with h | h <;> rw [h] at hf
    · exact hf
    · rw [hf]
      nofun
  have hv : ∀ {r}, ValueThen (kinds s.stack) r → s.Completes r := by
    rcases hph with h | h <;> intro r hr <;> unfold Completes <;> rw [h]
    exacts [hr, .inr hr]
  have hsp : SkipsBlank s.phase := by rcases hph with h | h <;> rw [h] <;> trivial
  have hword : ∀ {name rs v}, PhaseFits (.word name rs v) [] →
      JsonValue (maxNestingDepth - (kinds s.stack).length) (c :: rs.map asciiByte) →
      Good s c (.ok { s with phase := .word name rs v }) := fun hf hx =>
    ⟨shape_of_top htop hf, fun _ hr => hv (valueThen_word hx hr)⟩
  have hnum : ∀ {st ch}, NumInv st [ch] → asciiByte ch = c →
      Good s c (.ok { s with phase := .num st [ch] }) := fun hi hch =>
    ⟨shape_of_top htop trivial, fun _ hr => hv (valueThen_number hi hch hr)⟩
  unfold Scanner.beginValue
  refine Good.ite (fun hc => ⟨hs, fun _ hr => hr.cons_space hsp hc⟩) fun _ =>
    Good.ite (fun hc => Good.push fun hlen => ⟨shape_of_top htop rfl, fun _ hr => ?obj⟩) fun _ =>
    Good.ite (fun hc => Good.push fun hlen => ⟨shape_of_top htop rfl, fun _ hr => ?arr⟩) fun _ =>
    Good.ite (fun hc => ⟨shape_of_top htop trivial, fun _ hr => ?str⟩) fun _ =>
    Good.ite (fun hc => hnum rfl (by rw [hc]; rfl)) fun _ =>
    Good.ite (fun hc => hnum numInv_zero_start (by rw [hc]; rfl)) fun h0 =>
    Good.ite (fun hd => hnum (numInv_int_start hd h0) (asciiByte_charOfByte c)) fun _ =>
    Good.ite (fun hc => hword ⟨nofun, by decide, .inr ⟨true, rfl⟩⟩ (hc ▸ .bool true)) fun _ =>
    Good.ite (fun hc => hword ⟨nofun, by decide, .inr ⟨false, rfl⟩⟩ (hc ▸ .bool false)) fun _ =>
    Good.ite (fun hc => hword ⟨nofun, by decide, .inl rfl⟩ (hc ▸ .null)) fun _ => trivial
  case obj => exact hv (hc ▸ valueThen_object (by rwa [kinds, List.length_map]) hr)
  case arr => exact hv (hc ▸ valueThen_array (by rwa [kinds, List.length_map]) hr)
  case str => exact hv (hc ▸ valueThen_string hks hr)

/-- `stateBeginString`, read back from a phase that waits for a key. -/
theorem Good.beginKey (hs : Shape s) (hph : s.phase = .key ∨ s.phase = .keyOrClose) (c : UInt8) :
    Good s c (s.beginKey c) := by
  have htop : s.top = none := hs.top_eq_none (.inl (by rcases hph with h | h <;> rw [h] <;> nofun))
  have hk : ∀ {r}, KeyThen (kinds s.stack) r → s.Completes r := by
    rcases hph with h | h <;> intro r hr <;> unfold Completes <;> rw [h]
    exacts [hr, .inr hr]
  have hsp : SkipsBlank s.phase := by rcases hph with h | h <;> rw [h] <;> trivial
  exact Good.ite (fun hc => ⟨hs, fun _ hr => hr.cons_space hsp hc⟩) fun _ =>
    Good.ite (fun hc => ⟨shape_of_top htop trivial, fun _ hr => hk (hc ▸ keyThen_quote hr)⟩)
      fun _ => trivial

/-- `stateEndValue`, read back from a state after a complete value. -/
theorem Good.endValue (hs : Shape s) (hph : s.phase = .afterValue) (c : UInt8) :
    Good s c (s.endValue c) := by
  obtain ⟨ph, stk, top, o⟩ := s
  obtain rfl : ph = .afterValue := hph
  have hsp : isSpace c = true →
      Good ⟨.afterValue, stk, top, o⟩ c (.ok ⟨.afterValue, stk, top, o⟩) := fun hc =>
    ⟨hs, fun _ hr => After.cons_space hr hc⟩
  rcases stk with _ | ⟨f, fs⟩
  · exact Good.ite hsp fun _ => trivial
  have htop : top = none := hs.top_eq_none (.inr nofun)
  refine Good.ite hsp fun _ => ?_
  rcases f with es | ⟨ms, _ | key⟩
  · exact Good.ite (fun hc => ⟨shape_of_top htop nofun, fun _ hr => hc ▸ after_comma_array hr⟩)
      fun _ => Good.ite (fun hc => ⟨shape_complete htop _, fun _ hr =>
        hc ▸ after_close_array ((completes_complete (by nofun)).mp hr)⟩) fun _ => trivial
  · exact Good.ite (fun hc => ⟨shape_of_top htop rfl, fun _ hr => hc ▸ after_comma_member hr⟩)
      fun _ => Good.ite (fun hc => ⟨shape_complete htop _, fun _ hr =>
        hc ▸ after_close_member ((completes_complete (by nofun)).mp hr)⟩) fun _ => trivial
  · exact Good.ite (fun hc => ⟨shape_of_top htop nofun, fun _ hr => hc ▸ after_colon hr⟩)
      fun _ => trivial

/-- One step of the scanner, read back. -/
theorem Good.step (hs : Shape s) (c : UInt8) : Good s c (s.step c) := by
  obtain ⟨ph, stk, top, o⟩ := s
  cases ph with
  | value => exact Good.beginValue hs (.inl rfl) c
  | valueOrClose =>
      refine Good.ite (fun hc => ?_) fun _ => Good.beginValue hs (.inr rfl) c
      subst hc
      have htop : top = none := hs.top_eq_none (.inl nofun)
      obtain ⟨es, fs, rfl⟩ := exists_array_of_kinds hs.fits
      exact ⟨shape_complete htop _, fun r hr =>
        .inl ⟨[], r, rfl, blank_nil, (completes_complete (by nofun)).mp hr⟩⟩
  | keyOrClose =>
      refine Good.ite (fun hc => ?_) fun _ => Good.beginKey hs (.inr rfl) c
      subst hc
      have htop : top = none := hs.top_eq_none (.inl nofun)
      obtain ⟨ms, fs, rfl⟩ := exists_member_of_kinds hs.fits
      exact ⟨shape_complete htop _, fun r hr =>
        .inl ⟨[], r, rfl, blank_nil, (completes_complete (by nofun)).mp hr⟩⟩
  | key => exact Good.beginKey hs (.inl rfl) c
  | afterValue => exact Good.endValue hs rfl c
  | str st acc =>
      have htop : top = none := hs.top_eq_none (.inl nofun)
      simp only [Scanner.step]
      split
      · rename_i st' acc' h
        obtain ⟨hf', hback⟩ := strStep_more hs.fits h
        exact ⟨shape_of_top htop hf', fun _ ⟨x, r', hr, hx, ha⟩ =>
          ⟨c :: x, r', by rw [hr]; rfl, hback x hx, ha⟩⟩
      · rename_i acc' h
        obtain ⟨rfl, hx⟩ := strStep_done h
        exact ⟨shape_complete htop _, fun r hr =>
          ⟨[], r, rfl, hx, completes_complete_string.mp hr⟩⟩
      · trivial
  | num st lit =>
      have htop : top = none := hs.top_eq_none (.inl nofun)
      simp only [Scanner.step]
      split
      · rename_i st' h
        exact ⟨shape_of_top htop trivial, fun _ ⟨x, r', hr, hx, hb⟩ =>
          ⟨c :: x, r', by rw [hr]; rfl, .more h hx, hb⟩⟩
      · rename_i h
        exact (Good.endValue (shape_complete htop _) rfl c).mono fun r hr =>
          ⟨[], c :: r, rfl, .done (final_of_numStep_none h), (completes_complete (by nofun)).mp hr⟩
      · trivial
  | word name rest v =>
      obtain ⟨hne, hlow, hv⟩ := hs.fits
      have htop : top = none := hs.top_eq_none (.inl nofun)
      have hvs : ∀ t, v ≠ .string t := by rcases hv with rfl | ⟨b, rfl⟩ <;> nofun
      rcases rest with _ | ⟨r₀, rs⟩
      · exact absurd rfl hne
      simp only [Scanner.step]
      refine Good.ite (fun hc => ?_) fun _ => trivial
      have hbyte : asciiByte r₀ = c := by
        have : c.toNat < 256 := c.val.isLt
        rw [byte_eq_iff, toNat_asciiByte (by omega), hc]
      by_cases hrs : rs = []
      · subst hrs
        rw [if_pos rfl]
        exact ⟨shape_complete htop v, fun r hr =>
          ⟨r, by rw [List.map_singleton, hbyte]; rfl, (completes_complete hvs).mp hr⟩⟩
      · rw [if_neg hrs]
        exact ⟨shape_of_top htop ⟨hrs, fun x hx => hlow x (List.mem_cons_of_mem _ hx), hv⟩,
          fun _ ⟨r', hr, hb⟩ => ⟨r', by rw [hr, List.map_cons, hbyte]; rfl, hb⟩⟩

/-- A run, read back: whatever may follow its last state may follow its bytes from its first. -/
theorem completes_of_scan {cs : List UInt8} :
    ∀ {s s' : Scanner}, Shape s → scan s cs = .ok s' →
      Shape s' ∧ ∀ r, s'.Completes r → s.Completes (cs ++ r) := by
  induction cs with
  | nil =>
      intro s s' hs h
      cases h
      exact ⟨hs, fun _ hr => hr⟩
  | cons c cs ih =>
      intro s s' hs h
      obtain ⟨s₁, h₁, h₂⟩ := Except.bind_eq_ok.mp h
      have hg := Good.step (hs.setOffset (s.offset + 1)) c
      rw [h₁] at hg
      obtain ⟨hs', hback⟩ := ih hg.1 h₂
      exact ⟨hs', fun r hr => hg.2 _ (hback r hr)⟩

/-- The end of the input, read as one more space, completes a top-level value only from a
state that nothing more need follow. -/
theorem completes_of_eof (hs : Shape s) {s' : Scanner} (h : s.step 0x20 = .ok s')
    (htop : s'.top.isSome) (hstk : s'.stack = []) : s.Completes [] := by
  have hend := ((Good.step hs 0x20).elim_ok h).1.top htop
  obtain ⟨ph, stk, top, o⟩ := s
  cases ph with
  | value | valueOrClose | keyOrClose | key =>
      rw [step_blank ?_ stk top o (c := 0x20) rfl] at h
      · cases h
        exact absurd hend.2 nofun
      · trivial
  | afterValue =>
      rw [step_blank (show SkipsBlank .afterValue from trivial) stk top o (c := 0x20) rfl] at h
      cases h
      cases hstk
      exact blank_nil
  | str st acc =>
      simp only [Scanner.step] at h
      split at h
      · cases h
        exact absurd hend.2 nofun
      · exact absurd (strStep_done ‹_›).1 (by decide)
      · cases h
  | num st lit =>
      simp only [Scanner.step] at h
      split at h
      · cases h
        exact absurd hend.2 nofun
      · rename_i hn
        rw [endValue_space (c := 0x20) rfl] at h
        cases h
        cases stack_eq_nil_of_complete hstk
        exact ⟨[], [], rfl, .done (final_of_numStep_none hn), blank_nil⟩
      · cases h
  | word name rest v =>
      obtain ⟨hne, hlow, -⟩ := hs.fits
      rcases rest with _ | ⟨r₀, rs⟩
      · exact absurd rfl hne
      have h₀ := hlow r₀ (List.mem_cons_self _ _)
      simp only [Scanner.step] at h
      have h20 : (0x20 : UInt8).toNat = 32 := rfl
      rw [if_neg (by omega)] at h
      cases h

end Scanner

/-- Every byte string `parse` accepts is a JSON text. -/
theorem jsonText_of_parse {b : List UInt8} {v : Value} (h : parse b = .ok v) : JsonText b := by
  obtain ⟨s, hs, h⟩ := Except.bind_eq_ok.mp h
  obtain ⟨s', hs', h⟩ := Except.bind_eq_ok.mp h
  obtain ⟨hsh, hback⟩ := Scanner.completes_of_scan shape_init hs
  have hend : s'.top.isSome ∧ s'.stack = [] := by
    split at h
    · rename_i w _ htop hstk
      exact ⟨by rw [htop]; rfl, hstk⟩
    · cases h
  have hb := hback [] (Scanner.completes_of_eof hsh hs' hend.1 hend.2)
  rw [List.append_nil] at hb
  exact hb

end Kraken.Json
