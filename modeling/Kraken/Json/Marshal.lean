import Kraken.Json.Encode
import Kraken.Json.Decode
import Mathlib.Data.Nat.Digits

/-!
# Go values as JSON values, and decoding them back

The value `json.Marshal` writes for a Go value of the types the manifest packages
declare: an integer as its decimal literal, a struct as an object with one member per
field, in the order of the struct's field table. Decoding such a value into the zero
value of the same type gives the Go value back.

For integers this rests on what `Nat.toDigits` prints (`toDigitsCore_foldl`,
`toDigitsCore_digits`, `toDigitsCore_head`): the literal of `i` is a JSON number literal
that `strconv.ParseInt` reads as `i`. For structs it rests on one lemma about the field
table (`decodeStruct_zip`): when no two JSON names fold to the same key, each member
goes to the field of its name, so decoding runs the fields' own decoders in order.
-/

namespace Kraken.Json

/-! ## Integers -/

/-- The step of `digitsVal`. -/
def digitStep (n : Nat) (d : Char) : Nat := 10 * n + (d.toNat - 48)

theorem digitsVal_eq_foldl (ds : List Char) : digitsVal ds = ds.foldl digitStep 0 := rfl

theorem toNat_digitChar : ∀ k, k < 10 → (Nat.digitChar k).toNat = 48 + k := by decide

theorem isDigit_digitChar : ∀ k, k < 10 → (Nat.digitChar k).isDigit := by decide

/-- `Nat.toDigitsCore` puts the digits of `n` before `ds`: reading the result from `0`
reads `ds` from `n`. -/
theorem toDigitsCore_foldl :
    ∀ (fuel n : Nat) (ds : List Char), n < fuel →
      (Nat.toDigitsCore 10 fuel n ds).foldl digitStep 0 = ds.foldl digitStep n
  | 0, _, _, h => absurd h (Nat.not_lt_zero _)
  | fuel + 1, n, ds, h => by
      have hd := toNat_digitChar (n % 10) (Nat.mod_lt _ (by decide))
      simp only [Nat.toDigitsCore]
      split
      · rename_i h0
        simp only [List.foldl_cons, digitStep, hd]
        congr 1
        omega
      · rename_i h0
        rw [toDigitsCore_foldl fuel (n / 10) _ (by omega), List.foldl_cons, digitStep, hd]
        congr 1
        omega

/-- Every character `Nat.toDigitsCore` adds is a decimal digit. -/
theorem toDigitsCore_digits :
    ∀ (fuel n : Nat) (ds : List Char), (∀ c ∈ ds, c.isDigit) →
      ∀ c ∈ Nat.toDigitsCore 10 fuel n ds, c.isDigit
  | 0, _, _, h => h
  | fuel + 1, n, ds, h => by
      have hd := isDigit_digitChar (n % 10) (Nat.mod_lt _ (by decide))
      have hcons : ∀ c ∈ Nat.digitChar (n % 10) :: ds, c.isDigit :=
        List.forall_mem_cons.2 ⟨hd, h⟩
      simp only [Nat.toDigitsCore]
      split
      · exact hcons
      · exact toDigitsCore_digits fuel (n / 10) _ hcons

/-- The first digit `Nat.toDigitsCore` prints is `0` only for `0`. -/
theorem toDigitsCore_head :
    ∀ (fuel n : Nat) (ds : List Char), n < fuel →
      ∃ d rest, Nat.toDigitsCore 10 fuel n ds = d :: rest ∧
        (n = 0 → d = '0' ∧ rest = ds) ∧ (0 < n → d ≠ '0')
  | 0, _, _, h => absurd h (Nat.not_lt_zero _)
  | fuel + 1, n, ds, h => by
      simp only [Nat.toDigitsCore]
      split
      · rename_i h0
        have hn : n < 10 := by omega
        refine ⟨_, _, rfl, fun hz => by subst hz; exact ⟨rfl, rfl⟩, fun hp => ?_⟩
        rw [Nat.mod_eq_of_lt hn]
        intro heq
        have := toNat_digitChar n hn
        rw [heq, show '0'.toNat = 48 from rfl] at this
        omega
      · rename_i h0
        obtain ⟨d, rest, he, -, hpos⟩ := toDigitsCore_head fuel (n / 10) _ (by omega)
        exact ⟨d, rest, he, fun hz => absurd (hz ▸ h0) (by decide), fun _ => hpos (by omega)⟩

/-- The decimal literal of a natural number: `0`, or digits with no leading zero. -/
theorem toDigits_spec (n : Nat) :
    digitsVal (Nat.toDigits 10 n) = n ∧ (∀ c ∈ Nat.toDigits 10 n, c.isDigit) ∧
      (n = 0 → Nat.toDigits 10 n = ['0']) ∧
      (0 < n → ∃ d ds, Nat.toDigits 10 n = d :: ds ∧ d ≠ '0') := by
  obtain ⟨d, rest, he, hz, hpos⟩ := toDigitsCore_head (n + 1) n [] (Nat.lt_succ_self n)
  refine ⟨?_, toDigitsCore_digits (n + 1) n [] (fun _ h => absurd h (List.not_mem_nil _)), ?_, ?_⟩
  · rw [digitsVal_eq_foldl, Nat.toDigits, toDigitsCore_foldl _ _ _ (Nat.lt_succ_self n)]
    rfl
  · intro h0
    obtain ⟨rfl, rfl⟩ := hz h0
    exact he
  · exact fun hp => ⟨d, rest, he, hpos hp⟩

/-- The literal `json.Marshal` writes for an integer (`strconv.AppendInt(b, i, 10)`). -/
def intValue (i : Int) : Value := .number (toString i)

/-- An integer of Go's `int64`. -/
def IsInt64 (i : Int) : Prop := -9223372036854775808 ≤ i ∧ i ≤ 9223372036854775807

instance (i : Int) : Decidable (IsInt64 i) := inferInstanceAs (Decidable (_ ∧ _))

theorem data_toString_ofNat (n : Nat) : (toString (Int.ofNat n)).data = Nat.toDigits 10 n := rfl

theorem data_toString_negSucc (n : Nat) :
    (toString (Int.negSucc n)).data = '-' :: Nat.toDigits 10 (n + 1) := rfl

theorem ne_minus_of_isDigit {c : Char} (h : c.isDigit) : c ≠ '-' := by
  rintro rfl
  exact absurd h (by decide)

/-- `strconv.ParseInt` reads the literal of every `int64` back. -/
theorem parseInt64_toString {i : Int} (hi : IsInt64 i) : parseInt64 (toString i) = some i := by
  unfold parseInt64
  split
  rename_i neg ds hsplit
  split at hsplit
  · rename_i ds' hdata
    cases hsplit
    cases i with
    | ofNat n =>
        obtain ⟨-, hdig, -, -⟩ := toDigits_spec n
        rw [data_toString_ofNat] at hdata
        exact absurd (hdig '-' (by rw [hdata]; exact List.mem_cons_self _ _)) (by decide)
    | negSucc n =>
        rw [data_toString_negSucc, List.cons.injEq] at hdata
        obtain ⟨hval, hdig, -, hpos⟩ := toDigits_spec (n + 1)
        obtain ⟨d, ds'', hds, -⟩ := hpos (Nat.succ_pos n)
        rw [← hdata.2, hval, if_pos rfl]
        have hn : -((n + 1 : Nat) : Int) = Int.negSucc n := rfl
        rw [hn, if_pos ⟨by rw [hds]; exact List.cons_ne_nil _ _, List.all_eq_true.2 hdig, hi⟩]
  · rename_i hne
    cases hsplit
    cases i with
    | ofNat n =>
        obtain ⟨hval, hdig, hz, hpos⟩ := toDigits_spec n
        have hne' : Nat.toDigits 10 n ≠ [] := by
          rcases Nat.eq_zero_or_pos n with h0 | hp
          · rw [hz h0]; exact List.cons_ne_nil _ _
          · obtain ⟨d, ds, hds, -⟩ := hpos hp
            rw [hds]; exact List.cons_ne_nil _ _
        simp only [data_toString_ofNat, hval, Bool.false_eq_true, if_false]
        rw [if_pos ⟨hne', List.all_eq_true.2 hdig, hi⟩]
        rfl
    | negSucc n => exact absurd (data_toString_negSucc n) (hne _)

/-- The literal of an integer is a JSON number literal. -/
theorem wellFormed_intValue (i : Int) : (intValue i).WellFormed := by
  have hint : ∀ n, 0 < n → (Nat.toDigits 10 n = ['0'] ∨ ∃ d ds, Nat.toDigits 10 n = d :: ds ∧
      '1' ≤ d ∧ d ≤ '9' ∧ ∀ c ∈ ds, c.isDigit) := fun n hp => by
    obtain ⟨-, hdig, -, hpos⟩ := toDigits_spec n
    obtain ⟨d, ds, hds, hd0⟩ := hpos hp
    have hd := isDigit_iff.mp (hdig d (by rw [hds]; exact List.mem_cons_self _ _))
    have hd48 : d.toNat ≠ 48 := fun h => hd0 (by rw [← Char.ofNat_toNat d, h])
    exact .inr ⟨d, ds, hds, show 49 ≤ d.toNat by omega, show d.toNat ≤ 57 from hd.2,
      fun c hc => hdig c (by rw [hds]; exact List.mem_cons_of_mem _ hc)⟩
  have hfrac : ∀ c ∈ ([] : List Char), c.isDigit := fun _ h => absurd h (List.not_mem_nil _)
  have hexp : ∀ e ∈ (none : Option (Char × Option Char × List Char)), (e.1 = 'e' ∨ e.1 = 'E') ∧
      (∀ x ∈ e.2.1, x = '+' ∨ x = '-') ∧ e.2.2 ≠ [] ∧ ∀ c ∈ e.2.2, c.isDigit :=
    fun _ h => absurd h (by simp)
  cases i with
  | ofNat n =>
      have hok : Nat.toDigits 10 n = ['0'] ∨ ∃ d ds, Nat.toDigits 10 n = d :: ds ∧
          '1' ≤ d ∧ d ≤ '9' ∧ ∀ c ∈ ds, c.isDigit := by
        rcases Nat.eq_zero_or_pos n with h0 | hp
        · exact .inl ((toDigits_spec n).2.2.1 h0)
        · exact hint n hp
      exact ⟨⟨false, Nat.toDigits 10 n, [], none, hok, hfrac, hexp⟩, by
        simp only [intValue, data_toString_ofNat, NumberLit.text, NumberLit.signText,
          NumberLit.fracText, NumberLit.expText, Bool.false_eq_true, if_false, if_true,
          List.nil_append, List.append_nil]⟩
  | negSucc n =>
      exact ⟨⟨true, Nat.toDigits 10 (n + 1), [], none, hint (n + 1) (Nat.succ_pos n), hfrac, hexp⟩,
        by simp only [intValue, data_toString_negSucc, NumberLit.text, NumberLit.signText,
          NumberLit.fracText, NumberLit.expText, if_true, List.append_nil,
          List.singleton_append]⟩

@[simp] theorem depth_intValue (i : Int) : (intValue i).depth = 0 := rfl

theorem decodeInt_intValue {i : Int} (hi : IsInt64 i) (goType : String) (cur : Int) :
    decodeInt goType cur (intValue i) = .ok i := by
  simp only [decodeInt, intValue, parseInt64_toString hi]

/-! ## Lists and maps -/

theorem elemsWellFormed_map {β : Type} {f : β → Value} :
    ∀ {xs : List β}, (∀ x ∈ xs, (f x).WellFormed) → ElemsWellFormed (xs.map f) :=
  fun h => elemsWellFormed_iff.mpr (List.forall_mem_map.mpr h)

theorem membersWellFormed_map {β : Type} {f : β → String × Value} :
    ∀ {xs : List β}, (∀ x ∈ xs, (f x).2.WellFormed) → MembersWellFormed (xs.map f) :=
  fun h => membersWellFormed_iff.mpr (List.forall_mem_map.mpr h)

theorem depthElems_map_le {β : Type} {f : β → Value} {k : Nat} :
    ∀ {xs : List β}, (∀ x ∈ xs, (f x).depth ≤ k) → depthElems (xs.map f) ≤ k :=
  fun h => depthElems_le_iff.mpr (List.forall_mem_map.mpr h)

theorem depthMembers_map_le {β : Type} {f : β → String × Value} {k : Nat} :
    ∀ {xs : List β}, (∀ x ∈ xs, (f x).2.depth ≤ k) → depthMembers (xs.map f) ≤ k :=
  fun h => depthMembers_le_iff.mpr (List.forall_mem_map.mpr h)

/-- The value of a list of strings, as `json.Marshal` writes a `[]string`. -/
def stringsValue (xs : List String) : Value := .array (xs.map .string)

/-- The value of a `map[string]string`, its members in the order of the list. `json.Marshal`
sorts them by key: its bytes are those of the list sorted by key, and the read-back theorems
hold for every order. -/
def stringMapValue (kvs : List (String × String)) : Value :=
  .object (kvs.map fun kv => (kv.1, .string kv.2))

theorem wellFormed_stringsValue (xs : List String) : (stringsValue xs).WellFormed :=
  elemsWellFormed_map fun _ _ => trivial

theorem wellFormed_stringMapValue (kvs : List (String × String)) :
    (stringMapValue kvs).WellFormed :=
  membersWellFormed_map fun _ _ => trivial

theorem depth_stringsValue (xs : List String) : (stringsValue xs).depth ≤ 1 :=
  Nat.succ_le_succ (depthElems_map_le fun _ _ => Nat.le_refl 0)

theorem depth_stringMapValue (kvs : List (String × String)) : (stringMapValue kvs).depth ≤ 1 :=
  Nat.succ_le_succ (depthMembers_map_le fun _ _ => Nat.le_refl 0)

theorem mapM_map_ok {β γ ε : Type} {f : γ → Except ε β} {g : β → γ} :
    ∀ {xs : List β}, (∀ x ∈ xs, f (g x) = .ok x) → (xs.map g).mapM f = .ok xs
  | [], _ => rfl
  | x :: xs, h => by
      rw [List.map_cons, List.mapM_cons, h x (List.mem_cons_self _ _), Except.ok_bind,
        mapM_map_ok fun y hy => h y (List.mem_cons_of_mem _ hy)]
      rfl

/-- A slice decodes back from the values of its elements. -/
theorem decodeSlice_map {β : Type} {elem : β → Value → Except UnmarshalTypeError β} {zero : β}
    {enc : β → Value} {xs : List β} (h : ∀ x ∈ xs, elem zero (enc x) = .ok x) (goType : String)
    (cur : List β) : decodeSlice goType elem zero cur (.array (xs.map enc)) = .ok xs :=
  mapM_map_ok h

theorem decodeSlice_stringsValue (xs : List String) (goType : String) (cur : List String) :
    decodeSlice goType (decodeString "string") "" cur (stringsValue xs) = .ok xs :=
  decodeSlice_map (fun _ _ => rfl) goType cur

theorem decodeString_string (goType cur s : String) : decodeString goType cur (.string s) = .ok s :=
  rfl

/-- A map with distinct keys decodes back, into the empty map, from its object. -/
theorem decodeStringMap_stringMapValue {kvs : List (String × String)}
    (hnd : (kvs.map Prod.fst).Nodup) : decodeStringMap [] (stringMapValue kvs) = .ok kvs := by
  have key : ∀ (kvs acc : List (String × String)), ((acc ++ kvs).map Prod.fst).Nodup →
      (kvs.map fun kv => (kv.1, Value.string kv.2)).foldlM
        (fun m kv => (decodeString "string" "" kv.2).map (mapInsert m kv.1)) acc = .ok (acc ++ kvs) := by
    intro kvs
    induction kvs with
    | nil => intro acc _; simp
    | cons kv kvs ih =>
        intro acc hnd
        have hk : kv.1 ∉ acc.map Prod.fst := by
          rw [List.map_append, List.map_cons] at hnd
          exact fun h => (List.nodup_append.mp hnd).2.2 h (List.mem_cons_self _ _)
        have hins : mapInsert acc kv.1 kv.2 = acc ++ [kv] := by
          have : acc.any (·.1 == kv.1) = false := by
            simpa only [List.any_eq_false, beq_iff_eq, List.mem_map, not_exists, not_and] using
              fun x hx hx1 => hk (List.mem_map.2 ⟨x, hx, hx1⟩)
          simp only [mapInsert, this, Bool.false_eq_true, if_false]
        simp only [List.map_cons, List.foldlM_cons, decodeString_string, Except.map_ok_eq,
          Except.ok_bind, hins]
        rw [ih (acc ++ [kv]) (by simpa only [List.append_assoc, List.singleton_append] using hnd)]
        simp only [List.append_assoc, List.singleton_append]
  simpa using key kvs [] (by simpa using hnd)

/-! ## Struct fields -/

section Fields

variable {α : Type} {fields : List (StructField α)}

/-- With no two JSON names folding to the same key, the key of a field's own name
selects that field. -/
theorem find?_foldEq_of_mem (hnd : (fields.map fun f => f.1.data.map foldChar).Nodup)
    {f : StructField α} (hf : f ∈ fields) : fields.find? (fun g => foldEq f.1 g.1) = some f := by
  induction fields with
  | nil => cases hf
  | cons g gs ih =>
      rw [List.map_cons, List.nodup_cons] at hnd
      by_cases hfg : foldEq f.1 g.1
      · simp only [List.find?_cons, hfg]
        have hkey : f.1.data.map foldChar = g.1.data.map foldChar := by
          simpa only [foldEq, beq_iff_eq] using hfg
        rcases List.mem_cons.mp hf with rfl | hf'
        · rfl
        · exact absurd (List.mem_map.2 ⟨f, hf', hkey⟩) hnd.1
      · simp only [List.find?_cons, hfg]
        rcases List.mem_cons.mp hf with rfl | hf'
        · exact absurd (by simp only [foldEq, beq_self_eq_true]) hfg
        · exact ih hnd.2 hf'

theorem setByName_of_mem (hnd : (fields.map fun f => f.1.data.map foldChar).Nodup)
    {f : StructField α} (hf : f ∈ fields) (s : α) (v : Value) :
    setByName fields s f.1 v = (f.2 s v).mapError (.inField f.1) := by
  simp only [setByName, find?_foldEq_of_mem hnd hf]

/-- An object whose members carry the table's JSON names in order decodes by running each
field's own decoder on its member, in order. -/
theorem decodeStruct_zip (hnd : (fields.map fun f => f.1.data.map foldChar).Nodup)
    (name goType : String) (vs : List Value) {cur res : α}
    (h : (fields.zip vs).foldlM (fun s fv => fv.1.2 s fv.2) cur = .ok res) :
    decodeStruct name goType fields cur (.object ((fields.map (·.1)).zip vs)) = .ok res := by
  have key : ∀ (gs : List (StructField α)), (∀ g ∈ gs, g ∈ fields) → ∀ (vs : List Value) (cur : α),
      (gs.zip vs).foldlM (fun s fv => fv.1.2 s fv.2) cur = .ok res →
      ((gs.map (·.1)).zip vs).foldlM
        (fun s kv => (setByName fields s kv.1 kv.2).mapError (UnmarshalTypeError.inStruct name))
        cur = .ok res := by
    intro gs
    induction gs with
    | nil => intro _ vs cur h; simpa using h
    | cons g gs ih =>
        intro hgs vs cur h
        cases vs with
        | nil => simpa using h
        | cons v vs =>
            simp only [List.map_cons, List.zip_cons_cons, List.foldlM_cons] at h ⊢
            obtain ⟨s₁, h₁, h₂⟩ := Except.bind_eq_ok.mp h
            rw [setByName_of_mem hnd (hgs g (List.mem_cons_self _ _)), h₁, Except.mapError_ok,
              Except.mapError_ok, Except.ok_bind]
            exact ih (fun x hx => hgs x (List.mem_cons_of_mem _ hx)) vs s₁ h₂
  exact key fields (fun _ h => h) vs cur h

/-- Members whose keys name none of the fields leave the struct as it was. -/
theorem decodeStruct_of_unknown_keys (name goType : String) (cur : α) :
    ∀ {ms : List (String × Value)}, (∀ k ∈ ms.map Prod.fst, ∀ f ∈ fields, foldEq k f.1 = false) →
      decodeStruct name goType fields cur (.object ms) = .ok cur
  | [], _ => rfl
  | kv :: ms, h => by
      have hn : fields.find? (fun f => foldEq kv.1 f.1) = none :=
        List.find?_eq_none.mpr fun f hf => by simp [h kv.1 (List.mem_cons_self _ _) f hf]
      have ih := decodeStruct_of_unknown_keys name goType cur fun k hk =>
        h k (List.mem_cons_of_mem _ hk)
      simp only [decodeStruct, List.foldlM_cons, setByName, hn, Except.mapError_ok,
        Except.ok_bind] at ih ⊢
      exact ih

/-- Members in front that name no field change nothing: decoding starts at the rest. -/
theorem decodeStruct_unknown_append (name goType : String) (cur : α) (ms : List (String × Value))
    (h : ∀ k ∈ ms.map Prod.fst, ∀ f ∈ fields, foldEq k f.1 = false) (ms' : List (String × Value)) :
    decodeStruct name goType fields cur (.object (ms ++ ms')) =
      decodeStruct name goType fields cur (.object ms') := by
  have h₁ := decodeStruct_of_unknown_keys name goType cur h
  simp only [decodeStruct] at h₁ ⊢
  rw [List.foldlM_append, h₁, Except.ok_bind]

theorem StructField.mk_ok {β : Type} {name : String} {get : α → β} {set : α → β → α}
    {dec : β → Value → Except UnmarshalTypeError β} {s s' : α} {v : Value}
    (h : (StructField.mk name get set dec).2 s v = .ok s') :
    ∃ x, dec (get s) v = .ok x ∧ s' = set s x := by
  obtain ⟨x, hx, rfl⟩ := Except.map_eq_ok.mp h
  exact ⟨x, hx, rfl⟩

/-- `interface{}` is non-nil after decoding anything but `null`. -/
theorem decodeInterface_eq_ok {v : Value} {cur found : Bool} (h : decodeInterface cur v = .ok found)
    (hv : v ≠ .null) : found = true := by
  obtain ⟨u, -, rfl⟩ := Except.map_eq_ok.mp h
  cases v <;> first | exact absurd rfl hv | rfl

theorem StructField.mk_eq_ok {β : Type} {name : String} {get : α → β} {set : α → β → α}
    {dec : β → Value → Except UnmarshalTypeError β} {s : α} {v : Value} {x : β}
    (h : dec (get s) v = .ok x) : (StructField.mk name get set dec).2 s v = .ok (set s x) := by
  simp only [StructField.mk, h, Except.map_ok_eq]

theorem setByName_of_find {k : String} {f : StructField α}
    (hf : fields.find? (fun g => foldEq k g.1) = some f) {s t : α} {v : Value}
    (h : f.2 s v = .ok t) : setByName fields s k v = .ok t := by
  simp only [setByName, hf, h, Except.mapError_ok]

end Fields

/-! ## Fields left out

`json.Marshal` leaves out a field tagged `omitempty` whose value is empty: zero, an empty
string, slice or map, or a nil pointer. Decoding reads the object one member at a time
(`decodeStruct_cons`); a member left out leaves the struct as it was, and in a struct
decoded from its zero value that is the empty value the field had (`decodeStruct_omitEmpty`). -/

/-- A pointer as `json.Marshal` writes it: `null` when nil. -/
def pointerValue {β : Type} (enc : β → Value) : Option β → Value
  | none => .null
  | some x => enc x

/-- The member `json.Marshal` writes for a field tagged `omitempty`: none when the field's
value is empty. -/
def omitEmpty (empty : Prop) [Decidable empty] (name : String) (v : Value) :
    List (String × Value) :=
  if empty then [] else [(name, v)]

theorem forall_mem_omitEmpty {empty : Prop} [Decidable empty] {name : String} {v : Value}
    {P : String × Value → Prop} : (∀ m ∈ omitEmpty empty name v, P m) ↔ (¬empty → P (name, v)) := by
  unfold omitEmpty
  split_ifs with h <;> simp [h]

section Omitted

variable {α : Type} {fields : List (StructField α)} {name goType k : String} {s t : α}
  {v : Value}

theorem decodeStruct_cons (h : setByName fields s k v = .ok t) (ms : List (String × Value)) :
    decodeStruct name goType fields s (.object ((k, v) :: ms)) =
      decodeStruct name goType fields t (.object ms) := by
  simp only [decodeStruct, List.foldlM_cons, h, Except.mapError_ok, Except.ok_bind]

/-- A member `json.Marshal` may leave out: decoding goes on from the struct as the member
sets it, which is the struct as it was when the member is left out. -/
theorem decodeStruct_omitEmpty {e : Prop} [Decidable e]
    (hkeep : ¬e → setByName fields s k v = .ok t) (hdrop : e → t = s)
    (ms : List (String × Value)) :
    decodeStruct name goType fields s (.object (omitEmpty e k v ++ ms)) =
      decodeStruct name goType fields t (.object ms) := by
  by_cases he : e
  · rw [omitEmpty, if_pos he, List.nil_append, hdrop he]
  · rw [omitEmpty, if_neg he, List.singleton_append]
    exact decodeStruct_cons (hkeep he) ms

theorem decodeStruct_omitEmpty_last {e : Prop} [Decidable e]
    (hkeep : ¬e → setByName fields s k v = .ok t) (hdrop : e → t = s) :
    decodeStruct name goType fields s (.object (omitEmpty e k v)) = .ok t := by
  rw [← List.append_nil (omitEmpty e k v), decodeStruct_omitEmpty hkeep hdrop]
  rfl

end Omitted

/-- On bytes the scanner reads as `v`, `json.Unmarshal` decodes `v`. -/
theorem unmarshal_of_parse {α : Type} {dec : α → Value → Except UnmarshalTypeError α}
    {zero : α} {b : List UInt8} {v : Value} (h : parse b = .ok v) :
    unmarshal dec zero b = (dec zero v).mapError .unmarshalType := by
  simp only [unmarshal, h, Except.mapError_ok, Except.ok_bind]

/-! ## What decoding builds

The decoder builds only values a Go program can hold: integers of `int64`, maps with
distinct keys, and structs that keep every invariant each of their fields keeps. -/

/-- A property each step of a run keeps holds at its end. -/
theorem foldlM_inv {α γ ε : Type} {f : α → γ → Except ε α} {P : α → Prop}
    (h : ∀ a c a', P a → f a c = .ok a' → P a') :
    ∀ (l : List γ) {a a' : α}, P a → l.foldlM f a = .ok a' → P a'
  | [], _, _, ha, hl => by
      cases hl
      exact ha
  | c :: l, a, _, ha, hl => by
      obtain ⟨a₁, h₁, hl⟩ := Except.bind_eq_ok.mp hl
      exact foldlM_inv h l (h a c a₁ ha h₁) hl

theorem exists_decode_of_unmarshal {α : Type} {dec : α → Value → Except UnmarshalTypeError α}
    {zero x : α} {data : List UInt8} (h : unmarshal dec zero data = .ok x) :
    ∃ v, dec zero v = .ok x := by
  obtain ⟨v, -, h⟩ := Except.bind_eq_ok.mp h
  exact ⟨v, Except.mapError_eq_ok.mp h⟩

theorem exists_parse_of_unmarshal {α : Type} {dec : α → Value → Except UnmarshalTypeError α}
    {zero x : α} {data : List UInt8} (h : unmarshal dec zero data = .ok x) :
    ∃ v, parse data = .ok v := by
  obtain ⟨v, h, -⟩ := Except.bind_eq_ok.mp h
  exact ⟨v, Except.mapError_eq_ok.mp h⟩

theorem isInt64_of_parseInt64 {lit : String} {n : Int} (h : parseInt64 lit = some n) :
    IsInt64 n := by
  unfold parseInt64 at h
  split at h
  dsimp only at h
  split_ifs at h with _ hc hc <;> cases h
  all_goals exact hc.2.2

theorem decodeInt_isInt64 {goType : String} {cur x : Int} {v : Value} (hcur : IsInt64 cur)
    (h : decodeInt goType cur v = .ok x) : IsInt64 x := by
  cases v with
  | null =>
      cases h
      exact hcur
  | number lit =>
      cases hp : parseInt64 lit with
      | none => simp only [decodeInt, hp, reduceCtorEq] at h
      | some n =>
          simp only [decodeInt, hp, Except.ok.injEq] at h
          exact h ▸ isInt64_of_parseInt64 hp
  | _ => cases h

theorem nodup_mapInsert {m : List (String × String)} (hm : (m.map Prod.fst).Nodup) (k v : String) :
    ((mapInsert m k v).map Prod.fst).Nodup := by
  unfold mapInsert
  split
  · have hkeys :
        (m.map fun kv => if kv.1 = k then (k, v) else kv).map Prod.fst = m.map Prod.fst := by
      rw [List.map_map]
      exact List.map_congr_left fun kv _ => by by_cases h : kv.1 = k <;> simp [h]
    rwa [hkeys]
  · rename_i hk
    rw [List.map_append, List.nodup_append]
    refine ⟨hm, List.nodup_singleton _, fun x hx hx' => hk ?_⟩
    obtain ⟨kv, hkv, rfl⟩ := List.mem_map.mp hx
    exact List.any_eq_true.mpr ⟨kv, hkv, by simpa using List.mem_singleton.mp hx'⟩

/-- A map decodes with distinct keys, the keys of the map already there being distinct. -/
theorem decodeStringMap_nodup {cur x : List (String × String)} {v : Value}
    (hcur : (cur.map Prod.fst).Nodup) (h : decodeStringMap cur v = .ok x) :
    (x.map Prod.fst).Nodup := by
  cases v with
  | null =>
      cases h
      exact List.nodup_nil
  | object ms =>
      refine foldlM_inv (P := fun m => (m.map Prod.fst).Nodup) (fun m kv m' hm hstep => ?_) ms
        hcur h
      obtain ⟨_, -, rfl⟩ := Except.map_eq_ok.mp hstep
      exact nodup_mapInsert hm _ _
  | _ => cases h

/-- Every element of a decoded slice is a value its element decoder builds from zero. -/
theorem forall_mem_of_decodeSlice {β : Type} {elem : β → Value → Except UnmarshalTypeError β}
    {zero : β} {P : β → Prop} (he : ∀ v x, elem zero v = .ok x → P x) {goType : String}
    {cur xs : List β} {v : Value} (h : decodeSlice goType elem zero cur v = .ok xs) :
    ∀ x ∈ xs, P x := by
  cases v with
  | null =>
      cases h
      exact fun _ h => absurd h (List.not_mem_nil _)
  | array es =>
      induction es generalizing xs with
      | nil =>
          cases h
          exact fun _ h => absurd h (List.not_mem_nil _)
      | cons e es ih =>
          rw [decodeSlice, List.mapM_cons] at h
          obtain ⟨x, hx, h⟩ := Except.bind_eq_ok.mp h
          obtain ⟨xs', hxs', h⟩ := Except.bind_eq_ok.mp h
          cases h
          exact List.forall_mem_cons.mpr ⟨he e x hx, ih hxs'⟩
  | _ => cases h

/-- A promoted field changes only the embedded part. -/
theorem StructField.exists_of_lift_ok {α β : Type} {get : α → β} {set : α → β → α}
    {fs : List (StructField β)} {f : StructField α} (hf : f ∈ StructField.lift get set fs)
    {s s' : α} {v : Value} (h : f.2 s v = .ok s') : ∃ y, s' = set s y := by
  obtain ⟨g, -, rfl⟩ := List.mem_map.mp hf
  obtain ⟨y, -, rfl⟩ := Except.map_eq_ok.mp h
  exact ⟨y, rfl⟩

/-- An invariant every field keeps is kept by decoding the whole struct. -/
theorem decodeStruct_inv {α : Type} {fields : List (StructField α)} {P : α → Prop}
    (hf : ∀ f ∈ fields, ∀ s v s', P s → f.2 s v = .ok s' → P s') {name goType : String}
    {cur res : α} {v : Value} (h : decodeStruct name goType fields cur v = .ok res)
    (hcur : P cur) : P res := by
  cases v with
  | null =>
      cases h
      exact hcur
  | object ms =>
      refine foldlM_inv (fun s kv s' hs hstep => ?_) ms hcur h
      rw [Except.mapError_eq_ok] at hstep
      unfold setByName at hstep
      cases hfind : fields.find? (fun f => foldEq kv.1 f.1) with
      | none =>
          rw [hfind] at hstep
          cases hstep
          exact hs
      | some f =>
          rw [hfind, Except.mapError_eq_ok] at hstep
          exact hf f (List.mem_of_find?_eq_some hfind) s kv.2 s' hs hstep
  | _ => cases h

end Kraken.Json
