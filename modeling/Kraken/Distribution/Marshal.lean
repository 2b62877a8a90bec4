import Kraken.Distribution.Unmarshal
import Kraken.Json.Marshal

/-!
# Manifests as JSON values

A JSON object for each manifest struct: one member per field of the struct's table, in
the table's order, every field written out (`null` for a nil pointer, `[]` and `{}` for
empty slices and maps, where `json.Marshal` drops an `omitempty` field, as
`Distribution.Canonical` has it; decoding reads both forms alike). Decoding the object into the struct's zero value gives the
struct back (`decode_toValue`), provided its integers are `int64`s and its maps have
distinct keys, as Go values always do; the objects are well-formed JSON values of
bounded depth, so the scanner reads their encodings back.

The last section runs the four unmarshal functions on any bytes the scanner reads as these
objects (their encodings, or any layout of them): each accepts the
manifests of its own kind that declare a media type it admits, and the two shape checks
of the OCI types pass on their own kind and reject an index as a manifest.
-/

namespace Kraken.Distribution

open Json

namespace Versioned

/-- The object for a `manifest.Versioned`. -/
def toValue (v : Versioned) : Value :=
  .object [("schemaVersion", intValue v.schemaVersion), ("mediaType", .string v.mediaType)]

theorem decode_toValue {v : Versioned} (h : IsInt64 v.schemaVersion) :
    decode .zero v.toValue = .ok v := by
  refine decodeStruct_zip (by decide) _ _ [intValue v.schemaVersion, .string v.mediaType] ?_
  simp only [fields, StructField.mk, List.zip_cons_cons, List.zip_nil_left, List.foldlM_cons,
    List.foldlM_nil, decodeInt_intValue h, decodeString_string, Except.map_ok_eq, Except.ok_bind]
  rfl

theorem wellFormed_toValue (v : Versioned) : v.toValue.WellFormed :=
  ⟨wellFormed_intValue _, trivial, trivial⟩

theorem depth_toValue (v : Versioned) : v.toValue.depth = 1 := rfl

end Versioned

namespace Platform

/-- The object for a `v1.Platform`. -/
def toValue (p : Platform) : Value :=
  .object [("architecture", .string p.architecture), ("os", .string p.os),
    ("os.version", .string p.osVersion), ("os.features", stringsValue p.osFeatures),
    ("variant", .string p.variant)]

theorem decode_toValue (p : Platform) : decode .zero p.toValue = .ok p := by
  refine decodeStruct_zip (by decide) _ _ [.string p.architecture, .string p.os,
    .string p.osVersion, stringsValue p.osFeatures, .string p.variant] ?_
  simp only [fields, StructField.mk, List.zip_cons_cons, List.zip_nil_left, List.foldlM_cons,
    List.foldlM_nil, decodeString_string, decodeSlice_stringsValue, Except.map_ok_eq,
    Except.ok_bind]
  rfl

theorem wellFormed_toValue (p : Platform) : p.toValue.WellFormed :=
  ⟨trivial, trivial, trivial, wellFormed_stringsValue _, trivial, trivial⟩

theorem depth_toValue (p : Platform) : p.toValue.depth ≤ 2 := by
  have := depth_stringsValue p.osFeatures
  simp only [toValue, depth_object, depthMembers_cons, depthMembers_nil, depth_string]
  omega

end Platform

/-- A `*v1.Platform`: `null` when nil. -/
def platformValue : Option Platform → Value
  | none => .null
  | some p => p.toValue

namespace Descriptor

/-- The object for a `distribution.Descriptor`. -/
def toValue (d : Descriptor) : Value :=
  .object [("mediaType", .string d.mediaType), ("size", intValue d.size),
    ("digest", .string d.digest), ("urls", stringsValue d.urls),
    ("annotations", stringMapValue d.annotations), ("platform", platformValue d.platform)]

/-- What a Go descriptor always satisfies: an `int64` size and, its annotations being a
map, distinct annotation keys. -/
def WellFormed (d : Descriptor) : Prop := IsInt64 d.size ∧ (d.annotations.map Prod.fst).Nodup

instance (d : Descriptor) : Decidable d.WellFormed := inferInstanceAs (Decidable (_ ∧ _))

theorem decode_toValue {d : Descriptor} (h : d.WellFormed) : decode .zero d.toValue = .ok d := by
  have hp : decodePointer Platform.decode Platform.zero none (platformValue d.platform) =
      .ok d.platform := by
    cases d.platform with
    | none => rfl
    | some p =>
        show (Platform.decode Platform.zero p.toValue).map some = _
        rw [Platform.decode_toValue]
        rfl
  refine decodeStruct_zip (by decide) _ _ [.string d.mediaType, intValue d.size, .string d.digest,
    stringsValue d.urls, stringMapValue d.annotations, platformValue d.platform] ?_
  simp only [fields, baseFields, zero, StructField.mk, List.cons_append, List.nil_append,
    List.zip_cons_cons, List.zip_nil_left, List.foldlM_cons, List.foldlM_nil, decodeString_string,
    decodeInt_intValue h.1, decodeSlice_stringsValue, decodeStringMap_stringMapValue h.2, hp,
    Except.map_ok_eq, Except.ok_bind]
  rfl

theorem wellFormed_toValue (d : Descriptor) : d.toValue.WellFormed := by
  refine ⟨trivial, wellFormed_intValue _, trivial, wellFormed_stringsValue _,
    wellFormed_stringMapValue _, ?_, trivial⟩
  cases d.platform with
  | none => trivial
  | some p => exact p.wellFormed_toValue

theorem depth_toValue (d : Descriptor) : d.toValue.depth ≤ 3 := by
  have h1 := depth_stringsValue d.urls
  have h2 := depth_stringMapValue d.annotations
  have h3 : (platformValue d.platform).depth ≤ 2 := by
    cases d.platform with
    | none => exact Nat.zero_le _
    | some p => exact p.depth_toValue
  simp only [toValue, depth_object, depthMembers_cons, depthMembers_nil, depth_string,
    depth_array, depth_intValue]
  omega

end Descriptor

namespace Schema2.Manifest

/-- The object for a `schema2.Manifest`, the fields of its embedded `manifest.Versioned`
promoted. -/
def toValue (m : Manifest) : Value :=
  .object [("schemaVersion", intValue m.versioned.schemaVersion),
    ("mediaType", .string m.versioned.mediaType), ("config", m.config.toValue),
    ("layers", .array (m.layers.map Descriptor.toValue))]

/-- What a Go `schema2.Manifest` always satisfies. -/
def WellFormed (m : Manifest) : Prop :=
  IsInt64 m.versioned.schemaVersion ∧ m.config.WellFormed ∧ ∀ d ∈ m.layers, d.WellFormed

instance (m : Manifest) : Decidable m.WellFormed := inferInstanceAs (Decidable (_ ∧ _ ∧ _))

theorem decode_toValue {m : Manifest} (h : m.WellFormed) : decode .zero m.toValue = .ok m := by
  refine decodeStruct_zip (by decide) _ _ [intValue m.versioned.schemaVersion,
    .string m.versioned.mediaType, m.config.toValue, .array (m.layers.map Descriptor.toValue)] ?_
  simp only [fields, zero, Versioned.fields, StructField.lift, StructField.mk, List.map_cons,
    List.map_nil, List.cons_append, List.nil_append, List.zip_cons_cons, List.zip_nil_left,
    List.foldlM_cons, List.foldlM_nil, decodeInt_intValue h.1, decodeString_string,
    Descriptor.decode_toValue h.2.1, decodeSlice_map (fun d hd => Descriptor.decode_toValue (h.2.2 d hd)),
    Except.map_ok_eq, Except.ok_bind]
  rfl

theorem wellFormed_toValue (m : Manifest) : m.toValue.WellFormed :=
  ⟨wellFormed_intValue _, trivial, m.config.wellFormed_toValue,
    elemsWellFormed_map fun d _ => d.wellFormed_toValue, trivial⟩

theorem depth_toValue (m : Manifest) : m.toValue.depth ≤ 5 := by
  have h1 := m.config.depth_toValue
  have h2 : depthElems (m.layers.map Descriptor.toValue) ≤ 3 :=
    depthElems_map_le fun d _ => d.depth_toValue
  simp only [toValue, depth_object, depthMembers_cons, depthMembers_nil, depth_string,
    depth_array, depth_intValue]
  omega

theorem unmarshal_toValue {m : Manifest} (h : m.WellFormed) {b : List UInt8}
    (hb : parse b = .ok m.toValue) : unmarshal decode .zero b = .ok m := by
  rw [unmarshal_of_parse hb, decode_toValue h]
  rfl

end Schema2.Manifest

namespace Ocischema.Manifest

/-- The object for an `ocischema.Manifest`. -/
def toValue (m : Manifest) : Value :=
  .object [("schemaVersion", intValue m.versioned.schemaVersion),
    ("mediaType", .string m.versioned.mediaType), ("config", m.config.toValue),
    ("layers", .array (m.layers.map Descriptor.toValue)),
    ("annotations", stringMapValue m.annotations)]

/-- What a Go `ocischema.Manifest` always satisfies. -/
def WellFormed (m : Manifest) : Prop :=
  IsInt64 m.versioned.schemaVersion ∧ m.config.WellFormed ∧ (∀ d ∈ m.layers, d.WellFormed) ∧
    (m.annotations.map Prod.fst).Nodup

instance (m : Manifest) : Decidable m.WellFormed := inferInstanceAs (Decidable (_ ∧ _ ∧ _ ∧ _))

theorem decode_toValue {m : Manifest} (h : m.WellFormed) : decode .zero m.toValue = .ok m := by
  refine decodeStruct_zip (by decide) _ _ [intValue m.versioned.schemaVersion,
    .string m.versioned.mediaType, m.config.toValue, .array (m.layers.map Descriptor.toValue),
    stringMapValue m.annotations] ?_
  simp only [fields, zero, Versioned.fields, StructField.lift, StructField.mk, List.map_cons,
    List.map_nil, List.cons_append, List.nil_append, List.zip_cons_cons, List.zip_nil_left,
    List.foldlM_cons, List.foldlM_nil, decodeInt_intValue h.1, decodeString_string,
    Descriptor.decode_toValue h.2.1,
    decodeSlice_map (fun d hd => Descriptor.decode_toValue (h.2.2.1 d hd)),
    decodeStringMap_stringMapValue h.2.2.2, Except.map_ok_eq, Except.ok_bind]
  rfl

theorem wellFormed_toValue (m : Manifest) : m.toValue.WellFormed :=
  ⟨wellFormed_intValue _, trivial, m.config.wellFormed_toValue,
    elemsWellFormed_map fun d _ => d.wellFormed_toValue, wellFormed_stringMapValue _, trivial⟩

theorem depth_toValue (m : Manifest) : m.toValue.depth ≤ 5 := by
  have h1 := m.config.depth_toValue
  have h2 : depthElems (m.layers.map Descriptor.toValue) ≤ 3 :=
    depthElems_map_le fun d _ => d.depth_toValue
  have h3 := depth_stringMapValue m.annotations
  simp only [toValue, depth_object, depthMembers_cons, depthMembers_nil, depth_string,
    depth_array, depth_intValue]
  omega

theorem unmarshal_toValue {m : Manifest} (h : m.WellFormed) {b : List UInt8}
    (hb : parse b = .ok m.toValue) : unmarshal decode .zero b = .ok m := by
  rw [unmarshal_of_parse hb, decode_toValue h]
  rfl

end Ocischema.Manifest

namespace Manifestlist

namespace PlatformSpec

/-- The object for a `manifestlist.PlatformSpec`. -/
def toValue (p : PlatformSpec) : Value :=
  .object [("architecture", .string p.architecture), ("os", .string p.os),
    ("os.version", .string p.osVersion), ("os.features", stringsValue p.osFeatures),
    ("variant", .string p.variant), ("features", stringsValue p.features)]

theorem decode_toValue (p : PlatformSpec) : decode .zero p.toValue = .ok p := by
  refine decodeStruct_zip (by decide) _ _ [.string p.architecture, .string p.os,
    .string p.osVersion, stringsValue p.osFeatures, .string p.variant, stringsValue p.features] ?_
  simp only [fields, StructField.mk, List.zip_cons_cons, List.zip_nil_left, List.foldlM_cons,
    List.foldlM_nil, decodeString_string, decodeSlice_stringsValue, Except.map_ok_eq,
    Except.ok_bind]
  rfl

theorem wellFormed_toValue (p : PlatformSpec) : p.toValue.WellFormed :=
  ⟨trivial, trivial, trivial, wellFormed_stringsValue _, trivial, wellFormed_stringsValue _,
    trivial⟩

theorem depth_toValue (p : PlatformSpec) : p.toValue.depth ≤ 2 := by
  have h1 := depth_stringsValue p.osFeatures
  have h2 := depth_stringsValue p.features
  simp only [toValue, depth_object, depthMembers_cons, depthMembers_nil, depth_string]
  omega

end PlatformSpec

namespace ManifestDescriptor

/-- The object for a `manifestlist.ManifestDescriptor`: the promoted fields of its
descriptor, then its own `platform`. -/
def toValue (md : ManifestDescriptor) : Value :=
  .object [("mediaType", .string md.descriptor.mediaType), ("size", intValue md.descriptor.size),
    ("digest", .string md.descriptor.digest), ("urls", stringsValue md.descriptor.urls),
    ("annotations", stringMapValue md.descriptor.annotations), ("platform", md.platform.toValue)]

/-- What a Go `ManifestDescriptor` satisfies, its shadowed `Descriptor.Platform` being the
nil pointer JSON never reaches. -/
def WellFormed (md : ManifestDescriptor) : Prop :=
  md.descriptor.WellFormed ∧ md.descriptor.platform = none

instance (md : ManifestDescriptor) : Decidable md.WellFormed := inferInstanceAs (Decidable (_ ∧ _))

theorem decode_toValue {md : ManifestDescriptor} (h : md.WellFormed) :
    decode .zero md.toValue = .ok md := by
  obtain ⟨⟨mt, size, dg, urls, ann, plat⟩, p⟩ := md
  obtain ⟨⟨hsize, hann⟩, rfl⟩ : (IsInt64 size ∧ (ann.map Prod.fst).Nodup) ∧ plat = none := h
  refine decodeStruct_zip (by decide) _ _ [.string mt, intValue size, .string dg,
    stringsValue urls, stringMapValue ann, p.toValue] ?_
  simp only [fields, zero, Descriptor.zero, Descriptor.baseFields, StructField.lift,
    StructField.mk, List.map_cons, List.map_nil, List.cons_append, List.nil_append,
    List.zip_cons_cons, List.zip_nil_left, List.foldlM_cons, List.foldlM_nil, decodeString_string,
    decodeInt_intValue hsize, decodeSlice_stringsValue, decodeStringMap_stringMapValue hann,
    PlatformSpec.decode_toValue,
    Except.map_ok_eq, Except.ok_bind]
  rfl

theorem wellFormed_toValue (md : ManifestDescriptor) : md.toValue.WellFormed :=
  ⟨trivial, wellFormed_intValue _, trivial, wellFormed_stringsValue _,
    wellFormed_stringMapValue _, md.platform.wellFormed_toValue, trivial⟩

theorem depth_toValue (md : ManifestDescriptor) : md.toValue.depth ≤ 3 := by
  have h1 := depth_stringsValue md.descriptor.urls
  have h2 := depth_stringMapValue md.descriptor.annotations
  have h3 := md.platform.depth_toValue
  simp only [toValue, depth_object, depthMembers_cons, depthMembers_nil, depth_string,
    depth_intValue]
  omega

end ManifestDescriptor

namespace ManifestList

/-- The object for a `manifestlist.ManifestList`, which is also the OCI image index. -/
def toValue (ml : ManifestList) : Value :=
  .object [("schemaVersion", intValue ml.versioned.schemaVersion),
    ("mediaType", .string ml.versioned.mediaType),
    ("manifests", .array (ml.manifests.map ManifestDescriptor.toValue))]

/-- What a Go `manifestlist.ManifestList` always satisfies. -/
def WellFormed (ml : ManifestList) : Prop :=
  IsInt64 ml.versioned.schemaVersion ∧ ∀ md ∈ ml.manifests, md.WellFormed

instance (ml : ManifestList) : Decidable ml.WellFormed := inferInstanceAs (Decidable (_ ∧ _))

theorem decode_toValue {ml : ManifestList} (h : ml.WellFormed) :
    decode .zero ml.toValue = .ok ml := by
  refine decodeStruct_zip (by decide) _ _ [intValue ml.versioned.schemaVersion,
    .string ml.versioned.mediaType, .array (ml.manifests.map ManifestDescriptor.toValue)] ?_
  simp only [fields, zero, Versioned.fields, StructField.lift, StructField.mk, List.map_cons,
    List.map_nil, List.cons_append, List.nil_append, List.zip_cons_cons, List.zip_nil_left,
    List.foldlM_cons, List.foldlM_nil, decodeInt_intValue h.1, decodeString_string,
    decodeSlice_map (fun md hmd => ManifestDescriptor.decode_toValue (h.2 md hmd)),
    Except.map_ok_eq, Except.ok_bind]
  rfl

theorem wellFormed_toValue (ml : ManifestList) : ml.toValue.WellFormed :=
  ⟨wellFormed_intValue _, trivial, elemsWellFormed_map fun md _ => md.wellFormed_toValue, trivial⟩

theorem depth_toValue (ml : ManifestList) : ml.toValue.depth ≤ 5 := by
  have h : depthElems (ml.manifests.map ManifestDescriptor.toValue) ≤ 3 :=
    depthElems_map_le fun md _ => md.depth_toValue
  simp only [toValue, depth_object, depthMembers_cons, depthMembers_nil, depth_string,
    depth_array, depth_intValue]
  omega

theorem unmarshal_toValue {ml : ManifestList} (h : ml.WellFormed) {b : List UInt8}
    (hb : parse b = .ok ml.toValue) : unmarshal decode .zero b = .ok ml := by
  rw [unmarshal_of_parse hb, decode_toValue h]
  rfl

end ManifestList

end Manifestlist

/-! ## The unmarshal functions on these encodings -/

theorem schema2Func_toValue {m : Schema2.Manifest} (h : m.WellFormed)
    (hmt : m.versioned.mediaType = mediaTypeManifest) {b : List UInt8}
    (hb : parse b = .ok m.toValue) :
    schema2Func b = .ok (.schema2 ⟨m, b⟩, .ofBytes mediaTypeManifest b) :=
  schema2Func_eq_ok.mpr ⟨m, Schema2.Manifest.unmarshal_toValue h hb, hmt, rfl, rfl⟩

/-- The shape check of `ocischema` passes on a manifest, which has no `manifests`. -/
theorem Ocischema.validateManifest_toValue (m : Ocischema.Manifest) {b : List UInt8}
    (hb : parse b = .ok m.toValue) : Ocischema.validateManifest b = .ok () := by
  have hdec : decodeStruct "unknownDocument" "ocischema.unknownDocument"
      Ocischema.unknownDocumentFields false m.toValue = .ok false :=
    decodeStruct_of_unknown_keys _ _ _ (by simp only [List.map_cons, List.map_nil]; decide)
  simp only [validateManifest, unmarshal_of_parse hb, hdec, Except.mapError_ok, Except.ok_bind]
  rfl

/-- The shape check of `ocischema` rejects bytes read as an object that ends in a
`manifests` array after members of other names: the array leaves the `interface{}` it
decodes into non-nil. -/
theorem Ocischema.validateManifest_manifests {b : List UInt8} {ms : List (String × Value)}
    {es : List Value} (hms : ∀ k ∈ ms.map Prod.fst, foldEq k "manifests" = false)
    (hb : parse b = .ok (.object (ms ++ [("manifests", .array es)]))) :
    Ocischema.validateManifest b ≠ .ok () := by
  intro hv
  obtain ⟨found, hfound, hif⟩ := Except.bind_eq_ok.mp hv
  rw [Except.mapError_eq_ok, unmarshal_of_parse hb, Except.mapError_eq_ok,
    decodeStruct_unknown_append _ _ _ ms fun k hk f hf => (List.mem_singleton.mp hf) ▸ hms k hk]
    at hfound
  simp only [decodeStruct, List.foldlM_cons, List.foldlM_nil, setByName, unknownDocumentFields,
    List.find?_cons, StructField.mk, foldEq, beq_self_eq_true, id, Except.bind_eq_ok,
    Except.mapError_eq_ok,
    Except.map_eq_ok, Except.pure_eq_ok, Except.ok.injEq] at hfound
  obtain ⟨_, ⟨_, hi, rfl⟩, rfl⟩ := hfound
  rw [decodeInterface_eq_ok hi Value.noConfusion] at hif
  cases hif

/-- The shape check of `ocischema` rejects every manifest list. -/
theorem Ocischema.validateManifest_manifestList (ml : Manifestlist.ManifestList)
    {b : List UInt8} (hb : parse b = .ok ml.toValue) : Ocischema.validateManifest b ≠ .ok () :=
  Ocischema.validateManifest_manifests (by simp only [List.map_cons, List.map_nil]; decide)
    (show parse b = .ok (.object ([_, _] ++ [_])) from hb)

theorem ocischemaFunc_toValue {m : Ocischema.Manifest} (h : m.WellFormed)
    (hmt : m.versioned.mediaType = "" ∨ m.versioned.mediaType = mediaTypeImageManifest)
    {b : List UInt8} (hb : parse b = .ok m.toValue) :
    ocischemaFunc b = .ok (.ocischema ⟨m, b⟩, .ofBytes mediaTypeImageManifest b) :=
  ocischemaFunc_eq_ok.mpr ⟨Ocischema.validateManifest_toValue m hb, m,
    Ocischema.Manifest.unmarshal_toValue h hb, hmt, rfl, rfl⟩

/-- The shape check of an index passes on a manifest list, which has neither `config`
nor `layers`. -/
theorem Manifestlist.validateIndex_toValue (ml : ManifestList) {b : List UInt8}
    (hb : parse b = .ok ml.toValue) : validateIndex b = .ok () := by
  have hdec : decodeStruct "unknownDocument" "manifestlist.unknownDocument"
      Manifestlist.unknownDocumentFields (false, false) ml.toValue =
      .ok (false, false) :=
    decodeStruct_of_unknown_keys _ _ _ (by simp only [List.map_cons, List.map_nil]; decide)
  simp only [validateIndex, unmarshal_of_parse hb, hdec, Except.mapError_ok, Except.ok_bind]
  rfl

theorem manifestListFunc_toValue {ml : Manifestlist.ManifestList} (h : ml.WellFormed)
    (hmt : ml.versioned.mediaType = mediaTypeManifestList) {b : List UInt8}
    (hb : parse b = .ok ml.toValue) :
    manifestListFunc b = .ok (.manifestList ⟨ml, b⟩, .ofBytes mediaTypeManifestList b) :=
  manifestListFunc_eq_ok.mpr ⟨Manifestlist.validateIndex_toValue ml hb, ml,
    Manifestlist.ManifestList.unmarshal_toValue h hb, hmt, rfl, rfl⟩

theorem imageIndexFunc_toValue {ml : Manifestlist.ManifestList} (h : ml.WellFormed)
    (hmt : ml.versioned.mediaType = "" ∨ ml.versioned.mediaType = mediaTypeImageIndex)
    {b : List UInt8} (hb : parse b = .ok ml.toValue) :
    imageIndexFunc b = .ok (.manifestList ⟨ml, b⟩, .ofBytes mediaTypeImageIndex b) :=
  imageIndexFunc_eq_ok.mpr ⟨Manifestlist.validateIndex_toValue ml hb, ml,
    Manifestlist.ManifestList.unmarshal_toValue h hb, hmt, rfl, rfl⟩

/-! ## Decoding builds well-formed values -/

theorem Versioned.isInt64_of_decode {cur w : Versioned} {v : Value}
    (hcur : IsInt64 cur.schemaVersion) (h : Versioned.decode cur v = .ok w) :
    IsInt64 w.schemaVersion := by
  refine decodeStruct_inv (P := fun w : Versioned => IsInt64 w.schemaVersion) ?_ h hcur
  simp only [Versioned.fields, List.mem_cons, List.mem_singleton, List.not_mem_nil, or_false]
  rintro f (rfl | rfl) s v s' hs hf <;> obtain ⟨x, hx, rfl⟩ := StructField.mk_ok hf
  · exact decodeInt_isInt64 hs hx
  · exact hs

/-- The fields other than `platform` keep a descriptor well-formed and leave its platform. -/
theorem Descriptor.baseFields_keep : ∀ f ∈ Descriptor.baseFields, ∀ s v s', s.WellFormed →
    f.2 s v = .ok s' → s'.WellFormed ∧ s'.platform = s.platform := by
  simp only [Descriptor.baseFields, List.mem_cons, List.mem_singleton, List.not_mem_nil, or_false]
  rintro f (rfl | rfl | rfl | rfl | rfl) s v s' hs hf <;>
    obtain ⟨x, hx, rfl⟩ := StructField.mk_ok hf
  · exact ⟨hs, rfl⟩
  · exact ⟨⟨decodeInt_isInt64 hs.1 hx, hs.2⟩, rfl⟩
  · exact ⟨hs, rfl⟩
  · exact ⟨hs, rfl⟩
  · exact ⟨⟨hs.1, decodeStringMap_nodup hs.2 hx⟩, rfl⟩

theorem Descriptor.wellFormed_of_decode {cur d : Descriptor} {v : Value} (hcur : cur.WellFormed)
    (h : Descriptor.decode cur v = .ok d) : d.WellFormed := by
  refine decodeStruct_inv (P := Descriptor.WellFormed) (fun f hf s v s' hs hs' => ?_) h hcur
  rcases List.mem_append.mp hf with hf | hf
  · exact (Descriptor.baseFields_keep f hf s v s' hs hs').1
  · rw [List.mem_singleton] at hf
    subst hf
    obtain ⟨x, -, rfl⟩ := StructField.mk_ok hs'
    exact hs

theorem Schema2.Manifest.wellFormed_of_decode {m : Schema2.Manifest} {v : Value}
    (h : Schema2.Manifest.decode .zero v = .ok m) : m.WellFormed := by
  refine ⟨Versioned.isInt64_of_decode (by decide) (decode_versioned h),
    decodeStruct_inv (P := fun m : Manifest => m.config.WellFormed ∧ ∀ d ∈ m.layers, d.WellFormed)
      (fun f hf s v s' hs hs' => ?_) h ⟨by decide, fun _ h => absurd h (List.not_mem_nil _)⟩⟩
  rcases List.mem_append.mp hf with hf | hf
  · obtain ⟨y, rfl⟩ := StructField.exists_of_lift_ok hf hs'
    exact hs
  · simp only [List.mem_cons, List.mem_singleton, List.not_mem_nil, or_false] at hf
    rcases hf with rfl | rfl <;> obtain ⟨x, hx, rfl⟩ := StructField.mk_ok hs'
    · exact ⟨Descriptor.wellFormed_of_decode hs.1 hx, hs.2⟩
    · exact ⟨hs.1, forall_mem_of_decodeSlice
        (fun _ _ h => Descriptor.wellFormed_of_decode (by decide) h) hx⟩

theorem Ocischema.Manifest.wellFormed_of_decode {m : Ocischema.Manifest} {v : Value}
    (h : Ocischema.Manifest.decode .zero v = .ok m) : m.WellFormed := by
  refine ⟨Versioned.isInt64_of_decode (by decide) (decode_versioned h),
    decodeStruct_inv (P := fun m : Manifest => m.config.WellFormed ∧
      (∀ d ∈ m.layers, d.WellFormed) ∧ (m.annotations.map Prod.fst).Nodup)
      (fun f hf s v s' hs hs' => ?_) h
      ⟨by decide, fun _ h => absurd h (List.not_mem_nil _), List.nodup_nil⟩⟩
  rcases List.mem_append.mp hf with hf | hf
  · obtain ⟨y, rfl⟩ := StructField.exists_of_lift_ok hf hs'
    exact hs
  · simp only [List.mem_cons, List.mem_singleton, List.not_mem_nil, or_false] at hf
    rcases hf with rfl | rfl | rfl <;> obtain ⟨x, hx, rfl⟩ := StructField.mk_ok hs'
    · exact ⟨Descriptor.wellFormed_of_decode hs.1 hx, hs.2⟩
    · exact ⟨hs.1, forall_mem_of_decodeSlice
        (fun _ _ h => Descriptor.wellFormed_of_decode (by decide) h) hx, hs.2.2⟩
    · exact ⟨hs.1, hs.2.1, decodeStringMap_nodup hs.2.2 hx⟩

theorem Manifestlist.ManifestDescriptor.wellFormed_of_decode {md : Manifestlist.ManifestDescriptor}
    {v : Value} (h : Manifestlist.ManifestDescriptor.decode .zero v = .ok md) : md.WellFormed := by
  refine decodeStruct_inv (P := ManifestDescriptor.WellFormed) (fun f hf s v s' hs hs' => ?_) h
    ⟨by decide, rfl⟩
  rcases List.mem_append.mp hf with hf | hf
  · obtain ⟨g, hg, rfl⟩ := List.mem_map.mp hf
    obtain ⟨y, hy, rfl⟩ := Except.map_eq_ok.mp hs'
    obtain ⟨hwf, hpl⟩ := Descriptor.baseFields_keep g hg _ _ _ hs.1 hy
    exact ⟨hwf, hpl.trans hs.2⟩
  · rw [List.mem_singleton] at hf
    subst hf
    obtain ⟨x, -, rfl⟩ := StructField.mk_ok hs'
    exact hs

theorem Manifestlist.ManifestList.wellFormed_of_decode {ml : Manifestlist.ManifestList} {v : Value}
    (h : Manifestlist.ManifestList.decode .zero v = .ok ml) : ml.WellFormed := by
  refine ⟨Versioned.isInt64_of_decode (by decide) (decode_versioned h),
    decodeStruct_inv (P := fun ml : ManifestList => ∀ md ∈ ml.manifests, md.WellFormed)
      (fun f hf s v s' hs hs' => ?_) h fun _ h => absurd h (List.not_mem_nil _)⟩
  rcases List.mem_append.mp hf with hf | hf
  · obtain ⟨y, rfl⟩ := StructField.exists_of_lift_ok hf hs'
    exact hs
  · rw [List.mem_singleton] at hf
    subst hf
    obtain ⟨x, hx, rfl⟩ := StructField.mk_ok hs'
    exact forall_mem_of_decodeSlice (fun _ _ h => ManifestDescriptor.wellFormed_of_decode h) hx

end Kraken.Distribution
