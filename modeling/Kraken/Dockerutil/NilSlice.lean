import Kraken.Dockerutil.Complete

/-!
# Nil slices

`json.Marshal` writes a nil slice as `null`. The layers of an image manifest and the
manifests of a list are the slices the manifest structs write even when empty, and they are
nil in a struct that never had them set. `Document.marshal` writes them allocated, as
`distribution`'s builders make them; `Document.marshalNil` writes them nil.

`encoding/json` reads `null` back as a nil slice, so `ParseManifest` reads a document with a
nil slice back as itself (`parseManifest_reads_nil_slice`), with one exception. An index
that declares no media type and has no `manifests` array passes the shape check of
`ocischema`, and the OCI image manifest parser, which the chain tries first, reads it as an
image manifest with no config and no layers whenever its schema version is 2. The
references of that manifest then fail to parse, since its config names no digest.
-/

namespace Kraken

namespace Distribution

open Json

/-- `json.Marshal` of a `schema2.Manifest` whose `Layers` slice is nil. -/
def Schema2.Manifest.marshalNil (m : Schema2.Manifest) : Value :=
  .object (m.versioned.members ++ [("config", m.config.marshal), ("layers", .null)])

/-- `json.Marshal` of an `ocischema.Manifest` whose `Layers` slice is nil. -/
def Ocischema.Manifest.marshalNil (m : Ocischema.Manifest) : Value :=
  .object (m.versioned.members ++ ("config", m.config.marshal) :: ("layers", .null) ::
    omitEmpty (m.annotations = []) "annotations" (stringMapValue m.annotations))

/-- `json.Marshal` of a `manifestlist.ManifestList` whose `Manifests` slice is nil. -/
def Manifestlist.ManifestList.marshalNil (ml : Manifestlist.ManifestList) : Value :=
  .object (ml.versioned.members ++ [("manifests", .null)])

/-! ## Decoding the objects with `null` -/

theorem Schema2.Manifest.decode_marshalNil {m : Schema2.Manifest} (h : m.WellFormed)
    (hl : m.layers = []) : decode .zero m.marshalNil = .ok m := by
  obtain ⟨⟨sv, mt⟩, c, ls⟩ := m
  obtain ⟨hsv, hc, -⟩ := h
  subst hl
  simp only [decode, marshalNil, Versioned.members, List.append_assoc, List.cons_append]
  rw [decodeStruct_cons (setByName_of_find (by rfl)
      (by simp only [StructField.mk, decodeInt_intValue hsv, Except.map_ok_eq]; rfl)),
    decodeStruct_omitEmpty (fun _ => by rfl) (by rintro rfl; rfl),
    decodeStruct_cons (setByName_of_find (by rfl)
      (by exact StructField.mk_eq_ok (Descriptor.decode_marshal hc))),
    decodeStruct_cons (setByName_of_find (by rfl) (by rfl))]
  rfl

theorem Ocischema.Manifest.decode_marshalNil {m : Ocischema.Manifest} (h : m.WellFormed)
    (hl : m.layers = []) : decode .zero m.marshalNil = .ok m := by
  obtain ⟨⟨sv, mt⟩, c, ls, ann⟩ := m
  obtain ⟨hsv, hc, -, hann⟩ := h
  subst hl
  simp only [decode, marshalNil, Versioned.members, List.append_assoc, List.cons_append]
  rw [decodeStruct_cons (setByName_of_find (by rfl)
      (by simp only [StructField.mk, decodeInt_intValue hsv, Except.map_ok_eq]; rfl)),
    decodeStruct_omitEmpty (fun _ => by rfl) (by rintro rfl; rfl),
    decodeStruct_cons (setByName_of_find (by rfl)
      (by exact StructField.mk_eq_ok (Descriptor.decode_marshal hc))),
    decodeStruct_cons (setByName_of_find (by rfl) (by rfl)),
    decodeStruct_omitEmpty_last (fun _ => setByName_of_find (by rfl)
      (StructField.mk_eq_ok (decodeStringMap_stringMapValue hann))) (by rintro rfl; rfl)]

theorem Manifestlist.ManifestList.decode_marshalNil {ml : Manifestlist.ManifestList}
    (h : ml.WellFormed) (hl : ml.manifests = []) : decode .zero ml.marshalNil = .ok ml := by
  obtain ⟨⟨sv, mt⟩, mds⟩ := ml
  obtain ⟨hsv, -⟩ := h
  subst hl
  simp only [decode, marshalNil, Versioned.members, List.append_assoc, List.cons_append]
  rw [decodeStruct_cons (setByName_of_find (by rfl)
      (by simp only [StructField.mk, decodeInt_intValue hsv, Except.map_ok_eq]; rfl)),
    decodeStruct_omitEmpty (fun _ => by rfl) (by rintro rfl; rfl),
    decodeStruct_cons (setByName_of_find (by rfl) (by rfl))]
  rfl

/-- An OCI image manifest decoded from a list with nil manifests: its header, and nothing
else, since `ocischema.Manifest` has no field `manifests`. -/
theorem Manifestlist.ManifestList.decode_image_marshalNil {ml : Manifestlist.ManifestList}
    (h : ml.WellFormed) :
    Ocischema.Manifest.decode .zero ml.marshalNil = .ok ⟨ml.versioned, .zero, [], []⟩ := by
  obtain ⟨⟨sv, mt⟩, mds⟩ := ml
  obtain ⟨hsv, -⟩ := h
  simp only [marshalNil, Ocischema.Manifest.decode, Versioned.members, List.append_assoc,
    List.cons_append]
  rw [decodeStruct_cons (setByName_of_find (by rfl)
      (by simp only [StructField.mk, decodeInt_intValue hsv, Except.map_ok_eq]; rfl)),
    decodeStruct_omitEmpty (fun _ => by rfl) (by rintro rfl; rfl),
    decodeStruct_cons (by rfl)]
  rfl

/-! ## The shape checks on them -/

theorem Ocischema.validateManifest_marshalNil (m : Ocischema.Manifest) {b : List UInt8}
    (hb : parse b = .ok m.marshalNil) : Ocischema.validateManifest b = .ok () := by
  have hdec : decodeStruct "unknownDocument" "ocischema.unknownDocument"
      Ocischema.unknownDocumentFields false m.marshalNil = .ok false := by
    simp only [Ocischema.Manifest.marshalNil, Versioned.members, List.append_assoc,
      List.cons_append]
    rw [decodeStruct_cons (by rfl), decodeStruct_omitEmpty (fun _ => by rfl) (fun _ => rfl),
      decodeStruct_cons (by rfl), decodeStruct_cons (by rfl),
      decodeStruct_omitEmpty_last (fun _ => by rfl) (fun _ => rfl)]
  simp only [validateManifest, unmarshal_of_parse hb, hdec, Except.mapError_ok, Except.ok_bind]
  rfl

/-- The shape check of `ocischema` passes on a list whose `manifests` is `null`: the
`interface{}` it decodes into stays nil. -/
theorem Ocischema.validateManifest_manifestList_marshalNil (ml : Manifestlist.ManifestList)
    {b : List UInt8} (hb : parse b = .ok ml.marshalNil) :
    Ocischema.validateManifest b = .ok () := by
  have hdec : decodeStruct "unknownDocument" "ocischema.unknownDocument"
      Ocischema.unknownDocumentFields false ml.marshalNil = .ok false := by
    simp only [Manifestlist.ManifestList.marshalNil, Versioned.members, List.append_assoc,
      List.cons_append]
    rw [decodeStruct_cons (by rfl), decodeStruct_omitEmpty (fun _ => by rfl) (fun _ => rfl),
      decodeStruct_cons (by rfl)]
    rfl
  simp only [validateManifest, unmarshal_of_parse hb, hdec, Except.mapError_ok, Except.ok_bind]
  rfl

theorem Manifestlist.validateIndex_marshalNil (ml : ManifestList) {b : List UInt8}
    (hb : parse b = .ok ml.marshalNil) : validateIndex b = .ok () := by
  have hdec : decodeStruct "unknownDocument" "manifestlist.unknownDocument"
      Manifestlist.unknownDocumentFields (false, false) ml.marshalNil = .ok (false, false) := by
    simp only [ManifestList.marshalNil, Versioned.members, List.append_assoc, List.cons_append]
    rw [decodeStruct_cons (by rfl), decodeStruct_omitEmpty (fun _ => by rfl) (fun _ => rfl),
      decodeStruct_cons (by rfl)]
    rfl
  simp only [validateIndex, unmarshal_of_parse hb, hdec, Except.mapError_ok, Except.ok_bind]
  rfl

/-! ## The unmarshal functions on them -/

theorem schema2Func_marshalNil {m : Schema2.Manifest} (h : m.WellFormed) (hl : m.layers = [])
    (hmt : m.versioned.mediaType = mediaTypeManifest) {b : List UInt8}
    (hb : parse b = .ok m.marshalNil) :
    schema2Func b = .ok (.schema2 ⟨m, b⟩, .ofBytes mediaTypeManifest b) :=
  schema2Func_eq_ok.mpr ⟨m,
    by rw [unmarshal_of_parse hb, Schema2.Manifest.decode_marshalNil h hl]; rfl, hmt, rfl, rfl⟩

theorem ocischemaFunc_marshalNil {m : Ocischema.Manifest} (h : m.WellFormed)
    (hl : m.layers = [])
    (hmt : m.versioned.mediaType = "" ∨ m.versioned.mediaType = mediaTypeImageManifest)
    {b : List UInt8} (hb : parse b = .ok m.marshalNil) :
    ocischemaFunc b = .ok (.ocischema ⟨m, b⟩, .ofBytes mediaTypeImageManifest b) :=
  ocischemaFunc_eq_ok.mpr ⟨Ocischema.validateManifest_marshalNil m hb, m,
    by rw [unmarshal_of_parse hb, Ocischema.Manifest.decode_marshalNil h hl]; rfl, hmt, rfl, rfl⟩

theorem manifestListFunc_marshalNil {ml : Manifestlist.ManifestList} (h : ml.WellFormed)
    (hl : ml.manifests = []) (hmt : ml.versioned.mediaType = mediaTypeManifestList)
    {b : List UInt8} (hb : parse b = .ok ml.marshalNil) :
    manifestListFunc b = .ok (.manifestList ⟨ml, b⟩, .ofBytes mediaTypeManifestList b) :=
  manifestListFunc_eq_ok.mpr ⟨Manifestlist.validateIndex_marshalNil ml hb, ml,
    by rw [unmarshal_of_parse hb, Manifestlist.ManifestList.decode_marshalNil h hl]; rfl, hmt,
    rfl, rfl⟩

theorem imageIndexFunc_marshalNil {ml : Manifestlist.ManifestList} (h : ml.WellFormed)
    (hl : ml.manifests = [])
    (hmt : ml.versioned.mediaType = "" ∨ ml.versioned.mediaType = mediaTypeImageIndex)
    {b : List UInt8} (hb : parse b = .ok ml.marshalNil) :
    imageIndexFunc b = .ok (.manifestList ⟨ml, b⟩, .ofBytes mediaTypeImageIndex b) :=
  imageIndexFunc_eq_ok.mpr ⟨Manifestlist.validateIndex_marshalNil ml hb, ml,
    by rw [unmarshal_of_parse hb, Manifestlist.ManifestList.decode_marshalNil h hl]; rfl, hmt,
    rfl, rfl⟩

/-- The OCI image manifest unmarshal function accepts a list with nil manifests that declares
no media type, as an image manifest with the list's header. -/
theorem ocischemaFunc_manifestList_marshalNil {ml : Manifestlist.ManifestList}
    (h : ml.WellFormed) (hmt : ml.versioned.mediaType = "") {b : List UInt8}
    (hb : parse b = .ok ml.marshalNil) :
    ocischemaFunc b =
      .ok (.ocischema ⟨⟨ml.versioned, .zero, [], []⟩, b⟩, .ofBytes mediaTypeImageManifest b) :=
  ocischemaFunc_eq_ok.mpr ⟨Ocischema.validateManifest_manifestList_marshalNil ml hb, _,
    by rw [unmarshal_of_parse hb, Manifestlist.ManifestList.decode_image_marshalNil h]; rfl,
    .inl hmt, rfl, rfl⟩

end Distribution

namespace Dockerutil

open Json Distribution Core Variant

namespace Document

/-- The object `json.Marshal` writes for the document when its layers or manifests slice is
nil. -/
def marshalNil : Document → Value
  | v2Manifest m => m.marshalNil
  | ociManifest m => m.marshalNil
  | v2ManifestList ml | ociIndex ml => ml.marshalNil

/-- The document's layers or manifests are empty, as a nil slice's are. -/
def SliceEmpty : Document → Prop
  | v2Manifest m => m.layers = []
  | ociManifest m => m.layers = []
  | v2ManifestList ml | ociIndex ml => ml.manifests = []

instance : (d : Document) → Decidable d.SliceEmpty
  | v2Manifest m => inferInstanceAs (Decidable (m.layers = []))
  | ociManifest m => inferInstanceAs (Decidable (m.layers = []))
  | v2ManifestList ml => inferInstanceAs (Decidable (ml.manifests = []))
  | ociIndex ml => inferInstanceAs (Decidable (ml.manifests = []))

/-- The unmarshal function of the document's kind accepts bytes read as the object with a nil
slice. -/
theorem func_document_marshalNil {d : Document} (hwf : d.WellFormed) (hh : d.HeaderOk)
    (hnil : d.SliceEmpty) {b : List UInt8} (hb : parse b = .ok d.marshalNil) :
    d.variant.func b = .ok (d.manifest b, .ofBytes d.variant.mediaType b) := by
  cases d with
  | v2Manifest m => exact schema2Func_marshalNil hwf hnil hh.1 hb
  | ociManifest m => exact ocischemaFunc_marshalNil hwf hnil hh.1 hb
  | v2ManifestList ml => exact manifestListFunc_marshalNil hwf hnil hh.1 hb
  | ociIndex ml => exact imageIndexFunc_marshalNil hwf hnil hh.1 hb

/-- A header of schema version 2 that declares no media type. -/
theorem eq_of_version_mediaType {v : Versioned} (h₁ : v.schemaVersion = 2)
    (h₂ : v.mediaType = "") : v = ⟨2, ""⟩ := by
  cases v
  cases h₁
  cases h₂
  rfl

/-- `ParseManifest` reads a document whose layers or manifests slice is nil back from any
bytes the scanner reads as the object `json.Marshal` writes for it, with `null` for that
slice, except an index that declares no media type and has schema version 2. That one it
reads as an OCI image manifest with the index's header, no config and no layers, and
`GetManifestReferences` of it fails on the config's empty digest. -/
theorem parseManifest_reads_nil_slice (d : Document) (hwf : d.WellFormed) (hh : d.HeaderOk)
    (hnil : d.SliceEmpty) {b : List UInt8} (hb : parse b = .ok d.marshalNil) :
    ((∀ ml, d = .ociIndex ml → ml.versioned ≠ ⟨2, ""⟩) →
      parseManifest (.ofBytes b) = .ok (d.manifest b, Digest.ofBytes b)) ∧
    ∀ ml, d = .ociIndex ml → ml.versioned = ⟨2, ""⟩ →
      parseManifest (.ofBytes b) =
          .ok (.ocischema ⟨⟨ml.versioned, .zero, [], []⟩, b⟩, Digest.ofBytes b) ∧
        getManifestReferences (.ocischema ⟨⟨ml.versioned, .zero, [], []⟩, b⟩) =
          .error (.wrap "parse digest" (.text "invalid digest: ")) := by
  have hf := func_document_marshalNil hwf hh hnil hb
  refine ⟨fun hne => parseManifest_of_func hh hf fun ml hd hmt => ?_, fun ml hd hv => ?_⟩
  · -- the image manifest parser would read the index's own header, not of version 2
    subst hd
    cases hp : Variant.ociManifest.parse b with
    | error => rfl
    | ok res =>
        have hacc := accepted hp
        obtain ⟨desc, hfo⟩ := hacc.func
        have hsame : res.1.versioned = ml.versioned := versioned_eq_of_func hfo hf
        have hmt' : ml.versioned.mediaType = "" := by
          rw [declaredMediaType, func_versioned hf] at hmt
          exact Except.ok.inj hmt
        have h2 : ml.versioned.schemaVersion = 2 := by
          rw [← hsame]
          exact hacc.version nofun
        exact absurd (eq_of_version_mediaType h2 hmt') (hne ml rfl)
  · subst hd
    have hdecl : declaredMediaType b = .ok "" := by
      rw [declaredMediaType, func_versioned hf]
      exact congrArg (Except.ok ∘ Versioned.mediaType) hv
    have hoci : Variant.ociManifest.parse b =
        .ok (.ocischema ⟨⟨ml.versioned, .zero, [], []⟩, b⟩, Digest.ofBytes b) :=
      parseVersioned_eq_ok.mpr ⟨_, ml.versioned, (unmarshalManifest_mediaTypeImageManifest _).trans
        (ocischemaFunc_manifestList_marshalNil hwf (by rw [hv]) hb), rfl, by rw [hv],
        parseSHA256Digest_fromBytes _⟩
    have hv2 : ∀ w ∈ [Variant.v2Manifest], (w.parse b).toOption = none := fun w hw => by
      rw [List.mem_singleton.mp hw]
      exact parse_fail_of_not_admits hdecl (by decide)
    exact ⟨(parseManifest_eq_fallback (r := .ofBytes b) rfl).trans
      (fallback_eq_ok [Variant.v2Manifest] _ hv2 hoci), rfl⟩

/-- An index with no media type, as `json.Marshal` writes it while its `Manifests` is nil. -/
def nilIndex : Document := .ociIndex ⟨⟨2, ""⟩, []⟩

def nilIndexPayload : List UInt8 := bytesOf "\x7b\"schemaVersion\":2,\"manifests\":null\x7d"

theorem parseManifest_reads_nil_slice_nilIndex :
    nilIndex.WellFormed ∧ nilIndex.HeaderOk ∧ nilIndex.SliceEmpty ∧
      parse nilIndexPayload = .ok nilIndex.marshalNil ∧
      parseManifest (.ofBytes nilIndexPayload) =
        .ok (.ocischema ⟨⟨⟨2, ""⟩, .zero, [], []⟩, nilIndexPayload⟩,
          Digest.ofBytes nilIndexPayload) ∧
      getManifestReferences (.ocischema ⟨⟨⟨2, ""⟩, .zero, [], []⟩, nilIndexPayload⟩) =
        .error (.wrap "parse digest" (.text "invalid digest: ")) :=
  ⟨by decide, by decide, rfl, rfl,
    (parseManifest_reads_nil_slice nilIndex (by decide) (by decide) rfl (b := nilIndexPayload)
      rfl).2 _ rfl rfl⟩

end Document

end Dockerutil

end Kraken
