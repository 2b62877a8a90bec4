import Kraken.Distribution.Marshal
import Kraken.Json.Layout

/-!
# The bytes `docker/distribution` writes for a manifest

`json.Marshal` of each manifest struct, as its struct tags have it: the fields in
declaration order, an embedded struct's fields promoted in its place, a field tagged
`omitempty` left out when its value is empty (`omitEmpty`). Every field of `Descriptor` is
`omitempty`, as are the media type of `Versioned`, the optional parts of a platform and
the annotations of an OCI manifest; the schema version, the config and the list of layers
or manifests are always written, a list as the array of its elements. These are the objects of
structs whose layers or manifests slice is allocated, as `distribution`'s builders make them;
`Dockerutil.NilSlice` writes a nil one as `null`. `distribution`
keeps `json.MarshalIndent(m, "", "   ")` of a manifest as its canonical bytes: this
object written under `canonicalSpacing`, each string as `appendString` writes it with
`<`, `>` and `&` escaped (`Document.canonical`).

Decoding the object into the struct's zero value gives the struct back (`decode_marshal`):
each member sets its field, and a member left out leaves the zero value there, which is
the empty value the field had. So the unmarshal functions accept any bytes the scanner
reads as these objects, and the shape checks of the OCI types pass or fail on them as on
`Distribution.Marshal`'s objects.
-/

namespace Kraken.Distribution

open Json

/-- The spacing of `json.MarshalIndent(m, "", "   ")`, which `distribution` uses for the
canonical bytes of every manifest it builds. -/
def canonicalSpacing : Spacing := indentSpacing [] [0x20, 0x20, 0x20]

theorem blank_canonicalSpacing : ∀ g d, Blank (canonicalSpacing g d) :=
  blank_indentSpacing (by decide) (by decide)

/-- The members of an embedded `manifest.Versioned`: the schema version, then the media
type unless empty. -/
def Versioned.members (v : Versioned) : List (String × Value) :=
  ("schemaVersion", intValue v.schemaVersion) ::
    omitEmpty (v.mediaType = "") "mediaType" (.string v.mediaType)

namespace Platform

/-- `json.Marshal` of a `v1.Platform`. -/
def marshal (p : Platform) : Value :=
  .object (("architecture", .string p.architecture) :: ("os", .string p.os) ::
    omitEmpty (p.osVersion = "") "os.version" (.string p.osVersion) ++
    omitEmpty (p.osFeatures = []) "os.features" (stringsValue p.osFeatures) ++
    omitEmpty (p.variant = "") "variant" (.string p.variant))

theorem decode_marshal (p : Platform) : decode .zero p.marshal = .ok p := by
  obtain ⟨a, o, ov, of, va⟩ := p
  simp only [decode, marshal, List.append_assoc, List.cons_append]
  rw [decodeStruct_cons (by rfl), decodeStruct_cons (by rfl),
    decodeStruct_omitEmpty (fun _ => by rfl) (by rintro rfl; rfl),
    decodeStruct_omitEmpty (fun _ => setByName_of_find (by rfl)
      (StructField.mk_eq_ok (decodeSlice_stringsValue _ _ _))) (by rintro rfl; rfl),
    decodeStruct_omitEmpty_last (fun _ => by rfl) (by rintro rfl; rfl)]

theorem wellFormed_marshal (p : Platform) : p.marshal.WellFormed :=
  membersWellFormed_iff.mpr <| by
    simp only [marshal, List.forall_mem_append, List.forall_mem_cons, forall_mem_omitEmpty]
    simp [wellFormed_stringsValue]

theorem depth_marshal (p : Platform) : p.marshal.depth ≤ 2 :=
  Nat.succ_le_succ <| depthMembers_le_iff.mpr <| by
    simp only [marshal, List.forall_mem_append, List.forall_mem_cons, forall_mem_omitEmpty]
    simp [depth_stringsValue]

theorem wellFormed_pointerValue : ∀ o : Option Platform, (pointerValue marshal o).WellFormed
  | none => trivial
  | some p => p.wellFormed_marshal

theorem depth_pointerValue : ∀ o : Option Platform, (pointerValue marshal o).depth ≤ 2
  | none => Nat.zero_le _
  | some p => p.depth_marshal

theorem decodePointer_marshal (o : Option Platform) :
    decodePointer decode .zero none (pointerValue marshal o) = .ok o := by
  cases o with
  | none => rfl
  | some p =>
      show (decode .zero p.marshal).map some = _
      rw [decode_marshal]
      rfl

end Platform

namespace Descriptor

/-- The members of a `distribution.Descriptor` other than `platform`, which
`ManifestDescriptor` shadows; every one is `omitempty`. -/
def baseMembers (d : Descriptor) : List (String × Value) :=
  omitEmpty (d.mediaType = "") "mediaType" (.string d.mediaType) ++
    omitEmpty (d.size = 0) "size" (intValue d.size) ++
    omitEmpty (d.digest = "") "digest" (.string d.digest) ++
    omitEmpty (d.urls = []) "urls" (stringsValue d.urls) ++
    omitEmpty (d.annotations = []) "annotations" (stringMapValue d.annotations)

/-- `json.Marshal` of a `distribution.Descriptor`. -/
def marshal (d : Descriptor) : Value :=
  .object (d.baseMembers ++
    omitEmpty (d.platform = none) "platform" (pointerValue Platform.marshal d.platform))

theorem decode_marshal {d : Descriptor} (h : d.WellFormed) : decode .zero d.marshal = .ok d := by
  obtain ⟨mt, size, dg, urls, ann, plat⟩ := d
  obtain ⟨hsize, hann⟩ : IsInt64 size ∧ (ann.map Prod.fst).Nodup := h
  simp only [decode, marshal, baseMembers, List.append_assoc]
  rw [decodeStruct_omitEmpty (fun _ => by rfl) (by rintro rfl; rfl),
    decodeStruct_omitEmpty (fun _ => setByName_of_find (by rfl)
      (StructField.mk_eq_ok (decodeInt_intValue hsize _ _))) (by rintro rfl; rfl),
    decodeStruct_omitEmpty (fun _ => by rfl) (by rintro rfl; rfl),
    decodeStruct_omitEmpty (fun _ => setByName_of_find (by rfl)
      (StructField.mk_eq_ok (decodeSlice_stringsValue _ _ _))) (by rintro rfl; rfl),
    decodeStruct_omitEmpty (fun _ => setByName_of_find (by rfl)
      (StructField.mk_eq_ok (decodeStringMap_stringMapValue hann))) (by rintro rfl; rfl),
    decodeStruct_omitEmpty_last (fun _ => setByName_of_find (by rfl)
      (StructField.mk_eq_ok (Platform.decodePointer_marshal plat))) (by rintro rfl; rfl)]

theorem wellFormed_marshal (d : Descriptor) : d.marshal.WellFormed :=
  membersWellFormed_iff.mpr <| by
    simp only [marshal, baseMembers, List.forall_mem_append, forall_mem_omitEmpty]
    simp [wellFormed_intValue, wellFormed_stringsValue, wellFormed_stringMapValue,
      Platform.wellFormed_pointerValue]

theorem depth_marshal (d : Descriptor) : d.marshal.depth ≤ 3 := by
  have h1 : (stringsValue d.urls).depth ≤ 2 := (depth_stringsValue _).trans (by decide)
  have h2 : (stringMapValue d.annotations).depth ≤ 2 := (depth_stringMapValue _).trans (by decide)
  exact Nat.succ_le_succ <| depthMembers_le_iff.mpr <| by
    simp only [marshal, baseMembers, List.forall_mem_append, forall_mem_omitEmpty]
    simp [h1, h2, Platform.depth_pointerValue]

end Descriptor

namespace Schema2.Manifest

/-- `json.Marshal` of a `schema2.Manifest` whose `Layers` slice is allocated. -/
def marshal (m : Manifest) : Value :=
  .object (m.versioned.members ++
    [("config", m.config.marshal), ("layers", .array (m.layers.map Descriptor.marshal))])

theorem decode_marshal {m : Manifest} (h : m.WellFormed) : decode .zero m.marshal = .ok m := by
  obtain ⟨⟨sv, mt⟩, c, ls⟩ := m
  obtain ⟨hsv, hc, hls⟩ := h
  simp only [decode, marshal, Versioned.members, List.append_assoc, List.cons_append]
  rw [decodeStruct_cons (setByName_of_find (by rfl)
      (by simp only [StructField.mk, decodeInt_intValue hsv, Except.map_ok_eq]; rfl)),
    decodeStruct_omitEmpty (fun _ => by rfl) (by rintro rfl; rfl),
    decodeStruct_cons (setByName_of_find (by rfl)
      (by exact StructField.mk_eq_ok (Descriptor.decode_marshal hc))),
    decodeStruct_cons (setByName_of_find (by rfl) (by
      exact StructField.mk_eq_ok (decodeSlice_map (fun d hd => Descriptor.decode_marshal (hls d hd))
        _ _)))]
  rfl

theorem wellFormed_marshal (m : Manifest) : m.marshal.WellFormed :=
  membersWellFormed_iff.mpr <| by
    simp only [marshal, Versioned.members, List.forall_mem_append, List.forall_mem_cons,
      forall_mem_omitEmpty]
    simp [wellFormed_intValue, wellFormed_array, Descriptor.wellFormed_marshal]

theorem depth_marshal (m : Manifest) : m.marshal.depth ≤ 5 := by
  have h1 : m.config.marshal.depth ≤ 4 := m.config.depth_marshal.trans (by decide)
  have h2 : depthElems (m.layers.map Descriptor.marshal) ≤ 3 :=
    depthElems_map_le fun d _ => d.depth_marshal
  exact Nat.succ_le_succ <| depthMembers_le_iff.mpr <| by
    simp only [marshal, Versioned.members, List.forall_mem_append, List.forall_mem_cons,
      forall_mem_omitEmpty]
    simp [h1, h2]

theorem unmarshal_marshal {m : Manifest} (h : m.WellFormed) {b : List UInt8}
    (hb : parse b = .ok m.marshal) : unmarshal decode .zero b = .ok m := by
  rw [unmarshal_of_parse hb, decode_marshal h]
  rfl

end Schema2.Manifest

namespace Ocischema.Manifest

/-- `json.Marshal` of an `ocischema.Manifest` whose `Layers` slice is allocated. -/
def marshal (m : Manifest) : Value :=
  .object (m.versioned.members ++ ("config", m.config.marshal) ::
    ("layers", .array (m.layers.map Descriptor.marshal)) ::
    omitEmpty (m.annotations = []) "annotations" (stringMapValue m.annotations))

theorem decode_marshal {m : Manifest} (h : m.WellFormed) : decode .zero m.marshal = .ok m := by
  obtain ⟨⟨sv, mt⟩, c, ls, ann⟩ := m
  obtain ⟨hsv, hc, hls, hann⟩ := h
  simp only [decode, marshal, Versioned.members, List.append_assoc, List.cons_append]
  rw [decodeStruct_cons (setByName_of_find (by rfl)
      (by simp only [StructField.mk, decodeInt_intValue hsv, Except.map_ok_eq]; rfl)),
    decodeStruct_omitEmpty (fun _ => by rfl) (by rintro rfl; rfl),
    decodeStruct_cons (setByName_of_find (by rfl)
      (by exact StructField.mk_eq_ok (Descriptor.decode_marshal hc))),
    decodeStruct_cons (setByName_of_find (by rfl) (by
      exact StructField.mk_eq_ok (decodeSlice_map (fun d hd => Descriptor.decode_marshal (hls d hd))
        _ _))),
    decodeStruct_omitEmpty_last (fun _ => setByName_of_find (by rfl)
      (StructField.mk_eq_ok (decodeStringMap_stringMapValue hann))) (by rintro rfl; rfl)]

theorem wellFormed_marshal (m : Manifest) : m.marshal.WellFormed :=
  membersWellFormed_iff.mpr <| by
    simp only [marshal, Versioned.members, List.forall_mem_append, List.forall_mem_cons,
      forall_mem_omitEmpty]
    simp [wellFormed_intValue, wellFormed_array, Descriptor.wellFormed_marshal,
      wellFormed_stringMapValue]

theorem depth_marshal (m : Manifest) : m.marshal.depth ≤ 5 := by
  have h1 : m.config.marshal.depth ≤ 4 := m.config.depth_marshal.trans (by decide)
  have h2 : depthElems (m.layers.map Descriptor.marshal) ≤ 3 :=
    depthElems_map_le fun d _ => d.depth_marshal
  have h3 : (stringMapValue m.annotations).depth ≤ 4 :=
    (depth_stringMapValue _).trans (by decide)
  exact Nat.succ_le_succ <| depthMembers_le_iff.mpr <| by
    simp only [marshal, Versioned.members, List.forall_mem_append, List.forall_mem_cons,
      forall_mem_omitEmpty]
    simp [h1, h2, h3]

theorem unmarshal_marshal {m : Manifest} (h : m.WellFormed) {b : List UInt8}
    (hb : parse b = .ok m.marshal) : unmarshal decode .zero b = .ok m := by
  rw [unmarshal_of_parse hb, decode_marshal h]
  rfl

end Ocischema.Manifest

namespace Manifestlist

namespace PlatformSpec

/-- `json.Marshal` of a `manifestlist.PlatformSpec`. -/
def marshal (p : PlatformSpec) : Value :=
  .object (("architecture", .string p.architecture) :: ("os", .string p.os) ::
    omitEmpty (p.osVersion = "") "os.version" (.string p.osVersion) ++
    omitEmpty (p.osFeatures = []) "os.features" (stringsValue p.osFeatures) ++
    omitEmpty (p.variant = "") "variant" (.string p.variant) ++
    omitEmpty (p.features = []) "features" (stringsValue p.features))

theorem decode_marshal (p : PlatformSpec) : decode .zero p.marshal = .ok p := by
  obtain ⟨a, o, ov, of, va, fs⟩ := p
  simp only [decode, marshal, List.append_assoc, List.cons_append]
  rw [decodeStruct_cons (by rfl), decodeStruct_cons (by rfl),
    decodeStruct_omitEmpty (fun _ => by rfl) (by rintro rfl; rfl),
    decodeStruct_omitEmpty (fun _ => setByName_of_find (by rfl)
      (StructField.mk_eq_ok (decodeSlice_stringsValue _ _ _))) (by rintro rfl; rfl),
    decodeStruct_omitEmpty (fun _ => by rfl) (by rintro rfl; rfl),
    decodeStruct_omitEmpty_last (fun _ => setByName_of_find (by rfl)
      (StructField.mk_eq_ok (decodeSlice_stringsValue _ _ _))) (by rintro rfl; rfl)]

theorem wellFormed_marshal (p : PlatformSpec) : p.marshal.WellFormed :=
  membersWellFormed_iff.mpr <| by
    simp only [marshal, List.forall_mem_append, List.forall_mem_cons, forall_mem_omitEmpty]
    simp [wellFormed_stringsValue]

theorem depth_marshal (p : PlatformSpec) : p.marshal.depth ≤ 2 :=
  Nat.succ_le_succ <| depthMembers_le_iff.mpr <| by
    simp only [marshal, List.forall_mem_append, List.forall_mem_cons, forall_mem_omitEmpty]
    simp [depth_stringsValue]

end PlatformSpec

namespace ManifestDescriptor

/-- `json.Marshal` of a `manifestlist.ManifestDescriptor`: the promoted members of its
descriptor, then its own `platform`, which is not `omitempty`. -/
def marshal (md : ManifestDescriptor) : Value :=
  .object (md.descriptor.baseMembers ++ [("platform", md.platform.marshal)])

theorem decode_marshal {md : ManifestDescriptor} (h : md.WellFormed) :
    decode .zero md.marshal = .ok md := by
  obtain ⟨⟨mt, size, dg, urls, ann, plat⟩, p⟩ := md
  obtain ⟨⟨hsize, hann⟩, rfl⟩ : (IsInt64 size ∧ (ann.map Prod.fst).Nodup) ∧ plat = none := h
  simp only [decode, marshal, Descriptor.baseMembers, List.append_assoc]
  rw [decodeStruct_omitEmpty (fun _ => by rfl) (by rintro rfl; rfl),
    decodeStruct_omitEmpty (fun _ => setByName_of_find (by rfl)
      (by simp only [StructField.mk, decodeInt_intValue hsize, Except.map_ok_eq]; rfl))
      (by rintro rfl; rfl),
    decodeStruct_omitEmpty (fun _ => by rfl) (by rintro rfl; rfl),
    decodeStruct_omitEmpty (fun _ => setByName_of_find (by rfl)
      (by simp only [StructField.mk, decodeSlice_stringsValue, Except.map_ok_eq]; rfl))
      (by rintro rfl; rfl),
    decodeStruct_omitEmpty (fun _ => setByName_of_find (by rfl)
      (by simp only [StructField.mk, zero, Descriptor.zero, decodeStringMap_stringMapValue hann,
        Except.map_ok_eq]; rfl))
      (by rintro rfl; rfl),
    decodeStruct_cons (setByName_of_find (by rfl)
      (by exact StructField.mk_eq_ok (PlatformSpec.decode_marshal p)))]
  rfl

theorem wellFormed_marshal (md : ManifestDescriptor) : md.marshal.WellFormed :=
  membersWellFormed_iff.mpr <| by
    simp only [marshal, Descriptor.baseMembers, List.forall_mem_append, List.forall_mem_cons,
      forall_mem_omitEmpty]
    simp [wellFormed_intValue, wellFormed_stringsValue, wellFormed_stringMapValue,
      PlatformSpec.wellFormed_marshal]

theorem depth_marshal (md : ManifestDescriptor) : md.marshal.depth ≤ 3 := by
  have h1 : (stringsValue md.descriptor.urls).depth ≤ 2 :=
    (depth_stringsValue _).trans (by decide)
  have h2 : (stringMapValue md.descriptor.annotations).depth ≤ 2 :=
    (depth_stringMapValue _).trans (by decide)
  exact Nat.succ_le_succ <| depthMembers_le_iff.mpr <| by
    simp only [marshal, Descriptor.baseMembers, List.forall_mem_append, List.forall_mem_cons,
      forall_mem_omitEmpty]
    simp [h1, h2, PlatformSpec.depth_marshal]

end ManifestDescriptor

namespace ManifestList

/-- `json.Marshal` of a `manifestlist.ManifestList`, which is also the OCI image index, whose
`Manifests` slice is allocated. -/
def marshal (ml : ManifestList) : Value :=
  .object (ml.versioned.members ++
    [("manifests", .array (ml.manifests.map ManifestDescriptor.marshal))])

theorem decode_marshal {ml : ManifestList} (h : ml.WellFormed) :
    decode .zero ml.marshal = .ok ml := by
  obtain ⟨⟨sv, mt⟩, mds⟩ := ml
  obtain ⟨hsv, hmds⟩ := h
  simp only [decode, marshal, Versioned.members, List.append_assoc, List.cons_append]
  rw [decodeStruct_cons (setByName_of_find (by rfl)
      (by simp only [StructField.mk, decodeInt_intValue hsv, Except.map_ok_eq]; rfl)),
    decodeStruct_omitEmpty (fun _ => by rfl) (by rintro rfl; rfl),
    decodeStruct_cons (setByName_of_find (by rfl) (by
      exact StructField.mk_eq_ok
        (decodeSlice_map (fun md hmd => ManifestDescriptor.decode_marshal (hmds md hmd)) _ _)))]
  rfl

theorem wellFormed_marshal (ml : ManifestList) : ml.marshal.WellFormed :=
  membersWellFormed_iff.mpr <| by
    simp only [marshal, Versioned.members, List.forall_mem_append, List.forall_mem_cons,
      forall_mem_omitEmpty]
    simp [wellFormed_intValue, wellFormed_array, ManifestDescriptor.wellFormed_marshal]

theorem depth_marshal (ml : ManifestList) : ml.marshal.depth ≤ 5 := by
  have h : depthElems (ml.manifests.map ManifestDescriptor.marshal) ≤ 3 :=
    depthElems_map_le fun md _ => md.depth_marshal
  exact Nat.succ_le_succ <| depthMembers_le_iff.mpr <| by
    simp only [marshal, Versioned.members, List.forall_mem_append, List.forall_mem_cons,
      forall_mem_omitEmpty]
    simp [h]

theorem unmarshal_marshal {ml : ManifestList} (h : ml.WellFormed) {b : List UInt8}
    (hb : parse b = .ok ml.marshal) : unmarshal decode .zero b = .ok ml := by
  rw [unmarshal_of_parse hb, decode_marshal h]
  rfl

end ManifestList

end Manifestlist

/-! ## The unmarshal functions on these objects -/

theorem schema2Func_marshal {m : Schema2.Manifest} (h : m.WellFormed)
    (hmt : m.versioned.mediaType = mediaTypeManifest) {b : List UInt8}
    (hb : parse b = .ok m.marshal) :
    schema2Func b = .ok (.schema2 ⟨m, b⟩, .ofBytes mediaTypeManifest b) :=
  schema2Func_eq_ok.mpr ⟨m, Schema2.Manifest.unmarshal_marshal h hb, hmt, rfl, rfl⟩

/-- The shape check of `ocischema` passes on a manifest, none of whose members is named
`manifests`. -/
theorem Ocischema.validateManifest_marshal (m : Ocischema.Manifest) {b : List UInt8}
    (hb : parse b = .ok m.marshal) : Ocischema.validateManifest b = .ok () := by
  have hdec : decodeStruct "unknownDocument" "ocischema.unknownDocument"
      Ocischema.unknownDocumentFields false m.marshal = .ok false := by
    simp only [Ocischema.Manifest.marshal, Versioned.members, List.append_assoc, List.cons_append]
    rw [decodeStruct_cons (by rfl), decodeStruct_omitEmpty (fun _ => by rfl) (fun _ => rfl),
      decodeStruct_cons (by rfl), decodeStruct_cons (by rfl),
      decodeStruct_omitEmpty_last (fun _ => by rfl) (fun _ => rfl)]
  simp only [validateManifest, unmarshal_of_parse hb, hdec, Except.mapError_ok, Except.ok_bind]
  rfl

/-- The shape check of `ocischema` rejects every manifest list, whose `manifests` array is
written even when empty. -/
theorem Ocischema.validateManifest_manifestList_marshal (ml : Manifestlist.ManifestList)
    {b : List UInt8} (hb : parse b = .ok ml.marshal) : Ocischema.validateManifest b ≠ .ok () :=
  Ocischema.validateManifest_manifests (by
    simp only [Versioned.members, List.map_cons, List.forall_mem_cons, List.forall_mem_map,
      forall_mem_omitEmpty]
    exact ⟨rfl, fun _ => rfl⟩) hb

theorem ocischemaFunc_marshal {m : Ocischema.Manifest} (h : m.WellFormed)
    (hmt : m.versioned.mediaType = "" ∨ m.versioned.mediaType = mediaTypeImageManifest)
    {b : List UInt8} (hb : parse b = .ok m.marshal) :
    ocischemaFunc b = .ok (.ocischema ⟨m, b⟩, .ofBytes mediaTypeImageManifest b) :=
  ocischemaFunc_eq_ok.mpr ⟨Ocischema.validateManifest_marshal m hb, m,
    Ocischema.Manifest.unmarshal_marshal h hb, hmt, rfl, rfl⟩

/-- The shape check of an index passes on a manifest list, which has neither `config`
nor `layers`. -/
theorem Manifestlist.validateIndex_marshal (ml : ManifestList) {b : List UInt8}
    (hb : parse b = .ok ml.marshal) : validateIndex b = .ok () := by
  have hdec : decodeStruct "unknownDocument" "manifestlist.unknownDocument"
      Manifestlist.unknownDocumentFields (false, false) ml.marshal =
      .ok (false, false) := by
    simp only [ManifestList.marshal, Versioned.members, List.append_assoc, List.cons_append]
    rw [decodeStruct_cons (by rfl), decodeStruct_omitEmpty (fun _ => by rfl) (fun _ => rfl),
      decodeStruct_cons (by rfl)]
    rfl
  simp only [validateIndex, unmarshal_of_parse hb, hdec, Except.mapError_ok, Except.ok_bind]
  rfl

theorem manifestListFunc_marshal {ml : Manifestlist.ManifestList} (h : ml.WellFormed)
    (hmt : ml.versioned.mediaType = mediaTypeManifestList) {b : List UInt8}
    (hb : parse b = .ok ml.marshal) :
    manifestListFunc b = .ok (.manifestList ⟨ml, b⟩, .ofBytes mediaTypeManifestList b) :=
  manifestListFunc_eq_ok.mpr ⟨Manifestlist.validateIndex_marshal ml hb, ml,
    Manifestlist.ManifestList.unmarshal_marshal h hb, hmt, rfl, rfl⟩

theorem imageIndexFunc_marshal {ml : Manifestlist.ManifestList} (h : ml.WellFormed)
    (hmt : ml.versioned.mediaType = "" ∨ ml.versioned.mediaType = mediaTypeImageIndex)
    {b : List UInt8} (hb : parse b = .ok ml.marshal) :
    imageIndexFunc b = .ok (.manifestList ⟨ml, b⟩, .ofBytes mediaTypeImageIndex b) :=
  imageIndexFunc_eq_ok.mpr ⟨Manifestlist.validateIndex_marshal ml hb, ml,
    Manifestlist.ManifestList.unmarshal_marshal h hb, hmt, rfl, rfl⟩

end Kraken.Distribution
