import Kraken.Distribution.Schema

/-!
# `distribution.UnmarshalManifest`

The four unmarshal functions the manifest packages register, by media type, and the
`distribution.Manifest` values they return. Each keeps the bytes it was given as the
manifest's canonical payload and describes them by `digest.FromBytes`. They differ in
what they ask of the declared `mediaType`: `schema2` and the manifest list require
their own type, `ocischema` and the image index accept their own type or none at all.
Two shape checks guard the OCI types: a manifest must not carry `manifests`, an index
neither `config` nor `layers`.
-/

namespace Kraken.Distribution

open Json

/-- `schema2.MediaTypeManifest`. -/
def mediaTypeManifest : String := "application/vnd.docker.distribution.manifest.v2+json"

/-- `manifestlist.MediaTypeManifestList`. -/
def mediaTypeManifestList : String := "application/vnd.docker.distribution.manifest.list.v2+json"

/-- `v1.MediaTypeImageManifest`. -/
def mediaTypeImageManifest : String := "application/vnd.oci.image.manifest.v1+json"

/-- `v1.MediaTypeImageIndex`. -/
def mediaTypeImageIndex : String := "application/vnd.oci.image.index.v1+json"

/-- The message of a media type check: `"<prefix> '<want>' not '<got>'"`. -/
def mediaTypeMismatch (pre want got : String) : GoError :=
  .text (pre ++ " \x27" ++ want ++ "\x27 not \x27" ++ got ++ "\x27")

namespace Schema2

structure DeserializedManifest where
  manifest : Manifest
  canonical : List UInt8
  deriving DecidableEq, Repr

/-- `(*DeserializedManifest).UnmarshalJSON`. -/
def DeserializedManifest.unmarshalJSON (b : List UInt8) : Except GoError DeserializedManifest := do
  let manifest ← (unmarshal Manifest.decode .zero b).mapError .json
  if manifest.versioned.mediaType ≠ mediaTypeManifest then
    throw (mediaTypeMismatch "mediaType in manifest should be" mediaTypeManifest
      manifest.versioned.mediaType)
  return ⟨manifest, b⟩

end Schema2

namespace Ocischema

structure DeserializedManifest where
  manifest : Manifest
  canonical : List UInt8
  deriving DecidableEq, Repr

/-- The fields of `unknownDocument`, the struct `validateManifest` decodes into: whether
`manifests` is non-nil. -/
def unknownDocumentFields : List (StructField Bool) :=
  [.mk "manifests" id (fun _ x => x) decodeInterface]

/-- `validateManifest`: a manifest must not carry a non-nil `manifests`. -/
def validateManifest (b : List UInt8) : Except GoError Unit := do
  let found ← (unmarshal (decodeStruct "unknownDocument" "ocischema.unknownDocument"
    unknownDocumentFields) false b).mapError .json
  if found then throw (.text "ocimanifest: expected manifest but found index")

/-- `(*DeserializedManifest).UnmarshalJSON`. -/
def DeserializedManifest.unmarshalJSON (b : List UInt8) : Except GoError DeserializedManifest := do
  let manifest ← (unmarshal Manifest.decode .zero b).mapError .json
  if manifest.versioned.mediaType ≠ "" ∧ manifest.versioned.mediaType ≠ mediaTypeImageManifest then
    throw (mediaTypeMismatch "if present, mediaType in manifest should be" mediaTypeImageManifest
      manifest.versioned.mediaType)
  return ⟨manifest, b⟩

end Ocischema

namespace Manifestlist

structure DeserializedManifestList where
  manifestList : ManifestList
  canonical : List UInt8
  deriving DecidableEq, Repr

/-- The fields of `unknownDocument`, the struct `validateIndex` decodes into: whether
`config` and `layers` are non-nil. -/
def unknownDocumentFields : List (StructField (Bool × Bool)) :=
  [.mk "config" Prod.fst (fun s x => (x, s.2)) decodeInterface,
   .mk "layers" Prod.snd (fun s x => (s.1, x)) decodeInterface]

/-- `validateIndex`: an index must carry neither a non-nil `config` nor `layers`. -/
def validateIndex (b : List UInt8) : Except GoError Unit := do
  let found ← (unmarshal (decodeStruct "unknownDocument" "manifestlist.unknownDocument"
    unknownDocumentFields) (false, false) b).mapError .json
  if found.1 || found.2 then throw (.text "index: expected index but found manifest")

/-- `(*DeserializedManifestList).UnmarshalJSON`, which checks no media type. -/
def DeserializedManifestList.unmarshalJSON (b : List UInt8) :
    Except GoError DeserializedManifestList := do
  let manifestList ← (unmarshal ManifestList.decode .zero b).mapError .json
  return ⟨manifestList, b⟩

/-- One element of `ManifestList.References()`: the descriptor, its platform taken
from the `PlatformSpec`. -/
def ManifestDescriptor.reference (md : ManifestDescriptor) : Descriptor :=
  { md.descriptor with
    platform := some ⟨md.platform.architecture, md.platform.os, md.platform.osVersion,
      md.platform.osFeatures, md.platform.variant⟩ }

end Manifestlist

/-- `distribution.Manifest`, by the concrete type behind the interface. -/
inductive Manifest where
  | schema2 (m : Schema2.DeserializedManifest)
  | ocischema (m : Ocischema.DeserializedManifest)
  | manifestList (m : Manifestlist.DeserializedManifestList)
  deriving DecidableEq, Repr

namespace Manifest

/-- `References()`. -/
def references : Manifest → List Descriptor
  | .schema2 m => m.manifest.config :: m.manifest.layers
  | .ocischema m => m.manifest.config :: m.manifest.layers
  | .manifestList m => m.manifestList.manifests.map Manifestlist.ManifestDescriptor.reference

/-- `Payload()`: the media type and the canonical bytes; its error is always nil. -/
def payload : Manifest → String × List UInt8
  | .schema2 m => (m.manifest.versioned.mediaType, m.canonical)
  | .ocischema m => (mediaTypeImageManifest, m.canonical)
  | .manifestList m =>
      (if m.manifestList.versioned.mediaType = "" then mediaTypeImageIndex
        else m.manifestList.versioned.mediaType, m.canonical)

/-- The embedded `manifest.Versioned`, whichever the concrete type. -/
def versioned : Manifest → Versioned
  | .schema2 m => m.manifest.versioned
  | .ocischema m => m.manifest.versioned
  | .manifestList m => m.manifestList.versioned

def schemaVersion (m : Manifest) : Int := m.versioned.schemaVersion

/-- `manifest.(*schema2.DeserializedManifest)`, keeping its `Versioned`. -/
def asSchema2 : Manifest → Option Versioned
  | .schema2 m => some m.manifest.versioned
  | _ => none

/-- `manifest.(*ocischema.DeserializedManifest)`, keeping its `Versioned`. -/
def asOcischema : Manifest → Option Versioned
  | .ocischema m => some m.manifest.versioned
  | _ => none

/-- `manifest.(*manifestlist.DeserializedManifestList)`, keeping its `Versioned`. -/
def asManifestList : Manifest → Option Versioned
  | .manifestList m => some m.manifestList.versioned
  | _ => none

theorem versioned_of_asSchema2 {m : Manifest} {ver : Versioned} (h : m.asSchema2 = some ver) :
    m.versioned = ver := by
  cases m <;> cases h
  rfl

theorem versioned_of_asOcischema {m : Manifest} {ver : Versioned} (h : m.asOcischema = some ver) :
    m.versioned = ver := by
  cases m <;> cases h
  rfl

theorem versioned_of_asManifestList {m : Manifest} {ver : Versioned}
    (h : m.asManifestList = some ver) : m.versioned = ver := by
  cases m <;> cases h
  rfl

end Manifest

/-- The function `schema2` registers for `MediaTypeManifest`. -/
def schema2Func (b : List UInt8) : Except GoError (Manifest × Descriptor) := do
  let m ← Schema2.DeserializedManifest.unmarshalJSON b
  return (.schema2 m, .ofBytes mediaTypeManifest b)

/-- The function `ocischema` registers for `v1.MediaTypeImageManifest`. -/
def ocischemaFunc (b : List UInt8) : Except GoError (Manifest × Descriptor) := do
  Ocischema.validateManifest b
  let m ← Ocischema.DeserializedManifest.unmarshalJSON b
  return (.ocischema m, .ofBytes mediaTypeImageManifest b)

/-- The function `manifestlist` registers for `MediaTypeManifestList`. -/
def manifestListFunc (b : List UInt8) : Except GoError (Manifest × Descriptor) := do
  Manifestlist.validateIndex b
  let m ← Manifestlist.DeserializedManifestList.unmarshalJSON b
  if m.manifestList.versioned.mediaType ≠ mediaTypeManifestList then
    throw (mediaTypeMismatch "mediaType in manifest list should be" mediaTypeManifestList
      m.manifestList.versioned.mediaType)
  return (.manifestList m, .ofBytes mediaTypeManifestList b)

/-- The function `manifestlist` registers for `v1.MediaTypeImageIndex`. -/
def imageIndexFunc (b : List UInt8) : Except GoError (Manifest × Descriptor) := do
  Manifestlist.validateIndex b
  let m ← Manifestlist.DeserializedManifestList.unmarshalJSON b
  let mt := m.manifestList.versioned.mediaType
  if mt ≠ "" ∧ mt ≠ mediaTypeImageIndex then
    throw (mediaTypeMismatch "if present, mediaType in image index should be"
      mediaTypeImageIndex mt)
  return (.manifestList m, .ofBytes mediaTypeImageIndex b)

/-- The registry `RegisterManifestSchema` fills, for the media types registered by the
packages `dockerutil` imports; none registers the default `""`. -/
def mappings (mediaType : String) : Option (List UInt8 → Except GoError (Manifest × Descriptor)) :=
  if mediaType = mediaTypeManifest then some schema2Func
  else if mediaType = mediaTypeImageManifest then some ocischemaFunc
  else if mediaType = mediaTypeManifestList then some manifestListFunc
  else if mediaType = mediaTypeImageIndex then some imageIndexFunc
  else none

/-- `distribution.UnmarshalManifest(ctHeader, p)`. Its callers here pass one of the four
registered media types, which `mime.ParseMediaType` returns unchanged. -/
def unmarshalManifest (ctHeader : String) (p : List UInt8) :
    Except GoError (Manifest × Descriptor) :=
  match mappings ctHeader with
  | some f => f p
  | none =>
      .error (.text ("unsupported manifest media type and no default available: " ++ ctHeader))

@[simp] theorem unmarshalManifest_mediaTypeManifest (b : List UInt8) :
    unmarshalManifest mediaTypeManifest b = schema2Func b := by
  simp [unmarshalManifest, mappings]

@[simp] theorem unmarshalManifest_mediaTypeImageManifest (b : List UInt8) :
    unmarshalManifest mediaTypeImageManifest b = ocischemaFunc b := by
  simp [unmarshalManifest, mappings, mediaTypeManifest, mediaTypeImageManifest]

@[simp] theorem unmarshalManifest_mediaTypeManifestList (b : List UInt8) :
    unmarshalManifest mediaTypeManifestList b = manifestListFunc b := by
  simp [unmarshalManifest, mappings, mediaTypeManifest, mediaTypeImageManifest,
    mediaTypeManifestList]

@[simp] theorem unmarshalManifest_mediaTypeImageIndex (b : List UInt8) :
    unmarshalManifest mediaTypeImageIndex b = imageIndexFunc b := by
  simp [unmarshalManifest, mappings, mediaTypeManifest, mediaTypeImageManifest,
    mediaTypeManifestList, mediaTypeImageIndex]

/-! ## What each unmarshal function accepts -/

theorem schema2Func_eq_ok {b : List UInt8} {m : Manifest} {desc : Descriptor} :
    schema2Func b = .ok (m, desc) ↔
      ∃ man, unmarshal Schema2.Manifest.decode .zero b = .ok man ∧
        man.versioned.mediaType = mediaTypeManifest ∧ m = .schema2 ⟨man, b⟩ ∧
        desc = .ofBytes mediaTypeManifest b := by
  unfold schema2Func Schema2.DeserializedManifest.unmarshalJSON
  cases unmarshal Schema2.Manifest.decode .zero b with
  | error e => simp
  | ok man =>
      by_cases hmt : man.versioned.mediaType = mediaTypeManifest
      · simp [hmt, @eq_comm Manifest, @eq_comm Descriptor]
      · simp [hmt]

theorem ocischemaFunc_eq_ok {b : List UInt8} {m : Manifest} {desc : Descriptor} :
    ocischemaFunc b = .ok (m, desc) ↔ Ocischema.validateManifest b = .ok () ∧
      ∃ man, unmarshal Ocischema.Manifest.decode .zero b = .ok man ∧
        (man.versioned.mediaType = "" ∨ man.versioned.mediaType = mediaTypeImageManifest) ∧
        m = .ocischema ⟨man, b⟩ ∧ desc = .ofBytes mediaTypeImageManifest b := by
  unfold ocischemaFunc Ocischema.DeserializedManifest.unmarshalJSON
  cases Ocischema.validateManifest b with
  | error e => simp
  | ok u =>
    cases unmarshal Ocischema.Manifest.decode .zero b with
    | error e => simp
    | ok man =>
        by_cases h1 : man.versioned.mediaType = ""
        · simp [h1, @eq_comm Manifest, @eq_comm Descriptor]
        by_cases h2 : man.versioned.mediaType = mediaTypeImageManifest
        · simp [h2, @eq_comm Manifest, @eq_comm Descriptor]
        · simp [h1, h2]

theorem manifestListFunc_eq_ok {b : List UInt8} {m : Manifest} {desc : Descriptor} :
    manifestListFunc b = .ok (m, desc) ↔ Manifestlist.validateIndex b = .ok () ∧
      ∃ ml, unmarshal Manifestlist.ManifestList.decode .zero b = .ok ml ∧
        ml.versioned.mediaType = mediaTypeManifestList ∧
        m = .manifestList ⟨ml, b⟩ ∧ desc = .ofBytes mediaTypeManifestList b := by
  unfold manifestListFunc Manifestlist.DeserializedManifestList.unmarshalJSON
  cases Manifestlist.validateIndex b with
  | error e => simp
  | ok u =>
    cases unmarshal Manifestlist.ManifestList.decode .zero b with
    | error e => simp
    | ok ml =>
        by_cases hmt : ml.versioned.mediaType = mediaTypeManifestList
        · simp [hmt, @eq_comm Manifest, @eq_comm Descriptor]
        · simp [hmt]

theorem imageIndexFunc_eq_ok {b : List UInt8} {m : Manifest} {desc : Descriptor} :
    imageIndexFunc b = .ok (m, desc) ↔ Manifestlist.validateIndex b = .ok () ∧
      ∃ ml, unmarshal Manifestlist.ManifestList.decode .zero b = .ok ml ∧
        (ml.versioned.mediaType = "" ∨ ml.versioned.mediaType = mediaTypeImageIndex) ∧
        m = .manifestList ⟨ml, b⟩ ∧ desc = .ofBytes mediaTypeImageIndex b := by
  unfold imageIndexFunc Manifestlist.DeserializedManifestList.unmarshalJSON
  cases Manifestlist.validateIndex b with
  | error e => simp
  | ok u =>
    cases unmarshal Manifestlist.ManifestList.decode .zero b with
    | error e => simp
    | ok ml =>
        by_cases h1 : ml.versioned.mediaType = ""
        · simp [h1, @eq_comm Manifest, @eq_comm Descriptor]
        by_cases h2 : ml.versioned.mediaType = mediaTypeImageIndex
        · simp [h2, @eq_comm Manifest, @eq_comm Descriptor]
        · simp [h1, h2]

end Kraken.Distribution
