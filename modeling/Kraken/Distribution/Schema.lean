import Kraken.Json.Decode
import Kraken.Digest.Sha256

/-!
# The manifest structs of `docker/distribution`

The Go structs `json.Unmarshal` fills when a manifest is parsed, each written as its
table of JSON fields: `manifest.Versioned`, `distribution.Descriptor` with its
`v1.Platform`, `schema2.Manifest`, `ocischema.Manifest`, and `manifestlist.ManifestList`
with its `ManifestDescriptor`s and `PlatformSpec`. The three manifest structs embed
`manifest.Versioned`, so each decodes its schema version and media type exactly as
decoding into `manifest.Versioned` alone does.
-/

namespace Kraken.Distribution

open Json

/-- `manifest.Versioned`. -/
structure Versioned where
  schemaVersion : Int
  mediaType : String
  deriving DecidableEq, Repr

namespace Versioned

def zero : Versioned := ⟨0, ""⟩

def fields : List (StructField Versioned) :=
  [.mk "schemaVersion" (·.schemaVersion) (fun s x => { s with schemaVersion := x })
     (decodeInt "int"),
   .mk "mediaType" (·.mediaType) (fun s x => { s with mediaType := x }) (decodeString "string")]

def decode : Versioned → Value → Except UnmarshalTypeError Versioned :=
  decodeStruct "Versioned" "manifest.Versioned" fields

end Versioned

/-- `v1.Platform` of the OCI image spec. -/
structure Platform where
  architecture : String
  os : String
  osVersion : String
  osFeatures : List String
  variant : String
  deriving DecidableEq, Repr

namespace Platform

def zero : Platform := ⟨"", "", "", [], ""⟩

def fields : List (StructField Platform) :=
  [.mk "architecture" (·.architecture) (fun s x => { s with architecture := x })
     (decodeString "string"),
   .mk "os" (·.os) (fun s x => { s with os := x }) (decodeString "string"),
   .mk "os.version" (·.osVersion) (fun s x => { s with osVersion := x }) (decodeString "string"),
   .mk "os.features" (·.osFeatures) (fun s x => { s with osFeatures := x })
     (decodeSlice "[]string" (decodeString "string") ""),
   .mk "variant" (·.variant) (fun s x => { s with variant := x }) (decodeString "string")]

def decode : Platform → Value → Except UnmarshalTypeError Platform :=
  decodeStruct "Platform" "v1.Platform" fields

end Platform

/-- `distribution.Descriptor`. -/
structure Descriptor where
  mediaType : String
  size : Int
  digest : String
  urls : List String
  annotations : List (String × String)
  platform : Option Platform
  deriving DecidableEq, Repr

namespace Descriptor

def zero : Descriptor := ⟨"", 0, "", [], [], none⟩

/-- The fields other than `platform`, which `ManifestDescriptor` shadows. -/
def baseFields : List (StructField Descriptor) :=
  [.mk "mediaType" (·.mediaType) (fun s x => { s with mediaType := x }) (decodeString "string"),
   .mk "size" (·.size) (fun s x => { s with size := x }) (decodeInt "int64"),
   .mk "digest" (·.digest) (fun s x => { s with digest := x }) (decodeString "digest.Digest"),
   .mk "urls" (·.urls) (fun s x => { s with urls := x })
     (decodeSlice "[]string" (decodeString "string") ""),
   .mk "annotations" (·.annotations) (fun s x => { s with annotations := x }) decodeStringMap]

def fields : List (StructField Descriptor) :=
  baseFields ++
    [.mk "platform" (·.platform) (fun s x => { s with platform := x })
      (decodePointer Platform.decode Platform.zero)]

def decode : Descriptor → Value → Except UnmarshalTypeError Descriptor :=
  decodeStruct "Descriptor" "distribution.Descriptor" fields

/-- The descriptor an unmarshal function returns for the bytes it accepted. -/
def ofBytes (mediaType : String) (b : List UInt8) : Descriptor :=
  ⟨mediaType, b.length, GoDigest.fromBytes b, [], [], none⟩

end Descriptor

namespace Schema2

/-- `schema2.Manifest`. -/
structure Manifest where
  versioned : Versioned
  config : Descriptor
  layers : List Descriptor
  deriving DecidableEq, Repr

namespace Manifest

def zero : Manifest := ⟨.zero, .zero, []⟩

def fields : List (StructField Manifest) :=
  StructField.lift (·.versioned) (fun s x => { s with versioned := x }) Versioned.fields ++
    [.mk "config" (·.config) (fun s x => { s with config := x }) Descriptor.decode,
     .mk "layers" (·.layers) (fun s x => { s with layers := x })
       (decodeSlice "[]distribution.Descriptor" Descriptor.decode .zero)]

def decode : Manifest → Value → Except UnmarshalTypeError Manifest :=
  decodeStruct "Manifest" "schema2.Manifest" fields

end Manifest

end Schema2

namespace Ocischema

/-- `ocischema.Manifest`. -/
structure Manifest where
  versioned : Versioned
  config : Descriptor
  layers : List Descriptor
  annotations : List (String × String)
  deriving DecidableEq, Repr

namespace Manifest

def zero : Manifest := ⟨.zero, .zero, [], []⟩

def fields : List (StructField Manifest) :=
  StructField.lift (·.versioned) (fun s x => { s with versioned := x }) Versioned.fields ++
    [.mk "config" (·.config) (fun s x => { s with config := x }) Descriptor.decode,
     .mk "layers" (·.layers) (fun s x => { s with layers := x })
       (decodeSlice "[]distribution.Descriptor" Descriptor.decode .zero),
     .mk "annotations" (·.annotations) (fun s x => { s with annotations := x }) decodeStringMap]

def decode : Manifest → Value → Except UnmarshalTypeError Manifest :=
  decodeStruct "Manifest" "ocischema.Manifest" fields

end Manifest

end Ocischema

namespace Manifestlist

/-- `manifestlist.PlatformSpec`. -/
structure PlatformSpec where
  architecture : String
  os : String
  osVersion : String
  osFeatures : List String
  variant : String
  features : List String
  deriving DecidableEq, Repr

namespace PlatformSpec

def zero : PlatformSpec := ⟨"", "", "", [], "", []⟩

def fields : List (StructField PlatformSpec) :=
  [.mk "architecture" (·.architecture) (fun s x => { s with architecture := x })
     (decodeString "string"),
   .mk "os" (·.os) (fun s x => { s with os := x }) (decodeString "string"),
   .mk "os.version" (·.osVersion) (fun s x => { s with osVersion := x }) (decodeString "string"),
   .mk "os.features" (·.osFeatures) (fun s x => { s with osFeatures := x })
     (decodeSlice "[]string" (decodeString "string") ""),
   .mk "variant" (·.variant) (fun s x => { s with variant := x }) (decodeString "string"),
   .mk "features" (·.features) (fun s x => { s with features := x })
     (decodeSlice "[]string" (decodeString "string") "")]

def decode : PlatformSpec → Value → Except UnmarshalTypeError PlatformSpec :=
  decodeStruct "PlatformSpec" "manifestlist.PlatformSpec" fields

end PlatformSpec

/-- `manifestlist.ManifestDescriptor`: an embedded `distribution.Descriptor` whose
`platform` field its own `Platform` shadows. -/
structure ManifestDescriptor where
  descriptor : Descriptor
  platform : PlatformSpec
  deriving DecidableEq, Repr

namespace ManifestDescriptor

def zero : ManifestDescriptor := ⟨.zero, .zero⟩

def fields : List (StructField ManifestDescriptor) :=
  StructField.lift (·.descriptor) (fun s x => { s with descriptor := x }) Descriptor.baseFields ++
    [.mk "platform" (·.platform) (fun s x => { s with platform := x }) PlatformSpec.decode]

def decode : ManifestDescriptor → Value → Except UnmarshalTypeError ManifestDescriptor :=
  decodeStruct "ManifestDescriptor" "manifestlist.ManifestDescriptor" fields

end ManifestDescriptor

/-- `manifestlist.ManifestList`. -/
structure ManifestList where
  versioned : Versioned
  manifests : List ManifestDescriptor
  deriving DecidableEq, Repr

namespace ManifestList

def zero : ManifestList := ⟨.zero, []⟩

def fields : List (StructField ManifestList) :=
  StructField.lift (·.versioned) (fun s x => { s with versioned := x }) Versioned.fields ++
    [.mk "manifests" (·.manifests) (fun s x => { s with manifests := x })
      (decodeSlice "[]manifestlist.ManifestDescriptor" ManifestDescriptor.decode .zero)]

def decode : ManifestList → Value → Except UnmarshalTypeError ManifestList :=
  decodeStruct "ManifestList" "manifestlist.ManifestList" fields

end ManifestList

end Manifestlist

/-! ## The embedded `manifest.Versioned` -/

theorem Schema2.Manifest.decode_versioned {cur m : Schema2.Manifest} {v : Value}
    (h : Schema2.Manifest.decode cur v = .ok m) :
    Versioned.decode cur.versioned v = .ok m.versioned :=
  decodeStruct_lift (fun _ _ => rfl) (by
    simp only [List.mem_cons, List.mem_singleton, List.not_mem_nil, or_false]
    rintro f (rfl | rfl) s v s' h <;> obtain ⟨x, rfl⟩ := StructField.exists_of_mk_ok h <;> rfl) h

theorem Ocischema.Manifest.decode_versioned {cur m : Ocischema.Manifest} {v : Value}
    (h : Ocischema.Manifest.decode cur v = .ok m) :
    Versioned.decode cur.versioned v = .ok m.versioned :=
  decodeStruct_lift (fun _ _ => rfl) (by
    simp only [List.mem_cons, List.mem_singleton, List.not_mem_nil, or_false]
    rintro f (rfl | rfl | rfl) s v s' h <;> obtain ⟨x, rfl⟩ := StructField.exists_of_mk_ok h <;>
      rfl) h

theorem Manifestlist.ManifestList.decode_versioned {cur m : Manifestlist.ManifestList} {v : Value}
    (h : Manifestlist.ManifestList.decode cur v = .ok m) :
    Versioned.decode cur.versioned v = .ok m.versioned :=
  decodeStruct_lift (fun _ _ => rfl) (by
    simp only [List.mem_cons, List.mem_singleton, List.not_mem_nil, or_false]
    rintro f rfl s v s' h
    obtain ⟨x, rfl⟩ := StructField.exists_of_mk_ok h
    rfl) h

end Kraken.Distribution
