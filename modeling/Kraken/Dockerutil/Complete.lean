import Kraken.Dockerutil.Resolve
import Kraken.Distribution.Marshal
import Kraken.Distribution.Canonical
import Kraken.Json.Grammar
import Kraken.Json.Layout

/-!
# Every manifest document is read back

The converse of `Variant.accepted`. A registry serves a manifest document of one of the
four kinds as a JSON text of an object for it: the object with every field written
(`Document.toValue`), or the one `json.Marshal` writes, empty `omitempty` fields left out
(`Document.marshal`), for a document whose layers or manifests slice is allocated, as
`distribution`'s builders make it (`Dockerutil.NilSlice` writes a nil one). The text may be
compact, or laid out with whitespace between the tokens, as `distribution`'s canonical bytes
and the fixtures of the tests are, with its strings escaped or not (`Json.Text`).
`ParseManifest` returns the document from any bytes the scanner reads as either object
(`parseManifest_of_parse`, `parseManifest_of_marshal`), with the digest of the bytes,
whenever its header is one the parser of its kind lets through (`Document.HeaderOk`).

Both rest on one lemma (`parseManifest_of_func`): from bytes the unmarshal function of the
document's kind accepts, the parser of that kind returns the document (`parse_document`),
and every parser before it in the chain rejects them, by the declared media type or, for
an index that declares none, when the OCI image manifest parser rejects them: on these
objects the shape check of `ocischema` does, since an index carries a `manifests` array. So
the chain returns what the document's own parser returns.

Conversely, whatever `ParseManifest` returns is such a document over the bytes it read
(`parseManifest_returns_document`): the parsers check the header, and the decoder only
builds well-formed Go values. The bytes themselves are one JSON value within the scanner's
nesting limit (`parseManifest_payload_is_json`), a JSON text in the grammar of
`Json.Grammar` (`parseManifest_payload_is_jsonText`), since every parser first reads the
declared media type through `encoding/json`.
-/

namespace Kraken.Dockerutil

open Json Distribution Core Variant

/-- A manifest document of one of the four kinds `ParseManifest` knows, as Go values. -/
inductive Document where
  | v2Manifest (m : Schema2.Manifest)
  | ociManifest (m : Ocischema.Manifest)
  | v2ManifestList (ml : Manifestlist.ManifestList)
  | ociIndex (ml : Manifestlist.ManifestList)
  deriving DecidableEq, Repr

namespace Document

/-- The parser of the document's kind. -/
def variant : Document → Variant
  | v2Manifest _ => .v2Manifest
  | ociManifest _ => .ociManifest
  | v2ManifestList _ => .v2ManifestList
  | ociIndex _ => .ociIndex

def versioned : Document → Versioned
  | v2Manifest m => m.versioned
  | ociManifest m => m.versioned
  | v2ManifestList ml | ociIndex ml => ml.versioned

def toValue : Document → Value
  | v2Manifest m => m.toValue
  | ociManifest m => m.toValue
  | v2ManifestList ml | ociIndex ml => ml.toValue

/-- The object `json.Marshal` writes for the document when its layers or manifests slice is
allocated. -/
def marshal : Document → Value
  | v2Manifest m => m.marshal
  | ociManifest m => m.marshal
  | v2ManifestList ml | ociIndex ml => ml.marshal

/-- The bytes a registry serves for the document. -/
def bytes (d : Document) : List UInt8 := d.toValue.encode

/-- The manifest the unmarshal function of the document's kind builds from the bytes `b`. -/
def manifest : Document → List UInt8 → Manifest
  | v2Manifest m, b => .schema2 ⟨m, b⟩
  | ociManifest m, b => .ocischema ⟨m, b⟩
  | v2ManifestList ml, b | ociIndex ml, b => .manifestList ⟨ml, b⟩

/-- The descriptors the document names: an image manifest's config, then its layers; a
list's manifests, each with its platform. -/
def references : Document → List Descriptor
  | v2Manifest m => m.config :: m.layers
  | ociManifest m => m.config :: m.layers
  | v2ManifestList ml | ociIndex ml => ml.manifests.map Manifestlist.ManifestDescriptor.reference

/-- `References()` of the manifest built from any bytes lists the document's descriptors. -/
theorem references_manifest (d : Document) (b : List UInt8) :
    (d.manifest b).references = d.references := by
  cases d <;> rfl

/-- What the Go values always satisfy. -/
def WellFormed : Document → Prop
  | v2Manifest m => m.WellFormed
  | ociManifest m => m.WellFormed
  | v2ManifestList ml | ociIndex ml => ml.WellFormed

instance : (d : Document) → Decidable d.WellFormed
  | v2Manifest m => inferInstanceAs (Decidable m.WellFormed)
  | ociManifest m => inferInstanceAs (Decidable m.WellFormed)
  | v2ManifestList ml => inferInstanceAs (Decidable ml.WellFormed)
  | ociIndex ml => inferInstanceAs (Decidable ml.WellFormed)

/-- What the parser of the document's kind checks of its header: a media type the kind
admits and, except under the OCI index, schema version 2. -/
def HeaderOk (d : Document) : Prop :=
  d.variant.admits d.versioned.mediaType ∧ (d.variant ≠ .ociIndex → d.versioned.schemaVersion = 2)

instance (d : Document) : Decidable d.HeaderOk := inferInstanceAs (Decidable (_ ∧ _))

theorem wellFormed_toValue (d : Document) : d.toValue.WellFormed := by
  cases d with
  | v2Manifest m => exact m.wellFormed_toValue
  | ociManifest m => exact m.wellFormed_toValue
  | v2ManifestList ml | ociIndex ml => exact ml.wellFormed_toValue

theorem depth_toValue_le (d : Document) : d.toValue.depth ≤ maxNestingDepth := by
  cases d with
  | v2Manifest m => exact m.depth_toValue.trans (by decide)
  | ociManifest m => exact m.depth_toValue.trans (by decide)
  | v2ManifestList ml | ociIndex ml => exact ml.depth_toValue.trans (by decide)

theorem parse_bytes (d : Document) : parse d.bytes = .ok d.toValue :=
  parse_encode _ d.wellFormed_toValue d.depth_toValue_le

theorem wellFormed_marshal (d : Document) : d.marshal.WellFormed := by
  cases d with
  | v2Manifest m => exact m.wellFormed_marshal
  | ociManifest m => exact m.wellFormed_marshal
  | v2ManifestList ml | ociIndex ml => exact ml.wellFormed_marshal

theorem depth_marshal_le (d : Document) : d.marshal.depth ≤ maxNestingDepth := by
  cases d with
  | v2Manifest m => exact m.depth_marshal.trans (by decide)
  | ociManifest m => exact m.depth_marshal.trans (by decide)
  | v2ManifestList ml | ociIndex ml => exact ml.depth_marshal.trans (by decide)

section Returns

variable {d : Document} (hh : d.HeaderOk) {b : List UInt8}
  (hf : d.variant.func b = .ok (d.manifest b, .ofBytes d.variant.mediaType b))
include hh hf

/-- The parser of the document's kind returns it, with the digest of the bytes, from any
bytes the unmarshal function of its kind accepts. -/
theorem parse_document : d.variant.parse b = .ok (d.manifest b, Digest.ofBytes b) := by
  have hd := parseSHA256Digest_fromBytes b
  cases d with
  | v2Manifest m =>
      exact parseVersioned_eq_ok.mpr ⟨_, _, (unmarshalManifest_mediaType _ _).trans hf, rfl,
        hh.2 nofun, hd⟩
  | ociManifest m =>
      exact parseVersioned_eq_ok.mpr ⟨_, _, (unmarshalManifest_mediaType _ _).trans hf, rfl,
        hh.2 nofun, hd⟩
  | v2ManifestList ml =>
      exact parseVersioned_eq_ok.mpr ⟨_, _, (unmarshalManifest_mediaType _ _).trans hf, rfl,
        hh.2 nofun, hd⟩
  | ociIndex ml => exact parseOCIIndex_of_imageIndexFunc hf

/-- `ParseManifest` returns the document from any bytes the unmarshal function of its kind
accepts, when for an index that declares no media type the OCI image manifest parser rejects
them: the parser of its kind accepts them, and every parser before it in the chain rejects
them. -/
theorem parseManifest_of_func
    (hoci : ∀ ml, d = .ociIndex ml → declaredMediaType b = .ok "" →
      (Variant.ociManifest.parse b).toOption = none) :
    parseManifest (.ofBytes b) = .ok (d.manifest b, Digest.ofBytes b) := by
  have hp := parse_document hh hf
  obtain ⟨mt, hmt, ha⟩ := (accepted hp).declared
  rw [parseManifest_eq_fallback (rfl : readAll (.ofBytes b) = .ok b)]
  cases d with
  | v2Manifest m => exact fallback_eq_ok [] _ (fun _ h => absurd h (List.not_mem_nil _)) hp
  | ociManifest m =>
      refine fallback_eq_ok [.v2Manifest] _ ?_ hp
      simp only [List.mem_singleton, forall_eq]
      exact parse_fail_of_not_admits hmt (by rcases ha with rfl | rfl <;> decide)
  | v2ManifestList ml =>
      refine fallback_eq_ok [.v2Manifest, .ociManifest] _ ?_ hp
      simp only [List.mem_cons, List.mem_singleton, List.not_mem_nil, or_false, forall_eq_or_imp,
        forall_eq]
      obtain rfl : mt = v2ManifestListType := ha
      exact ⟨parse_fail_of_not_admits hmt (by decide), parse_fail_of_not_admits hmt (by decide)⟩
  | ociIndex ml =>
      refine fallback_eq_ok [.v2Manifest, .ociManifest, .v2ManifestList] _ ?_ hp
      simp only [List.mem_cons, List.mem_singleton, List.not_mem_nil, or_false, forall_eq_or_imp,
        forall_eq]
      rcases ha with rfl | rfl
      · exact ⟨parse_fail_of_not_admits hmt (by decide), hoci ml rfl hmt,
          parse_fail_of_not_admits hmt (by decide)⟩
      · exact ⟨parse_fail_of_not_admits hmt (by decide),
          parse_fail_of_not_admits hmt (by decide), parse_fail_of_not_admits hmt (by decide)⟩

end Returns

section Accepted

variable {d : Document} (hwf : d.WellFormed) (hh : d.HeaderOk) {b : List UInt8}
  (hb : parse b = .ok d.toValue)
include hwf hh hb

/-- The unmarshal function of the document's kind accepts bytes read as its object. -/
theorem func_document :
    d.variant.func b = .ok (d.manifest b, .ofBytes d.variant.mediaType b) := by
  cases d with
  | v2Manifest m => exact schema2Func_toValue hwf hh.1 hb
  | ociManifest m => exact ocischemaFunc_toValue hwf hh.1 hb
  | v2ManifestList ml => exact manifestListFunc_toValue hwf hh.1 hb
  | ociIndex ml => exact imageIndexFunc_toValue hwf hh.1 hb

/-- `ParseManifest` returns the document from any bytes the scanner reads as its object. -/
theorem parseManifest_of_parse :
    parseManifest (.ofBytes b) = .ok (d.manifest b, Digest.ofBytes b) :=
  parseManifest_of_func hh (func_document hwf hh hb) fun ml h _ => by
    subst h
    exact parse_fail_of_func fun _ _ hf =>
      Ocischema.validateManifest_manifestList ml hb (ocischemaFunc_eq_ok.mp hf).1

end Accepted

section Marshalled

variable {d : Document} (hwf : d.WellFormed) (hh : d.HeaderOk) {b : List UInt8}
  (hb : parse b = .ok d.marshal)
include hwf hh hb

/-- The unmarshal function of the document's kind accepts bytes read as the object
`json.Marshal` writes for it. -/
theorem func_document_marshal :
    d.variant.func b = .ok (d.manifest b, .ofBytes d.variant.mediaType b) := by
  cases d with
  | v2Manifest m => exact schema2Func_marshal hwf hh.1 hb
  | ociManifest m => exact ocischemaFunc_marshal hwf hh.1 hb
  | v2ManifestList ml => exact manifestListFunc_marshal hwf hh.1 hb
  | ociIndex ml => exact imageIndexFunc_marshal hwf hh.1 hb

theorem parseManifest_of_marshal :
    parseManifest (.ofBytes b) = .ok (d.manifest b, Digest.ofBytes b) :=
  parseManifest_of_func hh (func_document_marshal hwf hh hb) fun ml h _ => by
    subst h
    exact parse_fail_of_func fun _ _ hf =>
      Ocischema.validateManifest_manifestList_marshal ml hb (ocischemaFunc_eq_ok.mp hf).1

end Marshalled

/-- `ParseManifest` reads every document back from its bytes: the manifest of the
document's kind, with the digest of the bytes. -/
theorem parseManifest_reads_document (d : Document) (hwf : d.WellFormed) (hh : d.HeaderOk) :
    parseManifest (.ofBytes d.bytes) = .ok (d.manifest d.bytes, Digest.ofBytes d.bytes) :=
  parseManifest_of_parse hwf hh d.parse_bytes

/-- A Docker v2 image manifest with one layer. -/
def sampleV2Manifest : Document :=
  .v2Manifest ⟨⟨2, mediaTypeManifest⟩,
    ⟨"application/vnd.docker.container.image.v1+json", 7023,
      "sha256:b5b2b2c507a0944348e0303114d8d93aaaa081732b86451d9bce1f432a537bc7", [], [], none⟩,
    [⟨"application/vnd.docker.image.rootfs.diff.tar.gzip", 32654,
      "sha256:e692418e4cbaf90ca69d05a66403747baa33ee08806650b51fab815ad7fc331f", [], [], none⟩]⟩

theorem parseManifest_reads_sampleV2Manifest :
    sampleV2Manifest.WellFormed ∧ sampleV2Manifest.HeaderOk ∧
      parseManifest (.ofBytes sampleV2Manifest.bytes) =
        .ok (sampleV2Manifest.manifest sampleV2Manifest.bytes,
          Digest.ofBytes sampleV2Manifest.bytes) :=
  ⟨by decide, by decide, parseManifest_reads_document _ (by decide) (by decide)⟩

/-- `ParseManifest` reads every document back from each layout of its object with every
field written, with any whitespace before and after it: the manifest of the document's
kind over the bytes read, with their digest. -/
theorem parseManifest_reads_layout (d : Document) (hwf : d.WellFormed) (hh : d.HeaderOk)
    {sp : Spacing} (hsp : ∀ g k, Blank (sp g k)) {w₁ w₂ : List UInt8} (h₁ : Blank w₁)
    (h₂ : Blank w₂) :
    parseManifest (.ofBytes (w₁ ++ d.toValue.layout sp 0 ++ w₂)) =
      .ok (d.manifest (w₁ ++ d.toValue.layout sp 0 ++ w₂),
        Digest.ofBytes (w₁ ++ d.toValue.layout sp 0 ++ w₂)) :=
  parseManifest_of_parse hwf hh (parse_layout hsp d.wellFormed_toValue d.depth_toValue_le h₁ h₂)

/-- The sample manifest as `json.MarshalIndent(m, "", "   ")` writes it, with a final
newline. -/
theorem parseManifest_reads_indented_sampleV2Manifest :
    sampleV2Manifest.WellFormed ∧ sampleV2Manifest.HeaderOk ∧
      (∀ g k, Blank (indentSpacing [] [0x20, 0x20, 0x20] g k)) ∧ Blank [] ∧ Blank [0x0A] ∧
      parseManifest (.ofBytes
          ([] ++ sampleV2Manifest.toValue.layout (indentSpacing [] [0x20, 0x20, 0x20]) 0 ++
            [0x0A])) =
        .ok (sampleV2Manifest.manifest
            ([] ++ sampleV2Manifest.toValue.layout (indentSpacing [] [0x20, 0x20, 0x20]) 0 ++
              [0x0A]),
          Digest.ofBytes
            ([] ++ sampleV2Manifest.toValue.layout (indentSpacing [] [0x20, 0x20, 0x20]) 0 ++
              [0x0A])) :=
  have hsp : ∀ g k, Blank (indentSpacing [] [0x20, 0x20, 0x20] g k) :=
    blank_indentSpacing (by decide) (by decide)
  ⟨by decide, by decide, hsp, by decide, by decide,
    parseManifest_reads_layout _ (by decide) (by decide) hsp (by decide) (by decide)⟩

/-- `ParseManifest` reads every document back from any bytes the scanner reads as the
object `json.Marshal` writes for it while its slices are allocated, the fields tagged
`omitempty` left out when empty:
any text of that object (`parse_text`), such as the canonical bytes `distribution` keeps
for the manifests it builds and the hand-written documents of the tests. It returns
the manifest of the document's kind over those bytes, with their digest. -/
theorem parseManifest_reads_marshal (d : Document) (hwf : d.WellFormed) (hh : d.HeaderOk)
    {b : List UInt8} (hb : parse b = .ok d.marshal) :
    parseManifest (.ofBytes b) = .ok (d.manifest b, Digest.ofBytes b) :=
  parseManifest_of_marshal hwf hh hb

/-! ### The fixtures of `dockerutil_test.go` -/

def testManifestListBytes : List UInt8 :=
  bytesOf ("\x7b\n" ++
    "\t\"schemaVersion\": 2,\n" ++
    "\t\"mediaType\": \"application/vnd.docker.distribution.manifest.list.v2+json\",\n" ++
    "\t\"manifests\": [\n" ++
    "\t   \x7b\n" ++
    "\t\t  \"mediaType\": \"application/vnd.docker.distribution.manifest.v2+json\",\n" ++
    "\t\t  \"size\": 985,\n" ++
    "\t\t  \"digest\": \"sha256:1a9ec845ee94c202b2d5da74a24f0ed2" ++
    "058318bfa9879fa541efaecba272e86b\",\n" ++
    "\t\t  \"platform\": \x7b\n" ++
    "\t\t\t \"architecture\": \"amd64\",\n" ++
    "\t\t\t \"os\": \"linux\",\n" ++
    "\t\t\t \"features\": [\n" ++
    "\t\t\t\t\"sse4\"\n" ++
    "\t\t\t ]\n" ++
    "\t\t  \x7d\n" ++
    "\t   \x7d,\n" ++
    "\t   \x7b\n" ++
    "\t\t  \"mediaType\": \"application/vnd.docker.distribution.manifest.v2+json\",\n" ++
    "\t\t  \"size\": 2392,\n" ++
    "\t\t  \"digest\": \"sha256:63463409643096346834096843609346" ++
    "80934608934608934608934068934608\",\n" ++
    "\t\t  \"platform\": \x7b\n" ++
    "\t\t\t \"architecture\": \"sun4m\",\n" ++
    "\t\t\t \"os\": \"sunos\"\n" ++
    "\t\t  \x7d\n" ++
    "\t   \x7d\n" ++
    "\t]\n" ++
    " \x7d")

def testOciIndexBytes : List UInt8 :=
  bytesOf ("\x7b\n" ++
    "\t\"schemaVersion\": 2,\n" ++
    "\t\"mediaType\": \"application/vnd.oci.image.index.v1+json\",\n" ++
    "\t\"manifests\": [\n" ++
    "\t   \x7b\n" ++
    "\t\t  \"mediaType\": \"application/vnd.oci.image.manifest.v1+json\",\n" ++
    "\t\t  \"size\": 985,\n" ++
    "\t\t  \"digest\": \"sha256:1a9ec845ee94c202b2d5da74a24f0ed2" ++
    "058318bfa9879fa541efaecba272e86b\",\n" ++
    "\t\t  \"platform\": \x7b\n" ++
    "\t\t\t \"architecture\": \"amd64\",\n" ++
    "\t\t\t \"os\": \"linux\"\n" ++
    "\t\t  \x7d\n" ++
    "\t   \x7d,\n" ++
    "\t   \x7b\n" ++
    "\t\t  \"mediaType\": \"application/vnd.oci.image.manifest.v1+json\",\n" ++
    "\t\t  \"size\": 2392,\n" ++
    "\t\t  \"digest\": \"sha256:63463409643096346834096843609346" ++
    "80934608934608934608934068934608\",\n" ++
    "\t\t  \"platform\": \x7b\n" ++
    "\t\t\t \"architecture\": \"arm64\",\n" ++
    "\t\t\t \"os\": \"linux\"\n" ++
    "\t\t  \x7d\n" ++
    "\t   \x7d\n" ++
    "\t]\n" ++
    " \x7d")

/-- The documents the two fixtures write. -/
def testManifestList : Document :=
  .v2ManifestList ⟨⟨2, mediaTypeManifestList⟩,
    [⟨⟨mediaTypeManifest, 985,
        "sha256:1a9ec845ee94c202b2d5da74a24f0ed2058318bfa9879fa541efaecba272e86b", [], [], none⟩,
      ⟨"amd64", "linux", "", [], "", ["sse4"]⟩⟩,
     ⟨⟨mediaTypeManifest, 2392,
        "sha256:6346340964309634683409684360934680934608934608934608934068934608", [], [], none⟩,
      ⟨"sun4m", "sunos", "", [], "", []⟩⟩]⟩

def testOciIndex : Document :=
  .ociIndex ⟨⟨2, mediaTypeImageIndex⟩,
    [⟨⟨mediaTypeImageManifest, 985,
        "sha256:1a9ec845ee94c202b2d5da74a24f0ed2058318bfa9879fa541efaecba272e86b", [], [], none⟩,
      ⟨"amd64", "linux", "", [], "", []⟩⟩,
     ⟨⟨mediaTypeImageManifest, 2392,
        "sha256:6346340964309634683409684360934680934608934608934608934068934608", [], [], none⟩,
      ⟨"arm64", "linux", "", [], "", []⟩⟩]⟩

set_option maxRecDepth 8000 in
/-- The two cases of `TestParseManifest` that go down the chain to the list parsers: the
scanner reads each fixture as the object `json.Marshal` writes for its document, so
`ParseManifest` returns the document's manifest. -/
theorem parseManifest_reads_test_fixtures :
    testManifestList.WellFormed ∧ testManifestList.HeaderOk ∧
      parse testManifestListBytes = .ok testManifestList.marshal ∧
      parseManifest (.ofBytes testManifestListBytes) =
        .ok (testManifestList.manifest testManifestListBytes,
          Digest.ofBytes testManifestListBytes) ∧
    testOciIndex.WellFormed ∧ testOciIndex.HeaderOk ∧
      parse testOciIndexBytes = .ok testOciIndex.marshal ∧
      parseManifest (.ofBytes testOciIndexBytes) =
        .ok (testOciIndex.manifest testOciIndexBytes, Digest.ofBytes testOciIndexBytes) := by
  have hl : parse testManifestListBytes = .ok testManifestList.marshal := rfl
  have hi : parse testOciIndexBytes = .ok testOciIndex.marshal := rfl
  exact ⟨by decide, by decide, hl, parseManifest_reads_marshal _ (by decide) (by decide) hl,
    by decide, by decide, hi, parseManifest_reads_marshal _ (by decide) (by decide) hi⟩

/-- The canonical bytes `distribution` keeps for a manifest it builds,
`json.MarshalIndent(m, "", "   ")`: the object `json.Marshal` writes, its strings escaped
as `json.Marshal` escapes them, laid out by `json.Indent`. -/
def canonical (d : Document) : List UInt8 := d.marshal.write (appendString true) canonicalSpacing 0

/-- `ParseManifest` reads back the canonical bytes of every document, the bytes a registry
serves for a manifest `distribution` built: the manifest of the document's kind, with the
digest of those bytes. -/
theorem parseManifest_reads_canonical (d : Document) (hwf : d.WellFormed) (hh : d.HeaderOk) :
    parseManifest (.ofBytes d.canonical) =
      .ok (d.manifest d.canonical, Digest.ofBytes d.canonical) := by
  have hb := parse_text (text_write (strText_appendString true) blank_canonicalSpacing _ 0)
    d.wellFormed_marshal d.depth_marshal_le blank_nil blank_nil
  rw [List.nil_append, List.append_nil] at hb
  exact parseManifest_of_marshal hwf hh hb

theorem parseManifest_reads_canonical_sampleV2Manifest :
    sampleV2Manifest.WellFormed ∧ sampleV2Manifest.HeaderOk ∧
      parseManifest (.ofBytes sampleV2Manifest.canonical) =
        .ok (sampleV2Manifest.manifest sampleV2Manifest.canonical,
          Digest.ofBytes sampleV2Manifest.canonical) :=
  ⟨by decide, by decide, parseManifest_reads_canonical _ (by decide) (by decide)⟩

/-- `ParseManifest` reads a document back from every JSON text of the object `json.Marshal`
writes for it while its slices are allocated, with any whitespace before and after it: any
whitespace between the tokens,
and each string in any of its spellings, escaped or not (`Json.Text`). So it does not
matter which JSON writer produced the bytes a registry serves, as long as it keeps the
members in the order of the struct. -/
theorem parseManifest_reads_text (d : Document) (hwf : d.WellFormed) (hh : d.HeaderOk)
    {b w₁ w₂ : List UInt8} (hb : Text d.marshal b) (h₁ : Blank w₁) (h₂ : Blank w₂) :
    parseManifest (.ofBytes (w₁ ++ b ++ w₂)) =
      .ok (d.manifest (w₁ ++ b ++ w₂), Digest.ofBytes (w₁ ++ b ++ w₂)) :=
  parseManifest_of_marshal hwf hh (parse_text hb d.wellFormed_marshal d.depth_marshal_le h₁ h₂)

/-- The canonical bytes of the sample manifest are one of its texts; here with a final
newline. -/
theorem parseManifest_reads_text_sampleV2Manifest :
    sampleV2Manifest.WellFormed ∧ sampleV2Manifest.HeaderOk ∧
      Text sampleV2Manifest.marshal sampleV2Manifest.canonical ∧ Blank [] ∧ Blank [0x0A] ∧
      parseManifest (.ofBytes ([] ++ sampleV2Manifest.canonical ++ [0x0A])) =
        .ok (sampleV2Manifest.manifest ([] ++ sampleV2Manifest.canonical ++ [0x0A]),
          Digest.ofBytes ([] ++ sampleV2Manifest.canonical ++ [0x0A])) :=
  have ht : Text sampleV2Manifest.marshal sampleV2Manifest.canonical :=
    text_write (strText_appendString true) blank_canonicalSpacing _ 0
  ⟨by decide, by decide, ht, blank_nil, by decide,
    parseManifest_reads_text _ (by decide) (by decide) ht blank_nil (by decide)⟩

/-- Descriptors that name blobs by their digests parse back to those digests. -/
theorem forall₂_parse_of_map_raw : ∀ {descs : List Descriptor} {blobs : List Digest},
    descs.map (·.digest) = blobs.map Digest.raw →
      List.Forall₂ (fun desc d => parseSHA256Digest desc.digest = .ok d) descs blobs
  | [], [], _ => .nil
  | _ :: _, blob :: _, h => by
      rw [List.map_cons, List.map_cons, List.cons.injEq] at h
      exact .cons (h.1 ▸ parseSHA256Digest_raw blob) (forall₂_parse_of_map_raw h.2)
  | [], _ :: _, h | _ :: _, [], h => nomatch h

/-- Content addressing from end to end: a document whose descriptors name blobs by their
digests, served as any text of its `json.Marshal` object while its slices are allocated, is
read by `ParseManifest`, and `GetManifestReferences` of what it returns lists exactly those
blobs, in order. -/
theorem getManifestReferences_reads_text (d : Document) (hwf : d.WellFormed) (hh : d.HeaderOk)
    {b w₁ w₂ : List UInt8} (hb : Text d.marshal b) (h₁ : Blank w₁) (h₂ : Blank w₂)
    {blobs : List Digest} (hd : d.references.map (·.digest) = blobs.map Digest.raw) :
    ∃ m, parseManifest (.ofBytes (w₁ ++ b ++ w₂)) = .ok (m, Digest.ofBytes (w₁ ++ b ++ w₂)) ∧
      getManifestReferences m = .ok blobs := by
  refine ⟨_, parseManifest_of_marshal hwf hh
    (parse_text hb d.wellFormed_marshal d.depth_marshal_le h₁ h₂), ?_⟩
  rw [getManifestReferences, getManifestReferencesLoop_eq_ok, references_manifest]
  exact ⟨blobs, rfl, forall₂_parse_of_map_raw hd⟩

/-- The config and the layer the sample manifest names. -/
def sampleBlobs : List Digest :=
  [⟨"b5b2b2c507a0944348e0303114d8d93aaaa081732b86451d9bce1f432a537bc7", by decide⟩,
    ⟨"e692418e4cbaf90ca69d05a66403747baa33ee08806650b51fab815ad7fc331f", by decide⟩]

theorem getManifestReferences_reads_text_sampleV2Manifest :
    sampleV2Manifest.WellFormed ∧ sampleV2Manifest.HeaderOk ∧
      Text sampleV2Manifest.marshal sampleV2Manifest.canonical ∧ Blank [] ∧ Blank [] ∧
      sampleV2Manifest.references.map (·.digest) = sampleBlobs.map Digest.raw ∧
      ∃ m, parseManifest (.ofBytes ([] ++ sampleV2Manifest.canonical ++ [])) =
          .ok (m, Digest.ofBytes ([] ++ sampleV2Manifest.canonical ++ [])) ∧
        getManifestReferences m = .ok sampleBlobs :=
  have ht : Text sampleV2Manifest.marshal sampleV2Manifest.canonical :=
    text_write (strText_appendString true) blank_canonicalSpacing _ 0
  have hd : sampleV2Manifest.references.map (·.digest) = sampleBlobs.map Digest.raw := by decide
  ⟨by decide, by decide, ht, blank_nil, blank_nil, hd,
    getManifestReferences_reads_text _ (by decide) (by decide) ht blank_nil blank_nil hd⟩

/-- The converse: every manifest `ParseManifest` returns is the manifest of a well-formed
document, built over the bytes read, whose header the parser of its kind lets through;
the digest is that of the bytes. -/
theorem parseManifest_returns_document {r : Reader} {b : List UInt8} {m : Manifest}
    {d : Digest} (hr : readAll r = .ok b) (h : parseManifest r = .ok (m, d)) :
    ∃ doc : Document, doc.WellFormed ∧ doc.HeaderOk ∧ m = doc.manifest b ∧
      d = Digest.ofBytes b := by
  obtain ⟨v, ⟨desc, hf⟩, -, -, hd, hver⟩ := exists_accepted_of_parseManifest hr h
  cases v with
  | v2Manifest =>
      obtain ⟨man, hu, hmt, rfl, -⟩ := schema2Func_eq_ok.mp hf
      obtain ⟨_, hv⟩ := exists_decode_of_unmarshal hu
      exact ⟨.v2Manifest man, Schema2.Manifest.wellFormed_of_decode hv,
        ⟨hmt, fun _ => hver nofun⟩, rfl, hd⟩
  | ociManifest =>
      obtain ⟨-, man, hu, hmt, rfl, -⟩ := ocischemaFunc_eq_ok.mp hf
      obtain ⟨_, hv⟩ := exists_decode_of_unmarshal hu
      exact ⟨.ociManifest man, Ocischema.Manifest.wellFormed_of_decode hv,
        ⟨hmt, fun _ => hver nofun⟩, rfl, hd⟩
  | v2ManifestList =>
      obtain ⟨-, ml, hu, hmt, rfl, -⟩ := manifestListFunc_eq_ok.mp hf
      obtain ⟨_, hv⟩ := exists_decode_of_unmarshal hu
      exact ⟨.v2ManifestList ml, Manifestlist.ManifestList.wellFormed_of_decode hv,
        ⟨hmt, fun _ => hver nofun⟩, rfl, hd⟩
  | ociIndex =>
      obtain ⟨-, ml, hu, hmt, rfl, -⟩ := imageIndexFunc_eq_ok.mp hf
      obtain ⟨_, hv⟩ := exists_decode_of_unmarshal hu
      exact ⟨.ociIndex ml, Manifestlist.ManifestList.wellFormed_of_decode hv,
        ⟨hmt, fun hne => absurd rfl hne⟩, rfl, hd⟩

theorem parseManifest_returns_document_minimalV2Manifest :
    readAll (.ofBytes minimalV2Manifest) = .ok minimalV2Manifest ∧
      ∃ m d, parseManifest (.ofBytes minimalV2Manifest) = .ok (m, d) ∧
        ∃ doc : Document, doc.WellFormed ∧ doc.HeaderOk ∧ m = doc.manifest minimalV2Manifest ∧
          d = Digest.ofBytes minimalV2Manifest := by
  have hr : readAll (.ofBytes minimalV2Manifest) = .ok minimalV2Manifest := rfl
  have hp : parseManifest (.ofBytes minimalV2Manifest) =
      .ok (minimalV2Decoded, Digest.ofBytes minimalV2Manifest) := by
    rw [parseManifest_of_readAll hr, parseManifestV2_minimalV2Manifest]
  exact ⟨hr, _, _, hp, parseManifest_returns_document hr hp⟩

end Document

theorem exists_parse_of_declared {b : List UInt8} {mt : String}
    (h : declaredMediaType b = .ok mt) : ∃ v, parse b = .ok v := by
  obtain ⟨ver, hu, -⟩ := Except.map_eq_ok.mp h
  exact exists_parse_of_unmarshal hu

/-- Every parser of the chain first reads the payload with `encoding/json`. -/
theorem exists_parse_of_parseManifest {r : Reader} {b : List UInt8} {m : Manifest} {d : Digest}
    (hr : readAll r = .ok b) (h : parseManifest r = .ok (m, d)) : ∃ v, parse b = .ok v := by
  obtain ⟨v, hv⟩ := exists_accepted_of_parseManifest hr h
  obtain ⟨mt, hmt, -⟩ := hv.declared
  exact exists_parse_of_declared hmt

/-- `ParseManifest` returns a manifest only for a payload that is one JSON value: its
numbers are JSON number literals, and it nests at most `maxNestingDepth` containers deep. -/
theorem parseManifest_payload_is_json {r : Reader} {b : List UInt8} {m : Manifest} {d : Digest}
    (hr : readAll r = .ok b) (h : parseManifest r = .ok (m, d)) :
    ∃ v, parse b = .ok v ∧ v.WellFormed ∧ v.depth ≤ maxNestingDepth := by
  obtain ⟨val, hp⟩ := exists_parse_of_parseManifest hr h
  exact ⟨val, hp, parse_fits hp⟩

theorem parseManifest_payload_is_json_minimalV2Manifest :
    readAll (.ofBytes minimalV2Manifest) = .ok minimalV2Manifest ∧
      parseManifest (.ofBytes minimalV2Manifest) =
        .ok (minimalV2Decoded, Digest.ofBytes minimalV2Manifest) ∧
      ∃ v, parse minimalV2Manifest = .ok v ∧ v.WellFormed ∧ v.depth ≤ maxNestingDepth := by
  have hr : readAll (.ofBytes minimalV2Manifest) = .ok minimalV2Manifest := rfl
  have hp : parseManifest (.ofBytes minimalV2Manifest) =
      .ok (minimalV2Decoded, Digest.ofBytes minimalV2Manifest) := by
    rw [parseManifest_of_readAll hr, parseManifestV2_minimalV2Manifest]
  exact ⟨hr, hp, parseManifest_payload_is_json hr hp⟩

/-- `ParseManifest` returns a manifest only for a payload that is a JSON text: one value with
whitespace around it, in a grammar over bytes that does not mention the scanner. -/
theorem parseManifest_payload_is_jsonText {r : Reader} {b : List UInt8} {m : Manifest}
    {d : Digest} (hr : readAll r = .ok b) (h : parseManifest r = .ok (m, d)) : JsonText b := by
  obtain ⟨v, hp⟩ := exists_parse_of_parseManifest hr h
  exact jsonText_of_parse hp

theorem parseManifest_payload_is_jsonText_minimalV2Manifest :
    readAll (.ofBytes minimalV2Manifest) = .ok minimalV2Manifest ∧
      parseManifest (.ofBytes minimalV2Manifest) =
        .ok (minimalV2Decoded, Digest.ofBytes minimalV2Manifest) ∧
      JsonText minimalV2Manifest := by
  have hr : readAll (.ofBytes minimalV2Manifest) = .ok minimalV2Manifest := rfl
  have hp : parseManifest (.ofBytes minimalV2Manifest) =
      .ok (minimalV2Decoded, Digest.ofBytes minimalV2Manifest) := by
    rw [parseManifest_of_readAll hr, parseManifestV2_minimalV2Manifest]
  exact ⟨hr, hp, parseManifest_payload_is_jsonText hr hp⟩

end Kraken.Dockerutil
