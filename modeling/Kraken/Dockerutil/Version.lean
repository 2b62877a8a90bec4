import Kraken.Dockerutil.Resolve

/-!
# Schema versions and the errors of the chain

Three of the four parsers check that the schema version is 2. `ParseOCIIndex` has no such
check, and it is the last parser of the chain: a payload that declares the OCI index
type resolves whatever its version, and when every parser fails the chain reports the
OCI index parser's error, which is always an unmarshal error. A Docker manifest whose
version is wrong therefore fails with a complaint about OCI indexes.
-/

namespace Kraken.Dockerutil

open Distribution Core Json Variant

/-- A parser that checks the version fails on what its unmarshal function accepts with
another version. -/
theorem parse_fail_of_version {b : List UInt8} {v : Variant} (hv : v ≠ ociIndex) {m : Manifest}
    {desc : Descriptor} (hdec : v.func b = .ok (m, desc)) (hver : m.schemaVersion ≠ 2) :
    (v.parse b).toOption = none := by
  cases hp : v.parse b with
  | error => rfl
  | ok res =>
      obtain ⟨m', d'⟩ := res
      have hacc := accepted hp
      obtain ⟨desc', hf⟩ := hacc.func
      rw [hdec] at hf
      cases hf
      exact absurd (hacc.version hv) hver

/-- `ParseManifest` returns every payload that declares the OCI index type and that the
index's unmarshal function accepts, whatever its schema version. -/
theorem parseManifest_accepts_index_of_any_version {r : Reader} {b : List UInt8}
    (hr : readAll r = .ok b) (hmt : declaredMediaType b = .ok ociIndexType) {m : Manifest}
    {desc : Descriptor} (h : imageIndexFunc b = .ok (m, desc)) :
    parseManifest r = .ok (m, Digest.ofBytes b) := by
  have hmt' : declaredMediaType b = .ok ociIndex.mediaType := hmt
  rw [parseManifest_eq_parseOCIIndex hr fun v hv => parse_fail_of_declared hmt' hv]
  exact parseOCIIndex_of_imageIndexFunc h

/-- An OCI index of schema version 3. -/
def indexV3 : List UInt8 :=
  bytesOf ("\x7b\"schemaVersion\":3,\"mediaType\":\"application/vnd.oci.image.index.v1+json\"," ++
    "\"manifests\":[]\x7d")

theorem parseManifest_accepts_indexV3 :
    readAll (.ofBytes indexV3) = .ok indexV3 ∧ declaredMediaType indexV3 = .ok ociIndexType ∧
      imageIndexFunc indexV3 = .ok (.manifestList ⟨⟨⟨3, mediaTypeImageIndex⟩, []⟩, indexV3⟩,
        .ofBytes mediaTypeImageIndex indexV3) ∧
      parseManifest (.ofBytes indexV3) =
        .ok (.manifestList ⟨⟨⟨3, mediaTypeImageIndex⟩, []⟩, indexV3⟩, Digest.ofBytes indexV3) := by
  have hf : imageIndexFunc indexV3 = .ok (.manifestList ⟨⟨⟨3, mediaTypeImageIndex⟩, []⟩, indexV3⟩,
      .ofBytes mediaTypeImageIndex indexV3) :=
    imageIndexFunc_eq_ok.mpr ⟨rfl, _, rfl, .inr rfl, rfl, rfl⟩
  have hr : readAll (.ofBytes indexV3) = .ok indexV3 := rfl
  exact ⟨hr, rfl, hf, parseManifest_accepts_index_of_any_version hr rfl hf⟩

theorem parseManifest_returns_schemaVersion_three :
    ∃ m, parseManifest (.ofBytes indexV3) = .ok (m, Digest.ofBytes indexV3) ∧
      m.schemaVersion = 3 := by
  have hr : readAll (.ofBytes indexV3) = .ok indexV3 := rfl
  have hmt : declaredMediaType indexV3 = .ok ociIndex.mediaType := rfl
  refine ⟨.manifestList ⟨⟨⟨3, mediaTypeImageIndex⟩, []⟩, indexV3⟩, ?_, rfl⟩
  rw [parseManifest_eq_parseOCIIndex hr fun v hv => parse_fail_of_declared hmt hv]
  exact parseOCIIndex_of_imageIndexFunc (imageIndexFunc_eq_ok.mpr ⟨rfl, _, rfl, .inr rfl, rfl, rfl⟩)

/-- Whenever a payload read without error fails, `ParseManifest` reports the OCI index
parser's unmarshal error. -/
theorem parseManifest_error_is_index_error {r : Reader} {b : List UInt8} (hr : readAll r = .ok b)
    {e : GoError} (h : parseManifest r = .error e) : ∃ e', e = .wrap "unmarshal oci index" e' := by
  have hnone : chain.findSome? (fun v => (v.parse b).toOption) = none := by
    rw [← toOption_fallback, ← parseManifest_eq_fallback hr, h]
    rfl
  have hfail : ∀ v, v ≠ ociIndex → (v.parse b).toOption = none := fun v _ =>
    List.findSome?_eq_none_iff.mp hnone v (by cases v <;> decide)
  rw [parseManifest_eq_parseOCIIndex hr hfail] at h
  exact parseOCIIndex_error h

theorem parseManifest_error_is_index_error_textPlainPayload :
    readAll (.ofBytes textPlainPayload) = .ok textPlainPayload ∧
      parseManifest (.ofBytes textPlainPayload) = .error (.wrap "unmarshal oci index"
        (mediaTypeMismatch "if present, mediaType in image index should be" mediaTypeImageIndex
          "text/plain")) ∧
      ∃ e', GoError.wrap "unmarshal oci index" (mediaTypeMismatch
        "if present, mediaType in image index should be" mediaTypeImageIndex "text/plain") =
          .wrap "unmarshal oci index" e' := by
  have hr : readAll (.ofBytes textPlainPayload) = .ok textPlainPayload := rfl
  have h : parseManifest (.ofBytes textPlainPayload) = .error (.wrap "unmarshal oci index"
      (mediaTypeMismatch "if present, mediaType in image index should be" mediaTypeImageIndex
        "text/plain")) := rfl
  exact ⟨hr, h, parseManifest_error_is_index_error hr h⟩

/-- A payload that declares a type the first three parsers support, that type's unmarshal
function accepts, and whose version is not 2, makes `ParseManifest` fail with the OCI
index parser's unmarshal error, never with the version error. -/
theorem parseManifest_version_mismatch_reports_index_error {r : Reader} {b : List UInt8}
    (hr : readAll r = .ok b) {v : Variant} (hv : v ≠ ociIndex)
    (hmt : declaredMediaType b = .ok v.mediaType) {m : Manifest} {desc : Descriptor}
    (hdec : v.func b = .ok (m, desc)) (hver : m.schemaVersion ≠ 2) :
    (v.parse b).toOption = none ∧
      ∃ e, parseManifest r = .error (.wrap "unmarshal oci index" e) := by
  have hfail : ∀ w, w ≠ ociIndex → (w.parse b).toOption = none := by
    intro w hw
    by_cases hwv : w = v
    · subst hwv
      exact parse_fail_of_version hw hdec hver
    · exact parse_fail_of_declared hmt hwv
  refine ⟨hfail v hv, ?_⟩
  rw [parseManifest_eq_parseOCIIndex hr hfail]
  obtain ⟨e, he⟩ := Except.toOption_eq_none.mp (parse_fail_of_declared hmt (Ne.symm hv))
  obtain ⟨e', rfl⟩ := parseOCIIndex_error he
  exact ⟨e', he⟩

/-- A Docker v2 manifest of schema version 3. -/
def v2ManifestV3 : List UInt8 :=
  bytesOf ("\x7b\"schemaVersion\":3,\"mediaType\":" ++
    "\"application/vnd.docker.distribution.manifest.v2+json\"\x7d")

/-- What the Docker v2 unmarshal function decodes from `v2ManifestV3`. -/
def v2ManifestV3Decoded : Manifest := .schema2 ⟨⟨⟨3, mediaTypeManifest⟩, .zero, []⟩, v2ManifestV3⟩

theorem parseManifest_version_mismatch_v2ManifestV3 :
    readAll (.ofBytes v2ManifestV3) = .ok v2ManifestV3 ∧ v2Manifest ≠ ociIndex ∧
      declaredMediaType v2ManifestV3 = .ok v2Manifest.mediaType ∧
      v2Manifest.func v2ManifestV3 =
        .ok (v2ManifestV3Decoded, .ofBytes mediaTypeManifest v2ManifestV3) ∧
      v2ManifestV3Decoded.schemaVersion ≠ 2 ∧
      (v2Manifest.parse v2ManifestV3).toOption = none ∧
      ∃ e, parseManifest (.ofBytes v2ManifestV3) = .error (.wrap "unmarshal oci index" e) := by
  have hr : readAll (.ofBytes v2ManifestV3) = .ok v2ManifestV3 := rfl
  have hmt : declaredMediaType v2ManifestV3 = .ok v2Manifest.mediaType := rfl
  have hdec : v2Manifest.func v2ManifestV3 =
      .ok (v2ManifestV3Decoded, .ofBytes mediaTypeManifest v2ManifestV3) :=
    schema2Func_eq_ok.mpr ⟨⟨⟨3, mediaTypeManifest⟩, .zero, []⟩, rfl, rfl, rfl, rfl⟩
  have hver : v2ManifestV3Decoded.schemaVersion ≠ 2 := by decide
  exact ⟨hr, by decide, hmt, hdec, hver,
    parseManifest_version_mismatch_reports_index_error hr (by decide) hmt hdec hver⟩

theorem parseManifest_drops_version_error :
    declaredMediaType v2ManifestV3 = .ok v2ManifestType ∧
      parseManifestV2 v2ManifestV3 = .error (.text "unsupported manifest version: 3") ∧
      parseManifest (.ofBytes v2ManifestV3) = .error (.wrap "unmarshal oci index"
        (mediaTypeMismatch "if present, mediaType in image index should be" mediaTypeImageIndex
          mediaTypeManifest)) ∧
      parseManifest (.ofBytes v2ManifestV3) ≠ parseManifestV2 v2ManifestV3 := by
  have hv2 : parseManifestV2 v2ManifestV3 = .error (.text "unsupported manifest version: 3") := rfl
  have hchain : parseManifest (.ofBytes v2ManifestV3) = .error (.wrap "unmarshal oci index"
      (mediaTypeMismatch "if present, mediaType in image index should be" mediaTypeImageIndex
        mediaTypeManifest)) := rfl
  refine ⟨rfl, hv2, hchain, ?_⟩
  rw [hv2, hchain]
  exact fun h => GoError.noConfusion (Except.error.inj h)

/-- The three parsers that check the version accept exactly the payloads that the unmarshal
function of their media type accepts and that declare schema version 2: their type assertion
and their digest parse never fail on what the unmarshal function returns. They return the
decoded manifest with the digest of the payload. -/
theorem parse_eq_ok_iff_declares_version_two {v : Variant} (hv : v ≠ ociIndex)
    {b : List UInt8} {m : Manifest} {d : Digest} :
    v.parse b = .ok (m, d) ↔
      (∃ desc, v.func b = .ok (m, desc)) ∧ declaredSchemaVersion b = .ok 2 ∧
        d = Digest.ofBytes b := by
  have hdecl : ∀ {desc}, v.func b = .ok (m, desc) →
      declaredSchemaVersion b = .ok m.schemaVersion := fun hf => by
    rw [declaredSchemaVersion, func_versioned hf]
    rfl
  constructor
  · intro h
    have hacc := accepted h
    obtain ⟨desc, hf⟩ := hacc.func
    exact ⟨⟨desc, hf⟩, by rw [hdecl hf, hacc.version hv], hacc.digest⟩
  · rintro ⟨⟨desc, hf⟩, hver, rfl⟩
    have h2 : m.schemaVersion = 2 := Except.ok.inj ((hdecl hf).symm.trans hver)
    have hd : parseSHA256Digest desc.digest = .ok (Digest.ofBytes b) := by
      rw [(func_ok hf).2.2]
      exact parseSHA256Digest_fromBytes b
    have hu := (unmarshalManifest_mediaType v b).trans hf
    cases v with
    | v2Manifest =>
        obtain ⟨_, -, -, rfl, -⟩ := schema2Func_eq_ok.mp hf
        exact parseVersioned_eq_ok.mpr ⟨desc, _, hu, rfl, h2, hd⟩
    | ociManifest =>
        obtain ⟨-, _, -, -, rfl, -⟩ := ocischemaFunc_eq_ok.mp hf
        exact parseVersioned_eq_ok.mpr ⟨desc, _, hu, rfl, h2, hd⟩
    | v2ManifestList =>
        obtain ⟨-, _, -, -, rfl, -⟩ := manifestListFunc_eq_ok.mp hf
        exact parseVersioned_eq_ok.mpr ⟨desc, _, hu, rfl, h2, hd⟩
    | ociIndex => exact absurd rfl hv

theorem parse_eq_ok_iff_declares_version_two_v2Manifest :
    v2Manifest ≠ ociIndex ∧
      v2Manifest.parse minimalV2Manifest =
        .ok (minimalV2Decoded, Digest.ofBytes minimalV2Manifest) ∧
      declaredSchemaVersion v2ManifestV3 = .ok 3 ∧
      ∀ m d, v2Manifest.parse v2ManifestV3 ≠ .ok (m, d) := by
  have hne : v2Manifest ≠ ociIndex := by decide
  have hf : v2Manifest.func minimalV2Manifest =
      .ok (minimalV2Decoded, .ofBytes mediaTypeManifest minimalV2Manifest) :=
    schema2Func_eq_ok.mpr ⟨⟨⟨2, mediaTypeManifest⟩, .zero, []⟩, rfl, rfl, rfl, rfl⟩
  refine ⟨hne, (parse_eq_ok_iff_declares_version_two hne).mpr ⟨⟨_, hf⟩, rfl, rfl⟩, rfl,
    fun m d h => ?_⟩
  have h3 := ((parse_eq_ok_iff_declares_version_two hne).mp h).2.1
  rw [show declaredSchemaVersion v2ManifestV3 = .ok 3 from rfl] at h3
  exact absurd (Except.ok.inj h3) (by decide)

end Kraken.Dockerutil
