import Kraken.Distribution.Unmarshal
import Kraken.Digest.Core
import Mathlib.Data.List.Forall2

/-!
# `utils/dockerutil`

`ParseManifest` reads a payload and tries four parsers in turn: Docker v2 manifest,
OCI manifest, Docker v2 manifest list, OCI index. The first three share one shape,
`parseVersioned`: unmarshal under their media type, assert the concrete type, require
schema version 2, parse the digest. `ParseOCIIndex` has neither the type assertion nor
the version check. `GetManifestReferences` parses the digest of every reference in
order and gives up at the first that does not parse.
-/

namespace Kraken.Dockerutil

open Distribution Core

/-- `_v2ManifestType`. -/
def v2ManifestType : String := "application/vnd.docker.distribution.manifest.v2+json"

/-- `_v2ManifestListType`. -/
def v2ManifestListType : String := "application/vnd.docker.distribution.manifest.list.v2+json"

/-- `_ociManifestType`. -/
def ociManifestType : String := "application/vnd.oci.image.manifest.v1+json"

/-- `_ociIndexType`. -/
def ociIndexType : String := "application/vnd.oci.image.index.v1+json"

/-- An `io.Reader` as `io.ReadAll` sees it: the bytes it yields, then EOF or an error. -/
structure Reader where
  content : List UInt8
  failure : Option GoError

/-- `bytes.NewReader(b)`. -/
def Reader.ofBytes (b : List UInt8) : Reader := ⟨b, none⟩

/-- `io.ReadAll`. -/
def readAll (r : Reader) : Except GoError (List UInt8) :=
  match r.failure with
  | none => .ok r.content
  | some err => .error err

/-- The body `ParseManifestV2`, `ParseManifestV2List` and `ParseOCIManifest` share. -/
def parseVersioned (mediaType context : String) (assert : Manifest → Option Versioned)
    (expected versionContext : String) (bytes : List UInt8) :
    Except GoError (Manifest × Digest) := do
  let (manifest, desc) ← (unmarshalManifest mediaType bytes).mapError (.wrap context)
  let some versioned := assert manifest | throw (.text expected)
  let version := versioned.schemaVersion
  if version ≠ 2 then throw (.text (versionContext ++ ": " ++ toString version))
  let d ← (parseSHA256Digest desc.digest).mapError (.wrap "parse digest")
  return (manifest, d)

/-- `ParseManifestV2`. -/
def parseManifestV2 : List UInt8 → Except GoError (Manifest × Digest) :=
  parseVersioned mediaTypeManifest "unmarshal manifest" Manifest.asSchema2
    "expected schema2.DeserializedManifest" "unsupported manifest version"

/-- `ParseManifestV2List`. -/
def parseManifestV2List : List UInt8 → Except GoError (Manifest × Digest) :=
  parseVersioned mediaTypeManifestList "unmarshal manifestlist" Manifest.asManifestList
    "expected manifestlist.DeserializedManifestList" "unsupported manifest list version"

/-- `ParseOCIManifest`. -/
def parseOCIManifest : List UInt8 → Except GoError (Manifest × Digest) :=
  parseVersioned ociManifestType "unmarshal oci manifest" Manifest.asOcischema
    "expected ocischema.DeserializedManifest" "unsupported oci manifest version"

/-- `ParseOCIIndex`: no type assertion and no version check. -/
def parseOCIIndex (bytes : List UInt8) : Except GoError (Manifest × Digest) := do
  let (index, desc) ← (unmarshalManifest ociIndexType bytes).mapError (.wrap "unmarshal oci index")
  let d ← (parseSHA256Digest desc.digest).mapError (.wrap "parse digest")
  return (index, d)

/-- `ParseManifest`. -/
def parseManifest (r : Reader) : Except GoError (Manifest × Digest) := do
  let b ← (readAll r).mapError (.wrap "read")
  match parseManifestV2 b with
  | .ok res => return res
  | .error _ =>
  match parseOCIManifest b with
  | .ok res => return res
  | .error _ =>
  match parseManifestV2List b with
  | .ok res => return res
  | .error _ => parseOCIIndex b

/-- The loop of `GetManifestReferences`, with the digests `refs` appended so far. -/
def getManifestReferencesLoop (refs : List Digest) : List Descriptor → Except GoError (List Digest)
  | [] => .ok refs
  | desc :: descs =>
      match parseSHA256Digest desc.digest with
      | .error err => .error (.wrap "parse digest" err)
      | .ok d => getManifestReferencesLoop (refs ++ [d]) descs

/-- `GetManifestReferences`. -/
def getManifestReferences (manifest : Manifest) : Except GoError (List Digest) :=
  getManifestReferencesLoop [] manifest.references

/-- `GetSupportedManifestTypes`. -/
def getSupportedManifestTypes : String :=
  v2ManifestType ++ "," ++ v2ManifestListType ++ "," ++ ociManifestType ++ "," ++ ociIndexType

/-! ## One lemma per function -/

theorem ociManifestType_eq : ociManifestType = mediaTypeImageManifest := rfl

theorem ociIndexType_eq : ociIndexType = mediaTypeImageIndex := rfl

theorem parseVersioned_eq_ok {mt ctx expected vctx : String} {assert : Manifest → Option Versioned}
    {b : List UInt8} {m : Manifest} {d : Digest} :
    parseVersioned mt ctx assert expected vctx b = .ok (m, d) ↔
      ∃ desc ver, unmarshalManifest mt b = .ok (m, desc) ∧ assert m = some ver ∧
        ver.schemaVersion = 2 ∧ parseSHA256Digest desc.digest = .ok d := by
  constructor
  · intro h
    cases hu : unmarshalManifest mt b with
    | error e => simp [parseVersioned, hu] at h
    | ok r =>
        obtain ⟨m', desc⟩ := r
        cases ha : assert m' with
        | none => simp [parseVersioned, hu, ha] at h
        | some ver =>
            by_cases hv : ver.schemaVersion = 2
            · cases hd : parseSHA256Digest desc.digest with
              | error e => simp [parseVersioned, hu, ha, hv, hd] at h
              | ok d' =>
                  simp [parseVersioned, hu, ha, hv, hd] at h
                  obtain ⟨rfl, rfl⟩ := h
                  exact ⟨desc, ver, rfl, ha, hv, hd⟩
            · simp [parseVersioned, hu, ha, hv] at h
  · rintro ⟨desc, ver, hu, ha, hv, hd⟩
    simp [parseVersioned, hu, ha, hv, hd]

theorem parseOCIIndex_eq_ok {b : List UInt8} {m : Manifest} {d : Digest} :
    parseOCIIndex b = .ok (m, d) ↔
      ∃ desc, imageIndexFunc b = .ok (m, desc) ∧ parseSHA256Digest desc.digest = .ok d := by
  rw [parseOCIIndex, ociIndexType_eq, unmarshalManifest_mediaTypeImageIndex]
  constructor
  · intro h
    cases hu : imageIndexFunc b with
    | error e => simp [hu] at h
    | ok r =>
        obtain ⟨m', desc⟩ := r
        cases hd : parseSHA256Digest desc.digest with
        | error e => simp [hu, hd] at h
        | ok d' =>
            simp [hu, hd] at h
            obtain ⟨rfl, rfl⟩ := h
            exact ⟨desc, rfl, hd⟩
  · rintro ⟨desc, hu, hd⟩
    simp [hu, hd]

/-- `ParseManifest` on a reader read to the end: the chain of the four parsers. -/
theorem parseManifest_of_readAll {r : Reader} {b : List UInt8} (hr : readAll r = .ok b) :
    parseManifest r =
      match parseManifestV2 b with
      | .ok res => .ok res
      | .error _ =>
        match parseOCIManifest b with
        | .ok res => .ok res
        | .error _ =>
          match parseManifestV2List b with
          | .ok res => .ok res
          | .error _ => parseOCIIndex b := by
  simp only [parseManifest, hr, Except.mapError_ok, Except.ok_bind]
  rfl

/-! The loop of `GetManifestReferences`, from any prefix `refs` on: it succeeds exactly
when every digest parses, appending the parsed digests in order, and otherwise fails
with the error of the first digest that does not parse. -/

theorem getManifestReferencesLoop_eq_ok {refs out : List Digest} {descs : List Descriptor} :
    getManifestReferencesLoop refs descs = .ok out ↔
      ∃ ds, out = refs ++ ds ∧
        List.Forall₂ (fun desc d => parseSHA256Digest desc.digest = .ok d) descs ds := by
  induction descs generalizing refs with
  | nil => simp [getManifestReferencesLoop, eq_comm]
  | cons desc descs ih =>
      cases hd : parseSHA256Digest desc.digest with
      | error e =>
          simp only [getManifestReferencesLoop, hd, reduceCtorEq, false_iff, not_exists, not_and]
          rintro (_ | ⟨d, ds⟩) - h
          · cases h
          · obtain ⟨h1, -⟩ := List.forall₂_cons.mp h
            rw [hd] at h1
            cases h1
      | ok d =>
          simp only [getManifestReferencesLoop, hd, ih]
          constructor
          · rintro ⟨ds, rfl, h⟩
            exact ⟨d :: ds, by simp, .cons hd h⟩
          · rintro ⟨_ | ⟨d', ds⟩, rfl, h⟩
            · cases h
            · obtain ⟨h1, h2⟩ := List.forall₂_cons.mp h
              rw [hd] at h1
              cases h1
              exact ⟨ds, by simp, h2⟩

theorem getManifestReferencesLoop_eq_error {refs : List Digest} {descs : List Descriptor}
    {e : GoError} :
    getManifestReferencesLoop refs descs = .error e ↔
      ∃ pre desc post err, descs = pre ++ desc :: post ∧
        (∀ x ∈ pre, ∃ d, parseSHA256Digest x.digest = .ok d) ∧
        parseSHA256Digest desc.digest = .error err ∧ e = .wrap "parse digest" err := by
  induction descs generalizing refs with
  | nil => simp [getManifestReferencesLoop]
  | cons desc descs ih =>
      cases hd : parseSHA256Digest desc.digest with
      | error err =>
          simp only [getManifestReferencesLoop, hd]
          constructor
          · rintro ⟨⟩
            exact ⟨[], desc, descs, err, rfl, by simp, hd, rfl⟩
          · rintro ⟨_ | ⟨x, pre⟩, desc', post, err', h, hpre, hd', rfl⟩
            · simp at h
              obtain ⟨rfl, rfl⟩ := h
              rw [hd] at hd'
              cases hd'
              rfl
            · simp at h hpre
              obtain ⟨rfl, rfl⟩ := h
              obtain ⟨d, hx⟩ := hpre.1
              rw [hd] at hx
              cases hx
      | ok d =>
          simp only [getManifestReferencesLoop, hd, ih]
          constructor
          · rintro ⟨pre, desc', post, err, rfl, hpre, hd', rfl⟩
            exact ⟨desc :: pre, desc', post, err, rfl, by simpa [hd] using hpre, hd', rfl⟩
          · rintro ⟨_ | ⟨x, pre⟩, desc', post, err, h, hpre, hd', rfl⟩
            · simp at h
              obtain ⟨rfl, rfl⟩ := h
              rw [hd] at hd'
              cases hd'
            · simp at h hpre
              obtain ⟨rfl, rfl⟩ := h
              exact ⟨pre, desc', post, err, rfl, hpre.2, hd', rfl⟩

theorem exists_forall₂_iff {α β : Type} {R : α → β → Prop} {xs : List α} :
    (∃ ys, List.Forall₂ R xs ys) ↔ ∀ x ∈ xs, ∃ y, R x y := by
  induction xs with
  | nil => simp
  | cons x xs ih =>
      simp only [List.mem_cons, forall_eq_or_imp, ← ih]
      constructor
      · rintro ⟨_ | ⟨y, ys⟩, h⟩
        · cases h
        · obtain ⟨h₁, h₂⟩ := List.forall₂_cons.mp h
          exact ⟨⟨y, h₁⟩, ys, h₂⟩
      · rintro ⟨⟨y, hy⟩, ys, hys⟩
        exact ⟨y :: ys, .cons hy hys⟩

theorem getManifestReferences_ok_iff_all_parse (m : Manifest) :
    (∀ refs, getManifestReferences m = .ok refs ↔
      List.Forall₂ (fun desc d => parseSHA256Digest desc.digest = .ok d) m.references refs) ∧
    ((∃ refs, getManifestReferences m = .ok refs) ↔
      ∀ desc ∈ m.references, ∃ d, parseSHA256Digest desc.digest = .ok d) ∧
    (∀ e, getManifestReferences m = .error e ↔
      ∃ pre desc post err, m.references = pre ++ desc :: post ∧
        (∀ x ∈ pre, ∃ d, parseSHA256Digest x.digest = .ok d) ∧
        parseSHA256Digest desc.digest = .error err ∧ e = .wrap "parse digest" err) := by
  have hok : ∀ refs, getManifestReferences m = .ok refs ↔
      List.Forall₂ (fun desc d => parseSHA256Digest desc.digest = .ok d) m.references refs := by
    intro refs
    rw [getManifestReferences, getManifestReferencesLoop_eq_ok]
    simp
  refine ⟨hok, ?_, fun e => getManifestReferencesLoop_eq_error⟩
  simp only [hok]
  exact exists_forall₂_iff

end Kraken.Dockerutil
