import Kraken.Dockerutil.Parse

/-!
# Which manifest a payload resolves to

`ParseManifest` tries four parsers in a fixed order and returns the first success, or
else the error of the last one. Each parser hands the payload to the unmarshal function
of one media type, and each of those lets through only payloads that declare that type
(the two OCI functions also let through a payload that declares none). So a payload
that declares a media type is accepted by at most one parser: the manifest it resolves
to is the variant its declared type names, whichever order the chain has, and its
digest is the SHA-256 of the bytes read.

`Variant.accepted` says once what a parser has checked when it accepts a payload;
every result about the chain below is derived from it and from `fallback`, the chain
over any order of the parsers.
-/

namespace Kraken.Dockerutil

open Distribution Core Json

/-- The media type a payload declares: its `mediaType` as decoding into
`manifest.Versioned` reads it. -/
def declaredMediaType (b : List UInt8) : Except JsonError String :=
  (unmarshal Versioned.decode .zero b).map (·.mediaType)

/-- The schema version a payload declares, as decoding into `manifest.Versioned` reads it. -/
def declaredSchemaVersion (b : List UInt8) : Except JsonError Int :=
  (unmarshal Versioned.decode .zero b).map (·.schemaVersion)

/-- A manifest struct that embeds `manifest.Versioned` decodes the header that decoding into
`manifest.Versioned` alone reads. -/
theorem unmarshal_versioned_of_lift {α : Type} {dec : α → Value → Except UnmarshalTypeError α}
    {zero man : α} {b : List UInt8} (get : α → Versioned) (h : unmarshal dec zero b = .ok man)
    (hdec : ∀ {cur s : α} {v : Value},
      dec cur v = .ok s → Versioned.decode (get cur) v = .ok (get s))
    (hz : get zero = .zero) : unmarshal Versioned.decode .zero b = .ok (get man) := by
  rw [← hz]
  exact unmarshal_lift (fun hv => hdec hv) h

/-- A manifest struct that embeds `manifest.Versioned` declares the media type it decoded. -/
theorem declaredMediaType_of_lift {α : Type} {dec : α → Value → Except UnmarshalTypeError α}
    {zero man : α} {b : List UInt8} (get : α → Versioned) (h : unmarshal dec zero b = .ok man)
    (hdec : ∀ {cur s : α} {v : Value},
      dec cur v = .ok s → Versioned.decode (get cur) v = .ok (get s))
    (hz : get zero = .zero) : declaredMediaType b = .ok (get man).mediaType := by
  rw [declaredMediaType, unmarshal_versioned_of_lift get h hdec hz]
  rfl

/-- The four parsers of `ParseManifest`. -/
inductive Variant where
  | v2Manifest
  | ociManifest
  | v2ManifestList
  | ociIndex
  deriving DecidableEq, Repr

namespace Variant

/-- The order in which `ParseManifest` tries the parsers. -/
def chain : List Variant := [v2Manifest, ociManifest, v2ManifestList, ociIndex]

def mediaType : Variant → String
  | v2Manifest => v2ManifestType
  | ociManifest => ociManifestType
  | v2ManifestList => v2ManifestListType
  | ociIndex => ociIndexType

def parse : Variant → List UInt8 → Except GoError (Manifest × Digest)
  | v2Manifest => parseManifestV2
  | ociManifest => parseOCIManifest
  | v2ManifestList => parseManifestV2List
  | ociIndex => parseOCIIndex

/-- The unmarshal function `UnmarshalManifest` picks for the parser's media type. -/
def func : Variant → List UInt8 → Except GoError (Manifest × Descriptor)
  | v2Manifest => schema2Func
  | ociManifest => ocischemaFunc
  | v2ManifestList => manifestListFunc
  | ociIndex => imageIndexFunc

/-- The declared media types the variant's unmarshal function lets through. -/
def admits : Variant → String → Prop
  | v2Manifest, mt => mt = v2ManifestType
  | ociManifest, mt => mt = "" ∨ mt = ociManifestType
  | v2ManifestList, mt => mt = v2ManifestListType
  | ociIndex, mt => mt = "" ∨ mt = ociIndexType

instance : (v : Variant) → (mt : String) → Decidable (v.admits mt)
  | v2Manifest, _ => inferInstanceAs (Decidable (_ = _))
  | ociManifest, _ => inferInstanceAs (Decidable (_ ∨ _))
  | v2ManifestList, _ => inferInstanceAs (Decidable (_ = _))
  | ociIndex, _ => inferInstanceAs (Decidable (_ ∨ _))

/-- The variant a declared media type names, if any: what `ParseManifest` is for, stated
without the parsers. -/
def ofMediaType (mt : String) : Option Variant := chain.find? (·.mediaType == mt)

theorem ofMediaType_mediaType (v : Variant) : ofMediaType v.mediaType = some v := by
  cases v <;> decide

theorem mediaType_injective : Function.Injective mediaType := by
  intro v w h
  cases v <;> cases w <;> first | rfl | exact absurd h (by decide)

theorem mediaType_ne_empty (v : Variant) : v.mediaType ≠ "" := by
  cases v <;> decide

theorem eq_mediaType_of_admits {v : Variant} {mt : String} (h : v.admits mt) (hmt : mt ≠ "") :
    mt = v.mediaType := by
  cases v with
  | v2Manifest | v2ManifestList => exact h
  | ociManifest | ociIndex => exact h.resolve_left hmt

/-- A supported media type is admitted by its own variant only. -/
theorem admits_mediaType_iff {v w : Variant} : w.admits v.mediaType ↔ w = v := by
  constructor
  · intro h
    exact mediaType_injective (eq_mediaType_of_admits h (mediaType_ne_empty v)).symm
  · rintro rfl
    cases w <;> first | rfl | exact .inr rfl

theorem unmarshalManifest_mediaType (v : Variant) (b : List UInt8) :
    unmarshalManifest v.mediaType b = v.func b := by
  cases v
  · exact unmarshalManifest_mediaTypeManifest b
  · exact unmarshalManifest_mediaTypeImageManifest b
  · exact unmarshalManifest_mediaTypeManifestList b
  · exact unmarshalManifest_mediaTypeImageIndex b

/-! ## What a parser has checked when it accepts -/

/-- What an unmarshal function has checked when it accepts a payload: the declared media
type is one the variant admits, and the result describes exactly the bytes given. -/
theorem func_ok {v : Variant} {b : List UInt8} {m : Manifest} {desc : Descriptor}
    (h : v.func b = .ok (m, desc)) :
    (∃ mt, declaredMediaType b = .ok mt ∧ v.admits mt) ∧ m.payload = (v.mediaType, b) ∧
      desc = .ofBytes v.mediaType b := by
  cases v with
  | v2Manifest =>
      obtain ⟨man, hu, hmt, rfl, rfl⟩ := schema2Func_eq_ok.mp h
      refine ⟨⟨_, declaredMediaType_of_lift _ hu Schema2.Manifest.decode_versioned rfl, hmt⟩,
        ?_, rfl⟩
      rw [Manifest.payload, hmt]
      rfl
  | ociManifest =>
      obtain ⟨-, man, hu, hmt, rfl, rfl⟩ := ocischemaFunc_eq_ok.mp h
      exact ⟨⟨_, declaredMediaType_of_lift _ hu Ocischema.Manifest.decode_versioned rfl, hmt⟩,
        rfl, rfl⟩
  | v2ManifestList =>
      obtain ⟨-, ml, hu, hmt, rfl, rfl⟩ := manifestListFunc_eq_ok.mp h
      refine ⟨⟨_, declaredMediaType_of_lift _ hu Manifestlist.ManifestList.decode_versioned rfl,
        hmt⟩, ?_, rfl⟩
      rw [Manifest.payload, hmt, if_neg (by decide)]
      rfl
  | ociIndex =>
      obtain ⟨-, ml, hu, hmt, rfl, rfl⟩ := imageIndexFunc_eq_ok.mp h
      refine ⟨⟨_, declaredMediaType_of_lift _ hu Manifestlist.ManifestList.decode_versioned rfl,
        hmt⟩, ?_, rfl⟩
      rcases hmt with hmt | hmt <;> simp [Manifest.payload, hmt] <;> rfl

/-- The manifest an unmarshal function returns carries the header the payload declares. -/
theorem func_versioned {v : Variant} {b : List UInt8} {m : Manifest} {desc : Descriptor}
    (h : v.func b = .ok (m, desc)) : unmarshal Versioned.decode .zero b = .ok m.versioned := by
  cases v with
  | v2Manifest =>
      obtain ⟨man, hu, -, rfl, -⟩ := schema2Func_eq_ok.mp h
      exact unmarshal_versioned_of_lift (·.versioned) hu Schema2.Manifest.decode_versioned rfl
  | ociManifest =>
      obtain ⟨-, man, hu, -, rfl, -⟩ := ocischemaFunc_eq_ok.mp h
      exact unmarshal_versioned_of_lift (·.versioned) hu Ocischema.Manifest.decode_versioned rfl
  | v2ManifestList =>
      obtain ⟨-, ml, hu, -, rfl, -⟩ := manifestListFunc_eq_ok.mp h
      exact unmarshal_versioned_of_lift (·.versioned) hu
        Manifestlist.ManifestList.decode_versioned rfl
  | ociIndex =>
      obtain ⟨-, ml, hu, -, rfl, -⟩ := imageIndexFunc_eq_ok.mp h
      exact unmarshal_versioned_of_lift (·.versioned) hu
        Manifestlist.ManifestList.decode_versioned rfl

/-- Two unmarshal functions that accept one payload read the same header from it. -/
theorem versioned_eq_of_func {v w : Variant} {b : List UInt8} {m m' : Manifest}
    {desc desc' : Descriptor} (hv : v.func b = .ok (m, desc)) (hw : w.func b = .ok (m', desc')) :
    m.versioned = m'.versioned :=
  Except.ok.inj ((func_versioned hv).symm.trans (func_versioned hw))

/-- The digest a parser returns is that of the bytes its unmarshal function accepted. -/
theorem digest_eq_ofBytes {v : Variant} {b : List UInt8} {m : Manifest} {desc : Descriptor}
    {d : Digest} (hf : v.func b = .ok (m, desc)) (hd : parseSHA256Digest desc.digest = .ok d) :
    d = Digest.ofBytes b := by
  rw [(func_ok hf).2.2] at hd
  exact Except.ok.inj (hd.symm.trans (parseSHA256Digest_fromBytes b))

/-- What a parser has checked when it accepts a payload. -/
structure Accepted (v : Variant) (b : List UInt8) (m : Manifest) (d : Digest) : Prop where
  func : ∃ desc, v.func b = .ok (m, desc)
  declared : ∃ mt, declaredMediaType b = .ok mt ∧ v.admits mt
  payload : m.payload = (v.mediaType, b)
  digest : d = Digest.ofBytes b
  version : v ≠ ociIndex → m.schemaVersion = 2

theorem accepted_of_parseVersioned {v : Variant} {ctx expected vctx : String}
    {assert : Manifest → Option Versioned}
    (hassert : ∀ {m ver}, assert m = some ver → m.versioned = ver)
    {b : List UInt8} {m : Manifest} {d : Digest}
    (h : parseVersioned v.mediaType ctx assert expected vctx b = .ok (m, d)) :
    Accepted v b m d := by
  obtain ⟨desc, ver, hu, ha, hv, hd⟩ := parseVersioned_eq_ok.mp h
  rw [unmarshalManifest_mediaType] at hu
  obtain ⟨hdecl, hpay, -⟩ := func_ok hu
  exact ⟨⟨desc, hu⟩, hdecl, hpay, digest_eq_ofBytes hu hd,
    fun _ => (congrArg Versioned.schemaVersion (hassert ha)).trans hv⟩

theorem accepted {v : Variant} {b : List UInt8} {m : Manifest} {d : Digest}
    (h : v.parse b = .ok (m, d)) : Accepted v b m d := by
  cases v with
  | v2Manifest => exact accepted_of_parseVersioned Manifest.versioned_of_asSchema2 h
  | ociManifest => exact accepted_of_parseVersioned Manifest.versioned_of_asOcischema h
  | v2ManifestList => exact accepted_of_parseVersioned Manifest.versioned_of_asManifestList h
  | ociIndex =>
      obtain ⟨desc, hf, hd⟩ := parseOCIIndex_eq_ok.mp h
      have hf : ociIndex.func b = .ok (m, desc) := hf
      obtain ⟨hdecl, hpay, -⟩ := func_ok hf
      exact ⟨⟨desc, hf⟩, hdecl, hpay, digest_eq_ofBytes hf hd, absurd rfl⟩

/-- A payload that declares a media type is accepted by at most one parser. -/
theorem parse_unique {b : List UInt8} (hmt : declaredMediaType b ≠ .ok "") {v w : Variant}
    {rv rw : Manifest × Digest} (hv : v.parse b = .ok rv) (hw : w.parse b = .ok rw) : v = w := by
  obtain ⟨mt, hd, ha⟩ := (accepted hv).declared
  obtain ⟨mt', hd', ha'⟩ := (accepted hw).declared
  obtain rfl : mt = mt' := Except.ok.inj (hd.symm.trans hd')
  have hne : mt ≠ "" := fun h => hmt (h ▸ hd)
  exact mediaType_injective
    ((eq_mediaType_of_admits ha hne).symm.trans (eq_mediaType_of_admits ha' hne))

/-- A parser rejects a payload whose declared media type it does not admit. -/
theorem parse_fail_of_not_admits {b : List UInt8} {v : Variant} {mt : String}
    (hmt : declaredMediaType b = .ok mt) (hna : ¬ v.admits mt) : (v.parse b).toOption = none := by
  cases hp : v.parse b with
  | error => rfl
  | ok res =>
      obtain ⟨mt', hd, ha⟩ := (accepted hp).declared
      rw [hmt] at hd
      cases Except.ok.inj hd
      exact absurd ha hna

/-- A parser rejects a payload its unmarshal function rejects. -/
theorem parse_fail_of_func {b : List UInt8} {v : Variant}
    (hf : ∀ m desc, v.func b ≠ .ok (m, desc)) : (v.parse b).toOption = none := by
  cases hp : v.parse b with
  | error => rfl
  | ok res =>
      obtain ⟨desc, h⟩ := (accepted hp).func
      exact absurd h (hf _ desc)

/-- A payload that declares a supported media type fails every parser but that type's. -/
theorem parse_fail_of_declared {b : List UInt8} {v w : Variant}
    (hmt : declaredMediaType b = .ok w.mediaType) (hv : v ≠ w) : (v.parse b).toOption = none :=
  parse_fail_of_not_admits hmt fun ha => hv (admits_mediaType_iff.mp ha)

end Variant

open Variant

/-- `ParseOCIIndex` returns every index its unmarshal function accepts: the digest of the
accepted bytes always parses. -/
theorem parseOCIIndex_of_imageIndexFunc {b : List UInt8} {m : Manifest} {desc : Descriptor}
    (h : imageIndexFunc b = .ok (m, desc)) : parseOCIIndex b = .ok (m, Digest.ofBytes b) := by
  have h' : ociIndex.func b = .ok (m, desc) := h
  refine parseOCIIndex_eq_ok.mpr ⟨desc, h, ?_⟩
  rw [(func_ok h').2.2]
  exact parseSHA256Digest_fromBytes b

/-- `ParseOCIIndex` fails only when its unmarshal function fails. -/
theorem parseOCIIndex_error {b : List UInt8} {e : GoError} (h : parseOCIIndex b = .error e) :
    ∃ e', e = .wrap "unmarshal oci index" e' := by
  cases hf : imageIndexFunc b with
  | error e' =>
      rw [parseOCIIndex, ociIndexType_eq, unmarshalManifest_mediaTypeImageIndex, hf] at h
      exact ⟨e', (Except.error.inj h).symm⟩
  | ok res =>
      rw [parseOCIIndex_of_imageIndexFunc hf] at h
      cases h

/-! ## The chain over any order -/

/-- A chain of parsers in the given order, as `ParseManifest` chains its four: the first
success, or else the error of the last parser. -/
def fallback : List Variant → List UInt8 → Except GoError (Manifest × Digest)
  | [], _ => .error (.text "no parser")
  | [v], b => v.parse b
  | v :: vs, b =>
      match v.parse b with
      | .ok res => .ok res
      | .error _ => fallback vs b

theorem fallback_cons_cons (v w : Variant) (vs : List Variant) (b : List UInt8) :
    fallback (v :: w :: vs) b =
      match v.parse b with
      | .ok res => .ok res
      | .error _ => fallback (w :: vs) b := rfl

/-- Whether a chain succeeds, and with what, is the first success along it. -/
theorem toOption_fallback (vs : List Variant) (b : List UInt8) :
    (fallback vs b).toOption = vs.findSome? fun v => (v.parse b).toOption := by
  induction vs with
  | nil => rfl
  | cons v vs ih =>
      cases vs with
      | nil =>
          simp only [fallback, List.findSome?_cons, List.findSome?_nil]
          cases v.parse b <;> rfl
      | cons w ws =>
          rw [fallback_cons_cons, List.findSome?_cons, ← ih]
          cases v.parse b <;> rfl

/-- A chain returns what its first accepting parser returns. -/
theorem fallback_eq_ok (pre post : List Variant) {v : Variant} {b : List UInt8}
    {res : Manifest × Digest} (hpre : ∀ w ∈ pre, (w.parse b).toOption = none)
    (hv : v.parse b = .ok res) : fallback (pre ++ v :: post) b = .ok res := by
  rw [← Except.toOption_eq_some, toOption_fallback, List.findSome?_append,
    List.findSome?_eq_none_iff.mpr hpre, Option.none_or, List.findSome?_cons, hv]
  rfl

theorem exists_parse_of_fallback {vs : List Variant} {b : List UInt8} {res : Manifest × Digest}
    (h : fallback vs b = .ok res) : ∃ v ∈ vs, v.parse b = .ok res := by
  have h' := congrArg Except.toOption h
  rw [toOption_fallback, Except.toOption_ok] at h'
  obtain ⟨v, hv, hp⟩ := List.exists_of_findSome?_eq_some h'
  exact ⟨v, hv, Except.toOption_eq_some.mp hp⟩

/-- `ParseManifest` on a payload read without error is the chain in its own order. -/
theorem parseManifest_eq_fallback {r : Reader} {b : List UInt8} (hr : readAll r = .ok b) :
    parseManifest r = fallback chain b := by
  rw [parseManifest_of_readAll hr]
  rfl

theorem parseManifest_of_readAll_error {r : Reader} {e : GoError} (hr : readAll r = .error e) :
    parseManifest r = .error (.wrap "read" e) := by
  simp [parseManifest, hr]

theorem readAll_of_parseManifest {r : Reader} {res : Manifest × Digest}
    (h : parseManifest r = .ok res) : ∃ b, readAll r = .ok b := by
  cases hr : readAll r with
  | error e => rw [parseManifest_of_readAll_error hr] at h; cases h
  | ok b => exact ⟨b, rfl⟩

/-- `ParseManifest` succeeds on a payload read without error only when a parser accepts it. -/
theorem exists_accepted_of_parseManifest {r : Reader} {b : List UInt8} (hr : readAll r = .ok b)
    {m : Manifest} {d : Digest} (h : parseManifest r = .ok (m, d)) : ∃ v, Accepted v b m d := by
  obtain ⟨v, -, hv⟩ := exists_parse_of_fallback ((parseManifest_eq_fallback hr).symm.trans h)
  exact ⟨v, accepted hv⟩

/-- When every parser before the OCI index fails, `ParseManifest` returns what
`ParseOCIIndex` returns. -/
theorem parseManifest_eq_parseOCIIndex {r : Reader} {b : List UInt8} (hr : readAll r = .ok b)
    (hfail : ∀ v, v ≠ ociIndex → (v.parse b).toOption = none) :
    parseManifest r = parseOCIIndex b := by
  obtain ⟨e₁, h₁⟩ := Except.toOption_eq_none.mp (hfail v2Manifest (by decide))
  obtain ⟨e₂, h₂⟩ := Except.toOption_eq_none.mp (hfail ociManifest (by decide))
  obtain ⟨e₃, h₃⟩ := Except.toOption_eq_none.mp (hfail v2ManifestList (by decide))
  rw [parseManifest_of_readAll hr, show parseManifestV2 b = _ from h₁,
    show parseOCIManifest b = _ from h₂, show parseManifestV2List b = _ from h₃]

/-! ## Order independence -/

section FirstHit

variable {α β : Type} {f : α → Option β}

/-- Along a list with at most one hit of `f`, the first hit is that one. -/
theorem findSome?_eq_some_of_unique {l : List α} {a : α} {y : β}
    (hu : ∀ a ∈ l, ∀ a' ∈ l, (f a).isSome → (f a').isSome → a = a') (ha : a ∈ l)
    (hy : f a = some y) : l.findSome? f = some y := by
  have hs : (l.findSome? f).isSome := List.findSome?_isSome_iff.mpr ⟨a, ha, by simp [hy]⟩
  obtain ⟨y', hy'⟩ := Option.isSome_iff_exists.mp hs
  obtain ⟨a', ha', hfa'⟩ := List.exists_of_findSome?_eq_some hy'
  rw [hy', ← hfa', hu a' ha' a ha (by simp [hfa']) (by simp [hy]), hy]

/-- The first hit along a list does not depend on the list's order when at most one
member is a hit. -/
theorem findSome?_perm_of_unique {l l' : List α} (hp : l.Perm l')
    (hu : ∀ a ∈ l, ∀ a' ∈ l, (f a).isSome → (f a').isSome → a = a') :
    l.findSome? f = l'.findSome? f := by
  have hu' : ∀ a ∈ l', ∀ a' ∈ l', (f a).isSome → (f a').isSome → a = a' :=
    fun a ha a' ha' => hu a (hp.mem_iff.mpr ha) a' (hp.mem_iff.mpr ha')
  apply Option.ext
  intro y
  constructor
  · intro h
    obtain ⟨a, ha, hy⟩ := List.exists_of_findSome?_eq_some h
    exact findSome?_eq_some_of_unique hu' (hp.mem_iff.mp ha) hy
  · intro h
    obtain ⟨a, ha, hy⟩ := List.exists_of_findSome?_eq_some h
    exact findSome?_eq_some_of_unique hu (hp.mem_iff.mpr ha) hy

/-- When every member but `a` misses, the first hit is `a`'s result. -/
theorem findSome?_eq_of_others_none {l : List α} {a : α} (ha : a ∈ l)
    (hothers : ∀ a' ∈ l, a' ≠ a → f a' = none) : l.findSome? f = f a := by
  have hall : ∀ a' ∈ l, (f a').isSome → a' = a := fun a' ha' hs => by
    by_contra hne
    simp [hothers a' ha' hne] at hs
  cases hy : f a with
  | none =>
      refine List.findSome?_eq_none_iff.mpr fun a' ha' => ?_
      by_cases hne : a' = a
      · rw [hne, hy]
      · exact hothers a' ha' hne
  | some y =>
      exact findSome?_eq_some_of_unique
        (fun x hx x' hx' hs hs' => (hall x hx hs).trans (hall x' hx' hs').symm) ha hy

end FirstHit

/-- The four media types `GetSupportedManifestTypes` lists, in its order. -/
def supportedManifestTypes : List String :=
  [v2ManifestType, v2ManifestListType, ociManifestType, ociIndexType]

theorem mediaType_mem_supportedManifestTypes (v : Variant) :
    v.mediaType ∈ supportedManifestTypes := by
  cases v <;> simp [mediaType, supportedManifestTypes]

/-! ## `ParseManifest` -/

theorem parseManifest_resolves_declared_type {r : Reader} {b : List UInt8}
    (hr : readAll r = .ok b) (hmt : declaredMediaType b ≠ .ok "") :
    (∀ v w : Variant, (∃ res, v.parse b = .ok res) → (∃ res, w.parse b = .ok res) → v = w) ∧
    (∀ order : List Variant, order.Perm chain →
      (fallback order b).toOption = (parseManifest r).toOption) ∧
    (∀ m d, parseManifest r = .ok (m, d) → declaredMediaType b = .ok m.payload.1) ∧
    (∀ mt, declaredMediaType b = .ok mt → mt ∉ supportedManifestTypes →
      ∃ e, parseManifest r = .error e) := by
  have hdecl : ∀ m d, parseManifest r = .ok (m, d) → declaredMediaType b = .ok m.payload.1 := by
    intro m d h
    obtain ⟨v, hacc⟩ := exists_accepted_of_parseManifest hr h
    obtain ⟨mt, hd, ha⟩ := hacc.declared
    rw [hacc.payload, hd, ← eq_mediaType_of_admits ha fun h => hmt (h ▸ hd)]
  refine ⟨fun v w ⟨_, hv⟩ ⟨_, hw⟩ => parse_unique hmt hv hw, fun order hp => ?_, hdecl, ?_⟩
  · rw [parseManifest_eq_fallback hr, toOption_fallback, toOption_fallback]
    refine findSome?_perm_of_unique hp fun v _ w _ hv hw => ?_
    obtain ⟨_, hv⟩ := Except.isSome_toOption.mp hv
    obtain ⟨_, hw⟩ := Except.isSome_toOption.mp hw
    exact parse_unique hmt hv hw
  · intro mt hd hns
    cases h : parseManifest r with
    | error e => exact ⟨e, rfl⟩
    | ok res =>
        obtain ⟨v, hacc⟩ := exists_accepted_of_parseManifest hr h
        have hmt := hdecl res.1 res.2 h
        rw [hd, hacc.payload] at hmt
        exact absurd ((Except.ok.inj hmt) ▸ mediaType_mem_supportedManifestTypes v) hns

/-- A payload that declares a media type no parser supports. -/
def textPlainPayload : List UInt8 := bytesOf "\x7b\"mediaType\":\"text/plain\"\x7d"

theorem fallback_reversed_changes_error :
    declaredMediaType textPlainPayload = .ok "text/plain" ∧
      [ociIndex, v2ManifestList, ociManifest, v2Manifest].Perm chain ∧
      fallback [ociIndex, v2ManifestList, ociManifest, v2Manifest] textPlainPayload ≠
        parseManifest (.ofBytes textPlainPayload) := by
  refine ⟨rfl, by decide, fun h => ?_⟩
  have hrev : fallback [ociIndex, v2ManifestList, ociManifest, v2Manifest] textPlainPayload =
      .error (.wrap "unmarshal manifest"
        (mediaTypeMismatch "mediaType in manifest should be" mediaTypeManifest "text/plain")) := rfl
  have hchain : parseManifest (.ofBytes textPlainPayload) = .error (.wrap "unmarshal oci index"
      (mediaTypeMismatch "if present, mediaType in image index should be" mediaTypeImageIndex
        "text/plain")) := rfl
  rw [hrev, hchain] at h
  exact absurd (Except.error.inj h) (by decide)

/-- A Docker v2 manifest with no config and no layers. -/
def minimalV2Manifest : List UInt8 :=
  bytesOf ("\x7b\"schemaVersion\":2,\"mediaType\":" ++
    "\"application/vnd.docker.distribution.manifest.v2+json\"\x7d")

/-- What the Docker v2 parser decodes from `minimalV2Manifest`. -/
def minimalV2Decoded : Manifest := .schema2 ⟨⟨⟨2, mediaTypeManifest⟩, .zero, []⟩, minimalV2Manifest⟩

theorem parseManifestV2_minimalV2Manifest :
    parseManifestV2 minimalV2Manifest = .ok (minimalV2Decoded, Digest.ofBytes minimalV2Manifest) :=
  parseVersioned_eq_ok.mpr ⟨_, _, (unmarshalManifest_mediaTypeManifest _).trans
    (schema2Func_eq_ok.mpr ⟨⟨⟨2, mediaTypeManifest⟩, .zero, []⟩, rfl, rfl, rfl, rfl⟩), rfl, rfl,
    parseSHA256Digest_fromBytes _⟩

theorem parseManifest_resolves_minimalV2Manifest :
    readAll (.ofBytes minimalV2Manifest) = .ok minimalV2Manifest ∧
      declaredMediaType minimalV2Manifest ≠ .ok "" ∧
      (∀ v w : Variant, (∃ res, v.parse minimalV2Manifest = .ok res) →
        (∃ res, w.parse minimalV2Manifest = .ok res) → v = w) ∧
      (∀ order : List Variant, order.Perm chain →
        (fallback order minimalV2Manifest).toOption =
          (parseManifest (.ofBytes minimalV2Manifest)).toOption) ∧
      (∀ m d, parseManifest (.ofBytes minimalV2Manifest) = .ok (m, d) →
        declaredMediaType minimalV2Manifest = .ok m.payload.1) ∧
      (∀ mt, declaredMediaType minimalV2Manifest = .ok mt → mt ∉ supportedManifestTypes →
        ∃ e, parseManifest (.ofBytes minimalV2Manifest) = .error e) := by
  have hmt : declaredMediaType minimalV2Manifest ≠ .ok "" := by
    rw [show declaredMediaType minimalV2Manifest = .ok v2ManifestType from rfl]
    exact fun h => absurd (Except.ok.inj h) (by decide)
  exact ⟨rfl, hmt, parseManifest_resolves_declared_type rfl hmt⟩

/-- On a payload that declares a media type, `ParseManifest` is a dispatch on that type:
it succeeds exactly when the parser of the variant the type names succeeds, with the same
manifest and digest, and fails when the type names no variant. -/
theorem parseManifest_dispatches_on_declared_type {r : Reader} {b : List UInt8} {mt : String}
    (hr : readAll r = .ok b) (hmt : declaredMediaType b = .ok mt) (hne : mt ≠ "") :
    (parseManifest r).toOption = (ofMediaType mt).bind fun v => (v.parse b).toOption := by
  rw [parseManifest_eq_fallback hr, toOption_fallback]
  by_cases hv : ∃ v : Variant, v.mediaType = mt
  · obtain ⟨v, rfl⟩ := hv
    rw [ofMediaType_mediaType, Option.some_bind]
    exact findSome?_eq_of_others_none (by cases v <;> decide)
      fun w _ hw => parse_fail_of_declared hmt hw
  · have hnone : ofMediaType mt = none := by
      rw [ofMediaType, List.find?_eq_none]
      exact fun v _ h => hv ⟨v, beq_iff_eq.mp h⟩
    rw [hnone, Option.none_bind]
    refine List.findSome?_eq_none_iff.mpr fun v _ => ?_
    cases hp : v.parse b with
    | error => rfl
    | ok res =>
        obtain ⟨mt', hd, ha⟩ := (accepted hp).declared
        rw [hmt] at hd
        cases Except.ok.inj hd
        exact absurd ⟨v, (eq_mediaType_of_admits ha hne).symm⟩ hv

theorem parseManifest_dispatches_minimalV2Manifest :
    readAll (.ofBytes minimalV2Manifest) = .ok minimalV2Manifest ∧
      declaredMediaType minimalV2Manifest = .ok v2ManifestType ∧ v2ManifestType ≠ "" ∧
      (parseManifest (.ofBytes minimalV2Manifest)).toOption =
        (ofMediaType v2ManifestType).bind fun v => (v.parse minimalV2Manifest).toOption := by
  have hr : readAll (.ofBytes minimalV2Manifest) = .ok minimalV2Manifest := rfl
  have hmt : declaredMediaType minimalV2Manifest = .ok v2ManifestType := rfl
  have hne : v2ManifestType ≠ "" := by decide
  exact ⟨hr, hmt, hne, parseManifest_dispatches_on_declared_type hr hmt hne⟩

/-- A payload that declares no media type. -/
def undeclaredPayload : List UInt8 := bytesOf "\x7b\"schemaVersion\":2\x7d"

/-- Only the two OCI parsers accept a payload that declares no media type. Some payloads are
accepted by both, as different variants, so on them the order of the chain decides what comes
back: `ParseManifest`, which tries the OCI image manifest first, returns an image manifest,
and the chain in reverse order returns an index. -/
theorem only_oci_parsers_accept_undeclared :
    (∀ b (v : Variant) m d, declaredMediaType b = .ok "" → v.parse b = .ok (m, d) →
      v = ociManifest ∨ v = ociIndex) ∧
    declaredMediaType undeclaredPayload = .ok "" ∧
      [ociIndex, v2ManifestList, ociManifest, v2Manifest].Perm chain ∧
      (∃ m d, parseManifest (.ofBytes undeclaredPayload) = .ok (.ocischema m, d)) ∧
      ∃ ml d, fallback [ociIndex, v2ManifestList, ociManifest, v2Manifest] undeclaredPayload =
        .ok (.manifestList ml, d) := by
  have hdecl : declaredMediaType undeclaredPayload = .ok "" := rfl
  have hoci : ociManifest.parse undeclaredPayload =
      .ok (.ocischema ⟨⟨⟨2, ""⟩, .zero, [], []⟩, undeclaredPayload⟩,
        Digest.ofBytes undeclaredPayload) :=
    parseVersioned_eq_ok.mpr ⟨_, ⟨2, ""⟩, (unmarshalManifest_mediaTypeImageManifest _).trans
      (ocischemaFunc_eq_ok.mpr ⟨rfl, ⟨⟨2, ""⟩, .zero, [], []⟩, rfl, .inl rfl, rfl, rfl⟩), rfl, rfl,
      parseSHA256Digest_fromBytes _⟩
  have hidx : ociIndex.parse undeclaredPayload =
      .ok (.manifestList ⟨⟨⟨2, ""⟩, []⟩, undeclaredPayload⟩, Digest.ofBytes undeclaredPayload) :=
    parseOCIIndex_of_imageIndexFunc
      (imageIndexFunc_eq_ok.mpr ⟨rfl, ⟨⟨2, ""⟩, []⟩, rfl, .inl rfl, rfl, rfl⟩)
  have hv2 : ∀ w ∈ [v2Manifest], (w.parse undeclaredPayload).toOption = none := fun w hw => by
    rw [List.mem_singleton.mp hw]
    exact parse_fail_of_not_admits hdecl (by decide)
  refine ⟨fun b v m d hd h => ?_, hdecl, by decide,
    ⟨_, _, (parseManifest_eq_fallback (r := .ofBytes undeclaredPayload) rfl).trans
      (fallback_eq_ok [v2Manifest] _ hv2 hoci)⟩, _, _,
    fallback_eq_ok [] _ nofun hidx⟩
  obtain ⟨mt, hd', ha⟩ := (accepted h).declared
  rw [hd] at hd'
  cases Except.ok.inj hd'
  cases v with
  | v2Manifest | v2ManifestList => exact absurd ha (by decide)
  | ociManifest => exact .inl rfl
  | ociIndex => exact .inr rfl

/-- The digest `ParseManifest` returns is the SHA-256 of the bytes read, and the manifest
keeps those bytes as its payload, whichever parser accepted them. -/
theorem parseManifest_content_addressed {r : Reader} {b : List UInt8} (hr : readAll r = .ok b)
    {m : Manifest} {d : Digest} (h : parseManifest r = .ok (m, d)) :
    d = Digest.ofBytes b ∧ d.raw = GoDigest.fromBytes b ∧ m.payload.2 = b ∧
      ∀ (v : Variant) m' d', v.parse b = .ok (m', d') → d' = d ∧ m'.payload.2 = b := by
  obtain ⟨v, hacc⟩ := exists_accepted_of_parseManifest hr h
  refine ⟨hacc.digest, by rw [hacc.digest]; rfl, by rw [hacc.payload], fun w m' d' hw => ?_⟩
  have hacc' := accepted hw
  exact ⟨hacc'.digest.trans hacc.digest.symm, by rw [hacc'.payload]⟩

theorem parseManifest_content_addressed_minimalV2Manifest :
    ∃ m d, parseManifest (.ofBytes minimalV2Manifest) = .ok (m, d) ∧
      d = Digest.ofBytes minimalV2Manifest ∧ d.raw = GoDigest.fromBytes minimalV2Manifest ∧
      m.payload.2 = minimalV2Manifest ∧
      ∀ (v : Variant) m' d', v.parse minimalV2Manifest = .ok (m', d') →
        d' = d ∧ m'.payload.2 = minimalV2Manifest := by
  have hr : readAll (.ofBytes minimalV2Manifest) = .ok minimalV2Manifest := rfl
  have h : parseManifest (.ofBytes minimalV2Manifest) =
      .ok (minimalV2Decoded, Digest.ofBytes minimalV2Manifest) := by
    rw [parseManifest_of_readAll hr, parseManifestV2_minimalV2Manifest]
  exact ⟨_, _, h, parseManifest_content_addressed hr h⟩

/-- Every manifest `ParseManifest` returns reports one of the media types
`GetSupportedManifestTypes` lists. -/
theorem parseManifest_payload_mediaType_supported :
    getSupportedManifestTypes = ",".intercalate supportedManifestTypes ∧
      ∀ r m d, parseManifest r = .ok (m, d) → m.payload.1 ∈ supportedManifestTypes := by
  refine ⟨rfl, fun r m d h => ?_⟩
  obtain ⟨b, hr⟩ := readAll_of_parseManifest h
  obtain ⟨v, hacc⟩ := exists_accepted_of_parseManifest hr h
  rw [hacc.payload]
  exact mediaType_mem_supportedManifestTypes v

end Kraken.Dockerutil
