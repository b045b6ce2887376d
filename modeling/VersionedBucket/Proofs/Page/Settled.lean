import VersionedBucket.Proofs.Page.JsonRoundTrip
import VersionedBucket.Proofs.Page.RoundTrip
import VersionedBucket.Store.Listing

/-! # What settling does to a page

All ways to a page lead through settling: putting it together from parts, reading a document or JSON
text, and listing a store. So every page that can be had is settled. Settling drops empty texts that
need not be there, and with them what depends on them, and keeps everything else as it is.
-/

namespace VersionedBucket

/-- The texts at the places before which they do not occur. -/
def firstSeen (texts : List String) : List String :=
  (texts.zipIdx.filter fun (text, place) => decide (text ∉ texts.take place)).map Prod.fst

/-- Behind other texts, the first occurrences are those that are not among the others. -/
theorem filter_zipIdx_eq (before texts : List String) :
    ((texts.zipIdx before.length).filter fun (text, place) =>
      decide (text ∉ (before ++ texts).take place)).map Prod.fst =
        (firstOccurrences texts).filter fun text => decide (text ∉ before) := by
  induction texts generalizing before with
  | nil => rfl
  | cons text texts ih =>
      have hbefore : (before ++ text :: texts).take before.length = before := List.take_left' rfl
      have hrest := ih (before ++ [text])
      rw [List.append_assoc, List.singleton_append, List.length_append,
        List.length_singleton] at hrest
      have hlater : (firstOccurrences texts).filter (fun other =>
          decide (other ∉ before ++ [text])) =
          ((firstOccurrences texts).filter (· != text)).filter fun other =>
            decide (other ∉ before) := by
        rw [List.filter_filter]
        refine List.filter_congr fun other _ => ?_
        by_cases hother : other = text <;> simp [hother]
      rw [List.zipIdx_cons, firstOccurrences, List.filter_cons, List.filter_cons, ← hlater, ← hrest]
      simp only [hbefore]
      split <;> rfl

theorem firstOccurrences_eq_firstSeen (texts : List String) :
    firstOccurrences texts = firstSeen texts := by
  have hseen := filter_zipIdx_eq [] texts
  simp only [List.not_mem_nil, not_false_eq_true, decide_true, List.filter_true] at hseen
  exact hseen.symm

/-- A value that may be missing is missing if its text is empty, and otherwise as it was. -/
def Settles (value settled : Option String) : Prop :=
  settled = if value = some "" then none else value

theorem settles_nonEmpty (value : Option String) : Settles value (nonEmpty value) := by
  unfold Settles
  split
  next hempty => rw [hempty]; rfl
  next hfilled => exact nonEmpty_of_ne hfilled

/-- What settling makes of an owner. -/
structure Owner.SettlesTo (o settled : Owner) : Prop where
  id : settled.id = o.id
  displayName : Settles o.displayName settled.displayName

/-- What settling makes of a version. -/
structure Version.SettlesTo (v settled : Version) : Prop where
  etag : Settles v.etag settled.etag
  storageClass : Settles v.storageClass settled.storageClass
  owner : Option.Rel Owner.SettlesTo v.owner settled.owner
  rest : settled =
    { v with etag := settled.etag, storageClass := settled.storageClass, owner := settled.owner }

theorem Version.settlesTo_normalize (v : Version) : v.SettlesTo v.normalize where
  etag := settles_nonEmpty _
  storageClass := settles_nonEmpty _
  owner := by
    show Option.Rel _ v.owner (v.owner.map _)
    cases v.owner with
    | none => exact .none
    | some o => exact .some ⟨rfl, settles_nonEmpty _⟩
  rest := rfl

namespace Page

/-- What settling makes of a page. -/
structure SettlesTo (parts p : Page) : Prop where
  bucket : p.bucket = parts.bucket
  versions : List.Forall₂ Version.SettlesTo parts.versions p.versions
  /-- Under a delimiter each common prefix is kept where it is first seen. -/
  delimited : p.delimiter ≠ none → p.commonPrefixes = firstSeen parts.commonPrefixes
  undelimited : p.delimiter = none → p.commonPrefixes = []
  keyPrefix : Settles parts.keyPrefix p.keyPrefix
  keyMarker : Settles parts.keyMarker p.keyMarker
  versionIdMarker : Settles parts.versionIdMarker p.versionIdMarker
  delimiter : Settles parts.delimiter p.delimiter
  maxKeys : p.maxKeys = parts.maxKeys
  encoding : Settles parts.encoding p.encoding
  isTruncated : p.isTruncated = parts.isTruncated
  truncated : parts.isTruncated = true →
    Settles parts.nextKeyMarker p.nextKeyMarker ∧
      Settles parts.nextVersionIdMarker p.nextVersionIdMarker
  complete : parts.isTruncated = false → p.nextKeyMarker = none ∧ p.nextVersionIdMarker = none

theorem settlesTo_normalize (parts : Page) : parts.SettlesTo parts.normalize where
  bucket := rfl
  versions :=
    List.forall₂_map_right_iff.mpr (List.forall₂_same.mpr fun v _ => v.settlesTo_normalize)
  delimited := fun hdelimiter => by
    have hsome : (nonEmpty parts.delimiter).isSome = true :=
      Option.isSome_iff_ne_none.mpr hdelimiter
    rw [← firstOccurrences_eq_firstSeen]
    exact if_pos hsome
  undelimited := parts.normal_normalize.rolledUp
  keyPrefix := settles_nonEmpty _
  keyMarker := settles_nonEmpty _
  versionIdMarker := settles_nonEmpty _
  delimiter := settles_nonEmpty _
  maxKeys := rfl
  encoding := settles_nonEmpty _
  isTruncated := rfl
  truncated := fun htruncated => by
    have hkept (marker : Option String) :
        Settles marker (if parts.isTruncated then nonEmpty marker else none) := by
      rw [htruncated]
      exact settles_nonEmpty marker
    exact ⟨hkept _, hkept _⟩
  complete := parts.normal_normalize.markers

/-- The ways to a page. -/
inductive Obtainable : Page → Prop where
  | built (parts : Page) : Obtainable parts.normalize
  | document {bs : List UInt8} {p : Page} (hread : ofXml bs = .ok p) : Obtainable p
  | json {bs : List UInt8} {p : Page} (hread : ofJson bs = .ok p) : Obtainable p
  | listed {s : Store} {r : Request} {p : Page} (hlist : s.list r = .ok p) : Obtainable p

theorem normal_ofElement {e : Markup.Element} {p : Page} (hread : ofElement e = .ok p) :
    p.Normal := by
  unfold ofElement at hread
  split at hread
  · cases hread
  · dsimp only at hread
    iterate 9 obtain ⟨_, _, hread⟩ := bind_eq_ok_iff.mp hread
    cases hread
    exact normal_normalize _

theorem normal_list {s : Store} {r : Request} {p : Page} (hlist : s.list r = .ok p) : p.Normal := by
  unfold Store.list at hlist
  split at hlist
  · cases hlist
  · cases hlist
    exact normal_normalize _

theorem Obtainable.normal {p : Page} (hp : Obtainable p) : p.Normal := by
  cases hp with
  | built parts => exact parts.normal_normalize
  | @document bs p hread =>
      unfold ofXml at hread
      split at hread
      · cases hread
      next root _ =>
        cases hform : ofElement root with
        | error fault =>
            rw [hform] at hread
            cases hread
        | ok read =>
            rw [hform] at hread
            cases hread
            exact normal_ofElement hform
  | json hread => exact normal_ofJson hread
  | listed hlist => exact normal_list hlist

/-- The pages that can be had are those that are as a page should be: such a page can be put
together from itself. -/
theorem obtainable_iff_normal {p : Page} : Obtainable p ↔ p.Normal := by
  refine ⟨Obtainable.normal, fun hnormal => ?_⟩
  have hbuilt := Obtainable.built p
  rwa [normalize_of_normal hnormal] at hbuilt

/-- Every page that can be had is as a page should be, and is itself again when it is taken apart
and put together. Whatever the parts are, settling does to each what it should and nothing else, and
doing it twice is doing it once. -/
theorem obtainable_settled :
    (∀ p, Obtainable p → p.Normal ∧ p.normalize = p) ∧
      ∀ parts : Page, parts.SettlesTo parts.normalize ∧
        parts.normalize.normalize = parts.normalize :=
  ⟨fun _ hp => ⟨hp.normal, normalize_of_normal hp.normal⟩,
    fun parts => ⟨parts.settlesTo_normalize, normalize_of_normal parts.normal_normalize⟩⟩

/-- Parts with everything that settling drops. -/
def looseSample : Page where
  bucket := ""
  versions := [
    { key := "", versionId := "", lastModified := .epoch, etag := some "", storageClass := some " ",
      owner := some { id := "", displayName := some "" } }]
  commonPrefixes := ["b/", "", "a/", "b/", ""]
  keyPrefix := some ""
  delimiter := some "/"
  nextKeyMarker := some "b"

/-- What is left of them. -/
def tightSample : Page where
  bucket := ""
  versions := [
    { key := "", versionId := "", lastModified := .epoch, storageClass := some " ",
      owner := some { id := "" } }]
  commonPrefixes := ["b/", "", "a/"]
  delimiter := some "/"

/-- The page of the settled parts, and it again from its document and from its JSON text; and a page
of a store. -/
theorem obtainable_settled_tightSample :
    (looseSample.normalize = tightSample ∧ tightSample.Normal ∧
      tightSample.normalize = tightSample) ∧
      (ofXml (Text.bytes tightSample.toXml) = .ok tightSample ∧
        tightSample.normalize = tightSample) ∧
      (ofJson (Text.bytes tightSample.toJson) = .ok tightSample ∧
        tightSample.normalize = tightSample) ∧
      Store.list ⟨[("b", [])]⟩ { bucket := "b", keyPrefix := some "" } =
        .ok { bucket := "b", encoding := some "url" } ∧
      normalize { bucket := "b", encoding := some "url" } =
        { bucket := "b", encoding := some "url" } := by
  have hbuilt := obtainable_settled.1 _ (.built looseSample)
  have hloose : looseSample.normalize = tightSample := by decide
  rw [hloose] at hbuilt
  have hexact : ∀ v ∈ tightSample.versions, v.Exact :=
    List.forall_mem_singleton.mpr ⟨by decide, rfl, nofun⟩
  have hdocument : ofXml (Text.bytes tightSample.toXml) = .ok tightSample := by
    rw [ofXml_toXml_of_writable hbuilt.1 (by decide), written_of_exact hexact]
  have hjson := ofJson_toJson_of_normal hbuilt.1
  have hlist : Store.list ⟨[("b", [])]⟩ { bucket := "b", keyPrefix := some "" } =
    .ok { bucket := "b", encoding := some "url" } := rfl
  exact ⟨⟨hloose, hbuilt⟩, ⟨hdocument, (obtainable_settled.1 _ (.document hdocument)).2⟩,
    ⟨hjson, (obtainable_settled.1 _ (.json hjson)).2⟩, hlist,
    (obtainable_settled.1 _ (.listed hlist)).2⟩

end Page
end VersionedBucket
