import VersionedBucket.Proofs.Markup.Legal
import VersionedBucket.Proofs.Page.Grammar

/-! # Pages written again

A page that was read from a document is written with the texts that were found in that document, so
nothing keeps it from being read again. Its times were read in whole milliseconds, and no form of a
text matters any more. Only the size that a delete marker may have in a document is not written.
-/

namespace VersionedBucket

open Markup

/-- The version as it is without the size of a delete marker. -/
def Version.withoutMarkerSize (v : Version) : Version :=
  if v.isDeleteMarker then { v with size := 0 } else v

/-- The page as it is without the sizes of delete markers. -/
def Page.withoutMarkerSizes (p : Page) : Page :=
  { p with versions := p.versions.map Version.withoutMarkerSize }

/-! ## Texts that come from a document -/

/-- Texts that are read as they are say themselves. -/
theorem Coding.eq_of_decode {coding : Coding} (hplain : coding.isUrl = false) {s value : String}
    (hread : coding.decode s = .ok value) : value = s := by
  unfold decode at hread
  rw [hplain] at hread
  exact (Except.ok.inj hread).symm

theorem Coding.mem_of_given {coding : Coding} (hplain : coding.isUrl = false)
    {text value : Option String} (hgiven : Given coding.Says none text value) {s : String}
    (hs : s ∈ value) : s ∈ text := by
  cases hgiven with
  | missing => cases hs
  | empty => cases hs
  | filled _ hsays =>
      obtain ⟨_, hread, rfl⟩ := hsays
      cases hs
      exact congrArg some (Coding.eq_of_decode hplain hread).symm

theorem mem_of_settles {text value : Option String} (hsettles : Settles text value) {s : String}
    (hs : s ∈ value) :
    s ∈ text := by
  rw [settles_iff.mp hsettles] at hs
  exact mem_of_mem_nonEmpty hs

theorem mem_of_mem_firstSeen {texts : List String} {s : String} (hs : s ∈ firstSeen texts) :
    s ∈ texts := by
  obtain ⟨⟨text, place⟩, hplace, rfl⟩ := List.mem_map.mp hs
  exact List.fst_mem_of_mem_zipIdx (List.mem_filter.mp hplace).1

namespace Markup.Element.Legal

variable {e : Element} {tag s : String}

theorem isWritable (he : e.Legal .first) (hs : s ∈ (e.texts tag).head?) : IsWritable s :=
  he.admits_of_mem_texts (List.mem_of_mem_head? hs)

theorem isWritable_getD (he : e.Legal .first) {default : String} (hdefault : IsWritable default) :
    IsWritable ((e.texts tag).head?.getD default) := by
  cases hform : (e.texts tag).head? with
  | none => exact hdefault
  | some s => exact he.isWritable hform

theorem of_mem_tagged (he : e.Legal .first) {child : Element} (hchild : child ∈ e.tagged tag) :
    child.Legal .first :=
  he.of_mem_elements (List.mem_filter.mp hchild).1

end Markup.Element.Legal

theorem Owner.DescribedBy.isWritable {o : Owner} {e : Element} (hdescribed : o.DescribedBy e)
    (he : e.Legal .first) :
    ∀ text ∈ o.texts, IsWritable text := by
  refine List.forall_mem_cons.mpr ⟨?_, fun text htext => ?_⟩
  · rw [hdescribed.id]
    exact he.isWritable_getD (by decide)
  · exact he.isWritable (mem_of_settles hdescribed.displayName (Option.mem_toList.mp htext))

theorem Version.DescribedBy.isWritable {v : Version} {coding : Coding} {e : Element}
    (hdescribed : v.DescribedBy coding e) (he : e.Legal .first) :
    ∀ text ∈ v.plainTexts coding, IsWritable text := by
  simp only [plainTexts, List.forall_mem_append, List.forall_mem_cons, List.forall_mem_flatMap]
  refine ⟨⟨⟨⟨?_, ?_⟩, ?_⟩, ?_⟩, ?_⟩
  · rw [hdescribed.versionId]
    exact he.isWritable_getD (by decide)
  · exact fun text htext =>
      he.isWritable (mem_of_settles hdescribed.etag (Option.mem_toList.mp htext))
  · exact fun text htext =>
      he.isWritable (mem_of_settles hdescribed.storageClass (Option.mem_toList.mp htext))
  · intro o ho
    have howner := hdescribed.owner
    have hchildren : ∀ child ∈ (e.tagged "Owner").head?, child.Legal .first :=
      fun child hchild => he.of_mem_tagged (List.mem_of_mem_head? hchild)
    rw [Option.mem_toList.mp ho] at howner
    generalize (e.tagged "Owner").head? = child? at howner hchildren
    cases howner with
    | some hchild => exact hchild.isWritable (hchildren _ rfl)
  · intro text htext
    split at htext
    · cases htext
    next hplain =>
        obtain ⟨s, hs, hread⟩ := hdescribed.key
        rw [List.mem_singleton.mp htext, Coding.eq_of_decode (Bool.eq_false_iff.mpr hplain) hread]
        exact he.isWritable hs

namespace Page

variable {p parts : Page} {root : Element}

/-- What is kept of texts that a document may contain are such texts. -/
theorem GatheredFrom.isWritable (hgathered : parts.GatheredFrom root) (hroot : root.Legal .first) :
    ∀ text ∈ parts.kept.plainTexts, IsWritable text := by
  have hsettled {tag : String} {value : Option String}
      (hsettles : Settles (root.texts tag).head? value) :
      ∀ s ∈ value.toList, IsWritable s :=
    fun s hs => hroot.isWritable (mem_of_settles hsettles (Option.mem_toList.mp hs))
  have htruncated {value : Option String} (hvalue : ∀ s ∈ value.toList, IsWritable s) :
      ∀ s ∈ (if parts.isTruncated then value else none).toList, IsWritable s := by
    split
    · exact hvalue
    · exact nofun
  simp only [plainTexts, List.forall_mem_append, List.forall_mem_cons, List.forall_mem_flatMap]
  refine ⟨⟨⟨⟨?_, ?_⟩, ?_⟩, ?_⟩, ?_⟩
  · exact hroot.isWritable hgathered.bucket
  · exact hsettled hgathered.versionIdMarker
  · exact htruncated (hsettled hgathered.nextVersionIdMarker)
  · intro v hv
    obtain ⟨e, he, hdescribed⟩ := exists_of_forall₂ hgathered.versions v hv
    exact hdescribed.isWritable (hroot.of_mem_elements (List.mem_filter.mp he).1)
  · intro text htext
    split at htext
    · cases htext
    next hplain =>
        have hplain : parts.encoding.isUrl = false := Bool.eq_false_iff.mpr hplain
        have hgiven {tag : String} {value : Option String}
            (hgiven : Given parts.encoding.Says none (root.texts tag).head? value) :
            ∀ s ∈ value.toList, IsWritable s :=
          fun s hs => hroot.isWritable (Coding.mem_of_given hplain hgiven (Option.mem_toList.mp hs))
        have hcommons : ∀ s ∈ parts.kept.commonPrefixes, IsWritable s := by
          intro s hs
          have hs : s ∈ if parts.delimiter = none then [] else firstSeen parts.commonPrefixes := hs
          split at hs
          · cases hs
          · obtain ⟨e, he, written, hwritten, hread⟩ :=
              exists_of_forall₂ hgathered.commonPrefixes s (mem_of_mem_firstSeen hs)
            rw [Coding.eq_of_decode hplain hread]
            exact (hroot.of_mem_tagged he).isWritable hwritten
        revert text
        simp only [codedTexts, List.forall_mem_append]
        exact ⟨hsettled hgathered.encoding,
          ⟨⟨⟨hgiven hgathered.keyPrefix, hgiven hgathered.keyMarker⟩,
          htruncated (hgiven hgathered.nextKeyMarker)⟩, hgiven hgathered.delimiter⟩, hcommons⟩

end Page

/-! ## Writing again -/

namespace Version

theorem written_of_whole {v : Version} (hregular : v.lastModified.IsRegular)
    (hwhole : v.lastModified.nanos % 1000000 = 0) : v.written = v.withoutMarkerSize := by
  have htime : v.lastModified.shown.truncateToMillis = v.lastModified := by
    rw [Time.Instant.shown_of_isRegular hregular, Time.Instant.truncateToMillis_eq_self hwhole]
  unfold withoutMarkerSize
  split
  next hmarker => rw [written, htime, if_pos hmarker]
  next hobject => rw [written, htime, if_neg hobject]

theorem withoutMarkerSize_eq_self_iff {v : Version} :
    v.withoutMarkerSize = v ↔ (v.isDeleteMarker = true → v.size = 0) := by
  constructor
  · intro hsame hmarker
    rw [withoutMarkerSize, if_pos hmarker] at hsame
    exact congrArg size hsame.symm
  · intro hsize
    unfold withoutMarkerSize
    split
    next hmarker => rw [← hsize hmarker]
    next => rfl

end Version

namespace Page

variable {p : Page}

theorem withoutMarkerSizes_eq_self_iff :
    p.withoutMarkerSizes = p ↔ ∀ v ∈ p.versions, v.isDeleteMarker = true → v.size = 0 := by
  have hself : p.versions.map Version.withoutMarkerSize = p.versions ↔
      ∀ v ∈ p.versions, v.isDeleteMarker = true → v.size = 0 := by
    simp only [← Version.withoutMarkerSize_eq_self_iff]
    exact map_eq_self_iff
  rw [← hself]
  constructor
  · intro hsame
    exact congrArg versions hsame
  · intro hversions
    rw [withoutMarkerSizes, hversions]

/-- The times of a page that was read are regular and in whole milliseconds. -/
theorem written_of_ofElement {root : Element} (hread : ofElement root = .ok p) :
    p.written = p.withoutMarkerSizes := by
  obtain ⟨parts, hgathered, rfl⟩ := ofElement_eq_ok_iff.mp hread
  have hversions : parts.kept.versions.map Version.written =
      parts.kept.versions.map Version.withoutMarkerSize := by
    refine List.map_congr_left fun v hv => ?_
    obtain ⟨e, _, hdescribed⟩ := exists_of_forall₂ hgathered.versions v hv
    obtain ⟨s, _, hparse⟩ := hdescribed.lastModified
    exact Version.written_of_whole (Time.Iso.parse_isRegular hparse) (Time.Iso.parse_whole hparse)
  rw [written, withoutMarkerSizes, hversions]

/-- A page that was read and is written again loses the sizes of its delete markers and nothing
else. In a document of the first edition there is no text that could not be written. -/
theorem ofXml_rewritten {bs : List UInt8} (hread : ofXml bs = .ok p)
    (hlegal : (∃ cs, characters bs = some (.first, cs)) ∨ ∀ text ∈ p.plainTexts, IsWritable text) :
    ofXml (Text.bytes p.toXml) = .ok p.withoutMarkerSizes ∧
      (ofXml (Text.bytes p.toXml) = .ok p ↔ ∀ v ∈ p.versions, v.isDeleteMarker = true →
        v.size = 0) := by
  obtain ⟨root, hroot, helement⟩ : ∃ root, Element.ofDocument? bs = some root ∧
      ofElement root = .ok p := by
    unfold ofXml at hread
    split at hread
    · cases hread
    next root hroot => exact ⟨root, hroot, mapError_eq_ok_iff.mp hread⟩
  have htexts : ∀ text ∈ p.plainTexts, IsWritable text := by
    rcases hlegal with ⟨cs, hcharacters⟩ | hwritable
    · obtain ⟨parts, hgathered, rfl⟩ := ofElement_eq_ok_iff.mp helement
      exact hgathered.isWritable (Element.legal_of_ofDocument? hcharacters hroot)
    · exact hwritable
  have hagain : ofXml (Text.bytes p.toXml) = .ok p.withoutMarkerSizes := by
    rw [ofXml_toXml_of_writable (normal_ofElement helement) htexts, written_of_ofElement helement]
  refine ⟨hagain, ?_⟩
  rw [hagain, Except.ok.injEq, withoutMarkerSizes_eq_self_iff]

/-- The element of a delete marker that has a size. -/
def sizedMarker : Element :=
  .branch deleteMarkerTag [.leaf "Key" "k", .leaf "LastModified" "1970-01-01T00:00:00Z",
    .leaf "Size" "9"]

/-- The root of a document with it. -/
def sizedRoot : Element := .branch rootTag [.leaf "Name" "b", sizedMarker]

/-- The page that the document describes. -/
def sizedPage : Page where
  bucket := "b"
  versions := [
    { key := "k", versionId := "null", lastModified := .epoch, size := 9, isDeleteMarker := true }]

theorem ofElement_sizedRoot : ofElement sizedRoot = .ok sizedPage := by
  have hentries : merge (sizedRoot.matching versionTag) (sizedRoot.matching deleteMarkerTag) =
      [sizedMarker] := by
    rw [Element.merge_matching _ (by decide)]
    rfl
  unfold ofElement
  rw [hentries]
  rfl

theorem ofXml_sizedRoot : ofXml (Text.bytes sizedRoot.document) = .ok sizedPage := by
  have hleaf {tag text : String} (htag : IsTag tag) (htext : IsWritable text) :
      (Element.leaf tag text).toNode.Written := Element.written_leaf htag htext
  have hwritten : sizedRoot.toNode.Written := by
    refine Element.written_branch (by decide)
      (List.forall_mem_cons.mpr ⟨hleaf (by decide) (by decide), ?_⟩)
    refine List.forall_mem_singleton.mpr (Element.written_branch (by decide) ?_)
    simp only [List.forall_mem_cons]
    exact ⟨hleaf (by decide) (by decide), hleaf (by decide) (by decide),
      hleaf (by decide) (by decide), List.forall_mem_nil _⟩
  rw [ofXml, Element.ofDocument?_document hwritten]
  exact congrArg (Except.mapError Fault.invalid) ofElement_sizedRoot

theorem ofXml_rewritten_sizedPage :
    ofXml (Text.bytes sizedRoot.document) = .ok sizedPage ∧
      (∃ cs, characters (Text.bytes sizedRoot.document) = some (.first, cs)) ∧
      ofXml (Text.bytes sizedPage.toXml) = .ok sizedPage.withoutMarkerSizes := by
  have hcharacters : ∃ cs, characters (Text.bytes sizedRoot.document) = some (.first, cs) :=
    ⟨_, characters_document _⟩
  exact ⟨ofXml_sizedRoot, hcharacters, (ofXml_rewritten ofXml_sizedRoot (.inl hcharacters)).1⟩

/-- A page without anything that could not be written does not come back. -/
theorem ofXml_toXml_sizedPage_ne :
    ofXml (Text.bytes sizedRoot.document) = .ok sizedPage ∧
      (∀ text ∈ sizedPage.plainTexts, IsWritable text ∧ '\r' ∉ text.toList) ∧
      ofXml (Text.bytes sizedPage.toXml) ≠ .ok sizedPage := by
  have htexts : ∀ text ∈ sizedPage.plainTexts, IsWritable text ∧ '\r' ∉ text.toList := by decide
  refine ⟨ofXml_sizedRoot, htexts, fun hsame => ?_⟩
  rw [ofXml_toXml_of_writable (normal_ofElement ofElement_sizedRoot)
    fun text htext => (htexts text htext).1] at hsame
  exact absurd (Except.ok.inj hsame) (by decide)

end Page

end VersionedBucket
