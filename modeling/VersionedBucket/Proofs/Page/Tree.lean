import VersionedBucket.Page.Tree
import VersionedBucket.Proofs.Markup.Node
import VersionedBucket.Proofs.Page.Normal
import VersionedBucket.Proofs.Percent
import VersionedBucket.Proofs.Text.Numeral
import VersionedBucket.Proofs.Time.Iso

/-! # Pages read back from trees

The tree of a page gives the page again, but for what a tree cannot hold: times come back as a clock
shows them, to the millisecond, and a delete marker has no size. The reader goes through the
children by tag, so what is shown first is which text each tag leads to.
-/

namespace VersionedBucket

open Markup Markup.Element

theorem textOf?_optionalLeaf (wanted tag : String) (value : Option String) :
    textOf? wanted (optionalLeaf tag value) = if tag == wanted then value else none := by
  cases value with
  | none =>
      cases tag == wanted <;> rfl
  | some s =>
      exact textOf?_leaf ..

theorem find?_optionalLeaf {wanted tag : String} (hother : tag ≠ wanted) (value : Option String) :
    (optionalLeaf tag value).find? (·.tag == wanted) = none := by
  refine find?_tag_eq_none fun e he => ?_
  cases value with
  | none => cases he
  | some s =>
      rw [List.mem_singleton.mp he]
      exact hother

theorem childContent?_of_childText? {e : Element} {tag : String} {value : Option String}
    (htext : e.childText? tag = value) : e.childContent? tag = nonEmpty value := by
  rw [childContent?, htext]
  rfl

theorem getD_nonEmpty (s : String) : (nonEmpty (some s)).getD "" = s := by
  by_cases hempty : s = ""
  · rw [hempty]
    rfl
  · rw [nonEmpty_some hempty]
    rfl

namespace Owner

theorem ofElement_toElement {o : Owner} (hdisplay : o.displayName ≠ some "") :
    ofElement o.toElement = o := by
  have hid : o.toElement.childText? "ID" = some o.id := by
    simp [toElement, childText?_branch, textOf?_leaf]
  have hname : o.toElement.childText? "DisplayName" = o.displayName := by
    simp [toElement, childText?_branch, textOf?_leaf, textOf?_optionalLeaf]
  rw [ofElement, childContent?_of_childText? hid, childContent?_of_childText? hname,
    nonEmpty_of_ne hdisplay, getD_nonEmpty]

end Owner

namespace Version

/-- What a listing's document keeps of a version: its time as a clock shows it, in whole
milliseconds, and a size only if it is no delete marker. -/
def written (v : Version) : Version :=
  { v with
    lastModified := v.lastModified.shown.truncateToMillis
    size := if v.isDeleteMarker then 0 else v.size }

theorem childTexts_toElement (coding : Coding) (v : Version) :
    (v.toElement coding).childText? "Key" = some (coding.encode v.key) ∧
      (v.toElement coding).childText? "VersionId" = some v.versionId ∧
      (v.toElement coding).childText? "IsLatest" = some (Text.truthWord v.isLatest) ∧
      (v.toElement coding).childText? "LastModified" = some (Time.Iso.format v.lastModified) ∧
      (v.toElement coding).childText? "ETag" = v.etag ∧
      (v.toElement coding).childText? "Size" =
        (if v.isDeleteMarker then none else some (numberText v.size.toNat)) ∧
      (v.toElement coding).childText? "StorageClass" = v.storageClass := by
  have howner (wanted : String) (hother : "Owner" ≠ wanted) :
      textOf? wanted (v.owner.map Owner.toElement).toList = none := by
    refine textOf?_eq_none fun e he => ?_
    obtain ⟨o, _, rfl⟩ := Option.map_eq_some_iff.mp (Option.mem_toList.mp he)
    exact hother
  cases hmarker : v.isDeleteMarker <;>
    simp [toElement, childText?_branch, textOf?_leaf, textOf?_optionalLeaf, textOf?_append, howner,
      hmarker]

theorem child?_owner (coding : Coding) (v : Version) :
    (v.toElement coding).child? "Owner" = v.owner.map Owner.toElement := by
  have howner : ((v.owner.map Owner.toElement).toList).find? (·.tag == "Owner") =
      v.owner.map Owner.toElement := by
    cases v.owner <;> rfl
  have hleaf (tag value : String) : (leaf tag value).tag = tag := rfl
  cases hmarker : v.isDeleteMarker <;>
    simp [toElement, child?_branch, hleaf, find?_optionalLeaf, howner, hmarker]

theorem tag_toElement (coding : Coding) (v : Version) :
    ((v.toElement coding).tag == deleteMarkerTag) = v.isDeleteMarker := by
  unfold toElement
  cases v.isDeleteMarker <;> rfl

end Version

namespace Markup.Element

variable {e : Element} {tag : String}

theorem requiredText_of_childText? {s : String} (htext : e.childText? tag = some s) :
    e.requiredText tag = .ok s := by
  rw [requiredText, childText, htext]
  rfl

theorem decoded_encode (coding : Coding) (value : String) :
    decoded coding (coding.encode value) = .ok value := by
  rw [decoded, coding.decode_encode]
  rfl

theorem decodedContent?_of_childText? {coding : Coding} {value : Option String}
    (hne : value ≠ some "") (htext : e.childText? tag = value.map coding.encode) :
    e.decodedContent? coding tag = .ok value := by
  have hwritten : value.map coding.encode ≠ some "" := by
    intro heq
    obtain ⟨s, hs, hempty⟩ := Option.map_eq_some_iff.mp heq
    exact hne (Coding.encode_eq_empty_iff.mp hempty ▸ hs)
  rw [decodedContent?, childContent?_of_childText? htext, nonEmpty_of_ne hwritten]
  cases value with
  | none => rfl
  | some s =>
      rw [Option.map_some, Coding.decode?, coding.decode_encode]
      rfl

theorem flag_of_childText? {b : Bool} (htext : e.childText? tag = some (Text.truthWord b)) :
    e.flag tag = .ok b := by
  have hcontent : e.childContent? tag = some (Text.truthWord b) := by
    rw [childContent?_of_childText? htext, nonEmpty_some]
    cases b <;> decide
  rw [flag, hcontent]
  simp only [Text.truth?_truthWord]

theorem number_of_childText? {α : Type} {default a : α}
    {read : String → Except Text.Numeral.Fault α} {n : Nat}
    (htext : e.childText? tag = some (numberText n)) (hread : read (numberText n) = .ok a) :
    e.number tag default read = .ok a := by
  have hne : numberText n ≠ "" := fun hempty =>
    Text.decimal_ne_nil n
      (by rw [← String.toList_ofList (l := Text.decimal n)]; exact congrArg String.toList hempty)
  have hcontent : e.childContent? tag = some (numberText n) := by
    rw [childContent?_of_childText? htext, nonEmpty_some hne]
  have htrim : Text.trim (numberText n) = numberText n := Text.trim_ofList_decimal n
  rw [number, hcontent]
  simp only [htrim, hread]
  rfl

end Markup.Element

namespace Version

theorem ofElement_toElement (coding : Coding) {v : Version} (hnormal : v.Normal) :
    ofElement coding (v.toElement coding) = .ok v.written := by
  obtain ⟨hkey, hid, hlatest, htime, hetag, hsize, hclass⟩ := childTexts_toElement coding v
  have hnumber : (v.toElement coding).number "Size" 0 Text.Numeral.readUInt64 =
      .ok v.written.size := by
    cases hmarker : v.isDeleteMarker with
    | false =>
        rw [written]
        simp only [hmarker, Bool.false_eq_true, if_false] at hsize ⊢
        exact number_of_childText? hsize (Text.readUInt64_decimal v.size)
    | true =>
        rw [hmarker, if_pos rfl] at hsize
        rw [number, childContent?_of_childText? hsize, written, hmarker]
        rfl
  have howner : ((v.toElement coding).child? "Owner").map Owner.ofElement = v.owner := by
    rw [child?_owner]
    cases hform : v.owner with
    | none => rfl
    | some o => exact congrArg some (Owner.ofElement_toElement (hnormal.displayName o hform))
  have htimeRead : (Time.Iso.parse (Time.Iso.format v.lastModified)).mapError Invalid.time =
      .ok v.lastModified.shown.truncateToMillis := by
    rw [Time.Iso.parse_format]
    rfl
  simp only [ofElement, requiredText_of_childText? hkey, requiredText_of_childText? htime,
    decoded_encode, flag_of_childText? hlatest, htimeRead, hnumber, bind, Except.bind, pure,
    Except.pure]
  rw [hid, childContent?_of_childText? hetag, childContent?_of_childText? hclass,
    nonEmpty_of_ne hnormal.etag, nonEmpty_of_ne hnormal.storageClass, howner, tag_toElement]
  rfl

end Version

namespace Page

/-- What a listing's document keeps of a page. -/
def written (p : Page) : Page := { p with versions := p.versions.map Version.written }

/-- The children of a page's element that stand for single values. -/
def fields (p : Page) : List Element :=
  [.leaf "Name" p.bucket] ++
  optionalLeaf "Prefix" (p.keyPrefix.map p.encoding.encode) ++
  optionalLeaf "KeyMarker" (p.keyMarker.map p.encoding.encode) ++
  optionalLeaf "VersionIdMarker" p.versionIdMarker ++
  optionalLeaf "NextKeyMarker" (p.nextKeyMarker.map p.encoding.encode) ++
  optionalLeaf "NextVersionIdMarker" p.nextVersionIdMarker ++
  [.leaf "MaxKeys" (numberText p.maxKeys.toNat)] ++
  optionalLeaf "Delimiter" (p.delimiter.map p.encoding.encode) ++
  optionalLeaf "EncodingType" p.encoding ++
  [.leaf "IsTruncated" (Text.truthWord p.isTruncated)]

/-- The element for a common prefix. -/
def commonElement (coding : Coding) (common : String) : Element :=
  .branch "CommonPrefixes" [.leaf "Prefix" (coding.encode common)]

theorem toElement_eq (p : Page) : p.toElement = .branch rootTag (p.fields ++
    p.versions.map (Version.toElement p.encoding) ++
      p.commonPrefixes.map (commonElement p.encoding)) := rfl

/-- The tags of single values. -/
def fieldTags : List String :=
  ["Name", "Prefix", "KeyMarker", "VersionIdMarker", "NextKeyMarker", "NextVersionIdMarker",
    "MaxKeys", "Delimiter", "EncodingType", "IsTruncated"]

theorem tag_mem_fieldTags {p : Page} {e : Element} (he : e ∈ p.fields) : e.tag ∈ fieldTags := by
  have hoptional {tag : String} {value : Option String} (he : e ∈ optionalLeaf tag value) :
      e.tag = tag := by
    cases value with
    | none => cases he
    | some s => rw [List.mem_singleton.mp he]; rfl
  have hleaf {tag value : String} (he : e ∈ [leaf tag value]) : e.tag = tag := by
    rw [List.mem_singleton.mp he]
    rfl
  simp only [fields, List.mem_append] at he
  rcases he with ((((((((he | he) | he) | he) | he) | he) | he) | he) | he) | he
  all_goals
    first
    | rw [hleaf he]; decide
    | rw [hoptional he]; decide

theorem tag_version (coding : Coding) (v : Version) :
    (v.toElement coding).tag = versionTag ∨ (v.toElement coding).tag = deleteMarkerTag := by
  unfold Version.toElement
  cases v.isDeleteMarker
  · exact .inl rfl
  · exact .inr rfl

/-- Single values are looked for among the children that stand for them. -/
theorem childText?_toElement (p : Page) {wanted : String} (hwanted : wanted ∈ fieldTags) :
    p.toElement.childText? wanted = textOf? wanted p.fields := by
  have hversions : textOf? wanted (p.versions.map (Version.toElement p.encoding)) = none := by
    refine textOf?_eq_none fun e he heq => ?_
    obtain ⟨v, _, rfl⟩ := List.mem_map.mp he
    rcases tag_version p.encoding v with htag | htag
    · exact absurd (heq.symm.trans htag ▸ hwanted) (by decide)
    · exact absurd (heq.symm.trans htag ▸ hwanted) (by decide)
  have hcommons : textOf? wanted (p.commonPrefixes.map (commonElement p.encoding)) = none := by
    refine textOf?_eq_none fun e he heq => ?_
    obtain ⟨common, _, rfl⟩ := List.mem_map.mp he
    have htag : "CommonPrefixes" = wanted := heq
    exact absurd (htag ▸ hwanted) (by decide)
  rw [toElement_eq, childText?_branch, textOf?_append, textOf?_append, hversions, hcommons,
    Option.or_none, Option.or_none]

theorem childTexts_toElement (p : Page) :
    p.toElement.childText? "Name" = some p.bucket ∧
      p.toElement.childText? "Prefix" = p.keyPrefix.map p.encoding.encode ∧
      p.toElement.childText? "KeyMarker" = p.keyMarker.map p.encoding.encode ∧
      p.toElement.childText? "VersionIdMarker" = p.versionIdMarker ∧
      p.toElement.childText? "NextKeyMarker" = p.nextKeyMarker.map p.encoding.encode ∧
      p.toElement.childText? "NextVersionIdMarker" = p.nextVersionIdMarker ∧
      p.toElement.childText? "MaxKeys" = some (numberText p.maxKeys.toNat) ∧
      p.toElement.childText? "Delimiter" = p.delimiter.map p.encoding.encode ∧
      p.toElement.childText? "EncodingType" = p.encoding ∧
      p.toElement.childText? "IsTruncated" = some (Text.truthWord p.isTruncated) := by
  refine ⟨?_, ?_, ?_, ?_, ?_, ?_, ?_, ?_, ?_, ?_⟩
  all_goals
    rw [childText?_toElement p (by decide)]
    simp [fields, textOf?_append, textOf?_leaf, textOf?_optionalLeaf, textOf?_eq_none]

/-- No single value is taken for a version or a common prefix. -/
theorem filter_fields (p : Page) {test : Element → Bool}
    (htest : ∀ e, e.tag ∈ fieldTags → test e = false) :
    p.fields.filter test = [] :=
  List.filter_eq_nil_iff.mpr fun e he => Bool.eq_false_iff.mp (htest e (tag_mem_fieldTags he))

/-- Versions and delete markers are found in the order in which they are listed. -/
theorem entries_toElement (p : Page) :
    merge (p.toElement.matching versionTag) (p.toElement.matching deleteMarkerTag) =
      p.versions.map (Version.toElement p.encoding) := by
  have hfields :
      p.fields.filter (fun e => e.tag == versionTag || e.tag == deleteMarkerTag) = [] := by
    refine filter_fields p fun e he => ?_
    rw [Bool.or_eq_false_iff, beq_eq_false_iff_ne, beq_eq_false_iff_ne]
    exact ⟨fun heq => absurd (heq ▸ he) (by decide), fun heq => absurd (heq ▸ he) (by decide)⟩
  have hversions : (p.versions.map (Version.toElement p.encoding)).filter
      (fun e => e.tag == versionTag || e.tag == deleteMarkerTag) =
        p.versions.map (Version.toElement p.encoding) := by
    refine List.filter_eq_self.mpr fun e he => ?_
    obtain ⟨v, _, rfl⟩ := List.mem_map.mp he
    rw [Bool.or_eq_true, beq_iff_eq, beq_iff_eq]
    exact tag_version p.encoding v
  have hcommons : (p.commonPrefixes.map (commonElement p.encoding)).filter
      (fun e => e.tag == versionTag || e.tag == deleteMarkerTag) = [] := by
    refine List.filter_eq_nil_iff.mpr fun e he => ?_
    obtain ⟨common, _, rfl⟩ := List.mem_map.mp he
    exact Bool.false_ne_true
  rw [merge_matching _ (by decide), toElement_eq, elements_branch, List.filter_append,
    List.filter_append, hfields, hversions, hcommons, List.nil_append, List.append_nil]

theorem commons_toElement (p : Page) :
    (p.toElement.matching "CommonPrefixes").map (·.2) =
      p.commonPrefixes.map (commonElement p.encoding) := by
  have hfields : p.fields.filter (·.tag == "CommonPrefixes") = [] := by
    refine filter_fields p fun e he => ?_
    rw [beq_eq_false_iff_ne]
    exact fun heq => absurd (heq ▸ he) (by decide)
  have hversions :
      (p.versions.map (Version.toElement p.encoding)).filter (·.tag == "CommonPrefixes") = [] := by
    refine List.filter_eq_nil_iff.mpr fun e he => ?_
    obtain ⟨v, _, rfl⟩ := List.mem_map.mp he
    rcases tag_version p.encoding v with htag | htag
    · rw [htag]; decide
    · rw [htag]; decide
  have hcommons :
      (p.commonPrefixes.map (commonElement p.encoding)).filter (·.tag == "CommonPrefixes") =
      p.commonPrefixes.map (commonElement p.encoding) := by
    refine List.filter_eq_self.mpr fun e he => ?_
    obtain ⟨common, _, rfl⟩ := List.mem_map.mp he
    rfl
  rw [map_snd_matching, tagged, toElement_eq, elements_branch, List.filter_append,
    List.filter_append, hfields, hversions, hcommons, List.nil_append, List.nil_append]

theorem commonPrefix_commonElement (coding : Coding) (common : String) :
    commonPrefix coding (commonElement coding common) = .ok common := by
  have htext : (commonElement coding common).childText? "Prefix" = some (coding.encode common) := by
    rw [commonElement, childText?_branch, textOf?_leaf]
    rfl
  rw [commonPrefix, requiredText_of_childText? htext]
  exact decoded_encode coding common

/-- A reader that succeeds on each of several values succeeds on all of them. -/
theorem mapM_map_eq_ok {α β γ ε : Type} {values : List α} {write : α → β} {read : β → Except ε γ}
    {back : α → γ} (hread : ∀ a ∈ values, read (write a) = .ok (back a)) :
    (values.map write).mapM read = .ok (values.map back) := by
  rw [mapM_eq_ok_iff, List.forall₂_map_left_iff, List.forall₂_map_right_iff]
  exact List.forall₂_same.mpr hread

theorem normal_written {p : Page} (hnormal : p.Normal) : p.written.Normal where
  markers := hnormal.markers
  rolledUp := hnormal.rolledUp
  distinct := hnormal.distinct
  filled := hnormal.filled
  versions := by
    intro v hv
    obtain ⟨w, hw, rfl⟩ := List.mem_map.mp hv
    obtain ⟨hetag, hclass, howner⟩ := hnormal.versions w hw
    exact ⟨hetag, hclass, howner⟩

/-- A page comes back from its tree. -/
theorem ofElement_toElement {p : Page} (hnormal : p.Normal) :
    ofElement p.toElement = .ok p.written := by
  obtain ⟨hbucket, hkeyPrefix, hkey, hid, hnextKey, hnextId, hmax, hdelimiter, hencoding,
      htruncated⟩ :=
    childTexts_toElement p
  have hfilled := hnormal.filled
  simp only [List.forall_mem_cons, List.not_mem_nil, false_implies, implies_true,
    and_true] at hfilled
  obtain ⟨hfkeyPrefix, hfkey, hfid, hfdelimiter, hfencoding, hfnextKey, hfnextId⟩ := hfilled
  have hcoding : p.toElement.childContent? "EncodingType" = p.encoding := by
    rw [childContent?_of_childText? hencoding, nonEmpty_of_ne hfencoding]
  have hversions :
      (p.versions.map (Version.toElement p.encoding)).mapM (Version.ofElement p.encoding) =
      .ok (p.versions.map Version.written) :=
    mapM_map_eq_ok fun v hv => Version.ofElement_toElement p.encoding (hnormal.versions v hv)
  have hcommons : (p.toElement.matching "CommonPrefixes").mapM (commonPrefix p.encoding ·.2) =
      .ok p.commonPrefixes := by
    -- the places only served to merge versions and delete markers
    have hmap : ((p.toElement.matching "CommonPrefixes").map (·.2)).mapM (commonPrefix p.encoding) =
        .ok p.commonPrefixes := by
      rw [commons_toElement,
        mapM_map_eq_ok fun common _ => commonPrefix_commonElement p.encoding common, List.map_id']
    rwa [List.mapM_map] at hmap
  have hroot : p.toElement.tag = rootTag := rfl
  have hmaxKeys : p.toElement.number "MaxKeys" 1000 Text.Numeral.readUInt16 = .ok p.maxKeys :=
    number_of_childText? hmax (Text.readUInt16_decimal p.maxKeys)
  simp only [ofElement, hroot, ne_eq, not_true_eq_false, if_false, hcoding,
    requiredText_of_childText? hbucket, decodedContent?_of_childText? hfkeyPrefix hkeyPrefix,
    decodedContent?_of_childText? hfkey hkey, decodedContent?_of_childText? hfdelimiter hdelimiter,
    decodedContent?_of_childText? hfnextKey hnextKey, hmaxKeys, flag_of_childText? htruncated,
    entries_toElement, hversions, hcommons, childContent?_of_childText? hid,
    childContent?_of_childText? hnextId, nonEmpty_of_ne hfid, nonEmpty_of_ne hfnextId, bind,
    Except.bind, pure, Except.pure]
  -- what was read is settled once more, which changes nothing
  exact congrArg Except.ok (normalize_of_normal (normal_written hnormal))

end Page

end VersionedBucket
