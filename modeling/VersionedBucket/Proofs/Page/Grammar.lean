import VersionedBucket.Proofs.Page.Settled

/-! # What documents of listings say

The form that a document of a listing has, and the page that it describes. Only the first text
under a tag counts, but for entries and common prefixes, of which each counts. A text that need not
be there may as well be empty; any other has to be one that can be read, and so has every text that
is required.
-/

namespace VersionedBucket

open Markup

/-! ## Texts that stand for values -/

/-- The text that may be there stands for a value: a missing or an empty one for the default. -/
inductive Given {α : Type} (stands : String → α → Prop) (default : α) :
    Option String → α → Prop where
  | missing : Given stands default none default
  | empty : Given stands default (some "") default
  | filled {s : String} {a : α} (hne : s ≠ "") (hstands : stands s a) :
      Given stands default (some s) a

/-- The text may be there: it is empty or stands for some value. -/
def Allows {α : Type} (stands : String → α → Prop) (text : Option String) : Prop :=
  ∀ s ∈ text, s ≠ "" → ∃ a, stands s a

/-- A truth value, in any case and with blanks around it. -/
def SaysTruth (s : String) (b : Bool) : Prop := Text.lower (Text.trim s) = Text.truthWord b

/-- A numeral with blanks around it. -/
def SaysNumber (s : String) (n : Nat) : Prop := Text.IsNumeral n (Text.trim s).toList

/-- A value, coded as the page says. -/
def Coding.Says (coding : Coding) (s : String) (value : Option String) : Prop :=
  ∃ text, coding.decode s = .ok text ∧ value = some text

section Given

variable {α : Type} {stands : String → α → Prop} {default a : α} {text : Option String}

theorem given_iff : Given stands default text a ↔ match nonEmpty text with
    | none => a = default
    | some s => stands s a := by
  constructor
  · rintro (_ | _ | ⟨hne, hstands⟩)
    · rfl
    · rfl
    · rw [nonEmpty_some hne]
      exact hstands
  · intro hgiven
    cases text with
    | none =>
        cases (show a = default from hgiven)
        exact .missing
    | some s =>
        by_cases hempty : s = ""
        · subst hempty
          cases (show a = default from hgiven)
          exact .empty
        · rw [nonEmpty_some hempty] at hgiven
          exact .filled hempty hgiven

theorem exists_given_iff : (∃ a, Given stands default text a) ↔ Allows stands text := by
  constructor
  · rintro ⟨a, _ | _ | ⟨hne, hstands⟩⟩ s hs hfilled
    · cases hs
    · cases hs
      exact absurd rfl hfilled
    · cases hs
      exact ⟨a, hstands⟩
  · intro hallows
    cases text with
    | none => exact ⟨default, .missing⟩
    | some s =>
        by_cases hempty : s = ""
        · exact ⟨default, hempty ▸ .empty⟩
        · obtain ⟨a, hstands⟩ := hallows s rfl hempty
          exact ⟨a, .filled hempty hstands⟩

theorem settles_iff {value settled : Option String} :
    Settles value settled ↔ settled = nonEmpty value := by
  constructor
  · intro hsettles
    rw [show settled = _ from hsettles, ← show nonEmpty value = _ from settles_nonEmpty value]
  · rintro rfl
    exact settles_nonEmpty value

theorem ne_of_settles {value settled : Option String} (hsettles : Settles value settled) :
    settled ≠ some "" :=
  settles_iff.mp hsettles ▸ nonEmpty_ne _

end Given

/-- What a coded value says is never empty. -/
theorem Coding.ne_of_given {coding : Coding} {text value : Option String}
    (hgiven : Given coding.Says none text value) : value ≠ some "" := by
  rintro rfl
  cases hgiven with
  | filled hne hsays =>
      obtain ⟨_, hread, hempty⟩ := hsays
      cases hempty
      exact hne (Coding.eq_empty_of_decode_eq_empty hread)

theorem Coding.exists_decode_of_given {coding : Coding} {text value : Option String}
    (hgiven : Given coding.Says none text value) {s : String} (hs : s ∈ text) :
    ∃ value, coding.decode s = .ok value := by
  cases hgiven with
  | missing => cases hs
  | empty =>
      cases hs
      have hread := coding.decode_encode ""
      rw [Coding.encode_eq_empty_iff.mpr rfl] at hread
      exact ⟨"", hread⟩
  | filled _ hsays =>
      cases hs
      obtain ⟨value, hread, _⟩ := hsays
      exact ⟨value, hread⟩

/-- Only under the `url` coding is there a text that cannot be read. -/
theorem Coding.exists_decode_of_url {coding : Coding} {s : String}
    (hurl : coding = some "url" → ∃ value, Percent.decode s = .ok value) :
    ∃ value, coding.decode s = .ok value := by
  unfold decode
  split
  next hcoding => exact hurl (beq_iff_eq.mp hcoding)
  next => exact ⟨s, rfl⟩

theorem saysTruth_iff {s : String} {b : Bool} :
    Text.truth? (Text.lower (Text.trim s)) = some b ↔ SaysTruth s b :=
  Text.truth?_eq_some_iff

namespace Markup.Element

variable {e : Element} {tag : String} {coding : Coding}

theorem childContent?_eq_nonEmpty (e : Element) (tag : String) :
    e.childContent? tag = nonEmpty (e.texts tag).head? := by
  rw [childContent?, childText?_eq_head?]
  rfl

theorem settles_childContent? (e : Element) (tag : String) :
    Settles (e.texts tag).head? (e.childContent? tag) := by
  rw [childContent?_eq_nonEmpty]
  exact settles_nonEmpty _

theorem requiredText_eq_ok_iff {s : String} :
    e.requiredText tag = .ok s ↔ s ∈ (e.texts tag).head? := by
  rw [requiredText, mapError_eq_ok_iff, childText, childText?_eq_head?]
  cases (e.texts tag).head? with
  | none =>
      constructor
      · intro hok
        cases hok
      · intro hmem
        cases hmem
  | some text =>
      exact ⟨fun hok => congrArg some (Except.ok.inj hok), fun hmem =>
        congrArg _ (Option.some.inj hmem)⟩

theorem decoded_eq_ok_iff {s value : String} :
    decoded coding s = .ok value ↔ coding.decode s = .ok value :=
  mapError_eq_ok_iff

theorem decodedContent?_eq_ok_iff {value : Option String} :
    e.decodedContent? coding tag = .ok value ↔
      Given coding.Says none (e.texts tag).head? value := by
  rw [decodedContent?, mapError_eq_ok_iff, childContent?_eq_nonEmpty, given_iff]
  cases nonEmpty (e.texts tag).head? with
  | none => exact ⟨fun hok => (Except.ok.inj hok).symm, fun hnone => congrArg Except.ok hnone.symm⟩
  | some s =>
      rw [Coding.decode?, map_eq_ok_iff]
      exact exists_congr fun text => and_congr_right fun _ => eq_comm

theorem flag_eq_ok_iff {b : Bool} :
    e.flag tag = .ok b ↔ Given SaysTruth false (e.texts tag).head? b := by
  rw [flag, childContent?_eq_nonEmpty, given_iff]
  cases nonEmpty (e.texts tag).head? with
  | none =>
      exact ⟨fun hok => (Except.ok.inj hok).symm, fun hfalse => congrArg Except.ok hfalse.symm⟩
  | some s =>
      dsimp only
      rw [← saysTruth_iff]
      cases Text.truth? (Text.lower (Text.trim s)) with
      | none =>
          constructor
          · intro hok
            cases hok
          · intro hsome
            cases hsome
      | some b =>
          exact ⟨fun hok => congrArg some (Except.ok.inj hok), fun hsome =>
            congrArg _ (Option.some.inj hsome)⟩

theorem number_eq_ok_iff {α : Type} {default a : α} {read : String → Except Text.Numeral.Fault α}
    {value : α → Nat} (hread : ∀ {s a}, read s = .ok a ↔ Text.IsNumeral (value a) s.toList) :
    e.number tag default read = .ok a ↔
      Given (fun s a => SaysNumber s (value a)) default (e.texts tag).head? a := by
  rw [number, childContent?_eq_nonEmpty, given_iff]
  cases nonEmpty (e.texts tag).head? with
  | none =>
      exact ⟨fun hok => (Except.ok.inj hok).symm, fun hdefault => congrArg Except.ok hdefault.symm⟩
  | some s => exact mapError_eq_ok_iff.trans hread

end Markup.Element

/-! ## Owners and versions -/

/-- The element describes the owner. -/
structure Owner.DescribedBy (o : Owner) (e : Element) : Prop where
  id : o.id = (e.texts "ID").head?.getD ""
  displayName : Settles (e.texts "DisplayName").head? o.displayName

/-- The element describes the version. -/
structure Version.DescribedBy (v : Version) (coding : Coding) (e : Element) : Prop where
  key : ∃ s ∈ (e.texts "Key").head?, coding.decode s = .ok v.key
  /-- An id may be empty, and only a missing one is the null id. -/
  versionId : v.versionId = (e.texts "VersionId").head?.getD "null"
  isLatest : Given SaysTruth false (e.texts "IsLatest").head? v.isLatest
  lastModified : ∃ s ∈ (e.texts "LastModified").head?, Time.Iso.parse s = .ok v.lastModified
  etag : Settles (e.texts "ETag").head? v.etag
  size : Given (fun s (n : UInt64) => SaysNumber s n.toNat) 0 (e.texts "Size").head? v.size
  storageClass : Settles (e.texts "StorageClass").head? v.storageClass
  owner : Option.Rel (fun child o => Owner.DescribedBy o child) (e.tagged "Owner").head? v.owner
  isDeleteMarker : v.isDeleteMarker = true ↔ e.tag = deleteMarkerTag

theorem Owner.ofElement_eq_iff {o : Owner} {e : Element} : ofElement e = o ↔ o.DescribedBy e := by
  have hid : (nonEmpty (e.texts "ID").head?).getD "" = (e.texts "ID").head?.getD "" := by
    cases (e.texts "ID").head? with
    | none => rfl
    | some s => exact getD_nonEmpty s
  rw [ofElement, Element.childContent?_eq_nonEmpty, Element.childContent?_eq_nonEmpty, hid]
  constructor
  · rintro rfl
    exact ⟨rfl, settles_nonEmpty _⟩
  · rintro ⟨hid, hname⟩
    cases o
    rw [Owner.mk.injEq]
    exact ⟨hid.symm, (settles_iff.mp hname).symm⟩

namespace Version

variable {v : Version} {coding : Coding} {e : Element}

theorem ofElement_eq_ok_iff : ofElement coding e = .ok v ↔ v.DescribedBy coding e := by
  have howner {child? : Option Element} {owner : Option Owner} :
      child?.map Owner.ofElement = owner ↔
      Option.Rel (fun child o => Owner.DescribedBy o child) child? owner := by
    cases child? with
    | none => cases owner <;> simp
    | some child => cases owner <;> simp [Owner.ofElement_eq_iff]
  simp only [ofElement, bind_eq_ok_iff, Element.requiredText_eq_ok_iff, Element.decoded_eq_ok_iff,
    Element.flag_eq_ok_iff, Element.number_eq_ok_iff Text.readUInt64_eq_ok_iff, mapError_eq_ok_iff,
    Element.childText?_eq_head?, Element.child?_eq_head?]
  constructor
  · rintro ⟨s, hs, key, hkey, isLatest, hlatest, written, hwritten, lastModified, htime,
      size, hsize, hv⟩
    cases hv
    exact ⟨⟨s, hs, hkey⟩, rfl, hlatest, ⟨written, hwritten, htime⟩,
      e.settles_childContent? _, hsize, e.settles_childContent? _, howner.mp rfl, beq_iff_eq⟩
  · rintro ⟨⟨s, hs, hkey⟩, hid, hlatest, ⟨written, hwritten, htime⟩, hetag, hsize, hclass,
      hown, hmarker⟩
    refine ⟨s, hs, _, hkey, _, hlatest, written, hwritten, _, htime, _, hsize,
      congrArg Except.ok ?_⟩
    rw [Element.childContent?_eq_nonEmpty, Element.childContent?_eq_nonEmpty,
      ← settles_iff.mp hetag, ← settles_iff.mp hclass, howner.mpr hown,
      show nullId = "null" from rfl, ← hid, Bool.eq_iff_iff.mpr (beq_iff_eq.trans hmarker.symm)]

theorem DescribedBy.normal (hdescribed : v.DescribedBy coding e) : v.Normal where
  etag := ne_of_settles hdescribed.etag
  storageClass := ne_of_settles hdescribed.storageClass
  displayName := by
    intro o ho
    have howner := hdescribed.owner
    rw [Option.mem_def.mp ho] at howner
    generalize (e.tagged "Owner").head? = child? at howner
    cases howner with
    | some hchild => exact ne_of_settles hchild.displayName

end Version

/-! ## Pages -/

/-- The children that are entries, versions and delete markers, in the order in which they stand. -/
def Markup.Element.entries (root : Element) : List Element :=
  (Node.elements root.children).filter fun e => e.tag == versionTag || e.tag == deleteMarkerTag

/-- The element describes the common prefix. -/
def CommonDescribedBy (coding : Coding) (e : Element) (common : String) : Prop :=
  ∃ s ∈ (e.texts "Prefix").head?, coding.decode s = .ok common

/-- The element describes the parts of a page. -/
structure Page.GatheredFrom (parts : Page) (root : Element) : Prop where
  tag : root.tag = rootTag
  bucket : parts.bucket ∈ (root.texts "Name").head?
  encoding : Settles (root.texts "EncodingType").head? parts.encoding
  keyPrefix : Given parts.encoding.Says none (root.texts "Prefix").head? parts.keyPrefix
  keyMarker : Given parts.encoding.Says none (root.texts "KeyMarker").head? parts.keyMarker
  versionIdMarker : Settles (root.texts "VersionIdMarker").head? parts.versionIdMarker
  delimiter : Given parts.encoding.Says none (root.texts "Delimiter").head? parts.delimiter
  maxKeys : Given (fun s (n : UInt16) => SaysNumber s n.toNat) 1000
    (root.texts "MaxKeys").head? parts.maxKeys
  isTruncated : Given SaysTruth false (root.texts "IsTruncated").head? parts.isTruncated
  nextKeyMarker :
    Given parts.encoding.Says none (root.texts "NextKeyMarker").head? parts.nextKeyMarker
  nextVersionIdMarker : Settles (root.texts "NextVersionIdMarker").head? parts.nextVersionIdMarker
  /-- There is one version for each entry, in the same order. -/
  versions :
    List.Forall₂ (fun e v => Version.DescribedBy v parts.encoding e) root.entries parts.versions
  commonPrefixes : List.Forall₂ (CommonDescribedBy parts.encoding) (root.tagged "CommonPrefixes")
    parts.commonPrefixes

/-- What a page keeps of its parts: next markers if it is truncated, and under a delimiter each
common prefix where it is first seen. -/
def Page.kept (parts : Page) : Page :=
  { parts with
    commonPrefixes := if parts.delimiter = none then [] else firstSeen parts.commonPrefixes
    nextKeyMarker := if parts.isTruncated then parts.nextKeyMarker else none
    nextVersionIdMarker := if parts.isTruncated then parts.nextVersionIdMarker else none }

/-- The form of an entry, but for its coded text. -/
structure IsEntry (e : Element) : Prop where
  key : e.texts "Key" ≠ []
  isLatest : Allows SaysTruth (e.texts "IsLatest").head?
  lastModified : ∃ s ∈ (e.texts "LastModified").head?, ∃ t, Time.Iso.parse s = .ok t
  size : Allows (fun s (n : UInt64) => SaysNumber s n.toNat) (e.texts "Size").head?

/-- The texts that are coded as the page says. -/
inductive IsCoded (root : Element) (s : String) : Prop where
  | field {tag : String} (htag : tag ∈ ["Prefix", "KeyMarker", "Delimiter", "NextKeyMarker"])
      (htext : s ∈ (root.texts tag).head?) : IsCoded root s
  | key {e : Element} (hentry : e ∈ root.entries) (htext : s ∈ (e.texts "Key").head?) :
      IsCoded root s
  | common {e : Element} (hcommon : e ∈ root.tagged "CommonPrefixes")
      (htext : s ∈ (e.texts "Prefix").head?) :
      IsCoded root s

/-- The form of a listing's root. -/
structure IsListing (root : Element) : Prop where
  tag : root.tag = rootTag
  name : root.texts "Name" ≠ []
  maxKeys : Allows (fun s (n : UInt16) => SaysNumber s n.toNat) (root.texts "MaxKeys").head?
  isTruncated : Allows SaysTruth (root.texts "IsTruncated").head?
  entries : ∀ e ∈ root.entries, IsEntry e
  commons : ∀ e ∈ root.tagged "CommonPrefixes", e.texts "Prefix" ≠ []
  coded : (root.texts "EncodingType").head? = some "url" → ∀ s, IsCoded root s →
    ∃ value, Percent.decode s = .ok value

namespace Page

variable {p parts : Page} {root : Element}

theorem commonPrefix_eq_ok_iff {coding : Coding} {e : Element} {common : String} :
    commonPrefix coding e = .ok common ↔ CommonDescribedBy coding e common := by
  simp only [commonPrefix, bind_eq_ok_iff, Element.requiredText_eq_ok_iff,
    Element.decoded_eq_ok_iff]
  rfl

/-- The places of common prefixes do not matter. -/
theorem mapM_commonPrefix (coding : Coding) (e : Element) :
    (e.matching "CommonPrefixes").mapM (fun child => commonPrefix coding child.2) =
      (e.tagged "CommonPrefixes").mapM (commonPrefix coding) := by
  rw [← Element.map_snd_matching, List.mapM_map]
  rfl

/-- What was gathered has no empty texts, so settling does no more than to choose what is kept. -/
theorem GatheredFrom.normalize_eq (hgathered : parts.GatheredFrom root) :
    parts.normalize = parts.kept := by
  have hversions : parts.versions.map Version.normalize = parts.versions := by
    refine (List.map_congr_left fun v hv => ?_).trans (List.map_id _)
    obtain ⟨e, _, hdescribed⟩ := exists_of_forall₂ hgathered.versions v hv
    exact Version.normalize_of_normal hdescribed.normal
  have hcommons : (if parts.delimiter.isSome then firstOccurrences parts.commonPrefixes else []) =
      if parts.delimiter = none then [] else firstSeen parts.commonPrefixes := by
    rw [firstOccurrences_eq_firstSeen]
    cases parts.delimiter <;> rfl
  rw [normalize, nonEmpty_of_ne (Coding.ne_of_given hgathered.delimiter), hversions, hcommons,
    nonEmpty_of_ne (Coding.ne_of_given hgathered.keyPrefix),
    nonEmpty_of_ne (Coding.ne_of_given hgathered.keyMarker),
    nonEmpty_of_ne (ne_of_settles hgathered.versionIdMarker),
    nonEmpty_of_ne (ne_of_settles hgathered.encoding),
    nonEmpty_of_ne (Coding.ne_of_given hgathered.nextKeyMarker),
    nonEmpty_of_ne (ne_of_settles hgathered.nextVersionIdMarker), kept]

theorem ofElement_eq_ok_iff_normalize :
    ofElement root = .ok p ↔ ∃ parts : Page, parts.GatheredFrom root ∧ parts.normalize = p := by
  have hentries : merge (root.matching versionTag) (root.matching deleteMarkerTag) = root.entries :=
    Element.merge_matching root (by decide)
  have hcommons {coding : Coding} {commons : List String} :
      (root.matching "CommonPrefixes").mapM
        (fun child => commonPrefix coding child.2) = .ok commons ↔
        List.Forall₂ (CommonDescribedBy coding) (root.tagged "CommonPrefixes") commons := by
    rw [mapM_commonPrefix, mapM_eq_ok_iff]
    simp only [commonPrefix_eq_ok_iff]
  unfold ofElement
  split
  next htag => exact ⟨nofun, fun ⟨_, hgathered, _⟩ => absurd hgathered.tag htag⟩
  next htag =>
      simp only [bind_eq_ok_iff, Element.requiredText_eq_ok_iff, Element.decodedContent?_eq_ok_iff,
        Element.number_eq_ok_iff Text.readUInt16_eq_ok_iff, Element.flag_eq_ok_iff, hentries,
        mapM_eq_ok_iff, Version.ofElement_eq_ok_iff, hcommons, Element.childContent?_eq_nonEmpty]
      constructor
      · rintro ⟨bucket, hbucket, keyPrefix, hkeyPrefix, keyMarker, hkey, delimiter, hdelimiter,
          maxKeys, hmax, isTruncated, htruncated, nextKey, hnextKey, versions, hversions, commons,
          hcommons, hp⟩
        refine ⟨_, ?_, Except.ok.inj hp⟩
        exact ⟨not_not.mp htag, hbucket, settles_nonEmpty _, hkeyPrefix, hkey, settles_nonEmpty _,
          hdelimiter, hmax, htruncated, hnextKey, settles_nonEmpty _, hversions, hcommons⟩
      · rintro ⟨parts, hgathered, rfl⟩
        rw [← settles_iff.mp hgathered.encoding, ← settles_iff.mp hgathered.versionIdMarker,
          ← settles_iff.mp hgathered.nextVersionIdMarker]
        exact ⟨_, hgathered.bucket, _, hgathered.keyPrefix, _, hgathered.keyMarker, _,
          hgathered.delimiter, _,
          hgathered.maxKeys, _, hgathered.isTruncated, _, hgathered.nextKeyMarker, _,
          hgathered.versions, _, hgathered.commonPrefixes, rfl⟩

theorem ofElement_eq_ok_iff :
    ofElement root = .ok p ↔ ∃ parts : Page, parts.GatheredFrom root ∧ p = parts.kept := by
  rw [ofElement_eq_ok_iff_normalize]
  refine exists_congr fun parts => and_congr_right fun hgathered => ?_
  rw [hgathered.normalize_eq, eq_comm]

theorem exists_mem_head?_iff {texts : List String} : (∃ s, s ∈ texts.head?) ↔ texts ≠ [] := by
  cases texts <;> simp

/-- What can be said by an entry can be read if its key can. -/
theorem exists_describedBy_iff {coding : Coding} {e : Element} :
    (∃ v : Version, v.DescribedBy coding e) ↔
    IsEntry e ∧ ∀ s ∈ (e.texts "Key").head?, ∃ value, coding.decode s = .ok value := by
  constructor
  · rintro ⟨v, hdescribed⟩
    obtain ⟨key, hkey, hread⟩ := hdescribed.key
    obtain ⟨time, htime, hparse⟩ := hdescribed.lastModified
    refine ⟨⟨?_, ?_, ⟨time, htime, _, hparse⟩, ?_⟩, fun s hs => ?_⟩
    · exact exists_mem_head?_iff.mp ⟨key, hkey⟩
    · exact exists_given_iff.mp ⟨_, hdescribed.isLatest⟩
    · exact exists_given_iff.mp ⟨_, hdescribed.size⟩
    · cases Option.mem_unique hkey hs
      exact ⟨_, hread⟩
  · rintro ⟨hentry, hcoded⟩
    obtain ⟨s, hs⟩ := exists_mem_head?_iff.mpr hentry.key
    obtain ⟨key, hkey⟩ := hcoded s hs
    obtain ⟨isLatest, hlatest⟩ := exists_given_iff.mpr hentry.isLatest
    obtain ⟨time, htime, lastModified, hparse⟩ := hentry.lastModified
    obtain ⟨size, hsize⟩ := exists_given_iff.mpr hentry.size
    have howner : Option.Rel (fun child o => Owner.DescribedBy o child) (e.tagged "Owner").head?
        ((e.tagged "Owner").head?.map Owner.ofElement) := by
      cases (e.tagged "Owner").head? with
      | none => exact .none
      | some child => exact .some (Owner.ofElement_eq_iff.mp rfl)
    let v : Version :=
      { key
        versionId := (e.texts "VersionId").head?.getD "null"
        isLatest
        lastModified
        etag := nonEmpty (e.texts "ETag").head?
        size
        storageClass := nonEmpty (e.texts "StorageClass").head?
        owner := (e.tagged "Owner").head?.map Owner.ofElement
        isDeleteMarker := e.tag == deleteMarkerTag }
    exact ⟨v, ⟨s, hs, hkey⟩, rfl, hlatest, ⟨time, htime, hparse⟩, settles_nonEmpty _, hsize,
      settles_nonEmpty _, howner, beq_iff_eq⟩

theorem GatheredFrom.exists_decode (hgathered : parts.GatheredFrom root) {s : String}
    (hcoded : IsCoded root s) :
    ∃ value, parts.encoding.decode s = .ok value := by
  cases hcoded with
  | field htag htext =>
      simp only [List.mem_cons, List.not_mem_nil, or_false] at htag
      rcases htag with rfl | rfl | rfl | rfl
      · exact Coding.exists_decode_of_given hgathered.keyPrefix htext
      · exact Coding.exists_decode_of_given hgathered.keyMarker htext
      · exact Coding.exists_decode_of_given hgathered.delimiter htext
      · exact Coding.exists_decode_of_given hgathered.nextKeyMarker htext
  | key hentry htext =>
      have hdescribed := exists_forall₂_iff.mp ⟨_, hgathered.versions⟩ _ hentry
      exact (exists_describedBy_iff.mp hdescribed).2 s htext
  | common hcommon htext =>
      obtain ⟨common, t, ht, hread⟩ := exists_forall₂_iff.mp ⟨_, hgathered.commonPrefixes⟩ _ hcommon
      exact ⟨common, Option.mem_unique ht htext ▸ hread⟩

/-- A root of the right form describes the parts of a page, and no other does. -/
theorem exists_gatheredFrom_iff : (∃ parts : Page, parts.GatheredFrom root) ↔ IsListing root := by
  constructor
  · rintro ⟨parts, hgathered⟩
    refine ⟨hgathered.tag, ?_, ?_, ?_, ?_, ?_, ?_⟩
    · exact exists_mem_head?_iff.mp ⟨_, hgathered.bucket⟩
    · exact exists_given_iff.mp ⟨_, hgathered.maxKeys⟩
    · exact exists_given_iff.mp ⟨_, hgathered.isTruncated⟩
    · intro e he
      obtain ⟨v, hdescribed⟩ := exists_forall₂_iff.mp ⟨_, hgathered.versions⟩ e he
      exact (exists_describedBy_iff.mp ⟨v, hdescribed⟩).1
    · intro e he
      obtain ⟨common, s, hs, _⟩ := exists_forall₂_iff.mp ⟨_, hgathered.commonPrefixes⟩ e he
      exact exists_mem_head?_iff.mp ⟨s, hs⟩
    · intro hurl s hcoded
      have hread := hgathered.exists_decode hcoded
      rwa [settles_iff.mp hgathered.encoding, hurl] at hread
  · intro hlisting
    have hcoded {s : String} (hcoded : IsCoded root s) :
        ∃ value, Coding.decode (nonEmpty (root.texts "EncodingType").head?) s = .ok value :=
      Coding.exists_decode_of_url fun hurl => hlisting.coded (mem_of_mem_nonEmpty hurl) s hcoded
    have hfield (tag : String)
        (htag : tag ∈ ["Prefix", "KeyMarker", "Delimiter", "NextKeyMarker"]) :
        ∃ value,
          Given (Coding.Says (nonEmpty (root.texts "EncodingType").head?)) none
            (root.texts tag).head? value := by
      refine exists_given_iff.mpr fun s hs _ => ?_
      obtain ⟨value, hread⟩ := hcoded (.field htag hs)
      exact ⟨some value, value, hread, rfl⟩
    obtain ⟨bucket, hbucket⟩ := exists_mem_head?_iff.mpr hlisting.name
    obtain ⟨keyPrefix, hkeyPrefix⟩ := hfield "Prefix" (by decide)
    obtain ⟨keyMarker, hkeyMarker⟩ := hfield "KeyMarker" (by decide)
    obtain ⟨delimiter, hdelimiter⟩ := hfield "Delimiter" (by decide)
    obtain ⟨nextKeyMarker, hnextKeyMarker⟩ := hfield "NextKeyMarker" (by decide)
    obtain ⟨maxKeys, hmaxKeys⟩ := exists_given_iff.mpr hlisting.maxKeys
    obtain ⟨isTruncated, htruncated⟩ := exists_given_iff.mpr hlisting.isTruncated
    obtain ⟨versions, hversions⟩ := exists_forall₂_iff.mpr fun e he =>
      exists_describedBy_iff.mpr ⟨hlisting.entries e he, fun s hs => hcoded (.key he hs)⟩
    obtain ⟨commonPrefixes, hcommons⟩ := exists_forall₂_iff.mpr fun e he => by
      obtain ⟨s, hs⟩ := exists_mem_head?_iff.mpr (hlisting.commons e he)
      obtain ⟨common, hread⟩ := hcoded (.common he hs)
      exact (⟨common, s, hs, hread⟩ : ∃ common, CommonDescribedBy _ e common)
    let parts : Page :=
      { bucket, versions, commonPrefixes, keyPrefix, keyMarker, delimiter, maxKeys,
        isTruncated, nextKeyMarker
        versionIdMarker := nonEmpty (root.texts "VersionIdMarker").head?
        encoding := nonEmpty (root.texts "EncodingType").head?
        nextVersionIdMarker := nonEmpty (root.texts "NextVersionIdMarker").head? }
    exact ⟨parts, hlisting.tag, hbucket, settles_nonEmpty _, hkeyPrefix, hkeyMarker,
      settles_nonEmpty _, hdelimiter,
      hmaxKeys, htruncated, hnextKeyMarker, settles_nonEmpty _, hversions, hcommons⟩

/-- Documents of listings are read exactly if their root has the form of one, and what is read is
what it describes. -/
theorem ofXml_described :
    (∀ root, (∃ p, ofElement root = .ok p) ↔ IsListing root) ∧
      (∀ root p, ofElement root = .ok p ↔
        ∃ parts : Page, parts.GatheredFrom root ∧ p = parts.kept) ∧
      ∀ bs p, ofXml bs = .ok p ↔
        ∃ root, Element.ofDocument? bs = some root ∧ ∃ parts : Page, parts.GatheredFrom root ∧
          p = parts.kept := by
  refine ⟨fun root => ?_, fun root p => ofElement_eq_ok_iff, fun bs p => ?_⟩
  · rw [← exists_gatheredFrom_iff]
    constructor
    · rintro ⟨p, hread⟩
      obtain ⟨parts, hgathered, _⟩ := ofElement_eq_ok_iff.mp hread
      exact ⟨parts, hgathered⟩
    · rintro ⟨parts, hgathered⟩
      exact ⟨parts.kept, ofElement_eq_ok_iff.mpr ⟨parts, hgathered, rfl⟩⟩
  · unfold ofXml
    cases Element.ofDocument? bs with
    | none => simp
    | some root => simp [mapError_eq_ok_iff, ofElement_eq_ok_iff]

end Page

end VersionedBucket
