import VersionedBucket.Page.Codec
import VersionedBucket.Proofs.Markup.Document
import VersionedBucket.Proofs.Page.Tree

/-! # Pages read back from documents

A page comes back from its document, with its times as a clock shows them, to the millisecond, and
without sizes of delete markers. All that is asked of its texts is that a document may contain those
that it holds as they are. Under the `url` coding keys, prefixes, key markers and the delimiter are
none of them.
-/

namespace VersionedBucket

open Markup

theorem isLegal_of_ascii {c : Char} (hlow : 0x20 ≤ c.toNat) (hhigh : c.toNat < 128) :
    IsLegal c := by
  have hplain : (0x20 ≤ c.toNat && c.toNat ≤ 0xFFFD) = true := by
    rw [Bool.and_eq_true, decide_eq_true_eq, decide_eq_true_eq]
    omega
  show (isSpace c || (0x20 ≤ c.toNat && c.toNat ≤ 0xFFFD) || 0x10000 ≤ c.toNat) = true
  rw [hplain, Bool.or_true, Bool.true_or]

theorem isLegal_of_isDigit {c : Char} (hdigit : c.isDigit = true) : IsLegal c := by
  simp only [Char.isDigit, Bool.and_eq_true, decide_eq_true_eq, ge_iff_le,
    UInt32.le_iff_toNat_le] at hdigit
  have hlow : 48 ≤ c.toNat := hdigit.1
  have hhigh : c.toNat ≤ 57 := hdigit.2
  exact isLegal_of_ascii (by omega) (by omega)

/-- A document may contain all characters of a text. -/
def IsWritable (text : String) : Prop := ∀ c ∈ text.toList, IsLegal c

instance (text : String) : Decidable (IsWritable text) := List.decidableBAll IsLegal text.toList

theorem isWritable_numberText (n : Nat) : IsWritable (numberText n) := by
  intro c hc
  rw [numberText, String.toList_ofList] at hc
  exact isLegal_of_isDigit (Text.allDigits_decimal n c hc)

theorem isWritable_truthWord (b : Bool) : IsWritable (Text.truthWord b) := by cases b <;> decide

theorem isWritable_format (t : Time.Instant) : IsWritable (Time.Iso.format t) := by
  have hpadded {width n : Nat} {c : Char} (hc : c ∈ Time.padded width n) : IsLegal c :=
    isLegal_of_isDigit (Time.allDigits_padded width n c hc)
  have hyear {year : Int} {c : Char} (hc : c ∈ Time.yearText year) : IsLegal c := by
    unfold Time.yearText at hc
    split at hc
    · exact hpadded hc
    split at hc
    · rcases List.mem_cons.mp hc with rfl | hc
      · decide
      · exact hpadded hc
    · rcases List.mem_cons.mp hc with rfl | hc
      · decide
      · exact hpadded hc
  intro c hc
  rw [Time.Iso.format, String.toList_ofList] at hc
  simp only [Time.Civil.text, List.mem_append, List.mem_cons, List.not_mem_nil, or_false] at hc
  rcases hc with
    ((((((hc | rfl | hc) | rfl | hc) | rfl | hc) | rfl | hc) | rfl | hc) | rfl | hc) | rfl
  · exact hyear hc
  all_goals
    first
    | exact hpadded hc
    | decide

/-- What is coded can be written whatever it says. -/
theorem isWritable_encode {coding : Coding} {value : String}
    (hplain : coding.isUrl = false → IsWritable value) :
    IsWritable (coding.encode value) := by
  unfold Coding.encode
  split
  next hurl =>
      intro c hc
      obtain ⟨hlow, hhigh⟩ := Percent.ascii_of_mem_encode hc
      exact isLegal_of_ascii (Nat.le_trans (by decide) hlow) hhigh
  next hurl => exact hplain (Bool.eq_false_iff.mpr hurl)

theorem written_optionalLeaf {tag : String} {value : Option String} (htag : IsTag tag)
    (hvalue : ∀ s ∈ value, IsWritable s) : ∀ e ∈ optionalLeaf tag value, e.toNode.Written := by
  intro e he
  cases value with
  | none => cases he
  | some s =>
      rw [List.mem_singleton.mp he]
      exact Element.written_leaf htag (hvalue s rfl)

/-- The texts of an owner, none of which is ever coded. -/
def Owner.texts (o : Owner) : List String := o.id :: o.displayName.toList

/-- The texts of a version that are written as they are. -/
def Version.plainTexts (coding : Coding) (v : Version) : List String :=
  v.versionId :: v.etag.toList ++ v.storageClass.toList ++ v.owner.toList.flatMap Owner.texts ++
    if coding.isUrl then [] else [v.key]

/-- The texts of a page, outside of its versions, that are coded as it says. -/
def Page.codedTexts (p : Page) : List String :=
  p.keyPrefix.toList ++ p.keyMarker.toList ++ p.nextKeyMarker.toList ++ p.delimiter.toList ++
    p.commonPrefixes

/-- The texts of a page that are written as they are. -/
def Page.plainTexts (p : Page) : List String :=
  p.bucket :: p.versionIdMarker.toList ++ p.nextVersionIdMarker.toList ++
    p.versions.flatMap (Version.plainTexts p.encoding) ++
    if p.encoding.isUrl then [] else p.encoding.toList ++ p.codedTexts

theorem Owner.written_toElement {o : Owner} (htexts : ∀ text ∈ o.texts, IsWritable text) :
    o.toElement.toNode.Written := by
  obtain ⟨hid, hname⟩ := List.forall_mem_cons.mp htexts
  refine Element.written_branch (by decide) (List.forall_mem_cons.mpr ⟨?_, ?_⟩)
  · exact Element.written_leaf (by decide) hid
  · exact written_optionalLeaf (by decide) fun s hs => hname s (Option.mem_toList.mpr hs)

theorem Version.written_toElement {coding : Coding} {v : Version}
    (htexts : ∀ text ∈ v.plainTexts coding, IsWritable text) :
    (v.toElement coding).toNode.Written := by
  simp only [plainTexts, List.forall_mem_append, List.forall_mem_cons,
    List.forall_mem_flatMap] at htexts
  obtain ⟨⟨⟨⟨hid, hetag⟩, hclass⟩, howner⟩, hkey⟩ := htexts
  have hkey : IsWritable (coding.encode v.key) := by
    refine isWritable_encode fun hcoding => hkey v.key ?_
    rw [hcoding]
    exact List.mem_singleton_self v.key
  have htag : IsTag (if v.isDeleteMarker then deleteMarkerTag else versionTag) := by
    split <;> decide
  refine Element.written_branch htag ?_
  simp only [List.forall_mem_append, List.forall_mem_cons]
  refine ⟨⟨⟨⟨⟨?_, ?_, ?_, ?_, ?_⟩, ?_⟩, ?_⟩, ?_⟩, ?_⟩
  · exact Element.written_leaf (by decide) hkey
  · exact Element.written_leaf (by decide) hid
  · exact Element.written_leaf (by decide) (isWritable_truthWord v.isLatest)
  · exact Element.written_leaf (by decide) (isWritable_format v.lastModified)
  · exact List.forall_mem_nil _
  · exact written_optionalLeaf (by decide) fun s hs => hetag s (Option.mem_toList.mpr hs)
  · split
    · exact List.forall_mem_nil _
    · exact List.forall_mem_singleton.mpr
        (Element.written_leaf (by decide) (isWritable_numberText _))
  · exact written_optionalLeaf (by decide) fun s hs => hclass s (Option.mem_toList.mpr hs)
  · intro e he
    obtain ⟨o, ho, rfl⟩ := Option.map_eq_some_iff.mp (Option.mem_toList.mp he)
    exact Owner.written_toElement (howner o (Option.mem_toList.mpr ho))

namespace Page

theorem written_toElement {p : Page} (htexts : ∀ text ∈ p.plainTexts, IsWritable text) :
    p.toElement.toNode.Written := by
  simp only [plainTexts, List.forall_mem_append, List.forall_mem_cons,
    List.forall_mem_flatMap] at htexts
  obtain ⟨⟨⟨⟨hbucket, hid⟩, hnextId⟩, hversions⟩, hrest⟩ := htexts
  have hplain {text : String} (hcoding : p.encoding.isUrl = false)
      (htext : text ∈ p.encoding.toList ++ p.codedTexts) : IsWritable text := by
    rw [hcoding] at hrest
    exact hrest text htext
  have hcoded {text : String} (htext : text ∈ p.codedTexts) : IsWritable (p.encoding.encode text) :=
    isWritable_encode fun hcoding => hplain hcoding (List.mem_append_right _ htext)
  have hoptional {value : Option String} (hvalue : ∀ s ∈ value, s ∈ p.codedTexts) :
      ∀ s ∈ value.map p.encoding.encode, IsWritable s := by
    intro s hs
    obtain ⟨text, htext, rfl⟩ := Option.map_eq_some_iff.mp hs
    exact hcoded (hvalue text htext)
  have hencoding : ∀ s ∈ p.encoding, IsWritable s := by
    intro s hs
    -- the name of the coding itself is never coded, but `url` is harmless
    cases hcoding : p.encoding.isUrl with
    | true =>
        have hurl : some s = some Coding.url := hs.symm.trans (beq_iff_eq.mp hcoding)
        rw [Option.some.inj hurl]
        decide
    | false => exact hplain hcoding (List.mem_append_left _ (Option.mem_toList.mpr hs))
  have hfields : ∀ e ∈ p.fields, e.toNode.Written := by
    have hleaf {tag s : String} (htag : IsTag tag) (hs : IsWritable s) :
        ∀ e ∈ [Element.leaf tag s], e.toNode.Written :=
      List.forall_mem_singleton.mpr (Element.written_leaf htag hs)
    simp only [fields, List.forall_mem_append]
    refine ⟨⟨⟨⟨⟨⟨⟨⟨⟨?_, ?_⟩, ?_⟩, ?_⟩, ?_⟩, ?_⟩, ?_⟩, ?_⟩, ?_⟩, ?_⟩
    · exact hleaf (by decide) hbucket
    · exact written_optionalLeaf (by decide)
        (hoptional fun s hs => by simp [codedTexts, Option.mem_def.mp hs])
    · exact written_optionalLeaf (by decide)
        (hoptional fun s hs => by simp [codedTexts, Option.mem_def.mp hs])
    · exact written_optionalLeaf (by decide) fun s hs => hid s (Option.mem_toList.mpr hs)
    · exact written_optionalLeaf (by decide)
        (hoptional fun s hs => by simp [codedTexts, Option.mem_def.mp hs])
    · exact written_optionalLeaf (by decide) fun s hs => hnextId s (Option.mem_toList.mpr hs)
    · exact hleaf (by decide) (isWritable_numberText _)
    · exact written_optionalLeaf (by decide)
        (hoptional fun s hs => by simp [codedTexts, Option.mem_def.mp hs])
    · exact written_optionalLeaf (by decide) hencoding
    · exact hleaf (by decide) (isWritable_truthWord _)
  rw [toElement_eq]
  refine Element.written_branch (by decide) fun e he => ?_
  rcases List.mem_append.mp he with he | he
  · rcases List.mem_append.mp he with he | he
    · exact hfields e he
    · obtain ⟨v, hv, rfl⟩ := List.mem_map.mp he
      exact Version.written_toElement (hversions v hv)
  · obtain ⟨common, hcommon, rfl⟩ := List.mem_map.mp he
    refine Element.written_branch (by decide) (List.forall_mem_singleton.mpr ?_)
    exact Element.written_leaf (by decide) (hcoded (List.mem_append_right _ hcommon))

theorem ofXml_toXml_of_writable {p : Page} (hnormal : p.Normal)
    (htexts : ∀ text ∈ p.plainTexts, IsWritable text) :
    ofXml (Text.bytes p.toXml) = .ok p.written := by
  rw [toXml, ofXml, Element.ofDocument?_document (written_toElement htexts)]
  show (ofElement p.toElement).mapError Fault.invalid = .ok p.written
  rw [ofElement_toElement hnormal]
  rfl

theorem plainTexts_written (p : Page) : p.written.plainTexts = p.plainTexts := by
  have hversions : p.written.versions.flatMap (Version.plainTexts p.encoding) =
      p.versions.flatMap (Version.plainTexts p.encoding) := List.flatMap_map ..
  show p.bucket :: p.versionIdMarker.toList ++ p.nextVersionIdMarker.toList ++
    p.written.versions.flatMap (Version.plainTexts p.encoding) ++ _ = _
  rw [hversions]
  rfl

end Page

/-- A document loses nothing of a version. -/
structure Version.Exact (v : Version) : Prop where
  regular : v.lastModified.IsRegular
  millis : v.lastModified.nanos % 1000000 = 0
  size : v.isDeleteMarker = true → v.size = 0

namespace Version

theorem written_of_exact {v : Version} (hexact : v.Exact) : v.written = v := by
  have hsize : (if v.isDeleteMarker then 0 else v.size) = v.size := by
    split
    next hmarker => exact (hexact.size hmarker).symm
    next => rfl
  rw [written, Time.Instant.shown_of_isRegular hexact.regular,
    Time.Instant.truncateToMillis_eq_self hexact.millis, hsize]

theorem exact_written (v : Version) : v.written.Exact where
  regular := Time.Instant.isRegular_truncateToMillis v.lastModified.isRegular_shown
  millis := Nat.mul_mod_left ..
  size := fun hmarker => if_pos hmarker

end Version

namespace Page

theorem written_of_exact {p : Page} (hexact : ∀ v ∈ p.versions, v.Exact) : p.written = p := by
  have hversions : p.versions.map Version.written = p.versions :=
    map_eq_self_iff.mpr fun v hv => Version.written_of_exact (hexact v hv)
  rw [written, hversions]

theorem exact_written (p : Page) : ∀ v ∈ p.written.versions, v.Exact := by
  intro v hv
  obtain ⟨w, _, rfl⟩ := List.mem_map.mp hv
  exact w.exact_written

/-- The page with its times cut to whole milliseconds and without sizes of delete markers. -/
def cut (p : Page) : Page :=
  { p with
    versions := p.versions.map fun v =>
      { v with
        lastModified := v.lastModified.truncateToMillis
        size := if v.isDeleteMarker then 0 else v.size } }

theorem written_eq_cut {p : Page} (hregular : ∀ v ∈ p.versions, v.lastModified.IsRegular) :
    p.written = p.cut := by
  have hversions : p.versions.map Version.written = p.cut.versions := by
    apply List.map_congr_left
    intro v hv
    rw [Version.written, Time.Instant.shown_of_isRegular (hregular v hv)]
  rw [written, hversions]
  rfl

/-- A page comes back from its document as what the document keeps of it. If no time of its lies in
a leap second within a minute, this is the page with its times cut to whole milliseconds and without
sizes of delete markers; such a leap second comes back as the second that follows. Nothing is lost
if besides times are in whole milliseconds and delete markers have no size, and nothing more is lost
when the page is written again. -/
theorem ofXml_toXml {p : Page} (hnormal : p.Normal)
    (htexts : ∀ text ∈ p.plainTexts, IsWritable text) :
    ofXml (Text.bytes p.toXml) = .ok p.written ∧
      ((∀ v ∈ p.versions, v.lastModified.IsRegular) → ofXml (Text.bytes p.toXml) = .ok p.cut) ∧
      ((∀ v ∈ p.versions, v.Exact) → ofXml (Text.bytes p.toXml) = .ok p) ∧
      ofXml (Text.bytes p.written.toXml) = .ok p.written := by
  have hread := ofXml_toXml_of_writable hnormal htexts
  refine ⟨hread, ?_, ?_, ?_⟩
  · intro hregular
    rw [hread, written_eq_cut hregular]
  · intro hexact
    rw [hread, written_of_exact hexact]
  · rw [ofXml_toXml_of_writable (normal_written hnormal) (plainTexts_written p ▸ htexts),
      written_of_exact p.exact_written]

/-- A page with texts of all kinds: a leap second before the year 0, a delete marker with a size,
texts that are empty or blank, and a key that no document can hold without being coded. -/
def sample : Page where
  bucket := "b<&>]]"
  versions := [
    { key := "\x00%2F ", versionId := "",
      lastModified := ⟨-62167219201, 1500000001, by decide, by decide, by decide⟩, size := 7,
      owner := some { id := "", displayName := some " \t" }, isDeleteMarker := true },
    { key := "", versionId := "null", lastModified := .epoch, etag := some "/]",
      size := 18446744073709551615 }]
  commonPrefixes := ["\x01/", ""]
  keyMarker := some "%"
  delimiter := some "/"
  maxKeys := 65535
  encoding := some "url"

theorem ofXml_toXml_sample :
    sample.Normal ∧ (∀ text ∈ sample.plainTexts, IsWritable text) ∧
      (∀ v ∈ sample.versions, v.lastModified.IsRegular) ∧
      (∀ v ∈ sample.written.versions, v.Exact) ∧
      ofXml (Text.bytes sample.toXml) = .ok sample.cut ∧ sample.cut ≠ sample ∧
      ofXml (Text.bytes sample.written.toXml) = .ok sample.written := by
  have hnormal : sample.Normal := by
    refine ⟨fun _ => ⟨rfl, rfl⟩, nofun, by decide, by decide, ?_⟩
    exact List.forall_mem_cons.mpr ⟨⟨by decide, by decide, fun o ho => by cases ho; decide⟩,
      List.forall_mem_singleton.mpr ⟨by decide, by decide, nofun⟩⟩
  have htexts : ∀ text ∈ sample.plainTexts, IsWritable text := by decide
  have hregular : ∀ v ∈ sample.versions, v.lastModified.IsRegular := by decide
  obtain ⟨-, hcut, -, -⟩ := ofXml_toXml hnormal htexts
  obtain ⟨-, -, hagain, -⟩ :=
    ofXml_toXml (normal_written hnormal) (plainTexts_written sample ▸ htexts)
  exact ⟨hnormal, htexts, hregular, sample.exact_written, hcut hregular, by decide,
    hagain sample.exact_written⟩

/-- A leap second within a minute is written as the second that follows, and does not come back. -/
theorem ofXml_toXml_withinMinute :
    withinMinute.Normal ∧ (∀ text ∈ withinMinute.plainTexts, IsWritable text ∧ '\r' ∉ text.toList) ∧
      ofXml (Text.bytes withinMinute.toXml) = .ok { withinMinute with
        versions := withinMinute.versions.map fun v =>
          { v with lastModified := ⟨6, 500000000, by decide, by decide, by decide⟩ } } ∧
      ofXml (Text.bytes withinMinute.toXml) ≠ .ok withinMinute.cut := by
  have htexts : ∀ text ∈ withinMinute.plainTexts, IsWritable text ∧ '\r' ∉ text.toList := by decide
  have hread := ofXml_toXml_of_writable normal_withinMinute fun text htext => (htexts text htext).1
  refine ⟨normal_withinMinute, htexts, hread, ?_⟩
  intro hsame
  exact absurd (Except.ok.inj (hread.symm.trans hsame)) (by decide)

end Page

end VersionedBucket
