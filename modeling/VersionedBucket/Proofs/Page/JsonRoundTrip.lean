import VersionedBucket.Page.Codec
import VersionedBucket.Proofs.Json.Records
import VersionedBucket.Proofs.Page.Normal
import VersionedBucket.Proofs.Time.Rfc3339

/-! # Pages read back from JSON

A page comes back from its JSON text as it was, whatever its texts and numbers are, and with its
times as a clock shows them, to the nanosecond: only a leap second within a minute comes back as the
second that follows. What is read and what is written are two lists of fields. They agree if each
member that is written fills the field that has its name.
-/

namespace VersionedBucket

open Json Json.Reader

theorem reads_time (t : Time.Instant) :
    Reads (Reader.time Time.Rfc3339.parse) (Writer.text (Time.Rfc3339.format t)) t.shown := by
  intro rest hrest
  rw [Reader.time, bind_of_ok (reads_string .time _ rest hrest), Time.Rfc3339.parse_format]
  rfl

theorem join_map_some {α : Type} (value : Option α) : (value.map some).join = value := by
  cases value <;> rfl

theorem Owner.reads_json (o : Owner) : Reads record.read o.json o := by
  have hfills : Record.Fills record (Writer.member "ID" (Writer.text o.id) ::
      (Writer.optionalMember "DisplayName" Writer.text o.displayName ++ [])) record.start _ :=
    .member rfl rfl ((reads_string .text o.id).map _) <|
    .optionalMember (fun displayName s => { s with displayName }) rfl rfl rfl rfl
      reads_optionalText .done
  rw [List.append_nil] at hfills
  refine Record.reads_object hfills ?_
  simp only [record, join_map_some]
  rfl

theorem Owner.opens_json (o : Owner) : Opens o.json := Record.opens_object _

/-- The version as a clock shows its time. -/
def Version.shown (v : Version) : Version := { v with lastModified := v.lastModified.shown }

theorem Version.reads_json (v : Version) : Reads record.read v.json v.shown := by
  unfold json
  simp only [List.append_assoc, List.cons_append, List.nil_append]
  refine Record.reads_object
    (.member rfl rfl ((reads_string .text v.key).map _) <|
    .member rfl rfl ((reads_string .text v.versionId).map _) <|
    .member rfl rfl ((reads_boolean v.isLatest).map _) <|
    .member rfl rfl ((reads_time v.lastModified).map _) <|
    .optionalMember (fun etag s => { s with etag }) rfl rfl rfl rfl reads_optionalText <|
    .member rfl rfl ((reads_uint64 v.size).map _) <|
    .optionalMember (fun storageClass s => { s with storageClass }) rfl rfl rfl rfl
      reads_optionalText <|
    .optionalMember (fun owner s => { s with owner }) rfl rfl rfl rfl
      (fun owner => owner.reads_json.optional owner.opens_json) <|
    .member rfl rfl ((reads_boolean v.isDeleteMarker).map _) .done) ?_
  simp only [record, join_map_some]
  rfl

theorem Version.opens_json (v : Version) : Opens v.json := Record.opens_object _

theorem Version.shown_eq_self_iff {v : Version} : v.shown = v ↔ v.lastModified.IsRegular := by
  rw [← Time.Instant.shown_eq_self_iff]
  constructor
  · intro heq
    exact congrArg lastModified heq
  · intro heq
    rw [shown, heq]

namespace Page

/-- The page as a clock shows its times. -/
def shown (p : Page) : Page := { p with versions := p.versions.map Version.shown }

theorem shown_eq_self_iff {p : Page} :
    p.shown = p ↔ ∀ v ∈ p.versions, v.lastModified.IsRegular := by
  simp only [← Version.shown_eq_self_iff]
  constructor
  · intro heq
    exact map_eq_self_iff.mp (congrArg versions heq)
  · intro hversions
    rw [shown, map_eq_self_iff.mpr hversions]

theorem normal_shown {p : Page} (hnormal : p.Normal) : p.shown.Normal where
  markers := hnormal.markers
  rolledUp := hnormal.rolledUp
  distinct := hnormal.distinct
  filled := hnormal.filled
  versions := by
    intro v hv
    obtain ⟨w, hw, rfl⟩ := List.mem_map.mp hv
    obtain ⟨hetag, hclass, howner⟩ := hnormal.versions w hw
    exact ⟨hetag, hclass, howner⟩

theorem reads_json (p : Page) : Reads record.read p.json p.shown := by
  unfold json
  simp only [List.append_assoc, List.cons_append, List.nil_append]
  rw [← List.append_nil
    (Writer.optionalMember "NextVersionIdMarker" Writer.text p.nextVersionIdMarker)]
  refine Record.reads_object
    (.member rfl rfl ((reads_string .text p.bucket).map _) <|
    .member rfl rfl ((reads_list Version.shown Version.reads_json Version.opens_json).map _) <|
    .member rfl rfl ((reads_list id (reads_string .text) opens_text).map _) <|
    .optionalMember (fun keyPrefix s => { s with keyPrefix }) rfl rfl rfl rfl reads_optionalText <|
    .optionalMember (fun keyMarker s => { s with keyMarker }) rfl rfl rfl rfl reads_optionalText <|
    .optionalMember (fun versionIdMarker s => { s with versionIdMarker }) rfl rfl rfl rfl
      reads_optionalText <|
    .optionalMember (fun delimiter s => { s with delimiter }) rfl rfl rfl rfl reads_optionalText <|
    .member rfl rfl ((reads_uint16 p.maxKeys).map _) <|
    .optionalMember (fun encoding s => { s with encoding }) rfl rfl rfl rfl reads_optionalText <|
    .member rfl rfl ((reads_boolean p.isTruncated).map _) <|
    .optionalMember (fun nextKeyMarker s => { s with nextKeyMarker }) rfl rfl rfl rfl
      reads_optionalText <|
    .optionalMember (fun nextVersionIdMarker s => { s with nextVersionIdMarker }) rfl rfl rfl rfl
      reads_optionalText
      .done) ?_
  simp only [record, join_map_some, List.map_id]
  rfl

theorem partsOfJson_toJson (p : Page) : partsOfJson (Text.bytes p.toJson) = .ok p.shown := by
  have hread : record.read (Text.bytes p.toJson) = .ok (p.shown, []) := by
    have := p.reads_json [] closes_nil
    rwa [List.append_nil, ← String.toList_ofList (l := p.json)] at this
  rw [partsOfJson, whole, hread]
  rfl

theorem ofJson_toJson_of_normal {p : Page} (hnormal : p.Normal) :
    ofJson (Text.bytes p.toJson) = .ok p.shown := by
  rw [ofJson, partsOfJson_toJson]
  exact congrArg Except.ok (normalize_of_normal (normal_shown hnormal))

theorem normal_ofJson {p : Page} {bs : List UInt8} (hread : ofJson bs = .ok p) : p.Normal := by
  obtain ⟨parts, -, rfl⟩ := map_eq_ok_iff.mp hread
  exact parts.normal_normalize

end Page

/-! ## Times that are read -/

/-- Of all fields of a version only its time bears on whether the time is regular. -/
theorem Version.ensures_record :
    Ensures record.read fun v : Version => v.lastModified.IsRegular := by
  have hkept : ∀ f ∈ record.fields, ∀ s : PartialVersion, (∀ t ∈ s.lastModified, t.IsRegular) →
      Ensures (f.read s) fun s => ∀ t ∈ s.lastModified, t.IsRegular := by
    have htime (s : PartialVersion) : Ensures
        (do return { s with lastModified := some (← Reader.time Time.Rfc3339.parse) })
        fun s : PartialVersion => ∀ t ∈ s.lastModified, t.IsRegular := by
      refine .bind (ensures_time fun _ _ => Time.Rfc3339.parse_isRegular) fun t ht => .pure ?_
      rintro _ ⟨⟩
      exact ht
    simp only [record, List.forall_mem_cons, List.not_mem_nil, false_implies, implies_true,
      and_true]
    -- the other eight fields leave the time as it is
    refine ⟨?_, ?_, ?_, fun s _ => htime s, ?_, ?_, ?_, ?_, ?_⟩ <;>
      exact fun _ hs => .after fun _ => .pure hs
  refine Record.ensures_read hkept (fun _ ht => absurd ht (Option.not_mem_none _))
    fun s v hs hfinish => ?_
  simp only [record, bind_eq_ok_iff] at hfinish
  obtain ⟨_, -, _, -, _, -, t, htime, hv⟩ := hfinish
  cases hv
  cases hform : s.lastModified with
  | none =>
      rw [hform] at htime
      cases htime
  | some t' =>
      rw [hform] at htime
      cases htime
      exact hs _ hform

theorem Page.ensures_record :
    Ensures record.read fun p : Page => ∀ v ∈ p.versions, v.lastModified.IsRegular := by
  have hkept : ∀ f ∈ record.fields, ∀ s : PartialPage,
      (∀ vs ∈ s.versions, ∀ v ∈ vs, v.lastModified.IsRegular) →
        Ensures (f.read s) fun s => ∀ vs ∈ s.versions, ∀ v ∈ vs, v.lastModified.IsRegular := by
    have hversions (s : PartialPage) : Ensures
        (do return { s with versions := some (← Reader.list Version.record.read) })
        fun s : PartialPage => ∀ vs ∈ s.versions, ∀ v ∈ vs, v.lastModified.IsRegular := by
      refine .bind (Reader.ensures_list Version.ensures_record) fun vs hvs => .pure ?_
      rintro _ ⟨⟩
      exact hvs
    simp only [record, List.forall_mem_cons, List.not_mem_nil, false_implies, implies_true,
      and_true]
    refine ⟨?_, fun s _ => hversions s, ?_, ?_, ?_, ?_, ?_, ?_, ?_, ?_, ?_, ?_⟩ <;>
      exact fun _ hs => .after fun _ => .pure hs
  refine Record.ensures_read hkept (fun _ hvs => absurd hvs (Option.not_mem_none _))
    fun s p hs hfinish => ?_
  simp only [record, bind_eq_ok_iff] at hfinish
  obtain ⟨_, -, hp⟩ := hfinish
  cases hp
  cases hform : s.versions with
  | none => exact List.forall_mem_nil _
  | some vs => exact hs vs hform

namespace Page

/-- Settling a page leaves its times as they are. -/
theorem regular_ofJson {p : Page} {bs : List UInt8} (hread : ofJson bs = .ok p) :
    ∀ v ∈ p.versions, v.lastModified.IsRegular := by
  obtain ⟨parts, hparts, rfl⟩ := map_eq_ok_iff.mp hread
  obtain ⟨⟨_, rest⟩, hrecord, hend⟩ := bind_eq_ok_iff.mp (mapError_eq_ok_iff.mp hparts)
  have hregular := Page.ensures_record _ _ _ hrecord
  dsimp only at hend
  split at hend
  · cases hend
    intro v hv
    obtain ⟨w, hw, rfl⟩ := List.mem_map.mp hv
    exact hregular w hw
  · cases hend

/-- Written fields are read as what they were, before the page is settled, and times as a
clock shows them. A page that is settled stays so, and therefore comes back from its JSON text
field for field if no time of its lies in a leap second within a minute; such are all the
pages that are read. -/
theorem ofJson_toJson (p : Page) :
    partsOfJson (Text.bytes p.toJson) = .ok p.shown ∧
      (p.Normal → ofJson (Text.bytes p.toJson) = .ok p.shown) ∧
      (p.shown = p ↔ ∀ v ∈ p.versions, v.lastModified.IsRegular) ∧
      ∀ bs, ofJson bs = .ok p → ofJson (Text.bytes p.toJson) = .ok p := by
  refine ⟨p.partsOfJson_toJson, ofJson_toJson_of_normal, shown_eq_self_iff, ?_⟩
  intro bs hread
  rw [ofJson_toJson_of_normal (normal_ofJson hread), shown_eq_self_iff.mpr (regular_ofJson hread)]

/-- A page with values of all kinds: a leap second with nine digits of fraction, the first instant
of the first year, a delete marker with the greatest size, and texts that need escapes or more
bytes than characters. -/
def spelledSample : Page where
  bucket := "\x00\"\\/\x7F"
  versions := [
    { key := "\t \u2028", versionId := "", isLatest := true,
      lastModified := ⟨253402300799, 1999999999, by decide, by decide, by decide⟩,
      size := 18446744073709551615, owner :=
        some { id := "", displayName := some "\r\n" }, isDeleteMarker := true },
    { key := "", versionId := "null",
      lastModified := ⟨-8334601228800, 1, by decide, by decide, by decide⟩,
      etag := some "null", storageClass := some " " }]
  commonPrefixes := ["\x1F𐍈", ""]
  keyPrefix := some "\x7d"
  delimiter := some ","
  maxKeys := 65535
  encoding := some "utf-7"
  isTruncated := true
  nextKeyMarker := some "]"
  nextVersionIdMarker := some "\x08"

theorem ofJson_toJson_spelledSample :
    let parts : Page := { bucket := "A", commonPrefixes := ["a"], keyPrefix := some "" }
    spelledSample.Normal ∧ (∀ v ∈ spelledSample.versions, v.lastModified.IsRegular) ∧
      ofJson (Text.bytes spelledSample.toJson) = .ok spelledSample ∧
      ofJson (Text.bytes parts.toJson) = .ok { bucket := "A" } ∧
      ofJson (Text.bytes (toJson { bucket := "A" })) = .ok { bucket := "A" } := by
  intro parts
  have hnormal : spelledSample.Normal := by
    refine ⟨nofun, nofun, by decide, by decide, ?_⟩
    exact List.forall_mem_cons.mpr ⟨⟨by decide, by decide, fun o ho => by cases ho; decide⟩,
      List.forall_mem_singleton.mpr ⟨by decide, by decide, nofun⟩⟩
  have hregular : ∀ v ∈ spelledSample.versions, v.lastModified.IsRegular := by decide
  have hparts : ofJson (Text.bytes parts.toJson) = .ok { bucket := "A" } := by
    rw [ofJson, partsOfJson_toJson]
    rfl
  obtain ⟨-, hsettled, hshown, -⟩ := ofJson_toJson spelledSample
  have hback := hsettled hnormal
  rw [hshown.mpr hregular] at hback
  exact ⟨hnormal, hregular, hback, hparts, (ofJson_toJson { bucket := "A" }).2.2.2 _ hparts⟩

/-- A leap second within a minute is written as the second that follows, and does not come back. -/
theorem ofJson_toJson_withinMinute :
    withinMinute.Normal ∧
      ofJson (Text.bytes withinMinute.toJson) = .ok { withinMinute with
        versions := withinMinute.versions.map fun v =>
          { v with lastModified := ⟨6, 500000000, by decide, by decide, by decide⟩ } } ∧
      ¬ ∀ p : Page, p.Normal → ofJson (Text.bytes p.toJson) = .ok p := by
  have hread := ofJson_toJson_of_normal normal_withinMinute
  refine ⟨normal_withinMinute, hread, ?_⟩
  intro hall
  have hsame := hread.symm.trans (hall withinMinute normal_withinMinute)
  exact absurd (Except.ok.inj hsame) (by decide)

end Page
end VersionedBucket
