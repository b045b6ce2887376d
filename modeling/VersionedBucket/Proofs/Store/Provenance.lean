import VersionedBucket.Proofs.Page.JsonRoundTrip
import VersionedBucket.Proofs.Page.RoundTrip
import VersionedBucket.Proofs.Store.Ledger

/-! # What the wire can hold of a store

Versions are written with ids from a generator, tags that are such ids in quotes, and times from a
clock that are cut to milliseconds, and all of these are kept by a document as they are. So the
pages of a store come back unchanged from documents and from JSON texts, whatever the keys are, if
they are coded and the names of owners may stand in a document.
-/

namespace VersionedBucket

open Text

/-! ## Versions in a document -/

/-- A document under the `url` coding keeps everything of a version. -/
structure Version.Durable (v : Version) : Prop where
  exact : v.Exact
  texts : ∀ text ∈ v.plainTexts (some Coding.url), IsWritable text

namespace Version

/-- Whether it is the latest makes no difference to a version's texts. -/
theorem Durable.flag {v : Version} (hv : v.Durable) (isLatest : Bool) :
    ({ v with isLatest } : Version).Durable :=
  ⟨⟨hv.exact.regular, hv.exact.millis, hv.exact.size⟩, hv.texts⟩

theorem Durable.normalize {v : Version} (hv : v.Durable) : v.normalize.Durable := by
  refine ⟨⟨hv.exact.regular, hv.exact.millis, hv.exact.size⟩, ?_⟩
  have htexts := hv.texts
  have hkept {value : Option String} (hvalue : ∀ text ∈ value.toList, IsWritable text) :
      ∀ text ∈ (nonEmpty value).toList, IsWritable text := fun text htext =>
    hvalue text (Option.mem_toList.mpr (mem_of_mem_nonEmpty (Option.mem_toList.mp htext)))
  simp only [plainTexts, List.forall_mem_append, List.forall_mem_cons,
    List.forall_mem_flatMap] at htexts ⊢
  obtain ⟨⟨⟨⟨hid, hetag⟩, hclass⟩, howner⟩, hkey⟩ := htexts
  refine ⟨⟨⟨⟨hid, hkept hetag⟩, hkept hclass⟩, ?_⟩, hkey⟩
  intro o ho
  obtain ⟨owner, howner', rfl⟩ := Option.map_eq_some_iff.mp (Option.mem_toList.mp ho)
  obtain ⟨hownerId, hname⟩ := List.forall_mem_cons.mp (howner owner (Option.mem_toList.mpr howner'))
  exact List.forall_mem_cons.mpr ⟨hownerId, hkept hname⟩

theorem Durable.isWritable_versionId {v : Version} (hv : v.Durable) : IsWritable v.versionId :=
  hv.texts _ (by simp [plainTexts])

/-- An owner whose texts may stand in a document spoils nothing. -/
theorem Durable.of_owner {v : Version} (hv : ({ v with owner := none } : Version).Durable)
    (howner : ∀ o ∈ v.owner, ∀ text ∈ o.texts, IsWritable text) : v.Durable := by
  refine ⟨⟨hv.exact.regular, hv.exact.millis, hv.exact.size⟩, ?_⟩
  have htexts := hv.texts
  simp only [plainTexts, List.forall_mem_append, List.forall_mem_cons,
    List.forall_mem_flatMap] at htexts ⊢
  obtain ⟨⟨⟨⟨hid, hetag⟩, hclass⟩, -⟩, hkey⟩ := htexts
  exact ⟨⟨⟨⟨hid, hetag⟩, hclass⟩, fun o ho => howner o (Option.mem_toList.mp ho)⟩, hkey⟩

end Version

/-! ## What stores get from outside -/

def hexDigits : List Char := "0123456789abcdef".toList

/-- Thirty-two small hexadecimal digits, as the generator of ids gives them. -/
def IsSimpleId (id : String) : Prop :=
  id.toList.length = 32 ∧ id.toList.all hexDigits.contains = true

theorem IsSimpleId.isWritable {id : String} (hid : IsSimpleId id) : IsWritable id := by
  have hlegal : (hexDigits.all fun c => decide (Markup.IsLegal c)) = true := by decide
  intro c hc
  have hdigit := List.contains_iff_mem.mp (List.all_eq_true.mp hid.2 c hc)
  exact of_decide_eq_true (List.all_eq_true.mp hlegal c hdigit)

/-- Both ids come from the generator. If the clock knows leap seconds, they are at the end
of a minute. -/
structure Draw.Genuine (d : Draw) : Prop where
  versionId : IsSimpleId d.versionId
  tagId : IsSimpleId d.tagId
  clock : d.clock.IsRegular

/-- The stamp is made from what the generator and the clock have given. -/
def Stamp.Issued (stamp : Stamp) : Prop := ∃ d : Draw, d.Genuine ∧ d.stamp = stamp

namespace Stamp.Issued

variable {stamp : Stamp} (hstamp : stamp.Issued)

include hstamp

theorem isWritable_versionId : IsWritable stamp.versionId := by
  obtain ⟨d, hd, rfl⟩ := hstamp
  exact hd.versionId.isWritable

theorem isRegular : stamp.lastModified.IsRegular := by
  obtain ⟨d, hd, rfl⟩ := hstamp
  exact Time.Instant.isRegular_truncateToMillis hd.clock

theorem millis : stamp.lastModified.nanos % 1000000 = 0 := by
  obtain ⟨d, -, rfl⟩ := hstamp
  exact d.clock.isFloor_truncateToMillis.millis

theorem isWritable_etag : IsWritable stamp.etag := by
  obtain ⟨d, hd, rfl⟩ := hstamp
  have hquote : Markup.IsLegal '"' := by decide
  intro c hc
  simp only [Draw.stamp, String.toList_append, List.mem_append] at hc
  rcases hc with (hc | hc) | hc
  · obtain rfl : c = '"' := by simpa using hc
    exact hquote
  · exact hd.tagId.isWritable c hc
  · obtain rfl : c = '"' := by simpa using hc
    exact hquote

end Stamp.Issued

namespace Store

/-- What an operation gets from outside. -/
def Op.stamp? : Op → Option Stamp
  | putObject _ _ _ _ stamp => some stamp
  | putDeleteMarker _ _ _ stamp => some stamp
  | makeBucket _ | removeVersion _ _ _ => none

/-- All that a history got from outside came from the generator and the clock. -/
def History.Issued (history : History) : Prop := ∀ op ∈ history, ∀ stamp ∈ op.stamp?, stamp.Issued

/-- Apart from its owner, a document keeps everything of a version that is written with
such a stamp. -/
theorem Op.durable_of_written? {op : Op} (hstamp : ∀ stamp ∈ op.stamp?, stamp.Issued)
    {bucket key : String} {v : Version} (hv : op.written? bucket key = some v) :
    ({ v with owner := none } : Version).Durable := by
  cases op with
  | makeBucket name => cases hv
  | removeVersion bucket key versionId => cases hv
  | putObject owner name k size stamp =>
      have hissued : stamp.Issued := hstamp stamp rfl
      simp only [written?, Option.ite_none_right_eq_some, Option.some.injEq] at hv
      obtain ⟨-, rfl⟩ := hv
      refine ⟨⟨hissued.isRegular, hissued.millis, fun hmarker =>
        absurd hmarker Bool.false_ne_true⟩, ?_⟩
      have hclass : IsWritable "STANDARD" := by decide
      simpa [Version.plainTexts, Coding.isUrl] using
        ⟨hissued.isWritable_versionId, hissued.isWritable_etag, hclass⟩
  | putDeleteMarker owner name k stamp =>
      have hissued : stamp.Issued := hstamp stamp rfl
      simp only [written?, Option.ite_none_right_eq_some, Option.some.injEq] at hv
      obtain ⟨-, rfl⟩ := hv
      refine ⟨⟨hissued.isRegular, hissued.millis, fun _ => rfl⟩, ?_⟩
      simpa [Version.plainTexts, Coding.isUrl] using hissued.isWritable_versionId

end Store

/-! ## What holds of all versions -/

/-- Something holds of all versions in a bucket. -/
def Bucket.All (P : Version → Prop) (b : Bucket) : Prop := ∀ entry ∈ b, ∀ v ∈ entry.2, P v

namespace Bucket.All

variable {P : Version → Prop} {b : Bucket}

theorem push (hb : b.All P) {v : Version} (hv : P v) : (b.push v).All P := by
  intro entry hentry w hw
  rcases mem_push hentry with hold | ⟨-, older, hnew, hold⟩
  · exact hb entry hold w hw
  · rcases List.mem_cons.mp (hnew ▸ hw) with rfl | hw
    · exact hv
    · rcases hold with rfl | hold
      · cases hw
      · exact hb _ hold w hw

theorem remove (hb : b.All P) (key versionId : String) : (b.remove key versionId).All P := by
  intro entry hentry w hw
  rcases mem_remove hentry with ⟨-, vs, hold, hsub⟩ | hold
  · exact hb _ hold w (hsub.subset hw)
  · exact hb entry hold w hw

end Bucket.All

namespace Store

/-- Something holds of all versions in a store. -/
def All (P : Version → Prop) (s : Store) : Prop := ∀ entry ∈ s.buckets, entry.2.All P

variable {P : Version → Prop} {s : Store}

theorem All.bucket (hs : s.All P) {name : String} {b : Bucket} (hb : s.bucket? name = some b) :
    b.All P :=
  hs (name, b) (mem_of_bucket? hb)

theorem All.replace (hs : s.All P) (name : String) {b : Bucket} (hb : b.All P) :
    (s.replace name b).All P := by
  intro entry hentry
  obtain ⟨old, hold, rfl⟩ := List.mem_map.mp hentry
  dsimp only
  split
  · exact hb
  · exact hs old hold

theorem All.push (hs : s.All P) (owner : Option Owner) (bucket : String) {v : Version}
    (hv : P { v with owner }) :
    ((s.push owner bucket v).toOption.getD s).All P := by
  unfold Store.push
  split
  · exact hs
  next b hb => exact hs.replace bucket ((hs.bucket hb).push hv)

/-- What holds of all versions and of those that an operation writes holds of all
versions after it. -/
theorem All.apply (hs : s.All P) {op : Op} (hop : ∀ bucket key, ∀ v ∈ op.written? bucket key, P v) :
    (op.apply s).All P := by
  cases op with
  | makeBucket name =>
      simp only [Op.apply, makeBucket]
      split
      · exact hs
      · intro entry hentry
        rcases List.mem_append.mp hentry with hold | hnew
        · exact hs entry hold
        · rw [List.mem_singleton.mp hnew]
          exact fun entry hentry => absurd hentry List.not_mem_nil
  | putObject owner bucket key size stamp =>
      exact hs.push owner bucket (hop bucket key _ (if_pos ⟨rfl, rfl⟩))
  | putDeleteMarker owner bucket key stamp =>
      exact hs.push owner bucket (hop bucket key _ (if_pos ⟨rfl, rfl⟩))
  | removeVersion bucket key versionId =>
      simp only [Op.apply, removeVersion]
      split
      · exact hs
      next b hb =>
        split
        · exact hs.replace bucket ((hs.bucket hb).remove key versionId)
        · exact hs

/-- What holds of everything that a history writes holds of everything in its store. -/
theorem History.all_store {history : History}
    (hwritten : ∀ op ∈ history, ∀ bucket key, ∀ v ∈ op.written? bucket key, P v) :
    history.store.All P := by
  induction history using List.reverseRecOn with
  | nil => exact fun entry hentry => absurd hentry List.not_mem_nil
  | append_singleton earlier op ih =>
      rw [store_append]
      exact (ih fun op hop => hwritten op (List.mem_append_left _ hop)).apply
        (hwritten op (by simp))

/-- A bucket of a store that got everything from the generator and the clock, if its owners' texts
may stand in a document. -/
theorem History.Issued.durable {history : History} (hissued : history.Issued) {name : String}
    {b : Bucket} (hbucket : history.store.bucket? name = some b)
    (howners : b.All fun v => ∀ o ∈ v.owner, ∀ text ∈ o.texts, IsWritable text) :
    b.All Version.Durable := by
  have hall : history.store.All fun v => ({ v with owner := none } : Version).Durable :=
    all_store fun op hop _ _ _ hv => op.durable_of_written? (hissued op hop) hv
  exact fun entry hentry v hv =>
    .of_owner (hall.bucket hbucket entry hentry v hv) (howners entry hentry v hv)

end Store

end VersionedBucket
