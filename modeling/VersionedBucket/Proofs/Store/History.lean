import VersionedBucket.Store.Basic
import VersionedBucket.Proofs.Text.ByteOrder
import Mathlib.Data.List.Induction

/-! # How a store came to be

Everything that is ever done to a store is one of four operations, so a store is given by its
history. The version ids of a history are drawn one after the other and are never drawn twice, which
makes their order the order of age. What every store with a history satisfies is `WellFormed`.
-/

namespace VersionedBucket

namespace Store

/-- One operation on a store. Each write is made by some handle, whose owner it records. -/
inductive Op where
  | makeBucket (name : String)
  | putObject (owner : Option Owner) (bucket key : String) (size : UInt64) (stamp : Stamp)
  | putDeleteMarker (owner : Option Owner) (bucket key : String) (stamp : Stamp)
  | removeVersion (bucket key versionId : String)
  deriving DecidableEq, Repr

namespace Op

/-- The version id that is drawn for an operation, be it successful or not. -/
def drawnId? : Op → Option String
  | makeBucket _ => none
  | putObject _ _ _ _ stamp => some stamp.versionId
  | putDeleteMarker _ _ _ stamp => some stamp.versionId
  | removeVersion _ _ _ => none

/-- The store after an operation. A failure changes nothing. -/
def apply (s : Store) : Op → Store
  | makeBucket name => (s.makeBucket name).2
  | putObject owner bucket key size stamp =>
      (s.putObject owner bucket key size stamp).toOption.getD s
  | putDeleteMarker owner bucket key stamp =>
      (s.putDeleteMarker owner bucket key stamp).toOption.getD s
  | removeVersion bucket key versionId =>
    ((s.removeVersion bucket key versionId).map Prod.snd).toOption.getD s

end Op

/-- Operations, oldest first. -/
abbrev History := List Op

namespace History

/-- The store that a history leads to. -/
def store (history : History) : Store := history.foldl Op.apply {}

/-- The ids drawn in a history, oldest first. -/
def drawn (history : History) : List String := history.filterMap Op.drawnId?

/-- Ids come from a generator of long random texts, so none is empty and none is drawn twice. -/
structure Fresh (history : History) : Prop where
  nonempty : "" ∉ history.drawn
  distinct : history.drawn.Nodup

end History

/-- One id was drawn before another. -/
def Older (drawn : List String) (earlier later : String) : Prop := [earlier, later].Sublist drawn

theorem Older.append {drawn : List String} {earlier later : String}
    (holder : Older drawn earlier later) (more : List String) :
    Older (drawn ++ more) earlier later :=
  List.Sublist.trans holder (List.sublist_append_left drawn more)

theorem older_asymm {drawn : List String} (hdistinct : drawn.Nodup) {a b : String}
    (hab : Older drawn a b) : ¬ Older drawn b a := by
  unfold Older at *
  induction drawn with
  | nil => simp at hab
  | cons id rest ih =>
      obtain ⟨hnot, hdistinct⟩ := List.nodup_cons.mp hdistinct
      intro hba
      -- if either pair starts with the first id drawn, the other one has it a second time
      rcases List.sublist_cons_iff.mp hab with hrest | ⟨_, heq, hrest⟩
      · rcases List.sublist_cons_iff.mp hba with hrest' | ⟨_, heq, _⟩
        · exact ih hdistinct hrest hrest'
        · obtain ⟨rfl, -⟩ := List.cons.inj heq
          exact hnot (hrest.subset (by simp))
      · obtain ⟨rfl, rfl⟩ := List.cons.inj heq
        have hmem : b ∈ rest := hrest.subset (by simp)
        rcases List.sublist_cons_iff.mp hba with hrest' | ⟨_, heq, _⟩
        · exact hnot (hrest'.subset (by simp))
        · obtain ⟨rfl, -⟩ := List.cons.inj heq
          exact hnot hmem

theorem older_trans {drawn : List String} (hdistinct : drawn.Nodup) {a b c : String}
    (hab : Older drawn a b) (hbc : Older drawn b c) : Older drawn a c := by
  unfold Older at *
  induction drawn with
  | nil => simp at hab
  | cons id rest ih =>
      obtain ⟨hnot, hdistinct⟩ := List.nodup_cons.mp hdistinct
      rcases List.sublist_cons_iff.mp hbc with hrest | ⟨_, heq, hrest⟩
      · rcases List.sublist_cons_iff.mp hab with hrest' | ⟨_, heq, _⟩
        · exact (ih hdistinct hrest' hrest).cons _
        · obtain ⟨rfl, -⟩ := List.cons.inj heq
          have hmem : c ∈ rest := hrest.subset (by simp)
          exact (List.singleton_sublist.mpr hmem).cons_cons _
      · obtain ⟨rfl, -⟩ := List.cons.inj heq
        rcases List.sublist_cons_iff.mp hab with hrest' | ⟨_, heq, hrest'⟩
        · exact absurd (hrest'.subset (by simp)) hnot
        · obtain ⟨rfl, rfl⟩ := List.cons.inj heq
          exact absurd (hrest'.subset (by simp)) hnot

end Store

/-! ## Well-formed buckets -/

namespace Bucket

/-- What the operations keep true of a bucket: keys are in order, none is without versions, versions
are filed under their own key, and those of a key stand in the reverse of the order in which their
ids were drawn. -/
structure WellFormed (drawn : List String) (b : Bucket) : Prop where
  sorted : (b.map Prod.fst).Pairwise (· < ·)
  filled : ∀ entry ∈ b, entry.2 ≠ []
  filed : ∀ entry ∈ b, ∀ v ∈ entry.2, v.key = entry.1
  newestFirst : ∀ entry ∈ b, (entry.2.map (·.versionId)).reverse.Sublist drawn

theorem WellFormed.nil (drawn : List String) : WellFormed drawn [] := by
  constructor <;> simp

theorem WellFormed.append {drawn : List String} {b : Bucket} (hb : b.WellFormed drawn)
    (more : List String) : b.WellFormed (drawn ++ more) where
  sorted := hb.sorted
  filled := hb.filled
  filed := hb.filed
  newestFirst entry hentry := (hb.newestFirst entry hentry).trans (List.sublist_append_left _ _)

theorem mem_push {b : Bucket} {v : Version} {entry : String × List Version}
    (hentry : entry ∈ b.push v) :
    entry ∈ b ∨ entry.1 = v.key ∧ ∃ older, entry.2 = v :: older ∧
      (older = [] ∨ (v.key, older) ∈ b) := by
  induction b with
  | nil =>
      simp only [push, List.mem_singleton] at hentry
      subst hentry
      exact Or.inr ⟨rfl, [], rfl, Or.inl rfl⟩
  | cons head rest ih =>
      obtain ⟨k, vs⟩ := head
      simp only [push] at hentry
      split at hentry
      next heq =>
        subst heq
        rcases List.mem_cons.mp hentry with rfl | hrest
        · exact Or.inr ⟨rfl, vs, rfl, Or.inr List.mem_cons_self⟩
        · exact Or.inl (List.mem_cons_of_mem _ hrest)
      next =>
        split at hentry
        · rcases List.mem_cons.mp hentry with rfl | hrest
          · exact Or.inr ⟨rfl, [], rfl, Or.inl rfl⟩
          · exact Or.inl hrest
        · rcases List.mem_cons.mp hentry with rfl | hrest
          · exact Or.inl List.mem_cons_self
          · rcases ih hrest with hrest | ⟨hkey, older, hnew, hold⟩
            · exact Or.inl (List.mem_cons_of_mem _ hrest)
            · exact Or.inr ⟨hkey, older, hnew, hold.imp_right (List.mem_cons_of_mem _)⟩

theorem push_sorted {b : Bucket} (hb : (b.map Prod.fst).Pairwise (· < ·)) (v : Version) :
    ((b.push v).map Prod.fst).Pairwise (· < ·) := by
  induction b with
  | nil => simp [push]
  | cons head rest ih =>
      obtain ⟨k, vs⟩ := head
      obtain ⟨hhead, hrest⟩ := List.pairwise_cons.mp hb
      simp only [push]
      split
      · exact hb
      next hne =>
        split
        -- the key is new and stands in front of the first greater one
        next hbefore =>
          have hlt : v.key < k := Text.before_iff_lt.mp hbefore
          refine List.pairwise_cons.mpr ⟨?_, hb⟩
          intro other hother
          rcases List.mem_cons.mp hother with rfl | hother
          · exact hlt
          · exact hlt.trans (hhead other hother)
        next hbefore =>
          have hlt : k < v.key := lt_of_le_of_ne (Text.not_before_iff_le.mp hbefore) hne
          refine List.pairwise_cons.mpr ⟨?_, ih hrest⟩
          intro other hother
          obtain ⟨entry, hentry, rfl⟩ := List.mem_map.mp hother
          rcases mem_push hentry with hold | ⟨hkey, _⟩
          · exact hhead _ (List.mem_map_of_mem hold)
          · exact hkey ▸ hlt

theorem WellFormed.push {drawn : List String} {b : Bucket} (hb : b.WellFormed drawn) (v : Version) :
    (b.push v).WellFormed (drawn ++ [v.versionId]) where
  sorted := push_sorted hb.sorted v
  filled entry hentry := by
    rcases mem_push hentry with hold | ⟨_, _, hnew, _⟩
    · exact hb.filled entry hold
    · simp [hnew]
  filed entry hentry w hw := by
    rcases mem_push hentry with hold | ⟨hkey, older, hnew, hold⟩
    · exact hb.filed entry hold w hw
    · rw [hkey]
      rcases List.mem_cons.mp (hnew ▸ hw) with rfl | hw
      · rfl
      · rcases hold with rfl | hold
        · simp at hw
        · exact hb.filed _ hold w hw
  newestFirst entry hentry := by
    rcases mem_push hentry with hold | ⟨_, older, hnew, hold⟩
    · exact (hb.newestFirst entry hold).trans (List.sublist_append_left _ _)
    · rw [hnew, List.map_cons, List.reverse_cons]
      refine List.Sublist.append ?_ (List.Sublist.refl _)
      rcases hold with rfl | hold
      · simp
      · exact hb.newestFirst _ hold

theorem mem_remove {b : Bucket} {key versionId : String} {entry : String × List Version}
    (hentry : entry ∈ b.remove key versionId) :
    entry.2 ≠ [] ∧ (∃ vs, (entry.1, vs) ∈ b ∧ entry.2.Sublist vs) ∨ entry ∈ b := by
  induction b with
  | nil => simp [remove] at hentry
  | cons head rest ih =>
      obtain ⟨k, vs⟩ := head
      simp only [remove] at hentry
      split at hentry
      · split at hentry
        · exact Or.inr (List.mem_cons_of_mem _ hentry)
        next hleft =>
          rcases List.mem_cons.mp hentry with rfl | hrest
          · exact Or.inl ⟨fun hnil => hleft hnil, vs, List.mem_cons_self, List.eraseP_sublist⟩
          · exact Or.inr (List.mem_cons_of_mem _ hrest)
      · rcases List.mem_cons.mp hentry with rfl | hrest
        · exact Or.inr List.mem_cons_self
        · rcases ih hrest with ⟨hne, old, hold, hsub⟩ | hold
          · exact Or.inl ⟨hne, old, List.mem_cons_of_mem _ hold, hsub⟩
          · exact Or.inr (List.mem_cons_of_mem _ hold)

theorem remove_keys_sublist (b : Bucket) (key versionId : String) :
    ((b.remove key versionId).map Prod.fst).Sublist (b.map Prod.fst) := by
  induction b with
  | nil => simp [remove]
  | cons head rest ih =>
      obtain ⟨k, vs⟩ := head
      simp only [remove]
      split
      · split
        · exact List.sublist_cons_self _ _
        · exact List.Sublist.refl _
      · exact ih.cons_cons k

theorem WellFormed.remove {drawn : List String} {b : Bucket} (hb : b.WellFormed drawn)
    (key versionId : String) : (b.remove key versionId).WellFormed drawn where
  sorted := hb.sorted.sublist (remove_keys_sublist b key versionId)
  filled entry hentry := by
    rcases mem_remove hentry with ⟨hne, _⟩ | hold
    · exact hne
    · exact hb.filled entry hold
  filed entry hentry w hw := by
    rcases mem_remove hentry with ⟨_, vs, hold, hsub⟩ | hold
    · exact hb.filed _ hold w (hsub.subset hw)
    · exact hb.filed entry hold w hw
  newestFirst entry hentry := by
    rcases mem_remove hentry with ⟨_, vs, hold, hsub⟩ | hold
    · exact ((hsub.map _).reverse).trans (hb.newestFirst _ hold)
    · exact hb.newestFirst entry hold

end Bucket

/-! ## Well-formed stores -/

namespace Store

/-- All buckets of a store are well-formed. -/
def WellFormed (drawn : List String) (s : Store) : Prop :=
  ∀ entry ∈ s.buckets, entry.2.WellFormed drawn

theorem mem_of_bucket? {s : Store} {name : String} {b : Bucket} (hb : s.bucket? name = some b) :
    (name, b) ∈ s.buckets := by
  unfold bucket? at hb
  obtain ⟨left, right, hsplit, _⟩ := List.lookup_eq_some_iff.mp hb
  simp [hsplit]

theorem WellFormed.bucket {drawn : List String} {s : Store} (hs : s.WellFormed drawn)
    {name : String} {b : Bucket} (hb : s.bucket? name = some b) : b.WellFormed drawn :=
  hs (name, b) (mem_of_bucket? hb)

theorem WellFormed.append {drawn : List String} {s : Store} (hs : s.WellFormed drawn)
    (more : List String) : s.WellFormed (drawn ++ more) :=
  fun entry hentry => (hs entry hentry).append more

theorem WellFormed.replace {drawn : List String} {s : Store} (hs : s.WellFormed drawn)
    (name : String) {b : Bucket} (hb : b.WellFormed drawn) :
    (s.replace name b).WellFormed drawn := by
  intro entry hentry
  obtain ⟨old, hold, rfl⟩ := List.mem_map.mp hentry
  dsimp only
  split
  · exact hb
  · exact hs old hold

/-- Every operation keeps a store well-formed, with the id it draws behind all earlier ones. -/
theorem WellFormed.apply {drawn : List String} {s : Store} (hs : s.WellFormed drawn) (op : Op) :
    (op.apply s).WellFormed (drawn ++ op.drawnId?.toList) := by
  have hpush (owner : Option Owner) (bucket : String) (v : Version) :
      ((s.push owner bucket v).toOption.getD s).WellFormed (drawn ++ [v.versionId]) := by
    unfold push
    split
    · exact hs.append _
    next b hb => exact (hs.append _).replace bucket ((hs.bucket hb).push { v with owner })
  cases op with
  | makeBucket name =>
      simp only [Op.apply, makeBucket, Op.drawnId?, Option.toList_none, List.append_nil]
      split
      · exact hs
      · intro entry hentry
        rcases List.mem_append.mp hentry with hold | hnew
        · exact hs entry hold
        · rw [List.mem_singleton.mp hnew]
          exact Bucket.WellFormed.nil drawn
  | putObject owner bucket key size stamp => exact hpush owner bucket _
  | putDeleteMarker owner bucket key stamp => exact hpush owner bucket _
  | removeVersion bucket key versionId =>
      simp only [Op.apply, removeVersion, Op.drawnId?, Option.toList_none, List.append_nil]
      split
      · exact hs
      next b hb =>
        split
        · exact hs.replace bucket ((hs.bucket hb).remove key versionId)
        · exact hs

theorem History.store_append (earlier later : History) :
    (earlier ++ later).store = later.foldl Op.apply earlier.store := by
  simp [History.store, List.foldl_append]

theorem History.drawn_append (earlier later : History) :
    (earlier ++ later).drawn = earlier.drawn ++ later.drawn := by
  simp [History.drawn, List.filterMap_append]

/-- Every store with a history is well-formed. -/
theorem History.store_wellFormed (history : History) : history.store.WellFormed history.drawn := by
  induction history using List.reverseRecOn with
  | nil => exact fun entry hentry => absurd hentry List.not_mem_nil
  | append_singleton earlier op ih =>
      rw [History.store_append, History.drawn_append]
      have hstep := ih.apply op
      cases hdrawn : op.drawnId? <;>
        simpa [History.drawn, hdrawn] using hstep

/-! ## Buckets one operation later -/

theorem bucket?_replace (s : Store) (name other : String) (b : Bucket) :
    (s.replace name b).bucket? other =
      if other = name then (s.bucket? name).map fun _ => b else s.bucket? other := by
  obtain ⟨buckets⟩ := s
  simp only [bucket?, replace]
  induction buckets with
  | nil => simp
  | cons entry rest ih =>
      obtain ⟨n, old⟩ := entry
      by_cases hother : other = n
      · subst hother
        by_cases hname : other = name <;> simp [hname]
      · have hfalse : (other == n) = false := beq_eq_false_iff_ne.mpr hother
        simp only [List.map_cons, List.lookup_cons, hfalse, ih]
        by_cases hname : other = name
        · subst hname
          simp [hfalse]
        · simp [hname]

namespace Op

/-- The bucket that an operation names. -/
def bucket : Op → String
  | makeBucket name => name
  | putObject _ bucket _ _ _ => bucket
  | putDeleteMarker _ bucket _ _ => bucket
  | removeVersion bucket _ _ => bucket

/-- What becomes of the bucket that an operation names. -/
def change : Op → Option Bucket → Option Bucket
  | makeBucket _, b => some (b.getD [])
  | putObject owner _ key size stamp, b =>
    b.map
      (·.push { Version.object key stamp.versionId stamp.lastModified stamp.etag size with owner })
  | putDeleteMarker owner _ key stamp, b =>
    b.map (·.push { Version.deleteMarker key stamp.versionId stamp.lastModified with owner })
  | removeVersion _ key versionId, b => b.map fun b =>
      if b.holds key versionId then b.remove key versionId else b

end Op

theorem bucket?_makeBucket (s : Store) (name other : String) :
    (s.makeBucket name).2.bucket? other =
      if other = name then some ((s.bucket? name).getD []) else s.bucket? other := by
  unfold makeBucket
  split
  next b hb => by_cases hother : other = name <;> simp [hother, hb]
  next hb =>
    unfold bucket? at hb ⊢
    rw [List.lookup_append]
    by_cases hother : other = name
    · simp [hother, hb]
    · have hfalse : (other == name) = false := beq_eq_false_iff_ne.mpr hother
      simp [hother, List.lookup_cons, hfalse]

/-- An operation changes the bucket that it names, and no other. -/
theorem bucket?_apply (s : Store) (op : Op) (name : String) :
    (op.apply s).bucket? name = if name =
      op.bucket then op.change (s.bucket? op.bucket) else s.bucket? name := by
  have hpush (owner : Option Owner) (bucket : String) (v : Version) :
      ((s.push owner bucket v).toOption.getD s).bucket? name =
        if name = bucket then (s.bucket? bucket).map (·.push { v with owner })
        else s.bucket? name := by
    unfold push
    cases hb : s.bucket? bucket with
    | none => by_cases hname : name = bucket <;> simp [Except.toOption, hname, hb]
    | some b => simp [Except.toOption, bucket?_replace, hb]
  cases op with
  | makeBucket other => exact bucket?_makeBucket s other name
  | putObject owner bucket key size stamp => exact hpush owner bucket _
  | putDeleteMarker owner bucket key stamp => exact hpush owner bucket _
  | removeVersion bucket key versionId =>
      simp only [Op.apply, removeVersion, Op.bucket, Op.change]
      cases hb : s.bucket? bucket with
      | none => by_cases hname : name = bucket <;> simp [Except.map, Except.toOption, hname, hb]
      | some b =>
          cases hholds : b.holds key versionId with
          | true => simp [hholds, Except.map, Except.toOption, bucket?_replace, hb]
          | false => by_cases hname : name = bucket <;>
              simp [hholds, Except.map, Except.toOption, hname, hb]

theorem isSome_bucket?_apply (s : Store) (op : Op) (name : String) :
    ((op.apply s).bucket? name).isSome = ((s.bucket? name).isSome || .makeBucket name == op) := by
  rw [bucket?_apply]
  by_cases hname : name = op.bucket
  · subst hname
    cases op <;> simp [Op.change, Op.bucket]
  · have hother : (.makeBucket name == op) = false := by
      refine beq_eq_false_iff_ne.mpr fun heq => ?_
      exact hname (heq ▸ rfl)
    simp [hname, hother]

/-- A bucket that is there stays there. -/
theorem History.isSome_bucket?_append {earlier : History} {name : String}
    (hname : (earlier.store.bucket? name).isSome) (later : History) :
    ((earlier ++ later).store.bucket? name).isSome := by
  rw [History.store_append]
  generalize earlier.store = s at hname
  induction later generalizing s with
  | nil => exact hname
  | cons op rest ih => exact ih _ (by simp [isSome_bucket?_apply, hname])

end Store
end VersionedBucket
