import VersionedBucket.Proofs.Store.Cursor

/-! # The ledger of a store

What a store holds can be read off its history. A bucket is there once it has been made. A key has
the versions that were written under it after that, newest first, without those that were removed
later on. The reply to the next operation can be read off as well.
-/

namespace VersionedBucket

/-! ## Versions under a key, one operation later -/

/-- Where ids are distinct, taking out the first version with an id takes out all of them. -/
theorem Version.eraseP_eq_filter {vs : List Version} (hdistinct : (vs.map (·.versionId)).Nodup)
    (versionId : String) :
    vs.eraseP (·.versionId == versionId) = vs.filter (·.versionId ≠ versionId) := by
  induction vs with
  | nil => rfl
  | cons v rest ih =>
      obtain ⟨hnot, hrest⟩ := List.nodup_cons.mp hdistinct
      by_cases hid : v.versionId = versionId
      · have hall : rest.filter (·.versionId ≠ versionId) = rest := by
          refine List.filter_eq_self.mpr fun w hw => ?_
          have hne : w.versionId ≠ versionId := fun heq =>
            hnot (List.mem_map.mpr ⟨w, hw, heq.trans hid.symm⟩)
          simpa using hne
        rw [List.eraseP_cons_of_pos (by simpa using hid),
          List.filter_cons_of_neg (by simpa using hid), hall]
      · rw [List.eraseP_cons_of_neg (by simpa using hid),
          List.filter_cons_of_pos (by simpa using hid), ih hrest]

namespace Bucket

variable {b : Bucket}

theorem versions_eq_nil {key : String} (hkey : key ∉ b.map Prod.fst) : b.versions key = [] := by
  by_contra hne
  exact hkey (List.mem_map_of_mem (mem_of_versions_ne_nil hne))

theorem versions_push (hb : (b.map Prod.fst).Pairwise (· < ·)) (v : Version) (key : String) :
    (b.push v).versions key = if key = v.key then v :: b.versions key else b.versions key := by
  induction b with
  | nil => by_cases hkey : key = v.key <;> simp [push, versions, hkey, eq_comm]
  | cons head rest ih =>
      obtain ⟨k, vs⟩ := head
      obtain ⟨hhead, hrest⟩ := List.pairwise_cons.mp hb
      simp only [push]
      split
      next heq => by_cases hkey : key = v.key <;> simp [versions, heq, hkey, eq_comm]
      next hne =>
        split
        -- the key is new, so it had no versions
        next hbefore =>
          have hlt : v.key < k := Text.before_iff_lt.mp hbefore
          by_cases hkey : key = v.key
          · have hnil : versions ((k, vs) :: rest) v.key = [] := by
              refine versions_eq_nil fun hmem => ?_
              rcases List.mem_cons.mp hmem with heq | hmem
              · exact hne heq.symm
              · exact absurd (hlt.trans (hhead _ hmem)) (lt_irrefl _)
            rw [hkey, hnil]
            simp [versions]
          · simp [versions, hkey, Ne.symm hkey]
        next =>
          by_cases hk : k = key
          · simp [versions, hk, hk ▸ hne]
          · simp [versions, hk, ih hrest]

theorem versions_remove (hb : (b.map Prod.fst).Pairwise (· < ·)) (key versionId other : String) :
    (b.remove key versionId).versions other =
      if other = key then (b.versions key).eraseP (·.versionId == versionId)
      else b.versions other := by
  induction b with
  | nil => simp [remove, versions]
  | cons head rest ih =>
      obtain ⟨k, vs⟩ := head
      obtain ⟨hhead, hrest⟩ := List.pairwise_cons.mp hb
      simp only [remove]
      split
      next heq =>
        subst heq
        split
        -- the last version of the key is gone, and the key with it
        next hleft =>
          by_cases hother : other = k
          · have hnil : versions rest k = [] := versions_eq_nil fun hmem =>
              absurd (hhead k hmem) (lt_irrefl k)
            simp [versions, hother, hleft, hnil]
          · simp [versions, hother, Ne.symm hother]
        next hleft =>
          by_cases hother : other = k
          · simp [versions, hother]
          · simp [versions, hother, Ne.symm hother]
      next hne =>
        by_cases hother : k = other
        · simp [versions, hother, hother ▸ hne]
        · simp [versions, hother, hne, ih hrest]

theorem WellFormed.nodup_versionIds {drawn : List String} (hb : b.WellFormed drawn)
    (hdistinct : drawn.Nodup) (key : String) : ((b.versions key).map (·.versionId)).Nodup := by
  by_cases hnil : b.versions key = []
  · simp [hnil]
  · have hsublist := hb.newestFirst _ (mem_of_versions_ne_nil hnil)
    exact List.nodup_reverse.mp (hdistinct.sublist hsublist)

/-- A removal that may find nothing takes out the version with the id from its key
and nothing else. -/
theorem WellFormed.versions_removal {drawn : List String} (hb : b.WellFormed drawn)
    (hdistinct : drawn.Nodup) (key versionId other : String) :
    (if b.holds key versionId then b.remove key versionId else b).versions other =
      (b.versions other).filter fun v => ¬(key = other ∧ versionId = v.versionId) := by
  by_cases hother : other = key
  · subst hother
    have herase : (b.versions other).filter (fun v => ¬(other = other ∧ versionId = v.versionId)) =
        (b.versions other).eraseP (·.versionId == versionId) := by
      rw [Version.eraseP_eq_filter (hb.nodup_versionIds hdistinct other)]
      simp [eq_comm]
    rw [herase]
    cases hholds : b.holds other versionId with
    | true => simp [versions_remove hb.sorted]
    | false =>
        have hnone : (b.versions other).eraseP (·.versionId == versionId) = b.versions other :=
          List.eraseP_of_forall_not (by simpa [holds] using hholds)
        simp [hnone]
  · cases hholds : b.holds key versionId <;>
      simp [versions_remove hb.sorted, hother, Ne.symm hother]

end Bucket

namespace Store

/-! ## What an operation does -/

/-- The versions that a store holds under a key of a bucket, newest first. -/
def versions (s : Store) (bucket key : String) : List Version :=
  ((s.bucket? bucket).getD []).versions key

namespace Op

/-- The version that an operation writes under a key. -/
def written? (bucket key : String) : Op → Option Version
  | putObject owner b k size stamp =>
    if b = bucket ∧ k = key then
      some { key, versionId := stamp.versionId, lastModified := stamp.lastModified,
             etag := some stamp.etag, size,
             storageClass := some "STANDARD", owner }
    else none
  | putDeleteMarker owner b k stamp =>
    if b = bucket ∧ k = key then
      some { key, versionId := stamp.versionId, lastModified := stamp.lastModified,
             size := 0, owner,
             isDeleteMarker := true }
    else none
  | makeBucket _ | removeVersion _ _ _ => none

end Op

/-- In the bucket that an operation names, it adds the version that it writes and takes out the
version that it removes. -/
theorem Op.versions_change {drawn : List String} (hdistinct : drawn.Nodup) {b : Bucket}
    (hb : b.WellFormed drawn) (op : Op) (key : String) :
    ((op.change (some b)).getD []).versions key =
      (op.written? op.bucket key).toList ++
        (b.versions key).filter fun v => op ≠ .removeVersion op.bucket key v.versionId := by
  cases op with
  | makeBucket name => simp [change, written?]
  | putObject owner name k size stamp =>
      by_cases hkey : key = k
      · simp [change, written?, bucket, Bucket.versions_push hb.sorted, Version.object, hkey]
      · simp [change, written?, Bucket.versions_push hb.sorted, Version.object, hkey, Ne.symm hkey]
  | putDeleteMarker owner name k stamp =>
      by_cases hkey : key = k
      · simp [change, written?, bucket, Bucket.versions_push hb.sorted, Version.deleteMarker, hkey]
      · simp [change, written?, Bucket.versions_push hb.sorted, Version.deleteMarker, hkey,
          Ne.symm hkey]
  | removeVersion name k versionId =>
      simp only [change, written?, Option.map_some, Option.getD_some, Option.toList_none,
        List.nil_append, hb.versions_removal hdistinct]
      simp [bucket]

/-- An operation adds the version that it writes, if the bucket is there, and takes out the version
that it removes. -/
theorem versions_apply {drawn : List String} (hdistinct : drawn.Nodup) {s : Store}
    (hs : s.WellFormed drawn) (op : Op) (bucket key : String) : (op.apply s).versions bucket key =
      (if (s.bucket? bucket).isSome then (op.written? bucket key).toList else []) ++
        (s.versions bucket key).filter fun v => op ≠ .removeVersion bucket key v.versionId := by
  simp only [versions, bucket?_apply]
  by_cases hbucket : bucket = op.bucket
  · subst hbucket
    rw [if_pos rfl]
    cases hb : s.bucket? op.bucket with
    | none => cases op <;> simp [Op.change, Bucket.versions]
    | some b => simpa using op.versions_change hdistinct (hs.bucket hb) key
  -- another bucket is named
  · have hwritten : op.written? bucket key = none := by
      cases op <;> simp_all [Op.written?, Op.bucket, eq_comm]
    have hremoved (v : Version) : op ≠ .removeVersion bucket key v.versionId := by
      intro heq
      exact hbucket (heq ▸ rfl)
    simp [hbucket, hwritten, hremoved]

/-! ## What the history says -/

namespace History

/-- The versions that a history writes under a key and does not remove later on, oldest first.
Nothing is written before the bucket is made. -/
def kept (bucket key : String) (made : Bool) : History → List Version
  | [] => []
  | op :: later =>
    let stays (v : Version) : Bool :=
      made && !later.contains (.removeVersion bucket key v.versionId)
    ((op.written? bucket key).filter stays).toList ++
      kept bucket key (made || .makeBucket bucket == op) later

/-- The versions under a key, newest first. -/
def versions (history : History) (bucket key : String) : List Version :=
  (history.kept bucket key false).reverse

theorem kept_append_singleton (bucket key : String) (made : Bool) (history : History) (op : Op) :
    kept bucket key made (history ++ [op]) =
      ((kept bucket key made history).filter fun v => op ≠ .removeVersion bucket key v.versionId) ++
        if made || history.contains (.makeBucket bucket) then (op.written? bucket key).toList
        else [] := by
  induction history generalizing made with
  | nil => cases made <;> cases hwritten : op.written? bucket key <;>
      simp [kept, hwritten, Option.filter]
  | cons first later ih =>
      simp only [List.cons_append, kept, ih, List.filter_append, List.append_assoc, Bool.or_assoc,
        List.contains_cons]
      congr 1
      cases first.written? bucket key with
      | none => rfl
      | some v =>
          by_cases hop : op = .removeVersion bucket key v.versionId
          · simp [Option.filter, hop]
          · have hcontains : (later ++ [op]).contains (.removeVersion bucket key v.versionId) =
                later.contains (.removeVersion bucket key v.versionId) := by
              simp [Ne.symm hop]
            rw [Option.filter_some, Option.filter_some, hcontains]
            split <;> simp [hop]

/-- The operations of a history that make a bucket are what brings it about. -/
theorem isSome_bucket?_store (history : History) (name : String) :
    (history.store.bucket? name).isSome = history.contains (.makeBucket name) := by
  induction history using List.reverseRecOn with
  | nil => rfl
  | append_singleton earlier op ih =>
      rw [store_append, List.foldl_cons, List.foldl_nil, isSome_bucket?_apply, ih,
        List.contains_append, List.contains_cons, List.contains_nil, Bool.or_false]

/-- What a store holds under a key is what its history has written there and not removed. -/
theorem versions_store {history : History} (hdistinct : history.drawn.Nodup) (bucket key : String) :
    history.store.versions bucket key = history.versions bucket key := by
  induction history using List.reverseRecOn with
  | nil => rfl
  | append_singleton earlier op ih =>
      rw [drawn_append] at hdistinct
      have hbefore := hdistinct.of_append_left
      rw [store_append, List.foldl_cons, List.foldl_nil,
        versions_apply hbefore (store_wellFormed earlier), ih hbefore, isSome_bucket?_store]
      simp only [versions, kept_append_singleton, Bool.false_or, List.reverse_append,
        List.filter_reverse]
      congr 1
      cases op.written? bucket key <;> cases earlier.contains (.makeBucket bucket) <;> rfl

end History

/-! ## Where a version comes from -/

namespace Op

theorem drawnId?_of_written? {bucket key : String} {op : Op} {v : Version}
    (hv : op.written? bucket key = some v) :
    op.drawnId? = some v.versionId := by
  cases op <;>
    simp only [written?, Option.ite_none_right_eq_some, Option.some.injEq, reduceCtorEq] at hv
  all_goals exact hv.2 ▸ rfl

/-- An operation writes in one place. -/
theorem place_of_written? {bucket key bucket' key' : String} {op : Op} {v w : Version}
    (hv : op.written? bucket key = some v) (hw : op.written? bucket' key' = some w) :
    bucket = bucket' ∧ key = key' := by
  cases op <;> simp only [written?, Option.ite_none_right_eq_some, reduceCtorEq] at hv hw
  all_goals exact ⟨hv.1.1.symm.trans hw.1.1, hv.1.2.symm.trans hw.1.2⟩

end Op

namespace History

theorem exists_of_mem_kept {bucket key : String} {made : Bool} {history : History} {v : Version}
    (hv : v ∈ kept bucket key made history) : ∃ op ∈ history, op.written? bucket key = some v := by
  induction history generalizing made with
  | nil => cases hv
  | cons first later ih =>
      rcases List.mem_append.mp hv with hfirst | hlater
      · exact ⟨first, List.mem_cons_self,
          (Option.filter_eq_some_iff.mp (Option.mem_toList.mp hfirst)).1⟩
      · obtain ⟨op, hop, hwritten⟩ := ih hlater
        exact ⟨op, List.mem_cons_of_mem _ hop, hwritten⟩

/-- A drawn id tells the operation. -/
theorem eq_of_drawnId? {history : History} (hdistinct : history.drawn.Nodup) {op other : Op}
    (hop : op ∈ history) (hother : other ∈ history) {id : String} (hid : op.drawnId? = some id)
    (hid' : other.drawnId? = some id) :
    op = other := by
  have hapart := List.pairwise_filterMap.mp hdistinct
  have : Std.Symm fun op other : Op =>
    ∀ a, op.drawnId? = some a → ∀ b, other.drawnId? = some b → a ≠ b :=
    ⟨fun _ _ h a ha b hb => (h b hb a ha).symm⟩
  by_contra hne
  exact hapart.forall hop hother hne id hid id hid' rfl

/-- Versions under different keys, or in different buckets, have different ids. -/
theorem place_of_versionId {history : History} (hdistinct : history.drawn.Nodup)
    {bucket key bucket' key' : String} {v w : Version} (hv : v ∈ history.store.versions bucket key)
    (hw : w ∈ history.store.versions bucket' key') (hid : v.versionId = w.versionId) :
    bucket = bucket' ∧ key = key' := by
  rw [versions_store hdistinct, versions, List.mem_reverse] at hv hw
  obtain ⟨op, hop, hwritten⟩ := exists_of_mem_kept hv
  obtain ⟨other, hother, hwritten'⟩ := exists_of_mem_kept hw
  have hdrawn := Op.drawnId?_of_written? hwritten
  have hdrawn' := Op.drawnId?_of_written? hwritten'
  rw [← hid] at hdrawn'
  obtain rfl := eq_of_drawnId? hdistinct hop hother hdrawn hdrawn'
  exact Op.place_of_written? hwritten hwritten'

end History

/-! ## Names and ids are distinct -/

/-- The ids of all versions. -/
def versionIds (s : Store) : List String :=
  s.buckets.flatMap fun (_, b) => b.flatMap fun (_, vs) => vs.map (·.versionId)

theorem bucket?_of_mem {s : Store} (hnames : (s.buckets.map Prod.fst).Nodup) {name : String}
    {b : Bucket} (hb : (name, b) ∈ s.buckets) : s.bucket? name = some b := by
  obtain ⟨left, right, hsplit⟩ := List.append_of_mem hb
  refine List.lookup_eq_some_iff.mpr ⟨left, right, hsplit, ?_⟩
  intro entry hentry
  rw [hsplit, List.map_append, List.map_cons] at hnames
  have hapart := (List.nodup_append.mp hnames).2.2
  exact bne_iff_ne.mpr (hapart _ (List.mem_map_of_mem hentry) _ List.mem_cons_self).symm

theorem names_replace (s : Store) (name : String) (b : Bucket) :
    (s.replace name b).buckets.map Prod.fst = s.buckets.map Prod.fst := by
  simp [replace, Function.comp_def]

theorem nodup_names_apply {s : Store} (hs : (s.buckets.map Prod.fst).Nodup) (op : Op) :
    ((op.apply s).buckets.map Prod.fst).Nodup := by
  have hpush (owner : Option Owner) (bucket : String) (v : Version) :
      (((s.push owner bucket v).toOption.getD s).buckets.map Prod.fst).Nodup := by
    unfold push
    split
    · exact hs
    · simpa [Except.toOption, names_replace] using hs
  cases op with
  | makeBucket name =>
      simp only [Op.apply, makeBucket]
      split
      · exact hs
      next hnone =>
        rw [List.map_append]
        refine List.nodup_append.mpr ⟨hs, List.nodup_singleton name, ?_⟩
        intro old hold new hnew
        obtain ⟨entry, hentry, rfl⟩ := List.mem_map.mp hold
        obtain rfl := List.mem_singleton.mp hnew
        exact (bne_iff_ne.mp (List.lookup_eq_none_iff.mp hnone entry hentry)).symm
  | putObject owner bucket key size stamp => exact hpush owner bucket _
  | putDeleteMarker owner bucket key stamp => exact hpush owner bucket _
  | removeVersion bucket key versionId =>
      simp only [Op.apply, removeVersion]
      split
      · exact hs
      · split
        · simpa [Except.toOption, Except.map, names_replace] using hs
        · exact hs

theorem History.nodup_names (history : History) : (history.store.buckets.map Prod.fst).Nodup := by
  induction history using List.reverseRecOn with
  | nil => exact List.nodup_nil
  | append_singleton earlier op ih =>
      rw [History.store_append]
      exact nodup_names_apply ih op

theorem History.versions_of_mem (history : History) {name key : String} {b : Bucket}
    {vs : List Version} (hb : (name, b) ∈ history.store.buckets) (hvs : (key, vs) ∈ b) :
    history.store.versions name key = vs := by
  rw [Store.versions, bucket?_of_mem history.nodup_names hb, Option.getD_some,
    (history.store_wellFormed _ hb).versions_eq hvs]

/-- No id stands twice in a store. -/
theorem History.nodup_versionIds {history : History} (hdistinct : history.drawn.Nodup) :
    history.store.versionIds.Nodup := by
  have hwell := history.store_wellFormed
  -- ids in two places would tell the same place
  have hapart {name key name' key' : String} {b b' : Bucket} {vs vs' : List Version}
      (hb : (name, b) ∈ history.store.buckets) (hvs : (key, vs) ∈ b)
      (hb' : (name', b') ∈ history.store.buckets)
      (hvs' : (key', vs') ∈ b') {id : String} (hid : id ∈ vs.map (·.versionId))
      (hid' : id ∈ vs'.map (·.versionId)) :
      name = name' ∧ key = key' := by
    obtain ⟨v, hv, rfl⟩ := List.mem_map.mp hid
    obtain ⟨w, hw, heq⟩ := List.mem_map.mp hid'
    rw [← history.versions_of_mem hb hvs] at hv
    rw [← history.versions_of_mem hb' hvs'] at hw
    exact place_of_versionId hdistinct hv hw heq.symm
  refine List.nodup_flatMap.mpr ⟨?_, ?_⟩
  · rintro ⟨name, b⟩ hb
    refine List.nodup_flatMap.mpr ⟨?_, ?_⟩
    · rintro ⟨key, vs⟩ hvs
      have hnodup := (hwell _ hb).nodup_versionIds hdistinct key
      rwa [(hwell _ hb).versions_eq hvs] at hnodup
    · refine (List.pairwise_map.mp (hwell _ hb).sorted).imp_of_mem ?_
      rintro ⟨key, vs⟩ ⟨key', vs'⟩ hvs hvs' hlt id hid hid'
      exact absurd (hapart hb hvs hb hvs' hid hid').2 (ne_of_lt hlt)
  · refine (List.pairwise_map.mp history.nodup_names).imp_of_mem ?_
    rintro ⟨name, b⟩ ⟨name', b'⟩ hb hb' hne id hid hid'
    obtain ⟨⟨key, vs⟩, hvs, hid⟩ := List.mem_flatMap.mp hid
    obtain ⟨⟨key', vs'⟩, hvs', hid'⟩ := List.mem_flatMap.mp hid'
    exact absurd (hapart hb hvs hb' hvs' hid hid').1 hne

/-! ## Replies -/

/-- What an operation returns: whether a bucket was created, the id of the version written, or
whether there was a version to remove. -/
inductive Reply where
  | made (created : Bool)
  | written (result : Except Fault String)
  | removed (result : Except Fault Bool)
  deriving DecidableEq, Repr

/-- The operation did nothing. -/
def Reply.isRefusal : Reply → Bool
  | made created => !created
  | written result => !result.toBool
  | removed result => result.toOption != some true

def Op.reply (s : Store) : Op → Reply
  | makeBucket name => .made (s.makeBucket name).1
  | putObject owner bucket key size stamp =>
    .written ((s.putObject owner bucket key size stamp).map fun _ => stamp.versionId)
  | putDeleteMarker owner bucket key stamp =>
    .written ((s.putDeleteMarker owner bucket key stamp).map fun _ => stamp.versionId)
  | removeVersion bucket key versionId =>
      .removed ((s.removeVersion bucket key versionId).map Prod.fst)

/-- The reply that a history calls for. -/
def History.reply (history : History) (op : Op) : Reply :=
  let made := history.contains (.makeBucket op.bucket)
  let whenMade {α : Type} (result : α) : Except Fault α :=
    if made then .ok result else .error (.noSuchBucket op.bucket)
  match op with
  | .makeBucket _ => .made !made
  | .putObject _ _ _ _ stamp => .written (whenMade stamp.versionId)
  | .putDeleteMarker _ _ _ stamp => .written (whenMade stamp.versionId)
  | .removeVersion bucket key versionId =>
    .removed (whenMade (((history.versions bucket key).map (·.versionId)).contains versionId))

theorem History.reply_eq {history : History} (hdistinct : history.drawn.Nodup) (op : Op) :
    op.reply history.store = history.reply op := by
  have hmade := isSome_bucket?_store history op.bucket
  have hpush (owner : Option Owner) (bucket id : String) (v : Version) :
      (history.store.push owner bucket v).map (fun _ => id) =
        if (history.store.bucket? bucket).isSome then .ok id
        else .error (.noSuchBucket bucket) := by
    unfold push
    cases history.store.bucket? bucket <;> rfl
  unfold reply
  rw [← hmade]
  cases op with
  | makeBucket name =>
      simp only [Op.reply, makeBucket, Op.bucket]
      cases history.store.bucket? name <;> rfl
  | putObject owner bucket key size stamp => exact congrArg Reply.written (hpush owner bucket _ _)
  | putDeleteMarker owner bucket key stamp => exact congrArg Reply.written (hpush owner bucket _ _)
  | removeVersion bucket key versionId =>
      simp only [Op.reply, removeVersion, Op.bucket, ← versions_store hdistinct, Store.versions]
      cases history.store.bucket? bucket with
      | none => rfl
      | some b =>
          have hholds : ((b.versions key).map (·.versionId)).contains versionId =
              b.holds key versionId := by
            rw [Bucket.holds, List.contains_eq_any_beq, List.any_map]
            exact congrArg (b.versions key).any (funext fun _ => Bool.beq_comm)
          simp only [Option.getD_some, hholds]
          cases b.holds key versionId <;> rfl

/-- An operation that is refused leaves the store as it is. -/
theorem apply_of_isRefusal {s : Store} {op : Op} (hrefused : (op.reply s).isRefusal = true) :
    op.apply s = s := by
  have hpush (owner : Option Owner) (bucket id : String) (v : Version)
      (hrefused : (Reply.written ((s.push owner bucket v).map fun _ => id)).isRefusal = true) :
      (s.push owner bucket v).toOption.getD s = s := by
    unfold push at hrefused ⊢
    cases hb : s.bucket? bucket with
    | none => rfl
    | some b => simp [hb, Except.map, Reply.isRefusal, Except.toBool] at hrefused
  cases op with
  | makeBucket name =>
      simp only [Op.reply, Op.apply, makeBucket] at hrefused ⊢
      split
      · rfl
      next hnone => simp [hnone, Reply.isRefusal] at hrefused
  | putObject owner bucket key size stamp => exact hpush owner bucket _ _ hrefused
  | putDeleteMarker owner bucket key stamp => exact hpush owner bucket _ _ hrefused
  | removeVersion bucket key versionId =>
      simp only [Op.reply, Op.apply, removeVersion] at hrefused ⊢
      split
      · rfl
      next b hb =>
        split
        next hholds => simp [hb, hholds, Except.map, Reply.isRefusal, Except.toOption] at hrefused
        · rfl

/-! ## The ledger -/

/-- A store holds and does what its history says. -/
structure Ledger (history : History) (s : Store) : Prop where
  /-- A bucket is there exactly if it was made. -/
  buckets : ∀ name, (s.bucket? name).isSome = history.contains (.makeBucket name)
  names : (s.buckets.map Prod.fst).Nodup
  /-- The versions under a key are those that were written there and not removed, newest first. -/
  versions : ∀ bucket key, s.versions bucket key = history.versions bucket key
  sorted : ∀ entry ∈ s.buckets, (entry.2.map Prod.fst).Pairwise (· < ·)
  /-- No key is without versions, and versions stand under their own key. -/
  filed : ∀ entry ∈ s.buckets, ∀ key vs, (key, vs) ∈ entry.2 → vs ≠ [] ∧ ∀ v ∈ vs, v.key = key
  distinct : s.versionIds.Nodup
  reply : ∀ op : Op, op.reply s = history.reply op
  /-- What fails or finds nothing to do changes nothing. -/
  refused : ∀ op : Op, (op.reply s).isRefusal = true → op.apply s = s
  /-- Making a bucket leaves all buckets that are there as they are. -/
  makes : ∀ name other b, s.bucket? other = some b →
    ((Op.makeBucket name).apply s).bucket? other = some b
  /-- A removal takes out one version and nothing else. -/
  removes : ∀ bucket key versionId other k,
    ((Op.removeVersion bucket key versionId).apply s).versions other k =
    (s.versions other k).filter fun v => ¬(bucket = other ∧ key = k ∧ versionId = v.versionId)
  /-- An operation has no effect on the buckets that it does not name. -/
  apart : ∀ (op : Op) other, other ≠ op.bucket → (op.apply s).bucket? other = s.bucket? other

theorem History.ledger_store {history : History} (hdistinct : history.drawn.Nodup) :
    Ledger history history.store where
  buckets := isSome_bucket?_store history
  names := nodup_names history
  versions := versions_store hdistinct
  sorted entry hentry := (store_wellFormed history entry hentry).sorted
  filed entry hentry _ _ hvs :=
    ⟨(store_wellFormed history entry hentry).filled _ hvs,
      (store_wellFormed history entry hentry).filed _ hvs⟩
  distinct := nodup_versionIds hdistinct
  reply := reply_eq hdistinct
  refused _ hrefused := apply_of_isRefusal hrefused
  makes name other b hb := by
    by_cases hother : other = name
    · subst hother
      simp [bucket?_apply, Op.bucket, Op.change, hb]
    · simp [bucket?_apply, Op.bucket, hother, hb]
  removes bucket key versionId other k := by
    rw [versions_apply hdistinct (store_wellFormed history)]
    simp [Op.written?]
  apart op other hother := by rw [bucket?_apply, if_neg hother]

end Store
end VersionedBucket
