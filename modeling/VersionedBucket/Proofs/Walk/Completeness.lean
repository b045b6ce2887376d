import VersionedBucket.Proofs.Walk.Run

/-! # Walks over a store at rest

If nothing is written between the turns, a walk comes to an end, and its pages put together are the
whole listing, however the turns choose their page sizes.
-/

namespace VersionedBucket

open Text Store

/-! ## The whole listing -/

namespace Item

theorem versions_once (items : List Item) : versions (once items) = versions items := by
  induction items with
  | nil => rfl
  | cons head rest ih =>
      cases head with
      | version v => exact congrArg (v :: ·) ih
      | common text =>
          -- what is dropped as shown before are common prefixes only
          have hfilter : versions ((once rest).filter (· ≠ common text)) =
              versions (once rest) := by
            simp only [versions, List.filterMap_filter]
            refine List.filterMap_congr fun item _ => ?_
            cases item <;> simp [version?]
          exact hfilter.trans ih

end Item

namespace Request

theorem versions_items {q : Request} (hstart : q.keyMarker = none) (b : Bucket) :
    Item.versions (q.items b) =
      (b.filter fun entry => q.wants entry.1 && (q.groupOf entry.1).isNone).flatMap fun entry =>
        Version.flagged entry.2 := by
  rw [items, Item.versions_once]
  induction b with
  | nil => rfl
  | cons entry rest ih =>
      have hreaches : q.reaches entry.1 = q.wants entry.1 := by simp [reaches, hstart]
      by_cases hwants : q.wants entry.1 = true
      · rw [List.filter_cons_of_pos (by rwa [hreaches]), List.flatMap_cons, Item.versions_append,
          ih]
        cases hgroup : q.groupOf entry.1 with
        | none =>
            rw [List.filter_cons_of_pos (by simp [hwants, hgroup]), List.flatMap_cons]
            simp [itemsOf, hgroup, listed, hstart, Item.versions_map_version]
        | some common =>
            rw [List.filter_cons_of_neg (by simp [hgroup])]
            simp [itemsOf, hgroup, Item.versions, Item.version?]
      · rw [List.filter_cons_of_neg (by rwa [hreaches]), List.filter_cons_of_neg (by simp [hwants]),
          ih]

end Request

/-! ## The walk -/

namespace Course

variable {c : Course} {n : Nat} {items : List Item} {shownLast : Option Version}

theorem bucket_of_quiet (hquiet : ∀ n, c.writes n = []) (n : Nat) : c.bucket n = c.bucket 0 := by
  have hlog : c.log n = c.history := by
    induction n with
    | zero => rfl
    | succ n ih => rw [log, ih, hquiet, List.append_nil]
  rw [bucket, bucket, hlog]
  rfl

/-- What has been shown and what is still due make up the whole listing. -/
theorem Run.append_due (hc : c.Admissible) (hquiet : ∀ n, c.writes n = [])
    (hrun : c.Run n items shownLast) :
    items ++ (c.request.resumed shownLast).items (c.bucket 0) = c.request.items (c.bucket 0) := by
  induction hrun with
  | start => rfl
  | @turn n items shown rest front _ _ v _ hshows _ hfront ih =>
      have hdue := hshows.due
      rw [bucket_of_quiet hquiet n] at hdue
      -- the last version shown cuts the whole listing in two, and behind it comes what is left over
      have hsplit : c.request.items (c.bucket 0) = (items ++ front) ++ .version v :: rest := by
        rw [← ih, hdue, hfront]
        simp
      have hrest :=
        Request.items_behind_eq (hc.fresh 0).distinct (hc.wellFormed 0) hc.fromStart hsplit
      rw [Request.resumed, hrest, hsplit, hfront]
      simp

/-- Every turn but the last shows a version. -/
theorem Run.le_length (hrun : c.Run n items shownLast) : n ≤ (Item.versions items).length := by
  induction hrun with
  | start => exact Nat.zero_le 0
  | turn _ _ _ hfront ih =>
      simp only [hfront, Item.versions_append, List.length_append]
      have hone (v : Version) : (Item.versions [.version v]).length = 1 := rfl
      rw [hone]
      omega

theorem exists_ends (hc : c.Admissible) (hquiet : ∀ n, c.writes n = []) :
    ∃ n items, c.Ends n items := by
  rcases run_or_ends hc ((Item.versions (c.request.items (c.bucket 0))).length + 1) with
    ⟨items, shownLast, hrun⟩ | ⟨n, items, _, hends⟩
  -- a run of more turns than there are versions would have shown too many
  · have hlength := hrun.le_length
    rw [← hrun.append_due hc hquiet, Item.versions_append, List.length_append] at hlength
    omega
  · exact ⟨n, items, hends⟩

/-- The turns before a turn under way have left something over. -/
theorem Run.earlier (hrun : c.Run n items shownLast) {m : Nat} (hm : m < n) :
    ∃ items shownLast shown rest p, c.Run m items shownLast ∧ c.Shows m shownLast shown rest p ∧
      rest ≠ [] := by
  induction hrun with
  | start => exact absurd hm (Nat.not_lt_zero m)
  | turn hrun hshows hrest _ ih =>
      rcases Nat.lt_succ_iff_lt_or_eq.mp hm with hm | rfl
      · exact ih hm
      · exact ⟨_, _, _, _, _, hrun, hshows, hrest⟩

/-- Something is due for every turn of a walk that is under way, the first perhaps excepted. -/
theorem Run.due_ne_nil (hc : c.Admissible) (hquiet : ∀ n, c.writes n = [])
    (hrun : c.Run n items shownLast) (hn : 0 < n) :
    (c.request.resumed shownLast).items (c.bucket 0) ≠ [] := by
  cases hrun with
  | start => exact absurd hn (Nat.lt_irrefl 0)
  | @turn n items shown rest front _ _ v hrun hshows hrest hfront =>
      have hwhole := (Run.turn hrun hshows hrest hfront).append_due hc hquiet
      have hbefore := hrun.append_due hc hquiet
      rw [← bucket_of_quiet hquiet n] at hbefore
      rw [hshows.due, bucket_of_quiet hquiet n, ← hwhole, ← List.append_assoc,
        List.append_cancel_left_eq] at hbefore
      exact hbefore ▸ hrest

/-- Only the first page may be empty. -/
theorem Shows.not_empty (hc : c.Admissible) (hquiet : ∀ n, c.writes n = [])
    (hrun : c.Run n items shownLast) {shown rest : List Item} {p : Page}
    (hshows : c.Shows n shownLast shown rest p) (hn : 0 < n) :
    p.versions ≠ [] ∨ p.commonPrefixes ≠ [] := by
  have hdue := hrun.due_ne_nil hc hquiet hn
  rw [← bucket_of_quiet hquiet n, hshows.due] at hdue
  have hshown : shown ≠ [] := fun hnil => hdue (by rw [hnil, hshows.progress hnil, List.append_nil])
  obtain ⟨item, hitem⟩ := List.exists_mem_of_ne_nil shown hshown
  cases item with
  | version v =>
      refine Or.inl (List.ne_nil_of_mem (a := v.normalize) ?_)
      rw [hshows.versions]
      exact List.mem_map_of_mem (Item.mem_versions.mpr hitem)
  | common text =>
      refine Or.inr (List.ne_nil_of_mem (a := text) ?_)
      rw [hshows.commonPrefixes]
      exact Item.mem_commons.mpr hitem

/-- A walk over a store at rest comes to an end without a fault. Its versions are those of the
wanted keys that are not rolled up, in their order and each once, with the newest of each key
flagged as the latest; its common prefixes are those of the other wanted keys, in their order and
each once. Every page is of the size asked for, every page but the last is truncated and full, and
none but the first may be empty. -/
theorem walk_complete (hc : c.Admissible) (hquiet : ∀ n, c.writes n = []) :
    ∃ count,
      (∀ n < count, ∃ p, (c.turn n).item = some (.ok p) ∧ p.maxKeys = c.size n ∧
        (p.isTruncated = true ↔ n + 1 < count) ∧
        (p.isTruncated = true → p.versions.length = p.maxKeys.toNat) ∧
        (0 < n → p.versions ≠ [] ∨ p.commonPrefixes ≠ [])) ∧
      (∀ n, count ≤ n → (c.turn n).item = none) ∧
      (c.pages count).flatMap (·.versions) =
        (((c.bucket 0).filter fun entry => c.request.wants entry.1 &&
          (c.request.groupOf entry.1).isNone).flatMap
          fun entry => Version.flagged entry.2).map Version.normalize ∧
      ((c.pages count).flatMap (·.versions)).Pairwise (Version.ListedBefore c.history.drawn) ∧
      ((c.pages count).flatMap (·.commonPrefixes)).Pairwise Before ∧
      ∀ text, text ∈ (c.pages count).flatMap (·.commonPrefixes) ↔
        ∃ entry ∈ c.bucket 0, c.request.wants entry.1 = true ∧
          c.request.groupOf entry.1 = some text := by
  obtain ⟨last, items, hends⟩ := exists_ends hc hquiet
  have htraced := hends.traced hc (Nat.lt_succ_self last)
  cases hends with
  | @turn before shown shownLast _ hrun hshows =>
      have hitems : before ++ shown = c.request.items (c.bucket 0) := by
        rw [← hrun.append_due hc hquiet, ← bucket_of_quiet hquiet last, hshows.due, List.append_nil]
      have horder := c.request.items_pairwise (hc.wellFormed 0)
      refine ⟨last + 1, ?_, fun n hn => (Ends.turn hrun hshows).item_eq_none hn, ?_, ?_, ?_, ?_⟩
      · intro n hn
        rcases Nat.lt_succ_iff_lt_or_eq.mp hn with hn | rfl
        · obtain ⟨_, _, _, rest, p, hrun', hshows', hrest⟩ := hrun.earlier hn
          have htruncated : p.isTruncated = true := by simp [hshows'.truncated, hrest]
          exact ⟨p, hshows'.item, hshows'.sized, by simp [htruncated, hn], fun _ =>
            (hshows'.goesOn hrest).1,
            hshows'.not_empty hc hquiet hrun'⟩
        · have htruncated := hshows.truncated
          exact ⟨_, hshows.item, hshows.sized, by simp [htruncated], by simp [htruncated],
            hshows.not_empty hc hquiet hrun⟩
      · rw [htraced.versions, hitems, Request.versions_items hc.fromStart]
      · rw [htraced.versions, hitems]
        exact Item.versions_pairwise horder
      · rw [htraced.commonPrefixes, hitems]
        exact Item.commons_pairwise horder
      · intro text
        rw [htraced.commonPrefixes, hitems, Item.mem_commons, Request.common_mem_items hc.fromStart]

/-- The sample walk with nothing written. -/
def atRest : Course := sample fun _ => []

theorem walk_complete_atRest :
    ∃ count, (∀ n, count ≤ n → (atRest.turn n).item = none) ∧
      ((atRest.pages count).flatMap (·.versions)).map (fun v => (v.key, v.versionId, v.isLatest)) =
        [("a", "i5", true), ("a", "i2", false), ("c", "i6", true), ("c", "i1", false)] ∧
      "b/" ∈ (atRest.pages count).flatMap (·.commonPrefixes) := by
  have hfresh (n : Nat) : (atRest.log n).Fresh := by
    have hlog : atRest.log n = History.sample := by
      induction n with
      | zero => rfl
      | succ n ih => rw [log, ih]; rfl
    rw [hlog]
    exact ⟨by decide, by decide⟩
  obtain ⟨count, -, hover, hversions, -, -, hcommons⟩ :=
    walk_complete (sample_admissible hfresh) fun _ => rfl
  refine ⟨count, hover, ?_, (hcommons "b/").mpr (by decide)⟩
  rw [atRest, hversions]
  decide

end Course

end VersionedBucket
