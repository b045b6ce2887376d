import VersionedBucket.Proofs.Walk.Course

/-! # Runs of a walk

A run collects the items that turn after turn shows. Up to the turn that leaves nothing over, the
items stand in their order across all pages, because each turn starts behind the last version
shown before.
-/

namespace VersionedBucket

open Text Store

namespace Item

theorem map_versions_normalize_append (first second : List Item) :
    (versions (first ++ second)).map Version.normalize =
      (versions first).map Version.normalize ++ (versions second).map Version.normalize := by
  rw [versions_append, List.map_append]

/-- A sequence may be continued with whatever comes after its last item. -/
theorem pairwise_append_of_last {drawn : List String} (hdistinct : drawn.Nodup)
    {before behind : List Item} (hbefore : before.Pairwise (Precedes drawn))
    (hbehind : behind.Pairwise (Precedes drawn))
    (hlast : ∀ last ∈ before.getLast?, ∀ item ∈ behind, Precedes drawn last item) :
    (before ++ behind).Pairwise (Precedes drawn) := by
  refine List.pairwise_append.mpr ⟨hbefore, hbehind, ?_⟩
  intro first hfirst second hsecond
  obtain ⟨front, last, rfl⟩ :=
    List.eq_nil_or_concat' before |>.resolve_left (List.ne_nil_of_mem hfirst)
  have hlater := hlast last (by simp) second hsecond
  rcases List.mem_append.mp hfirst with hfront | hlast
  · exact ((List.pairwise_append.mp hbefore).2.2 first hfront last (by simp)).trans hdistinct hlater
  · exact List.mem_singleton.mp hlast ▸ hlater

end Item

namespace Course

/-- The first turns of a walk that is not yet complete: the items they show and the last
version among them. -/
inductive Run (c : Course) : Nat → List Item → Option Version → Prop
  | start : c.Run 0 [] none
  | turn {n : Nat} {items shown rest front : List Item} {shownLast : Option Version}
      {p : Page} {v : Version}
      (hrun : c.Run n items shownLast) (hshows : c.Shows n shownLast shown rest p)
      (hrest : rest ≠ [])
      (hfront : shown = front ++ [.version v]) : c.Run (n + 1) (items ++ shown) (some v)

/-- A turn completes a walk. -/
inductive Ends (c : Course) : Nat → List Item → Prop
  | turn {n : Nat} {items shown : List Item} {shownLast : Option Version} {p : Page}
      (hrun : c.Run n items shownLast)
      (hshows : c.Shows n shownLast shown [] p) : c.Ends n (items ++ shown)

variable {c : Course} {n : Nat} {items shown rest : List Item}
  {shownLast : Option Version} {p : Page}

theorem Run.getLast? (hrun : c.Run n items shownLast) :
    items.getLast? = shownLast.map Item.version := by
  cases hrun with
  | start => rfl
  | turn _ _ _ hfront => simp [hfront]

theorem item_of_page? (hpage : c.page? n = some p) : (c.turn n).item = some (.ok p) := by
  obtain ⟨answer, hitem, hanswer⟩ := Option.bind_eq_some_iff.mp hpage
  cases answer with
  | error fault => cases hanswer
  | ok page =>
      cases hanswer
      exact hitem

theorem Shows.item (hshows : c.Shows n shownLast shown rest p) : (c.turn n).item = some (.ok p) :=
  item_of_page? hshows.page

theorem Shows.mem_items (hc : c.Admissible) (hshows : c.Shows n shownLast shown rest p)
    (hplace : ∀ v ∈ shownLast, c.request.groupOf v.key = none) {item : Item}
    (hitem : item ∈ shown ++ rest) :
    item ∈ c.request.items (c.bucket n) :=
  Request.mem_items_of_mem_resumed (hc.fresh n).distinct (hc.wellFormed n) hc.fromStart hplace
    (hshows.due ▸ hitem)

theorem Run.place (hc : c.Admissible) (hrun : c.Run n items shownLast) :
    ∀ v ∈ shownLast, c.request.groupOf v.key = none := by
  induction hrun with
  | start => simp
  | @turn n _ shown _ _ _ _ v _ hshows _ hfront ih =>
      rintro _ ⟨⟩
      have hshown : Item.version v ∈ shown := by rw [hfront]; simp
      have hmem := hshows.mem_items hc ih (List.mem_append_left _ hshown)
      exact (Request.of_version_mem_items (hc.wellFormed n) hc.fromStart hmem).2.1

theorem Run.ready (hrun : c.Run n items shownLast) : c.Ready n shownLast := by
  cases hrun with
  | start => exact ready_zero c
  | turn _ hshows hrest hfront =>
      obtain ⟨-, front, v, hfront', hready⟩ := hshows.goesOn hrest
      obtain ⟨-, hlast⟩ := List.append_inj' (hfront.symm.trans hfront') rfl
      cases hlast
      exact hready

theorem Run.shows (hc : c.Admissible) (hrun : c.Run n items shownLast) :
    ∃ shown rest p, c.Shows n shownLast shown rest p :=
  hrun.ready.shows hc (hrun.place hc)

/-- Before every turn a walk is under way or complete. -/
theorem run_or_ends (hc : c.Admissible) (n : Nat) :
    (∃ items shownLast, c.Run n items shownLast) ∨ ∃ m items, m < n ∧ c.Ends m items := by
  induction n with
  | zero => exact Or.inl ⟨[], none, .start⟩
  | succ n ih =>
      rcases ih with ⟨items, shownLast, hrun⟩ | ⟨m, items, hm, hends⟩
      · obtain ⟨shown, rest, p, hshows⟩ := hrun.shows hc
        cases rest with
        | nil => exact Or.inr ⟨n, items ++ shown, Nat.lt_succ_self n, .turn hrun hshows⟩
        | cons head tail =>
            -- something is left over, so the page is full and ends with a version
            obtain ⟨-, front, v, hfront, -⟩ := hshows.goesOn (List.cons_ne_nil head tail)
            exact Or.inl ⟨items ++ shown, some v,
              .turn hrun hshows (List.cons_ne_nil head tail) hfront⟩
      · exact Or.inr ⟨m, items, Nat.lt_succ_of_lt hm, hends⟩

/-- Past the turn that completes the walk nothing comes any more. -/
theorem Ends.item_eq_none {m : Nat} (hends : c.Ends n items) (hlater : n < m) :
    (c.turn m).item = none := by
  have hdone : (c.reached m).1.isDone = true := by
    induction m, hlater using Nat.le_induction with
    | base =>
        cases hends with
        | turn _ hshows => exact hshows.complete rfl
    | succ m _ ih => exact (turn_of_isDone ih).2
  exact (turn_of_isDone hdone).1

theorem pages_succ (c : Course) (n : Nat) : c.pages (n + 1) = c.pages n ++ (c.page? n).toList := by
  simp only [pages, List.range_succ, List.filterMap_append]
  cases hpage : c.page? n <;> simp [hpage]

theorem Ends.pages_eq {m : Nat} (hends : c.Ends n items) (hlater : n < m) :
    c.pages m = c.pages (n + 1) := by
  induction m, hlater using Nat.le_induction with
  | base => rfl
  | succ m hm ih =>
      rw [pages_succ, ih]
      simp [page?, hends.item_eq_none hm]

/-! ## What the pages show -/

/-- The first turns show certain items, and these are in order. -/
structure Traced (c : Course) (n : Nat) (items : List Item) : Prop where
  versions : (c.pages n).flatMap (·.versions) = (Item.versions items).map Version.normalize
  commonPrefixes : (c.pages n).flatMap (·.commonPrefixes) = Item.commons items
  ordered : items.Pairwise (Item.Precedes (c.log n).drawn)

theorem Traced.shows (hc : c.Admissible) (htraced : c.Traced n items)
    (hlast : items.getLast? = shownLast.map Item.version)
    (hplace : ∀ v ∈ shownLast, c.request.groupOf v.key = none)
    (hshows : c.Shows n shownLast shown rest p) : c.Traced (n + 1) (items ++ shown) where
  versions := by
    rw [pages_succ, List.flatMap_append, htraced.versions, Item.map_versions_normalize_append,
      hshows.page]
    simp [hshows.versions]
  commonPrefixes := by
    rw [pages_succ, List.flatMap_append, htraced.commonPrefixes, Item.commons_append, hshows.page]
    simp [hshows.commonPrefixes]
  ordered := by
    have hdistinct := (hc.fresh n).distinct
    have hdue := (c.request.resumed shownLast).items_pairwise (hc.wellFormed n)
    rw [hshows.due] at hdue
    -- within the page the listing is in order, and across its start the cursor keeps the order
    have horder :=
      Item.pairwise_append_of_last hdistinct htraced.ordered (List.pairwise_append.mp hdue).1 (by
      intro last hmem item hitem
      rw [hlast] at hmem
      obtain ⟨v, hv, rfl⟩ := Option.mem_map.mp hmem
      obtain rfl := Option.mem_def.mp hv
      refine Request.precedes_of_mem_items_behind hdistinct (hc.wellFormed n) hc.fromStart
        (hplace v rfl) ?_
      rw [← Request.resumed, hshows.due]
      exact List.mem_append_left _ hitem)
    rw [log_drawn_succ]
    exact horder.imp fun hprecedes => hprecedes.append _

theorem Run.traced (hc : c.Admissible) (hrun : c.Run n items shownLast) : c.Traced n items := by
  induction hrun with
  | start => exact ⟨rfl, rfl, List.Pairwise.nil⟩
  | turn hrun hshows _ _ ih => exact ih.shows hc hrun.getLast? (hrun.place hc) hshows

theorem Ends.traced (hc : c.Admissible) {m : Nat} (hends : c.Ends n items) (hlater : n < m) :
    c.Traced m items := by
  have hpages := hends.pages_eq hlater
  induction m, hlater using Nat.le_induction with
  | base =>
      cases hends with
      | turn hrun hshows => exact (hrun.traced hc).shows hc hrun.getLast? (hrun.place hc) hshows
  | succ m hm ih =>
      have htraced := ih (hends.pages_eq hm)
      have hsame : c.pages (m + 1) = c.pages m := hpages.trans (hends.pages_eq hm).symm
      refine ⟨hsame ▸ htraced.versions, hsame ▸ htraced.commonPrefixes, ?_⟩
      rw [log_drawn_succ]
      exact htraced.ordered.imp fun hprecedes => hprecedes.append _

theorem exists_traced (hc : c.Admissible) (n : Nat) : ∃ items, c.Traced n items := by
  rcases run_or_ends hc n with ⟨items, _, hrun⟩ | ⟨_, items, hm, hends⟩
  · exact ⟨items, hrun.traced hc⟩
  · exact ⟨items, hends.traced hc hm⟩

end Course

end VersionedBucket
