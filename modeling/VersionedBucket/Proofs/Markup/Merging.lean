import VersionedBucket.Proofs.Markup.Indexed

/-! # Merging one value at a time

What a merging of two runs gives when it is asked again and again: the values of both runs, each run
in its order and no value left out, and then nothing any more. If the values of each run are ordered
by their places, so are the values that are given, and at one place those of the right run come
first. So the children with one tag and those with another, found through an index, are given in the
order in which they stand.
-/

namespace VersionedBucket.Markup

variable {α : Type}

/-! ## What a merge is -/

/-- A placed value of the left or of the right run. -/
abbrev Entry (α : Type) := (Nat × α) ⊕ (Nat × α)

namespace Entry

def placed : Entry α → Nat × α := Sum.elim id id

def value (entry : Entry α) : α := entry.placed.2

/-- By their places one may come before the other. At one place the right run comes
before the left. -/
def MayPrecede : Entry α → Entry α → Prop
  | .inl a, .inl b => a.1 ≤ b.1
  | .inl a, .inr b => a.1 < b.1
  | .inr a, .inl b => a.1 ≤ b.1
  | .inr a, .inr b => a.1 ≤ b.1

end Entry

/-- The values are ordered by their places. -/
def ByPlace (run : List (Nat × α)) : Prop := run.Pairwise fun a b => a.1 ≤ b.1

instance (run : List (Nat × α)) : Decidable (ByPlace run) := by unfold ByPlace; infer_instance

/-- The entries are those of both runs, each run in its order. If both runs are ordered by place,
so are they. -/
structure IsMerge (left right : List (Nat × α)) (entries : List (Entry α)) : Prop where
  left_eq : entries.filterMap Sum.getLeft? = left
  right_eq : entries.filterMap Sum.getRight? = right
  perm : (entries.map Entry.placed).Perm (left ++ right)
  length_eq : entries.length = left.length + right.length
  ordered : ByPlace left → ByPlace right → entries.Pairwise Entry.MayPrecede

/-! ## Merged entries -/

@[simp] theorem merge_nil_left (right : List (Nat × α)) : merge [] right = right.map Prod.snd := by
  rw [merge]

@[simp] theorem merge_nil_right (left : List (Nat × α)) : merge left [] = left.map Prod.snd := by
  cases left with
  | nil => rw [merge]
  | cons a left =>
      rw [merge]
      exact List.cons_ne_nil a left

theorem merge_cons_cons (a b : Nat × α) (left right : List (Nat × α)) :
    merge (a :: left) (b :: right) =
      if a.1 < b.1 then a.2 :: merge left (b :: right) else b.2 :: merge (a :: left) right := by
  rw [merge]

/-- The order of a merge depends on places alone, not on what stands there. -/
theorem map_merge {β : Type} (f : α → β) (left right : List (Nat × α)) :
    (merge left right).map f =
      merge (left.map fun a => (a.1, f a.2)) (right.map fun b => (b.1, f b.2)) := by
  induction left, right using merge.induct with
  | case1 right => simp [Function.comp_def]
  | case2 left hleft => simp [Function.comp_def]
  | case3 i x left j y right hlt ih =>
      rw [merge_cons_cons, if_pos hlt, List.map_cons, ih, List.map_cons, List.map_cons,
        merge_cons_cons, if_pos hlt]
  | case4 i x left j y right hle ih =>
      rw [merge_cons_cons, if_neg hle, List.map_cons, ih, List.map_cons, List.map_cons,
        merge_cons_cons, if_neg hle]

/-- The entries of two runs in the order in which their values are merged. -/
def entries (left right : List (Nat × α)) : List (Entry α) :=
  merge (left.map fun a => (a.1, .inl a)) (right.map fun b => (b.1, .inr b))

theorem map_value_entries (left right : List (Nat × α)) :
    (entries left right).map Entry.value = merge left right := by
  rw [entries, map_merge, List.map_map, List.map_map]
  have hsame (run : List (Nat × α)) : run.map (fun a => (a.1, a.2)) = run := List.map_id run
  exact congrArg₂ merge (hsame left) (hsame right)

theorem entries_nil_left (right : List (Nat × α)) : entries [] right = right.map Sum.inr := by
  rw [entries, List.map_nil, merge_nil_left, List.map_map]
  rfl

theorem entries_nil_right (left : List (Nat × α)) : entries left [] = left.map Sum.inl := by
  rw [entries, List.map_nil, merge_nil_right, List.map_map]
  rfl

theorem entries_cons_cons (a b : Nat × α) (left right : List (Nat × α)) :
    entries (a :: left) (b :: right) =
      if a.1 < b.1 then .inl a :: entries left (b :: right)
      else .inr b :: entries (a :: left) right :=
  merge_cons_cons _ _ _ _

theorem filterMap_getLeft?_entries (left right : List (Nat × α)) :
    (entries left right).filterMap Sum.getLeft? = left := by
  induction left, right using merge.induct with
  | case1 right => simp [entries_nil_left, List.filterMap_map, Function.comp_def]
  | case2 left hleft => simp [entries_nil_right, List.filterMap_map, Function.comp_def]
  | case3 i x left j y right hlt ih =>
      rw [entries_cons_cons, if_pos hlt, List.filterMap_cons, Sum.getLeft?_inl, ih]
  | case4 i x left j y right hle ih =>
      rw [entries_cons_cons, if_neg hle, List.filterMap_cons, Sum.getLeft?_inr, ih]

theorem filterMap_getRight?_entries (left right : List (Nat × α)) :
    (entries left right).filterMap Sum.getRight? = right := by
  induction left, right using merge.induct with
  | case1 right => simp [entries_nil_left, List.filterMap_map, Function.comp_def]
  | case2 left hleft => simp [entries_nil_right, List.filterMap_map, Function.comp_def]
  | case3 i x left j y right hlt ih =>
      rw [entries_cons_cons, if_pos hlt, List.filterMap_cons, Sum.getRight?_inl, ih]
  | case4 i x left j y right hle ih =>
      rw [entries_cons_cons, if_neg hle, List.filterMap_cons, Sum.getRight?_inr, ih]

theorem mem_of_inl_mem_entries {left right : List (Nat × α)} {a : Nat × α}
    (ha : .inl a ∈ entries left right) :
    a ∈ left := by
  rw [← filterMap_getLeft?_entries left right]
  exact List.mem_filterMap.mpr ⟨.inl a, ha, rfl⟩

theorem mem_of_inr_mem_entries {left right : List (Nat × α)} {b : Nat × α}
    (hb : .inr b ∈ entries left right) :
    b ∈ right := by
  rw [← filterMap_getRight?_entries left right]
  exact List.mem_filterMap.mpr ⟨.inr b, hb, rfl⟩

/-- Entries are those of the left run together with those of the right. -/
theorem perm_of_entries (entries : List (Entry α)) :
    (entries.map Entry.placed).Perm (entries.filterMap Sum.getLeft? ++
      entries.filterMap Sum.getRight?) := by
  induction entries with
  | nil => exact .nil
  | cons entry entries ih =>
      cases entry with
      | inl a => exact ih.cons a
      | inr b => exact (ih.cons b).trans List.perm_middle.symm

/-- What is first may precede all that is left of both runs: of its own run as that is ordered, of
the other one as it may precede the first of that. -/
theorem entries_pairwise {left right : List (Nat × α)} (hleft : ByPlace left)
    (hright : ByPlace right) :
    (entries left right).Pairwise Entry.MayPrecede := by
  induction left, right using merge.induct with
  | case1 right =>
      rw [entries_nil_left, List.pairwise_map]
      exact hright
  | case2 left hne =>
      rw [entries_nil_right, List.pairwise_map]
      exact hleft
  | case3 i x left j y right hlt ih =>
      obtain ⟨hfirst, hrest⟩ := List.pairwise_cons.mp hleft
      obtain ⟨hother, -⟩ := List.pairwise_cons.mp hright
      rw [entries_cons_cons, if_pos hlt]
      apply List.Pairwise.cons
      · intro entry hentry
        cases entry with
        | inl a => exact hfirst a (mem_of_inl_mem_entries hentry)
        | inr b =>
            rcases List.mem_cons.mp (mem_of_inr_mem_entries hentry) with rfl | hb
            · exact hlt
            · exact Nat.lt_of_lt_of_le hlt (hother b hb)
      · exact ih hrest hright
  | case4 i x left j y right hge ih =>
      obtain ⟨hother, -⟩ := List.pairwise_cons.mp hleft
      obtain ⟨hfirst, hrest⟩ := List.pairwise_cons.mp hright
      have hle : j ≤ i := Nat.le_of_not_lt hge
      rw [entries_cons_cons, if_neg hge]
      apply List.Pairwise.cons
      · intro entry hentry
        cases entry with
        | inl a =>
            rcases List.mem_cons.mp (mem_of_inl_mem_entries hentry) with rfl | ha
            · exact hle
            · exact Nat.le_trans hle (hother a ha)
        | inr b => exact hfirst b (mem_of_inr_mem_entries hentry)
      · exact ih hleft hrest

theorem isMerge_entries (left right : List (Nat × α)) :
    IsMerge left right (entries left right) := by
  have hperm := perm_of_entries (entries left right)
  rw [filterMap_getLeft?_entries, filterMap_getRight?_entries] at hperm
  refine ⟨filterMap_getLeft?_entries left right, filterMap_getRight?_entries left right, hperm, ?_,
    entries_pairwise⟩
  have hlength := hperm.length_eq
  rwa [List.length_map, List.length_append] at hlength

/-! ## One value at a time -/

namespace Merging

/-- The merging after a number of calls. -/
def after (m : Merging α) : Nat → Merging α
  | 0 => m
  | n + 1 => (m.after n).next.2

/-- What the call after a number of calls gives. -/
def answer (m : Merging α) (n : Nat) : Option α := (m.after n).next.1

/-- The values that are still to come. -/
def rest (m : Merging α) : List α := merge (m.left.drop m.leftGiven) (m.right.drop m.rightGiven)

theorem drop_of_getElem? {run : List (Nat × α)} {given : Nat} {a : Nat × α}
    (ha : run[given]? = some a) :
    run.drop given = a :: run.drop (given + 1) := by
  obtain ⟨hlt, rfl⟩ := List.getElem?_eq_some_iff.mp ha
  exact List.drop_eq_getElem_cons hlt

theorem drop_of_getElem?_none {run : List (Nat × α)} {given : Nat} (hnone : run[given]? = none) :
    run.drop given = [] :=
  List.drop_eq_nil_of_le (List.getElem?_eq_none_iff.mp hnone)

/-- A call gives the first of the values that are to come and leaves the others. -/
theorem next_eq (m : Merging α) : m.next.1 = m.rest.head? ∧ m.next.2.rest = m.rest.tail := by
  unfold next
  cases hleft : m.left[m.leftGiven]? with
  | none =>
      cases hright : m.right[m.rightGiven]? with
      | none => simp [rest, drop_of_getElem?_none hleft, drop_of_getElem?_none hright]
      | some b => simp [rest, drop_of_getElem?_none hleft, drop_of_getElem? hright]
  | some a =>
      cases hright : m.right[m.rightGiven]? with
      | none => simp [rest, drop_of_getElem? hleft, drop_of_getElem?_none hright]
      | some b =>
          by_cases hlt : a.1 < b.1
          · simp [rest, drop_of_getElem? hleft, drop_of_getElem? hright, merge_cons_cons, hlt]
          · simp [rest, drop_of_getElem? hleft, drop_of_getElem? hright, merge_cons_cons, hlt]

theorem rest_after (m : Merging α) (n : Nat) : (m.after n).rest = m.rest.drop n := by
  induction n with
  | zero => rfl
  | succ n ih => rw [after, (next_eq _).2, ih, List.tail_drop]

/-- The calls give the values in their order and after the last of them nothing any more. -/
theorem answer_eq (m : Merging α) (n : Nat) : m.answer n = m.rest[n]? := by
  rw [answer, (next_eq _).1, rest_after, List.head?_drop]

theorem answer_start (left right : List (Nat × α)) (n : Nat) :
    ({ left, right } : Merging α).answer n = (merge left right)[n]? :=
  answer_eq _ n

end Merging

/-- The children with one or the other tag, in the order in which they stand. -/
theorem Indexed.merge_matching (x : Indexed) {first second : String} (hne : first ≠ second) :
    merge (x.matching first) (x.matching second) =
      ((Node.elements x.element.children).filter fun e => e.tag == first || e.tag == second).map
        Element.indexed := by
  rw [matching_eq, matching_eq, ← Element.merge_matching _ hne, map_merge]

/-- A merging gives all values of two runs, each run in its order, and then nothing any more; runs
that are ordered by place are merged by place, at one place the right before the left. An index
finds exactly the children with a tag, at their places and in their order, so a merging of the
children with one tag and with another gives the children that have either tag in the order in
which they stand. -/
theorem Merging.answers_in_order :
    (∀ (α : Type) (left right : List (Nat × α)), ∃ entries : List (Entry α),
        IsMerge left right entries ∧
        merge left right = entries.map Entry.value ∧
        ∀ n, ({ left, right } : Merging α).answer n = entries[n]?.map Entry.value) ∧
      ∀ x : Indexed,
        (∀ tag, (∀ place child, (place, child) ∈ x.matching tag ↔
              ∃ e : Element, x.element.children[place]? = some e.toNode ∧ e.tag = tag ∧
                child = e.indexed) ∧
            (x.matching tag).Pairwise (fun a b => a.1 < b.1) ∧
            x.matching tag =
              (x.element.matching tag).map (fun child => (child.1, child.2.indexed)) ∧
            x.child? tag = (x.matching tag).head?.map Prod.snd ∧
            x.child? tag = (x.element.child? tag).map Element.indexed) ∧
          ∀ first second, first ≠ second → ∀ n,
            ({ left := x.matching first, right := x.matching second } : Merging Indexed).answer n =
              (((Node.elements x.element.children).filter fun e =>
                e.tag == first || e.tag == second).map
                Element.indexed)[n]? := by
  refine ⟨fun α left right =>
    ⟨entries left right, isMerge_entries left right, (map_value_entries left right).symm, ?_⟩,
    fun x => ⟨fun tag =>
      ⟨?_, x.matching_pairwise tag, x.matching_eq tag, x.child?_eq_head? tag, x.child?_eq tag⟩, ?_⟩⟩
  · intro n
    rw [answer_start, ← map_value_entries, List.getElem?_map]
  · intro place child
    exact x.mem_matching_iff tag
  · intro first second hne n
    rw [answer_start, x.merge_matching hne]

/-- Two versions and a delete marker between other nodes. -/
def mixedSample : Element :=
  ⟨"Root", [.text "a", .element "Version" [], .comment "b", .element "DeleteMarker" [.text "c"],
    .element "Name" [], .element "Version" [.text "d"]]⟩

/-- Two runs that meet at one place, and the children of two tags among others. -/
theorem Merging.answers_in_order_mixedSample :
    (ByPlace [(0, 'a'), (2, 'b')] ∧ ByPlace [(2, 'c'), (2, 'd')] ∧
        ∃ entries : List (Entry Char), entries.Pairwise Entry.MayPrecede ∧
          ∀ n, ({ left := [(0, 'a'), (2, 'b')],
                  right := [(2, 'c'), (2, 'd')] } : Merging Char).answer n =
            entries[n]?.map Entry.value) ∧
      "Version" ≠ "DeleteMarker" ∧
      ∀ n, ({ left := mixedSample.indexed.matching "Version",
              right := mixedSample.indexed.matching "DeleteMarker" } : Merging Indexed).answer n =
          ([Element.indexed ⟨"Version", []⟩, Element.indexed ⟨"DeleteMarker", [.text "c"]⟩,
            Element.indexed ⟨"Version", [.text "d"]⟩])[n]? := by
  have hleft : ByPlace [(0, 'a'), (2, 'b')] := by decide
  have hright : ByPlace [(2, 'c'), (2, 'd')] := by decide
  have hne : "Version" ≠ "DeleteMarker" := by decide
  obtain ⟨hruns, hchildren⟩ := Merging.answers_in_order
  obtain ⟨entries, hmerge, -, hanswers⟩ := hruns Char [(0, 'a'), (2, 'b')] [(2, 'c'), (2, 'd')]
  exact ⟨⟨hleft, hright, entries, hmerge.ordered hleft hright, hanswers⟩, hne,
    (hchildren mixedSample.indexed).2 "Version" "DeleteMarker" hne⟩

end VersionedBucket.Markup
