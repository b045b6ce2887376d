import VersionedBucket.Proofs.Percent
import VersionedBucket.Proofs.Text.ByteOrder
import VersionedBucket.Query
import Mathlib.Data.List.Perm.Basic

/-! # The canonical form of a query

A query string is read by taking it apart at the ampersands, each part at its equals sign, and
decoding both sides. What is read are the parameters in query order, so the query string says which
parameters there are and how often, and nothing of the order in which they were added or are kept.
-/

namespace VersionedBucket.Query

open Text

/-! ## Reading query strings -/

/-- Reads one part of a query string: a name and a value with the only equals sign between them. -/
def decodePair? (part : List Char) : Option (String × String) :=
  match part.splitOn '=' with
  | [name, value] => do
    let name ← (Percent.decode (String.ofList name)).toOption
    let value ← (Percent.decode (String.ofList value)).toOption
    pure (name, value)
  | _ => none

/-- The parts of a query string; the empty one has none. -/
def parts (s : String) : List (List Char) := if s = "" then [] else s.toList.splitOn '&'

/-- Reads a query string. -/
def decode? (s : String) : Option (List (String × String)) := (parts s).mapM decodePair?

/-- No percent-coded text has a separator in it. -/
theorem not_mem_encode {s : String} {separator : Char} (hpercent : separator ≠ '%')
    (hreserved : Percent.isUnreserved (UInt8.ofNat separator.toNat) = false) :
    separator ∉ (Percent.encode s).toList := by
  intro hmem
  rcases Percent.unreserved_of_mem_encode hmem with heq | hunreserved
  · exact hpercent heq
  · exact Bool.false_ne_true (hreserved.symm.trans hunreserved)

theorem toList_encodePair (pair : String × String) : (encodePair pair).toList =
    (Percent.encode pair.1).toList ++ '=' :: (Percent.encode pair.2).toList := by
  rw [encodePair, String.toList_append, String.toList_append, List.append_assoc]
  rfl

theorem decodePair?_encodePair (pair : String × String) :
    decodePair? (encodePair pair).toList = some pair := by
  have hsides : (encodePair pair).toList.splitOn '=' =
      [(Percent.encode pair.1).toList, (Percent.encode pair.2).toList] := by
    rw [toList_encodePair, List.splitOn_append_cons_self,
      List.splitOn_eq_singleton (not_mem_encode (by decide) (by decide)),
      List.splitOn_eq_singleton (not_mem_encode (by decide) (by decide)), List.singleton_append]
  simp only [decodePair?, hsides, String.ofList_toList, Percent.decode_encode]
  rfl

theorem ampersand_not_mem_encodePair (pair : String × String) : '&' ∉ (encodePair pair).toList := by
  rw [toList_encodePair, List.mem_append, List.mem_cons, not_or, not_or]
  exact ⟨not_mem_encode (by decide) (by decide), by decide, not_mem_encode (by decide) (by decide)⟩

/-- A parameter is never written as nothing: even without name and value there is
the equals sign. -/
theorem encodePair_ne_empty (pair : String × String) : encodePair pair ≠ "" := by
  intro hempty
  have hnil := toList_encodePair pair
  rw [hempty] at hnil
  exact List.append_ne_nil_of_right_ne_nil _ (List.cons_ne_nil _ _) hnil.symm

/-- Behind a parameter the others follow with an ampersand each. -/
theorem foldl_write {query : String} (hne : query ≠ "") (pairs : List (String × String)) :
    pairs.foldl write query = "&".intercalate (query :: pairs.map encodePair) := by
  induction pairs generalizing query with
  | nil => exact String.intercalate_singleton.symm
  | cons pair pairs ih =>
      have hwrite : write query pair = query ++ "&" ++ encodePair pair := by
        rw [write, if_neg (mt String.isEmpty_iff.mp hne)]
      have hwritten : query ++ "&" ++ encodePair pair ≠ "" := by simp [hne]
      rw [List.foldl_cons, hwrite, ih hwritten, String.intercalate_cons_append, List.map_cons,
        String.intercalate_cons_cons]

/-- What the loop over the parameters writes: they stand in query order with
ampersands between them. -/
theorem encode_eq_intercalate (q : Query) :
    q.encode = "&".intercalate (q.sorted.map encodePair) := by
  rw [encode]
  cases q.sorted with
  | nil => rfl
  | cons pair pairs =>
      have hwrite : write "" pair = encodePair pair := String.empty_append
      rw [List.foldl_cons, hwrite, foldl_write (encodePair_ne_empty pair), List.map_cons]

theorem parts_intercalate (pairs : List (String × String)) :
    parts ("&".intercalate (pairs.map encodePair)) =
      pairs.map fun pair => (encodePair pair).toList := by
  have hlist : ("&".intercalate (pairs.map encodePair)).toList =
      ['&'].intercalate (pairs.map fun pair => (encodePair pair).toList) := by
    rw [String.toList_intercalate, List.map_map]
    rfl
  cases pairs with
  | nil => rfl
  | cons pair pairs =>
      have hsplit : ("&".intercalate ((pair :: pairs).map encodePair)).toList.splitOn '&' =
          (pair :: pairs).map fun pair => (encodePair pair).toList := by
        rw [hlist]
        refine List.splitOn_intercalate '&' ?_ (List.cons_ne_nil _ _)
        exact List.forall_mem_map.mpr fun pair _ => ampersand_not_mem_encodePair pair
      have hne : "&".intercalate ((pair :: pairs).map encodePair) ≠ "" := by
        intro hempty
        rw [hempty] at hsplit
        have hnil : "".toList = (encodePair pair).toList := (List.cons.inj hsplit).1
        exact encodePair_ne_empty pair (String.toList_inj.mp hnil.symm)
      rw [parts, if_neg hne, hsplit]

/-- What is read of a query string are the parameters in query order. -/
theorem decode?_encode (q : Query) : decode? q.encode = some q.sorted := by
  rw [decode?, encode_eq_intercalate, parts_intercalate, List.mapM_map]
  have hread : (decodePair? ∘ fun pair => (encodePair pair).toList) =
      fun pair => pure (id pair) := by
    funext pair
    rw [Function.comp_apply, decodePair?_encodePair]
    rfl
  rw [hread, List.mapM_pure, List.map_id]
  rfl

/-! ## Values under names -/

@[simp] theorem values_append (first second : List (String × String)) (name : String) :
    values ⟨first ++ second⟩ name = values ⟨first⟩ name ++ values ⟨second⟩ name := by
  simp [values]

/-- A parameter is there as often as its value is under its name. -/
theorem count_values (q : Query) (name value : String) :
    (q.values name).count value = q.pairs.count (name, value) := by
  obtain ⟨pairs⟩ := q
  induction pairs with
  | nil => rfl
  | cons pair pairs ih =>
      rw [← List.singleton_append, values_append, List.count_append, ih, List.count_append]
      congr 1
      by_cases hname : pair.1 = name
      · simp [values, hname, List.count_singleton, Prod.ext_iff]
      · simp [values, hname, Prod.ext_iff]

theorem perm_of_values_eq {q q' : Query} (hvalues : ∀ name, q.values name = q'.values name) :
    q.pairs.Perm q'.pairs := by
  rw [List.perm_iff_count]
  rintro ⟨name, value⟩
  rw [← count_values, ← count_values, hvalues]

theorem first?_eq_head? (q : Query) (name : String) : q.first? name = (q.values name).head? := by
  rw [first?, values, List.head?_map, List.head?_filter]

theorem values_eq_nil {pairs : List (String × String)} {name : String}
    (hother : ∀ pair ∈ pairs, pair.1 ≠ name) :
    values ⟨pairs⟩ name = [] := by
  rw [values, List.map_eq_nil_iff, List.filter_eq_nil_iff]
  exact fun pair hpair => by simpa using hother pair hpair

/-! ## Parameters by name -/

namespace Groups

/-- All parameters, name by name. -/
def pairs (groups : Groups) : List (String × String) :=
  groups.flatMap fun (name, values) => values.map (name, ·)

theorem pairs_extend (groups : Groups) (name : String) (more : List String) :
    (groups.extend name more).pairs.Perm (groups.pairs ++ more.map (name, ·)) := by
  induction groups with
  | nil => simp [extend, pairs]
  | cons entry rest ih =>
      obtain ⟨n, values⟩ := entry
      simp only [extend]
      split_ifs with heq hbefore
      · subst heq
        simp only [pairs, List.flatMap_cons, List.map_append, List.append_assoc]
        exact List.perm_append_comm.append_left _
      · exact List.perm_append_comm
      · simp only [pairs, List.flatMap_cons, List.append_assoc]
        exact ih.append_left _

theorem mem_extend {groups : Groups} {name : String} {more : List String}
    {entry : String × List String} (hentry : entry ∈ groups.extend name more) :
    entry.1 = name ∨ entry ∈ groups := by
  induction groups with
  | nil => exact Or.inl (by simp_all [extend])
  | cons head rest ih =>
      simp only [extend] at hentry
      split_ifs at hentry with heq hbefore
      · rcases List.mem_cons.mp hentry with rfl | hrest
        · exact Or.inl heq
        · exact Or.inr (List.mem_cons_of_mem _ hrest)
      · rcases List.mem_cons.mp hentry with rfl | hrest
        · exact Or.inl rfl
        · exact Or.inr hrest
      · rcases List.mem_cons.mp hentry with rfl | hrest
        · exact Or.inr (List.mem_cons_self ..)
        · exact (ih hrest).imp_right (List.mem_cons_of_mem _)

/-- Names stay in order, each once. -/
theorem names_extend {groups : Groups} (hgroups : groups.Pairwise (·.1 < ·.1)) (name : String)
    (more : List String) : (groups.extend name more).Pairwise (·.1 < ·.1) := by
  induction groups with
  | nil => exact List.pairwise_singleton _ _
  | cons head rest ih =>
      obtain ⟨hhead, hrest⟩ := List.pairwise_cons.mp hgroups
      simp only [extend]
      split_ifs with heq hbefore
      · exact List.pairwise_cons.mpr ⟨hhead, hrest⟩
      · have hlt : name < head.1 := before_iff_lt.mp hbefore
        refine List.pairwise_cons.mpr ⟨fun entry hentry => ?_, hgroups⟩
        rcases List.mem_cons.mp hentry with rfl | hmem
        · exact hlt
        · exact hlt.trans (hhead entry hmem)
      · have hlt : head.1 < name := lt_of_le_of_ne (not_before_iff_le.mp hbefore) heq
        refine List.pairwise_cons.mpr ⟨fun entry hentry => ?_, ih hrest⟩
        rcases mem_extend hentry with hname | hmem
        · exact hname ▸ hlt
        · exact hhead entry hmem

end Groups

theorem nodup_eraseDups (names : List String) : names.eraseDups.Nodup := by
  match names with
  | [] => exact List.nodup_nil
  | name :: names =>
      rw [List.eraseDups_cons, List.nodup_cons]
      exact ⟨by simp, nodup_eraseDups _⟩
termination_by names.length
decreasing_by exact Nat.lt_succ_of_le (List.length_filter_le _ _)

/-- Going through names takes the values of each up once. -/
theorem values_flatMap (q : Query) {names : List String} (hnodup : names.Nodup) (name : String) :
    values ⟨names.flatMap fun n => (q.values n).map (n, ·)⟩ name =
      if name ∈ names then q.values name else [] := by
  induction names with
  | nil => rfl
  | cons n names ih =>
      obtain ⟨hnot, hnodup⟩ := List.nodup_cons.mp hnodup
      rw [List.flatMap_cons, values_append, ih hnodup]
      by_cases heq : n = name
      · subst heq
        simp [values, hnot, List.filter_map, Function.comp_def]
      · simp [values, heq, Ne.symm heq, List.filter_map, Function.comp_def]

theorem foldl_extend (q : Query) (names : List String) (groups : Groups) :
    (names.foldl (fun groups name => groups.extend name (q.values name)) groups).pairs.Perm
      (groups.pairs ++ names.flatMap fun name => (q.values name).map (name, ·)) := by
  induction names generalizing groups with
  | nil => simp
  | cons name names ih =>
      rw [List.foldl_cons, List.flatMap_cons, ← List.append_assoc]
      exact (ih _).trans ((groups.pairs_extend name _).append_right _)

theorem pairs_grouped (q : Query) : q.grouped.pairs.Perm q.pairs := by
  refine (foldl_extend q q.names []).trans (perm_of_values_eq fun name => ?_)
  refine (values_flatMap q (nodup_eraseDups _) name).trans (ite_eq_left_iff.mpr fun hnot => ?_)
  have hother : ∀ pair ∈ q.pairs, pair.1 ≠ name := fun pair hpair heq =>
    hnot (List.mem_eraseDups.mpr (heq ▸ List.mem_map_of_mem hpair))
  exact (values_eq_nil hother).symm

theorem names_grouped (q : Query) : (q.grouped.map Prod.fst).Pairwise (· < ·) := by
  rw [List.pairwise_map, grouped]
  exact List.foldlRecOn q.names _ List.Pairwise.nil fun _ hgroups name _ =>
    Groups.names_extend hgroups name _

/-! ## The order of parameters -/

/-- By name, and by value under one name, both by their bytes. -/
def NotAfter (a b : String × String) : Prop := Before a.1 b.1 ∨ a.1 = b.1 ∧ ¬ Before b.2 a.2

theorem notAfter_iff {a b : String × String} :
    NotAfter a b ↔ a.1 < b.1 ∨ a.1 = b.1 ∧ a.2 ≤ b.2 := by
  rw [NotAfter, before_iff_lt, not_before_iff_le]

theorem NotAfter.antisymm {a b : String × String} (hab : NotAfter a b) (hba : NotAfter b a) :
    a = b := by
  rw [notAfter_iff] at *
  rcases hab with hlt | ⟨heq, hle⟩
  · rcases hba with hlt' | ⟨heq', _⟩
    · exact absurd hlt' hlt.asymm
    · exact absurd heq' hlt.ne'
  · rcases hba with hlt' | ⟨_, hle'⟩
    · exact absurd heq hlt'.ne'
    · exact Prod.ext heq (le_antisymm hle hle')

theorem sortValues_perm (values : List String) : (sortValues values).Perm values :=
  List.mergeSort_perm _ _

theorem sortValues_pairwise (values : List String) : (sortValues values).Pairwise (· ≤ ·) := by
  have hle {a b : String} : (!decide (Before b a)) = true ↔ a ≤ b := by
    rw [Bool.not_eq_true', decide_eq_false_iff_not, not_before_iff_le]
  have hsorted := @List.pairwise_mergeSort _ (fun a b => !decide (Before b a))
    (fun a b c hab hbc => hle.mpr ((hle.mp hab).trans (hle.mp hbc)))
    (fun a b => by
      rw [Bool.or_eq_true, hle, hle]
      exact le_total a b) values
  exact hsorted.imp hle.mp

theorem sorted_perm (q : Query) : q.sorted.Perm q.pairs :=
  (List.Perm.flatMap_left _ fun entry _ => (sortValues_perm entry.2).map _).trans q.pairs_grouped

theorem sorted_pairwise (q : Query) : q.sorted.Pairwise NotAfter := by
  refine List.pairwise_flatMap.mpr ⟨fun entry _ => List.pairwise_map.mpr ?_, ?_⟩
  · refine (sortValues_pairwise entry.2).imp (S := fun a b => NotAfter (entry.1, a) (entry.1, b)) ?_
    exact fun hle => notAfter_iff.mpr (Or.inr ⟨rfl, hle⟩)
  · refine (List.pairwise_map.mp q.names_grouped).imp fun hlt x hx y hy => ?_
    obtain ⟨_, _, rfl⟩ := List.mem_map.mp hx
    obtain ⟨_, _, rfl⟩ := List.mem_map.mp hy
    exact notAfter_iff.mpr (Or.inl hlt)

/-- Queries with the same parameters are written alike, and no others are. -/
theorem encode_eq_iff_perm {q q' : Query} : q.encode = q'.encode ↔ q.pairs.Perm q'.pairs := by
  constructor
  · intro hencode
    have hsorted : q.sorted = q'.sorted := by
      have hread := q.decode?_encode
      rw [hencode, q'.decode?_encode] at hread
      exact (Option.some.inj hread).symm
    exact q.sorted_perm.symm.trans (hsorted ▸ q'.sorted_perm)
  · intro hperm
    have hsorted : q.sorted = q'.sorted :=
      List.Perm.eq_of_pairwise (fun _ _ _ _ => NotAfter.antisymm) q.sorted_pairwise
        q'.sorted_pairwise
        ((q.sorted_perm.trans hperm).trans q'.sorted_perm.symm)
    rw [encode, encode, hsorted]

/-! ## Adding up parameters -/

/-- A query that comes from adding these parameters, oldest first. Its names may be kept in any
order, so that what is merged into it is taken up in any order of names; only the values of each
name stay in theirs. -/
inductive Assembled : Query → List (String × String) → Prop where
  | empty : Assembled {} []
  | add {q : Query} {added : List (String × String)} (hq : Assembled q added)
      (name value : String) :
      Assembled (q.add name value) (added ++ [(name, value)])
  | add? {q : Query} {added : List (String × String)} (hq : Assembled q added) (name : String)
      (value : Option String) :
        Assembled (q.add? name value) (added ++ value.toList.map fun value => (name, value))
  | merge {q other : Query} {added others : List (String × String)} (hq : Assembled q added)
      (hother : Assembled other others) : Assembled (q.merge other) (added ++ others)
  | keep {q kept : Query} {added : List (String × String)} (hq : Assembled q added)
      (hkept : ∀ name, kept.values name = q.values name) : Assembled kept added

namespace Assembled

variable {q : Query} {added : List (String × String)}

/-- Each name has the values that were added for it, in the order of adding. -/
theorem values_eq (hq : Assembled q added) (name : String) :
    q.values name = values ⟨added⟩ name := by
  induction hq with
  | empty => rfl
  | add _ _ _ ih => rw [Query.add, values_append, values_append, ← ih]
  | add? _ _ value ih =>
      cases value with
      | none => rw [Option.toList_none, List.map_nil, List.append_nil, ← ih, Query.add?]
      | some value =>
          rw [Option.toList_some, List.map_singleton, values_append, ← ih, Query.add?, Query.add,
            values_append]
  | merge _ _ ih ihOther => rw [Query.merge, values_append, values_append, ih, ihOther]
  | keep _ hkept ih => rw [hkept, ih]

theorem perm (hq : Assembled q added) : q.pairs.Perm added := perm_of_values_eq hq.values_eq

theorem first?_eq_some_iff (hq : Assembled q added) {name value : String} :
    q.first? name = some value ↔
    ∃ before after, added = before ++ (name, value) :: after ∧ ∀ pair ∈ before, pair.1 ≠ name := by
  rw [first?_eq_head?, hq.values_eq, ← first?_eq_head?, first?, Option.map_eq_some_iff]
  constructor
  · rintro ⟨⟨_, _⟩, hfind, rfl⟩
    obtain ⟨hname, before, after, hadded, hbefore⟩ := List.find?_eq_some_iff_append.mp hfind
    cases beq_iff_eq.mp hname
    exact ⟨before, after, hadded, fun pair hpair => by simpa using hbefore pair hpair⟩
  · rintro ⟨before, after, hadded, hbefore⟩
    exact ⟨(name, value), List.find?_eq_some_iff_append.mpr
      ⟨beq_self_eq_true name, before, after, hadded,
        fun pair hpair => by simpa using hbefore pair hpair⟩, rfl⟩

/-- The query string is read as exactly the parameters that were added, in query order. It is the
same for two queries exactly if the same parameters were added to both, each as often. A name alone
stands for the value first added. -/
theorem encode_canonical (hq : Assembled q added) :
    (∃ pairs, decode? q.encode = some pairs ∧ pairs.Perm added ∧ pairs.Pairwise NotAfter) ∧
      (∀ q' added', Assembled q' added' → (q.encode = q'.encode ↔ added.Perm added')) ∧
      ∀ name value, q.first? name = some value ↔
        ∃ before after, added = before ++ (name, value) :: after ∧ ∀ pair ∈ before,
          pair.1 ≠ name := by
  refine ⟨⟨q.sorted, q.decode?_encode, q.sorted_perm.trans hq.perm, q.sorted_pairwise⟩,
    fun q' added' hq' => ?_,
    fun name value => hq.first?_eq_some_iff⟩
  rw [encode_eq_iff_perm]
  constructor
  · exact fun hperm => hq.perm.symm.trans (hperm.trans hq'.perm)
  · exact fun hperm => hq.perm.trans (hperm.trans hq'.perm.symm)

/-- Parameters whose names and values are separators or nothing, two of them from a query that kept
its names in another order than they were added in. -/
def separators : Query :=
  ((({} : Query).add "" "").add? "=" (some "&")).merge ⟨[("é", "%26"), ("=", "")]⟩

theorem encode_canonical_separators :
    Assembled separators [("", ""), ("=", "&"), ("=", ""), ("é", "%26")] ∧
      (∃ pairs, decode? separators.encode = some pairs ∧
        pairs.Perm [("", ""), ("=", "&"), ("=", ""), ("é", "%26")] ∧ pairs.Pairwise NotAfter) ∧
      separators.encode = Query.encode ⟨[("é", "%26"), ("=", ""), ("=", "&"), ("", "")]⟩ ∧
      separators.first? "=" = some "&" := by
  have hother : Assembled ⟨[("é", "%26"), ("=", "")]⟩ [("=", ""), ("é", "%26")] := by
    refine .keep ((Assembled.empty.add "=" "").add "é" "%26") fun name => ?_
    by_cases hequals : name = "="
    · subst hequals
      decide
    · simp [values, Query.add, List.filter_cons, Ne.symm hequals]
  have hseparators : Assembled separators [("", ""), ("=", "&"), ("=", ""), ("é", "%26")] :=
    ((Assembled.empty.add "" "").add? "=" (some "&")).merge hother
  have hreversed : Assembled ⟨[("é", "%26"), ("=", ""), ("=", "&"), ("", "")]⟩
      [("é", "%26"), ("=", ""), ("=", "&"), ("", "")] :=
    (((Assembled.empty.add "é" "%26").add "=" "").add "=" "&").add "" ""
  obtain ⟨hread, hencode, hfirst⟩ := encode_canonical hseparators
  exact ⟨hseparators, hread, (hencode _ _ hreversed).mpr (by decide),
    (hfirst "=" "&").mpr ⟨[("", "")], [("=", ""), ("é", "%26")], rfl, by decide⟩⟩

end Assembled

end VersionedBucket.Query
