import VersionedBucket.Proofs.Query.Canonical
import VersionedBucket.Proofs.Text.Numeral
import VersionedBucket.Request
import Mathlib.Data.List.Nodup

/-! # What a query string says of a request

A request that passes its test is written as the parameters that it sends along and those that it
sets itself, each of these at most once. As long as the two do not share names, two requests have
the same query string exactly if they agree in all that the parameters are made from.
-/

namespace VersionedBucket

open Text

namespace Query

/-- Named values, those that are missing left out. -/
def present (named : List (String × Option String)) : List (String × String) :=
  named.flatMap fun entry => entry.2.toList.map fun value => (entry.1, value)

theorem eq_of_pairs_eq {q q' : Query} (hpairs : q.pairs = q'.pairs) : q = q' :=
  congrArg Query.mk hpairs

theorem pairs_add (q : Query) (name value : String) :
    (q.add name value).pairs = q.pairs ++ present [(name, some value)] := rfl

theorem pairs_add? (q : Query) (name : String) (value : Option String) :
    (q.add? name value).pairs = q.pairs ++ present [(name, value)] := by
  cases value with
  | none => exact (List.append_nil _).symm
  | some value => rfl

theorem present_append (first second : List (String × Option String)) :
    present (first ++ second) = present first ++ present second := List.flatMap_append

theorem mem_names_of_mem_present {named : List (String × Option String)} {pair : String × String}
    (hpair : pair ∈ present named) : pair.1 ∈ named.map Prod.fst := by
  obtain ⟨entry, hentry, hvalue⟩ := List.mem_flatMap.mp hpair
  obtain ⟨_, _, rfl⟩ := List.mem_map.mp hvalue
  exact List.mem_map_of_mem hentry

/-- Where no name is given twice, a name has its own value and no other. -/
theorem values_present {named : List (String × Option String)} (hnodup : (named.map Prod.fst).Nodup)
    {name : String} {value : Option String} (hmem : (name, value) ∈ named) :
    values ⟨present named⟩ name = value.toList := by
  obtain ⟨before, after, rfl⟩ := List.append_of_mem hmem
  have hother {named : List (String × Option String)} (hname : name ∉ named.map Prod.fst) :
      values ⟨present named⟩ name = [] :=
    values_eq_nil fun pair hpair heq => hname (heq ▸ mem_names_of_mem_present hpair)
  rw [List.map_append, List.map_cons, List.nodup_middle, List.nodup_cons, List.mem_append,
    not_or] at hnodup
  rw [← List.singleton_append, present_append, present_append, values_append, values_append,
    hother hnodup.1.1, hother hnodup.1.2]
  cases value with
  | none => rfl
  | some value => simp [present, values]

theorem values_perm {pairs pairs' : List (String × String)} (hperm : pairs.Perm pairs')
    (name : String) :
    (values ⟨pairs⟩ name).Perm (values ⟨pairs'⟩ name) := (hperm.filter _).map _

end Query

namespace Request

/-- The names of the parameters that requests set themselves. -/
def ownNames : List String :=
  ["versions", "delimiter", "max-keys", "prefix", "encoding-type", "key-marker",
    "version-id-marker"]

/-- The parameters that a request sets itself; one without a value is left out. -/
def own (r : Request) : List (String × Option String) :=
  [("versions", some ""), ("delimiter", r.delimiter),
    ("max-keys", some (String.ofList (decimal r.pageSize.toNat))), ("prefix", r.keyPrefix),
    ("encoding-type", r.encoding), ("key-marker", r.keyMarker),
    ("version-id-marker", r.versionIdMarker)]

/-- What a request sends along has none of the names that requests set themselves. -/
def IsForeign (r : Request) : Prop := ∀ pair ∈ r.extra.pairs, pair.1 ∉ ownNames

instance (r : Request) : Decidable r.IsForeign := by unfold IsForeign; infer_instance

/-- Two requests ask for the same of their buckets. -/
structure AsksSame (r r' : Request) : Prop where
  delimiter : r.delimiter = r'.delimiter
  keyPrefix : r.keyPrefix = r'.keyPrefix
  keyMarker : r.keyMarker = r'.keyMarker
  versionIdMarker : r.versionIdMarker = r'.versionIdMarker
  pageSize : r.pageSize = r'.pageSize
  urlEncoding : r.settings.urlEncoding = r'.settings.urlEncoding
  extra : r.extra.pairs.Perm r'.extra.pairs

variable {r r' : Request}

theorem names_own (r : Request) : r.own.map Prod.fst = ownNames := rfl

theorem isSome_encoding (r : Request) : r.encoding.isSome = r.settings.urlEncoding := by
  unfold encoding
  cases r.settings.urlEncoding <;> rfl

/-- A request that passes its test is written as what it sends along and then what
it sets itself. -/
theorem query_of_validate (hvalid : r.validate = .ok ()) :
    r.query = .ok ⟨r.extra.pairs ++ Query.present r.own⟩ := by
  rw [query, hvalid]
  refine congrArg Except.ok (Query.eq_of_pairs_eq ?_)
  simp only [Query.pairs_add, Query.pairs_add?, List.append_assoc, ← Query.present_append]
  rfl

/-- A request is written exactly if it passes its test. -/
theorem exists_query_iff : (∃ q, r.query = .ok q) ↔ r.validate = .ok () := by
  constructor
  · rintro ⟨q, hquery⟩
    exact (map_eq_ok_iff.mp hquery).choose_spec.1
  · exact fun hvalid => ⟨_, query_of_validate hvalid⟩

/-- A name of the request's own has the value that the request sets, or none. -/
theorem values_own (hforeign : r.IsForeign) {name : String} {value : Option String}
    (hmem : (name, value) ∈ r.own) :
    Query.values ⟨r.extra.pairs ++ Query.present r.own⟩ name = value.toList := by
  have hname : name ∈ ownNames := r.names_own ▸ List.mem_map_of_mem hmem
  have hextra : Query.values ⟨r.extra.pairs⟩ name = [] :=
    Query.values_eq_nil fun pair hpair heq => hforeign pair hpair (heq ▸ hname)
  have hnodup : (r.own.map Prod.fst).Nodup := by
    rw [names_own]
    decide
  rw [Query.values_append, hextra, List.nil_append, Query.values_present hnodup hmem]

/-- What is left without the request's own names is what it sends along. -/
theorem filter_foreign (hforeign : r.IsForeign) :
    (r.extra.pairs ++ Query.present r.own).filter (fun pair => pair.1 ∉ ownNames) =
      r.extra.pairs := by
  have hown : (Query.present r.own).filter (fun pair => pair.1 ∉ ownNames) = [] :=
    List.filter_eq_nil_iff.mpr fun pair hpair => by
      simpa using r.names_own ▸ Query.mem_names_of_mem_present hpair
  rw [List.filter_append, hown, List.append_nil]
  exact List.filter_eq_self.mpr fun pair hpair => by simpa using hforeign pair hpair

/-- Where there is at most one value the order does not matter. -/
theorem eq_toList_of_perm {values : List String} {value : Option String}
    (hperm : values.Perm value.toList) :
    values = value.toList := by
  cases value with
  | none => exact List.perm_nil.mp hperm
  | some value => exact List.perm_singleton.mp hperm

/-- The same parameters are set and sent along, each as often, exactly if both requests ask
for the same. -/
theorem parameters_perm_iff (hforeign : r.IsForeign) (hforeign' : r'.IsForeign) :
    (r.extra.pairs ++ Query.present r.own).Perm (r'.extra.pairs ++ Query.present r'.own) ↔
      r.AsksSame r' := by
  constructor
  · intro hperm
    have hsame (name : String) {value value' : Option String} (hmem : (name, value) ∈ r.own)
        (hmem' : (name, value') ∈ r'.own) : value = value' := by
      have hvalues := Query.values_perm hperm name
      rw [values_own hforeign hmem, values_own hforeign' hmem'] at hvalues
      have hhead := congrArg List.head? (eq_toList_of_perm hvalues)
      rwa [Option.head?_toList, Option.head?_toList] at hhead
    have hextra := hperm.filter fun pair => pair.1 ∉ ownNames
    rw [filter_foreign hforeign, filter_foreign hforeign'] at hextra
    have hsize : r.pageSize = r'.pageSize := by
      have hdecimal :
          some (String.ofList (decimal r.pageSize.toNat)) =
            some (String.ofList (decimal r'.pageSize.toNat)) :=
        hsame "max-keys" (by simp [own]) (by simp [own])
      exact UInt16.toNat_inj.mp
        (decimal_injective (String.ofList_injective (Option.some.inj hdecimal)))
    have hencoding : r.encoding = r'.encoding :=
      hsame "encoding-type" (by simp [own]) (by simp [own])
    have hcoding : r.settings.urlEncoding = r'.settings.urlEncoding := by
      rw [← isSome_encoding, hencoding, isSome_encoding]
    exact ⟨hsame "delimiter" (by simp [own]) (by simp [own]),
      hsame "prefix" (by simp [own]) (by simp [own]),
      hsame "key-marker" (by simp [own]) (by simp [own]),
      hsame "version-id-marker" (by simp [own]) (by simp [own]),
      hsize, hcoding, hextra⟩
  · rintro ⟨hdelimiter, hprefix, hkey, hid, hsize, hcoding, hextra⟩
    have hown : r.own = r'.own := by
      simp only [own, encoding, hdelimiter, hprefix, hkey, hid, hsize, hcoding]
    rw [hown]
    exact hextra.append_right _

/-- A request is written exactly if it passes its test. Two that do, and send along nothing under
the names that requests set themselves, have the same query string exactly if they ask for the
same; and each of these names is in the string once if the request gives it a value, and otherwise
not at all. -/
theorem encode_determines (r r' : Request) :
    ((∃ q, r.query = .ok q) ↔ r.validate = .ok ()) ∧
      (r.validate = .ok () → r'.validate = .ok () → r.IsForeign → r'.IsForeign →
        ∃ q q', r.query = .ok q ∧ r'.query = .ok q' ∧ (q.encode = q'.encode ↔ r.AsksSame r') ∧
          ∃ pairs, Query.decode? q.encode = some pairs ∧
            ∀ name value, (name, value) ∈ r.own → Query.values ⟨pairs⟩ name = value.toList) := by
  refine ⟨exists_query_iff, fun hvalid hvalid' hforeign hforeign' =>
    ⟨_, _, query_of_validate hvalid, query_of_validate hvalid', ?_, _, Query.decode?_encode _, ?_⟩⟩
  · rw [Query.encode_eq_iff_perm, parameters_perm_iff hforeign hforeign']
  · intro name value hmem
    have hperm := Query.values_perm (Query.sorted_perm ⟨r.extra.pairs ++ Query.present r.own⟩) name
    rw [values_own hforeign hmem] at hperm
    exact eq_toList_of_perm hperm

/-- A request that starts behind the empty key and sends along two parameters. -/
def emptyKeySample : Request :=
  { bucket := "bucket", keyMarker := some "", maxKeys := some 7,
    extra := ⟨[("x", "1"), ("y", "2")]⟩ }

/-- The same of another bucket: the page size is the default, and the parameters sent along are
in another order. -/
def reorderedSample : Request :=
  { bucket := "other", keyMarker := some "", settings := { defaultMaxKeys := 7 },
    extra := ⟨[("y", "2"), ("x", "1")]⟩ }

/-- To start behind the empty key is not to start at the beginning. -/
theorem encode_determines_emptyKey :
    (emptyKeySample.validate = .ok () ∧ reorderedSample.validate = .ok () ∧
        emptyKeySample.IsForeign ∧
        reorderedSample.IsForeign) ∧
      (∃ q q', emptyKeySample.query = .ok q ∧ reorderedSample.query = .ok q' ∧
        q.encode = q'.encode) ∧
      ∃ q q', emptyKeySample.query = .ok q ∧
        { emptyKeySample with keyMarker := none }.query = .ok q' ∧
        q.encode ≠ q'.encode := by
  have hvalid : emptyKeySample.validate = .ok () := by decide
  have hvalid' : reorderedSample.validate = .ok () := by decide
  have hforeign : emptyKeySample.IsForeign := by decide
  have hforeign' : reorderedSample.IsForeign := by decide
  refine ⟨⟨hvalid, hvalid', hforeign, hforeign'⟩, ?_, ?_⟩
  · obtain ⟨q, q', hquery, hquery', hencode, _⟩ :=
      (encode_determines emptyKeySample reorderedSample).2 hvalid hvalid' hforeign hforeign'
    exact ⟨q, q', hquery, hquery', hencode.mpr ⟨rfl, rfl, rfl, rfl, rfl, rfl, by decide⟩⟩
  · obtain ⟨q, q', hquery, hquery', hencode, _⟩ :=
      (encode_determines emptyKeySample { emptyKeySample with keyMarker := none }).2 hvalid hvalid
        hforeign hforeign
    exact ⟨q, q', hquery, hquery', fun heq => nomatch (hencode.mp heq).keyMarker⟩

end Request

end VersionedBucket
