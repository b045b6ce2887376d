import VersionedBucket.Page
import VersionedBucket.Proofs.Time.Instant

/-! # Settled pages

Settling a page gives one of which everything holds that holds of the pages that are handed out, and
such a page stays as it is when it is settled.
-/

namespace VersionedBucket

theorem nodup_firstOccurrences (texts : List String) : (firstOccurrences texts).Nodup := by
  induction texts with
  | nil => exact List.nodup_nil
  | cons first rest ih =>
      refine List.nodup_cons.mpr ⟨fun hmem => ?_, ih.filter _⟩
      exact bne_iff_ne.mp (List.mem_filter.mp hmem).2 rfl

theorem firstOccurrences_of_nodup {texts : List String} (hnodup : texts.Nodup) :
    firstOccurrences texts = texts := by
  induction texts with
  | nil => rfl
  | cons first rest ih =>
      obtain ⟨hfirst, hrest⟩ := List.nodup_cons.mp hnodup
      rw [firstOccurrences, ih hrest, List.filter_eq_self.mpr]
      intro s hs
      exact bne_iff_ne.mpr fun heq => hfirst (heq ▸ hs)

theorem nonEmpty_ne (value : Option String) : nonEmpty value ≠ some "" := by
  intro heq
  have hfilled := (Option.filter_eq_some_iff.mp heq).2
  exact Bool.false_ne_true hfilled

theorem mem_of_mem_nonEmpty {value : Option String} {text : String}
    (htext : text ∈ nonEmpty value) :
    text ∈ value :=
  (Option.mem_filter_iff.mp htext).1

theorem nonEmpty_of_ne {value : Option String} (hne : value ≠ some "") :
    nonEmpty value = value := by
  cases value with
  | none => rfl
  | some s =>
      have hempty : s.isEmpty = false := by
        rw [Bool.eq_false_iff]
        exact fun hempty => hne (congrArg some (String.isEmpty_iff.mp hempty))
      simp only [nonEmpty, Option.filter, hempty, Bool.not_false, if_true]

theorem nonEmpty_nonEmpty (value : Option String) : nonEmpty (nonEmpty value) = nonEmpty value := by
  simp [nonEmpty, Option.filter_filter]

theorem nonEmpty_some {text : String} (hne : text ≠ "") : nonEmpty (some text) = some text := by
  simp [nonEmpty, Option.filter_some, hne]

/-- A list stays as it is exactly if all that is in it does. -/
theorem map_eq_self_iff {α : Type} {f : α → α} {values : List α} :
    values.map f = values ↔ ∀ a ∈ values, f a = a :=
  (Eq.congr_right (List.map_id values).symm).trans List.map_inj_left

namespace Version

theorem normal_normalize (v : Version) : v.normalize.Normal where
  etag := nonEmpty_ne _
  storageClass := nonEmpty_ne _
  displayName := by
    intro o ho
    obtain ⟨owner, _, rfl⟩ := Option.map_eq_some_iff.mp ho
    exact nonEmpty_ne _

theorem normalize_of_normal {v : Version} (hnormal : v.Normal) : v.normalize = v := by
  have howner :
      (v.owner.map fun o => { o with displayName := nonEmpty o.displayName }) = v.owner := by
    cases hform : v.owner with
    | none => rfl
    | some o =>
        rw [Option.map_some, nonEmpty_of_ne (hnormal.displayName o hform)]
  rw [normalize, nonEmpty_of_ne hnormal.etag, nonEmpty_of_ne hnormal.storageClass, howner]

end Version

namespace Page

theorem normal_normalize (p : Page) : p.normalize.Normal where
  markers := by
    intro htruncated
    have hnone (marker : Option String) : (if p.isTruncated then marker else none) = none :=
      if_neg (Bool.eq_false_iff.mp htruncated)
    exact ⟨hnone _, hnone _⟩
  rolledUp := by
    intro hdelimiter
    have hnone : (nonEmpty p.delimiter).isSome = false := congrArg Option.isSome hdelimiter
    exact if_neg (Bool.eq_false_iff.mp hnone)
  distinct := by
    show (if (nonEmpty p.delimiter).isSome then firstOccurrences p.commonPrefixes else []).Nodup
    split
    · exact nodup_firstOccurrences _
    · exact List.nodup_nil
  filled := by
    have hnext (marker : Option String) :
        (if p.isTruncated then nonEmpty marker else none) ≠ some "" := by
      split
      · exact nonEmpty_ne marker
      · exact nofun
    simp only [List.forall_mem_cons, List.not_mem_nil, false_implies, implies_true, and_true]
    exact ⟨nonEmpty_ne _, nonEmpty_ne _, nonEmpty_ne _, nonEmpty_ne _, nonEmpty_ne _,
      hnext _, hnext _⟩
  versions := by
    intro v hv
    obtain ⟨w, _, rfl⟩ := List.mem_map.mp hv
    exact w.normal_normalize

theorem normalize_of_normal {p : Page} (hnormal : p.Normal) : p.normalize = p := by
  obtain ⟨hmarkers, hrolledUp, hdistinct, hfilled, hversions⟩ := hnormal
  simp only [List.forall_mem_cons, List.not_mem_nil, false_implies, implies_true,
    and_true] at hfilled
  obtain ⟨hkeyPrefix, hkey, hversionId, hdelimiter, hencoding, hnextKey, hnextVersionId⟩ := hfilled
  have hversions : p.versions.map Version.normalize = p.versions :=
    map_eq_self_iff.mpr fun v hv => Version.normalize_of_normal (hversions v hv)
  have hcommons : (if p.delimiter.isSome then firstOccurrences p.commonPrefixes else []) =
      p.commonPrefixes := by
    cases hform : p.delimiter with
    | none => exact (hrolledUp hform).symm
    | some d => exact firstOccurrences_of_nodup hdistinct
  have hnext {marker : Option String} (hne : marker ≠ some "")
      (hlast : p.isTruncated = false → marker = none) :
      (if p.isTruncated then nonEmpty marker else none) = marker := by
    cases hform : p.isTruncated with
    | false => exact (hlast hform).symm
    | true => exact nonEmpty_of_ne hne
  rw [normalize, nonEmpty_of_ne hdelimiter, hversions, hcommons, nonEmpty_of_ne hkeyPrefix,
    nonEmpty_of_ne hkey, nonEmpty_of_ne hversionId, nonEmpty_of_ne hencoding,
    hnext hnextKey fun hlast => (hmarkers hlast).1,
    hnext hnextVersionId fun hlast => (hmarkers hlast).2]

/-- A settled page of one version, which was written in a leap second within a minute. -/
def withinMinute : Page where
  bucket := "b"
  versions := [{ key := "k", versionId := "v", lastModified := .withinMinute }]

theorem normal_withinMinute : withinMinute.Normal where
  markers := fun _ => ⟨rfl, rfl⟩
  rolledUp := fun _ => rfl
  distinct := List.nodup_nil
  filled := by decide
  versions := List.forall_mem_singleton.mpr ⟨nofun, nofun, nofun⟩

end Page

end VersionedBucket
