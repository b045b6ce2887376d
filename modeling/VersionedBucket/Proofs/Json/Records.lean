import VersionedBucket.Json.Record
import VersionedBucket.Proofs.Json.Values

/-! # Records read back from objects

The members of an object fill the fields of a record one after the other, each from the state that
the members before it have left. An object is read back as a record if its members fill the record
and the filled record can be finished.
-/

namespace VersionedBucket.Json.Record

open Text Reader

variable {σ α : Type} {r : Record σ α}

/-- Members of an object, in their order, take a partial record from one state to another. -/
inductive Fills (r : Record σ α) : List (List Char) → σ → σ → Prop where
  | done {s : σ} : Fills r [] s s
  | member {f : Field σ} {name : String} {value : List Char} {more : List (List Char)} {s s' t : σ}
      (hfield : r.fields.find? (·.name == name) = some f) (hset : f.isSet s = false)
      (hread : Reads (f.read s) value s') (hmore : Fills r more s' t) :
      Fills r (Writer.member name value :: more) s t

/-- A member that may be left out fills its field with what there is; if it is missing, the
field stays empty. -/
theorem Fills.optionalMember {β : Type} {f : Field σ} {name : String} {read : Reader (Option β)}
    {write : β → List Char} {value : Option β} {more : List (List Char)} {s t : σ}
    (set : Option (Option β) → σ → σ) (hfield : r.fields.find? (·.name == name) = some f)
    (hset : f.isSet s = false) (hform : f.read s = do return set (some (← read)) s)
    (habsent : set none s = s) (hread : ∀ b, Reads read (write b) (some b))
    (hmore : Fills r more (set (value.map some) s) t) :
    Fills r (Writer.optionalMember name write value ++ more) s t := by
  cases value with
  | none =>
      rw [Option.map_none, habsent] at hmore
      exact hmore
  | some b =>
      exact .member hfield hset (hform ▸ (hread b).map fun value => set (some value) s) hmore

/-- The end of an object, in front of its first member or behind one. -/
theorem hasMember_brace (isFirst : Bool) (rest : List UInt8) :
    hasMember isFirst (byte '}' :: rest) = .ok (false, byte '}' :: rest) := by
  rw [hasMember, bind_of_ok (peekValue?_cons (by decide) _)]
  rfl

/-- The bytes of a member, from its opening quote. -/
theorem encodeChars_member (name : String) (value : List Char) (rest : List UInt8) :
    encodeChars (Writer.member name value) ++ rest =
      byte '"' :: (encodeChars (name.toList.flatMap Writer.escape) ++
      byte '"' :: byte ':' :: (encodeChars value ++ rest)) := by
  rw [Writer.member, Writer.text, encodeChars_append, List.append_assoc,
    encodeChars_enclosed (by decide) (by decide), encodeChars_cons_of_ascii (by decide),
    List.cons_append]

/-- The next member of an object, without the comma in front of it. -/
theorem hasMember_joined (isFirst : Bool) (name : String) (value : List Char)
    (more : List (List Char)) (rest : List UInt8) :
    hasMember isFirst
      (encodeChars (Writer.joined isFirst (Writer.member name value :: more)) ++ rest) =
      .ok (true, encodeChars (Writer.member name value) ++
        (encodeChars (Writer.continued more) ++ rest)) := by
  have hpeek (bs : List UInt8) :
      peekValue? (byte '"' :: bs) = .ok (some (byte '"'), byte '"' :: bs) :=
    peekValue?_cons (by decide) bs
  rw [encodeChars_member]
  cases isFirst with
  | true =>
      rw [Writer.encodeChars_joined_true, encodeChars_member, hasMember, bind_of_ok (hpeek _)]
      rfl
  | false =>
      rw [Writer.encodeChars_joined_false, encodeChars_member, hasMember,
        bind_of_ok (peekValue?_cons (by decide) _)]
      simp only [if_neg (show byte ',' ≠ byte '}' by decide), if_true, Bool.false_eq_true, if_false]
      rw [bind_of_ok (advance_cons ..), bind_of_ok (hpeek _)]
      rfl

theorem colon_cons (rest : List UInt8) : colon (byte ':' :: rest) = .ok ((), rest) := by
  rw [colon, bind_of_ok (peekValue?_cons (by decide) _)]
  rfl

/-- Members that fill a record are read up to the end of their object. -/
theorem members_joined {written : List (List Char)} {s t : σ} (hfills : Fills r written s t)
    {steps : Nat} (hsteps : written.length < steps) (isFirst : Bool) (rest : List UInt8) :
    r.members steps isFirst s (encodeChars (Writer.joined isFirst written) ++ byte '}' :: rest) =
      .ok (t, byte '}' :: rest) := by
  induction hfills generalizing steps isFirst with
  | done =>
      obtain ⟨steps, rfl⟩ := Nat.exists_eq_succ_of_ne_zero (Nat.ne_of_gt hsteps)
      rw [Writer.joined_nil, members]
      exact bind_of_ok (hasMember_brace isFirst rest)
  | @member f name value more s s' t hfield hset hread _ ih =>
      obtain ⟨steps, rfl⟩ := Nat.exists_eq_succ_of_ne_zero (Nat.ne_zero_of_lt hsteps)
      have hcloses := closes_continued (closes_brace rest) more
      rw [members, bind_of_ok (hasMember_joined isFirst name value more _), encodeChars_member]
      refine (bind_of_ok (advance_cons ..)).trans ?_
      refine (bind_of_ok (stringBody_escapes name _)).trans ?_
      simp only [hfield, hset, Bool.false_eq_true, if_false]
      refine (bind_of_ok (colon_cons _)).trans ?_
      refine (bind_of_ok (hread _ hcloses)).trans ?_
      exact ih (Nat.lt_of_succ_lt_succ hsteps) false

/-- An object is read as the record that its members fill. -/
theorem reads_object {written : List (List Char)} {t : σ} {a : α}
    (hfills : Fills r written r.start t) (hfinish : r.finish t = .ok a) :
    Reads r.read (Writer.object written) a := by
  intro rest _
  have hmembers := members_joined hfills (length_lt_joined _ (byte '}') rest) true rest
  have hfinished (bs : List UInt8) : r.finished t bs = .ok (a, bs) := by
    rw [finished, hfinish]
    rfl
  rw [Writer.object, encodeChars_enclosed (by decide) (by decide), read,
    bind_of_ok (peekValue?_cons (by decide) _)]
  refine (bind_of_ok (advance_cons ..)).trans ?_
  refine (bind_of_ok_rounds (r.members · true r.start) hmembers).trans ?_
  refine (bind_of_ok (hfinished _)).trans ?_
  rfl

theorem opens_object (written : List (List Char)) : Opens (Writer.object written) :=
  ⟨'{', _, rfl, Or.inr rfl⟩

/-! ## What holds of every record that is read -/

section Ensures

variable {I : σ → Prop} (hfields : ∀ f ∈ r.fields, ∀ s, I s → Ensures (f.read s) I)

include hfields

theorem ensures_items {fields : List (Field σ)} (hsub : fields ⊆ r.fields) (index : Nat) {s : σ}
    (hs : I s) : Ensures (r.items index s fields) I := by
  induction fields generalizing index s with
  | nil => exact .pure hs
  | cons f fields ih =>
      obtain ⟨hf, hsub⟩ := List.cons_subset.mp hsub
      apply Ensures.after
      intro goesOn
      cases goesOn with
      | true => exact .bind (hfields f hf s hs) fun s' hs' => ih hsub (index + 1) hs'
      | false =>
          simp only [Bool.false_eq_true, if_false]
          split
          · exact ensures_fail
          · exact ih hsub (index + 1) hs

theorem ensures_members (steps : Nat) (isFirst : Bool) {s : σ} (hs : I s) :
    Ensures (r.members steps isFirst s) I := by
  induction steps generalizing isFirst s with
  | zero => exact ensures_fail
  | succ steps ih =>
      apply Ensures.after
      intro goesOn
      cases goesOn with
      | false => exact .pure hs
      | true =>
          refine .after fun _ => .after fun name => ?_
          split
          next f hfound =>
            have hf : f ∈ r.fields := List.mem_of_find?_eq_some hfound
            split
            · exact ensures_fail
            · exact .after fun _ => .bind (hfields f hf s hs) fun s' hs' => ih false hs'
          next => exact .after fun _ => .after fun _ => ih false hs

/-- What holds at the start and is kept by every field that is read is there when the record is
finished, in whichever of the two forms it is written. -/
theorem ensures_read {P : α → Prop} (hstart : I r.start)
    (hfinish : ∀ s a, I s → r.finish s = .ok a → P a) : Ensures r.read P := by
  have hfinished (s : σ) (hs : I s) : Ensures (r.finished s) P := by
    unfold finished
    split
    next a ha => exact .pure (hfinish s a hs ha)
    next => exact ensures_fail
  unfold read
  apply Ensures.after
  intro next
  split
  · exact ensures_fail
  · split
    · refine .after fun _ =>
        .bind (ensures_items hfields (List.Subset.refl _) 0 hstart) fun s hs => ?_
      exact .bind (hfinished s hs) fun a ha => .after fun _ => .pure ha
    · split
      · refine .after fun _ => .bind (P := I) ?_ fun s hs => ?_
        · exact fun bs => ensures_members hfields (bs.length + 1) true hstart bs
        · exact .bind (hfinished s hs) fun a ha => .after fun _ => .pure ha
      · exact .after fun _ => ensures_fail

end Ensures

end VersionedBucket.Json.Record
