import VersionedBucket.Text.Utf8

/-! # Reading UTF-8 back

Reading undoes writing: the bytes of characters are read as these characters, whatever follows them.
The four written forms are told apart by their first bytes.
-/

namespace VersionedBucket.Text.Utf8

/-! ## The four forms -/

variable (index : Nat) {a b c d : UInt8} (rest : List UInt8)

theorem decodeFrom_one (ha : a < 0x80) : decodeFrom index (a :: rest) =
    (decodeFrom (index + 1) rest).map (Char.ofNat a.toNat :: ·) := by
  rw [decodeFrom.eq_def]
  simp only [if_pos ha]

theorem decodeFrom_two (ha : ¬ a < 0x80) (hform : (0xC2 ≤ a && a ≤ 0xDF) = true)
    (hb : isTail b = true) :
    decodeFrom index (a :: b :: rest) =
      (decodeFrom (index + 2) rest).map (Char.ofNat (a.toNat % 32 * 64 + payload b) :: ·) := by
  rw [decodeFrom.eq_def]
  simp only [if_neg ha, hform, hb, if_true]

theorem decodeFrom_three (ha : ¬ a < 0x80) (hform : (0xC2 ≤ a && a ≤ 0xDF) = false)
    (hform' : (0xE0 ≤ a && a ≤ 0xEF) = true) (hb : secondOfThree a b = true)
    (hc : isTail c = true) :
    decodeFrom index (a :: b :: c :: rest) = (decodeFrom (index + 3) rest).map
      (Char.ofNat ((a.toNat % 16 * 64 + payload b) * 64 + payload c) :: ·) := by
  rw [decodeFrom.eq_def]
  simp only [if_neg ha, hform, hform', hb, hc, if_true, Bool.false_eq_true, if_false]

theorem decodeFrom_four (ha : ¬ a < 0x80) (hform : (0xC2 ≤ a && a ≤ 0xDF) = false)
    (hform' : (0xE0 ≤ a && a ≤ 0xEF) = false) (hform'' : (0xF0 ≤ a && a ≤ 0xF4) = true)
    (hb : secondOfFour a b = true) (hc : isTail c = true) (hd : isTail d = true) :
    decodeFrom index (a :: b :: c :: d :: rest) = (decodeFrom (index + 4) rest).map
      (Char.ofNat (((a.toNat % 8 * 64 + payload b) * 64 + payload c) * 64 + payload d) :: ·) := by
  rw [decodeFrom.eq_def]
  simp only [if_neg ha, hform, hform', hform'', hb, hc, hd, if_true, Bool.false_eq_true, if_false]

/-! ## Written bytes -/

theorem toNat_ofNat_of_lt {n : Nat} (hlt : n < 256) : (UInt8.ofNat n).toNat = n := by
  rw [UInt8.toNat_ofNat', Nat.mod_eq_of_lt hlt]

theorem ofNat_le_iff {n : Nat} (hlt : n < 256) (m : UInt8) : UInt8.ofNat n ≤ m ↔ n ≤ m.toNat := by
  rw [UInt8.le_iff_toNat_le, toNat_ofNat_of_lt hlt]

theorem le_ofNat_iff {n : Nat} (hlt : n < 256) (m : UInt8) : m ≤ UInt8.ofNat n ↔ m.toNat ≤ n := by
  rw [UInt8.le_iff_toNat_le, toNat_ofNat_of_lt hlt]

theorem ofNat_lt_iff {n : Nat} (hlt : n < 256) (m : UInt8) : UInt8.ofNat n < m ↔ n < m.toNat := by
  rw [UInt8.lt_iff_toNat_lt, toNat_ofNat_of_lt hlt]

theorem ofNat_eq_iff {n : Nat} (hlt : n < 256) (m : UInt8) : UInt8.ofNat n = m ↔ n = m.toNat := by
  rw [← UInt8.toNat_inj, toNat_ofNat_of_lt hlt]

theorem isTail_ofNat (n : Nat) : isTail (UInt8.ofNat (n % 64 + 0x80)) = true := by
  simp only [isTail, le_ofNat_iff (show n % 64 + 0x80 < 256 by omega),
    ofNat_le_iff (show n % 64 + 0x80 < 256 by omega), Bool.and_eq_true, decide_eq_true_eq,
    UInt8.reduceToNat]
  omega

theorem payload_ofNat (n : Nat) : payload (UInt8.ofNat (n % 64 + 0x80)) = n % 64 := by
  rw [payload, toNat_ofNat_of_lt (by omega)]
  omega

/-- The second byte of three is in range: the number is neither too small for the form
nor a surrogate. -/
theorem secondOfThree_ofNat {v : Nat} (hlow : 0x800 ≤ v) (hvalid : v < 0xD800 ∨ 0xDFFF < v)
    (hhigh : v < 0x10000) :
    secondOfThree (UInt8.ofNat (v / 4096 % 16 + 0xe0))
      (UInt8.ofNat (v / 64 % 64 + 0x80)) = true := by
  have ha : v / 4096 % 16 + 0xe0 < 256 := by omega
  have hb : v / 64 % 64 + 0x80 < 256 := by omega
  simp only [secondOfThree, beq_iff_eq, ofNat_eq_iff ha, le_ofNat_iff hb, ofNat_le_iff hb,
    UInt8.reduceToNat, isTail_ofNat]
  split
  · simp only [Bool.and_eq_true, decide_eq_true_eq]; omega
  · split
    · simp only [Bool.and_eq_true, decide_eq_true_eq]; omega
    · rfl

/-- The second byte of four is in range: the number is neither too small for the form
nor too large. -/
theorem secondOfFour_ofNat {v : Nat} (hlow : 0x10000 ≤ v) (hhigh : v < 0x110000) :
    secondOfFour (UInt8.ofNat (v / 262144 % 8 + 0xf0))
      (UInt8.ofNat (v / 4096 % 64 + 0x80)) = true := by
  have ha : v / 262144 % 8 + 0xf0 < 256 := by omega
  have hb : v / 4096 % 64 + 0x80 < 256 := by omega
  simp only [secondOfFour, beq_iff_eq, ofNat_eq_iff ha, le_ofNat_iff hb, ofNat_le_iff hb,
    UInt8.reduceToNat, isTail_ofNat]
  split
  · simp only [Bool.and_eq_true, decide_eq_true_eq]; omega
  · split
    · simp only [Bool.and_eq_true, decide_eq_true_eq]; omega
    · rfl

/-- A character is read back from its written form, whatever follows. -/
theorem decodeFrom_encodeChar (c : Char) :
    decodeFrom index (String.utf8EncodeChar c ++ rest) =
      (decodeFrom (index + (String.utf8EncodeChar c).length) rest).map (c :: ·) := by
  have hvalid : c.val.toNat < 0xD800 ∨ 0xDFFF < c.val.toNat ∧ c.val.toNat < 0x110000 := c.valid
  have hchar : Char.ofNat c.val.toNat = c := Char.ofNat_toNat c
  simp only [String.utf8EncodeChar]
  generalize c.val.toNat = v at *
  split
  next hone =>
    have ha : v < 256 := by omega
    rw [List.singleton_append,
      decodeFrom_one index rest ((ofNat_lt_iff ha _).mpr (Nat.lt_succ_of_le hone)),
      toNat_ofNat_of_lt ha, hchar]
    rfl
  next hone =>
    split
    next htwo =>
      have ha : v / 64 % 32 + 0xc0 < 256 := by omega
      have hvalue : (v / 64 % 32 + 0xc0) % 32 * 64 + v % 64 = v := by omega
      rw [List.cons_append, List.singleton_append, decodeFrom_two index rest ?_ ?_ (isTail_ofNat v),
        payload_ofNat, toNat_ofNat_of_lt ha, hvalue, hchar]
      · rfl
      · simp only [ofNat_lt_iff ha, UInt8.reduceToNat]; omega
      · simp only [ofNat_le_iff ha, le_ofNat_iff ha, UInt8.reduceToNat, Bool.and_eq_true,
          decide_eq_true_eq]; omega
    next htwo =>
      split
      next hthree =>
        have ha : v / 4096 % 16 + 0xe0 < 256 := by omega
        have hvalue : ((v / 4096 % 16 + 0xe0) % 16 * 64 + v / 64 % 64) * 64 + v % 64 = v := by omega
        have hsecond := secondOfThree_ofNat (show 0x800 ≤ v by omega) (by omega) (by omega)
        rw [List.cons_append, List.cons_append, List.singleton_append,
          decodeFrom_three index rest ?_ ?_ ?_ hsecond (isTail_ofNat v), payload_ofNat,
          payload_ofNat, toNat_ofNat_of_lt ha, hvalue, hchar]
        · rfl
        · simp only [ofNat_lt_iff ha, UInt8.reduceToNat]; omega
        · simp only [ofNat_le_iff ha, le_ofNat_iff ha, UInt8.reduceToNat, Bool.and_eq_false_iff,
            decide_eq_false_iff_not]; omega
        · simp only [ofNat_le_iff ha, le_ofNat_iff ha, UInt8.reduceToNat, Bool.and_eq_true,
            decide_eq_true_eq]; omega
      next hthree =>
        have ha : v / 262144 % 8 + 0xf0 < 256 := by omega
        have hvalue : (((v / 262144 % 8 + 0xf0) % 8 * 64 + v / 4096 % 64) * 64 + v / 64 % 64) * 64 +
            v % 64 = v := by
          omega
        have hsecond := secondOfFour_ofNat (show 0x10000 ≤ v by omega) (by omega)
        rw [List.cons_append, List.cons_append, List.cons_append, List.singleton_append,
          decodeFrom_four index rest ?_ ?_ ?_ ?_ hsecond (isTail_ofNat _) (isTail_ofNat v),
          payload_ofNat, payload_ofNat, payload_ofNat, toNat_ofNat_of_lt ha, hvalue, hchar]
        · rfl
        · simp only [ofNat_lt_iff ha, UInt8.reduceToNat]; omega
        · simp only [ofNat_le_iff ha, le_ofNat_iff ha, UInt8.reduceToNat, Bool.and_eq_false_iff,
            decide_eq_false_iff_not]; omega
        · simp only [ofNat_le_iff ha, le_ofNat_iff ha, UInt8.reduceToNat, Bool.and_eq_false_iff,
            decide_eq_false_iff_not]; omega
        · simp only [ofNat_le_iff ha, le_ofNat_iff ha, UInt8.reduceToNat, Bool.and_eq_true,
            decide_eq_true_eq]; omega

/-- Reading undoes writing. -/
theorem decode_encodeChars (cs : List Char) : decode (encodeChars cs) = .ok cs := by
  have hfrom (index : Nat) : decodeFrom index (encodeChars cs) = .ok cs := by
    induction cs generalizing index with
    | nil => rfl
    | cons c cs ih =>
        rw [encodeChars, List.flatMap_cons, decodeFrom_encodeChar, ← encodeChars, ih]
        rfl
  exact hfrom 0

/-- Every byte belongs to a character that is read. -/
theorem eq_nil_of_decode_eq_nil {bs : List UInt8} (hread : decode bs = .ok []) : bs = [] := by
  have hmap {rest : Except Fault (List Char)} {c : Char} : rest.map (c :: ·) ≠ .ok [] := by
    cases rest <;> exact nofun
  cases bs with
  | nil => rfl
  | cons a rest =>
      rw [decode, decodeFrom.eq_def] at hread
      dsimp only at hread
      repeat' split at hread
      all_goals
        first
        | exact absurd hread hmap
        | cases hread

end VersionedBucket.Text.Utf8
