import Mathlib.Data.List.Forall2

/-! # Computations that succeed

A computation in several steps succeeds exactly if each of its steps does, and what it gives is what
the steps give. A property that a computation ensures of its result is ensured by the steps that
bear on it.
-/

namespace VersionedBucket

variable {α β ε φ : Type}

theorem map_eq_ok_iff {first : Except ε α} {f : α → β} {b : β} :
    first.map f = .ok b ↔ ∃ a, first = .ok a ∧ f a = b := by
  cases first <;> simp [Except.map]

theorem mapError_eq_ok_iff {first : Except ε α} {f : ε → φ} {a : α} :
    first.mapError f = .ok a ↔ first = .ok a := by
  cases first <;> simp [Except.mapError]

theorem toOption_eq_some_iff {first : Except ε α} {a : α} :
    first.toOption = some a ↔ first = .ok a := by
  cases first <;> simp [Except.toOption]

theorem bind_eq_ok_iff {first : Except ε α} {next : α → Except ε β} {b : β} :
    (first >>= next) = .ok b ↔ ∃ a, first = .ok a ∧ next a = .ok b := by
  cases first <;> simp [bind, Except.bind]

theorem mapM_eq_ok_iff {f : α → Except ε β} {values : List α} {results : List β} :
    values.mapM f = .ok results ↔ List.Forall₂ (fun a b => f a = .ok b) values results := by
  induction values generalizing results with
  | nil =>
      rw [List.mapM_nil, List.forall₂_nil_left_iff]
      exact ⟨fun hok => (Except.ok.inj hok).symm, fun hnil => congrArg Except.ok hnil.symm⟩
  | cons a values ih =>
      simp only [List.mapM_cons, bind_eq_ok_iff, List.forall₂_cons_left_iff, ih]
      constructor
      · rintro ⟨b, hb, rest, hrest, hok⟩
        exact ⟨b, rest, hb, hrest, (Except.ok.inj hok).symm⟩
      · rintro ⟨b, rest, hb, hrest, rfl⟩
        exact ⟨b, hb, rest, hrest, rfl⟩

/-- Values that lead to the same lead to the same together, be it results or the first failure. -/
theorem mapM_eq_of_forall₂ {f : α → Except ε β} {values values' : List α}
    (hsame : List.Forall₂ (fun a a' => f a = f a') values values') :
    values.mapM f = values'.mapM f := by
  induction hsame with
  | nil => rfl
  | cons hfirst _ ih => rw [List.mapM_cons, List.mapM_cons, hfirst, ih]

/-- Whatever every value has a partner for, all of them have partners for. -/
theorem exists_forall₂_iff {related : α → β → Prop} {values : List α} :
    (∃ results, List.Forall₂ related values results) ↔ ∀ a ∈ values, ∃ b, related a b := by
  induction values with
  | nil => exact ⟨nofun, fun _ => ⟨[], .nil⟩⟩
  | cons a values ih =>
      rw [List.forall_mem_cons, ← ih]
      constructor
      · rintro ⟨_, hrelated⟩
        cases hrelated with
        | cons hfirst hrest => exact ⟨⟨_, hfirst⟩, _, hrest⟩
      · rintro ⟨⟨b, hfirst⟩, results, hrest⟩
        exact ⟨b :: results, .cons hfirst hrest⟩

theorem exists_of_forall₂ {related : α → β → Prop} {values : List α} {results : List β}
    (hrelated : List.Forall₂ related values results) :
    ∀ b ∈ results, ∃ a ∈ values, related a b := by
  induction hrelated with
  | nil => exact nofun
  | cons hfirst _ ih =>
      refine List.forall_mem_cons.mpr ⟨⟨_, List.mem_cons_self, hfirst⟩, fun b hb => ?_⟩
      obtain ⟨a, ha, hab⟩ := ih b hb
      exact ⟨a, List.mem_cons_of_mem _ ha, hab⟩

/-! ## Computations with a state -/

section Ensures

variable {σ : Type} {x : StateT σ (Except ε) α} {f : α → StateT σ (Except ε) β} {P : α → Prop}
  {Q : β → Prop}

/-- In whatever state the computation starts, what it gives has the property. -/
def Ensures (x : StateT σ (Except ε) α) (P : α → Prop) : Prop :=
  ∀ s a s', x s = .ok (a, s') → P a

namespace Ensures

theorem bind (hx : Ensures x P) (hf : ∀ a, P a → Ensures (f a) Q) : Ensures (x >>= f) Q := by
  intro s b s' hresult
  obtain ⟨⟨a, between⟩, hfirst, hnext⟩ := bind_eq_ok_iff.mp hresult
  exact hf a (hx _ _ _ hfirst) _ _ _ hnext

/-- What the first step gives may make no difference. -/
theorem after (hf : ∀ a, Ensures (f a) Q) : Ensures (x >>= f) Q := by
  intro s b s' hresult
  obtain ⟨⟨a, between⟩, -, hnext⟩ := bind_eq_ok_iff.mp hresult
  exact hf a _ _ _ hnext

theorem pure {a : α} (ha : P a) : Ensures (Pure.pure a : StateT σ (Except ε) α) P := by
  rintro s _ s' ⟨⟩
  exact ha

end Ensures

end Ensures

end VersionedBucket
