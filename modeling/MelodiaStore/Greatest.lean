import Mathlib.Data.Finset.Max

/-!
# The Greatest Elements of a Set

The library layer for programs that keep some number of the greatest elements that they meet.
The module names no particular program:

* `AmongGreatest D r a` says that fewer than `r` elements of `D` are greater than `a`;
  there are as many such elements as `r` allows (`card_filter_amongGreatest`);
* `amongGreatest_iff_of_seen` is the rule of a scan from the greatest element down, which keeps
  an element if it was kept before, or while fewer than `r` are kept.
-/

namespace MelodiaStore

variable {α : Type} [LinearOrder α]

/-- Fewer than `r` elements of a set are greater. -/
def AmongGreatest (D : Finset α) (r : ℕ) (a : α) : Prop := (D.filter (a < ·)).card < r

instance instDecidableAmongGreatest (D : Finset α) (r : ℕ) (a : α) :
    Decidable (AmongGreatest D r a) :=
  inferInstanceAs (Decidable ((D.filter (a < ·)).card < r))

variable {D F : Finset α} {r : ℕ} {a : α}

/-- Only the greater elements count. -/
theorem amongGreatest_congr (h : ∀ x, a < x → (x ∈ D ↔ x ∈ F)) :
    AmongGreatest D r a ↔ AmongGreatest F r a := by
  have hfilter : D.filter (a < ·) = F.filter (a < ·) := by
    ext x
    simp only [Finset.mem_filter]
    exact and_congr_left (h x)
  rw [AmongGreatest, AmongGreatest, hfilter]

/-- **There are `r` of them**, or as many as there are elements. -/
theorem card_filter_amongGreatest (D : Finset α) (r : ℕ) :
    (D.filter (AmongGreatest D r)).card = min r D.card := by
  induction D using Finset.induction_on_min with
  | empty => rw [Finset.filter_empty, Finset.card_empty, Nat.min_zero]
  | insert a D hmin ih =>
    have hnotMem : a ∉ D := fun h => lt_irrefl a (hmin a h)
    -- the new least element counts for none of the others, and all of them count for it
    have hothers : D.filter (AmongGreatest (insert a D) r) = D.filter (AmongGreatest D r) := by
      refine Finset.filter_congr fun x hx => amongGreatest_congr fun y hxy => ?_
      rw [Finset.mem_insert]
      exact or_iff_right fun hya => lt_asymm hxy (hya ▸ hmin x hx)
    have hleast : AmongGreatest (insert a D) r a ↔ D.card < r := by
      rw [AmongGreatest, Finset.filter_insert, if_neg (lt_irrefl a),
        Finset.filter_true_of_mem hmin]
    rw [Finset.filter_insert, hothers, Finset.card_insert_of_notMem hnotMem]
    by_cases hcard : D.card < r
    · rw [if_pos (hleast.mpr hcard), Finset.card_insert_of_notMem, ih]
      · omega
      · exact fun h => hnotMem (Finset.mem_of_mem_filter a h)
    · rw [if_neg fun h => hcard (hleast.mp h), ih]
      omega

theorem card_filter_amongGreatest_le (hsub : D ⊆ F) :
    (D.filter (AmongGreatest F r)).card ≤ r := by
  have hle := Finset.card_le_card (Finset.filter_subset_filter (AmongGreatest F r) hsub)
  rw [card_filter_amongGreatest] at hle
  omega

/-- **The rule of the scan.** When all the greater elements have been seen, and no smaller one,
then an element is among the greatest if and only if it has been kept, or there is room. -/
theorem amongGreatest_iff_of_seen (hsub : D ⊆ F) (hseen : ∀ x ∈ F, a < x → x ∈ D)
    (hle : ∀ x ∈ D, a ≤ x) :
    AmongGreatest F r a ↔
      a ∈ D.filter (AmongGreatest F r) ∨ (D.filter (AmongGreatest F r)).card < r := by
  have hD : ∀ x, a ≤ x → (AmongGreatest F r x ↔ AmongGreatest D r x) := by
    intro x hax
    exact amongGreatest_congr fun y hxy =>
      ⟨fun hy => hseen y hy (lt_of_le_of_lt hax hxy), fun hy => hsub hy⟩
  have hkept : D.filter (AmongGreatest F r) = D.filter (AmongGreatest D r) :=
    Finset.filter_congr fun x hx => hD x (hle x hx)
  rw [hkept, card_filter_amongGreatest, Finset.mem_filter, hD a le_rfl]
  constructor
  · intro h
    by_cases ha : a ∈ D
    · exact .inl ⟨ha, h⟩
    · -- then all that was seen is greater
      have hall : D.filter (a < ·) = D := Finset.filter_true_of_mem fun x hx =>
        lt_of_le_of_ne (hle x hx) fun heq => ha (heq ▸ hx)
      rw [AmongGreatest, hall] at h
      exact .inr (by omega)
  · rintro (⟨-, h⟩ | hroom)
    · exact h
    · have hcard := Finset.card_filter_le D (a < ·)
      rw [AmongGreatest]
      omega

end MelodiaStore
