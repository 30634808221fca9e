import Mathlib.Data.List.Sort

/-!
# Stable Sorting by a Key

The library layer for lists that are sorted by a key several elements may share. A stable sort
keeps the elements of one key in the order they had. The module names no particular program:

* `withKey key k l` are the elements of `l` with the key `k`, in their order;
* `sortBy key l` is sorted by the key (`pairwise_sortBy`), has the elements of `l` (`perm_sortBy`),
  and those of each key in their order (`withKey_sortBy`);
* a list sorted by a key is known from its elements of each key (`eq_of_withKey_eq`).
-/

namespace MelodiaStore

variable {α K : Type}

/-! ### The elements of one key -/

section WithKey

variable [DecidableEq K] {key : α → K} {k : K} {a : α} {l : List α}

/-- The elements of a list with the key `k`. -/
def withKey (key : α → K) (k : K) (l : List α) : List α := l.filter fun a => decide (key a = k)

theorem mem_withKey : a ∈ withKey key k l ↔ a ∈ l ∧ key a = k := by
  rw [withKey, List.mem_filter, decide_eq_true_iff]

theorem withKey_append (key : α → K) (k : K) (l₁ l₂ : List α) :
    withKey key k (l₁ ++ l₂) = withKey key k l₁ ++ withKey key k l₂ :=
  List.filter_append l₁ l₂

theorem withKey_cons_of_eq (h : key a = k) : withKey key k (a :: l) = a :: withKey key k l :=
  List.filter_cons_of_pos (decide_eq_true h)

theorem withKey_cons_of_ne (h : key a ≠ k) : withKey key k (a :: l) = withKey key k l :=
  List.filter_cons_of_neg (Bool.not_eq_true _ ▸ decide_eq_false h)

/-- All elements have the key. -/
theorem withKey_of_forall (h : ∀ a ∈ l, key a = k) : withKey key k l = l :=
  List.filter_eq_self.mpr fun a ha => decide_eq_true (h a ha)

/-- No element has the key. -/
theorem withKey_of_forall_ne (h : ∀ a ∈ l, key a ≠ k) : withKey key k l = [] :=
  List.filter_eq_nil_iff.mpr fun a ha hk => h a ha (of_decide_eq_true hk)

theorem mem_iff_of_withKey_eq {l₁ l₂ : List α} (h : ∀ k, withKey key k l₁ = withKey key k l₂)
    (a : α) : a ∈ l₁ ↔ a ∈ l₂ := by
  have ha : ∀ l : List α, a ∈ l ↔ a ∈ withKey key (key a) l := fun l => by
    rw [mem_withKey, and_iff_left rfl]
  rw [ha l₁, h, ← ha l₂]

end WithKey

/-! ### Sorting -/

section ByKey

variable [LinearOrder K]

/-- Elements compared by their keys. -/
def ByKey (key : α → K) (a b : α) : Prop := key a ≤ key b

instance instDecidableByKey (key : α → K) : DecidableRel (ByKey key) := fun a b =>
  inferInstanceAs (Decidable (key a ≤ key b))

instance instTotalByKey (key : α → K) : Std.Total (ByKey key) :=
  ⟨fun a b => le_total (key a) (key b)⟩

instance instTransByKey (key : α → K) : IsTrans α (ByKey key) :=
  ⟨fun _ _ _ h₁ h₂ => le_trans h₁ h₂⟩

/-- The list sorted by the key, elements of one key in the order they have. -/
def sortBy (key : α → K) (l : List α) : List α := l.insertionSort (ByKey key)

/-- Nothing is lost. -/
theorem perm_sortBy (key : α → K) (l : List α) : (sortBy key l).Perm l :=
  List.perm_insertionSort (ByKey key) l

/-- The list is sorted. -/
theorem pairwise_sortBy (key : α → K) (l : List α) : (sortBy key l).Pairwise (ByKey key) :=
  List.pairwise_insertionSort (ByKey key) l

/-- The head of a sorted list has the least key. -/
theorem byKey_head {key : α → K} {a b : α} {l : List α} (h : (a :: l).Pairwise (ByKey key))
    (hb : b ∈ a :: l) : ByKey key a b := by
  rcases List.mem_cons.mp hb with rfl | hb
  · exact le_rfl
  · exact List.rel_of_pairwise_cons h hb

end ByKey

variable [LinearOrder K] [DecidableEq K] {key : α → K} {l₁ l₂ : List α}

/-- **Stability.** -/
theorem withKey_sortBy (key : α → K) (k : K) (l : List α) :
    withKey key k (sortBy key l) = withKey key k l := by
  have hequal : (withKey key k l).Pairwise (ByKey key) :=
    List.pairwise_of_forall_mem_list fun a ha b hb =>
      ((mem_withKey.mp ha).2.trans (mem_withKey.mp hb).2.symm).le
  have hsub : withKey key k (withKey key k l) |>.Sublist (withKey key k (sortBy key l)) :=
    (List.sublist_insertionSort hequal List.filter_sublist).filter _
  rw [withKey_of_forall fun a ha => (mem_withKey.mp ha).2] at hsub
  exact (hsub.eq_of_length ((perm_sortBy key l).filter _).length_eq.symm).symm

/-- **A sorted list is known from its elements of each key.** -/
theorem eq_of_withKey_eq (h₁ : l₁.Pairwise (ByKey key)) (h₂ : l₂.Pairwise (ByKey key))
    (h : ∀ k, withKey key k l₁ = withKey key k l₂) : l₁ = l₂ := by
  have hmem := mem_iff_of_withKey_eq h
  induction l₁ generalizing l₂ with
  | nil => exact (List.eq_nil_iff_forall_not_mem.mpr fun a ha => nomatch (hmem a).mpr ha).symm
  | cons a l₁ ih =>
    cases l₂ with
    | nil => exact nomatch (hmem a).mp List.mem_cons_self
    | cons b l₂ =>
      -- each of the two heads is in the other list, so they have the same key
      have hkey : key a = key b :=
        le_antisymm (byKey_head h₁ ((hmem b).mpr List.mem_cons_self))
          (byKey_head h₂ ((hmem a).mp List.mem_cons_self))
      have hhead := h (key b)
      rw [withKey_cons_of_eq hkey, withKey_cons_of_eq rfl] at hhead
      obtain rfl : a = b := (List.cons.inj hhead).1
      have htails : ∀ k, withKey key k l₁ = withKey key k l₂ := by
        intro k
        have hk := h k
        by_cases ha : key a = k
        · rw [withKey_cons_of_eq ha, withKey_cons_of_eq ha] at hk
          exact (List.cons.inj hk).2
        · rwa [withKey_cons_of_ne ha, withKey_cons_of_ne ha] at hk
      rw [ih h₁.of_cons h₂.of_cons htails (mem_iff_of_withKey_eq htails)]

end MelodiaStore
