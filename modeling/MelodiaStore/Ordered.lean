import Mathlib.Data.List.Lex
import Mathlib.Data.List.Sort
import Mathlib.Order.Compare
import MelodiaStore.Effects

/-!
# Ordered Traversals and Overlays

The library layer for sorted key-value data. Keys are linearly ordered; a traversal runs
upwards or downwards, and `Before ascending` is the order in which it meets its keys.

* `traverse m p ascending` lists the entries of a map whose keys satisfy `p`, in the
  order of the traversal: `mem_traverse` says which entries it holds and
  `pairwise_traverse` that it meets each key once and in order.
* `overlay ascending f base keys` lays a layer of keys over a sorted list of entries. A
  key of the layer shadows an entry of the base; `f` gives its value, and `none` there
  hides the key altogether. `mem_overlay` and `pairwise_overlay` are its specification,
  `overlay_cons_cons_lt` and its companions its equations by comparison of the two heads.
* `latestBelow f j` is the last value of a sparse sequence `f` strictly below `j`.

The first sections are about lists: the parts into which a test cuts a sorted list, the binary
search for the place of the cut, and the lexicographic order of lists with a common front.
-/

namespace MelodiaStore

variable {K V α : Type}

/-! ### Parts of a sorted list -/

variable {R : α → α → Prop} {f : ℕ → Option α} {a : α} {j i : ℕ} {p : α → Bool} {l : List α}

/-- Sorted lists with the same elements are equal. -/
theorem eq_of_pairwise_of_asymm (hasymm : ∀ {a b}, R a b → ¬R b a) {l₁ l₂ : List α}
    (h₁ : l₁.Pairwise R) (h₂ : l₂.Pairwise R) (h : ∀ a, a ∈ l₁ ↔ a ∈ l₂) : l₁ = l₂ := by
  have hne : ∀ {a b}, R a b → a ≠ b := fun hab heq => hasymm hab (heq ▸ hab)
  have hperm : l₁.Perm l₂ := (List.perm_ext_iff_of_nodup (h₁.imp hne) (h₂.imp hne)).mpr h
  exact hperm.eq_of_pairwise (fun _ _ _ _ hab hba => absurd hba (hasymm hab)) h₁ h₂

/-- The front of a sorted list up to where a test first fails, when the test passes on all
that comes before an element it passes on. -/
theorem mem_takeWhile_of_pairwise (hl : l.Pairwise R) (hp : ∀ a b, R a b → p b = true → p a = true)
    : a ∈ l.takeWhile p ↔ a ∈ l ∧ p a = true := by
  induction l with
  | nil => simp
  | cons b l ih =>
    rw [List.pairwise_cons] at hl
    by_cases hb : p b = true
    · rw [List.takeWhile_cons_of_pos hb, List.mem_cons, List.mem_cons, ih hl.2]
      constructor
      · rintro (rfl | ⟨ha, hpa⟩)
        · exact ⟨.inl rfl, hb⟩
        · exact ⟨.inr ha, hpa⟩
      · rintro ⟨rfl | ha, hpa⟩
        · exact .inl rfl
        · exact .inr ⟨ha, hpa⟩
    · rw [List.takeWhile_cons_of_neg hb, List.mem_cons]
      refine ⟨fun h => absurd h List.not_mem_nil, ?_⟩
      rintro ⟨rfl | ha, hpa⟩
      · exact absurd hpa hb
      · exact absurd (hp b a (hl.1 a ha) hpa) hb

/-- What is left of the list behind that front. -/
theorem mem_dropWhile_of_pairwise (hl : l.Pairwise R) (hp : ∀ a b, R a b → p b = true → p a = true)
    : a ∈ l.dropWhile p ↔ a ∈ l ∧ p a = false := by
  induction l with
  | nil => simp
  | cons b l ih =>
    rw [List.pairwise_cons] at hl
    by_cases hb : p b = true
    · rw [List.dropWhile_cons_of_pos hb, ih hl.2, List.mem_cons]
      constructor
      · exact fun h => ⟨.inr h.1, h.2⟩
      · rintro ⟨rfl | ha, hpa⟩
        · rw [hb] at hpa
          cases hpa
        · exact ⟨ha, hpa⟩
    · rw [List.dropWhile_cons_of_neg hb]
      refine ⟨fun ha => ⟨ha, ?_⟩, fun h => h.1⟩
      rcases List.mem_cons.mp ha with rfl | ha
      · exact Bool.eq_false_iff.mpr hb
      · exact Bool.eq_false_iff.mpr fun hpa => hb (hp b a (hl.1 a ha) hpa)

/-- In a sorted list what is below an element stands before it. -/
theorem mem_front_of_lt [Preorder α] {front rest : List α} {b : α}
    (h : (front ++ a :: rest).Pairwise (· < ·)) (hb : b ∈ front ++ a :: rest) (hlt : b < a) :
    b ∈ front := by
  rcases List.mem_append.mp hb with hb | hb
  · exact hb
  · rcases List.mem_cons.mp hb with rfl | hb
    · exact absurd hlt (lt_irrefl _)
    · have hgt := List.rel_of_pairwise_cons (List.pairwise_append.mp h).2.1 hb
      exact absurd (hlt.trans hgt) (lt_irrefl _)

/-! ### Binary search -/

/-- A binary search between two indices for the first one at which a test passes. -/
def binarySearch (f : ℕ → Bool) (i j : ℕ) : ℕ :=
  if i < j then
    if f ((i + j) / 2) then binarySearch f i ((i + j) / 2)
    else binarySearch f ((i + j) / 2 + 1) j
  else i
termination_by j - i

/-- **A binary search** finds where the test begins to pass, when it passes everywhere behind an
index at which it does. -/
theorem binarySearch_spec {f : ℕ → Bool} {n : ℕ}
    (hf : ∀ a b, a ≤ b → b < n → f a = true → f b = true) (hij : i ≤ j) (hjn : j ≤ n)
    (hbelow : ∀ a < i, f a = false) (habove : ∀ a, j ≤ a → a < n → f a = true) :
    binarySearch f i j ≤ n ∧ (∀ a < binarySearch f i j, f a = false) ∧
      ∀ a, binarySearch f i j ≤ a → a < n → f a = true := by
  induction i, j using binarySearch.induct f with
  | case1 i j hlt hpass ih =>
    rw [binarySearch, if_pos hlt, if_pos hpass]
    exact ih (by omega) (by omega) hbelow fun a ha han => hf _ a ha han hpass
  | case2 i j hlt hfail ih =>
    rw [binarySearch, if_pos hlt, if_neg hfail]
    refine ih (by omega) hjn (fun a ha => ?_) habove
    exact Bool.eq_false_iff.mpr fun hpass => hfail (hf a _ (by omega) (by omega) hpass)
  | case3 i j hge =>
    rw [binarySearch, if_neg hge]
    exact ⟨by omega, hbelow, fun a ha han => habove a (by omega) han⟩

/-! ### Lists with a common front -/

section Lexicographic

variable [LinearOrder α] {p a b x e : List α}

theorem append_lt_append_iff : p ++ a < p ++ b ↔ a < b := by
  induction p with
  | nil => rfl
  | cons c p ih => rw [List.cons_append, List.cons_append, List.cons_lt_cons_iff, ih]; simp

theorem append_le_append_iff : p ++ a ≤ p ++ b ↔ a ≤ b := by
  rw [← not_lt, append_lt_append_iff, not_lt]

theorem le_append (p a : List α) : p ≤ p ++ a := by
  have h : p ++ [] ≤ p ++ a := append_le_append_iff.mpr (not_lt.mp (List.not_lt_nil a))
  rwa [List.append_nil] at h

/-- A list between `p` and a list that starts with `p` starts with `p`. -/
theorem isPrefix_of_le_of_lt (hle : p ≤ x) (hlt : x < p ++ e) : p <+: x := by
  induction p generalizing x with
  | nil => exact List.nil_prefix
  | cons c p ih =>
    cases x with
    | nil => exact absurd (List.nil_lt_cons c p) (not_lt.mpr hle)
    | cons d x =>
      rw [List.cons_append, List.cons_lt_cons_iff] at hlt
      rw [← not_lt, List.cons_lt_cons_iff, not_or] at hle
      obtain ⟨rfl, hxe⟩ := hlt.resolve_left hle.1
      have hpx : p ≤ x := not_lt.mp fun h => hle.2 ⟨rfl, h⟩
      exact List.cons_prefix_cons.mpr ⟨rfl, ih hpx hxe⟩

end Lexicographic

/-! ### The order of a traversal -/

section Order

variable [LinearOrder K] {ascending : Bool} {a b : K}

/-- `a` comes before `b` when keys are visited in the given direction. -/
def Before (ascending : Bool) (a b : K) : Prop :=
  if ascending then a < b else b < a

instance (ascending : Bool) (a b : K) : Decidable (Before ascending a b) :=
  inferInstanceAs (Decidable (if ascending then a < b else b < a))

@[simp] theorem before_true (a b : K) : Before true a b ↔ a < b := by
  simp [Before]

@[simp] theorem before_false (a b : K) : Before false a b ↔ b < a := by
  simp [Before]

theorem Before.trans {c : K} (h₁ : Before ascending a b) (h₂ : Before ascending b c) :
    Before ascending a c := by
  cases ascending with
  | true =>
    exact (before_true a c).mpr (lt_trans ((before_true a b).mp h₁) ((before_true b c).mp h₂))
  | false =>
    exact (before_false a c).mpr (lt_trans ((before_false b c).mp h₂) ((before_false a b).mp h₁))

/-- A common front does not change which list comes before. -/
theorem before_append_iff {p a b : List K} :
    Before ascending (p ++ a) (p ++ b) ↔ Before ascending a b := by
  cases ascending <;> simp [append_lt_append_iff]

theorem Before.irrefl (ascending : Bool) (a : K) : ¬ Before ascending a a := by
  cases ascending <;> simp

theorem Before.ne (h : Before ascending a b) : a ≠ b := by
  rintro rfl
  exact Before.irrefl ascending a h

theorem Before.asymm (h : Before ascending a b) : ¬ Before ascending b a :=
  fun h' => Before.irrefl ascending a (h.trans h')

/-- The order is total. -/
theorem before_or_eq_or_before (ascending : Bool) (a b : K) :
    Before ascending a b ∨ a = b ∨ Before ascending b a := by
  cases ascending with
  | true => simpa using lt_trichotomy a b
  | false =>
    rcases lt_trichotomy a b with h | h | h
    · exact .inr (.inr ((before_false b a).mpr h))
    · exact .inr (.inl h)
    · exact .inl ((before_false a b).mpr h)

/-- Three-way comparison in the direction of a traversal. -/
def compareIn (ascending : Bool) (a b : K) : Ordering :=
  if ascending then cmp a b else (cmp a b).swap

theorem compareIn_eq_lt : compareIn ascending a b = .lt ↔ Before ascending a b := by
  cases ascending with
  | true => exact cmp_eq_lt_iff a b
  | false => exact Ordering.swap_eq_iff_eq_swap.trans (cmp_eq_gt_iff a b)

theorem compareIn_eq_eq : compareIn ascending a b = .eq ↔ a = b := by
  cases ascending with
  | true => exact cmp_eq_eq_iff a b
  | false => exact Ordering.swap_eq_iff_eq_swap.trans (cmp_eq_eq_iff a b)

theorem compareIn_eq_gt : compareIn ascending a b = .gt ↔ Before ascending b a := by
  cases ascending with
  | true => exact cmp_eq_gt_iff a b
  | false => exact Ordering.swap_eq_iff_eq_swap.trans (cmp_eq_lt_iff a b)

end Order

/-! ### Traversing a map in order -/

/-- The keys of a list that holds the entries of a partial function over a part of its keys. -/
theorem mem_map_fst_iff {P : K → Prop} {f : K → Option V} {l : List (K × V)}
    (h : ∀ k v, (k, v) ∈ l ↔ P k ∧ f k = some v) (k : K) :
    k ∈ l.map Prod.fst ↔ P k ∧ (f k).isSome = true := by
  rw [List.mem_map, Option.isSome_iff_exists]
  constructor
  · rintro ⟨⟨k, v⟩, he, rfl⟩
    obtain ⟨hk, hv⟩ := (h k v).mp he
    exact ⟨hk, v, hv⟩
  · rintro ⟨hk, v, hv⟩
    exact ⟨(k, v), (h k v).mpr ⟨hk, hv⟩, rfl⟩

section Traverse

variable [LinearOrder K]

/-- Entries compared by key. -/
def keyLe (a b : K × V) : Prop := a.1 ≤ b.1

instance : DecidableRel (keyLe : K × V → K × V → Prop) := fun a b =>
  inferInstanceAs (Decidable (a.1 ≤ b.1))

instance : Std.Total (keyLe : K × V → K × V → Prop) := ⟨fun a b => le_total a.1 b.1⟩

instance : IsTrans (K × V) keyLe := ⟨fun _ _ _ h₁ h₂ => le_trans h₁ h₂⟩

/-- The entries of a map whose keys satisfy `p`, in the order of a traversal. -/
def traverse (m : GoMap K V) (p : K → Bool) (ascending : Bool) : List (K × V) :=
  let sorted := ((m.entries.map fun e => (e.1, e.2)).filter fun e => p e.1).insertionSort keyLe
  if ascending then sorted else sorted.reverse

/-- A traversal meets exactly the entries of the map whose keys satisfy `p`. -/
theorem mem_traverse {m : GoMap K V} {p : K → Bool} {ascending : Bool} {k : K} {v : V} :
    (k, v) ∈ traverse m p ascending ↔ p k = true ∧ ⟨k, v⟩ ∈ m.entries := by
  have hmem : (k, v) ∈ (m.entries.map fun e => (e.1, e.2)) ↔ ⟨k, v⟩ ∈ m.entries := by
    rw [List.mem_map]
    constructor
    · rintro ⟨e, he, heq⟩
      obtain ⟨rfl, rfl⟩ := Prod.mk.inj heq
      exact he
    · intro h
      exact ⟨⟨k, v⟩, h, rfl⟩
  cases ascending <;>
    simp only [traverse, Bool.false_eq_true, if_false, if_true, List.mem_reverse,
      List.mem_insertionSort, List.mem_filter, hmem, and_comm]

/-- A traversal meets each key once, in its order. -/
theorem pairwise_traverse (m : GoMap K V) (p : K → Bool) (ascending : Bool) :
    (traverse m p ascending).Pairwise fun a b => Before ascending a.1 b.1 := by
  have hperm := List.perm_insertionSort keyLe
    ((m.entries.map fun e => (e.1, e.2)).filter fun e => p e.1)
  -- the keys are distinct, so the sorted list is strictly sorted
  have hnodup : ((m.entries.map fun e => (e.1, e.2)).filter fun e => p e.1).Pairwise
      fun a b => a.1 ≠ b.1 := by
    refine List.Pairwise.filter _ ?_
    rw [List.pairwise_map]
    exact List.pairwise_map.mp m.keys_nodup
  have hsorted : (((m.entries.map fun e => (e.1, e.2)).filter fun e => p e.1).insertionSort
      keyLe).Pairwise fun a b => a.1 < b.1 := by
    have hle := List.pairwise_insertionSort (keyLe : K × V → K × V → Prop)
      ((m.entries.map fun e => (e.1, e.2)).filter fun e => p e.1)
    have hne := hperm.symm.pairwise hnodup fun h => h.symm
    exact (hle.and hne).imp fun h => lt_of_le_of_ne h.1 h.2
  cases ascending with
  | true => simpa only [traverse, if_true, before_true] using hsorted
  | false =>
    simp only [traverse, Bool.false_eq_true, if_false, before_false]
    exact List.pairwise_reverse.mpr hsorted

end Traverse

/-! ### Laying a layer over a sorted base -/

section Overlay

variable [LinearOrder K]

/-- Lay the keys of a layer, in the order of a traversal, over the entries of a base in
the same order. Entries of the base come through until the next key of the layer, which
shadows an entry of its own key; `f` gives the layer's values, `none` hiding the key. -/
def overlay (ascending : Bool) (f : K → Option V) : List (K × V) → List K → List (K × V)
  | base, [] => base
  | base, c :: keys =>
    (base.takeWhile fun e => decide (Before ascending e.1 c)) ++
      (match f c with
        | some v => [(c, v)]
        | none => []) ++
      overlay ascending f (base.dropWhile fun e => decide (¬ Before ascending c e.1)) keys

variable {ascending : Bool} {f : K → Option V} {e : K × V} {base : List (K × V)} {keys : List K}
  {c : K}

@[simp] theorem overlay_nil_right (base : List (K × V)) :
    overlay ascending f base [] = base := rfl

/-- With the base used up, the visible keys of the layer remain. -/
theorem overlay_nil_cons (c : K) (keys : List K) :
    overlay ascending f [] (c :: keys) =
      match f c with
      | some v => (c, v) :: overlay ascending f [] keys
      | none => overlay ascending f [] keys := by
  simp only [overlay, List.takeWhile_nil, List.dropWhile_nil, List.nil_append]
  cases f c <;> rfl

/-- An entry of the base before the layer's next key comes through. -/
theorem overlay_cons_cons_lt (h : Before ascending e.1 c) :
    overlay ascending f (e :: base) (c :: keys) = e :: overlay ascending f base (c :: keys) := by
  have h' : ¬ Before ascending c e.1 := h.asymm
  simp [overlay, h, h']

/-- The layer's key shadows the entry of the same key. -/
theorem overlay_cons_cons_eq (h : e.1 = c) (hbase : ∀ e' ∈ base, Before ascending c e'.1) :
    overlay ascending f (e :: base) (c :: keys) =
      match f c with
      | some v => (c, v) :: overlay ascending f base keys
      | none => overlay ascending f base keys := by
  have hirr : ¬ Before ascending e.1 c := by
    rw [h]
    exact Before.irrefl ascending c
  have hirr' : ¬ Before ascending c e.1 := by
    rw [h]
    exact Before.irrefl ascending c
  have hdrop : (base.dropWhile fun e => decide (¬ Before ascending c e.1)) = base := by
    cases base with
    | nil => rfl
    | cons e' base => simp [hbase e' List.mem_cons_self]
  simp only [overlay, List.takeWhile_cons, hirr, decide_false, Bool.false_eq_true, if_false,
    List.nil_append, List.dropWhile_cons, hirr', not_false_eq_true, decide_true, if_true, hdrop]
  cases f c <;> rfl

/-- A key of the layer before the next entry of the base comes first. -/
theorem overlay_cons_cons_gt (h : Before ascending c e.1) :
    overlay ascending f (e :: base) (c :: keys) =
      match f c with
      | some v => (c, v) :: overlay ascending f (e :: base) keys
      | none => overlay ascending f (e :: base) keys := by
  have h' : ¬ Before ascending e.1 c := h.asymm
  simp only [overlay, List.takeWhile_cons, h', decide_false, Bool.false_eq_true, if_false,
    List.nil_append, List.dropWhile_cons, h, not_true_eq_false]
  cases f c <;> rfl

/-- In a sorted base, the entries that come through before `c` are those with a key before
`c`. -/
theorem mem_takeWhile_before (hbase : base.Pairwise fun a b => Before ascending a.1 b.1) :
    e ∈ (base.takeWhile fun e => decide (Before ascending e.1 c)) ↔
      e ∈ base ∧ Before ascending e.1 c := by
  rw [mem_takeWhile_of_pairwise hbase, decide_eq_true_iff]
  intro a b hab hb
  rw [decide_eq_true_iff] at hb ⊢
  exact hab.trans hb

/-- In a sorted base, the entries left behind `c` are those with a key after `c`. -/
theorem mem_dropWhile_before (hbase : base.Pairwise fun a b => Before ascending a.1 b.1) :
    e ∈ (base.dropWhile fun e => decide (¬ Before ascending c e.1)) ↔
      e ∈ base ∧ Before ascending c e.1 := by
  rw [mem_dropWhile_of_pairwise hbase, decide_eq_false_iff_not, not_not]
  intro a b hab hb
  rw [decide_eq_true_iff] at hb ⊢
  exact fun hca => hb (hca.trans hab)

theorem pairwise_dropWhile (p : K × V → Bool)
    (hbase : base.Pairwise fun a b => Before ascending a.1 b.1) :
    (base.dropWhile p).Pairwise fun a b => Before ascending a.1 b.1 :=
  hbase.sublist (List.dropWhile_sublist p)

section

variable (hbase : base.Pairwise fun a b => Before ascending a.1 b.1)
  (hkeys : keys.Pairwise (Before ascending))
include hbase hkeys

/-- **What an overlay shows**: the visible keys of the layer, and the entries of the base
whose keys are not in the layer. -/
theorem mem_overlay {k : K} {v : V} :
    (k, v) ∈ overlay ascending f base keys ↔
      (k ∈ keys ∧ f k = some v) ∨ (k ∉ keys ∧ (k, v) ∈ base) := by
  induction keys generalizing base with
  | nil => simp
  | cons c keys ih =>
    rw [List.pairwise_cons] at hkeys
    have hmid : (k, v) ∈ (match f c with | some v => [(c, v)] | none => []) ↔
        k = c ∧ f c = some v := by
      cases f c with
      | none => simp
      | some w =>
        simp only [List.mem_singleton, Prod.mk.injEq, Option.some.injEq]
        exact and_congr_right fun _ => eq_comm
    rw [overlay, List.mem_append, List.mem_append, hmid, mem_takeWhile_before hbase,
      ih (pairwise_dropWhile _ hbase) hkeys.2, mem_dropWhile_before hbase, List.mem_cons]
    -- compare the key with the layer's next key: the parts exclude each other
    rcases before_or_eq_or_before ascending k c with h | rfl | h
    · have hk : k ∉ keys := fun hk => (h.trans (hkeys.1 k hk)).ne rfl
      simp [h, hk, h.ne, h.asymm]
    · have hk : k ∉ keys := fun hk => (hkeys.1 k hk).ne rfl
      simp [hk, Before.irrefl ascending k]
    · have hne : k ≠ c := h.ne.symm
      simp [hne, h, h.asymm]

/-- **An overlay meets each key once, in the order of the traversal.** -/
theorem pairwise_overlay :
    (overlay ascending f base keys).Pairwise fun a b => Before ascending a.1 b.1 := by
  induction keys generalizing base with
  | nil => exact hbase
  | cons c keys ih =>
    rw [List.pairwise_cons] at hkeys
    have hdrop := pairwise_dropWhile (fun e => decide (¬ Before ascending c e.1)) hbase
    have hmid : ∀ e, e ∈ (match f c with | some v => [(c, v)] | none => []) → e.1 = c := by
      intro e he
      cases hf : f c with
      | none => simp [hf] at he
      | some w =>
        rw [hf, List.mem_singleton] at he
        rw [he]
    have hrest : ∀ e ∈ overlay ascending f
        (base.dropWhile fun e => decide (¬ Before ascending c e.1)) keys,
        Before ascending c e.1 := by
      rintro ⟨k, v⟩ he
      rcases (mem_overlay hdrop hkeys.2).mp he with ⟨hk, -⟩ | ⟨-, hb⟩
      · exact hkeys.1 k hk
      · exact ((mem_dropWhile_before hbase).mp hb).2
    rw [overlay, List.pairwise_append, List.pairwise_append]
    refine ⟨⟨hbase.sublist (List.takeWhile_sublist _), ?_, ?_⟩, ih hdrop hkeys.2, ?_⟩
    · cases f c <;> simp
    · intro a ha b hb
      rw [hmid b hb]
      exact ((mem_takeWhile_before hbase).mp ha).2
    · intro a ha b hb
      rcases List.mem_append.mp ha with ha | ha
      · exact (((mem_takeWhile_before hbase).mp ha).2).trans (hrest b hb)
      · rw [hmid a ha]
        exact hrest b hb

theorem length_overlay_le : (overlay ascending f base keys).length ≤ base.length + keys.length := by
  have hnodup : ((overlay ascending f base keys).map Prod.fst).Nodup :=
    List.pairwise_map.mpr ((pairwise_overlay hbase hkeys).imp Before.ne)
  have hsub : (overlay ascending f base keys).map Prod.fst ⊆ base.map Prod.fst ++ keys := by
    intro k hk
    obtain ⟨⟨k, v⟩, he, rfl⟩ := List.mem_map.mp hk
    rcases (mem_overlay hbase hkeys).mp he with ⟨hk, -⟩ | ⟨-, hb⟩
    · exact List.mem_append_right _ hk
    · exact List.mem_append_left _ (List.mem_map_of_mem hb)
  simpa using (List.subperm_of_subset hnodup hsub).length_le

end

end Overlay

/-! ### The latest value of a sparse sequence -/

/-- The value of `f` at the greatest index below `j` that has one. -/
def latestBelow (f : ℕ → Option α) : ℕ → Option α
  | 0 => none
  | j + 1 => (f j).or (latestBelow f j)

/-- The last one below a bound. -/
theorem latestBelow_eq_some_iff :
    latestBelow f j = some a ↔
      ∃ i < j, f i = some a ∧ ∀ i', i < i' → i' < j → f i' = none := by
  induction j with
  | zero => simp [latestBelow]
  | succ j ih =>
    rw [latestBelow]
    cases hj : f j with
    | some b =>
      rw [Option.some_or]
      constructor
      · intro h
        exact ⟨j, by omega, hj.trans h, fun i' h₁ h₂ => absurd h₂ (by omega)⟩
      · rintro ⟨i, hi, hfi, hmax⟩
        rcases Nat.lt_succ_iff_lt_or_eq.mp hi with hlt | rfl
        · rw [hmax j hlt (by omega)] at hj
          cases hj
        · rw [← hj, hfi]
    | none =>
      rw [Option.none_or, ih]
      constructor
      · rintro ⟨i, hi, hfi, hmax⟩
        refine ⟨i, by omega, hfi, fun i' h₁ h₂ => ?_⟩
        rcases Nat.lt_succ_iff_lt_or_eq.mp h₂ with hlt | rfl
        · exact hmax i' h₁ hlt
        · exact hj
      · rintro ⟨i, hi, hfi, hmax⟩
        have hne : i ≠ j := by
          rintro rfl
          rw [hj] at hfi
          cases hfi
        exact ⟨i, by omega, hfi, fun i' h₁ h₂ => hmax i' h₁ (by omega)⟩

/-- None below a bound. -/
theorem latestBelow_eq_none_iff : latestBelow f j = none ↔ ∀ i < j, f i = none := by
  induction j with
  | zero => simp [latestBelow]
  | succ j ih =>
    rw [latestBelow, Option.or_eq_none_iff, ih]
    constructor
    · rintro ⟨hj, h⟩ i hi
      rcases Nat.lt_succ_iff_lt_or_eq.mp hi with hlt | rfl
      · exact h i hlt
      · exact hj
    · intro h
      exact ⟨h j (by omega), fun i hi => h i (by omega)⟩

/-- The latest value below `j` only depends on the sequence below `j`. -/
theorem latestBelow_congr {g : ℕ → Option α} (h : ∀ i < j, f i = g i) :
    latestBelow f j = latestBelow g j := by
  induction j with
  | zero => rfl
  | succ j ih => rw [latestBelow, latestBelow, h j (by omega), ih fun i hi => h i (by omega)]

theorem map_latestBelow {β : Type} (g : α → β) (f : ℕ → Option α) (j : ℕ) :
    (latestBelow f j).map g = latestBelow (fun i => (f i).map g) j := by
  induction j with
  | zero => rfl
  | succ j ih => rw [latestBelow, latestBelow, Option.map_or, ih]

/-- Places without a value do not count. -/
theorem latestBelow_of_le (hle : i ≤ j) (h : ∀ k, i ≤ k → k < j → f k = none) :
    latestBelow f j = latestBelow f i := by
  induction j, hle using Nat.le_induction with
  | base => rfl
  | succ j hij ih =>
    rw [latestBelow, h j hij (Nat.lt_succ_self j), Option.none_or]
    exact ih fun k hik hkj => h k hik (Nat.lt_succ_of_lt hkj)

end MelodiaStore
