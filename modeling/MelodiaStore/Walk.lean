import MelodiaStore.Ordered

/-!
# Walking Through an Overlay

The library layer for cursors that go through an overlay without building it. The two lists
are consumed from the front: `settle` drops hidden keys until the next entry of the overlay
is in front, and `consulted` are the keys of the layer whose values are looked up to find
that out.

## Main results

* `overlay_settle`: settling does not change the overlay.
* `Layered`: what holds of the two lists on the way, kept by `Layered.settle`.
* `lookedUp_consulted`: which keys are looked up. Apart from the keys up to the next entry, this
  can be one key further on.
-/

namespace MelodiaStore

open List (mem_cons mem_cons_of_mem mem_cons_self not_mem_nil pairwise_cons suffix_cons suffix_rfl)

variable {K V : Type} [LinearOrder K] {ascending : Bool} {f : K → Option V}

/-! ### Settling on the next visible entry -/

variable {base es : List (K × V)} {keys : List K} {c stop : K} {e : K × V}

/-- Drop hidden keys from the front of the layer, each with the entry of the base that it
shadows, until the next entry of the overlay is at the front of one of the two lists. -/
def settle (ascending : Bool) (f : K → Option V) :
    List (K × V) → List K → List (K × V) × List K
  | base, [] => (base, [])
  | [], c :: keys => if (f c).isSome then ([], c :: keys) else settle ascending f [] keys
  | e :: base, c :: keys =>
    match compareIn ascending e.1 c with
    | .lt => (e :: base, c :: keys)
    | .eq => if (f c).isSome then (e :: base, c :: keys) else settle ascending f base keys
    | .gt =>
      if (f c).isSome then (e :: base, c :: keys) else settle ascending f (e :: base) keys

/-- The keys of the layer whose values are looked up on the way. Past a hidden key that
comes before the next entry of the base, the value of the key behind it is looked up as
well, wherever that key is. -/
def consulted (ascending : Bool) (f : K → Option V) : List (K × V) → List K → Set K
  | _, [] => ∅
  | [], c :: keys => insert c (if (f c).isSome then ∅ else consulted ascending f [] keys)
  | e :: base, c :: keys =>
    match compareIn ascending e.1 c with
    | .lt => ∅
    | .eq => insert c (if (f c).isSome then ∅ else consulted ascending f base keys)
    | .gt =>
      insert c (if (f c).isSome then ∅
        else {k | keys.head? = some k} ∪ consulted ascending f (e :: base) keys)

/-- The front of the lists is the next entry of the overlay. -/
inductive Settled (ascending : Bool) (f : K → Option V) : List (K × V) → List K → Prop
  | done : Settled ascending f [] []
  | layer {c : K} {keys : List K} {v : V} (hv : f c = some v) : Settled ascending f [] (c :: keys)
  | base {e : K × V} {base : List (K × V)} : Settled ascending f (e :: base) []
  | before {e : K × V} {base : List (K × V)} {c : K} {keys : List K}
      (h : Before ascending e.1 c) : Settled ascending f (e :: base) (c :: keys)
  | shadowed {e : K × V} {base : List (K × V)} {c : K} {keys : List K} {v : V} (h : e.1 = c)
      (hv : f c = some v) : Settled ascending f (e :: base) (c :: keys)
  | after {e : K × V} {base : List (K × V)} {c : K} {keys : List K} {v : V}
      (h : Before ascending c e.1) (hv : f c = some v) : Settled ascending f (e :: base) (c :: keys)

/-- Skipping ends at an entry to show. -/
theorem settled_settle (base : List (K × V)) (keys : List K) :
    Settled ascending f (settle ascending f base keys).1 (settle ascending f base keys).2 := by
  fun_induction settle ascending f base keys with
  | case1 base =>
    cases base with
    | nil => exact .done
    | cons e base => exact .base
  | case2 c keys h =>
    obtain ⟨v, hv⟩ := Option.isSome_iff_exists.mp h
    exact .layer hv
  | case3 c keys h ih => exact ih
  | case4 e base c keys h => exact .before (compareIn_eq_lt.mp h)
  | case5 e base c keys h hv =>
    obtain ⟨v, hv⟩ := Option.isSome_iff_exists.mp hv
    exact .shadowed (compareIn_eq_eq.mp h) hv
  | case6 e base c keys h hv ih => exact ih
  | case7 e base c keys h hv =>
    obtain ⟨v, hv⟩ := Option.isSome_iff_exists.mp hv
    exact .after (compareIn_eq_gt.mp h) hv
  | case8 e base c keys h hv ih => exact ih

/-- Settled lists have an entry ahead unless both are used up. -/
theorem Settled.isEmpty_overlay (h : Settled ascending f base keys) :
    (overlay ascending f base keys).isEmpty = (base.isEmpty && keys.isEmpty) := by
  cases h with
  | done => rfl
  | layer hv => simp [overlay, hv]
  | base => rfl
  | before h => simp [overlay, h]
  | shadowed h hv => simp [overlay, hv]
  | after h hv => simp [overlay, hv]

/-- Lists that are settled stay as they are. -/
theorem Settled.settle_eq (h : Settled ascending f base keys) :
    settle ascending f base keys = (base, keys) := by
  cases h with
  | done => rfl
  | layer hv => simp [settle, hv]
  | base => rfl
  | before h => simp [settle, compareIn_eq_lt.mpr h]
  | shadowed h hv => simp [settle, compareIn_eq_eq.mpr h, hv]
  | after h hv => simp [settle, compareIn_eq_gt.mpr h, hv]

/-- **Settling does not change the overlay.** -/
theorem overlay_settle (keys : List K) (hbase : base.Pairwise fun a b => Before ascending a.1 b.1) :
    overlay ascending f (settle ascending f base keys).1 (settle ascending f base keys).2 =
      overlay ascending f base keys := by
  fun_induction settle ascending f base keys with
  | case1 base => rfl
  | case2 c keys h => rfl
  | case3 c keys h ih =>
    rw [ih hbase, overlay_nil_cons, Option.not_isSome_iff_eq_none.mp h]
  | case4 e base c keys h => rfl
  | case5 e base c keys h hv => rfl
  | case6 e base c keys h hv ih =>
    rw [pairwise_cons] at hbase
    have hc : e.1 = c := compareIn_eq_eq.mp h
    rw [ih hbase.2, overlay_cons_cons_eq hc fun e' he' => hc ▸ hbase.1 e' he',
      Option.not_isSome_iff_eq_none.mp hv]
  | case7 e base c keys h hv => rfl
  | case8 e base c keys h hv ih =>
    rw [ih hbase, overlay_cons_cons_gt (compareIn_eq_gt.mp h),
      Option.not_isSome_iff_eq_none.mp hv]

/-- Skipping only moves ahead. -/
theorem settle_suffix (base : List (K × V)) (keys : List K) :
    (settle ascending f base keys).1 <:+ base ∧ (settle ascending f base keys).2 <:+ keys := by
  fun_induction settle ascending f base keys with
  | case1 base | case2 c keys h => exact ⟨suffix_rfl, suffix_rfl⟩
  | case3 c keys h ih => exact ⟨ih.1, ih.2.trans (suffix_cons c keys)⟩
  | case4 e base c keys h | case5 e base c keys h hv => exact ⟨suffix_rfl, suffix_rfl⟩
  | case6 e base c keys h hv ih =>
    exact ⟨ih.1.trans (suffix_cons e base), ih.2.trans (suffix_cons c keys)⟩
  | case7 e base c keys h hv => exact ⟨suffix_rfl, suffix_rfl⟩
  | case8 e base c keys h hv ih => exact ⟨ih.1, ih.2.trans (suffix_cons c keys)⟩

/-- Settled lists look up nothing that was not looked up on the way. -/
theorem consulted_settle (base : List (K × V)) (keys : List K) :
    consulted ascending f (settle ascending f base keys).1 (settle ascending f base keys).2 ⊆
      consulted ascending f base keys := by
  fun_induction settle ascending f base keys with
  | case1 base => exact subset_rfl
  | case2 c keys h => exact subset_rfl
  | case3 c keys h ih =>
    rw [consulted, if_neg h]
    exact ih.trans (Set.subset_insert c _)
  | case4 e base c keys h => exact subset_rfl
  | case5 e base c keys h hv => exact subset_rfl
  | case6 e base c keys h hv ih =>
    simp only [consulted, h, if_neg hv]
    exact ih.trans (Set.subset_insert c _)
  | case7 e base c keys h hv => exact subset_rfl
  | case8 e base c keys h hv ih =>
    simp only [consulted, h, if_neg hv]
    exact ih.trans (Set.subset_union_right.trans (Set.subset_insert c _))

/-- A layer over a base on the way through an overlay: both lists are sorted, the keys of
the layer satisfy `L` and the entries of the base `B`, and an entry of the base that belongs
to the layer is still shadowed. -/
structure Layered (ascending : Bool) (L : K → Prop) (B : K × V → Prop) (base : List (K × V))
    (keys : List K) : Prop where
  base_sorted : base.Pairwise fun a b => Before ascending a.1 b.1
  keys_sorted : keys.Pairwise (Before ascending)
  mem_base : ∀ e ∈ base, B e
  mem_keys : ∀ c ∈ keys, L c
  shadow : ∀ e ∈ base, L e.1 → e.1 ∈ keys

namespace Layered

variable {L : K → Prop} {B : K × V → Prop} {e : K × V} {base : List (K × V)} {c : K} {keys : List K}

theorem tail_base (h : Layered ascending L B (e :: base) keys) :
    Layered ascending L B base keys where
  base_sorted := (pairwise_cons.mp h.base_sorted).2
  keys_sorted := h.keys_sorted
  mem_base e' he' := h.mem_base e' (mem_cons_of_mem e he')
  mem_keys := h.mem_keys
  shadow e' he' := h.shadow e' (mem_cons_of_mem e he')

theorem tail_keys (h : Layered ascending L B base (c :: keys)) (hc : ∀ e ∈ base, e.1 ≠ c) :
    Layered ascending L B base keys where
  base_sorted := h.base_sorted
  keys_sorted := (pairwise_cons.mp h.keys_sorted).2
  mem_base := h.mem_base
  mem_keys c' hc' := h.mem_keys c' (mem_cons_of_mem c hc')
  shadow e he hL := (mem_cons.mp (h.shadow e he hL)).resolve_left (hc e he)

/-- The key of an entry that comes before the rest of the base is not in the rest. -/
theorem ne_of_before (h : Layered ascending L B (e :: base) keys) (hc : Before ascending c e.1) :
    ∀ e' ∈ e :: base, e'.1 ≠ c := by
  intro e' he'
  rcases mem_cons.mp he' with rfl | he'
  · exact hc.ne.symm
  · exact (hc.trans ((pairwise_cons.mp h.base_sorted).1 e' he')).ne.symm

theorem tail_both (h : Layered ascending L B (e :: base) (c :: keys)) (hc : e.1 = c) :
    Layered ascending L B base keys := by
  refine h.tail_base.tail_keys fun e' he' => ?_
  rw [← hc]
  exact ((pairwise_cons.mp h.base_sorted).1 e' he').ne.symm

/-- An entry that comes before the layer's next key does not belong to the layer. -/
theorem not_layer (h : Layered ascending L B (e :: base) keys)
    (hc : ∀ c ∈ keys, Before ascending e.1 c) : ¬ L e.1 := fun hL =>
  (hc e.1 (h.shadow e mem_cons_self hL)).ne rfl

theorem settle (h : Layered ascending L B base keys) :
    Layered ascending L B (settle ascending f base keys).1 (settle ascending f base keys).2 := by
  fun_induction MelodiaStore.settle ascending f base keys with
  | case1 base => exact h
  | case2 c keys hv => exact h
  | case3 c keys hv ih => exact ih (h.tail_keys fun e he => absurd he not_mem_nil)
  | case4 e base c keys hc => exact h
  | case5 e base c keys hc hv => exact h
  | case6 e base c keys hc hv ih => exact ih (h.tail_both (compareIn_eq_eq.mp hc))
  | case7 e base c keys hc hv => exact h
  | case8 e base c keys hc hv ih =>
    exact ih (h.tail_keys (h.ne_of_before (compareIn_eq_gt.mp hc)))

end Layered

/-! ### Skipping hidden keys -/

/-- The key is hidden and, where there is a limit, comes before it. -/
def hides (ascending : Bool) (f : K → Option V) (limit : Option K) (c : K) : Bool :=
  (f c).isNone && limit.all fun u => compareIn ascending c u == .lt

/-- The keys that are looked up while hidden keys before a limit are skipped: those, and
the one behind them. -/
def skipped (ascending : Bool) (f : K → Option V) (limit : Option K) : List K → Set K
  | [] => ∅
  | c :: keys =>
    insert c (if hides ascending f limit c then skipped ascending f limit keys else ∅)

theorem hides_none : hides ascending f none c = (f c).isNone := by
  simp [hides]

theorem hides_some {u : K} :
    hides ascending f (some u) c = true ↔ f c = none ∧ Before ascending c u := by
  simp [hides, compareIn_eq_lt]

/-- With the base used up, settling skips the hidden keys. -/
theorem settle_nil (keys : List K) :
    settle ascending f [] keys = ([], keys.dropWhile (hides ascending f none)) ∧
      consulted ascending f [] keys = skipped ascending f none keys := by
  induction keys with
  | nil => exact ⟨rfl, rfl⟩
  | cons c keys ih =>
    cases hv : f c with
    | some v => simp [settle, consulted, skipped, hides_none, hv]
    | none => simp [settle, consulted, skipped, hides_none, hv, ih]

/-- Settling may first skip the hidden keys before the next entry of the base. -/
theorem settle_skip (keys : List K) :
    settle ascending f (e :: base) (keys.dropWhile (hides ascending f (some e.1))) =
      settle ascending f (e :: base) keys := by
  induction keys with
  | nil => rfl
  | cons c keys ih =>
    by_cases hc : hides ascending f (some e.1) c = true
    · obtain ⟨hv, hbefore⟩ := hides_some.mp hc
      rw [List.dropWhile_cons_of_pos hc, ih]
      simp [settle, compareIn_eq_gt.mpr hbefore, hv]
    · rw [List.dropWhile_cons_of_neg hc]

/-- What is looked up when a hidden key before the next entry of the base is skipped
first. -/
theorem consulted_skip (hc : hides ascending f (some e.1) c = true) :
    consulted ascending f (e :: base) (c :: keys) =
      skipped ascending f (some e.1) (c :: keys) ∪ consulted ascending f (e :: base)
        ((c :: keys).dropWhile (hides ascending f (some e.1))) := by
  induction keys generalizing c with
  | nil =>
    obtain ⟨hv, hbefore⟩ := hides_some.mp hc
    simp [consulted, skipped, compareIn_eq_gt.mpr hbefore, hv, hc]
  | cons c' keys ih =>
    obtain ⟨hv, hbefore⟩ := hides_some.mp hc
    have hmem : c' ∈ skipped ascending f (some e.1) (c' :: keys) := Set.mem_insert _ _
    have hstep : consulted ascending f (e :: base) (c :: c' :: keys) =
        insert c ({c'} ∪ consulted ascending f (e :: base) (c' :: keys)) := by
      rw [consulted, compareIn_eq_gt.mpr hbefore]
      simp [hv]
    have hskip : skipped ascending f (some e.1) (c :: c' :: keys) =
        insert c (skipped ascending f (some e.1) (c' :: keys)) := by
      rw [skipped, if_pos hc]
    rw [hstep, hskip, List.dropWhile_cons_of_pos hc]
    by_cases hc' : hides ascending f (some e.1) c' = true
    · rw [ih hc', ← Set.union_assoc, Set.insert_union,
        Set.union_eq_right.mpr (Set.singleton_subset_iff.mpr hmem)]
    · have hlast : skipped ascending f (some e.1) (c' :: keys) = {c'} := by
        rw [skipped, if_neg hc', insert_empty_eq]
      rw [List.dropWhile_cons_of_neg hc', hlast, Set.insert_union]

theorem Layered.skip {L : K → Prop} {B : K × V → Prop}
    (h : Layered ascending L B (e :: base) keys) :
    Layered ascending L B (e :: base) (keys.dropWhile (hides ascending f (some e.1))) := by
  induction keys with
  | nil => exact h
  | cons c keys ih =>
    by_cases hc : hides ascending f (some e.1) c = true
    · rw [List.dropWhile_cons_of_pos hc]
      exact ih (h.tail_keys (h.ne_of_before (hides_some.mp hc).2))
    · rw [List.dropWhile_cons_of_neg hc]
      exact h

/-! ### The keys that are looked up -/

variable {k h : K}

/-- `k` is right behind a hidden key of the layer that comes before `h` and shadows nothing. -/
def Behind (ascending : Bool) (f : K → Option V) (base : List (K × V)) (keys : List K)
    (h k : K) : Prop :=
  ∃ c ∈ keys, f c = none ∧ (∀ e ∈ base, e.1 ≠ c) ∧ Before ascending c h ∧
    Before ascending c k ∧ ∀ c' ∈ keys, Before ascending c c' → ¬ Before ascending c' k

/-- In a sorted list the first key is the one with no key before it. -/
theorem head?_eq_some_iff_of_sorted (hkeys : keys.Pairwise (Before ascending)) (hk : k ∈ keys) :
    keys.head? = some k ↔ ∀ c ∈ keys, ¬ Before ascending c k := by
  cases keys with
  | nil => exact absurd hk not_mem_nil
  | cons x keys =>
    rw [pairwise_cons] at hkeys
    rw [List.head?_cons, Option.some.injEq]
    constructor
    · rintro rfl c hc
      rcases mem_cons.mp hc with rfl | hc
      · exact Before.irrefl ascending c
      · exact (hkeys.1 c hc).asymm
    · intro h
      rcases mem_cons.mp hk with rfl | hk
      · rfl
      · exact absurd (hkeys.1 k hk) (h x mem_cons_self)

/-- The key in front of a layer adds the key right behind it. -/
theorem behind_cons (hkeys : (c :: keys).Pairwise (Before ascending)) (hk : k ∈ keys) :
    Behind ascending f base (c :: keys) h k ↔ Behind ascending f base keys h k ∨
      (f c = none ∧ (∀ e ∈ base, e.1 ≠ c) ∧ Before ascending c h ∧ keys.head? = some k) := by
  rw [pairwise_cons] at hkeys
  rw [head?_eq_some_iff_of_sorted hkeys.2 hk]
  constructor
  · rintro ⟨c', hc', hhidden, hbase, hh, hck, hnext⟩
    rcases mem_cons.mp hc' with rfl | hc'
    · exact .inr ⟨hhidden, hbase, hh, fun x hx =>
        hnext x (mem_cons_of_mem _ hx) (hkeys.1 x hx)⟩
    · exact .inl ⟨c', hc', hhidden, hbase, hh, hck, fun x hx =>
        hnext x (mem_cons_of_mem _ hx)⟩
  · rintro (⟨c', hc', hhidden, hbase, hh, hck, hnext⟩ | ⟨hhidden, hbase, hh, hfirst⟩)
    · refine ⟨c', mem_cons_of_mem _ hc', hhidden, hbase, hh, hck, fun x hx hbefore => ?_⟩
      rcases mem_cons.mp hx with rfl | hx
      · exact absurd hbefore (hkeys.1 c' hc').asymm
      · exact hnext x hx hbefore
    · refine ⟨c, mem_cons_self, hhidden, hbase, hh, hkeys.1 k hk, fun x hx hbefore => ?_⟩
      rcases mem_cons.mp hx with rfl | hx
      · exact absurd hbefore (Before.irrefl ascending x)
      · exact hfirst x hx

/-- Nothing is behind a key when all keys come after `h`. -/
theorem not_behind (hkeys : ∀ c ∈ keys, ¬ Before ascending c h) :
    ¬ Behind ascending f base keys h k := by
  rintro ⟨c, hc, -, -, hh, -⟩
  exact hkeys c hc hh

section

variable (hbase : base.Pairwise fun a b => Before ascending a.1 b.1)
  (hkeys : keys.Pairwise (Before ascending))
include hbase hkeys

/-- Every entry of an overlay comes after what comes before both lists. -/
theorem before_overlay (hcb : ∀ e ∈ base, Before ascending c e.1)
    (hck : ∀ x ∈ keys, Before ascending c x) :
    ∀ e ∈ overlay ascending f base keys, Before ascending c e.1 := by
  rintro ⟨k, v⟩ he
  rcases (mem_overlay hbase hkeys).mp he with ⟨hk, -⟩ | ⟨-, hk⟩
  · exact hck k hk
  · exact hcb (k, v) hk

/-- What settling drops comes before every entry. -/
theorem mem_settle_or_before :
    (∀ x ∈ keys, x ∈ (settle ascending f base keys).2 ∨
      ∀ e ∈ overlay ascending f base keys, Before ascending x e.1) ∧
    (∀ b ∈ base, b ∈ (settle ascending f base keys).1 ∨
      ∀ e ∈ overlay ascending f base keys, Before ascending b.1 e.1) := by
  fun_induction settle ascending f base keys with
  | case1 base | case2 c keys h => exact ⟨fun x hx => .inl hx, fun b hb => .inl hb⟩
  | case3 c keys h ih =>
    have hsorted := pairwise_cons.mp hkeys
    obtain ⟨ihk, ihb⟩ := ih hbase hsorted.2
    rw [overlay_nil_cons, Option.not_isSome_iff_eq_none.mp h]
    refine ⟨fun x hx => ?_, ihb⟩
    rcases mem_cons.mp hx with rfl | hx
    · exact .inr (before_overlay hbase hsorted.2 (fun e he => absurd he not_mem_nil)
        hsorted.1)
    · exact ihk x hx
  | case4 e base c keys h | case5 e base c keys h hv =>
    exact ⟨fun x hx => .inl hx, fun b hb => .inl hb⟩
  | case6 e base c keys h hv ih =>
    have hsorted := pairwise_cons.mp hkeys
    have hsorted' := pairwise_cons.mp hbase
    have hc : e.1 = c := compareIn_eq_eq.mp h
    obtain ⟨ihk, ihb⟩ := ih hsorted'.2 hsorted.2
    have hfirst := before_overlay (f := f) hsorted'.2 hsorted.2
      (fun e' he' => hc ▸ hsorted'.1 e' he') hsorted.1
    rw [overlay_cons_cons_eq hc fun e' he' => hc ▸ hsorted'.1 e' he',
      Option.not_isSome_iff_eq_none.mp hv]
    refine ⟨fun x hx => ?_, fun b hb => ?_⟩
    · rcases mem_cons.mp hx with rfl | hx
      · exact .inr hfirst
      · exact ihk x hx
    · rcases mem_cons.mp hb with rfl | hb
      · exact .inr (hc ▸ hfirst)
      · exact ihb b hb
  | case7 e base c keys h hv => exact ⟨fun x hx => .inl hx, fun b hb => .inl hb⟩
  | case8 e base c keys h hv ih =>
    have hsorted := pairwise_cons.mp hkeys
    have hsorted' := pairwise_cons.mp hbase
    have hc := compareIn_eq_gt.mp h
    obtain ⟨ihk, ihb⟩ := ih hbase hsorted.2
    rw [overlay_cons_cons_gt hc, Option.not_isSome_iff_eq_none.mp hv]
    refine ⟨fun x hx => ?_, ihb⟩
    rcases mem_cons.mp hx with rfl | hx
    · exact .inr (before_overlay hbase hsorted.2 (List.forall_mem_cons.mpr
        ⟨hc, fun e' he' => hc.trans (hsorted'.1 e' he')⟩) hsorted.1)
    · exact ihk x hx

end

/-- What is left of sorted keys behind the first one. -/
theorem mem_iff_mem_cons_and_before {x : K} (hkeys : (c :: keys).Pairwise (Before ascending)) :
    x ∈ keys ↔ x ∈ c :: keys ∧ Before ascending c x := by
  constructor
  · exact fun hx => ⟨mem_cons_of_mem c hx, (pairwise_cons.mp hkeys).1 x hx⟩
  · rintro ⟨hx, hbefore⟩
    exact (mem_cons.mp hx).resolve_left hbefore.ne.symm

/-- What is left of sorted entries behind the first one. -/
theorem mem_iff_mem_cons_and_before' {b : K × V}
    (hbase : (e :: base).Pairwise fun a b => Before ascending a.1 b.1) :
    b ∈ base ↔ b ∈ e :: base ∧ Before ascending e.1 b.1 := by
  constructor
  · exact fun hb => ⟨mem_cons_of_mem e hb, (pairwise_cons.mp hbase).1 b hb⟩
  · rintro ⟨hb, hbefore⟩
    refine (mem_cons.mp hb).resolve_left ?_
    rintro rfl
    exact Before.irrefl ascending _ hbefore

/-- The keys `T` are those of the layer that are looked up before the walk stands on the
first of the entries `es`. -/
def LookedUp (ascending : Bool) (f : K → Option V) (base : List (K × V)) (keys : List K)
    (es : List (K × V)) (T : Set K) : Prop :=
  ∀ k, k ∈ T ↔ k ∈ keys ∧
    ∀ e ∈ es.head?, ¬ Before ascending e.1 k ∨ Behind ascending f base keys e.1 k

/-- A walk that stands on the first key of the layer has looked up that one. -/
theorem lookedUp_front (hkeys : (c :: keys).Pairwise (Before ascending))
    (hes : ∃ v, es.head? = some (c, v)) : LookedUp ascending f base (c :: keys) es {c} := by
  rw [pairwise_cons] at hkeys
  obtain ⟨v, hv⟩ := hes
  intro k
  rw [hv, Set.mem_singleton_iff]
  constructor
  · rintro rfl
    refine ⟨mem_cons_self, fun e he => ?_⟩
    obtain rfl := Option.some.inj he
    exact .inl (Before.irrefl ascending _)
  · rintro ⟨hk, h⟩
    rcases mem_cons.mp hk with rfl | hk
    · rfl
    · rcases h (c, v) rfl with h | h
      · exact absurd (hkeys.1 k hk) h
      · refine absurd h (not_behind fun x hx => ?_)
        rcases mem_cons.mp hx with rfl | hx
        · exact Before.irrefl ascending x
        · exact (hkeys.1 x hx).asymm

/-- Nothing is behind a key that shadows an entry of the base. -/
theorem behind_shadowed (hkeys : (c :: keys).Pairwise (Before ascending)) (hc : e.1 = c)
    (hk : k ∈ keys) :
    Behind ascending f (e :: base) (c :: keys) h k ↔ Behind ascending f base keys h k := by
  rw [behind_cons hkeys hk]
  constructor
  · rintro (⟨x, hx, hhidden, hout, hrest⟩ | ⟨-, hout, -⟩)
    · exact ⟨x, hx, hhidden, fun e' he' => hout e' (mem_cons_of_mem e he'), hrest⟩
    · exact absurd hc (hout e mem_cons_self)
  · rintro ⟨x, hx, hhidden, hout, hrest⟩
    refine .inl ⟨x, hx, hhidden, fun e' he' => ?_, hrest⟩
    rcases mem_cons.mp he' with rfl | he'
    · rw [hc]
      exact ((pairwise_cons.mp hkeys).1 x hx).ne
    · exact hout e' he'

/-- A hidden key in front is looked up, and the walk goes on behind it. -/
theorem lookedUp_hidden {T : Set K} (hes : ∀ e ∈ es, Before ascending c e.1)
    (hsub : ∀ k ∈ T, k ∈ keys) (hT : ∀ k ∈ keys, (k ∈ T ↔ ∀ e ∈ es.head?,
      ¬ Before ascending e.1 k ∨ Behind ascending f base (c :: keys) e.1 k)) :
    LookedUp ascending f base (c :: keys) es (insert c T) := by
  intro k
  rw [Set.mem_insert_iff, mem_cons]
  constructor
  · rintro (rfl | hk)
    · exact ⟨.inl rfl, fun e he => .inl (hes e (List.mem_of_head? he)).asymm⟩
    · exact ⟨.inr (hsub k hk), (hT k (hsub k hk)).mp hk⟩
  · rintro ⟨rfl | hk, h⟩
    · exact .inl rfl
    · exact .inr ((hT k hk).mpr h)

/-- **The keys that are looked up** are the keys of the layer up to the next entry, and the
key right behind a hidden one before it. -/
theorem lookedUp_consulted (hbase : base.Pairwise fun a b => Before ascending a.1 b.1)
    (hkeys : keys.Pairwise (Before ascending)) :
    LookedUp ascending f base keys (overlay ascending f base keys)
      (consulted ascending f base keys) := by
  fun_induction consulted ascending f base keys with
  | case1 => exact fun k => ⟨fun h => h.elim, fun h => absurd h.1 not_mem_nil⟩
  | case2 c keys ih =>
    have hsorted := pairwise_cons.mp hkeys
    rw [overlay_nil_cons]
    cases hv : f c with
    | some v => simpa using lookedUp_front hkeys ⟨v, rfl⟩
    | none =>
      have ih := ih hbase hsorted.2
      rw [if_neg (by simp)]
      refine lookedUp_hidden (before_overlay hbase hsorted.2
        (fun e he => absurd he not_mem_nil) hsorted.1) (fun k hk => ((ih k).mp hk).1)
        fun k hk => ?_
      simp only [behind_cons hkeys hk]
      constructor
      · exact fun h e he => (((ih k).mp h).2 e he).imp_right .inl
      · intro h
        by_cases hfirst : keys.head? = some k
        · obtain ⟨rest, rfl⟩ := List.head?_eq_some_iff.mp hfirst
          exact Set.mem_insert k _
        · refine (ih k).mpr ⟨hk, fun e he => (h e he).imp_right ?_⟩
          exact fun h => h.resolve_right fun h => hfirst h.2.2.2
  | case3 e base c keys hcmp =>
    have hsorted := pairwise_cons.mp hkeys
    have hc := compareIn_eq_lt.mp hcmp
    rw [overlay_cons_cons_lt hc]
    have hafter : ∀ k ∈ c :: keys, Before ascending e.1 k :=
      List.forall_mem_cons.mpr ⟨hc, fun k hk => hc.trans (hsorted.1 k hk)⟩
    refine fun k => ⟨fun h => h.elim, fun h => ?_⟩
    rcases h.2 e rfl with hk | hk
    · exact absurd (hafter k h.1) hk
    · exact absurd hk (not_behind fun x hx => (hafter x hx).asymm)
  | case4 e base c keys hcmp ih =>
    have hsorted := pairwise_cons.mp hkeys
    have hsorted' := pairwise_cons.mp hbase
    have hc : e.1 = c := compareIn_eq_eq.mp hcmp
    rw [overlay_cons_cons_eq hc fun e' he' => hc ▸ hsorted'.1 e' he']
    cases hv : f c with
    | some v => simpa using lookedUp_front hkeys ⟨v, rfl⟩
    | none =>
      have ih := ih hsorted'.2 hsorted.2
      rw [if_neg (by simp)]
      refine lookedUp_hidden (before_overlay hsorted'.2 hsorted.2
        (fun e' he' => hc ▸ hsorted'.1 e' he') hsorted.1) (fun k hk => ((ih k).mp hk).1)
        fun k hk => ?_
      simp only [behind_shadowed hkeys hc hk]
      exact ⟨fun h => ((ih k).mp h).2, fun h => (ih k).mpr ⟨hk, h⟩⟩
  | case5 e base c keys hcmp ih =>
    have hsorted := pairwise_cons.mp hkeys
    have hsorted' := pairwise_cons.mp hbase
    have hc := compareIn_eq_gt.mp hcmp
    have hafter : ∀ e' ∈ e :: base, Before ascending c e'.1 :=
      List.forall_mem_cons.mpr ⟨hc, fun e' he' => hc.trans (hsorted'.1 e' he')⟩
    rw [overlay_cons_cons_gt hc]
    cases hv : f c with
    | some v => simpa using lookedUp_front hkeys ⟨v, rfl⟩
    | none =>
      have ih := ih hbase hsorted.2
      have hes : ∀ e' ∈ overlay ascending f (e :: base) keys, Before ascending c e'.1 :=
        before_overlay hbase hsorted.2 hafter hsorted.1
      rw [if_neg (by simp)]
      refine lookedUp_hidden hes ?_ fun k hk => ?_
      · rintro k (hk | hk)
        · exact List.mem_of_head? hk
        · exact ((ih k).mp hk).1
      simp only [behind_cons hkeys hk]
      constructor
      · rintro (hfirst | h) e' he'
        · exact .inr (.inr ⟨hv, fun x hx => (hafter x hx).ne.symm,
            hes e' (List.mem_of_head? he'), hfirst⟩)
        · exact (((ih k).mp h).2 e' he').imp_right .inl
      · intro h
        by_cases hfirst : keys.head? = some k
        · exact .inl hfirst
        · refine .inr ((ih k).mpr ⟨hk, fun e' he' => (h e' he').imp_right ?_⟩)
          exact fun h => h.resolve_right fun h => hfirst h.2.2.2

/-! ### The front of a walk -/

/-- The keys up to and with the first one that is `stop`. -/
def through (stop : K) : List K → List K
  | [] => []
  | k :: keys => if k = stop then [k] else k :: through stop keys

theorem through_isPrefix (stop : K) (keys : List K) : through stop keys <+: keys := by
  induction keys with
  | nil => exact List.prefix_rfl
  | cons k keys ih =>
    rw [through]
    split
    · exact (List.prefix_cons_inj k).mpr List.nil_prefix
    · exact (List.prefix_cons_inj k).mpr ih

theorem through_eq_self (h : stop ∉ keys) : through stop keys = keys := by
  induction keys with
  | nil => rfl
  | cons k keys ih =>
    rw [mem_cons, not_or] at h
    rw [through, if_neg (Ne.symm h.1), ih h.2]

/-- Among distinct keys, the front up to the key at a position. -/
theorem through_getElem (h : keys.Nodup) {n : ℕ} (hn : n < keys.length) :
    through keys[n] keys = keys.take (n + 1) := by
  induction keys generalizing n with
  | nil => cases hn
  | cons k keys ih =>
    obtain ⟨hk, hnodup⟩ := List.nodup_cons.mp h
    cases n with
    | zero => simp [through]
    | succ n =>
      rw [List.length_cons, Nat.add_lt_add_iff_right] at hn
      have hne : k ≠ keys[n] := fun heq => hk (heq ▸ List.getElem_mem hn)
      rw [List.getElem_cons_succ, through, if_neg hne, ih hnodup hn, List.take_succ_cons]

/-- In sorted keys, the front are the keys that do not come after `stop`. -/
theorem mem_through (hkeys : keys.Pairwise (Before ascending)) :
    k ∈ through stop keys ↔ k ∈ keys ∧ (stop ∈ keys → ¬ Before ascending stop k) := by
  induction keys with
  | nil => simp [through]
  | cons x keys ih =>
    have hsorted := pairwise_cons.mp hkeys
    rw [through]
    split
    · next hx =>
      subst hx
      rw [List.mem_singleton]
      constructor
      · rintro rfl
        exact ⟨mem_cons_self, fun _ => Before.irrefl ascending k⟩
      · rintro ⟨hk, hstop⟩
        rcases mem_cons.mp hk with rfl | hk
        · rfl
        · exact absurd (hsorted.1 k hk) (hstop mem_cons_self)
    · next hx =>
      rw [mem_cons, mem_cons, ih hsorted.2, mem_cons]
      constructor
      · rintro (rfl | ⟨hk, hstop⟩)
        · refine ⟨.inl rfl, fun hmem => ?_⟩
          exact (hsorted.1 stop (hmem.resolve_left fun h => hx h.symm)).asymm
        · exact ⟨.inr hk, fun hmem => hstop (hmem.resolve_left fun h => hx h.symm)⟩
      · rintro ⟨rfl | hk, hstop⟩
        · exact .inl rfl
        · exact .inr ⟨hk, fun hmem => hstop (.inr hmem)⟩

end MelodiaStore
