import MelodiaStore.Ordered

/-!
# Cursors over Sorted Items

The library layer for cursors that move over the items of a sorted container. The container is
a map; how it is laid out and how a cursor finds its way are not modelled. What a cursor does
is said by where its moves land: `Lands` is a move to the first key of a set in a direction,
and `SortedCursor.Documented` says so of each move, in the terms in which such a package
documents them.

* `Lands.atHead` turns this into lists: a move lands on the head of the sorted list of the keys
  it may go to.
* `Documented.step` is the move by one item in the direction of a traversal.
* `SortedCursor.ofMap` is a cursor of this kind for each map, and `documented_ofMap` proves it.
-/

namespace MelodiaStore

variable {ι K V : Type} [LinearOrder K]

/-- The moves of a cursor with the state `ι`, and the item it is on. A move reports whether
it found an item. -/
structure SortedCursor (ι K V : Type) where
  seek : K → ι → Bool × ι
  first : ι → Bool × ι
  last : ι → Bool × ι
  next : ι → Bool × ι
  prev : ι → Bool × ι
  item : ι → K × V

/-! ### Where a move lands -/

/-- A move to the first of the keys `S` in a direction, or nowhere when there is none. `On i k`
says that a cursor with the state `i` is on the item with the key `k`. -/
inductive Lands (On : ι → K → Prop) (ascending : Bool) (S : K → Prop) : Bool × ι → Prop
  | found {i : ι} {k : K} (mem : S k) (least : ∀ k', S k' → k' = k ∨ Before ascending k k')
      (on : On i k) : Lands On ascending S (true, i)
  | absent {i : ι} (none : ∀ k, ¬ S k) : Lands On ascending S (false, i)

/-- A move that has landed on the first key of a list. -/
def AtHead (On : ι → K → Prop) (r : Bool × ι) : List K → Prop
  | [] => r.1 = false
  | k :: _ => r.1 = true ∧ On r.2 k

section Lands

variable {On : ι → K → Prop} {ascending : Bool} {S : K → Prop} {r : Bool × ι}

theorem Lands.congr {T : K → Prop} (h : Lands On ascending S r) (hST : ∀ k, S k ↔ T k) :
    Lands On ascending T r := by
  obtain rfl : S = T := funext fun k => propext (hST k)
  exact h

/-- **A move lands on the head** of the sorted list of the keys it may go to. -/
theorem Lands.atHead (h : Lands On ascending S r) {keys : List K}
    (hkeys : keys.Pairwise (Before ascending)) (hmem : ∀ k, k ∈ keys ↔ S k) :
    AtHead On r keys := by
  cases h with
  | absent hnone =>
    cases keys with
    | nil => rfl
    | cons k keys => exact absurd ((hmem k).mp List.mem_cons_self) (hnone k)
  | @found i k hk hleast hon =>
    have hmem' := (hmem k).mpr hk
    cases keys with
    | nil => exact absurd hmem' List.not_mem_nil
    | cons k' keys =>
      -- each of the two keys is the other one or comes before it
      rcases hleast k' ((hmem k').mp List.mem_cons_self) with rfl | hbefore
      · exact ⟨rfl, hon⟩
      · rcases List.mem_cons.mp hmem' with rfl | htail
        · exact absurd hbefore (Before.irrefl ascending k)
        · exact absurd hbefore ((List.pairwise_cons.mp hkeys).1 k htail).asymm

end Lands

/-! ### What a cursor is documented to do -/

namespace SortedCursor

/-- **The documented moves** of a cursor over the items of a map: `seek` goes to the first key
at or after the one it is given, `first` and `last` to the ends, `next` and `prev` from one
item to its neighbours. -/
structure Documented (c : SortedCursor ι K V) (m : GoMap K V) (On : ι → K → Prop) : Prop where
  item : ∀ {i k}, On i k → ∃ v, ⟨k, v⟩ ∈ m.entries ∧ c.item i = (k, v)
  seek : ∀ key i, Lands On true (fun k => k ∈ m ∧ key ≤ k) (c.seek key i)
  first : ∀ i, Lands On true (fun k => k ∈ m) (c.first i)
  last : ∀ i, Lands On false (fun k => k ∈ m) (c.last i)
  next : ∀ {i k}, On i k → Lands On true (fun k' => k' ∈ m ∧ k < k') (c.next i)
  prev : ∀ {i k}, On i k → Lands On false (fun k' => k' ∈ m ∧ k' < k) (c.prev i)

/-- One item on in a direction. -/
theorem Documented.step {c : SortedCursor ι K V} {m : GoMap K V} {On : ι → K → Prop}
    (h : c.Documented m On) {i : ι} {k : K} (hon : On i k) (ascending : Bool) :
    Lands On ascending (fun k' => k' ∈ m ∧ Before ascending k k')
      (if ascending then c.next i else c.prev i) := by
  cases ascending with
  | true => exact (h.next hon).congr fun k' => by rw [before_true]
  | false => exact (h.prev hon).congr fun k' => by rw [before_false]

/-! ### A cursor for each map -/

/-- The report of a move to an item, if there is one. -/
def land (e : Option (K × V)) : Bool × Option (K × V) := (e.isSome, e)

/-- A cursor that keeps the item it is on and finds the others by a traversal. -/
def ofMap [Inhabited K] [Inhabited V] (m : GoMap K V) : SortedCursor (Option (K × V)) K V where
  seek key _ := land (traverse m (fun k => decide (key ≤ k)) true).head?
  first _ := land (traverse m (fun _ => true) true).head?
  last _ := land (traverse m (fun _ => true) false).head?
  next i := land (traverse m (fun k => i.any fun e => decide (e.1 < k)) true).head?
  prev i := land (traverse m (fun k => i.any fun e => decide (k < e.1)) false).head?
  item i := i.getD default

/-- The item that such a cursor keeps. -/
def OnItem (m : GoMap K V) (i : Option (K × V)) (k : K) : Prop :=
  ∃ v, ⟨k, v⟩ ∈ m.entries ∧ i = some (k, v)

theorem lands_head?_traverse (m : GoMap K V) (p : K → Bool) (ascending : Bool) :
    Lands (OnItem m) ascending (fun k => k ∈ m ∧ p k = true)
      (land (traverse m p ascending).head?) := by
  have hsorted := pairwise_traverse m p ascending
  have hmem : ∀ k, k ∈ m ∧ p k = true ↔ ∃ v, (k, v) ∈ traverse m p ascending := by
    intro k
    simp only [AList.mem_keys, AList.keys, List.mem_keys, mem_traverse]
    constructor
    · rintro ⟨⟨v, hv⟩, hp⟩
      exact ⟨v, hp, hv⟩
    · rintro ⟨v, hp, hv⟩
      exact ⟨⟨v, hv⟩, hp⟩
  cases htraverse : traverse m p ascending with
  | nil =>
    refine .absent fun k hk => ?_
    obtain ⟨v, hv⟩ := (hmem k).mp hk
    rw [htraverse] at hv
    exact absurd hv List.not_mem_nil
  | cons e es =>
    have he : e ∈ traverse m p ascending := htraverse ▸ List.mem_cons_self
    refine .found ((hmem e.1).mpr ⟨e.2, he⟩) (fun k hk => ?_)
      ⟨e.2, (mem_traverse.mp he).2, rfl⟩
    obtain ⟨v, hv⟩ := (hmem k).mp hk
    rw [htraverse] at hv hsorted
    rcases List.mem_cons.mp hv with rfl | hv
    · exact .inl rfl
    · exact .inr ((List.pairwise_cons.mp hsorted).1 (k, v) hv)

/-- **The cursor of a map** moves as documented. -/
theorem documented_ofMap [Inhabited K] [Inhabited V] (m : GoMap K V) :
    (ofMap m).Documented m (OnItem m) where
  item := by
    rintro i k ⟨v, hv, rfl⟩
    exact ⟨v, hv, rfl⟩
  seek key _ := (lands_head?_traverse m _ true).congr fun k => by simp
  first _ := (lands_head?_traverse m _ true).congr fun k => by simp
  last _ := (lands_head?_traverse m _ false).congr fun k => by simp
  next := by
    rintro i k ⟨v, -, rfl⟩
    exact (lands_head?_traverse m _ true).congr fun k' => by simp
  prev := by
    rintro i k ⟨v, -, rfl⟩
    exact (lands_head?_traverse m _ false).congr fun k' => by simp

end SortedCursor

end MelodiaStore
