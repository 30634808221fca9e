import Mathlib.Data.List.ReduceOption
import MelodiaStore.Types

/-!
# The Versions of a Key

A multi-version store keeps, for every key, the versions that the transactions of a block
have written to it. This module models the version entries (`multiversion/data_structures.go`)
and the two containers for them: `MultiVersionListItem`, a slice with one slot for each
transaction (`multiversion/data_list.go`), and `MultiVersionItem`, a B-tree ordered by
transaction index. `MultiVersionValue` is the interface over both.

The slice clamps: a write, deletion or removal at an index past its end goes to the last
slot, and a lookup from an index past its end finds nothing.

## Specification

Every operation is described once, for both containers, through three functions of a
value: `slot i`, the version kept in place `i`; `fits i`, which says that place `i`
exists; and `clamp i`, the place an operation at index `i` acts on. `Put item c v item'`
says that `item'` is `item` with place `c` overwritten by `v`. Lookups are the latest
slot below an index (`getLatestBeforeIndex_of_fits`) and the latest one that is not an
estimate (`getLatestNonEstimate_eq_some`, `getLatestNonEstimate_eq_none`).
-/

namespace MelodiaStore

/-! ### Version entries -/

/-- `valueItem`: one version of a key. -/
structure ValueItem where
  index : ℕ
  incarnation : ℤ
  value : Slice
  estimate : Bool
  deriving DecidableEq, Repr

namespace ValueItem

/-- `valueItem.IsDeleted`. -/
def isDeleted (v : ValueItem) : Bool := v.value.isNone && !v.estimate

/-- `valueItem.IsEstimate`. -/
def isEstimate (v : ValueItem) : Bool := v.estimate

end ValueItem

/-- `NewValueItem`. -/
def newValueItem (index : ℕ) (incarnation : ℤ) (value : Slice) : ValueItem :=
  ⟨index, incarnation, value, false⟩

/-- `NewEstimateItem`. -/
def newEstimateItem (index : ℕ) (incarnation : ℤ) : ValueItem := ⟨index, incarnation, none, true⟩

/-- `NewDeletedItem`. -/
def newDeletedItem (index : ℕ) (incarnation : ℤ) : ValueItem := ⟨index, incarnation, none, false⟩

/-! ### The slice of versions -/

/-- `multiVersionListItem`: a slice of versions in which `none` is a `nil` slot. -/
structure MultiVersionListItem where
  valueList : List (Option ValueItem)
  deriving DecidableEq, Repr

/-- `NewMultiVersionListItem`. -/
def newMultiVersionListItem (size : ℕ) : MultiVersionListItem := ⟨List.replicate size none⟩

namespace MultiVersionListItem

variable {m m' : MultiVersionListItem} {i : ℕ} {v : Option ValueItem}

/-- The version in slot `i`. -/
def slot (m : MultiVersionListItem) (i : ℕ) : Option ValueItem := m.valueList[i]?.join

/-- The downward scan all lookups share: the first version below `i` that passes `p`. -/
def scanDown (m : MultiVersionListItem) (p : ValueItem → Bool) : ℕ → Option ValueItem
  | 0 => none
  | i + 1 =>
    match m.slot i with
    | some v => if p v then some v else m.scanDown p i
    | none => m.scanDown p i

/-- `multiVersionListItem.GetLatest`. -/
def getLatest (m : MultiVersionListItem) : Option ValueItem :=
  m.scanDown (fun _ => true) m.valueList.length

/-- `multiVersionListItem.GetLatestNonEstimate`. -/
def getLatestNonEstimate (m : MultiVersionListItem) : Option ValueItem :=
  m.scanDown (fun v => !v.isEstimate) m.valueList.length

/-- `multiVersionListItem.GetLatestBeforeIndex`. -/
def getLatestBeforeIndex (m : MultiVersionListItem) (index : ℕ) : Option ValueItem :=
  if index ≥ m.valueList.length then none
  else m.scanDown (fun v => decide (v.index < index)) index

/-- The growth of the slice in `GetLatestBeforeIndexExpansion`. -/
def expand (m : MultiVersionListItem) (index : ℕ) : MultiVersionListItem :=
  if index ≥ m.valueList.length then
    ⟨m.valueList ++ List.replicate ((index + 1 - m.valueList.length) * 2) none⟩
  else m

/-- `multiVersionListItem.GetLatestBeforeIndexExpansion`: the lookup and the slice it
leaves behind. -/
def getLatestBeforeIndexExpansion (m : MultiVersionListItem) (index : ℕ) :
    Option ValueItem × MultiVersionListItem :=
  ((m.expand index).scanDown (fun v => decide (v.index < index)) index, m.expand index)

/-- The slot an operation at `index` acts on. -/
def clamp (m : MultiVersionListItem) (index : ℕ) : ℕ :=
  if index ≥ m.valueList.length then m.valueList.length - 1 else index

/-- Write a slot; on an empty slice the clamped index is `-1`. -/
def store (m : MultiVersionListItem) (index : ℕ) (v : Option ValueItem) :
    Except Panic MultiVersionListItem :=
  if m.valueList.length = 0 then .error .indexOutOfRange
  else .ok ⟨m.valueList.set (m.clamp index) v⟩

/-- `multiVersionListItem.setCommonValue`. -/
def setCommonValue (m : MultiVersionListItem) (index : ℕ) (valueItem : ValueItem) :
    Except Panic MultiVersionListItem :=
  m.store index (some valueItem)

/-- `multiVersionListItem.Set`. -/
def set (m : MultiVersionListItem) (index : ℕ) (incarnation : ℤ) (value : Slice) :
    Except Panic MultiVersionListItem := do
  assertValidValue value
  m.setCommonValue index (newValueItem index incarnation value)

/-- `multiVersionListItem.SetEstimate`. -/
def setEstimate (m : MultiVersionListItem) (index : ℕ) (incarnation : ℤ) :
    Except Panic MultiVersionListItem :=
  m.setCommonValue index (newEstimateItem index incarnation)

/-- `multiVersionListItem.Delete`: unlike `Set`, the entry is made after clamping and
carries the clamped index. -/
def delete (m : MultiVersionListItem) (index : ℕ) (incarnation : ℤ) :
    Except Panic MultiVersionListItem :=
  m.setCommonValue (m.clamp index) (newDeletedItem (m.clamp index) incarnation)

/-- `multiVersionListItem.Remove`. -/
def remove (m : MultiVersionListItem) (index : ℕ) : Except Panic MultiVersionListItem :=
  m.store index none

/-- A scan finds the latest of the slots that pass. -/
theorem scanDown_eq (m : MultiVersionListItem) (p : ValueItem → Bool) (n : ℕ) :
    m.scanDown p n = latestBelow (fun i => (m.slot i).filter p) n := by
  induction n with
  | zero => rfl
  | succ n ih =>
    rw [scanDown, latestBelow, ih]
    cases hs : m.slot n with
    | none => simp
    | some v =>
      by_cases hp : p v
      · simp [hp, Option.filter]
      · simp [hp, Option.filter]

theorem slot_eq_none_of_length_le (h : m.valueList.length ≤ i) : m.slot i = none := by
  rw [slot, List.getElem?_eq_none h]
  rfl

/-- A new slice has empty slots only. -/
@[simp] theorem slot_newMultiVersionListItem (size i : ℕ) :
    (newMultiVersionListItem size).slot i = none := by
  simp only [slot, newMultiVersionListItem, List.getElem?_replicate]
  split <;> rfl

theorem clamp_lt (h : m.valueList.length ≠ 0) (i : ℕ) : m.clamp i < m.valueList.length := by
  unfold clamp
  split <;> omega

/-- Storing a slot, read through `slot`. -/
theorem store_eq_ok :
    m.store i v = .ok m' ↔
      m.valueList.length ≠ 0 ∧ m' = ⟨m.valueList.set (m.clamp i) v⟩ := by
  unfold store
  split
  · next h => simp [h]
  · next h => simp [h, eq_comm]

theorem slot_set {c j : ℕ} (hc : c < m.valueList.length) :
    slot ⟨m.valueList.set c v⟩ j = if j = c then v else m.slot j := by
  simp only [slot, List.getElem?_set]
  split
  · next h =>
    subst h
    simp
  · next h => rw [if_neg fun e => h e.symm]

/-- Removing a version again changes nothing. -/
theorem remove_idem {m'' : MultiVersionListItem} (h : m.remove i = .ok m')
    (h' : m'.remove i = .ok m'') : m'' = m' := by
  obtain ⟨-, rfl⟩ := store_eq_ok.mp h
  obtain ⟨-, rfl⟩ := store_eq_ok.mp h'
  simp only [clamp, List.length_set, List.set_set]

/-- Growing the slice adds empty slots only. -/
@[simp] theorem slot_expand (m : MultiVersionListItem) (index i : ℕ) :
    (m.expand index).slot i = m.slot i := by
  unfold expand
  split
  · simp only [slot, List.getElem?_append]
    split
    · rfl
    · next h =>
      rw [List.getElem?_eq_none (l := m.valueList) (by omega), List.getElem?_replicate]
      split <;> rfl
  · rfl

theorem length_le_expand (m : MultiVersionListItem) (index : ℕ) :
    m.valueList.length ≤ (m.expand index).valueList.length := by
  unfold expand
  split
  · rw [List.length_append]
    omega
  · exact le_rfl

end MultiVersionListItem

/-! ### The tree of versions -/

/-- `multiVersionItem`: a B-tree of versions, as the list of its items in ascending
order of transaction index. -/
structure MultiVersionItem where
  valueTree : List ValueItem
  sorted : valueTree.Pairwise fun v w => v.index < w.index

/-- `btree.ReplaceOrInsert` on the ascending list of items. -/
def replaceOrInsert (v : ValueItem) : List ValueItem → List ValueItem
  | [] => [v]
  | w :: rest =>
    if v.index < w.index then v :: w :: rest
    else if v.index = w.index then v :: rest
    else w :: replaceOrInsert v rest

variable {v : ValueItem} {l : List ValueItem}

/-- The version of the index is replaced. -/
theorem mem_replaceOrInsert {e : ValueItem} (hl : l.Pairwise fun v w => v.index < w.index) :
    e ∈ replaceOrInsert v l ↔ e = v ∨ (e ∈ l ∧ e.index ≠ v.index) := by
  induction l with
  | nil => simp [replaceOrInsert]
  | cons w rest ih =>
    rw [List.pairwise_cons] at hl
    unfold replaceOrInsert
    split
    · next h =>
      have hgt : ∀ x ∈ w :: rest, x.index ≠ v.index := by
        intro x hx
        rcases List.mem_cons.mp hx with rfl | hx
        · omega
        · have := hl.1 x hx
          omega
      rw [List.mem_cons]
      exact or_congr_right ⟨fun he => ⟨he, hgt e he⟩, fun he => he.1⟩
    · next h =>
      split
      · next heq =>
        rw [List.mem_cons, List.mem_cons]
        refine or_congr_right ⟨fun he => ⟨.inr he, ?_⟩, ?_⟩
        · have := hl.1 e he
          omega
        · rintro ⟨rfl | he, hne⟩
          · exact absurd heq.symm hne
          · exact he
      · next hne =>
        rw [List.mem_cons, ih hl.2, List.mem_cons]
        constructor
        · rintro (rfl | rfl | ⟨he, hi⟩)
          · exact .inr ⟨.inl rfl, fun e => hne e.symm⟩
          · exact .inl rfl
          · exact .inr ⟨.inr he, hi⟩
        · rintro (rfl | ⟨rfl | he, hi⟩)
          · exact .inr (.inl rfl)
          · exact .inl rfl
          · exact .inr (.inr ⟨he, hi⟩)

/-- The versions stay sorted. -/
theorem sorted_replaceOrInsert (hl : l.Pairwise fun v w => v.index < w.index) :
    (replaceOrInsert v l).Pairwise fun v w => v.index < w.index := by
  induction l with
  | nil => simp [replaceOrInsert]
  | cons w rest ih =>
    rw [List.pairwise_cons] at hl
    unfold replaceOrInsert
    split
    · next h =>
      rw [List.pairwise_cons, List.pairwise_cons]
      refine ⟨fun x hx => ?_, hl⟩
      rcases List.mem_cons.mp hx with rfl | hx
      · exact h
      · exact lt_trans h (hl.1 x hx)
    · next h =>
      split
      · next heq =>
        rw [List.pairwise_cons]
        exact ⟨fun x hx => heq ▸ hl.1 x hx, hl.2⟩
      · next hne =>
        rw [List.pairwise_cons]
        refine ⟨fun x hx => ?_, ih hl.2⟩
        rcases (mem_replaceOrInsert hl.2).mp hx with rfl | ⟨hx, -⟩
        · omega
        · exact hl.1 x hx

/-- `NewMultiVersionItem`. -/
def newMultiVersionItem : MultiVersionItem := ⟨[], List.Pairwise.nil⟩

namespace MultiVersionItem

/-- The version of transaction `i`. -/
def slot (t : MultiVersionItem) (i : ℕ) : Option ValueItem :=
  t.valueTree.find? fun v => v.index == i

/-- `multiVersionItem.GetLatest`: the maximum of the tree. -/
def getLatest (t : MultiVersionItem) : Option ValueItem := t.valueTree.getLast?

/-- `multiVersionItem.GetLatestNonEstimate`: a descent to the first item that is not an
estimate. -/
def getLatestNonEstimate (t : MultiVersionItem) : Option ValueItem :=
  t.valueTree.reverse.find? fun v => !v.isEstimate

/-- `multiVersionItem.GetLatestBeforeIndex`: a descent from the pivot `index - 1`. -/
def getLatestBeforeIndex (t : MultiVersionItem) (index : ℕ) : Option ValueItem :=
  t.valueTree.reverse.find? fun v => decide (v.index < index)

/-- Put an item into the tree. -/
def insert (t : MultiVersionItem) (v : ValueItem) : MultiVersionItem :=
  ⟨replaceOrInsert v t.valueTree, sorted_replaceOrInsert t.sorted⟩

/-- `multiVersionItem.Set`. -/
def set (t : MultiVersionItem) (index : ℕ) (incarnation : ℤ) (value : Slice) :
    Except Panic MultiVersionItem := do
  assertValidValue value
  pure (t.insert (newValueItem index incarnation value))

/-- `multiVersionItem.SetEstimate`. -/
def setEstimate (t : MultiVersionItem) (index : ℕ) (incarnation : ℤ) : MultiVersionItem :=
  t.insert (newEstimateItem index incarnation)

/-- `multiVersionItem.Delete`. -/
def delete (t : MultiVersionItem) (index : ℕ) (incarnation : ℤ) : MultiVersionItem :=
  t.insert (newDeletedItem index incarnation)

/-- `multiVersionItem.Remove`. -/
def remove (t : MultiVersionItem) (index : ℕ) : MultiVersionItem :=
  ⟨t.valueTree.filter fun v => v.index != index, t.sorted.filter _⟩

variable {t : MultiVersionItem} {v : ValueItem}

/-- Items of the tree are told apart by their index. -/
theorem slot_eq_some_iff {i : ℕ} : t.slot i = some v ↔ v ∈ t.valueTree ∧ v.index = i := by
  constructor
  · intro h
    exact ⟨List.mem_of_find?_eq_some h, by simpa using List.find?_some h⟩
  · rintro ⟨hv, rfl⟩
    cases hf : t.slot v.index with
    | none =>
      have := List.find?_eq_none.mp hf v hv
      simp at this
    | some w =>
      have hw := List.mem_of_find?_eq_some hf
      have hwi : w.index = v.index := by simpa using List.find?_some hf
      by_cases hvw : w = v
      · rw [hvw]
      · rcases List.Pairwise.forall_of_forall_of_flip
          (R := fun a b : ValueItem => a ≠ b → a.index ≠ b.index) (l := t.valueTree)
          (fun _ _ h => absurd rfl h)
          (t.sorted.imp fun h _ => h.ne) (t.sorted.imp fun h _ => h.ne') hw hv hvw hwi

/-- What a descent finds: the item of greatest index that passes. -/
theorem find?_reverse_eq_some_iff {p : ValueItem → Bool} : (t.valueTree.reverse.find? p) = some v ↔
      v ∈ t.valueTree ∧ p v = true ∧ ∀ w ∈ t.valueTree, v.index < w.index → p w = false := by
  rw [List.find?_eq_some_iff_append]
  constructor
  · rintro ⟨hp, as, bs, hrev, has⟩
    have hl : t.valueTree = bs.reverse ++ v :: as.reverse := by
      rw [← List.reverse_reverse t.valueTree, hrev]
      simp
    refine ⟨by rw [hl]; simp, hp, fun w hw hlt => ?_⟩
    have hs := t.sorted
    rw [hl] at hw hs
    rcases List.mem_append.mp hw with hw | hw
    · -- items before `v` in the ascending list have a smaller index
      have := (List.pairwise_append.mp hs).2.2 w hw v List.mem_cons_self
      omega
    · rcases List.mem_cons.mp hw with rfl | hw
      · omega
      · simpa using has w (List.mem_reverse.mp hw)
  · rintro ⟨hv, hp, hmax⟩
    obtain ⟨as, bs, hl⟩ := List.append_of_mem hv
    refine ⟨hp, bs.reverse, as.reverse, by rw [hl]; simp, fun w hw => ?_⟩
    have hw' : w ∈ bs := List.mem_reverse.mp hw
    have hs := t.sorted
    rw [hl] at hs
    have hlt : v.index < w.index :=
      (List.pairwise_cons.mp (List.pairwise_append.mp hs).2.1).1 w hw'
    rw [hmax w (by rw [hl]; simp [hw']) hlt]
    rfl

/-- Putting an item into the tree overwrites the version of its transaction. -/
theorem slot_insert (t : MultiVersionItem) (v : ValueItem) (j : ℕ) :
    (t.insert v).slot j = if j = v.index then some v else t.slot j := by
  refine Option.ext fun e => ?_
  simp only [slot_eq_some_iff, insert, mem_replaceOrInsert t.sorted]
  split
  · next h =>
    subst h
    simp only [Option.some.injEq]
    constructor
    · rintro ⟨rfl | ⟨-, hne⟩, he⟩
      · rfl
      · exact absurd he hne
    · rintro rfl
      exact ⟨.inl rfl, rfl⟩
  · next h =>
    rw [slot_eq_some_iff]
    constructor
    · rintro ⟨rfl | ⟨hm, -⟩, he⟩
      · exact absurd he.symm h
      · exact ⟨hm, he⟩
    · rintro ⟨hm, rfl⟩
      exact ⟨.inr ⟨hm, h⟩, rfl⟩

/-- Removing a transaction's version empties its place. -/
theorem slot_remove (t : MultiVersionItem) (i j : ℕ) :
    (t.remove i).slot j = if j = i then none else t.slot j := by
  refine Option.ext fun e => ?_
  simp only [slot_eq_some_iff, remove, List.mem_filter, bne_iff_ne]
  split
  · next h =>
    subst h
    simp only [reduceCtorEq, iff_false]
    rintro ⟨⟨-, hne⟩, he⟩
    exact hne he
  · next h =>
    rw [slot_eq_some_iff]
    constructor
    · rintro ⟨⟨hm, -⟩, he⟩
      exact ⟨hm, he⟩
    · rintro ⟨hm, rfl⟩
      exact ⟨⟨hm, h⟩, rfl⟩

end MultiVersionItem

/-! ### The interface over both containers -/

/-- `MultiVersionValue`: what a key of a multi-version map is bound to. `nilValue` is the
`nil` interface, on which every operation panics. -/
inductive MultiVersionValue
  | nilValue
  | list (m : MultiVersionListItem)
  | tree (t : MultiVersionItem)

namespace MultiVersionValue

open MultiVersionListItem (clamp_lt scanDown_eq slot_eq_none_of_length_le store_eq_ok)

variable {i : ℕ} {item item' : MultiVersionValue} {e : ValueItem} {m : MultiVersionListItem}
  {v : Option ValueItem} {inc : ℤ} {j : ℕ} {α β ε : Type} {value : Slice}

/-- `GetLatest`. -/
def getLatest : MultiVersionValue → Except Panic (Option ValueItem)
  | nilValue => .error .nilInterface
  | list m => .ok m.getLatest
  | tree t => .ok t.getLatest

/-- `GetLatestNonEstimate`. -/
def getLatestNonEstimate : MultiVersionValue → Except Panic (Option ValueItem)
  | nilValue => .error .nilInterface
  | list m => .ok m.getLatestNonEstimate
  | tree t => .ok t.getLatestNonEstimate

/-- `GetLatestBeforeIndex`. -/
def getLatestBeforeIndex (item : MultiVersionValue) (index : ℕ) :
    Except Panic (Option ValueItem) :=
  match item with
  | nilValue => .error .nilInterface
  | list m => .ok (m.getLatestBeforeIndex index)
  | tree t => .ok (t.getLatestBeforeIndex index)

/-- `Set`. -/
def set (item : MultiVersionValue) (index : ℕ) (incarnation : ℤ) (value : Slice) :
    Except Panic MultiVersionValue :=
  match item with
  | nilValue => .error .nilInterface
  | list m => (m.set index incarnation value).map list
  | tree t => (t.set index incarnation value).map tree

/-- `SetEstimate`. -/
def setEstimate (item : MultiVersionValue) (index : ℕ) (incarnation : ℤ) :
    Except Panic MultiVersionValue :=
  match item with
  | nilValue => .error .nilInterface
  | list m => (m.setEstimate index incarnation).map list
  | tree t => .ok (tree (t.setEstimate index incarnation))

/-- `Delete`. -/
def delete (item : MultiVersionValue) (index : ℕ) (incarnation : ℤ) :
    Except Panic MultiVersionValue :=
  match item with
  | nilValue => .error .nilInterface
  | list m => (m.delete index incarnation).map list
  | tree t => .ok (tree (t.delete index incarnation))

/-- `Remove`. -/
def remove (item : MultiVersionValue) (index : ℕ) : Except Panic MultiVersionValue :=
  match item with
  | nilValue => .error .nilInterface
  | list m => (m.remove index).map list
  | tree t => .ok (tree (t.remove index))

/-- All versions kept for the key. -/
def entries : MultiVersionValue → List ValueItem
  | nilValue => []
  | list m => m.valueList.reduceOption
  | tree t => t.valueTree

/-- The version kept in place `i`. -/
def slot (item : MultiVersionValue) (i : ℕ) : Option ValueItem :=
  match item with
  | nilValue => none
  | list m => m.slot i
  | tree t => t.slot i

/-- Place `i` exists. -/
def fits (item : MultiVersionValue) (i : ℕ) : Prop :=
  match item with
  | nilValue => False
  | list m => i < m.valueList.length
  | tree _ => True

/-- The place an operation at index `i` acts on. -/
def clamp (item : MultiVersionValue) (i : ℕ) : ℕ :=
  match item with
  | nilValue => i
  | list m => m.clamp i
  | tree _ => i

/-- `item'` is `item` with place `c` overwritten by `v`. -/
structure Put (item : MultiVersionValue) (c : ℕ) (v : Option ValueItem)
    (item' : MultiVersionValue) : Prop where
  slot_eq : ∀ j, item'.slot j = if j = c then v else item.slot j
  fits_iff : ∀ j, item'.fits j ↔ item.fits j

theorem fits_newMultiVersionListItem {size : ℕ} :
    (list (newMultiVersionListItem size)).fits i ↔ i < size := by
  simp [fits, newMultiVersionListItem]

/-- The versions kept for a key are those in its places. -/
theorem mem_entries : e ∈ item.entries ↔ ∃ i, item.slot i = some e := by
  cases item with
  | nilValue => simp [entries, slot]
  | list m =>
    rw [entries, List.reduceOption_mem_iff, List.mem_iff_getElem?]
    simp only [slot, MultiVersionListItem.slot, Option.join_eq_some_iff]
  | tree t =>
    simp only [entries, slot, MultiVersionItem.slot_eq_some_iff]
    constructor
    · intro h
      exact ⟨e.index, h, rfl⟩
    · rintro ⟨_, h, -⟩
      exact h

/-- An operation at an existing place is not clamped. -/
theorem clamp_of_fits (h : item.fits i) : item.clamp i = i := by
  cases item with
  | nilValue => rfl
  | list m =>
    simp only [fits] at h
    simp only [clamp, MultiVersionListItem.clamp]
    rw [if_neg (by omega)]
  | tree t => rfl

/-- A clamped operation only reaches the last place. -/
theorem clamp_ne (hj : item.fits (j + 1)) (hne : j ≠ i) : j ≠ item.clamp i := by
  cases item with
  | nilValue => exact hne
  | list m =>
    simp only [fits] at hj
    simp only [clamp, MultiVersionListItem.clamp]
    split <;> omega
  | tree t => exact hne

theorem clamp_le (item : MultiVersionValue) (i : ℕ) : item.clamp i ≤ i := by
  cases item with
  | nilValue => exact le_rfl
  | list m =>
    simp only [clamp, MultiVersionListItem.clamp]
    split <;> omega
  | tree t => exact le_rfl

/-- There is nothing between the place a clamped operation reaches and its index. -/
theorem slot_eq_none_of_clamp_lt (h : item.clamp i < j) (hj : j ≤ i) : item.slot j = none := by
  cases item with
  | nilValue => rfl
  | list m =>
    simp only [clamp, MultiVersionListItem.clamp] at h
    refine slot_eq_none_of_length_le ?_
    split at h <;> omega
  | tree t =>
    simp only [clamp] at h
    omega

theorem fits_of_le (hi : item.fits i) (h : j ≤ i) : item.fits j := by
  cases item with
  | nilValue => exact hi
  | list m => exact lt_of_le_of_lt h hi
  | tree t => trivial

/-- What is there fits. -/
theorem fits_of_slot (h : item.slot i = some e) : item.fits i := by
  cases item with
  | nilValue => cases h
  | list m =>
    by_contra hlt
    rw [slot, slot_eq_none_of_length_le (Nat.le_of_not_lt hlt)] at h
    cases h
  | tree t => trivial

/-- The place an operation reaches depends on the places that exist. -/
theorem clamp_congr {a b : MultiVersionValue} (h : ∀ j, a.fits j ↔ b.fits j) (h₀ : a.fits 0)
    (i : ℕ) : a.clamp i = b.clamp i := by
  cases a with
  | nilValue => exact h₀.elim
  | list m =>
    cases b with
    | nilValue => exact ((h 0).mp h₀).elim
    | list m' =>
      have hlen : m.valueList.length = m'.valueList.length := by
        have h₁ := h m.valueList.length
        have h₂ := h m'.valueList.length
        simp only [fits] at h₁ h₂
        omega
      simp only [clamp, MultiVersionListItem.clamp, hlen]
    | tree t => exact absurd ((h m.valueList.length).mpr trivial) (lt_irrefl _)
  | tree t =>
    cases b with
    | nilValue => exact ((h 0).mp h₀).elim
    | list m' => exact absurd ((h m'.valueList.length).mp trivial) (lt_irrefl _)
    | tree t' => rfl

/-- Every write of the slice is a `Put` at the clamped place. -/
theorem put_list_store {m' : MultiVersionListItem} (h : m.store i v = .ok m') :
    Put (list m) (m.clamp i) v (list m') := by
  obtain ⟨hlen, rfl⟩ := store_eq_ok.mp h
  refine ⟨fun j => MultiVersionListItem.slot_set (clamp_lt hlen i),
    fun j => ?_⟩
  simp only [fits, List.length_set]

/-- Every insertion into the tree is a `Put` at the item's index. -/
theorem put_tree_insert (t : MultiVersionItem) (v : ValueItem) :
    Put (tree t) v.index (some v) (tree (t.insert v)) :=
  ⟨fun j => MultiVersionItem.slot_insert t v j, fun _ => Iff.rfl⟩

theorem map_eq_ok {x : Except ε α} {f : α → β} {b : β} :
    x.map f = .ok b ↔ ∃ a, x = .ok a ∧ f a = b := by
  cases x with
  | error e => simp [Except.map]
  | ok a => simp [Except.map]

theorem exists_map_eq_ok {x : Except ε α} {f : α → β} :
    (∃ b, x.map f = .ok b) ↔ ∃ a, x = .ok a := by
  cases x with
  | error e => simp [Except.map]
  | ok a => simp [Except.map]

/-- The check of the value comes first. -/
theorem assertValidValue_bind_eq_ok {x : Except Panic α} {a : α} :
    (assertValidValue value >>= fun _ => x) = .ok a ↔
      (∃ b, value = some b ∧ ValidValue b) ∧ x = .ok a := by
  rw [← assertValidValue_eq_ok]
  cases assertValidValue value with
  | error e => exact ⟨(fun h => nomatch h), fun h => nomatch h.1⟩
  | ok u => exact ⟨fun h => ⟨rfl, h⟩, fun h => h.2⟩

/-- **`Set`** writes the value at the clamped place, under the index it was given. -/
theorem set_ok (h : item.set i inc value = .ok item') :
    (∃ b, value = some b ∧ ValidValue b) ∧
      Put item (item.clamp i) (some (newValueItem i inc value)) item' := by
  cases item with
  | nilValue => cases h
  | list m =>
    obtain ⟨m', hm, rfl⟩ := map_eq_ok.mp h
    obtain ⟨hv, hs⟩ := assertValidValue_bind_eq_ok.mp hm
    exact ⟨hv, put_list_store hs⟩
  | tree t =>
    obtain ⟨t', ht, rfl⟩ := map_eq_ok.mp h
    obtain ⟨hv, hs⟩ := assertValidValue_bind_eq_ok.mp ht
    obtain rfl := Except.ok.inj hs
    exact ⟨hv, put_tree_insert t (newValueItem i inc value)⟩

/-- **`Delete`** leaves a deletion at the clamped place, under the clamped index. -/
theorem delete_ok (h : item.delete i inc = .ok item') :
    Put item (item.clamp i) (some (newDeletedItem (item.clamp i) inc)) item' := by
  cases item with
  | nilValue => cases h
  | list m =>
    obtain ⟨m', hm, rfl⟩ := map_eq_ok.mp h
    obtain ⟨hlen, -⟩ := store_eq_ok.mp hm
    have hcc : m.clamp (m.clamp i) = m.clamp i :=
      @clamp_of_fits _ (list m) (clamp_lt hlen i)
    have := put_list_store hm
    rwa [hcc] at this
  | tree t =>
    obtain rfl := Except.ok.inj h
    exact put_tree_insert t (newDeletedItem i inc)

/-- **`SetEstimate`** leaves an estimate at the clamped place. -/
theorem setEstimate_ok (h : item.setEstimate i inc = .ok item') :
    Put item (item.clamp i) (some (newEstimateItem i inc)) item' := by
  cases item with
  | nilValue => cases h
  | list m =>
    obtain ⟨m', hm, rfl⟩ := map_eq_ok.mp h
    exact put_list_store hm
  | tree t =>
    obtain rfl := Except.ok.inj h
    exact put_tree_insert t (newEstimateItem i inc)

/-- **`Remove`** empties the clamped place. -/
theorem remove_ok (h : item.remove i = .ok item') : Put item (item.clamp i) none item' := by
  cases item with
  | nilValue => cases h
  | list m =>
    obtain ⟨m', hm, rfl⟩ := map_eq_ok.mp h
    exact put_list_store hm
  | tree t =>
    obtain rfl := Except.ok.inj h
    exact ⟨fun j => MultiVersionItem.slot_remove t i j, fun _ => Iff.rfl⟩

theorem exists_map_store_iff : (∃ item', (m.store i v).map list = .ok item') ↔ (list m).fits 0 := by
  rw [exists_map_eq_ok]
  constructor
  · rintro ⟨m', hm⟩
    exact Nat.pos_of_ne_zero (store_eq_ok.mp hm).1
  · exact fun h => ⟨_, store_eq_ok.mpr ⟨Nat.ne_of_gt h, rfl⟩⟩

/-- `Remove` returns when there is a place at all. -/
theorem exists_remove_iff : (∃ item', item.remove i = .ok item') ↔ item.fits 0 := by
  cases item with
  | nilValue => simp [remove, fits]
  | list m => exact exists_map_store_iff
  | tree t => exact ⟨fun _ => trivial, fun _ => ⟨_, rfl⟩⟩

/-- So does `Delete`. -/
theorem exists_delete_iff : (∃ item', item.delete i inc = .ok item') ↔ item.fits 0 := by
  cases item with
  | nilValue => simp [delete, fits]
  | list m => exact exists_map_store_iff
  | tree t => exact ⟨fun _ => trivial, fun _ => ⟨_, rfl⟩⟩

/-- So does `SetEstimate`. -/
theorem exists_setEstimate_iff : (∃ item', item.setEstimate i inc = .ok item') ↔ item.fits 0 := by
  cases item with
  | nilValue => simp [setEstimate, fits]
  | list m => exact exists_map_store_iff
  | tree t => exact ⟨fun _ => trivial, fun _ => ⟨_, rfl⟩⟩

/-- `Set` needs a valid value besides. -/
theorem exists_set_iff {b : Bytes} :
    (∃ item', item.set i inc (some b) = .ok item') ↔ item.fits 0 ∧ ValidValue b := by
  cases item with
  | nilValue => simp [set, fits]
  | list m =>
    rw [← exists_map_store_iff (i := i) (v := some (newValueItem i inc (some b))),
      exists_map_eq_ok]
    simp only [set, exists_map_eq_ok, MultiVersionListItem.set, assertValidValue_bind_eq_ok]
    simp [and_comm, MultiVersionListItem.setCommonValue]
  | tree t =>
    simp only [set, exists_map_eq_ok, MultiVersionItem.set, assertValidValue_bind_eq_ok]
    simp [fits, pure, Except.pure]

/-- A lookup from an existing place, past versions that are all older, finds the latest
version below it. -/
theorem getLatestBeforeIndex_of_fits (hj : item.fits j)
    (hidx : ∀ i e, i < j → item.slot i = some e → e.index < j) :
    item.getLatestBeforeIndex j = .ok (latestBelow item.slot j) := by
  cases item with
  | nilValue => exact hj.elim
  | list m =>
    simp only [fits] at hj
    simp only [getLatestBeforeIndex, MultiVersionListItem.getLatestBeforeIndex]
    rw [if_neg (by omega), scanDown_eq]
    refine congrArg _ (latestBelow_congr fun i hi => ?_)
    cases hs : m.slot i with
    | none => simp [slot, hs]
    | some e =>
      have := hidx i e hi hs
      simp [slot, hs, Option.filter, this]
  | tree t =>
    simp only [getLatestBeforeIndex, Except.ok.injEq]
    refine Option.ext fun e => ?_
    rw [MultiVersionItem.getLatestBeforeIndex, MultiVersionItem.find?_reverse_eq_some_iff,
      latestBelow_eq_some_iff]
    simp only [slot, MultiVersionItem.slot_eq_some_iff, decide_eq_true_eq,
      decide_eq_false_iff_not]
    constructor
    · rintro ⟨hm, hlt, hmax⟩
      refine ⟨e.index, hlt, ⟨hm, rfl⟩, fun i' h₁ h₂ => ?_⟩
      refine Option.eq_none_iff_forall_ne_some.mpr fun w hw => ?_
      obtain ⟨hmem, rfl⟩ := MultiVersionItem.slot_eq_some_iff.mp hw
      exact hmax w hmem h₁ h₂
    · rintro ⟨i, hi, ⟨hm, rfl⟩, hmax⟩
      refine ⟨hm, hi, fun w hw hlt hwj => ?_⟩
      have hnone := hmax w.index hlt hwj
      rw [MultiVersionItem.slot_eq_some_iff.mpr ⟨hw, rfl⟩] at hnone
      cases hnone

/-- Whatever a lookup finds is kept in a place below its index, and not in the last one. -/
theorem exists_slot_of_getLatestBeforeIndex (h : item.getLatestBeforeIndex j = .ok (some e)) :
    ∃ i < j, item.fits (i + 1) ∧ item.slot i = some e ∧ e.index < j := by
  cases item with
  | nilValue => cases h
  | list m =>
    simp only [getLatestBeforeIndex, MultiVersionListItem.getLatestBeforeIndex,
      Except.ok.injEq] at h
    split at h
    · cases h
    · next hj =>
      rw [scanDown_eq, latestBelow_eq_some_iff] at h
      obtain ⟨i, hi, hs, -⟩ := h
      obtain ⟨hs, hp⟩ := Option.filter_eq_some_iff.mp hs
      refine ⟨i, hi, ?_, hs, by simpa using hp⟩
      simp only [fits]
      omega
  | tree t =>
    simp only [getLatestBeforeIndex, Except.ok.injEq, MultiVersionItem.getLatestBeforeIndex,
      MultiVersionItem.find?_reverse_eq_some_iff, decide_eq_true_eq] at h
    exact ⟨e.index, h.2.1, trivial, MultiVersionItem.slot_eq_some_iff.mpr ⟨h.1, rfl⟩, h.2.1⟩

/-- The latest version that is not an estimate. -/
theorem getLatestNonEstimate_eq_some (h : item.getLatestNonEstimate = .ok (some e)) :
    ∃ i, item.slot i = some e ∧ e.isEstimate = false ∧
      ∀ i' e', i < i' → item.slot i' = some e' → e'.isEstimate = true := by
  cases item with
  | nilValue => cases h
  | list m =>
    simp only [getLatestNonEstimate, MultiVersionListItem.getLatestNonEstimate,
      scanDown_eq, Except.ok.injEq, latestBelow_eq_some_iff] at h
    obtain ⟨i, hi, hs, hmax⟩ := h
    obtain ⟨hs, hp⟩ := Option.filter_eq_some_iff.mp hs
    refine ⟨i, hs, by simpa using hp, fun i' e' hlt hs' => ?_⟩
    have hi' : i' < m.valueList.length := @fits_of_slot _ (list m) _ hs'
    have hs'' : m.slot i' = some e' := hs'
    simpa [hs''] using hmax i' hlt hi'
  | tree t =>
    simp only [getLatestNonEstimate, Except.ok.injEq, MultiVersionItem.getLatestNonEstimate,
      MultiVersionItem.find?_reverse_eq_some_iff] at h
    obtain ⟨hm, hp, hmax⟩ := h
    refine ⟨e.index, MultiVersionItem.slot_eq_some_iff.mpr ⟨hm, rfl⟩, by simpa using hp, ?_⟩
    intro i' e' hlt hs'
    obtain ⟨hm', rfl⟩ := MultiVersionItem.slot_eq_some_iff.mp hs'
    simpa using hmax e' hm' hlt

/-- A key without such a version holds estimates only. -/
theorem getLatestNonEstimate_eq_none (h : item.getLatestNonEstimate = .ok none)
    (hs : item.slot i = some e) : e.isEstimate = true := by
  cases item with
  | nilValue => cases h
  | list m =>
    simp only [getLatestNonEstimate, MultiVersionListItem.getLatestNonEstimate,
      scanDown_eq, Except.ok.injEq, latestBelow_eq_none_iff] at h
    have hi : i < m.valueList.length := @fits_of_slot _ (list m) _ hs
    have hs' : m.slot i = some e := hs
    simpa [hs'] using h i hi
  | tree t =>
    simp only [getLatestNonEstimate, Except.ok.injEq, MultiVersionItem.getLatestNonEstimate,
      List.find?_eq_none, List.mem_reverse] at h
    obtain ⟨hm, rfl⟩ := MultiVersionItem.slot_eq_some_iff.mp hs
    simpa using h e hm

end MultiVersionValue

end MelodiaStore
