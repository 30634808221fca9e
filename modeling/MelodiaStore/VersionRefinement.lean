import MelodiaStore.Simulation
import MelodiaStore.Versions

/-!
# The Slice Refines the Tree

`multiversion` has two containers for the versions of a key, the slice of `data_list.go` and the
B-tree of `data_structures.go`. On a slice with a slot for every transaction they are
interchangeable: whatever is set, deleted, estimated and removed, all lookups return the same
versions.

Both containers are read through `slot`, and compared with a sequence of versions, one for
each place (`Holds`). A call overwrites one place of the sequence (`VersionUpdate.next`). A lookup
is the latest version of the sequence that passes a test, which for the slice is a downward scan
(`MultiVersionListItem.scanDown_eq`) and for the tree a descent
(`MultiVersionItem.find?_reverse_eq_latestBelow`).

## Main results

* `list_refines_tree`: after every sequence of calls, every lookup answers alike.
-/

namespace MelodiaStore

/-! ### Lookups -/

namespace MultiVersionItem

/-- `multiVersionItem.GetLatestBeforeIndexExpansion`: the tree has nothing to grow. -/
def getLatestBeforeIndexExpansion (t : MultiVersionItem) (index : ℕ) :
    Option ValueItem × MultiVersionItem :=
  (t.getLatestBeforeIndex index, t)

/-- A descent finds the latest of the slots that pass. -/
theorem find?_reverse_eq_latestBelow (t : MultiVersionItem) (p : ValueItem → Bool) {n : ℕ}
    (hn : ∀ i e, t.slot i = some e → i < n) :
    t.valueTree.reverse.find? p = latestBelow (fun i => (t.slot i).filter p) n := by
  refine Option.ext fun e => ?_
  rw [find?_reverse_eq_some_iff, latestBelow_eq_some_iff]
  constructor
  · rintro ⟨he, hp, hmax⟩
    have hslot : t.slot e.index = some e := slot_eq_some_iff.mpr ⟨he, rfl⟩
    refine ⟨e.index, hn e.index e hslot, Option.filter_eq_some_iff.mpr ⟨hslot, hp⟩, ?_⟩
    intro i hlt _
    refine Option.filter_eq_none_iff.mpr fun w hw => ?_
    obtain ⟨hmem, rfl⟩ := slot_eq_some_iff.mp hw
    exact Bool.eq_false_iff.mp (hmax w hmem hlt)
  · rintro ⟨i, -, hi, hmax⟩
    obtain ⟨hslot, hp⟩ := Option.filter_eq_some_iff.mp hi
    obtain ⟨he, rfl⟩ := slot_eq_some_iff.mp hslot
    refine ⟨he, hp, fun w hw hlt => ?_⟩
    have hw' : t.slot w.index = some w := slot_eq_some_iff.mpr ⟨hw, rfl⟩
    exact Bool.eq_false_iff.mpr
      (Option.filter_eq_none_iff.mp (hmax w.index hlt (hn w.index w hw')) w hw')

/-- The maximum of the tree is where a descent starts. -/
theorem getLatest_eq_find? (t : MultiVersionItem) :
    t.getLatest = t.valueTree.reverse.find? fun _ => true := by
  rw [getLatest, List.getLast?_eq_head?_reverse]
  cases t.valueTree.reverse with
  | nil => rfl
  | cons v rest => rfl

end MultiVersionItem

namespace MultiVersionValue

/-- `GetLatestBeforeIndexExpansion`, with the container it leaves behind. -/
def getLatestBeforeIndexExpansion (item : MultiVersionValue) (index : ℕ) :
    Except Panic (Option ValueItem × MultiVersionValue) :=
  match item with
  | nilValue => .error .nilInterface
  | list m => .ok ((m.getLatestBeforeIndexExpansion index).map id list)
  | tree t => .ok ((t.getLatestBeforeIndexExpansion index).map id tree)

/-- From an existing place the lookup has nothing to grow. -/
theorem getLatestBeforeIndexExpansion_of_fits {item : MultiVersionValue} {j : ℕ}
    (hj : item.fits j) :
    item.getLatestBeforeIndexExpansion j = (item.getLatestBeforeIndex j).map (·, item) := by
  cases item with
  | nilValue => exact hj.elim
  | list m =>
    have hlt : ¬ j ≥ m.valueList.length := Nat.not_le.mpr hj
    simp only [getLatestBeforeIndexExpansion, getLatestBeforeIndex,
      MultiVersionListItem.getLatestBeforeIndexExpansion, MultiVersionListItem.expand,
      MultiVersionListItem.getLatestBeforeIndex, if_neg hlt]
    rfl
  | tree t => rfl

end MultiVersionValue

/-! ### Calls -/

/-- A call that changes the versions of a key. -/
inductive VersionUpdate
  | set (index : ℕ) (incarnation : ℤ) (value : Bytes)
  | delete (index : ℕ) (incarnation : ℤ)
  | setEstimate (index : ℕ) (incarnation : ℤ)
  | remove (index : ℕ)
  deriving DecidableEq

namespace VersionUpdate

/-- The transaction that makes the call. -/
def index : VersionUpdate → ℕ
  | set index _ _ => index
  | delete index _ => index
  | setEstimate index _ => index
  | remove index => index

/-- The call on a container. -/
def apply : VersionUpdate → MultiVersionValue → Except Panic MultiVersionValue
  | set index incarnation value, item => item.set index incarnation (some value)
  | delete index incarnation, item => item.delete index incarnation
  | setEstimate index incarnation, item => item.setEstimate index incarnation
  | remove index, item => item.remove index

/-- The call as a step of a run, which goes on when the call panics. -/
def perform (call : VersionUpdate) : EStateM Panic MultiVersionValue PUnit :=
  updating call.apply ⟨⟩

/-- What the call checks before it touches the container. -/
def check : VersionUpdate → Except Panic Unit
  | set _ _ value => assertValidValue (some value)
  | _ => .ok ()

/-- What the call leaves in its place. -/
def version : VersionUpdate → Option ValueItem
  | set index incarnation value => some (newValueItem index incarnation (some value))
  | delete index incarnation => some (newDeletedItem index incarnation)
  | setEstimate index incarnation => some (newEstimateItem index incarnation)
  | remove _ => none

/-- A call keeps its own index with the version it leaves. -/
theorem index_version {call : VersionUpdate} {e : ValueItem} (h : call.version = some e) :
    e.index = call.index := by
  cases call with
  | set index incarnation value | delete index incarnation | setEstimate index incarnation =>
    obtain rfl := Option.some.inj h
    rfl
  | remove index => cases h

/-- **What a call does** at a place that exists: it overwrites the place, or the check of its
value fails and nothing happens. -/
theorem perform_cases (call : VersionUpdate) {item : MultiVersionValue}
    (hfit : item.fits call.index) :
    (∃ item', outcome call.perform item = (.ok ⟨⟩, item') ∧ call.check = .ok () ∧
      item.Put call.index call.version item') ∨
      ∃ e, outcome call.perform item = (.error e, item) ∧ call.check = .error e := by
  have hfirst : item.fits 0 := item.fits_of_le hfit (Nat.zero_le _)
  have hclamp : item.clamp call.index = call.index := item.clamp_of_fits hfit
  cases call with
  | set index incarnation value =>
    cases hcheck : assertValidValue (some value) with
    | ok u =>
      obtain ⟨b, hb, hvalid⟩ := assertValidValue_eq_ok.mp hcheck
      obtain rfl := Option.some.inj hb
      obtain ⟨item', hrun⟩ := MultiVersionValue.exists_set_iff.mpr ⟨hfirst, hvalid⟩
      refine .inl ⟨item', outcome_updating_of_ok hrun, hcheck, ?_⟩
      have hput := (MultiVersionValue.set_ok hrun).2
      rwa [show item.clamp index = index from hclamp] at hput
    | error e =>
      refine .inr ⟨e, outcome_updating_of_error ?_, hcheck⟩
      cases item with
      | nilValue => exact hfit.elim
      | list m =>
        simp only [apply, MultiVersionValue.set, MultiVersionListItem.set, hcheck]
        rfl
      | tree t =>
        simp only [apply, MultiVersionValue.set, MultiVersionItem.set, hcheck]
        rfl
  | delete index incarnation =>
    obtain ⟨item', hrun⟩ := MultiVersionValue.exists_delete_iff.mpr hfirst
    refine .inl ⟨item', outcome_updating_of_ok hrun, rfl, ?_⟩
    have hput := MultiVersionValue.delete_ok hrun
    rwa [show item.clamp index = index from hclamp] at hput
  | setEstimate index incarnation =>
    obtain ⟨item', hrun⟩ := MultiVersionValue.exists_setEstimate_iff.mpr hfirst
    refine .inl ⟨item', outcome_updating_of_ok hrun, rfl, ?_⟩
    have hput := MultiVersionValue.setEstimate_ok hrun
    rwa [show item.clamp index = index from hclamp] at hput
  | remove index =>
    obtain ⟨item', hrun⟩ := MultiVersionValue.exists_remove_iff.mpr hfirst
    refine .inl ⟨item', outcome_updating_of_ok hrun, rfl, ?_⟩
    have hput := MultiVersionValue.remove_ok hrun
    rwa [show item.clamp index = index from hclamp] at hput

end VersionUpdate

/-! ### The sequence of versions -/

/-- What a call does to a sequence of versions, one for each place. -/
def VersionUpdate.next (call : VersionUpdate) (versions : ℕ → Option ValueItem) :
    ℕ → Option ValueItem :=
  match call.check with
  | .ok _ => Function.update versions call.index call.version
  | .error _ => versions

/-- A container with `n` places at least, which holds the given versions in them. -/
structure Holds (n : ℕ) (versions : ℕ → Option ValueItem) (item : MultiVersionValue) : Prop where
  usable : item ≠ .nilValue
  fits : ∀ j < n, item.fits j
  slot_eq : ∀ i, item.slot i = versions i
  below : ∀ i e, versions i = some e → i < n ∧ e.index = i

/-- A new slice holds nothing. -/
theorem holds_newMultiVersionListItem (n : ℕ) :
    Holds n (fun _ => none) (.list (newMultiVersionListItem n)) where
  usable h := by cases h
  fits j hj := MultiVersionValue.fits_newMultiVersionListItem.mpr hj
  slot_eq i := MultiVersionListItem.slot_newMultiVersionListItem n i
  below i e h := by cases h

/-- A new tree holds nothing. -/
theorem holds_newMultiVersionItem (n : ℕ) :
    Holds n (fun _ => none) (.tree newMultiVersionItem) where
  usable h := by cases h
  fits j _ := trivial
  slot_eq i := rfl
  below i e h := by cases h

namespace Holds

variable {n : ℕ} {versions : ℕ → Option ValueItem} {item : MultiVersionValue}

theorem eq_none (h : Holds n versions item) {i : ℕ} (hi : n ≤ i) : versions i = none :=
  Option.eq_none_iff_forall_ne_some.mpr fun e he => absurd (h.below i e he).1 (Nat.not_lt.mpr hi)

/-- **A call** has the same outcome on every container, and overwrites one place. -/
theorem outcome_perform (h : Holds n versions item) {call : VersionUpdate}
    (hcall : call.index < n) :
    (outcome call.perform item).1 = call.check.map (fun _ => ⟨⟩) ∧
      Holds n (call.next versions) (outcome call.perform item).2 := by
  rcases call.perform_cases (h.fits call.index hcall) with
    ⟨item', hrun, hcheck, hput⟩ | ⟨e, hrun, hcheck⟩
  · simp only [hrun, VersionUpdate.next, hcheck]
    have hfits : ∀ j < n, item'.fits j := fun j hj => (hput.fits_iff j).mpr (h.fits j hj)
    refine ⟨rfl, ?_, hfits, fun i => ?_, fun i e he => ?_⟩
    · intro hnil
      exact (hnil ▸ hfits call.index hcall : MultiVersionValue.nilValue.fits call.index)
    · rw [hput.slot_eq, Function.update_apply, h.slot_eq]
    · by_cases hi : i = call.index
      · subst hi
        rw [Function.update_self] at he
        exact ⟨hcall, call.index_version he⟩
      · rw [Function.update_of_ne hi] at he
        exact h.below i e he
  · rw [hrun, VersionUpdate.next, hcheck]
    exact ⟨rfl, h⟩

/-- **A run** has the same outcomes on every container, and leaves the same versions. -/
theorem outcomes_perform (h : Holds n versions item) {calls : List VersionUpdate}
    (hcalls : ∀ call ∈ calls, call.index < n) :
    (outcomes VersionUpdate.perform calls item).1 =
        calls.map (fun call => call.check.map fun _ => ⟨⟩) ∧
      Holds n (calls.foldl (fun versions call => call.next versions) versions)
        (outcomes VersionUpdate.perform calls item).2 := by
  induction calls generalizing versions item with
  | nil => exact ⟨rfl, h⟩
  | cons call calls ih =>
    obtain ⟨hfirst, hnext⟩ := h.outcome_perform (hcalls call List.mem_cons_self)
    obtain ⟨hrest, hlast⟩ := ih hnext fun c hc => hcalls c (List.mem_cons_of_mem call hc)
    exact ⟨congrArg₂ List.cons hfirst hrest, hlast⟩

/-- A scan of the whole slice finds the latest version that passes. -/
theorem scanDown_eq {m : MultiVersionListItem} (h : Holds n versions (.list m))
    (p : ValueItem → Bool) :
    m.scanDown p m.valueList.length = latestBelow (fun i => (versions i).filter p) n := by
  have hle : n ≤ m.valueList.length := by
    by_contra hlt
    exact absurd (h.fits m.valueList.length (Nat.lt_of_not_le hlt)) (Nat.lt_irrefl _)
  rw [MultiVersionListItem.scanDown_eq, latestBelow_of_le hle]
  · exact latestBelow_congr fun i _ => congrArg (Option.filter p) (h.slot_eq i)
  · intro k hk _
    rw [show m.slot k = none from (h.slot_eq k).trans (h.eq_none hk), Option.filter_none]

/-- So does a descent from the maximum of the tree. -/
theorem find?_reverse_eq {t : MultiVersionItem} (h : Holds n versions (.tree t))
    (p : ValueItem → Bool) :
    t.valueTree.reverse.find? p = latestBelow (fun i => (versions i).filter p) n := by
  have hslot : t.slot = versions := funext h.slot_eq
  rw [t.find?_reverse_eq_latestBelow p fun i e he => (h.below i e (hslot ▸ he)).1, hslot]

section

variable (h : Holds n versions item)
include h

/-- The latest version of all. -/
theorem getLatest :
    item.getLatest = .ok (latestBelow (fun i => (versions i).filter fun _ => true) n) := by
  cases item with
  | nilValue => exact absurd rfl h.usable
  | list m => exact congrArg Except.ok (h.scanDown_eq _)
  | tree t => exact congrArg Except.ok (t.getLatest_eq_find?.trans (h.find?_reverse_eq _))

/-- The latest one that is no estimate. -/
theorem getLatestNonEstimate :
    item.getLatestNonEstimate =
      .ok (latestBelow (fun i => (versions i).filter fun e => !e.isEstimate) n) := by
  cases item with
  | nilValue => exact absurd rfl h.usable
  | list m => exact congrArg Except.ok (h.scanDown_eq _)
  | tree t => exact congrArg Except.ok (h.find?_reverse_eq _)

/-- The latest version before an index. -/
theorem getLatestBeforeIndex {j : ℕ} (hj : j < n) :
    item.getLatestBeforeIndex j = .ok (latestBelow versions j) := by
  have hslot : item.slot = versions := funext h.slot_eq
  rw [MultiVersionValue.getLatestBeforeIndex_of_fits (h.fits j hj), hslot]
  intro i e hi he
  rw [(h.below i e (hslot ▸ he)).2]
  exact hi

theorem getLatestBeforeIndexExpansion {j : ℕ} (hj : j < n) :
    item.getLatestBeforeIndexExpansion j = .ok (latestBelow versions j, item) := by
  rw [MultiVersionValue.getLatestBeforeIndexExpansion_of_fits (h.fits j hj),
    h.getLatestBeforeIndex hj]
  rfl

end

end Holds

/-! ### The refinement -/

/-- **The slice refines the tree.** A slice of `n` slots and a tree that went through the same
calls, all of transactions below `n`, have answered them alike, and answer every lookup alike:
the latest version, the latest that is not an estimate, and, for every transaction below `n`, the
latest version before it, with or without growth of the slice. -/
theorem list_refines_tree (n : ℕ) (calls : List VersionUpdate)
    (hcalls : ∀ call ∈ calls, call.index < n) :
    let list := outcomes VersionUpdate.perform calls (.list (newMultiVersionListItem n))
    let tree := outcomes VersionUpdate.perform calls (.tree newMultiVersionItem)
    list.1 = tree.1 ∧ list.2.getLatest = tree.2.getLatest ∧
      list.2.getLatestNonEstimate = tree.2.getLatestNonEstimate ∧
      ∀ j < n, list.2.getLatestBeforeIndex j = tree.2.getLatestBeforeIndex j ∧
        (list.2.getLatestBeforeIndexExpansion j).map Prod.fst =
          (tree.2.getLatestBeforeIndexExpansion j).map Prod.fst := by
  obtain ⟨hlist, holdsList⟩ := (holds_newMultiVersionListItem n).outcomes_perform hcalls
  obtain ⟨htree, holdsTree⟩ := (holds_newMultiVersionItem n).outcomes_perform hcalls
  refine ⟨hlist.trans htree.symm, ?_, ?_, fun j hj => ⟨?_, ?_⟩⟩
  · rw [holdsList.getLatest, holdsTree.getLatest]
  · rw [holdsList.getLatestNonEstimate, holdsTree.getLatestNonEstimate]
  · rw [holdsList.getLatestBeforeIndex hj, holdsTree.getLatestBeforeIndex hj]
  · rw [holdsList.getLatestBeforeIndexExpansion hj, holdsTree.getLatestBeforeIndexExpansion hj]
    rfl

/-- Three transactions that overwrite, estimate, delete and remove: the lookup before the last
one finds the deletion. -/
theorem list_refines_tree_three :
    let calls : List VersionUpdate :=
      [.set 2 0 [1], .setEstimate 0 1, .remove 2, .delete 1 0, .set 0 2 [7]]
    let list := outcomes VersionUpdate.perform calls (.list (newMultiVersionListItem 3))
    let tree := outcomes VersionUpdate.perform calls (.tree newMultiVersionItem)
    list.2.getLatestBeforeIndex 2 = tree.2.getLatestBeforeIndex 2 ∧
      tree.2.getLatestBeforeIndex 2 = .ok (some (newDeletedItem 1 0)) :=
  ⟨((list_refines_tree 3 [.set 2 0 [1], .setEstimate 0 1, .remove 2, .delete 1 0, .set 0 2 [7]]
    (by decide)).2.2.2 2 (by decide)).1, by rfl⟩

end MelodiaStore
