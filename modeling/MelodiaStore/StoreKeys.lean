import MelodiaStore.Store

/-!
# The Names of Store Keys

`NewKVStoreKeys` and its two siblings in `types/store.go` make one key for each of a list of
names. Two stores whose names are such that one starts with the other could share keys of the
database, so `assertNoCommonPrefix` refuses such a list: it sorts a copy and compares every name
with the one before it. That the neighbours are enough rests on the order of strings, in which
everything between a name and an extension of it extends the name too.

A panic is its text. Only the names of the keys are modelled; the code uses the pointers.

## Main results

* `assertNoCommonPrefix_panics_iff`: the check panics exactly when the names at two positions
  collide.
* `newKVStoreKeys_iff`: the keys are made exactly when no two names collide and none is empty.
-/

namespace MelodiaStore

/-! ### The check -/

variable {a b c : Bytes}

/-- One of two names is a prefix of the other. -/
def Collide (a b : Bytes) : Prop := a <+: b ∨ b <+: a

/-- The text of the panic of `assertNoCommonPrefix`. -/
def collisionMessage (name previous : Bytes) : Bytes :=
  ascii "Potential key collision between KVStores:" ++ name ++ ascii " - " ++ previous

/-- The loop of `assertNoCommonPrefix` over the sorted names. -/
def assertNeighbours : List Bytes → Except Bytes Unit
  | [] => .ok ()
  | [_] => .ok ()
  | previous :: name :: names =>
    if previous.isPrefixOf name then .error (collisionMessage name previous)
    else assertNeighbours (name :: names)

/-- `assertNoCommonPrefix`. -/
def assertNoCommonPrefix (keys : List Bytes) : Except Bytes Unit :=
  assertNeighbours (sortStrings keys)

/-- Colliding is symmetric. -/
theorem collide_comm : Collide a b ↔ Collide b a := or_comm

/-- What lies between a name and an extension of it extends it too. -/
theorem isPrefix_of_le_of_isPrefix (hab : a ≤ b) (hbc : b ≤ c) (h : a <+: c) : a <+: b := by
  obtain ⟨e, rfl⟩ := h
  rcases hbc.lt_or_eq with hlt | rfl
  · exact isPrefix_of_le_of_lt hab hlt
  · exact List.prefix_append a e

/-- A name that its successor does not extend collides with nothing behind it. -/
theorem not_collide_of_le (hab : a ≤ b) (hbc : b ≤ c) (h : ¬ a <+: b) : ¬ Collide a c := by
  rintro (hac | ⟨e, rfl⟩)
  · exact h (isPrefix_of_le_of_isPrefix hab hbc hac)
  · -- a prefix that is not below its extension is that extension
    have hc : c ++ e ≤ c := hab.trans hbc
    have heq : c = c ++ e := le_antisymm (le_append c e) hc
    exact h (isPrefix_of_le_of_isPrefix hab hbc (heq ▸ List.prefix_refl _))

/-- **In a sorted list the neighbours decide**: no name extends the one before it exactly when
no two names collide. -/
theorem assertNeighbours_eq_ok_iff {names : List Bytes} (h : names.Pairwise (· ≤ ·)) :
    assertNeighbours names = .ok () ↔ names.Pairwise fun a b => ¬ Collide a b := by
  induction names using assertNeighbours.induct with
  | case1 => simp [assertNeighbours]
  | case2 name => simp [assertNeighbours]
  | case3 previous name names hpre =>
    have hcollide : Collide previous name := .inl (List.isPrefixOf_iff_prefix.mp hpre)
    simp [assertNeighbours, hpre, hcollide]
  | case4 previous name names hpre ih =>
    obtain ⟨hfirst, hrest⟩ := List.pairwise_cons.mp h
    have hnot : ¬ previous <+: name := fun hp => hpre (List.isPrefixOf_iff_prefix.mpr hp)
    have hle : previous ≤ name := hfirst name List.mem_cons_self
    have hnone : ∀ c ∈ name :: names, ¬ Collide previous c := by
      intro c hc
      rcases List.mem_cons.mp hc with rfl | hc
      · exact not_collide_of_le hle le_rfl hnot
      · exact not_collide_of_le hle (List.rel_of_pairwise_cons hrest hc) hnot
    rw [assertNeighbours, if_neg hpre, ih hrest, List.pairwise_cons (l := name :: names),
      and_iff_right hnone]

/-- The check passes if no two names collide. -/
theorem assertNoCommonPrefix_eq_ok_iff {keys : List Bytes} :
    assertNoCommonPrefix keys = .ok () ↔ keys.Pairwise fun a b => ¬ Collide a b := by
  have hperm : (sortStrings keys).Perm keys := List.perm_insertionSort _ keys
  have hsorted : (sortStrings keys).Pairwise (· ≤ ·) := List.pairwise_insertionSort _ keys
  rw [assertNoCommonPrefix, assertNeighbours_eq_ok_iff hsorted]
  exact hperm.pairwise_iff fun hab hba => hab (collide_comm.mp hba)

/-- **The check is exact**: it panics exactly when the names at two different positions are such
that one is a prefix of the other. -/
theorem assertNoCommonPrefix_panics_iff (keys : List Bytes) :
    (∃ message, assertNoCommonPrefix keys = .error message) ↔
      ∃ i j, ∃ (hi : i < keys.length) (hj : j < keys.length), i ≠ j ∧ keys[i] <+: keys[j] := by
  have herror : (∃ message, assertNoCommonPrefix keys = .error message) ↔
      ¬ assertNoCommonPrefix keys = .ok () := by
    cases assertNoCommonPrefix keys with
    | error message => simp
    | ok u => simp
  rw [herror, assertNoCommonPrefix_eq_ok_iff, List.pairwise_iff_getElem]
  constructor
  · intro h
    push Not at h
    obtain ⟨i, j, hi, hj, hlt, hpre | hpre⟩ := h
    · exact ⟨i, j, hi, hj, hlt.ne, hpre⟩
    · exact ⟨j, i, hj, hi, hlt.ne', hpre⟩
  · rintro ⟨i, j, hi, hj, hne, hpre⟩ h
    rcases Nat.lt_or_gt_of_ne hne with hlt | hlt
    · exact h i j hi hj hlt (.inl hpre)
    · exact h j i hj hi hlt (.inr hpre)

example : assertNoCommonPrefix [ascii "bank", ascii "acc", ascii "bankx"] =
    .error (ascii "Potential key collision between KVStores:bankx - bank") := by decide

/-! ### The keys -/

/-- `KVStoreKey`. -/
structure KVStoreKey where
  name : Bytes

/-- `TransientStoreKey`. -/
structure TransientStoreKey where
  name : Bytes

/-- `MemoryStoreKey`. -/
structure MemoryStoreKey where
  name : Bytes

/-- `NewKVStoreKey`. -/
def newKVStoreKey (name : Bytes) : Except Bytes KVStoreKey :=
  if name = [] then .error (ascii "empty key name not allowed") else .ok ⟨name⟩

/-- `NewTransientStoreKey`. -/
def newTransientStoreKey (name : Bytes) : Except Bytes TransientStoreKey := .ok ⟨name⟩

/-- `NewMemoryStoreKey`. -/
def newMemoryStoreKey (name : Bytes) : Except Bytes MemoryStoreKey := .ok ⟨name⟩

section NewStoreKeys

variable {κ : Type} (newKey : Bytes → Except Bytes κ)

/-- The loop over the names: a new key is put under each. -/
def addKeys : List Bytes → GoMap Bytes κ → Except Bytes (GoMap Bytes κ)
  | [], keys => .ok keys
  | name :: names, keys => do
    let key ← newKey name
    addKeys names (keys.insert name key)

/-- The body of the three constructors of many keys. -/
def newStoreKeys (names : List Bytes) : Except Bytes (GoMap Bytes κ) := do
  assertNoCommonPrefix names
  addKeys newKey names ∅

variable {newKey} {names : List Bytes}

/-- Where every name gets a key, the loop puts each under its name. -/
theorem exists_addKeys {key : Bytes → κ} (hnew : ∀ n ∈ names, newKey n = .ok (key n))
    (keys : GoMap Bytes κ) :
    ∃ result, addKeys newKey names keys = .ok result ∧
      ∀ n, result.lookup n = if n ∈ names then some (key n) else keys.lookup n := by
  induction names generalizing keys with
  | nil => exact ⟨keys, rfl, fun n => by simp⟩
  | cons name names ih =>
    obtain ⟨hname, hnames⟩ := List.forall_mem_cons.mp hnew
    obtain ⟨result, hrun, hlookup⟩ := ih hnames (keys.insert name (key name))
    refine ⟨result, ?_, fun n => ?_⟩
    · rw [addKeys, hname]
      exact hrun
    · rw [hlookup n]
      by_cases hn : n = name
      · subst hn
        simp
      · simp [hn, AList.lookup_insert_ne hn]

/-- Where the loop returns, every name got a key. -/
theorem ok_of_addKeys {keys result : GoMap Bytes κ} (h : addKeys newKey names keys = .ok result) :
    ∀ n ∈ names, ∃ k, newKey n = .ok k := by
  induction names generalizing keys with
  | nil => simp
  | cons name names ih =>
    obtain ⟨k, hname, h⟩ := except_bind_eq_ok.mp h
    exact List.forall_mem_cons.mpr ⟨⟨k, hname⟩, ih h⟩

end NewStoreKeys

/-- `NewKVStoreKeys`. -/
def newKVStoreKeys (names : List Bytes) : Except Bytes (GoMap Bytes KVStoreKey) :=
  newStoreKeys newKVStoreKey names

/-- `NewTransientStoreKeys`. -/
def newTransientStoreKeys (names : List Bytes) : Except Bytes (GoMap Bytes TransientStoreKey) :=
  newStoreKeys newTransientStoreKey names

/-- `NewMemoryStoreKeys`. -/
def newMemoryStoreKeys (names : List Bytes) : Except Bytes (GoMap Bytes MemoryStoreKey) :=
  newStoreKeys newMemoryStoreKey names

/-- **The keys of persistent stores** are made exactly when no two names collide and none is
empty; each then has the name it is found under. -/
theorem newKVStoreKeys_iff {names : List Bytes} :
    (∃ keys, newKVStoreKeys names = .ok keys ∧
      ∀ n, keys.lookup n = if n ∈ names then some ⟨n⟩ else none) ↔
    (names.Pairwise fun a b => ¬ Collide a b) ∧ [] ∉ names := by
  rw [← assertNoCommonPrefix_eq_ok_iff, newKVStoreKeys, newStoreKeys]
  constructor
  · rintro ⟨keys, hrun, -⟩
    obtain ⟨_, hcheck, hrun⟩ := except_bind_eq_ok.mp hrun
    refine ⟨hcheck, fun hmem => ?_⟩
    obtain ⟨k, hk⟩ := ok_of_addKeys hrun [] hmem
    simp [newKVStoreKey] at hk
  · rintro ⟨hcheck, hempty⟩
    have hnew : ∀ n ∈ names, newKVStoreKey n = .ok ⟨n⟩ := by
      intro n hn
      rw [newKVStoreKey, if_neg]
      rintro rfl
      exact hempty hn
    obtain ⟨result, hrun, hlookup⟩ := exists_addKeys hnew ∅
    rw [hcheck]
    exact ⟨result, hrun, fun n => by rw [hlookup n, AList.lookup_empty]⟩

end MelodiaStore
