import Mathlib.Algebra.Order.Ring.Nat
import Mathlib.Data.Nat.Log
import Mathlib.Data.Set.Function

/-!
# Merkle Trees

The library layer for hash trees over lists, as RFC 6962 has them. The module names no particular
program. What is hashed at a place of a tree is a `Node`: nothing, the datum of a leaf, or the two
hashes below; the hash is any function of nodes, into any type.

* `MerkleTree.root` is the hash at the top of a tree and `MerkleTree.nodes` everything that is
  hashed on the way. Where no two of the nodes collide, the root determines the tree (`root_inj`).
* `MerkleTree.audit` lists the siblings on the way from a leaf to the top, with their sides, and
  `climb` computes the hash at the top from them (`climb_audit`).
* `MerkleTree.ofList` is the tree of a list: the left subtree has the largest power of two of the
  leaves that leaves something to the right one (`splitPoint`).
-/

namespace MelodiaStore

/-- What is hashed at one place of a tree. -/
inductive Node (α η : Type)
  | empty
  | leaf (a : α)
  | inner (left right : η)

/-- A binary tree with data at its leaves. -/
inductive MerkleTree (α : Type)
  | empty
  | leaf (a : α)
  | inner (left right : MerkleTree α)

namespace MerkleTree

variable {α η : Type} (hash : Node α η → η)

/-- The leaves, from left to right. -/
def leaves : MerkleTree α → List α
  | empty => []
  | leaf a => [a]
  | inner left right => left.leaves ++ right.leaves

/-- The hash at the top. -/
def root : MerkleTree α → η
  | empty => hash .empty
  | leaf a => hash (.leaf a)
  | inner left right => hash (.inner left.root right.root)

/-- Everything that is hashed. -/
def nodes : MerkleTree α → List (Node α η)
  | empty => [.empty]
  | leaf a => [.leaf a]
  | inner left right => .inner (left.root hash) (right.root hash) :: (left.nodes ++ right.nodes)

/-! ### The root determines the tree -/

/-- What is hashed last. -/
def top : MerkleTree α → Node α η
  | empty => .empty
  | leaf a => .leaf a
  | inner left right => .inner (left.root hash) (right.root hash)

variable {hash}

/-- The root is the hash of the top. -/
theorem root_eq (t : MerkleTree α) : t.root hash = hash (t.top hash) := by
  cases t <;> rfl

theorem top_mem_nodes (t : MerkleTree α) : t.top hash ∈ t.nodes hash := by
  cases t with
  | empty | leaf a => exact List.mem_singleton.mpr rfl
  | inner left right => exact List.mem_cons_self

/-- **The root determines the tree**, if no two of the nodes collide. -/
theorem root_inj {t t' : MerkleTree α}
    (hinj : Set.InjOn hash {n | n ∈ t.nodes hash ∨ n ∈ t'.nodes hash})
    (h : t.root hash = t'.root hash) : t = t' := by
  induction t generalizing t' with
  | empty =>
    rw [root_eq, root_eq] at h
    have htop := hinj (.inl (top_mem_nodes _)) (.inr (top_mem_nodes _)) h
    cases t' with
    | empty => rfl
    | leaf b | inner left' right' => cases htop
  | leaf a =>
    rw [root_eq, root_eq] at h
    have htop := hinj (.inl (top_mem_nodes _)) (.inr (top_mem_nodes _)) h
    cases t' with
    | leaf b => rw [Node.leaf.inj htop]
    | empty | inner left' right' => cases htop
  | inner left right ihl ihr =>
    rw [root_eq, root_eq] at h
    have htop := hinj (.inl (top_mem_nodes _)) (.inr (top_mem_nodes _)) h
    cases t' with
    | empty | leaf b => cases htop
    | inner left' right' =>
      obtain ⟨hleft, hright⟩ := Node.inner.inj htop
      have heql := ihl (hinj.mono fun n => Or.imp
        (fun hn => List.mem_cons_of_mem _ (List.mem_append_left _ hn))
        (fun hn => List.mem_cons_of_mem _ (List.mem_append_left _ hn))) hleft
      have heqr := ihr (hinj.mono fun n => Or.imp
        (fun hn => List.mem_cons_of_mem _ (List.mem_append_right _ hn))
        (fun hn => List.mem_cons_of_mem _ (List.mem_append_right _ hn))) hright
      rw [heql, heqr]

/-! ### Audit paths -/

variable (hash)

/-- The siblings on the way from leaf `i` to the top; `true` says that the sibling is the right
one. -/
def audit : MerkleTree α → ℕ → List (Bool × η)
  | empty, _ => []
  | leaf _, _ => []
  | inner left right, i =>
    if i < left.leaves.length then left.audit i ++ [(true, right.root hash)]
    else right.audit (i - left.leaves.length) ++ [(false, left.root hash)]

/-- One level up. -/
def climbStep (h : η) (step : Bool × η) : η :=
  if step.1 then hash (.inner h step.2) else hash (.inner step.2 h)

/-- The hash at the top, computed from a hash below and the siblings on the way. -/
def climb (h : η) (path : List (Bool × η)) : η := path.foldl (climbStep hash) h

variable {hash}

theorem climb_concat (h : η) (path : List (Bool × η)) (step : Bool × η) :
    climb hash h (path ++ [step]) = climbStep hash (climb hash h path) step := by
  rw [climb, List.foldl_append]
  rfl

/-- **The audit path of a leaf leads to the root.** -/
theorem climb_audit {t : MerkleTree α} {i : ℕ} {a : α} (h : t.leaves[i]? = some a) :
    climb hash (hash (.leaf a)) (t.audit hash i) = t.root hash := by
  induction t generalizing i with
  | empty => cases h
  | leaf b =>
    have ha : a ∈ [b] := List.mem_of_getElem? h
    rw [List.mem_singleton.mp ha]
    rfl
  | inner left right ihl ihr =>
    rw [leaves] at h
    rw [audit]
    by_cases hi : i < left.leaves.length
    · rw [List.getElem?_append_left hi] at h
      rw [if_pos hi, climb_concat, ihl h]
      rfl
    · rw [List.getElem?_append_right (Nat.not_lt.mp hi)] at h
      rw [if_neg hi, climb_concat, ihr h]
      rfl

end MerkleTree

/-! ### The tree of a list -/

/-- The largest power of two below `n`, for `n` from two on. -/
def splitPoint (n : ℕ) : ℕ := 2 ^ Nat.log 2 (n - 1)

theorem splitPoint_pos (n : ℕ) : 0 < splitPoint n := Nat.two_pow_pos _

/-- Both parts are shorter. -/
theorem splitPoint_lt {n : ℕ} (h : 2 ≤ n) : splitPoint n < n := by
  have hle : splitPoint n ≤ n - 1 := Nat.pow_log_le_self 2 (by omega)
  omega

/-- It is the only power of two from which on doubling does not stay below. -/
theorem splitPoint_unique {n e : ℕ} (hlt : 2 ^ e < n) (hle : n ≤ 2 ^ (e + 1)) :
    2 ^ e = splitPoint n := by
  rw [splitPoint, Nat.log_eq_of_pow_le_of_lt_pow (m := e) (by omega) (by omega)]

/-- The tree of a list. -/
def MerkleTree.ofList {α : Type} : List α → MerkleTree α
  | [] => .empty
  | [a] => .leaf a
  | a :: b :: l =>
    .inner (ofList ((a :: b :: l).take (splitPoint (l.length + 2))))
      (ofList ((a :: b :: l).drop (splitPoint (l.length + 2))))
termination_by l => l.length
decreasing_by
  · have hlt : splitPoint (l.length + 2) < l.length + 2 := splitPoint_lt (by omega)
    rw [List.length_take]
    exact Nat.lt_of_le_of_lt (Nat.min_le_left _ _) hlt
  · have hpos := splitPoint_pos (l.length + 2)
    rw [List.length_drop, List.length_cons, List.length_cons]
    omega

namespace MerkleTree

variable {α : Type}

theorem exists_cons_cons {l : List α} (h : 2 ≤ l.length) : ∃ a b l', l = a :: b :: l' := by
  obtain ⟨a, l, rfl⟩ := List.exists_cons_of_length_pos (Nat.lt_of_lt_of_le Nat.two_pos h)
  obtain ⟨b, l, rfl⟩ := List.exists_cons_of_length_pos (Nat.lt_of_succ_lt_succ h)
  exact ⟨a, b, l, rfl⟩

theorem ofList_of_two_le {l : List α} (h : 2 ≤ l.length) :
    ofList l = inner (ofList (l.take (splitPoint l.length)))
      (ofList (l.drop (splitPoint l.length))) := by
  obtain ⟨a, b, l, rfl⟩ := exists_cons_cons h
  rw [ofList]
  rfl

/-- The induction over the tree of a list. -/
theorem ofList_induction {P : List α → Prop} (nil : P []) (singleton : ∀ a, P [a])
    (split : ∀ l : List α, 2 ≤ l.length → P (l.take (splitPoint l.length)) →
      P (l.drop (splitPoint l.length)) → P l) (l : List α) : P l := by
  induction hn : l.length using Nat.strong_induction_on generalizing l with
  | _ n ih =>
    by_cases htwo : 2 ≤ l.length
    · have hlt := splitPoint_lt htwo
      have hpos := splitPoint_pos l.length
      refine split l htwo (ih _ ?_ _ rfl) (ih _ ?_ _ rfl)
      · rw [← hn, List.length_take]
        omega
      · rw [← hn, List.length_drop]
        omega
    · cases l with
      | nil => exact nil
      | cons a l =>
        have hnil : l = [] := by
          rw [List.length_cons] at htwo
          exact List.length_eq_zero_iff.mp (by omega)
        rw [hnil]
        exact singleton a

/-- The leaves are the list. -/
theorem leaves_ofList (l : List α) : (ofList l).leaves = l := by
  induction l using ofList_induction with
  | nil => rw [ofList, leaves]
  | singleton a => rw [ofList, leaves]
  | split l h ihl ihr => rw [ofList_of_two_le h, leaves, ihl, ihr, List.take_append_drop]

/-- The tree determines the list. -/
theorem ofList_injective : Function.Injective (ofList : List α → MerkleTree α) :=
  Function.LeftInverse.injective leaves_ofList

end MerkleTree

end MelodiaStore
