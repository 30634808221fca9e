import Mathlib.Data.List.Basic

/-!
# Chunks of a List

The library layer for splitting data into chunks of a fixed size. `IsChunking n data chunks` says
that `chunks` is `data` cut into pieces of `n` elements, the last of which may be shorter; for
`n = 0` the data is not cut. The module names no particular program:

* `IsChunking.snoc`: full chunks and a last one, for proofs that follow a writer;
* `IsChunking.unique`: the data and the size determine the chunks.
-/

namespace MelodiaStore

variable {α : Type}

/-- The chunks of some data: every chunk but the last has `n` elements, no chunk is empty, and for
`n ≠ 0` no chunk is longer. -/
structure IsChunking (n : ℕ) (data : List α) (chunks : List (List α)) : Prop where
  flatten : chunks.flatten = data
  exact : ∀ c ∈ chunks.dropLast, c.length = n
  pos : ∀ c ∈ chunks, 0 < c.length
  le : n ≠ 0 → ∀ c ∈ chunks, c.length ≤ n

namespace IsChunking

variable {n : ℕ} {data c d : List α} {chunks chunks' : List (List α)}

theorem nil (n : ℕ) : IsChunking n ([] : List α) [] :=
  ⟨rfl, fun _ h => absurd h List.not_mem_nil, fun _ h => absurd h List.not_mem_nil,
    fun _ _ h => absurd h List.not_mem_nil⟩

/-- Full chunks and a last one that is not empty. -/
theorem snoc (hfull : ∀ d ∈ chunks, d.length = n ∧ n ≠ 0) (hpos : 0 < c.length)
    (hle : n ≠ 0 → c.length ≤ n) : IsChunking n (chunks.flatten ++ c) (chunks ++ [c]) where
  flatten := by rw [List.flatten_append, List.flatten_singleton]
  exact d hd := by
    rw [List.dropLast_concat] at hd
    exact (hfull d hd).1
  pos d hd := by
    rcases List.mem_append.mp hd with hd | hd
    · have := hfull d hd
      omega
    · rwa [List.mem_singleton.mp hd]
  le hn d hd := by
    rcases List.mem_append.mp hd with hd | hd
    · exact Nat.le_of_eq (hfull d hd).1
    · rw [List.mem_singleton.mp hd]
      exact hle hn

/-- Data that is not cut is one chunk, or none. -/
theorem length_le_one (h : IsChunking 0 data chunks) : chunks.length ≤ 1 := by
  cases chunks with
  | nil => exact Nat.zero_le 1
  | cons c l =>
    cases l with
    | nil => exact Nat.le_refl 1
    | cons d l =>
      have hexact := h.exact c (by rw [List.dropLast_cons_cons]; exact List.mem_cons_self)
      have hpos := h.pos c List.mem_cons_self
      omega

theorem flatten_ne_nil (h : IsChunking n data (c :: chunks)) : data ≠ [] := by
  intro hnil
  have hpos := h.pos c List.mem_cons_self
  have hflat := h.flatten
  rw [hnil, List.flatten_cons, List.append_eq_nil_iff] at hflat
  rw [hflat.1, List.length_nil] at hpos
  omega

/-- The chunks behind the first one are chunks of the rest. -/
theorem tail (h : IsChunking n data (c :: d :: chunks)) :
    c.length = n ∧ IsChunking n (d :: chunks).flatten (d :: chunks) := by
  have hexact := h.exact
  rw [List.dropLast_cons_cons] at hexact
  exact ⟨hexact c List.mem_cons_self, rfl, fun x hx => hexact x (List.mem_cons_of_mem c hx),
    fun x hx => h.pos x (List.mem_cons_of_mem c hx),
    fun hn x hx => h.le hn x (List.mem_cons_of_mem c hx)⟩

/-- A single chunk leaves no room for a second one. -/
theorem eq_singleton (hone : IsChunking n data [c]) (h : IsChunking n data chunks) :
    chunks = [c] := by
  have hdata : data = c := by rw [← hone.flatten, List.flatten_singleton]
  cases chunks with
  | nil =>
    have hpos := hone.pos c List.mem_cons_self
    rw [← hdata, ← h.flatten] at hpos
    cases hpos
  | cons d l =>
    cases l with
    | nil =>
      have hflat := h.flatten
      rw [List.flatten_singleton] at hflat
      rw [hflat, hdata]
    | cons e l =>
      obtain ⟨hlen, htail⟩ := h.tail
      have hdpos := h.pos d List.mem_cons_self
      have hle := hone.le (by omega) c List.mem_cons_self
      have hrest : 0 < (e :: l).flatten.length := List.length_pos_of_ne_nil htail.flatten_ne_nil
      have htotal : c.length = d.length + (e :: l).flatten.length := by
        rw [← hdata, ← h.flatten, List.flatten_cons, List.length_append]
      omega

/-- **The chunks are determined** by the data and the size. -/
theorem unique (h : IsChunking n data chunks) (h' : IsChunking n data chunks') :
    chunks = chunks' := by
  induction chunks generalizing data chunks' with
  | nil =>
    cases chunks' with
    | nil => rfl
    | cons c l => exact absurd h.flatten.symm h'.flatten_ne_nil
  | cons c l ih =>
    cases l with
    | nil => exact (h.eq_singleton h').symm
    | cons d l =>
      cases chunks' with
      | nil => exact absurd h'.flatten.symm h.flatten_ne_nil
      | cons c' l' =>
        cases l' with
        | nil => exact h'.eq_singleton h
        | cons d' l' =>
          obtain ⟨hlen, htail⟩ := h.tail
          obtain ⟨hlen', htail'⟩ := h'.tail
          have heq : c ++ (d :: l).flatten = c' ++ (d' :: l').flatten := by
            rw [← List.flatten_cons, ← List.flatten_cons, h.flatten, h'.flatten]
          obtain ⟨rfl, hrest⟩ := List.append_inj heq (hlen.trans hlen'.symm)
          rw [ih htail (hrest ▸ htail')]

end IsChunking

end MelodiaStore
