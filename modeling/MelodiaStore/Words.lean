import Mathlib.Algebra.Order.Ring.Int
import Mathlib.Data.Nat.ModEq
import Mathlib.Tactic.Ring

/-!
# Machine Words

The library layer for numbers of a fixed width. The module names no particular program:

* `bigEndian w n` is the lowest `w` bytes of `n`, the most significant one first, and
  `ofBigEndian` reads them back (`ofBigEndian_bigEndian`), so that different numbers below
  `256 ^ w` have different words (`bigEndian_injective`), in the order of the numbers
  (`bigEndian_append_lt`), and all words are met (`bigEndian_ofBigEndian`);
* `uvarint n` is a number in as many bytes as it needs, which a reader can tell from what comes
  behind it (`uvarint_append_inj`);
* `int64` reduces an integer to the range of a signed word of 64 bits;
* a counter of 32 bits comes by a word again only after `2 ^ 32` steps (`ne_add_one_add_ofNat`).
-/

namespace MelodiaStore

/-! ### Big-endian words -/

variable {w n m : ℕ}

/-- The lowest `w` bytes of a number, the most significant one first. -/
def bigEndian : ℕ → ℕ → List UInt8
  | 0, _ => []
  | w + 1, n => UInt8.ofNat (n / 256 ^ w) :: bigEndian w n

/-- The number whose bytes are given, the most significant one first. -/
def ofBigEndian : List UInt8 → ℕ
  | [] => 0
  | b :: bs => b.toNat * 256 ^ bs.length + ofBigEndian bs

@[simp] theorem length_bigEndian (w n : ℕ) : (bigEndian w n).length = w := by
  induction w with
  | zero => rfl
  | succ w ih => rw [bigEndian, List.length_cons, ih]

/-- **Reading back** keeps the bits that fit. -/
theorem ofBigEndian_bigEndian (w n : ℕ) : ofBigEndian (bigEndian w n) = n % 256 ^ w := by
  induction w with
  | zero => rw [pow_zero, Nat.mod_one]; rfl
  | succ w ih =>
    have hsplit : n % 256 ^ (w + 1) = n % 256 ^ w + 256 ^ w * (n / 256 ^ w % 256) :=
      Nat.mod_pow_succ
    rw [bigEndian, ofBigEndian, length_bigEndian, ih, UInt8.toNat_ofNat', hsplit]
    ring

theorem ofBigEndian_bigEndian_of_lt (h : n < 256 ^ w) : ofBigEndian (bigEndian w n) = n := by
  rw [ofBigEndian_bigEndian, Nat.mod_eq_of_lt h]

/-- Different numbers that fit have different words. -/
theorem bigEndian_injective (hm : m < 256 ^ w) (hn : n < 256 ^ w)
    (h : bigEndian w m = bigEndian w n) : m = n := by
  rw [← ofBigEndian_bigEndian_of_lt hm, h, ofBigEndian_bigEndian_of_lt hn]

theorem ofBigEndian_lt (bs : List UInt8) : ofBigEndian bs < 256 ^ bs.length := by
  induction bs with
  | nil => exact Nat.one_pos
  | cons b bs ih =>
    have hb : b.toNat + 1 ≤ 256 := b.toNat_lt
    have hle := Nat.mul_le_mul_right (256 ^ bs.length) hb
    rw [Nat.succ_mul] at hle
    rw [ofBigEndian, List.length_cons, pow_succ]
    omega

/-- A word has only the bits that fit. -/
theorem bigEndian_mul_add (w k n : ℕ) : bigEndian w (256 ^ w * k + n) = bigEndian w n := by
  induction w generalizing k with
  | zero => rfl
  | succ w ih =>
    have hfirst : (256 ^ (w + 1) * k + n) / 256 ^ w = 256 * k + n / 256 ^ w := by
      rw [pow_succ, mul_assoc, Nat.mul_add_div (Nat.pow_pos (by decide))]
    have hbyte : UInt8.ofNat (256 * k + n / 256 ^ w) = UInt8.ofNat (n / 256 ^ w) := by
      rw [← UInt8.toNat_inj, UInt8.toNat_ofNat', UInt8.toNat_ofNat']
      omega
    rw [bigEndian, bigEndian, hfirst, hbyte, pow_succ, mul_assoc, ih]

/-- Every word is one of the number it stands for. -/
theorem bigEndian_ofBigEndian {bs : List UInt8} (h : bs.length = w) :
    bigEndian w (ofBigEndian bs) = bs := by
  subst h
  induction bs with
  | nil => rfl
  | cons b bs ih =>
    have hfirst : (256 ^ bs.length * b.toNat + ofBigEndian bs) / 256 ^ bs.length = b.toNat := by
      rw [Nat.mul_add_div (Nat.pow_pos (by decide)), Nat.div_eq_of_lt (ofBigEndian_lt bs),
        Nat.add_zero]
    rw [ofBigEndian, List.length_cons, bigEndian, mul_comm, hfirst, bigEndian_mul_add, ih,
      UInt8.ofNat_toNat]

/-- **Words are ordered as the numbers**, whatever follows them. -/
theorem bigEndian_append_lt (h : m % 256 ^ w < n % 256 ^ w) (x y : List UInt8) :
    bigEndian w m ++ x < bigEndian w n ++ y := by
  induction w with
  | zero =>
    rw [pow_zero, Nat.mod_one, Nat.mod_one] at h
    exact absurd h (Nat.lt_irrefl 0)
  | succ w ih =>
    rw [bigEndian, bigEndian, List.cons_append, List.cons_append, List.cons_lt_cons_iff,
      UInt8.lt_iff_toNat_lt, ← UInt8.toNat_inj, UInt8.toNat_ofNat', UInt8.toNat_ofNat']
    rcases Nat.lt_trichotomy (m / 256 ^ w % 256) (n / 256 ^ w % 256) with hlt | heq | hgt
    · exact .inl hlt
    · rw [Nat.mod_pow_succ, Nat.mod_pow_succ, heq] at h
      exact .inr ⟨heq, ih (Nat.lt_of_add_lt_add_right h)⟩
    · -- the first byte of the smaller number would be the greater one
      have hle := Nat.mul_le_mul_left (256 ^ w) (Nat.succ_le_of_lt hgt)
      have hmod := Nat.mod_lt n (Nat.pow_pos (n := w) (show 0 < 256 by decide))
      rw [Nat.mod_pow_succ, Nat.mod_pow_succ] at h
      rw [Nat.mul_succ] at hle
      omega

/-! ### Numbers of variable length -/

/-- `binary.PutUvarint`: seven bits of a number in each byte, the lowest ones first; the high bit
says that more bytes follow. -/
def uvarint (n : ℕ) : List UInt8 :=
  if n < 0x80 then [UInt8.ofNat n] else (UInt8.ofNat n ||| 0x80) :: uvarint (n / 0x80)
termination_by n

theorem uvarint_of_lt (h : n < 0x80) : uvarint n = [UInt8.ofNat n] := by
  rw [uvarint, if_pos h]

theorem toNat_ofNat_or (n : ℕ) : (UInt8.ofNat n ||| 0x80).toNat = n % 128 + 128 := by
  have hbits : ∀ m < 256, m ||| 128 = m % 128 + 128 := by decide +kernel
  have h := hbits (n % 256) (Nat.mod_lt n (by decide))
  rw [UInt8.toNat_or, UInt8.toNat_ofNat']
  exact h.trans (by omega)

/-- **No such number is the front of another.** -/
theorem uvarint_append_inj {a b : List UInt8} (h : uvarint m ++ a = uvarint n ++ b) :
    m = n ∧ a = b := by
  have hsmall : ∀ {m : ℕ}, m < 0x80 → (UInt8.ofNat m).toNat = m := fun hm => by
    rw [UInt8.toNat_ofNat', Nat.mod_eq_of_lt (by omega)]
  induction m using Nat.strong_induction_on generalizing n with
  | _ m ih =>
    rw [uvarint, uvarint.eq_def n] at h
    by_cases hm : m < 0x80
    · by_cases hn : n < 0x80
      · rw [if_pos hm, if_pos hn] at h
        obtain ⟨hhead, htail⟩ := List.cons.inj h
        refine ⟨?_, htail⟩
        rw [← hsmall hm, hhead, hsmall hn]
      · rw [if_pos hm, if_neg hn] at h
        have hhead := congrArg UInt8.toNat (List.cons.inj h).1
        rw [hsmall hm, toNat_ofNat_or] at hhead
        omega
    · by_cases hn : n < 0x80
      · rw [if_neg hm, if_pos hn] at h
        have hhead := congrArg UInt8.toNat (List.cons.inj h).1
        rw [hsmall hn, toNat_ofNat_or] at hhead
        omega
      · rw [if_neg hm, if_neg hn] at h
        obtain ⟨hhead, htail⟩ := List.cons.inj h
        have hlow := congrArg UInt8.toNat hhead
        rw [toNat_ofNat_or, toNat_ofNat_or] at hlow
        obtain ⟨hhigh, hrest⟩ := ih (m / 0x80) (by omega) htail
        exact ⟨by omega, hrest⟩

/-! ### Words of 32 and 64 bits -/

/-- The signed word of 64 bits that agrees with an integer modulo `2 ^ 64`. -/
def int64 (n : ℤ) : ℤ := n.bmod (2 ^ 64)

theorem int64_of_range {n : ℤ} (hle : -2 ^ 63 ≤ n) (hlt : n < 2 ^ 63) : int64 n = n := by
  rw [int64, Int.bmod_def]
  omega

/-- Unsigned words from `2 ^ 63` on become negative. -/
theorem int64_of_le {n : ℤ} (hle : 2 ^ 63 ≤ n) (hlt : n < 2 ^ 64) : int64 n = n - 2 ^ 64 := by
  rw [int64, Int.bmod_def]
  split_ifs <;> omega

theorem int64_add_int64 (a b : ℤ) : int64 (a + int64 b) = int64 (a + b) :=
  Int.add_bmod_bmod

theorem int64_int64_sub (a b : ℤ) : int64 (int64 a - b) = int64 (a - b) :=
  Int.bmod_sub_bmod

theorem int64_sub_int64 (a b : ℤ) : int64 (a - int64 b) = int64 (a - b) :=
  Int.sub_bmod_bmod

/-- Counting on from a word of 32 bits. -/
theorem add_ofNat_succ (a : UInt32) (n : ℕ) :
    a + UInt32.ofNat (n + 1) = a + 1 + UInt32.ofNat n := by
  rw [UInt32.ofNat_add, UInt32.add_assoc, UInt32.add_comm 1]
  rfl

theorem ofNat_ne_of_lt (h : m < n) (hn : n < 2 ^ 32) : UInt32.ofNat m ≠ UInt32.ofNat n := by
  intro heq
  have hnat := congrArg UInt32.toNat heq
  rw [UInt32.toNat_ofNat_of_lt' (Nat.lt_trans h hn), UInt32.toNat_ofNat_of_lt' hn] at hnat
  omega

/-- A word does not come again in fewer than `2 ^ 32` steps. -/
theorem ne_add_one_add_ofNat (a : UInt32) (h : n + 1 < 2 ^ 32) : a ≠ a + 1 + UInt32.ofNat n := by
  intro heq
  have hnat := congrArg UInt32.toNat heq
  rw [UInt32.toNat_add, UInt32.toNat_add, UInt32.toNat_ofNat', UInt32.toNat_one] at hnat
  have hlt := a.toNat_lt
  omega

end MelodiaStore
