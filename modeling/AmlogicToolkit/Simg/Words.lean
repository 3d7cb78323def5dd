import AmlogicToolkit.Simg.OutputFile

/-!
# Machine words

The conversions between C's integer types and the macros `DIV_ROUND_UP`, `ALIGN` and `ALIGN_DOWN` on
`unsigned int`, as numbers. A rounded length is one of whole blocks (`padded`) as long as the sum
that `DIV_ROUND_UP` makes fits into 32 bits.
-/

namespace AmlogicToolkit.Simg

open Bytes

/-! ## Conversions -/

/-- The minimum of two words is the second when that is no greater. -/
theorem uint32_min_eq_right {a b : UInt32} (h : b ≤ a) : min a b = b := by
  change (if a ≤ b then a else b) = b
  split_ifs with h'
  · exact UInt32.le_antisymm h' h
  · rfl

/-- The minimum of two words is the minimum of their numbers. -/
theorem uint32_toNat_min (a b : UInt32) : (min a b).toNat = min a.toNat b.toNat := by
  change (if a ≤ b then a else b).toNat = _
  split_ifs with h <;> rw [UInt32.le_iff_toNat_le] at h <;> omega

/-- What a minimum leaves does not wrap. -/
theorem uint32_toNat_sub_min (a b : UInt32) :
    (a - min a b).toNat = a.toNat - (min a b).toNat := by
  refine UInt32.toNat_sub_of_le _ _ (UInt32.le_iff_toNat_le.mpr ?_)
  rw [uint32_toNat_min]
  exact Nat.min_le_left _ _

/-- A product of numbers, taken as a word, is the product of the words. -/
theorem ofNat_mul (a b : UInt32) : UInt32.ofNat (a.toNat * b.toNat) = a * b := by
  apply UInt32.toNat_inj.mp
  rw [UInt32.toNat_ofNat', UInt32.toNat_mul]

/-- Zero is zero as an `int`. -/
theorem toInt_zero : toInt ((0 : UInt32).toNat : ℤ) = 0 := by decide

/-- An `int` below `2^31` is what it is. -/
theorem toInt_of_lt {k : ℕ} (h : k < 2 ^ 31) : toInt k = k := by
  unfold toInt
  split_ifs <;> omega

/-- A word is negative as an `int` from `2^31` on. -/
theorem toInt_neg_iff (n : UInt32) : toInt n.toNat < 0 ↔ 2 ^ 31 ≤ n.toNat := by
  have := n.toNat_lt
  unfold toInt
  split_ifs <;> omega

/-- A natural number is taken as a word in 32 bits. -/
theorem toU32_natCast (n : ℕ) : toU32 n = UInt32.ofNat n := by
  apply UInt32.toNat_inj.mp
  unfold toU32
  rw [UInt32.toNat_ofNat', UInt32.toNat_ofNat']
  omega

/-- A natural number that goes through an `int` is taken as the same word. -/
theorem toU32_toInt_natCast (n : ℕ) : toU32 (toInt n) = UInt32.ofNat n := by
  rw [← toU32_natCast]
  apply UInt32.toNat_inj.mp
  unfold toU32 toInt
  rw [UInt32.toNat_ofNat', UInt32.toNat_ofNat']
  split_ifs <;> omega

/-- A word that goes through an `int` comes back. -/
theorem toU32_toInt (n : UInt32) : toU32 (toInt n.toNat) = n := by
  rw [toU32_toInt_natCast, UInt32.ofNat_toNat]

/-- A difference of words is taken in 32 bits. -/
theorem toU32_sub (a b : UInt32) : toU32 ((a.toNat : ℤ) - b.toNat) = a - b := by
  have ha := a.toNat_lt
  have hb := b.toNat_lt
  apply UInt32.toNat_inj.mp
  unfold toU32
  rw [UInt32.toNat_ofNat', UInt32.toNat_sub]
  omega

/-- A length, cut off at a word, is a word. -/
theorem toU32_min_toNat {k : ℤ} (hk : 0 < k) (a : UInt32) :
    (toU32 (min k a.toNat)).toNat = (min k a.toNat).toNat := by
  have ha := a.toNat_lt
  unfold toU32
  rw [UInt32.toNat_ofNat']
  omega

/-- A number of blocks in bytes, divided by the block size. -/
theorem toU32_mul_div {bs : ℕ} (hbs : 0 < bs) (n : ℕ) :
    toU32 (((n * bs : ℕ) : ℤ) / (bs : ℤ)) = UInt32.ofNat n := by
  rw [← Int.natCast_ediv, Nat.mul_div_cancel n hbs, toU32_natCast]

/-- `ALIGN_DOWN` is the greatest number of whole blocks that is no greater. -/
theorem alignDown_toNat (r bs : UInt32) :
    (alignDown r bs).toNat = bs.toNat * (r.toNat / bs.toNat) := by
  rw [alignDown, UInt32.toNat_mul, UInt32.toNat_div]
  exact Nat.mod_eq_of_lt ((Nat.mul_div_le _ _).trans_lt r.toNat_lt)

/-- A length rounds down to zero when it is below a block. -/
theorem alignDown_eq_zero {r bs : UInt32} (hbs : bs ≠ 0) : alignDown r bs = 0 ↔ r < bs := by
  have hpos : 0 < bs.toNat := toNat_pos_of_ne_zero hbs
  rw [← UInt32.toNat_inj, alignDown_toNat, UInt32.lt_iff_toNat_lt, UInt32.toNat_zero, Nat.mul_eq_zero,
    Nat.div_eq_zero_iff]
  omega

/-! ## Whole blocks -/

/-- A number of bytes, rounded up to whole blocks. -/
def padded (bs n : ℕ) : ℕ := bs * ((n + bs - 1) / bs)

section

variable {bs n : ℕ}

/-- Rounding up to blocks makes no length smaller. -/
theorem le_padded (hbs : 0 < bs) : n ≤ padded bs n := by
  have h := Nat.div_add_mod (n + bs - 1) bs
  have hlt := Nat.mod_lt (n + bs - 1) hbs
  unfold padded
  omega

/-- Rounding up to blocks adds less than a block. -/
theorem padded_lt (hbs : 0 < bs) : padded bs n < n + bs := by
  have h := Nat.div_add_mod (n + bs - 1) bs
  unfold padded
  omega

/-- A rounded length is whole blocks. -/
theorem dvd_padded (bs n : ℕ) : bs ∣ padded bs n := Nat.dvd_mul_right _ _

/-- Whole blocks are rounded up to their own number. -/
theorem round_up_mul (hbs : 0 < bs) (k : ℕ) : (k * bs + bs - 1) / bs = k := by
  rw [Nat.mul_comm, Nat.add_sub_assoc hbs, Nat.mul_add_div hbs, Nat.div_eq_of_lt (by omega),
    Nat.add_zero]

/-- A length of whole blocks is rounded to itself. -/
theorem padded_eq (hbs : 0 < bs) (h : bs ∣ n) : padded bs n = n := by
  obtain ⟨k, rfl⟩ := h
  rw [padded, Nat.mul_comm bs k, round_up_mul hbs, Nat.mul_comm]

/-- A greater length is rounded up to no less. -/
theorem padded_mono {m n : ℕ} (bs : ℕ) (h : m ≤ n) : padded bs m ≤ padded bs n :=
  Nat.mul_le_mul_left bs (Nat.div_le_div_right (by omega))

/-- What is cut off at whole blocks can be rounded up before. -/
theorem padded_min (hbs : 0 < bs) (n k : ℕ) :
    padded bs (min n (bs * k)) = min (padded bs n) (bs * k) := by
  have hk : padded bs (bs * k) = bs * k := padded_eq hbs (Nat.dvd_mul_right _ _)
  rcases Nat.le_total n (bs * k) with hle | hle
  · have := padded_mono bs hle
    rw [Nat.min_eq_left hle, Nat.min_eq_left (by omega)]
  · rw [Nat.min_eq_right hle, hk, Nat.min_eq_right (hle.trans (le_padded hbs))]

/-- A number of bytes that is not zero takes a block or more. -/
theorem bs_le_padded (hbs : 0 < bs) (hn : n ≠ 0) : bs ≤ padded bs n :=
  Nat.le_of_dvd ((Nat.pos_of_ne_zero hn).trans_le (le_padded hbs)) (dvd_padded bs n)

end

section

variable {bs len : UInt32}

/-- `DIV_ROUND_UP`, when the sum does not wrap. -/
theorem divRoundUp_toNat (hbs : bs ≠ 0) (h : len.toNat + bs.toNat ≤ 2 ^ 32) :
    (divRoundUp len bs).toNat = (len.toNat + bs.toNat - 1) / bs.toNat := by
  have hpos := toNat_pos_of_ne_zero hbs
  have hsum : (len + bs - 1).toNat = len.toNat + bs.toNat - 1 := by
    rw [UInt32.toNat_sub, UInt32.toNat_add, UInt32.toNat_one]
    omega
  rw [divRoundUp, UInt32.toNat_div, hsum]

/-- `ALIGN`, when the sum does not wrap. -/
theorem align_toNat (hbs : bs ≠ 0) (h : len.toNat + bs.toNat ≤ 2 ^ 32) :
    (align len bs).toNat = padded bs.toNat len.toNat := by
  have hlt := padded_lt (n := len.toNat) (toNat_pos_of_ne_zero hbs)
  rw [align, UInt32.toNat_mul, divRoundUp_toNat hbs h]
  exact Nat.mod_eq_of_lt (show padded bs.toNat len.toNat < 2 ^ 32 by omega)

/-- The bytes that a block of data is short of whole blocks. -/
theorem align_sub_toNat (hbs : bs ≠ 0) (h : len.toNat + bs.toNat ≤ 2 ^ 32) :
    (align len bs - len).toNat = padded bs.toNat len.toNat - len.toNat := by
  have hle := le_padded (n := len.toNat) (toNat_pos_of_ne_zero hbs)
  rw [UInt32.toNat_sub_of_le _ _ (UInt32.le_iff_toNat_le.mpr (by rw [align_toNat hbs h]; exact hle)),
    align_toNat hbs h]

/-- A length rounded by `ALIGN` has `DIV_ROUND_UP` blocks. -/
theorem align_div (hbs : bs ≠ 0) (h : len.toNat + bs.toNat ≤ 2 ^ 32) :
    align len bs / bs = divRoundUp len bs := by
  apply UInt32.toNat_inj.mp
  rw [UInt32.toNat_div, align_toNat hbs h, divRoundUp_toNat hbs h, padded,
    Nat.mul_div_cancel_left _ (toNat_pos_of_ne_zero hbs)]

/-- A length that is a whole number of blocks is not rounded. -/
theorem align_eq {k : ℕ} (hk : len.toNat = k * bs.toNat) (hbs : bs ≠ 0)
    (hsum : len.toNat + bs.toNat ≤ 2 ^ 32) :
    (divRoundUp len bs).toNat = k ∧ align len bs = len := by
  have hpos := toNat_pos_of_ne_zero hbs
  have hpad : padded bs.toNat len.toNat = len.toNat :=
    padded_eq hpos (hk ▸ Nat.dvd_mul_left bs.toNat k)
  refine ⟨?_, UInt32.toNat_inj.mp ((align_toNat hbs hsum).trans hpad)⟩
  rw [divRoundUp_toNat hbs hsum, hk, round_up_mul hpos]

end

end AmlogicToolkit.Simg
