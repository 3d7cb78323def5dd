import Mathlib.Algebra.Group.Nat.Defs
import Mathlib.Logic.Function.Iterate
import Mathlib.Data.Nat.Bits

/-!
# Cyclic redundancy checks

A 32-bit check in the reflected form, bit by bit: the polynomial `poly` has its coefficients from the
highest bit down, and a register is divided by it one bit at a time (`crcBit`). The division is
linear over exclusive or, so that the eight divisions for a byte can be looked up in a table of the
256 low bytes (`crcByte_table`). `natCrc` is the check on natural numbers, for evaluation.
-/

namespace Crc

section

variable (poly : UInt32)

/-- The division of one bit: a shift to the right, and the polynomial where a bit was shifted out.
-/
def crcBit (c : UInt32) : UInt32 := if c &&& 1 = 0 then c >>> 1 else (c >>> 1) ^^^ poly

/-- The division of the eight bits of a byte. -/
def crcByte (c : UInt32) (b : UInt8) : UInt32 := (crcBit poly)^[8] (c ^^^ b.toUInt32)

/-- The check of a sequence of bytes, with a register that starts as all ones and is complemented at
the end. -/
def crc (data : List UInt8) : UInt32 := data.foldl (crcByte poly) 0xFFFFFFFF ^^^ 0xFFFFFFFF

end

/-- The polynomial of IEEE 802.3, its bits reversed. -/
def ieee : UInt32 := 0xEDB88320

section

variable {poly : UInt32}

/-- The lowest bit of a word is 0 or 1. -/
theorem and_one_cases (c : UInt32) : c &&& 1 = 0 ∨ c &&& 1 = 1 := by
  have h : (c &&& 1).toNat = c.toNat % 2 := by
    rw [UInt32.toNat_and, UInt32.toNat_one, Nat.and_one_is_mod]
  rcases Nat.mod_two_eq_zero_or_one c.toNat with h0 | h1
  · left; exact UInt32.toNat_inj.mp (h.trans h0)
  · right; exact UInt32.toNat_inj.mp (h.trans h1)

/-- The division of one bit is linear: the lowest bits are added, and so are the multiples of the
polynomial that they stand for. -/
theorem crcBit_xor (x y : UInt32) : crcBit poly (x ^^^ y) = crcBit poly x ^^^ crcBit poly y := by
  have hand : (x ^^^ y) &&& 1 = (x &&& 1) ^^^ (y &&& 1) := by
    apply UInt32.toNat_inj.mp
    simp only [UInt32.toNat_and, UInt32.toNat_xor, Nat.and_xor_distrib_right]
  have hshift : (x ^^^ y) >>> 1 = (x >>> 1) ^^^ (y >>> 1) := UInt32.shiftRight_xor
  unfold crcBit
  rw [hand, hshift]
  rcases and_one_cases x with hx | hx <;> rcases and_one_cases y with hy | hy <;> rw [hx, hy]
  · rw [if_pos (by decide), if_pos rfl, if_pos rfl]
  · rw [if_neg (by decide), if_pos rfl, if_neg (by decide), UInt32.xor_assoc]
  · rw [if_neg (by decide), if_neg (by decide), if_pos rfl, UInt32.xor_assoc, UInt32.xor_assoc,
      UInt32.xor_comm poly]
  · rw [if_pos (by decide), if_neg (by decide), if_neg (by decide), UInt32.xor_assoc,
      UInt32.xor_comm poly, UInt32.xor_assoc, UInt32.xor_self, UInt32.xor_zero]

/-- Any number of bit steps is linear over exclusive or. -/
theorem crcBit_iterate_xor (n : ℕ) (x y : UInt32) :
    (crcBit poly)^[n] (x ^^^ y) = (crcBit poly)^[n] x ^^^ (crcBit poly)^[n] y := by
  induction n generalizing x y with
  | zero => rfl
  | succ n ih => rw [Function.iterate_succ_apply, crcBit_xor, ih]; rfl

/-- As long as the bits that come out are zero, a division is a shift. -/
theorem crcBit_iterate_shift {n : ℕ} {c : UInt32} (h : 2 ^ n ∣ c.toNat) :
    ((crcBit poly)^[n] c).toNat = c.toNat / 2 ^ n := by
  induction n generalizing c with
  | zero => simp
  | succ n ih =>
    have heven : c &&& 1 = 0 := by
      apply UInt32.toNat_inj.mp
      rw [UInt32.toNat_and, UInt32.toNat_one, Nat.and_one_is_mod, UInt32.toNat_zero]
      have := Nat.dvd_trans (Nat.dvd_mul_left 2 (2 ^ n)) h
      omega
    have hhalf : (crcBit poly c).toNat = c.toNat / 2 := by
      rw [crcBit, if_pos heven]
      simp [Nat.shiftRight_eq_div_pow]
    rw [Function.iterate_succ_apply, ih, hhalf, Nat.div_div_eq_div_mul, Nat.pow_succ']
    rw [hhalf]
    exact Nat.dvd_div_of_mul_dvd (by rwa [← Nat.pow_succ'])

/-- A word shifted to the right and back has its lowest byte cleared. -/
theorem toNat_high (c : UInt32) : ((c >>> 8) <<< 8).toNat = c.toNat / 2 ^ 8 * 2 ^ 8 := by
  have hc := c.toNat_lt
  have h : ((c >>> 8) <<< 8).toNat = c.toNat / 2 ^ 8 * 2 ^ 8 % 2 ^ 32 := by
    simp [Nat.shiftRight_eq_div_pow, Nat.shiftLeft_eq]
  rw [h]
  exact Nat.mod_eq_of_lt (by omega)

/-- A word is its low byte and its high bytes. -/
theorem low_xor_high (c : UInt32) : (c &&& (0xFF : UInt32)) ^^^ ((c >>> 8) <<< 8) = c := by
  have h255 : (0xFF : UInt32).toNat = 2 ^ 8 - 1 := rfl
  apply UInt32.toNat_inj.mp
  rw [UInt32.toNat_xor, UInt32.toNat_and, toNat_high, h255]
  apply Nat.eq_of_testBit_eq
  intro i
  rw [Nat.testBit_xor, Nat.testBit_and, Nat.testBit_two_pow_sub_one, Nat.testBit_mul_two_pow,
    Nat.testBit_div_two_pow]
  by_cases hi : i < 8
  · have hge : ¬ i ≥ 8 := by omega
    simp [hi, hge]
  · have hge : i ≥ 8 := by omega
    simp [hi, hge, Nat.sub_add_cancel hge]

/-- **The division by a table.** When the table has the eight divisions of each low byte, one look-up
and a shift are the division of a byte. -/
theorem crcByte_table {table : ℕ → UInt32}
    (h : ∀ i < 256, table i = (crcBit poly)^[8] (UInt32.ofNat i)) (c : UInt32) (b : UInt8) :
    table ((c ^^^ b.toUInt32) &&& (0xFF : UInt32)).toNat ^^^ (c >>> 8) = crcByte poly c b := by
  -- The byte does not reach the bits that are left after the shift.
  have hshift : (c ^^^ b.toUInt32) >>> 8 = c >>> 8 := by
    have hb : b.toUInt32 >>> 8 = 0 := by
      have hlt := b.toNat_lt
      apply UInt32.toNat_inj.mp
      rw [UInt32.toNat_shiftRight, UInt8.toNat_toUInt32, Nat.shiftRight_eq_div_pow]
      exact Nat.div_eq_of_lt hlt
    rw [UInt32.shiftRight_xor, hb, UInt32.xor_zero]
  unfold crcByte
  generalize c ^^^ b.toUInt32 = x at hshift ⊢
  have hlow : (x &&& (0xFF : UInt32)).toNat < 256 := by
    rw [UInt32.toNat_and]
    exact Nat.and_lt_two_pow _ (by decide : (0xFF : UInt32).toNat < 2 ^ 8)
  have hhigh : (crcBit poly)^[8] ((x >>> 8) <<< 8) = c >>> 8 := by
    apply UInt32.toNat_inj.mp
    rw [crcBit_iterate_shift (by rw [toNat_high]; exact Nat.dvd_mul_left _ _), toNat_high, ← hshift,
      Nat.mul_div_cancel _ (by decide), UInt32.toNat_shiftRight, Nat.shiftRight_eq_div_pow]
    rfl
  rw [h _ hlow, UInt32.ofNat_toNat, ← hhigh, ← crcBit_iterate_xor, low_xor_high]

end

/-! ## The shift register -/

section

variable (poly : UInt32)

/-- One bit of a message shifted into the register: the polynomial is added when the bit differs from
the one that comes out. -/
def shiftIn (c : UInt32) (bit : Bool) : UInt32 :=
  if (c.toNat.testBit 0 ^^ bit) = true then (c >>> 1) ^^^ poly else c >>> 1

/-- The bits of a byte, the lowest one first. -/
def byteBits (b : UInt8) : List Bool := (List.range 8).map b.toNat.testBit

/-- The check bit by bit: the register, complemented, takes in the bits of the message, and is
complemented again. -/
def serial (c : UInt32) (data : List UInt8) : UInt32 :=
  (data.flatMap byteBits).foldl (shiftIn poly) (c ^^^ 0xFFFFFFFF) ^^^ 0xFFFFFFFF

end

section

variable {poly : UInt32}

/-- Bit 0 of a word is its remainder under the mask 1. -/
theorem testBit_zero_eq (c : UInt32) : c.toNat.testBit 0 = decide (c &&& 1 = 1) := by
  have hand : (c &&& 1).toNat = c.toNat % 2 := by
    rw [UInt32.toNat_and, UInt32.toNat_one, Nat.and_one_is_mod]
  rw [Nat.testBit_zero, ← hand]
  exact decide_eq_decide.mpr ⟨fun h => UInt32.toNat_inj.mp h, fun h => by rw [h]; rfl⟩

/-- The division of a register with a word added to it is the shift of the lowest bit of the word
into the register, with the other bits added after it. -/
theorem crcBit_xor_eq_shiftIn (c w : UInt32) :
    crcBit poly (c ^^^ w) = shiftIn poly c (w.toNat.testBit 0) ^^^ (w >>> 1) := by
  rw [crcBit_xor, crcBit, crcBit, shiftIn, testBit_zero_eq, testBit_zero_eq]
  rcases and_one_cases c with hc | hc <;> rcases and_one_cases w with hw | hw <;> rw [hc, hw]
  · rw [if_pos rfl, if_pos rfl, if_neg (by decide)]
  · rw [if_pos rfl, if_neg (by decide), if_pos (by decide), UInt32.xor_assoc,
      UInt32.xor_comm poly]
  · rw [if_neg (by decide), if_pos rfl, if_pos (by decide)]
  · -- Both bits are ones: the two multiples of the polynomial cancel.
    rw [if_neg (by decide), if_neg (by decide), if_neg (by decide), UInt32.xor_assoc,
      UInt32.xor_comm poly, UInt32.xor_assoc, UInt32.xor_self, UInt32.xor_zero]

/-- The divisions of a register with a word of `n` bits added to it are those bits shifted in. -/
theorem foldl_shiftIn {n : ℕ} {w : UInt32} (hw : w.toNat < 2 ^ n) (c : UInt32) :
    ((List.range n).map w.toNat.testBit).foldl (shiftIn poly) c = (crcBit poly)^[n] (c ^^^ w) := by
  induction n generalizing c w with
  | zero =>
    have hzero : w = 0 := UInt32.toNat_inj.mp (Nat.lt_one_iff.mp hw)
    rw [hzero, UInt32.xor_zero]
    rfl
  | succ n ih =>
    have hshift : (w >>> 1).toNat = w.toNat / 2 := by
      rw [UInt32.toNat_shiftRight, Nat.shiftRight_eq_div_pow]
      rfl
    have hbits : w.toNat.testBit ∘ Nat.succ = (w >>> 1).toNat.testBit := by
      funext i
      rw [hshift, Function.comp_apply, Nat.testBit_succ]
    have hlt : (w >>> 1).toNat < 2 ^ n := by
      rw [Nat.pow_succ] at hw
      omega
    rw [List.range_succ_eq_map, List.map_cons, List.map_map, List.foldl_cons, hbits, ih hlt,
      Function.iterate_succ_apply, crcBit_xor_eq_shiftIn]

/-- The division of a byte is its bits shifted in. -/
theorem foldl_byteBits (c : UInt32) (b : UInt8) :
    (byteBits b).foldl (shiftIn poly) c = crcByte poly c b := by
  have hb : b.toUInt32.toNat = b.toNat := UInt8.toNat_toUInt32 b
  have hlt : b.toUInt32.toNat < 2 ^ 8 := by
    rw [hb]
    exact b.toNat_lt
  rw [byteBits, ← hb, foldl_shiftIn hlt, crcByte]

/-- **Byte by byte is bit by bit.** -/
theorem serial_eq (c : UInt32) (data : List UInt8) :
    serial poly c data = data.foldl (crcByte poly) (c ^^^ 0xFFFFFFFF) ^^^ 0xFFFFFFFF := by
  have hfold : ∀ r : UInt32, (data.flatMap byteBits).foldl (shiftIn poly) r =
      data.foldl (crcByte poly) r := by
    induction data with
    | nil => exact fun r => rfl
    | cons b data ih =>
      intro r
      rw [List.flatMap_cons, List.foldl_append, foldl_byteBits, ih, List.foldl_cons]
  rw [serial, hfold]

end

/-! ## Evaluation -/

/-- The division of one bit of a number. -/
def natBit (poly c : ℕ) : ℕ := (c / 2) ^^^ (c % 2 * poly)

/-- The register after a sequence of bytes, as a number. -/
def natFold (poly : ℕ) (data : List UInt8) (c : ℕ) : ℕ :=
  data.foldl (fun c b => (natBit poly)^[8] (c ^^^ b.toNat)) c

/-- The check of a sequence of bytes, as a number. -/
def natCrc (poly : ℕ) (data : List UInt8) : ℕ := natFold poly data 0xFFFFFFFF ^^^ 0xFFFFFFFF

section

variable {poly : UInt32}

/-- A bit step on words is the bit step on numbers. -/
theorem toNat_crcBit (c : UInt32) : (crcBit poly c).toNat = natBit poly.toNat c.toNat := by
  have hand : (c &&& 1).toNat = c.toNat % 2 := by
    rw [UInt32.toNat_and, UInt32.toNat_one, Nat.and_one_is_mod]
  have hshift : (c >>> 1).toNat = c.toNat / 2 := by
    rw [UInt32.toNat_shiftRight, Nat.shiftRight_eq_div_pow]
    rfl
  unfold crcBit natBit
  rcases and_one_cases c with h | h <;> rw [h] at hand ⊢ <;> rw [← hand]
  · rw [if_pos rfl, hshift, UInt32.toNat_zero, Nat.zero_mul, Nat.xor_zero]
  · rw [if_neg (by decide), UInt32.toNat_xor, hshift, UInt32.toNat_one, Nat.one_mul]

/-- Any number of bit steps on words is that number of steps on numbers. -/
theorem toNat_crcBit_iterate (n : ℕ) (c : UInt32) :
    ((crcBit poly)^[n] c).toNat = (natBit poly.toNat)^[n] c.toNat := by
  induction n generalizing c with
  | zero => rfl
  | succ n ih => rw [Function.iterate_succ_apply, ih, toNat_crcBit]; rfl

/-- The checksum of a buffer over words is the one over numbers. -/
theorem toNat_foldl (data : List UInt8) (c : UInt32) :
    (data.foldl (crcByte poly) c).toNat = natFold poly.toNat data c.toNat := by
  induction data generalizing c with
  | nil => rfl
  | cons b data ih =>
    rw [List.foldl_cons, ih, crcByte, toNat_crcBit_iterate, UInt32.toNat_xor,
      UInt8.toNat_toUInt32]
    rfl

/-- **The check is that of the numbers.** -/
theorem toNat_crc (data : List UInt8) : (crc poly data).toNat = natCrc poly.toNat data := by
  rw [crc, UInt32.toNat_xor, toNat_foldl]
  rfl

end

end Crc
