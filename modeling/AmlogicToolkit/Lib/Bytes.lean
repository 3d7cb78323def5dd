import Mathlib.Data.List.GetD
import Mathlib.Data.List.TakeWhile
import Mathlib.Tactic.Ring

/-!
# Byte sequences

Slices of a list, little-endian words, and the two operations of a random-access file: writing at
a position and setting the length. A position past the end reads as the filler `z`, so that a hole
left by a seek reads as `z`. The facts about `overwrite` and `resize` are stated with `List.getD`,
which makes the content of a file after any sequence of operations a case split on intervals.
-/

namespace Bytes

variable {α : Type*}

/-- The `n` elements of `l` from position `off`, or those of them that exist. -/
def slice (l : List α) (off n : ℕ) : List α := (l.drop off).take n

/-- A slice is as long as asked for, or as the list from the offset on. -/
theorem length_slice (l : List α) (off n : ℕ) : (slice l off n).length = min n (l.length - off) := by
  simp [slice]

/-- A slice that lies inside the list has the length that it asks for. -/
theorem length_slice_of_le {l : List α} {off n : ℕ} (h : off + n ≤ l.length) :
    (slice l off n).length = n := by
  rw [length_slice]; omega

/-- Element `i` of a slice is element `off + i` of the list. -/
theorem getElem?_slice (l : List α) (off n i : ℕ) :
    (slice l off n)[i]? = if i < n then l[off + i]? else none := by
  unfold slice
  rw [List.getElem?_take]
  split_ifs <;> simp

/-- With a default, element `i` of a slice is element `off + i` of the list. -/
theorem getD_slice (l : List α) (off n i : ℕ) (z : α) :
    (slice l off n).getD i z = if i < n then l.getD (off + i) z else z := by
  rw [List.getD_eq_getElem?_getD, getElem?_slice, List.getD_eq_getElem?_getD]
  split_ifs <;> simp

/-- A slice of no elements is empty. -/
@[simp]
theorem slice_zero (l : List α) (off : ℕ) : slice l off 0 = [] := by simp [slice]

/-- The slice that starts where a prefix ends does not see the prefix. -/
@[simp]
theorem slice_append_left (a b : List α) (k n : ℕ) :
    slice (a ++ b) (a.length + k) n = slice b k n := by
  simp [slice, ← List.drop_drop]

/-- A slice that ends within the first list is a slice of it. -/
theorem slice_append_right {a b : List α} {off n : ℕ} (h : off + n ≤ a.length) :
    slice (a ++ b) off n = slice a off n := by
  simp only [slice]
  rw [List.drop_append_of_le_length (by omega), List.take_append_of_le_length]
  simp only [List.length_drop]; omega

/-- The slice of the whole length is the list. -/
theorem slice_self (l : List α) : slice l 0 l.length = l := by simp [slice]

/-- A slice of a slice that stays inside it is a slice of the whole. -/
theorem slice_slice {l : List α} {off n k m : ℕ} (h : k + m ≤ n) :
    slice (slice l off n) k m = slice l (off + k) m := by
  simp only [slice, List.drop_take, List.drop_drop, List.take_take]
  congr 1
  omega

/-- A slice is cut into two at any length. -/
theorem slice_add (l : List α) (off m n : ℕ) :
    slice l off (m + n) = slice l off m ++ slice l (off + m) n := by
  simp only [slice, List.take_add, List.drop_drop]

/-- Dropping the first `m` elements of a slice moves its offset by `m`. -/
theorem drop_slice (l : List α) (off m n : ℕ) : (slice l off (m + n)).drop m = slice l (off + m) n := by
  simp only [slice, List.drop_take, List.drop_drop, Nat.add_sub_cancel_left]

/-! ## Repetition -/

/-- `n` copies of `l`, one after the other. -/
def cycle (n : ℕ) (l : List α) : List α := (List.replicate n l).flatten

/-- `n` copies are `n` times as long as one. -/
@[simp]
theorem length_cycle (n : ℕ) (l : List α) : (cycle n l).length = n * l.length := by
  simp [cycle]

/-- `m + n` copies are `m` copies, then `n`. -/
theorem cycle_add (m n : ℕ) (l : List α) : cycle (m + n) l = cycle m l ++ cycle n l := by
  simp only [cycle, ← List.replicate_append_replicate, List.flatten_append]

/-- No copies are the empty list. -/
@[simp]
theorem cycle_zero (l : List α) : cycle 0 l = [] := rfl

/-- One copy more stands in front of the others. -/
theorem cycle_succ (n : ℕ) (l : List α) : cycle (n + 1) l = l ++ cycle n l := by
  simp [cycle, List.replicate_succ]

/-- A position in a repetition holds what the position in the copy does. -/
theorem getD_cycle (n : ℕ) (l : List α) (z : α) {i : ℕ} (h : i < n * l.length) :
    (cycle n l).getD i z = l.getD (i % l.length) z := by
  induction n generalizing i with
  | zero => simp at h
  | succ n ih =>
    rw [cycle_succ]
    by_cases hi : i < l.length
    · rw [List.getD_append _ _ _ _ hi, Nat.mod_eq_of_lt hi]
    · rw [Nat.succ_mul] at h
      rw [List.getD_append_right _ _ _ _ (by omega), ih (by omega), ← Nat.mod_eq_sub_mod (by omega)]

/-! ## Little-endian words -/

/-- The number that a list of bytes represents, least significant byte first. -/
def ofLe : List UInt8 → ℕ
  | [] => 0
  | b :: bs => b.toNat + 256 * ofLe bs

/-- The `n` low bytes of a number, least significant byte first. -/
def toLe : ℕ → ℕ → List UInt8
  | 0, _ => []
  | n + 1, v => UInt8.ofNat v :: toLe n (v / 256)

/-- A value is written in as many bytes as asked for. -/
@[simp]
theorem length_toLe (n v : ℕ) : (toLe n v).length = n := by
  induction n generalizing v with
  | zero => rfl
  | succ n ih => simp [toLe, ih]

/-- Reading back the `n` low bytes gives the number modulo `256^n`. -/
theorem ofLe_toLe (n v : ℕ) : ofLe (toLe n v) = v % 256 ^ n := by
  induction n generalizing v with
  | zero => simp [toLe, ofLe, Nat.mod_one]
  | succ n ih =>
    have hb : (UInt8.ofNat v).toNat = v % 256 := by simp
    rw [toLe, ofLe, ih, hb, pow_succ, mul_comm (256 ^ n) 256, Nat.mod_mul]

/-- `n` bytes represent a number below `256^n`. -/
theorem ofLe_lt (bs : List UInt8) : ofLe bs < 256 ^ bs.length := by
  induction bs with
  | nil => simp [ofLe]
  | cons b bs ih =>
    have hb : b.toNat < 256 := b.toNat_lt
    simp only [ofLe, List.length_cons, pow_succ]
    omega

/-- The bytes of the number that a list of bytes represents are the list. -/
theorem toLe_ofLe (bs : List UInt8) : toLe bs.length (ofLe bs) = bs := by
  induction bs with
  | nil => rfl
  | cons b bs ih =>
    have hb : b.toNat < 256 := b.toNat_lt
    have hd : (b.toNat + 256 * ofLe bs) / 256 = ofLe bs := by omega
    have h8 : UInt8.ofNat (b.toNat + 256 * ofLe bs) = b := by
      apply UInt8.toNat_inj.1
      rw [UInt8.toNat_ofNat']
      omega
    simp only [List.length_cons, ofLe, toLe, hd, ih, h8]

/-- A 16-bit word as two bytes. -/
def le16 (w : UInt16) : List UInt8 := toLe 2 w.toNat

/-- A 32-bit word as four bytes. -/
def le32 (w : UInt32) : List UInt8 := toLe 4 w.toNat

/-- The 16-bit word at position `off`. -/
def read16 (l : List UInt8) (off : ℕ) : UInt16 := UInt16.ofNat (ofLe (slice l off 2))

/-- The 32-bit word at position `off`. -/
def read32 (l : List UInt8) (off : ℕ) : UInt32 := UInt32.ofNat (ofLe (slice l off 4))

/-- A 16-bit word takes two bytes. -/
@[simp] theorem length_le16 (w : UInt16) : (le16 w).length = 2 := length_toLe _ _

/-- A 32-bit word takes four bytes. -/
@[simp] theorem length_le32 (w : UInt32) : (le32 w).length = 4 := length_toLe _ _

/-- A 16-bit word is read back from its bytes. -/
theorem ofLe_le16 (w : UInt16) : UInt16.ofNat (ofLe (le16 w)) = w := by
  have := w.toNat_lt
  rw [le16, ofLe_toLe, Nat.mod_eq_of_lt (by omega), UInt16.ofNat_toNat]

/-- A 32-bit word is read back from its bytes. -/
theorem ofLe_le32 (w : UInt32) : UInt32.ofNat (ofLe (le32 w)) = w := by
  have := w.toNat_lt
  rw [le32, ofLe_toLe, Nat.mod_eq_of_lt (by omega), UInt32.ofNat_toNat]

/-- A word that is not zero is a positive number. -/
theorem toNat_pos_of_ne_zero {w : UInt32} (h : w ≠ 0) : 0 < w.toNat :=
  Nat.pos_of_ne_zero fun h0 => h (UInt32.toNat_inj.mp h0)

/-- A word that is a positive number is not zero. -/
theorem ne_zero_of_toNat_pos {w : UInt32} (h : 0 < w.toNat) : w ≠ 0 := by
  rintro rfl
  exact absurd h (Nat.lt_irrefl 0)

/-- A 32-bit word that stands after a prefix is read at the prefix's length. -/
theorem read32_append (pre post : List UInt8) (w : UInt32) {off : ℕ} (h : off = pre.length) :
    read32 (pre ++ (le32 w ++ post)) off = w := by
  have e : slice (pre ++ (le32 w ++ post)) off 4 = le32 w := by
    rw [h, ← Nat.add_zero pre.length, slice_append_left, slice_append_right (by simp)]
    exact slice_self (le32 w)
  rw [read32, e, ofLe_le32]

/-! ## Random-access files -/

/-- `l` extended with the filler to at least `n` elements. -/
def padTo (z : α) (n : ℕ) (l : List α) : List α := l ++ List.replicate (n - l.length) z

/-- The file after writing `data` at position `pos`: a gap before `pos` is filled with `z`, and
writing nothing changes nothing. -/
def overwrite (z : α) (l : List α) (pos : ℕ) : List α → List α
  | [] => l
  | d :: ds => (padTo z pos l).take pos ++ (d :: ds) ++ l.drop (pos + (d :: ds).length)

/-- The file with its length set to `n`. -/
def resize (z : α) (n : ℕ) (l : List α) : List α := (padTo z n l).take n

/-- A list of the length asked for is not padded. -/
theorem padTo_self {z : α} {n : ℕ} {l : List α} (h : l.length = n) : padTo z n l = l := by
  rw [padTo, h, Nat.sub_self, List.replicate_zero, List.append_nil]

/-- A padded list has the length asked for, or its own where that is greater. -/
theorem length_padTo (z : α) (n : ℕ) (l : List α) : (padTo z n l).length = max n l.length := by
  simp only [padTo, List.length_append, List.length_replicate]
  omega

/-- Padding with the default changes no element. -/
@[simp]
theorem getD_padTo (z : α) (n : ℕ) (l : List α) (i : ℕ) : (padTo z n l).getD i z = l.getD i z := by
  unfold padTo
  by_cases h : i < l.length
  · rw [List.getD_append _ _ _ _ h]
  · rw [List.getD_append_right _ _ _ _ (by omega), List.getD_eq_default l z (by omega),
      List.getD_eq_getElem?_getD, List.getElem?_replicate]
    split_ifs <;> rfl

/-- A prefix has the elements before its end, and the default behind it. -/
theorem getD_take (z : α) (l : List α) (n i : ℕ) :
    (l.take n).getD i z = if i < n then l.getD i z else z := by
  simp only [List.getD_eq_getElem?_getD, List.getElem?_take]
  split_ifs <;> rfl

/-- Element `i` of a list without its first `n` is element `n + i` of the list. -/
theorem getD_drop (z : α) (l : List α) (n i : ℕ) : (l.drop n).getD i z = l.getD (n + i) z := by
  simp only [List.getD_eq_getElem?_getD, List.getElem?_drop]

/-- A resized list has the length asked for. -/
@[simp]
theorem length_resize (z : α) (n : ℕ) (l : List α) : (resize z n l).length = n := by
  rw [resize, List.length_take, length_padTo]; omega

/-- A resized list keeps the elements before the new end, and has the default behind it. -/
theorem getD_resize (z : α) (n : ℕ) (l : List α) (i : ℕ) :
    (resize z n l).getD i z = if i < n then l.getD i z else z := by
  rw [resize, getD_take, getD_padTo]

/-- Writing nothing changes nothing, wherever it is written. -/
@[simp]
theorem overwrite_nil (z : α) (l : List α) (pos : ℕ) : overwrite z l pos [] = l := rfl

/-- What is overwritten, as three parts: what stands before the data, the data, and what stands
behind it. -/
theorem overwrite_of_ne_nil (z : α) (l : List α) (pos : ℕ) {data : List α} (h : data ≠ []) :
    overwrite z l pos data =
      (padTo z pos l).take pos ++ data ++ l.drop (pos + data.length) := by
  cases data with
  | nil => exact absurd rfl h
  | cons d ds => rfl

/-- After a write the list reaches to the end of the data, or to its own old end. -/
theorem length_overwrite (z : α) (l : List α) (pos : ℕ) {data : List α} (h : data ≠ []) :
    (overwrite z l pos data).length = max l.length (pos + data.length) := by
  rw [overwrite_of_ne_nil z l pos h]
  simp only [List.length_append, List.length_take, length_padTo, List.length_drop]
  omega

/-- What a position holds after a write. -/
theorem getD_overwrite (z : α) (l : List α) (pos : ℕ) (data : List α) (i : ℕ) :
    (overwrite z l pos data).getD i z =
      if pos ≤ i ∧ i < pos + data.length then data.getD (i - pos) z else l.getD i z := by
  by_cases h : data = []
  · subst h
    rw [overwrite_nil, if_neg (by simp)]
  · have hlen : ((padTo z pos l).take pos).length = pos := by
      rw [List.length_take, length_padTo]; omega
    rw [overwrite_of_ne_nil z l pos h, List.append_assoc]
    by_cases h1 : i < pos
    · rw [List.getD_append _ _ _ _ (by omega), getD_take, if_pos h1, getD_padTo,
        if_neg (by omega)]
    · rw [List.getD_append_right _ _ _ _ (by omega), hlen]
      by_cases h2 : i < pos + data.length
      · rw [List.getD_append _ _ _ _ (by omega), if_pos ⟨by omega, h2⟩]
      · rw [List.getD_append_right _ _ _ _ (by omega), if_neg (by omega), getD_drop]
        congr 1
        omega

/-- Writing at the end appends. -/
theorem overwrite_length (z : α) (l data : List α) : overwrite z l l.length data = l ++ data := by
  by_cases h : data = []
  · simp [h]
  · rw [overwrite_of_ne_nil z l _ h]
    simp [padTo]

/-- Two writes one after the other are one write of both. -/
theorem overwrite_append (z : α) (l : List α) (pos : ℕ) (a b : List α) :
    overwrite z (overwrite z l pos a) (pos + a.length) b = overwrite z l pos (a ++ b) := by
  by_cases ha : a = []
  · simp [ha]
  by_cases hb : b = []
  · simp [hb]
  have hab : a ++ b ≠ [] := by simp [ha]
  have hlen : (overwrite z (overwrite z l pos a) (pos + a.length) b).length =
      (overwrite z l pos (a ++ b)).length := by
    rw [length_overwrite z _ _ hb, length_overwrite z _ _ ha, length_overwrite z _ _ hab,
      List.length_append]
    omega
  -- The lengths agree, so it is enough to compare the elements: behind the seam, between, and
  -- before.
  refine List.ext_getElem hlen fun i h1 h2 => ?_
  rw [← List.getD_eq_getElem _ z h1, ← List.getD_eq_getElem _ z h2, getD_overwrite,
    getD_overwrite, getD_overwrite, List.length_append]
  by_cases h3 : pos + a.length ≤ i
  · rw [List.getD_append_right _ _ _ _ (by omega)]
    split_ifs <;> first | omega | (congr 1; omega) | rfl
  · by_cases h4 : pos ≤ i
    · rw [List.getD_append _ _ _ _ (by omega)]
      split_ifs <;> first | omega | rfl
    · split_ifs <;> first | omega | rfl

/-- Two lists of one length whose positions hold the same are equal. -/
theorem ext_getD {z : α} {a b : List α} (hlen : a.length = b.length)
    (h : ∀ i, i < a.length → a.getD i z = b.getD i z) : a = b := by
  refine List.ext_getElem hlen fun i h1 h2 => ?_
  rw [← List.getD_eq_getElem _ z h1, ← List.getD_eq_getElem _ z h2, h i h1]

/-! ## Files that are written from the front -/

/-- A file that ends in front of a position, with a hole up to the position and one behind it. -/
theorem padTo_add (z : α) {l : List α} {n : ℕ} (h : l.length ≤ n) (k : ℕ) :
    padTo z (n + k) l = padTo z n l ++ List.replicate k z := by
  have hk : n + k - l.length = n - l.length + k := by omega
  rw [padTo, padTo, hk, ← List.replicate_append_replicate, List.append_assoc]

/-- Setting a length that is not less. -/
theorem resize_eq_padTo (z : α) {l : List α} {n : ℕ} (h : l.length ≤ n) :
    resize z n l = padTo z n l := by
  refine List.take_of_length_le ?_
  rw [length_padTo, Nat.max_eq_left h]

/-- A write at the end of a file, or behind it. -/
theorem overwrite_behind (z : α) {l : List α} {pos : ℕ} (h : l.length ≤ pos) {data : List α}
    (hdata : data ≠ []) : overwrite z l pos data = padTo z pos l ++ data := by
  have hlen : (padTo z pos l).length = pos := by rw [length_padTo, Nat.max_eq_left h]
  rw [overwrite_of_ne_nil z l pos hdata, List.take_of_length_le hlen.le,
    List.drop_eq_nil_of_le (h.trans (Nat.le_add_right _ _)), List.append_nil]

/-! ## Elements that are left out -/

section

variable [DecidableEq α] {z : α} {a b : List α}

/-- When all that is left out of a list is `z`, it starts with no more of them than before. -/
theorem takeWhile_le_of_sublist (h : a.Sublist b) (hcount : a.countP (· != z) = b.countP (· != z)) :
    (a.takeWhile (· == z)).length ≤ (b.takeWhile (· == z)).length := by
  induction h with
  | slnil => exact le_refl _
  -- An element that only the longer list has is a `z`, or the counts would differ.
  | @cons a b x h ih =>
    have hle := h.countP_le (p := (· != z))
    by_cases hx : x = z
    · rw [hx] at hcount ⊢
      rw [List.countP_cons_of_neg (by simp)] at hcount
      rw [List.takeWhile_cons_of_pos (by simp), List.length_cons]
      exact (ih hcount).trans (Nat.le_succ _)
    · rw [List.countP_cons_of_pos (by simpa using hx)] at hcount
      omega
  | @cons_cons a b x h ih =>
    by_cases hx : x = z
    · rw [hx] at hcount ⊢
      rw [List.countP_cons_of_neg (by simp), List.countP_cons_of_neg (by simp)] at hcount
      rw [List.takeWhile_cons_of_pos (by simp), List.takeWhile_cons_of_pos (by simp),
        List.length_cons, List.length_cons]
      exact Nat.succ_le_succ (ih hcount)
    · rw [List.takeWhile_cons_of_neg (by simpa using hx)]
      exact Nat.zero_le _

/-- **A list that is shifted** by what was left out in front of it is the same only when it is all
`z`. -/
theorem eq_of_shift (hsub : a.Sublist b) {t : List α} (ht : t ≠ []) {k m : ℕ}
    (h : a ++ List.replicate k z = t ++ (b ++ List.replicate m z)) :
    (∀ x ∈ t, x = z) ∧ ∀ x ∈ b, x = z := by
  have hzero : ∀ {l : List α}, l.countP (· != z) = 0 ↔ ∀ x ∈ l, x = z := by
    intro l
    rw [List.countP_eq_zero]
    exact forall₂_congr fun x _ => by simp
  have hcount := congrArg (List.countP (· != z)) h
  have hrep : ∀ n, (List.replicate n z).countP (· != z) = 0 := fun n =>
    hzero.mpr fun x hx => List.eq_of_mem_replicate hx
  rw [List.countP_append, List.countP_append, List.countP_append, hrep, hrep] at hcount
  have hle := hsub.countP_le (p := (· != z))
  have ht0 := hzero.mp (show t.countP (· != z) = 0 by omega)
  refine ⟨ht0, ?_⟩
  by_contra hb
  -- The first element that is not `z` is further to the front without what was left out.
  have hlead {l : List α} (hl : ¬ ∀ x ∈ l, x = z) (r : List α) :
      (l ++ r).takeWhile (· == z) = l.takeWhile (· == z) := by
    refine List.takeWhile_append.trans (if_neg fun hlen => hl ?_)
    have hself := (@List.takeWhile_prefix _ l (· == z)).eq_of_length hlen
    simpa using List.takeWhile_eq_self_iff.mp hself
  have ha : ¬ ∀ x ∈ a, x = z := fun h0 => hb (hzero.mp (by rw [hzero.mpr h0] at hcount; omega))
  have hlen := congrArg (fun l => (l.takeWhile (· == z)).length) h
  have hpos := List.length_pos_iff.mpr ht
  have hstart := @takeWhile_le_of_sublist _ _ z _ _ hsub (by omega)
  rw [hlead ha, List.takeWhile_append_of_pos (by simpa using ht0), hlead hb,
    List.length_append] at hlen
  omega

end

end Bytes
