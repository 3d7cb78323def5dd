import AmlogicToolkit.Lib.Bytes
import Mathlib.Data.Vector.Basic

/-!
# The header of a boot image

`struct boot_img_hdr` of `bootimg.h` and its 608 bytes in a file. All fields are aligned at their
sizes, so that the structure has no padding, and the words are little-endian.
-/

namespace AmlogicToolkit.Boot

open Bytes

/-- `BOOT_MAGIC_SIZE`: the magic value has eight bytes. -/
def BOOT_MAGIC_SIZE : ℕ := 8

/-- `BOOT_NAME_SIZE`: the name field has 16 bytes. -/
def BOOT_NAME_SIZE : ℕ := 16

/-- `BOOT_ARGS_SIZE`: the command line has 512 bytes. -/
def BOOT_ARGS_SIZE : ℕ := 512

/-- `sizeof(boot_img_hdr)`: the `struct` has no padding. -/
def BOOT_HEADER_SIZE : ℕ := 608

/-- The bytes of a text whose characters are below 256, one for each. -/
def bytesOf (text : String) : List UInt8 := text.toList.map fun c => UInt8.ofNat c.toNat

/-- `BOOT_MAGIC`: the text "ANDROID!". -/
def BOOT_MAGIC : List.Vector UInt8 BOOT_MAGIC_SIZE := ⟨bytesOf "ANDROID!", by decide⟩

/-- `struct boot_img_hdr`: the sizes and addresses of the sections, and the texts for the kernel. -/
structure BootImgHdr where
  /-- `BOOT_MAGIC`. -/
  magic : List.Vector UInt8 BOOT_MAGIC_SIZE
  /-- Size in bytes. -/
  kernel_size : UInt32
  /-- Physical load address. -/
  kernel_addr : UInt32
  /-- Size in bytes. -/
  ramdisk_size : UInt32
  /-- Physical load address. -/
  ramdisk_addr : UInt32
  /-- Size in bytes. -/
  second_size : UInt32
  /-- Physical load address. -/
  second_addr : UInt32
  /-- Physical address for kernel tags. -/
  tags_addr : UInt32
  /-- Flash page size. -/
  page_size : UInt32
  /-- Future expansion. -/
  unused : List.Vector UInt32 2
  /-- Product name. -/
  name : List.Vector UInt8 BOOT_NAME_SIZE
  /-- Kernel command line. -/
  cmdline : List.Vector UInt8 BOOT_ARGS_SIZE
  /-- Timestamp, checksum and the like. -/
  id : List.Vector UInt32 8
  deriving DecidableEq

/-- The bytes of an array of words. -/
def wordBytes (words : List UInt32) : List UInt8 := words.flatMap le32

/-- The array of `n` words at position `off`. -/
def readWords (b : List UInt8) (off n : ℕ) : List.Vector UInt32 n :=
  ⟨(List.range n).map fun i => read32 b (off + 4 * i), by simp⟩

/-- The array of `n` bytes at position `off`. -/
def readArray (b : List UInt8) (off n : ℕ) : List.Vector UInt8 n :=
  ⟨resize 0 n (slice b off n), length_resize 0 n _⟩

/-- The 608 bytes of a header. -/
def BootImgHdr.encode (h : BootImgHdr) : List UInt8 :=
  h.magic.toList ++ (le32 h.kernel_size ++ (le32 h.kernel_addr ++ (le32 h.ramdisk_size ++
    (le32 h.ramdisk_addr ++ (le32 h.second_size ++ (le32 h.second_addr ++ (le32 h.tags_addr ++
      (le32 h.page_size ++ (wordBytes h.unused.toList ++ (h.name.toList ++ (h.cmdline.toList ++
        wordBytes h.id.toList)))))))))))

/-- The header that 608 bytes are. -/
def BootImgHdr.decode (b : List UInt8) : BootImgHdr where
  magic := readArray b 0 BOOT_MAGIC_SIZE
  kernel_size := read32 b 8
  kernel_addr := read32 b 12
  ramdisk_size := read32 b 16
  ramdisk_addr := read32 b 20
  second_size := read32 b 24
  second_addr := read32 b 28
  tags_addr := read32 b 32
  page_size := read32 b 36
  unused := readWords b 40 2
  name := readArray b 48 BOOT_NAME_SIZE
  cmdline := readArray b 64 BOOT_ARGS_SIZE
  id := readWords b 576 8

/-! ## The round trip -/

/-- The bytes of a list of words are four for each. -/
@[simp]
theorem length_wordBytes (words : List UInt32) : (wordBytes words).length = 4 * words.length := by
  induction words with
  | nil => rfl
  | cons w words ih =>
    rw [wordBytes, List.flatMap_cons, List.length_append, length_le32, ← wordBytes, ih,
      List.length_cons]
    omega

/-- An encoded header has the size of the `struct`. -/
@[simp]
theorem BootImgHdr.length_encode (h : BootImgHdr) : h.encode.length = BOOT_HEADER_SIZE := by
  have hm : h.magic.toList.length = 8 := h.magic.toList_length
  have hn : h.name.toList.length = 16 := h.name.toList_length
  have hc : h.cmdline.toList.length = 512 := h.cmdline.toList_length
  simp [encode, BOOT_HEADER_SIZE, hm, hn, hc]

section

variable {pre rest : List UInt8} {off n : ℕ}

/-- A slice that starts behind a prefix is one of what follows the prefix. -/
theorem slice_skip (h : pre.length ≤ off) :
    slice (pre ++ rest) off n = slice rest (off - pre.length) n := by
  rw [← slice_append_left pre rest, Nat.add_sub_cancel' h]

/-- A word behind a prefix is read from what follows the prefix. -/
theorem read32_skip (h : pre.length ≤ off) :
    read32 (pre ++ rest) off = read32 rest (off - pre.length) := by
  rw [read32, read32, slice_skip h]

/-- A word is read back from its four bytes. -/
theorem read32_le32 (w : UInt32) : read32 (le32 w ++ rest) 0 = w := read32_append [] rest w rfl

/-- An array of bytes behind a prefix is read from what follows the prefix. -/
theorem readArray_skip (h : pre.length ≤ off) :
    readArray (pre ++ rest) off n = readArray rest (off - pre.length) n :=
  Subtype.ext (congrArg (resize 0 n) (slice_skip h))

/-- An array of words behind a prefix is read from what follows the prefix. -/
theorem readWords_skip (h : pre.length ≤ off) :
    readWords (pre ++ rest) off n = readWords rest (off - pre.length) n := by
  refine Subtype.ext (List.map_congr_left fun i _ => ?_)
  rw [read32_skip (by omega), Nat.sub_add_comm h]

/-- An array at the front is read back. -/
theorem readArray_toList (v : List.Vector UInt8 n) : readArray (v.toList ++ rest) 0 n = v := by
  have hlen : v.toList.length = n := v.toList_length
  have hslice : slice (v.toList ++ rest) 0 n = v.toList := by
    rw [slice_append_right (by omega)]
    nth_rewrite 2 [← hlen]
    exact slice_self _
  have hres : resize 0 n v.toList = v.toList := by
    refine ext_getD (z := 0) (by rw [length_resize, hlen]) fun i hi => ?_
    rw [length_resize] at hi
    rw [getD_resize, if_pos hi]
  exact Subtype.ext ((congrArg (resize 0 n) hslice).trans hres)

/-- Words at the front are read back. -/
theorem readWords_wordBytes (words : List UInt32) :
    (List.range words.length).map (fun i => read32 (wordBytes words ++ rest) (0 + 4 * i)) =
      words := by
  induction words with
  | nil => rfl
  | cons w words ih =>
    have hcons : wordBytes (w :: words) ++ rest = le32 w ++ (wordBytes words ++ rest) := by
      rw [wordBytes, List.flatMap_cons, List.append_assoc]
      rfl
    rw [List.length_cons, List.range_succ_eq_map, List.map_cons, List.map_map, hcons,
      Nat.mul_zero, Nat.add_zero, read32_le32]
    refine congrArg (List.cons w) (Eq.trans (List.map_congr_left fun i _ => ?_) ih)
    rw [Function.comp, read32_skip (by rw [length_le32]; omega), length_le32]
    exact congrArg _ (by omega)

/-- An array of words is read back from its bytes. -/
theorem readWords_toList (v : List.Vector UInt32 n) :
    readWords (wordBytes v.toList ++ rest) 0 n = v := by
  obtain ⟨words, rfl⟩ := v
  exact Subtype.ext (readWords_wordBytes words)

end

/-- **The bytes of a header** decode to the header, whatever follows them. -/
theorem BootImgHdr.decode_append (h : BootImgHdr) (rest : List UInt8) :
    decode (h.encode ++ rest) = h := by
  obtain ⟨magic, kernel_size, kernel_addr, ramdisk_size, ramdisk_addr, second_size, second_addr,
    tags_addr, page_size, unused, name, cmdline, id⟩ := h
  simp only [decode, encode, List.append_assoc, mk.injEq]
  have hm : magic.toList.length = 8 := magic.toList_length
  have hu : (wordBytes unused.toList).length = 8 := by rw [length_wordBytes, unused.toList_length]
  have hn : name.toList.length = 16 := name.toList_length
  have hc : cmdline.toList.length = 512 := cmdline.toList_length
  simp [read32_skip, readArray_skip, readWords_skip, hm, hu, hn, hc, read32_le32,
    readArray_toList, readWords_toList]

end AmlogicToolkit.Boot
