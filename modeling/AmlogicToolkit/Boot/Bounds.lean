import AmlogicToolkit.Boot.Extract

/-!
# The header check and the extractors

Whether the 32-bit numbers of `check_boot_img_header` and of the three `extract_` functions are those
of the image. A header that the check accepts can describe an image that ends at `2^32` or beyond,
whose sizes have wrapped (`exactLayout_iff`). The extractors read the sections of an accepted image
when no offset wraps, and `extract_second` stores the second stage in a buffer of the size of the
kernel (`extractsExactly_iff`).
-/

namespace AmlogicToolkit.Boot

open Bytes Stdio

/-! ## Offsets -/

/-- `roffset` of `extract_ramdisk`: the pages of the header and the kernel, in 32 bits. -/
def extractRoffset (h : BootImgHdr) : UInt32 :=
  (1 + pages h.kernel_size h.page_size) * h.page_size

/-- `soffset` of `extract_second`: the pages of the header, the kernel and the ramdisk, in 32 bits.
-/
def extractSoffset (h : BootImgHdr) : UInt32 :=
  (1 + (pages h.ramdisk_size h.page_size + pages h.kernel_size h.page_size)) * h.page_size

section

variable {img : Abootimg} {h : BootImgHdr} {s s' : Stream} {file : List UInt8}

/-- The ramdisk is read at its offset, over the length the header gives it. -/
theorem extractRamdisk_eq (img : Abootimg) (s : Stream) : extractRamdisk img s =
    readSection img s (extractRoffset img.header) img.header.ramdisk_size := rfl

/-- The order of the two page counts does not matter. -/
theorem extractSoffset_eq (h : BootImgHdr) : extractSoffset h =
    (1 + pages h.kernel_size h.page_size + pages h.ramdisk_size h.page_size) * h.page_size := by
  rw [extractSoffset, UInt32.add_comm (pages h.ramdisk_size _), UInt32.add_assoc]

/-! ## The header check -/

/-- The layout of an image is what the 32-bit numbers say: it ends inside the image, and the
extractors have its offsets. -/
structure ExactLayout (img : Abootimg) : Prop where
  /-- The header and the pages of the sections. -/
  total : (1 + pageCount img.header.kernel_size.toNat img.header.page_size.toNat +
    pageCount img.header.ramdisk_size.toNat img.header.page_size.toNat +
    pageCount img.header.second_size.toNat img.header.page_size.toNat) *
      img.header.page_size.toNat ≤ img.size.toNat
  /-- The offset of the ramdisk. -/
  ramdisk_offset : (extractRoffset img.header).toNat = img.header.ramdiskOffset
  /-- The offset of the second stage. -/
  second_offset : (extractSoffset img.header).toNat = img.header.secondOffset
  /-- The kernel is inside the image. -/
  kernel : img.header.page + img.header.kernel_size.toNat ≤ img.size.toNat
  /-- So is the ramdisk. -/
  ramdisk : img.header.ramdiskOffset + img.header.ramdisk_size.toNat ≤ img.size.toNat
  /-- So is the second stage. -/
  second : img.header.secondOffset + img.header.second_size.toNat ≤ img.size.toNat

/-- With an exact layout the sum of all sections is below 4 GiB. -/
theorem ExactLayout.below (h : ExactLayout img) : img.header.totalSize < 2 ^ 32 :=
  Nat.lt_of_le_of_lt h.total img.size.toNat_lt

/-- **The header check is sound** for the images that end below `2^32`, and for no others. -/
theorem exactLayout_iff (h : checkBootImgHeader img = none) :
    ExactLayout img ↔ img.header.totalSize < 2 ^ 32 := by
  constructor
  · exact ExactLayout.below
  · intro hlt
    obtain ⟨-, -, -, hpage, -⟩ := checkBootImgHeader_none.mp h
    have hf : img.header.Fits := ⟨hpage, hlt⟩
    obtain ⟨hroffset, hsoffset, -⟩ := hf.toNat_offsets
    obtain ⟨hend1, hend2, hend3⟩ := hf.sections
    have htotal : img.header.totalSize ≤ img.size.toNat :=
      ((checkBootImgHeader_iff hf).mp h).2.2.2
    refine ⟨htotal, hroffset, by rw [extractSoffset_eq]; exact hsoffset, ?_, ?_, ?_⟩ <;> omega

/-- An image of a kernel, a ramdisk and no second stage, of one page each. -/
def threePages : Abootimg :=
  { newBootimg with
    size := 6144
    header := { newBootimg.header with kernel_size := 1, ramdisk_size := 1 } }

/-- An image with a page for each section is laid out exactly. -/
theorem exactLayout_threePages : ExactLayout threePages :=
  (exactLayout_iff (checkBootImgHeader_none.mpr
    ⟨rfl, by decide, by decide, by decide, by decide⟩)).mpr (by decide)

/-- A kernel of `2^32 - 1` bytes has no pages in 32 bits, and two pages are enough for it. -/
theorem check_accepts_huge_kernel : ∃ img : Abootimg,
    checkBootImgHeader img = none ∧ img.size = 4096 ∧ img.header.kernel_size = 0xffffffff ∧
      ¬ ExactLayout img := by
  refine ⟨{ newBootimg with
    size := 4096
    header := { newBootimg.header with kernel_size := 0xffffffff, ramdisk_size := 1 } },
    checkBootImgHeader_none.mpr ⟨rfl, by decide, by decide, by decide, by decide⟩, rfl, rfl,
    fun h => ?_⟩
  exact absurd h.below (by decide)

/-! ## The extractors -/

/-- The sections of a header lie inside a file. -/
structure SectionsInside (file : List UInt8) (h : BootImgHdr) : Prop where
  /-- The kernel. -/
  kernel : h.page + h.kernel_size.toNat ≤ file.length
  /-- The ramdisk. -/
  ramdisk : h.ramdiskOffset + h.ramdisk_size.toNat ≤ file.length
  /-- The second stage, when there is one. -/
  second : h.second_size ≠ 0 → h.secondOffset + h.second_size.toNat ≤ file.length

/-- The command `-x` reads every section where it lies, stores nothing behind the buffers that it has
allocated, and writes the bytes of the sections. A buffer has room for the bytes that `malloc` was
asked for, and no more. -/
structure ExtractsExactly (file : List UInt8) (h : BootImgHdr) : Prop where
  /-- The ramdisk is read where it lies. -/
  ramdisk_offset : (extractRoffset h).toNat = h.ramdiskOffset
  /-- So is the second stage. -/
  second_offset : h.second_size ≠ 0 → (extractSoffset h).toNat = h.secondOffset
  /-- What is written. -/
  outputs : ∃ x, extract id newBootimg (Stream.ofFile file) = .ok x ∧
    x.kernel = slice file h.page h.kernel_size.toNat ∧
    x.ramdisk = slice file h.ramdiskOffset h.ramdisk_size.toNat ∧
    x.second = if h.second_size = 0 then none
      else some (slice file h.secondOffset h.second_size.toNat)

/-- The second stage is extracted when it fits into a buffer of the size of the kernel. -/
theorem extractSecond_room {second : Option (List UInt8)}
    (hx : extractSecond id img s = .ok (second, s')) (h0 : img.header.second_size ≠ 0) :
    img.header.second_size ≤ img.header.kernel_size := by
  simp only [extractSecond, if_neg h0] at hx
  split at hx
  · cases hx
  · split_ifs at hx with hroom
    exact UInt32.le_iff_toNat_le.mpr (Nat.not_lt.mp hroom)

/-- Where the sections are extracted exactly, a second stage fits the buffer of the kernel. -/
theorem ExtractsExactly.room (hx : ExtractsExactly file img.header)
    (hread : readHeader newBootimg (Stream.ofFile file) = .ok (img, s))
    (h0 : img.header.second_size ≠ 0) : img.header.second_size ≤ img.header.kernel_size := by
  obtain ⟨x, hx, -⟩ := hx.outputs
  obtain ⟨img', s0, s1, s2, s3, hread', -, -, -, hsecond⟩ := extract_steps hx
  obtain ⟨rfl, rfl⟩ := Prod.mk.inj (Except.ok.inj (hread.symm.trans hread'))
  exact extractSecond_room hsecond h0

/-- **Extraction is in bounds and exact** when the sections start below `2^32` and the second stage is
not larger than the kernel, and only then. -/
theorem extractsExactly_iff (hread : readHeader newBootimg (Stream.ofFile file) = .ok (img, s))
    (hin : SectionsInside file img.header) :
    ExtractsExactly file img.header ↔ img.header.ramdiskOffset < 2 ^ 32 ∧
      (img.header.second_size ≠ 0 → img.header.secondOffset < 2 ^ 32 ∧
        img.header.second_size ≤ img.header.kernel_size) := by
  constructor
  · intro hx
    refine ⟨hx.ramdisk_offset ▸ UInt32.toNat_lt _, fun h0 => ⟨?_, hx.room hread h0⟩⟩
    exact hx.second_offset h0 ▸ UInt32.toNat_lt _
  · rintro ⟨hr, hsecond⟩
    obtain ⟨-, -, hcheck, him⟩ := readHeader_ok hread
    obtain ⟨-, hk0, hr0, hpage, -⟩ := checkBootImgHeader_none.mp hcheck
    have hroffset : (extractRoffset img.header).toNat = img.header.ramdiskOffset :=
      BootImgHdr.toNat_ramdiskOffset hpage hr
    have hsoffset : img.header.second_size ≠ 0 →
        (extractSoffset img.header).toNat = img.header.secondOffset := by
      intro h0
      rw [extractSoffset_eq]
      exact BootImgHdr.toNat_secondOffset hpage (hsecond h0).1
    -- The three sections, one after the other.
    obtain ⟨s1, him1, hkernel⟩ := @readSection_spec img s img.header.page_size _ hk0
      (by rw [him]; exact hin.kernel)
    obtain ⟨s2, him2, hramdisk⟩ := @readSection_spec img s1 (extractRoffset img.header) _ hr0
      (by rw [him1, him, hroffset]; exact hin.ramdisk)
    have hlast : ∃ s3, extractSecond id img s2 = .ok (if img.header.second_size = 0 then none
        else some (slice file img.header.secondOffset img.header.second_size.toNat), s3) := by
      unfold extractSecond
      by_cases h0 : img.header.second_size = 0
      · simp only [if_pos h0]
        exact ⟨s2, rfl⟩
      · obtain ⟨s3, -, hread3⟩ := @readSection_spec img s2 (extractSoffset img.header) _ h0
          (by rw [him2, him1, him, hsoffset h0]; exact hin.second h0)
        have hroom : ¬ id img.header.kernel_size.toNat < img.header.second_size.toNat :=
          Nat.not_lt.mpr (UInt32.le_iff_toNat_le.mp (hsecond h0).2)
        rw [hsoffset h0, him2, him1, him] at hread3
        unfold extractSoffset at hread3
        simp only [if_neg h0, hread3, if_neg hroom]
        exact ⟨s3, rfl⟩
    obtain ⟨s3, hlast⟩ := hlast
    rw [him1, him, hroffset] at hramdisk
    rw [him] at hkernel
    refine ⟨hroffset, hsoffset, ⟨writeBootimgConfig img,
      slice file img.header.page img.header.kernel_size.toNat,
      slice file img.header.ramdiskOffset img.header.ramdisk_size.toNat,
      if img.header.second_size = 0 then none
        else some (slice file img.header.secondOffset img.header.second_size.toNat)⟩, ?_, rfl, rfl,
      rfl⟩
    unfold extract extractKernel
    simp only [hread, hkernel, extractRamdisk_eq, hramdisk, hlast, bind, Except.bind]
    rfl

/-- The header of an image with a kernel and a ramdisk of one byte, and a second stage of some. -/
def secondHeader (size : UInt32) : BootImgHdr :=
  { newBootimg.header with kernel_size := 1, ramdisk_size := 1, second_size := size }

/-- The file of such an image, of four pages. -/
def secondFile (size : UInt32) : List UInt8 := (secondHeader size).encode ++ List.replicate 7584 0

/-- The file has four pages of 2048 bytes, whatever size its header gives the second stage. -/
theorem length_secondFile (size : UInt32) : (secondFile size).length = 8192 := by
  rw [secondFile, List.length_append, BootImgHdr.length_encode, List.length_replicate]
  rfl

/-- It is read when the second stage has a page at most. -/
theorem readHeader_secondFile (size : UInt32)
    (hsize : (1 + pages 1 2048 + pages 1 2048 + pages size 2048) * 2048 ≤ 8192) :
    ∃ s, readHeader newBootimg (Stream.ofFile (secondFile size)) =
      .ok (newBootimg.read (secondFile size) (secondHeader size), s) := by
  have h1 : (1 : UInt32) ≠ 0 := by decide
  have h2048 : (2048 : UInt32) ≠ 0 := by decide
  have hlen : UInt32.ofNat (secondFile size).length = 8192 := by
    rw [length_secondFile]
    rfl
  have hcheck : (1 + pages 1 2048 + pages 1 2048 + pages size 2048) * 2048 ≤
      UInt32.ofNat (secondFile size).length := by
    rw [hlen]
    exact hsize
  exact readHeader_encode newBootimg
    (checkBootImgHeader_none.mpr ⟨rfl, h1, h1, h2048, hcheck⟩)

/-- A second stage as large as the kernel is extracted. -/
theorem extractsExactly_one : ExtractsExactly (secondFile 1) (secondHeader 1) := by
  obtain ⟨s, hread⟩ := readHeader_secondFile 1 (by decide)
  have hin : SectionsInside (secondFile 1) (secondHeader 1) := by
    refine ⟨?_, ?_, fun _ => ?_⟩ <;> rw [length_secondFile] <;> decide
  exact (extractsExactly_iff hread hin).mpr ⟨by decide, fun _ => ⟨by decide, by decide⟩⟩

/-- A second stage of two bytes is stored in a buffer of one. -/
theorem second_overflows_kernel_buffer : ∃ s,
    readHeader newBootimg (Stream.ofFile (secondFile 2)) =
      .ok (newBootimg.read (secondFile 2) (secondHeader 2), s) ∧
    SectionsInside (secondFile 2) (secondHeader 2) ∧
    ¬ ExtractsExactly (secondFile 2) (secondHeader 2) := by
  obtain ⟨s, hread⟩ := readHeader_secondFile 2 (by decide)
  refine ⟨s, hread, ?_, fun hx => ?_⟩
  · refine ⟨?_, ?_, fun _ => ?_⟩ <;> rw [length_secondFile] <;> decide
  · exact absurd (ExtractsExactly.room hx hread (by decide)) (by decide)

end

end AmlogicToolkit.Boot
