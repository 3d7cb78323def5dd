import AmlogicToolkit.Boot.Image
import Mathlib.Tactic.SplitIfs

/-!
# The layout of a boot image

Where the sections of an image lie, as exact numbers, and that the offsets which the program
computes in 32 bits are these numbers when the image ends below `2^32` (`Fits`). Then the writer
puts every section at its place, and later writes cover earlier padding and no data
(`writeBootimg_spec`).
-/

namespace AmlogicToolkit.Boot

open Bytes Stdio

/-! ## Pages -/

/-- The number of pages of `page` bytes that hold `size` bytes. -/
def pageCount (size page : ℕ) : ℕ := (size + page - 1) / page

section

variable {size page : ℕ}

/-- No bytes take no page. -/
@[simp]
theorem pageCount_zero (hp : 0 < page) : pageCount 0 page = 0 := by
  rw [pageCount, Nat.div_eq_zero_iff]
  omega

/-- The pages hold the bytes, and the last one of them is not empty. -/
theorem pageCount_bounds (hp : 0 < page) :
    size ≤ pageCount size page * page ∧ pageCount size page * page < size + page := by
  have h1 := Nat.div_add_mod' (size + page - 1) page
  have h2 := Nat.mod_lt (size + page - 1) hp
  rw [pageCount]
  omega

/-- A section and its padding: the pages of the section, and one more when it fills them. -/
theorem padded_eq (hp : 0 < page) : size + (page - size % page) =
    if size % page = 0 then pageCount size page * page + page else pageCount size page * page := by
  have h1 := Nat.div_add_mod' size page
  have h2 := Nat.mod_lt size hp
  split_ifs with h
  · have hq : pageCount size page = size / page := by
      rw [pageCount, show size + page - 1 = page - 1 + size / page * page by omega,
        Nat.add_mul_div_right _ _ hp, Nat.div_eq_of_lt (by omega), Nat.zero_add]
    rw [hq]
    omega
  · have hq : pageCount size page = size / page + 1 := by
      rw [pageCount, show size + page - 1 = (size % page - 1) + (size / page + 1) * page by
        rw [Nat.add_mul]; omega, Nat.add_mul_div_right _ _ hp, Nat.div_eq_of_lt (by omega),
        Nat.zero_add]
    rw [hq, Nat.add_mul]
    omega

end

/-- The page count in 32 bits is exact for a section behind whose pages there is another page. -/
theorem toNat_pages {size page_size : UInt32} (hp : page_size ≠ 0)
    (h : (1 + pageCount size.toNat page_size.toNat) * page_size.toNat < 2 ^ 32) :
    (pages size page_size).toNat = pageCount size.toNat page_size.toNat := by
  have hpos : 0 < page_size.toNat := toNat_pos_of_ne_zero hp
  have hb := (@pageCount_bounds size.toNat _ hpos).1
  rw [Nat.add_mul, Nat.one_mul] at h
  rw [pages, pageCount, UInt32.toNat_div, UInt32.toNat_sub_of_le, UInt32.toNat_add,
    Nat.mod_eq_of_lt (by omega)]
  · rfl
  · rw [UInt32.le_iff_toNat_le, UInt32.toNat_add, Nat.mod_eq_of_lt (by omega)]
    change 1 ≤ _
    omega

/-! ## Offsets -/

namespace BootImgHdr

/-- The size of a page, as a natural number. -/
def page (h : BootImgHdr) : ℕ := h.page_size.toNat

/-- The ramdisk starts behind the page of the header and the pages of the kernel. -/
def ramdiskOffset (h : BootImgHdr) : ℕ := (1 + pageCount h.kernel_size.toNat h.page) * h.page

/-- The second stage starts behind the pages of the ramdisk. -/
def secondOffset (h : BootImgHdr) : ℕ :=
  (1 + pageCount h.kernel_size.toNat h.page + pageCount h.ramdisk_size.toNat h.page) * h.page

/-- The image ends behind the pages of the second stage. -/
def totalSize (h : BootImgHdr) : ℕ :=
  (1 + pageCount h.kernel_size.toNat h.page + pageCount h.ramdisk_size.toNat h.page +
    pageCount h.second_size.toNat h.page) * h.page

/-- The image of a header ends below `2^32`, and a page is not empty. -/
structure Fits (h : BootImgHdr) : Prop where
  /-- The size of a page is not zero. -/
  page_size : h.page_size ≠ 0
  /-- The image ends below `2^32`. -/
  total : h.totalSize < 2 ^ 32

variable {h : BootImgHdr}

/-- Each section starts where the pages of the one before it end, and the last ends at the total. -/
theorem offsets (h : BootImgHdr) :
    h.ramdiskOffset = h.page + pageCount h.kernel_size.toNat h.page * h.page ∧
      h.secondOffset = h.ramdiskOffset + pageCount h.ramdisk_size.toNat h.page * h.page ∧
      h.totalSize = h.secondOffset + pageCount h.second_size.toNat h.page * h.page := by
  unfold ramdiskOffset secondOffset totalSize
  refine ⟨?_, ?_, ?_⟩ <;> ring

/-- The page size of a header that fits is positive. -/
theorem Fits.page_pos (hf : h.Fits) : 0 < h.page :=
  toNat_pos_of_ne_zero hf.page_size

/-- The kernel and its pages end where the ramdisk starts, and so on. -/
theorem sections_le (hpos : 0 < h.page) :
    h.page + h.kernel_size.toNat ≤ h.ramdiskOffset ∧
      h.ramdiskOffset + h.ramdisk_size.toNat ≤ h.secondOffset ∧
      h.secondOffset + h.second_size.toNat ≤ h.totalSize := by
  obtain ⟨h1, h2, h3⟩ := h.offsets
  have hk := (@pageCount_bounds h.kernel_size.toNat _ hpos).1
  have hr := (@pageCount_bounds h.ramdisk_size.toNat _ hpos).1
  have hs := (@pageCount_bounds h.second_size.toNat _ hpos).1
  omega

/-- Where a header fits, each section ends before the next one begins. -/
theorem Fits.sections (hf : h.Fits) :
    h.page + h.kernel_size.toNat ≤ h.ramdiskOffset ∧
      h.ramdiskOffset + h.ramdisk_size.toNat ≤ h.secondOffset ∧
      h.secondOffset + h.second_size.toNat ≤ h.totalSize := h.sections_le hf.page_pos

/-- **The offset of the ramdisk** in 32 bits, when it is below `2^32`. -/
theorem toNat_ramdiskOffset (hp : h.page_size ≠ 0) (hlt : h.ramdiskOffset < 2 ^ 32) :
    ((1 + pages h.kernel_size h.page_size) * h.page_size).toNat = h.ramdiskOffset := by
  have hn : (pages h.kernel_size h.page_size).toNat = pageCount h.kernel_size.toNat h.page :=
    toNat_pages hp hlt
  have hpos : 0 < h.page := toNat_pos_of_ne_zero hp
  have hle : 1 + pageCount h.kernel_size.toNat h.page ≤ h.ramdiskOffset :=
    Nat.le_mul_of_pos_right _ hpos
  have h1 : (1 : UInt32).toNat = 1 := rfl
  rw [UInt32.toNat_mul, UInt32.toNat_add, hn, h1, Nat.mod_eq_of_lt (Nat.lt_of_le_of_lt hle hlt)]
  exact Nat.mod_eq_of_lt hlt

/-- **The offset of the second stage** in 32 bits, when it is below `2^32`. -/
theorem toNat_secondOffset (hp : h.page_size ≠ 0) (hlt : h.secondOffset < 2 ^ 32) :
    ((1 + pages h.kernel_size h.page_size + pages h.ramdisk_size h.page_size) *
      h.page_size).toNat = h.secondOffset := by
  have hpos : 0 < h.page := toNat_pos_of_ne_zero hp
  have hle := Nat.le_mul_of_pos_right
    (1 + pageCount h.kernel_size.toNat h.page + pageCount h.ramdisk_size.toNat h.page) hpos
  have h1 : (1 : UInt32).toNat = 1 := rfl
  unfold secondOffset at hlt
  have hk : (pages h.kernel_size h.page_size).toNat = pageCount h.kernel_size.toNat h.page :=
    toNat_pages hp (Nat.lt_of_le_of_lt (Nat.mul_le_mul_right h.page (Nat.le_add_right _ _)) hlt)
  have hr : (pages h.ramdisk_size h.page_size).toNat = pageCount h.ramdisk_size.toNat h.page :=
    toNat_pages hp (Nat.lt_of_le_of_lt (Nat.mul_le_mul_right h.page
      (show 1 + pageCount h.ramdisk_size.toNat h.page ≤ _ by omega)) hlt)
  rw [UInt32.toNat_mul, UInt32.toNat_add, UInt32.toNat_add, hk, hr, h1,
    Nat.mod_eq_of_lt (a := 1 + _) (by omega), Nat.mod_eq_of_lt (a := 1 + _ + _) (by omega)]
  exact Nat.mod_eq_of_lt hlt

/-- **The offsets** in 32 bits are exact when the image ends below `2^32`. -/
theorem Fits.toNat_offsets (hf : h.Fits) :
    ((1 + pages h.kernel_size h.page_size) * h.page_size).toNat = h.ramdiskOffset ∧
      ((1 + pages h.kernel_size h.page_size + pages h.ramdisk_size h.page_size) *
        h.page_size).toNat = h.secondOffset ∧
      ((1 + pages h.kernel_size h.page_size + pages h.ramdisk_size h.page_size +
        pages h.second_size h.page_size) * h.page_size).toNat = h.totalSize := by
  have hpos := hf.page_pos
  have htot := hf.total
  have h1 : (1 : UInt32).toNat = 1 := rfl
  have hle := Nat.le_mul_of_pos_right (1 + pageCount h.kernel_size.toNat h.page +
    pageCount h.ramdisk_size.toNat h.page + pageCount h.second_size.toNat h.page) hpos
  obtain ⟨ho1, ho2, ho3⟩ := h.offsets
  -- There is the page of the header besides the pages of every section.
  have hexact : ∀ size : UInt32, pageCount size.toNat h.page ≤ pageCount h.kernel_size.toNat h.page +
      pageCount h.ramdisk_size.toNat h.page + pageCount h.second_size.toNat h.page →
      (pages size h.page_size).toNat = pageCount size.toNat h.page := fun size hle =>
    toNat_pages hf.page_size
      (Nat.lt_of_le_of_lt (Nat.mul_le_mul_right h.page (Nat.add_le_add_left hle 1))
        (by unfold totalSize at htot; simpa only [Nat.add_assoc] using htot))
  have hk := hexact h.kernel_size (by omega)
  have hr := hexact h.ramdisk_size (by omega)
  have hs := hexact h.second_size (by omega)
  unfold totalSize at htot
  refine ⟨toNat_ramdiskOffset hf.page_size (by have := hf.total; omega), ?_, ?_⟩ <;>
    rw [UInt32.toNat_mul] <;> simp only [UInt32.toNat_add, hk, hr, hs, h1]
  · rw [Nat.mod_eq_of_lt (a := 1 + _) (by omega), Nat.mod_eq_of_lt (a := 1 + _ + _) (by omega)]
    exact Nat.mod_eq_of_lt (by have := hf.total; change h.secondOffset < _; omega)
  · rw [Nat.mod_eq_of_lt (a := 1 + _) (by omega), Nat.mod_eq_of_lt (a := 1 + _ + _) (by omega),
      Nat.mod_eq_of_lt (a := 1 + _ + _ + _) (by omega)]
    exact Nat.mod_eq_of_lt hf.total

end BootImgHdr

/-! ## Writing -/

/-- The buffers of an image have the sizes that the header says, and with a kernel there is a
ramdisk. -/
structure Loaded (img : Abootimg) : Prop where
  /-- The kernel. -/
  kernel : ∀ k, img.kernel = some k → k.length = img.header.kernel_size.toNat
  /-- The ramdisk. -/
  ramdisk : ∀ r, img.ramdisk = some r → r.length = img.header.ramdisk_size.toNat
  /-- The second stage. -/
  second : ∀ s, img.second = some s → s.length = img.header.second_size.toNat
  /-- The ramdisk is loaded with the kernel. -/
  copied : img.kernel.isSome → img.ramdisk.isSome

/-- Without a ramdisk there is no kernel. -/
theorem Loaded.kernel_none {img : Abootimg} (h : Loaded img) (hr : img.ramdisk = none) :
    img.kernel = none := by
  by_contra hk
  have := h.copied (Option.isSome_iff_ne_none.mpr hk)
  rw [hr] at this
  cases this

/-- Some writes have ended at `stop`, with something in the buffer, and have only written from `off`
on. -/
structure Puts (s s' : Stream) (off stop : ℕ) : Prop where
  /-- What lies elsewhere is kept. -/
  keeps : ∀ o d, o + d.length ≤ off ∨ stop ≤ o → Stored s.image o d → Stored s'.image o d
  /-- The end. -/
  tell : s'.tell = stop
  /-- The buffer is not empty. -/
  pending : s'.pending ≠ []

section

variable {s : Stream} {buf : List UInt8} {size psize : UInt32} {img : Abootimg}

/-- A buffer is written when it is long enough. -/
theorem writeBuffer_eq {n : ℕ} (h : n ≤ buf.length) :
    writeBuffer s buf n = .ok (s.fwrite (buf.take n)) :=
  if_neg (Nat.not_lt.mpr h)

/-- **A section** is stored where the stream is. -/
theorem writeSection_spec (hp : psize ≠ 0) (hlen : buf.length = size.toNat) :
    ∃ s', writeSection s buf size psize = .ok s' ∧ Stored s'.image s.tell buf ∧
      Puts s s' s.tell (s.tell + (size.toNat + (psize.toNat - size.toNat % psize.toNat))) := by
  have hpos : 0 < psize.toNat := toNat_pos_of_ne_zero hp
  have hmod := Nat.mod_lt size.toNat hpos
  -- A full page is added to a section of whole pages: `psize - size % psize` is `psize` then.
  have hpad : (psize - size % psize).toNat = psize.toNat - size.toNat % psize.toNat := by
    rw [UInt32.toNat_sub_of_le, UInt32.toNat_mod]
    rw [UInt32.le_iff_toNat_le, UInt32.toNat_mod]
    omega
  have htake : buf.take size.toNat = buf := List.take_of_length_le (Nat.le_of_eq hlen)
  refine ⟨(s.fwrite buf).fwrite
    (List.replicate (psize.toNat - size.toNat % psize.toNat) 0), ?_, ?_, fun o d hd h => ?_, ?_, ?_⟩
  · rw [writeSection, writeBuffer_eq (Nat.le_of_eq hlen.symm), htake]
    simp only [bind, Except.bind]
    rw [writeBuffer_eq (by rw [hpad, List.length_replicate]; omega), hpad, List.take_replicate,
      Nat.min_eq_left (Nat.sub_le _ _)]
  · rw [Stream.image_fwrite, Stream.image_fwrite, Stream.tell_fwrite]
    exact (stored_overwrite _ _ _).overwrite (Or.inl (Nat.le_refl _))
  · rw [Stream.image_fwrite, Stream.image_fwrite, Stream.tell_fwrite]
    refine (h.overwrite ?_).overwrite ?_
    · omega
    · rw [List.length_replicate]
      omega
  · rw [Stream.tell_fwrite, Stream.tell_fwrite, List.length_replicate, hlen, Nat.add_assoc]
  · refine Stream.pending_fwrite_ne_nil _ fun hnil => ?_
    rw [List.replicate_eq_nil_iff] at hnil
    omega

/-- **The header** is stored at the start, and one page is written. -/
theorem writeHeader_spec (s : Stream) (hp : BOOT_HEADER_SIZE ≤ img.header.page) :
    ∃ s', writeHeader img s = .ok s' ∧ Stored s'.image 0 img.header.encode ∧
      Puts s s' 0 img.header.page := by
  have hlen := img.header.length_encode
  refine ⟨((s.fseek 0).fwrite img.header.encode).fwrite
    (List.replicate (img.header.page - BOOT_HEADER_SIZE) 0), ?_, ?_, fun o d hd h => ?_, ?_, ?_⟩
  · -- A page holds the header, so the padding does not wrap.
    have hlt : ¬ img.header.page_size.toNat < BOOT_HEADER_SIZE := Nat.not_lt.mpr hp
    rw [writeHeader, if_neg hlt,
      writeBuffer_eq (by rw [List.length_replicate]; exact Nat.sub_le _ _), List.take_replicate,
      Nat.min_eq_left (Nat.sub_le _ _)]
    rfl
  · rw [Stream.image_fwrite, Stream.image_fwrite, Stream.tell_fwrite, Stream.tell_fseek]
    exact (stored_overwrite _ _ _).overwrite (Or.inl (Nat.le_refl _))
  · rw [Stream.image_fwrite, Stream.image_fwrite, Stream.tell_fwrite, Stream.tell_fseek,
      Stream.image_fseek]
    refine (h.overwrite ?_).overwrite ?_
    · omega
    · rw [List.length_replicate]
      omega
  · rw [Stream.tell_fwrite, Stream.tell_fwrite, Stream.tell_fseek, List.length_replicate]
    omega
  · have hne : img.header.encode ≠ [] := fun hnil => by
      rw [hnil] at hlen
      cases hlen
    simp [Stream.fwrite, hne]

/-- Where the last write of an image ends. -/
def Abootimg.writtenEnd (img : Abootimg) : ℕ :=
  let h := img.header
  if h.second_size ≠ 0 then
    h.secondOffset + (h.second_size.toNat + (h.page - h.second_size.toNat % h.page))
  else if img.ramdisk.isSome then
    h.ramdiskOffset + (h.ramdisk_size.toNat + (h.page - h.ramdisk_size.toNat % h.page))
  else h.page

/-- What the file of an image holds after it is written over `old`. -/
structure Written (held : ℕ) (img : Abootimg) (old new : List UInt8) : Prop where
  /-- The header. -/
  header : Stored new 0 img.header.encode
  /-- A kernel that is written. -/
  kernel : ∀ k, img.kernel = some k → Stored new img.header.page k
  /-- A kernel that is not. -/
  kernel_kept : img.kernel = none → ∀ k, k.length = img.header.kernel_size.toNat →
    Stored old img.header.page k → Stored new img.header.page k
  /-- A ramdisk that is written. -/
  ramdisk : ∀ r, img.ramdisk = some r → Stored new img.header.ramdiskOffset r
  /-- A ramdisk that is not. -/
  ramdisk_kept : img.ramdisk = none → ∀ r, r.length = img.header.ramdisk_size.toNat →
    Stored old img.header.ramdiskOffset r → Stored new img.header.ramdiskOffset r
  /-- The second stage. -/
  second : ∀ s, img.header.second_size ≠ 0 → img.second = some s →
    Stored new img.header.secondOffset s
  /-- The size of the file. -/
  length : new.length = if held = 0 then img.size.toNat else max img.size.toNat img.writtenEnd

/-- What the stream of an image holds when all sections are written over `old`, before the file is
cut. -/
structure Wrote (img : Abootimg) (old : List UInt8) (t : Stream) : Prop where
  /-- The header. -/
  header : Stored t.image 0 img.header.encode
  /-- A kernel that is written. -/
  kernel : ∀ k, img.kernel = some k → Stored t.image img.header.page k
  /-- A kernel that is not. -/
  kernel_kept : img.kernel = none → ∀ k, k.length = img.header.kernel_size.toNat →
    Stored old img.header.page k → Stored t.image img.header.page k
  /-- A ramdisk that is written. -/
  ramdisk : ∀ r, img.ramdisk = some r → Stored t.image img.header.ramdiskOffset r
  /-- A ramdisk that is not. -/
  ramdisk_kept : img.ramdisk = none → ∀ r, r.length = img.header.ramdisk_size.toNat →
    Stored old img.header.ramdiskOffset r → Stored t.image img.header.ramdiskOffset r
  /-- The second stage. -/
  second : ∀ s, img.header.second_size ≠ 0 → img.second = some s →
    Stored t.image img.header.secondOffset s
  /-- The position. -/
  tell : t.tell = img.writtenEnd
  /-- The buffer is not empty. -/
  pending : t.pending ≠ []

/-- Nothing is put when nothing is written. -/
theorem Puts.nothing {s s' : Stream} {off stop : ℕ} (h : Puts s s' off stop) (off' : ℕ) :
    Puts s' s' off' stop :=
  ⟨fun _ _ _ h => h, h.tell, h.pending⟩

/-- **The kernel** is stored behind the page of the header, and nothing is written without one. -/
theorem writeKernel_spec {s s1 : Stream} {off : ℕ} (h1 : Puts s s1 off img.header.page)
    (hz : img.header.page_size ≠ 0) (hl : Loaded img) :
    ∃ s2 stop, writeKernel img s1 = .ok s2 ∧ Puts s1 s2 img.header.page stop ∧
      (∀ k, img.kernel = some k → Stored s2.image img.header.page k) ∧
      (img.kernel = none → s2 = s1 ∧ stop = img.header.page) := by
  unfold writeKernel
  cases hk : img.kernel with
  | none =>
    exact ⟨s1, img.header.page, rfl, h1.nothing _, fun _ h => (nomatch h), fun _ => ⟨rfl, rfl⟩⟩
  | some k =>
    obtain ⟨s2, h2, hst, hput⟩ := writeSection_spec (s := s1) hz (hl.kernel k hk)
    rw [h1.tell] at hst hput
    exact ⟨s2, _, h2, hput, fun k' hk' => Option.some.inj hk' ▸ hst, fun h => (nomatch h)⟩

/-- **The ramdisk** is stored at its offset, when that fits into 32 bits. -/
theorem writeRamdisk_spec {s s2 : Stream} {off stop2 : ℕ} (h2 : Puts s s2 off stop2)
    (hz : img.header.page_size ≠ 0) (hoff : img.header.ramdiskOffset < 2 ^ 32) (hl : Loaded img) :
    ∃ s3 stop, writeRamdisk img s2 = .ok s3 ∧ Puts s2 s3 img.header.ramdiskOffset stop ∧
      (∀ r, img.ramdisk = some r → Stored s3.image img.header.ramdiskOffset r) ∧
      (img.ramdisk = none → s3 = s2) ∧
      (img.ramdisk.isSome → stop = img.header.ramdiskOffset + (img.header.ramdisk_size.toNat +
        (img.header.page - img.header.ramdisk_size.toNat % img.header.page))) := by
  unfold writeRamdisk
  cases hr : img.ramdisk with
  | none =>
    exact ⟨s2, stop2, rfl, h2.nothing _, fun _ h => (nomatch h), fun _ => rfl, fun h => (nomatch h)⟩
  | some r =>
    obtain ⟨s3, h3, hst, hput⟩ := writeSection_spec
      (s := s2.fseek img.header.ramdiskOffset) hz (hl.ramdisk r hr)
    simp only [BootImgHdr.toNat_ramdiskOffset hz hoff]
    exact ⟨s3, _, h3, ⟨hput.keeps, hput.tell, hput.pending⟩,
      fun r' hr' => Option.some.inj hr' ▸ hst, fun h => (nomatch h), fun _ => rfl⟩

/-- **The second stage** is stored at its offset, when there is one, and nothing is written when
not. -/
theorem writeSecond_spec {s s3 : Stream} {off stop3 : ℕ} (h3 : Puts s s3 off stop3)
    (hz : img.header.page_size ≠ 0)
    (hsoff : img.header.second_size ≠ 0 → img.header.secondOffset < 2 ^ 32) (hl : Loaded img)
    (hsecond : img.header.second_size ≠ 0 → img.second.isSome) :
    ∃ s4 stop, writeSecond img s3 = .ok s4 ∧ Puts s3 s4 img.header.secondOffset stop ∧
      (∀ sec, img.header.second_size ≠ 0 → img.second = some sec →
        Stored s4.image img.header.secondOffset sec) ∧
      (img.header.second_size ≠ 0 → stop = img.header.secondOffset +
        (img.header.second_size.toNat +
          (img.header.page - img.header.second_size.toNat % img.header.page))) ∧
      (img.header.second_size = 0 → stop = stop3) := by
  unfold writeSecond
  by_cases h0 : img.header.second_size = 0
  · rw [if_neg (not_not.mpr h0)]
    exact ⟨s3, stop3, rfl, h3.nothing _, fun _ h => absurd h0 h, fun h => absurd h0 h, fun _ => rfl⟩
  · rw [if_pos h0]
    obtain ⟨sec, hsec⟩ := Option.isSome_iff_exists.mp (hsecond h0)
    obtain ⟨s4, h4, hst, hput⟩ := writeSection_spec
      (s := s3.fseek img.header.secondOffset) hz (hl.second sec hsec)
    simp only [hsec, BootImgHdr.toNat_secondOffset hz (hsoff h0)]
    exact ⟨s4, _, h4, ⟨hput.keeps, hput.tell, hput.pending⟩,
      fun s' _ hs' => Option.some.inj hs' ▸ hst, fun _ => rfl, fun h => absurd h h0⟩

/-- **Writing the sections** of an image of a page that holds the header, which start below `2^32`,
with a second stage in its buffer when it has one. -/
theorem writeBootimg_wrote (s : Stream) (hoff : img.header.ramdiskOffset < 2 ^ 32)
    (hsoff : img.header.second_size ≠ 0 → img.header.secondOffset < 2 ^ 32) (hl : Loaded img)
    (hp : BOOT_HEADER_SIZE ≤ img.header.page)
    (hsecond : img.header.second_size ≠ 0 → img.second.isSome) :
    ∃ t, (∀ held, writeBootimg held img s = .ok (t.ftruncate held img.size.toNat).flush) ∧
      Wrote img s.image t := by
  have hpos : 0 < img.header.page := Nat.lt_of_lt_of_le (by decide) hp
  have hz : img.header.page_size ≠ 0 := fun h0 => by
    rw [BootImgHdr.page, h0] at hpos
    exact Nat.lt_irrefl _ hpos
  obtain ⟨hend1, hend2, hend3⟩ := img.header.sections_le hpos
  have hhdr := img.header.length_encode
  have hle1 : img.header.page ≤ img.header.ramdiskOffset := by omega
  obtain ⟨s1, h1, hs1, hk1⟩ := writeHeader_spec s hp
  obtain ⟨s2, stop2, h2, hk2, hkernel, hnone⟩ := writeKernel_spec hk1 hz hl
  obtain ⟨s3, stop3, h3, hk3, hramdisk, hnone3, hstop3⟩ := writeRamdisk_spec hk2 hz hoff hl
  obtain ⟨s4, stop4, h4, hk4, hstored4, hstop4, hstop4'⟩ :=
    writeSecond_spec hk3 hz hsoff hl hsecond
  -- The last section that is written ends the file.
  have hend : stop4 = img.writtenEnd := by
    unfold Abootimg.writtenEnd
    by_cases h0 : img.header.second_size = 0
    · rw [if_neg (not_not.mpr h0), hstop4' h0]
      cases hr' : img.ramdisk with
      | some r => exact hstop3 (by rw [hr']; rfl)
      | none =>
        have := hk3.tell
        rw [hnone3 hr', (hnone (hl.kernel_none hr')).1, hk1.tell] at this
        exact this.symm
    · rw [if_pos h0]
      exact hstop4 h0
  refine ⟨s4, fun held => ?_, ?_, fun k hk => ?_, fun hk k hlen hold => ?_, fun r hr => ?_,
    fun hr r hlen hold => ?_, hstored4, hk4.tell.trans hend, hk4.pending⟩
  · unfold writeBootimg
    simp only [if_neg hz, h1, h2, h3, h4, bind, Except.bind]
    rfl
  · refine hk4.keeps _ _ ?_ (hk3.keeps _ _ ?_ (hk2.keeps _ _ ?_ hs1)) <;> omega
  · have := hl.kernel k hk
    refine hk4.keeps _ _ ?_ (hk3.keeps _ _ ?_ (hkernel k hk)) <;> omega
  · rw [(hnone hk).1] at hk3
    refine hk4.keeps _ _ ?_ (hk3.keeps _ _ ?_ (hk1.keeps _ _ ?_ hold)) <;> omega
  · have := hl.ramdisk r hr
    refine hk4.keeps _ _ ?_ (hramdisk r hr)
    omega
  · rw [hnone3 hr, (hnone (hl.kernel_none hr)).1] at hk4
    refine hk4.keeps _ _ ?_ (hk1.keeps _ _ ?_ hold) <;> omega

/-- The size of the file, when its last bytes may be held back. -/
theorem Wrote.length {old : List UInt8} {t : Stream} (h : Wrote img old t) (held size : ℕ) :
    (t.ftruncate held size).flush.image.length =
      if held = 0 then size else max size img.writtenEnd := by
  rw [Stream.image_flush, Stream.length_image_ftruncate, h.tell]
  simp only [h.pending, or_false]

/-- **Writing an image** of a page that holds the header, with a second stage in its buffer when it
has one, puts all sections that are loaded at their places and keeps the others. -/
theorem writeBootimg_spec (held : ℕ) (s : Stream) (hf : img.header.Fits) (hl : Loaded img)
    (hp : BOOT_HEADER_SIZE ≤ img.header.page)
    (hsecond : img.header.second_size ≠ 0 → img.second.isSome)
    (hsize : img.header.totalSize ≤ img.size.toNat) :
    ∃ s', writeBootimg held img s = .ok s' ∧ Written held img s.image s'.image := by
  obtain ⟨hend1, hend2, hend3⟩ := hf.sections
  have htot := hf.total
  obtain ⟨t, heq, hw⟩ := writeBootimg_wrote s (by omega) (fun _ => by omega) hl hp hsecond
  have hhdr := img.header.length_encode
  -- All sections end in front of the cut.
  refine ⟨_, heq held, ?_, fun k hk => ?_, fun hk k hlen hold => ?_, fun r hr => ?_,
    fun hr r hlen hold => ?_, fun sec h0 hsec => ?_, hw.length held _⟩
  · exact hw.header.ftruncate held (by omega)
  · have := hl.kernel k hk
    exact (hw.kernel k hk).ftruncate held (by omega)
  · exact (hw.kernel_kept hk k hlen hold).ftruncate held (by omega)
  · have := hl.ramdisk r hr
    exact (hw.ramdisk r hr).ftruncate held (by omega)
  · exact (hw.ramdisk_kept hr r hlen hold).ftruncate held (by omega)
  · have := hl.second sec hsec
    exact (hw.second sec h0 hsec).ftruncate held (by omega)

/-- A `write_bootimg` that returns has written the header and the three sections in this order, cut
the file and flushed it. -/
theorem writeBootimg_stages {held : ℕ} {s' : Stream} (h : writeBootimg held img s = .ok s') :
    img.header.page_size ≠ 0 ∧ ∃ s1 s2 s3 s4, writeHeader img s = .ok s1 ∧
      writeKernel img s1 = .ok s2 ∧ writeRamdisk img s2 = .ok s3 ∧ writeSecond img s3 = .ok s4 ∧
      s' = (s4.ftruncate held img.size.toNat).flush := by
  unfold writeBootimg at h
  by_cases hz : img.header.page_size = 0
  · simp only [if_pos hz] at h
    cases h
  simp only [if_neg hz] at h
  obtain ⟨s1, h1, h⟩ := Except.bind_ok_iff.mp h
  obtain ⟨s2, h2, h⟩ := Except.bind_ok_iff.mp h
  obtain ⟨s3, h3, h⟩ := Except.bind_ok_iff.mp h
  obtain ⟨s4, h4, h⟩ := Except.bind_ok_iff.mp h
  cases h
  exact ⟨hz, s1, s2, s3, s4, h1, h2, h3, h4, rfl⟩

/-- What is written has a page for the header, and a second stage in its buffer when it has one. -/
theorem writeBootimg_ok {held : ℕ} {s' : Stream} (h : writeBootimg held img s = .ok s') :
    BOOT_HEADER_SIZE ≤ img.header.page ∧ (img.header.second_size ≠ 0 → img.second.isSome) := by
  obtain ⟨-, s1, s2, s3, s4, h1, -, -, h4, -⟩ := writeBootimg_stages h
  constructor
  · by_contra hlt
    have hlt' : img.header.page_size.toNat < BOOT_HEADER_SIZE := Nat.not_le.mp hlt
    rw [writeHeader, if_pos hlt'] at h1
    cases h1
  · intro h0
    by_contra hnone
    rw [Option.not_isSome_iff_eq_none] at hnone
    rw [writeSecond, if_pos h0, hnone] at h4
    cases h4

end

end AmlogicToolkit.Boot
