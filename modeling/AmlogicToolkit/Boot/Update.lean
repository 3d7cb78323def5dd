import AmlogicToolkit.Boot.Pack

/-!
# Updating an image

`abootimg -u` on a valid image. The sections that are given are loaded, the others are copied from
the original image when a section in front of them is given, at offsets that `update_images` computes
with the page size of the new header, or stay where they are. All of them are extracted again exactly
when the sections that are not given are found at the new offsets, a second stage is only kept when
the ramdisk is written, and the last padding does not reach `2^32` (`update_keeps_iff`).
-/

namespace AmlogicToolkit.Boot

open Bytes Stdio

/-! ## Valid images -/

/-- The header that the first bytes of a file encode. -/
def headerOf (file : List UInt8) : BootImgHdr := BootImgHdr.decode (slice file 0 BOOT_HEADER_SIZE)

/-- A valid image: a page holds the header, the magic value is right, there are a kernel and a
ramdisk, and all pages lie inside the file, whose size is taken in 32 bits. -/
structure ValidImage (file : List UInt8) : Prop where
  /-- A page holds the header. -/
  page : BOOT_HEADER_SIZE ≤ (headerOf file).page
  /-- The magic value. -/
  magic : (headerOf file).magic = BOOT_MAGIC
  /-- There is a kernel. -/
  kernel_size : (headerOf file).kernel_size ≠ 0
  /-- There is a ramdisk. -/
  ramdisk_size : (headerOf file).ramdisk_size ≠ 0
  /-- All pages lie inside the file. -/
  total : (headerOf file).totalSize ≤ (UInt32.ofNat file.length).toNat

/-- The bytes of the kernel, behind the page of the header. -/
def kernelOf (file : List UInt8) : List UInt8 :=
  slice file (headerOf file).page (headerOf file).kernel_size.toNat

/-- The bytes of the ramdisk, behind the pages of the kernel. -/
def ramdiskOf (file : List UInt8) : List UInt8 :=
  slice file (headerOf file).ramdiskOffset (headerOf file).ramdisk_size.toNat

/-- The second stage of an image, with no bytes when there is none. -/
def secondOf (file : List UInt8) : List UInt8 :=
  slice file (headerOf file).secondOffset (headerOf file).second_size.toNat

section

variable {file : List UInt8}

/-- A valid image is at least as long as its sections. -/
theorem ValidImage.total_le (h : ValidImage file) : (headerOf file).totalSize ≤ file.length := by
  have h1 := h.total
  rw [UInt32.toNat_ofNat'] at h1
  exact h1.trans (Nat.mod_le _ _)

/-- The header of a valid image fits. -/
theorem ValidImage.fits (h : ValidImage file) : (headerOf file).Fits := by
  refine ⟨fun hz => ?_, Nat.lt_of_le_of_lt h.total (UInt32.ofNat file.length).toNat_lt⟩
  have hp := h.page
  rw [BootImgHdr.page, hz] at hp
  exact absurd hp (by decide)

/-- The sections have the sizes of the header. -/
theorem ValidImage.lengths (h : ValidImage file) :
    (kernelOf file).length = (headerOf file).kernel_size.toNat ∧
      (ramdiskOf file).length = (headerOf file).ramdisk_size.toNat ∧
      (secondOf file).length = (headerOf file).second_size.toNat := by
  obtain ⟨h1, h2, h3⟩ := h.fits.sections
  have hle := h.total_le
  exact ⟨length_slice_of_le (by omega), length_slice_of_le (by omega),
    length_slice_of_le (by omega)⟩

end

/-! ## What is loaded -/

/-- The options of `-u`, as `parse_args` leaves them. -/
def updateArgs (fname : String) (config_fname kernel_fname ramdisk_fname second_fname : Option String) :
    Abootimg :=
  { newBootimg with
    fname := fname
    config_fname := config_fname
    kernel_fname := kernel_fname
    ramdisk_fname := ramdisk_fname
    second_fname := second_fname }

/-- The size of a section that is given, or the old one. -/
def givenSize (given : Option (List UInt8)) (old : UInt32) : UInt32 :=
  (given.map fun b => UInt32.ofNat b.length).getD old

/-- A header with the sizes of the sections that are given. -/
def updatedHeader (h : BootImgHdr) (k r sec : Option (List UInt8)) : BootImgHdr :=
  { h with
    kernel_size := givenSize k h.kernel_size
    ramdisk_size := givenSize r h.ramdisk_size
    second_size := givenSize sec h.second_size }

/-- `roffset` of `update_images`: where the ramdisk of the original image is copied from. -/
def roffset (h : BootImgHdr) : UInt32 := (1 + pages h.kernel_size h.page_size) * h.page_size

/-- `soffset` of `update_images`: where the second stage of the original image is copied from. -/
def soffset (h : BootImgHdr) : UInt32 :=
  (1 + pages h.kernel_size h.page_size + pages h.ramdisk_size h.page_size) * h.page_size

section

variable {fs : Files} {img img' : Abootimg} {s s' : Stream} {offset osize : UInt32}

/-- What the part for the kernel does. -/
theorem updateKernel_ok (h : updateKernel fs img = .ok img') :
    (∃ fname size buf, img.kernel_fname = some fname ∧ loadFile fs fname = .ok (size, buf) ∧
      img' = { img with header := { img.header with kernel_size := size }, kernel := some buf }) ∨
    (img.kernel_fname = none ∧ img' = img) := by
  unfold updateKernel at h
  split at h
  · next fname hf =>
    obtain ⟨v, hl, h⟩ := Except.bind_ok_iff.mp h
    cases h
    exact Or.inl ⟨fname, v.1, v.2, hf, hl, rfl⟩
  · next hf =>
    cases h
    exact Or.inr ⟨hf, rfl⟩

/-- What the part for the ramdisk does. -/
theorem updateRamdisk_ok (h : updateRamdisk fs offset osize img s = .ok (img', s')) :
    s'.image = s.image ∧
    ((∃ fname size buf, img.ramdisk_fname = some fname ∧ loadFile fs fname = .ok (size, buf) ∧
      img' = { img with header := { img.header with ramdisk_size := size }, ramdisk := some buf }) ∨
    (img.ramdisk_fname = none ∧ img.kernel.isSome ∧ 0 < osize.toNat ∧
      offset.toNat + osize.toNat ≤ s.image.length ∧
      img' = { img with ramdisk := some (slice s.image offset.toNat osize.toNat) }) ∨
    (img.ramdisk_fname = none ∧ img.kernel = none ∧ img' = img)) := by
  unfold updateRamdisk at h
  split at h
  · next fname hf =>
    obtain ⟨v, hl, h⟩ := Except.bind_ok_iff.mp h
    cases h
    exact ⟨rfl, Or.inl ⟨fname, v.1, v.2, hf, hl, rfl⟩⟩
  · -- Without a name the ramdisk is copied from the image, but only when a new kernel moves it.
    next hf =>
    by_cases hk : img.kernel.isSome
    · rw [if_pos hk] at h
      obtain ⟨v, hr, h⟩ := Except.bind_ok_iff.mp h
      cases h
      obtain ⟨h1, h2, h3, h4⟩ := readSection_ok hr
      rw [h1]
      exact ⟨h2, Or.inr (Or.inl ⟨hf, hk, h3, h4, rfl⟩)⟩
    · rw [if_neg hk] at h
      cases h
      exact ⟨rfl, Or.inr (Or.inr ⟨hf, Option.not_isSome_iff_eq_none.mp hk, rfl⟩)⟩

/-- What the part for the second stage does. -/
theorem updateSecond_ok (h : updateSecond fs offset osize img s = .ok (img', s')) :
    s'.image = s.image ∧
    ((∃ fname size buf, img.second_fname = some fname ∧ loadFile fs fname = .ok (size, buf) ∧
      img' = { img with header := { img.header with second_size := size }, second := some buf }) ∨
    (img.second_fname = none ∧ (img.ramdisk.isSome ∧ img.header.second_size ≠ 0) ∧
      offset.toNat + osize.toNat ≤ s.image.length ∧
      img' = { img with second := some (slice s.image offset.toNat osize.toNat) }) ∨
    (img.second_fname = none ∧ ¬ (img.ramdisk.isSome ∧ img.header.second_size ≠ 0) ∧
      img' = img)) := by
  unfold updateSecond at h
  split at h
  · next fname hf =>
    obtain ⟨v, hl, h⟩ := Except.bind_ok_iff.mp h
    cases h
    exact ⟨rfl, Or.inl ⟨fname, v.1, v.2, hf, hl, rfl⟩⟩
  · -- Without a name the second stage is copied, but only when a section in front of it was loaded.
    next hf =>
    by_cases hk : img.ramdisk.isSome ∧ img.header.second_size ≠ 0
    · rw [if_pos hk] at h
      obtain ⟨v, hr, h⟩ := Except.bind_ok_iff.mp h
      cases h
      obtain ⟨h1, h2, -, h4⟩ := readSection_ok hr
      rw [h1]
      exact ⟨h2, Or.inr (Or.inl ⟨hf, hk, h4, rfl⟩)⟩
    · rw [if_neg hk] at h
      cases h
      exact ⟨rfl, Or.inr (Or.inr ⟨hf, hk, rfl⟩)⟩

/-- The end of `update_images` leaves a size that the sections fit into. -/
theorem updateSize_ok (h : updateSize img = .ok img') : img' = { img with size := img'.size } ∧
    (1 + pages img.header.kernel_size img.header.page_size +
      pages img.header.ramdisk_size img.header.page_size +
      pages img.header.second_size img.header.page_size) * img.header.page_size ≤ img'.size := by
  unfold updateSize at h
  extract_lets page_size n m o total_size at h
  split_ifs at h with h0 hgt
  · cases h
    exact ⟨rfl, UInt32.le_refl _⟩
  · cases h
    exact ⟨rfl, UInt32.not_lt.mp hgt⟩

end

/-! ## The image that is written -/

/-- What `update_images` has done to an image without buffers, when the files that it is given are
shorter than `2^32` bytes. -/
structure Updates (file : List UInt8) (img : Abootimg) (k r sec : Option (List UInt8))
    (img' : Abootimg) : Prop where
  /-- The sizes. -/
  header : img'.header = updatedHeader img.header k r sec
  /-- A kernel that is given is loaded. -/
  kernel : img'.kernel = k
  /-- A ramdisk that is given is loaded. -/
  ramdisk_given : ∀ b, r = some b → img'.ramdisk = some b
  /-- With a new kernel, the old ramdisk is copied. -/
  ramdisk_copied : r = none → k.isSome →
    (roffset img.header).toNat + img.header.ramdisk_size.toNat ≤ file.length ∧
    img'.ramdisk = some (slice file (roffset img.header).toNat img.header.ramdisk_size.toNat)
  /-- Otherwise it stays where it is. -/
  ramdisk_left : r = none → k = none → img'.ramdisk = none
  /-- A second stage that is given is loaded. -/
  second_given : ∀ b, sec = some b → img'.second = some b
  /-- With a new kernel or ramdisk, the old second stage is copied. -/
  second_copied : sec = none → k.isSome ∨ r.isSome → img.header.second_size ≠ 0 →
    (soffset img.header).toNat + img.header.second_size.toNat ≤ file.length ∧
    img'.second = some (slice file (soffset img.header).toNat img.header.second_size.toNat)
  /-- Otherwise it is not there. -/
  second_left : sec = none → (k.isSome ∨ r.isSome → img.header.second_size = 0) →
    img'.second = none
  /-- What is given is not empty. -/
  nonempty : ∀ b, k = some b ∨ r = some b ∨ sec = some b → b ≠ []
  /-- The size of the image is at least that of its sections. -/
  size : (1 + pages img'.header.kernel_size img'.header.page_size +
    pages img'.header.ramdisk_size img'.header.page_size +
    pages img'.header.second_size img'.header.page_size) * img'.header.page_size ≤ img'.size

section

variable {fs : Files} {img img' : Abootimg} {s s' : Stream} {offset osize : UInt32}
  {k r sec : Option (List UInt8)}

/-- The file of a section, shorter than `2^32` bytes, is loaded as it is. -/
theorem loadFile_given {fname : String} {b buf : List UInt8} {size : UInt32}
    (hb : fs fname = some b) (hlt : b.length < 2 ^ 32)
    (h : loadFile fs fname = .ok (size, buf)) :
    size = UInt32.ofNat b.length ∧ buf = b ∧ b ≠ [] := by
  obtain ⟨bytes, hbytes, hsize, hbuf, -, h0⟩ := loadFile_ok h
  rw [hb] at hbytes
  cases hbytes
  refine ⟨hsize, ?_, ?_⟩
  · rw [hbuf, hsize, UInt32.toNat_ofNat', Nat.mod_eq_of_lt hlt, slice_self]
  · rintro rfl
    exact h0 hsize

/-- An `update_images` that goes through has updated the kernel, the ramdisk, the second stage and
the size in this order. -/
theorem updateImages_stages (h : updateImages fs img s = .ok (img', s')) :
    ∃ img1 img2 s2 img3, updateKernel fs img = .ok img1 ∧
      updateRamdisk fs (roffset img.header) img.header.ramdisk_size img1 s = .ok (img2, s2) ∧
      updateSecond fs (soffset img.header) img.header.second_size img2 s2 = .ok (img3, s') ∧
      updateSize img3 = .ok img' := by
  unfold updateImages at h
  by_cases hz : img.header.page_size = 0
  · simp only [if_pos hz] at h
    cases h
  simp only [if_neg hz] at h
  obtain ⟨img1, h1, h⟩ := Except.bind_ok_iff.mp h
  obtain ⟨v2, h2, h⟩ := Except.bind_ok_iff.mp h
  obtain ⟨v3, h3, h⟩ := Except.bind_ok_iff.mp h
  obtain ⟨img4, h4, h⟩ := Except.bind_ok_iff.mp h
  cases h
  exact ⟨img1, v2.1, v2.2, v3.1, h1, h2, h3, h4⟩

/-- The file of a section that is given is loaded as it is. -/
theorem loaded_of_given {o : Option String} {given : Option (List UInt8)}
    (h : o.map fs = given.map some) (hlt : ∀ b, given = some b → b.length < 2 ^ 32)
    {fname : String} {buf : List UInt8} {size : UInt32} (ho : o = some fname)
    (hl : loadFile fs fname = .ok (size, buf)) :
    given = some buf ∧ size = UInt32.ofNat buf.length ∧ buf ≠ [] := by
  rw [ho, Option.map_some] at h
  obtain ⟨b, rfl, hb⟩ := Option.map_eq_some_iff.mp h.symm
  obtain ⟨rfl, rfl, hne⟩ := loadFile_given hb.symm (hlt b rfl) hl
  exact ⟨rfl, rfl, hne⟩

/-- No file is given for the section. -/
theorem eq_none_of_given {o : Option String} {given : Option (List UInt8)}
    (h : o.map fs = given.map some) (ho : o = none) : given = none := by
  rw [ho, Option.map_none] at h
  exact Option.map_eq_none_iff.mp h.symm

/-- The part for the kernel, on an image without a kernel. -/
theorem updateKernel_given (h : updateKernel fs img = .ok img')
    (hk : img.kernel_fname.map fs = k.map some) (hlt : ∀ b, k = some b → b.length < 2 ^ 32)
    (hkernel : img.kernel = none) :
    img' = { img with
      header := { img.header with kernel_size := givenSize k img.header.kernel_size }
      kernel := k } ∧ ∀ b, k = some b → b ≠ [] := by
  rcases updateKernel_ok h with ⟨fname, size, buf, hf, hl, rfl⟩ | ⟨hf, rfl⟩
  · obtain ⟨rfl, rfl, hne⟩ := loaded_of_given hk hlt hf hl
    exact ⟨rfl, fun c hc => Option.some.inj hc ▸ hne⟩
  · obtain rfl := eq_none_of_given hk hf
    cases img'
    cases hkernel
    exact ⟨rfl, fun _ h => nomatch h⟩

/-- The part for the ramdisk, on an image without one: the old ramdisk is copied when there is a
kernel. -/
theorem updateRamdisk_given (h : updateRamdisk fs offset osize img s = .ok (img', s'))
    (hr : img.ramdisk_fname.map fs = r.map some) (hlt : ∀ b, r = some b → b.length < 2 ^ 32)
    (hramdisk : img.ramdisk = none) :
    s'.image = s.image ∧ (∀ b, r = some b → b ≠ []) ∧ ∃ buf, img' = { img with
      header := { img.header with ramdisk_size := givenSize r img.header.ramdisk_size }
      ramdisk := buf } ∧ (∀ b, r = some b → buf = some b) ∧
      (r = none → img.kernel.isSome → offset.toNat + osize.toNat ≤ s.image.length ∧
        buf = some (slice s.image offset.toNat osize.toNat)) ∧
      (r = none → img.kernel = none → buf = none) := by
  obtain ⟨him, hcase⟩ := updateRamdisk_ok h
  refine ⟨him, ?_⟩
  rcases hcase with ⟨fname, size, buf, hf, hl, rfl⟩ | ⟨hf, hki, -, hle, rfl⟩ | ⟨hf, hki, rfl⟩
  · obtain ⟨rfl, rfl, hne⟩ := loaded_of_given hr hlt hf hl
    exact ⟨fun c hc => Option.some.inj hc ▸ hne, _, rfl, fun _ h => h, fun h => (nomatch h),
      fun h => (nomatch h)⟩
  · obtain rfl := eq_none_of_given hr hf
    exact ⟨fun _ h => (nomatch h), _, rfl, fun _ h => (nomatch h), fun _ _ => ⟨hle, rfl⟩,
      fun _ h => absurd h (Option.isSome_iff_ne_none.mp hki)⟩
  · obtain rfl := eq_none_of_given hr hf
    exact ⟨fun _ h => (nomatch h), img'.ramdisk, rfl, fun _ h => (nomatch h),
      fun _ h => absurd hki (Option.isSome_iff_ne_none.mp h), fun _ _ => hramdisk⟩

/-- The part for the second stage, on an image without one: the old one is copied when there is a
ramdisk. -/
theorem updateSecond_given (h : updateSecond fs offset osize img s = .ok (img', s'))
    (hsec : img.second_fname.map fs = sec.map some) (hlt : ∀ b, sec = some b → b.length < 2 ^ 32)
    (hsecond : img.second = none) :
    s'.image = s.image ∧ (∀ b, sec = some b → b ≠ []) ∧ ∃ buf, img' = { img with
      header := { img.header with second_size := givenSize sec img.header.second_size }
      second := buf } ∧ (∀ b, sec = some b → buf = some b) ∧
      (sec = none → img.ramdisk.isSome → img.header.second_size ≠ 0 →
        offset.toNat + osize.toNat ≤ s.image.length ∧
        buf = some (slice s.image offset.toNat osize.toNat)) ∧
      (sec = none → (img.ramdisk.isSome → img.header.second_size = 0) → buf = none) := by
  obtain ⟨him, hcase⟩ := updateSecond_ok h
  refine ⟨him, ?_⟩
  rcases hcase with ⟨fname, size, buf, hf, hl, rfl⟩ | ⟨hf, hbuf, hle, rfl⟩ | ⟨hf, hbuf, rfl⟩
  · obtain ⟨rfl, rfl, hne⟩ := loaded_of_given hsec hlt hf hl
    exact ⟨fun c hc => Option.some.inj hc ▸ hne, _, rfl, fun _ h => h, fun h => (nomatch h),
      fun h => (nomatch h)⟩
  · obtain rfl := eq_none_of_given hsec hf
    exact ⟨fun _ h => (nomatch h), _, rfl, fun _ h => (nomatch h), fun _ _ _ => ⟨hle, rfl⟩,
      fun _ h0 => absurd (h0 hbuf.1) hbuf.2⟩
  · obtain rfl := eq_none_of_given hsec hf
    exact ⟨fun _ h => (nomatch h), img'.second, rfl, fun _ h => (nomatch h),
      fun _ hr h0 => absurd ⟨hr, h0⟩ hbuf, fun _ _ => hsecond⟩

/-- **`update_images`** on an image without buffers loads the sections that are named, and leaves
the file alone. -/
theorem updateImages_ok (hk : img.kernel_fname.map fs = k.map some)
    (hr : img.ramdisk_fname.map fs = r.map some) (hsec : img.second_fname.map fs = sec.map some)
    (hlt : ∀ b, k = some b ∨ r = some b ∨ sec = some b → b.length < 2 ^ 32)
    (hkernel : img.kernel = none) (hramdisk : img.ramdisk = none) (hsecond : img.second = none)
    (h : updateImages fs img s = .ok (img', s')) :
    s'.image = s.image ∧ Updates s.image img k r sec img' := by
  obtain ⟨img1, img2, s2, img3, h1, h2, h3, h4⟩ := updateImages_stages h
  obtain ⟨rfl, hkne⟩ := updateKernel_given h1 hk (fun b hb => hlt b (Or.inl hb)) hkernel
  -- The ramdisk is copied with a new kernel.
  obtain ⟨him2, hrne, buf, rfl, hgiven, hcopied, hleft⟩ :=
    updateRamdisk_given h2 hr (fun b hb => hlt b (Or.inr (Or.inl hb))) hramdisk
  -- The second stage is copied with a new ramdisk or a copied one.
  obtain ⟨him3, hsne, buf', rfl, hgiven', hcopied', hleft'⟩ :=
    updateSecond_given h3 hsec (fun b hb => hlt b (Or.inr (Or.inr hb))) hsecond
  have hloaded : buf.isSome ↔ k.isSome ∨ r.isSome := by
    cases hr' : r with
    | some b => simp [hgiven b hr']
    | none =>
      cases hk' : k with
      | some b => simp [(hcopied hr' (by rw [hk']; rfl)).2]
      | none => simp [hleft hr' hk']
  rw [him2] at hcopied'
  obtain ⟨heq, hsize⟩ := updateSize_ok h4
  refine ⟨him3.trans him2, ?_⟩
  rw [heq]
  exact ⟨rfl, rfl, hgiven, hcopied, hleft, hgiven', fun hs hkr => hcopied' hs (hloaded.mpr hkr),
    fun hs h0 => hleft' hs fun hb => h0 (hloaded.mp hb),
    fun b hb => hb.elim (hkne b) fun hb => hb.elim (hrne b) (hsne b), hsize⟩

end

/-! ## What is extracted afterwards -/

/-- The second stage of an image, if there is one. -/
def secondStage (file : List UInt8) : Option (List UInt8) :=
  if (headerOf file).second_size = 0 then none else some (secondOf file)

/-- The `n` bytes of a file from `off` on, with zeros behind its end. -/
def window (file : List UInt8) (off n : ℕ) : List UInt8 := resize 0 n (slice file off n)

/-- What `-u` is run on: the config has left the header `h`, the files that are given are shorter
than `2^32` bytes, the sections that are not given start below `2^32` in an image with this header,
and the new image ends below `2^32`. -/
structure UpdateInput (h : BootImgHdr) (k r sec : Option (List UInt8)) : Prop where
  /-- The files are short. -/
  lengths : ∀ b, k = some b ∨ r = some b ∨ sec = some b → b.length < 2 ^ 32
  /-- The start of the old ramdisk. -/
  ramdisk_start : r = none → h.ramdiskOffset < 2 ^ 32
  /-- The start of the old second stage. -/
  second_start : sec = none → h.second_size ≠ 0 → h.secondOffset < 2 ^ 32
  /-- The end of the new image. -/
  fits : (updatedHeader h k r sec).Fits

/-- When `-u` keeps what it is not asked to change. -/
structure UpdateKeeps (room : ℕ → ℕ) (file : List UInt8) (h : BootImgHdr)
    (k r sec : Option (List UInt8)) : Prop where
  /-- A page holds the header. -/
  page : BOOT_HEADER_SIZE ≤ h.page
  /-- There is no second stage, or a section is given. -/
  loaded : h.second_size = 0 ∨ k.isSome ∨ r.isSome ∨ sec.isSome
  /-- A kernel that is not given lies also where the new page size puts it. -/
  kernel : k = none → Stored file h.page (kernelOf file)
  /-- So does a ramdisk. -/
  ramdisk : r = none → Stored file h.ramdiskOffset (ramdiskOf file)
  /-- So does a second stage. -/
  second : sec = none → h.second_size ≠ 0 → Stored file h.secondOffset (secondOf file)
  /-- `malloc` gives room for the new second stage. -/
  roomy : (updatedHeader h k r sec).second_size ≠ 0 → Roomy room (updatedHeader h k r sec)
  /-- The last padding does not reach `2^32`. -/
  padding : ¬ (FullLast (updatedHeader h k r sec) (k.isSome || r.isSome) ∧
    2 ^ 32 ≤ (updatedHeader h k r sec).totalSize + h.page)

section

variable {file : List UInt8} {img img' : Abootimg} {k r sec : Option (List UInt8)}
  {room : ℕ → ℕ}

/-- A window has the length asked for. -/
@[simp] theorem length_window (file : List UInt8) (off n : ℕ) : (window file off n).length = n :=
  length_resize 0 n _

/-- A window is what is stored at its offset. -/
theorem stored_window (file : List UInt8) (off n : ℕ) : Stored file off (window file off n) := by
  intro i hi
  rw [length_window] at hi
  rw [window, getD_resize, if_pos hi, getD_slice, if_pos hi]

/-- A window inside the file is a slice. -/
theorem window_eq {off n : ℕ} (h : off + n ≤ file.length) : window file off n = slice file off n :=
  (stored_window file off n).unique (stored_slice file off n) (by
    rw [length_window, length_slice_of_le h])

/-- Data is held at a position exactly when it is the window there. -/
theorem stored_iff_window {off n : ℕ} {data : List UInt8} (h : data.length = n) :
    Stored file off data ↔ window file off n = data := by
  constructor
  · intro hs
    exact (stored_window file off n).unique hs (by rw [length_window, h])
  · rintro rfl
    exact stored_window file off n

/-- A section that is not given is a window of the file exactly when it is held there. -/
theorem getD_window_iff {given : Option (List UInt8)} {off n : ℕ} {data : List UInt8}
    (h : data.length = n) : given.getD (window file off n) = given.getD data ↔
      (given = none → Stored file off data) := by
  cases given with
  | none => exact (stored_iff_window h).symm.trans ⟨fun hs _ => hs, fun hs => hs rfl⟩
  | some b => exact iff_of_true rfl fun hn => (nomatch hn)

/-- The size of a section that is given is its length. -/
theorem toNat_givenSize {given : Option (List UInt8)} {b : List UInt8} {old : UInt32}
    (h : given = some b) (hlt : b.length < 2 ^ 32) : (givenSize given old).toNat = b.length := by
  subst h
  exact (UInt32.toNat_ofNat').trans (Nat.mod_eq_of_lt hlt)

/-- The length of what takes the place of a section. -/
theorem length_getD_window {given : Option (List UInt8)} {old : UInt32} (off : ℕ)
    (hlt : ∀ b, given = some b → b.length < 2 ^ 32) :
    (given.getD (window file off old.toNat)).length = (givenSize given old).toNat := by
  cases hg : given with
  | none => simp [givenSize]
  | some b => exact (toNat_givenSize rfl (hlt b hg)).symm

/-- The buffers have the sizes of the new header. -/
theorem Updates.loaded (h : Updates file img k r sec img') (hi : UpdateInput img.header k r sec) :
    Loaded img' := by
  refine ⟨fun b hb => ?_, fun b hb => ?_, fun b hb => ?_, fun hk => ?_⟩
  · rw [h.kernel] at hb
    rw [h.header]
    exact (toNat_givenSize hb (hi.lengths b (Or.inl hb))).symm
  · -- The ramdisk has the size of the header in all three cases: given, copied, or left.
    rw [h.header]
    cases hr : r with
    | some c =>
      rw [h.ramdisk_given c hr] at hb
      cases hb
      have hlt := hi.lengths b (Or.inr (Or.inl hr))
      exact (@toNat_givenSize _ b img.header.ramdisk_size rfl hlt).symm
    | none =>
      cases hk : k with
      | none =>
        rw [h.ramdisk_left hr hk] at hb
        cases hb
      | some c =>
        obtain ⟨hle, heq⟩ := h.ramdisk_copied hr (by rw [hk]; rfl)
        rw [heq] at hb
        cases hb
        exact length_slice_of_le hle
  · -- So has the second stage.
    rw [h.header]
    cases hs : sec with
    | some c =>
      rw [h.second_given c hs] at hb
      cases hb
      have hlt := hi.lengths b (Or.inr (Or.inr hs))
      exact (@toNat_givenSize _ b img.header.second_size rfl hlt).symm
    | none =>
      change b.length = img.header.second_size.toNat
      by_cases hcopy : k.isSome ∨ r.isSome → img.header.second_size = 0
      · rw [h.second_left hs hcopy] at hb
        cases hb
      · obtain ⟨hkr, h0⟩ := Classical.not_imp.mp hcopy
        obtain ⟨hle, heq⟩ := h.second_copied hs hkr h0
        rw [heq] at hb
        cases hb
        exact length_slice_of_le hle
  · rw [h.kernel] at hk
    cases hr : r with
    | some c => rw [h.ramdisk_given c hr]; rfl
    | none => rw [(h.ramdisk_copied hr hk).2]; rfl

/-- What the new image holds: the sections that are given, and windows of the old image. -/
theorem Updates.written (h : Updates file img k r sec img') (hi : UpdateInput img.header k r sec)
    {held : ℕ} {new : List UInt8} (hw : Written held img' file new) :
    Stored new img'.header.page
        (k.getD (window file img.header.page img.header.kernel_size.toNat)) ∧
      Stored new img'.header.ramdiskOffset
        (r.getD (window file img.header.ramdiskOffset img.header.ramdisk_size.toNat)) ∧
      (img'.header.second_size ≠ 0 → img'.second.isSome → Stored new img'.header.secondOffset
        (sec.getD (window file img.header.secondOffset img.header.second_size.toNat))) := by
  have hp : img.header.page_size ≠ 0 := hi.fits.page_size
  refine ⟨?_, ?_, fun h0 hsome => ?_⟩
  · cases hk : k with
    | some b => exact hw.kernel b (h.kernel.trans hk)
    | none =>
      refine hw.kernel_kept (h.kernel.trans hk) _ ?_ ?_
      · rw [h.header, Option.getD_none, length_window, hk]
        rfl
      · rw [h.header]
        exact stored_window file _ _
  · cases hr : r with
    | some b => exact hw.ramdisk b (h.ramdisk_given b hr)
    | none =>
      rw [Option.getD_none]
      cases hk : k with
      | some b =>
        -- The old ramdisk is copied from its place in the image with the new page size.
        obtain ⟨hle, heq⟩ := h.ramdisk_copied hr (by rw [hk]; rfl)
        rw [roffset, BootImgHdr.toNat_ramdiskOffset hp (hi.ramdisk_start hr)] at hle heq
        rw [window_eq hle]
        exact hw.ramdisk _ heq
      | none =>
        -- It stays where it is, behind the same kernel.
        have hoff : img'.header.ramdiskOffset = img.header.ramdiskOffset := by
          rw [h.header, hk]
          rfl
        refine hw.ramdisk_kept (h.ramdisk_left hr hk) _ ?_ ?_
        · rw [h.header, length_window, hr]
          rfl
        · rw [hoff]
          exact stored_window file _ _
  · cases hs : sec with
    | some b => exact hw.second b h0 (h.second_given b hs)
    | none =>
      rw [Option.getD_none]
      have h0' : img.header.second_size ≠ 0 := by
        rw [h.header, hs] at h0
        exact h0
      have hkr : k.isSome ∨ r.isSome := by
        by_contra hkr
        rw [h.second_left hs fun h => absurd h hkr] at hsome
        cases hsome
      obtain ⟨hle, heq⟩ := h.second_copied hs hkr h0'
      rw [soffset, BootImgHdr.toNat_secondOffset hp (hi.second_start hs h0')] at hle heq
      rw [window_eq hle]
      exact hw.second _ h0 heq

/-- There is a ramdisk in its buffer when a kernel or a ramdisk is given. -/
theorem Updates.ramdisk_isSome (h : Updates file img k r sec img') :
    img'.ramdisk.isSome = (k.isSome || r.isSome) := by
  cases hr : r with
  | some b => rw [h.ramdisk_given b hr]; simp
  | none =>
    cases hk : k with
    | some b => rw [(h.ramdisk_copied hr (by rw [hk]; rfl)).2]; simp
    | none => rw [h.ramdisk_left hr hk]; simp

/-- A second stage that has a size is in its buffer when there was none, or a section is given. -/
theorem Updates.second_isSome (h : Updates file img k r sec img')
    (h0 : img'.header.second_size ≠ 0) : img'.second.isSome ↔
      img.header.second_size = 0 ∨ k.isSome ∨ r.isSome ∨ sec.isSome := by
  cases hs : sec with
  | some b =>
    rw [h.second_given b hs]
    simp
  | none =>
    have h0' : img.header.second_size ≠ 0 := by
      rw [h.header, hs] at h0
      exact h0
    by_cases hkr : k.isSome ∨ r.isSome
    · rw [(h.second_copied hs hkr h0').2]
      refine iff_of_true rfl (Or.inr ?_)
      rw [← or_assoc]
      exact Or.inl hkr
    · rw [h.second_left hs fun h => absurd h hkr]
      refine iff_of_false (by simp) ?_
      rw [← or_assoc (a := k.isSome = true)]
      simp only [Option.isSome_none, Bool.false_eq_true, or_false, not_or]
      exact ⟨h0', by simpa using hkr⟩

/-- A size of something that is not empty is not zero. -/
theorem givenSize_ne_zero {given : Option (List UInt8)} {old : UInt32}
    (h0 : given = none → old ≠ 0) (hlt : ∀ b, given = some b → b.length < 2 ^ 32)
    (hne : ∀ b, given = some b → b ≠ []) : givenSize given old ≠ 0 := by
  cases hg : given with
  | none => exact h0 hg
  | some b =>
    intro hz
    have hlen := @toNat_givenSize _ b old rfl (hlt b hg)
    rw [hz, UInt32.toNat_zero] at hlen
    exact hne b hg (List.length_eq_zero_iff.mp hlen.symm)

/-- The second stage of the new image, which has no size when there is none. -/
theorem Updates.secondStage_eq (h : Updates file img k r sec img')
    (hi : UpdateInput img.header k r sec)
    (hss : img.header.second_size = (headerOf file).second_size) :
    sec.or (secondStage file) =
      if img'.header.second_size = 0 then none else some (sec.getD (secondOf file)) := by
  have hsize : img'.header.second_size = givenSize sec img.header.second_size := by
    rw [h.header]
    rfl
  cases hn : sec with
  | some b =>
    have hne : img'.header.second_size ≠ 0 := by
      rw [hsize, hn]
      exact givenSize_ne_zero (fun h0 => (nomatch h0))
        (fun c hc => hi.lengths c (Or.inr (Or.inr (hn.trans hc))))
        fun c hc => h.nonempty c (Or.inr (Or.inr (hn.trans hc)))
    rw [if_neg hne]
    rfl
  | none =>
    rw [hsize, hn, givenSize, Option.map_none, Option.getD_none, hss]
    rfl

/-- **What the new image holds** is what was asked for exactly when the sections that are not given
lie where the new page size puts them. -/
theorem Updates.holds_iff (h : Updates file img k r sec img') (hi : UpdateInput img.header k r sec)
    (hv : ValidImage file) (hkept : img.header.kernel_size = (headerOf file).kernel_size ∧
      img.header.ramdisk_size = (headerOf file).ramdisk_size ∧
      img.header.second_size = (headerOf file).second_size)
    (hsome : img'.header.second_size ≠ 0 → img'.second.isSome) {held : ℕ} {new : List UInt8}
    (hw : Written held img' file new) :
    Holds new img'.header (k.getD (kernelOf file)) (r.getD (ramdiskOf file))
        (sec.or (secondStage file)) ↔
      (k = none → Stored file img.header.page (kernelOf file)) ∧
      (r = none → Stored file img.header.ramdiskOffset (ramdiskOf file)) ∧
      (sec = none → img.header.second_size ≠ 0 →
        Stored file img.header.secondOffset (secondOf file)) := by
  obtain ⟨hks, hrs, hss⟩ := hkept
  obtain ⟨hkl, hrl, hsl⟩ := hv.lengths
  rw [← hks] at hkl
  rw [← hrs] at hrl
  rw [← hss] at hsl
  obtain ⟨hK, hR, hS⟩ := h.written hi hw
  have hk : (k.getD (window file img.header.page img.header.kernel_size.toNat)).length =
      img'.header.kernel_size.toNat := by
    rw [h.header]
    exact length_getD_window _ fun b hb => hi.lengths b (Or.inl hb)
  have hr : (r.getD (window file img.header.ramdiskOffset
      img.header.ramdisk_size.toNat)).length = img'.header.ramdisk_size.toNat := by
    rw [h.header]
    exact length_getD_window _ fun b hb => hi.lengths b (Or.inr (Or.inl hb))
  have hs : (sec.getD (window file img.header.secondOffset
      img.header.second_size.toNat)).length = img'.header.second_size.toNat := by
    rw [h.header]
    exact length_getD_window _ fun b hb => hi.lengths b (Or.inr (Or.inr hb))
  have hstage := h.secondStage_eq hi hss
  have hsize (hn : sec = none) : img'.header.second_size = img.header.second_size := by
    rw [h.header, hn]
    rfl
  constructor
  · intro hh
    refine ⟨(getD_window_iff hkl).mp (hK.unique hh.kernel (hk.trans hh.kernel_size.symm)),
      (getD_window_iff hrl).mp (hR.unique hh.ramdisk (hr.trans hh.ramdisk_size.symm)),
      fun hn h0 => ?_⟩
    rw [← hsize hn] at h0
    rw [if_neg h0] at hstage
    exact (getD_window_iff hsl).mp ((hS h0 (hsome h0)).unique (hh.second _ hstage)
      (hs.trans (hh.second_size _ hstage).symm)) hn
  · rintro ⟨hck, hcr, hcs⟩
    -- The windows are the sections of the old image.
    rw [(getD_window_iff hkl).mpr hck] at hK hk
    rw [(getD_window_iff hrl).mpr hcr] at hR hr
    have hs' : ∀ b, sec.or (secondStage file) = some b → img'.header.second_size ≠ 0 ∧
        sec.getD (window file img.header.secondOffset img.header.second_size.toNat) = b := by
      intro b hb
      rw [hstage] at hb
      split_ifs at hb with h0
      obtain rfl := Option.some.inj hb
      exact ⟨h0, (getD_window_iff hsl).mpr fun hn => hcs hn (hsize hn ▸ h0)⟩
    refine ⟨hw.header, hK, hk, hR, hr, fun b hb => ?_, fun b hb => ?_, fun hn => ?_, fun hz => ?_⟩
    · obtain ⟨h0, rfl⟩ := hs' b hb
      exact hS h0 (hsome h0)
    · obtain ⟨h0, rfl⟩ := hs' b hb
      exact hs
    · rw [hstage] at hn
      split_ifs at hn with h0
      exact h0
    · rw [hstage, if_pos hz]

/-- The size of an updated image leaves room for its sections. -/
theorem Updates.totalSize_le (h : Updates file img k r sec img') (hfits : img'.header.Fits) :
    img'.header.totalSize ≤ img'.size.toNat := by
  rw [← hfits.toNat_offsets.2.2]
  exact UInt32.le_iff_toNat_le.mp h.size

/-- **What is written of an updated image**, when a page holds the header and the second stage is in
its buffer. -/
theorem Updates.write_spec (h : Updates file img k r sec img')
    (hi : UpdateInput img.header k r sec) (hfits : img'.header.Fits)
    (hp : BOOT_HEADER_SIZE ≤ img'.header.page)
    (hsome : img'.header.second_size ≠ 0 → img'.second.isSome) {s : Stream} (hs : s.image = file)
    (held : ℕ) :
    ∃ s', writeBootimg held img' s = .ok s' ∧ Written held img' file s'.image ∧
      BOOT_HEADER_SIZE ≤ s'.image.length := by
  have hsize := h.totalSize_le hfits
  obtain ⟨hend1, hend2, hend3⟩ := hfits.sections
  obtain ⟨s', hw, hwritten⟩ := writeBootimg_spec held s hfits (h.loaded hi) hp hsome hsize
  rw [hs] at hwritten
  refine ⟨s', hw, hwritten, ?_⟩
  rw [hwritten.length]
  split_ifs <;> omega

/-- An updated image that is read back as it was asked for meets the conditions. -/
theorem Updates.keeps_of_extracts (h : Updates file img k r sec img')
    (hi : UpdateInput img.header k r sec) (hv : ValidImage file)
    (hkept : img.header.kernel_size = (headerOf file).kernel_size ∧
      img.header.ramdisk_size = (headerOf file).ramdisk_size ∧
      img.header.second_size = (headerOf file).second_size)
    {s : Stream} (hs : s.image = file)
    (hback : ∀ held, ∃ s', writeBootimg held img' s = .ok s' ∧ ∃ h', Extracts room s'.image h'
      (k.getD (kernelOf file)) (r.getD (ramdiskOf file)) (sec.or (secondStage file))) :
    UpdateKeeps room file img.header k r sec := by
  have hheader := h.header
  have hfits : img'.header.Fits := by rw [hheader]; exact hi.fits
  obtain ⟨s0, hw0, -⟩ := hback 0
  obtain ⟨hp, hsome⟩ := writeBootimg_ok hw0
  -- What is found in the file for every number of bytes that is held back.
  have hfound : ∀ held, ∃ s', writeBootimg held img' s = .ok s' ∧
      Written held img' file s'.image ∧ Found room s'.image img'.header
        (k.getD (kernelOf file)) (r.getD (ramdiskOf file)) (sec.or (secondStage file)) := by
    intro held
    obtain ⟨s', hw, hwritten, hlen⟩ := h.write_spec hi hfits hp hsome hs held
    obtain ⟨s'', hw', h', hx⟩ := hback held
    rw [hw] at hw'
    cases hw'
    exact ⟨s', hw, hwritten, (hx.found hwritten.header hlen hfits).2⟩
  obtain ⟨s1, -, hwritten, hf⟩ := hfound 0
  have hholds : Holds s1.image img'.header (k.getD (kernelOf file)) (r.getD (ramdiskOf file))
      (sec.or (secondStage file)) :=
    ⟨hwritten.header, hf.kernel, hf.kernel_size, hf.ramdisk, hf.ramdisk_size,
      fun b hb => (hf.second b hb).1, fun b hb => (hf.second b hb).2, hf.second_none⟩
  obtain ⟨hck, hcr, hcs⟩ := (h.holds_iff hi hv hkept hsome hwritten).mp hholds
  have hpad := (size_iff hfits (h.totalSize_le hfits)).mp fun held => by
    obtain ⟨s', -, hwritten, hf⟩ := hfound held
    rw [← hwritten.length]
    exact hf.size
  rw [h.ramdisk_isSome, hheader] at hpad
  have hpage : img'.header.page = img.header.page := by rw [hheader]; rfl
  refine ⟨hpage ▸ hp, ?_, hck, hcr, hcs, hheader ▸ hf.roomy, hpad⟩
  by_cases h0 : img'.header.second_size = 0
  · cases hsec : sec with
    | some b => simp
    | none =>
      rw [hheader, hsec] at h0
      exact Or.inl h0
  · exact (h.second_isSome h0).mp (hsome h0)

/-- An updated image that meets the conditions is read back as it was asked for. -/
theorem Updates.extracts_of_keeps (h : Updates file img k r sec img')
    (hi : UpdateInput img.header k r sec) (hv : ValidImage file)
    (hmagic : img.header.magic = BOOT_MAGIC)
    (hkept : img.header.kernel_size = (headerOf file).kernel_size ∧
      img.header.ramdisk_size = (headerOf file).ramdisk_size ∧
      img.header.second_size = (headerOf file).second_size)
    {s : Stream} (hs : s.image = file) (hc : UpdateKeeps room file img.header k r sec) (held : ℕ) :
    ∃ s', writeBootimg held img' s = .ok s' ∧ ∃ h', Extracts room s'.image h'
      (k.getD (kernelOf file)) (r.getD (ramdiskOf file)) (sec.or (secondStage file)) := by
  have hheader := h.header
  have hfits : img'.header.Fits := by rw [hheader]; exact hi.fits
  have hp : BOOT_HEADER_SIZE ≤ img'.header.page := by rw [hheader]; exact hc.page
  have hsome : img'.header.second_size ≠ 0 → img'.second.isSome := fun h0 =>
    (h.second_isSome h0).mpr hc.loaded
  have hm : img'.header.magic = BOOT_MAGIC := by rw [hheader]; exact hmagic
  -- A section that is not given has the size of the valid image.
  have hk0 : img'.header.kernel_size ≠ 0 := by
    rw [hheader]
    exact givenSize_ne_zero (fun _ => by rw [hkept.1]; exact hv.kernel_size)
      (fun b hb => hi.lengths b (Or.inl hb)) fun b hb => h.nonempty b (Or.inl hb)
  have hr0 : img'.header.ramdisk_size ≠ 0 := by
    rw [hheader]
    exact givenSize_ne_zero (fun _ => by rw [hkept.2.1]; exact hv.ramdisk_size)
      (fun b hb => hi.lengths b (Or.inr (Or.inl hb)))
      fun b hb => h.nonempty b (Or.inr (Or.inl hb))
  have hpad : ¬ (FullLast img'.header img'.ramdisk.isSome ∧
      2 ^ 32 ≤ img'.header.totalSize + img'.header.page) := by
    rw [h.ramdisk_isSome, hheader]
    exact hc.padding
  have hall := (writeBootimg_extracts_iff hfits (h.loaded hi) hp hsome (h.totalSize_le hfits) hm hk0
    hr0 (hheader ▸ hc.roomy) fun held new hw => (h.holds_iff hi hv hkept hsome (hs ▸ hw)).mpr
      ⟨hc.kernel, hc.ramdisk, hc.second⟩).mpr hpad
  obtain ⟨s', hw, hx⟩ := hall held
  exact ⟨s', hw, _, hx⟩

/-- **Updating** a valid image with any files and any config: the new image is written, and the
sections that are given and the other ones of the old image are extracted from it, whatever the
stream holds back, exactly when the conditions of `UpdateKeeps` hold. -/
theorem update_keeps_iff {fs : Files} {config_args : List UInt8} {fname : String}
    {config_fname kernel_fname ramdisk_fname second_fname : Option String} {img0 img1 img2 : Abootimg}
    {s0 s2 : Stream} (hv : ValidImage file)
    (hk : kernel_fname.map fs = k.map some) (hr : ramdisk_fname.map fs = r.map some)
    (hsec : second_fname.map fs = sec.map some)
    (hread : readHeader (updateArgs fname config_fname kernel_fname ramdisk_fname second_fname)
      (Stream.ofFile file) = .ok (img0, s0))
    (hhdr : updateHeader fs config_args img0 = .ok img1)
    (himg : updateImages fs img1 s0 = .ok (img2, s2)) (hi : UpdateInput img1.header k r sec) :
    (∀ held, ∃ new, update held fs config_args
        (updateArgs fname config_fname kernel_fname ramdisk_fname second_fname)
        (Stream.ofFile file) = .ok new ∧
      ∃ h, Extracts room new h (k.getD (kernelOf file)) (r.getD (ramdiskOf file))
        (sec.or (secondStage file))) ↔
    UpdateKeeps room file img1.header k r sec := by
  obtain ⟨-, hi0, -, him0⟩ := readHeader_ok hread
  have hkept := updateHeader_kept hhdr
  rw [hi0] at hkept
  obtain ⟨him2, hupd⟩ := updateImages_ok (by rw [hkept.kernel_fname]; exact hk)
    (by rw [hkept.ramdisk_fname]; exact hr) (by rw [hkept.second_fname]; exact hsec) hi.lengths
    hkept.kernel hkept.ramdisk hkept.second himg
  rw [him0] at hupd
  have hsizes := And.intro hkept.kernel_size (And.intro hkept.ramdisk_size hkept.second_size)
  -- The program up to the writer.
  have hrun : ∀ held, update held fs config_args
      (updateArgs fname config_fname kernel_fname ramdisk_fname second_fname)
      (Stream.ofFile file) = (writeBootimg held img2 s2).map Stream.image := by
    intro held
    unfold update
    simp only [hread, hhdr, himg, bind, Except.bind]
    rfl
  constructor
  · intro hback
    refine hupd.keeps_of_extracts hi hv hsizes (him2.trans him0) fun held => ?_
    obtain ⟨new, heq, hx⟩ := hback held
    rw [hrun] at heq
    obtain ⟨s', hw, heq⟩ := Except.bind_ok_iff.mp heq
    cases heq
    exact ⟨s', hw, hx⟩
  · intro hc held
    obtain ⟨s', hw, hx⟩ := hupd.extracts_of_keeps hi hv (hkept.magic.trans hv.magic) hsizes
      (him2.trans him0) hc held
    exact ⟨s'.image, by rw [hrun, hw]; rfl, hx⟩

/-- A header with pages of its own size and sections of one byte. -/
def tinyHeader (second_size : UInt32) : BootImgHdr :=
  { newBootimg.header with
    kernel_size := 1
    ramdisk_size := 1
    second_size := second_size
    page_size := 608 }

/-- A kernel, a ramdisk and a second stage of one byte each, in pages of the size of the header. -/
def tinyImage (second_size : UInt32) : List UInt8 :=
  (tinyHeader second_size).encode ++
    (resize 0 608 [1] ++ (resize 0 608 [2] ++ resize 0 608 [3]))

/-- A new kernel for an image without a second stage. -/
theorem update_keeps_iff_new_kernel :
    (∀ held, ∃ new, update held smallFiles (bytesOf "cmdline = quiet\n")
        (updateArgs "boot.img" none (some "zImage") none none)
        (Stream.ofFile (tinyImage 0)) = .ok new ∧
      ∃ h, Extracts id new h ((some [1, 2, 3]).getD (kernelOf (tinyImage 0)))
        (none.getD (ramdiskOf (tinyImage 0))) (none.or (secondStage (tinyImage 0)))) ↔
    UpdateKeeps id (tinyImage 0)
      { tinyHeader 0 with cmdline := asciiz BOOT_ARGS_SIZE (bytesOf "quiet") } (some [1, 2, 3]) none
      none := by
  let img0 := (updateArgs "boot.img" none (some "zImage") none none).read (tinyImage 0)
    (tinyHeader 0)
  let img1 := { img0 with
    header := { tinyHeader 0 with cmdline := asciiz BOOT_ARGS_SIZE (bytesOf "quiet") } }
  let img2 := { img1 with
    header := { img1.header with kernel_size := 3 }, kernel := some [1, 2, 3], ramdisk := some [2] }
  -- The three steps before the write are run on the file.
  have hread : readHeader (updateArgs "boot.img" none (some "zImage") none none)
      (Stream.ofFile (tinyImage 0)) = .ok (img0, ⟨tinyImage 0, 608, []⟩) := by decide +kernel
  have hhdr : updateHeader smallFiles (bytesOf "cmdline = quiet\n") img0 = .ok img1 := by
    decide +kernel
  have himg : updateImages smallFiles img1 ⟨tinyImage 0, 608, []⟩ =
      .ok (img2, ⟨tinyImage 0, 1217, []⟩) := by decide +kernel
  have hvalid : ValidImage (tinyImage 0) := ⟨by decide +kernel, by decide +kernel,
    by decide +kernel, by decide +kernel, by decide +kernel⟩
  refine update_keeps_iff hvalid rfl rfl rfl hread hhdr himg ⟨fun b hb => ?_, fun _ => ?_,
    fun _ h => absurd rfl h, ⟨by decide +kernel, by decide +kernel⟩⟩
  · rcases hb with hb | hb | hb <;> cases hb
    decide
  · decide +kernel

/-- A new command line for an image with a second stage, which is not read and whose buffer is
written. -/
theorem second_stage_is_not_read :
    ValidImage (tinyImage 1) ∧
    (∃ img0 s0 img1 img2 s2,
      readHeader (updateArgs "boot.img" none none none none) (Stream.ofFile (tinyImage 1)) =
        .ok (img0, s0) ∧
      updateHeader smallFiles (bytesOf "cmdline = quiet\n") img0 = .ok img1 ∧
      updateImages smallFiles img1 s0 = .ok (img2, s2) ∧ UpdateInput img1.header none none none) ∧
    update 0 smallFiles (bytesOf "cmdline = quiet\n") (updateArgs "boot.img" none none none none)
      (Stream.ofFile (tinyImage 1)) = .error .nullPointer ∧
    ¬ ∀ held, ∃ new, update held smallFiles (bytesOf "cmdline = quiet\n")
        (updateArgs "boot.img" none none none none) (Stream.ofFile (tinyImage 1)) = .ok new ∧
      ∃ h, Extracts id new h (kernelOf (tinyImage 1)) (ramdiskOf (tinyImage 1))
        (secondStage (tinyImage 1)) := by
  let img0 := (updateArgs "boot.img" none none none none).read (tinyImage 1) (tinyHeader 1)
  let img1 := { img0 with
    header := { tinyHeader 1 with cmdline := asciiz BOOT_ARGS_SIZE (bytesOf "quiet") } }
  -- A config alone loads no section: the second stage is still NULL when it is written.
  have hread : readHeader (updateArgs "boot.img" none none none none)
      (Stream.ofFile (tinyImage 1)) = .ok (img0, ⟨tinyImage 1, 608, []⟩) := by decide +kernel
  have hhdr : updateHeader smallFiles (bytesOf "cmdline = quiet\n") img0 = .ok img1 := by
    decide +kernel
  have himg : updateImages smallFiles img1 ⟨tinyImage 1, 608, []⟩ =
      .ok (img1, ⟨tinyImage 1, 608, []⟩) := by decide +kernel
  have hrun : update 0 smallFiles (bytesOf "cmdline = quiet\n")
      (updateArgs "boot.img" none none none none) (Stream.ofFile (tinyImage 1)) =
        .error .nullPointer := by decide +kernel
  refine ⟨⟨by decide +kernel, by decide +kernel, by decide +kernel, by decide +kernel,
    by decide +kernel⟩, ⟨img0, _, img1, img1, _, hread, hhdr, himg, fun b hb => ?_, fun _ => ?_,
    fun _ _ => ?_, ⟨by decide +kernel, by decide +kernel⟩⟩, hrun, fun h => ?_⟩
  · rcases hb with hb | hb | hb <;> cases hb
  · decide +kernel
  · decide +kernel
  · obtain ⟨new, heq, -⟩ := h 0
    rw [hrun] at heq
    cases heq

end

end AmlogicToolkit.Boot
