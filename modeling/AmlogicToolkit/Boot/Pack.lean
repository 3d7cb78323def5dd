import AmlogicToolkit.Boot.Extract

/-!
# Packing an image

`abootimg --create` and what is extracted from the image that it writes. The image is truncated
while its last padding may still be in the buffer of the stream. That padding is a page of its own
when the last section fills its pages (`FullLast`), so that the file can be a page longer than the
image; it is rejected when that makes its size wrap (`create_extracts_iff`).
-/

namespace AmlogicToolkit.Boot

open Bytes Stdio

/-! ## The end of the file -/

/-- The last section that is written fills its pages, so that a page of padding follows it. -/
def FullLast (h : BootImgHdr) (ramdisk : Bool) : Prop :=
  if h.second_size ≠ 0 then h.second_size.toNat % h.page = 0
  else ramdisk ∧ h.ramdisk_size.toNat % h.page = 0

instance (h : BootImgHdr) (ramdisk : Bool) : Decidable (FullLast h ramdisk) := by
  unfold FullLast; infer_instance

/-- **Where the last write ends**: a page behind the image when the last section fills its pages, and
inside it otherwise. -/
theorem writtenEnd_spec {img : Abootimg} (hpos : 0 < img.header.page) :
    (FullLast img.header img.ramdisk.isSome →
      img.writtenEnd = img.header.totalSize + img.header.page) ∧
    (¬ FullLast img.header img.ramdisk.isSome → img.writtenEnd ≤ img.header.totalSize) := by
  obtain ⟨h1, h2, h3⟩ := img.header.offsets
  have hs := @padded_eq img.header.second_size.toNat _ hpos
  have hr := @padded_eq img.header.ramdisk_size.toNat _ hpos
  unfold FullLast Abootimg.writtenEnd
  -- The section that is written last decides: the second stage, or the ramdisk without one.
  by_cases h0 : img.header.second_size = 0
  · have hz : pageCount img.header.second_size.toNat img.header.page = 0 := by
      rw [h0]; exact pageCount_zero hpos
    rw [hz, Nat.zero_mul] at h3
    simp only [h0, ne_eq, not_true_eq_false, if_false]
    cases img.ramdisk.isSome with
    | false =>
      simp only [Bool.false_eq_true, false_and, if_false, false_implies, not_false_eq_true,
        true_implies, true_and]
      omega
    | true =>
      simp only [true_and, if_true]
      split_ifs at hr with hfull
      · exact ⟨fun _ => by omega, fun h => absurd hfull h⟩
      · exact ⟨fun h => absurd h hfull, fun _ => by omega⟩
  · simp only [h0, ne_eq, not_false_eq_true, if_true]
    split_ifs at hs with hfull
    · exact ⟨fun _ => by omega, fun h => absurd hfull h⟩
    · exact ⟨fun h => absurd h hfull, fun _ => by omega⟩

/-- **The size of the file** is at least that of the image, in 32 bits and whatever was held back,
unless a page of padding reaches `2^32`. -/
theorem size_iff {img : Abootimg} (hf : img.header.Fits)
    (hsize : img.header.totalSize ≤ img.size.toNat) :
    (∀ held : ℕ, img.header.totalSize ≤ (UInt32.ofNat
      (if held = 0 then img.size.toNat else max img.size.toNat img.writtenEnd)).toNat) ↔
    ¬ (FullLast img.header img.ramdisk.isSome ∧
      2 ^ 32 ≤ img.header.totalSize + img.header.page) := by
  obtain ⟨hfull, hpart⟩ := writtenEnd_spec hf.page_pos
  have htot := hf.total
  have hlt := img.size.toNat_lt
  have hpage : img.header.page < 2 ^ 32 := img.header.page_size.toNat_lt
  simp only [UInt32.toNat_ofNat']
  constructor
  · -- A file with room for one byte is as long as what is written, which a 32-bit size cannot hold.
    rintro h ⟨hl, hwrap⟩
    have := h 1
    rw [if_neg Nat.one_ne_zero, hfull hl, Nat.max_eq_right (by omega)] at this
    omega
  · intro h held
    split_ifs
    · omega
    · by_cases hl : FullLast img.header img.ramdisk.isSome
      · rw [hfull hl]
        have : img.header.totalSize + img.header.page < 2 ^ 32 := by
          by_contra hge
          exact h ⟨hl, by omega⟩
        omega
      · have := hpart hl
        omega

section

variable {img : Abootimg} {s : Stream} {k r : List UInt8} {sec : Option (List UInt8)}
  {room : ℕ → ℕ}

/-- **An image is read back** as it is written, whatever was held back, unless a page of padding
reaches `2^32`: what is written over `s` holds `k`, `r` and `sec`. -/
theorem writeBootimg_extracts_iff (hf : img.header.Fits) (hl : Loaded img)
    (hp : BOOT_HEADER_SIZE ≤ img.header.page)
    (hsecond : img.header.second_size ≠ 0 → img.second.isSome)
    (hsize : img.header.totalSize ≤ img.size.toNat) (hmagic : img.header.magic = BOOT_MAGIC)
    (hk : img.header.kernel_size ≠ 0) (hr : img.header.ramdisk_size ≠ 0)
    (hroom : img.header.second_size ≠ 0 → Roomy room img.header)
    (hholds : ∀ held new, Written held img s.image new → Holds new img.header k r sec) :
    (∀ held, ∃ s', writeBootimg held img s = .ok s' ∧
      Extracts room s'.image img.header k r sec) ↔
    ¬ (FullLast img.header img.ramdisk.isSome ∧
      2 ^ 32 ≤ img.header.totalSize + img.header.page) := by
  rw [← size_iff hf hsize]
  refine forall_congr' fun held => ?_
  obtain ⟨s', heq, hw⟩ := writeBootimg_spec held s hf hl hp hsecond hsize
  have hlen : BOOT_HEADER_SIZE ≤ s'.image.length := by
    obtain ⟨h1, h2, h3⟩ := hf.sections
    rw [hw.length]
    split_ifs <;> omega
  have hiff := extract_iff (hholds held _ hw) hf hmagic hk hr hlen hroom
  rw [hw.length] at hiff
  rw [← hiff]
  constructor
  · rintro ⟨s'', h1, h2⟩
    rw [heq] at h1
    cases h1
    exact h2
  · intro h
    exact ⟨s', heq, h⟩

end

/-! ## Loading -/

section

variable {fs : Files} {fname : String} {bytes buf : List UInt8} {size : UInt32}

/-- A file that is not empty and shorter than `2^32` bytes is loaded. -/
theorem loadFile_eq (h : fs fname = some bytes) (h0 : bytes ≠ []) (hlt : bytes.length < 2 ^ 32) :
    loadFile fs fname = .ok (UInt32.ofNat bytes.length, bytes) := by
  have hlen : (UInt32.ofNat bytes.length).toNat = bytes.length := by
    rw [UInt32.toNat_ofNat', Nat.mod_eq_of_lt hlt]
  have hread : (Stream.ofFile bytes).fread bytes.length =
      some (bytes, { (Stream.ofFile bytes).flush with pos := bytes.length }) := by
    rw [Stream.fread_eq_some (List.length_pos_iff.mpr h0) (by simp), Stream.image_ofFile,
      Stream.tell_ofFile, slice_self, Nat.zero_add]
  unfold loadFile
  simp only [h, hlen, hread]

/-- What is loaded is as long as its size says, and not empty. -/
theorem loadFile_ok (h : loadFile fs fname = .ok (size, buf)) : ∃ bytes, fs fname = some bytes ∧
    size = UInt32.ofNat bytes.length ∧ buf = slice bytes 0 size.toNat ∧ buf.length = size.toNat ∧
      size ≠ 0 := by
  unfold loadFile at h
  cases hb : fs fname with
  | none => simp only [hb] at h; cases h
  | some bytes =>
    simp only [hb] at h
    cases hr : (Stream.ofFile bytes).fread (UInt32.ofNat bytes.length).toNat with
    | none => simp only [hr] at h; cases h
    | some r =>
      simp only [hr] at h
      cases h
      unfold Stream.fread at hr
      split_ifs at hr with hle
      cases hr
      simp only [Stream.image_ofFile, Stream.tell_ofFile] at hle
      refine ⟨bytes, rfl, rfl, rfl, length_slice_of_le hle.2, fun h0 => ?_⟩
      rw [h0] at hle
      exact Nat.lt_irrefl _ hle.1

end

section

variable {fs : Files} {img : Abootimg} {s : Stream} {fname : String} {size offset osize : UInt32}
  {buf : List UInt8}

/-- A kernel that is named and can be read is loaded with its size. -/
theorem updateKernel_load (hf : img.kernel_fname = some fname)
    (hl : loadFile fs fname = .ok (size, buf)) : updateKernel fs img =
      .ok { img with header := { img.header with kernel_size := size }, kernel := some buf } := by
  unfold updateKernel
  split
  · next f heq =>
    obtain rfl := Option.some.inj (hf.symm.trans heq)
    rw [hl]
    rfl
  · next heq => rw [hf] at heq; cases heq

/-- A ramdisk that is named and can be read is loaded with its size, and nothing is read from the
image. -/
theorem updateRamdisk_load (hf : img.ramdisk_fname = some fname)
    (hl : loadFile fs fname = .ok (size, buf)) : updateRamdisk fs offset osize img s =
      .ok ({ img with header := { img.header with ramdisk_size := size }, ramdisk := some buf },
        s) := by
  unfold updateRamdisk
  split
  · next f heq =>
    obtain rfl := Option.some.inj (hf.symm.trans heq)
    rw [hl]
    rfl
  · next heq => rw [hf] at heq; cases heq

/-- A second stage that is named and can be read is loaded with its size, and nothing is read from
the image. -/
theorem updateSecond_load (hf : img.second_fname = some fname)
    (hl : loadFile fs fname = .ok (size, buf)) : updateSecond fs offset osize img s =
      .ok ({ img with header := { img.header with second_size := size }, second := some buf },
        s) := by
  unfold updateSecond
  split
  · next f heq =>
    obtain rfl := Option.some.inj (hf.symm.trans heq)
    rw [hl]
    rfl
  · next heq => rw [hf] at heq; cases heq

/-- Without a name and a size of a second stage nothing is changed or read. -/
theorem updateSecond_none (hf : img.second_fname = none) (h0 : img.header.second_size = 0) :
    updateSecond fs offset osize img s = .ok (img, s) := by
  unfold updateSecond
  split
  · next f heq => rw [hf] at heq; cases heq
  · rw [if_neg fun h => h.2 h0]

end

/-! ## Creating an image -/

/-- What `parse_args` makes of the options of `--create`. -/
def createArgs (fname : String) (config_fname : Option String) (kernel_fname ramdisk_fname : String)
    (second_fname : Option String) : Abootimg :=
  { newBootimg with
    fname := fname
    config_fname := config_fname
    kernel_fname := some kernel_fname
    ramdisk_fname := some ramdisk_fname
    second_fname := second_fname }

/-- A header with the sizes of the sections. -/
def packHeader (h : BootImgHdr) (k r : List UInt8) (sec : Option (List UInt8)) : BootImgHdr :=
  { h with
    kernel_size := UInt32.ofNat k.length
    ramdisk_size := UInt32.ofNat r.length
    second_size := (sec.map fun s => UInt32.ofNat s.length).getD h.second_size }

/-- The size of an image with pages of `page` bytes, as an exact number. -/
def packedSize (page : ℕ) (k r : List UInt8) (sec : Option (List UInt8)) : ℕ :=
  (1 + pageCount k.length page + pageCount r.length page +
    pageCount (sec.getD []).length page) * page

section

variable {h : BootImgHdr} {k r : List UInt8} {sec : Option (List UInt8)}

/-- A section of an image below `2^32` is shorter than `2^32` bytes. -/
theorem length_lt_of_packedSize {page : ℕ} (hp : 0 < page) (hfit : packedSize page k r sec < 2 ^ 32) :
    k.length < 2 ^ 32 ∧ r.length < 2 ^ 32 ∧ (sec.getD []).length < 2 ^ 32 := by
  have hk := (@pageCount_bounds k.length _ hp).1
  have hr := (@pageCount_bounds r.length _ hp).1
  have hs := (@pageCount_bounds ((sec.getD []).length) _ hp).1
  have hsum : packedSize page k r sec = page + pageCount k.length page * page +
      pageCount r.length page * page + pageCount (sec.getD []).length page * page := by
    unfold packedSize
    ring
  omega

/-- **The sizes** in the header are the lengths of the sections. -/
theorem packHeader_sizes (h0 : h.second_size = 0) (hp : 0 < h.page)
    (hfit : packedSize h.page k r sec < 2 ^ 32) :
    (packHeader h k r sec).kernel_size.toNat = k.length ∧
      (packHeader h k r sec).ramdisk_size.toNat = r.length ∧
      (packHeader h k r sec).second_size.toNat = (sec.getD []).length ∧
      (packHeader h k r sec).totalSize = packedSize h.page k r sec := by
  obtain ⟨hk, hr, hs⟩ := length_lt_of_packedSize hp hfit
  have h1 : (packHeader h k r sec).kernel_size.toNat = k.length := by
    rw [packHeader, UInt32.toNat_ofNat', Nat.mod_eq_of_lt hk]
  have h2 : (packHeader h k r sec).ramdisk_size.toNat = r.length := by
    rw [packHeader, UInt32.toNat_ofNat', Nat.mod_eq_of_lt hr]
  have h3 : (packHeader h k r sec).second_size.toNat = (sec.getD []).length := by
    cases sec with
    | none => rw [packHeader, Option.map_none, Option.getD_none, h0]; rfl
    | some s =>
      rw [packHeader, Option.map_some, Option.getD_some, UInt32.toNat_ofNat']
      exact Nat.mod_eq_of_lt hs
  refine ⟨h1, h2, h3, ?_⟩
  rw [BootImgHdr.totalSize, h1, h2, h3]
  rfl

/-- The header of a packed image fits when its pages are below 4 GiB together. -/
theorem packHeader_fits (h0 : h.second_size = 0) (hp : 0 < h.page)
    (hfit : packedSize h.page k r sec < 2 ^ 32) : (packHeader h k r sec).Fits := by
  refine ⟨fun hz => ?_, ?_⟩
  · change h.page_size = 0 at hz
    rw [BootImgHdr.page, hz] at hp
    exact Nat.lt_irrefl _ hp
  · rw [(packHeader_sizes h0 hp hfit).2.2.2]
    exact hfit

/-- The image that `update_images` leaves for `--create`. -/
def packImage (img : Abootimg) (k r : List UInt8) (sec : Option (List UInt8)) : Abootimg :=
  { img with
    header := packHeader img.header k r sec
    kernel := some k
    ramdisk := some r
    second := sec.or img.second
    size := if img.size = 0 then UInt32.ofNat (packedSize img.header.page k r sec) else img.size }

/-- What `--create` packs: non-empty files, in an image that ends below `2^32` and is not larger than
the size that is asked for, if any. -/
structure PackInput (fs : Files) (img : Abootimg) (k r : List UInt8) (sec : Option (List UInt8)) :
    Prop where
  /-- The kernel. -/
  kernel : ∃ fname, img.kernel_fname = some fname ∧ fs fname = some k
  /-- The ramdisk. -/
  ramdisk : ∃ fname, img.ramdisk_fname = some fname ∧ fs fname = some r
  /-- The second stage. -/
  second : img.second_fname.map fs = sec.map some
  /-- The kernel is not empty. -/
  kernel_ne : k ≠ []
  /-- The ramdisk is not empty. -/
  ramdisk_ne : r ≠ []
  /-- The second stage is not empty. -/
  second_ne : sec ≠ some []
  /-- A page holds the header. -/
  page : BOOT_HEADER_SIZE ≤ img.header.page
  /-- The image ends below `2^32`. -/
  fits : packedSize img.header.page k r sec < 2 ^ 32
  /-- It is not larger than it may be. -/
  size : img.size = 0 ∨ packedSize img.header.page k r sec ≤ img.size.toNat

variable {fs : Files} {img : Abootimg} {s : Stream}

/-- The page size of what can be packed is positive. -/
theorem PackInput.page_pos (hi : PackInput fs img k r sec) : 0 < img.header.page :=
  Nat.lt_of_lt_of_le (by decide) hi.page

/-- `update_images` of `--create` computes the size of what is packed, and accepts it. -/
theorem updateSize_pack (hi : PackInput fs img k r sec) (h0 : img.header.second_size = 0) :
    updateSize { img with
      header := packHeader img.header k r sec
      kernel := some k
      ramdisk := some r
      second := sec.or img.second } = .ok (packImage img k r sec) := by
  have hfits := packHeader_fits h0 hi.page_pos hi.fits
  have hval : (1 + pages (packHeader img.header k r sec).kernel_size img.header.page_size +
      pages (packHeader img.header k r sec).ramdisk_size img.header.page_size +
      pages (packHeader img.header k r sec).second_size img.header.page_size) *
        img.header.page_size = UInt32.ofNat (packedSize img.header.page k r sec) := by
    rw [← (packHeader_sizes h0 hi.page_pos hi.fits).2.2.2, ← hfits.toNat_offsets.2.2,
      UInt32.ofNat_toNat]
    rfl
  have hpage : (packHeader img.header k r sec).page_size = img.header.page_size := rfl
  unfold updateSize
  simp only [hpage, hval]
  by_cases hz : img.size = 0
  · rw [if_pos hz, packImage, if_pos hz]
  · rw [if_neg hz, if_neg, packImage, if_neg hz]
    -- The size that is asked for is not exceeded.
    have hle := hi.size.resolve_left hz
    intro hgt
    have := UInt32.lt_iff_toNat_lt.mp hgt
    rw [UInt32.toNat_ofNat', Nat.mod_eq_of_lt hi.fits] at this
    omega

/-- **`update_images` of `--create`** loads all sections and sets the sizes. -/
theorem updateImages_pack (hi : PackInput fs img k r sec) (h0 : img.header.second_size = 0) :
    updateImages fs img s = .ok (packImage img k r sec, s) := by
  obtain ⟨kf, hkf, hk⟩ := hi.kernel
  obtain ⟨rf, hrf, hr⟩ := hi.ramdisk
  obtain ⟨hklt, hrlt, hslt⟩ := length_lt_of_packedSize hi.page_pos hi.fits
  have hpz : img.header.page_size ≠ 0 := (packHeader_fits h0 hi.page_pos hi.fits).page_size
  have hsize := updateSize_pack hi h0
  unfold updateImages
  simp only [if_neg hpz, updateKernel_load hkf (loadFile_eq hk hi.kernel_ne hklt), bind, Except.bind,
    pure, Except.pure]
  -- The images behind the kernel and behind the ramdisk.
  let img1 : Abootimg := { img with
    header := { img.header with kernel_size := UInt32.ofNat k.length }, kernel := some k }
  let img2 : Abootimg := { img1 with
    header := { img1.header with ramdisk_size := UInt32.ofNat r.length }, ramdisk := some r }
  rw [@updateRamdisk_load _ img1 _ _ _ _ _ _ hrf (loadFile_eq hr hi.ramdisk_ne hrlt)]
  cases hsec : sec with
  | none =>
    have hsf : img.second_fname = none := by
      have := hi.second
      rw [hsec, Option.map_none, Option.map_eq_none_iff] at this
      exact this
    rw [hsec] at hsize
    dsimp only
    rw [@updateSecond_none _ img2 _ _ _ hsf h0]
    exact congrArg (fun x : Except Stop Abootimg => x.map (·, s)) hsize
  | some sb =>
    obtain ⟨sf, hsf, hs⟩ : ∃ sf, img.second_fname = some sf ∧ fs sf = some sb := by
      have := hi.second
      rw [hsec, Option.map_some, Option.map_eq_some_iff] at this
      exact this
    rw [hsec] at hsize hslt
    have hne : sb ≠ [] := fun h => hi.second_ne (by rw [hsec, h])
    dsimp only
    rw [@updateSecond_load _ img2 _ _ _ _ _ _ hsf (loadFile_eq hs hne hslt)]
    exact congrArg (fun x : Except Stop Abootimg => x.map (·, s)) hsize

/-- The buffers have the sizes of the header. -/
theorem packImage_loaded (hi : PackInput fs img k r sec) (h0 : img.header.second_size = 0)
    (hnone : img.second = none) : Loaded (packImage img k r sec) := by
  obtain ⟨hk, hr, hs, -⟩ := packHeader_sizes h0 hi.page_pos hi.fits
  refine ⟨fun b hb => ?_, fun b hb => ?_, fun b hb => ?_, fun _ => rfl⟩
  · cases hb
    exact hk.symm
  · cases hb
    exact hr.symm
  · have hb' : sec.or img.second = some b := hb
    rw [hnone, Option.or_none] at hb'
    subst hb'
    exact hs.symm

/-- There is a second stage exactly when it has a size. -/
theorem packHeader_second (hi : PackInput fs img k r sec) (h0 : img.header.second_size = 0) :
    sec = none ↔ (packHeader img.header k r sec).second_size = 0 := by
  have hs := (packHeader_sizes h0 hi.page_pos hi.fits).2.2.1
  constructor
  · rintro rfl
    exact h0
  · intro hz
    rw [hz, UInt32.toNat_zero] at hs
    cases hsec : sec with
    | none => rfl
    | some b =>
      rw [hsec] at hs
      exact absurd (congrArg some (List.length_eq_zero_iff.mp hs.symm)) (hsec ▸ hi.second_ne)

/-- The file of a packed image holds the header and the sections that were packed. -/
theorem packImage_holds (hi : PackInput fs img k r sec) (h0 : img.header.second_size = 0)
    (hnone : img.second = none) {held : ℕ} {old new : List UInt8}
    (hw : Written held (packImage img k r sec) old new) :
    Holds new (packHeader img.header k r sec) k r sec := by
  obtain ⟨hk, hr, hs, -⟩ := packHeader_sizes h0 hi.page_pos hi.fits
  refine ⟨hw.header, hw.kernel k rfl, hk.symm, hw.ramdisk r rfl, hr.symm, fun b hb => ?_,
    fun b hb => ?_, packHeader_second hi h0⟩
  · refine hw.second b (fun hz => ?_) ?_
    · have := (packHeader_second hi h0).mpr hz
      rw [hb] at this
      cases this
    · change sec.or img.second = some b
      rw [hnone, Option.or_none, hb]
  · rw [hs, hb]
    rfl

/-- The last section fills its pages, in terms of what is packed. -/
theorem fullLast_packHeader (hi : PackInput fs img k r sec) (h0 : img.header.second_size = 0) :
    FullLast (packHeader img.header k r sec) true ↔
      (sec.getD r).length % img.header.page = 0 := by
  obtain ⟨-, hr, hs, -⟩ := packHeader_sizes h0 hi.page_pos hi.fits
  have hsec := packHeader_second hi h0
  unfold FullLast
  by_cases hz : (packHeader img.header k r sec).second_size = 0
  · rw [if_neg (not_not.mpr hz), hr, hsec.mpr hz]
    exact and_iff_right rfl
  · obtain ⟨b, hb⟩ := Option.ne_none_iff_exists'.mp fun hn => hz (hsec.mp hn)
    rw [if_pos hz, hs, hb]
    rfl

/-- The kernel and the ramdisk have sizes. -/
theorem packHeader_ne_zero (hi : PackInput fs img k r sec) (h0 : img.header.second_size = 0) :
    (packHeader img.header k r sec).kernel_size ≠ 0 ∧
      (packHeader img.header k r sec).ramdisk_size ≠ 0 := by
  obtain ⟨hk, hr, -, -⟩ := packHeader_sizes h0 hi.page_pos hi.fits
  have hne : ∀ {n : UInt32} {b : List UInt8}, n.toNat = b.length → b ≠ [] → n ≠ 0 := by
    rintro n b hn hb rfl
    exact hb (List.length_eq_zero_iff.mp hn.symm)
  exact ⟨hne hk hi.kernel_ne, hne hr hi.ramdisk_ne⟩

/-- The sections fit into the image. -/
theorem packImage_size (hi : PackInput fs img k r sec) (h0 : img.header.second_size = 0) :
    (packImage img k r sec).header.totalSize ≤ (packImage img k r sec).size.toNat := by
  obtain ⟨-, -, -, htot⟩ := packHeader_sizes h0 hi.page_pos hi.fits
  change (packHeader img.header k r sec).totalSize ≤ UInt32.toNat (if _ then _ else _)
  rw [htot]
  split_ifs with hz
  · rw [UInt32.toNat_ofNat', Nat.mod_eq_of_lt hi.fits]
  · exact hi.size.resolve_left hz

/-- `--create` writes the packed image. -/
theorem create_eq {config_args : List UInt8} {args : Abootimg}
    (hupd : updateHeader fs config_args args = .ok img) (hi : PackInput fs img k r sec)
    (hmagic : img.header.magic = BOOT_MAGIC) (h0 : img.header.second_size = 0) (held : ℕ) :
    create held fs config_args args (Stream.ofFile []) =
      (writeBootimg held (packImage img k r sec) (Stream.ofFile [])).map Stream.image := by
  obtain ⟨hk0, hr0⟩ := packHeader_ne_zero hi h0
  have hcheck : checkBootImgHeader (packImage img k r sec) = none :=
    (checkBootImgHeader_iff (packHeader_fits h0 hi.page_pos hi.fits)).mpr
      ⟨hmagic, hk0, hr0, packImage_size hi h0⟩
  unfold create
  simp only [hupd, updateImages_pack hi h0, hcheck, bind, Except.bind]
  rfl

/-- What `--create` writes is read back unless a page of padding reaches `2^32`. -/
theorem create_packImage {config_args : List UInt8} {args : Abootimg} {room : ℕ → ℕ}
    (hupd : updateHeader fs config_args args = .ok img) (hi : PackInput fs img k r sec)
    (hmagic : img.header.magic = BOOT_MAGIC) (h0 : img.header.second_size = 0)
    (hnone : img.second = none) (hroom : Roomy room (packHeader img.header k r sec)) :
    (∀ held, ∃ file, create held fs config_args args (Stream.ofFile []) = .ok file ∧
      Extracts room file (packHeader img.header k r sec) k r sec) ↔
    ¬ (FullLast (packHeader img.header k r sec) true ∧
      2 ^ 32 ≤ (packHeader img.header k r sec).totalSize + img.header.page) := by
  have hfits := packHeader_fits h0 hi.page_pos hi.fits
  have hsec := packHeader_second hi h0
  obtain ⟨hk0, hr0⟩ := packHeader_ne_zero hi h0
  have hsize := packImage_size hi h0
  have hcreate := create_eq hupd hi hmagic h0
  have hwrite := @writeBootimg_extracts_iff _ (Stream.ofFile []) _ _ _ room hfits
    (packImage_loaded hi h0 hnone) hi.page
    (fun hz => by
      change (sec.or img.second).isSome
      rw [hnone, Option.or_none, Option.isSome_iff_ne_none]
      exact fun hn => hz (hsec.mp hn)) hsize hmagic hk0 hr0 (fun _ => hroom)
    (fun held new hw => packImage_holds hi h0 hnone hw)
  -- Both sides run the same write, so only its error has to be unwrapped.
  refine Iff.trans (forall_congr' fun held => ?_) hwrite
  rw [hcreate held]
  constructor
  · rintro ⟨file, heq, hx⟩
    obtain ⟨s', hc, heq⟩ := Except.bind_ok_iff.mp heq
    cases heq
    exact ⟨s', hc, hx⟩
  · rintro ⟨s', heq, hx⟩
    exact ⟨s'.image, by rw [heq]; rfl, hx⟩

/-- **Packing and unpacking.** `abootimg --create` on non-empty files, with any config, for pages
that hold the header and an image that ends below `2^32` and is not larger than asked for: the file
that it writes is read back as what was packed, whatever its stream holds back, exactly when the
last section does not fill its pages or one more page stays below `2^32`. -/
theorem create_extracts_iff {config_args : List UInt8} {fname kernel_fname ramdisk_fname : String}
    {config_fname second_fname : Option String} {room : ℕ → ℕ}
    (hupd : updateHeader fs config_args
      (createArgs fname config_fname kernel_fname ramdisk_fname second_fname) = .ok img)
    (hi : PackInput fs img k r sec) (hroom : Roomy room (packHeader img.header k r sec)) :
    (∀ held, ∃ file, create held fs config_args
        (createArgs fname config_fname kernel_fname ramdisk_fname second_fname)
        (Stream.ofFile []) = .ok file ∧
      Extracts room file (packHeader img.header k r sec) k r sec) ↔
    ¬ ((sec.getD r).length % img.header.page = 0 ∧
      2 ^ 32 ≤ packedSize img.header.page k r sec + img.header.page) := by
  have hkept := updateHeader_kept hupd
  rw [create_packImage hupd hi hkept.magic hkept.second_size hkept.second hroom,
    fullLast_packHeader hi hkept.second_size,
    (packHeader_sizes hkept.second_size hi.page_pos hi.fits).2.2.2]

/-- Three small files, of three bytes, two bytes and one. -/
def smallFiles : Files := fun fname =>
  if fname = "zImage" then some [1, 2, 3] else if fname = "initrd.img" then some [4, 5]
  else if fname = "stage2.img" then some [6] else none

/-- Three sections of a page each, with the page size of the command line. -/
theorem create_extracts_iff_three_pages :
    (∀ held, ∃ file, create held smallFiles (bytesOf "pagesize = 0x400\n")
        (createArgs "boot.img" none "zImage" "initrd.img" (some "stage2.img"))
        (Stream.ofFile []) = .ok file ∧
      Extracts id file (packHeader { newBootimg.header with page_size := 1024 } [1, 2, 3] [4, 5]
        (some [6])) [1, 2, 3] [4, 5] (some [6])) ↔
    ¬ (((some [6]).getD [4, 5] : List UInt8).length % 1024 = 0 ∧
      2 ^ 32 ≤ packedSize 1024 [1, 2, 3] [4, 5] (some [6]) + 1024) :=
  @create_extracts_iff _ _ _ _
    { createArgs "boot.img" none "zImage" "initrd.img" (some "stage2.img") with
      header := { newBootimg.header with page_size := 1024 } }
    _ _ _ _ _ _ _ (by decide +kernel)
    ⟨⟨_, rfl, rfl⟩, ⟨_, rfl, rfl⟩, rfl, by decide, by decide, by decide, by decide, by decide,
      Or.inl rfl⟩ (by unfold Roomy; decide)

/-- A ramdisk of whole pages that ends a page below `2^32`, behind the header and a kernel. -/
def hugeRamdisk : List UInt8 := List.replicate (2 ^ 32 - 3 * 2048) 0

/-- The files of an image with this ramdisk. -/
def hugeFiles : Files := fun fname =>
  if fname = "zImage" then some [1] else if fname = "initrd.img" then some hugeRamdisk else none

/-- The padding behind the ramdisk is written behind the cut, and the size of the file wraps to zero:
the image is not accepted. -/
theorem full_pages_are_not_read_back :
    updateHeader hugeFiles [] (createArgs "boot.img" none "zImage" "initrd.img" none) =
      .ok (createArgs "boot.img" none "zImage" "initrd.img" none) ∧
    PackInput hugeFiles (createArgs "boot.img" none "zImage" "initrd.img" none) [1] hugeRamdisk
      none ∧
    ¬ ∀ held, ∃ file, create held hugeFiles []
        (createArgs "boot.img" none "zImage" "initrd.img" none) (Stream.ofFile []) = .ok file ∧
      Extracts id file (packHeader newBootimg.header [1] hugeRamdisk none) [1] hugeRamdisk none := by
  have hlen : hugeRamdisk.length = 2 ^ 32 - 3 * 2048 := List.length_replicate
  have hpage : (createArgs "boot.img" none "zImage" "initrd.img" none).header.page = 2048 := rfl
  have hpacked : packedSize 2048 [1] hugeRamdisk none = 2 ^ 32 - 2048 := by
    rw [packedSize, hlen]
    decide
  have hne : hugeRamdisk ≠ [] := fun h => by
    rw [h] at hlen
    cases hlen
  have hi : PackInput hugeFiles (createArgs "boot.img" none "zImage" "initrd.img" none) [1]
      hugeRamdisk none :=
    ⟨⟨_, rfl, rfl⟩, ⟨_, rfl, rfl⟩, rfl, by decide, hne, by decide, by decide,
      by rw [hpage, hpacked]; decide, Or.inl rfl⟩
  refine ⟨rfl, hi, fun h => ?_⟩
  refine (@create_packImage _ _ _ _ _ _ (createArgs "boot.img" none "zImage" "initrd.img" none) _
    rfl hi rfl rfl rfl (Nat.zero_le _)).mp h ⟨(fullLast_packHeader hi rfl).mpr ?_, ?_⟩
  · rw [Option.getD_none, hlen]
    decide
  · rw [(packHeader_sizes rfl hi.page_pos hi.fits).2.2.2, hpage, hpacked]
    decide

end

end AmlogicToolkit.Boot
