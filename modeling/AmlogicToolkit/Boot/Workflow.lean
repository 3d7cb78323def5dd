import AmlogicToolkit.Boot.ConfigText
import AmlogicToolkit.Boot.Update

/-!
# Unpacking and recreating the boot partition

The scripts `unpack` and `recreate` with no edits between them. What `abootimg -x` leaves is fed to
`abootimg --create`, but for the second stage, and the header goes through the text of the config
file. The recreated partition is the same image when there is no second stage, the header fits into
a page, its texts survive the config file, and the image ends inside its file (`BootKeeps`); when no
offset wraps, only then (`recreate_same_iff`).
-/

namespace AmlogicToolkit.Boot

open Bytes Stdio

/-! ## Extracting, whatever the names of the files are -/

section

variable {file : List UInt8} {room : ℕ → ℕ} {img img' : Abootimg} {x : Extracted}

/-- Only the text of an error depends on the image that a section is read for. -/
theorem readSection_any {s : Stream} {offset size : UInt32} {r : List UInt8 × Stream}
    (h : readSection img s offset size = .ok r) (img' : Abootimg) :
    readSection img' s offset size = .ok r := by
  unfold readSection at h ⊢
  split at h
  · cases h
  · exact h

/-- The second stage that is extracted depends on the header and the stream only. -/
theorem extractSecond_any {s : Stream} {r : Option (List UInt8) × Stream}
    (hh : img'.header = img.header) (h : extractSecond room img s = .ok r) :
    extractSecond room img' s = .ok r := by
  unfold extractSecond at h ⊢
  rw [hh]
  by_cases h0 : img.header.second_size = 0
  · rw [if_pos h0] at h ⊢
    exact h
  · simp only [if_neg h0] at h ⊢
    split at h
    · cases h
    · next b s1 hb =>
      simp only [readSection_any hb img']
      exact h

/-- **The command `-x`** on a file: the header that it reads, and what it extracts. -/
theorem extract_ok (h : extract room img (Stream.ofFile file) = .ok x) :
    ∃ s, readHeader img (Stream.ofFile file) = .ok (img.read file (headerOf file), s) ∧
      checkBootImgHeader (img.read file (headerOf file)) = none ∧
      BOOT_HEADER_SIZE ≤ file.length ∧
      x.config = writeBootimgConfig (img.read file (headerOf file)) ∧
      ∃ s1 s2 s3, s1.image = file ∧ s2.image = file ∧
        readSection (img.read file (headerOf file)) s (headerOf file).page_size
          (headerOf file).kernel_size = .ok (x.kernel, s1) ∧
        readSection (img.read file (headerOf file)) s1 (roffset (headerOf file))
          (headerOf file).ramdisk_size = .ok (x.ramdisk, s2) ∧
        extractSecond room (img.read file (headerOf file)) s2 = .ok (x.second, s3) := by
  obtain ⟨img', s0, s1, s2, s3, hread, hconfig, hkernel, hramdisk, hsecond⟩ := extract_steps h
  obtain ⟨hlen, rfl, hcheck, him⟩ := readHeader_ok hread
  obtain ⟨-, him1, -⟩ := readSection_ok hkernel
  obtain ⟨-, him2, -⟩ := readSection_ok hramdisk
  exact ⟨s0, hread, hcheck, hlen, hconfig, s1, s2, s3, him1.trans him, him2.trans (him1.trans him),
    hkernel, hramdisk, hsecond⟩

/-- The names of the files do not matter for the header. -/
theorem readHeader_any {s : Stream} {h : BootImgHdr}
    (hread : readHeader img (Stream.ofFile file) = .ok (img.read file h, s)) (img' : Abootimg) :
    readHeader img' (Stream.ofFile file) = .ok (img'.read file h, s) := by
  unfold readHeader at hread ⊢
  cases hr : (Stream.ofFile file).fread BOOT_HEADER_SIZE with
  | none => rw [hr] at hread; cases hread
  | some v =>
    rw [hr] at hread
    simp only at hread ⊢
    split at hread
    · cases hread
    · next hcheck =>
      obtain ⟨himg, rfl⟩ := Prod.mk.inj (Except.ok.inj hread)
      -- The header and the size are those of the file, whatever the options are.
      have hh : BootImgHdr.decode v.1 = h := congrArg Abootimg.header himg
      have hsize : UInt32.ofNat v.2.image.length = UInt32.ofNat file.length :=
        congrArg Abootimg.size himg
      have hcheck' : checkBootImgHeader (img'.read file h) = none := by
        rw [himg] at hcheck
        have hall := checkBootImgHeader_none.mp hcheck
        exact checkBootImgHeader_none.mpr hall
      rw [hh, hsize]
      split
      · next hsome => cases hsome.symm.trans hcheck'
      · rfl

/-- Nor does it matter for what is extracted: an image with the same config extracts the same. -/
theorem extract_any (h : extract room img (Stream.ofFile file) = .ok x) (img' : Abootimg)
    (hconfig : writeBootimgConfig (img'.read file (headerOf file)) = x.config) :
    extract room img' (Stream.ofFile file) = .ok x := by
  obtain ⟨s, hread, -, -, -, s1, s2, s3, -, -, hkernel, hramdisk, hsecond⟩ := extract_ok h
  have hsecond' : extractSecond room (img'.read file (headerOf file)) s2 = .ok (x.second, s3) :=
    @extractSecond_any room (img.read file (headerOf file)) _ _ _ rfl hsecond
  unfold extract extractKernel extractRamdisk
  simp only [readHeader_any hread img', bind, Except.bind, Abootimg.read_header,
    readSection_any hkernel (img'.read file (headerOf file))]
  have hramdisk' := readSection_any hramdisk (img'.read file (headerOf file))
  rw [roffset] at hramdisk'
  simp only [hramdisk', hsecond', hconfig]
  rfl

/-- What is known about the pieces of an image that `-x` accepts. -/
structure Accepted (file : List UInt8) (x : Extracted) : Prop where
  /-- The page size is not zero. -/
  page_size : (headerOf file).page_size ≠ 0
  /-- The kernel has its size. -/
  kernel : x.kernel.length = (headerOf file).kernel_size.toNat
  /-- It is not empty. -/
  kernel_ne : x.kernel ≠ []
  /-- The ramdisk has its size. -/
  ramdisk : x.ramdisk.length = (headerOf file).ramdisk_size.toNat
  /-- It is not empty. -/
  ramdisk_ne : x.ramdisk ≠ []
  /-- It ends inside the file. -/
  ramdisk_stop : (roffset (headerOf file)).toNat + x.ramdisk.length ≤ file.length
  /-- There is a second stage when it has a size. -/
  second : x.second = none ↔ (headerOf file).second_size = 0
  /-- The size of the image is not above that of the file. -/
  total : (1 + pages (headerOf file).kernel_size (headerOf file).page_size +
    pages (headerOf file).ramdisk_size (headerOf file).page_size +
    pages (headerOf file).second_size (headerOf file).page_size) * (headerOf file).page_size ≤
      UInt32.ofNat file.length

/-- A section that is read has its size, and is not empty. -/
theorem length_readSection {s s' : Stream} {offset size : UInt32} {data : List UInt8}
    (h : readSection img s offset size = .ok (data, s')) :
    data.length = size.toNat ∧ data ≠ [] := by
  obtain ⟨rfl, -, hpos, hle⟩ := readSection_ok h
  have hlen : (slice s.image offset.toNat size.toNat).length = size.toNat := length_slice_of_le hle
  refine ⟨hlen, fun hnil => ?_⟩
  rw [hnil] at hlen
  exact Nat.lt_irrefl 0 (by rwa [← hlen] at hpos)

/-- **An image that `-x` accepts**: its kernel and its ramdisk have the sizes of the header and are
not empty, and the ramdisk ends inside the file. -/
theorem extract_accepted (h : extract room img (Stream.ofFile file) = .ok x) : Accepted file x := by
  obtain ⟨s, -, hcheck, -, -, s1, s2, s3, him1, -, hkernel, hramdisk, hsecond⟩ := extract_ok h
  obtain ⟨-, -, -, hpage, htotal⟩ := checkBootImgHeader_none.mp hcheck
  obtain ⟨hk, hk0⟩ := length_readSection hkernel
  obtain ⟨hr, hr0⟩ := length_readSection hramdisk
  obtain ⟨-, -, -, hle⟩ := readSection_ok hramdisk
  rw [him1, ← hr] at hle
  refine ⟨hpage, hk, hk0, hr, hr0, hle, ?_, htotal⟩
  unfold extractSecond at hsecond
  by_cases h0 : (img.read file (headerOf file)).header.second_size = 0
  · rw [if_pos h0] at hsecond
    obtain ⟨hnone, -⟩ := Prod.mk.inj (Except.ok.inj hsecond)
    exact iff_of_true hnone.symm h0
  · simp only [if_neg h0] at hsecond
    split at hsecond
    · cases hsecond
    · next b s4 hb =>
      split_ifs at hsecond
      obtain ⟨hsome, -⟩ := Prod.mk.inj (Except.ok.inj hsecond)
      exact iff_of_false (by rw [← hsome]; exact Option.some_ne_none _) h0

/-- An image that is accepted is extracted, with its own header. -/
theorem extracts_of_extract (h : extract room img (Stream.ofFile file) = .ok x) :
    Extracts room file (headerOf file) x.kernel x.ramdisk x.second := by
  obtain ⟨s, hread, -, -, hconfig, -⟩ := extract_ok h
  exact ⟨_, s, x, readHeader_any hread newBootimg, rfl, extract_any h newBootimg hconfig.symm, rfl,
    rfl, rfl⟩

end

/-! ## The runs of the two scripts -/

/-- The options that `recreate` gives to `--create`. -/
def recreateArgs : Abootimg :=
  createArgs bootPartition (some "output/boot/bootimg.cfg") "output/boot/zImage"
    "output/boot/initrd.img" none

section

variable {fs fs1 : Files} {file : List UInt8} {room : ℕ → ℕ}

/-- `abootimg -x boot.img` extracts that file and writes out what it holds. -/
theorem main_extract (hf : fs "boot.img" = some file) : main 0 room fs ["-x", "boot.img"] =
    (extract room { newBootimg with fname := "boot.img" } (Stream.ofFile file)).map fun x =>
      [("bootimg.cfg", x.config), ("zImage", x.kernel), ("initrd.img", x.ramdisk)] ++
        (x.second.map ("stage2.img", ·)).toList := by
  have hargs : parseArgs ["-x", "boot.img"] newBootimg =
      .ok (.extract, { newBootimg with fname := "boot.img" }, []) := by decide +kernel
  unfold main
  simp only [hargs, openBootimg, hf, bind, Except.bind]
  cases extract room { newBootimg with fname := "boot.img" } (Stream.ofFile file) with
  | error e => rfl
  | ok x => cases hs : x.second <;> simp [newBootimg, Except.map, hs, pure, Except.pure]

/-- **What `unpack` leaves** of a boot partition that `-x` accepts. -/
theorem unpackBoot_ok (hf : fs bootPartition = some file) (h : unpackBoot room fs = .ok fs1) :
    ∃ x, extract room { newBootimg with fname := "boot.img" } (Stream.ofFile file) = .ok x ∧
      fs1 "output/boot/bootimg.cfg" = some x.config ∧ fs1 "output/boot/zImage" = some x.kernel ∧
      fs1 "output/boot/initrd.img" = some x.ramdisk := by
  have hview : Files.view (Function.update fs "output/boot/boot.img" (fs bootPartition))
      "output/boot/" "boot.img" = some file := by
    rw [← hf]
    exact Function.update_self _ _ _
  unfold unpackBoot at h
  simp only [main_extract hview] at h
  obtain ⟨outs, houts, h⟩ := Except.bind_ok_iff.mp h
  obtain ⟨x, hx, rfl⟩ := Except.map_ok_iff.mp houts
  obtain rfl := Except.ok.inj h
  -- The files are written one after the other, under names of their own.
  refine ⟨x, hx, ?_, ?_, ?_⟩ <;> cases x.second <;> simp [Files.writeAll]

/-- **What `recreate` does**: the files that were extracted, but for the second stage, are packed. -/
theorem recreateBoot_eq (held : ℕ) : recreateBoot held room fs =
    (create held (Function.update (Function.update fs bootPartition none) bootPartition (some []))
      [] recreateArgs (Stream.ofFile [])).map fun bytes =>
        Function.update (Function.update fs bootPartition none) bootPartition (some bytes) := by
  have hargs : parseArgs ["--create", bootPartition, "-f", "output/boot/bootimg.cfg", "-k",
      "output/boot/zImage", "-r", "output/boot/initrd.img"] newBootimg =
        .ok (.create, recreateArgs, []) := by decide +kernel
  have hfname : recreateArgs.fname = bootPartition := rfl
  have hsome : ¬ (recreateArgs.kernel_fname.isNone ∨ recreateArgs.ramdisk_fname.isNone) := by decide
  unfold recreateBoot main
  simp only [hargs, bind, Except.bind, if_neg hsome, hfname]
  cases create held (Function.update (Function.update fs bootPartition none) bootPartition (some []))
    [] recreateArgs (Stream.ofFile []) with
  | error e => rfl
  | ok bytes => rfl

end

/-! ## The recreated image -/

/-- Two files are boot images of the same sections and of headers that tell the same: what is
extracted, the page size, the size, the addresses, and the texts of the name and of the cmdline. -/
def SameImage (room : ℕ → ℕ) (old new : List UInt8) : Prop :=
  ∃ h h' kernel ramdisk second, Extracts room old h kernel ramdisk second ∧
    Extracts room new h' kernel ramdisk second ∧ h'.page_size = h.page_size ∧
    UInt32.ofNat new.length = UInt32.ofNat old.length ∧ h'.kernel_addr = h.kernel_addr ∧
    h'.ramdisk_addr = h.ramdisk_addr ∧ h'.second_addr = h.second_addr ∧
    h'.tags_addr = h.tags_addr ∧ h'.nameString = h.nameString ∧ h'.cmdlineString = h.cmdlineString

/-- What `--create` makes of the config file of an image. -/
def recreatedArgs (file : List UInt8) : Except Stop Abootimg :=
  updateEntries recreateArgs (getlines (writeBootimgConfig (newBootimg.read file (headerOf file))))

/-- When unpacking and recreating keeps an image. -/
structure BootKeeps (file : List UInt8) : Prop where
  /-- A page holds the header. -/
  page : BOOT_HEADER_SIZE ≤ (headerOf file).page
  /-- There is no second stage. -/
  second : (headerOf file).second_size = 0
  /-- The name survives the config file. -/
  name : Plain BOOT_NAME_SIZE (headerOf file).nameString
  /-- So does the cmdline. -/
  cmdline : Plain BOOT_ARGS_SIZE (headerOf file).cmdlineString
  /-- The image ends inside its file. -/
  total : (headerOf file).totalSize ≤ (UInt32.ofNat file.length).toNat
  /-- So does a page of padding behind a ramdisk that fills its pages. -/
  padding : ¬ ((headerOf file).ramdisk_size.toNat % (headerOf file).page = 0 ∧
    (UInt32.ofNat file.length).toNat < (headerOf file).totalSize + (headerOf file).page)

section

variable {fs : Files} {file : List UInt8} {room : ℕ → ℕ} {x : Extracted}

/-- A `--create` that goes through has updated the header and the images, passed the check, and
written. -/
theorem create_ok {held : ℕ} {config_args new : List UInt8} {args : Abootimg} {s : Stream}
    (h : create held fs config_args args s = .ok new) :
    ∃ img img' s1 s2, updateHeader fs config_args args = .ok img ∧
      updateImages fs img s = .ok (img', s1) ∧ checkBootImgHeader img' = none ∧
      writeBootimg held img' s1 = .ok s2 ∧ new = s2.image := by
  unfold create at h
  obtain ⟨img, h1, h⟩ := Except.bind_ok_iff.mp h
  obtain ⟨v, h2, h⟩ := Except.bind_ok_iff.mp h
  dsimp only at h
  split at h
  · cases h
  · next hcheck =>
    obtain ⟨s2, h3, h⟩ := Except.bind_ok_iff.mp h
    cases h
    exact ⟨img, v.1, v.2, s2, h1, h2, hcheck, h3, rfl⟩

/-- The texts of the options of `recreate` are plain. -/
theorem recreateArgs_plain : PlainNames recreateArgs.header :=
  ⟨⟨[], by decide +kernel, by decide, plain_nil (by decide)⟩,
    ⟨[], by decide +kernel, by decide, plain_nil (by decide)⟩⟩

/-- What an image is extracted to, and its header. -/
theorem Extracts.ok {h : BootImgHdr} {k r : List UInt8} {sec : Option (List UInt8)}
    (hx : Extracts room file h k r sec) :
    ∃ x, extract room newBootimg (Stream.ofFile file) = .ok x ∧ h = headerOf file ∧
      x.kernel = k ∧ x.ramdisk = r ∧ x.second = sec := by
  obtain ⟨img, s, x, hread, rfl, hx, hk, hr, hs⟩ := hx
  obtain ⟨-, himg, -, -⟩ := readHeader_ok hread
  exact ⟨x, hx, by rw [himg]; rfl, hk, hr, hs⟩

/-- The header of a file that starts with one. -/
theorem headerOf_stored {h : BootImgHdr} (hst : Stored file 0 h.encode)
    (hlen : BOOT_HEADER_SIZE ≤ file.length) : headerOf file = h := by
  have hslice : slice file 0 BOOT_HEADER_SIZE = h.encode := by
    have := hst.slice_eq (by rw [h.length_encode]; omega)
    rwa [h.length_encode] at this
  have hdec := h.decode_append []
  rw [List.append_nil] at hdec
  rw [headerOf, hslice, hdec]

/-- Where the writer stops without a second stage. -/
theorem writtenEnd_eq {img : Abootimg} (h0 : img.header.second_size = 0) (hr : img.ramdisk.isSome) :
    img.writtenEnd = img.header.ramdiskOffset + (img.header.ramdisk_size.toNat +
      (img.header.page - img.header.ramdisk_size.toNat % img.header.page)) := by
  unfold Abootimg.writtenEnd
  rw [if_neg (not_not.mpr h0), if_pos hr]

/-- **Where the last write ends** without a second stage: a page behind the image when the ramdisk
fills its pages, and else where the image ends. -/
theorem writtenEnd_ramdisk {img : Abootimg} (hpos : 0 < img.header.page)
    (h0 : img.header.second_size = 0) (hr : img.ramdisk.isSome) :
    img.writtenEnd = img.header.totalSize +
      if img.header.ramdisk_size.toNat % img.header.page = 0 then img.header.page else 0 := by
  obtain ⟨h1, h2, h3⟩ := img.header.offsets
  have hpad := @padded_eq img.header.ramdisk_size.toNat _ hpos
  have hz : pageCount img.header.second_size.toNat img.header.page = 0 := by
    rw [h0]
    exact pageCount_zero hpos
  rw [hz, Nat.zero_mul] at h3
  rw [writtenEnd_eq h0 hr, hpad]
  split_ifs <;> omega

/-- **The padding does not wrap the size**: when the ramdisk lies inside the size and the size of the
file is the same in 32 bits, the last write ends inside the size. -/
theorem writtenEnd_le_size {img : Abootimg} (h0 : img.header.second_size = 0)
    (hr : img.ramdisk.isSome)
    (hstop : img.header.ramdiskOffset + img.header.ramdisk_size.toNat ≤ img.size.toNat)
    (hmod : max img.size.toNat img.writtenEnd % 2 ^ 32 = img.size.toNat) :
    img.writtenEnd ≤ img.size.toNat := by
  have hend := writtenEnd_eq h0 hr
  have hsize := img.size.toNat_lt
  have hpage : img.header.page < 2 ^ 32 := img.header.page_size.toNat_lt
  -- A page behind the ramdisk is less than `2^32` behind the size.
  have hlt : img.writtenEnd < img.size.toNat + 2 ^ 32 := by omega
  omega

/-- The image that `recreate` writes: it has the sections of the two files. -/
theorem recreate_images {img img' : Abootimg} {s s' : Stream} {k r : List UInt8}
    (hheader : updateHeader fs [] recreateArgs = .ok img)
    (hk : fs "output/boot/zImage" = some k) (hr : fs "output/boot/initrd.img" = some r)
    (hklt : k.length < 2 ^ 32) (hrlt : r.length < 2 ^ 32)
    (h : updateImages fs img s = .ok (img', s')) :
    img'.header = updatedHeader img.header (some k) (some r) none ∧ img'.ramdisk = some r ∧
      Loaded img' ∧ img'.header.kernel_size.toNat = k.length ∧
      img'.header.ramdisk_size.toNat = r.length ∧ img'.header.second_size = 0 := by
  have hkept := updateHeader_kept hheader
  have hzero : img.header.second_size = 0 := hkept.second_size
  obtain ⟨-, hupd⟩ := @updateImages_ok fs img img' _ s' (some k) (some r) none
    (by rw [hkept.kernel_fname]; exact congrArg some hk)
    (by rw [hkept.ramdisk_fname]; exact congrArg some hr) (by rw [hkept.second_fname]; rfl)
    (by rintro b (hb | hb | hb) <;> cases hb <;> assumption)
    hkept.kernel hkept.ramdisk hkept.second h
  -- The sizes of the header are those of the files that were loaded.
  have hks : img'.header.kernel_size.toNat = k.length := by
    rw [hupd.header]
    exact toNat_givenSize rfl hklt
  have hrs : img'.header.ramdisk_size.toNat = r.length := by
    rw [hupd.header]
    exact toNat_givenSize rfl hrlt
  have hram : img'.ramdisk = some r := hupd.ramdisk_given _ rfl
  have hsecond : img'.second = none := hupd.second_left rfl fun _ => hzero
  -- No second stage is loaded, and the header has none.
  refine ⟨hupd.header, hram, ⟨fun b hb => ?_, fun b hb => ?_, fun b hb => ?_, fun _ => ?_⟩, hks, hrs,
    by rw [hupd.header]; exact hzero⟩
  · rw [hupd.kernel] at hb
    cases hb
    exact hks.symm
  · rw [hram] at hb
    cases hb
    exact hrs.symm
  · rw [hsecond] at hb
    cases hb
  · rw [hram]
    rfl

/-- **Two runs** of the write of an image without a second stage: one that cuts the file to the size of
the image, and has its header, and one that keeps what the stream holds back. -/
theorem writeBootimg_runs {img : Abootimg} {s s0 s1 : Stream} (h0 : writeBootimg 0 img s = .ok s0)
    (h1 : writeBootimg 1 img s = .ok s1) (hoff : img.header.ramdiskOffset < 2 ^ 32)
    (hl : Loaded img) (hss : img.header.second_size = 0)
    (hread : BOOT_HEADER_SIZE ≤ s0.image.length) :
    headerOf s0.image = img.header ∧ s0.image.length = img.size.toNat ∧
      s1.image.length = max img.size.toNat img.writtenEnd := by
  obtain ⟨t, hwrite, hwrote⟩ := writeBootimg_wrote s hoff (fun h => absurd hss h) hl
    (writeBootimg_ok h0).1 fun h => absurd hss h
  rw [hwrite 0] at h0
  cases h0
  rw [hwrite 1] at h1
  cases h1
  have hlen0 := hwrote.length 0 img.size.toNat
  have hlen1 := hwrote.length 1 img.size.toNat
  rw [if_pos rfl] at hlen0
  rw [if_neg Nat.one_ne_zero] at hlen1
  refine ⟨headerOf_stored (hwrote.header.ftruncate 0 ?_) hread, hlen0, hlen1⟩
  rw [hlen0] at hread
  rw [img.header.length_encode]
  omega

/-- **An image that is kept** meets the conditions. -/
theorem bootKeeps_of_same {img0 : Abootimg} (hx : extract room img0 (Stream.ofFile file) = .ok x)
    (hcfg : updateHeader fs [] recreateArgs = recreatedArgs file)
    (hk : fs "output/boot/zImage" = some x.kernel)
    (hr : fs "output/boot/initrd.img" = some x.ramdisk)
    (hoff : ∀ img, recreatedArgs file = .ok img →
      (1 + pageCount x.kernel.length img.header.page) * img.header.page < 2 ^ 32)
    (hsame : ∀ held, ∃ new, create held fs [] recreateArgs (Stream.ofFile []) = .ok new ∧
      SameImage room file new) : BootKeeps file := by
  have hacc := extract_accepted hx
  obtain ⟨xo, hxo, -, hxok, hxor, hxos⟩ := (extracts_of_extract hx).ok
  obtain ⟨new0, hc0, h, h', k, r, sec, hold, hnew, hpage, hsize, -, -, -, -, hname, hcmdline⟩ :=
    hsame 0
  obtain ⟨new1, hc1, -, -, -, -, -, -, -, -, hsize1, -⟩ := hsame 1
  obtain ⟨img, img', s1, s2, h1, h2, -, h3, rfl⟩ := create_ok hc0
  obtain ⟨img1, img1', s3, s4, h1', h2', -, h3', rfl⟩ := create_ok hc1
  rw [h1] at h1'
  cases h1'
  rw [h2] at h2'
  cases h2'
  -- What was extracted from the old image is extracted from the new one.
  obtain ⟨xo', hxo', rfl, rfl, rfl, rfl⟩ := hold.ok
  rw [hxo] at hxo'
  cases hxo'
  obtain ⟨xn, hxn, rfl, hxnk, hxnr, hxns⟩ := hnew.ok
  have haccn := extract_accepted hxn
  -- The image that is written.
  obtain ⟨hheader, hram, hload, hks, hrs, hss⟩ := recreate_images h1 hk hr
    (hacc.kernel ▸ (headerOf file).kernel_size.toNat_lt)
    (hacc.ramdisk ▸ (headerOf file).ramdisk_size.toNat_lt) h2
  have hpg : img'.header.page = img.header.page := by rw [hheader]; rfl
  have hp := (writeBootimg_ok h3).1
  have hpos : 0 < img'.header.page := Nat.lt_of_lt_of_le (by decide) hp
  have hoffs : img'.header.ramdiskOffset < 2 ^ 32 := by
    rw [BootImgHdr.ramdiskOffset, hks, hpg]
    exact hoff img (hcfg ▸ h1)
  -- Its header is the one that is read.
  obtain ⟨-, -, -, hhdrlen, -⟩ := extract_ok hxn
  obtain ⟨hnewhdr, hlen0, hlen1⟩ := writeBootimg_runs h3 h3' hoffs hload hss hhdrlen
  have hfpage : (headerOf file).page = img'.header.page := by
    rw [BootImgHdr.page, ← hpage, hnewhdr]
    rfl
  have hfsecond : (headerOf file).second_size = 0 := by
    have hnone := haccn.second.mpr (by rw [hnewhdr]; exact hss)
    exact hacc.second.mp (hxos.symm.trans (hxns.symm.trans hnone))
  have htotal : (headerOf file).totalSize = img'.header.totalSize := by
    unfold BootImgHdr.totalSize
    rw [hfpage, hfsecond, hss, hks, hrs, hacc.kernel, hacc.ramdisk]
  -- Where the padding ends, the size of the file does not wrap.
  have hz : img'.header.page_size ≠ 0 := fun h0 => by
    rw [BootImgHdr.page, h0] at hpos
    exact Nat.lt_irrefl _ hpos
  have hstop := haccn.ramdisk_stop
  rw [hnewhdr, roffset, BootImgHdr.toNat_ramdiskOffset hz hoffs, hxnr, hxor, hlen0] at hstop
  rw [← hrs] at hstop
  have hsome : img'.ramdisk.isSome := by rw [hram]; rfl
  have hend := @writtenEnd_ramdisk img' hpos hss hsome
  have hS : img'.size.toNat = (UInt32.ofNat file.length).toNat := by
    rw [← hsize, hlen0, UInt32.toNat_ofNat', Nat.mod_eq_of_lt img'.size.toNat_lt]
  have hmod : max img'.size.toNat img'.writtenEnd % 2 ^ 32 = img'.size.toNat := by
    have := congrArg UInt32.toNat hsize1
    rwa [hlen1, UInt32.toNat_ofNat', ← hS] at this
  have hle := writtenEnd_le_size hss hsome hstop hmod
  obtain ⟨hnplain, hcplain⟩ := updateHeader_plain recreateArgs_plain h1
  have hstrings : img'.header.nameString = img.header.nameString ∧
      img'.header.cmdlineString = img.header.cmdlineString := by
    rw [hheader]
    exact ⟨rfl, rfl⟩
  rw [hnewhdr] at hname hcmdline
  refine ⟨by rw [hfpage]; exact hp, hfsecond, ?_, ?_, ?_, ?_⟩
  · rw [← hname, hstrings.1]
    exact hnplain
  · rw [← hcmdline, hstrings.2]
    exact hcplain
  · rw [htotal, ← hS]
    omega
  · rintro ⟨hfull, hlt⟩
    rw [← hacc.ramdisk, ← hrs, hfpage] at hfull
    rw [if_pos hfull] at hend
    rw [← hS, htotal, hfpage] at hlt
    omega

/-- **The conditions are enough**: from what was extracted, `--create` writes an image that holds
the same. -/
theorem bootKeeps_same {img0 : Abootimg} (hx : extract room img0 (Stream.ofFile file) = .ok x)
    (hcfg : fs "output/boot/bootimg.cfg" = some x.config)
    (hk : fs "output/boot/zImage" = some x.kernel)
    (hr : fs "output/boot/initrd.img" = some x.ramdisk) (hkeeps : BootKeeps file) (held : ℕ) :
    ∃ new, create held fs [] recreateArgs (Stream.ofFile []) = .ok new ∧
      SameImage room file new := by
  have hacc := extract_accepted hx
  obtain ⟨-, -, -, -, hconfig, -⟩ := extract_ok hx
  let old := newBootimg.read file (headerOf file)
  let img := configured old recreateArgs
  have hupd : updateHeader fs [] recreateArgs = .ok img :=
    updateHeader_writeBootimgConfig rfl (hconfig ▸ hcfg) rfl hkeeps.name hkeeps.cmdline
  -- What is packed has the size of the old image.
  have hp := hkeeps.page
  have hpos : 0 < (headerOf file).page := Nat.lt_of_lt_of_le (by decide) hp
  have hpacked : packedSize (headerOf file).page x.kernel x.ramdisk none =
      (headerOf file).totalSize := by
    unfold packedSize BootImgHdr.totalSize
    rw [hkeeps.second, hacc.kernel, hacc.ramdisk]
    rfl
  have hsizelt := (UInt32.ofNat file.length).toNat_lt
  have htotal := hkeeps.total
  have hi : PackInput fs img x.kernel x.ramdisk none :=
    ⟨⟨_, rfl, hk⟩, ⟨_, rfl, hr⟩, rfl, hacc.kernel_ne, hacc.ramdisk_ne, (nomatch ·), hp,
      Nat.lt_of_le_of_lt (hpacked.le.trans htotal) hsizelt, Or.inr (hpacked.le.trans htotal)⟩
  obtain ⟨-, hrlen, -, htot⟩ := @packHeader_sizes img.header x.kernel x.ramdisk none rfl hpos hi.fits
  have hfits := @packHeader_fits img.header x.kernel x.ramdisk none rfl hpos hi.fits
  obtain ⟨hk0, hr0⟩ := packHeader_ne_zero hi rfl
  obtain ⟨s', hwrite, hw⟩ := writeBootimg_spec held (Stream.ofFile []) hfits
    (packImage_loaded hi rfl rfl) hp (fun h0 => absurd rfl h0) (packImage_size hi rfl)
  have hh := packImage_holds hi rfl rfl hw
  -- The last write ends inside the file.
  have hpage_le : (headerOf file).page ≤ (headerOf file).totalSize := by
    have := (headerOf file).offsets
    omega
  have hsize : (packImage img x.kernel x.ramdisk none).size = UInt32.ofNat file.length := by
    refine if_neg fun h0 : UInt32.ofNat file.length = 0 => ?_
    rw [h0, UInt32.toNat_zero] at htotal
    omega
  have hend := @writtenEnd_ramdisk (packImage img x.kernel x.ramdisk none) hpos rfl rfl
  have hlen : s'.image.length = (UInt32.ofNat file.length).toNat := by
    have htot' : (packImage img x.kernel x.ramdisk none).header.totalSize =
        (headerOf file).totalSize := htot.trans hpacked
    have hrlen' : (packImage img x.kernel x.ramdisk none).header.ramdisk_size.toNat =
        (headerOf file).ramdisk_size.toNat := hrlen.trans hacc.ramdisk
    have hpage' : (packImage img x.kernel x.ramdisk none).header.page = (headerOf file).page := rfl
    rw [htot', hrlen', hpage'] at hend
    rw [hw.length, hsize]
    split_ifs with h0
    · rfl
    · refine max_eq_left ?_
      have hpad := hkeeps.padding
      split_ifs at hend with hfull
      · rw [hend]
        exact Nat.not_lt.mp fun h => hpad ⟨hfull, h⟩
      · rw [hend]
        exact htotal
  have hofNat : UInt32.ofNat s'.image.length = UInt32.ofNat file.length := by
    rw [hlen, UInt32.ofNat_toNat]
  have hnew : Extracts room s'.image (packHeader img.header x.kernel x.ramdisk none) x.kernel
      x.ramdisk none := by
    refine (extract_iff hh hfits rfl hk0 hr0 (by omega) fun h0 => absurd rfl h0).mpr ?_
    rw [htot, hofNat]
    exact hpacked.le.trans htotal
  obtain ⟨hname, hcmdline⟩ := @configured_strings old recreateArgs hkeeps.name hkeeps.cmdline
  refine ⟨s'.image, ?_, headerOf file, _, x.kernel, x.ramdisk, none, ?_, hnew, rfl, hofNat, rfl,
    rfl, rfl, rfl, hname, hcmdline⟩
  · rw [create_eq hupd hi rfl rfl held, hwrite]
    rfl
  · have := extracts_of_extract hx
    rwa [hacc.second.mpr hkeeps.second] at this

/-- The config file of an image, read by `--create`. -/
theorem updateHeader_recreatedArgs (hcfg : fs "output/boot/bootimg.cfg" =
    some (writeBootimgConfig (newBootimg.read file (headerOf file)))) :
    updateHeader fs [] recreateArgs = recreatedArgs file := by
  have hfname : recreateArgs.config_fname = some "output/boot/bootimg.cfg" := rfl
  unfold updateHeader recreatedArgs
  simp only [hfname, hcfg, bind, Except.bind]
  cases updateEntries recreateArgs
    (getlines (writeBootimgConfig (newBootimg.read file (headerOf file)))) <;> rfl

/-- **From `unpack` to `--create`**: what `recreate` leaves is what `--create` makes of the files that
`unpack` has left. -/
theorem recreateBoot_create {fs1 : Files} (hf : fs bootPartition = some file)
    (hunpack : unpackBoot room fs = .ok fs1) : ∃ img0 x fs0,
    extract room img0 (Stream.ofFile file) = .ok x ∧
      fs0 "output/boot/bootimg.cfg" = some x.config ∧
      x.config = writeBootimgConfig (newBootimg.read file (headerOf file)) ∧
      fs0 "output/boot/zImage" = some x.kernel ∧ fs0 "output/boot/initrd.img" = some x.ramdisk ∧
      ∀ held, (∃ fs2 new, recreateBoot held room fs1 = .ok fs2 ∧ fs2 bootPartition = some new ∧
        SameImage room file new) ↔
        ∃ new, create held fs0 [] recreateArgs (Stream.ofFile []) = .ok new ∧
          SameImage room file new := by
  obtain ⟨x, hx, hcfg, hk, hr⟩ := unpackBoot_ok hf hunpack
  obtain ⟨-, -, -, -, hconfig, -⟩ := extract_ok hx
  -- The boot partition is emptied first; what was extracted stays.
  let fs0 := Function.update (Function.update fs1 bootPartition none) bootPartition (some [])
  have hfs0 : ∀ name, name ≠ bootPartition → fs0 name = fs1 name := fun name hne => by
    change Function.update (Function.update fs1 bootPartition none) _ _ name = _
    rw [Function.update_of_ne hne, Function.update_of_ne hne]
  rw [← hfs0 _ (by decide)] at hcfg hk hr
  refine ⟨_, x, fs0, hx, hcfg, hconfig, hk, hr, fun held => ?_⟩
  rw [recreateBoot_eq]
  constructor
  · rintro ⟨fs2, new, h, hnew, hsame⟩
    obtain ⟨bytes, hc, rfl⟩ := Except.map_ok_iff.mp h
    have hself := Function.update_self bootPartition (some bytes)
      (Function.update fs1 bootPartition none)
    obtain rfl : bytes = new := Option.some.inj (hself.symm.trans hnew)
    exact ⟨_, hc, hsame⟩
  · rintro ⟨new, h, hsame⟩
    change create held fs0 [] recreateArgs (Stream.ofFile []) = _ at h
    exact ⟨_, new, congrArg _ h, Function.update_self _ _ _, hsame⟩

/-- No offset that `--create` computes for the ramdisk wraps. -/
def OffsetFits (file : List UInt8) : Prop :=
  ∀ img, recreatedArgs file = .ok img →
    (1 + pageCount (headerOf file).kernel_size.toNat img.header.page) * img.header.page < 2 ^ 32

/-- **What is kept** was without a second stage and met the other conditions, unless an offset
wraps. -/
theorem bootKeeps_of_recreate {fs1 : Files} (hf : fs bootPartition = some file)
    (hunpack : unpackBoot room fs = .ok fs1) (hoff : OffsetFits file)
    (hsame : ∀ held, ∃ fs2 new, recreateBoot held room fs1 = .ok fs2 ∧
      fs2 bootPartition = some new ∧ SameImage room file new) : BootKeeps file := by
  obtain ⟨img0, x, fs0, hx, hcfg, hconfig, hk, hr, hrun⟩ := recreateBoot_create hf hunpack
  refine bootKeeps_of_same hx (updateHeader_recreatedArgs (hconfig ▸ hcfg)) hk hr
    (fun img himg => ?_) fun held => (hrun held).mp (hsame held)
  rw [(extract_accepted hx).kernel]
  exact hoff img himg

/-- **The boot workflow.** When `unpack` has extracted a boot partition: `recreate` makes the same
image again, whatever the stream holds back, if the image has no second stage, a page that holds the
header, texts that survive the config file, and ends, with the padding behind it, inside its file.
When no offset wraps, it does so only then. -/
theorem recreate_same_iff {fs1 : Files} (hf : fs bootPartition = some file)
    (hunpack : unpackBoot room fs = .ok fs1) :
    (BootKeeps file → ∀ held, ∃ fs2 new, recreateBoot held room fs1 = .ok fs2 ∧
      fs2 bootPartition = some new ∧ SameImage room file new) ∧
    (OffsetFits file → ((∀ held, ∃ fs2 new, recreateBoot held room fs1 = .ok fs2 ∧
      fs2 bootPartition = some new ∧ SameImage room file new) ↔ BootKeeps file)) := by
  have henough : BootKeeps file → ∀ held, ∃ fs2 new, recreateBoot held room fs1 = .ok fs2 ∧
      fs2 bootPartition = some new ∧ SameImage room file new := fun hkeeps held => by
    obtain ⟨img0, x, fs0, hx, hcfg, -, hk, hr, hrun⟩ := recreateBoot_create hf hunpack
    exact (hrun held).mpr (bootKeeps_same hx hcfg hk hr hkeeps held)
  exact ⟨henough, fun hoff => ⟨bootKeeps_of_recreate hf hunpack hoff, henough⟩⟩

end

/-- The files of a toolkit with nothing but a boot partition. -/
def bootFiles (file : List UInt8) : Files := fun fname =>
  if fname = bootPartition then some file else none

/-- An image without a second stage goes through `unpack` and `recreate`. -/
theorem recreate_same_iff_tiny : ∃ fs1, unpackBoot id (bootFiles (tinyImage 0)) = .ok fs1 ∧
    (BootKeeps (tinyImage 0) → ∀ held, ∃ fs2 new, recreateBoot held id fs1 = .ok fs2 ∧
      fs2 bootPartition = some new ∧ SameImage id (tinyImage 0) new) ∧
    (OffsetFits (tinyImage 0) → ((∀ held, ∃ fs2 new, recreateBoot held id fs1 = .ok fs2 ∧
      fs2 bootPartition = some new ∧ SameImage id (tinyImage 0) new) ↔
        BootKeeps (tinyImage 0))) := by
  have hok : (unpackBoot id (bootFiles (tinyImage 0))).isOk = true := by decide +kernel
  cases h : unpackBoot id (bootFiles (tinyImage 0)) with
  | error e => rw [h] at hok; cases hok
  | ok fs1 => exact ⟨fs1, rfl, recreate_same_iff rfl h⟩

/-- A second stage is extracted and not packed again. -/
theorem second_stage_is_lost : ∃ fs1, unpackBoot id (bootFiles (tinyImage 1)) = .ok fs1 ∧
    ¬ ∀ held, ∃ fs2 new, recreateBoot held id fs1 = .ok fs2 ∧
      fs2 bootPartition = some new ∧ SameImage id (tinyImage 1) new := by
  have hok : (unpackBoot id (bootFiles (tinyImage 1))).isOk = true := by decide +kernel
  have hargs : ((recreatedArgs (tinyImage 1)).map fun img => img.header.page) = .ok 608 := by
    decide +kernel
  have hoff : OffsetFits (tinyImage 1) := fun img himg => by
    rw [himg] at hargs
    have hpage : img.header.page = 608 := Except.ok.inj hargs
    rw [hpage]
    decide +kernel
  cases h : unpackBoot id (bootFiles (tinyImage 1)) with
  | error e => rw [h] at hok; cases hok
  | ok fs1 =>
    refine ⟨fs1, rfl, fun hsame => ?_⟩
    have hsecond := (bootKeeps_of_recreate rfl h hoff hsame).second
    exact absurd hsecond (by decide +kernel)

end AmlogicToolkit.Boot
