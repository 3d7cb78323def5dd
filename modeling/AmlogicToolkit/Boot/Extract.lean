import AmlogicToolkit.Boot.Layout
import AmlogicToolkit.Boot.Programs

/-!
# Reading an image back

What `abootimg -x` finds in a file that holds a header and the sections at their places (`Holds`):
exactly them, if the size of the file, taken in 32 bits, is at least that of the image
(`extract_iff`).
-/

namespace AmlogicToolkit.Boot

open Bytes Stdio

section

variable {img : Abootimg} {s : Stream} {file : List UInt8} {h : BootImgHdr}

/-! ## The header -/

/-- What is checked about a header. -/
theorem checkBootImgHeader_none : checkBootImgHeader img = none ↔
    img.header.magic = BOOT_MAGIC ∧ img.header.kernel_size ≠ 0 ∧ img.header.ramdisk_size ≠ 0 ∧
      img.header.page_size ≠ 0 ∧
      (1 + pages img.header.kernel_size img.header.page_size +
        pages img.header.ramdisk_size img.header.page_size +
        pages img.header.second_size img.header.page_size) * img.header.page_size ≤ img.size := by
  unfold checkBootImgHeader
  extract_lets page_size n m o total_size
  rw [← UInt32.not_lt]
  by_cases h1 : img.header.magic = BOOT_MAGIC
  swap
  · simp [h1]
  by_cases h2 : img.header.kernel_size = 0
  · simp [h1, h2]
  by_cases h3 : img.header.ramdisk_size = 0
  · simp [h1, h2, h3]
  by_cases h4 : page_size = 0
  · have h4' : img.header.page_size = 0 := h4
    simp [h1, h2, h3, h4, h4']
  rw [if_neg (not_not.mpr h1), if_neg h2, if_neg h3, if_neg h4]
  by_cases h5 : total_size > img.size
  · rw [if_pos h5]
    exact iff_of_false (Option.some_ne_none _) fun h => h.2.2.2.2 h5
  · rw [if_neg h5]
    exact iff_of_true rfl ⟨h1, h2, h3, h4, h5⟩

/-- **What is checked** about a header whose image ends below `2^32`. -/
theorem checkBootImgHeader_iff (hf : img.header.Fits) : checkBootImgHeader img = none ↔
    img.header.magic = BOOT_MAGIC ∧ img.header.kernel_size ≠ 0 ∧ img.header.ramdisk_size ≠ 0 ∧
      img.header.totalSize ≤ img.size.toNat := by
  rw [checkBootImgHeader_none, UInt32.le_iff_toNat_le, hf.toNat_offsets.2.2]
  exact ⟨fun h => ⟨h.1, h.2.1, h.2.2.1, h.2.2.2.2⟩,
    fun h => ⟨h.1, h.2.1, h.2.2.1, hf.page_size, h.2.2.2⟩⟩

/-- The image that is read from a file. -/
def Abootimg.read (img : Abootimg) (file : List UInt8) (h : BootImgHdr) : Abootimg :=
  { img with header := h, size := UInt32.ofNat file.length, is_blkdev := false }

/-- An image that was read has the header that was read. -/
@[simp] theorem Abootimg.read_header (img : Abootimg) (file : List UInt8) (h : BootImgHdr) :
    (img.read file h).header = h := rfl

/-- **Reading the header** of a file that holds one. -/
theorem readHeader_spec (img : Abootimg) (hst : Stored file 0 h.encode)
    (hlen : BOOT_HEADER_SIZE ≤ file.length) : ∃ s', s'.image = file ∧
      readHeader img (Stream.ofFile file) = match checkBootImgHeader (img.read file h) with
        | some _ => .error (.printf (img.fname ++ ": not a valid Android Boot Image.\n"))
        | none => .ok (img.read file h, s') := by
  have hslice : slice file 0 BOOT_HEADER_SIZE = h.encode := by
    have := hst.slice_eq (by rw [h.length_encode]; omega)
    rwa [h.length_encode] at this
  have hdec : BootImgHdr.decode h.encode = h := by
    have := h.decode_append []
    rwa [List.append_nil] at this
  refine ⟨{ (Stream.ofFile file).flush with pos := BOOT_HEADER_SIZE }, rfl, ?_⟩
  unfold readHeader
  rw [Stream.fread_eq_some (by decide) (by simpa using hlen)]
  simp only [Stream.image_ofFile, Stream.tell_ofFile, hslice, hdec]
  rfl

/-- A file that starts with a header which the check accepts is read. -/
theorem readHeader_encode (img : Abootimg) {rest : List UInt8}
    (hcheck : checkBootImgHeader (img.read (h.encode ++ rest) h) = none) :
    ∃ s', readHeader img (Stream.ofFile (h.encode ++ rest)) =
      .ok (img.read (h.encode ++ rest) h, s') := by
  have hstored : Stored (h.encode ++ rest) 0 h.encode := by
    intro i hi
    rw [Nat.zero_add, List.getD_append _ _ _ _ hi]
  have hlen : BOOT_HEADER_SIZE ≤ (h.encode ++ rest).length := by
    rw [List.length_append, h.length_encode]
    exact Nat.le_add_right _ _
  obtain ⟨s', -, hread⟩ := readHeader_spec img hstored hlen
  rw [hcheck] at hread
  exact ⟨s', hread⟩

/-- A header that is read is there. -/
theorem readHeader_ok {img img' : Abootimg} {s' : Stream}
    (h : readHeader img (Stream.ofFile file) = .ok (img', s')) :
    BOOT_HEADER_SIZE ≤ file.length ∧
      img' = img.read file (BootImgHdr.decode (slice file 0 BOOT_HEADER_SIZE)) ∧
      checkBootImgHeader img' = none ∧ s'.image = file := by
  unfold readHeader at h
  cases hr : (Stream.ofFile file).fread BOOT_HEADER_SIZE with
  | none => rw [hr] at h; cases h
  | some r =>
    rw [hr] at h
    unfold Stream.fread at hr
    split_ifs at hr with hle
    cases hr
    simp only at h
    split at h
    · cases h
    · next hc =>
      cases h
      simp only [Stream.image_ofFile, Stream.tell_ofFile, Nat.zero_add] at hle
      exact ⟨hle.2, rfl, hc, rfl⟩

/-! ## Sections -/

/-- A section that is not empty is read when it is inside the file. -/
theorem readSection_spec {offset size : UInt32} (h0 : size ≠ 0)
    (hle : offset.toNat + size.toNat ≤ s.image.length) : ∃ s', s'.image = s.image ∧
      readSection img s offset size = .ok (slice s.image offset.toNat size.toNat, s') := by
  have hpos : 0 < size.toNat := toNat_pos_of_ne_zero h0
  refine ⟨{ (s.fseek offset.toNat).flush with pos := offset.toNat + size.toNat }, rfl, ?_⟩
  unfold readSection
  rw [Stream.fread_eq_some (s := s.fseek offset.toNat) hpos hle]
  rfl

/-- A section that is read is inside the file. -/
theorem readSection_ok {offset size : UInt32} {data : List UInt8} {s' : Stream}
    (h : readSection img s offset size = .ok (data, s')) :
    data = slice s.image offset.toNat size.toNat ∧ s'.image = s.image ∧ 0 < size.toNat ∧
      offset.toNat + size.toNat ≤ s.image.length := by
  unfold readSection at h
  cases hr : (s.fseek offset.toNat).fread size.toNat with
  | none => rw [hr] at h; cases h
  | some r =>
    rw [hr] at h
    cases h
    unfold Stream.fread at hr
    split_ifs at hr with hle
    cases hr
    exact ⟨rfl, rfl, hle.1, hle.2⟩

/-- A section that the file holds is read back. -/
theorem readSection_stored {offset size : UInt32} {off : ℕ} {data : List UInt8}
    (hoff : offset.toNat = off) (hst : Stored s.image off data) (hlen : data.length = size.toNat)
    (h0 : size ≠ 0) (hle : off + size.toNat ≤ s.image.length) :
    ∃ s', s'.image = s.image ∧ readSection img s offset size = .ok (data, s') := by
  obtain ⟨s', him, heq⟩ := @readSection_spec img s offset _ h0
    (by rw [hoff]; exact hle)
  rw [hoff, ← hlen, hst.slice_eq (by rw [hlen]; exact hle)] at heq
  exact ⟨s', him, heq⟩

end

/-! ## Extracting -/

/-- A file holds a header and the sections that it describes at their places. -/
structure Holds (file : List UInt8) (h : BootImgHdr) (k r : List UInt8)
    (sec : Option (List UInt8)) : Prop where
  /-- The header. -/
  header : Stored file 0 h.encode
  /-- The kernel. -/
  kernel : Stored file h.page k
  /-- Its size. -/
  kernel_size : k.length = h.kernel_size.toNat
  /-- The ramdisk. -/
  ramdisk : Stored file h.ramdiskOffset r
  /-- Its size. -/
  ramdisk_size : r.length = h.ramdisk_size.toNat
  /-- The second stage. -/
  second : ∀ s, sec = some s → Stored file h.secondOffset s
  /-- Its size. -/
  second_size : ∀ s, sec = some s → s.length = h.second_size.toNat
  /-- There is one when it has a size. -/
  second_none : sec = none ↔ h.second_size = 0

/-- A file is an image from which a header and sections are extracted. -/
def Extracts (room : ℕ → ℕ) (file : List UInt8) (h : BootImgHdr) (kernel ramdisk : List UInt8)
    (second : Option (List UInt8)) : Prop :=
  ∃ img s x, readHeader newBootimg (Stream.ofFile file) = .ok (img, s) ∧ img.header = h ∧
    extract room newBootimg (Stream.ofFile file) = .ok x ∧ x.kernel = kernel ∧
    x.ramdisk = ramdisk ∧ x.second = second

/-- `malloc` gives enough room for a second stage. -/
def Roomy (room : ℕ → ℕ) (h : BootImgHdr) : Prop :=
  h.second_size.toNat ≤ room h.kernel_size.toNat

section

variable {file kernel ramdisk : List UInt8} {second : Option (List UInt8)} {h : BootImgHdr}
  {room : ℕ → ℕ}

/-- The offset of the second stage, in the order in which the program adds the pages. -/
theorem BootImgHdr.Fits.toNat_secondOffset (hf : h.Fits) :
    ((1 + (pages h.ramdisk_size h.page_size + pages h.kernel_size h.page_size)) *
      h.page_size).toNat = h.secondOffset := by
  rw [← hf.toNat_offsets.2.1, UInt32.add_comm (pages h.ramdisk_size _), UInt32.add_assoc]

/-- The second stage is extracted when there is room for it. -/
theorem extractSecond_holds (hh : Holds file h kernel ramdisk second) (hf : h.Fits)
    {img : Abootimg} (himg : img.header = h) {s : Stream} (hs : s.image = file)
    (hle : h.totalSize ≤ file.length) (hroom : h.second_size ≠ 0 → Roomy room h) :
    ∃ s', extractSecond room img s = .ok (second, s') := by
  subst himg
  obtain ⟨-, -, hend⟩ := hf.sections
  unfold extractSecond
  cases hsec : second with
  | none =>
    rw [if_pos (hh.second_none.mp hsec)]
    exact ⟨s, rfl⟩
  | some sec =>
    have h0 : img.header.second_size ≠ 0 := fun h0 => by
      have := hh.second_none.mpr h0
      rw [hsec] at this
      cases this
    obtain ⟨s', -, heq⟩ := @readSection_stored img s _ _ _ _ hf.toNat_secondOffset
      (by rw [hs]; exact hh.second sec hsec) (hh.second_size sec hsec) h0 (by rw [hs]; omega)
    simp only [if_neg h0, heq]
    rw [if_neg (Nat.not_lt.mpr (hroom h0))]
    exact ⟨s', rfl⟩

/-- An extraction that goes through has read the header and each section, one after the other. -/
theorem extract_steps {img : Abootimg} {s : Stream} {x : Extracted}
    (hx : extract room img s = .ok x) : ∃ img' s0 s1 s2 s3,
      readHeader img s = .ok (img', s0) ∧ x.config = writeBootimgConfig img' ∧
        extractKernel img' s0 = .ok (x.kernel, s1) ∧ extractRamdisk img' s1 = .ok (x.ramdisk, s2) ∧
        extractSecond room img' s2 = .ok (x.second, s3) := by
  unfold extract at hx
  obtain ⟨v, hread, hx⟩ := Except.bind_ok_iff.mp hx
  obtain ⟨v1, hkernel, hx⟩ := Except.bind_ok_iff.mp hx
  obtain ⟨v2, hramdisk, hx⟩ := Except.bind_ok_iff.mp hx
  obtain ⟨v3, hsecond, hx⟩ := Except.bind_ok_iff.mp hx
  cases hx
  exact ⟨v.1, v.2, v1.2, v2.2, v3.2, hread, rfl, hkernel, hramdisk, hsecond⟩

/-- **Extracting**: a file that holds an image that ends below `2^32`, with a kernel and a ramdisk,
gives back what it holds exactly when its size in 32 bits is at least that of the image. -/
theorem extract_iff (hh : Holds file h kernel ramdisk second) (hf : h.Fits)
    (hmagic : h.magic = BOOT_MAGIC) (hk : h.kernel_size ≠ 0) (hr : h.ramdisk_size ≠ 0)
    (hlen : BOOT_HEADER_SIZE ≤ file.length) (hroom : h.second_size ≠ 0 → Roomy room h) :
    Extracts room file h kernel ramdisk second ↔
      h.totalSize ≤ (UInt32.ofNat file.length).toNat := by
  obtain ⟨s1, him1, hread⟩ := readHeader_spec newBootimg hh.header hlen
  have hcheck : checkBootImgHeader (newBootimg.read file h) = none ↔
      h.totalSize ≤ (UInt32.ofNat file.length).toNat := by
    rw [@checkBootImgHeader_iff (newBootimg.read file h) hf]
    exact ⟨fun h => h.2.2.2, fun h => ⟨hmagic, hk, hr, h⟩⟩
  -- With sections below 4 GiB the check decides: the other parts of it are given.
  rw [← hcheck]
  constructor
  · rintro ⟨img, s, -, heq, -⟩
    rw [heq] at hread
    cases hc : checkBootImgHeader (newBootimg.read file h) with
    | none => rfl
    | some msg => rw [hc] at hread; cases hread
  · intro hc
    have hle : h.totalSize ≤ file.length := by
      have := hcheck.mp hc
      rw [UInt32.toNat_ofNat'] at this
      have := Nat.mod_le file.length (2 ^ 32)
      omega
    rw [hc] at hread
    -- The sections lie one behind the other, each of them inside the file.
    obtain ⟨hend1, hend2, hend3⟩ := hf.sections
    obtain ⟨s2, him2, hkernel⟩ := @readSection_stored (newBootimg.read file h) s1 h.page_size _
      h.page _ rfl (by rw [him1]; exact hh.kernel) hh.kernel_size hk
      (by rw [him1]; omega)
    obtain ⟨s3, him3, hramdisk⟩ := @readSection_stored (newBootimg.read file h) s2 _ _ _ _
      hf.toNat_offsets.1 (by rw [him2, him1]; exact hh.ramdisk) hh.ramdisk_size hr
      (by rw [him2, him1]; omega)
    obtain ⟨s4, hsecond⟩ := @extractSecond_holds _ _ _ _ _ _ hh hf
      (newBootimg.read file h) rfl _ (him3.trans (him2.trans him1)) hle hroom
    refine ⟨newBootimg.read file h, s1,
      ⟨writeBootimgConfig (newBootimg.read file h), kernel, ramdisk, second⟩, hread, rfl, ?_, rfl,
      rfl, rfl⟩
    unfold extract extractKernel extractRamdisk
    simp only [hread, bind, Except.bind, Abootimg.read_header, hkernel, hramdisk, hsecond]
    rfl

/-- What is extracted from a file lies where its header says. -/
structure Found (room : ℕ → ℕ) (file : List UInt8) (h : BootImgHdr) (k r : List UInt8)
    (sec : Option (List UInt8)) : Prop where
  /-- The kernel. -/
  kernel : Stored file h.page k
  /-- Its size. -/
  kernel_size : k.length = h.kernel_size.toNat
  /-- The ramdisk. -/
  ramdisk : Stored file h.ramdiskOffset r
  /-- Its size. -/
  ramdisk_size : r.length = h.ramdisk_size.toNat
  /-- The second stage. -/
  second : ∀ s, sec = some s → Stored file h.secondOffset s ∧ s.length = h.second_size.toNat
  /-- There is one when it has a size. -/
  second_none : sec = none ↔ h.second_size = 0
  /-- There is room for it. -/
  roomy : h.second_size ≠ 0 → Roomy room h
  /-- The size of the file, in 32 bits, is at least that of the image. -/
  size : h.totalSize ≤ (UInt32.ofNat file.length).toNat

/-- The second stage that is extracted lies where the header says, and there is room for it. -/
theorem extractSecond_ok {img : Abootimg} {s s' : Stream} (hf : img.header.Fits)
    (h : extractSecond room img s = .ok (second, s')) :
    (∀ b, second = some b → Stored s.image img.header.secondOffset b ∧
      b.length = img.header.second_size.toNat) ∧
    (second = none ↔ img.header.second_size = 0) ∧
    (img.header.second_size ≠ 0 → Roomy room img.header) := by
  unfold extractSecond at h
  by_cases h0 : img.header.second_size = 0
  · rw [if_pos h0] at h
    cases h
    exact ⟨fun _ h => (nomatch h), iff_of_true rfl h0, fun h => absurd h0 h⟩
  · simp only [if_neg h0] at h
    split at h
    · cases h
    · next b s1 hread =>
      obtain ⟨hb, -, -, hle⟩ := readSection_ok hread
      rw [hf.toNat_secondOffset] at hb hle
      split_ifs at h with hroom
      cases h
      refine ⟨fun b' hb' => ?_, iff_of_false (Option.some_ne_none b) h0,
        fun _ => Nat.not_lt.mp hroom⟩
      cases hb'
      rw [hb]
      exact ⟨stored_slice _ _ _, length_slice_of_le hle⟩

/-- **What is extracted** from a file that starts with the header of an image below `2^32`. -/
theorem Extracts.found {h' : BootImgHdr} (hx : Extracts room file h' kernel ramdisk second)
    (hst : Stored file 0 h.encode) (hlen : BOOT_HEADER_SIZE ≤ file.length) (hf : h.Fits) :
    h' = h ∧ Found room file h kernel ramdisk second := by
  obtain ⟨img, s, x, hread, rfl, hx, rfl, rfl, rfl⟩ := hx
  obtain ⟨s1, -, hspec⟩ := readHeader_spec newBootimg hst hlen
  obtain ⟨-, -, hcheck, him⟩ := readHeader_ok hread
  -- The header that was read is the one that is stored.
  have himg : img = newBootimg.read file h := by
    rw [hread] at hspec
    split at hspec
    · cases hspec
    · cases hspec
      rfl
  have hheader : img.header = h := by rw [himg]; rfl
  refine ⟨hheader, ?_⟩
  rw [← hheader] at hf ⊢
  obtain ⟨img', s0, s1, s2, s3, hread', -, hkernel, hramdisk, hsecond⟩ := extract_steps hx
  obtain ⟨rfl, rfl⟩ := Prod.mk.inj (Except.ok.inj (hread.symm.trans hread'))
  obtain ⟨hk, him1, -, hkle⟩ := readSection_ok hkernel
  obtain ⟨hr, him2, -, hrle⟩ := readSection_ok hramdisk
  obtain ⟨h1, h2, h3⟩ := extractSecond_ok hf hsecond
  -- No read has changed the file, so all sections are slices of it.
  rw [him1] at him2 hr hrle
  rw [hf.toNat_offsets.1] at hr hrle
  rw [him2] at h1
  rw [him] at hk hr h1 hkle hrle
  have hsize := ((checkBootImgHeader_iff hf).mp hcheck).2.2.2
  rw [himg] at hsize
  refine ⟨?_, ?_, ?_, ?_, h1, h2, h3, by rw [himg]; exact hsize⟩
  · exact hk ▸ stored_slice _ _ _
  · rw [hk]
    exact length_slice_of_le hkle
  · exact hr ▸ stored_slice _ _ _
  · rw [hr]
    exact length_slice_of_le hrle

end

end AmlogicToolkit.Boot
