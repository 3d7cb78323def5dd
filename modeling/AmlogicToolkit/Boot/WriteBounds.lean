import AmlogicToolkit.Boot.Update

/-!
# Where an image is written

`write_bootimg` is a list of seeks and writes, with the lengths of the padding as exact numbers
(`writeCalls`): running the list is what the function does (`writeBootimg_eq_runCalls`), and no byte
outside the ranges of its writes is changed, also behind the image (`runCalls_outside`). The padding of
a section that fills its last page is a whole page, so that the last one can end behind the image. The
writes stay inside when the page holds the header, the image ends below `2^32` and the last padding
ends inside; when the image does end below `2^32` or the kernel is loaded, only then
(`staysInside_iff`).
-/

namespace AmlogicToolkit.Boot

open Bytes Stdio

/-! ## The calls -/

/-- What `write_bootimg` does with its stream. -/
inductive WriteCall where
  /-- `fseek` to an offset. -/
  | seek (offset : ℕ)
  /-- `fwrite` of `size` bytes of a buffer, which can be a null pointer. -/
  | data (buf : Option (List UInt8)) (size : ℕ)
  /-- `fwrite` of `size` bytes of padding. The size is the exact difference: a negative one is a huge
  `size_t`. -/
  | padding (size : ℤ)

/-- What a call does, when there is a page of padding. -/
def WriteCall.run (psize : UInt32) : WriteCall → Stream → Except Stop Stream
  | .seek offset, stream => .ok (stream.fseek offset)
  | .data none _, _ => .error .nullPointer
  | .data (some buf) size, stream => writeBuffer stream buf size
  | .padding size, stream =>
    if size < 0 then .error .outOfBounds
    else writeBuffer stream (List.replicate psize.toNat 0) size.toNat

/-- Calls are made one after the other, on the stream that the one before has left. -/
def runCalls (psize : UInt32) (calls : List WriteCall) (stream : Stream) : Except Stop Stream :=
  calls.foldlM (fun stream call => call.run psize stream) stream

/-- A section and its padding, `psize - size % psize`. -/
def sectionCalls (buf : Option (List UInt8)) (size psize : UInt32) : List WriteCall :=
  [.data buf size.toNat, .padding (psize.toNat - (size.toNat % psize.toNat : ℕ))]

/-- **The calls of `write_bootimg`**, in order. The kernel stands behind the header and its padding,
and the others where `fseek` goes. -/
def writeCalls (img : Abootimg) : List WriteCall :=
  let h := img.header
  [.seek 0, .data (some h.encode) BOOT_HEADER_SIZE,
    .padding (h.page_size.toNat - BOOT_HEADER_SIZE)] ++
    ((if img.kernel.isSome then sectionCalls img.kernel h.kernel_size h.page_size else []) ++
    ((if img.ramdisk.isSome then
      .seek (roffset h).toNat :: sectionCalls img.ramdisk h.ramdisk_size h.page_size else []) ++
    (if h.second_size ≠ 0 then
      .seek (soffset h).toNat :: sectionCalls img.second h.second_size h.page_size else [])))

/-- The start and the end of every write, from a position of the stream on. -/
def ranges : List WriteCall → ℕ → List (ℕ × ℕ)
  | [], _ => []
  | .seek offset :: calls, _ => ranges calls offset
  | .data _ size :: calls, pos => (pos, pos + size) :: ranges calls (pos + size)
  | .padding size :: calls, pos => (pos, pos + size.toNat) :: ranges calls (pos + size.toNat)

/-- Where the header and the sections lie, written or kept. -/
def sectionRanges (img : Abootimg) : List (ℕ × ℕ) :=
  let h := img.header
  [(0, BOOT_HEADER_SIZE), (h.page, h.page + h.kernel_size.toNat),
    ((roffset h).toNat, (roffset h).toNat + h.ramdisk_size.toNat),
    ((soffset h).toNat, (soffset h).toNat + h.second_size.toNat)]

/-- No byte lies in both ranges. -/
def ShareNothing (p q : ℕ × ℕ) : Prop := ∀ x, p.1 ≤ x → x < p.2 → q.1 ≤ x → q.2 ≤ x

/-- **The writes stay inside the image**: all data and all padding, no padding is negative or larger
than a page, and no two of the header and the sections share a byte. -/
structure StaysInside (img : Abootimg) : Prop where
  /-- The writes. -/
  inside : ∀ r ∈ ranges (writeCalls img) 0, r.2 ≤ img.size.toNat
  /-- The lengths of the padding. -/
  padding : ∀ size : ℤ, .padding size ∈ writeCalls img →
    0 ≤ size ∧ size ≤ img.header.page_size.toNat
  /-- The header and the sections. -/
  disjoint : (sectionRanges img).Pairwise ShareNothing

section

variable {img img' : Abootimg} {s s' : Stream} {buf : List UInt8} {size psize : UInt32}
  {fs : Files} {calls calls' : List WriteCall}

/-! ## Running the calls -/

/-- Two lists of calls in a row are made one after the other. -/
theorem runCalls_append : runCalls psize (calls ++ calls') s =
    (runCalls psize calls s).bind (runCalls psize calls') := List.foldlM_append

/-- The padding of a section in 32 bits is the exact difference. -/
theorem toNat_padding (size : UInt32) (hp : psize ≠ 0) :
    (psize - size % psize).toNat = psize.toNat - size.toNat % psize.toNat := by
  have hmod := Nat.mod_lt size.toNat (toNat_pos_of_ne_zero hp)
  rw [UInt32.toNat_sub_of_le, UInt32.toNat_mod]
  rw [UInt32.le_iff_toNat_le, UInt32.toNat_mod]
  omega

/-- The calls for a section do what `write_section` does. -/
theorem runCalls_sectionCalls (hp : psize ≠ 0) :
    runCalls psize (sectionCalls (some buf) size psize) s = writeSection s buf size psize := by
  have hmod := Nat.mod_lt size.toNat (toNat_pos_of_ne_zero hp)
  have hpad : ¬ (psize.toNat : ℤ) - (size.toNat % psize.toNat : ℕ) < 0 := by omega
  have hsize : ((psize.toNat : ℤ) - (size.toNat % psize.toNat : ℕ)).toNat =
      (psize - size % psize).toNat := by
    rw [toNat_padding size hp]
    omega
  simp only [runCalls, sectionCalls, List.foldlM_cons, List.foldlM_nil, WriteCall.run, if_neg hpad,
    hsize, writeSection, bind_pure]

/-- The calls for the header do what `write_header` does. -/
theorem runCalls_header : runCalls img.header.page_size
    [.seek 0, .data (some img.header.encode) BOOT_HEADER_SIZE,
      .padding (img.header.page_size.toNat - BOOT_HEADER_SIZE)] s = writeHeader img s := by
  have hdata : writeBuffer (s.fseek 0) img.header.encode BOOT_HEADER_SIZE =
      .ok ((s.fseek 0).fwrite img.header.encode) := by
    unfold writeBuffer
    rw [if_neg (by rw [BootImgHdr.length_encode]; exact lt_irrefl _),
      List.take_of_length_le (BootImgHdr.length_encode _).le]
  simp only [runCalls, List.foldlM_cons, List.foldlM_nil, WriteCall.run, bind_pure]
  unfold writeHeader
  dsimp only [bind, Except.bind]
  rw [hdata]
  dsimp only
  by_cases hlt : img.header.page_size.toNat < BOOT_HEADER_SIZE
  · rw [if_pos hlt, if_pos (by omega)]
  · rw [if_neg hlt, if_neg (by omega), Int.toNat_sub]

/-- **`write_bootimg` runs its calls**, and cuts the file. -/
theorem writeBootimg_eq_runCalls (held : ℕ) (hp : img.header.page_size ≠ 0) :
    writeBootimg held img s = (runCalls img.header.page_size (writeCalls img) s).map
      fun stream => (stream.ftruncate held img.size.toNat).flush := by
  -- Each of the three sections is written by its calls, or not at all, as the source branches.
  have hkernel : ∀ t, runCalls img.header.page_size (if img.kernel.isSome then
      sectionCalls img.kernel img.header.kernel_size img.header.page_size else []) t =
        writeKernel img t := by
    intro t
    unfold writeKernel
    cases img.kernel with
    | none => rfl
    | some k => exact runCalls_sectionCalls hp
  have hramdisk : ∀ t, runCalls img.header.page_size (if img.ramdisk.isSome then
      .seek (roffset img.header).toNat ::
        sectionCalls img.ramdisk img.header.ramdisk_size img.header.page_size else []) t =
          writeRamdisk img t := by
    intro t
    unfold writeRamdisk
    cases img.ramdisk with
    | none => rfl
    | some r => exact @runCalls_sectionCalls (t.fseek (roffset img.header).toNat) r _ _ hp
  have hsecond : ∀ t, runCalls img.header.page_size (if img.header.second_size ≠ 0 then
      .seek (soffset img.header).toNat ::
        sectionCalls img.second img.header.second_size img.header.page_size else []) t =
          writeSecond img t := by
    intro t
    unfold writeSecond
    by_cases h0 : img.header.second_size = 0
    · simp only [h0, ne_eq, not_true_eq_false, if_false]
      rfl
    · simp only [h0, ne_eq, not_false_eq_true, if_true]
      cases img.second with
      | none => rfl
      | some b => exact @runCalls_sectionCalls (t.fseek (soffset img.header).toNat) b _ _ hp
  -- What the calls are after is the order: header, kernel, ramdisk, second stage.
  unfold writeBootimg writeCalls
  dsimp only
  rw [if_neg hp, runCalls_append, runCalls_header]
  cases writeHeader img s with
  | error e => rfl
  | ok s1 =>
    simp only [bind, Except.bind, runCalls_append, hkernel]
    cases writeKernel img s1 with
    | error e => rfl
    | ok s2 =>
      simp only [hramdisk]
      cases writeRamdisk img s2 with
      | error e => rfl
      | ok s3 =>
        simp only [hsecond]
        cases writeSecond img s3 <;> rfl

/-- Bytes outside a range are kept, and the stream stands behind it. -/
structure WritesIn (s s' : Stream) (off len : ℕ) : Prop where
  /-- What lies elsewhere. -/
  outside : ∀ p, p < off ∨ off + len ≤ p → s'.image.getD p 0 = s.image.getD p 0
  /-- The position. -/
  tell : s'.tell = off + len

/-- A write goes to where the stream stands. -/
theorem writesIn_writeBuffer {n : ℕ} (h : writeBuffer s buf n = .ok s') : WritesIn s s' s.tell n := by
  unfold writeBuffer at h
  split_ifs at h with hlen
  cases h
  have htake : (buf.take n).length = n := List.length_take_of_le (Nat.not_lt.mp hlen)
  constructor
  · intro p hp
    rw [Stream.image_fwrite, getD_overwrite, if_neg (by omega)]
  · rw [Stream.tell_fwrite, htake]

/-- **Nothing else is changed**: a byte that is in no range of the calls is kept. -/
theorem runCalls_outside (h : runCalls psize calls s = .ok s') {p : ℕ}
    (hp : ∀ r ∈ ranges calls s.tell, p < r.1 ∨ r.2 ≤ p) :
    s'.image.getD p 0 = s.image.getD p 0 := by
  induction calls generalizing s with
  | nil =>
    cases h
    rfl
  | cons call calls ih =>
    unfold runCalls at h
    rw [List.foldlM_cons] at h
    obtain ⟨s1, hcall, h⟩ := Except.bind_ok_iff.mp h
    -- A call that writes at the position keeps the byte, and leaves the rest of the ranges.
    have hwrite : ∀ {n}, ranges (call :: calls) s.tell = (s.tell, s.tell + n) ::
        ranges calls (s.tell + n) → WritesIn s s1 s.tell n →
          s'.image.getD p 0 = s.image.getD p 0 := by
      intro n hranges hw
      rw [hranges, List.forall_mem_cons] at hp
      obtain ⟨hout, hrest⟩ := hp
      rw [ih h (hw.tell.symm ▸ hrest), hw.outside p hout]
    cases call with
    | seek offset =>
      cases hcall
      exact @ih (s.fseek offset) h hp
    | data buf size =>
      cases buf with
      | none => cases hcall
      | some buf => exact hwrite rfl (writesIn_writeBuffer hcall)
    | padding size =>
      simp only [WriteCall.run] at hcall
      split_ifs at hcall
      exact hwrite rfl (writesIn_writeBuffer hcall)

/-! ## The ranges -/

/-- The ranges of calls behind others. The position matters only to a write without a seek. -/
theorem ranges_append (calls calls' : List WriteCall) (pos : ℕ) :
    ∃ pos', ranges (calls ++ calls') pos = ranges calls pos ++ ranges calls' pos' := by
  induction calls generalizing pos with
  | nil => exact ⟨pos, rfl⟩
  | cons call calls ih =>
    cases call with
    | seek offset => exact ih offset
    | data buf size =>
      obtain ⟨pos', h⟩ := ih (pos + size)
      exact ⟨pos', congrArg _ h⟩
    | padding size =>
      obtain ⟨pos', h⟩ := ih (pos + size.toNat)
      exact ⟨pos', congrArg _ h⟩

/-- A section ends with its padding. -/
theorem sectionCalls_inside (buf : Option (List UInt8)) {pos n : ℕ} (hp : psize ≠ 0) :
    (∀ r ∈ ranges (sectionCalls buf size psize) pos, r.2 ≤ n) ↔
      pos + (size.toNat + (psize.toNat - size.toNat % psize.toNat)) ≤ n := by
  have hmod := Nat.mod_lt size.toNat (toNat_pos_of_ne_zero hp)
  simp only [sectionCalls, ranges, List.forall_mem_cons, List.not_mem_nil, IsEmpty.forall_iff,
    implies_true, and_true]
  omega

/-- Its padding has a byte at least and a page at most. -/
theorem sectionCalls_padding {buf : Option (List UInt8)} (hp : psize ≠ 0) {z : ℤ}
    (h : .padding z ∈ sectionCalls buf size psize) : 0 ≤ z ∧ z ≤ psize.toNat := by
  have hmod := Nat.mod_lt size.toNat (toNat_pos_of_ne_zero hp)
  simp only [sectionCalls, List.mem_cons, reduceCtorEq, WriteCall.padding.injEq, List.not_mem_nil,
    or_false, false_or] at h
  omega

/-- The ranges of calls that may be left out. -/
theorem ranges_ite_inside {P Q : Prop} [Decidable P] {pos n : ℕ}
    (h : (∀ r ∈ ranges calls pos, r.2 ≤ n) ↔ Q) :
    (∀ r ∈ ranges (if P then calls else []) pos, r.2 ≤ n) ↔ (P → Q) := by
  by_cases hP : P
  · rw [if_pos hP, h]
    exact (true_imp_iff.symm.trans (imp_congr_left (iff_true_intro hP).symm))
  · rw [if_neg hP]
    exact iff_of_true (fun _ hr => nomatch hr) fun h => absurd h hP

/-- Calls that may be left out have padding within the bounds of those that are made. -/
theorem ite_padding {P : Prop} [Decidable P] {n : ℤ}
    (h : ∀ z : ℤ, .padding z ∈ calls → 0 ≤ z ∧ z ≤ n) :
    ∀ z : ℤ, .padding z ∈ (if P then calls else []) → 0 ≤ z ∧ z ≤ n := by
  intro z hz
  split_ifs at hz
  · exact h z hz
  · cases hz

/-- **The ranges as numbers**: the page holds the header, and it and the sections that are loaded end
inside the image with their padding. -/
theorem staysInside_iff_ends (hp : img.header.page_size ≠ 0) : StaysInside img ↔
    (BOOT_HEADER_SIZE ≤ img.header.page ∧ img.header.page ≤ img.size.toNat) ∧
    (img.kernel.isSome → img.header.page + (img.header.kernel_size.toNat +
      (img.header.page - img.header.kernel_size.toNat % img.header.page)) ≤ img.size.toNat) ∧
    (img.ramdisk.isSome → (roffset img.header).toNat + (img.header.ramdisk_size.toNat +
      (img.header.page - img.header.ramdisk_size.toNat % img.header.page)) ≤ img.size.toNat) ∧
    (img.header.second_size ≠ 0 → (soffset img.header).toNat + (img.header.second_size.toNat +
      (img.header.page - img.header.second_size.toNat % img.header.page)) ≤ img.size.toNat) ∧
    (sectionRanges img).Pairwise ShareNothing := by
  -- The calls for the parts that may be left out.
  obtain ⟨k, hk⟩ : ∃ k, k = if img.kernel.isSome then
    sectionCalls img.kernel img.header.kernel_size img.header.page_size else [] := ⟨_, rfl⟩
  obtain ⟨r, hr⟩ : ∃ r, r = if img.ramdisk.isSome then .seek (roffset img.header).toNat ::
    sectionCalls img.ramdisk img.header.ramdisk_size img.header.page_size else [] := ⟨_, rfl⟩
  obtain ⟨x, hx⟩ : ∃ x, x = if img.header.second_size ≠ 0 then .seek (soffset img.header).toNat ::
    sectionCalls img.second img.header.second_size img.header.page_size else [] := ⟨_, rfl⟩
  have hcalls : writeCalls img = [.seek 0, .data (some img.header.encode) BOOT_HEADER_SIZE,
      .padding (img.header.page_size.toNat - BOOT_HEADER_SIZE)] ++ (k ++ (r ++ x)) := by
    rw [hk, hr, hx]
    rfl
  -- The padding of the header is a difference of its own; no other one is negative.
  have hseek : ∀ {off : ℕ} {buf : Option (List UInt8)} {size : UInt32} (z : ℤ),
      .padding z ∈ WriteCall.seek off :: sectionCalls buf size img.header.page_size →
        0 ≤ z ∧ z ≤ img.header.page_size.toNat := fun z hz =>
    sectionCalls_padding hp ((List.mem_cons.mp hz).resolve_left (by simp))
  have hpad : (∀ z : ℤ, .padding z ∈ writeCalls img → 0 ≤ z ∧ z ≤ img.header.page_size.toNat) ↔
      BOOT_HEADER_SIZE ≤ img.header.page := by
    rw [hcalls]
    constructor
    · intro h
      have := (h (img.header.page_size.toNat - BOOT_HEADER_SIZE) (by simp)).1
      exact Int.ofNat_le.mp (Int.sub_nonneg.mp this)
    · intro hpage z hz
      rw [List.mem_append, List.mem_append, List.mem_append] at hz
      rcases hz with hz | hz | hz | hz
      · have hpage' : BOOT_HEADER_SIZE ≤ img.header.page_size.toNat := hpage
        simp only [List.mem_cons, reduceCtorEq, WriteCall.padding.injEq, List.not_mem_nil, or_false,
          false_or] at hz
        omega
      · exact ite_padding (fun z hz => sectionCalls_padding hp hz) z (hk ▸ hz)
      · exact ite_padding hseek z (hr ▸ hz)
      · exact ite_padding hseek z (hx ▸ hz)
  have hinside (hpage : BOOT_HEADER_SIZE ≤ img.header.page) :
      (∀ q ∈ ranges (writeCalls img) 0, q.2 ≤ img.size.toNat) ↔
        img.header.page ≤ img.size.toNat ∧
        (img.kernel.isSome → img.header.page + (img.header.kernel_size.toNat +
          (img.header.page - img.header.kernel_size.toNat % img.header.page)) ≤ img.size.toNat) ∧
        (img.ramdisk.isSome → (roffset img.header).toNat + (img.header.ramdisk_size.toNat +
          (img.header.page - img.header.ramdisk_size.toNat % img.header.page)) ≤ img.size.toNat) ∧
        (img.header.second_size ≠ 0 → (soffset img.header).toNat + (img.header.second_size.toNat +
          (img.header.page - img.header.second_size.toNat % img.header.page)) ≤ img.size.toNat) := by
    have hstop : 0 + BOOT_HEADER_SIZE +
        ((img.header.page_size.toNat : ℤ) - BOOT_HEADER_SIZE).toNat = img.header.page := by
      rw [Int.toNat_sub, Nat.zero_add]
      exact Nat.add_sub_cancel' hpage
    have hranges : ranges (writeCalls img) 0 = (0, 0 + BOOT_HEADER_SIZE) ::
        (0 + BOOT_HEADER_SIZE, img.header.page) :: ranges (k ++ (r ++ x)) img.header.page := by
      rw [hcalls, ← hstop]
      rfl
    obtain ⟨p1, h1⟩ := ranges_append k (r ++ x) img.header.page
    obtain ⟨p2, h2⟩ := ranges_append r x p1
    rw [hranges, h1, h2, List.forall_mem_cons, List.forall_mem_cons, List.forall_mem_append,
      List.forall_mem_append, hk, hr, hx, Nat.zero_add]
    refine (and_congr_right fun _ => and_congr_right fun _ => and_congr ?_ (and_congr ?_ ?_)).trans
      (and_iff_right_of_imp fun h => hpage.trans h.1)
    · exact ranges_ite_inside (sectionCalls_inside img.kernel hp)
    · exact ranges_ite_inside (sectionCalls_inside img.ramdisk hp)
    · exact ranges_ite_inside (sectionCalls_inside img.second hp)
  constructor
  · rintro ⟨h1, h2, h3⟩
    have hpage := hpad.mp h2
    obtain ⟨h4, h5, h6, h7⟩ := (hinside hpage).mp h1
    exact ⟨⟨hpage, h4⟩, h5, h6, h7, h3⟩
  · rintro ⟨⟨hpage, h4⟩, h5, h6, h7, h3⟩
    exact ⟨(hinside hpage).mpr ⟨h4, h5, h6, h7⟩, hpad.mpr hpage, h3⟩

/-! ## What is written after `update_images` -/

/-- What `update_images` leaves of an image that had no buffers. -/
structure Prepared (img : Abootimg) : Prop where
  /-- A page is not empty. -/
  page_size : img.header.page_size ≠ 0
  /-- The ramdisk is loaded with the kernel. -/
  copied : img.kernel.isSome → img.ramdisk.isSome
  /-- A kernel that is loaded is not empty. -/
  kernel_size : img.kernel.isSome → img.header.kernel_size ≠ 0
  /-- Nor is a ramdisk. -/
  ramdisk_size : img.ramdisk.isSome → img.header.ramdisk_size ≠ 0
  /-- The size of the image, as far as it has not wrapped. -/
  size : (1 + pages img.header.kernel_size img.header.page_size +
    pages img.header.ramdisk_size img.header.page_size +
    pages img.header.second_size img.header.page_size) * img.header.page_size ≤ img.size

/-- An update that went through has left a page size that is not zero. -/
theorem updateImages_page_size {r : Abootimg × Stream} (h : updateImages fs img s = .ok r) :
    img.header.page_size ≠ 0 := by
  intro hz
  unfold updateImages at h
  simp only [if_pos hz] at h
  cases h

/-- **After `update_images`** an image that had nothing loaded is prepared for `write_bootimg`. -/
theorem updateImages_prepared (hkernel : img.kernel = none) (hramdisk : img.ramdisk = none)
    (h : updateImages fs img s = .ok (img', s')) : Prepared img' := by
  have hpage := updateImages_page_size h
  obtain ⟨img1, img2, s2, img3, h1, h2, h3, h4⟩ := updateImages_stages h
  -- The kernel.
  have hk : img1.header.page_size ≠ 0 ∧ img1.ramdisk = none ∧
      img1.header.ramdisk_size = img.header.ramdisk_size ∧
      (img1.kernel.isSome → img1.header.kernel_size ≠ 0) := by
    rcases updateKernel_ok h1 with ⟨fname, size, buf, -, hload, rfl⟩ | ⟨-, rfl⟩
    · obtain ⟨-, -, -, -, -, h0⟩ := loadFile_ok hload
      exact ⟨hpage, hramdisk, rfl, fun _ => h0⟩
    · exact ⟨hpage, hramdisk, rfl, fun hk => by rw [hkernel] at hk; cases hk⟩
  -- The ramdisk.
  obtain ⟨hpage1, hramdisk1, hsize1, hkernel1⟩ := hk
  have hr : img2.header.page_size ≠ 0 ∧ (img2.kernel.isSome → img2.ramdisk.isSome) ∧
      (img2.kernel.isSome → img2.header.kernel_size ≠ 0) ∧
      (img2.ramdisk.isSome → img2.header.ramdisk_size ≠ 0) := by
    rcases (updateRamdisk_ok h2).2 with ⟨fname, size, buf, -, hload, rfl⟩ | ⟨-, -, h0, -, rfl⟩ |
      ⟨-, hnone, rfl⟩
    · obtain ⟨-, -, -, -, -, h0⟩ := loadFile_ok hload
      exact ⟨hpage1, fun _ => rfl, hkernel1, fun _ => h0⟩
    · refine ⟨hpage1, fun _ => rfl, hkernel1, fun _ hz => ?_⟩
      rw [← hsize1] at h0
      exact absurd h0 (by rw [show img1.header.ramdisk_size = 0 from hz]; decide)
    · refine ⟨hpage1, fun hk => ?_, hkernel1, fun hr => ?_⟩
      · rw [hnone] at hk
        cases hk
      · rw [hramdisk1] at hr
        cases hr
  obtain ⟨hpage2, hcopied, hkernel2, hramdisk2⟩ := hr
  -- The second stage changes neither of them, and the size of the image is set last.
  have hs : img3.header.page_size ≠ 0 ∧ (img3.kernel.isSome → img3.ramdisk.isSome) ∧
      (img3.kernel.isSome → img3.header.kernel_size ≠ 0) ∧
      (img3.ramdisk.isSome → img3.header.ramdisk_size ≠ 0) := by
    rcases (updateSecond_ok h3).2 with ⟨_, _, _, -, -, rfl⟩ | ⟨-, -, -, rfl⟩ | ⟨-, -, rfl⟩ <;>
      exact ⟨hpage2, hcopied, hkernel2, hramdisk2⟩
  obtain ⟨hpage3, hcopied3, hkernel3, hramdisk3⟩ := hs
  obtain ⟨heq, hsize⟩ := updateSize_ok h4
  rw [heq]
  exact ⟨hpage3, hcopied3, hkernel3, hramdisk3, hsize⟩

/-! ## When they stay inside -/

/-- The last padding ends inside the image: when the last section that is written fills its pages,
there is another page behind them. -/
def LastPageInside (img : Abootimg) : Prop :=
  FullLast img.header img.ramdisk.isSome →
    img.header.totalSize + img.header.page ≤ img.size.toNat

/-- A section and its padding have a page at least, and a page more than the section at most. -/
theorem padded_bounds {page : ℕ} (hp : 0 < page) (size : ℕ) :
    page ≤ size + (page - size % page) ∧
      pageCount size page * page ≤ size + (page - size % page) ∧
      size + (page - size % page) ≤ pageCount size page * page + page := by
  have heq := @padded_eq size page hp
  have hmod := Nat.mod_le size page
  have hlt := Nat.mod_lt size hp
  split_ifs at heq <;> omega

/-- The sections of an image below `2^32` that stand behind a header that the page holds share no
byte. -/
theorem sectionRanges_disjoint (hf : img.header.Fits) (hpage : BOOT_HEADER_SIZE ≤ img.header.page) :
    (sectionRanges img).Pairwise ShareNothing := by
  obtain ⟨hroffset, hsoffset, -⟩ := hf.toNat_offsets
  obtain ⟨hend1, hend2, -⟩ := hf.sections
  obtain ⟨ho1, ho2, -⟩ := img.header.offsets
  have hroff : (roffset img.header).toNat = img.header.ramdiskOffset := hroffset
  have hsoff : (soffset img.header).toNat = img.header.secondOffset := hsoffset
  have hbefore : ∀ {a b c d : ℕ}, b ≤ c → ShareNothing (a, b) (c, d) := fun h x _ hlt hle =>
    absurd (h.trans hle) (Nat.not_le.mpr hlt)
  rw [sectionRanges, hroff, hsoff]
  simp only [List.pairwise_cons, List.forall_mem_cons, List.not_mem_nil, IsEmpty.forall_iff,
    implies_true, List.Pairwise.nil, and_true]
  exact ⟨⟨hbefore hpage, hbefore (by omega), hbefore (by omega)⟩,
    ⟨hbefore hend1, hbefore (by omega)⟩, hbefore hend2⟩

/-- **What keeps the writes inside** the image. -/
structure HasRoom (img : Abootimg) : Prop where
  /-- A page holds the header. -/
  page : BOOT_HEADER_SIZE ≤ img.header.page
  /-- The image ends below `2^32`. -/
  fits : img.header.Fits
  /-- The last padding ends inside. -/
  last : LastPageInside img

/-- **An image below `2^32`** is written inside itself exactly when a page holds the header and the
last padding ends inside. -/
theorem Prepared.staysInside_iff_hasRoom (hp : Prepared img) (hf : img.header.Fits) :
    StaysInside img ↔ HasRoom img := by
  have hpos := hf.page_pos
  obtain ⟨hroffset, hsoffset, htotal⟩ := hf.toNat_offsets
  have hsize : img.header.totalSize ≤ img.size.toNat := by
    have hle := UInt32.le_iff_toNat_le.mp hp.size
    rwa [htotal] at hle
  obtain ⟨ho1, ho2, ho3⟩ := img.header.offsets
  obtain ⟨hk1, hk2, hk3⟩ := padded_bounds hpos img.header.kernel_size.toNat
  obtain ⟨hr1, hr2, hr3⟩ := padded_bounds hpos img.header.ramdisk_size.toNat
  obtain ⟨hs1, hs2, hs3⟩ := padded_bounds hpos img.header.second_size.toNat
  have hroff : (roffset img.header).toNat = img.header.ramdiskOffset := hroffset
  have hsoff : (soffset img.header).toNat = img.header.secondOffset := hsoffset
  -- The last padding ends inside exactly when the last write does.
  have hlast : LastPageInside img ↔ img.writtenEnd ≤ img.size.toNat := by
    obtain ⟨hfull, hnot⟩ := @writtenEnd_spec img hpos
    unfold LastPageInside
    by_cases h : FullLast img.header img.ramdisk.isSome
    · rw [hfull h]
      exact ⟨fun hle => hle h, fun hle _ => hle⟩
    · have := hnot h
      exact iff_of_true (fun h' => absurd h' h) (by omega)
  rw [staysInside_iff_ends hp.page_size, hroff, hsoff]
  constructor
  · rintro ⟨⟨hpage, hpagele⟩, -, hramdisk, hsecond, -⟩
    refine ⟨hpage, hf, hlast.mpr ?_⟩
    unfold Abootimg.writtenEnd
    dsimp only
    split_ifs with h0 hr
    · exact hsecond h0
    · exact hramdisk hr
    · exact hpagele
  · rintro ⟨hpage, -, hend⟩
    rw [hlast] at hend
    unfold Abootimg.writtenEnd at hend
    dsimp only at hend
    refine ⟨⟨hpage, by omega⟩, fun hk => ?_, fun hr => ?_, fun h0 => ?_,
      sectionRanges_disjoint hf hpage⟩
    · -- The padding of the kernel ends where the last section does, or before.
      have hr := hp.copied hk
      rw [if_pos hr] at hend
      split_ifs at hend with h0 <;> omega
    · rw [if_pos hr] at hend
      split_ifs at hend with h0 <;> omega
    · rw [if_pos h0] at hend
      exact hend

/-- **With a kernel**, an image that is written inside itself ends below `2^32`: every section that
ends inside puts the next one where it belongs. -/
theorem Prepared.fits_of_staysInside (hp : Prepared img) (hk : img.kernel.isSome)
    (h : StaysInside img) : img.header.Fits := by
  have hpos : 0 < img.header.page :=
    toNat_pos_of_ne_zero hp.page_size
  have hlt := img.size.toNat_lt
  obtain ⟨-, hkernel, hramdisk, hsecond, -⟩ := (staysInside_iff_ends hp.page_size).mp h
  obtain ⟨ho1, ho2, ho3⟩ := img.header.offsets
  obtain ⟨-, hk2, -⟩ := padded_bounds hpos img.header.kernel_size.toNat
  obtain ⟨-, hr2, -⟩ := padded_bounds hpos img.header.ramdisk_size.toNat
  obtain ⟨-, hs2, -⟩ := padded_bounds hpos img.header.second_size.toNat
  have hr := hramdisk (hp.copied hk)
  have hk := hkernel hk
  -- The kernel ends inside the image, so its pages have not wrapped, and the next offset is exact.
  have hroff : (roffset img.header).toNat = img.header.ramdiskOffset :=
    BootImgHdr.toNat_ramdiskOffset hp.page_size (by omega)
  rw [hroff] at hr
  have hsoff : (soffset img.header).toNat = img.header.secondOffset :=
    BootImgHdr.toNat_secondOffset hp.page_size (by omega)
  refine ⟨hp.page_size, ?_⟩
  by_cases h0 : img.header.second_size = 0
  · rw [h0, UInt32.toNat_zero, pageCount_zero hpos] at ho3
    omega
  · have hs := hsecond h0
    rw [hsoff] at hs
    omega

/-- **`write_bootimg` stays inside the image** that `update_images` has prepared when a page holds the
header, the image ends below `2^32` and the last padding ends inside; and only then, when the image
does end below `2^32` or its kernel is loaded. The calls that are looked at are what the function
runs, and nothing else is changed. -/
theorem staysInside_iff (hkernel : img.kernel = none) (hramdisk : img.ramdisk = none)
    (h : updateImages fs img s = .ok (img', s')) :
    ((∀ held t, writeBootimg held img' t =
        (runCalls img'.header.page_size (writeCalls img') t).map
          fun stream => (stream.ftruncate held img'.size.toNat).flush) ∧
      ∀ t t', runCalls img'.header.page_size (writeCalls img') t = .ok t' →
        ∀ p, (∀ r ∈ ranges (writeCalls img') 0, p < r.1 ∨ r.2 ≤ p) →
          t'.image.getD p 0 = t.image.getD p 0) ∧
    (HasRoom img' → StaysInside img') ∧
    (img'.header.Fits ∨ img'.kernel.isSome → StaysInside img' → HasRoom img') := by
  have hp := updateImages_prepared hkernel hramdisk h
  refine ⟨⟨fun held t => writeBootimg_eq_runCalls held hp.page_size,
    fun t t' hrun p hout => runCalls_outside hrun hout⟩, fun hroom =>
      (hp.staysInside_iff_hasRoom hroom.fits).mpr hroom, fun hcase hs => ?_⟩
  have hf : img'.header.Fits := hcase.elim id fun hk => hp.fits_of_staysInside hk hs
  exact (hp.staysInside_iff_hasRoom hf).mp hs

/-- The options of `--create` for a kernel and a ramdisk. -/
def twoSectionArgs : Abootimg := createArgs "boot.img" none "zImage" "initrd.img" none

/-- Sections that do not fill their pages. -/
theorem smallFiles_pack : PackInput smallFiles twoSectionArgs [1, 2, 3] [4, 5] none :=
  ⟨⟨_, rfl, rfl⟩, ⟨_, rfl, rfl⟩, rfl, by decide, by decide, by decide, by decide, by decide,
    Or.inl rfl⟩

/-- Two small files packed into an image of their own stay inside it. -/
theorem staysInside_smallFiles : StaysInside (packImage twoSectionArgs [1, 2, 3] [4, 5] none) :=
  (staysInside_iff (s := Stream.ofFile []) rfl rfl (updateImages_pack smallFiles_pack rfl)).2.1
    ⟨by decide, packHeader_fits rfl (by decide) (by decide), fun hfull => absurd hfull (by decide)⟩

/-- A ramdisk that fills its page is padded with a page behind the image. -/
theorem not_staysInside_of_page {r : List UInt8} (hlen : r.length = 2048)
    (hk : fs "zImage" = some [1]) (hr : fs "initrd.img" = some r) : ∃ img s',
      updateImages fs twoSectionArgs (Stream.ofFile []) = .ok (img, s') ∧
        checkBootImgHeader img = none ∧ ¬ StaysInside img := by
  have hpage : twoSectionArgs.header.page = 2048 := rfl
  -- One page each for the header, the kernel and the ramdisk.
  have hpacked : packedSize twoSectionArgs.header.page [1] r none = 6144 := by
    rw [packedSize, hlen, hpage]
    rfl
  have hne : r ≠ [] := by
    rintro rfl
    cases hlen
  have hi : PackInput fs twoSectionArgs [1] r none :=
    ⟨⟨_, rfl, hk⟩, ⟨_, rfl, hr⟩, rfl, by decide, hne, by decide, by decide, by rw [hpacked]; decide,
      Or.inl rfl⟩
  have hf := packHeader_fits (h := twoSectionArgs.header) rfl hi.page_pos hi.fits
  have hupd := updateImages_pack (s := Stream.ofFile []) hi rfl
  obtain ⟨hk0, hr0⟩ := packHeader_ne_zero hi rfl
  obtain ⟨-, hrsize, -, htotal⟩ := packHeader_sizes (h := twoSectionArgs.header) rfl hi.page_pos
    hi.fits
  refine ⟨_, _, hupd, ?_, fun hs => ?_⟩
  · exact (checkBootImgHeader_iff hf).mpr ⟨rfl, hk0, hr0, packImage_size hi rfl⟩
  · -- The padding of the ramdisk is a page more, and ends at 8192.
    have hlast := (((updateImages_prepared rfl rfl hupd).staysInside_iff_hasRoom hf).mp hs).last
    have h0 : (packHeader twoSectionArgs.header [1] r none).second_size = 0 := rfl
    have hfull : FullLast (packHeader twoSectionArgs.header [1] r none) true := by
      have hpage' : (packHeader twoSectionArgs.header [1] r none).page = 2048 := rfl
      rw [FullLast, if_neg (not_not.mpr h0), hrsize, hlen, hpage']
      exact ⟨rfl, Nat.mod_self 2048⟩
    have hsize : (packImage twoSectionArgs [1] r none).size = 6144 := by
      change UInt32.ofNat (packedSize twoSectionArgs.header.page [1] r none) = 6144
      rw [hpacked]
      rfl
    have hend : (packHeader twoSectionArgs.header [1] r none).totalSize + 2048 ≤
        (packImage twoSectionArgs [1] r none).size.toNat := hlast hfull
    rw [htotal, hpacked, hsize] at hend
    exact absurd hend (by decide)

/-- A kernel of one byte, and a ramdisk of one page. -/
def fullPageFiles : Files := fun fname =>
  if fname = "zImage" then some [1] else if fname = "initrd.img" then some (List.replicate 2048 2)
  else none

/-- A kernel of one byte and a ramdisk of one page are packed into an image that passes the check
and is written behind its own end. -/
theorem full_page_is_padded_behind : ∃ img s',
    updateImages fullPageFiles twoSectionArgs (Stream.ofFile []) = .ok (img, s') ∧
      checkBootImgHeader img = none ∧ ¬ StaysInside img :=
  not_staysInside_of_page List.length_replicate (if_pos rfl)
    ((if_neg (by decide)).trans (if_pos rfl))

end

end AmlogicToolkit.Boot
