import AmlogicToolkit.Simg.Dump

/-!
# Shown images

What it means for a file that `simg_dump.py` shows it without a complaint: it is well-formed when its
last raw chunk is complete and its checksums have no blocks (`dumpFile_wellFormed`), the checksums
that are shown are those of the parts of the expanded image (`dumpFile_hashes`), and it is so for what
`sparse_file_write` writes exactly when the length is a whole number of blocks
(`dumpFile_written_iff`).
-/

namespace AmlogicToolkit.Simg

open Bytes

section

variable {sha1 : List UInt8 → String} {o : DumpOptions} {file : List UInt8} {hdr : SparseHeader}

/-! ## Well-formed files -/

/-- All records stop at the last stop or before it, and it is not in front of the first. -/
theorem le_lastStop (n pos : ℕ) :
    pos ≤ lastStop hdr (records file hdr n pos) pos ∧
      ∀ r ∈ records file hdr n pos, r.stop hdr ≤ lastStop hdr (records file hdr n pos) pos := by
  induction n generalizing pos with
  | zero => exact ⟨le_refl _, fun _ h => nomatch h⟩
  | succ n ih =>
    obtain ⟨h1, h2⟩ := ih ((recordAt file pos).stop hdr)
    have hstart : pos ≤ (recordAt file pos).stop hdr :=
      (Nat.le_add_right _ _).trans (Nat.le_add_right _ _)
    exact ⟨hstart.trans h1, List.forall_mem_cons.mpr ⟨h1, h2⟩⟩

/-- The last record stops in the file, when all of them do. -/
theorem lastStop_le {rs : List Record} {pos : ℕ} (hpos : pos ≤ file.length)
    (h : ∀ r ∈ rs, r.stop hdr ≤ file.length) : lastStop hdr rs pos ≤ file.length := by
  induction rs generalizing pos with
  | nil => exact hpos
  | cons r rs ih =>
    obtain ⟨hr, hrs⟩ := List.forall_mem_cons.mp h
    exact ih hr hrs

/-- The blocks of a checksum are not blocks of the image. -/
theorem Record.Shown.blocks_eq {r : Record} (h : r.Shown file hdr)
    (hcrc : r.header.kind = .crc32 → r.header.chunk_sz = 0) :
    r.header.blocks = r.header.chunk_sz := by
  have hkind := h.kind
  unfold ChunkHeader.blocks
  cases hk : r.header.kind with
  | raw => rfl
  | fill => rfl
  | dontCare => rfl
  | crc32 => exact (hcrc hk).symm
  | unknown => exact absurd hk hkind

/-- The image has all blocks that are counted exactly when no checksum has blocks. -/
theorem totalBlocks_eq_iff {rs : List Record} (h : ∀ r ∈ rs, r.Shown file hdr) :
    totalBlocks rs ≤ shownBlocks rs ∧ (totalBlocks rs = shownBlocks rs ↔
      ∀ r ∈ rs, r.header.kind = .crc32 → r.header.chunk_sz = 0) := by
  induction rs with
  | nil => exact ⟨le_refl _, iff_of_true rfl fun _ h => nomatch h⟩
  | cons r rs ih =>
    obtain ⟨hr, hrs⟩ := List.forall_mem_cons.mp h
    obtain ⟨hle, hiff⟩ := ih hrs
    have htotal : totalBlocks (r :: rs) = r.header.blocks.toNat + totalBlocks rs := rfl
    have hshown : shownBlocks (r :: rs) = r.header.chunk_sz.toNat + shownBlocks rs := rfl
    rw [htotal, hshown, List.forall_mem_cons, ← hiff]
    by_cases hcrc : r.header.kind = .crc32
    · have h0 : r.header.blocks.toNat = 0 := by
        rw [ChunkHeader.blocks, hcrc]
        rfl
      have hzero : r.header.chunk_sz = 0 ↔ r.header.chunk_sz.toNat = 0 := UInt32.toNat_inj.symm
      rw [h0, forall_prop_of_true hcrc, hzero]
      omega
    · rw [hr.blocks_eq fun h => absurd h hcrc, and_iff_right fun h => absurd h hcrc]
      omega

/-- **A file that is shown without a complaint is well-formed** exactly when its last chunk is
complete and its checksums have no blocks. -/
theorem dumpFile_wellFormed (ho : o.output) (h : (dumpFile sha1 o file).Clean) :
    WellFormed file ↔ lastStop (fileHeader file) (fileRecords file) SPARSE_HEADER_LEN ≤ file.length ∧
      ∀ r ∈ fileRecords file, r.header.kind = .crc32 → r.header.chunk_sz = 0 := by
  obtain ⟨hh, hs⟩ := dumpFile_clean_iff.mp h
  have hs := hs ho
  obtain ⟨-, hcrc⟩ := totalBlocks_eq_iff hs.records
  have hsz : (fileHeader file).chunk_hdr_sz.toNat = CHUNK_HEADER_LEN := by
    rw [hh.chunk_hdr_sz]
    rfl
  -- The header counts the blocks of all chunks, so only the checksums' blocks can differ.
  rw [← hcrc, hs.total_blks]
  constructor
  · intro hw
    -- What the grammar asks for, up to the end of the last payload.
    refine ⟨lastStop_le hh.present fun r hr => ?_, hw.total_blks⟩
    have hok := hw.records r hr
    rcases hok.payload with h0 | hle
    · rw [Record.stop, Record.payload, h0, hsz]
      exact hok.present
    · exact hle
  · rintro ⟨hstop, htotal⟩
    refine ⟨⟨hh.present, hh.magic, hh.version.1, ?_, hsz.ge⟩, fun r hr => ?_, htotal⟩
    · rw [hh.file_hdr_sz]
      decide
    · have hr' := hs.records r hr
      rw [hh.fileRecords_eq] at hr hstop
      exact ⟨hr'.present, hr'.kind, hr'.total_sz, .inr (((le_lastStop _ _).2 r hr).trans hstop)⟩

/-- An image of four blocks of four bytes: a raw chunk, two blocks of a fill word, a hole and a
checksum. -/
def shownImage : List UInt8 :=
  SparseHeader.encode ⟨SPARSE_HEADER_MAGIC, 1, 0, 28, 12, 4, 4, 4, 0⟩ ++
    (ChunkHeader.encode ⟨CHUNK_TYPE_RAW, 0, 1, 16⟩ ++ [1, 2, 3, 4]) ++
    (ChunkHeader.encode ⟨CHUNK_TYPE_FILL, 0, 2, 16⟩ ++ [5, 6, 7, 8]) ++
    ChunkHeader.encode ⟨CHUNK_TYPE_DONT_CARE, 0, 1, 12⟩ ++
    (ChunkHeader.encode ⟨CHUNK_TYPE_CRC32, 0, 0, 16⟩ ++ [9, 9, 9, 9])

/-- The checksums of the data in the sample image. -/
def shownSha1 (data : List UInt8) : String :=
  if data = [1, 2, 3, 4] then "12dada1fff4d4787ade3333147202c3b443e376f"
  else if data = [5, 6, 7, 8, 5, 6, 7, 8] then "fa78098bc14c4db70d6b191ccfe31750ac66d6e9"
  else ""

/-- The sample image is well formed exactly when its records end within the file and its checksum
chunk has no blocks. -/
theorem shownImage_wellFormed :
    WellFormed shownImage ↔
      lastStop (fileHeader shownImage) (fileRecords shownImage) SPARSE_HEADER_LEN ≤
        shownImage.length ∧
      ∀ r ∈ fileRecords shownImage, r.header.kind = .crc32 → r.header.chunk_sz = 0 :=
  @dumpFile_wellFormed shownSha1 ⟨0, true, true⟩ shownImage (by decide) (by decide +kernel)

/-- One raw chunk, cut off inside its data. -/
def cutImage : List UInt8 :=
  SparseHeader.encode ⟨SPARSE_HEADER_MAGIC, 1, 0, 28, 12, 4, 1, 1, 0⟩ ++
    (ChunkHeader.encode ⟨CHUNK_TYPE_RAW, 0, 1, 16⟩ ++ [1, 2])

example : (dumpFile shownSha1 ⟨0, true, true⟩ cutImage).Clean ∧ ¬ WellFormed cutImage := by
  decide +kernel

/-! ## The rows -/

/-- The table of a file that is shown without a complaint has a row for each record. -/
theorem dumpFile_rows (hcsv : o.csvfilename = true) (h : (dumpFile sha1 o file).Clean) :
    (dumpFile sha1 o file).rows = .titles ::
      (shownRows sha1 o file (fileHeader file) (fileRecords file) 1 0).map .row := by
  have ho : o.output := .inr (.inl hcsv)
  obtain ⟨hh, hs⟩ := dumpFile_clean_iff.mp h
  obtain ⟨before, titles, -, htitles, heq⟩ := @dumpFile_eq sha1 o file hh ho
  have hspec := @dumpLoop_spec sha1 o file _ hh.chunk_hdr_sz
    (fileHeader file).total_chunks.toNat 1 SPARSE_HEADER_LEN 0
  rw [Nat.min_eq_left hh.present, ← hh.fileRecords_eq, if_pos hcsv] at hspec
  rw [if_pos hcsv] at htitles
  rw [heq, htitles, ← hspec.rows_eq (hs ho).records]
  dsimp only
  rw [hspec.stop_eq (hs ho).records]
  rfl

/-- What a row says of the image that a file is expanded to. -/
structure DumpRow.Describes (sha1 : List UInt8 → String) (file : List UInt8) (bs : ℕ)
    (image : List UInt8) (row : DumpRow) : Prop where
  /-- Raw data is copied. -/
  raw : row.curtype = .raw → slice image (row.offset * bs) (row.chunk_sz.toNat * bs) =
    slice file row.curpos row.data_sz.toNat
  /-- A fill word is repeated. -/
  fill : ∀ v, row.curtype = .fill v → slice image (row.offset * bs) (row.chunk_sz.toNat * bs) =
    cycle (row.chunk_sz.toNat * bs / 4) (le32 v)
  /-- There are zeros where there is no data. -/
  dontCare : row.curtype = .dontCare → slice image (row.offset * bs) (row.chunk_sz.toNat * bs) =
    List.replicate (row.chunk_sz.toNat * bs) 0
  /-- A checksum is no part of the image. -/
  crc32 : ∀ v, row.curtype = .crc32 v → row.chunk_sz = 0
  /-- The checksum is that of the part of the image. -/
  curhash : row.curtype = .raw ∨ (∃ v, row.curtype = .fill v) →
    row.curhash = sha1 (slice image (row.offset * bs) (row.chunk_sz.toNat * bs))

/-- A repetition of repetitions is one repetition. -/
theorem cycle_mul (m n : ℕ) (l : List UInt8) : cycle (m * n) l = cycle m (cycle n l) := by
  induction m with
  | zero => rw [Nat.zero_mul, cycle_zero, cycle_zero]
  | succ m ih => rw [Nat.succ_mul, Nat.add_comm, cycle_add, ih, cycle_succ]

/-- The row of a chunk describes the part of the image that is its content. -/
theorem Record.row_describes {r : Record} (h : r.Ok file hdr) (h4 : hdr.blk_sz.toNat % 4 = 0)
    (hcrc : r.header.kind = .crc32 → r.header.chunk_sz = 0) (hhash : o.showhash = true)
    {i offset : ℕ} {image : List UInt8}
    (himage : slice image (offset * hdr.blk_sz.toNat) (r.header.chunk_sz.toNat * hdr.blk_sz.toNat) =
      r.content file hdr) :
    (r.row sha1 o file hdr i offset).Describes sha1 file hdr.blk_sz.toNat image := by
  have hkind := h.kind
  have hpay := h.payload
  have hpart : slice image ((r.row sha1 o file hdr i offset).offset * hdr.blk_sz.toNat)
      ((r.row sha1 o file hdr i offset).chunk_sz.toNat * hdr.blk_sz.toNat) = r.content file hdr :=
    himage
  -- The hash of a row is taken over what its chunk stands for.
  have hcurhash : r.shownData? file hdr = some (r.content file hdr) →
      (r.row sha1 o file hdr i offset).curhash = sha1 (r.content file hdr) := by
    intro hdata
    refine (if_pos hhash).trans ?_
    rw [hdata]
    rfl
  -- One kind of chunk at a time; a row of one kind is of no other.
  cases hk : r.header.kind with
  | raw =>
    have hsize : r.header.payloadSize hdr.blk_sz = r.header.chunk_sz.toNat * hdr.blk_sz.toNat := by
      rw [ChunkHeader.payloadSize, hk]
    have hcur : r.curType file hdr = .raw := by rw [Record.curType, hk]
    have hcontent : r.content file hdr =
        slice file (r.payload hdr) (r.header.payloadSize hdr.blk_sz) := by
      rw [Record.content, hk, hsize]
    refine ⟨fun _ => ?_, fun v h => CurType.noConfusion (hcur.symm.trans h),
      fun h => CurType.noConfusion (hcur.symm.trans h),
      fun v h => CurType.noConfusion (hcur.symm.trans h), fun _ => ?_⟩
    · rw [hpart, hcontent]
      rfl
    · rw [hpart]
      refine hcurhash ?_
      rw [Record.shownData?, hk, hcontent]
  | fill =>
    have hsize : r.header.payloadSize hdr.blk_sz = 4 := by rw [ChunkHeader.payloadSize, hk]
    have hcur : r.curType file hdr = .fill (r.word file hdr) := by rw [Record.curType, hk]
    have hcontent : r.content file hdr =
        cycle (r.header.chunk_sz.toNat * hdr.blk_sz.toNat / 4) (le32 (r.word file hdr)) := by
      rw [Record.content, hk]
    rw [Record.stop, hsize] at hpay
    have hword : le32 (r.word file hdr) = slice file (r.payload hdr) 4 :=
      le32_read32 (hpay.resolve_left (by decide))
    refine ⟨fun h => CurType.noConfusion (hcur.symm.trans h), fun v h => ?_,
      fun h => CurType.noConfusion (hcur.symm.trans h),
      fun v h => CurType.noConfusion (hcur.symm.trans h), fun _ => ?_⟩
    · obtain rfl : r.word file hdr = v := CurType.fill.inj (hcur.symm.trans h)
      rw [hpart, hcontent]
      rfl
    · rw [hpart]
      refine hcurhash ?_
      rw [Record.shownData?, hk, hcontent, hword, Nat.mul_div_assoc _ (Nat.dvd_of_mod_eq_zero h4),
        cycle_mul]
  -- A gap shows no data, and the image is zero there.
  | dontCare =>
    have hcur : r.curType file hdr = .dontCare := by rw [Record.curType, hk]
    refine ⟨fun h => CurType.noConfusion (hcur.symm.trans h),
      fun v h => CurType.noConfusion (hcur.symm.trans h), fun _ => ?_,
      fun v h => CurType.noConfusion (hcur.symm.trans h), fun h => ?_⟩
    · rw [hpart, Record.content, hk]
      rfl
    · rcases h with h | ⟨v, h⟩ <;> exact CurType.noConfusion (hcur.symm.trans h)
  -- A checksum stands for no block.
  | crc32 =>
    have hcur : r.curType file hdr = .crc32 (r.word file hdr) := by rw [Record.curType, hk]
    refine ⟨fun h => CurType.noConfusion (hcur.symm.trans h),
      fun v h => CurType.noConfusion (hcur.symm.trans h), fun h => CurType.noConfusion (hcur.symm.trans h), fun v _ => hcrc hk, fun h => ?_⟩
    rcases h with h | ⟨v, h⟩ <;> exact CurType.noConfusion (hcur.symm.trans h)
  | unknown => exact absurd hk hkind

/-- The rows of records describe the image that their contents are. -/
theorem shownRows_describe {rs : List Record} (hok : ∀ r ∈ rs, r.Ok file hdr)
    (hne : ∀ r ∈ rs, r.header.kind = .raw ∨ r.header.kind = .fill → r.header.chunk_sz ≠ 0)
    (hbs : 0 < hdr.blk_sz.toNat) (h4 : hdr.blk_sz.toNat % 4 = 0)
    (hblocks : ∀ r ∈ rs, r.header.blocks = r.header.chunk_sz)
    (hcrc : ∀ r ∈ rs, r.header.kind = .crc32 → r.header.chunk_sz = 0) (hhash : o.showhash = true)
    (i : ℕ) {offset : ℕ} {pre : List UInt8} (hpre : pre.length = offset * hdr.blk_sz.toNat) :
    ∀ row ∈ shownRows sha1 o file hdr rs i offset, row.Describes sha1 file hdr.blk_sz.toNat
      (pre ++ rs.flatMap (Record.content file hdr)) := by
  induction rs generalizing i offset pre with
  | nil => exact fun _ h => nomatch h
  | cons r rs ih =>
    obtain ⟨hr, hok⟩ := List.forall_mem_cons.mp hok
    obtain ⟨hner, hne⟩ := List.forall_mem_cons.mp hne
    obtain ⟨hbr, hblocks⟩ := List.forall_mem_cons.mp hblocks
    obtain ⟨hcr, hcrc⟩ := List.forall_mem_cons.mp hcrc
    have hlen := hr.length_content hbs h4 hner
    rw [hbr] at hlen
    rw [List.flatMap_cons]
    refine List.forall_mem_cons.mpr ⟨Record.row_describes hr h4 hcr hhash ?_, ?_⟩
    · rw [← hpre, ← hlen, ← Nat.add_zero pre.length, slice_append_left,
        slice_append_right (Nat.zero_add _).le, slice_self]
    · rw [← List.append_assoc]
      refine ih hok hne hblocks hcrc (i + 1) ?_
      rw [List.length_append, hpre, hlen, Nat.add_mul]

/-- The rows follow one another from block `b` to block `e`. -/
def Tiles : List DumpRow → ℕ → ℕ → Prop
  | [], b, e => b = e
  | row :: rows, b, e => row.offset = b ∧ Tiles rows (b + row.chunk_sz.toNat) e

/-- There is a row for each record, and the rows tile the blocks from one end to the other. -/
theorem shownRows_tile (rs : List Record) (i offset : ℕ) :
    (shownRows sha1 o file hdr rs i offset).length = rs.length ∧
      Tiles (shownRows sha1 o file hdr rs i offset) offset (offset + shownBlocks rs) := by
  induction rs generalizing i offset with
  | nil => exact ⟨rfl, rfl⟩
  | cons r rs ih =>
    obtain ⟨hlen, htiles⟩ := ih (i + 1) (offset + r.header.chunk_sz.toNat)
    rw [Nat.add_assoc] at htiles
    exact ⟨congrArg Nat.succ hlen, rfl, htiles⟩

/-- As many records are read as the header announces. -/
theorem length_records (n pos : ℕ) : (records file hdr n pos).length = n := by
  induction n generalizing pos with
  | zero => rfl
  | succ n ih => exact congrArg Nat.succ (ih _)

/-- **The table describes the image.** When an image is shown with `-s` and `-c` and without a
complaint, the table has a row for each chunk, the rows follow one another over the blocks of the
image that `simg2img` writes, and each one says what stands there. -/
theorem dumpFile_describes (himg : Image file) (hcsv : o.csvfilename = true)
    (hhash : o.showhash = true) (h : (dumpFile sha1 o file).Clean) (fd : ℕ) :
    ∃ s new rows, sparseFileImport fd file false = .ok (some s) ∧
      sparseFileWrite file_ops (Env.ofFile file) s ⟨[], 0⟩ false false = .ok (0, new) ∧
      (dumpFile sha1 o file).rows = .titles :: rows.map .row ∧
      rows.length = (fileHeader file).total_chunks.toNat ∧
      Tiles rows 0 (fileHeader file).total_blks.toNat ∧
      ∀ row ∈ rows, row.Describes sha1 file (fileHeader file).blk_sz.toNat new.bytes := by
  have ho : o.output := .inr (.inl hcsv)
  obtain ⟨hh, hs⟩ := dumpFile_clean_iff.mp h
  have hs := hs ho
  obtain ⟨s, himp⟩ := himg.import fd
  obtain ⟨mid, new, heq, hshows, hnew⟩ := sparseFileWrite_normal himp.writable []
  have hexp : new.bytes = expand file := hnew.trans (himp.resize_eq himg hshows)
  obtain ⟨hlen, htiles⟩ := @shownRows_tile sha1 o file (fileHeader file) (fileRecords file) 1 0
  rw [Nat.zero_add, hs.total_blks] at htiles
  have hcrc := (totalBlocks_eq_iff hs.records).2.mp (himg.total_blks.trans hs.total_blks.symm)
  have hpre : ([] : List UInt8).length = 0 * (fileHeader file).blk_sz.toNat := (Nat.zero_mul _).symm
  refine ⟨s, new, _, himp.import_eq, heq, dumpFile_rows hcsv h, ?_, htiles, ?_⟩
  · rw [hlen, hh.fileRecords_eq, length_records]
  · rw [hexp]
    exact shownRows_describe himg.records himg.nonempty himg.blk_sz_pos himg.blk_sz_mod
      (fun r hr => (hs.records r hr).blocks_eq (hcrc r hr)) hcrc hhash 1 hpre

/-- The rows of the sample image describe the bytes that it expands to. -/
theorem shownImage_described :
    ∃ s new rows, sparseFileImport 0 shownImage false = .ok (some s) ∧
      sparseFileWrite file_ops (Env.ofFile shownImage) s ⟨[], 0⟩ false false = .ok (0, new) ∧
      (dumpFile shownSha1 ⟨0, true, true⟩ shownImage).rows = .titles :: rows.map .row ∧
      rows.length = (fileHeader shownImage).total_chunks.toNat ∧
      Tiles rows 0 (fileHeader shownImage).total_blks.toNat ∧
      ∀ row ∈ rows, row.Describes shownSha1 shownImage (fileHeader shownImage).blk_sz.toNat
        new.bytes :=
  @dumpFile_describes shownSha1 ⟨0, true, true⟩ shownImage (by decide +kernel) rfl rfl
    (by decide +kernel) 0

/-! ## What is written -/

/-- A record of the format is shown. -/
theorem Record.Ok.shown {r : Record} (h : r.Ok file hdr) (hh : hdr.chunk_hdr_sz = 12) :
    r.Shown file hdr := by
  have hsz : hdr.chunk_hdr_sz.toNat = CHUNK_HEADER_LEN := by rw [hh]; rfl
  refine ⟨h.present, h.kind, h.total_sz, .inr ?_⟩
  rcases h.payload with h0 | hle
  · rw [Record.stop, Record.payload, h0, hsz]
    exact h.present
  · exact hle

/-- The records of chunks have their blocks, and stop where they do. -/
theorem layout_shown (hh : hdr.chunk_hdr_sz = 12) {cs : List Chunk}
    (hok : ∀ c ∈ cs, c.Formed hdr.blk_sz) (pos : ℕ) :
    shownBlocks (layout pos cs) = (cs.map fun c => c.header.chunk_sz.toNat).sum ∧
      lastStop hdr (layout pos cs) pos = pos + (encodeChunks cs).length := by
  have hsz : hdr.chunk_hdr_sz.toNat = CHUNK_HEADER_LEN := by rw [hh]; rfl
  induction cs generalizing pos with
  | nil => exact ⟨rfl, rfl⟩
  | cons c cs ih =>
    obtain ⟨hc, hcs⟩ := List.forall_mem_cons.mp hok
    obtain ⟨hblocks, hstop⟩ := ih hcs (pos + c.encode.length)
    have hnext : (⟨pos, c.header⟩ : Record).stop hdr = pos + c.encode.length := by
      rw [Record.stop, Record.payload, hsz, hc.payload, Chunk.length_encode, Nat.add_assoc]
    refine ⟨?_, ?_⟩
    · rw [List.map_cons, List.sum_cons, ← hblocks]
      rfl
    · rw [layout, lastStop, hnext, hstop, encodeChunks_cons, List.length_append, Nat.add_assoc]

variable {w : Files} {n len : ℕ} {s : SparseFile} {crc : Bool}

/-- What is written of whole blocks is shown without a complaint. -/
theorem SparseFile.Lays.image_clean (h : s.Lays w len n) :
    (dumpFile sha1 o (w.image s.block_size n crc s.blocks)).Clean := by
  obtain ⟨hok, hblocks, hcount, -⟩ := Files.allChunks_ok h.room h.placed crc
  have hsame := Files.allChunks_blocks h.room h.placed crc
  unfold Files.image
  generalize w.allChunks s.block_size n crc s.blocks = cs at hok hblocks hcount hsame ⊢
  -- Every chunk the writer lays out is of its kind's form.
  have hformed : ∀ c ∈ cs, c.Formed s.block_size :=
    fun c hc => (hok c hc).elim Chunk.Ok.formed And.left
  obtain ⟨hhdr, hrec, hrecok, -⟩ := fileRecords_chunkFile (n := n) hformed hcount []
  obtain ⟨hshown, hstop⟩ := @layout_shown (writtenHeader s.block_size n cs.length) rfl cs hformed
    SPARSE_HEADER_LEN
  -- The header is the one the writer has set up, field by field, and so are the chunks.
  refine dumpFile_clean_iff.mpr ⟨⟨?_, ?_, ?_, ?_, ?_⟩, fun _ => ⟨?_, ?_, ?_⟩⟩
  · rw [chunkFile, List.length_append, SparseHeader.length_encode]
    exact Nat.le_add_right _ _
  · rw [hhdr]; rfl
  · rw [hhdr]; exact ⟨rfl, rfl⟩
  · rw [hhdr]; rfl
  · rw [hhdr]; rfl
  · rw [hhdr]
    exact fun r hr => (hrecok r hr).shown rfl
  · rw [hrec, hhdr, hshown]
    have hsum : (cs.map fun c => c.header.chunk_sz.toNat).sum = chunkBlocks cs :=
      congrArg List.sum (List.map_congr_left fun c hc => congrArg UInt32.toNat (hsame c hc).symm)
    rw [hsum, hblocks]
    change n = (UInt32.ofNat n).toNat
    rw [UInt32.toNat_ofNat', Nat.mod_eq_of_lt h.room.lt]
  · rw [hrec, hhdr, hstop, chunkFile, List.length_append, SparseHeader.length_encode, List.append_nil]

/-- What is written of a part of a block is not. -/
theorem SparseFile.Lays.short_not_clean (h : s.Lays w len n) (ho : o.output) {sum : UInt32} :
    ¬ (dumpFile sha1 o ((writtenHeader s.block_size (len / s.block_size.toNat)
        ((w.chunks s.block_size s.blocks 0 ++ crcChunk crc sum).length + 1)).encode ++
          encodeChunks (w.chunks s.block_size s.blocks 0 ++ crcChunk crc sum))).Clean := by
  obtain ⟨hok, htotal, -⟩ := Files.chunks_ok h.room h.placed
  have hcount := length_le_chunkBlocks fun c hc => (hok c hc).blocks
  have hle := stopOf_le h.placed
  have hone : (crcChunk crc sum).length ≤ 1 := by cases crc <;> simp [crcChunk]
  have hroom := h.room.add_two_lt
  have hformed : ∀ c ∈ w.chunks s.block_size s.blocks 0 ++ crcChunk crc sum,
      c.Formed s.block_size := by
    intro c hc
    rcases List.mem_append.mp hc with hc | hc
    · exact (hok c hc).formed
    · exact (crcChunk_formed c hc).1
  obtain ⟨hhdr, hrec⟩ := @fileRecords_short s.block_size (len / s.block_size.toNat) _ hformed
    (by rw [List.length_append]; omega) _ [] (congrArg _ (List.append_nil _).symm)
  -- The last record would start where the file ends.
  intro hc
  have hlast := ((dumpFile_clean_iff.mp hc).2 ho).records _
    (by rw [hrec]; exact List.mem_append_right _ List.mem_cons_self)
  exact absurd hlast.present (Nat.not_le.mpr (Nat.lt_add_of_pos_right (by decide)))

end

/-- **What the sparse writer writes is shown without a complaint exactly on whole blocks.** For every
block size from 24 on and every length that leaves room for a block below `2^31`, a sparse file with
blocks inside it is written, with or without a checksum, as a file that is shown without a complaint
if and only if the length is a multiple of the block size. -/
theorem dumpFile_written_iff {sha1 : List UInt8 → String} {o : DumpOptions} (ho : o.output)
    {w : Files} {bs : UInt32} {len : ℕ} {s : SparseFile} (hmin : 24 ≤ bs.toNat)
    (hlen : len + bs.toNat < 2 ^ 31) (h : Built w bs len s) (crc : Bool) :
    (∃ new, sparseFileWrite file_ops w.env s ⟨[], 0⟩ true crc = .ok (0, new) ∧
      (dumpFile sha1 o new.bytes).Clean) ↔ bs.toNat ∣ len := by
  have hpos : 0 < bs.toNat := by omega
  -- The image with its headers fits into 32 bits.
  have hroom : Room bs ((len + bs.toNat - 1) / bs.toNat) := by
    refine Room.of_le hmin (by omega) ?_
    have h1 := padded_lt (n := len) hpos
    rw [padded, Nat.mul_comm] at h1
    rw [Nat.add_mul, Nat.one_mul]
    omega
  obtain ⟨calls, hinside, heq⟩ := h.calls hroom.ne_zero (by omega)
  obtain ⟨rfl, hlays⟩ := hinside.lays hroom (by omega) rfl heq
  constructor
  · -- Where the length is no whole number of blocks, the writer stops or its last gap is short.
    rintro ⟨new, hwrite, hclean⟩
    by_contra hdvd
    rcases @sparseFileWrite_odd w _ len crc s hlays hdvd with habort | ⟨sum, new', hwrite', hbytes⟩
    · rw [habort] at hwrite
      cases hwrite
    · rw [hwrite'] at hwrite
      cases hwrite
      rw [hbytes] at hclean
      exact hlays.short_not_clean ho hclean
  · intro hdvd
    have hbytes : ∀ image, (RawFile.put ⟨[], 0⟩ image).bytes = image := overwrite_length 0 []
    refine ⟨_, sparseFileWrite_whole hlays hdvd ⟨[], 0⟩, ?_⟩
    rw [hbytes]
    exact hlays.image_clean

/-- One fill of a whole block, written with a checksum, is dumped clean. -/
theorem dumpFile_written_one_fill :
    (∃ new, sparseFileWrite file_ops byteFiles.env
        ⟨1024, 1024, ⟨[⟨0, 0, 1024, .fill 7⟩], none, 1024, 1⟩⟩ ⟨[], 0⟩ true true = .ok (0, new) ∧
      (dumpFile shownSha1 ⟨1, false, false⟩ new.bytes).Clean) ↔ (1024 : UInt32).toNat ∣ 1024 :=
  dumpFile_written_iff (by decide) (by decide) (by decide)
    (@Built.adds _ _ _ _ [⟨.fill 7, 1024, 0⟩]
      ⟨⟨by decide, List.pairwise_singleton _ _⟩, by decide, by decide⟩ (by decide +kernel)) true

end AmlogicToolkit.Simg
