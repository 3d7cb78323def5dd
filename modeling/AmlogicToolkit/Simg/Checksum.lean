import AmlogicToolkit.Simg.Consistent

/-!
# Checksums

What the reader makes of a checksum: it takes in the contents of the chunks, and compares what it has
with the word of every checksum chunk (`import_crc_iff`). The writer takes only the first block of a
fill into its checksum, and nothing of a gap, so that the two agree exactly when the CRC-32 does not
tell these bytes from those of the whole image (`checksumAgrees_iff`).
-/

namespace AmlogicToolkit.Simg

open Bytes

/-! ## The loops of the reader -/

/-- The first bytes of a repetition are fewer repetitions. -/
theorem take_cycle {α : Type*} {n k : ℕ} (l : List α) (h : k ≤ n) :
    (cycle n l).take (k * l.length) = cycle k l := by
  rw [← Nat.add_sub_cancel' h, cycle_add, List.take_append_of_le_length (by simp),
    List.take_of_length_le (by simp)]

/-- The loop of `process_fill_chunk` and `process_skip_chunk` takes in a word again and again. -/
theorem bufCrcLoop_eq {word : List UInt8} (hword : word.length = 4) {fuel k : ℕ} {crc : UInt32}
    (hfuel : k * 4 ≤ fuel) :
    bufCrcLoop (cycle (COPY_BUF_SIZE / 4) word) fuel (k * 4) crc =
      sparseCrc32 crc (cycle k word) := by
  induction fuel generalizing k crc with
  | zero =>
    obtain rfl : k = 0 := by omega
    rw [bufCrcLoop, cycle_zero, sparseCrc32_nil]
  | succ fuel ih =>
    unfold bufCrcLoop
    by_cases hk : k = 0
    · subst hk
      rw [if_neg (by decide), cycle_zero, sparseCrc32_nil]
    · -- One pass takes in as many words as there are, or as many as the buffer holds.
      obtain ⟨m, hm⟩ : ∃ m, min k (COPY_BUF_SIZE / 4) = m := ⟨_, rfl⟩
      have hmin : min (k * 4) COPY_BUF_SIZE = m * 4 := by
        simp only [COPY_BUF_SIZE] at hm ⊢
        omega
      have hle : m ≤ k ∧ m ≤ COPY_BUF_SIZE / 4 ∧ m ≠ 0 := by
        simp only [COPY_BUF_SIZE] at hm ⊢
        omega
      have htake := take_cycle word hle.2.1
      rw [hword] at htake
      simp only [hmin, htake]
      rw [if_pos (by omega), ← Nat.sub_mul, ih (by omega), ← sparseCrc32_append, ← cycle_add,
        Nat.add_sub_cancel' hle.1]

/-- A word of zeros, repeated, is zeros. -/
theorem cycle_zeros (n : ℕ) : cycle n (le32 0) = List.replicate (n * 4) 0 := by
  have h : le32 0 = List.replicate 4 0 := by decide
  rw [h]
  induction n with
  | zero => rfl
  | succ n ih => rw [cycle_succ, ih, ← List.replicate_add, Nat.succ_mul, Nat.add_comm]

/-! ## The reader -/

section

variable (file : List UInt8) (hdr : SparseHeader)

/-- Whether the checksums of a list of records are right: the word of every checksum chunk is the
checksum of what stands in front of it. -/
def checked : List Record → UInt32 → Bool
  | [], _ => true
  | r :: rs, crc =>
    (r.header.kind != .crc32 || r.word file hdr == crc) &&
      checked rs (sparseCrc32 crc (r.content file hdr))

end

section

variable {file : List UInt8} {hdr : SparseHeader} {fd : ℕ}

/-- The payload of a raw chunk is in the file. -/
def Record.Present (file : List UInt8) (hdr : SparseHeader) (r : Record) : Prop :=
  r.header.kind = .raw → r.header.payloadSize hdr.blk_sz = 0 ∨ r.stop hdr ≤ file.length

/-- **One chunk.** With a checksum, `process_chunk` takes in the content of a record that it takes, if
the payload is there, and returns an error on a checksum chunk with another word. -/
theorem processChunk_crc (hbs : hdr.blk_sz ≠ 0) (h4 : hdr.blk_sz.toNat % 4 = 0) {s : SparseFile}
    (hs : s.block_size = hdr.blk_sz) {r : Record} (ht : r.taken file hdr) (hraw : r.Present file hdr)
    (crc cur : UInt32) :
    processChunk ⟨s, ⟨fd, file, r.payload hdr⟩, some crc⟩ (r.payload hdr) hdr.chunk_hdr_sz.toUInt32
        r.header cur =
      match r.add file hdr fd s cur with
      | .error f => .error (.fault f)
      | .ok s' =>
        if r.header.kind != .crc32 || r.word file hdr == crc then
          .ok (⟨s', ⟨fd, file, r.stop hdr⟩, some (sparseCrc32 crc (r.content file hdr))⟩,
            toInt r.header.blocks.toNat)
        else .error (.ret (-EINVAL)) := by
  have hsize : r.header.total_sz - hdr.chunk_hdr_sz.toUInt32 = r.dataSize hdr := rfl
  have hword : read32 file (r.payload hdr) = r.word file hdr := rfl
  have hdvd : r.header.chunk_sz.toNat * hdr.blk_sz.toNat =
      r.header.chunk_sz.toNat * hdr.blk_sz.toNat / 4 * 4 := by
    have : r.header.chunk_sz.toNat * hdr.blk_sz.toNat % 4 = 0 := by
      rw [Nat.mul_mod, h4, Nat.mul_zero, Nat.zero_mod]
    omega
  unfold Record.taken at ht
  unfold Record.Present at hraw
  rw [processChunk_eq]
  unfold Record.stop at hraw ⊢
  unfold Record.content Record.add Record.call? Record.source? ChunkHeader.blocks
  unfold ChunkHeader.payloadSize at ht hraw ⊢
  -- The header of the chunk is in the file: what is left of `taken` is the check of its kind.
  rw [Bool.and_eq_true] at ht
  replace ht := ht.2
  cases hk : r.header.kind with
  | raw =>
    simp only [hk, Bool.or_eq_true, beq_iff_eq] at ht
    simp only [hk, forall_const] at hraw
    simp only [processRawChunk_eq, hs, hsize, if_pos (ht.resolve_left hbs),
      if_pos hraw, Option.map_some, Call.add, hbs, and_false, if_false]
    cases sparseFileAddFd s fd (r.payload hdr) (r.header.chunk_sz * hdr.blk_sz) cur <;> rfl
  | fill =>
    simp only [hk, Bool.and_eq_true, beq_iff_eq, decide_eq_true_eq] at ht
    -- The loop takes in the word as often as it fits into the blocks.
    have hloop := @bufCrcLoop_eq _ (length_le32 (r.word file hdr)) _
      (r.header.chunk_sz.toNat * hdr.blk_sz.toNat / 4) crc (Nat.le_refl _)
    rw [← hdvd] at hloop
    simp only [processFillChunk_eq, hs, hsize, if_pos ht, hword, hloop, Option.map_some, Call.add,
      reduceCtorEq, false_and, if_false]
    cases sparseFileAddFill s (r.word file hdr) (r.header.chunk_sz * hdr.blk_sz) cur <;> rfl
  | dontCare =>
    simp only [hk, beq_iff_eq] at ht
    -- The loop takes in zeros, a buffer of whole words at a time.
    have hloop := @bufCrcLoop_eq _ (length_le32 0) _
      (r.header.chunk_sz.toNat * hdr.blk_sz.toNat / 4) crc (Nat.le_refl _)
    rw [← hdvd, cycle_zeros, cycle_zeros, ← hdvd] at hloop
    simp only [processSkipChunk, hs, hsize, ht, Option.map_none, ne_eq, not_true_eq_false,
      reduceCtorEq, false_and, if_false, Option.map_some]
    have hbuf : COPY_BUF_SIZE / 4 * 4 = COPY_BUF_SIZE := rfl
    rw [hbuf] at hloop
    simp only [hloop]
    rfl
  | crc32 =>
    simp only [hk, Bool.and_eq_true, beq_iff_eq, decide_eq_true_eq] at ht
    -- Nothing is added: the word decides.
    simp only [processCrc32Chunk_eq, hsize, ht, hword, Option.map_none, Option.all_some,
      beq_iff_eq, true_and, and_self, reduceCtorEq, false_and, if_false, sparseCrc32_nil,
      toInt_zero]
    by_cases heq : r.word file hdr = crc <;> simp [heq, bind, Except.bind, pure, Except.pure]
  | unknown =>
    simp only [Option.map_none, reduceCtorEq, false_and, if_false, sparseCrc32_nil, toInt_zero]
    rfl

/-- **All chunks.** With a checksum, the reader adds what it adds without one, when all checksums are
right, and returns an error when one is not. -/
theorem chunkLoop_crc (hbs : hdr.blk_sz ≠ 0) (h4 : hdr.blk_sz.toNat % 4 = 0)
    (hsz : CHUNK_HEADER_LEN ≤ hdr.chunk_hdr_sz.toNat) {n pos : ℕ} {s s' : SparseFile}
    (hs : s.block_size = hdr.blk_sz) {crc cur : UInt32}
    (hok : ∀ r ∈ records file hdr n pos, r.accepted file hdr ∧ r.Present file hdr)
    (hadd : addRecords file hdr fd s (records file hdr n pos) cur = .ok s') :
    if checked file hdr (records file hdr n pos) crc then
      ∃ fd' crc', chunkLoop hdr n ⟨s, ⟨fd, file, pos⟩, some crc⟩ cur =
        .ok (⟨s', fd', crc'⟩, blockAfter cur (records file hdr n pos))
    else chunkLoop hdr n ⟨s, ⟨fd, file, pos⟩, some crc⟩ cur = .error (.ret (-EINVAL)) := by
  induction n generalizing s pos crc cur with
  | zero =>
    cases hadd
    exact ⟨_, _, rfl⟩
  | succ n ih =>
    obtain ⟨hacc, hraw⟩ := hok _ List.mem_cons_self
    obtain ⟨ht, hb⟩ : (recordAt file pos).taken file hdr ∧
        (recordAt file pos).header.blocks.toNat < 2 ^ 31 := by
      simpa only [Record.accepted, Bool.and_eq_true, decide_eq_true_eq] using hacc
    have hin : pos + CHUNK_HEADER_LEN ≤ file.length := by
      unfold Record.taken at ht
      exact of_decide_eq_true (Bool.and_eq_true _ _ ▸ ht).1
    have hpos : pos + CHUNK_HEADER_LEN + (hdr.chunk_hdr_sz.toNat - CHUNK_HEADER_LEN) =
        (recordAt file pos).payload hdr := by
      simp only [Record.payload, recordAt]
      omega
    -- The header of the first chunk is read, and the reader goes on to the payload.
    have hread : readOrStop ⟨fd, file, pos⟩ CHUNK_HEADER_LEN =
        .ok (slice file pos CHUNK_HEADER_LEN, ⟨fd, file, pos + CHUNK_HEADER_LEN⟩) := by
      rw [readOrStop_eq _ (by decide)]
      exact if_pos hin
    have hhead : ChunkHeader.decode (slice file pos CHUNK_HEADER_LEN) =
      (recordAt file pos).header := rfl
    have hone := @processChunk_crc file hdr fd hbs h4 _ hs _ ht hraw crc cur
    simp only [records, addRecords, bind, Except.bind] at hadd
    cases hadd1 : (recordAt file pos).add file hdr fd s cur with
    | error f => rw [hadd1] at hadd; cases hadd
    | ok s1 =>
      rw [hadd1] at hadd hone
      have hrest := @ih ((recordAt file pos).stop hdr) s1
        ((Record.add_block_size hadd1).trans hs)
        (sparseCrc32 crc ((recordAt file pos).content file hdr)) _
        (fun r hr => hok r (List.mem_cons_of_mem _ hr)) hadd
      rw [chunkLoop, hread]
      simp only [bind, Except.bind, hpos, hhead, hone, records, checked, blockAfter,
        Bool.and_eq_true]
      -- Only a checksum chunk with another word ends the loop.
      by_cases hc : ((recordAt file pos).header.kind != .crc32 ||
          (recordAt file pos).word file hdr == crc) = true
      · have hneg : ¬ toInt ((recordAt file pos).header.blocks.toNat : ℤ) < 0 := by
          rw [toInt_neg_iff]
          omega
        simp only [hc, if_true, true_and, toU32_toInt, if_neg hneg]
        exact hrest
      · simp only [hc]
        rfl

/-- **The import with a checksum** of a file that is imported without one, and that has all payloads of
raw chunks, makes the same when all checksums are right, and fails when one is not. -/
theorem sparseFileImport_crc (hbs : (fileHeader file).blk_sz ≠ 0)
    (h4 : (fileHeader file).blk_sz.toNat % 4 = 0) {s : SparseFile}
    (h : sparseFileImport fd file false = .ok (some s))
    (hraw : ∀ r ∈ fileRecords file, r.Present file (fileHeader file)) :
    sparseFileImport fd file true =
      .ok (if checked file (fileHeader file) (fileRecords file) 0 then some s else none) := by
  obtain ⟨hh, himp, hfin, -⟩ := sparseFileImport_some h
  obtain ⟨hall, hblk⟩ : (fileRecords file).all (Record.accepted file (fileHeader file)) ∧
      blockAfter 0 (fileRecords file) = (fileHeader file).total_blks := by
    simpa only [finishes, Bool.and_eq_true, beq_iff_eq] using hfin
  -- Every record is accepted, and its payload is in the file.
  have hok : ∀ r ∈ fileRecords file,
      r.accepted file (fileHeader file) ∧ r.Present file (fileHeader file) :=
    fun r hr => ⟨List.all_eq_true.mp hall r hr, hraw r hr⟩
  rw [importedFile, reached_eq hall] at himp
  have hloop := @chunkLoop_crc file _ fd hbs h4 hh.chunk_hdr_sz _ _ _ _ rfl 0 0 hok himp
  rw [sparseFileImport_header, if_pos hh]
  have hrec : records file (fileHeader file) (fileHeader file).total_chunks.toNat
    (fileHeader file).file_hdr_sz.toNat = fileRecords file := rfl
  -- The loop with the checksum goes with the one without, up to the first record that does not
  -- check.
  rw [hrec, hblk] at hloop
  by_cases hc : checked file (fileHeader file) (fileRecords file) 0
  · rw [if_pos hc] at hloop ⊢
    obtain ⟨fd', crc', heq⟩ := hloop
    simp only [if_true, heq, ne_eq, not_true_eq_false, if_false]
    rfl
  · rw [if_neg hc] at hloop ⊢
    simp only [if_true, hloop]
    rfl

/-- An image with a checksum is imported with the check when the records check, and refused when
not. -/
theorem Image.import_crc (h : Image file) (fd : ℕ) :
    ∃ s, Imported fd file s ∧ sparseFileImport fd file true =
      .ok (if checked file (fileHeader file) (fileRecords file) 0 then some s else none) := by
  obtain ⟨s, hi⟩ := h.import fd
  have hbs : (fileHeader file).blk_sz ≠ 0 := by
    intro h0
    have := h.blk_sz_pos
    rw [h0] at this
    exact absurd this (by decide)
  exact ⟨s, hi, sparseFileImport_crc hbs h.blk_sz_mod hi.import_eq
    fun r hr _ => (h.records r hr).payload⟩

/-- The checksums of a list are right when every checksum chunk holds the checksum of the contents in
front of it. -/
theorem checked_iff {rs : List Record} {crc : UInt32} :
    checked file hdr rs crc ↔ ∀ pre r post, rs = pre ++ r :: post → r.header.kind = .crc32 →
      r.word file hdr = sparseCrc32 crc (pre.flatMap (Record.content file hdr)) := by
  induction rs generalizing crc with
  | nil => exact iff_of_true rfl fun pre r post h => by simp at h
  | cons q rs ih =>
    rw [checked, Bool.and_eq_true, ih]
    constructor
    · -- The induction is on the list of records: a checksum chunk is the first one, or behind it.
      rintro ⟨hq, hrs⟩ pre r post heq hk
      cases pre with
      | nil =>
        obtain ⟨rfl, rfl⟩ := List.cons.inj heq
        rw [hk] at hq
        rw [List.flatMap_nil, sparseCrc32_nil]
        exact beq_iff_eq.mp hq
      | cons p pre =>
        obtain ⟨rfl, rfl⟩ := List.cons.inj heq
        rw [List.flatMap_cons, sparseCrc32_append]
        exact hrs pre r post rfl hk
    · intro h
      constructor
      · by_cases hk : q.header.kind = .crc32
        · have hword := h [] q rs rfl hk
          rw [List.flatMap_nil, sparseCrc32_nil] at hword
          rw [hword, BEq.rfl, Bool.or_true]
        · rw [bne_iff_ne.mpr hk, Bool.true_or]
      · intro pre r post heq hk
        rw [← sparseCrc32_append, ← List.flatMap_cons]
        exact h (q :: pre) r post (congrArg _ heq) hk

/-- What the reader checks with a checksum, and not without one: the payloads of all raw chunks are in
the file, and every checksum chunk holds the CRC-32 of the contents of all chunks in front of it. -/
structure ChecksumsRight (file : List UInt8) : Prop where
  /-- The payloads. -/
  present : ∀ r ∈ fileRecords file, r.Present file (fileHeader file)
  /-- The checksums. -/
  word : ∀ pre r post, fileRecords file = pre ++ r :: post → r.header.kind = .crc32 →
    r.word file (fileHeader file) =
      sparseCrc32 0 (pre.flatMap (Record.content file (fileHeader file)))

/-- **Checking the checksums is exact**: with them a file is accepted when it is accepted without them,
all raw payloads are there and all checksums are right. For every file whose block size is a positive
multiple of four. -/
theorem import_crc_iff (hbs : 0 < (fileHeader file).blk_sz.toNat)
    (h4 : (fileHeader file).blk_sz.toNat % 4 = 0) :
    (∃ s, sparseFileImport fd file true = .ok (some s)) ↔
      (∃ s, sparseFileImport fd file false = .ok (some s)) ∧ ChecksumsRight file := by
  have hbs' : (fileHeader file).blk_sz ≠ 0 := by
    intro h0
    rw [h0] at hbs
    exact absurd hbs (by decide)
  constructor
  · rintro ⟨s, h⟩
    obtain ⟨hh, himp, hfin, hraw⟩ := sparseFileImport_some h
    have hnone : sparseFileImport fd file false = .ok (some s) := by
      rw [sparseFileImport_eq, if_pos hh, himp]
      simp only [hfin, if_true]
    have hcrc := sparseFileImport_crc hbs' h4 hnone (hraw rfl)
    refine ⟨⟨s, hnone⟩, hraw rfl, checked_iff.mp ?_⟩
    by_contra hc
    rw [if_neg hc, h] at hcrc
    cases hcrc
  · rintro ⟨⟨s, h⟩, hright⟩
    refine ⟨s, (sparseFileImport_crc hbs' h4 h hright.present).trans ?_⟩
    rw [if_pos (checked_iff.mpr hright.word)]

/-- A file with a block of fill, and a checksum chunk behind it. -/
def fillAndChecksum : List UInt8 :=
  SparseHeader.encode ⟨SPARSE_HEADER_MAGIC, 1, 0, 28, 12, 4, 1, 2, 0⟩ ++
    encodeChunks [⟨⟨CHUNK_TYPE_FILL, 0, 1, 16⟩, le32 7⟩, ⟨⟨CHUNK_TYPE_CRC32, 0, 0, 16⟩, le32 0⟩]

/-- A fill with its checksum is imported with the check exactly as without, when the checksum is
right. -/
theorem import_crc_fill : (∃ s, sparseFileImport 0 fillAndChecksum true = .ok (some s)) ↔
    (∃ s, sparseFileImport 0 fillAndChecksum false = .ok (some s)) ∧
      ChecksumsRight fillAndChecksum :=
  import_crc_iff (by decide) (by decide)

end

/-! ## Written images -/

section

variable {file : List UInt8} {hdr : SparseHeader}

/-- The chunks of two lists in a row lie as those of the first, then those of the second behind its
bytes. -/
theorem layout_append (pos : ℕ) (a b : List Chunk) :
    layout pos (a ++ b) = layout pos a ++ layout (pos + (encodeChunks a).length) b := by
  induction a generalizing pos with
  | nil => rfl
  | cons c a ih =>
    rw [List.cons_append, layout, layout, ih, encodeChunks_cons, List.length_append, Nat.add_assoc]
    rfl

/-- Two lists of records in a row are checked with the checksum of the first carried into the
second. -/
theorem checked_append (a b : List Record) (crc : UInt32) :
    checked file hdr (a ++ b) crc = (checked file hdr a crc &&
      checked file hdr b (sparseCrc32 crc (a.flatMap (Record.content file hdr)))) := by
  induction a generalizing crc with
  | nil => rw [List.flatMap_nil, sparseCrc32_nil]; rfl
  | cons r a ih =>
    rw [List.cons_append, checked, checked, ih, List.flatMap_cons, sparseCrc32_append,
      Bool.and_assoc]

/-- Without a checksum chunk there is nothing to compare. -/
theorem checked_of_no_crc {rs : List Record} (h : ∀ r ∈ rs, r.header.kind ≠ .crc32) (crc : UInt32) :
    checked file hdr rs crc = true := by
  induction rs generalizing crc with
  | nil => rfl
  | cons r rs ih =>
    have hr := bne_iff_ne.mpr (h r List.mem_cons_self)
    rw [checked, hr, ih fun r hr => h r (List.mem_cons_of_mem _ hr)]
    rfl

end

/-- The last chunk of a file: its word, when it is a checksum that the file ends with. -/
structure EndsWithCrc (file : List UInt8) (word : UInt32) (r : Record) : Prop where
  /-- It is the last chunk. -/
  last : (fileRecords file).getLast? = some r
  /-- It is a checksum. -/
  kind : r.header.kind = .crc32
  /-- The file ends with it. -/
  stop : r.stop (fileHeader file) = file.length
  /-- The word. -/
  word : r.word file (fileHeader file) = word

section

variable {w : Files} {bs : UInt32} {n len : ℕ} {l : List BackedBlock} {s : SparseFile}

/-- **The checksum of a written image** is the last chunk, and holds the checksum of the bytes that the
writer has taken in. The reader finds it right when it has the same checksum for the whole image. -/
theorem Files.image_checksum (hr : Room bs n) (h : Placed w bs n l 0) :
    (∃ r, EndsWithCrc (w.image bs n true l) (sparseCrc32 0 (w.summedAll bs l)) r) ∧
      checked (w.image bs n true l) (fileHeader (w.image bs n true l))
          (fileRecords (w.image bs n true l)) 0 =
        (sparseCrc32 0 (w.summedAll bs l) == sparseCrc32 0 (w.expansion bs n l)) := by
  obtain ⟨sum, hsum⟩ : ∃ sum, sparseCrc32 0 (w.summedAll bs l) = sum := ⟨_, rfl⟩
  obtain ⟨hok, -, hcount, -⟩ := Files.allChunks_ok hr h true
  obtain ⟨hhdr, hrec, -, -⟩ := fileRecords_chunkFile (n := n)
    (fun c hc => (hok c hc).elim Chunk.Ok.formed And.left) hcount []
  obtain ⟨hemit, -, hexp⟩ := Files.emission_ok hr h
  obtain ⟨hdr, hdef⟩ : ∃ hdr, writtenHeader bs n (w.allChunks bs n true l).length = hdr := ⟨_, rfl⟩
  have h12 : hdr.chunk_hdr_sz.toNat = CHUNK_HEADER_LEN := by rw [← hdef]; rfl
  have hbs : hdr.blk_sz = bs := by rw [← hdef]; rfl
  -- The header and the chunks in front of the checksum.
  obtain ⟨pre, hpre⟩ : ∃ pre, hdr.encode ++ encodeChunks (w.emission bs n l) = pre := ⟨_, rfl⟩
  have hW : w.image bs n true l =
      hdr.encode ++ (encodeChunks (w.emission bs n l) ++ encodeChunks (crcChunk true sum)) := by
    rw [← hsum, ← hdef, ← encodeChunks_append, image, chunkFile, List.append_nil]
    rfl
  have hlen : pre.length = SPARSE_HEADER_LEN + (encodeChunks (w.emission bs n l)).length := by
    rw [← hpre, List.length_append, SparseHeader.length_encode]
  have hall : fileRecords (w.image bs n true l) = layout SPARSE_HEADER_LEN (w.emission bs n l) ++
      [⟨pre.length, ⟨CHUNK_TYPE_CRC32, 0, 0, 16⟩⟩] := by
    rw [image, hrec, allChunks, layout_append, hlen]
    rfl
  have hword : (⟨pre.length, ⟨CHUNK_TYPE_CRC32, 0, 0, 16⟩⟩ : Record).word (w.image bs n true l) hdr =
      sum := by
    have hpay := slice_payload pre [] ⟨⟨CHUNK_TYPE_CRC32, 0, 0, 16⟩, le32 sum⟩
    have hfile : w.image bs n true l =
        pre ++ (Chunk.encode ⟨⟨CHUNK_TYPE_CRC32, 0, 0, 16⟩, le32 sum⟩ ++ []) := by
      rw [hW, ← hpre, List.append_assoc]
      rfl
    rw [← hfile, length_le32] at hpay
    rw [Record.word, read32, Record.payload, h12, hpay, ofLe_le32]
  have hfh : fileHeader (w.image bs n true l) = hdr := hhdr.trans hdef
  rw [hsum, hfh]
  constructor
  · refine ⟨⟨pre.length, ⟨CHUNK_TYPE_CRC32, 0, 0, 16⟩⟩, ?_, rfl, ?_, by rw [hfh]; exact hword⟩
    · rw [hall, List.getLast?_append]
      rfl
    · rw [hfh, hW, ← List.append_assoc, hpre, List.length_append, Record.stop, Record.payload, h12]
      rfl
  · have hcontent := @content_layout (w.emission bs n l) (w.image bs n true l) hdr
      (by rw [← hdef]; rfl) (by rw [hbs]; exact fun c hc => (hemit c hc).formed) hdr.encode
      (encodeChunks (crcChunk true sum)) hW
    rw [SparseHeader.length_encode, hbs, hexp] at hcontent
    have hnone : ∀ r ∈ layout SPARSE_HEADER_LEN (w.emission bs n l), r.header.kind ≠ .crc32 := by
      intro r hr' hk
      obtain ⟨c, hc, he⟩ := layout_header hr'
      refine (hemit c hc).blocks ?_
      rw [← he, ChunkHeader.blocks, hk]
    rw [hall, checked_append, checked_of_no_crc hnone, hcontent, Bool.true_and, checked, hword]
    simp only [checked, Bool.and_true]
    rfl

/-- What is promised of a sparse file: writing it with a checksum makes a file that is imported with
one, and that ends with the CRC-32 of the whole expanded image. -/
def ChecksumAgrees (env : Env) (s : SparseFile) : Prop :=
  ∃ new, sparseFileWrite file_ops env s ⟨[], 0⟩ true true = .ok (0, new) ∧
    (∀ fd, ∃ s', sparseFileImport fd new.bytes true = .ok (some s')) ∧
    ∃ r, EndsWithCrc new.bytes (crc32 (expand new.bytes)) r

/-- Blocks that follow one another without a gap from block `last` on, with no fill of more than one
block. -/
def Solid (bs : UInt32) : List BackedBlock → ℕ → Prop
  | [], _ => True
  | bb :: l, last => bb.block.toNat = last ∧
      (∀ v, bb.source = .fill v → padded bs.toNat bb.len.toNat = bs.toNat) ∧
      Solid bs l (bb.stopBlock bs)

/-- Of such blocks the writer takes in all bytes. -/
theorem Solid.summedAll_eq {last : ℕ} (h : Solid bs l last) :
    w.summedAll bs l = w.expandedAll bs l last := by
  induction l generalizing last with
  | nil => rfl
  | cons bb l ih =>
    obtain ⟨hblock, hfill, htail⟩ := h
    have hone : w.summed bs bb = w.expanded bs bb := by
      unfold Files.summed Files.expanded
      cases hsrc : bb.source with
      | fill v => rw [hfill v hsrc]
      | data p => rfl
      | file f o => rfl
      | fd g o => rfl
    have hrest := ih htail
    unfold Files.summedAll at hrest ⊢
    rw [List.flatMap_cons, hrest, hone, Files.expandedAll, hblock, Nat.sub_self, Nat.zero_mul]
    rfl

/-- The promise is kept when the bytes that the writer takes in have the checksum of the whole
image. -/
theorem SparseFile.Lays.checksum_iff (h : s.Lays w len n)
    (h4 : s.block_size.toNat % 4 = 0) (hdvd : s.block_size.toNat ∣ len) :
    ChecksumAgrees w.env s ↔ crc32 (w.summedAll s.block_size s.blocks) =
      crc32 (w.expansion s.block_size n s.blocks) := by
  obtain ⟨hchunk, -, hexp⟩ := Files.image_ok h.room h4 h.placed true []
  have himg : Image (w.image s.block_size n true s.blocks) := hchunk
  obtain ⟨⟨r, hr⟩, hchecked⟩ := Files.image_checksum h.room h.placed
  -- The new file is the image, for nothing was in it.
  have hnew : (RawFile.put ⟨[], 0⟩ (w.image s.block_size n true s.blocks)).bytes =
      w.image s.block_size n true s.blocks :=
    overwrite_length 0 [] (w.image s.block_size n true s.blocks)
  have hexp' : expand (w.image s.block_size n true s.blocks) =
    w.expansion s.block_size n s.blocks := hexp
  rw [sparseCrc32_zero] at hr
  rw [sparseCrc32_zero, sparseCrc32_zero] at hchecked
  constructor
  · -- The checksum that is read back is that of the written bytes.
    rintro ⟨new, heq, -, r', hr'⟩
    cases (sparseFileWrite_whole h hdvd ⟨[], 0⟩).symm.trans heq
    rw [hnew, hexp'] at hr'
    obtain rfl : r = r' := Option.some.inj (hr.last.symm.trans hr'.last)
    exact hr.word.symm.trans hr'.word
  · intro heq
    refine ⟨_, sparseFileWrite_whole h hdvd ⟨[], 0⟩, fun fd => ?_, r, ?_⟩
    · obtain ⟨s', -, himp⟩ := himg.import_crc fd
      rw [hnew]
      refine ⟨s', himp.trans ?_⟩
      rw [hchecked, heq, BEq.rfl]
      rfl
    · rw [hnew, hexp', ← heq]
      exact hr

end

/-- An image that its blocks fill, with no fill of more than one block, is written with its
checksum. -/
theorem SparseFile.Lays.checksum_of_solid {w : Files} {len n : ℕ} {s : SparseFile}
    (h : s.Lays w len n) (h4 : s.block_size.toNat % 4 = 0) (hdvd : s.block_size.toNat ∣ len)
    (hsolid : Solid s.block_size s.blocks 0) (hfull : stopOf s.block_size s.blocks 0 = n) :
    ChecksumAgrees w.env s := by
  rw [h.checksum_iff h4 hdvd, hsolid.summedAll_eq, Files.expansion, hfull, Nat.sub_self,
    Nat.zero_mul, List.replicate_zero, List.append_nil]

/-- **Writer and reader agree on the checksum** exactly when the CRC-32 of the whole image is that of
the image without its gaps and with one block of every fill. For every block size from 1024 on that is
a multiple of four and every length below `2^31` that is a multiple of it; a block size from `2^31` on
is never written. -/
theorem checksumAgrees_iff {w : Files} {bs : UInt32} {len : ℕ} {s : SparseFile}
    (hmin : 1024 ≤ bs.toNat) (h4 : bs.toNat % 4 = 0) (hdvd : bs.toNat ∣ len) (hlen : len < 2 ^ 31)
    (h : Built w bs len s) :
    ChecksumAgrees w.env s ↔ bs.toNat < 2 ^ 31 ∧
      crc32 (w.summedAll bs s.blocks) = crc32 (w.expansion bs (len / bs.toNat) s.blocks) := by
  by_cases hlt : bs.toNat < 2 ^ 31
  · obtain ⟨rfl, hlays⟩ := h.lays hmin hdvd hlen hlt
    rw [hlays.checksum_iff h4 hdvd]
    exact (and_iff_right hlt).symm
  · refine iff_of_false ?_ fun hc => hlt hc.1
    rintro ⟨new, hw, -⟩
    exact sparseFileWrite_large (h.block_size_eq (by omega) hlen ▸ Nat.le_of_not_lt hlt) hw

/-- A block of data and a fill of one block behind it. -/
theorem checksumAgrees_solid :
    ChecksumAgrees byteFiles.env
        ⟨1024, 2048, ⟨[⟨0, 0, 1024, .data 0⟩, ⟨1, 1, 1024, .fill 7⟩], some 1, 1024, 2⟩⟩ ↔
      (1024 : UInt32).toNat < 2 ^ 31 ∧
        crc32 (byteFiles.summedAll 1024 [⟨0, 0, 1024, .data 0⟩, ⟨1, 1, 1024, .fill 7⟩]) =
          crc32 (byteFiles.expansion 1024 (2048 / (1024 : UInt32).toNat)
            [⟨0, 0, 1024, .data 0⟩, ⟨1, 1, 1024, .fill 7⟩]) :=
  @checksumAgrees_iff byteFiles 1024 2048
    ⟨1024, 2048, ⟨[⟨0, 0, 1024, .data 0⟩, ⟨1, 1, 1024, .fill 7⟩], some 1, 1024, 2⟩⟩
    (by decide) (by decide) (by decide) (by decide)
    (@Built.adds _ _ _ _ [⟨.data 0, 1024, 0⟩, ⟨.fill 7, 1024, 1⟩]
      ⟨⟨by decide, List.pairwise_pair.mpr (Or.inl (by decide))⟩, by decide, by decide⟩
      (by decide +kernel))

/-- An image of one block that is a gap, and an image of one fill of two blocks. -/
theorem gaps_and_long_fills_are_not_summed :
    ¬ ChecksumAgrees byteFiles.env (sparseFileNew 1024 1024) ∧
      ¬ ChecksumAgrees byteFiles.env ⟨1024, 2048, ⟨[⟨0, 0, 2048, .fill 7⟩], none, 1024, 1⟩⟩ := by
  have hgap : (sparseFileNew 1024 1024).Lays byteFiles 1024 1 :=
    ⟨rfl, by decide, ⟨by decide, by decide, by decide, by decide⟩,
      ⟨List.forall_mem_nil _, List.Pairwise.nil, by decide, by decide, by decide⟩⟩
  have hfill : SparseFile.Lays byteFiles ⟨1024, 2048, ⟨[⟨0, 0, 2048, .fill 7⟩], none, 1024, 1⟩⟩
      2048 2 :=
    ⟨rfl, by decide, ⟨by decide, by decide, by decide, by decide⟩,
      ⟨List.forall_mem_singleton.mpr ⟨by decide, trivial⟩, List.pairwise_singleton _ _, by decide,
        by decide, by decide⟩⟩
  rw [hgap.checksum_iff (by decide) (by decide), hfill.checksum_iff (by decide) (by decide),
    ← UInt32.toNat_inj, ← UInt32.toNat_inj, crc32, crc32, crc32, crc32, Crc.toNat_crc,
    Crc.toNat_crc, Crc.toNat_crc, Crc.toNat_crc]
  exact ⟨by decide +kernel, by decide +kernel⟩

end AmlogicToolkit.Simg
