import AmlogicToolkit.Simg.Records

/-!
# What the importer accepts

`sparse_file_import` in terms of the records of a file (`sparseFileImport_eq`), and how far the
files that it accepts are well formed. It lets four kinds of malformed files through: a chunk of an
unknown type, a raw chunk whose total size is below the size of its header, chunks whose blocks add
up to the size of the image only modulo `2^32`, and, at the end of the file and without a checksum,
a raw chunk whose payload is cut off. A file that it accepts and that is of none of these kinds is
well formed (`wellFormed_iff_noSlip`).
-/

namespace AmlogicToolkit.Simg

open Bytes

/-- The length of the image that a header announces. -/
def SparseHeader.imageLen (hdr : SparseHeader) : ℤ :=
  toInt64 (hdr.total_blks.toNat * hdr.blk_sz.toNat)

/-- Below `2^31` bytes a block, the length is exact. -/
theorem SparseHeader.imageLen_eq {hdr : SparseHeader} (h : hdr.blk_sz.toNat < 2 ^ 31) :
    hdr.imageLen = (hdr.total_blks.toNat * hdr.blk_sz.toNat : ℕ) := by
  have hlt : hdr.total_blks.toNat * hdr.blk_sz.toNat < 2 ^ 32 * 2 ^ 31 :=
    Nat.mul_lt_mul'' hdr.total_blks.toNat_lt h
  unfold imageLen toInt64
  push_cast at hlt ⊢
  split_ifs <;> omega

/-- The sparse file that an import starts with. -/
def emptyFile (hdr : SparseHeader) : SparseFile := sparseFileNew hdr.blk_sz hdr.imageLen

/-- What an import adds: the blocks of the records that it reaches. -/
def importedFile (fd : ℕ) (file : List UInt8) : Except Fault SparseFile :=
  addRecords file (fileHeader file) fd (emptyFile (fileHeader file))
    (reached file (fileHeader file) (fileRecords file)) 0

/-- Whether an import comes to the end: all records are accepted, and the block counter is what the
header says. -/
def finishes (file : List UInt8) : Bool :=
  (fileRecords file).all (Record.accepted file (fileHeader file)) &&
    blockAfter 0 (fileRecords file) == (fileHeader file).total_blks

/-- An import starts to read the chunks when the header is right, and gives up when it is not. -/
theorem sparseFileImport_header (fd : ℕ) (file : List UInt8) (crc : Bool) :
    sparseFileImport fd file crc =
      if HeaderOk file then
        nullOnError (match chunkLoop (fileHeader file) (fileHeader file).total_chunks.toNat
            ⟨emptyFile (fileHeader file), ⟨fd, file, (fileHeader file).file_hdr_sz.toNat⟩,
              if crc then some 0 else none⟩ 0 with
          | .error e => .error e
          | .ok (st, cur_block) =>
            if (fileHeader file).total_blks ≠ cur_block then .error (.ret (-EINVAL)) else .ok st.s)
      else .ok none := by
  have hread : readAll ⟨fd, file, 0⟩ SPARSE_HEADER_LEN =
      if SPARSE_HEADER_LEN ≤ file.length then
        some (slice file 0 SPARSE_HEADER_LEN, ⟨fd, file, SPARSE_HEADER_LEN⟩) else none := by
    unfold readAll
    simp only [Nat.zero_add, SPARSE_HEADER_LEN]
    by_cases h : 28 ≤ file.length
    · simp only [h, or_true, if_true]
    · simp only [h, or_false, if_false, OfNat.ofNat_ne_zero]
  have hdec : SparseHeader.decode (slice file 0 SPARSE_HEADER_LEN) = fileHeader file := rfl
  unfold sparseFileImport
  rw [hread]
  -- The checks of the header, in the order of the reader.
  by_cases h0 : SPARSE_HEADER_LEN ≤ file.length
  swap
  · rw [if_neg h0, if_neg fun h => h0 h.present]
  simp only [if_pos h0, hdec]
  by_cases h1 : (fileHeader file).magic = SPARSE_HEADER_MAGIC
  swap
  · rw [if_pos h1, if_neg fun h => h1 h.magic]
  by_cases h2 : (fileHeader file).major_version = SPARSE_HEADER_MAJOR_VER
  swap
  · rw [if_neg (not_not.mpr h1), if_pos h2, if_neg fun h => h2 h.major_version]
  by_cases h3 : (fileHeader file).file_hdr_sz.toNat < SPARSE_HEADER_LEN
  · rw [if_neg (not_not.mpr h1), if_neg (not_not.mpr h2), if_pos h3,
      if_neg fun h => absurd h.file_hdr_sz (by omega)]
  by_cases h4 : (fileHeader file).chunk_hdr_sz.toNat < CHUNK_HEADER_LEN
  · rw [if_neg (not_not.mpr h1), if_neg (not_not.mpr h2), if_neg h3, if_pos h4,
      if_neg fun h => absurd h.chunk_hdr_sz (by omega)]
  have hpos : SPARSE_HEADER_LEN + ((fileHeader file).file_hdr_sz.toNat - SPARSE_HEADER_LEN) =
      (fileHeader file).file_hdr_sz.toNat := by omega
  rw [if_neg (not_not.mpr h1), if_neg (not_not.mpr h2), if_neg h3, if_neg h4,
    if_pos ⟨h0, h1, h2, by omega, by omega⟩]
  unfold sparseFileRead sparseFileReadSparse readOrStop
  simp only [hread, if_pos h0, hdec, bind, Except.bind, h1, h2, h3, h4, hpos, ne_eq,
    not_true_eq_false, and_false, if_true, if_false, emptyFile, SparseHeader.imageLen]
  cases chunkLoop (fileHeader file) _ _ 0 <;> rfl

/-- **What an import returns**: nothing when the header is not accepted, and else the file of its
records, or the error of one. -/
theorem sparseFileImport_eq (fd : ℕ) (file : List UInt8) :
    sparseFileImport fd file false =
      if HeaderOk file then
        match importedFile fd file with
        | .error f => .error f
        | .ok s => .ok (if finishes file then some s else none)
      else .ok none := by
  rw [sparseFileImport_header]
  by_cases hh : HeaderOk file
  · rw [if_pos hh, if_pos hh]
    -- Without a checksum the loop adds the records up to the first that it refuses.
    obtain ⟨fd', code, heq⟩ := @chunkLoop_none file _ hh.chunk_hdr_sz
      (emptyFile (fileHeader file)) rfl fd (fileHeader file).file_hdr_sz.toNat
      (fileHeader file).total_chunks.toNat 0
    have hrec : records file (fileHeader file) (fileHeader file).total_chunks.toNat
      (fileHeader file).file_hdr_sz.toNat = fileRecords file := rfl
    have himp : addRecords file (fileHeader file) fd (emptyFile (fileHeader file))
      (reached file (fileHeader file) (fileRecords file)) 0 = importedFile fd file := rfl
    simp only [Bool.false_eq_true, if_false, heq, hrec, himp]
    cases importedFile fd file with
    | error f => rfl
    | ok s =>
      simp only [finishes, Bool.and_eq_true, beq_iff_eq]
      -- The import returns nothing when a record was refused, or the blocks do not add up.
      by_cases ha : (fileRecords file).all (Record.accepted file (fileHeader file))
      · simp only [ha, if_true, true_and]
        by_cases hb : blockAfter 0 (fileRecords file) = (fileHeader file).total_blks
        · simp only [hb, ne_eq, not_true_eq_false, if_false, if_true]
          rfl
        · simp only [hb, Ne.symm hb, ne_eq, not_false_eq_true, if_true, if_false]
          rfl
      · simp only [ha]
        rfl
  · rw [if_neg hh, if_neg hh]

/-- What an import without a checksum returns is what the records make. -/
theorem importedFile_of_import {fd : ℕ} {file : List UInt8} {s : SparseFile}
    (h : sparseFileImport fd file false = .ok (some s)) :
    HeaderOk file ∧ importedFile fd file = .ok s ∧ finishes file := by
  rw [sparseFileImport_eq] at h
  by_cases hh : HeaderOk file
  swap
  · rw [if_neg hh] at h
    cases h
  rw [if_pos hh] at h
  cases hi : importedFile fd file with
  | error f => rw [hi] at h; cases h
  | ok s' =>
    rw [hi] at h
    by_cases hf : finishes file
    · simp only [if_pos hf] at h
      cases h
      exact ⟨hh, rfl, hf⟩
    · simp only [if_neg hf] at h
      cases h

/-- What an import with or without a checksum returns is what the records make, and with a checksum
all raw payloads are in the file. -/
theorem sparseFileImport_some {fd : ℕ} {file : List UInt8} {crc : Bool} {s : SparseFile}
    (h : sparseFileImport fd file crc = .ok (some s)) :
    HeaderOk file ∧ importedFile fd file = .ok s ∧ finishes file ∧
      (crc → ∀ r ∈ fileRecords file, r.header.kind = .raw →
        r.header.payloadSize (fileHeader file).blk_sz = 0 ∨
          r.stop (fileHeader file) ≤ file.length) := by
  cases crc with
  | false =>
    obtain ⟨h1, h2, h3⟩ := importedFile_of_import h
    exact ⟨h1, h2, h3, fun hc => nomatch hc⟩
  | true =>
    -- The import without a checksum reads the same chunks.
    rw [sparseFileImport_header] at h
    by_cases hh : HeaderOk file
    swap
    · rw [if_neg hh] at h
      cases h
    rw [if_pos hh, if_pos rfl] at h
    cases hc : chunkLoop (fileHeader file) (fileHeader file).total_chunks.toNat
        ⟨emptyFile (fileHeader file), ⟨fd, file, (fileHeader file).file_hdr_sz.toNat⟩, some 0⟩
        0 with
    | error e =>
      rw [hc] at h
      cases e <;> cases h
    | ok r =>
      obtain ⟨st, cur⟩ := r
      rw [hc] at h
      by_cases hb : (fileHeader file).total_blks ≠ cur
      · simp only [if_pos hb] at h
        cases h
      simp only [if_neg hb] at h
      obtain rfl : st.s = s := Option.some.inj (Except.ok.inj h)
      obtain ⟨⟨fd', hnone⟩, hraw⟩ := chunkLoop_without_crc rfl hh.chunk_hdr_sz hc
      have hplain : sparseFileImport fd file false = .ok (some st.s) := by
        rw [sparseFileImport_header, if_pos hh]
        simp only [Bool.false_eq_true, if_false, hnone, if_neg hb]
        rfl
      obtain ⟨h1, h2, h3⟩ := importedFile_of_import hplain
      exact ⟨h1, h2, h3, fun _ => hraw⟩

/-! ## Accepted files -/

section

variable {file : List UInt8} {hdr : SparseHeader}

/-- When all records are accepted, all are reached. -/
theorem reached_eq {rs : List Record} (h : rs.all (Record.accepted file hdr)) :
    reached file hdr rs = rs := by
  induction rs with
  | nil => rfl
  | cons r rs ih =>
    simp only [List.all_cons, Bool.and_eq_true] at h
    rw [reached, if_pos h.1, ih h.2]

/-- The records that are reached are taken. -/
theorem reached_taken (rs : List Record) : ∀ r ∈ reached file hdr rs, r.taken file hdr := by
  induction rs with
  | nil => exact fun _ h => nomatch h
  | cons r rs ih =>
    intro q hq
    rw [reached] at hq
    by_cases ha : r.accepted file hdr
    · rw [if_pos ha] at hq
      rcases List.mem_cons.mp hq with rfl | hq
      · simp only [Record.accepted, Bool.and_eq_true] at ha
        exact ha.1
      · exact ih q hq
    · rw [if_neg ha] at hq
      by_cases ht : r.taken file hdr
      · rw [if_pos ht, List.mem_singleton] at hq
        exact hq ▸ ht
      · rw [if_neg ht] at hq
        cases hq

/-- The records that are reached are the first ones. -/
theorem reached_records (n pos : ℕ) :
    ∃ m, reached file hdr (records file hdr n pos) = records file hdr m pos := by
  induction n generalizing pos with
  | zero => exact ⟨0, rfl⟩
  | succ n ih =>
    obtain ⟨m, hm⟩ := ih ((recordAt file pos).stop hdr)
    rw [records, reached]
    split_ifs
    · exact ⟨m + 1, by rw [hm, records]⟩
    · exact ⟨1, rfl⟩
    · exact ⟨0, rfl⟩

/-- A raw chunk is only added with a block size that is not zero. -/
theorem addRecords_raw {fd : ℕ} {s s' : SparseFile} {rs : List Record} {block : UInt32}
    (h : addRecords file hdr fd s rs block = .ok s') :
    ∀ r ∈ rs, r.header.kind = .raw → hdr.blk_sz ≠ 0 := by
  induction rs generalizing s block with
  | nil => exact fun _ hr => nomatch hr
  | cons r rs ih =>
    obtain ⟨s1, hadd, h⟩ := Except.bind_ok_iff.mp h
    intro r' hr' hk hbs
    rcases List.mem_cons.mp hr' with rfl | hr'
    · rw [Record.add, if_pos ⟨hk, hbs⟩] at hadd
      cases hadd
    · exact ih h r' hr' hk hbs

/-- The header of a record that is taken is in the file. -/
theorem Record.taken_present {r : Record} (h : r.taken file hdr) :
    r.start + CHUNK_HEADER_LEN ≤ file.length := by
  simp only [Record.taken, Bool.and_eq_true, decide_eq_true_eq] at h
  exact h.1

/-- The size of a record that is taken is right modulo `2^32`. -/
theorem Record.taken_size {r : Record} (h : r.taken file hdr) (hk : r.header.kind ≠ .unknown)
    (hraw : r.header.kind = .raw → hdr.blk_sz ≠ 0) :
    (r.dataSize hdr).toNat = r.header.payloadSize hdr.blk_sz := by
  simp only [Record.taken, Bool.and_eq_true] at h
  obtain ⟨-, h⟩ := h
  unfold ChunkHeader.payloadSize at h ⊢
  cases hkind : r.header.kind <;> simp only [hkind] at h hk ⊢
  · simpa [beq_false_of_ne (hraw hkind)] using h
  · simp only [Bool.and_eq_true, beq_iff_eq] at h
    rw [h.1]; rfl
  · rw [beq_iff_eq.mp h]; rfl
  · simp only [Bool.and_eq_true, beq_iff_eq] at h
    rw [h.1]; rfl
  · exact absurd rfl hk

/-- The word of a fill or checksum record that is taken is in the file. -/
theorem Record.taken_word {r : Record} (h : r.taken file hdr)
    (hk : r.header.kind = .fill ∨ r.header.kind = .crc32) :
    r.stop hdr ≤ file.length := by
  simp only [Record.taken, Bool.and_eq_true] at h
  obtain ⟨-, h⟩ := h
  unfold Record.stop ChunkHeader.payloadSize
  rcases hk with hk | hk <;> simp only [hk, Bool.and_eq_true, decide_eq_true_eq] at h ⊢
  · exact h.2
  · exact h.2

/-- A chunk header is not longer than `2^16` bytes, so that a total size is exact unless it is
below the size of the header. -/
theorem Record.dataSize_exact {r : Record} {n : ℕ} (h : (r.dataSize hdr).toNat = n) :
    r.header.total_sz.toNat = hdr.chunk_hdr_sz.toNat + n ∨
      (r.header.total_sz.toNat < hdr.chunk_hdr_sz.toNat ∧
        r.header.total_sz.toNat + 2 ^ 32 = hdr.chunk_hdr_sz.toNat + n) := by
  have h1 := r.header.total_sz.toNat_lt
  have h2 := hdr.chunk_hdr_sz.toNat_lt
  have h3 : (hdr.chunk_hdr_sz.toUInt32).toNat = hdr.chunk_hdr_sz.toNat := by simp
  unfold Record.dataSize at h
  rw [UInt32.toNat_sub, h3] at h
  omega

/-- A record that is followed by one whose header is in the file ends inside the file. -/
theorem records_stop {n pos : ℕ}
    (h : ∀ r ∈ records file hdr n pos, r.start + CHUNK_HEADER_LEN ≤ file.length) :
    ∀ r ∈ records file hdr n pos, (records file hdr n pos).getLast? = some r ∨
      r.stop hdr ≤ file.length := by
  induction n generalizing pos with
  | zero => exact fun _ hr => nomatch hr
  | succ n ih =>
    intro r hr
    rcases List.mem_cons.mp hr with rfl | hr
    · cases n with
      | zero => exact Or.inl rfl
      | succ n =>
        have hnext : (recordAt file pos).stop hdr + CHUNK_HEADER_LEN ≤ file.length :=
          h _ (List.mem_cons_of_mem _ List.mem_cons_self)
        exact Or.inr (by omega)
    · rcases ih (fun r hr => h r (List.mem_cons_of_mem _ hr)) r hr with hl | hl
      · refine Or.inl ?_
        cases n with
        | zero => cases hr
        | succ n => rw [records, records, List.getLast?_cons_cons]; exact hl
      · exact Or.inr hl

end

/-- A file that is of none of the kinds of malformed files that the importer lets through. -/
structure NoSlip (file : List UInt8) : Prop where
  /-- No chunk is of an unknown type. -/
  kind : ∀ r ∈ fileRecords file, r.header.kind ≠ .unknown
  /-- The total size of a raw chunk is not below the size of its header. -/
  total_sz : ∀ r ∈ fileRecords file, r.header.kind = .raw →
    (fileHeader file).chunk_hdr_sz.toNat ≤ r.header.total_sz.toNat
  /-- The blocks of the chunks do not add up to `2^32`. -/
  total : totalBlocks (fileRecords file) < 2 ^ 32
  /-- A raw chunk at the end of the file is not cut off. -/
  last : ∀ r, (fileRecords file).getLast? = some r → r.header.kind = .raw →
    r.header.payloadSize (fileHeader file).blk_sz = 0 ∨ r.stop (fileHeader file) ≤ file.length

/-- In a file that the importer accepts, every record is accepted, RAW chunks have a block size, and
the blocks add up in 32 bits. -/
theorem accepted_records {fd : ℕ} {file : List UInt8} {s : SparseFile}
    (himp : importedFile fd file = .ok s) (hfin : finishes file) :
    (∀ r ∈ fileRecords file, r.accepted file (fileHeader file)) ∧
      (∀ r ∈ fileRecords file, r.header.kind = .raw → (fileHeader file).blk_sz ≠ 0) ∧
      totalBlocks (fileRecords file) % 2 ^ 32 = (fileHeader file).total_blks.toNat := by
  simp only [finishes, Bool.and_eq_true, beq_iff_eq] at hfin
  obtain ⟨hall, hsum⟩ := hfin
  rw [importedFile, reached_eq hall] at himp
  refine ⟨List.all_eq_true.mp hall, addRecords_raw himp, ?_⟩
  rw [← hsum, toNat_blockAfter, UInt32.toNat_zero, Nat.zero_add]

/-- **What the importer accepts.** A file that is imported, with or without a checksum, is well
formed exactly when it is of none of the four kinds. -/
theorem wellFormed_iff_noSlip {fd : ℕ} {file : List UInt8} {crc : Bool} {s : SparseFile}
    (h : sparseFileImport fd file crc = .ok (some s)) : WellFormed file ↔ NoSlip file := by
  obtain ⟨hh, himp, hfin, -⟩ := sparseFileImport_some h
  obtain ⟨hacc, hraw, hsum⟩ := accepted_records himp hfin
  -- An accepted record is one that was taken.
  have htaken : ∀ r ∈ fileRecords file, r.taken file (fileHeader file) := fun r hr => by
    have := hacc r hr
    simp only [Record.accepted, Bool.and_eq_true] at this
    exact this.1
  constructor
  · intro hw
    refine ⟨fun r hr => (hw.records r hr).kind, fun r hr _ => ?_, ?_, fun r hr _ => ?_⟩
    · rw [(hw.records r hr).total_sz]; exact Nat.le_add_right _ _
    · rw [hw.total_blks]; exact (fileHeader file).total_blks.toNat_lt
    · exact (hw.records r (List.mem_of_getLast? hr)).payload
  · intro hn
    refine ⟨hh, fun r hr => ⟨Record.taken_present (htaken r hr), hn.kind r hr, ?_, ?_⟩, ?_⟩
    · -- The size was compared in 32 bits, and is exact but for a raw chunk of 4 GiB.
      have hsize := Record.taken_size (htaken r hr) (hn.kind r hr) (hraw r hr)
      have hhsz := (fileHeader file).chunk_hdr_sz.toNat_lt
      rcases Record.dataSize_exact hsize with he | ⟨hlt, he⟩
      · exact he
      · -- Only the size of a raw chunk can be so large.
        by_cases hk : r.header.kind = .raw
        · exact absurd (hn.total_sz r hr hk) (by omega)
        · have : r.header.payloadSize (fileHeader file).blk_sz ≤ 4 := by
            unfold ChunkHeader.payloadSize
            cases hkind : r.header.kind <;> simp_all
          omega
    · -- A fill and a checksum are read, so their words are in the file.
      by_cases hk : r.header.kind = .fill ∨ r.header.kind = .crc32
      · exact Or.inr (Record.taken_word (htaken r hr) hk)
      by_cases hkr : r.header.kind = .raw
      · -- A raw chunk is seeked over: the next header shows that it is there, and the last has none
        -- behind.
        rcases records_stop (fun r hr => Record.taken_present (htaken r hr)) r hr with hl | hl
        · exact hn.last r hl hkr
        · exact Or.inr hl
      · left
        unfold ChunkHeader.payloadSize
        cases hkind : r.header.kind <;> simp_all
    · rw [← hsum, Nat.mod_eq_of_lt hn.total]

/-- A file with one fill chunk of one block, as the importer takes it. -/
theorem wellFormed_iff_noSlip_fill :
    WellFormed (SparseHeader.encode ⟨SPARSE_HEADER_MAGIC, 1, 0, 28, 12, 4096, 1, 1, 0⟩ ++
        (ChunkHeader.encode ⟨CHUNK_TYPE_FILL, 0, 1, 16⟩ ++ [1, 2, 3, 4])) ↔
      NoSlip (SparseHeader.encode ⟨SPARSE_HEADER_MAGIC, 1, 0, 28, 12, 4096, 1, 1, 0⟩ ++
        (ChunkHeader.encode ⟨CHUNK_TYPE_FILL, 0, 1, 16⟩ ++ [1, 2, 3, 4])) :=
  @wellFormed_iff_noSlip 0 _ false ⟨4096, 4096, ⟨[⟨0, 0, 4096, .fill 0x04030201⟩], none, 4096, 1⟩⟩
    (by decide +kernel)

/-- A file whose only chunk is of no known type is imported, with and without a checksum. -/
theorem unknown_chunk_is_imported :
    (∀ crc, ∃ s, sparseFileImport 0
      (SparseHeader.encode ⟨SPARSE_HEADER_MAGIC, 1, 0, 28, 12, 4096, 0, 1, 0⟩ ++
        ChunkHeader.encode ⟨0xCAC5, 0, 7, 99⟩) crc = .ok (some s)) ∧
    ¬ WellFormed (SparseHeader.encode ⟨SPARSE_HEADER_MAGIC, 1, 0, 28, 12, 4096, 0, 1, 0⟩ ++
        ChunkHeader.encode ⟨0xCAC5, 0, 7, 99⟩) := by
  refine ⟨fun crc => ⟨sparseFileNew 4096 0, by cases crc <;> decide +kernel⟩, fun h => ?_⟩
  exact (h.records _ List.mem_cons_self).kind (by decide)

/-! ## Sparse or raw -/

/-- The raw import of a file, with the block size of `sparse_file_import_auto`. -/
def rawImport (fd : ℕ) (file : List UInt8) : Except Fault (Option SparseFile) :=
  nullOnError (sparseFileReadNormal (sparseFileNew 4096 file.length) ⟨fd, file, 0⟩)

/-- Where all bytes that are left are in the file, no read of a raw file fails. -/
theorem readNormalLoop_ne_ret {fuel : ℕ} {s : SparseFile} {fd : InFile} {block : UInt32}
    {remain offset : ℤ} (h : fd.pos + remain.toNat ≤ fd.bytes.length) (code : ℤ) :
    readNormalLoop fuel s fd block remain offset ≠ .error (.ret code) := by
  induction fuel generalizing s fd block remain offset with
  | zero =>
    unfold readNormalLoop
    split_ifs <;> exact fun h => nomatch h
  | succ fuel ih =>
    unfold readNormalLoop
    by_cases hr : remain > 0
    swap
    · rw [if_neg hr]
      exact fun h => nomatch h
    have hread := toU32_min_toNat hr s.block_size
    have hle : fd.pos + (min remain s.block_size.toNat).toNat ≤ fd.bytes.length := by omega
    simp only [if_pos hr, hread, readOrStop, readAll, hle, or_true, if_true, bind, Except.bind]
    generalize hadd : added _ = r
    cases r with
    | ok s' => exact ih (by dsimp only; omega)
    | error e =>
      -- An addition does not return; it can only fault.
      intro heq
      cases heq
      unfold added at hadd
      split at hadd <;> cases hadd

/-- The raw import of a file never returns `NULL`. -/
theorem rawImport_ne_none (fd : ℕ) (file : List UInt8) : rawImport fd file ≠ .ok none := by
  intro h
  unfold rawImport nullOnError at h
  split at h
  · cases h
  · next code hread => exact readNormalLoop_ne_ret (by simp [sparseFileNew]) code hread
  · cases h

/-- **Sparse or raw.** `sparse_file_import_auto` decides by the magic number, and leaves the result to
the importer of the kind that it has decided for, exactly when the file does not start with the magic
number or the sparse importer takes it. -/
theorem sparseFileImportAuto_eq_iff {fd : ℕ} {file : List UInt8} {crc : Bool} :
    sparseFileImportAuto fd file crc =
        (if (fileHeader file).magic = SPARSE_HEADER_MAGIC then sparseFileImport fd file crc
          else rawImport fd file) ↔
      ((fileHeader file).magic = SPARSE_HEADER_MAGIC →
        sparseFileImport fd file crc ≠ .ok none) := by
  -- The fallback is taken whenever the sparse import returns nothing.
  have hauto : sparseFileImportAuto fd file crc =
      match sparseFileImport fd file crc with
      | .error f => .error f
      | .ok none => rawImport fd file
      | .ok (some s) => .ok (some s) := by
    unfold sparseFileImportAuto
    cases sparseFileImport fd file crc with
    | error f => rfl
    | ok r => cases r <;> rfl
  rw [hauto]
  by_cases hmagic : (fileHeader file).magic = SPARSE_HEADER_MAGIC
  · rw [if_pos hmagic]
    constructor
    · intro heq _ hnull
      rw [hnull] at heq
      exact rawImport_ne_none fd file heq
    · intro hnull
      cases hi : sparseFileImport fd file crc with
      | error f => rfl
      | ok r =>
        cases r with
        | none => exact absurd hi (hnull hmagic)
        | some s => rfl
  · -- Without the magic number the sparse importer gives up at the header.
    have hnone : sparseFileImport fd file crc = .ok none := by
      rw [sparseFileImport_header, if_neg fun h => hmagic h.magic]
    rw [if_neg hmagic, hnone]
    exact iff_of_true rfl fun h => absurd h hmagic

/-- A sparse image that announces a block and has no chunk is read as a raw file of 28 bytes. -/
theorem broken_image_is_read_raw :
    28 ≤ (SparseHeader.encode ⟨SPARSE_HEADER_MAGIC, 1, 0, 28, 12, 4096, 1, 0, 0⟩).length ∧
    (fileHeader (SparseHeader.encode ⟨SPARSE_HEADER_MAGIC, 1, 0, 28, 12, 4096, 1, 0, 0⟩)).magic =
      SPARSE_HEADER_MAGIC ∧
    sparseFileImport 0 (SparseHeader.encode ⟨SPARSE_HEADER_MAGIC, 1, 0, 28, 12, 4096, 1, 0, 0⟩)
      false = .ok none ∧
    sparseFileImportAuto 0
      (SparseHeader.encode ⟨SPARSE_HEADER_MAGIC, 1, 0, 28, 12, 4096, 1, 0, 0⟩) false =
        .ok (some ⟨4096, 28, ⟨[⟨0, 0, 28, .fd 0 0⟩], none, 4096, 1⟩⟩) := by
  decide +kernel

end AmlogicToolkit.Simg
