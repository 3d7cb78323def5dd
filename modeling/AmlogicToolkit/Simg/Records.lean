import AmlogicToolkit.Simg.Adds
import AmlogicToolkit.Simg.SparseRead

/-!
# The records of a sparse file

The chunks of a sparse file as records at the positions where the reader looks for them, what a
well-formed file is, and what the reader does on the records: it adds the blocks of the records up
to the first one that it does not take, and then it either goes on to the end or returns an error
(`chunkLoop_fault`, `chunkLoop_ok`, `chunkLoop_ret`). A checksum makes the reader stricter, and
changes nothing in what it adds (`chunkLoop_without_crc`).
-/

namespace AmlogicToolkit.Simg

open Bytes

/-! ## Records -/

/-- The four types of chunks, and one for all others. -/
inductive ChunkKind where
  /-- `CHUNK_TYPE_RAW`. -/
  | raw
  /-- `CHUNK_TYPE_FILL`. -/
  | fill
  /-- `CHUNK_TYPE_DONT_CARE`. -/
  | dontCare
  /-- `CHUNK_TYPE_CRC32`. -/
  | crc32
  /-- Any other type. -/
  | unknown
  deriving DecidableEq

/-- The kind that the type of a chunk stands for. -/
def ChunkHeader.kind (h : ChunkHeader) : ChunkKind :=
  if h.chunk_type = CHUNK_TYPE_RAW then .raw
  else if h.chunk_type = CHUNK_TYPE_FILL then .fill
  else if h.chunk_type = CHUNK_TYPE_DONT_CARE then .dontCare
  else if h.chunk_type = CHUNK_TYPE_CRC32 then .crc32
  else .unknown

/-- The size of the payload that the type asks for. -/
def ChunkHeader.payloadSize (blk_sz : UInt32) (h : ChunkHeader) : ℕ :=
  match h.kind with
  | .raw => h.chunk_sz.toNat * blk_sz.toNat
  | .fill => 4
  | .dontCare => 0
  | .crc32 => 4
  | .unknown => 0

/-- The blocks of the expanded image that a chunk stands for. -/
def ChunkHeader.blocks (h : ChunkHeader) : UInt32 :=
  match h.kind with
  | .raw => h.chunk_sz
  | .fill => h.chunk_sz
  | .dontCare => h.chunk_sz
  | .crc32 => 0
  | .unknown => 0

/-- A chunk of a file: where it starts, and its header. -/
structure Record where
  /-- The position of the header. -/
  start : ℕ
  /-- The header. -/
  header : ChunkHeader
  deriving DecidableEq

section

variable (file : List UInt8) (hdr : SparseHeader)

/-- The payload starts behind the header of the chunk. -/
def Record.payload (r : Record) : ℕ := r.start + hdr.chunk_hdr_sz.toNat

/-- The next record starts behind the payload. -/
def Record.stop (r : Record) : ℕ := r.payload hdr + r.header.payloadSize hdr.blk_sz

/-- The record at a position of the file. -/
def recordAt (pos : ℕ) : Record := ⟨pos, .decode (slice file pos CHUNK_HEADER_LEN)⟩

/-- The records from a position on. -/
def records : ℕ → ℕ → List Record
  | 0, _ => []
  | n + 1, pos => recordAt file pos :: records n ((recordAt file pos).stop hdr)

/-- The fill word of a record. -/
def Record.word (r : Record) : UInt32 := read32 file (r.payload hdr)

/-- `chunk_data_size`: the bytes of the chunk without its header, in 32 bits. -/
def Record.dataSize (r : Record) : UInt32 := r.header.total_sz - hdr.chunk_hdr_sz.toUInt32

/-- A record of the format: its header and its payload are in the file, it has one of the four
types, and its total size is right. -/
structure Record.Ok (r : Record) : Prop where
  /-- The 12 bytes of the header are in the file. -/
  present : r.start + CHUNK_HEADER_LEN ≤ file.length
  /-- The type is known. -/
  kind : r.header.kind ≠ .unknown
  /-- The total size is that of the header and the payload, as integers. -/
  total_sz : r.header.total_sz.toNat = hdr.chunk_hdr_sz.toNat + r.header.payloadSize hdr.blk_sz
  /-- The whole payload is in the file. -/
  payload : r.header.payloadSize hdr.blk_sz = 0 ∨ r.stop hdr ≤ file.length

instance (r : Record) : Decidable (r.Ok file hdr) :=
  decidable_of_iff (r.start + CHUNK_HEADER_LEN ≤ file.length ∧ r.header.kind ≠ .unknown ∧
      r.header.total_sz.toNat = hdr.chunk_hdr_sz.toNat + r.header.payloadSize hdr.blk_sz ∧
      (r.header.payloadSize hdr.blk_sz = 0 ∨ r.stop hdr ≤ file.length))
    ⟨fun h => ⟨h.1, h.2.1, h.2.2.1, h.2.2.2⟩, fun h => ⟨h.present, h.kind, h.total_sz, h.payload⟩⟩

/-- The blocks of a list of records, as an exact sum. -/
def totalBlocks (rs : List Record) : ℕ := (rs.map fun r => r.header.blocks.toNat).sum

end

/-- The header that the first bytes of a file encode. -/
def fileHeader (file : List UInt8) : SparseHeader := .decode (slice file 0 SPARSE_HEADER_LEN)

/-- The records of a file: as many as its header announces. -/
def fileRecords (file : List UInt8) : List Record :=
  records file (fileHeader file) (fileHeader file).total_chunks.toNat
    (fileHeader file).file_hdr_sz.toNat

/-- What the importer asks of the header. -/
structure HeaderOk (file : List UInt8) : Prop where
  /-- The header is in the file. -/
  present : SPARSE_HEADER_LEN ≤ file.length
  /-- The magic number. -/
  magic : (fileHeader file).magic = SPARSE_HEADER_MAGIC
  /-- The major version. -/
  major_version : (fileHeader file).major_version = SPARSE_HEADER_MAJOR_VER
  /-- The file header is long enough. -/
  file_hdr_sz : SPARSE_HEADER_LEN ≤ (fileHeader file).file_hdr_sz.toNat
  /-- The chunk headers are long enough. -/
  chunk_hdr_sz : CHUNK_HEADER_LEN ≤ (fileHeader file).chunk_hdr_sz.toNat

instance (file : List UInt8) : Decidable (HeaderOk file) :=
  decidable_of_iff (SPARSE_HEADER_LEN ≤ file.length ∧
      (fileHeader file).magic = SPARSE_HEADER_MAGIC ∧
      (fileHeader file).major_version = SPARSE_HEADER_MAJOR_VER ∧
      SPARSE_HEADER_LEN ≤ (fileHeader file).file_hdr_sz.toNat ∧
      CHUNK_HEADER_LEN ≤ (fileHeader file).chunk_hdr_sz.toNat)
    ⟨fun h => ⟨h.1, h.2.1, h.2.2.1, h.2.2.2.1, h.2.2.2.2⟩,
      fun h => ⟨h.present, h.magic, h.major_version, h.file_hdr_sz, h.chunk_hdr_sz⟩⟩

/-- A sparse file is well formed when its header and its records are right and fill the image. -/
structure WellFormed (file : List UInt8) : Prop where
  /-- The header is right. -/
  header : HeaderOk file
  /-- All records are. -/
  records : ∀ r ∈ fileRecords file, r.Ok file (fileHeader file)
  /-- The chunks add up to the size of the image. -/
  total_blks : totalBlocks (fileRecords file) = (fileHeader file).total_blks.toNat

instance (file : List UInt8) : Decidable (WellFormed file) :=
  decidable_of_iff (HeaderOk file ∧ (∀ r ∈ fileRecords file, r.Ok file (fileHeader file)) ∧
      totalBlocks (fileRecords file) = (fileHeader file).total_blks.toNat)
    ⟨fun h => ⟨h.1, h.2.1, h.2.2⟩, fun h => ⟨h.header, h.records, h.total_blks⟩⟩

/-! ## What the reader takes -/

section

variable (file : List UInt8) (hdr : SparseHeader)

/-- Whether the reader gets past its checks of a record, so that it adds the block of the record,
when it has one. A raw chunk with a block size of zero stops the program there. -/
def Record.taken (r : Record) : Bool :=
  r.start + CHUNK_HEADER_LEN ≤ file.length &&
    match r.header.kind with
    | .raw => hdr.blk_sz == 0 || (r.dataSize hdr).toNat == r.header.payloadSize hdr.blk_sz
    | .fill => r.dataSize hdr == 4 && decide (r.payload hdr + 4 ≤ file.length)
    | .dontCare => r.dataSize hdr == 0
    | .crc32 => r.dataSize hdr == 4 && decide (r.payload hdr + 4 ≤ file.length)
    | .unknown => true

/-- Whether the reader goes on behind a record: the block count is not negative as an `int`. -/
def Record.accepted (r : Record) : Bool :=
  r.taken file hdr && decide (r.header.blocks.toNat < 2 ^ 31)

/-- The records whose blocks the reader adds: those that it accepts, and the next one when it takes
it. -/
def reached : List Record → List Record
  | [] => []
  | r :: rs =>
    if r.accepted file hdr then r :: reached rs
    else if r.taken file hdr then [r] else []

/-- What the blocks of a record are filled from, when it has any. -/
def Record.source? (fd : ℕ) (r : Record) : Option BlockSource :=
  match r.header.kind with
  | .raw => some (.fd fd (r.payload hdr))
  | .fill => some (.fill (r.word file hdr))
  | _ => none

/-- The call that a record makes at a block. -/
def Record.call? (fd : ℕ) (r : Record) (block : UInt32) : Option Call :=
  (r.source? file hdr fd).map fun source => ⟨source, r.header.chunk_sz * hdr.blk_sz, block⟩

/-- What a record does to a sparse file at a block. -/
def Record.add (fd : ℕ) (s : SparseFile) (r : Record) (block : UInt32) : Except Fault SparseFile :=
  if r.header.kind = .raw ∧ hdr.blk_sz = 0 then .error .divByZero
  else
    match r.call? file hdr fd block with
    | none => .ok s
    | some c => c.add s

/-- What a list of records does to a sparse file from a block on. -/
def addRecords (fd : ℕ) : SparseFile → List Record → UInt32 → Except Fault SparseFile
  | s, [], _ => .ok s
  | s, r :: rs, block => do
    addRecords fd (← r.add file hdr fd s block) rs (block + r.header.blocks)

/-- The calls of a list of records from a block on. -/
def calls (fd : ℕ) : List Record → UInt32 → List Call
  | [], _ => []
  | r :: rs, block => (r.call? file hdr fd block).toList ++ calls fd rs (block + r.header.blocks)

/-- With a block size that is not zero, or without raw chunks, the records do what their calls do. -/
theorem addRecords_eq_addAll (fd : ℕ) (s : SparseFile) {rs : List Record}
    (hraw : ∀ r ∈ rs, r.header.kind = .raw → hdr.blk_sz ≠ 0) (block : UInt32) :
    addRecords file hdr fd s rs block = addAll s (calls file hdr fd rs block) := by
  induction rs generalizing s block with
  | nil => rfl
  | cons r rs ih =>
    have hadd : r.add file hdr fd s block = addAll s (r.call? file hdr fd block).toList := by
      unfold Record.add
      rw [if_neg fun h => hraw r List.mem_cons_self h.1 h.2]
      cases r.call? file hdr fd block with
      | none => rfl
      | some c =>
        simp only [addAll, Option.toList_some, List.foldlM_cons, List.foldlM_nil]
        cases c.add s <;> rfl
    simp only [addRecords, calls, hadd]
    rw [addAll, addAll, List.foldlM_append]
    cases List.foldlM Call.add s (r.call? file hdr fd block).toList with
    | error f => rfl
    | ok s' => exact ih s' (fun r hr => hraw r (List.mem_cons_of_mem _ hr)) _

end

/-! ## The reader on one record -/

/-- `process_chunk` in one equation, by the kind that the type of the chunk stands for. -/
theorem processChunk_eq (st : ReadState) (offset : ℤ) (hsz : UInt32) (h : ChunkHeader)
    (cur : UInt32) :
    processChunk st offset hsz h cur =
      match h.kind with
      | .raw => do
        return (← processRawChunk st (h.total_sz - hsz) offset h.chunk_sz cur,
          toInt h.chunk_sz.toNat)
      | .fill => do
        return (← processFillChunk st (h.total_sz - hsz) h.chunk_sz cur, toInt h.chunk_sz.toNat)
      | .dontCare => do
        return (← processSkipChunk st (h.total_sz - hsz) h.chunk_sz, toInt h.chunk_sz.toNat)
      | .crc32 => do return (← processCrc32Chunk st (h.total_sz - hsz), 0)
      | .unknown => .ok (st, 0) := by
  unfold processChunk ChunkHeader.kind
  by_cases h1 : h.chunk_type = CHUNK_TYPE_RAW
  · simp only [if_pos h1]
  by_cases h2 : h.chunk_type = CHUNK_TYPE_FILL
  · simp only [if_neg h1, if_pos h2]
  by_cases h3 : h.chunk_type = CHUNK_TYPE_DONT_CARE
  · simp only [if_neg h1, if_neg h2, if_pos h3]
    unfold processSkipChunk
    by_cases h0 : h.total_sz - hsz ≠ 0
    · simp only [if_pos h0]; rfl
    · simp only [if_neg h0]; rfl
  by_cases h4 : h.chunk_type = CHUNK_TYPE_CRC32
  · simp only [if_neg h1, if_neg h2, if_neg h3, if_pos h4]
  · simp only [if_neg h1, if_neg h2, if_neg h3, if_neg h4]

/-- The two checks of `process_raw_chunk`: the size is the exact product. -/
theorem divides_iff {size blocks bs : UInt32} (hbs : bs ≠ 0) :
    (size % bs = 0 ∧ size / bs = blocks) ↔ size.toNat = blocks.toNat * bs.toNat := by
  have hpos : 0 < bs.toNat := toNat_pos_of_ne_zero hbs
  rw [← UInt32.toNat_inj, ← UInt32.toNat_inj, UInt32.toNat_mod, UInt32.toNat_div,
    UInt32.toNat_zero]
  constructor
  · rintro ⟨h1, h2⟩
    have := Nat.div_add_mod' size.toNat bs.toNat
    rw [h1, h2] at this
    omega
  · intro h
    rw [h]
    exact ⟨Nat.mul_mod_left _ _, Nat.mul_div_cancel _ hpos⟩

/-- A read of bytes that are in the file. -/
theorem readOrStop_eq (fd : InFile) {len : ℕ} (h : len ≠ 0) :
    readOrStop fd len = if fd.pos + len ≤ fd.bytes.length
      then .ok (slice fd.bytes fd.pos len, { fd with pos := fd.pos + len })
      else .error (.ret (-EINVAL)) := by
  unfold readOrStop readAll
  by_cases h1 : fd.pos + len ≤ fd.bytes.length
  · simp only [h1, or_true, if_true]
  · simp only [h, h1, or_self, if_false]

/-- A word at the start of a slice is the word at its offset. -/
theorem read32_slice (l : List UInt8) (off : ℕ) : read32 (slice l off 4) 0 = read32 l off := by
  simp only [read32, @slice_slice _ l off 4 0 4 (Nat.le_refl 4),
    Nat.add_zero]

/-- The loop of `process_raw_chunk` takes in what stands in the file, when all of it is there. -/
theorem rawCrcLoop_eq {fuel len : ℕ} {f : InFile} {crc : UInt32} (hfuel : len ≤ fuel) :
    rawCrcLoop fuel len f crc = if len = 0 ∨ f.pos + len ≤ f.bytes.length
      then .ok ({ f with pos := f.pos + len }, sparseCrc32 crc (slice f.bytes f.pos len))
      else .error (.ret (-EINVAL)) := by
  induction fuel generalizing len f crc with
  | zero =>
    obtain rfl : len = 0 := by omega
    rw [rawCrcLoop, if_pos (Or.inl rfl), slice_zero, sparseCrc32_nil]
    rfl
  | succ fuel ih =>
    unfold rawCrcLoop
    by_cases hlen : len = 0
    · subst hlen
      rw [if_neg (by decide), if_pos (Or.inl rfl), slice_zero, sparseCrc32_nil]
      rfl
    · -- One pass takes in what fits into the buffer, and the rest is taken in behind it.
      obtain ⟨m, hm⟩ : ∃ m, min len COPY_BUF_SIZE = m := ⟨_, rfl⟩
      have hm0 : m ≠ 0 ∧ m ≤ len := by
        simp only [COPY_BUF_SIZE] at hm
        omega
      simp only [hm]
      rw [if_pos hlen, readOrStop_eq _ hm0.1]
      by_cases hp : f.pos + m ≤ f.bytes.length
      · have hsplit : m + (len - m) = len := Nat.add_sub_cancel' hm0.2
        have hslice : slice f.bytes f.pos len =
            slice f.bytes f.pos m ++ slice f.bytes (f.pos + m) (len - m) := by
          rw [← slice_add, hsplit]
        have hin : (len - m = 0 ∨ f.pos + len ≤ f.bytes.length) ↔
            (len = 0 ∨ f.pos + len ≤ f.bytes.length) := by omega
        rw [if_pos hp]
        refine Eq.trans (@ih (len - m) { f with pos := f.pos + m } _ (by omega)) ?_
        rw [hslice, sparseCrc32_append]
        simp only [Nat.add_assoc, hsplit, hin]
      · rw [if_neg hp, if_neg (by omega)]
        rfl

/-- `process_raw_chunk` in one equation: the size must be that of the blocks, which are added from
the offset on. -/
theorem processRawChunk_eq (st : ReadState) (size : UInt32) (offset : ℤ) (blocks cur : UInt32) :
    processRawChunk st size offset blocks cur =
      if st.s.block_size = 0 then .error (.fault .divByZero)
      else if size.toNat = blocks.toNat * st.s.block_size.toNat then do
        let s ← added (sparseFileAddFd st.s st.fd.fd offset (blocks * st.s.block_size) cur)
        let len := blocks.toNat * st.s.block_size.toNat
        let fd := { st.fd with pos := st.fd.pos + len }
        match st.crc32 with
        | some crc =>
          if len = 0 ∨ st.fd.pos + len ≤ st.fd.bytes.length then
            .ok ⟨s, fd, some (sparseCrc32 crc (slice st.fd.bytes st.fd.pos len))⟩
          else .error (.ret (-EINVAL))
        | none => .ok ⟨s, fd, none⟩
      else .error (.ret (-EINVAL)) := by
  -- The two checks of the source, for a remainder and for the quotient, are one equation.
  unfold processRawChunk
  by_cases hbs : st.s.block_size = 0
  · simp only [if_pos hbs]
  simp only [if_neg hbs]
  by_cases h : size.toNat = blocks.toNat * st.s.block_size.toNat
  · obtain ⟨h1, h2⟩ := (divides_iff hbs).mpr h
    have hlen : (blocks * st.s.block_size).toNat = blocks.toNat * st.s.block_size.toNat := by
      rw [UInt32.toNat_mul, ← h, Nat.mod_eq_of_lt size.toNat_lt]
    simp only [h1, h2, if_pos h, ne_eq, not_true_eq_false, if_false, hlen,
      rawCrcLoop_eq (Nat.le_refl _)]
    cases added (sparseFileAddFd st.s st.fd.fd offset (blocks * st.s.block_size) cur) with
    | error e => rfl
    | ok s =>
      obtain ⟨_, fd, crc⟩ := st
      cases crc with
      | none => rfl
      | some crc =>
        simp only [bind, Except.bind]
        split_ifs <;> rfl
  · -- An equation that fails makes one of the two checks fail.
    rw [if_neg h]
    by_cases h1 : size % st.s.block_size = 0
    · have h2 : size / st.s.block_size ≠ blocks := fun h2 => h ((divides_iff hbs).mp ⟨h1, h2⟩)
      simp only [h1, h2, ne_eq, not_true_eq_false, not_false_eq_true, if_true, if_false]
    · simp only [h1, ne_eq, not_false_eq_true, if_true]

/-- `process_fill_chunk` in one equation: the size must be 4, and the word that is read is added. -/
theorem processFillChunk_eq (st : ReadState) (size blocks cur : UInt32) :
    processFillChunk st size blocks cur =
      if size = 4 ∧ st.fd.pos + 4 ≤ st.fd.bytes.length then do
        let word := read32 st.fd.bytes st.fd.pos
        let s ← added (sparseFileAddFill st.s word (blocks * st.s.block_size) cur)
        let len := blocks.toNat * st.s.block_size.toNat
        .ok ⟨s, { st.fd with pos := st.fd.pos + 4 },
          st.crc32.map (bufCrcLoop (cycle (COPY_BUF_SIZE / 4) (le32 word)) len len)⟩
      else .error (.ret (-EINVAL)) := by
  unfold processFillChunk
  by_cases hd : size = 4
  · by_cases hp : st.fd.pos + 4 ≤ st.fd.bytes.length
    · simp only [hd, hp, ne_eq, not_true_eq_false, if_false, and_self, if_true, bind, Except.bind,
        readOrStop_eq st.fd (show (4 : ℕ) ≠ 0 by decide), read32_slice, ofNat_mul]
      rfl
    · simp only [hd, hp, ne_eq, not_true_eq_false, if_false, and_false, bind, Except.bind,
        readOrStop_eq st.fd (show (4 : ℕ) ≠ 0 by decide)]
  · simp only [hd, ne_eq, not_false_eq_true, if_true, false_and, if_false]

/-- `process_crc32_chunk` in one equation: the size must be 4, and the word that is read is
compared. -/
theorem processCrc32Chunk_eq (st : ReadState) (size : UInt32) :
    processCrc32Chunk st size =
      if (size = 4 ∧ st.fd.pos + 4 ≤ st.fd.bytes.length) ∧
          st.crc32.all (read32 st.fd.bytes st.fd.pos == ·) then
        .ok { st with fd := { st.fd with pos := st.fd.pos + 4 } }
      else .error (.ret (-EINVAL)) := by
  unfold processCrc32Chunk
  by_cases hd : size = 4
  · by_cases hp : st.fd.pos + 4 ≤ st.fd.bytes.length
    · obtain ⟨s, fd, crc⟩ := st
      simp only [hd, hp, ne_eq, not_true_eq_false, if_false, and_self, true_and, if_true, bind,
        Except.bind, readOrStop_eq fd (show (4 : ℕ) ≠ 0 by decide), read32_slice]
      cases crc with
      | none => rfl
      | some crc =>
        simp only [Option.all_some, beq_iff_eq]
        by_cases hc : read32 fd.bytes fd.pos = crc
        · simp only [hc, not_true_eq_false, if_false, if_true]
          rfl
        · simp only [hc, not_false_eq_true, if_true, if_false]
    · simp only [hd, hp, ne_eq, not_true_eq_false, if_false, and_false, false_and, bind,
        Except.bind, readOrStop_eq st.fd (show (4 : ℕ) ≠ 0 by decide)]
  · simp only [hd, ne_eq, not_false_eq_true, if_true, false_and, if_false]

section

variable {file : List UInt8} {hdr : SparseHeader}

/-- **One chunk.** Without a checksum, `process_chunk` returns an error on a record that it does not
take, and else does what the record does and stops behind it. -/
theorem processChunk_none {s : SparseFile} (hs : s.block_size = hdr.blk_sz) (fd : ℕ) (r : Record)
    (hp : r.start + CHUNK_HEADER_LEN ≤ file.length) (cur : UInt32) :
    processChunk ⟨s, ⟨fd, file, r.payload hdr⟩, none⟩ (r.payload hdr) hdr.chunk_hdr_sz.toUInt32
        r.header cur =
      if r.taken file hdr then
        match r.add file hdr fd s cur with
        | .error f => .error (.fault f)
        | .ok s' => .ok (⟨s', ⟨fd, file, r.stop hdr⟩, none⟩, toInt r.header.blocks.toNat)
      else .error (.ret (-EINVAL)) := by
  rw [processChunk_eq]
  have hdata : r.header.total_sz - hdr.chunk_hdr_sz.toUInt32 = r.dataSize hdr := rfl
  -- One kind of chunk at a time, with what its check asks for.
  cases hk : r.header.kind with
  | raw =>
    simp only [hdata, processRawChunk_eq, hs, Record.taken, Record.add, Record.call?,
      Record.source?, Option.map_some, Record.stop, ChunkHeader.payloadSize, ChunkHeader.blocks, hk,
      hp, decide_true, Bool.true_and, true_and]
    by_cases hbs : hdr.blk_sz = 0
    · simp only [hbs, if_true, BEq.rfl, Bool.true_or]
      rfl
    · simp only [hbs, if_false, beq_false_of_ne hbs, Bool.false_or, beq_iff_eq]
      by_cases hd : (r.dataSize hdr).toNat = r.header.chunk_sz.toNat * hdr.blk_sz.toNat
      · simp only [hd, if_true, Call.add]
        cases sparseFileAddFd s fd (r.payload hdr) (r.header.chunk_sz * hdr.blk_sz) cur <;> rfl
      · simp only [hd, if_false]
        rfl
  | fill =>
    simp only [hdata, processFillChunk_eq, hs, Record.taken, Record.add, Record.call?,
      Record.source?, Option.map_some, Option.map_none, Record.stop, ChunkHeader.payloadSize,
      ChunkHeader.blocks, hk, hp, decide_true, Bool.true_and, Bool.and_eq_true, beq_iff_eq,
      decide_eq_true_eq, reduceCtorEq, false_and, if_false]
    by_cases hd : r.dataSize hdr = 4 ∧ r.payload hdr + 4 ≤ file.length
    · simp only [if_pos hd, Call.add, Record.word, bind, Except.bind]
      cases sparseFileAddFill s (read32 file (r.payload hdr))
        (r.header.chunk_sz * hdr.blk_sz) cur <;> rfl
    · simp only [if_neg hd]
      rfl
  | dontCare =>
    simp only [hdata, processSkipChunk, Record.taken, Record.add, Record.call?, Record.source?,
      Option.map_none, Record.stop, ChunkHeader.payloadSize, ChunkHeader.blocks, hk, hp,
      decide_true, Bool.true_and, beq_iff_eq, reduceCtorEq, false_and, if_false]
    by_cases hd : r.dataSize hdr = 0
    · simp only [hd, ne_eq, not_true_eq_false, if_false, if_true]
      rfl
    · simp only [hd, ne_eq, not_false_eq_true, if_true, if_false]
      rfl
  | crc32 =>
    simp only [hdata, processCrc32Chunk_eq, Record.taken, Record.add, Record.call?, Record.source?,
      Option.map_none, Record.stop, ChunkHeader.payloadSize, ChunkHeader.blocks, hk, hp,
      decide_true, Bool.true_and, Bool.and_eq_true, beq_iff_eq, decide_eq_true_eq, reduceCtorEq,
      false_and, if_false, Option.all_none, and_true]
    by_cases hd : r.dataSize hdr = 4 ∧ r.payload hdr + 4 ≤ file.length
    · simp only [if_pos hd, toInt_zero]
      rfl
    · simp only [if_neg hd]
      rfl
  | unknown =>
    simp only [Record.taken, Record.add, Record.call?, Record.source?,
      Option.map_none, Record.stop, ChunkHeader.payloadSize,
      ChunkHeader.blocks, hk, hp, decide_true, Bool.true_and, reduceCtorEq, false_and, if_false,
      if_true, toInt_zero, Nat.add_zero]

/-! ## The reader on all records -/

/-- The block after a list of records, as the 32-bit counter has it. -/
def blockAfter (block : UInt32) : List Record → UInt32
  | [] => block
  | r :: rs => blockAfter (block + r.header.blocks) rs

/-- The block behind the records is their sum, in 32 bits. -/
theorem toNat_blockAfter (block : UInt32) (rs : List Record) :
    (blockAfter block rs).toNat = (block.toNat + totalBlocks rs) % 2 ^ 32 := by
  induction rs generalizing block with
  | nil => exact (Nat.mod_eq_of_lt block.toNat_lt).symm
  | cons r rs ih =>
    have hsum : totalBlocks (r :: rs) = r.header.blocks.toNat + totalBlocks rs := rfl
    rw [blockAfter, ih, UInt32.toNat_add, hsum]
    omega

/-- One pass of the loop takes the record at the position, or stops at the first that is refused. -/
theorem chunkLoop_succ (hsz : CHUNK_HEADER_LEN ≤ hdr.chunk_hdr_sz.toNat) {s : SparseFile}
    (hs : s.block_size = hdr.blk_sz) (fd pos n : ℕ) (cur : UInt32) :
    chunkLoop hdr (n + 1) ⟨s, ⟨fd, file, pos⟩, none⟩ cur =
      if (recordAt file pos).taken file hdr then
        match (recordAt file pos).add file hdr fd s cur with
        | .error f => .error (.fault f)
        | .ok s' =>
          if (recordAt file pos).accepted file hdr then
            chunkLoop hdr n ⟨s', ⟨fd, file, (recordAt file pos).stop hdr⟩, none⟩
              (cur + (recordAt file pos).header.blocks)
          else .error (.ret (toInt (recordAt file pos).header.blocks.toNat))
      else .error (.ret (-EINVAL)) := by
  have hpos : pos + CHUNK_HEADER_LEN + (hdr.chunk_hdr_sz.toNat - CHUNK_HEADER_LEN) =
      (recordAt file pos).payload hdr := by
    simp only [Record.payload, recordAt]; omega
  -- A header that does not fit into the file cannot be read.
  rw [chunkLoop, readOrStop_eq _ (by decide : CHUNK_HEADER_LEN ≠ 0)]
  by_cases hp : pos + CHUNK_HEADER_LEN ≤ file.length
  · have hchunk := @processChunk_none _ hdr _ hs fd (recordAt file pos) hp cur
    have hhead : ChunkHeader.decode (slice file pos CHUNK_HEADER_LEN) =
      (recordAt file pos).header := rfl
    simp only [if_pos hp, bind, Except.bind, hpos, hhead, hchunk]
    -- A chunk that is taken adds its block, or stops at an assertion.
    by_cases ht : (recordAt file pos).taken file hdr
    · simp only [ht, if_true]
      cases (recordAt file pos).add file hdr fd s cur with
      | error f => rfl
      | ok s' =>
        -- The number of blocks is handed back as an int, and a negative one ends the loop.
        simp only [Record.accepted, ht, Bool.true_and, decide_eq_true_eq, toInt_neg_iff, toU32_toInt]
        by_cases hb : (recordAt file pos).header.blocks.toNat < 2 ^ 31
        · rw [if_neg (by omega), if_pos hb]
        · rw [if_pos (by omega), if_neg hb]
    · simp only [ht]
      rfl
  · have ht : (recordAt file pos).taken file hdr = false := by
      simp only [Record.taken, recordAt, hp, decide_false, Bool.false_and]
    simp only [if_neg hp, ht]
    rfl

/-- A record that is added keeps the block size. -/
theorem Record.add_block_size {fd : ℕ} {s s' : SparseFile} {r : Record} {block : UInt32}
    (h : r.add file hdr fd s block = .ok s') : s'.block_size = s.block_size := by
  unfold Record.add at h
  split_ifs at h
  split at h
  · cases h; rfl
  · exact (Call.add_fields h).1

/-- **All chunks.** Without a checksum, the reader adds the blocks of the records that it reaches. It
returns an error when one of the records is not accepted. -/
theorem chunkLoop_none (hsz : CHUNK_HEADER_LEN ≤ hdr.chunk_hdr_sz.toNat) {s : SparseFile}
    (hs : s.block_size = hdr.blk_sz) (fd pos n : ℕ) (cur : UInt32) :
    ∃ fd' code, chunkLoop hdr n ⟨s, ⟨fd, file, pos⟩, none⟩ cur =
      match addRecords file hdr fd s (reached file hdr (records file hdr n pos)) cur with
      | .error f => .error (.fault f)
      | .ok s' =>
        if (records file hdr n pos).all (Record.accepted file hdr) then
          .ok (⟨s', fd', none⟩, blockAfter cur (records file hdr n pos))
        else .error (.ret code) := by
  -- The induction is on the chunks that remain, for every position and every file so far.
  induction n generalizing s pos cur with
  | zero => exact ⟨⟨fd, file, pos⟩, 0, rfl⟩
  | succ n ih =>
    rw [chunkLoop_succ hsz hs]
    simp only [records, reached, List.all_cons, blockAfter]
    -- A chunk that is not taken ends the loop, and no later one is reached.
    by_cases ht : (recordAt file pos).taken file hdr
    · simp only [ht, if_true]
      cases hadd : (recordAt file pos).add file hdr fd s cur with
      | error f =>
        refine ⟨⟨fd, file, pos⟩, 0, ?_⟩
        split_ifs <;> simp only [addRecords, hadd, bind, Except.bind]
      | ok s' =>
        by_cases ha : (recordAt file pos).accepted file hdr
        · obtain ⟨fd', code, heq⟩ := ih ((Record.add_block_size hadd).trans hs)
            ((recordAt file pos).stop hdr) (cur + (recordAt file pos).header.blocks)
          refine ⟨fd', code, ?_⟩
          simp only [ha, if_true, addRecords, hadd, bind, Except.bind, heq, Bool.true_and]
        · refine ⟨⟨fd, file, pos⟩, toInt (recordAt file pos).header.blocks.toNat, ?_⟩
          simp [ha, addRecords, hadd, bind, Except.bind]
    · have ha : (recordAt file pos).accepted file hdr = false := by
        simp only [Record.accepted, ht, Bool.false_and]
      refine ⟨⟨fd, file, pos⟩, -EINVAL, ?_⟩
      simp [ht, ha, addRecords]

/-! ## Checksums -/

/-- What a chunk leaves with a checksum is what it leaves without one, and the file is the same. -/
structure WithoutCrc (f : InFile) (st : ReadState) (plain : Except Stop ReadState) : Prop where
  /-- Without a checksum the chunk leaves the same. -/
  plain_eq : plain = .ok ⟨st.s, st.fd, none⟩
  /-- The file is the same. -/
  bytes : st.fd.bytes = f.bytes
  /-- There is a checksum. -/
  crc32 : ∃ crc, st.crc32 = some crc

section

variable {s : SparseFile} {f : InFile} {crc size blocks cur : UInt32} {offset : ℤ} {st : ReadState}

/-- The payload of a raw chunk has to be in the file. -/
theorem processRawChunk_without_crc
    (hok : processRawChunk ⟨s, f, some crc⟩ size offset blocks cur = .ok st) :
    WithoutCrc f st (processRawChunk ⟨s, f, none⟩ size offset blocks cur) ∧
      (blocks.toNat * s.block_size.toNat = 0 ∨
        f.pos + blocks.toNat * s.block_size.toNat ≤ f.bytes.length) := by
  rw [processRawChunk_eq] at hok ⊢
  split_ifs at hok with hbs hsize
  obtain ⟨s', hadd, hok⟩ := Except.bind_ok_iff.mp hok
  dsimp only at hadd hok
  split_ifs at hok with hin
  cases hok
  refine ⟨⟨?_, rfl, _, rfl⟩, hin⟩
  simp only [if_neg hbs, if_pos hsize, hadd]
  rfl

/-- A FILL chunk that is accepted with the checksum is so without it, and adds the same. -/
theorem processFillChunk_without_crc
    (hok : processFillChunk ⟨s, f, some crc⟩ size blocks cur = .ok st) :
    WithoutCrc f st (processFillChunk ⟨s, f, none⟩ size blocks cur) := by
  rw [processFillChunk_eq] at hok ⊢
  split_ifs at hok with hd
  obtain ⟨s', hadd, hok⟩ := Except.bind_ok_iff.mp hok
  cases hok
  refine ⟨?_, rfl, _, rfl⟩
  dsimp only at hadd
  simp only [if_pos hd, hadd]
  rfl

/-- A skip that is accepted with the checksum is so without it, and adds the same. -/
theorem processSkipChunk_without_crc
    (hok : processSkipChunk ⟨s, f, some crc⟩ size blocks = .ok st) :
    WithoutCrc f st (processSkipChunk ⟨s, f, none⟩ size blocks) := by
  unfold processSkipChunk at hok ⊢
  split_ifs at hok ⊢
  cases hok
  exact ⟨rfl, rfl, _, rfl⟩

/-- A checksum that is accepted when checked is so when not, and adds the same. -/
theorem processCrc32Chunk_without_crc (hok : processCrc32Chunk ⟨s, f, some crc⟩ size = .ok st) :
    WithoutCrc f st (processCrc32Chunk ⟨s, f, none⟩ size) := by
  rw [processCrc32Chunk_eq] at hok ⊢
  split_ifs at hok with hd
  cases hok
  exact ⟨if_pos ⟨hd.1, rfl⟩, rfl, _, rfl⟩

/-- **One chunk** with a checksum is read as without one. -/
theorem processChunk_without_crc {hsz : UInt32} {h : ChunkHeader} {ret : ℤ}
    (hok : processChunk ⟨s, f, some crc⟩ offset hsz h cur = .ok (st, ret)) :
    processChunk ⟨s, f, none⟩ offset hsz h cur = .ok (⟨st.s, st.fd, none⟩, ret) ∧
      st.fd.bytes = f.bytes ∧ (∃ crc', st.crc32 = some crc') ∧
      (h.kind = .raw → h.payloadSize s.block_size = 0 ∨
        f.pos + h.payloadSize s.block_size ≤ f.bytes.length) := by
  rw [processChunk_eq] at hok ⊢
  -- One kind of chunk at a time: the checksum is taken along, and decides nothing else.
  cases hk : h.kind with
  | raw =>
    simp only [hk] at hok ⊢
    obtain ⟨st', hraw, hok⟩ := Except.bind_ok_iff.mp hok
    cases hok
    obtain ⟨hw, hin⟩ := processRawChunk_without_crc hraw
    rw [hw.plain_eq]
    exact ⟨rfl, hw.bytes, hw.crc32, fun _ => by simpa only [ChunkHeader.payloadSize, hk] using hin⟩
  | fill =>
    simp only [hk] at hok ⊢
    obtain ⟨st', hfill, hok⟩ := Except.bind_ok_iff.mp hok
    cases hok
    have hw := processFillChunk_without_crc hfill
    rw [hw.plain_eq]
    exact ⟨rfl, hw.bytes, hw.crc32, fun h0 => nomatch h0⟩
  | dontCare =>
    simp only [hk] at hok ⊢
    obtain ⟨st', hskip, hok⟩ := Except.bind_ok_iff.mp hok
    cases hok
    have hw := processSkipChunk_without_crc hskip
    rw [hw.plain_eq]
    exact ⟨rfl, hw.bytes, hw.crc32, fun h0 => nomatch h0⟩
  | crc32 =>
    simp only [hk] at hok ⊢
    obtain ⟨st', hcrc, hok⟩ := Except.bind_ok_iff.mp hok
    cases hok
    have hw := processCrc32Chunk_without_crc hcrc
    rw [hw.plain_eq]
    exact ⟨rfl, hw.bytes, hw.crc32, fun h0 => nomatch h0⟩
  | unknown =>
    simp only [hk] at hok ⊢
    cases hok
    exact ⟨rfl, rfl, ⟨_, rfl⟩, fun h0 => nomatch h0⟩

end

/-- A reader with a checksum that comes to the end adds what a reader without one adds, and all raw
payloads are in the file. -/
theorem chunkLoop_without_crc {n : ℕ} {s : SparseFile} {fd pos : ℕ} {crc cur cur' : UInt32}
    {st' : ReadState} (hs : s.block_size = hdr.blk_sz)
    (hsz : CHUNK_HEADER_LEN ≤ hdr.chunk_hdr_sz.toNat)
    (hok : chunkLoop hdr n ⟨s, ⟨fd, file, pos⟩, some crc⟩ cur = .ok (st', cur')) :
    (∃ fd', chunkLoop hdr n ⟨s, ⟨fd, file, pos⟩, none⟩ cur = .ok (⟨st'.s, fd', none⟩, cur')) ∧
      ∀ r ∈ records file hdr n pos, r.header.kind = .raw →
        r.header.payloadSize hdr.blk_sz = 0 ∨ r.stop hdr ≤ file.length := by
  induction n generalizing s pos crc cur with
  | zero =>
    cases hok
    exact ⟨⟨_, rfl⟩, fun _ h => nomatch h⟩
  | succ n ih =>
    have hpos : pos + CHUNK_HEADER_LEN + (hdr.chunk_hdr_sz.toNat - CHUNK_HEADER_LEN) =
        (recordAt file pos).payload hdr := by
      simp only [Record.payload, recordAt]; omega
    have hnone := @chunkLoop_succ file _ hsz _ hs fd pos n cur
    rw [chunkLoop, readOrStop_eq _ (by decide : CHUNK_HEADER_LEN ≠ 0)] at hok
    obtain ⟨b, hread, hok⟩ := Except.bind_ok_iff.mp hok
    split_ifs at hread with hp
    cases hread
    have hhead : ChunkHeader.decode (slice file pos CHUNK_HEADER_LEN) =
      (recordAt file pos).header := rfl
    obtain ⟨⟨⟨s1, f1, crc1⟩, ret⟩, hc, hok⟩ := Except.bind_ok_iff.mp hok
    simp only [hpos, hhead] at hc
    obtain ⟨h1, -, ⟨crc', rfl⟩, hraw⟩ := processChunk_without_crc hc
    -- What is read without a checksum is what the record adds.
    rw [@processChunk_none _ hdr _ hs fd (recordAt file pos) hp cur] at h1
    split_ifs at h1 with ht
    cases hadd : (recordAt file pos).add file hdr fd s cur with
    | error f => rw [hadd] at h1; cases h1
    | ok s2 =>
      rw [hadd] at h1
      cases h1
      dsimp only at hok
      rw [toU32_toInt] at hok
      split_ifs at hok with hneg
      rw [toInt_neg_iff] at hneg
      have ha : (recordAt file pos).accepted file hdr := by
        simp only [Record.accepted, ht, Bool.true_and, decide_eq_true_eq]
        omega
      obtain ⟨⟨fd', h2⟩, h3⟩ := ih ((Record.add_block_size hadd).trans hs) hok
      refine ⟨⟨fd', ?_⟩, fun r hr hk => ?_⟩
      · rw [hnone]
        simp only [ht, hadd, ha, if_true, h2]
      · rcases List.mem_cons.mp hr with rfl | hr
        · rw [← hs]
          have := hraw hk
          simp only [Record.stop, ← hs]
          exact this
        · exact h3 r hr hk

end

end AmlogicToolkit.Simg
