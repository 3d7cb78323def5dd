import AmlogicToolkit.Simg.Sparse

/-!
# Reading sparse and raw files

`sparse_read.c`: reading a file in the sparse format or a raw file into a sparse file. A function
that returns a negative `int` on failure stops with `Stop.ret`. `copybuf` is a scratch buffer of
`COPY_BUF_SIZE` bytes, whose content does not outlive a chunk. The messages of `verbose_error` are
left out.
-/

namespace AmlogicToolkit.Simg

open Bytes

/-- How a reading function can stop: with a fault, or by returning a negative value. -/
inductive Stop where
  /-- The program stops. -/
  | fault (f : Fault)
  /-- The function returns `code`. -/
  | ret (code : ℤ)
  deriving DecidableEq

/-- `COPY_BUF_SIZE`: the checksum is taken over 1 MiB at a time. -/
def COPY_BUF_SIZE : ℕ := 1024 * 1024

/-- What a chunk is read into: the sparse file, the input and the checksum behind `crc_ptr`, when
there is one. -/
structure ReadState where
  /-- The sparse file. -/
  s : SparseFile
  /-- The input. -/
  fd : InFile
  /-- `*crc32`, unless `crc32` is `NULL`. -/
  crc32 : Option UInt32

/-- A read that fails returns `-EINVAL`. -/
def readOrStop (f : InFile) (len : ℕ) : Except Stop (List UInt8 × InFile) :=
  match readAll f len with
  | some r => .ok r
  | none => .error (.ret (-EINVAL))

/-- The sparse file after an addition, whose return value is never negative. -/
def added (r : Except Fault SparseFile) : Except Stop SparseFile :=
  match r with
  | .ok s => .ok s
  | .error f => .error (.fault f)

/-! ## Chunks -/

/-- The loop of `process_raw_chunk` that reads the data for its checksum, with as many passes as
`fuel` allows. -/
def rawCrcLoop : ℕ → ℕ → InFile → UInt32 → Except Stop (InFile × UInt32)
  | 0, _, f, crc => .ok (f, crc)
  | fuel + 1, len, f, crc =>
    if len ≠ 0 then do
      let chunk := min len COPY_BUF_SIZE
      let (copybuf, f) ← readOrStop f chunk
      rawCrcLoop fuel (len - chunk) f (sparseCrc32 crc copybuf)
    else .ok (f, crc)

/-- The loop of `process_fill_chunk` and `process_skip_chunk` that takes `len` bytes of `copybuf`
after `copybuf` into the checksum, with as many passes as `fuel` allows. -/
def bufCrcLoop (copybuf : List UInt8) : ℕ → ℕ → UInt32 → UInt32
  | 0, _, crc => crc
  | fuel + 1, len, crc =>
    if len ≠ 0 then
      let chunk := min len COPY_BUF_SIZE
      bufCrcLoop copybuf fuel (len - chunk) (sparseCrc32 crc (copybuf.take chunk))
    else crc

/-- `process_raw_chunk`: a RAW chunk is added as a part of the file that is read. -/
def processRawChunk (st : ReadState) (chunk_size : UInt32) (offset : ℤ) (blocks block : UInt32) :
    Except Stop ReadState :=
  -- The product is an `unsigned int`, and may wrap.
  let len := blocks * st.s.block_size
  if st.s.block_size = 0 then .error (.fault .divByZero)
  else if chunk_size % st.s.block_size ≠ 0 then .error (.ret (-EINVAL))
  else if chunk_size / st.s.block_size ≠ blocks then .error (.ret (-EINVAL))
  else do
    let s ← added (sparseFileAddFd st.s st.fd.fd offset len block)
    match st.crc32 with
    | some crc =>
      let (fd, crc) ← rawCrcLoop len.toNat len.toNat st.fd crc
      return { s, fd, crc32 := some crc }
    -- Without a checksum, `lseek64` passes over the data, which need not be there.
    | none => return { st with s, fd := { st.fd with pos := st.fd.pos + len.toNat } }

/-- `process_fill_chunk`. The length is an `int64_t`, but `sparse_file_add_fill` takes an
`unsigned int`. -/
def processFillChunk (st : ReadState) (chunk_size : UInt32) (blocks block : UInt32) :
    Except Stop ReadState :=
  let len := blocks.toNat * st.s.block_size.toNat
  if chunk_size ≠ 4 then .error (.ret (-EINVAL))
  else do
    let (word, fd) ← readOrStop st.fd 4
    let fill_val := read32 word 0
    let s ← added (sparseFileAddFill st.s fill_val (UInt32.ofNat len) block)
    let copybuf := (List.replicate (COPY_BUF_SIZE / 4) (le32 fill_val)).flatten
    return { s, fd, crc32 := st.crc32.map (bufCrcLoop copybuf len len) }

/-- `process_skip_chunk`: a gap adds nothing, and has no payload. -/
def processSkipChunk (st : ReadState) (chunk_size : UInt32) (blocks : UInt32) :
    Except Stop ReadState :=
  if chunk_size ≠ 0 then .error (.ret (-EINVAL))
  else
    let len := blocks.toNat * st.s.block_size.toNat
    .ok { st with crc32 := st.crc32.map (bufCrcLoop (List.replicate COPY_BUF_SIZE 0) len len) }

/-- `process_crc32_chunk`: the checksum of the file is compared when one is kept. -/
def processCrc32Chunk (st : ReadState) (chunk_size : UInt32) : Except Stop ReadState :=
  if chunk_size ≠ 4 then .error (.ret (-EINVAL))
  else do
    let (word, fd) ← readOrStop st.fd 4
    let file_crc32 := read32 word 0
    match st.crc32 with
    | some crc => if file_crc32 ≠ crc then .error (.ret (-EINVAL)) else return { st with fd }
    | none => return { st with fd }

/-- `process_chunk`: the state after it and the return value, a block count as an `int`. An unknown
chunk type is reported, and then 0 is returned. -/
def processChunk (st : ReadState) (offset : ℤ) (chunk_hdr_sz : UInt32) (chunk_header : ChunkHeader)
    (cur_block : UInt32) : Except Stop (ReadState × ℤ) :=
  let chunk_data_size := chunk_header.total_sz - chunk_hdr_sz
  let chunk_sz := chunk_header.chunk_sz
  if chunk_header.chunk_type = CHUNK_TYPE_RAW then do
    return (← processRawChunk st chunk_data_size offset chunk_sz cur_block, toInt chunk_sz.toNat)
  else if chunk_header.chunk_type = CHUNK_TYPE_FILL then do
    return (← processFillChunk st chunk_data_size chunk_sz cur_block, toInt chunk_sz.toNat)
  else if chunk_header.chunk_type = CHUNK_TYPE_DONT_CARE then
    -- The result is only looked at when there is data.
    match processSkipChunk st chunk_data_size chunk_sz with
    | .ok st => .ok (st, toInt chunk_sz.toNat)
    | .error e => if chunk_data_size ≠ 0 then .error e else .ok (st, toInt chunk_sz.toNat)
  else if chunk_header.chunk_type = CHUNK_TYPE_CRC32 then do
    return (← processCrc32Chunk st chunk_data_size, 0)
  -- An unknown type is no error, and its data is not passed over.
  else .ok (st, 0)

/-- The loop of `sparse_file_read_sparse` over the chunks that are left: the state and `cur_block`
after it. -/
def chunkLoop (sparse_header : SparseHeader) :
    ℕ → ReadState → UInt32 → Except Stop (ReadState × UInt32)
  | 0, st, cur_block => .ok (st, cur_block)
  | left + 1, st, cur_block => do
    let (b, fd) ← readOrStop st.fd CHUNK_HEADER_LEN
    let chunk_header := ChunkHeader.decode b
    -- Skip the remaining bytes in a header that is longer than expected.
    let fd := { fd with pos := fd.pos + (sparse_header.chunk_hdr_sz.toNat - CHUNK_HEADER_LEN) }
    let (st, ret) ← processChunk { st with fd } fd.pos sparse_header.chunk_hdr_sz.toUInt32
      chunk_header cur_block
    if ret < 0 then .error (.ret ret)
    else chunkLoop sparse_header left st (cur_block + toU32 ret)

/-- `sparse_file_read_sparse`: the header is read, then each of its chunks. -/
def sparseFileReadSparse (s : SparseFile) (fd : InFile) (crc : Bool) : Except Stop SparseFile := do
  let (b, fd) ← readOrStop fd SPARSE_HEADER_LEN
  let sparse_header := SparseHeader.decode b
  if sparse_header.magic ≠ SPARSE_HEADER_MAGIC then .error (.ret (-EINVAL))
  else if sparse_header.major_version ≠ SPARSE_HEADER_MAJOR_VER then .error (.ret (-EINVAL))
  else if sparse_header.file_hdr_sz.toNat < SPARSE_HEADER_LEN then .error (.ret (-EINVAL))
  else if sparse_header.chunk_hdr_sz.toNat < CHUNK_HEADER_LEN then .error (.ret (-EINVAL))
  else
    -- Skip the remaining bytes in a header that is longer than expected.
    let fd := { fd with pos := fd.pos + (sparse_header.file_hdr_sz.toNat - SPARSE_HEADER_LEN) }
    let (st, cur_block) ← chunkLoop sparse_header sparse_header.total_chunks.toNat
      { s, fd, crc32 := if crc then some 0 else none } 0
    if sparse_header.total_blks ≠ cur_block then .error (.ret (-EINVAL)) else return st.s

/-! ## Raw files -/

/-- The test of `sparse_file_read_normal` whether all words of a full block are the first one. -/
def isSparseBlock (block_size : UInt32) (buf : List UInt8) : Bool :=
  (List.range (block_size.toNat / 4)).all fun i => read32 buf 0 == read32 buf (4 * i)

/-- The loop of `sparse_file_read_normal`, with as many passes as `fuel` allows. The results of the
additions are not looked at. -/
def readNormalLoop : ℕ → SparseFile → InFile → UInt32 → ℤ → ℤ → Except Stop SparseFile
  | 0, s, _, _, remain, _ => if remain > 0 then .error (.fault .diverges) else .ok s
  | fuel + 1, s, fd, block, remain, offset =>
    if remain > 0 then do
      let to_read := toU32 (min remain s.block_size.toNat)
      let (buf, fd) ← readOrStop fd to_read.toNat
      -- A block that the end of the file cuts off is never a fill.
      let s ← added (if to_read = s.block_size ∧ isSparseBlock s.block_size buf
        then sparseFileAddFill s (read32 buf 0) to_read block
        else sparseFileAddFd s fd.fd offset to_read block)
      readNormalLoop fuel s fd (block + 1) (remain - to_read.toNat) (offset + to_read.toNat)
    else .ok s

/-- `sparse_file_read_normal`. Each pass of the loop takes at least one byte off when the block size
is not zero. -/
def sparseFileReadNormal (s : SparseFile) (fd : InFile) : Except Stop SparseFile :=
  readNormalLoop s.len.toNat s fd 0 s.len 0

/-- `sparse_file_read`: in the format that the caller names. -/
def sparseFileRead (s : SparseFile) (fd : InFile) (sparse crc : Bool) : Except Stop SparseFile :=
  if crc ∧ ¬ sparse then .error (.ret (-EINVAL))
  else if sparse then sparseFileReadSparse s fd crc
  else sparseFileReadNormal s fd

/-- A failed read as the `NULL` that the importers return for it. -/
def nullOnError (r : Except Stop SparseFile) : Except Fault (Option SparseFile) :=
  match r with
  | .ok s => .ok (some s)
  | .error (.ret _) => .ok none
  | .error (.fault f) => .error f

/-- `sparse_file_import` from the start of a file: `none` is `NULL`. -/
def sparseFileImport (fd : ℕ) (file : List UInt8) (crc : Bool) :
    Except Fault (Option SparseFile) :=
  match readAll ⟨fd, file, 0⟩ SPARSE_HEADER_LEN with
  | none => .ok none
  | some (b, _) =>
    let sparse_header := SparseHeader.decode b
    if sparse_header.magic ≠ SPARSE_HEADER_MAGIC then .ok none
    else if sparse_header.major_version ≠ SPARSE_HEADER_MAJOR_VER then .ok none
    else if sparse_header.file_hdr_sz.toNat < SPARSE_HEADER_LEN then .ok none
    else if sparse_header.chunk_hdr_sz.toNat < CHUNK_HEADER_LEN then .ok none
    else
      -- The product may be too large for an `int64_t`.
      let len := toInt64 (sparse_header.total_blks.toNat * sparse_header.blk_sz.toNat)
      let s := sparseFileNew sparse_header.blk_sz len
      nullOnError (sparseFileRead s ⟨fd, file, 0⟩ true crc)

/-- `sparse_file_import_auto`: a sparse import, and a raw one when that returns nothing. -/
def sparseFileImportAuto (fd : ℕ) (file : List UInt8) (crc : Bool) :
    Except Fault (Option SparseFile) := do
  match ← sparseFileImport fd file crc with
  | some s => return some s
  -- Whatever the reason of the failure, the file is read as a raw one.
  | none =>
    let s := sparseFileNew 4096 file.length
    nullOnError (sparseFileReadNormal s ⟨fd, file, 0⟩)

end AmlogicToolkit.Simg
