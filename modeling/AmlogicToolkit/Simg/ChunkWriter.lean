import AmlogicToolkit.Simg.NormalWriter

/-!
# Writing chunks

The writers of `output_file.c` in the sparse format, onto a file, with or without a checksum: the
header, a chunk for a gap, for a fill and for data, and the checksum at the end. Each of them writes
the bytes of its chunk where the file stands, and takes its bytes into the checksum (`Outputs`).
-/

namespace AmlogicToolkit.Simg

open Bytes

/-! ## Chunks -/

/-- A chunk as it stands in a file. -/
structure Chunk where
  /-- The header. -/
  header : ChunkHeader
  /-- The payload. -/
  payload : List UInt8

/-- The bytes of a chunk: its header, then its payload. -/
def Chunk.encode (c : Chunk) : List UInt8 := c.header.encode ++ c.payload

/-- A chunk that skips `n` blocks. -/
def skipChunk (n : ℕ) : Chunk := ⟨⟨CHUNK_TYPE_DONT_CARE, 0, UInt32.ofNat n, 12⟩, []⟩

/-- The chunk for a gap from block `last` to block `next`, when there is one. -/
def gapChunk (last next : ℕ) : List Chunk := if last < next then [skipChunk (next - last)] else []

/-- A step of `sparse_count_chunks` counts the chunk of the gap and that of the block. -/
theorem countBlocks_cons (bs : UInt32) (bb : BackedBlock) (l : List BackedBlock)
    (last_block chunks : UInt32) :
    countBlocks bs (bb :: l) last_block chunks =
      countBlocks bs l (bb.block + divRoundUp bb.len bs)
        (chunks + UInt32.ofNat ((gapChunk last_block.toNat bb.block.toNat).length + 1)) := by
  rw [countBlocks, gapChunk, UInt32.ofNat_add, ← UInt32.add_assoc]
  by_cases hgt : bb.block > last_block
  · rw [if_pos hgt, if_pos (UInt32.lt_iff_toNat_lt.mp hgt)]
    rfl
  · rw [if_neg hgt, if_neg fun hlt => hgt (UInt32.lt_iff_toNat_lt.mpr hlt)]
    change _ = countBlocks bs l _ (chunks + 0 + 1)
    rw [UInt32.add_zero]

/-- At the end of an image of `n` blocks it counts the chunk of the gap. -/
theorem sparseCountChunks_end {s : SparseFile} {n : ℕ} {last_block chunks : UInt32}
    (hbs : s.block_size ≠ 0)
    (hn : (s.len + s.block_size.toNat - 1) / s.block_size.toNat = (n : ℤ))
    (hloop : countBlocks s.block_size s.blocks 0 0 = (last_block, chunks)) :
    sparseCountChunks s =
      .ok (chunks + UInt32.ofNat (gapChunk last_block.toNat n).length) := by
  unfold SparseFile.blocks at hloop
  unfold sparseCountChunks gapChunk
  rw [if_neg hbs, hloop]
  simp only [hn, Nat.cast_lt]
  by_cases hlt : last_block.toNat < n
  · rw [if_pos hlt, if_pos hlt]
    rfl
  · rw [if_neg hlt, if_neg hlt]
    change _ = Except.ok (chunks + 0)
    rw [UInt32.add_zero]

/-- The bytes of a list of chunks. -/
def encodeChunks (cs : List Chunk) : List UInt8 := cs.flatMap Chunk.encode

/-- Two lists of chunks in a row are written one after the other. -/
@[simp]
theorem encodeChunks_append (cs ds : List Chunk) :
    encodeChunks (cs ++ ds) = encodeChunks cs ++ encodeChunks ds := List.flatMap_append

/-- The first chunk is written in front of the others. -/
@[simp]
theorem encodeChunks_cons (c : Chunk) (cs : List Chunk) :
    encodeChunks (c :: cs) = c.encode ++ encodeChunks cs := List.flatMap_cons

/-- No chunks take no bytes. -/
@[simp]
theorem encodeChunks_nil : encodeChunks [] = [] := rfl

/-- The chunk that ends a file with a checksum. -/
def crcChunk (crc : Bool) (sum : UInt32) : List Chunk :=
  if crc then [⟨⟨CHUNK_TYPE_CRC32, 0, 0, 16⟩, le32 sum⟩] else []

/-- The header that is written for an image of `n` blocks in `count` chunks. -/
def writtenHeader (bs : UInt32) (n count : ℕ) : SparseHeader :=
  ⟨SPARSE_HEADER_MAGIC, SPARSE_HEADER_MAJOR_VER, SPARSE_HEADER_MINOR_VER, 28, 12, bs, UInt32.ofNat n,
    UInt32.ofNat count, 0⟩

/-! ## Writing chunks -/

/-- A file with `data` written at its offset. -/
def RawFile.put (f : RawFile) (data : List UInt8) : RawFile :=
  ⟨overwrite 0 f.bytes f.pos data, f.pos + data.length⟩

/-- Writing nothing leaves the file and its position. -/
@[simp]
theorem RawFile.put_nil (f : RawFile) : f.put [] = f := rfl

/-- Two writes in a row are one write of both buffers. -/
theorem RawFile.put_put (f : RawFile) (a b : List UInt8) : (f.put a).put b = f.put (a ++ b) := by
  simp only [put, overwrite_append, List.length_append, Nat.add_assoc]

/-- An output file in the sparse format, with or without a checksum. -/
structure Sink (bs : UInt32) (crc : Bool) (out : OutputFile RawFile) : Prop where
  /-- The format is the sparse one. -/
  sparse : out.sparse = true
  /-- Whether a checksum is kept. -/
  use_crc : out.use_crc = crc
  /-- The block size. -/
  block_size : out.block_size = bs

/-- A result that is 0, with `data` written to the file and `sum` taken into the checksum, when there
is one. -/
structure Outputs (bs : UInt32) (crc : Bool) (out : OutputFile RawFile) (data sum : List UInt8)
    (r : ℤ × OutputFile RawFile) : Prop where
  /-- The result is 0. -/
  ret : r.1 = 0
  /-- The format, the checksum and the block size stay. -/
  sink : Sink bs crc r.2
  /-- The bytes are written. -/
  dev : r.2.dev = out.dev.put data
  /-- The bytes of the checksum are taken in. -/
  crc32 : crc → r.2.crc32 = sparseCrc32 out.crc32 sum

section

variable {bs : UInt32} {crc : Bool} {out : OutputFile RawFile}

/-- A write of all of a buffer. -/
theorem write_all (out : OutputFile RawFile) {data : List UInt8} {len : ℕ}
    (h : data.length = len) : out.write file_ops data len = (0, out.put data) := by
  rw [write_eq out (Nat.le_of_eq h.symm), List.take_of_length_le (Nat.le_of_eq h)]

/-- What is written, with new counters and a new checksum. -/
theorem Sink.outputs (h : Sink bs crc out) (data : List UInt8) {sum : List UInt8} (ptr : ℤ)
    (cnt : UInt32) {crc' : UInt32} (hcrc : crc → crc' = sparseCrc32 out.crc32 sum) :
    Outputs bs crc out data sum
      (0, { out.put data with cur_out_ptr := ptr, chunk_cnt := cnt, crc32 := crc' }) :=
  ⟨rfl, ⟨h.sparse, h.use_crc, h.block_size⟩, rfl, hcrc⟩

/-- Doing nothing writes no bytes, and takes none into the checksum. -/
theorem Sink.outputs_nil (h : Sink bs crc out) : Outputs bs crc out [] [] (0, out) :=
  ⟨rfl, h, rfl, fun _ => (sparseCrc32_nil _).symm⟩

/-- A result that is not looked at. -/
theorem Outputs.ignored {r : ℤ × OutputFile RawFile} {data sum : List UInt8}
    (h : Outputs bs crc out data sum r) : Outputs bs crc out data sum (0, r.2) :=
  ⟨rfl, h.sink, h.dev, h.crc32⟩

/-- Two steps in a row write the bytes of the first, then those of the second. -/
theorem Outputs.append {r q : ℤ × OutputFile RawFile} {a b sum sum' : List UInt8}
    (h : Outputs bs crc out a sum r) (h' : Outputs bs crc r.2 b sum' q) :
    Outputs bs crc out (a ++ b) (sum ++ sum') q :=
  ⟨h'.ret, h'.sink, by rw [h'.dev, h.dev, RawFile.put_put],
    fun hcrc => by rw [h'.crc32 hcrc, h.crc32 hcrc, sparseCrc32_append]⟩

/-- `write_sparse_skip_chunk` of a number of blocks. The checksum takes nothing in. -/
theorem writeSkipChunk_outputs (h : Sink bs crc out) (hbs : bs ≠ 0) (n : ℕ) :
    Outputs bs crc out (skipChunk n).encode []
      (writeSkipChunk file_ops out (n * bs.toNat : ℕ)) := by
  have hmod : ((n * bs.toNat : ℕ) : ℤ) % (bs.toNat : ℤ) = 0 := by
    rw [← Int.natCast_mod, Nat.mul_mod_left]; rfl
  have hdiv : toU32 (((n * bs.toNat : ℕ) : ℤ) / (bs.toNat : ℤ)) = UInt32.ofNat n :=
    toU32_mul_div (toNat_pos_of_ne_zero hbs) n
  simp only [writeSkipChunk, h.sparse, if_true, writeSparseSkipChunk, h.block_size, hmod, hdiv,
    ne_eq, not_true_eq_false, if_false, write_all out (ChunkHeader.length_encode _)]
  rw [if_neg (by decide)]
  have he : (skipChunk n).encode =
      ChunkHeader.encode ⟨CHUNK_TYPE_DONT_CARE, 0, UInt32.ofNat n, 12⟩ := List.append_nil _
  rw [he]
  exact h.outputs _ _ _ fun _ => (sparseCrc32_nil _).symm

/-- `write_sparse_skip_chunk` of a length that is no number of blocks writes nothing. -/
theorem writeSkipChunk_odd (h : Sink bs crc out) {skip_len : ℤ}
    (hmod : skip_len % bs.toNat ≠ 0) : writeSkipChunk file_ops out skip_len = (-1, out) := by
  rw [writeSkipChunk, if_pos h.sparse, writeSparseSkipChunk, h.block_size, if_pos hmod]

/-- Taking a word into a checksum again and again is taking its repetition. -/
theorem sparseCrc32_iterate (c : UInt32) (word : List UInt8) (n : ℕ) :
    (fun crc => sparseCrc32 crc word)^[n] c = sparseCrc32 c (cycle n word) := by
  induction n generalizing c with
  | zero => exact (sparseCrc32_nil c).symm
  | succ n ih => rw [Function.iterate_succ_apply, ih, cycle_succ, sparseCrc32_append]

/-- `write_sparse_fill_chunk` writes a FILL chunk, and takes one block of the word into the
checksum. -/
theorem writeFillChunk_outputs (h : Sink bs crc out) (hbs : bs ≠ 0) {len : UInt32}
    (hfit : len.toNat + bs.toNat ≤ 2 ^ 32) (v : UInt32) :
    Outputs bs crc out (Chunk.encode ⟨⟨CHUNK_TYPE_FILL, 0, divRoundUp len bs, 16⟩, le32 v⟩)
      (cycle (bs.toNat / 4) (le32 v)) (writeFillChunk file_ops out len v) := by
  have h16 : (12 + 4 : UInt32) = 16 := by decide
  simp only [writeFillChunk, h.sparse, if_true, writeSparseFillChunk, h.block_size,
    align_div hbs hfit, h16, write_all out (ChunkHeader.length_encode _)]
  rw [if_neg (by decide), write_all _ (length_le32 v)]
  simp only
  rw [if_neg (by decide), OutputFile.put_put]
  refine h.outputs _ _ _ fun hcrc => ?_
  rw [sparseCrc32_iterate]
  simp only [OutputFile.put, h.use_crc, hcrc, if_true, h.block_size]

/-- `write_sparse_data_chunk`: the data is followed by zeros. -/
theorem writeDataChunk_outputs (h : Sink bs crc out) (hbs : bs ≠ 0) (hlt : bs.toNat < 2 ^ 31)
    {len : UInt32} (hfit : len.toNat + bs.toNat ≤ 2 ^ 32) {data : List UInt8}
    (hlen : data.length = len.toNat) :
    Outputs bs crc out (Chunk.encode ⟨⟨CHUNK_TYPE_RAW, 0, divRoundUp len bs, 12 + align len bs⟩,
        padTo 0 (padded bs.toNat len.toNat) data⟩)
      (padTo 0 (padded bs.toNat len.toNat) data) (writeDataChunk file_ops out len data) := by
  have hpos := toNat_pos_of_ne_zero hbs
  have hpad := padded_lt (n := len.toNat) hpos
  obtain ⟨z, hz⟩ : ∃ z, padded bs.toNat len.toNat - len.toNat = z := ⟨_, rfl⟩
  have hpadTo : padTo 0 (padded bs.toNat len.toNat) data = data ++ List.replicate z 0 := by
    rw [padTo, hlen, hz]
  have hzero : toInt ((align len bs - len).toNat : ℤ) = (z : ℤ) := by
    rw [align_sub_toNat hbs hfit, hz]
    unfold toInt
    split_ifs <;> omega
  unfold writeDataChunk
  rw [if_pos h.sparse, hpadTo]
  unfold writeSparseDataChunk
  rw [h.block_size]
  extract_lets rnd_up_len zero_len zero_buf zero_size chunk_header
  have hzl : zero_len = (z : ℤ) := hzero
  have hzs : zero_size = z := by
    change (zero_len % 2 ^ 64).toNat = z
    rw [hzl]
    omega
  have hbuf : z ≤ zero_buf.length := by
    rw [List.length_replicate]
    omega
  have htake : zero_buf.take z = List.replicate z 0 := by
    rw [List.take_replicate, Nat.min_eq_left (by omega)]
  have hhdr : chunk_header = ⟨CHUNK_TYPE_RAW, 0, divRoundUp len bs, 12 + align len bs⟩ := by
    change ChunkHeader.mk _ _ (align len bs / bs) _ = _
    rw [align_div hbs hfit]
  -- Without zeros to write, the last write is one of nothing.
  have hlast : (if zero_len ≠ 0 then
      ((out.put chunk_header.encode).put data).write file_ops zero_buf zero_size
      else (0, (out.put chunk_header.encode).put data)) =
        (0, out.put (chunk_header.encode ++ (data ++ List.replicate z 0))) := by
    rw [OutputFile.put_put]
    by_cases h0 : z = 0
    · rw [if_neg (by rw [hzl, h0]; decide), h0, List.replicate_zero, List.append_nil]
    · rw [if_pos (by rw [hzl]; omega), hzs, write_eq _ hbuf, htake, OutputFile.put_put,
        List.append_assoc]
  have hsum : (let crc := sparseCrc32 out.crc32 (data.take len.toNat)
      if zero_len ≠ 0 then sparseCrc32 crc (zero_buf.take zero_size) else crc) =
        sparseCrc32 out.crc32 (data ++ List.replicate z 0) := by
    dsimp only
    rw [List.take_of_length_le (Nat.le_of_eq hlen), hzs, htake, sparseCrc32_append]
    by_cases h0 : z = 0
    · rw [if_neg (by rw [hzl, h0]; decide), h0, List.replicate_zero, sparseCrc32_nil]
    · rw [if_pos (by rw [hzl]; omega)]
  rw [write_all out (ChunkHeader.length_encode _)]
  split
  next ret out1 h1 =>
    obtain ⟨rfl, rfl⟩ := Prod.mk.inj h1
    rw [if_neg (by decide), write_all _ hlen]
    split
    next ret out2 h2 =>
      obtain ⟨rfl, rfl⟩ := Prod.mk.inj h2
      rw [if_neg (by decide), hlast]
      split
      next ret out3 h3 =>
        obtain ⟨rfl, rfl⟩ := Prod.mk.inj h3
        rw [if_neg (by decide), ← hhdr]
        refine h.outputs _ _ _ fun hcrc => ?_
        have huse : out.use_crc := h.use_crc.trans hcrc
        rw [← hsum]
        exact if_pos huse

/-- The gap in front of a block is written as its chunk. -/
theorem gap_outputs (hbs : bs ≠ 0) {block last_block : UInt32}
    (hgap : (block - last_block).toNat = block.toNat - last_block.toNat) (h : Sink bs crc out) :
    Outputs bs crc out (encodeChunks (gapChunk last_block.toNat block.toNat)) []
      (0, if block > last_block then
        (writeSkipChunk file_ops out ((block - last_block).toNat * bs.toNat)).2 else out) := by
  unfold gapChunk
  by_cases hgt : block > last_block
  · have hcast : ((block - last_block).toNat : ℤ) * (bs.toNat : ℤ) =
        (((block.toNat - last_block.toNat) * bs.toNat : ℕ) : ℤ) := by
      rw [hgap]; push_cast; rfl
    rw [if_pos hgt, if_pos (UInt32.lt_iff_toNat_lt.mp hgt), hcast, encodeChunks_cons,
      encodeChunks_nil, List.append_nil]
    exact (writeSkipChunk_outputs h hbs _).ignored
  · rw [if_neg hgt, if_neg fun hlt => hgt (UInt32.lt_iff_toNat_lt.mpr hlt)]
    exact h.outputs_nil

/-- `output_file_init` writes the header, which counts the whole blocks and one chunk more for a
checksum. -/
theorem outputFileInit_outputs (dev : RawFile) (hbs : bs ≠ 0) (hlt : bs.toNat < 2 ^ 31)
    (len count : ℕ) (crc : Bool) :
    ∃ out, outputFileInit file_ops dev bs len true (UInt32.ofNat count) crc = .ok (0, out) ∧
      Sink bs crc out ∧ out.crc32 = 0 ∧ out.dev = dev.put
        (writtenHeader bs (len / bs.toNat) (count + (crcChunk crc 0).length)).encode := by
  have hblks : toU32 ((len : ℤ) / (bs.toNat : ℤ)) = UInt32.ofNat (len / bs.toNat) := by
    rw [← Int.natCast_ediv, toU32_natCast]
  -- The checksum chunk is counted in the header, in 32 bits.
  have hcount : (if crc then UInt32.ofNat count + 1 else UInt32.ofNat count) =
      UInt32.ofNat (count + (crcChunk crc 0).length) := by
    cases crc
    · rfl
    · exact (UInt32.ofNat_add count 1).symm
  refine ⟨(⟨0, 0, 0, true, crc, bs, len, dev⟩ : OutputFile RawFile).put
    (writtenHeader bs (len / bs.toNat) (count + (crcChunk crc 0).length)).encode, ?_,
    ⟨rfl, rfl, rfl⟩, rfl, rfl⟩
  unfold outputFileInit
  extract_lets out sparse_header
  have hh : sparse_header =
      writtenHeader bs (len / bs.toNat) (count + (crcChunk crc 0).length) := by
    unfold sparse_header writtenHeader
    rw [hblks, hcount]
  rw [if_neg (Nat.not_le.mpr hlt), if_pos rfl, if_neg hbs, hh,
    write_all _ (SparseHeader.length_encode _)]
  split
  next ret out' h1 =>
    obtain ⟨rfl, rfl⟩ := Prod.mk.inj h1
    rw [if_neg (by decide)]

/-- `output_file_close` writes the checksum when one is kept, in the sparse format. -/
theorem outputFileClose_dev (h : Sink bs crc out) :
    (outputFileClose file_ops out).dev =
      out.dev.put (encodeChunks (crcChunk crc out.crc32)) := by
  have h16 : (12 + 4 : UInt32) = 16 := by decide
  rw [outputFileClose, if_pos h.sparse]
  unfold writeSparseEndChunk
  rw [h.use_crc]
  cases crc with
  | false => rfl
  | true =>
    rw [if_pos rfl]
    extract_lets chunk_header
    have hh : chunk_header = ⟨CHUNK_TYPE_CRC32, 0, 0, 16⟩ := by unfold chunk_header; rw [h16]
    -- The header and the word are written one after the other.
    rw [write_all out (ChunkHeader.length_encode _)]
    split
    next ret out1 h1 =>
      obtain ⟨rfl, rfl⟩ := Prod.mk.inj h1
      rw [if_neg (by decide), write_all _ (length_le32 _)]
      split
      next ret out2 h2 =>
        obtain ⟨-, rfl⟩ := Prod.mk.inj h2
        rw [if_neg (by decide), OutputFile.put_put, hh]
        simp only [crcChunk, if_true, encodeChunks_cons, encodeChunks_nil, List.append_nil,
          Chunk.encode]
        rfl

/-- `write_all_blocks` writes the chunk of the gap at the end of an image of `n` blocks. -/
theorem writeAllBlocks_end {env : Env} {s : SparseFile} {n : ℕ} {last_block : UInt32}
    {out1 : OutputFile RawFile} (hbs : s.block_size ≠ 0) (hlen : s.len = (n * s.block_size.toNat : ℕ))
    (hloop : writeBlocks file_ops env s.block_size s.backed_block_list.data_blocks 0 out =
      (0, last_block, out1)) (hle : last_block.toNat ≤ n) (hout : Sink s.block_size crc out1) :
    ∃ out', writeAllBlocks file_ops env s out = .ok (0, out') ∧
      Outputs s.block_size crc out1 (encodeChunks (gapChunk last_block.toNat n)) [] (0, out') := by
  have hpad : s.len - last_block.toNat * s.block_size.toNat =
      (((n - last_block.toNat) * s.block_size.toNat : ℕ) : ℤ) := by
    rw [hlen, Nat.sub_mul, Nat.cast_sub (Nat.mul_le_mul_right _ hle)]
    push_cast
    rfl
  unfold writeAllBlocks
  rw [hloop]
  simp only [ne_eq, not_true_eq_false, if_false, hpad]
  rw [if_neg (by omega), gapChunk]
  by_cases hlt : last_block.toNat < n
  · have hpos : 0 < (n - last_block.toNat) * s.block_size.toNat :=
      Nat.mul_pos (by omega) (toNat_pos_of_ne_zero hbs)
    have hskip := (writeSkipChunk_outputs hout hbs (n - last_block.toNat)).ignored
    rw [if_pos (by exact_mod_cast hpos), if_pos hlt, encodeChunks_cons, encodeChunks_nil,
      List.append_nil]
    exact ⟨_, rfl, hskip⟩
  · have h0 : n - last_block.toNat = 0 := by omega
    rw [h0, Nat.zero_mul, if_neg (by decide), if_neg hlt]
    exact ⟨out1, rfl, hout.outputs_nil⟩

end

end AmlogicToolkit.Simg
