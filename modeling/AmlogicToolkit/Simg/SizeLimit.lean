import AmlogicToolkit.Simg.Sizes

/-!
# The size limit of the pieces

What `sparse_file_write` appends to a file is what the counter of `move_chunks_up_to_len` counts,
with a header, the end skip and the checksum chunk (`sparseFileWrite_length`). The budget of a pass
leaves room for those three, but a pass that takes a part of the block that does not fit leaves none
for the header of the gap in front of it, nor for the word of a fill chunk: without a checksum chunk
a piece is within the limit, and with one exactly when these bytes are there all the same
(`resparse_limit`).
-/

namespace AmlogicToolkit.Simg

open Bytes Extents

/-! ## What is appended -/

/-- A function appends to a file, at whose end the offset is: at most `n` bytes, and `n` bytes when
its result is zero. -/
structure Appends (out : OutputFile RawFile) (n : ℕ) (r : ℤ × OutputFile RawFile) : Prop where
  /-- The offset is at the end. -/
  pos : r.2.dev.pos = r.2.dev.bytes.length
  /-- The format stays. -/
  sparse : r.2.sparse = out.sparse
  /-- So does the choice of a checksum. -/
  use_crc : r.2.use_crc = out.use_crc
  /-- The block size stays. -/
  block_size : r.2.block_size = out.block_size
  /-- A result that is not zero is an error. -/
  sign : r.1 ≤ 0
  /-- No more than `n` bytes. -/
  le : r.2.dev.bytes.length ≤ out.dev.bytes.length + n
  /-- All of them. -/
  eq : r.1 = 0 → r.2.dev.bytes.length = out.dev.bytes.length + n

section

variable {out : OutputFile RawFile} {m n : ℕ} {p r : ℤ × OutputFile RawFile} {bs : UInt32}

/-- A file that stands at its end has nothing appended when nothing is done. -/
theorem Appends.refl (h : out.dev.pos = out.dev.bytes.length) : Appends out 0 (0, out) :=
  ⟨h, rfl, rfl, rfl, Int.le_refl 0, Nat.le_refl _, fun _ => rfl⟩

/-- A result that is passed on. -/
theorem Appends.again (h : Appends out n p) : Appends p.2 0 p :=
  ⟨h.pos, rfl, rfl, rfl, h.sign, Nat.le_refl _, fun _ => rfl⟩

/-- A write appends its buffer. -/
theorem write_appends (h : out.dev.pos = out.dev.bytes.length) (data : List UInt8) (len : ℕ) :
    Appends out len (out.write file_ops data len) := by
  have hbytes : (out.write file_ops data len).2.dev.bytes = out.dev.bytes ++ data.take len := by
    change overwrite 0 out.dev.bytes out.dev.pos (data.take len) = _
    rw [h, overwrite_length]
  have hret : (out.write file_ops data len).1 = if data.length < len then -1 else 0 := rfl
  refine ⟨?_, rfl, rfl, rfl, ?_, ?_, fun h0 => ?_⟩
  · rw [hbytes, List.length_append, ← h]
    rfl
  · rw [hret]
    split_ifs <;> decide
  · rw [hbytes, List.length_append, List.length_take]
    omega
  · rw [hret] at h0
    split_ifs at h0 with hlt
    rw [hbytes, List.length_append, List.length_take]
    omega

/-- A write of all of a buffer succeeds. -/
theorem write_appends_all (h : out.dev.pos = out.dev.bytes.length) {data : List UInt8} {len : ℕ}
    (hlen : data.length = len) : ∃ out', out.write file_ops data len = (0, out') ∧
      Appends out len (0, out') := by
  have h1 := write_appends h data len
  have h0 : (out.write file_ops data len).1 = 0 := by
    change (if data.length < len then (-1 : ℤ) else 0) = 0
    rw [if_neg (Nat.not_lt.mpr (Nat.le_of_eq hlen.symm))]
  generalize out.write file_ops data len = p at h0 h1
  obtain ⟨ret, out'⟩ := p
  dsimp only at h0
  subst h0
  exact ⟨out', rfl, h1⟩

/-- Two functions one after the other, as the writers call them. -/
theorem Appends.andThen (hp : Appends out m p) (hr : Appends p.2 n r) :
    Appends out (m + n) (if p.1 < 0 then (-1, p.2) else r) := by
  have h1 := hp.le
  have h2 := hr.le
  split_ifs with hneg
  · refine ⟨hp.pos, hp.sparse, hp.use_crc, hp.block_size, show (-1 : ℤ) ≤ 0 by decide, ?_,
      fun h0 => absurd h0 (show (-1 : ℤ) ≠ 0 by decide)⟩
    change p.2.dev.bytes.length ≤ _
    omega
  · have hzero : p.1 = 0 := by
      have := hp.sign
      omega
    refine ⟨hr.pos, hr.sparse.trans hp.sparse, hr.use_crc.trans hp.use_crc,
      hr.block_size.trans hp.block_size, hr.sign, by omega, fun h0 => ?_⟩
    rw [hr.eq h0, hp.eq hzero, Nat.add_assoc]

/-- A function that succeeds and one after it append the bytes of both. -/
theorem Appends.trans {out1 : OutputFile RawFile} (hp : Appends out m (0, out1))
    (hr : Appends out1 n r) : Appends out (m + n) r := by
  have h := hp.andThen hr
  rw [if_neg (lt_irrefl 0)] at h
  exact h

/-- A function that fails appends less. -/
theorem Appends.weaken (h : Appends out m p) (hne : p.1 ≠ 0) (hle : m ≤ n) : Appends out n p :=
  ⟨h.pos, h.sparse, h.use_crc, h.block_size, h.sign,
    h.le.trans (Nat.add_le_add_left hle _), fun h0 => absurd h0 hne⟩

/-- The counters of an output file have no part in what is appended. -/
theorem appends_count (h : out.dev.pos = out.dev.bytes.length) (ptr : ℤ) (cnt crc : UInt32) :
    Appends out 0 (0, { out with cur_out_ptr := ptr, chunk_cnt := cnt, crc32 := crc }) :=
  ⟨h, rfl, rfl, rfl, Int.le_refl 0, Nat.le_refl _, fun _ => rfl⟩

/-- `write_data_chunk` appends a header and whole blocks. -/
theorem writeDataChunk_appends (h : out.dev.pos = out.dev.bytes.length) (hs : out.sparse = true)
    (hb : out.block_size = bs) (hbs : bs ≠ 0) (hlt : bs.toNat < 2 ^ 31) {len : UInt32}
    (hlen : len.toNat < 2 ^ 31) (data : List UInt8) :
    Appends out (12 + padded bs.toNat len.toNat) (writeDataChunk file_ops out len data) := by
  have hle := le_padded (n := len.toNat) (toNat_pos_of_ne_zero hbs)
  have hpad := padded_lt (n := len.toNat) (toNat_pos_of_ne_zero hbs)
  have hrest := align_sub_toNat hbs (show len.toNat + bs.toNat ≤ 2 ^ 32 by omega)
  unfold writeDataChunk
  rw [if_pos hs]
  unfold writeSparseDataChunk
  rw [hb]
  extract_lets rnd_up_len zero_len zero_buf zero_size chunk_header
  -- The padding is less than a block.
  have hzero : zero_len = (padded bs.toNat len.toNat - len.toNat : ℕ) := by
    simp only [zero_len, rnd_up_len, hrest]
    exact toInt_of_lt (by omega)
  have hsize : zero_size = padded bs.toNat len.toNat - len.toNat := by
    simp only [zero_size, hzero]
    omega
  have hsum : 12 + padded bs.toNat len.toNat = 12 + (len.toNat + (zero_size + 0)) := by omega
  rw [hsum]
  have h1 := write_appends h chunk_header.encode CHUNK_HEADER_LEN
  generalize out.write file_ops chunk_header.encode CHUNK_HEADER_LEN = p1 at h1
  obtain ⟨ret1, out1⟩ := p1
  refine h1.andThen ?_
  have h2 := write_appends h1.pos data len.toNat
  generalize out1.write file_ops data len.toNat = p2 at h2
  obtain ⟨ret2, out2⟩ := p2
  refine h2.andThen ?_
  have h3 : Appends out2 zero_size
      (if zero_len ≠ 0 then out2.write file_ops zero_buf zero_size else (ret2, out2)) := by
    split_ifs with hz
    · exact write_appends h2.pos zero_buf zero_size
    · have h0 : zero_size = 0 := by omega
      rw [h0]
      exact h2.again
  generalize (if zero_len ≠ 0 then out2.write file_ops zero_buf zero_size else (ret2, out2)) = p3
    at h3
  obtain ⟨ret3, out3⟩ := p3
  exact h3.andThen (appends_count h3.pos _ _ _)

/-- `write_fill_chunk` appends a header and a word. -/
theorem writeFillChunk_appends (h : out.dev.pos = out.dev.bytes.length) (hs : out.sparse = true)
    (len w : UInt32) : Appends out 16 (writeFillChunk file_ops out len w) := by
  unfold writeFillChunk
  rw [if_pos hs]
  unfold writeSparseFillChunk
  extract_lets rnd_up_len chunk_header
  have h1 := write_appends h chunk_header.encode CHUNK_HEADER_LEN
  generalize out.write file_ops chunk_header.encode CHUNK_HEADER_LEN = p1 at h1
  obtain ⟨ret1, out1⟩ := p1
  refine h1.andThen (n := 4) ?_
  have h2 := write_appends h1.pos (le32 w) 4
  generalize out1.write file_ops (le32 w) 4 = p2 at h2
  obtain ⟨ret2, out2⟩ := p2
  exact h2.andThen (appends_count h2.pos _ _ _)

/-- **A block** is appended as its chunk. -/
theorem sparseFileWriteBlock_appends {env : Env} {bb : BackedBlock}
    (h : out.dev.pos = out.dev.bytes.length) (hs : out.sparse = true) (hb : out.block_size = bs)
    (hbs : bs ≠ 0) (hlt : bs.toNat < 2 ^ 31) (hlen : bb.len.toNat < 2 ^ 31) :
    Appends out (chunkSize bs bb) (sparseFileWriteBlock file_ops env out bb) := by
  -- An `errno` appends nothing.
  have herr : ∀ (errno : ℕ+), Appends out (12 + padded bs.toNat bb.len.toNat)
      (-((errno : ℕ) : ℤ), out) := fun errno => by
    have hpos := errno.pos
    exact ⟨h, rfl, rfl, rfl, show -((errno : ℕ) : ℤ) ≤ 0 by omega, Nat.le_add_right _ _,
      fun h0 => absurd h0 (show -((errno : ℕ) : ℤ) ≠ 0 by omega)⟩
  have hfd : ∀ fd offset, Appends out (12 + padded bs.toNat bb.len.toNat)
      (writeFdChunk file_ops env out bb.len fd offset) := by
    intro fd offset
    unfold writeFdChunk
    dsimp only
    split
    · exact herr _
    · exact writeDataChunk_appends h hs hb hbs hlt hlen _
  unfold sparseFileWriteBlock chunkSize
  cases bb.source with
  | data p => exact writeDataChunk_appends h hs hb hbs hlt hlen _
  | file filename offset =>
    unfold writeFileChunk
    dsimp only
    split
    · exact herr _
    · exact hfd _ _
  | fd fd offset => exact hfd fd offset
  | fill w => exact writeFillChunk_appends h hs bb.len w

/-- The bytes of the header of a skip: none when it is not a number of blocks. -/
def skipSize (bs : UInt32) (skip_len : ℤ) : ℕ := if skip_len % bs.toNat = 0 then 12 else 0

/-- `write_skip_chunk` appends a header, or does nothing. -/
theorem writeSkipChunk_appends (h : out.dev.pos = out.dev.bytes.length) (hs : out.sparse = true)
    (hb : out.block_size = bs) (skip_len : ℤ) :
    Appends out (skipSize bs skip_len) (0, (writeSkipChunk file_ops out skip_len).2) := by
  unfold writeSkipChunk skipSize
  rw [if_pos hs]
  unfold writeSparseSkipChunk
  rw [hb]
  by_cases hmod : skip_len % bs.toNat = 0
  · rw [if_neg (not_not.mpr hmod), if_pos hmod]
    extract_lets chunk_header
    obtain ⟨out1, h1, ha⟩ := write_appends_all h (ChunkHeader.length_encode chunk_header)
    rw [h1]
    dsimp only
    rw [if_neg (lt_irrefl 0)]
    exact ⟨ha.pos, ha.sparse, ha.use_crc, ha.block_size, ha.sign, ha.le, ha.eq⟩
  · rw [if_pos hmod, if_neg hmod]
    exact Appends.refl h

/-- **The loop over the blocks** appends their chunks and the headers of the gaps. -/
theorem writeBlocks_appends {env : Env} {l : List BackedBlock}
    (h : out.dev.pos = out.dev.bytes.length) (hs : out.sparse = true) (hb : out.block_size = bs)
    (hbs : bs ≠ 0) (hlt : bs.toNat < 2 ^ 31) (hlen : ∀ c ∈ l, c.len.toNat < 2 ^ 31)
    (last : UInt32) :
    Appends out (cost bs l last)
      ((writeBlocks file_ops env bs l last out).1, (writeBlocks file_ops env bs l last out).2.2) := by
  -- The induction is on the blocks: a gap, the block, and what comes behind.
  induction l generalizing out last with
  | nil => exact Appends.refl h
  | cons bb l ih =>
    -- The gap before the block is written first, if there is one.
    obtain ⟨out1, heq, hgap⟩ : ∃ out1, (if bb.block > last then
        (writeSkipChunk file_ops out ((bb.block - last).toNat * bs.toNat)).2 else out) = out1 ∧
          Appends out (gapSize last bb) (0, out1) := by
      refine ⟨_, rfl, ?_⟩
      unfold gapSize
      split_ifs with hgt
      · have hmod := writeSkipChunk_appends h hs hb ((bb.block - last).toNat * bs.toNat)
        rw [skipSize, if_pos (Int.mul_emod_left _ _)] at hmod
        exact hmod
      · exact Appends.refl h
    have hblock := @sparseFileWriteBlock_appends out1 bs env bb hgap.pos (hgap.sparse.trans hs)
      (hgap.block_size.trans hb) hbs hlt (hlen bb List.mem_cons_self)
    rw [writeBlocks, heq, cost, Nat.add_assoc]
    generalize sparseFileWriteBlock file_ops env out1 bb = r at hblock
    obtain ⟨ret, out2⟩ := r
    refine hgap.trans ?_
    dsimp only
    -- The first failure ends the loop, and what has been written is no more than planned.
    by_cases hret : ret = 0
    · subst hret
      rw [if_neg (not_not.mpr rfl)]
      exact hblock.trans (ih hblock.pos (hblock.sparse.trans (hgap.sparse.trans hs))
        (hblock.block_size.trans (hgap.block_size.trans hb))
        (fun c hc => hlen c (List.mem_cons_of_mem _ hc)) _)
    · rw [if_pos hret]
      exact hblock.weaken hret (Nat.le_add_right _ _)

end

/-! ## The file that is written -/

/-- The bytes of the header of the end skip, when the last block ends at `last_block`. -/
def endSkip (s : SparseFile) (last_block : UInt32) : ℕ :=
  if 0 < s.len - last_block.toNat * s.block_size.toNat then
    skipSize s.block_size (s.len - last_block.toNat * s.block_size.toNat)
  else 0

/-- The end skip is one header at most. -/
theorem endSkip_le (s : SparseFile) (last_block : UInt32) : endSkip s last_block ≤ 12 := by
  unfold endSkip skipSize
  split_ifs <;> decide

section

variable {env : Env} {s : SparseFile} {out : OutputFile RawFile} {r : ℤ × OutputFile RawFile}

/-- `write_all_blocks` appends the chunks and the end skip. -/
theorem writeAllBlocks_appends (h : out.dev.pos = out.dev.bytes.length) (hs : out.sparse = true)
    (hb : out.block_size = s.block_size) (hbs : s.block_size ≠ 0)
    (hlt : s.block_size.toNat < 2 ^ 31) (hlen : ∀ c ∈ s.blocks, c.len.toNat < 2 ^ 31)
    (hr : writeAllBlocks file_ops env s out = .ok r) :
    Appends out (cost s.block_size s.blocks 0 + endSkip s (behind s.block_size s.blocks 0)) r := by
  have hblocks := @writeBlocks_appends out s.block_size env s.blocks h hs hb hbs hlt hlen 0
  have hlast := @writeBlocks_behind _ file_ops env s.block_size s.blocks 0 out
  have hsb : s.backed_block_list.data_blocks = s.blocks := rfl
  unfold writeAllBlocks at hr
  rw [hsb] at hr
  generalize writeBlocks file_ops env s.block_size s.blocks 0 out = q at hblocks hlast hr
  obtain ⟨ret, last_block, out1⟩ := q
  dsimp only at hblocks hlast hr
  -- A failure leaves the rest of the length out.
  by_cases hret : ret = 0
  · obtain rfl := hlast hret
    subst hret
    simp only [ne_eq, not_true_eq_false, if_false] at hr
    unfold endSkip
    split_ifs at hr ⊢ with hneg hpos
    · cases hr
      exact hblocks.trans (writeSkipChunk_appends hblocks.pos (hblocks.sparse.trans hs)
        (hblocks.block_size.trans hb) _)
    · cases hr
      exact hblocks
  · rw [if_pos hret] at hr
    cases hr
    exact hblocks.weaken hret (Nat.le_add_right _ _)

/-- The bytes of the checksum chunk. -/
def crcSize (crc : Bool) : ℕ := if crc then 16 else 0

/-- `output_file_close` appends the checksum chunk. -/
theorem outputFileClose_appends (h : out.dev.pos = out.dev.bytes.length) (hs : out.sparse = true) :
    Appends out (crcSize out.use_crc) (0, outputFileClose file_ops out) := by
  unfold outputFileClose writeSparseEndChunk crcSize
  rw [if_pos hs]
  by_cases hc : out.use_crc = true
  · rw [if_pos hc, if_pos hc]
    extract_lets chunk_header
    obtain ⟨out1, h1, ha1⟩ := write_appends_all h (ChunkHeader.length_encode chunk_header)
    obtain ⟨out2, h2, ha2⟩ := write_appends_all ha1.pos (length_le32 out1.crc32)
    simp only [h1, h2]
    exact ha1.trans (n := 4)
      ⟨ha2.pos, ha2.sparse, ha2.use_crc, ha2.block_size, ha2.sign, ha2.le, ha2.eq⟩
  · rw [if_neg hc, if_neg hc]
    exact Appends.refl h

/-- `output_file_init` writes the header. -/
theorem outputFileInit_appends {bs : UInt32} (hbs : bs ≠ 0) (hlt : bs.toNat < 2 ^ 31) (len : ℤ)
    (chunks : UInt32) (crc : Bool) :
    ∃ out, outputFileInit file_ops ⟨[], 0⟩ bs len true chunks crc = .ok (0, out) ∧
      out.dev.pos = out.dev.bytes.length ∧ out.dev.bytes.length = 28 ∧ out.sparse = true ∧
      out.use_crc = crc ∧ out.block_size = bs := by
  unfold outputFileInit
  extract_lets out sparse_header
  obtain ⟨out1, h1, ha⟩ := @write_appends_all out rfl _ _ (SparseHeader.length_encode sparse_header)
  rw [if_neg (Nat.not_le.mpr hlt), if_pos rfl, if_neg hbs, h1]
  exact ⟨out1, rfl, ha.pos, ha.eq rfl, ha.sparse, ha.use_crc, ha.block_size⟩

/-- **The size of the file** that `sparse_file_write` writes in the sparse format: of the header, the
chunks, the end skip and the checksum chunk. -/
theorem sparseFileWrite_length (hbs : s.block_size ≠ 0) (hlen : ∀ c ∈ s.blocks, c.len.toNat < 2 ^ 31)
    {crc : Bool} {ret : ℤ} {f : RawFile}
    (h : sparseFileWrite file_ops env s ⟨[], 0⟩ true crc = .ok (ret, f)) :
    f.bytes.length ≤ 28 + cost s.block_size s.blocks 0 +
        endSkip s (behind s.block_size s.blocks 0) + crcSize crc ∧
      (ret = 0 → f.bytes.length = 28 + cost s.block_size s.blocks 0 +
        endSkip s (behind s.block_size s.blocks 0) + crcSize crc) := by
  obtain ⟨chunks, hchunks⟩ := sparseCountChunks_ok hbs
  by_cases hlarge : 2 ^ 31 ≤ s.block_size.toNat
  · -- The buffers cannot be allocated, and nothing is written.
    rw [sparseFileWrite_unopened hbs hlarge] at h
    cases h
    exact ⟨Nat.zero_le _, fun h0 => absurd h0 (by decide)⟩
  · obtain ⟨out, hinit, hpos, h28, hs, hcrc, hb⟩ := outputFileInit_appends hbs (Nat.not_le.mp hlarge)
      s.len chunks crc
    obtain ⟨out1, hw, rfl⟩ := writeAllBlocks_of_write hchunks hinit h
    have ha := writeAllBlocks_appends hpos hs hb hbs (Nat.not_le.mp hlarge) hlen hw
    have hclose := outputFileClose_appends ha.pos (ha.sparse.trans hs)
    rw [ha.use_crc.trans hcrc] at hclose
    have h1 := ha.le
    have h2 := hclose.eq rfl
    dsimp only at h1 h2
    refine ⟨by omega, fun h0 => ?_⟩
    have h3 := ha.eq h0
    dsimp only at h3
    omega

end

/-! ## The limit -/

/-- What a pass takes of a block that does not fit, with `r` bytes after the header of its chunk,
besides that header: the word of a fill, and else whole blocks. -/
def partSize (bs : UInt32) (bb : BackedBlock) (r : ℕ) : ℕ :=
  match bb.source with
  | .fill _ => 4
  | _ => min (padded bs.toNat bb.len.toNat) (bs.toNat * (r / bs.toNat))

/-- **The room of a pass**: when it takes a part of the block that does not fit, with `r` bytes left
after its header, these hold the header of the gap in front of it, what it takes, and the end skip,
or go beyond by no more than the end skip that there is not. -/
def KeepsRoom (max_len : UInt32) (src : SparseFile) : Prop :=
  ∀ pre bb post, src.blocks = pre ++ bb :: post →
    let c := cost src.block_size pre 0
    let n := budget max_len
    c ≤ n → n < cost src.block_size (pre ++ [bb]) 0 → (pre = [] ∨ n / 8 + c + 12 < n) →
      let r := n - (c + 12)
      let part := min bb.len.toNat (src.block_size.toNat * (r / src.block_size.toNat))
      gapSize (behind src.block_size pre 0) bb + partSize src.block_size bb r +
        endSkip src (bb.block + divRoundUp (UInt32.ofNat part) src.block_size) ≤ r + 12

section

variable {env : Env} {max_len : UInt32} {in_s src mid mid' s : SparseFile} {ss : List SparseFile}
  {more : Bool} {count fuel : ℕ} {done taken left : List BackedBlock}

/-- The first part of a node that is split. -/
theorem splitBb_head {bs r : UInt32} {addr : ℕ} {bb a : BackedBlock} {rest : List BackedBlock}
    (h : splitBb bs addr bb r = a :: rest) :
    a = { bb with len := UInt32.ofNat (min bb.len.toNat (bs.toNat * (r.toNat / bs.toNat))) } := by
  have hdown := alignDown_toNat r bs
  obtain ⟨hle, rfl, -⟩ | ⟨hcut, rfl, -⟩ := splitBb_cases h
  · rw [UInt32.le_iff_toNat_le, hdown] at hle
    rw [Nat.min_eq_left hle, UInt32.ofNat_toNat]
  · rw [UInt32.lt_iff_toNat_lt, hdown] at hcut
    rw [Nat.min_eq_right hcut.le, ← hdown, UInt32.ofNat_toNat]

/-- The chunk of the first part: a header and what the pass takes. -/
theorem chunkSize_part {bs : UInt32} (hbs : bs ≠ 0) (bb : BackedBlock) (r : ℕ) :
    chunkSize bs { bb with len := UInt32.ofNat (min bb.len.toNat (bs.toNat * (r / bs.toNat))) } =
      12 + partSize bs bb r := by
  have hpos := toNat_pos_of_ne_zero hbs
  have hlt : min bb.len.toNat (bs.toNat * (r / bs.toNat)) < 2 ^ 32 :=
    (Nat.min_le_left _ _).trans_lt bb.len.toNat_lt
  have hpad : padded bs.toNat
      (UInt32.ofNat (min bb.len.toNat (bs.toNat * (r / bs.toNat)))).toNat =
        min (padded bs.toNat bb.len.toNat) (bs.toNat * (r / bs.toNat)) := by
    rw [UInt32.toNat_ofNat_of_lt' hlt, padded_min hpos]
  unfold chunkSize partSize
  dsimp only
  rw [hpad]
  cases bb.source <;> rfl

/-- A part takes no more than what is left, and the word of a fill. -/
theorem partSize_le (bs : UInt32) (bb : BackedBlock) (r : ℕ) : partSize bs bb r ≤ r + 4 := by
  have h := Nat.mul_div_le r bs.toNat
  unfold partSize
  split <;> omega

/-- **What a piece takes**, with the end skip: never more than the budget, the end skip and a checksum
chunk together, and with room for the checksum chunk exactly when the pass keeps its room. -/
theorem Packs.limit (h : Packs src.block_size (budget max_len) src.blocks more taken left)
    (hbs : src.block_size ≠ 0) (hroom : 12 + src.block_size.toNat ≤ budget max_len) :
    cost src.block_size taken 0 + endSkip src (behind src.block_size taken 0) ≤
        budget max_len + 28 ∧
      (cost src.block_size taken 0 + endSkip src (behind src.block_size taken 0) ≤
        budget max_len + 12 ↔ KeepsRoom max_len src) := by
  have hskip := endSkip_le src (behind src.block_size taken 0)
  cases h with
  | all hfits =>
    refine ⟨by omega, iff_of_true (by omega) fun pre bb post hblocks _ _ hfull => ?_⟩
    have hcat : src.blocks = pre ++ [bb] ++ post := by rw [hblocks]; simp
    rw [hcat, cost_append] at hfits
    omega
  | @split pre post rest bb a addr hblocks hfits hfull hsplits hbb =>
    have hn : budget max_len < 2 ^ 32 := UInt32.toNat_lt _
    have hc : cost src.block_size pre 0 + 12 ≤ budget max_len := by
      rcases hsplits with rfl | hlt
      · change 0 + 12 ≤ _
        omega
      · omega
    have ha := splitBb_head hbb
    rw [toU32_room hn hc] at ha
    have hcost : cost src.block_size (pre ++ [a]) 0 = cost src.block_size pre 0 +
        gapSize (behind src.block_size pre 0) bb +
          (12 + partSize src.block_size bb (budget max_len - (cost src.block_size pre 0 + 12))) := by
      rw [cost_concat, ha, chunkSize_part hbs]
      rfl
    have hgap := gapSize_le (behind src.block_size pre 0) bb
    have hpart := partSize_le src.block_size bb (budget max_len - (cost src.block_size pre 0 + 12))
    rw [behind_concat, ha] at hskip ⊢
    dsimp only at hskip ⊢
    rw [← ha, hcost]
    refine ⟨by omega, fun hle pre' bb' post' hblocks' hfits' hfull' _ => ?_, fun hk => ?_⟩
    · obtain ⟨rfl, rfl, rfl⟩ :=
        cost_stop_unique (hblocks.symm.trans hblocks') hfits hfull hfits' hfull'
      dsimp only
      omega
    · have hle := hk pre bb post hblocks hfits hfull hsplits
      dsimp only at hle
      omega
  | @whole pre post bb hblocks hpre hfits hfull hkeeps =>
    refine ⟨by omega, iff_of_true (by omega) fun pre' bb' post' hblocks' hfits' hfull' hsplits => ?_⟩
    -- The pass splits nothing.
    obtain ⟨rfl, -⟩ := cost_stop_unique (hblocks.symm.trans hblocks') hfits hfull hfits' hfull'
    exact absurd hsplits (not_or.mpr ⟨hpre, by omega⟩)

/-- The size of a piece, written without failures or with one. -/
theorem piece_limit (hl : Linked done mid) (hlen : ∀ c ∈ mid.blocks, c.len.toNat < 2 ^ 31)
    (hmax : 68 + mid.block_size.toNat ≤ max_len.toNat)
    (pass : moveChunksUpToLen env mid (sparseFileNew mid.block_size mid.len) max_len =
      .ok (more, mid', s)) {crc : Bool} {ret : ℤ} {f : RawFile}
    (hw : sparseFileWrite file_ops env s ⟨[], 0⟩ true crc = .ok (ret, f)) :
    (crc = false ∨ KeepsRoom max_len mid → f.bytes.length ≤ max_len.toNat) ∧
      (ret = 0 → s.blocks ≠ [] → f.bytes.length ≤ max_len.toNat →
        crc = false ∨ KeepsRoom max_len mid) := by
  obtain ⟨hbs, htakes, hleft⟩ := moveChunksUpToLen_takes hl pass
  have hbudget : budget max_len = max_len.toNat - 56 := by
    have h56 : overhead.toNat = 56 := by decide
    unfold budget
    rw [UInt32.toNat_sub_of_le _ _ (UInt32.le_iff_toNat_le.mpr (by omega)), h56]
  have hshort : ∀ c ∈ s.blocks, c.len.toNat < 2 ^ 31 := fun c hc => by
    obtain ⟨bb, hbb, hle, -⟩ := htakes.len_le c (List.mem_append_left _ hc)
    exact hle.trans_lt (hlen bb hbb)
  obtain ⟨hle, heq⟩ := sparseFileWrite_length (hleft.piece_block_size ▸ hbs) hshort hw
  have hskip : ∀ x, endSkip s x = endSkip mid x := fun x => by
    unfold endSkip
    rw [hleft.piece_block_size, hleft.piece_len]
  rw [hleft.piece_block_size, hskip] at hle heq
  have hcrc : crcSize crc = if crc then 16 else 0 := rfl
  -- A pass that measures its blocks keeps to the budget.
  by_cases hgood : mid.block_size.toNat < 2 ^ 31 ∧ scan env mid max_len ≠ .failed
  · have hpacks := htakes.packs hl hbs hgood.1 (fun c hc => .inr (hlen c hc)) hgood.2
    obtain ⟨h1, h2⟩ := hpacks.limit hbs (by omega)
    cases crc with
    | false =>
      simp only [Bool.false_eq_true, if_false] at hcrc
      exact ⟨fun _ => by omega, fun _ _ _ => Or.inl rfl⟩
    | true =>
      simp only [if_true] at hcrc
      refine ⟨fun hk => ?_, fun h0 _ hfits => Or.inr (h2.mp ?_)⟩
      · have := h2.mpr (hk.resolve_left (by decide))
        omega
      · have := heq h0
        omega
  · -- A pass that fails makes an empty piece.
    have hnil : s.blocks = [] := by
      rcases not_and_or.mp hgood with hlarge | hfail
      · rw [moveChunksUpToLen_large (Nat.not_lt.mp hlarge)] at pass
        cases pass
        rfl
      · have hfail := not_not.mp hfail
        generalize s.blocks = taken at htakes ⊢
        generalize mid'.blocks = left at htakes
        cases htakes with
        | refused => rfl
        | failed => rfl
        | all last hscan => rw [hfail] at hscan; cases hscan
        | split hblocks hscan => rw [hfail] at hscan; cases hscan
        | whole hblocks hpre hscan => rw [hfail] at hscan; cases hscan
    have he := endSkip_le mid (behind mid.block_size s.blocks 0)
    have hc : crcSize crc ≤ 16 := by
      rw [hcrc]
      split_ifs <;> decide
    have hcost : cost mid.block_size s.blocks 0 = 0 := by rw [hnil]; rfl
    exact ⟨fun _ => by omega, fun _ hne => absurd hnil hne⟩

/-- **The size limit.** For a file of blocks below `2^31` bytes and a limit that leaves room for the
overhead, a chunk header and a block: when every pass that makes a piece for `out_s` keeps its room,
the pieces are within the limit when they are written in the sparse format, with a checksum chunk or
without. And a piece of a pass is within the limit exactly then, or when it is written without a
checksum chunk. -/
theorem resparse_limit (hl : Linked [] in_s) (hlen : ∀ c ∈ in_s.blocks, c.len.toNat < 2 ^ 31)
    (hmax : 68 + in_s.block_size.toNat ≤ max_len.toNat) :
    (∀ fuel r, sparseFileResparse env fuel in_s max_len count = .ok r →
      (∀ ss mid, Run env max_len in_s ss mid true → ss.length < count → KeepsRoom max_len mid) →
      ∀ s ∈ r.2.1, ∀ crc ret f, sparseFileWrite file_ops env s ⟨[], 0⟩ true crc = .ok (ret, f) →
        f.bytes.length ≤ max_len.toNat) ∧
    ∀ ss mid more mid' s, Run env max_len in_s ss mid true →
      moveChunksUpToLen env mid (sparseFileNew mid.block_size mid.len) max_len =
        .ok (more, mid', s) → s.blocks ≠ [] →
      ∀ crc f, sparseFileWrite file_ops env s ⟨[], 0⟩ true crc = .ok (0, f) →
        (f.bytes.length ≤ max_len.toNat ↔ crc = false ∨ KeepsRoom max_len mid) := by
  have hpiece : ∀ ss mid more mid' s, Run env max_len in_s ss mid true →
      moveChunksUpToLen env mid (sparseFileNew mid.block_size mid.len) max_len =
        .ok (more, mid', s) → ∀ crc ret f,
      sparseFileWrite file_ops env s ⟨[], 0⟩ true crc = .ok (ret, f) →
        (crc = false ∨ KeepsRoom max_len mid → f.bytes.length ≤ max_len.toNat) ∧
          (ret = 0 → s.blocks ≠ [] → f.bytes.length ≤ max_len.toNat →
            crc = false ∨ KeepsRoom max_len mid) := by
    intro ss mid more mid' s run pass crc ret f hw
    obtain ⟨hlink, hsize, -⟩ := run.linked hl
    exact piece_limit hlink (run.short hl hlen).2 (hsize ▸ hmax) pass hw
  constructor
  · intro fuel r hr hkeeps s hs crc ret f hw
    obtain ⟨ts, mid, run, rfl⟩ := run_of_sparseFileResparse hr
    obtain ⟨ss', mid', more', mid'', run', hlt, pass⟩ := run.pass_of_mem hs
    exact (hpiece _ _ _ _ _ run' pass crc ret f hw).1 (Or.inr (hkeeps _ _ run' hlt))
  · intro ss mid more mid' s run pass hne crc f hw
    obtain ⟨h1, h2⟩ := hpiece _ _ _ _ _ run pass crc 0 f hw
    exact ⟨h2 rfl hne, h1⟩

end

/-- A block of memory, and one behind a gap. -/
def behindGap : SparseFile :=
  ⟨16, 1024, ⟨[⟨0, 0, 16, .data 0⟩, ⟨1, 2, 160, .data 0⟩], none, 16, 2⟩⟩

/-- With two blocks and a limit of 128 bytes, a piece stays within the limit exactly when its pass
keeps its room. -/
theorem resparse_limit_gap :
    (∀ fuel r, sparseFileResparse nothingOpens fuel behindGap 128 4 = .ok r →
      (∀ ss mid, Run nothingOpens 128 behindGap ss mid true → ss.length < 4 →
        KeepsRoom 128 mid) →
      ∀ s ∈ r.2.1, ∀ crc ret f,
        sparseFileWrite file_ops nothingOpens s ⟨[], 0⟩ true crc = .ok (ret, f) →
          f.bytes.length ≤ 128) ∧
    ∀ ss mid more mid' s, Run nothingOpens 128 behindGap ss mid true →
      moveChunksUpToLen nothingOpens mid (sparseFileNew mid.block_size mid.len) 128 =
        .ok (more, mid', s) → s.blocks ≠ [] →
      ∀ crc f, sparseFileWrite file_ops nothingOpens s ⟨[], 0⟩ true crc = .ok (0, f) →
        (f.bytes.length ≤ 128 ↔ crc = false ∨ KeepsRoom 128 mid) :=
  @resparse_limit nothingOpens 128 behindGap 4 ⟨by decide, by decide, rfl⟩ (by decide) (by decide)

/-- The first piece of the two blocks: the gap in front of the second one was not counted, and the
piece takes 140 bytes. -/
theorem gap_goes_over_limit : Sorted behindGap.blocks ∧ Disjoint 16 behindGap.blocks ∧
    68 + behindGap.block_size.toNat ≤ 128 ∧
    ∃ r, sparseFileResparse nothingOpens 4 behindGap 128 4 = .ok r ∧ ∃ s ∈ r.2.1, ∃ f,
      sparseFileWrite file_ops nothingOpens s ⟨[], 0⟩ true true = .ok (0, f) ∧
        f.bytes.length = 140 := by
  -- The run is evaluated once for the piece and once for what is written for it.
  refine ⟨by unfold Sorted; decide, by unfold Disjoint Before; decide, by decide, ?_⟩
  have hr : (sparseFileResparse nothingOpens 4 behindGap 128 4).map (fun r => r.2.1.head?) =
      .ok (some ⟨16, 1024, ⟨[⟨0, 0, 16, .data 0⟩, ⟨1, 2, 32, .data 0⟩], none, 16, 3⟩⟩) := by
    decide +kernel
  have hw : (sparseFileWrite file_ops nothingOpens
      ⟨16, 1024, ⟨[⟨0, 0, 16, .data 0⟩, ⟨1, 2, 32, .data 0⟩], none, 16, 3⟩⟩ ⟨[], 0⟩ true true).map
        (fun q => (q.1, q.2.bytes.length)) = .ok (0, 140) := by
    decide +kernel
  cases hr' : sparseFileResparse nothingOpens 4 behindGap 128 4 with
  | error e => rw [hr'] at hr; cases hr
  | ok r =>
    rw [hr'] at hr
    refine ⟨r, rfl, _, List.mem_of_mem_head? (Except.ok.inj hr), ?_⟩
    cases hw' : sparseFileWrite file_ops nothingOpens
        ⟨16, 1024, ⟨[⟨0, 0, 16, .data 0⟩, ⟨1, 2, 32, .data 0⟩], none, 16, 3⟩⟩ ⟨[], 0⟩ true true with
    | error e => rw [hw'] at hw; cases hw
    | ok q =>
      rw [hw'] at hw
      obtain ⟨h0, h140⟩ := Prod.mk.inj (Except.ok.inj hw)
      obtain ⟨ret, f⟩ := q
      dsimp only at h0 h140
      subst h0
      exact ⟨f, rfl, h140⟩

end AmlogicToolkit.Simg
