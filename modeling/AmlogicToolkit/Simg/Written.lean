import AmlogicToolkit.Simg.Emit
import AmlogicToolkit.Simg.RoundTrip

/-!
# The files that the sparse writer makes

`sparse_file_write` in the sparse format, from the header to the checksum. For an image of whole
blocks it makes an image that is imported (`sparseFileWrite_whole`, `Files.image_import`), and whose
expansion is that of its blocks (`Files.expand_image`). For any other length it either runs into its
own assertion, or writes one chunk less than it has counted (`sparseFileWrite_odd`).
-/

namespace AmlogicToolkit.Simg

open Bytes

/-- A file of a header, as many chunks as it announces, and a rest. -/
def chunkFile (bs : UInt32) (n : ℕ) (cs : List Chunk) (post : List UInt8) : List UInt8 :=
  (writtenHeader bs n cs.length).encode ++ (encodeChunks cs ++ post)

/-! ## The writer -/

section

variable (w : Files) (bs : UInt32)

/-- The chunks of an image of `n` blocks. -/
def Files.emission (n : ℕ) (l : List BackedBlock) : List Chunk :=
  w.chunks bs l 0 ++ gapChunk (stopOf bs l 0) n

/-- The chunks of an image of `n` blocks, and the checksum. -/
def Files.allChunks (n : ℕ) (crc : Bool) (l : List BackedBlock) : List Chunk :=
  w.emission bs n l ++ crcChunk crc (sparseCrc32 0 (w.summedAll bs l))

/-- The sparse image of `n` blocks. -/
def Files.image (n : ℕ) (crc : Bool) (l : List BackedBlock) : List UInt8 :=
  chunkFile bs n (w.allChunks bs n crc l) []

end

section

variable {w : Files} {bs : UInt32} {n len : ℕ} {crc : Bool} {s : SparseFile}
  {out : OutputFile RawFile}

/-- A sparse file of `len` bytes in `n` blocks, with blocks that can be written one after the
other. -/
structure SparseFile.Lays (w : Files) (s : SparseFile) (len n : ℕ) : Prop where
  /-- The length. -/
  len_eq : s.len = len
  /-- The number of blocks, the last of which may be covered in part. -/
  blocks_eq : n = (len + s.block_size.toNat - 1) / s.block_size.toNat
  /-- The 32-bit numbers of the writers leave room. -/
  room : Room s.block_size n
  /-- The blocks stand one after the other. -/
  placed : Placed w s.block_size n s.blocks 0

/-- The blocks of an image reach its length, by less than a block. -/
theorem SparseFile.Lays.bounds (h : s.Lays w len n) :
    len ≤ n * s.block_size.toNat ∧ n * s.block_size.toNat < len + s.block_size.toNat := by
  have h1 := le_padded (n := len) h.room.pos
  have h2 := padded_lt (n := len) h.room.pos
  rw [padded, ← h.blocks_eq, Nat.mul_comm] at h1 h2
  exact ⟨h1, h2⟩

/-- An image of whole blocks is as long as its blocks. -/
theorem SparseFile.Lays.mul_eq (h : s.Lays w len n) (hdvd : s.block_size.toNat ∣ len) :
    n * s.block_size.toNat = len := by
  have := padded_eq h.room.pos hdvd
  rwa [padded, ← h.blocks_eq, Nat.mul_comm] at this

/-- `sparse_count_chunks` counts a chunk at the end for every image that its blocks do not fill. -/
theorem sparseCountChunks_emission (h : s.Lays w len n) :
    sparseCountChunks s = .ok (UInt32.ofNat (w.emission s.block_size n s.blocks).length) := by
  obtain ⟨h1, h2⟩ := @countBlocks_chunks _ _ _ h.room _ 0 0 h.placed
  have hround : (s.len + s.block_size.toNat - 1) / s.block_size.toNat = (n : ℤ) := by
    have := h.room.pos
    have hcast : s.len + (s.block_size.toNat : ℤ) - 1 =
        ((len + s.block_size.toNat - 1 : ℕ) : ℤ) := by
      rw [h.len_eq]
      omega
    rw [hcast, ← Int.natCast_ediv, ← h.blocks_eq]
  rw [UInt32.toNat_zero] at h1 h2
  rw [sparseCountChunks_end h.room.ne_zero hround rfl, h1, h2, UInt32.zero_add, Files.emission,
    List.length_append, UInt32.ofNat_add]

/-- `write_all_blocks` of an image of whole blocks writes its chunks. -/
theorem writeAllBlocks_whole (h : s.Lays w len n) (hdvd : s.block_size.toNat ∣ len)
    (hout : Sink s.block_size crc out) :
    ∃ out', writeAllBlocks file_ops w.env s out = .ok (0, out') ∧
      Outputs s.block_size crc out (encodeChunks (w.emission s.block_size n s.blocks))
        (w.summedAll s.block_size s.blocks) (0, out') := by
  obtain ⟨last_block, out1, hwrite, hlast, hall⟩ :=
    @writeBlocks_outputs _ _ _ _ _ h.room _ 0 h.placed hout
  rw [UInt32.toNat_zero] at hlast hall
  have hle : last_block.toNat ≤ n := hlast ▸ stopOf_le h.placed
  have hlen : s.len = (n * s.block_size.toNat : ℕ) := by rw [h.len_eq, h.mul_eq hdvd]
  obtain ⟨out', hwritten, hend⟩ := writeAllBlocks_end h.room.ne_zero hlen hwrite hle hall.sink
  have hsum := hall.append hend
  rw [List.append_nil] at hsum
  refine ⟨out', hwritten, ?_⟩
  rw [Files.emission, encodeChunks_append, ← hlast]
  exact hsum

/-- `write_all_blocks` of an image that ends inside a block runs into its assertion when a block
reaches into it. When none does, the skip at the end is not written, and the loop does not look at
that. -/
theorem writeAllBlocks_odd (h : s.Lays w len n) (hdvd : ¬ s.block_size.toNat ∣ len)
    (hout : Sink s.block_size crc out) :
    if stopOf s.block_size s.blocks 0 = n then
      writeAllBlocks file_ops w.env s out = .error .assertion
    else ∃ out', writeAllBlocks file_ops w.env s out = .ok (0, out') ∧
      Outputs s.block_size crc out (encodeChunks (w.chunks s.block_size s.blocks 0))
        (w.summedAll s.block_size s.blocks) (0, out') := by
  obtain ⟨last_block, out1, hwrite, hlast, hall⟩ :=
    @writeBlocks_outputs _ _ _ _ _ h.room _ 0 h.placed hout
  rw [UInt32.toNat_zero] at hlast hall
  obtain ⟨h1, h2⟩ := h.bounds
  -- The length ends inside the last block.
  have hne : len ≠ n * s.block_size.toNat := fun heq => hdvd (heq ▸ Nat.dvd_mul_left _ _)
  have hle : last_block.toNat ≤ n := hlast ▸ stopOf_le h.placed
  unfold SparseFile.blocks at hwrite
  unfold writeAllBlocks
  rw [hwrite]
  simp only [ne_eq, not_true_eq_false, if_false]
  -- If the blocks cover it, the rest of the length is negative, which an assertion stops.
  by_cases hn : stopOf s.block_size s.blocks 0 = n
  · have hneg : s.len - last_block.toNat * s.block_size.toNat < 0 := by
      rw [hlast, hn, h.len_eq, ← Nat.cast_mul]
      omega
    rw [if_pos hn, if_pos hneg]
  · -- Else the rest is no multiple of the block size, and the gap is refused.
    have hlt : last_block.toNat + 1 ≤ n := by omega
    have hmul := Nat.mul_le_mul_right s.block_size.toNat hlt
    rw [Nat.add_mul, Nat.one_mul] at hmul
    have hpad : s.len - last_block.toNat * s.block_size.toNat =
        ((len - last_block.toNat * s.block_size.toNat : ℕ) : ℤ) := by
      rw [h.len_eq, Nat.cast_sub (by omega)]
      push_cast
      rfl
    have hmod : ((len - last_block.toNat * s.block_size.toNat : ℕ) : ℤ) %
        (s.block_size.toNat : ℤ) ≠ 0 := by
      intro h0
      rw [← Int.natCast_mod, Nat.cast_eq_zero] at h0
      have hd := Nat.dvd_add (Nat.dvd_of_mod_eq_zero h0)
        (Nat.dvd_mul_left s.block_size.toNat last_block.toNat)
      rw [Nat.sub_add_cancel (by omega)] at hd
      exact hdvd hd
    have hpos : ((len - last_block.toNat * s.block_size.toNat : ℕ) : ℤ) > 0 := by omega
    rw [if_neg hn, hpad, if_neg (by omega), if_pos hpos, writeSkipChunk_odd hall.sink hmod]
    exact ⟨out1, rfl, hall⟩

/-- **An image of whole blocks** is written as its sparse image. -/
theorem sparseFileWrite_whole (h : s.Lays w len n) (hdvd : s.block_size.toNat ∣ len)
    (dev : RawFile) :
    sparseFileWrite file_ops w.env s dev true crc =
      .ok (0, dev.put (w.image s.block_size n crc s.blocks)) := by
  obtain ⟨out, hinit, hout, hcrc, hdev⟩ := outputFileInit_outputs dev h.room.ne_zero
    h.room.lt_int len (w.emission s.block_size n s.blocks).length crc
  obtain ⟨out', hall, hout'⟩ := writeAllBlocks_whole h hdvd hout
  have hn : len / s.block_size.toNat = n := by
    rw [← h.mul_eq hdvd, Nat.mul_div_cancel _ h.room.pos]
  rw [← h.len_eq] at hinit
  rw [sparseFileWrite_eq (sparseCountChunks_emission h) hinit hall, outputFileClose_dev hout'.sink,
    hout'.dev, hdev, RawFile.put_put, RawFile.put_put, hn]
  cases crc with
  | false => simp only [Files.image, Files.allChunks, chunkFile, crcChunk, Bool.false_eq_true,
      if_false, List.append_nil, encodeChunks_nil, List.length_nil, Nat.add_zero]
  | true =>
    rw [hout'.crc32 rfl, hcrc]
    simp only [Files.image, Files.allChunks, chunkFile, crcChunk, if_true, encodeChunks_append,
      List.length_append, List.length_singleton, List.append_nil]

/-- **An image that ends inside a block** is not written, or written with a header that counts one
chunk more than there is. -/
theorem sparseFileWrite_odd (h : s.Lays w len n) (hdvd : ¬ s.block_size.toNat ∣ len) :
    sparseFileWrite file_ops w.env s ⟨[], 0⟩ true crc = .error .assertion ∨
      ∃ sum new, sparseFileWrite file_ops w.env s ⟨[], 0⟩ true crc = .ok (0, new) ∧
        new.bytes = (writtenHeader s.block_size (len / s.block_size.toNat)
            ((w.chunks s.block_size s.blocks 0 ++ crcChunk crc sum).length + 1)).encode ++
          encodeChunks (w.chunks s.block_size s.blocks 0 ++ crcChunk crc sum) := by
  obtain ⟨out, hinit, hout, -, hdev⟩ := outputFileInit_outputs ⟨[], 0⟩ h.room.ne_zero
    h.room.lt_int len (w.emission s.block_size n s.blocks).length crc
  have hodd := writeAllBlocks_odd h hdvd hout
  unfold sparseFileWrite
  rw [h.len_eq]
  simp only [sparseCountChunks_emission h, hinit, bind, Except.bind, pure, Except.pure]
  rw [if_neg (by decide)]
  -- The rest of the length decides which of the two it is.
  by_cases hn : stopOf s.block_size s.blocks 0 = n
  · rw [if_pos hn] at hodd
    exact Or.inl (by rw [hodd])
  · rw [if_neg hn] at hodd
    obtain ⟨out', hall, hout'⟩ := hodd
    refine Or.inr ⟨out'.crc32, _, by rw [hall], ?_⟩
    have hlt : stopOf s.block_size s.blocks 0 < n :=
      Nat.lt_of_le_of_ne (stopOf_le h.placed) hn
    -- The refused gap was counted in the header, but is not written.
    have hlen : (w.emission s.block_size n s.blocks).length + (crcChunk crc 0).length =
        (w.chunks s.block_size s.blocks 0 ++ crcChunk crc out'.crc32).length + 1 := by
      rw [Files.emission, gapChunk, if_pos hlt]
      cases crc <;> simp [crcChunk]
    rw [outputFileClose_dev hout'.sink, hout'.dev, hdev, RawFile.put_put, RawFile.put_put, hlen,
      encodeChunks_append]
    simp only [RawFile.put]
    exact (overwrite_length 0 [] _).trans (List.append_assoc _ _ _)

end

/-! ## Files of chunks -/

/-- What a chunk stands for in the expanded image. -/
def Chunk.content (bs : UInt32) (c : Chunk) : List UInt8 :=
  match c.header.kind with
  | .raw => c.payload
  | .fill => cycle (c.header.chunk_sz.toNat * bs.toNat / 4) c.payload
  | .dontCare => List.replicate (c.header.chunk_sz.toNat * bs.toNat) 0
  | .crc32 => []
  | .unknown => []

section

variable {bs : UInt32} {n : ℕ} {cs : List Chunk}

/-- The contents of the records of a list of chunks are those of the chunks. -/
theorem content_layout {W : List UInt8} {hdr : SparseHeader} (hh : hdr.chunk_hdr_sz = 12)
    (hok : ∀ c ∈ cs, c.Formed hdr.blk_sz) {pre post : List UInt8}
    (hW : W = pre ++ (encodeChunks cs ++ post)) :
    (layout pre.length cs).flatMap (Record.content W hdr) =
      cs.flatMap (Chunk.content hdr.blk_sz) := by
  have h12 : hdr.chunk_hdr_sz.toNat = CHUNK_HEADER_LEN := by rw [hh]; rfl
  -- The induction is on the chunks, with what lies before them as the prefix.
  induction cs generalizing pre with
  | nil => rfl
  | cons c cs ih =>
    have hc := hok c List.mem_cons_self
    have hW' : W = pre ++ c.encode ++ (encodeChunks cs ++ post) := by
      rw [hW, encodeChunks_cons]; simp only [List.append_assoc]
    have hrest := ih (fun d hd => hok d (List.mem_cons_of_mem _ hd)) hW'
    have hpay := slice_payload pre (encodeChunks cs ++ post) c
    rw [← List.append_assoc pre, ← hW'] at hpay
    rw [List.length_append] at hrest
    rw [layout, List.flatMap_cons, List.flatMap_cons, hrest]
    congr 1
    have hsize := hc.payload
    -- What a record stands for is read from its payload.
    unfold Record.content Chunk.content
    unfold ChunkHeader.payloadSize at hsize
    cases hk : c.header.kind <;> simp only [hk] at hsize ⊢
    · rw [Record.payload, h12, hsize, hpay]
    · have hword : (⟨pre.length, c.header⟩ : Record).word W hdr = read32 c.payload 0 := by
        rw [Record.word, read32, Record.payload, h12, hsize, hpay, read32, hsize, slice_self]
      rw [hword, le32_read32 (Nat.le_of_eq hsize), hsize, slice_self]

/-- The header of a file that starts with it. -/
theorem fileHeader_encode (hdr : SparseHeader) (rest : List UInt8) :
    fileHeader (hdr.encode ++ rest) = hdr := by
  rw [fileHeader, slice_append_right (by simp), ← SparseHeader.length_encode hdr, slice_self,
    SparseHeader.decode_encode]

/-- **The records of a file of chunks** are the chunks. -/
theorem fileRecords_chunkFile (hok : ∀ c ∈ cs, c.Formed bs) (hcount : cs.length < 2 ^ 32)
    (post : List UInt8) :
    fileHeader (chunkFile bs n cs post) = writtenHeader bs n cs.length ∧
      fileRecords (chunkFile bs n cs post) = layout SPARSE_HEADER_LEN cs ∧
      (∀ r ∈ fileRecords (chunkFile bs n cs post),
        r.Ok (chunkFile bs n cs post) (writtenHeader bs n cs.length)) ∧
      expand (chunkFile bs n cs post) = cs.flatMap (Chunk.content bs) := by
  have hhdr : fileHeader (chunkFile bs n cs post) = writtenHeader bs n cs.length :=
    fileHeader_encode _ _
  have htotal : (writtenHeader bs n cs.length).total_chunks.toNat = cs.length := by
    change (UInt32.ofNat cs.length).toNat = _
    rw [UInt32.toNat_ofNat', Nat.mod_eq_of_lt hcount]
  obtain ⟨h1, h2⟩ := @records_formed (chunkFile bs n cs post) (writtenHeader bs n cs.length) rfl _
    hok _ post rfl 0
  have hcontent := @content_layout _ (chunkFile bs n cs post) (writtenHeader bs n cs.length) rfl
    hok _ post rfl
  rw [SparseHeader.length_encode] at h1 h2 hcontent
  have hrec : fileRecords (chunkFile bs n cs post) = layout SPARSE_HEADER_LEN cs := by
    rw [fileRecords, hhdr, htotal]
    exact h1.trans (List.append_nil _)
  refine ⟨hhdr, hrec, by rw [hrec]; exact h2, ?_⟩
  rw [expand, hrec, hhdr]
  exact hcontent

/-- A file of chunks that are none of them empty, but for a checksum, is an image. -/
theorem chunkFile_image (hr : Room bs n) (h4 : bs.toNat % 4 = 0)
    (hok : ∀ c ∈ cs, c.Ok bs ∨ c.Formed bs ∧ c.header.kind = .crc32)
    (hblocks : chunkBlocks cs = n) (hcount : cs.length < 2 ^ 32) (post : List UInt8) :
    Image (chunkFile bs n cs post) := by
  obtain ⟨hhdr, hrec, hrecok, -⟩ := fileRecords_chunkFile (n := n)
    (fun c hc => (hok c hc).elim Chunk.Ok.formed And.left) hcount post
  have hblk : (writtenHeader bs n cs.length).total_blks.toNat = n := by
    change (UInt32.ofNat n).toNat = n
    rw [UInt32.toNat_ofNat', Nat.mod_eq_of_lt hr.lt]
  -- The header's checks, the chunks', and the sizes, one after the other.
  refine ⟨⟨⟨?_, ?_, ?_, ?_, ?_⟩, ?_, ?_⟩, ?_, ?_, ?_, ?_, ?_⟩
  · rw [chunkFile, List.length_append, SparseHeader.length_encode]
    exact Nat.le_add_right _ _
  · rw [hhdr]; rfl
  · rw [hhdr]; rfl
  · rw [hhdr]; exact Nat.le_refl 28
  · rw [hhdr]; exact Nat.le_refl 12
  · rw [hhdr]; exact hrecok
  · rw [hhdr, hrec, totalBlocks_layout, hblocks, hblk]
  · rw [hhdr]; exact hr.pos
  · rw [hhdr]; exact h4
  · rw [hhdr]; exact hr.lt_int
  · -- A chunk with a payload covers a block, and a checksum has none of those kinds.
    intro r hr' hk h0
    rw [hrec] at hr'
    obtain ⟨c, hc, he⟩ := layout_header hr'
    rcases hok c hc with hc | ⟨-, hc⟩
    · refine hc.blocks ?_
      rw [← he]
      unfold ChunkHeader.blocks
      rcases hk with hk | hk <;> rw [hk, h0]
    · rw [he, hc] at hk
      rcases hk with hk | hk <;> cases hk
  · rw [hhdr, hblk]
    exact hr.size

/-- **The records of a file** whose header announces one chunk more than there is: the chunks, and
what stands behind them. -/
theorem fileRecords_short (hok : ∀ c ∈ cs, c.Formed bs) (hcount : cs.length + 1 < 2 ^ 32)
    {file post : List UInt8}
    (hfile : file = (writtenHeader bs n (cs.length + 1)).encode ++ (encodeChunks cs ++ post)) :
    fileHeader file = writtenHeader bs n (cs.length + 1) ∧
      fileRecords file = layout SPARSE_HEADER_LEN cs ++
        [recordAt file ((writtenHeader bs n (cs.length + 1)).encode ++ encodeChunks cs).length] := by
  have hhdr : fileHeader file = writtenHeader bs n (cs.length + 1) := by
    rw [hfile, fileHeader_encode]
  have htotal : (writtenHeader bs n (cs.length + 1)).total_chunks.toNat = cs.length + 1 := by
    change (UInt32.ofNat (cs.length + 1)).toNat = _
    rw [UInt32.toNat_ofNat', Nat.mod_eq_of_lt hcount]
  obtain ⟨h1, -⟩ := @records_formed file (writtenHeader bs n (cs.length + 1)) rfl _ hok
    (writtenHeader bs n (cs.length + 1)).encode post hfile 1
  rw [SparseHeader.length_encode] at h1
  refine ⟨hhdr, ?_⟩
  rw [fileRecords, hhdr, htotal]
  exact h1

/-- A header that announces one chunk more than there is, at the end of a file, is not accepted. -/
theorem short_not_imported (hok : ∀ c ∈ cs, c.Formed bs) (hcount : cs.length + 1 < 2 ^ 32)
    {fd : ℕ} {crc : Bool} {s : SparseFile} :
    sparseFileImport fd ((writtenHeader bs n (cs.length + 1)).encode ++ encodeChunks cs) crc ≠
      .ok (some s) := by
  intro h
  obtain ⟨-, himp, hfin, -⟩ := sparseFileImport_some h
  obtain ⟨hacc, -, -⟩ := accepted_records himp hfin
  obtain ⟨-, hrec⟩ := @fileRecords_short bs n cs hok hcount _ []
    (congrArg _ (List.append_nil _).symm)
  -- The last record would start where the file ends.
  have hlast := hacc _ (by rw [hrec]; exact List.mem_append_right _ List.mem_cons_self)
  simp only [Record.accepted, Bool.and_eq_true] at hlast
  exact absurd (Record.taken_present hlast.1)
    (Nat.not_le.mpr (Nat.lt_add_of_pos_right (by decide)))

/-- A header that announces one chunk more than there is, and one block less, is not accepted,
whatever stands behind the chunks. -/
theorem overlap_not_imported (hok : ∀ c ∈ cs, c.Formed bs) (hcount : cs.length + 1 < 2 ^ 32)
    (hblocks : chunkBlocks cs = n + 1) (hn : n + 1 < 2 ^ 31) {post : List UInt8} {fd : ℕ}
    {crc : Bool} {s : SparseFile} :
    sparseFileImport fd ((writtenHeader bs n (cs.length + 1)).encode ++ (encodeChunks cs ++ post))
      crc ≠ .ok (some s) := by
  intro h
  obtain ⟨-, himp, hfin, -⟩ := sparseFileImport_some h
  obtain ⟨hacc, -, htotal⟩ := accepted_records himp hfin
  obtain ⟨hhdr, hrec⟩ := @fileRecords_short bs n cs hok hcount _ post rfl
  generalize recordAt _ _ = r at hrec
  have hblks : (writtenHeader bs n (cs.length + 1)).total_blks.toNat = n := by
    change (UInt32.ofNat n).toNat = n
    rw [UInt32.toNat_ofNat', Nat.mod_eq_of_lt (by omega)]
  -- What stands behind the chunks has too few blocks for the sum to come round.
  have hlast := hacc r (by rw [hrec]; exact List.mem_append_right _ List.mem_cons_self)
  simp only [Record.accepted, Bool.and_eq_true, decide_eq_true_eq] at hlast
  have hlt := hlast.2
  have hsum : totalBlocks (layout SPARSE_HEADER_LEN cs ++ [r]) =
      n + 1 + r.header.blocks.toNat := by
    rw [← hblocks, ← totalBlocks_layout SPARSE_HEADER_LEN cs]
    simp [totalBlocks]
  rw [hrec, hhdr, hblks, hsum] at htotal
  omega

end

/-! ## The written image -/

section

variable (w : Files) (bs : UInt32)

/-- The bytes of a block in the expanded image. A fill goes on to the end of its last block. -/
def Files.expanded (bb : BackedBlock) : List UInt8 :=
  match bb.source with
  | .fill v => cycle (padded bs.toNat bb.len.toNat / 4) (le32 v)
  | _ => w.wholeBytes bs bb

/-- The bytes of a list behind block `last` in the expanded image, with zeros in the gaps. -/
def Files.expandedAll : List BackedBlock → ℕ → List UInt8
  | [], _ => []
  | bb :: l, last => List.replicate ((bb.block.toNat - last) * bs.toNat) 0 ++
      (w.expanded bs bb ++ Files.expandedAll l (bb.stopBlock bs))

/-- The expanded image of `n` blocks. -/
def Files.expansion (n : ℕ) (l : List BackedBlock) : List UInt8 :=
  w.expandedAll bs l 0 ++ List.replicate ((n - stopOf bs l 0) * bs.toNat) 0

end

section

variable {w : Files} {bs : UInt32} {n last : ℕ} {l : List BackedBlock} {bb : BackedBlock}

/-- The bytes of a block in whole blocks are its length, rounded up. -/
theorem Files.length_wholeBytes (hbs : bs ≠ 0) (bb : BackedBlock) :
    (w.wholeBytes bs bb).length = padded bs.toNat bb.len.toNat := by
  rw [wholeBytes, length_padTo, length_read,
    Nat.max_eq_left (le_padded (toNat_pos_of_ne_zero hbs))]

/-- The blocks of the chunk of a block are those that it covers, and make its rounded length. -/
theorem Room.blocks_eq (hr : Room bs n) (hin : bb.stopBlock bs ≤ n) :
    bb.block.toNat + (divRoundUp bb.len bs).toNat = bb.stopBlock bs ∧
      (divRoundUp bb.len bs).toNat * bs.toNat = padded bs.toNat bb.len.toNat := by
  rw [divRoundUp_toNat hr.ne_zero (hr.fits hin), Nat.mul_comm]
  exact ⟨rfl, rfl⟩

/-- The chunk of a block is of the format, has the blocks that the block covers, and its content. -/
theorem Files.chunk_ok (hr : Room bs n) (hw : w.Serves bb) (hin : bb.stopBlock bs ≤ n) :
    (w.chunk bs bb).Ok bs ∧ (w.chunk bs bb).header.blocks = divRoundUp bb.len bs ∧
      (w.chunk bs bb).content bs = w.expanded bs bb := by
  obtain ⟨-, hmul⟩ := hr.blocks_eq hin
  have hlen := Files.length_wholeBytes (w := w) hr.ne_zero bb
  -- A block that is not empty covers at least one block of the image.
  have hpos : divRoundUp bb.len bs ≠ 0 := by
    intro h0
    have h1 := bs_le_padded hr.pos (Nat.ne_of_gt (Call.len_pos (c := ⟨bb.source, _, 0⟩) hw.nonempty))
    rw [← hmul, h0, UInt32.toNat_zero, Nat.zero_mul] at h1
    exact absurd hr.pos (by omega)
  have htotal : (12 + align bb.len bs).toNat = CHUNK_HEADER_LEN + (w.wholeBytes bs bb).length := by
    have h1 := padded_le_of_inside hin
    have h2 := hr.headers
    rw [UInt32.toNat_add, align_toNat hr.ne_zero (hr.fits hin), hlen]
    exact Nat.mod_eq_of_lt (show 12 + padded bs.toNat bb.len.toNat < 2 ^ 32 by omega)
  -- A fill's payload is its word; the others carry their bytes.
  unfold Files.chunk Files.expanded
  cases hsrc : bb.source with
  | fill v =>
    refine ⟨⟨fun h => (nomatch h), rfl, rfl, hpos⟩, rfl, ?_⟩
    change cycle ((divRoundUp bb.len bs).toNat * bs.toNat / 4) (le32 v) = _
    rw [hmul]
  | data p => exact ⟨⟨fun h => (nomatch h), hmul.trans hlen.symm, htotal, hpos⟩, rfl, rfl⟩
  | file f o => exact ⟨⟨fun h => (nomatch h), hmul.trans hlen.symm, htotal, hpos⟩, rfl, rfl⟩
  | fd g o => exact ⟨⟨fun h => (nomatch h), hmul.trans hlen.symm, htotal, hpos⟩, rfl, rfl⟩

/-- The content of a gap is zeros. -/
theorem gapChunk_content {next : ℕ} (hn : next < 2 ^ 32) :
    (gapChunk last next).flatMap (Chunk.content bs) =
      List.replicate ((next - last) * bs.toNat) 0 := by
  unfold gapChunk
  by_cases hlt : last < next
  · rw [if_pos hlt, List.flatMap_singleton]
    change List.replicate ((UInt32.ofNat (next - last)).toNat * bs.toNat) 0 = _
    rw [UInt32.toNat_ofNat', Nat.mod_eq_of_lt (by omega)]
  · rw [if_neg hlt, Nat.sub_eq_zero_of_le (by omega), Nat.zero_mul]
    rfl

/-- **The chunks of a list** are of the format, reach up to the block behind the list, and have the
bytes of the blocks and of the gaps. -/
theorem Files.chunks_ok (hr : Room bs n) (h : Placed w bs n l last) :
    (∀ c ∈ w.chunks bs l last, c.Ok bs) ∧
      last + chunkBlocks (w.chunks bs l last) = stopOf bs l last ∧
      (w.chunks bs l last).flatMap (Chunk.content bs) = w.expandedAll bs l last := by
  induction l generalizing last with
  | nil => exact ⟨fun _ hc => (nomatch hc), rfl, rfl⟩
  | cons bb l ih =>
    have hin := h.inside bb List.mem_cons_self
    obtain ⟨h1, h2⟩ := gapChunk_ok bs bb.block.toNat_lt (h.lower bb List.mem_cons_self)
    obtain ⟨h3, h4, h5⟩ := Files.chunk_ok hr (h.blocks bb List.mem_cons_self) hin
    obtain ⟨ih1, ih2, ih3⟩ := ih h.tail
    have hstop := (hr.blocks_eq hin).1
    refine ⟨fun c hc => ?_, ?_, ?_⟩
    · rcases List.mem_append.mp hc with hc | hc
      · exact h1 c hc
      · rcases List.mem_cons.mp hc with rfl | hc
        · exact h3
        · exact ih1 c hc
    · rw [chunks, chunkBlocks_append, chunkBlocks_cons, h4, stopOf, ← ih2]
      omega
    · rw [chunks, List.flatMap_append, List.flatMap_cons, h5, ih3,
        gapChunk_content bb.block.toNat_lt]
      rfl

/-- The chunks of an image, all but a checksum, are of the format, and have its blocks and its
bytes. -/
theorem Files.emission_ok (hr : Room bs n) (h : Placed w bs n l 0) :
    (∀ c ∈ w.emission bs n l, c.Ok bs) ∧ chunkBlocks (w.emission bs n l) = n ∧
      (w.emission bs n l).flatMap (Chunk.content bs) = w.expansion bs n l := by
  obtain ⟨h1, h2, h3⟩ := Files.chunks_ok hr h
  obtain ⟨h4, h5⟩ := gapChunk_ok bs hr.lt (stopOf_le h)
  refine ⟨fun c hc => ?_, ?_, ?_⟩
  · rcases List.mem_append.mp hc with hc | hc
    · exact h1 c hc
    · exact h4 c hc
  · rw [emission, chunkBlocks_append]
    omega
  · rw [emission, List.flatMap_append, h3, gapChunk_content hr.lt]
    rfl

/-- The checksum chunk is formed, and of its own kind. -/
theorem crcChunk_formed {crc : Bool} {sum : UInt32} : ∀ c ∈ crcChunk crc sum,
    c.Formed bs ∧ c.header.kind = .crc32 := by
  intro c hc
  unfold crcChunk at hc
  cases crc with
  | false => cases hc
  | true =>
    rw [if_pos rfl, List.mem_singleton] at hc
    subst hc
    exact ⟨⟨fun h => (nomatch h), rfl, rfl⟩, rfl⟩

/-- **The chunks of an image** are of the format, with the blocks of the image. -/
theorem Files.allChunks_ok (hr : Room bs n) (h : Placed w bs n l 0) (crc : Bool) :
    (∀ c ∈ w.allChunks bs n crc l, c.Ok bs ∨ c.Formed bs ∧ c.header.kind = .crc32) ∧
      chunkBlocks (w.allChunks bs n crc l) = n ∧ (w.allChunks bs n crc l).length < 2 ^ 32 ∧
      (w.allChunks bs n crc l).flatMap (Chunk.content bs) = w.expansion bs n l := by
  obtain ⟨h1, h2, h3⟩ := Files.emission_ok hr h
  have hcount := length_le_chunkBlocks fun c hc => (h1 c hc).blocks
  have hn := hr.add_two_lt
  refine ⟨fun c hc => ?_, ?_, ?_, ?_⟩
  · rcases List.mem_append.mp hc with hc | hc
    · exact Or.inl (h1 c hc)
    · exact Or.inr (crcChunk_formed c hc)
  · rw [allChunks, chunkBlocks_append, h2]
    cases crc <;> rfl
  · rw [allChunks, List.length_append]
    have : (crcChunk crc (sparseCrc32 0 (w.summedAll bs l))).length ≤ 1 := by
      cases crc <;> simp [crcChunk]
    omega
  · rw [allChunks, List.flatMap_append, h3]
    cases crc <;> exact List.append_nil _

/-- **A written image** is an image, with anything behind it, and is expanded to the bytes of its
blocks. -/
theorem Files.image_ok (hr : Room bs n) (h4 : bs.toNat % 4 = 0) (h : Placed w bs n l 0) (crc : Bool)
    (post : List UInt8) :
    Image (chunkFile bs n (w.allChunks bs n crc l) post) ∧
      fileHeader (chunkFile bs n (w.allChunks bs n crc l) post) =
        writtenHeader bs n (w.allChunks bs n crc l).length ∧
      expand (chunkFile bs n (w.allChunks bs n crc l) post) = w.expansion bs n l := by
  obtain ⟨h1, h2, h3, h5⟩ := Files.allChunks_ok hr h crc
  obtain ⟨hhdr, -, -, hexp⟩ := fileRecords_chunkFile (n := n)
    (fun c hc => (h1 c hc).elim Chunk.Ok.formed And.left) h3 post
  exact ⟨chunkFile_image hr h4 h1 h2 h3 post, hhdr, hexp.trans h5⟩

end

end AmlogicToolkit.Simg
