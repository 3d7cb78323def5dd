import AmlogicToolkit.Simg.Adds
import AmlogicToolkit.Simg.Programs

/-!
# Writing the expanded image

`sparse_file_write` in the normal format onto a file that already holds something: it puts the bytes
that the block list describes at their positions, leaves what the file holds elsewhere, and sets the
length of the file (`sparseFileWrite_normal`). Blocks of a whole number of blocks in length, whose
sources can be read, are assumed; the sum of a length and a block size has to fit into 32 bits,
since `DIV_ROUND_UP` adds them.
-/

namespace AmlogicToolkit.Simg

open Bytes Extents

/-! ## Bytes of labels -/

/-- The byte that a label stands for at a position, for a descriptor of `file`. -/
def Label.byte (file : List UInt8) (p : ℕ) : Label → UInt8
  | .data _ => 0
  | .file _ _ => 0
  | .fd _ o => file.getD o.toNat 0
  | .fill w => (le32 w).getD (p % 4) 0

/-- Whether a source of a length can be read: a descriptor of `file` inside it, or a fill word. -/
def Readable (file : List UInt8) (len : ℕ) : BlockSource → Prop
  | .data _ => False
  | .file _ _ => False
  | .fd _ o => 0 ≤ o ∧ o.toNat + len ≤ file.length
  | .fill _ => True

/-- The bytes of a source that lies in one file. -/
def BlockSource.bytes (file : List UInt8) (len : ℕ) : BlockSource → List UInt8
  | .data _ => []
  | .file _ _ => []
  | .fd _ o => slice file o.toNat len
  | .fill w => cycle (len / 4) (le32 w)

/-- A source that can be read gives the bytes asked for. -/
theorem BlockSource.length_bytes {file : List UInt8} {len : ℕ} {source : BlockSource}
    (h : Readable file len source) (h4 : len % 4 = 0) : (source.bytes file len).length = len := by
  cases source with
  | data _ => exact h.elim
  | file _ _ => exact h.elim
  | fd _ o => exact length_slice_of_le h.2
  | fill w =>
    simp only [bytes, length_cycle, length_le32]
    omega

/-- The bytes of a source are those of its labels. -/
theorem BlockSource.getD_bytes {file : List UInt8} {len : ℕ} {source : BlockSource}
    (h : Readable file len source) (h4 : len % 4 = 0) {start k : ℕ} (hk : k < len)
    (hs : start % 4 = 0) :
    (source.bytes file len).getD k 0 = (source.label k).byte file (start + k) := by
  cases source with
  | data _ => exact h.elim
  | file _ _ => exact h.elim
  | fd _ o =>
    have ho : (o + (k : ℤ)).toNat = o.toNat + k := by
      have := h.1
      omega
    simp only [bytes, label, Label.byte, getD_slice, if_pos hk, ho]
  | fill w =>
    have hmod : (start + k) % 4 = k % 4 := by omega
    simp only [bytes, label, Label.byte, hmod]
    rw [getD_cycle _ _ _ (by rw [length_le32]; omega), length_le32]

/-! ## Writing one block -/

section

variable {out : OutputFile RawFile}

/-- The output file with `data` written at its position. -/
def OutputFile.put (out : OutputFile RawFile) (data : List UInt8) : OutputFile RawFile :=
  { out with dev := ⟨overwrite 0 out.dev.bytes out.dev.pos data, out.dev.pos + data.length⟩ }

/-- Two writes in a row are one write of both buffers. -/
@[simp]
theorem OutputFile.put_put (out : OutputFile RawFile) (a b : List UInt8) :
    (out.put a).put b = out.put (a ++ b) := by
  simp only [put, overwrite_append, List.length_append, Nat.add_assoc]

/-- A write keeps the block size. -/
@[simp]
theorem OutputFile.put_block_size (out : OutputFile RawFile) (a : List UInt8) :
    (out.put a).block_size = out.block_size := rfl

/-- Writing nothing leaves the output file. -/
@[simp]
theorem OutputFile.put_nil (out : OutputFile RawFile) : out.put [] = out := rfl

/-- A write of no more bytes than there are. -/
theorem write_eq (out : OutputFile RawFile) {data : List UInt8} {len : ℕ} (h : len ≤ data.length) :
    out.write file_ops data len = (0, out.put (data.take len)) := by
  simp only [OutputFile.write, file_ops, fileWrite, OutputFile.put, if_neg (Nat.not_lt.mpr h)]

/-- `write_normal_data_chunk` of a whole number of blocks. -/
theorem writeNormalDataChunk_eq {len : UInt32} {data : List UInt8} (h : len.toNat ≤ data.length)
    (ha : align len out.block_size = len) :
    writeNormalDataChunk file_ops out len data = (0, out.put (data.take len.toNat)) := by
  simp only [writeNormalDataChunk, write_eq out h, ha]
  rw [if_neg (by decide), if_neg (by exact UInt32.lt_irrefl len)]

/-- The buffer of a block size that is a multiple of four is full of the fill word. -/
theorem fillBuf_eq {bs : UInt32} (h4 : bs.toNat % 4 = 0) (w : UInt32) :
    fillBuf bs w = cycle (bs.toNat / 4) (le32 w) := by
  simp only [fillBuf, h4, List.replicate_zero, List.append_nil]
  rfl

/-- The fill loop on a whole number of blocks writes them all, with enough fuel. -/
theorem writeFillLoop_eq {w : UInt32} {bs : UInt32} (hbs : bs ≠ 0) (h4 : bs.toNat % 4 = 0)
    {k fuel : ℕ} {len : UInt32} (hout : out.block_size = bs) (hk : len.toNat = k * bs.toNat)
    (hfuel : len.toNat ≤ fuel) :
    writeFillLoop file_ops (fillBuf bs w) fuel out len =
      (0, out.put (cycle (k * (bs.toNat / 4)) (le32 w))) := by
  have hpos : 0 < bs.toNat := toNat_pos_of_ne_zero hbs
  induction k generalizing len fuel out with
  | zero =>
    have h0 : len = 0 := UInt32.toNat_inj.mp (by rw [hk]; simp)
    subst h0
    cases fuel <;> simp [writeFillLoop]
  | succ k ih =>
    rw [Nat.succ_mul] at hk
    have hne : len ≠ 0 := ne_zero_of_toNat_pos (by omega)
    cases fuel with
    | zero => omega
    | succ fuel =>
      have hle : bs ≤ len := by rw [UInt32.le_iff_toNat_le]; omega
      -- A pass writes one whole block, for at least one is left.
      have hmin : min len out.block_size = bs := by
        rw [hout]
        exact uint32_min_eq_right hle
      have hbuf : (fillBuf bs w).take bs.toNat = cycle (bs.toNat / 4) (le32 w) := by
        rw [fillBuf_eq h4, List.take_of_length_le]
        rw [length_cycle, length_le32]; omega
      have hlen : bs.toNat ≤ (fillBuf bs w).length := by
        rw [fillBuf_eq h4, length_cycle, length_le32]; omega
      have hsub : (len - bs).toNat = k * bs.toNat := by
        rw [UInt32.toNat_sub_of_le _ _ hle]; omega
      rw [writeFillLoop, if_pos hne, hmin]
      simp only [write_eq out hlen, hbuf]
      rw [if_neg (by decide), @ih (out.put _) _ _ hout hsub (by omega), OutputFile.put_put,
        ← cycle_add, Nat.succ_mul, Nat.add_comm]

/-- The mapping of a part of a file, behind the start of its page. -/
theorem mapFile_drop {file : List UInt8} {o : ℤ} {len : ℕ} (hlen : len ≠ 0) (h0 : 0 ≤ o)
    (h : o.toNat + len ≤ file.length) :
    ∃ data, mapFile file (o - o % 4096) (len + (o % 4096).toNat) = .ok data ∧
      data.drop (o % 4096).toNat = slice file o.toNat len := by
  have hmod := Int.emod_nonneg o (by decide : (4096 : ℤ) ≠ 0)
  have hle : o % 4096 ≤ o := by omega
  refine ⟨_, if_neg (by omega), ?_⟩
  rw [Nat.add_comm len, drop_slice]
  have hoff : (o - o % 4096).toNat + (o % 4096).toNat = o.toNat := by omega
  rw [hoff, padTo, slice_append_right h]

/-- `write_fd_chunk` of a part of the file that is a whole number of blocks. -/
theorem writeFdChunk_eq {file : List UInt8} {len : UInt32} {fd : ℕ} {o : ℤ}
    (hsparse : out.sparse = false) (hlen : len ≠ 0) (h0 : 0 ≤ o)
    (h : o.toNat + len.toNat ≤ file.length) (ha : align len out.block_size = len) :
    writeFdChunk file_ops (Env.ofFile file) out len fd o =
      (0, out.put (slice file o.toNat len.toNat)) := by
  obtain ⟨data, hmap, hdrop⟩ := @mapFile_drop _ _ len.toNat
    (fun h0 => hlen (UInt32.toNat_inj.mp h0)) h0 h
  have hl : (slice file o.toNat len.toNat).length = len.toNat := length_slice_of_le h
  unfold writeFdChunk
  simp only [Env.ofFile, hmap, hdrop, writeDataChunk, hsparse, Bool.false_eq_true, if_false]
  rw [writeNormalDataChunk_eq (Nat.le_of_eq hl.symm) ha, List.take_of_length_le (Nat.le_of_eq hl)]

/-- A block that the normal writer can write: it is not empty, a whole number of blocks long, and
readable. -/
structure Writable (file : List UInt8) (bs : UInt32) (bb : BackedBlock) : Prop where
  /-- It is not empty. -/
  nonempty : bb.len ≠ 0
  /-- It is a whole number of blocks long. -/
  whole : bb.len.toNat / bs.toNat * bs.toNat = bb.len.toNat
  /-- Its source can be read. -/
  readable : Readable file bb.len.toNat bb.source
  /-- Rounding up does not wrap. -/
  fits : bb.len.toNat + bs.toNat ≤ 2 ^ 32

/-- **One block** is written as the bytes of its source. -/
theorem sparseFileWriteBlock_eq {file : List UInt8} {bs : UInt32} {bb : BackedBlock}
    (hsparse : out.sparse = false) (hout : out.block_size = bs) (hbs : bs ≠ 0)
    (h4 : bs.toNat % 4 = 0) (hw : Writable file bs bb) :
    sparseFileWriteBlock file_ops (Env.ofFile file) out bb =
      (0, out.put (bb.source.bytes file bb.len.toNat)) := by
  have ha := (align_eq hw.whole.symm hbs hw.fits).2
  have hr := hw.readable
  unfold sparseFileWriteBlock
  cases hsrc : bb.source with
  | data _ => rw [hsrc] at hr; exact hr.elim
  | file _ _ => rw [hsrc] at hr; exact hr.elim
  | fd fd o =>
    rw [hsrc] at hr
    exact writeFdChunk_eq hsparse hw.nonempty hr.1 hr.2 (by rw [hout]; exact ha)
  | fill w =>
    have hk : bb.len.toNat / bs.toNat * (bs.toNat / 4) = bb.len.toNat / 4 := by
      have h1 : bb.len.toNat / bs.toNat * (bs.toNat / 4) * 4 = bb.len.toNat := by
        rw [Nat.mul_assoc, Nat.div_mul_cancel (Nat.dvd_of_mod_eq_zero h4), hw.whole]
      omega
    simp only [writeFillChunk, hsparse, Bool.false_eq_true, if_false, writeNormalFillChunk, hout,
      BlockSource.bytes]
    rw [writeFillLoop_eq hbs h4 hout hw.whole.symm (Nat.le_refl _), hk]

end

/-! ## Writing a list -/

/-- What the file holds after the blocks of a list are written over it: the bytes of their labels,
and what it held elsewhere. -/
structure Shows (file : List UInt8) (bs : UInt32) (l : List BackedBlock) (old new : List UInt8) :
    Prop where
  /-- A position that is described holds the byte of its label. -/
  described : ∀ p x, Describes bs l p x → new.getD p 0 = x.byte file p
  /-- Any other position holds what it did. -/
  other : ∀ p, (∀ x, ¬ Describes bs l p x) → new.getD p 0 = old.getD p 0

/-- In the normal format a skip returns 0 and moves the position by its length. -/
theorem writeSkipChunk_eq (out : OutputFile RawFile) (hsparse : out.sparse = false) (n : ℕ) :
    writeSkipChunk file_ops out n = (0, { out with dev := ⟨out.dev.bytes, out.dev.pos + n⟩ }) := by
  simp only [writeSkipChunk, hsparse, Bool.false_eq_true, if_false, writeNormalSkipChunk,
    OutputFile.skip, file_ops, fileSkip]
  rw [if_neg (by omega)]
  congr 3

/-- Writing a block over a file shows the block. -/
theorem shows_put {file : List UInt8} {bs : UInt32} {bb : BackedBlock} (h4 : bs.toNat % 4 = 0)
    (hw : Writable file bs bb) (old : List UInt8) :
    Shows file bs [bb] old
      (overwrite 0 old (bb.extent bs).start (bb.source.bytes file bb.len.toNat)) := by
  have hlen4 : bb.len.toNat % 4 = 0 := by
    rw [← hw.whole, Nat.mul_mod, h4, Nat.mul_zero, Nat.zero_mod]
  have hstart4 : (bb.extent bs).start % 4 = 0 := by
    rw [BackedBlock.extent_start, Nat.mul_mod, h4, Nat.mul_zero, Nat.zero_mod]
  have hl := BlockSource.length_bytes hw.readable hlen4
  constructor
  · rintro p x ⟨e, he, h1, h2, rfl⟩
    obtain rfl : e = bb.extent bs := by simpa [extents] using he
    simp only [Extent.stop, BackedBlock.extent_len] at h2
    rw [getD_overwrite, hl, if_pos ⟨h1, h2⟩,
      BlockSource.getD_bytes hw.readable hlen4 (by omega) hstart4]
    congr 1
    omega
  · intro p hp
    rw [getD_overwrite, hl, if_neg]
    intro h
    exact hp _ ⟨_, List.mem_cons_self, h.1, h.2, rfl⟩

/-- Writing one list and then one that it does not overlap shows both. -/
theorem Shows.append {file : List UInt8} {bs : UInt32} {l m : List BackedBlock}
    {old mid new : List UInt8} (h : Shows file bs l old mid) (h' : Shows file bs m mid new)
    (hd : (extents bs (l ++ m)).Pairwise Apart) : Shows file bs (l ++ m) old new := by
  have happ : ∀ p x, Describes bs (l ++ m) p x ↔ Describes bs l p x ∨ Describes bs m p x := by
    intro p x
    simp [Describes, extents]
  constructor
  · intro p x hx
    rcases (happ p x).mp hx with hl | hm
    · by_cases hm : ∃ y, Describes bs m p y
      · obtain ⟨y, hy⟩ := hm
        have : x = y := described_unique _ hd hx ((happ p y).mpr (Or.inr hy))
        rw [this]
        exact h'.described p y hy
      · rw [h'.other p fun y hy => hm ⟨y, hy⟩]
        exact h.described p x hl
    · exact h'.described p x hm
  · intro p hp
    rw [h'.other p fun y hy => hp y ((happ p y).mpr (Or.inr hy)),
      h.other p fun y hy => hp y ((happ p y).mpr (Or.inl hy))]

/-- The blocks that the loop over a list has left, behind block `last` of an image of `n` blocks:
they can be written, lie apart, and end inside the image. -/
structure Fits (file : List UInt8) (bs : UInt32) (n : ℕ) (l : List BackedBlock) (last : ℕ) :
    Prop where
  /-- The blocks can be written. -/
  blocks : ∀ bb ∈ l, Writable file bs bb
  /-- No block ends after a later one starts. -/
  disjoint : Disjoint bs l
  /-- All blocks end inside the image. -/
  inside : ∀ bb ∈ l, (bb.extent bs).stop ≤ n * bs.toNat
  /-- All blocks are at `last` or behind it. -/
  lower : ∀ bb ∈ l, last ≤ bb.block.toNat
  /-- `last` is inside the image. -/
  last_le : last ≤ n

/-- The block behind a node of whole blocks. -/
def BackedBlock.next (bs : UInt32) (bb : BackedBlock) : ℕ :=
  bb.block.toNat + bb.len.toNat / bs.toNat

section

variable {file : List UInt8} {bs : UInt32} {n last : ℕ} {bb : BackedBlock} {l : List BackedBlock}

/-- The block behind a writable node starts where the node ends. -/
theorem Writable.next_mul (hw : Writable file bs bb) :
    bb.next bs * bs.toNat = (bb.extent bs).stop := by
  rw [BackedBlock.next, Nat.add_mul, hw.whole, BackedBlock.extent_stop]

/-- What is left behind a block. -/
theorem Fits.tail (hbs : bs ≠ 0) (h : Fits file bs n (bb :: l) last) :
    Fits file bs n l (bb.next bs) := by
  have hbspos : 0 < bs.toNat := toNat_pos_of_ne_zero hbs
  obtain ⟨hbd, hd'⟩ := List.pairwise_cons.mp h.disjoint
  have hwb := h.blocks bb List.mem_cons_self
  refine ⟨fun b hb => h.blocks b (List.mem_cons_of_mem _ hb), hd',
    fun b hb => h.inside b (List.mem_cons_of_mem _ hb), fun b hb => ?_, ?_⟩
  · have hbb := hbd b hb
    rw [Before, ← hwb.next_mul] at hbb
    exact Nat.le_of_mul_le_mul_right hbb hbspos
  · have hstop := h.inside bb List.mem_cons_self
    rw [← hwb.next_mul] at hstop
    exact Nat.le_of_mul_le_mul_right hstop hbspos

/-- The `last_block` that the writer keeps behind a block that fits does not wrap. -/
theorem Fits.next_eq (hbs : bs ≠ 0) (hn : n < 2 ^ 32) (h : Fits file bs n (bb :: l) last) :
    (bb.block + divRoundUp bb.len bs).toNat = bb.next bs := by
  have hwb := h.blocks bb List.mem_cons_self
  have hle := (h.tail hbs).last_le
  rw [BackedBlock.next] at hle ⊢
  rw [UInt32.toNat_add, (align_eq hwb.whole.symm hbs hwb.fits).1, Nat.mod_eq_of_lt (by omega)]

/-- The gap in front of a block that fits does not wrap. -/
theorem Fits.gap {last_block : UInt32} (h : Fits file bs n (bb :: l) last_block.toNat) :
    (bb.block - last_block).toNat = bb.block.toNat - last_block.toNat :=
  UInt32.toNat_sub_of_le _ _ (UInt32.le_iff_toNat_le.mpr (h.lower bb List.mem_cons_self))

end

/-- **The loop over the blocks.** From a file position at `last_block`, it returns 0, and the file
shows the blocks. -/
theorem writeBlocks_normal {file : List UInt8} {bs : UInt32} (hbs : bs ≠ 0)
    (h4 : bs.toNat % 4 = 0) {l : List BackedBlock} {n : ℕ} (hn : n < 2 ^ 32) {last_block : UInt32}
    (h : Fits file bs n l last_block.toNat) {out : OutputFile RawFile}
    (hsparse : out.sparse = false) (hout : out.block_size = bs)
    (hpos : out.dev.pos = last_block.toNat * bs.toNat) :
    ∃ last_block' dev', writeBlocks file_ops (Env.ofFile file) bs l last_block out =
        (0, last_block', { out with dev := dev' }) ∧ last_block'.toNat ≤ n ∧
      dev'.pos = last_block'.toNat * bs.toNat ∧ Shows file bs l out.dev.bytes dev'.bytes := by
  induction l generalizing last_block out with
  | nil =>
    exact ⟨last_block, out.dev, rfl, h.last_le, hpos,
      ⟨fun p x ⟨_, h, _⟩ => (nomatch h), fun _ _ => rfl⟩⟩
  | cons bb l ih =>
    have hwb := h.blocks bb List.mem_cons_self
    have hle := h.lower bb List.mem_cons_self
    have hnext := h.next_eq hbs hn
    -- The file position after the gap is the start of the block.
    have hgap : (if bb.block > last_block then
        (writeSkipChunk file_ops out ((bb.block - last_block).toNat * bs.toNat)).2 else out) =
          { out with dev := ⟨out.dev.bytes, (bb.extent bs).start⟩ } := by
      split_ifs with hgt
      · have hcast : ((bb.block - last_block).toNat : ℤ) * (bs.toNat : ℤ) =
            (((bb.block - last_block).toNat * bs.toNat : ℕ) : ℤ) := by push_cast; rfl
        have hsum : last_block.toNat * bs.toNat + (bb.block.toNat - last_block.toNat) * bs.toNat =
            bb.block.toNat * bs.toNat := by
          rw [← Nat.add_mul, Nat.add_sub_cancel' hle]
        rw [hcast, writeSkipChunk_eq out hsparse, hpos, h.gap, hsum, BackedBlock.extent_start]
      · have heq : last_block = bb.block :=
          UInt32.le_antisymm (UInt32.le_iff_toNat_le.mpr hle) (UInt32.not_lt.mp hgt)
        rw [BackedBlock.extent_start, ← heq, ← hpos]
    rw [writeBlocks, hgap]
    simp only
    rw [sparseFileWriteBlock_eq (by exact hsparse) (by exact hout) hbs h4 hwb]
    simp only
    rw [if_neg (by decide)]
    have hlen4 : bb.len.toNat % 4 = 0 := by
      rw [← hwb.whole, Nat.mul_mod, h4, Nat.mul_zero, Nat.zero_mod]
    have hpos' : (bb.extent bs).start + (bb.source.bytes file bb.len.toNat).length =
        (bb.block + divRoundUp bb.len bs).toNat * bs.toNat := by
      rw [hnext, hwb.next_mul, BlockSource.length_bytes hwb.readable hlen4,
        BackedBlock.extent_stop, BackedBlock.extent_start]
    have htail : Fits file bs n l (bb.block + divRoundUp bb.len bs).toNat := by
      rw [hnext]; exact h.tail hbs
    let start : OutputFile RawFile :=
      { out with dev := ⟨out.dev.bytes, (bb.extent bs).start⟩ }
    obtain ⟨last_block', dev', heq, h1, h2, h3⟩ :=
      @ih _ htail (start.put (bb.source.bytes file bb.len.toNat)) hsparse hout hpos'
    exact ⟨last_block', dev', heq, h1, h2,
      (shows_put h4 hwb out.dev.bytes).append (l := [bb]) h3 h.disjoint.apart⟩

/-- A sparse file that can be written: an image of `n` blocks, and blocks inside it that lie apart
and that the normal writer can write. -/
structure SparseFile.Writable (file : List UInt8) (s : SparseFile) (n : ℕ) : Prop where
  /-- The block size is not zero. -/
  block_size_pos : s.block_size ≠ 0
  /-- It is a whole number of words. -/
  block_size_mod : s.block_size.toNat % 4 = 0
  /-- A block fits into an `int`. -/
  block_size_lt : s.block_size.toNat < 2 ^ 31
  /-- The length of the image. -/
  len : s.len = (n * s.block_size.toNat : ℕ)
  /-- Blocks are counted in 32 bits. -/
  blocks_lt : n < 2 ^ 32
  /-- The blocks can be written. -/
  blocks : ∀ bb ∈ s.blocks, Simg.Writable file s.block_size bb
  /-- No block ends after a later one starts. -/
  disjoint : Disjoint s.block_size s.blocks
  /-- All blocks end inside the image. -/
  inside : ∀ bb ∈ s.blocks, (bb.extent s.block_size).stop ≤ n * s.block_size.toNat

/-- The blocks of a file that can be written fit into its image. -/
theorem SparseFile.Writable.fits {file : List UInt8} {s : SparseFile} {n : ℕ}
    (h : s.Writable file n) : Fits file s.block_size n s.blocks 0 :=
  ⟨h.blocks, h.disjoint, h.inside, fun _ _ => Nat.zero_le _, Nat.zero_le _⟩

/-- **Writing a sparse file** in the normal format over a file succeeds. The file gets the length of
the image, shows its blocks, and keeps what it held elsewhere. -/
theorem sparseFileWrite_normal {file : List UInt8} {s : SparseFile} {n : ℕ}
    (h : s.Writable file n) (old : List UInt8) :
    ∃ mid new, sparseFileWrite file_ops (Env.ofFile file) s ⟨old, 0⟩ false false = .ok (0, new) ∧
      Shows file s.block_size s.blocks old mid ∧
        new.bytes = resize 0 (n * s.block_size.toNat) mid := by
  obtain ⟨chunks, hchunks⟩ := sparseCountChunks_ok h.block_size_pos
  have hinit := outputFileInit_normal file_ops ⟨old, 0⟩ h.block_size_lt s.len chunks false
  obtain ⟨last_block, dev, hwrite, hln, hpos, hshows⟩ := @writeBlocks_normal _ _
    h.block_size_pos h.block_size_mod _ _ h.blocks_lt 0 h.fits
    ⟨0, 0, 0, false, false, s.block_size, s.len, ⟨old, 0⟩⟩ rfl rfl (by simp)
  -- No block ends behind the image, so the length up to its end is not negative.
  have hpad : s.len - last_block.toNat * s.block_size.toNat =
      ((n * s.block_size.toNat - last_block.toNat * s.block_size.toNat : ℕ) : ℤ) := by
    rw [h.len, Nat.cast_sub (Nat.mul_le_mul_right _ hln)]
    push_cast
    -- The writer of all blocks moves on to the end, and writes nothing there.
    rfl
  have hall : ∃ pos, writeAllBlocks file_ops (Env.ofFile file) s
      ⟨0, 0, 0, false, false, s.block_size, s.len, ⟨old, 0⟩⟩ =
        .ok (0, ⟨0, 0, 0, false, false, s.block_size, s.len, ⟨dev.bytes, pos⟩⟩) := by
    unfold writeAllBlocks
    have hwrite' := hwrite
    unfold SparseFile.blocks at hwrite'
    simp only [hwrite', ne_eq, not_true_eq_false, if_false, hpad]
    rw [if_neg (by omega)]
    split_ifs
    · rw [writeSkipChunk_eq _ rfl]
      exact ⟨_, rfl⟩
    · exact ⟨dev.pos, rfl⟩
  -- Closing the file gives it the length of the image.
  obtain ⟨pos, hall⟩ := hall
  have hlen : s.len.toNat = n * s.block_size.toNat := by rw [h.len]; rfl
  refine ⟨dev.bytes, ⟨resize 0 (n * s.block_size.toNat) dev.bytes, pos⟩, ?_, hshows, rfl⟩
  rw [sparseFileWrite_eq hchunks hinit hall]
  simp only [outputFileClose, Bool.false_eq_true, if_false, writeNormalEndChunk, OutputFile.pad,
    file_ops, filePad]
  rw [if_neg (by rw [h.len]; omega), hlen]

/-- A file whose blocks do not fit into an `int` is not written. -/
theorem sparseFileWrite_large {env : Env} {s : SparseFile} {sparse crc : Bool} {dev new : RawFile}
    (h : 2 ^ 31 ≤ s.block_size.toNat) :
    sparseFileWrite file_ops env s dev sparse crc ≠ .ok (0, new) := by
  intro heq
  obtain ⟨-, hlt, -⟩ := sparseFileWrite_done heq
  exact absurd hlt (not_lt.mpr h)

end AmlogicToolkit.Simg
