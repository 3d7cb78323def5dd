import AmlogicToolkit.Simg.Sizes
import AmlogicToolkit.Simg.WholeBlocks

/-!
# What blocks are read from

The files and the memory that blocks of all four types are read from (`Files`), when every file can
be opened and mapped, and the bytes of a block of any length, which need not be a whole number of
blocks (`Files.read`). Calls that lie apart inside an image below `2^32` bytes leave a list of blocks
that can be read and that stand one after the other, each rounded up to whole blocks
(`addAll_placed`).
-/

namespace AmlogicToolkit.Simg

open Bytes Extents

/-- Memory, the descriptors that names are opened as, and what the descriptors hold. -/
structure Files where
  /-- The byte at an address. -/
  mem : ℕ → UInt8
  /-- The descriptor of a name. -/
  lookup : String → ℕ
  /-- The content of a descriptor. -/
  content : ℕ → List UInt8

/-- The environment in which every file can be opened and mapped. -/
def Files.env (w : Files) : Env where
  mem := w.mem
  openFile filename := .ok (w.lookup filename)
  mmap fd offset size := mapFile (w.content fd) offset size

/-- The byte that a label stands for. A fill word has its byte at each position modulo four. -/
def Files.byte (w : Files) (p : ℕ) : Label → UInt8
  | .data a => w.mem a
  | .file filename o => (w.content (w.lookup filename)).getD o.toNat 0
  | .fd fd o => (w.content fd).getD o.toNat 0
  | .fill v => (le32 v).getD (p % 4) 0

/-- The bytes of a source from its start on. -/
def Files.read (w : Files) (source : BlockSource) (len : ℕ) : List UInt8 :=
  (List.range len).map fun k => w.byte k (source.label k)

/-- Whether a source has that many bytes: the region is inside the file. -/
def Files.Readable (w : Files) (len : ℕ) : BlockSource → Prop
  | .data _ => True
  | .file filename o => 0 ≤ o ∧ o.toNat + len ≤ (w.content (w.lookup filename)).length
  | .fd fd o => 0 ≤ o ∧ o.toNat + len ≤ (w.content fd).length
  | .fill _ => True

instance (w : Files) (len : ℕ) (source : BlockSource) : Decidable (w.Readable len source) := by
  cases source <;> unfold Files.Readable <;> infer_instance

/-- A block that can be read: it is not empty, and its source has its bytes. -/
structure Files.Serves (w : Files) (bb : BackedBlock) : Prop where
  /-- It is not empty. -/
  nonempty : bb.len ≠ 0
  /-- The source has the bytes. -/
  readable : w.Readable bb.len.toNat bb.source

section

variable {w : Files}

/-- As many bytes are read as asked for. -/
@[simp]
theorem Files.length_read (source : BlockSource) (len : ℕ) : (w.read source len).length = len := by
  simp [read]

/-- Byte `k` of what is read is the one that its label stands for. -/
theorem Files.getD_read {source : BlockSource} {len k : ℕ} (h : k < len) :
    (w.read source len).getD k 0 = w.byte k (source.label k) := by
  simp [read, List.getD_eq_getElem?_getD, h]

/-- The front of what is read is what a shorter read gives. -/
theorem Files.take_read (source : BlockSource) (len k : ℕ) :
    (w.read source len).take k = w.read source (min k len) := by
  rw [read, ← List.map_take, List.take_range]
  rfl

/-- The bytes of a part of a file are those at its positions. -/
theorem slice_eq_map {file : List UInt8} {o : ℤ} {len : ℕ} (h0 : 0 ≤ o)
    (h : o.toNat + len ≤ file.length) :
    slice file o.toNat len = (List.range len).map fun k : ℕ => file.getD (o + k).toNat 0 := by
  refine ext_getD (z := 0) (by rw [length_slice_of_le h]; simp) fun k hk => ?_
  rw [length_slice_of_le h] at hk
  have ho : (o + k).toNat = o.toNat + k := by omega
  rw [getD_slice, if_pos hk]
  simp [List.getD_eq_getElem?_getD, hk, ho]

/-- A fill that is read over whole words is its word, repeated. -/
theorem Files.read_fill (v : UInt32) (n : ℕ) : w.read (.fill v) (n * 4) = cycle n (le32 v) := by
  refine ext_getD (z := 0) (by simp) fun k hk => ?_
  rw [length_read] at hk
  rw [getD_read hk, getD_cycle _ _ _ (by simpa using hk), length_le32]
  rfl

/-- A block that is mapped from a descriptor. -/
theorem writeFdChunk_read {σ : Type} (ops : OutputFileOps σ) (out : OutputFile σ) {len : UInt32}
    {fd : ℕ} {o : ℤ} (hlen : len ≠ 0) (h0 : 0 ≤ o)
    (h : o.toNat + len.toNat ≤ (w.content fd).length) :
    writeFdChunk ops w.env out len fd o =
      writeDataChunk ops out len (slice (w.content fd) o.toNat len.toNat) := by
  obtain ⟨data, hmap, hdrop⟩ := @mapFile_drop _ _ len.toNat
    (fun h0 => hlen (UInt32.toNat_inj.mp h0)) h0 h
  simp only [writeFdChunk, Files.env, hmap, hdrop]

/-- **One block** is written as a fill, or as the bytes of its source. -/
theorem sparseFileWriteBlock_read {σ : Type} (ops : OutputFileOps σ) (out : OutputFile σ)
    {bb : BackedBlock} (h : w.Serves bb) :
    sparseFileWriteBlock ops w.env out bb =
      match bb.source with
      | .fill v => writeFillChunk ops out bb.len v
      | source => writeDataChunk ops out bb.len (w.read source bb.len.toNat) := by
  have hr := h.readable
  unfold sparseFileWriteBlock
  cases hsrc : bb.source with
  | data p => rfl
  | file filename o =>
    rw [hsrc] at hr
    have hfd := @writeFdChunk_read w _ ops out _ (w.lookup filename) _ h.nonempty hr.1 hr.2
    rw [slice_eq_map hr.1 hr.2] at hfd
    exact hfd
  | fd fd o =>
    rw [hsrc] at hr
    have hfd := @writeFdChunk_read w _ ops out _ _ _ h.nonempty hr.1 hr.2
    rw [slice_eq_map hr.1 hr.2] at hfd
    exact hfd
  | fill v => rfl

end

/-! ## Blocks one after the other -/

/-- The block behind a node, of which the last block may be covered in part. -/
def BackedBlock.stopBlock (bs : UInt32) (bb : BackedBlock) : ℕ :=
  bb.block.toNat + (bb.len.toNat + bs.toNat - 1) / bs.toNat

/-- Blocks that can be read, behind block `last` of an image of `n` blocks, one after the other. -/
structure Placed (w : Files) (bs : UInt32) (n : ℕ) (l : List BackedBlock) (last : ℕ) : Prop where
  /-- The blocks can be read. -/
  blocks : ∀ bb ∈ l, w.Serves bb
  /-- No block reaches into the first block of a later one. -/
  before : l.Pairwise fun a b => a.stopBlock bs ≤ b.block.toNat
  /-- All blocks are at `last` or behind it. -/
  lower : ∀ bb ∈ l, last ≤ bb.block.toNat
  /-- All blocks end inside the image. -/
  inside : ∀ bb ∈ l, bb.stopBlock bs ≤ n
  /-- `last` is inside the image. -/
  last_le : last ≤ n

/-- What the 32-bit numbers of the writers leave room for: the image and one more block, and the
image and two chunk headers. -/
structure Room (bs : UInt32) (n : ℕ) : Prop where
  /-- The block size is not zero. -/
  pos : 0 < bs.toNat
  /-- It fits into an `int`. -/
  lt_int : bs.toNat < 2 ^ 31
  /-- The image with one more block fits into 32 bits. -/
  size : (n + 1) * bs.toNat ≤ 2 ^ 32
  /-- So does the image with two chunk headers. -/
  headers : n * bs.toNat + 24 ≤ 2 ^ 32

section

variable {w : Files} {bs : UInt32} {n last : ℕ} {bb : BackedBlock} {l : List BackedBlock}

/-- In blocks that hold two chunk headers, these fit where one more block does. -/
theorem Room.of_le (h24 : 24 ≤ bs.toNat) (hlt : bs.toNat < 2 ^ 31)
    (hsize : (n + 1) * bs.toNat ≤ 2 ^ 32) : Room bs n := by
  refine ⟨by omega, hlt, hsize, ?_⟩
  rw [Nat.add_mul, Nat.one_mul] at hsize
  omega

/-- The block size of an image with room is not zero. -/
theorem Room.ne_zero (h : Room bs n) : bs ≠ 0 := ne_zero_of_toNat_pos h.pos

/-- A chunk for each block can be counted, and two more. -/
theorem Room.add_two_lt (h : Room bs n) : n + 2 < 2 ^ 32 := by
  have h1 := h.headers
  have h2 := Nat.le_mul_of_pos_right n h.pos
  omega

/-- The blocks of an image with room are fewer than `2^32`. -/
theorem Room.lt (h : Room bs n) : n < 2 ^ 32 := (Nat.le_add_right n 2).trans_lt h.add_two_lt

/-- The rounded length of a block that ends inside the image. -/
theorem padded_le_of_inside (hin : bb.stopBlock bs ≤ n) :
    padded bs.toNat bb.len.toNat ≤ n * bs.toNat := by
  have hlen : (bb.len.toNat + bs.toNat - 1) / bs.toNat ≤ n := (Nat.le_add_left _ _).trans hin
  rw [padded, Nat.mul_comm]
  exact Nat.mul_le_mul_right _ hlen

/-- One more block behind it fits into 32 bits. -/
theorem Room.padded_le (h : Room bs n) (hin : bb.stopBlock bs ≤ n) :
    padded bs.toNat bb.len.toNat + bs.toNat ≤ 2 ^ 32 := by
  have h1 := h.size
  have h2 := padded_le_of_inside hin
  rw [Nat.add_mul, Nat.one_mul] at h1
  omega

/-- Rounding up the length of a block inside the image does not wrap. -/
theorem Room.fits (h : Room bs n) (hin : bb.stopBlock bs ≤ n) :
    bb.len.toNat + bs.toNat ≤ 2 ^ 32 := by
  have h1 := h.padded_le hin
  have h2 := le_padded (n := bb.len.toNat) h.pos
  omega

/-- What is left behind a block. -/
theorem Placed.tail (h : Placed w bs n (bb :: l) last) : Placed w bs n l (bb.stopBlock bs) := by
  obtain ⟨h1, h2⟩ := List.pairwise_cons.mp h.before
  exact ⟨fun b hb => h.blocks b (List.mem_cons_of_mem _ hb), h2, h1,
    fun b hb => h.inside b (List.mem_cons_of_mem _ hb), h.inside bb List.mem_cons_self⟩

/-- The `last_block` that the writer keeps behind a placed block does not wrap. -/
theorem Placed.stopBlock_eq (hr : Room bs n) (h : Placed w bs n (bb :: l) last) :
    (bb.block + divRoundUp bb.len bs).toNat = bb.stopBlock bs := by
  have hin := h.inside bb List.mem_cons_self
  have hn := hr.lt
  rw [UInt32.toNat_add, divRoundUp_toNat hr.ne_zero (hr.fits hin)]
  exact Nat.mod_eq_of_lt (show bb.stopBlock bs < 2 ^ 32 by omega)

/-- The gap in front of a placed block does not wrap. -/
theorem Placed.gap {last_block : UInt32} (h : Placed w bs n (bb :: l) last_block.toNat) :
    (bb.block - last_block).toNat = bb.block.toNat - last_block.toNat :=
  UInt32.toNat_sub_of_le _ _ (UInt32.le_iff_toNat_le.mpr (h.lower bb List.mem_cons_self))

/-- Bytes that end where a block starts, or before, end in the blocks in front of it. -/
theorem div_round_up_le {b len m bs : ℕ} (hbs : 0 < bs) (h : b * bs + len ≤ m * bs) :
    b + (len + bs - 1) / bs ≤ m := by
  have h1 := padded_lt (n := len) hbs
  unfold padded at h1
  refine Nat.lt_succ_iff.mp (Nat.lt_of_mul_lt_mul_right (a := bs) ?_)
  rw [Nat.mul_comm bs] at h1
  rw [Nat.succ_mul, Nat.add_mul]
  omega

end

/-! ## The blocks of a sequence of calls -/

section

variable {w : Files} {bs : UInt32} {calls : List Call}

/-- A node that spans calls that can be read can be read. -/
theorem Spans.readable_files {y : BackedBlock} {X : Call} {chain : List Call}
    (h : Spans bs calls y X chain) (hr : ∀ c ∈ calls, w.Readable c.len.toNat c.source) :
    w.Readable y.len.toNat y.source := by
  obtain ⟨L, hL, -, hlabels⟩ := chain_end h.joined h.mem
  have hlast := hr L hL
  have hfirst := hr X h.mem
  have hlab := hlabels 0
  -- A node takes its source from the first call of the chain and its length from all of them.
  rw [h.source, h.len]
  cases hX : X.source with
  | data p => trivial
  | fill v => trivial
  | file f o =>
    -- All calls of a chain read one file, each behind the one before, so the last one bounds them.
    rw [hX] at hfirst hlab
    cases hLs : L.source <;> rw [hLs] at hlab hlast <;>
      simp only [BlockSource.label, reduceCtorEq, Label.file.injEq] at hlab
    rw [← hlab.1] at hlast
    simp only [Files.Readable, requestedLen] at hfirst hlast hlab ⊢
    omega
  | fd g o =>
    rw [hX] at hfirst hlab
    cases hLs : L.source <;> rw [hLs] at hlab hlast <;>
      simp only [BlockSource.label, reduceCtorEq, Label.fd.injEq] at hlab
    rw [← hlab.1] at hlast
    simp only [Files.Readable, requestedLen] at hfirst hlast hlab ⊢
    omega

/-- Calls inside an image of a length, that can be read. -/
structure Inside (w : Files) (bs : UInt32) (len : ℕ) (calls : List Call) : Prop
    extends Allowed bs calls where
  /-- All regions are inside the image. -/
  inside : ∀ c ∈ calls, (c.extent bs).stop ≤ len
  /-- All sources have the bytes. -/
  readable : ∀ c ∈ calls, w.Readable c.len.toNat c.source

/-- **A sequence of calls** below `2^32` bytes never stops the program. The blocks that it leaves are
chains of joined calls, describe the calls and can be read, and stand one after the other inside the
image. -/
theorem addAll_placed (hbs : bs ≠ 0) {len n : ℕ} (hlen : len < 2 ^ 32) (hn : len ≤ n * bs.toNat)
    (h : Inside w bs len calls) :
    ∃ s, addAll (sparseFileNew bs len) calls = .ok s ∧ s.block_size = bs ∧ s.len = len ∧
      Placed w bs n s.blocks 0 ∧ AllSpan s calls ∧ Faithful s calls ∧
      ∀ bb ∈ s.blocks, (bb.extent bs).stop ≤ len := by
  have hpos := toNat_pos_of_ne_zero hbs
  -- No chain is as long as 4 GiB, for all calls end within the image.
  have hno : NoLongChain bs calls := noLongChain_of_stop fun c hc => by
    have := h.inside c hc
    omega
  obtain ⟨s, heq, hs, rfl, -, hspan⟩ := addAll_run hbs len h.toAllowed
  obtain ⟨hsp, htot⟩ := hspan hno
  have hstop : ∀ bb ∈ s.blocks, (bb.extent s.block_size).stop ≤ len := by
    -- A node ends where the last call of its chain does.
    intro y hy
    obtain ⟨X, chain, hc⟩ := hsp y hy
    obtain ⟨L, hL, hend, -⟩ := chain_end hc.joined hc.mem
    have hle := h.inside L hL
    rw [BackedBlock.extent_stop, hc.block, hc.len]
    rw [Call.extent_start] at hend
    omega
  refine ⟨s, heq, rfl, (addAll_fields heq).2,
    ⟨fun y hy => ?_, ?_, fun _ _ => Nat.zero_le _, fun y hy => ?_, Nat.zero_le _⟩, hsp,
    (hs.faithful_iff h.apart).mpr htot, hstop⟩
  · obtain ⟨X, chain, hc⟩ := hsp y hy
    have hX := Call.len_pos (h.nonempty X hc.mem)
    have hylen : y.len.toNat = X.len.toNat + requestedLen chain := hc.len
    exact ⟨ne_zero_of_toNat_pos (by omega), hc.readable_files h.readable⟩
  · exact hs.valid.disjoint.imp fun hab => div_round_up_le hpos hab
  · exact div_round_up_le hpos ((hstop y hy).trans hn)

end

end AmlogicToolkit.Simg
