import AmlogicToolkit.Lib.Faults
import AmlogicToolkit.Simg.Adds

/-!
# Failing output operations

`sparse_file_write` on a file of which any operations fail: the operations of a write in order, those
whose result the code looks at and those whose result it drops (`operations`), and exactly when every
failure of an operation that it has made is returned, and a write that returns 0 has made all of them
(`reports_iff`). A write that an assertion stops returns nothing.
-/

namespace AmlogicToolkit.Simg

open Bytes Faults

/-- `file_ops`, where the operations fail that a script names. -/
def faulty_ops (fault : ℕ → Option (RawFile → RawFile)) : OutputFileOps (RawFile × ℕ) :=
  ⟨fun d cnt => attempt fault d (fileSkip d.1 cnt), fun d len => attempt fault d (filePad d.1 len),
    fun d data len => attempt fault d (fileWrite d.1 data len)⟩

/-! ## The operations of a write -/

/-- The number of operations of `write_sparse_data_chunk`: a header, the data, and zeros after it. -/
def sparseDataOperations (bs len : UInt32) : ℕ :=
  if toInt (align len bs - len).toNat ≠ 0 then 3 else 2

/-- The number of operations that write a block. -/
def blockOperations (sparse : Bool) (bs : UInt32) (bb : BackedBlock) : ℕ :=
  match bb.source with
  | .fill _ => if sparse then 2 else (bb.len.toNat + bs.toNat - 1) / bs.toNat
  | _ => if sparse then sparseDataOperations bs bb.len else if align bb.len bs > bb.len then 2 else 1

/-- The operations of `write_all_blocks` for the blocks: the result of `write_skip_chunk` is not looked
at. -/
def blocksOperations (sparse : Bool) (bs : UInt32) : List BackedBlock → UInt32 → List Use
  | [], _ => []
  | bb :: rest, last_block =>
    (if bb.block > last_block then [.ignored] else []) ++
      (List.replicate (blockOperations sparse bs bb) .checked ++
        blocksOperations sparse bs rest (bb.block + divRoundUp bb.len bs))

/-- `last_block` after some blocks, in 32 bits. -/
def lastBlock (bs : UInt32) : List BackedBlock → UInt32 → UInt32
  | [], last_block => last_block
  | bb :: rest, _ => lastBlock bs rest (bb.block + divRoundUp bb.len bs)

/-- `pad` of `write_all_blocks`: the length from behind the last block to the end. -/
def SparseFile.pad (s : SparseFile) : ℤ :=
  s.len - (lastBlock s.block_size s.blocks 0).toNat * s.block_size.toNat

/-- The operations of `write_end_chunk`, whose result `output_file_close` does not look at. -/
def endOperations (sparse crc : Bool) : List Use :=
  if sparse then if crc then [.ignored, .ignored] else [] else [.ignored]

/-- The operations behind the blocks: the gap at the end and the end chunk. When the blocks reach
behind the end, `assert(pad >= 0)` stops the program before them. -/
def closingOperations (s : SparseFile) (sparse crc : Bool) : List Use :=
  if s.pad < 0 then [] else (if 0 < s.pad then [.ignored] else []) ++ endOperations sparse crc

/-- The operations of a `sparse_file_write` that no failure ends before: the header, the blocks with
the gaps in front of them, and what comes behind the blocks. -/
def operations (s : SparseFile) (sparse crc : Bool) : List Use :=
  (if sparse then [.checked] else []) ++ (blocksOperations sparse s.block_size s.blocks 0 ++
    closingOperations s sparse crc)

/-! ## What can be written -/

/-- The bytes that a mapping of a descriptor makes accessible at an offset. -/
def fetchFd (env : Env) (len : UInt32) (fd : ℕ) (offset : ℤ) : Except ℕ+ (List UInt8) :=
  (env.mmap fd (offset - offset % 4096) (len.toNat + (offset % 4096).toNat)).map
    (List.drop (offset % 4096).toNat)

/-- The bytes at the source of a block that is no fill. -/
def fetch (env : Env) (len : UInt32) : BlockSource → Except ℕ+ (List UInt8)
  | .data p => .ok ((List.range len.toNat).map fun k => env.mem (p + k))
  | .file filename offset => do fetchFd env len (← env.openFile filename) offset
  | .fd fd offset => fetchFd env len fd offset
  | .fill _ => .ok []

/-- `zero_len` of `write_sparse_data_chunk`, as the `size_t` that is written. -/
def zeroSize (bs len : UInt32) : ℕ := (toInt (align len bs - len).toNat % 2 ^ 64).toNat

/-- A block whose operations succeed when the file takes them: it is a fill, or its source has its
bytes and, in the sparse format, `zero_buf` has the zeros after them. -/
def Emittable (env : Env) (sparse : Bool) (bs : UInt32) (bb : BackedBlock) : Prop :=
  (∃ v, bb.source = .fill v) ∨ ∃ data, fetch env bb.len bb.source = .ok data ∧
    bb.len.toNat ≤ data.length ∧ (sparse → zeroSize bs bb.len ≤ bs.toNat)

/-- A sparse file of which all blocks are written when the file takes all operations. -/
structure CanWrite (env : Env) (s : SparseFile) (sparse : Bool) : Prop where
  /-- The block size is not zero. -/
  block_size_pos : 0 < s.block_size.toNat
  /-- The buffers of a block can be allocated. -/
  block_size_lt : s.block_size.toNat < 2 ^ 31
  /-- The blocks can be written. -/
  blocks : ∀ bb ∈ s.blocks, Emittable env sparse s.block_size bb

/-- The back end where `assert(pad >= 0)` of `write_all_blocks` stands: the header and the blocks have
been written. -/
def behindBlocks {σ : Type} (ops : OutputFileOps σ) (env : Env) (s : SparseFile) (dev : σ)
    (sparse crc : Bool) : Except Fault σ := do
  let chunks ← sparseCountChunks s
  let (_, out) ← outputFileInit ops dev s.block_size s.len sparse chunks crc
  return (writeBlocks ops env s.block_size s.blocks 0 out).2.2.dev

/-- The number of operations that a write has made when it returns or is stopped. A division by zero
stops it before the first one, the assertion behind the blocks. -/
def made (fault : ℕ → Option (RawFile → RawFile)) (env : Env) (s : SparseFile) (sparse crc : Bool)
    (f : RawFile) : ℕ :=
  match sparseFileWrite (faulty_ops fault) env s (f, 0) sparse crc,
      behindBlocks (faulty_ops fault) env s (f, 0) sparse crc with
  | .ok (_, out), _ => out.2
  | .error _, .ok out => out.2
  | .error _, .error _ => 0

/-- What is promised of a write to a file of which some operations fail. A write that is stopped
returns nothing, so not an error either. -/
structure Reports (fault : ℕ → Option (RawFile → RawFile)) (env : Env) (s : SparseFile)
    (sparse crc : Bool) (f : RawFile) : Prop where
  /-- When an operation that it has made has failed, it returns an error. -/
  failure : (∃ k < made fault env s sparse crc f, fault k ≠ none) → ∃ ret out,
    sparseFileWrite (faulty_ops fault) env s (f, 0) sparse crc = .ok (ret, out) ∧ ret ≠ 0
  /-- When it returns 0, it has made all operations. -/
  complete : ∀ out, sparseFileWrite (faulty_ops fault) env s (f, 0) sparse crc = .ok (0, out) →
    out.2 = (operations s sparse crc).length

/-! ## Runs of operations -/

/-- What no operation changes: the format, the checksum option, the block size and the length. -/
structure Kept {σ : Type} (out out' : OutputFile σ) : Prop where
  /-- The format. -/
  sparse : out'.sparse = out.sparse
  /-- Whether there is a checksum. -/
  use_crc : out'.use_crc = out.use_crc
  /-- The block size. -/
  block_size : out'.block_size = out.block_size
  /-- The length. -/
  len : out'.len = out.len

/-- What two steps keep, one after the other, is kept. -/
theorem Kept.trans {σ : Type} {a b c : OutputFile σ} (h : Kept a b) (h' : Kept b c) : Kept a c :=
  ⟨h'.sparse.trans h.sparse, h'.use_crc.trans h.use_crc, h'.block_size.trans h.block_size,
    h'.len.trans h.len⟩

/-- What comes of `m` checked operations on `out`: they return 0 when none fails and all are
`able` to succeed, and are all counted then. -/
structure Went (fault : ℕ → Option (RawFile → RawFile)) (out : OutputFile (RawFile × ℕ)) (m : ℕ)
    (able : Prop) (r : ℤ × OutputFile (RawFile × ℕ)) : Prop where
  /-- What is kept. -/
  kept : Kept out r.2
  /-- A failure is negative. -/
  nonpos : r.1 ≤ 0
  /-- When they return 0. -/
  ret : r.1 = 0 ↔ able ∧ ∀ k < m, fault (out.dev.2 + k) = none
  /-- They are all counted. -/
  count : r.1 = 0 → r.2.dev.2 = out.dev.2 + m

section

variable {fault : ℕ → Option (RawFile → RawFile)} {out : OutputFile (RawFile × ℕ)} {m : ℕ}
  {able : Prop} {r : ℤ × OutputFile (RawFile × ℕ)}

/-- One operation on the device is counted once, and goes well when it is able to and does not fail.
-/
theorem went_attempt {out' : OutputFile (RawFile × ℕ)} {q : ℤ × RawFile}
    (hkept : Kept out out') (hdev : out'.dev = (attempt fault out.dev q).2) (hq : q.1 ≤ 0)
    (hable : q.1 = 0 ↔ able) : Went fault out 1 able ((attempt fault out.dev q).1, out') := by
  have hret := @attempt_ret _ fault out.dev q
  have hfault : (∀ k < 1, fault (out.dev.2 + k) = none) ↔ fault out.dev.2 = none :=
    ⟨fun h => h 0 Nat.one_pos, fun h k hk => by rwa [Nat.lt_one_iff.mp hk, Nat.add_zero]⟩
  refine ⟨hkept, ?_, ?_, fun _ => ?_⟩
  · rw [hret]
    split_ifs
    · exact hq
    · decide
  · rw [hret, hfault]
    by_cases h : fault out.dev.2 = none
    · rw [if_pos h, hable]
      exact (and_iff_left h).symm
    · rw [if_neg h]
      exact iff_of_false (by decide) fun h' => h h'.2
  · rw [hdev, attempt_count]

/-- A write is one operation, and returns 0 when its buffer is long enough and it does not fail. -/
theorem went_write (data : List UInt8) (len : ℕ) :
    Went fault out 1 (len ≤ data.length) (out.write (faulty_ops fault) data len) := by
  refine went_attempt ⟨rfl, rfl, rfl, rfl⟩ rfl ?_ ?_
  · simp only [fileWrite]
    split_ifs <;> decide
  · simp only [fileWrite]
    split_ifs with h
    · exact iff_of_false (by decide) (by omega)
    · exact iff_of_true rfl (by omega)

/-- A skip that is not negative is one operation. -/
theorem went_skip {cnt : ℤ} (h : 0 ≤ cnt) :
    Went fault out 1 True (out.skip (faulty_ops fault) cnt) := by
  have hskip : (fileSkip out.dev.1 cnt).1 = 0 := by
    unfold fileSkip
    rw [if_neg (by omega)]
  exact went_attempt ⟨rfl, rfl, rfl, rfl⟩ rfl (le_of_eq hskip) (iff_of_true hskip trivial)

/-- A step without an operation counts none and goes well. -/
theorem went_none {out' : OutputFile (RawFile × ℕ)} (hkept : Kept out out')
    (hdev : out'.dev = out.dev) : Went fault out 0 True (0, out') :=
  ⟨hkept, le_refl 0, iff_of_true rfl ⟨trivial, fun _ hk => absurd hk (Nat.not_lt_zero _)⟩,
    fun _ => by rw [hdev, Nat.add_zero]⟩

/-- A property of all numbers below a sum is one of those below the first part and of the shifted
rest. -/
theorem forall_lt_add_iff {P : ℕ → Prop} {a b : ℕ} :
    (∀ k < a + b, P k) ↔ (∀ k < a, P k) ∧ ∀ k < b, P (a + k) := by
  constructor
  · exact fun h => ⟨fun k hk => h k (by omega), fun k hk => h (a + k) (by omega)⟩
  · rintro ⟨ha, hb⟩ k hk
    rcases Nat.lt_or_ge k a with hlt | hge
    · exact ha k hlt
    · have := hb (k - a) (by omega)
      rwa [Nat.add_sub_cancel' hge] at this

/-- **One run after the other**: the second one is made when the first one has not failed. -/
theorem Went.andThen (h : Went fault out m able r) {c : ℤ} (hc : r.1 < 0 → c < 0) {m' : ℕ}
    {able' : Prop} {next : ℤ × OutputFile (RawFile × ℕ)}
    (h' : ¬ r.1 < 0 → Went fault r.2 m' able' next) :
    Went fault out (m + m') (able ∧ able') (if r.1 < 0 then (c, r.2) else next) := by
  have hall : ((able ∧ able') ∧ ∀ k < m + m', fault (out.dev.2 + k) = none) ↔
      (able ∧ ∀ k < m, fault (out.dev.2 + k) = none) ∧
        able' ∧ ∀ k < m', fault (out.dev.2 + m + k) = none := by
    rw [forall_lt_add_iff]
    simp only [Nat.add_assoc]
    tauto
  by_cases hneg : r.1 < 0
  · rw [if_pos hneg]
    refine ⟨h.kept, (hc hneg).le, iff_of_false (hc hneg).ne fun h0 => hneg.ne ?_,
      fun h0 => absurd h0 (hc hneg).ne⟩
    exact h.ret.mpr (hall.mp h0).1
  · have hzero : r.1 = 0 := le_antisymm h.nonpos (not_lt.mp hneg)
    have hcount := h.count hzero
    replace h' := h' hneg
    rw [if_neg hneg]
    refine ⟨h.kept.trans h'.kept, h'.nonpos, ?_, fun h0 => ?_⟩
    · rw [hall, h'.ret, hcount]
      exact (and_iff_right (h.ret.mp hzero)).symm
    · rw [h'.count h0, hcount, Nat.add_assoc]

/-- What a run is, in other words. -/
theorem Went.congr (h : Went fault out m able r) {m' : ℕ} {able' : Prop} (hm : m = m')
    (heq : able ↔ able') : Went fault out m' able' r := by
  subst hm
  exact ⟨h.kept, h.nonpos, by rw [h.ret, heq], h.count⟩

end

/-! ## Chunks -/

section

variable {fault : ℕ → Option (RawFile → RawFile)} {out : OutputFile (RawFile × ℕ)}
  {env : Env} {bs : UInt32} {bb : BackedBlock}

/-- A fill chunk is two operations: the header and the word. -/
theorem writeSparseFillChunk_went (len v : UInt32) :
    Went fault out 2 True (writeSparseFillChunk (faulty_ops fault) out len v) := by
  unfold writeSparseFillChunk
  extract_lets rnd_up_len chunk_header
  have h1 := @went_write fault out chunk_header.encode CHUNK_HEADER_LEN
  split
  next ret1 out1 heq1 =>
  rw [heq1] at h1
  have h2 := @went_write fault out1 (le32 v) 4
  refine Went.congr (@Went.andThen _ _ _ _ _ h1 (-1) (fun _ => by decide) 1 True _ fun _ => ?_) rfl ?_
  · split
    next ret2 out2 heq2 =>
    rw [heq2] at h2
    refine Went.congr (h2.andThen (fun _ => ?_) fun _ => went_none ?_ ?_) rfl ?_
    · decide
    · exact ⟨rfl, rfl, rfl, rfl⟩
    · rfl
    · simp
  · rw [ChunkHeader.length_encode]
    simp

/-- Zero leaves no remainder. -/
theorem toNat_emod_of_zero {z : ℤ} (h : z = 0) (m : ℤ) : (z % m).toNat = 0 := by
  rw [h, Int.zero_emod]
  rfl

/-- `write_sparse_data_chunk`. Without zeros, the result that is looked at last is that of the data
again. -/
theorem writeSparseDataChunk_went (len : UInt32) (data : List UInt8) :
    Went fault out (sparseDataOperations out.block_size len)
      (len.toNat ≤ data.length ∧ zeroSize out.block_size len ≤ out.block_size.toNat)
      (writeSparseDataChunk (faulty_ops fault) out len data) := by
  obtain ⟨m, hm⟩ : ∃ m, sparseDataOperations out.block_size len = m := ⟨_, rfl⟩
  rw [hm]
  unfold writeSparseDataChunk
  extract_lets rnd_up_len zero_len zero_buf zero_size chunk_header
  have hm' : (if zero_len ≠ 0 then 3 else 2) = m := hm
  have hzero : zero_len = 0 → zero_size = 0 := fun h0 => toNat_emod_of_zero h0 _
  have h1 := @went_write fault out chunk_header.encode CHUNK_HEADER_LEN
  split
  next ret1 out1 heq1 =>
  rw [heq1] at h1
  have h2 := @went_write fault out1 data len.toNat
  have hbuf : zero_buf.length = out.block_size.toNat := List.length_replicate
  -- The third write is only made when there are zeros to write.
  by_cases hz : zero_len ≠ 0
  · rw [if_pos hz] at hm'
    refine Went.congr (@Went.andThen _ _ _ _ _ h1 (-1) (fun _ => by decide) 2
      (len.toNat ≤ data.length ∧ zero_size ≤ zero_buf.length) _ fun _ => ?_) hm' ?_
    · split
      next ret2 out2 heq2 =>
      rw [heq2] at h2
      have h3 := @went_write fault out2 zero_buf zero_size
      refine @Went.andThen _ _ _ _ _ h2 (-1) (fun _ => by decide) 1
        (zero_size ≤ zero_buf.length) _ fun _ => ?_
      split
      next ret3 out3 heq3 =>
      rw [if_pos hz] at heq3
      rw [heq3] at h3
      refine Went.congr (h3.andThen (fun _ => ?_) fun _ => went_none ?_ ?_) rfl
        (and_iff_left trivial)
      · decide
      · exact ⟨rfl, rfl, rfl, rfl⟩
      · rfl
    · rw [hbuf, ChunkHeader.length_encode]
      exact and_iff_right (le_refl _)
  · rw [if_neg hz] at hm'
    refine Went.congr (@Went.andThen _ _ _ _ _ h1 (-1) (fun _ => by decide) 1
      (len.toNat ≤ data.length) _ fun _ => ?_) hm' ?_
    · split
      next ret2 out2 heq2 =>
      rw [heq2] at h2
      refine Went.congr (@Went.andThen _ _ _ _ _ h2 (-1) (fun _ => by decide) 0 True _
        fun hneg => ?_) rfl (and_iff_left trivial)
      split
      next ret3 out3 heq3 =>
      rw [if_neg hz] at heq3
      obtain ⟨rfl, rfl⟩ := Prod.mk.inj heq3
      rw [if_neg hneg]
      exact went_none ⟨rfl, rfl, rfl, rfl⟩ rfl
    · have h0 : zeroSize out.block_size len = 0 := hzero (not_ne_iff.mp hz)
      rw [h0, ChunkHeader.length_encode]
      simp

/-- A data block in the normal format is one operation, and a second one for what is missing to the
block. -/
theorem writeNormalDataChunk_went (len : UInt32) (data : List UInt8) :
    Went fault out (if align len out.block_size > len then 2 else 1) (len.toNat ≤ data.length)
      (writeNormalDataChunk (faulty_ops fault) out len data) := by
  obtain ⟨m, hm⟩ : ∃ m, (if align len out.block_size > len then 2 else 1) = m := ⟨_, rfl⟩
  rw [hm]
  unfold writeNormalDataChunk
  extract_lets rnd_up_len
  have h1 := @went_write fault out data len.toNat
  split
  next ret1 out1 heq1 =>
  rw [heq1] at h1
  by_cases hgt : align len out.block_size > len
  · rw [if_pos hgt] at hm
    rw [if_pos hgt]
    exact Went.congr (h1.andThen id fun _ => went_skip (Int.natCast_nonneg _)) hm
      (and_iff_left trivial)
  · rw [if_neg hgt] at hm
    rw [if_neg hgt, ite_self]
    exact h1.congr hm Iff.rfl

/-- `fill_buf` is as long as a block, whole words or not. -/
theorem length_fillBuf (bs v : UInt32) : (fillBuf bs v).length = bs.toNat := by
  rw [fillBuf, List.length_append, List.length_replicate]
  simp only [List.length_flatten, List.map_replicate, length_le32, List.sum_replicate_nat]
  exact Nat.div_add_mod' _ _

/-- The loop of `write_normal_fill_chunk` writes a block in each pass. -/
theorem writeFillLoop_went {fill_buf : List UInt8} (hbs : 0 < out.block_size.toNat)
    (hbuf : fill_buf.length = out.block_size.toNat) {fuel : ℕ} {len : UInt32}
    (hfuel : len.toNat ≤ fuel) :
    Went fault out ((len.toNat + out.block_size.toNat - 1) / out.block_size.toNat) True
      (writeFillLoop (faulty_ops fault) fill_buf fuel out len) := by
  induction fuel generalizing out len with
  | zero =>
    have h0 : len.toNat = 0 := by omega
    have hm : (len.toNat + out.block_size.toNat - 1) / out.block_size.toNat = 0 := by
      rw [h0, Nat.zero_add, Nat.div_eq_of_lt (by omega)]
    rw [hm]
    exact went_none ⟨rfl, rfl, rfl, rfl⟩ rfl
  | succ fuel ih =>
    unfold writeFillLoop
    by_cases hlen : len ≠ 0
    · -- A pass writes a block, or what is left.
      have hpos := toNat_pos_of_ne_zero hlen
      rw [if_pos hlen]
      extract_lets write_len
      have hmin : write_len.toNat = min len.toNat out.block_size.toNat := uint32_toNat_min _ _
      have hrest : (len - write_len).toNat = len.toNat - write_len.toNat :=
        uint32_toNat_sub_min _ _
      have h1 := @went_write fault out fill_buf write_len.toNat
      split
      next ret1 out1 heq1 =>
      rw [heq1] at h1
      have hsize : out1.block_size = out.block_size := h1.kept.block_size
      refine Went.congr (h1.andThen id fun _ => ih (hsize ▸ hbs) (hsize ▸ hbuf) ?_) ?_ ?_
      · omega
      · -- One block less is one pass less.
        rw [hsize, hrest, hmin]
        rcases Nat.le_total len.toNat out.block_size.toNat with h | h
        · rw [Nat.min_eq_left h, Nat.sub_self, Nat.zero_add, Nat.div_eq_of_lt (by omega)]
          have hone : len.toNat + out.block_size.toNat - 1 =
              len.toNat - 1 + out.block_size.toNat := by omega
          rw [hone, Nat.add_div_right _ hbs, Nat.div_eq_of_lt (by omega)]
        · rw [Nat.min_eq_right h, Nat.add_comm, ← Nat.add_div_right _ hbs]
          congr 1
          omega
      · rw [hbuf, hmin]
        exact iff_of_true ⟨Nat.min_le_right _ _, trivial⟩ trivial
    · have h0 : len = 0 := not_ne_iff.mp hlen
      have hm : (len.toNat + out.block_size.toNat - 1) / out.block_size.toNat = 0 := by
        rw [h0, UInt32.toNat_zero, Nat.zero_add, Nat.div_eq_of_lt (by omega)]
      rw [if_neg hlen, hm]
      exact went_none ⟨rfl, rfl, rfl, rfl⟩ rfl

/-- A gap is one operation, whose result does not matter, in the sparse format when it is a number of
whole blocks. -/
theorem writeSkipChunk_count {skip_len : ℤ} (h : out.sparse → skip_len % out.block_size.toNat = 0) :
    Kept out (writeSkipChunk (faulty_ops fault) out skip_len).2 ∧
      (writeSkipChunk (faulty_ops fault) out skip_len).2.dev.2 = out.dev.2 + 1 := by
  unfold writeSkipChunk
  by_cases hs : out.sparse
  · rw [if_pos hs]
    unfold writeSparseSkipChunk
    rw [if_neg (not_not.mpr (h hs))]
    extract_lets chunk_header
    -- The header of the gap is the one operation.
    have hcount : (out.write (faulty_ops fault) chunk_header.encode CHUNK_HEADER_LEN).2.dev.2 =
        out.dev.2 + 1 := attempt_count _ _
    split
    next ret1 out1 heq1 =>
    have hkept : Kept out out1 := by
      have := @went_write fault out chunk_header.encode CHUNK_HEADER_LEN
      rw [heq1] at this
      exact this.kept
    rw [heq1] at hcount
    split_ifs
    · exact ⟨hkept, hcount⟩
    · exact ⟨⟨hkept.sparse, hkept.use_crc, hkept.block_size, hkept.len⟩, hcount⟩
  · rw [if_neg hs]
    exact ⟨⟨rfl, rfl, rfl, rfl⟩, attempt_count _ _⟩

/-- In the sparse format, a gap that is not a number of whole blocks is not written. -/
theorem writeSkipChunk_refused {skip_len : ℤ} (hs : out.sparse)
    (h : skip_len % out.block_size.toNat ≠ 0) :
    writeSkipChunk (faulty_ops fault) out skip_len = (-1, out) := by
  unfold writeSkipChunk writeSparseSkipChunk
  rw [if_pos hs, if_pos h]

/-! ## Blocks -/

/-- A block on any back end: it is a fill, or its bytes are fetched and written as data. -/
theorem sparseFileWriteBlock_fetch {σ : Type} (ops : OutputFileOps σ) (out : OutputFile σ) :
    sparseFileWriteBlock ops env out bb =
      match bb.source with
      | .fill v => writeFillChunk ops out bb.len v
      | source =>
        match fetch env bb.len source with
        | .error errno => (-(errno : ℕ), out)
        | .ok data => writeDataChunk ops out bb.len data := by
  unfold sparseFileWriteBlock
  cases bb.source with
  | data p => rfl
  | file filename offset =>
    simp only [writeFileChunk, writeFdChunk, fetch, fetchFd, bind, Except.bind]
    cases env.openFile filename with
    | error errno => rfl
    | ok file_fd =>
      cases h : env.mmap file_fd (offset - offset % 4096) (bb.len.toNat + (offset % 4096).toNat) <;>
        simp only [h] <;> rfl
  | fd fd offset =>
    simp only [writeFdChunk, fetch, fetchFd]
    cases h : env.mmap fd (offset - offset % 4096) (bb.len.toNat + (offset % 4096).toNat) <;> rfl
  | fill v => rfl

/-- A data block is the operations of its format, and is written when its buffer is long enough. -/
theorem writeDataChunk_went (hbs : out.block_size = bs) (data : List UInt8)
    (hdata : ∀ v, bb.source ≠ .fill v) :
    Went fault out (blockOperations out.sparse bs bb)
      (bb.len.toNat ≤ data.length ∧ (out.sparse → zeroSize bs bb.len ≤ bs.toNat))
      (writeDataChunk (faulty_ops fault) out bb.len data) := by
  have hm : blockOperations out.sparse bs bb = if out.sparse then sparseDataOperations bs bb.len
      else if align bb.len bs > bb.len then 2 else 1 := by
    unfold blockOperations
    split
    next v hsrc => exact absurd hsrc (hdata v)
    next => rfl
  rw [hm]
  unfold writeDataChunk
  by_cases hs : out.sparse
  · rw [if_pos hs, if_pos hs, ← hbs]
    refine (writeSparseDataChunk_went bb.len data).congr rfl ?_
    rw [forall_prop_of_true hs]
  · rw [if_neg hs, if_neg hs, ← hbs]
    exact (writeNormalDataChunk_went bb.len data).congr rfl
      (iff_self_and.mpr fun _ h => absurd h hs)

/-- A fill is the operations of its format, and is written unless one of them fails. -/
theorem writeFillChunk_went (hbs : out.block_size = bs) (hpos : 0 < bs.toNat) {v : UInt32}
    (hsrc : bb.source = .fill v) :
    Went fault out (blockOperations out.sparse bs bb) True
      (writeFillChunk (faulty_ops fault) out bb.len v) := by
  have hm : blockOperations out.sparse bs bb =
      if out.sparse then 2 else (bb.len.toNat + bs.toNat - 1) / bs.toNat := by
    unfold blockOperations
    rw [hsrc]
  rw [hm]
  unfold writeFillChunk
  by_cases hs : out.sparse
  · rw [if_pos hs, if_pos hs]
    exact writeSparseFillChunk_went bb.len v
  · rw [if_neg hs, if_neg hs, ← hbs]
    exact writeFillLoop_went (hbs ▸ hpos) (length_fillBuf _ _) (le_refl _)

/-- **One block** is written when all its operations succeed. -/
theorem sparseFileWriteBlock_went (hbs : out.block_size = bs) (hpos : 0 < bs.toNat) :
    Went fault out (blockOperations out.sparse bs bb) (Emittable env out.sparse bs bb)
      (sparseFileWriteBlock (faulty_ops fault) env out bb) := by
  rw [sparseFileWriteBlock_fetch]
  by_cases hfill : ∃ v, bb.source = .fill v
  · obtain ⟨v, hsrc⟩ := hfill
    rw [hsrc]
    exact (writeFillChunk_went hbs hpos hsrc).congr rfl (iff_of_true trivial (Or.inl ⟨v, hsrc⟩))
  · have hdata : ∀ v, bb.source ≠ .fill v := fun v hsrc => hfill ⟨v, hsrc⟩
    -- A source that cannot be read fails before any operation.
    have hout : Went fault out (blockOperations out.sparse bs bb) (Emittable env out.sparse bs bb)
        (match fetch env bb.len bb.source with
        | .error errno => (-(errno : ℕ), out)
        | .ok data => writeDataChunk (faulty_ops fault) out bb.len data) := by
      cases hfetch : fetch env bb.len bb.source with
      | error errno =>
        have hneg : -((errno : ℕ) : ℤ) < 0 := by
          have := errno.pos
          omega
        refine ⟨⟨rfl, rfl, rfl, rfl⟩, hneg.le, iff_of_false hneg.ne ?_, fun h0 => absurd h0 hneg.ne⟩
        rintro ⟨hf | ⟨data, hok, -⟩, -⟩
        · exact hfill hf
        · exact nomatch hfetch.symm.trans hok
      | ok data =>
        refine (writeDataChunk_went hbs data hdata).congr rfl ⟨fun h => ?_, fun h => ?_⟩
        · exact Or.inr ⟨data, hfetch, h⟩
        · obtain ⟨data', hok, h'⟩ := h.resolve_left hfill
          cases hfetch.symm.trans hok
          exact h'
    cases hsrc : bb.source with
    | fill v => exact absurd hsrc (hdata v)
    | data p => rw [hsrc] at hout; exact hout
    | file f o => rw [hsrc] at hout; exact hout
    | fd f o => rw [hsrc] at hout; exact hout

/-- **All blocks.** They are written when each of them can be, and no checked operation fails; all
operations are counted then. -/
theorem writeBlocks_went (hbs : out.block_size = bs) (hpos : 0 < bs.toNat) {l : List BackedBlock}
    {last last' : UInt32} {ret : ℤ} {out' : OutputFile (RawFile × ℕ)}
    (h : writeBlocks (faulty_ops fault) env bs l last out = (ret, last', out')) :
    Kept out out' ∧
      (ret = 0 ↔ (∀ bb ∈ l, Emittable env out.sparse bs bb) ∧
        Clear fault .checked out.dev.2 (blocksOperations out.sparse bs l last)) ∧
      (ret = 0 → last' = lastBlock bs l last ∧
        out'.dev.2 = out.dev.2 + (blocksOperations out.sparse bs l last).length) := by
  induction l generalizing out last with
  | nil =>
    cases h
    exact ⟨⟨rfl, rfl, rfl, rfl⟩, iff_of_true rfl ⟨fun _ h => (nomatch h), clear_nil⟩,
      fun _ => ⟨rfl, rfl⟩⟩
  | cons bb l ih =>
    unfold writeBlocks at h
    extract_lets out0 at h
    -- The gap in front of the block is a whole number of blocks.
    obtain ⟨hkept0, hcount0⟩ : Kept out out0 ∧ out0.dev.2 = out.dev.2 +
        (if bb.block > last then [Use.ignored] else []).length := by
      by_cases hgt : bb.block > last
      · have hskip := @writeSkipChunk_count fault out
          ((bb.block - last).toNat * bs.toNat) fun _ => by
            rw [hbs]
            exact Int.mul_emod_left _ _
        rw [if_pos hgt]
        simp only [out0, if_pos hgt]
        exact hskip
      · rw [if_neg hgt]
        simp only [out0, if_neg hgt]
        exact ⟨⟨rfl, rfl, rfl, rfl⟩, rfl⟩
    have hgap : Clear fault .checked out.dev.2 (if bb.block > last then [.ignored] else []) := by
      split_ifs
      · exact @clear_replicate_of_ne _ fault .checked out.dev.2 1 .ignored (by decide)
      · exact clear_nil
    have hblock := @sparseFileWriteBlock_went fault out0 env bs bb (hkept0.block_size.trans hbs) hpos
    rw [hkept0.sparse] at hblock
    split at h
    next ret1 out1 heq1 =>
    rw [heq1] at hblock
    have hret := hblock.ret
    rw [hcount0] at hret
    simp only [List.forall_mem_cons, blocksOperations, clear_append, clear_replicate, hgap,
      true_and]
    split_ifs at h with hne
    · obtain ⟨rfl, rfl, rfl⟩ : ret1 = ret ∧ last = last' ∧ out1 = out' := by
        simpa only [Prod.mk.injEq] using h
      refine ⟨hkept0.trans hblock.kept, iff_of_false hne fun hall => hne (hret.mpr ?_),
        fun h0 => absurd h0 hne⟩
      exact ⟨hall.1.1, hall.2.1⟩
    · have hzero : ret1 = 0 := not_ne_iff.mp hne
      have hall := hret.mp hzero
      have hkept1 : Kept out out1 := hkept0.trans hblock.kept
      have hcount1 : out1.dev.2 = _ := hblock.count hzero
      obtain ⟨hkept, hiff, hdone⟩ := ih (hkept1.block_size.trans hbs) h
      rw [hkept1.sparse, hcount1, hcount0] at hiff hdone
      refine ⟨hkept1.trans hkept, hiff.trans ?_, fun h0 => ⟨(hdone h0).1, ?_⟩⟩
      · rw [List.length_replicate]
        constructor
        · exact fun h' => ⟨⟨hall.1, h'.1⟩, hall.2, h'.2⟩
        · exact fun h' => ⟨h'.1.2, h'.2.2⟩
      · rw [(hdone h0).2, List.length_append, List.length_append, List.length_replicate]
        omega

/-! ## The whole write -/

/-- The end chunk: its operations are all counted when none of them fails. -/
theorem outputFileClose_count :
    (outputFileClose (faulty_ops fault) out).dev.2 ≤
        out.dev.2 + (endOperations out.sparse out.use_crc).length ∧
      (Clear fault .ignored out.dev.2 (endOperations out.sparse out.use_crc) →
        (outputFileClose (faulty_ops fault) out).dev.2 =
          out.dev.2 + (endOperations out.sparse out.use_crc).length) := by
  unfold outputFileClose endOperations
  by_cases hs : out.sparse
  swap
  · -- The normal format sets the length of the file.
    rw [if_neg hs, if_neg hs]
    have hcount : (writeNormalEndChunk (faulty_ops fault) out).2.dev.2 = out.dev.2 + 1 :=
      attempt_count _ _
    exact ⟨hcount.le, fun _ => hcount⟩
  rw [if_pos hs, if_pos hs]
  unfold writeSparseEndChunk
  by_cases hc : out.use_crc
  swap
  · rw [if_neg hc, if_neg hc]
    exact ⟨le_refl _, fun _ => rfl⟩
  rw [if_pos hc, if_pos hc]
  extract_lets chunk_header
  have h1 := @went_write fault out chunk_header.encode CHUNK_HEADER_LEN
  have hcount1 : (out.write (faulty_ops fault) chunk_header.encode CHUNK_HEADER_LEN).2.dev.2 =
      out.dev.2 + 1 := attempt_count _ _
  split
  next ret1 out1 heq1 =>
  rw [heq1] at h1 hcount1
  have hcount2 : (out1.write (faulty_ops fault) (le32 out1.crc32) 4).2.dev.2 = out.dev.2 + 2 := by
    rw [← Nat.add_assoc out.dev.2 1 1, ← hcount1]
    exact attempt_count _ _
  -- The word of the checksum is only written behind its header.
  by_cases hneg : ret1 < 0
  · rw [if_pos hneg]
    refine ⟨?_, fun hclear => absurd (h1.ret.mpr ?_) hneg.ne⟩
    · rw [hcount1]
      exact Nat.add_le_add_left (by decide) _
    · refine ⟨le_of_eq (ChunkHeader.length_encode _).symm, fun k hk => hclear k ?_⟩
      rw [Nat.lt_one_iff.mp hk]
      rfl
  · rw [if_neg hneg]
    split
    next ret2 out2 heq2 =>
    rw [heq2] at hcount2
    rw [if_neg hneg]
    exact ⟨hcount2.le, fun _ => hcount2⟩

/-- The header is one checked operation in the sparse format, and none in the normal one. -/
theorem outputFileInit_went {f : RawFile} {len : ℤ} {chunks : UInt32} {sparse crc : Bool}
    (hpos : 0 < bs.toNat) (hlt : bs.toNat < 2 ^ 31) :
    ∃ ret out, outputFileInit (faulty_ops fault) (f, 0) bs len sparse chunks crc = .ok (ret, out) ∧
      out.sparse = sparse ∧ out.use_crc = crc ∧ out.block_size = bs ∧ ret ≤ 0 ∧
      (ret = 0 ↔ Clear fault .checked 0 (if sparse then [.checked] else [])) ∧
      (ret = 0 → out.dev.2 = (if sparse then [Use.checked] else []).length) := by
  have hne := ne_zero_of_toNat_pos hpos
  unfold outputFileInit
  extract_lets out sparse_header
  rw [if_neg (by omega)]
  -- In the normal format no header is written.
  by_cases hs : sparse
  swap
  · rw [if_neg hs, if_neg hs]
    exact ⟨0, out, rfl, rfl, rfl, rfl, le_refl _, iff_of_true rfl clear_nil, fun _ => rfl⟩
  rw [if_pos hs, if_pos hs, if_neg hne]
  have h1 := @went_write fault out sparse_header.encode SPARSE_HEADER_LEN
  obtain ⟨⟨ret1, out1⟩, heq1⟩ : ∃ r, out.write (faulty_ops fault) sparse_header.encode
    SPARSE_HEADER_LEN = r := ⟨_, rfl⟩
  rw [heq1] at h1 ⊢
  -- The header is the first operation, the number 0.
  have hiff : ret1 = 0 ↔ Clear fault .checked 0 [.checked] := by
    rw [h1.ret, SparseHeader.length_encode, and_iff_right (le_refl _)]
    exact (@clear_replicate _ fault .checked 0 1).symm
  refine ⟨ret1, out1, ?_, h1.kept.sparse, h1.kept.use_crc, h1.kept.block_size, h1.nonpos, hiff,
    fun h0 => (h1.count h0).trans rfl⟩
  have hnonpos := h1.nonpos
  change (if ret1 < 0 then _ else _) = _
  split_ifs with hneg
  · rfl
  · rw [show ret1 = 0 from le_antisymm hnonpos (not_lt.mp hneg)]

/-- `write_all_blocks`, once its blocks are written: it returns their error, or asserts the length
to the end and skips over it. -/
theorem writeAllBlocks_eq {s : SparseFile} (hbs : out.block_size = s.block_size)
    (hpos : 0 < s.block_size.toNat) {ret1 : ℤ} {last1 : UInt32} {out1 : OutputFile (RawFile × ℕ)}
    (heq : writeBlocks (faulty_ops fault) env s.block_size s.blocks 0 out = (ret1, last1, out1)) :
    writeAllBlocks (faulty_ops fault) env s out =
      if ret1 ≠ 0 then .ok (ret1, out1)
      else if s.pad < 0 then .error .assertion
      else if s.pad > 0 then .ok (0, (writeSkipChunk (faulty_ops fault) out1 s.pad).2)
      else .ok (0, out1) := by
  have heq' : writeBlocks (faulty_ops fault) env s.block_size
    s.backed_block_list.data_blocks 0 out = (ret1, last1, out1) := heq
  obtain ⟨-, -, hdone⟩ := writeBlocks_went hbs hpos heq
  unfold writeAllBlocks
  rw [heq']
  by_cases hzero : ret1 = 0
  -- The block counter stands behind the last block.
  · obtain ⟨rfl, -⟩ := hdone hzero
    rfl
  · simp only [if_pos hzero]

/-- `write_all_blocks` is stopped when the blocks have been written and reach behind the end. -/
theorem writeAllBlocks_stops {s : SparseFile} (hbs : out.block_size = s.block_size)
    (hpos : 0 < s.block_size.toNat) :
    ((∃ e, writeAllBlocks (faulty_ops fault) env s out = .error e) ↔
      s.pad < 0 ∧ (∀ bb ∈ s.blocks, Emittable env out.sparse s.block_size bb) ∧
        Clear fault .checked out.dev.2 (blocksOperations out.sparse s.block_size s.blocks 0)) ∧
    ∀ e, writeAllBlocks (faulty_ops fault) env s out = .error e →
      (writeBlocks (faulty_ops fault) env s.block_size s.blocks 0 out).2.2.dev.2 =
        out.dev.2 + (blocksOperations out.sparse s.block_size s.blocks 0).length := by
  obtain ⟨⟨ret1, last1, out1⟩, heq1⟩ : ∃ r, writeBlocks (faulty_ops fault) env s.block_size
    s.blocks 0 out = r := ⟨_, rfl⟩
  obtain ⟨-, hiff, hdone⟩ := writeBlocks_went hbs hpos heq1
  rw [writeAllBlocks_eq hbs hpos heq1, ← hiff, heq1]
  by_cases hzero : ret1 = 0
  swap
  · rw [if_pos hzero]
    exact ⟨iff_of_false (fun ⟨_, h⟩ => nomatch h) fun h => hzero h.2, fun _ h => nomatch h⟩
  rw [if_neg (not_not.mpr hzero)]
  refine ⟨?_, fun _ _ => (hdone hzero).2⟩
  by_cases hneg : s.pad < 0
  · rw [if_pos hneg]
    exact iff_of_true ⟨_, rfl⟩ ⟨hneg, hzero⟩
  · rw [if_neg hneg]
    refine iff_of_false (fun ⟨e, h⟩ => ?_) fun h => hneg h.1
    split_ifs at h

/-- `write_all_blocks` returns 0 when the blocks fit and can be written and no checked operation fails.
Then the gap at the end is counted, in the sparse format when it is a number of whole blocks. -/
theorem writeAllBlocks_went {s : SparseFile} (hbs : out.block_size = s.block_size)
    (hpos : 0 < s.block_size.toNat) :
    ((∃ out', writeAllBlocks (faulty_ops fault) env s out = .ok (0, out')) ↔
      0 ≤ s.pad ∧ (∀ bb ∈ s.blocks, Emittable env out.sparse s.block_size bb) ∧
        Clear fault .checked out.dev.2 (blocksOperations out.sparse s.block_size s.blocks 0)) ∧
    ∀ out', writeAllBlocks (faulty_ops fault) env s out = .ok (0, out') → Kept out out' ∧
      ((out.sparse → s.pad % s.block_size.toNat = 0) → out'.dev.2 = out.dev.2 +
        (blocksOperations out.sparse s.block_size s.blocks 0).length +
          (if 0 < s.pad then [Use.ignored] else []).length) ∧
      (¬ (out.sparse → s.pad % s.block_size.toNat = 0) → out'.dev.2 < out.dev.2 +
        (blocksOperations out.sparse s.block_size s.blocks 0).length +
          (if 0 < s.pad then [Use.ignored] else []).length) := by
  obtain ⟨⟨ret1, last1, out1⟩, heq1⟩ : ∃ r, writeBlocks (faulty_ops fault) env s.block_size
    s.blocks 0 out = r := ⟨_, rfl⟩
  obtain ⟨hkept, hiff, hdone⟩ := writeBlocks_went hbs hpos heq1
  rw [writeAllBlocks_eq hbs hpos heq1, ← hiff]
  -- A block that is not written ends the write.
  by_cases hzero : ret1 = 0
  swap
  · rw [if_pos hzero]
    refine ⟨iff_of_false ?_ fun h => hzero h.2, fun out' h => ?_⟩
    · rintro ⟨out', h⟩
      exact hzero (Prod.mk.inj (Except.ok.inj h)).1
    · exact absurd (Prod.mk.inj (Except.ok.inj h)).1 hzero
  obtain ⟨-, hcount⟩ := hdone hzero
  rw [if_neg (not_not.mpr hzero)]
  -- Blocks that reach behind the end stop the program.
  by_cases hneg : s.pad < 0
  · rw [if_pos hneg]
    exact ⟨iff_of_false (fun ⟨_, h⟩ => nomatch h) fun h => absurd h.1 (by omega),
      fun _ h => nomatch h⟩
  rw [if_neg hneg]
  by_cases hgap : s.pad > 0
  · -- The gap at the end is skipped; a sparse file refuses one that is not of whole blocks.
    rw [if_pos hgap, if_pos hgap]
    refine ⟨iff_of_true ⟨_, rfl⟩ ⟨by omega, hzero⟩, fun out' h => ?_⟩
    obtain rfl : (writeSkipChunk (faulty_ops fault) out1 s.pad).2 = out' :=
      (Prod.mk.inj (Except.ok.inj h)).2
    rw [← hcount, ← hkept.sparse, ← hbs, ← hkept.block_size]
    by_cases haligned : out1.sparse → s.pad % out1.block_size.toNat = 0
    · obtain ⟨hkept', hcount'⟩ := @writeSkipChunk_count fault _ _ haligned
      exact ⟨hkept.trans hkept', fun _ => hcount', fun h => absurd haligned h⟩
    · obtain ⟨hs, hmod⟩ := Classical.not_imp.mp haligned
      rw [writeSkipChunk_refused hs hmod]
      exact ⟨hkept, fun h => absurd h haligned, fun _ => Nat.lt_succ_self _⟩
  · have hz : s.pad = 0 := by omega
    rw [if_neg hgap, if_neg hgap]
    refine ⟨iff_of_true ⟨_, rfl⟩ ⟨by omega, hzero⟩, fun out' h => ?_⟩
    obtain rfl : out1 = out' := (Prod.mk.inj (Except.ok.inj h)).2
    refine ⟨hkept, fun _ => hcount, fun h => absurd (fun _ => ?_) h⟩
    rw [hz, Int.zero_emod]

/-- The gap at the end is a number of whole blocks when the length is. -/
theorem SparseFile.pad_emod (s : SparseFile) :
    s.pad % s.block_size.toNat = s.len % s.block_size.toNat := by
  rw [SparseFile.pad, Int.sub_mul_emod_self_right]

/-- The checked operations are the header and those of the blocks. -/
theorem clear_checked_operations {s : SparseFile} {sparse crc : Bool} :
    Clear fault .checked 0 (operations s sparse crc) ↔
      Clear fault .checked 0 (if sparse then [.checked] else []) ∧
        Clear fault .checked (if sparse then [Use.checked] else []).length
          (blocksOperations sparse s.block_size s.blocks 0) := by
  have hgap (n : ℕ) : Clear fault .checked n (if 0 < s.pad then [.ignored] else []) := by
    split_ifs
    · exact @clear_replicate_of_ne _ fault .checked n 1 .ignored (by decide)
    · exact clear_nil
  have hend (n : ℕ) : Clear fault .checked n (endOperations sparse crc) := by
    unfold endOperations
    split_ifs
    · exact @clear_replicate_of_ne _ fault .checked n 2 .ignored (by decide)
    · exact clear_nil
    · exact @clear_replicate_of_ne _ fault .checked n 1 .ignored (by decide)
  have hclosing (n : ℕ) : Clear fault .checked n (closingOperations s sparse crc) := by
    unfold closingOperations
    by_cases hneg : s.pad < 0
    · rw [if_pos hneg]
      exact clear_nil
    · rw [if_neg hneg]
      exact clear_append.mpr ⟨hgap n, hend _⟩
  simp only [operations, clear_append, hclosing, and_true, Nat.zero_add]

/-- What is done before the blocks of a write that returns 0, and what is left to do. -/
theorem write_started {s : SparseFile} {sparse crc : Bool} {f : RawFile} {new : RawFile × ℕ}
    (h : sparseFileWrite (faulty_ops fault) env s (f, 0) sparse crc = .ok (0, new)) :
    0 < s.block_size.toNat ∧ s.block_size.toNat < 2 ^ 31 ∧
      Clear fault .checked 0 (if sparse then [.checked] else []) ∧
      ∃ out out', out.sparse = sparse ∧ out.use_crc = crc ∧ out.block_size = s.block_size ∧
        out.dev.2 = (if sparse then [Use.checked] else []).length ∧
        writeAllBlocks (faulty_ops fault) env s out = .ok (0, out') ∧
        (outputFileClose (faulty_ops fault) out').dev = new := by
  obtain ⟨hbs, hlt, chunks, ret, out, out', hinit, hret, hall, hclose⟩ := sparseFileWrite_done h
  have hpos := toNat_pos_of_ne_zero hbs
  obtain ⟨ret0, out0, hinit0, hs, hcrc, hsize, hnonpos, hclear, hcount⟩ :=
    @outputFileInit_went fault s.block_size f s.len chunks sparse crc hpos hlt
  obtain ⟨rfl, rfl⟩ := Prod.mk.inj (Except.ok.inj (hinit.symm.trans hinit0))
  have hzero : ret = 0 := le_antisymm hnonpos hret
  exact ⟨hpos, hlt, hclear.mp hzero, out, out', hs, hcrc, hsize, hcount hzero, hall, hclose⟩

/-- **A write that returns 0**: exactly a file that can be written, when no checked operation fails. -/
theorem sparseFileWrite_faulty {s : SparseFile} {sparse crc : Bool} {f : RawFile} :
    (∃ out, sparseFileWrite (faulty_ops fault) env s (f, 0) sparse crc = .ok (0, out)) ↔
      CanWrite env s sparse ∧ 0 ≤ s.pad ∧
        Clear fault .checked 0 (operations s sparse crc) := by
  rw [clear_checked_operations]
  constructor
  · rintro ⟨out, h⟩
    obtain ⟨hpos, hlt, hinit, out0, out', rfl, -, hbs, hcount, hall, -⟩ := write_started h
    obtain ⟨hpad, hblocks, hclear⟩ := (writeAllBlocks_went hbs hpos).1.mp ⟨out', hall⟩
    exact ⟨⟨hpos, hlt, hblocks⟩, hpad, hinit, hcount ▸ hclear⟩
  · rintro ⟨hw, hpad, hinit, hclear⟩
    obtain ⟨chunks, hchunks⟩ := sparseCountChunks_ok (ne_zero_of_toNat_pos hw.block_size_pos)
    obtain ⟨ret, out0, heq, rfl, -, hbs, -, hiff, hcount⟩ := @outputFileInit_went fault s.block_size
      f s.len chunks sparse crc hw.block_size_pos hw.block_size_lt
    obtain rfl := hiff.mpr hinit
    obtain ⟨out', hall⟩ := (writeAllBlocks_went hbs hw.block_size_pos).1.mpr
      ⟨hpad, hw.blocks, (hcount rfl).symm ▸ hclear⟩
    exact ⟨_, sparseFileWrite_eq hchunks heq hall⟩

/-- **A write that is stopped** is one of blocks that reach behind the end, when no checked operation
fails. It has made all its operations then. -/
theorem sparseFileWrite_stops {s : SparseFile} {sparse crc : Bool} {f : RawFile}
    (hbs : s.block_size ≠ 0) :
    ((∃ e, sparseFileWrite (faulty_ops fault) env s (f, 0) sparse crc = .error e) ↔
      CanWrite env s sparse ∧ s.pad < 0 ∧ Clear fault .checked 0 (operations s sparse crc)) ∧
    ∀ e, sparseFileWrite (faulty_ops fault) env s (f, 0) sparse crc = .error e →
      made fault env s sparse crc f = (operations s sparse crc).length := by
  rw [clear_checked_operations]
  have hpos := toNat_pos_of_ne_zero hbs
  -- A block size that is no `int` is refused, with an error.
  by_cases hlt : s.block_size.toNat < 2 ^ 31
  swap
  · have hrun := @sparseFileWrite_unopened _ (faulty_ops fault) env s (f, 0) sparse crc hbs
      (Nat.not_lt.mp hlt)
    rw [hrun]
    exact ⟨iff_of_false (by simp) fun h => hlt h.1.block_size_lt, by simp⟩
  obtain ⟨chunks, hchunks⟩ := sparseCountChunks_ok hbs
  obtain ⟨ret, out, hinit, rfl, -, hsize, hnonpos, hheader, hcount⟩ :=
    @outputFileInit_went fault s.block_size f s.len chunks sparse crc hpos hlt
  by_cases hneg : ret < 0
  · have hrun : sparseFileWrite (faulty_ops fault) env s (f, 0) out.sparse crc =
        .ok (-ENOMEM, out.dev) := by
      simp only [sparseFileWrite, hchunks, hinit, bind, Except.bind, if_pos hneg]
      rfl
    rw [hrun]
    exact ⟨iff_of_false (by simp) fun h => hneg.ne (hheader.mpr h.2.2.1), by simp⟩
  have hzero : ret = 0 := le_antisymm hnonpos (not_lt.mp hneg)
  have herror : ∀ e, sparseFileWrite (faulty_ops fault) env s (f, 0) out.sparse crc = .error e ↔
      writeAllBlocks (faulty_ops fault) env s out = .error e := by
    intro e
    simp only [sparseFileWrite, hchunks, hinit, bind, Except.bind, if_neg hneg]
    cases writeAllBlocks (faulty_ops fault) env s out with
    | ok r => exact iff_of_false (by simp [pure, Except.pure]) (by simp)
    | error e => simp
  obtain ⟨hstops, hmade⟩ := @writeAllBlocks_stops fault out env s hsize hpos
  rw [hcount hzero] at hstops hmade
  refine ⟨?_, fun e he => ?_⟩
  · simp only [herror, hstops]
    constructor
    · rintro ⟨hpad, hblocks, hclear⟩
      exact ⟨⟨hpos, hlt, hblocks⟩, hpad, hheader.mp hzero, hclear⟩
    · rintro ⟨hw, hpad, -, hclear⟩
      exact ⟨hpad, hw.blocks, hclear⟩
  · have hall := (herror e).mp he
    have hpad := (hstops.mp ⟨e, hall⟩).1
    have hbehind : behindBlocks (faulty_ops fault) env s (f, 0) out.sparse crc =
        .ok (writeBlocks (faulty_ops fault) env s.block_size s.blocks 0 out).2.2.dev := by
      simp only [behindBlocks, hchunks, hinit, bind, Except.bind]
      rfl
    rw [made, he, hbehind, operations, closingOperations, if_pos hpad, List.append_nil,
      List.length_append]
    exact hmade e hall

/-- **The operations of a write that returns 0**: all of them are counted when none fails, and one of
them is missing when the gap at the end of a sparse file is not a number of whole blocks. -/
theorem sparseFileWrite_count {s : SparseFile} {sparse crc : Bool} {f : RawFile}
    {new : RawFile × ℕ}
    (h : sparseFileWrite (faulty_ops fault) env s (f, 0) sparse crc = .ok (0, new)) :
    ((sparse → s.len % s.block_size.toNat = 0) → new.2 ≤ (operations s sparse crc).length ∧
      (Clear fault .ignored 0 (operations s sparse crc) →
        new.2 = (operations s sparse crc).length)) ∧
    (¬ (sparse → s.len % s.block_size.toNat = 0) → new.2 < (operations s sparse crc).length) := by
  obtain ⟨hpos, -, -, out, out', rfl, rfl, hbs, hcount, hall, rfl⟩ := write_started h
  obtain ⟨hkept, haligned, hrefused⟩ := (writeAllBlocks_went hbs hpos).2 out' hall
  obtain ⟨hle, hclear⟩ := @outputFileClose_count fault out'
  rw [hkept.sparse, hkept.use_crc] at hle hclear
  rw [s.pad_emod] at haligned hrefused
  have hpad := ((writeAllBlocks_went hbs hpos).1.mp ⟨out', hall⟩).1
  have hclosing : closingOperations s out.sparse out.use_crc =
      (if 0 < s.pad then [.ignored] else []) ++ endOperations out.sparse out.use_crc :=
    if_neg (not_lt.mpr hpad)
  have hlen : (operations s out.sparse out.use_crc).length = out.dev.2 +
      (blocksOperations out.sparse s.block_size s.blocks 0).length +
        (if 0 < s.pad then [Use.ignored] else []).length +
          (endOperations out.sparse out.use_crc).length := by
    rw [hcount, operations, hclosing]
    simp only [List.length_append, Nat.add_assoc]
  refine ⟨fun hmod => ⟨?_, fun hign => ?_⟩, fun hmod => ?_⟩
  · rw [hlen, ← haligned hmod]
    exact hle
  · rw [hlen, ← haligned hmod]
    refine hclear ?_
    -- The end chunk is the last of the operations, behind those that are counted.
    have hsplit := hign
    rw [operations, hclosing, clear_append, clear_append, clear_append] at hsplit
    have hlast := hsplit.2.2.2
    rw [haligned hmod, hcount]
    simpa only [Nat.zero_add] using hlast
  · rw [hlen]
    have := hrefused hmod
    omega

/-- **A write reports its failures** exactly when it returns an error anyway (a block cannot be written,
or a checked operation fails), or no operation fails whose result is dropped, up to where an assertion
stops the write, and a sparse file that is written to its end is a number of whole blocks. -/
theorem reports_iff {s : SparseFile} {sparse crc : Bool} {f : RawFile} :
    Reports fault env s sparse crc f ↔
      (CanWrite env s sparse → Clear fault .checked 0 (operations s sparse crc) →
        Clear fault .ignored 0 (operations s sparse crc) ∧
          (0 ≤ s.pad → sparse → s.len % s.block_size.toNat = 0)) := by
  have hiff := @sparseFileWrite_faulty fault env s sparse crc f
  constructor
  · intro h hw hchecked
    have hbs := ne_zero_of_toNat_pos hw.block_size_pos
    by_cases hpad : 0 ≤ s.pad
    -- The write returns 0, so none of its operations has failed, and none is missing.
    · obtain ⟨out, hok⟩ := hiff.mpr ⟨hw, hpad, hchecked⟩
      have hmade : made fault env s sparse crc f = out.2 := by rw [made, hok]
      have hlen := h.complete out hok
      refine ⟨fun k hk => ?_, fun _ => ?_⟩
      · by_contra hf
        have hlt := (List.getElem?_eq_some_iff.mp hk).1
        obtain ⟨ret, out', hok', hne⟩ := h.failure ⟨0 + k, by omega, hf⟩
        exact hne (Prod.mk.inj (Except.ok.inj (hok.symm.trans hok'))).1.symm
      · by_contra hmod
        exact absurd hlen ((sparseFileWrite_count hok).2 hmod).ne
    -- The write is stopped, so it returns no error.
    · obtain ⟨hstops, hmade⟩ := @sparseFileWrite_stops fault env s sparse crc f hbs
      obtain ⟨e, he⟩ := hstops.mpr ⟨hw, not_le.mp hpad, hchecked⟩
      refine ⟨fun k hk => ?_, fun h0 => absurd h0 hpad⟩
      by_contra hf
      have hlt := (List.getElem?_eq_some_iff.mp hk).1
      obtain ⟨ret, out', hok', -⟩ := h.failure ⟨0 + k, by rw [hmade e he]; omega, hf⟩
      exact nomatch he.symm.trans hok'
  · intro h
    constructor
    · rintro ⟨k, hk, hf⟩
      cases hrun : sparseFileWrite (faulty_ops fault) env s (f, 0) sparse crc with
      | ok r =>
        obtain ⟨ret, out⟩ := r
        refine ⟨ret, out, rfl, ?_⟩
        rintro rfl
        obtain ⟨hw, hpad, hchecked⟩ := hiff.mp ⟨out, hrun⟩
        obtain ⟨hign, hmod⟩ := h hw hchecked
        have hlen := ((sparseFileWrite_count hrun).1 (hmod hpad)).2 hign
        rw [made, hrun] at hk
        change k < out.2 at hk
        have := hchecked.none hign (hlen ▸ hk)
        rw [Nat.zero_add] at this
        exact hf this
      | error e =>
        exfalso
        by_cases hbs : s.block_size = 0
        · -- Nothing has been made when the number of chunks is a division by zero.
          rw [made, hrun] at hk
          simp only [behindBlocks, sparseCountChunks, hbs, if_true, bind, Except.bind] at hk
          exact Nat.not_lt_zero _ hk
        · obtain ⟨hstops, hmade⟩ := @sparseFileWrite_stops fault env s sparse crc f hbs
          obtain ⟨hw, -, hchecked⟩ := hstops.mp ⟨e, hrun⟩
          have := hchecked.none (h hw hchecked).1 (hmade e hrun ▸ hk)
          rw [Nat.zero_add] at this
          exact hf this
    · intro out hrun
      obtain ⟨hw, hpad, hchecked⟩ := hiff.mp ⟨out, hrun⟩
      obtain ⟨hign, hmod⟩ := h hw hchecked
      exact ((sparseFileWrite_count hrun).1 (hmod hpad)).2 hign

end

/-- An environment in which every file is empty. -/
def noFiles : Env := ⟨fun _ => 0, fun _ => .ok 0, fun _ _ _ => .ok []⟩

/-- The script that fails the second operation, and leaves the file as it is. -/
def failSecond (k : ℕ) : Option (RawFile → RawFile) := if k = 1 then some id else none

/-- The second operation of an image of one gap is the resize in the normal format, and the header of
the gap in the sparse one: its failure is not reported. -/
theorem second_failure_is_dropped :
    ¬ Reports failSecond noFiles (sparseFileNew 4096 4096) false false ⟨[], 0⟩ ∧
      ¬ Reports failSecond noFiles (sparseFileNew 4096 4096) true true ⟨[], 0⟩ := by
  have hfault : failSecond 1 ≠ none := fun h => nomatch h
  have hnormal : ∃ f, sparseFileWrite (faulty_ops failSecond) noFiles (sparseFileNew 4096 4096)
    (⟨[], 0⟩, 0) false false = .ok (0, f, 2) := ⟨_, rfl⟩
  have hsparse : ∃ f, sparseFileWrite (faulty_ops failSecond) noFiles (sparseFileNew 4096 4096)
    (⟨[], 0⟩, 0) true true = .ok (0, f, 4) := ⟨_, rfl⟩
  have hdropped : ∀ {sparse crc f n}, 1 < n → sparseFileWrite (faulty_ops failSecond) noFiles
      (sparseFileNew 4096 4096) (⟨[], 0⟩, 0) sparse crc = .ok (0, f, n) →
        ¬ Reports failSecond noFiles (sparseFileNew 4096 4096) sparse crc ⟨[], 0⟩ := by
    intro sparse crc f n hn hrun h
    obtain ⟨ret, out, hrun', hne⟩ := h.failure ⟨1, by rw [made, hrun]; exact hn, hfault⟩
    exact hne (Prod.mk.inj (Except.ok.inj (hrun.symm.trans hrun'))).1.symm
  obtain ⟨f, hrun⟩ := hnormal
  obtain ⟨f', hrun'⟩ := hsparse
  exact ⟨hdropped (by decide) hrun, hdropped (by decide) hrun'⟩

end AmlogicToolkit.Simg
