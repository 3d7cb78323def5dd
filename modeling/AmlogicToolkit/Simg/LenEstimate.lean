import AmlogicToolkit.Simg.Failures
import AmlogicToolkit.Simg.SizeLimit

/-!
# The length estimate

`sparse_file_len` runs the writers on a callback that counts, `sparse_file_write` on a file. On any
back end that takes every operation and measures it (`Measured`), a write grows by a number that the
blocks determine (`Measured.gains_file`): the counter measures the length of a buffer as an `int`,
the file as it is. The two differ for blocks of data from `2^31` bytes on and, in the normal format,
where `last_block` is not the end of a block (`lenError`), and the estimate is the length when these
errors cancel out (`lenExact_iff`).
-/

namespace AmlogicToolkit.Simg

open Bytes Extents

/-! ## What is claimed -/

/-- A sparse file of disjoint regions of whole blocks inside it. -/
structure SparseFile.WholeRegions (s : SparseFile) : Prop where
  /-- The block size is not zero. -/
  block_size_pos : 0 < s.block_size.toNat
  /-- It is a multiple of 4. -/
  block_size_mod : s.block_size.toNat % 4 = 0
  /-- The length is not negative. -/
  len_nonneg : 0 ≤ s.len
  /-- It is a number of whole blocks. -/
  len_mod : s.len % s.block_size.toNat = 0
  /-- No region is empty. -/
  nonempty : ∀ bb ∈ s.blocks, bb.len ≠ 0
  /-- The regions are whole blocks. -/
  whole : ∀ bb ∈ s.blocks, s.block_size.toNat ∣ bb.len.toNat
  /-- They do not overlap, in the order of the list. -/
  disjoint : Disjoint s.block_size s.blocks
  /-- They lie inside the file. -/
  inside : ∀ bb ∈ s.blocks, ((bb.extent s.block_size).stop : ℤ) ≤ s.len

/-- The estimate is the length of the file that is written. -/
def LenExact (env : Env) (s : SparseFile) (sparse crc : Bool) : Prop :=
  ∃ f, sparseFileWrite file_ops env s ⟨[], 0⟩ sparse crc = .ok (0, f) ∧
    sparseFileLen env s sparse crc = .ok (f.bytes.length : ℤ)

/-- A block that is a fill, or the source of which has its bytes. -/
def CanFetch (env : Env) (bb : BackedBlock) : Prop :=
  (∃ v, bb.source = .fill v) ∨
    ∃ data, fetch env bb.len bb.source = .ok data ∧ bb.len.toNat ≤ data.length

/-- The length of a block of data is negative as an `int` from `2^31` on. -/
def dataError (bb : BackedBlock) : ℤ :=
  match bb.source with
  | .fill _ => 0
  | _ => if 2 ^ 31 ≤ bb.len.toNat then -2 ^ 32 else 0

/-- The bytes from `last_block` to the end of a block: it is not the end where `DIV_ROUND_UP` wraps
around, or where the number of the block at the end takes more than 32 bits. -/
def stopError (bs : UInt32) (bb : BackedBlock) : ℤ :=
  if 2 ^ 32 < bb.len.toNat + bs.toNat then bb.len.toNat
  else if 2 ^ 32 ≤ bb.block.toNat + bb.len.toNat / bs.toNat then 2 ^ 32 * bs.toNat
  else 0

/-- What the estimate has too much for a block. In the sparse format, a gap is a header whatever its
length. -/
def lenError (sparse : Bool) (bs : UInt32) (bb : BackedBlock) : ℤ :=
  dataError bb + if sparse then 0 else stopError bs bb

/-! ## Back ends that measure -/

/-- A back end that takes every operation in the states `ok`, and measures it: the bytes of a write
as `count` says, and those of a skip in the normal format. -/
structure Measured {σ : Type} (ops : OutputFileOps σ) (sparse : Bool) (ok : σ → Prop) (size : σ → ℤ)
    (count : ℕ → ℤ) : Prop where
  /-- A length that fits into an `int` is measured as it is. -/
  small : ∀ n < 2 ^ 31, count n = n
  /-- A write is measured. -/
  write : ∀ dev data len, ok dev → len ≤ data.length → (ops.write dev data len).1 = 0 ∧
    ok (ops.write dev data len).2 ∧ size (ops.write dev data len).2 = size dev + count len
  /-- So is a skip. -/
  skip : ¬ sparse → ∀ dev cnt, ok dev → 0 ≤ cnt → (ops.skip dev cnt).1 = 0 ∧
    ok (ops.skip dev cnt).2 ∧ size (ops.skip dev cnt).2 = size dev + cnt

/-- A function succeeds, and the back end grows by `n`. -/
structure Gains {σ : Type} (ok : σ → Prop) (size : σ → ℤ) (out : OutputFile σ) (n : ℤ)
    (r : ℤ × OutputFile σ) : Prop where
  /-- It succeeds. -/
  ret : r.1 = 0
  /-- What is kept. -/
  kept : Kept out r.2
  /-- The back end takes more. -/
  ok : ok r.2.dev
  /-- What it has grown by. -/
  size : size r.2.dev = size out.dev + n

section

variable {σ : Type} {ops : OutputFileOps σ} {sparse : Bool} {ok : σ → Prop} {size : σ → ℤ}
  {count : ℕ → ℤ} {out : OutputFile σ} {n n' : ℤ} {r next : ℤ × OutputFile σ}

/-- Nothing is done to the back end. -/
theorem gains_none {out' : OutputFile σ} (hok : ok out.dev) (hkept : Kept out out')
    (hdev : out'.dev = out.dev) : Gains ok size out 0 (0, out') :=
  ⟨rfl, hkept, by rwa [hdev], by rw [hdev, add_zero]⟩

/-- Two steps in a row gain the sum of what each gains. -/
theorem Gains.andThen (h : Gains ok size out n r) {c : ℤ} (h' : Gains ok size r.2 n' next) :
    Gains ok size out (n + n') (if r.1 < 0 then (c, r.2) else next) := by
  rw [if_neg (by rw [h.ret]; exact lt_irrefl 0)]
  exact ⟨h'.ret, h.kept.trans h'.kept, h'.ok, by rw [h'.size, h.size, add_assoc]⟩

/-- A gain that is equal to another one is that gain. -/
theorem Gains.congr (h : Gains ok size out n r) (heq : n = n') : Gains ok size out n' r := heq ▸ h

variable (m : Measured ops sparse ok size count)
include m

/-- A write of a full buffer adds what is counted for its length. -/
theorem Measured.gains_write (hok : ok out.dev) {data : List UInt8} {len : ℕ}
    (hlen : len ≤ data.length) : Gains ok size out (count len) (out.write ops data len) := by
  obtain ⟨hret, hok', hsize⟩ := m.write out.dev data len hok hlen
  exact ⟨hret, ⟨rfl, rfl, rfl, rfl⟩, hok', hsize⟩

/-- A skip in the normal format adds its length. -/
theorem Measured.gains_skip (hsparse : ¬ sparse) (hok : ok out.dev) {cnt : ℤ} (hcnt : 0 ≤ cnt) :
    Gains ok size out cnt (out.skip ops cnt) := by
  obtain ⟨hret, hok', hsize⟩ := m.skip hsparse out.dev cnt hok hcnt
  exact ⟨hret, ⟨rfl, rfl, rfl, rfl⟩, hok', hsize⟩

/-- Writing a chunk header gains 12 bytes. -/
theorem Measured.gains_header (hok : ok out.dev) (chunk_header : ChunkHeader) :
    Gains ok size out 12 (out.write ops chunk_header.encode CHUNK_HEADER_LEN) :=
  (m.gains_write hok (ChunkHeader.length_encode _).ge).congr (m.small 12 (by decide))

/-- Writing a word gains four bytes. -/
theorem Measured.gains_word (hok : ok out.dev) (v : UInt32) :
    Gains ok size out 4 (out.write ops (le32 v) 4) :=
  (m.gains_write hok (length_le32 v).ge).congr (m.small 4 (by decide))

/-! ## Chunks -/

/-- A fill chunk adds 16 bytes, the header and the word. -/
theorem Measured.gains_sparseFill (hok : ok out.dev) (len v : UInt32) :
    Gains ok size out 16 (writeSparseFillChunk ops out len v) := by
  unfold writeSparseFillChunk
  extract_lets rnd_up_len chunk_header
  have h1 := m.gains_header hok chunk_header
  split
  next ret1 out1 heq1 =>
  rw [heq1] at h1
  have h2 := m.gains_word h1.ok v
  refine Gains.congr (@Gains.andThen _ _ _ _ _ 4 _ _ h1 (-1) ?_) rfl
  split
  next ret2 out2 heq2 =>
  rw [heq2] at h2
  refine Gains.congr (h2.andThen (gains_none h2.ok ?_ ?_)) (add_zero 4)
  · exact ⟨rfl, rfl, rfl, rfl⟩
  · rfl

/-- `write_sparse_data_chunk`, when the zeros after the data fit into `zero_buf`. -/
theorem Measured.gains_sparseData (hok : ok out.dev) {len : UInt32} {data : List UInt8}
    (hlen : len.toNat ≤ data.length) (hlt : out.block_size.toNat < 2 ^ 31)
    (hsize : zeroSize out.block_size len ≤ out.block_size.toNat) :
    Gains ok size out (12 + (count len.toNat + zeroSize out.block_size len))
      (writeSparseDataChunk ops out len data) := by
  obtain ⟨z, hz⟩ : ∃ z, zeroSize out.block_size len = z := ⟨_, rfl⟩
  rw [hz] at hsize ⊢
  unfold writeSparseDataChunk
  extract_lets rnd_up_len zero_len zero_buf zero_size chunk_header
  have hzero : zero_len = 0 → zero_size = 0 := fun h0 => toNat_emod_of_zero h0 _
  have hbuf : zero_buf.length = out.block_size.toNat := List.length_replicate
  have heq : zero_size = z := hz
  -- Three writes: the header, the data, and the padding where there is some.
  have h1 := m.gains_header hok chunk_header
  split
  next ret1 out1 heq1 =>
  rw [heq1] at h1
  have h2 := m.gains_write h1.ok hlen
  refine @Gains.andThen _ _ _ _ _ (count len.toNat + z) _ _ h1 (-1) ?_
  split
  next ret2 out2 heq2 =>
  rw [heq2] at h2
  refine @Gains.andThen _ _ _ _ _ z _ _ h2 (-1) ?_
  have h3 : Gains ok size out2 z
      (if zero_len ≠ 0 then out2.write ops zero_buf zero_size else (ret2, out2)) := by
    split_ifs with h
    · rw [← heq] at hsize ⊢
      exact (m.gains_write h2.ok (hsize.trans hbuf.ge)).congr (m.small _ (by omega))
    · rw [← heq, hzero (not_ne_iff.mp h)]
      exact ⟨h2.ret, ⟨rfl, rfl, rfl, rfl⟩, h2.ok, (add_zero _).symm⟩
  split
  next ret3 out3 heq3 =>
  rw [heq3] at h3
  refine Gains.congr (h3.andThen (gains_none h3.ok ?_ ?_)) (add_zero _)
  · exact ⟨rfl, rfl, rfl, rfl⟩
  · rfl

/-- `write_normal_data_chunk`, without a skip to the end of the last block. -/
theorem Measured.gains_normalData (hok : ok out.dev) {len : UInt32} {data : List UInt8}
    (hlen : len.toNat ≤ data.length) (halign : ¬ align len out.block_size > len) :
    Gains ok size out (count len.toNat) (writeNormalDataChunk ops out len data) := by
  unfold writeNormalDataChunk
  extract_lets rnd_up_len
  have h1 := m.gains_write hok hlen
  split
  next ret1 out1 heq1 =>
  rw [heq1] at h1
  rw [if_neg halign]
  refine (@Gains.andThen _ _ _ _ _ 0 _ _ h1 ret1 ?_).congr (add_zero _)
  exact ⟨h1.ret, ⟨rfl, rfl, rfl, rfl⟩, h1.ok, (add_zero _).symm⟩

/-- The loop of `write_normal_fill_chunk` writes `len` bytes, a block at a time. -/
theorem Measured.gains_fillLoop {fill_buf : List UInt8} {fuel : ℕ} {len : UInt32} (hok : ok out.dev)
    (hpos : 0 < out.block_size.toNat) (hlt : out.block_size.toNat < 2 ^ 31)
    (hbuf : fill_buf.length = out.block_size.toNat) (hfuel : len.toNat ≤ fuel) :
    Gains ok size out len.toNat (writeFillLoop ops fill_buf fuel out len) := by
  induction fuel generalizing out len with
  | zero =>
    rw [Nat.le_zero.mp hfuel]
    exact gains_none hok ⟨rfl, rfl, rfl, rfl⟩ rfl
  | succ fuel ih =>
    unfold writeFillLoop
    by_cases hlen : len ≠ 0
    · have hpos' := toNat_pos_of_ne_zero hlen
      rw [if_pos hlen]
      extract_lets write_len
      -- A pass writes a block at most, and the length counts as itself then.
      have hmin : write_len.toNat = min len.toNat out.block_size.toNat := uint32_toNat_min _ _
      have hrest : (len - write_len).toNat = len.toNat - write_len.toNat :=
        uint32_toNat_sub_min _ _
      have h1 : Gains ok size out write_len.toNat (out.write ops fill_buf write_len.toNat) :=
        (m.gains_write hok (by omega)).congr (m.small _ (by omega))
      split
      next ret1 out1 heq1 =>
      rw [heq1] at h1
      have hsize : out1.block_size = out.block_size := h1.kept.block_size
      refine Gains.congr (h1.andThen (@ih out1 (len - write_len) h1.ok ?_ ?_ ?_ ?_)) ?_
      · rwa [hsize]
      · rwa [hsize]
      · rwa [hsize]
      · omega
      · rw [hrest]
        omega
    · rw [if_neg hlen, not_ne_iff.mp hlen]
      exact gains_none hok ⟨rfl, rfl, rfl, rfl⟩ rfl

/-- What the output grows by with a gap. -/
def skipGain (sparse : Bool) (skip_len : ℤ) : ℤ := if sparse then 12 else skip_len

/-- A gap of whole blocks adds its header, or its length in the normal format. -/
theorem Measured.gains_skipChunk (hs : out.sparse = sparse) (hok : ok out.dev) {skip_len : ℤ}
    (hmod : skip_len % out.block_size.toNat = 0) (hnn : 0 ≤ skip_len) :
    Gains ok size out (skipGain sparse skip_len) (writeSkipChunk ops out skip_len) := by
  unfold writeSkipChunk skipGain
  rw [hs]
  by_cases hsparse : sparse
  · rw [if_pos hsparse, if_pos hsparse]
    unfold writeSparseSkipChunk
    rw [if_neg (not_not.mpr hmod)]
    extract_lets chunk_header
    have h1 := m.gains_header hok chunk_header
    split
    next ret1 out1 heq1 =>
    rw [heq1] at h1
    refine Gains.congr (h1.andThen (gains_none h1.ok ?_ ?_)) (add_zero 12)
    · exact ⟨rfl, rfl, rfl, rfl⟩
    · rfl
  · rw [if_neg hsparse, if_neg hsparse]
    exact m.gains_skip hsparse hok hnn

end

/-! ## Whole blocks -/

section

variable {bs len : UInt32}

/-- `DIV_ROUND_UP` on whole blocks: it wraps around to 0 when there is no room for another block. -/
theorem divRoundUp_whole (hpos : 0 < bs.toNat) (hdvd : bs.toNat ∣ len.toNat) :
    (divRoundUp len bs).toNat =
      if 2 ^ 32 < len.toNat + bs.toNat then 0 else len.toNat / bs.toNat := by
  have hne := ne_zero_of_toNat_pos hpos
  split_ifs with hwrap
  · have hlen := len.toNat_lt
    have hbs := bs.toNat_lt
    have hsum : (len + bs - 1).toNat = len.toNat + bs.toNat - 1 - 2 ^ 32 := by
      rw [UInt32.toNat_sub, UInt32.toNat_add, UInt32.toNat_one]
      omega
    rw [divRoundUp, UInt32.toNat_div, hsum, Nat.div_eq_of_lt (by omega)]
  · obtain ⟨k, hk⟩ := hdvd
    rw [divRoundUp_toNat hne (by omega), hk, Nat.mul_div_cancel_left k hpos, Nat.add_sub_assoc hpos,
      Nat.mul_add_div hpos, Nat.div_eq_of_lt (by omega), Nat.add_zero]

/-- `ALIGN` leaves whole blocks as they are, unless the sum in it wraps: then it gives 0. -/
theorem align_whole (hpos : 0 < bs.toNat) (hdvd : bs.toNat ∣ len.toNat) :
    (align len bs).toNat = if 2 ^ 32 < len.toNat + bs.toNat then 0 else len.toNat := by
  have hlen := len.toNat_lt
  rw [align, UInt32.toNat_mul, divRoundUp_whole hpos hdvd]
  split_ifs
  · rfl
  · rw [Nat.mul_div_cancel' hdvd]
    exact Nat.mod_eq_of_lt hlen

/-- In the normal format there is no skip behind whole blocks. -/
theorem not_align_gt (hpos : 0 < bs.toNat) (hdvd : bs.toNat ∣ len.toNat) : ¬ align len bs > len := by
  rw [gt_iff_lt, UInt32.lt_iff_toNat_lt, align_whole hpos hdvd]
  split_ifs
  · exact Nat.not_lt_zero _
  · exact lt_irrefl _

/-- In the sparse format the zeros behind whole blocks are less than a block. -/
theorem zeroSize_le (hpos : 0 < bs.toNat) (hlt : bs.toNat < 2 ^ 31) (hdvd : bs.toNat ∣ len.toNat) :
    zeroSize bs len ≤ bs.toNat := by
  have hlen := len.toNat_lt
  have halign := align_whole hpos hdvd
  have hsub : (align len bs - len).toNat =
      if 2 ^ 32 < len.toNat + bs.toNat then 2 ^ 32 - len.toNat else 0 := by
    rw [UInt32.toNat_sub, halign]
    split_ifs <;> omega
  have hle : (align len bs - len).toNat ≤ bs.toNat := by
    rw [hsub]
    split_ifs <;> omega
  unfold zeroSize
  rw [toInt_of_lt (hle.trans_lt hlt)]
  omega

end

/-! ## Blocks -/

/-- What the output grows by with a block. -/
def blockGain (count : ℕ → ℤ) (sparse : Bool) (bs : UInt32) (bb : BackedBlock) : ℤ :=
  match bb.source with
  | .fill _ => if sparse then 16 else bb.len.toNat
  | _ => if sparse then 12 + (count bb.len.toNat + zeroSize bs bb.len) else count bb.len.toNat

/-- What the output grows by with the gap in front of a block. -/
def gapGain (sparse : Bool) (bs last : UInt32) (bb : BackedBlock) : ℤ :=
  if bb.block > last then skipGain sparse ((bb.block - last).toNat * bs.toNat) else 0

/-- What the output grows by with the blocks of a list, and the gaps in front of them. -/
def blocksGain (count : ℕ → ℤ) (sparse : Bool) (bs : UInt32) : List BackedBlock → UInt32 → ℤ
  | [], _ => 0
  | bb :: l, last => gapGain sparse bs last bb + (blockGain count sparse bs bb +
      blocksGain count sparse bs l (bb.block + divRoundUp bb.len bs))

section

variable {σ : Type} {ops : OutputFileOps σ} {sparse : Bool} {ok : σ → Prop} {size : σ → ℤ}
  {count : ℕ → ℤ} {out : OutputFile σ} {env : Env} {bs : UInt32} {bb : BackedBlock}
  {l : List BackedBlock}

section

variable (m : Measured ops sparse ok size count)
include m

/-- A data block of whole blocks adds what is counted for it. -/
theorem Measured.gains_dataChunk (hs : out.sparse = sparse) (hbs : out.block_size = bs)
    (hok : ok out.dev) (hpos : 0 < bs.toNat) (hlt : bs.toNat < 2 ^ 31)
    (hdvd : bs.toNat ∣ bb.len.toNat) (hsrc : ∀ v, bb.source ≠ .fill v) {data : List UInt8}
    (hlen : bb.len.toNat ≤ data.length) :
    Gains ok size out (blockGain count sparse bs bb) (writeDataChunk ops out bb.len data) := by
  have hgain : blockGain count sparse bs bb =
      if sparse then 12 + (count bb.len.toNat + zeroSize bs bb.len) else count bb.len.toNat := by
    unfold blockGain
    split
    next v h => exact absurd h (hsrc v)
    next => rfl
  subst hbs
  rw [hgain]
  unfold writeDataChunk
  rw [hs]
  split_ifs
  · exact m.gains_sparseData hok hlen hlt (zeroSize_le hpos hlt hdvd)
  · exact m.gains_normalData hok hlen (not_align_gt hpos hdvd)

/-- A fill of whole blocks adds what is counted for it. -/
theorem Measured.gains_fillChunk (hs : out.sparse = sparse) (hbs : out.block_size = bs)
    (hok : ok out.dev) (hpos : 0 < bs.toNat) (hlt : bs.toNat < 2 ^ 31) {v : UInt32}
    (hsrc : bb.source = .fill v) :
    Gains ok size out (blockGain count sparse bs bb) (writeFillChunk ops out bb.len v) := by
  have hgain : blockGain count sparse bs bb = if sparse then 16 else (bb.len.toNat : ℤ) := by
    unfold blockGain
    rw [hsrc]
  subst hbs
  rw [hgain]
  unfold writeFillChunk
  rw [hs]
  split_ifs
  · exact m.gains_sparseFill hok bb.len v
  · exact m.gains_fillLoop hok hpos hlt (length_fillBuf _ _) (le_refl _)

/-- **One block** of whole blocks gains what is counted for it, in either format. -/
theorem Measured.gains_block (hs : out.sparse = sparse) (hbs : out.block_size = bs)
    (hok : ok out.dev) (hpos : 0 < bs.toNat) (hlt : bs.toNat < 2 ^ 31)
    (hdvd : bs.toNat ∣ bb.len.toNat) (hfetch : CanFetch env bb) :
    Gains ok size out (blockGain count sparse bs bb) (sparseFileWriteBlock ops env out bb) := by
  rw [sparseFileWriteBlock_fetch]
  rcases hfetch with ⟨v, hsrc⟩ | ⟨data, hdata, hlen⟩
  · rw [hsrc]
    exact m.gains_fillChunk hs hbs hok hpos hlt hsrc
  · split
    next v hsrc => exact m.gains_fillChunk hs hbs hok hpos hlt hsrc
    next source hsrc =>
      rw [hdata]
      exact m.gains_dataChunk hs hbs hok hpos hlt hdvd hsrc hlen

/-- **All blocks** of a list gain the sum of what is counted for them and for their gaps. -/
theorem Measured.gains_blocks (hs : out.sparse = sparse) (hbs : out.block_size = bs)
    (hok : ok out.dev) (hpos : 0 < bs.toNat) (hlt : bs.toNat < 2 ^ 31)
    (hdvd : ∀ bb ∈ l, bs.toNat ∣ bb.len.toNat) (hfetch : ∀ bb ∈ l, CanFetch env bb) (last : UInt32) :
    ∃ out', writeBlocks ops env bs l last out = (0, lastBlock bs l last, out') ∧
      Gains ok size out (blocksGain count sparse bs l last) (0, out') := by
  induction l generalizing out last with
  | nil => exact ⟨out, rfl, gains_none hok ⟨rfl, rfl, rfl, rfl⟩ rfl⟩
  | cons bb l ih =>
    unfold writeBlocks
    extract_lets out0
    -- The gap in front is counted, and the result of its skip is dropped.
    have h0 : Gains ok size out (gapGain sparse bs last bb) (0, out0) := by
      unfold gapGain
      by_cases hgt : bb.block > last
      · have hmod : ((bb.block - last).toNat * bs.toNat : ℤ) % out.block_size.toNat = 0 := by
          rw [hbs]
          exact Int.mul_emod_left _ _
        have hskip := m.gains_skipChunk hs hok hmod
          (Int.mul_nonneg (Int.natCast_nonneg _) (Int.natCast_nonneg _))
        simp only [out0, if_pos hgt]
        exact ⟨rfl, hskip.kept, hskip.ok, hskip.size⟩
      · simp only [out0, if_neg hgt]
        exact gains_none hok ⟨rfl, rfl, rfl, rfl⟩ rfl
    have h1 := m.gains_block (h0.kept.sparse.trans hs) (h0.kept.block_size.trans hbs) h0.ok hpos hlt
      (hdvd bb List.mem_cons_self) (hfetch bb List.mem_cons_self)
    split
    next ret1 out1 heq1 =>
    rw [heq1] at h1
    obtain rfl : ret1 = 0 := h1.ret
    have h01 := h0.kept.trans h1.kept
    obtain ⟨out', heq, h2⟩ := ih (h01.sparse.trans hs) (h01.block_size.trans hbs) h1.ok
      (fun c hc => hdvd c (List.mem_cons_of_mem _ hc))
      (fun c hc => hfetch c (List.mem_cons_of_mem _ hc)) (bb.block + divRoundUp bb.len bs)
    rw [if_neg (not_not.mpr rfl), heq]
    refine ⟨out', rfl, rfl, h01.trans h2.kept, h2.ok, ?_⟩
    rw [h2.size, h1.size, h0.size, blocksGain, add_assoc, add_assoc]

end

/-! ## Where the blocks end -/

/-- What the end of a block is short of is never negative. -/
theorem stopError_nonneg (bs : UInt32) (bb : BackedBlock) : 0 ≤ stopError bs bb := by
  unfold stopError
  split_ifs
  · exact Int.natCast_nonneg _
  · exact Int.mul_nonneg (by decide) (Int.natCast_nonneg _)
  · exact le_refl _

/-- Where a block ends and where `last_block` is then. -/
theorem last_block_stop (hpos : 0 < bs.toNat) (hdvd : bs.toNat ∣ bb.len.toNat) :
    ((bb.block + divRoundUp bb.len bs).toNat * bs.toNat : ℤ) + stopError bs bb =
      ((bb.extent bs).stop : ℕ) := by
  have hblock := bb.block.toNat_lt
  have hlen := bb.len.toNat_lt
  have hstop : (bb.extent bs).stop = bb.block.toNat * bs.toNat + bb.len.toNat := rfl
  rw [hstop, UInt32.toNat_add, divRoundUp_whole hpos hdvd]
  unfold stopError
  obtain ⟨k, hk⟩ := hdvd
  have hdiv : bb.len.toNat / bs.toNat = k := by rw [hk, Nat.mul_div_cancel_left k hpos]
  have hkle : k ≤ bb.len.toNat := hdiv ▸ Nat.div_le_self _ _
  rw [hdiv]
  -- The three cases of `stopError`: the round-up wraps, the block number does, or neither.
  split_ifs with hwrap htop
  · rw [Nat.add_zero, Nat.mod_eq_of_lt hblock]
    push_cast
    rfl
  · have hmod : (bb.block.toNat + k) % 2 ^ 32 = bb.block.toNat + k - 2 ^ 32 := by omega
    rw [hmod, hk, Nat.cast_sub htop]
    push_cast
    ring
  · rw [Nat.mod_eq_of_lt (not_le.mp htop), hk]
    push_cast
    ring

/-- `last_block` is not behind the end of the blocks. -/
theorem lastBlock_le (hpos : 0 < bs.toNat) (hdvd : ∀ bb ∈ l, bs.toNat ∣ bb.len.toNat) {n : ℤ}
    (hin : ∀ bb ∈ l, ((bb.extent bs).stop : ℤ) ≤ n) {last : UInt32}
    (hlast : (last.toNat * bs.toNat : ℤ) ≤ n) :
    ((lastBlock bs l last).toNat * bs.toNat : ℤ) ≤ n := by
  induction l generalizing last with
  | nil => exact hlast
  | cons bb l ih =>
    refine ih (fun c hc => hdvd c (List.mem_cons_of_mem _ hc))
      (fun c hc => hin c (List.mem_cons_of_mem _ hc)) ?_
    have hstop := last_block_stop hpos (hdvd bb List.mem_cons_self)
    have hle := hin bb List.mem_cons_self
    have := stopError_nonneg bs bb
    omega

/-- Whole regions leave a length to the end that is not negative. -/
theorem SparseFile.WholeRegions.pad_nonneg {s : SparseFile} (h : s.WholeRegions) : 0 ≤ s.pad := by
  have hlast : ((0 : UInt32).toNat * s.block_size.toNat : ℤ) ≤ s.len := by
    rw [UInt32.toNat_zero, Nat.cast_zero, zero_mul]
    exact h.len_nonneg
  have hle := lastBlock_le h.block_size_pos h.whole h.inside hlast
  unfold SparseFile.pad
  omega

/-! ## The whole output -/

/-- What the output grows by with the file header. -/
def headerGain (sparse : Bool) : ℤ := if sparse then 28 else 0

/-- What the output grows by with the gap at the end. -/
def SparseFile.padGain (s : SparseFile) (sparse : Bool) : ℤ :=
  if 0 < s.pad then skipGain sparse s.pad else 0

/-- What the output grows by, without the end chunk. -/
def SparseFile.gain (s : SparseFile) (count : ℕ → ℤ) (sparse : Bool) : ℤ :=
  headerGain sparse + (blocksGain count sparse s.block_size s.blocks 0 + s.padGain sparse)

section

variable (m : Measured ops sparse ok size count) {s : SparseFile}
include m

/-- `output_file_init` writes the file header in the sparse format. -/
theorem Measured.gains_init {dev : σ} (hok : ok dev) (hpos : 0 < bs.toNat) (hlt : bs.toNat < 2 ^ 31)
    (len : ℤ) (chunks : UInt32) (crc : Bool) :
    ∃ out, outputFileInit ops dev bs len sparse chunks crc = .ok (0, out) ∧ out.sparse = sparse ∧
      out.use_crc = crc ∧ out.block_size = bs ∧ out.len = len ∧ ok out.dev ∧
      size out.dev = size dev + headerGain sparse := by
  have hne := ne_zero_of_toNat_pos hpos
  unfold outputFileInit headerGain
  extract_lets out sparse_header
  rw [if_neg (not_le.mpr hlt)]
  by_cases hs : sparse
  · rw [if_pos hs, if_pos hs, if_neg hne]
    have h1 : Gains ok size out 28 (out.write ops sparse_header.encode SPARSE_HEADER_LEN) :=
      (m.gains_write hok (SparseHeader.length_encode _).ge).congr (m.small 28 (by decide))
    obtain ⟨⟨ret1, out1⟩, heq1⟩ : ∃ r, out.write ops sparse_header.encode SPARSE_HEADER_LEN = r :=
      ⟨_, rfl⟩
    rw [heq1] at h1 ⊢
    obtain rfl : ret1 = 0 := h1.ret
    exact ⟨out1, rfl, h1.kept.sparse, h1.kept.use_crc, h1.kept.block_size, h1.kept.len, h1.ok,
      h1.size⟩
  · rw [if_neg hs, if_neg hs]
    exact ⟨out, rfl, rfl, rfl, rfl, rfl, hok, (add_zero _).symm⟩

/-- `write_all_blocks` writes the blocks, and the gap at the end. -/
theorem Measured.gains_allBlocks (h : s.WholeRegions) (hs : out.sparse = sparse)
    (hbs : out.block_size = s.block_size) (hok : ok out.dev) (hlt : s.block_size.toNat < 2 ^ 31)
    (hfetch : ∀ bb ∈ s.blocks, CanFetch env bb) :
    ∃ out', writeAllBlocks ops env s out = .ok (0, out') ∧
      Gains ok size out (blocksGain count sparse s.block_size s.blocks 0 + s.padGain sparse)
        (0, out') := by
  obtain ⟨out1, heq, h1⟩ := m.gains_blocks hs hbs hok h.block_size_pos hlt h.whole hfetch 0
  have heq' : writeBlocks ops env s.block_size s.backed_block_list.data_blocks 0 out =
    (0, lastBlock s.block_size s.blocks 0, out1) := heq
  have hpad : s.len - (lastBlock s.block_size s.blocks 0).toNat * s.block_size.toNat = s.pad := rfl
  unfold writeAllBlocks
  rw [heq']
  simp only [hpad]
  rw [if_neg (not_not.mpr rfl), if_neg (not_lt.mpr h.pad_nonneg)]
  unfold SparseFile.padGain
  by_cases hgap : 0 < s.pad
  · have hmod : s.pad % out1.block_size.toNat = 0 := by
      rw [h1.kept.block_size, hbs, s.pad_emod, h.len_mod]
    have h2 := m.gains_skipChunk (h1.kept.sparse.trans hs) h1.ok hmod h.pad_nonneg
    rw [if_pos hgap, if_pos hgap]
    exact ⟨_, rfl, rfl, h1.kept.trans h2.kept, h2.ok, by rw [h2.size, h1.size, add_assoc]⟩
  · rw [if_neg hgap, if_neg hgap, add_zero]
    exact ⟨out1, rfl, h1⟩

/-- **The output before it is closed.** -/
theorem Measured.gains_file (h : s.WholeRegions) (dev : σ) (hok : ok dev)
    (hlt : s.block_size.toNat < 2 ^ 31) (hfetch : ∀ bb ∈ s.blocks, CanFetch env bb) (crc : Bool) :
    ∃ chunks out out', sparseCountChunks s = .ok chunks ∧
      outputFileInit ops dev s.block_size s.len sparse chunks crc = .ok (0, out) ∧
      writeAllBlocks ops env s out = .ok (0, out') ∧ out'.sparse = sparse ∧ out'.use_crc = crc ∧
      out'.len = s.len ∧ ok out'.dev ∧ size out'.dev = size dev + s.gain count sparse := by
  obtain ⟨chunks, hchunks⟩ := sparseCountChunks_ok (ne_zero_of_toNat_pos h.block_size_pos)
  obtain ⟨out, hinit, hs, hcrc, hbs, hlen, hok0, hsize⟩ :=
    m.gains_init hok h.block_size_pos hlt s.len chunks crc
  obtain ⟨out', hall, h1⟩ := m.gains_allBlocks h hs hbs hok0 hlt hfetch
  refine ⟨chunks, out, out', hchunks, hinit, hall, h1.kept.sparse.trans hs,
    h1.kept.use_crc.trans hcrc, h1.kept.len.trans hlen, h1.ok, ?_⟩
  rw [h1.size, hsize, SparseFile.gain, add_assoc]

/-- `output_file_close` writes the checksum chunk in the sparse format. -/
theorem Measured.gains_close (hs : out.sparse = true) (hok : ok out.dev) :
    ok (outputFileClose ops out).dev ∧
      size (outputFileClose ops out).dev = size out.dev + crcSize out.use_crc := by
  unfold outputFileClose writeSparseEndChunk crcSize
  rw [if_pos hs]
  by_cases hc : out.use_crc
  · rw [if_pos hc, if_pos hc]
    extract_lets chunk_header
    -- The header of the checksum chunk, and its word.
    have h1 := m.gains_header hok chunk_header
    split
    next ret1 out1 heq1 =>
    rw [heq1] at h1
    obtain rfl : ret1 = 0 := h1.ret
    have h2 := m.gains_word h1.ok out1.crc32
    rw [if_neg (lt_irrefl 0)]
    split
    next ret2 out2 heq2 =>
    rw [heq2] at h2
    rw [if_neg (lt_irrefl 0)]
    refine ⟨h2.ok, h2.size.trans ?_⟩
    rw [h1.size, add_assoc]
    rfl
  · rw [if_neg hc, if_neg hc]
    exact ⟨hok, (add_zero _).symm⟩

end

end

/-! ## The counter and the file -/

/-- The loop of `callback_file_skip` counts all bytes, in steps that fit into an `int`. -/
theorem callbackFileSkip_counter {fuel : ℕ} {dev cnt : ℤ} (hcnt : 0 ≤ cnt)
    (hfuel : cnt.toNat ≤ fuel) :
    callbackFileSkip outCounterWrite fuel dev cnt = (0, dev + cnt) := by
  induction fuel generalizing dev cnt with
  | zero =>
    have h0 : cnt = 0 := by omega
    rw [h0, add_zero]
    rfl
  | succ fuel ih =>
    unfold callbackFileSkip
    by_cases hpos : cnt > 0
    · have hone : 1 ≤ INT_MAX := by decide
      rw [if_pos hpos]
      extract_lets to_write r
      have hr : r = (0, dev + to_write) := rfl
      have hle : to_write ≤ cnt := min_le_left _ _
      have hlow : 1 ≤ to_write := le_min hpos hone
      rw [hr, if_neg (lt_irrefl 0), ih (by omega) (by omega)]
      congr 1
      ring
    · have h0 : cnt = 0 := by omega
      rw [if_neg hpos, h0, add_zero]

/-- The counter measures the length of a buffer as an `int`. -/
theorem counter_measured (sparse : Bool) :
    Measured counter_ops sparse (fun _ => True) id fun n => toInt n where
  small _ hn := toInt_of_lt hn
  write _ _ _ _ _ := ⟨rfl, trivial, rfl⟩
  skip _ dev cnt _ hcnt := by
    have hrun : counter_ops.skip dev cnt = (0, dev + cnt) :=
      callbackFileSkip_counter hcnt (le_refl _)
    rw [hrun]
    exact ⟨rfl, trivial, rfl⟩

/-- A write of a full buffer returns 0. -/
theorem fileWrite_ret {f : RawFile} {data : List UInt8} {len : ℕ} (hlen : len ≤ data.length) :
    (fileWrite f data len).1 = 0 := if_neg (not_lt.mpr hlen)

/-- The front of a list that is long enough has the length asked for. -/
theorem length_take_of_le {data : List UInt8} {len : ℕ} (hlen : len ≤ data.length) :
    (data.take len).length = len := by rw [List.length_take, Nat.min_eq_left hlen]

/-- In the sparse format a file is measured by its length: there is nothing behind the offset. -/
theorem file_measured_sparse : Measured file_ops true (fun f => f.pos = f.bytes.length)
    (fun f => f.bytes.length) fun n => n where
  small _ _ := rfl
  write dev data len hok hlen := by
    have hbytes : (file_ops.write dev data len).2.bytes = dev.bytes ++ data.take len := by
      change overwrite 0 dev.bytes dev.pos (data.take len) = _
      rw [hok, overwrite_length]
    have hpos : (file_ops.write dev data len).2.pos = dev.pos + len :=
      congrArg (dev.pos + ·) (length_take_of_le hlen)
    have hlength : (file_ops.write dev data len).2.bytes.length = dev.bytes.length + len := by
      rw [hbytes, List.length_append, length_take_of_le hlen]
    exact ⟨fileWrite_ret hlen, by rw [hpos, hlength, hok], by rw [hlength, Nat.cast_add]⟩
  skip h := absurd rfl h

/-- In the normal format a file is measured by the offset. -/
theorem file_measured_normal :
    Measured file_ops false (fun _ => True) (fun f => f.pos) fun n => n where
  small _ _ := rfl
  write dev data len _ hlen := by
    have hpos : (file_ops.write dev data len).2.pos = dev.pos + len :=
      congrArg (dev.pos + ·) (length_take_of_le hlen)
    exact ⟨fileWrite_ret hlen, trivial, by rw [hpos, Nat.cast_add]⟩
  skip _ dev cnt _ hcnt := by
    have hrun : fileSkip dev cnt = (0, { dev with pos := ((dev.pos : ℤ) + cnt).toNat }) :=
      if_neg (by omega)
    change (fileSkip dev cnt).1 = 0 ∧ True ∧ ((fileSkip dev cnt).2.pos : ℤ) = dev.pos + cnt
    rw [hrun]
    exact ⟨rfl, trivial, Int.toNat_of_nonneg (by omega)⟩

section

variable {env : Env} {s : SparseFile}

/-- **The estimate** is the gain of the file, with the lengths as `int`, and the checksum chunk in
the sparse format. -/
theorem sparseFileLen_eq (h : s.WholeRegions) (hlt : s.block_size.toNat < 2 ^ 31)
    (hfetch : ∀ bb ∈ s.blocks, CanFetch env bb) (sparse crc : Bool) :
    sparseFileLen env s sparse crc =
      .ok (s.gain (fun n => toInt n) sparse + if sparse then (crcSize crc : ℤ) else 0) := by
  obtain ⟨chunks, out, out', hchunks, hinit, hall, hs, hcrc, -, hok, hsize⟩ :=
    (counter_measured sparse).gains_file h 0 trivial hlt hfetch crc
  have hrun : sparseFileLen env s sparse crc = .ok (outputFileClose counter_ops out').dev := by
    simp only [sparseFileLen, hchunks, hinit, hall, bind, Except.bind, lt_irrefl, if_false]
    rfl
  have hdev : out'.dev = s.gain (fun n => toInt n) sparse := hsize.trans (zero_add _)
  rw [hrun]
  by_cases hsparse : sparse
  · have hclose : (outputFileClose counter_ops out').dev = out'.dev + crcSize out'.use_crc :=
      ((counter_measured sparse).gains_close (hs.trans hsparse) hok).2
    rw [if_pos hsparse, hclose, hcrc, hdev]
  · have hclose : (outputFileClose counter_ops out').dev = out'.dev := by
      unfold outputFileClose
      rw [hs, if_neg hsparse]
      rfl
    rw [if_neg hsparse, hclose, hdev, add_zero]

/-- **The length of the file.** In the normal format it is set at the end. -/
theorem sparseFileWrite_size (h : s.WholeRegions) (hlt : s.block_size.toNat < 2 ^ 31)
    (hfetch : ∀ bb ∈ s.blocks, CanFetch env bb) (sparse crc : Bool) :
    ∃ f, sparseFileWrite file_ops env s ⟨[], 0⟩ sparse crc = .ok (0, f) ∧
      (f.bytes.length : ℤ) = if sparse then s.gain (fun n => n) true + crcSize crc else s.len := by
  -- In the sparse format the size is what the chunks add up to, in the normal one it is the length.
  cases sparse with
  | true =>
    obtain ⟨chunks, out, out', hchunks, hinit, hall, hs, hcrc, -, hok, hsize⟩ :=
      file_measured_sparse.gains_file h ⟨[], 0⟩ rfl hlt hfetch crc
    obtain ⟨-, hclose⟩ := file_measured_sparse.gains_close hs hok
    refine ⟨_, sparseFileWrite_eq hchunks hinit hall, ?_⟩
    rw [hclose, hsize, hcrc, if_pos rfl]
    exact congrArg (· + (crcSize crc : ℤ)) (zero_add _)
  | false =>
    obtain ⟨chunks, out, out', hchunks, hinit, hall, hs, -, hlen, -, -⟩ :=
      file_measured_normal.gains_file h ⟨[], 0⟩ trivial hlt hfetch crc
    refine ⟨_, sparseFileWrite_eq hchunks hinit hall, ?_⟩
    have hnn := h.len_nonneg
    have hclose : (outputFileClose file_ops out').dev.bytes =
        (filePad out'.dev out'.len).2.bytes := by
      unfold outputFileClose
      rw [hs, if_neg Bool.false_ne_true]
      rfl
    rw [hclose, hlen, filePad, if_neg (not_lt.mpr hnn), if_neg Bool.false_ne_true, length_resize]
    exact Int.toNat_of_nonneg hnn

/-! ## The errors -/

/-- A length is itself as an `int`, and 2^32 less from `2^31` on. -/
theorem toInt_len (len : UInt32) :
    toInt len.toNat = len.toNat + if 2 ^ 31 ≤ len.toNat then -2 ^ 32 else 0 := by
  have hlt := len.toNat_lt
  unfold toInt
  split_ifs <;> omega

variable {bs : UInt32} {l : List BackedBlock}

/-- In the sparse format the estimate has the errors of the data too much. -/
theorem blocksGain_sparse (last : UInt32) : blocksGain (fun n => toInt n) true bs l last =
    blocksGain (fun n => n) true bs l last + (l.map (lenError true bs)).sum := by
  induction l generalizing last with
  | nil => rfl
  | cons bb l ih =>
    have hblock : blockGain (fun n => toInt n) true bs bb =
        blockGain (fun n => n) true bs bb + lenError true bs bb := by
      unfold blockGain lenError dataError
      cases bb.source <;> simp only [if_true, toInt_len] <;> ring
    rw [blocksGain, blocksGain, List.map_cons, List.sum_cons, ih, hblock]
    ring

/-- The errors of the sparse format are those of the data alone, and do not cancel out. -/
theorem sum_lenError_sparse : (l.map (lenError true bs)).sum ≤ 0 ∧
    ((l.map (lenError true bs)).sum = 0 ↔ ∀ bb ∈ l, dataError bb = 0) := by
  induction l with
  | nil => exact ⟨le_refl _, iff_of_true rfl fun bb hbb => absurd hbb List.not_mem_nil⟩
  | cons bb l ih =>
    obtain ⟨hle, hiff⟩ := ih
    have hbb : lenError true bs bb = dataError bb := add_zero _
    have hnonpos : dataError bb ≤ 0 := by
      unfold dataError
      split
      · exact le_refl _
      · split_ifs <;> decide
    rw [List.map_cons, List.sum_cons, List.forall_mem_cons, hbb, ← hiff]
    omega

/-- A block of the normal format, from where it starts to where `last_block` is behind it. -/
theorem blockGain_normal (hpos : 0 < bs.toNat) {bb : BackedBlock} (hdvd : bs.toNat ∣ bb.len.toNat) :
    blockGain (fun n => toInt n) false bs bb =
      (bb.block + divRoundUp bb.len bs).toNat * bs.toNat - bb.block.toNat * bs.toNat +
        lenError false bs bb := by
  have hblock : blockGain (fun n => toInt n) false bs bb = bb.len.toNat + dataError bb := by
    unfold blockGain dataError
    cases bb.source <;> simp only [toInt_len, Bool.false_eq_true, if_false, add_zero]
  have hstop := last_block_stop hpos hdvd
  rw [BackedBlock.extent_stop] at hstop
  push_cast at hstop
  rw [hblock, lenError, if_neg Bool.false_ne_true]
  omega

/-- **In the normal format** the estimate counts what is between the first and the last block, and
the errors. -/
theorem blocksGain_normal (hpos : 0 < bs.toNat) (hdvd : ∀ bb ∈ l, bs.toNat ∣ bb.len.toNat)
    (hd : Disjoint bs l) {last : UInt32} (hlast : ∀ bb ∈ l, last.toNat ≤ bb.block.toNat) :
    blocksGain (fun n => toInt n) false bs l last = (lastBlock bs l last).toNat * bs.toNat -
      last.toNat * bs.toNat + (l.map (lenError false bs)).sum := by
  induction l generalizing last with
  | nil =>
    change (0 : ℤ) = last.toNat * bs.toNat - last.toNat * bs.toNat + 0
    rw [sub_self, add_zero]
  | cons bb l ih =>
    obtain ⟨hbefore, hd'⟩ := List.pairwise_cons.mp hd
    have hdvd' := hdvd bb List.mem_cons_self
    have hle := hlast bb List.mem_cons_self
    -- A gap is what is between the two blocks.
    have hgap : gapGain false bs last bb = bb.block.toNat * bs.toNat - last.toNat * bs.toNat := by
      have hsub : ((bb.block - last).toNat : ℤ) = bb.block.toNat - last.toNat := by
        rw [UInt32.toNat_sub_of_le _ _ (UInt32.le_iff_toNat_le.mpr hle), Nat.cast_sub hle]
      unfold gapGain
      by_cases hgt : bb.block > last
      · rw [if_pos hgt, skipGain, if_neg Bool.false_ne_true, hsub, sub_mul]
      · have heq : bb.block.toNat = last.toNat := by
          rw [gt_iff_lt, UInt32.lt_iff_toNat_lt] at hgt
          omega
        rw [if_neg hgt, heq, sub_self]
    -- `last_block` is not behind the next block.
    have hnext : ∀ c ∈ l, (bb.block + divRoundUp bb.len bs).toNat ≤ c.block.toNat := by
      intro c hc
      have hstop := last_block_stop hpos hdvd'
      have hnn := stopError_nonneg bs bb
      have hc' : ((bb.extent bs).stop : ℤ) ≤ (c.block.toNat * bs.toNat : ℕ) :=
        Int.ofNat_le.mpr (hbefore c hc)
      refine Nat.le_of_mul_le_mul_right (Int.ofNat_le.mp ?_) hpos
      push_cast at hc' ⊢
      omega
    have hrest := ih (fun c hc => hdvd c (List.mem_cons_of_mem _ hc)) hd' hnext
    rw [blocksGain, hgap, blockGain_normal hpos hdvd', hrest, lastBlock, List.map_cons,
      List.sum_cons]
    ring

/-- **The estimate has the errors of the blocks too much.** -/
theorem SparseFile.WholeRegions.gain_eq (h : s.WholeRegions) (sparse : Bool) :
    s.gain (fun n => toInt n) sparse = (if sparse then s.gain (fun n => n) true else s.len) +
      (s.blocks.map (lenError sparse s.block_size)).sum := by
  unfold SparseFile.gain
  cases sparse with
  | true =>
    rw [if_pos rfl, blocksGain_sparse]
    ring
  | false =>
    have hblocks := @blocksGain_normal _ _ h.block_size_pos h.whole h.disjoint 0
      fun bb _ => Nat.zero_le bb.block.toNat
    have hpad : s.padGain false = s.pad := by
      have hnn := h.pad_nonneg
      unfold SparseFile.padGain
      split_ifs
      · rfl
      · omega
    rw [if_neg Bool.false_ne_true, hblocks, hpad, SparseFile.pad, headerGain,
      if_neg Bool.false_ne_true, UInt32.toNat_zero, Nat.cast_zero]
    ring

/-! ## What can be written -/

/-- What is written as data has its bytes. -/
theorem writeDataChunk_zero {out : OutputFile RawFile} {len : UInt32} {data : List UInt8}
    (h : (writeDataChunk file_ops out len data).1 = 0) : len.toNat ≤ data.length := by
  by_contra hlt
  -- A write of more bytes than there are fails, whatever was written before.
  have hfail (out : OutputFile RawFile) : (out.write file_ops data len.toNat).1 = -1 :=
    if_pos (not_le.mp hlt)
  unfold writeDataChunk at h
  by_cases hs : out.sparse
  · rw [if_pos hs] at h
    unfold writeSparseDataChunk at h
    extract_lets rnd_up_len zero_len zero_buf zero_size chunk_header at h
    split at h
    next ret1 out1 heq1 =>
    have h2 := hfail out1
    by_cases hneg : ret1 < 0
    · rw [if_pos hneg] at h
      exact absurd h (show (-1 : ℤ) ≠ 0 by decide)
    rw [if_neg hneg] at h
    split at h
    next ret2 out2 heq2 =>
    rw [heq2] at h2
    obtain rfl : ret2 = -1 := h2
    rw [if_pos (by decide)] at h
    exact absurd h (show (-1 : ℤ) ≠ 0 by decide)
  · rw [if_neg hs] at h
    unfold writeNormalDataChunk at h
    extract_lets rnd_up_len at h
    have h1 := hfail out
    split at h
    next ret1 out1 heq1 =>
    rw [heq1] at h1
    obtain rfl : ret1 = -1 := h1
    rw [if_pos (by decide)] at h
    exact absurd h (show (-1 : ℤ) ≠ 0 by decide)

/-- A block that was written is one whose source has its bytes. -/
theorem sparseFileWriteBlock_zero {out : OutputFile RawFile} {bb : BackedBlock}
    (h : (sparseFileWriteBlock file_ops env out bb).1 = 0) : CanFetch env bb := by
  rw [sparseFileWriteBlock_fetch] at h
  split at h
  next v hsrc => exact Or.inl ⟨v, hsrc⟩
  next source hsrc =>
    split at h
    next errno hfetch =>
      have := errno.pos
      have : -((errno : ℕ) : ℤ) = 0 := h
      omega
    next data hfetch => exact Or.inr ⟨data, hfetch, writeDataChunk_zero h⟩

/-- A list that was written has blocks whose sources have their bytes. -/
theorem writeBlocks_zero {last : UInt32} {out : OutputFile RawFile}
    (h : (writeBlocks file_ops env bs l last out).1 = 0) : ∀ bb ∈ l, CanFetch env bb := by
  induction l generalizing last out with
  | nil => exact fun bb hbb => absurd hbb List.not_mem_nil
  | cons bb l ih =>
    unfold writeBlocks at h
    extract_lets out0 at h
    split at h
    next ret1 out1 heq1 =>
    split_ifs at h with hret
    · exact absurd h hret
    · have hblock : CanFetch env bb := by
        refine @sparseFileWriteBlock_zero env out0 bb ?_
        rw [heq1]
        exact not_ne_iff.mp hret
      exact List.forall_mem_cons.mpr ⟨hblock, ih h⟩

/-- **A file that is written**: the buffers were allocated, and all blocks were fetched. -/
theorem sparseFileWrite_zero {dev f : RawFile} {sparse crc : Bool}
    (h : sparseFileWrite file_ops env s dev sparse crc = .ok (0, f)) :
    s.block_size.toNat < 2 ^ 31 ∧ ∀ bb ∈ s.blocks, CanFetch env bb := by
  obtain ⟨-, hlt, chunks, ret, out, out', -, -, hall, -⟩ := sparseFileWrite_done h
  refine ⟨hlt, @writeBlocks_zero env s.block_size s.blocks 0 out ?_⟩
  by_contra hne
  unfold writeAllBlocks at hall
  split at hall
  next ret1 last1 out1 heq1 =>
    have hne1 : ret1 ≠ 0 := fun h0 => hne ((congrArg Prod.fst heq1).trans h0)
    rw [if_pos hne1] at hall
    cases hall
    exact hne1 rfl

/-- **The estimate is the length** of the file exactly when the file can be written and the errors of
its blocks cancel out. -/
theorem lenExact_iff (h : s.WholeRegions) {sparse crc : Bool} :
    LenExact env s sparse crc ↔ s.block_size.toNat < 2 ^ 31 ∧
      (∀ bb ∈ s.blocks, CanFetch env bb) ∧
      (s.blocks.map (lenError sparse s.block_size)).sum = 0 := by
  constructor
  · rintro ⟨f, hwrite, hlen⟩
    obtain ⟨hlt, hfetch⟩ := sparseFileWrite_zero hwrite
    obtain ⟨f', hwrite', hsize⟩ := sparseFileWrite_size h hlt hfetch sparse crc
    obtain rfl : f = f' := (Prod.mk.inj (Except.ok.inj (hwrite.symm.trans hwrite'))).2
    rw [sparseFileLen_eq h hlt hfetch, h.gain_eq] at hlen
    have hsum := Except.ok.inj hlen
    refine ⟨hlt, hfetch, ?_⟩
    split_ifs at hsize hsum <;> omega
  · rintro ⟨hlt, hfetch, hsum⟩
    obtain ⟨f, hwrite, hsize⟩ := sparseFileWrite_size h hlt hfetch sparse crc
    refine ⟨f, hwrite, ?_⟩
    rw [sparseFileLen_eq h hlt hfetch, h.gain_eq, hsum, hsize]
    split_ifs
    · rw [add_zero]
    · rw [add_zero, add_zero]

/-- A region of two blocks of a file of four. -/
def twoFilled : SparseFile := ⟨4096, 16384, ⟨[⟨0, 1, 8192, .fill 7⟩], none, 4096, 1⟩⟩

/-- Two fills of whole blocks are estimated exactly in both formats. -/
theorem lenExact_twoFilled : LenExact noFiles twoFilled false false ∧
    LenExact noFiles twoFilled true true := by
  have h : twoFilled.WholeRegions := by
    refine ⟨by decide, by decide, by decide, by decide, ?_, ?_, List.pairwise_singleton _ _, ?_⟩
    · exact List.forall_mem_singleton.mpr (by decide)
    · exact List.forall_mem_singleton.mpr (by decide)
    · exact List.forall_mem_singleton.mpr (by decide)
  have hfetch : ∀ bb ∈ twoFilled.blocks, CanFetch noFiles bb :=
    List.forall_mem_singleton.mpr (Or.inl ⟨7, rfl⟩)
  exact ⟨(lenExact_iff h).mpr ⟨by decide, hfetch, by decide⟩,
    (lenExact_iff h).mpr ⟨by decide, hfetch, by decide⟩⟩

/-- A region of `2^31` bytes of data. -/
def twoGiB : SparseFile := ⟨4096, 2 ^ 31, ⟨[⟨0, 0, 0x80000000, .data 0⟩], none, 4096, 1⟩⟩

/-- The estimate of a region of `2^31` bytes of data is negative in both formats. -/
theorem two_gib_is_negative : twoGiB.WholeRegions ∧ ¬ LenExact noFiles twoGiB false false ∧
    ¬ LenExact noFiles twoGiB true false := by
  have h : twoGiB.WholeRegions := by
    refine ⟨by decide, by decide, by decide, by decide, ?_, ?_, List.pairwise_singleton _ _, ?_⟩
    · exact List.forall_mem_singleton.mpr (by decide)
    · exact List.forall_mem_singleton.mpr (by decide)
    · exact List.forall_mem_singleton.mpr (by decide)
  have hfetch : ∀ bb ∈ twoGiB.blocks, CanFetch noFiles bb := by
    refine List.forall_mem_singleton.mpr (Or.inr ⟨_, rfl, ?_⟩)
    rw [List.length_map, List.length_range]
  have hlt : twoGiB.block_size.toNat < 2 ^ 31 := by decide
  refine ⟨h, ?_, ?_⟩
  · -- The file has a length, and the estimate is negative.
    rintro ⟨f, -, hlen⟩
    rw [sparseFileLen_eq h hlt hfetch] at hlen
    have hneg : twoGiB.gain (fun n => toInt n) false < 0 := by decide
    have := Except.ok.inj hlen
    rw [if_neg Bool.false_ne_true] at this
    omega
  · rintro ⟨f, -, hlen⟩
    rw [sparseFileLen_eq h hlt hfetch] at hlen
    have hneg : twoGiB.gain (fun n => toInt n) true < 0 := by decide
    have := Except.ok.inj hlen
    rw [if_pos rfl] at this
    have hcrc : (crcSize false : ℤ) = 0 := rfl
    omega

end

end AmlogicToolkit.Simg
