import AmlogicToolkit.Simg.Failures

/-!
# Two back ends

The writers over two back ends of which one mimics the other (`Mimics`): in related states, a write
or a skip that succeeds on the first one succeeds on the second one, and leaves related states. Then a
whole `sparse_file_write` that succeeds on the first one does on the second one, and the files that
are closed at its end are related (`Mimics.sparseFileWrite`).

A relation of states may be about the format (a skip is part of the normal format only), and the
second back end may take some lengths only (`ok`).
-/

namespace AmlogicToolkit.Simg

open Bytes

section

variable {σ τ : Type}

/-- In related states, the back end `ops'` takes the operations that `ops` takes. -/
structure Mimics (sparse : Bool) (ok : ℕ → Prop) (R : σ → τ → Prop) (ops : OutputFileOps σ)
    (ops' : OutputFileOps τ) : Prop where
  /-- The small lengths are taken. -/
  small : ∀ n < 2 ^ 31, ok n
  /-- A write of a full buffer does not fail on the first one. -/
  full : ∀ dev data len, len ≤ data.length → 0 ≤ (ops.write dev data len).1
  /-- A write. -/
  write : ∀ dev dev' data len, R dev dev' → ok len → 0 ≤ (ops.write dev data len).1 →
    (ops.write dev data len).1 = 0 ∧ (ops'.write dev' data len).1 = 0 ∧
      R (ops.write dev data len).2 (ops'.write dev' data len).2
  /-- A skip, in the normal format. -/
  skip : sparse = false → ∀ dev dev' cnt, R dev dev' → 0 ≤ cnt →
    (ops.skip dev cnt).1 = 0 ∧ (ops'.skip dev' cnt).1 = 0 ∧
      R (ops.skip dev cnt).2 (ops'.skip dev' cnt).2

/-- Two output files of one format that stand in related states, with one checksum when `sum` says
so. They need not have written the same chunks. -/
structure Alike (sum : Prop) (R : σ → τ → Prop) (out : OutputFile σ) (out' : OutputFile τ) :
    Prop where
  /-- The format. -/
  sparse : out'.sparse = out.sparse
  /-- The block size. -/
  block_size : out'.block_size = out.block_size
  /-- The length. -/
  len : out'.len = out.len
  /-- The checksum. -/
  crc : sum → out'.use_crc = out.use_crc ∧ out'.crc32 = out.crc32
  /-- The back ends. -/
  dev : R out.dev out'.dev

/-- A result that, when the first one is no error, is 0 twice, with output files that are alike. -/
def Mirrors (sum : Prop) (R : σ → τ → Prop) (out : OutputFile σ) (r : ℤ × OutputFile σ)
    (r' : ℤ × OutputFile τ) : Prop :=
  0 ≤ r.1 → r.1 = 0 ∧ r'.1 = 0 ∧ Kept out r.2 ∧ Alike sum R r.2 r'.2

end

section

variable {σ τ : Type} {sparse : Bool} {ok : ℕ → Prop} {sum : Prop} {R : σ → τ → Prop}
  {ops : OutputFileOps σ} {ops' : OutputFileOps τ} {out : OutputFile σ} {out' : OutputFile τ}
  {r next : ℤ × OutputFile σ} {r' next' : ℤ × OutputFile τ}

/-- Two functions in a row are mirrored when the second is after every success of the first. -/
theorem Mirrors.andThen (h : Mirrors sum R out r r') {c : ℤ} {c' : ℤ} (hc : r.1 < 0 → c < 0)
    (hnext : r.1 = 0 → Alike sum R r.2 r'.2 → Mirrors sum R r.2 next next') :
    Mirrors sum R out (if r.1 < 0 then (c, r.2) else next)
      (if r'.1 < 0 then (c', r'.2) else next') := by
  intro hret
  by_cases hneg : r.1 < 0
  · rw [if_pos hneg] at hret
    exact absurd hret (Int.not_le.mpr (hc hneg))
  · obtain ⟨hzero, hzero', hkept, halike⟩ := h (Int.not_lt.mp hneg)
    rw [if_neg hneg] at hret ⊢
    rw [if_neg (by rw [hzero']; exact lt_irrefl 0)]
    obtain ⟨h0, h0', hkept', halike'⟩ := hnext hzero halike hret
    exact ⟨h0, h0', hkept.trans hkept', halike'⟩

/-- A result, seen from where it has led to. -/
theorem Mirrors.done (h : Mirrors sum R out r r') (hret : r.1 = 0) : Mirrors sum R r.2 r r' := by
  obtain ⟨-, hret', -, halike⟩ := h (le_of_eq hret.symm)
  exact fun _ => ⟨hret, hret', ⟨rfl, rfl, rfl, rfl⟩, halike⟩

/-- Doing nothing is mirrored between output files that are alike. -/
theorem Alike.mirrors (h : Alike sum R out out') : Mirrors sum R out (0, out) (0, out') :=
  fun _ => ⟨rfl, rfl, ⟨rfl, rfl, rfl, rfl⟩, h⟩

/-- Setting the counters is mirrored, when the checksum is set alike. -/
theorem Alike.counted (h : Alike sum R out out') {ptr ptr' : ℤ} {cnt cnt' crc crc' : UInt32}
    (hcrc : sum → crc' = crc) :
    Mirrors sum R out (0, { out with cur_out_ptr := ptr, chunk_cnt := cnt, crc32 := crc })
      (0, { out' with cur_out_ptr := ptr', chunk_cnt := cnt', crc32 := crc' }) :=
  fun _ => ⟨rfl, rfl, ⟨rfl, rfl, rfl, rfl⟩, h.sparse, h.block_size, h.len,
    fun hs => ⟨(h.crc hs).1, hcrc hs⟩, h.dev⟩

variable (hf : Mimics sparse ok R ops ops')
include hf

/-- A write of a length that is mirrored leaves files that are alike, when the first returns 0. -/
theorem Mimics.outWrite (h : Alike sum R out out') (data : List UInt8) {len : ℕ} (hlen : ok len) :
    Mirrors sum R out (out.write ops data len) (out'.write ops' data len) := by
  intro hret
  obtain ⟨hzero, hzero', hR⟩ := hf.write out.dev out'.dev data len h.dev hlen hret
  exact ⟨hzero, hzero', ⟨rfl, rfl, rfl, rfl⟩, h.sparse, h.block_size, h.len, h.crc, hR⟩

/-- A write of a full buffer. -/
theorem Mimics.outWrite_full (h : Alike sum R out out') {data : List UInt8} {len : ℕ}
    (hlen : len < 2 ^ 31) (hfull : len ≤ data.length) :
    (out.write ops data len).1 = 0 ∧ (out'.write ops' data len).1 = 0 ∧
      Kept out (out.write ops data len).2 ∧
        Alike sum R (out.write ops data len).2 (out'.write ops' data len).2 :=
  hf.outWrite h data (hf.small len hlen) (hf.full out.dev data len hfull)

/-- In the normal format a skip returns 0 on both sides and leaves files that are alike. -/
theorem Mimics.outSkip (h : Alike sum R out out') (hsparse : sparse = false) {cnt : ℤ}
    (hcnt : 0 ≤ cnt) :
    (out.skip ops cnt).1 = 0 ∧ (out'.skip ops' cnt).1 = 0 ∧ Kept out (out.skip ops cnt).2 ∧
      Alike sum R (out.skip ops cnt).2 (out'.skip ops' cnt).2 := by
  obtain ⟨hzero, hzero', hR⟩ := hf.skip hsparse out.dev out'.dev cnt h.dev hcnt
  exact ⟨hzero, hzero', ⟨rfl, rfl, rfl, rfl⟩, h.sparse, h.block_size, h.len, h.crc, hR⟩

/-! ## Chunks -/

/-- `write_sparse_fill_chunk` is mirrored for every length and word. -/
theorem Mimics.sparseFill (h : Alike sum R out out') (len v : UInt32) :
    Mirrors sum R out (writeSparseFillChunk ops out len v) (writeSparseFillChunk ops' out' len v) := by
  have hheader := fun c : ChunkHeader => hf.outWrite h c.encode
    (hf.small CHUNK_HEADER_LEN (by decide))
  unfold writeSparseFillChunk
  rw [h.block_size]
  extract_lets rnd_up_len chunk_header
  have h1 := hheader chunk_header
  generalize out.write ops chunk_header.encode CHUNK_HEADER_LEN = r1 at h1 ⊢
  generalize out'.write ops' chunk_header.encode CHUNK_HEADER_LEN = r1' at h1 ⊢
  refine h1.andThen (fun _ => by decide) fun _ ha => ?_
  have h2 := hf.outWrite ha (le32 v) (hf.small 4 (by decide))
  generalize r1.2.write ops (le32 v) 4 = r2 at h2 ⊢
  generalize r1'.2.write ops' (le32 v) 4 = r2' at h2 ⊢
  refine h2.andThen (fun _ => by decide) fun _ ha' => ha'.counted fun hs => ?_
  rw [(ha'.crc hs).1, (ha'.crc hs).2, ha'.block_size]

/-- `write_sparse_data_chunk` is mirrored when the lengths of its data and its padding are. -/
theorem Mimics.sparseData (h : Alike sum R out out') {len : UInt32} (data : List UInt8)
    (hlen : ok len.toNat) (hzero : ok (zeroSize out.block_size len)) :
    Mirrors sum R out (writeSparseDataChunk ops out len data)
      (writeSparseDataChunk ops' out' len data) := by
  obtain ⟨z, hz⟩ : ∃ z, zeroSize out.block_size len = z := ⟨_, rfl⟩
  rw [hz] at hzero
  have hheader := fun c : ChunkHeader => hf.outWrite h c.encode
    (hf.small CHUNK_HEADER_LEN (by decide))
  unfold writeSparseDataChunk
  rw [h.block_size]
  extract_lets rnd_up_len zero_len zero_buf zero_size chunk_header
  -- The header is written on both sides.
  have h1 := hheader chunk_header
  generalize out.write ops chunk_header.encode CHUNK_HEADER_LEN = r1 at h1 ⊢
  generalize out'.write ops' chunk_header.encode CHUNK_HEADER_LEN = r1' at h1 ⊢
  obtain ⟨ret1, out1⟩ := r1
  obtain ⟨ret1', out1'⟩ := r1'
  refine h1.andThen (fun _ => by decide) fun _ ha => ?_
  -- So is the data.
  have h2 := hf.outWrite ha data hlen
  generalize out1.write ops data len.toNat = r2 at h2 ⊢
  generalize out1'.write ops' data len.toNat = r2' at h2 ⊢
  obtain ⟨ret2, out2⟩ := r2
  obtain ⟨ret2', out2'⟩ := r2'
  refine h2.andThen (fun _ => by decide) fun hret ha' => ?_
  -- The padding is written on both sides, or on none.
  have h3 : Mirrors sum R out2
      (if zero_len ≠ 0 then out2.write ops zero_buf zero_size else (ret2, out2))
      (if zero_len ≠ 0 then out2'.write ops' zero_buf zero_size else (ret2', out2')) := by
    split_ifs
    · rw [show zero_size = z from hz]
      exact hf.outWrite ha' _ hzero
    · exact h2.done hret
  generalize (if zero_len ≠ 0 then out2.write ops zero_buf zero_size else (ret2, out2)) = r3
    at h3 ⊢
  generalize (if zero_len ≠ 0 then out2'.write ops' zero_buf zero_size else (ret2', out2')) = r3'
    at h3 ⊢
  obtain ⟨ret3, out3⟩ := r3
  obtain ⟨ret3', out3'⟩ := r3'
  refine h3.andThen (fun _ => by decide) fun _ ha'' => ha''.counted fun hs => ?_
  rw [(ha''.crc hs).1, (ha''.crc hs).2]

/-- `write_normal_data_chunk` is mirrored when the length of its data is. -/
theorem Mimics.normalData (h : Alike sum R out out') (hsparse : sparse = false) {len : UInt32}
    (data : List UInt8) (hlen : ok len.toNat) :
    Mirrors sum R out (writeNormalDataChunk ops out len data)
      (writeNormalDataChunk ops' out' len data) := by
  unfold writeNormalDataChunk
  rw [h.block_size]
  extract_lets rnd_up_len
  have h1 := hf.outWrite h data hlen
  generalize out.write ops data len.toNat = r1 at h1 ⊢
  generalize out'.write ops' data len.toNat = r1' at h1 ⊢
  refine h1.andThen (fun h => h) fun hret ha => ?_
  split_ifs
  · exact fun _ => hf.outSkip ha hsparse (Int.natCast_nonneg _)
  · exact h1.done hret

/-- The loop of `write_normal_fill_chunk` is mirrored, with any fuel. -/
theorem Mimics.fillLoop (h : Alike sum R out out') (hlt : out.block_size.toNat < 2 ^ 31)
    (fill_buf : List UInt8) (fuel : ℕ) (len : UInt32) :
    Mirrors sum R out (writeFillLoop ops fill_buf fuel out len)
      (writeFillLoop ops' fill_buf fuel out' len) := by
  induction fuel generalizing out out' len with
  | zero => exact h.mirrors
  | succ fuel ih =>
    unfold writeFillLoop
    rw [h.block_size]
    by_cases hlen : len ≠ 0
    · rw [if_pos hlen, if_pos hlen]
      extract_lets write_len
      -- A pass writes a block at most, which is below `2^31` bytes.
      have hle : write_len.toNat ≤ out.block_size.toNat := by
        rw [show write_len.toNat = min len.toNat out.block_size.toNat from uint32_toNat_min _ _]
        exact min_le_right _ _
      have h1 := hf.outWrite h fill_buf
        (hf.small write_len.toNat (lt_of_le_of_lt hle hlt))
      generalize out.write ops fill_buf write_len.toNat = r1 at h1 ⊢
      generalize out'.write ops' fill_buf write_len.toNat = r1' at h1 ⊢
      refine h1.andThen (fun h => h) fun hret ha => ih ha ?_ _
      rw [(h1 (le_of_eq hret.symm)).2.2.1.block_size]
      exact hlt
    · rw [if_neg hlen, if_neg hlen]
      exact h.mirrors

/-- `write_skip_chunk` of whole blocks, whatever becomes of its result. -/
theorem Mimics.skipChunk (h : Alike sum R out out') (hs : out.sparse = sparse) {skip_len : ℤ}
    (hnn : 0 ≤ skip_len) :
    Kept out (writeSkipChunk ops out skip_len).2 ∧
      Alike sum R (writeSkipChunk ops out skip_len).2 (writeSkipChunk ops' out' skip_len).2 := by
  unfold writeSkipChunk
  rw [h.sparse]
  by_cases hsparse : out.sparse
  · rw [if_pos hsparse, if_pos hsparse]
    unfold writeSparseSkipChunk
    rw [h.block_size]
    -- A gap that is not whole blocks is refused on both sides, and nothing is written.
    split_ifs with hmod
    · exact ⟨⟨rfl, rfl, rfl, rfl⟩, h⟩
    · extract_lets chunk_header
      have h1 := hf.outWrite_full h (by decide) (ChunkHeader.length_encode chunk_header).ge
      generalize out.write ops chunk_header.encode CHUNK_HEADER_LEN = r1 at h1 ⊢
      generalize out'.write ops' chunk_header.encode CHUNK_HEADER_LEN = r1' at h1 ⊢
      obtain ⟨ret1, out1⟩ := r1
      obtain ⟨ret1', out1'⟩ := r1'
      obtain ⟨rfl, rfl, hkept, halike⟩ := h1
      exact ⟨hkept.trans ⟨rfl, rfl, rfl, rfl⟩, halike.sparse, halike.block_size, halike.len,
        halike.crc, halike.dev⟩
  · rw [if_neg hsparse, if_neg hsparse]
    have hfalse : sparse = false := hs.symm.trans (Bool.eq_false_iff.mpr hsparse)
    exact (hf.outSkip h hfalse hnn).2.2

/-- `write_data_chunk` is mirrored in both formats. -/
theorem Mimics.dataChunk (h : Alike sum R out out') (hs : out.sparse = sparse) {len : UInt32}
    (data : List UInt8) (hlen : ok len.toNat) (hzero : ok (zeroSize out.block_size len)) :
    Mirrors sum R out (writeDataChunk ops out len data) (writeDataChunk ops' out' len data) := by
  unfold writeDataChunk
  rw [h.sparse]
  by_cases hsparse : out.sparse
  · rw [if_pos hsparse, if_pos hsparse]
    exact hf.sparseData h data hlen hzero
  · rw [if_neg hsparse, if_neg hsparse]
    exact hf.normalData h (hs.symm.trans (Bool.eq_false_iff.mpr hsparse)) data hlen

/-- `write_fill_chunk` is mirrored in both formats. -/
theorem Mimics.fillChunk (h : Alike sum R out out') (hlt : out.block_size.toNat < 2 ^ 31)
    (len v : UInt32) :
    Mirrors sum R out (writeFillChunk ops out len v) (writeFillChunk ops' out' len v) := by
  unfold writeFillChunk
  rw [h.sparse]
  by_cases hsparse : out.sparse
  · rw [if_pos hsparse, if_pos hsparse]
    exact hf.sparseFill h len v
  · rw [if_neg hsparse, if_neg hsparse]
    unfold writeNormalFillChunk
    rw [h.block_size]
    exact hf.fillLoop h hlt _ _ _

/-! ## Blocks -/

/-- The second back end takes the lengths of a block. -/
def BlockOk (ok : ℕ → Prop) (bs : UInt32) (bb : BackedBlock) : Prop :=
  ok bb.len.toNat ∧ ok (zeroSize bs bb.len)

/-- `sparse_file_write_block` is mirrored for every block whose lengths are. -/
theorem Mimics.block (env : Env) (h : Alike sum R out out') (hs : out.sparse = sparse)
    (hlt : out.block_size.toNat < 2 ^ 31) (bb : BackedBlock) (hbb : BlockOk ok out.block_size bb) :
    Mirrors sum R out (sparseFileWriteBlock ops env out bb)
      (sparseFileWriteBlock ops' env out' bb) := by
  rw [sparseFileWriteBlock_fetch, sparseFileWriteBlock_fetch]
  have herror : ∀ errno : ℕ+, Mirrors sum R out (-(errno : ℕ), out) (-(errno : ℕ), out') := by
    intro errno hret
    have := errno.pos
    dsimp only at hret
    omega
  cases bb.source with
  | fill v => exact hf.fillChunk h hlt bb.len v
  | data _ | file _ _ | fd _ _ =>
    dsimp only
    cases fetch env bb.len _ with
    | error errno => exact herror errno
    | ok data => exact hf.dataChunk h hs data hbb.1 hbb.2

/-- **The blocks of a list**, with the gaps between them. -/
theorem Mimics.blocks (env : Env) {l : List BackedBlock} (h : Alike sum R out out')
    (hs : out.sparse = sparse) (hlt : out.block_size.toNat < 2 ^ 31)
    (hl : ∀ bb ∈ l, BlockOk ok out.block_size bb) {last last₁ : UInt32} {out₁ : OutputFile σ}
    (hrun : writeBlocks ops env out.block_size l last out = (0, last₁, out₁)) :
    Kept out out₁ ∧ ∃ out₁', writeBlocks ops' env out.block_size l last out' = (0, last₁, out₁') ∧
      Alike sum R out₁ out₁' := by
  obtain ⟨bs, hbs⟩ : ∃ bs, out.block_size = bs := ⟨_, rfl⟩
  rw [hbs] at hlt hl hrun ⊢
  induction l generalizing out out' last with
  | nil =>
    cases hrun
    exact ⟨⟨rfl, rfl, rfl, rfl⟩, out', rfl, h⟩
  | cons bb l ih =>
    obtain ⟨hbb, hl⟩ := List.forall_mem_cons.mp hl
    unfold writeBlocks at hrun ⊢
    -- The gap in front of the block.
    have hgap : Kept out (if bb.block > last then
          (writeSkipChunk ops out ((bb.block - last).toNat * bs.toNat)).2 else out) ∧
        Alike sum R (if bb.block > last then
          (writeSkipChunk ops out ((bb.block - last).toNat * bs.toNat)).2 else out)
          (if bb.block > last then
            (writeSkipChunk ops' out' ((bb.block - last).toNat * bs.toNat)).2 else out') := by
      split_ifs
      · exact hf.skipChunk h hs (Int.mul_nonneg (Int.natCast_nonneg _) (Int.natCast_nonneg _))
      · exact ⟨⟨rfl, rfl, rfl, rfl⟩, h⟩
    dsimp only at hrun ⊢
    generalize (if bb.block > last then
      (writeSkipChunk ops out ((bb.block - last).toNat * bs.toNat)).2 else out) = gap at hrun hgap
    generalize (if bb.block > last then
      (writeSkipChunk ops' out' ((bb.block - last).toNat * bs.toNat)).2 else out') = gap' at hgap ⊢
    obtain ⟨hkept, halike⟩ := hgap
    have hsize : gap.block_size = bs := hkept.block_size.trans hbs
    have hblock := hf.block env halike (hkept.sparse.trans hs) (by rwa [hsize]) bb
      (by rwa [hsize])
    generalize sparseFileWriteBlock ops env gap bb = r at hrun hblock
    generalize sparseFileWriteBlock ops' env gap' bb = r' at hblock ⊢
    obtain ⟨ret, out₂⟩ := r
    obtain ⟨ret', out₂'⟩ := r'
    dsimp only at hrun ⊢
    split_ifs at hrun with hret
    · exact absurd (Prod.mk.inj hrun).1 hret
    · obtain rfl := not_not.mp hret
      obtain ⟨-, hret', hkept', halike'⟩ := hblock (le_refl 0)
      dsimp only at hret' hkept' halike'
      rw [if_neg (not_not.mpr hret')]
      obtain ⟨hkept'', hrest⟩ := ih halike' (hkept'.sparse.trans (hkept.sparse.trans hs)) hrun hl
        (hkept'.block_size.trans hsize)
      exact ⟨(hkept.trans hkept').trans hkept'', hrest⟩

/-- A `write_all_blocks` that returns 0 is mirrored by one that returns 0, and the blocks end within
the length. -/
theorem Mimics.allBlocks (env : Env) {s : SparseFile} (h : Alike sum R out out')
    (hs : out.sparse = sparse) (hbs : out.block_size = s.block_size)
    (hlt : s.block_size.toNat < 2 ^ 31)
    (hl : ∀ bb ∈ s.backed_block_list.data_blocks, BlockOk ok s.block_size bb)
    {out₁ : OutputFile σ} (hrun : writeAllBlocks ops env s out = .ok (0, out₁)) :
    0 ≤ s.len ∧ Kept out out₁ ∧
      ∃ out₁', writeAllBlocks ops' env s out' = .ok (0, out₁') ∧ Alike sum R out₁ out₁' := by
  have hblocks : ∀ last₁ out₂,
      writeBlocks ops env s.block_size s.backed_block_list.data_blocks 0 out = (0, last₁, out₂) →
        Kept out out₂ ∧ ∃ out₂', writeBlocks ops' env s.block_size
          s.backed_block_list.data_blocks 0 out' = (0, last₁, out₂') ∧ Alike sum R out₂ out₂' := by
    intro last₁ out₂ hwrite
    rw [← hbs] at hlt hl hwrite ⊢
    exact hf.blocks env h hs hlt hl hwrite
  unfold writeAllBlocks at hrun ⊢
  generalize writeBlocks ops env s.block_size s.backed_block_list.data_blocks 0 out = r
    at hrun hblocks
  obtain ⟨ret, last_block, out₂⟩ := r
  dsimp only at hrun
  by_cases hret : ret = 0
  · subst hret
    obtain ⟨hkept, out₂', hrun', halike⟩ := hblocks last_block out₂ rfl
    rw [hrun']
    dsimp only
    rw [if_neg (not_not.mpr rfl)] at hrun ⊢
    -- A pad that is not negative means that the length is not, for the blocks take none of it away.
    have hcovered : (0 : ℤ) ≤ last_block.toNat * s.block_size.toNat :=
      Int.mul_nonneg (Int.natCast_nonneg _) (Int.natCast_nonneg _)
    split_ifs at hrun with hneg hpos
    · obtain rfl := (Prod.mk.inj (Except.ok.inj hrun)).2
      rw [if_neg hneg, if_pos hpos]
      obtain ⟨hkept', halike'⟩ := hf.skipChunk halike (hkept.sparse.trans hs) (le_of_lt hpos)
      exact ⟨by omega, hkept.trans hkept', _, rfl, halike'⟩
    · obtain rfl := (Prod.mk.inj (Except.ok.inj hrun)).2
      rw [if_neg hneg, if_neg hpos]
      exact ⟨by omega, hkept, _, rfl, halike⟩
  · -- An error of the blocks is returned, and is not 0.
    rw [if_pos hret] at hrun
    exact absurd (Prod.mk.inj (Except.ok.inj hrun)).1 hret

/-! ## Whole files -/

/-- `write_sparse_end_chunk`, whatever becomes of its result. -/
theorem Mimics.endChunk (h : Alike True R out out') :
    R (writeSparseEndChunk ops out).2.dev (writeSparseEndChunk ops' out').2.dev := by
  obtain ⟨huse, hsum⟩ := h.crc trivial
  unfold writeSparseEndChunk
  rw [huse]
  split_ifs
  · extract_lets chunk_header
    have h1 := hf.outWrite_full h (by decide) (ChunkHeader.length_encode chunk_header).ge
    generalize out.write ops chunk_header.encode CHUNK_HEADER_LEN = r1 at h1 ⊢
    generalize out'.write ops' chunk_header.encode CHUNK_HEADER_LEN = r1' at h1 ⊢
    obtain ⟨ret1, out1⟩ := r1
    obtain ⟨ret1', out1'⟩ := r1'
    obtain ⟨rfl, rfl, hkept, halike⟩ := h1
    dsimp only at halike ⊢
    have hword := hf.outWrite_full halike (by decide) (length_le32 out1.crc32).ge
    rw [(halike.crc trivial).2]
    exact hword.2.2.2.dev
  · exact h.dev

/-- `output_file_close`. In the normal format, the file is padded. -/
theorem Mimics.close (h : Alike True R out out') (hs : out.sparse = sparse) :
    ∃ dev dev', R dev dev' ∧
      (outputFileClose ops out).dev = (if sparse then dev else (ops.pad dev out.len).2) ∧
      (outputFileClose ops' out').dev = if sparse then dev' else (ops'.pad dev' out.len).2 := by
  unfold outputFileClose
  rw [h.sparse, hs]
  by_cases hsparse : sparse
  · rw [if_pos hsparse, if_pos hsparse]
    exact ⟨_, _, hf.endChunk h, (if_pos hsparse).symm, (if_pos hsparse).symm⟩
  · rw [if_neg hsparse, if_neg hsparse]
    unfold writeNormalEndChunk
    rw [h.len]
    exact ⟨_, _, h.dev, (if_neg hsparse).symm, (if_neg hsparse).symm⟩

/-- `output_file_init` opens files that are alike on devices that are related. -/
theorem Mimics.init {dev : σ} {dev' : τ} (h : R dev dev') {bs : UInt32} (hbs : bs ≠ 0)
    (hlt : bs.toNat < 2 ^ 31) (len : ℤ) (chunks : UInt32) (crc : Bool) :
    ∃ out out', outputFileInit ops dev bs len sparse chunks crc = .ok (0, out) ∧
      outputFileInit ops' dev' bs len sparse chunks crc = .ok (0, out') ∧
      out.sparse = sparse ∧ out.block_size = bs ∧ out.len = len ∧ Alike True R out out' := by
  have h0 : Alike True R ⟨0, 0, 0, sparse, crc, bs, len, dev⟩ ⟨0, 0, 0, sparse, crc, bs, len, dev'⟩ :=
    ⟨rfl, rfl, rfl, fun _ => ⟨rfl, rfl⟩, h⟩
  cases sparse with
  | false =>
    exact ⟨_, _, outputFileInit_normal ops dev hlt len chunks crc,
      outputFileInit_normal ops' dev' hlt len chunks crc, rfl, rfl, rfl, h0⟩
  | true =>
    unfold outputFileInit
    rw [if_neg (Nat.not_le.mpr hlt), if_neg (Nat.not_le.mpr hlt), if_pos rfl, if_pos rfl, if_neg hbs,
      if_neg hbs]
    extract_lets sparse_header
    have h1 := hf.outWrite_full h0 (by decide) (SparseHeader.length_encode sparse_header).ge
    generalize OutputFile.write ops _ sparse_header.encode SPARSE_HEADER_LEN = r at h1 ⊢
    generalize OutputFile.write ops' _ sparse_header.encode SPARSE_HEADER_LEN = r' at h1 ⊢
    obtain ⟨ret, out₁⟩ := r
    obtain ⟨ret', out₁'⟩ := r'
    obtain ⟨rfl, rfl, hkept, halike⟩ := h1
    exact ⟨out₁, out₁', rfl, rfl, hkept.sparse, hkept.block_size, hkept.len, halike⟩

/-- **A whole file.** What is written to the first back end is written to the second one. -/
theorem Mimics.sparseFileWrite (env : Env) {s : SparseFile} {dev new : σ} {dev' : τ} {crc : Bool}
    (h : R dev dev') (hl : ∀ bb ∈ s.backed_block_list.data_blocks, BlockOk ok s.block_size bb)
    (hrun : sparseFileWrite ops env s dev sparse crc = .ok (0, new)) :
    0 ≤ s.len ∧ ∃ dev₁ dev₁', R dev₁ dev₁' ∧
      new = (if sparse then dev₁ else (ops.pad dev₁ s.len).2) ∧
      Simg.sparseFileWrite ops' env s dev' sparse crc =
        .ok (0, if sparse then dev₁' else (ops'.pad dev₁' s.len).2) := by
  obtain ⟨hbs, hlt, -⟩ := sparseFileWrite_done hrun
  obtain ⟨chunks, hcount⟩ := sparseCountChunks_ok (s := s) hbs
  obtain ⟨out, out', hinit, hinit', hsparse, hsize, hlen, halike⟩ := hf.init h hbs hlt s.len chunks crc
  obtain ⟨out₁, hall, hnew⟩ := writeAllBlocks_of_write hcount hinit hrun
  obtain ⟨hnn, hkept, out₁', hall', halike'⟩ := hf.allBlocks env halike hsparse hsize hlt hl hall
  obtain ⟨dev₁, dev₁', hR, hclose, hclose'⟩ := hf.close halike' (hkept.sparse.trans hsparse)
  rw [hkept.len, hlen] at hclose hclose'
  refine ⟨hnn, dev₁, dev₁', hR, hnew.symm.trans hclose, ?_⟩
  rw [sparseFileWrite_eq hcount hinit' hall', hclose']

end

end AmlogicToolkit.Simg
