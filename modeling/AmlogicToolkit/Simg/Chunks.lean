import AmlogicToolkit.Simg.Callbacks

/-!
# The chunks of an image, one by one

`sparse_file_foreach_chunk` against `sparse_file_callback`: the same calls, each with the blocks of
the chunk that it is for, but for those that skip a gap (`sparseFileForeachChunk_calls`).
-/

namespace AmlogicToolkit.Simg

open Bytes

section

variable {σ : Type}

/-- `foreach_chunk_write`: `struct chunk_data` is the state of the callback with the block and the
number of blocks. -/
def foreachChunkWrite (write : σ → Option (List UInt8) → ℤ → UInt32 → UInt32 → ℤ × σ)
    (chk : σ × UInt32 × UInt32) (data : Option (List UInt8)) (len : ℤ) :
    ℤ × σ × UInt32 × UInt32 :=
  let r := write chk.1 data len chk.2.1 chk.2.2
  (r.1, r.2, chk.2)

/-- The blocks of a chunk, as `sparse_file_foreach_chunk` computes them. -/
def chunkBlocksOf (block_size : UInt32) (bb : BackedBlock) : UInt32 × UInt32 :=
  (bb.block, (bb.len - 1) / block_size + 1)

/-- What a chunk says of its block: its number, and the number of blocks that it covers, unless it is
empty. -/
structure ChunkNumbers (block_size : UInt32) (bb : BackedBlock) (chunk : UInt32 × UInt32) : Prop where
  /-- The first block. -/
  block : chunk.1 = bb.block
  /-- The smallest number of blocks that its bytes fit into. -/
  nr_blocks : bb.len ≠ 0 → IsLeast {n : ℕ | bb.len.toNat ≤ n * block_size.toNat} chunk.2.toNat
  /-- Without bytes, `len - 1` is the largest length. -/
  empty : bb.len = 0 → chunk.2.toNat = ((2 ^ 32 - 1) / block_size.toNat + 1) % 2 ^ 32

/-- `(len - 1) / block_size + 1` is the quotient rounded up, of a length that is not zero. -/
theorem chunkBlocksOf_numbers {block_size : UInt32} (hbs : block_size ≠ 0) (bb : BackedBlock) :
    ChunkNumbers block_size bb (chunkBlocksOf block_size bb) := by
  have hpos := toNat_pos_of_ne_zero hbs
  have hlt := bb.len.toNat_lt
  refine ⟨rfl, fun hlen => ?_, fun hlen => ?_⟩
  · have hlen' := toNat_pos_of_ne_zero hlen
    have hsub : (bb.len - 1).toNat = bb.len.toNat - 1 :=
      UInt32.toNat_sub_of_le _ _ (UInt32.le_iff_toNat_le.mpr hlen')
    have hle := Nat.div_le_self (bb.len.toNat - 1) block_size.toNat
    -- `(len - 1) / block_size + 1` does not wrap for a length that is not zero.
    have hblocks : (chunkBlocksOf block_size bb).2.toNat =
        (bb.len.toNat - 1) / block_size.toNat + 1 := by
      change ((bb.len - 1) / block_size + 1).toNat = _
      rw [UInt32.toNat_add, UInt32.toNat_div, hsub]
      exact Nat.mod_eq_of_lt (by change _ + 1 < _; omega)
    rw [hblocks]
    constructor
    · have hdiv := Nat.lt_div_mul_add (a := bb.len.toNat - 1) hpos
      change bb.len.toNat ≤ ((bb.len.toNat - 1) / block_size.toNat + 1) * block_size.toNat
      rw [Nat.add_mul, Nat.one_mul]
      omega
    · intro n hn
      have hn' : bb.len.toNat ≤ n * block_size.toNat := hn
      exact (Nat.div_lt_iff_lt_mul hpos).mpr (by omega)
  · -- `len - 1` wraps for an empty block.
    change ((bb.len - 1) / block_size + 1).toNat = _
    rw [hlen, UInt32.toNat_add, UInt32.toNat_div]
    rfl

variable (write : σ → Option (List UInt8) → ℤ → UInt32 → UInt32 → ℤ × σ) (env : Env)

/-- The loop of `sparse_file_foreach_chunk`: the numbers for the callback are set, then the block is
written. -/
def foreachBlocks (block_size : UInt32) :
    List BackedBlock → OutputFile (σ × UInt32 × UInt32) → ℤ × OutputFile (σ × UInt32 × UInt32)
  | [], out => (0, out)
  | bb :: rest, out =>
    let out := { out with dev := (out.dev.1, chunkBlocksOf block_size bb) }
    let (ret, out) :=
      sparseFileWriteBlock (callback_file_ops (foreachChunkWrite write)) env out bb
    if ret ≠ 0 then (ret, out) else foreachBlocks block_size rest out

/-- `sparse_file_foreach_chunk`, where `uninit` is what happens to be in `ret`: it is not set when
there are no blocks. -/
def sparseFileForeachChunk (uninit : ℤ) (s : SparseFile) (priv : σ) (sparse crc : Bool) :
    Except Fault (ℤ × σ) := do
  let chunks ← sparseCountChunks s
  let (ret, out) ← outputFileInit (callback_file_ops (foreachChunkWrite write)) (priv, 0, 0)
    s.block_size s.len sparse chunks crc
  if ret < 0 then return (-ENOMEM, out.dev.1)
  else
    let (ret, out) := foreachBlocks write env s.block_size s.backed_block_list.data_blocks out
    -- The output file is not closed.
    if ret ≠ 0 then return (ret, out.dev.1)
    else
      let out := outputFileClose (callback_file_ops (foreachChunkWrite write)) out
      return (if s.backed_block_list.data_blocks = [] then uninit else 0, out.dev.1)

end

/-- A call of the callback of `sparse_file_foreach_chunk`. -/
abbrev ChunkCall := CallbackCall × UInt32 × UInt32

/-- The calls that one chunk makes carry its number of blocks. -/
def forChunk (chunk : UInt32 × UInt32) (calls : List CallbackCall) : List ChunkCall :=
  calls.map fun c => (c, chunk)

/-- What a callback makes of calls, when it returns 0. -/
def runChunkCalls {σ : Type} (write : σ → Option (List UInt8) → ℤ → UInt32 → UInt32 → ℤ × σ)
    (calls : List ChunkCall) (priv : σ) : σ :=
  calls.foldl (fun s c => (write s c.1.1 c.1.2 c.2.1 c.2.2).2) priv

section

variable (env : Env) (sparse : Bool) (s : SparseFile)

/-- An output file for `s` of which nothing is written. -/
def unwritten : OutputFile (List CallbackCall) :=
  { cur_out_ptr := 0, chunk_cnt := 0, crc32 := 0, sparse, use_crc := false
    block_size := s.block_size, len := s.len, dev := [] }

/-- The calls that writing a block makes. -/
def blockCalls (bb : BackedBlock) : List CallbackCall :=
  (sparseFileWriteBlock (callback_file_ops recordCall) env (unwritten sparse s) bb).2.dev

/-- The calls that a gap makes: a header in the sparse format, or a skip. -/
def skipCalls (len : ℤ) : List CallbackCall :=
  (writeSkipChunk (callback_file_ops recordCall) (unwritten sparse s) len).2.dev

/-- The calls for the blocks of a list, and for the gaps between them. -/
def listCalls : List BackedBlock → UInt32 → List CallbackCall
  | [], _ => []
  | bb :: l, last_block =>
    (if bb.block > last_block then
      skipCalls sparse s ((bb.block - last_block).toNat * s.block_size.toNat) else []) ++
        (blockCalls env sparse s bb ++ listCalls l (bb.block + divRoundUp bb.len s.block_size))

/-- The calls for the blocks of a list, each with its chunk. -/
def chunkCalls (l : List BackedBlock) : List ChunkCall :=
  l.flatMap fun bb => forChunk (chunkBlocksOf s.block_size bb) (blockCalls env sparse s bb)

/-- The calls of a list are those of its first node, then those of the others. -/
theorem chunkCalls_cons (bb : BackedBlock) (l : List BackedBlock) :
    chunkCalls env sparse s (bb :: l) =
      forChunk (chunkBlocksOf s.block_size bb) (blockCalls env sparse s bb) ++
        chunkCalls env sparse s l := rfl

end

/-- The last chunk of a list. -/
def lastChunk (block_size : UInt32) : List BackedBlock → UInt32 × UInt32 → UInt32 × UInt32
  | [], chunk => chunk
  | bb :: rest, _ => lastChunk block_size rest (chunkBlocksOf block_size bb)

/-! ## The calls of the writers -/

section

variable {σ : Type} {write : σ → Option (List UInt8) → ℤ → UInt32 → UInt32 → ℤ × σ}
  {sparse crc : Bool} {env : Env} {s : SparseFile}

/-- The calls before do not matter. -/
theorem mimics_calls_before (sparse : Bool) (pre : List CallbackCall) :
    Mimics sparse (fun _ => True) (fun calls calls' => calls = pre ++ calls')
      (callback_file_ops recordCall) (callback_file_ops recordCall) := by
  refine mimics_calls sparse (fun _ _ _ => rfl) (fun _ _ _ => rfl) fun calls calls' data len hR => ?_
  rw [hR]
  exact List.append_assoc _ _ _

/-- The state of the callback has seen the calls behind `pre`, all for one chunk. -/
def Tagged (write : σ → Option (List UInt8) → ℤ → UInt32 → UInt32 → ℤ × σ)
    (pre : List CallbackCall) (priv : σ) (chunk : UInt32 × UInt32) (calls : List CallbackCall)
    (chk : σ × UInt32 × UInt32) : Prop :=
  ∃ k, calls = pre ++ k ∧ chk = (runChunkCalls write (forChunk chunk k) priv, chunk)

/-- Two lists of calls in a row are made one after the other. -/
theorem runChunkCalls_append (calls calls' : List ChunkCall) (priv : σ) :
    runChunkCalls write (calls ++ calls') priv =
      runChunkCalls write calls' (runChunkCalls write calls priv) :=
  List.foldl_append

/-- A callback that returns 0 is called for the chunk that is set. -/
theorem mimics_tagged (sparse : Bool) (hwrite : ∀ s data len b n, (write s data len b n).1 = 0)
    (pre : List CallbackCall) (priv : σ) (chunk : UInt32 × UInt32) :
    Mimics sparse (fun _ => True) (Tagged write pre priv chunk)
      (callback_file_ops recordCall) (callback_file_ops (foreachChunkWrite write)) := by
  refine mimics_calls sparse (fun _ _ _ => rfl) (fun _ _ _ => hwrite _ _ _ _ _) ?_
  rintro calls chk data len ⟨k, rfl, rfl⟩
  refine ⟨k ++ [(data, len)], List.append_assoc _ _ _, ?_⟩
  rw [show forChunk chunk (k ++ [(data, len)]) = forChunk chunk k ++ [((data, len), chunk)] from
    List.map_append, runChunkCalls_append]
  rfl

variable {τ : Type} {out : OutputFile (List CallbackCall)} {out' : OutputFile τ}

/-- Output files that are alike, but for their back ends. -/
abbrev AlikeFile (out : OutputFile (List CallbackCall)) (out' : OutputFile τ) : Prop :=
  Alike True (fun _ _ => True) out out'

/-- An output file in the state in which `sparse_file_foreach_chunk` writes the blocks of `s`. -/
structure FileFor (sparse crc : Bool) (s : SparseFile) (out : OutputFile (List CallbackCall)) :
    Prop where
  /-- Whether there is a checksum. -/
  use_crc : out.use_crc = crc
  /-- The format. -/
  sparse : out.sparse = sparse
  /-- The block size. -/
  block_size : out.block_size = s.block_size
  /-- The length. -/
  len : out.len = s.len

/-- An output file stays the one for the sparse file while its fixed fields are kept. -/
theorem FileFor.kept (h : FileFor sparse crc s out) {out₁ : OutputFile (List CallbackCall)}
    (hk : Kept out out₁) : FileFor sparse crc s out₁ :=
  ⟨hk.use_crc.trans h.use_crc, hk.sparse.trans h.sparse, hk.block_size.trans h.block_size,
    hk.len.trans h.len⟩

/-- An output file, and one of which nothing is written. -/
theorem FileFor.unwritten (h : FileFor sparse crc s out) :
    Alike False (fun calls calls' => calls = out.dev ++ calls') out (Simg.unwritten sparse s) :=
  ⟨h.sparse.symm, h.block_size.symm, h.len.symm, False.elim, (List.append_nil _).symm⟩

/-- `write_skip_chunk` does not change the checksum. -/
theorem writeSkipChunk_crc32 (ops : OutputFileOps τ) (out' : OutputFile τ) (len : ℤ) :
    (writeSkipChunk ops out' len).2.crc32 = out'.crc32 := by
  unfold writeSkipChunk writeSparseSkipChunk writeNormalSkipChunk
  dsimp only
  split_ifs <;> rfl

/-- A gap of the recording file adds the calls of its chunk, and the two files stay alike. -/
theorem FileFor.skip (h : FileFor sparse crc s out) (ha : AlikeFile out out') {len : ℤ}
    (hlen : 0 ≤ len) :
    FileFor sparse crc s (writeSkipChunk (callback_file_ops recordCall) out len).2 ∧
      AlikeFile (writeSkipChunk (callback_file_ops recordCall) out len).2 out' ∧
      (writeSkipChunk (callback_file_ops recordCall) out len).2.dev =
        out.dev ++ skipCalls sparse s len := by
  obtain ⟨hkept, halike⟩ := (mimics_calls_before sparse out.dev).skipChunk h.unwritten h.sparse hlen
  refine ⟨h.kept hkept, ?_, halike.dev⟩
  refine ⟨ha.sparse.trans hkept.sparse.symm, ha.block_size.trans hkept.block_size.symm,
    ha.len.trans hkept.len.symm, fun _ => ?_, trivial⟩
  exact ⟨(ha.crc trivial).1.trans hkept.use_crc.symm,
    (ha.crc trivial).2.trans (writeSkipChunk_crc32 _ _ _).symm⟩

/-- **All blocks** are handed to the callback as the calls of their chunks, in order. -/
theorem foreachBlocks_calls (hwrite : ∀ s data len b n, (write s data len b n).1 = 0)
    (hlt : s.block_size.toNat < 2 ^ 31) {l : List BackedBlock} {last last₁ : UInt32}
    {out₁ : OutputFile (List CallbackCall)} {out' : OutputFile (σ × UInt32 × UInt32)}
    (ho : FileFor sparse crc s out) (ha : AlikeFile out out')
    (hrun : writeBlocks (callback_file_ops recordCall) env s.block_size l last out =
      (0, last₁, out₁)) :
    FileFor sparse crc s out₁ ∧ last₁ = lastBlock s.block_size l last ∧
      out₁.dev = out.dev ++ listCalls env sparse s l last ∧
      ∃ out₁', foreachBlocks write env s.block_size l out' = (0, out₁') ∧ AlikeFile out₁ out₁' ∧
        out₁'.dev = (runChunkCalls write (chunkCalls env sparse s l) out'.dev.1,
          lastChunk s.block_size l out'.dev.2) := by
  induction l generalizing out out' last with
  | nil =>
    cases hrun
    exact ⟨ho, rfl, (List.append_nil _).symm, out', rfl, ha, rfl⟩
  | cons bb l ih =>
    unfold writeBlocks at hrun
    unfold foreachBlocks listCalls
    -- The gap in front of the block is written to the first file only.
    have hgap : ∃ gap calls, (if bb.block > last then
          (writeSkipChunk (callback_file_ops recordCall) out
            ((bb.block - last).toNat * s.block_size.toNat)).2 else out) = gap ∧
        (if bb.block > last then
          skipCalls sparse s ((bb.block - last).toNat * s.block_size.toNat) else []) = calls ∧
        FileFor sparse crc s gap ∧ AlikeFile gap out' ∧ gap.dev = out.dev ++ calls := by
      split_ifs
      · exact ⟨_, _, rfl, rfl,
          ho.skip ha (Int.mul_nonneg (Int.natCast_nonneg _) (Int.natCast_nonneg _))⟩
      · exact ⟨_, _, rfl, rfl, ho, ha, (List.append_nil _).symm⟩
    obtain ⟨gap, calls, hgap, hcalls, hfor, halike, hdev⟩ := hgap
    rw [hgap] at hrun
    rw [hcalls]
    have hsize : gap.block_size.toNat < 2 ^ 31 := by rwa [hfor.block_size]
    obtain ⟨chunk, hchunk⟩ : ∃ chunk, chunkBlocksOf s.block_size bb = chunk := ⟨_, rfl⟩
    have hstart : Alike True (Tagged write gap.dev out'.dev.1 chunk) gap
        { out' with dev := (out'.dev.1, chunk) } :=
      ⟨halike.sparse, halike.block_size, halike.len, halike.crc, [], (List.append_nil _).symm, rfl⟩
    have hblock := (mimics_tagged sparse hwrite gap.dev out'.dev.1 chunk).block env hstart hfor.sparse
      hsize bb ⟨trivial, trivial⟩
    have hcall := (mimics_calls_before sparse gap.dev).block env hfor.unwritten hfor.sparse hsize bb
      ⟨trivial, trivial⟩
    dsimp only at hrun ⊢
    rw [hchunk]
    generalize sparseFileWriteBlock (callback_file_ops recordCall) env gap bb = r
      at hrun hblock hcall
    generalize sparseFileWriteBlock (callback_file_ops (foreachChunkWrite write)) env
      { out' with dev := (out'.dev.1, chunk) } bb = r' at hblock ⊢
    obtain ⟨ret, out₂⟩ := r
    obtain ⟨ret', out₂'⟩ := r'
    dsimp only at hrun ⊢
    split_ifs at hrun with hret
    · exact absurd (Prod.mk.inj hrun).1 hret
    obtain rfl := not_not.mp hret
    obtain ⟨-, hret', hkept, halike₂⟩ := hblock (le_refl 0)
    obtain ⟨-, -, -, hcall⟩ := hcall (le_refl 0)
    obtain ⟨k, hk, hstate⟩ := halike₂.dev
    dsimp only at hret' hkept hk hstate
    have hk' : k = blockCalls env sparse s bb := List.append_cancel_left (hk.symm.trans hcall.dev)
    rw [if_neg (not_not.mpr hret')]
    obtain ⟨hfor₁, hlast, hdev₁, out₁', hrest, halike₁, hstate₁⟩ := ih (hfor.kept hkept)
      ⟨halike₂.sparse, halike₂.block_size, halike₂.len, halike₂.crc, trivial⟩ hrun
    refine ⟨hfor₁, hlast, ?_, out₁', hrest, halike₁, ?_⟩
    · rw [hdev₁, hk, hk', hdev, List.append_assoc, List.append_assoc]
    · rw [hstate₁, hstate, hk', chunkCalls_cons, runChunkCalls_append, hchunk]
      rw [show lastChunk s.block_size (bb :: l) out'.dev.2 =
        lastChunk s.block_size l (chunkBlocksOf s.block_size bb) from rfl, hchunk]

/-- `write_all_blocks`, and the loop of `sparse_file_foreach_chunk`. -/
theorem allBlocks_calls (hwrite : ∀ s data len b n, (write s data len b n).1 = 0)
    (hlt : s.block_size.toNat < 2 ^ 31) {out₁ : OutputFile (List CallbackCall)}
    {out' : OutputFile (σ × UInt32 × UInt32)} (ho : FileFor sparse crc s out) (ha : AlikeFile out out')
    (hall : writeAllBlocks (callback_file_ops recordCall) env s out = .ok (0, out₁)) :
    FileFor sparse crc s out₁ ∧
      out₁.dev = out.dev ++ (listCalls env sparse s s.blocks 0 ++
        if 0 < s.pad then skipCalls sparse s s.pad else []) ∧
      ∃ out₁', foreachBlocks write env s.block_size s.blocks out' = (0, out₁') ∧
        AlikeFile out₁ out₁' ∧
        out₁'.dev = (runChunkCalls write (chunkCalls env sparse s s.blocks) out'.dev.1,
          lastChunk s.block_size s.blocks out'.dev.2) := by
  unfold writeAllBlocks at hall
  have hblocks := fun last₁ out₂ => @foreachBlocks_calls _ write sparse crc env s out hwrite hlt
    s.backed_block_list.data_blocks 0 last₁ out₂ out' ho ha
  generalize writeBlocks (callback_file_ops recordCall) env s.block_size
    s.backed_block_list.data_blocks 0 out = r at hall hblocks
  obtain ⟨ret, last_block, out₂⟩ := r
  dsimp only at hall
  by_cases hret : ret = 0
  · subst hret
    -- The blocks are the calls of the list, and the skip to the end is those behind it.
    obtain ⟨hfor, rfl, hdev, out₁', hrun, halike, hstate⟩ := hblocks last_block out₂ rfl
    rw [if_neg (not_not.mpr rfl)] at hall
    change (if s.pad < 0 then _ else if s.pad > 0 then _ else _) = _ at hall
    split_ifs at hall with hneg hpos
    · obtain rfl := (Prod.mk.inj (Except.ok.inj hall)).2
      obtain ⟨hfor₁, halike₁, hdev₁⟩ := hfor.skip halike (le_of_lt hpos)
      refine ⟨hfor₁, ?_, out₁', hrun, halike₁, hstate⟩
      refine hdev₁.trans ?_
      rw [hdev, if_pos hpos, List.append_assoc]
      rfl
    · obtain rfl := (Prod.mk.inj (Except.ok.inj hall)).2
      refine ⟨hfor, ?_, out₁', hrun, halike, hstate⟩
      rw [hdev, if_neg hpos, List.append_nil]
      rfl
  · rw [if_pos hret] at hall
    exact absurd (Prod.mk.inj (Except.ok.inj hall)).1 hret

/-- Opening the output is one call in the sparse format, the one of the header. -/
theorem outputFileInit_calls {bs chunks : UInt32} {len : ℤ} (hbs : bs ≠ 0) (hlt : bs.toNat < 2 ^ 31)
    (h : outputFileInit (callback_file_ops recordCall) [] bs len sparse chunks crc = .ok (0, out)) :
    out.use_crc = crc ∧ out.dev.length = if sparse then 1 else 0 := by
  cases sparse with
  | false =>
    rw [outputFileInit_normal _ _ hlt] at h
    cases h
    exact ⟨rfl, rfl⟩
  | true =>
    unfold outputFileInit at h
    rw [if_neg (Nat.not_le.mpr hlt), if_pos rfl, if_neg hbs] at h
    change (if (0 : ℤ) < 0 then _ else _) = _ at h
    rw [if_neg (lt_irrefl 0)] at h
    cases h
    exact ⟨rfl, rfl⟩

/-- The end chunk is two calls, when there is a checksum. -/
theorem outputFileClose_calls (h : FileFor sparse crc s out) :
    (outputFileClose (callback_file_ops recordCall) out).dev.length =
      out.dev.length + if sparse && crc then 2 else 0 := by
  unfold outputFileClose writeSparseEndChunk
  rw [h.sparse, h.use_crc]
  cases sparse <;> cases crc
  · rfl
  · rfl
  · rfl
  · change (out.dev ++ [_] ++ [_]).length = _
    rw [List.length_append, List.length_append]
    rfl

/-- **The calls of `sparse_file_foreach_chunk`** are those of `sparse_file_callback` without those for
the gaps, and each is for the chunk of its block, which covers it when it has bytes. The call for the
header is for no chunk, and those for the end chunk are for the last one. -/
theorem sparseFileForeachChunk_calls {calls : List CallbackCall}
    (h : sparseFileCallback recordCall env s [] sparse crc = .ok (0, calls))
    (hne : s.blocks ≠ []) :
    (∀ bb ∈ s.blocks, ChunkNumbers s.block_size bb (chunkBlocksOf s.block_size bb)) ∧
    ∃ header tail, header.length = (if sparse then 1 else 0) ∧
      tail.length = (if sparse && crc then 2 else 0) ∧
      calls = header ++ (listCalls env sparse s s.blocks 0 ++
        (if 0 < s.pad then skipCalls sparse s s.pad else [])) ++ tail ∧
      ∀ {σ : Type} (write : σ → Option (List UInt8) → ℤ → UInt32 → UInt32 → ℤ × σ),
        (∀ s data len b n, (write s data len b n).1 = 0) → ∀ uninit priv,
          sparseFileForeachChunk write env uninit s priv sparse crc = .ok (0,
            runChunkCalls write (forChunk (0, 0) header ++ chunkCalls env sparse s s.blocks ++
              forChunk (lastChunk s.block_size s.blocks (0, 0)) tail) priv) := by
  obtain ⟨hbs, hlt, -⟩ := sparseFileWrite_done h
  refine ⟨fun bb _ => chunkBlocksOf_numbers hbs bb, ?_⟩
  obtain ⟨chunks, hcount⟩ := sparseCountChunks_ok (s := s) hbs
  obtain ⟨out, -, hinit, -, hsparse, hsize, hlen, -⟩ := (mimics_calls_before sparse []).init
    (List.nil_append []).symm hbs hlt s.len chunks crc
  obtain ⟨huse, hheader⟩ := outputFileInit_calls hbs hlt hinit
  have ho : FileFor sparse crc s out := ⟨huse, hsparse, hsize, hlen⟩
  -- The calls of the recording run are cut into header, blocks and what closes the file.
  obtain ⟨out₁, hall, hcalls⟩ := writeAllBlocks_of_write hcount hinit h
  have hblocks := fun {σ} write hwrite out' =>
    @allBlocks_calls σ write sparse crc env s out hwrite hlt out₁ out' ho
  obtain ⟨hfor, hdev, -⟩ := hblocks (fun _ _ _ _ _ => (0, ())) (fun _ _ _ _ _ => rfl)
    { out with dev := ((), 0, 0) } ⟨rfl, rfl, rfl, fun _ => ⟨rfl, rfl⟩, trivial⟩ hall
  obtain ⟨tail, htail⟩ : ∃ tail, calls = out₁.dev ++ tail := by
    have halike : Alike True (fun calls calls' => calls = out₁.dev ++ calls') out₁
        { out₁ with dev := [] } := ⟨rfl, rfl, rfl, fun _ => ⟨rfl, rfl⟩, (List.append_nil _).symm⟩
    obtain ⟨dev, dev', hR, hclose, -⟩ := (mimics_calls_before sparse out₁.dev).close halike hfor.sparse
    rw [callback_pad] at hclose
    exact ⟨dev', hcalls.symm.trans (hclose.trans hR)⟩
  refine ⟨out.dev, tail, hheader, ?_, ?_, fun write hwrite uninit priv => ?_⟩
  · have hlength := outputFileClose_calls hfor
    rw [hcalls, htail, List.length_append] at hlength
    omega
  · rw [htail, hdev]
  have hhead : Tagged write [] priv (0, 0) [] (priv, 0, 0) := ⟨[], rfl, rfl⟩
  -- The run for the callback goes with it, step by step.
  obtain ⟨out₂, out', hinit₂, hinit', -, -, -, halike⟩ := (mimics_tagged sparse hwrite [] priv
    (0, 0)).init hhead hbs hlt s.len chunks crc
  obtain rfl : out₂ = out := (Prod.mk.inj (Except.ok.inj (hinit₂.symm.trans hinit))).2
  obtain ⟨header, hheader', hstate⟩ := halike.dev
  obtain rfl : out₂.dev = header := hheader'
  obtain ⟨-, -, out₁', hrun, halike₁, hstate₁⟩ := hblocks write hwrite out'
    ⟨halike.sparse, halike.block_size, halike.len, halike.crc, trivial⟩ hall
  rw [hstate] at hstate₁
  obtain ⟨chunk, hchunk⟩ : ∃ chunk, lastChunk s.block_size s.blocks (0, 0) = chunk := ⟨_, rfl⟩
  have hend : Alike True (Tagged write out₁.dev out₁'.dev.1 chunk) out₁ out₁' := by
    refine ⟨halike₁.sparse, halike₁.block_size, halike₁.len, halike₁.crc, [],
      (List.append_nil _).symm, ?_⟩
    rw [hstate₁, hchunk]
    rfl
  obtain ⟨dev, dev', ⟨k, hk, hstate₂⟩, hclose, hclose'⟩ := (mimics_tagged sparse hwrite out₁.dev
    out₁'.dev.1 chunk).close hend hfor.sparse
  rw [callback_pad] at hclose hclose'
  -- What closes the file is the same in both runs.
  obtain rfl : k = tail :=
    List.append_cancel_left (hk.symm.trans (hclose.symm.trans (hcalls.trans htail)))
  have hblocks' : foreachBlocks write env s.block_size s.backed_block_list.data_blocks out' =
      (0, out₁') := hrun
  have hblocks_ne : s.backed_block_list.data_blocks ≠ [] := hne
  simp only [sparseFileForeachChunk, hcount, hinit', hblocks', bind, Except.bind, lt_irrefl, if_false]
  rw [if_neg (not_not.mpr rfl), if_neg hblocks_ne, hclose', hstate₂, hstate₁, hchunk,
    runChunkCalls_append, runChunkCalls_append]
  rfl

/-- Two fills with a gap between them are handed over as the calls of their chunks. -/
theorem twoFills_foreachChunk :
    (∀ bb ∈ twoFills.blocks, ChunkNumbers 4 bb (chunkBlocksOf 4 bb)) ∧
    ∃ calls header tail, header.length = 1 ∧ tail.length = 2 ∧
      calls = header ++ (listCalls noFiles true twoFills twoFills.blocks 0 ++
        (if 0 < twoFills.pad then skipCalls true twoFills twoFills.pad else [])) ++ tail ∧
      ∀ {σ : Type} (write : σ → Option (List UInt8) → ℤ → UInt32 → UInt32 → ℤ × σ),
        (∀ s data len b n, (write s data len b n).1 = 0) → ∀ uninit priv,
          sparseFileForeachChunk write noFiles uninit twoFills priv true true = .ok (0,
            runChunkCalls write (forChunk (0, 0) header ++ chunkCalls noFiles true twoFills
              twoFills.blocks ++ forChunk (lastChunk 4 twoFills.blocks (0, 0)) tail) priv) := by
  have hcalls := @sparseFileForeachChunk_calls true true noFiles twoFills _ rfl (by decide)
  exact ⟨hcalls.1, _, hcalls.2⟩

end

end AmlogicToolkit.Simg
