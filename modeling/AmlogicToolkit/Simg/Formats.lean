import AmlogicToolkit.Simg.Consistent

/-!
# The two output formats

What `sparse_file_write` writes to an empty file in the normal format, for blocks of any length: the
gaps, the data with zeros up to the end of the last block, and the fills as long as they are, one
after the other (`sparseFileWrite_stream`). A fill that ends inside a block moves all that follows it
to the front, where the sparse format goes on with the fill to the end of the block: the two files
describe the same image exactly when only zeros follow (`sameImage_iff`).
-/

namespace AmlogicToolkit.Simg

open Bytes

/-- What is promised of the two formats: both files are written to an empty file, and that of the
normal format is the expansion of the other. -/
def SameImage (env : Env) (s : SparseFile) (crc crc' : Bool) : Prop :=
  ∃ normal sparse, sparseFileWrite file_ops env s ⟨[], 0⟩ false crc = .ok (0, normal) ∧
    sparseFileWrite file_ops env s ⟨[], 0⟩ true crc' = .ok (0, sparse) ∧
    normal.bytes = expand sparse.bytes

section

variable (w : Files) (bs : UInt32)

/-- A fill that ends inside a block. -/
def BackedBlock.EndsInside (bb : BackedBlock) : Prop :=
  (∃ v, bb.source = .fill v) ∧ ¬ bs.toNat ∣ bb.len.toNat

/-- The bytes of a fill word behind the end of a fill, up to the end of its last block. -/
def Files.rest (bb : BackedBlock) : List UInt8 := (w.expanded bs bb).drop bb.len.toNat

/-- Behind a fill that ends inside a block there are only zeros: in its word, and in the blocks. -/
def Files.InPlace : List BackedBlock → Prop
  | [] => True
  | bb :: l => (bb.EndsInside bs → (∀ x ∈ w.rest bs bb, x = 0) ∧
      ∀ c ∈ l, ∀ x ∈ w.expanded bs c, x = 0) ∧ Files.InPlace l

/-- The bytes of a block in the normal format. A fill ends where it ends. -/
def Files.normal (bb : BackedBlock) : List UInt8 :=
  match bb.source with
  | .fill _ => w.read bb.source bb.len.toNat
  | _ => w.wholeBytes bs bb

/-- The bytes of a list behind block `last` in the normal format. -/
def Files.normalAll : List BackedBlock → ℕ → List UInt8
  | [], _ => []
  | bb :: l, last => List.replicate ((bb.block.toNat - last) * bs.toNat) 0 ++
      (w.normal bs bb ++ Files.normalAll l (bb.stopBlock bs))

end

/-! ## Writing a stream -/

/-- An output file in the normal format, that shows `data` up to its offset, and nothing behind
it. -/
structure Streams (bs : UInt32) (len : ℤ) (data : List UInt8) (out : OutputFile RawFile) : Prop where
  /-- The format is the normal one. -/
  sparse : out.sparse = false
  /-- The block size. -/
  block_size : out.block_size = bs
  /-- The length of the image. -/
  len : out.len = len
  /-- The offset. -/
  pos : out.dev.pos = data.length
  /-- The file ends at the offset, or in front of it. -/
  length_le : out.dev.bytes.length ≤ data.length
  /-- What it shows. -/
  shown : padTo 0 data.length out.dev.bytes = data

section

variable {w : Files} {bs : UInt32} {len : ℤ} {data : List UInt8} {out : OutputFile RawFile}

/-- A write goes on with the stream. -/
theorem Streams.put (h : Streams bs len data out) (d : List UInt8) :
    Streams bs len (data ++ d) (out.put d) := by
  by_cases hd : d = []
  · rw [hd, List.append_nil, OutputFile.put_nil]
    exact h
  have hbytes : (out.put d).dev.bytes = data ++ d := by
    change overwrite 0 out.dev.bytes out.dev.pos d = _
    rw [h.pos, overwrite_behind 0 h.length_le hd, h.shown]
  refine ⟨h.sparse, h.block_size, h.len, ?_, ?_, ?_⟩
  · rw [List.length_append, ← h.pos]
    rfl
  · rw [hbytes]
  · rw [hbytes, padTo_self rfl]

/-- A skip goes on with zeros. -/
theorem Streams.skip (h : Streams bs len data out) (n : ℕ) :
    Streams bs len (data ++ List.replicate n 0)
      { out with dev := ⟨out.dev.bytes, out.dev.pos + n⟩ } := by
  refine ⟨h.sparse, h.block_size, h.len, ?_, ?_, ?_⟩
  · rw [List.length_append, List.length_replicate, ← h.pos]
  · rw [List.length_append]
    exact h.length_le.trans (Nat.le_add_right _ _)
  · rw [List.length_append, List.length_replicate, padTo_add 0 h.length_le, h.shown]

/-- `write_normal_data_chunk` goes on with the data, and with zeros up to the end of its last
block. -/
theorem Streams.dataChunk (h : Streams bs len data out) (hbs : bs ≠ 0) {n : UInt32}
    (hn : n.toNat + bs.toNat ≤ 2 ^ 32) {d : List UInt8} (hd : d.length = n.toNat) :
    ∃ out', writeDataChunk file_ops out n d = (0, out') ∧
      Streams bs len (data ++ padTo 0 (padded bs.toNat n.toNat) d) out' := by
  have hle := le_padded (n := n.toNat) (toNat_pos_of_ne_zero hbs)
  have hsub := align_sub_toNat hbs hn
  have hput := h.put d
  unfold writeDataChunk writeNormalDataChunk
  rw [h.sparse, if_neg Bool.false_ne_true]
  extract_lets rnd_up_len
  -- `align` does not wrap here, so it is the padded length.
  have hrnd : rnd_up_len = align n bs := by rw [← h.block_size]
  have htake : d.take n.toNat = d := List.take_of_length_le hd.le
  rw [write_eq out hd.ge, htake]
  dsimp only
  rw [if_neg (by decide), hrnd, padTo, hd, ← List.append_assoc]
  -- What is missing to the block is skipped, and reads as zeros.
  by_cases hgt : align n bs > n
  · rw [if_pos hgt, hsub]
    have hskip : (out.put d).skip file_ops ((padded bs.toNat n.toNat - n.toNat : ℕ) : ℤ) =
        writeSkipChunk file_ops (out.put d) (padded bs.toNat n.toNat - n.toNat : ℕ) := by
      unfold writeSkipChunk
      rw [hput.sparse, if_neg Bool.false_ne_true]
      rfl
    rw [hskip, writeSkipChunk_eq _ hput.sparse]
    exact ⟨_, rfl, hput.skip _⟩
  · have heq : padded bs.toNat n.toNat = n.toNat := by
      rw [gt_iff_lt, UInt32.lt_iff_toNat_lt, align_toNat hbs hn] at hgt
      omega
    rw [if_neg hgt, heq, Nat.sub_self, List.replicate_zero, List.append_nil]
    exact ⟨_, rfl, hput⟩

/-- A fill goes on behind whole words as at its start. -/
theorem Files.read_fill_add (v : UInt32) {m : ℕ} (hm : m % 4 = 0) (n : ℕ) :
    w.read (.fill v) (m + n) = w.read (.fill v) m ++ w.read (.fill v) n := by
  unfold Files.read
  rw [List.range_add, List.map_append, List.map_map]
  congr 1
  refine List.map_congr_left fun k _ => ?_
  have hmod : (m + k) % 4 = k % 4 := by omega
  simp only [Function.comp_apply, Files.byte, BlockSource.label, hmod]

/-- The loop of `write_normal_fill_chunk` goes on with the fill. -/
theorem Streams.fillLoop (w : Files) (hbs : bs ≠ 0) (h4 : bs.toNat % 4 = 0) {v : UInt32} {fuel : ℕ}
    {n : UInt32} (h : Streams bs len data out) (hfuel : n.toNat ≤ fuel) :
    ∃ out', writeFillLoop file_ops (fillBuf bs v) fuel out n = (0, out') ∧
      Streams bs len (data ++ w.read (.fill v) n.toNat) out' := by
  induction fuel generalizing out data n with
  | zero =>
    rw [Nat.le_zero.mp hfuel]
    exact ⟨out, rfl, (List.append_nil data).symm ▸ h⟩
  | succ fuel ih =>
    unfold writeFillLoop
    by_cases hn : n ≠ 0
    · have hpos := toNat_pos_of_ne_zero hbs
      have hnpos := toNat_pos_of_ne_zero hn
      rw [if_pos hn]
      extract_lets write_len
      have hmin : write_len.toNat = min n.toNat bs.toNat := by
        rw [← h.block_size]
        exact uint32_toNat_min _ _
      have hrest : (n - write_len).toNat = n.toNat - write_len.toNat := uint32_toNat_sub_min _ _
      -- A block holds whole words, so the buffer is the front of the fill.
      have hbuf : fillBuf bs v = w.read (.fill v) bs.toNat := by
        have hdiv : bs.toNat / 4 * 4 = bs.toNat := by omega
        rw [fillBuf_eq h4, ← Files.read_fill, hdiv]
      have htake : (fillBuf bs v).take write_len.toNat = w.read (.fill v) write_len.toNat := by
        rw [hbuf, Files.take_read, hmin, Nat.min_assoc, Nat.min_self]
      rw [write_eq out (by rw [hbuf, Files.length_read]; omega), htake]
      dsimp only
      rw [if_neg (by decide)]
      have hle : (n - write_len).toNat ≤ fuel := by omega
      obtain ⟨out', heq, h'⟩ := ih (h.put (w.read (.fill v) write_len.toNat)) hle
      refine ⟨out', heq, ?_⟩
      rw [List.append_assoc, hrest] at h'
      -- The last pass writes what is left, every other one a block.
      rcases Nat.le_total n.toNat bs.toNat with hle | hle
      · rw [hmin, Nat.min_eq_left hle, Nat.sub_self] at h'
        exact (List.append_nil (w.read (.fill v) n.toNat)) ▸ h'
      · rw [hmin, Nat.min_eq_right hle, ← Files.read_fill_add v h4, Nat.add_sub_cancel' hle] at h'
        exact h'
    · rw [if_neg hn, not_ne_iff.mp hn]
      exact ⟨out, rfl, (List.append_nil data).symm ▸ h⟩

/-- **One block** is written as its normal bytes, at the end of the stream. -/
theorem Streams.block (h : Streams bs len data out) (hbs : bs ≠ 0) (h4 : bs.toNat % 4 = 0)
    {bb : BackedBlock} (hw : w.Serves bb) (hn : bb.len.toNat + bs.toNat ≤ 2 ^ 32) :
    ∃ out', sparseFileWriteBlock file_ops w.env out bb = (0, out') ∧
      Streams bs len (data ++ w.normal bs bb) out' := by
  have hdata := h.dataChunk hbs hn (Files.length_read bb.source bb.len.toNat (w := w))
  rw [sparseFileWriteBlock_read file_ops out hw]
  unfold Files.normal
  cases hsrc : bb.source with
  | fill v =>
    change ∃ out', writeFillChunk file_ops out bb.len v = (0, out') ∧ _
    unfold writeFillChunk writeNormalFillChunk
    rw [h.sparse, if_neg Bool.false_ne_true, h.block_size]
    exact h.fillLoop w hbs h4 (le_refl _)
  | data p => rw [hsrc] at hdata; rw [Files.wholeBytes, hsrc]; exact hdata
  | file f o => rw [hsrc] at hdata; rw [Files.wholeBytes, hsrc]; exact hdata
  | fd g o => rw [hsrc] at hdata; rw [Files.wholeBytes, hsrc]; exact hdata

/-- **All blocks** of a placed list are written as their normal bytes, with zeros for the gaps. -/
theorem Streams.blocks {n : ℕ} (hr : Room bs n) (h4 : bs.toNat % 4 = 0) {l : List BackedBlock}
    {last : UInt32} (hp : Placed w bs n l last.toNat) (h : Streams bs len data out) :
    ∃ last' out', writeBlocks file_ops w.env bs l last out = (0, last', out') ∧
      last'.toNat = stopOf bs l last.toNat ∧
        Streams bs len (data ++ w.normalAll bs l last.toNat) out' := by
  induction l generalizing data out last with
  | nil => exact ⟨last, out, rfl, rfl, (List.append_nil data).symm ▸ h⟩
  | cons bb l ih =>
    have hin := hp.inside bb List.mem_cons_self
    unfold writeBlocks
    extract_lets out0
    -- The gap in front is skipped, where there is one.
    have h0 : Streams bs len
        (data ++ List.replicate ((bb.block.toNat - last.toNat) * bs.toNat) 0) out0 := by
      by_cases hgt : bb.block > last
      · have hskip : (writeSkipChunk file_ops out ((bb.block - last).toNat * bs.toNat)).2 =
            { out with dev := ⟨out.dev.bytes,
              out.dev.pos + (bb.block.toNat - last.toNat) * bs.toNat⟩ } := by
          rw [hp.gap, ← Nat.cast_mul, writeSkipChunk_eq out h.sparse]
        simp only [out0, if_pos hgt, hskip]
        exact h.skip _
      · have hle : bb.block.toNat - last.toNat = 0 := by
          rw [gt_iff_lt, UInt32.lt_iff_toNat_lt] at hgt
          omega
        simp only [out0, if_neg hgt, hle, Nat.zero_mul, List.replicate_zero, List.append_nil]
        exact h
    obtain ⟨out1, heq1, h1⟩ := h0.block hr.ne_zero h4 (hp.blocks bb List.mem_cons_self) (hr.fits hin)
    have hstop := hp.stopBlock_eq hr
    obtain ⟨last', out', heq, hlast, h2⟩ := ih (hstop.symm ▸ hp.tail) h1
    rw [heq1]
    dsimp only
    rw [if_neg (not_not.mpr rfl), heq]
    rw [hstop] at hlast h2
    refine ⟨last', out', rfl, hlast, ?_⟩
    rw [Files.normalAll, ← List.append_assoc, ← List.append_assoc]
    exact h2

end

/-! ## The two streams -/

section

variable {w : Files} {bs : UInt32} {bb : BackedBlock} {l : List BackedBlock} {last : ℕ}

/-- An expanded fill is its word over whole blocks. -/
theorem Files.expanded_fill (h4 : bs.toNat % 4 = 0) {v : UInt32} (hsrc : bb.source = .fill v) :
    w.expanded bs bb = w.read (.fill v) (padded bs.toNat bb.len.toNat) := by
  have hmod : padded bs.toNat bb.len.toNat % 4 = 0 := by
    rw [padded, Nat.mul_mod, h4, Nat.zero_mul, Nat.zero_mod]
  have hdiv : padded bs.toNat bb.len.toNat / 4 * 4 = padded bs.toNat bb.len.toNat := by omega
  unfold Files.expanded
  rw [hsrc]
  dsimp only
  rw [← Files.read_fill, hdiv]

/-- An expanded block has the length of its blocks, rounded up. -/
theorem Files.length_expanded (hbs : bs ≠ 0) (h4 : bs.toNat % 4 = 0) :
    (w.expanded bs bb).length = padded bs.toNat bb.len.toNat := by
  cases hsrc : bb.source with
  | fill v => rw [Files.expanded_fill h4 hsrc, Files.length_read]
  | data p => rw [Files.expanded, hsrc, Files.length_wholeBytes hbs]
  | file f o => rw [Files.expanded, hsrc, Files.length_wholeBytes hbs]
  | fd g o => rw [Files.expanded, hsrc, Files.length_wholeBytes hbs]

/-- The two formats have the same bytes for a block that is no fill that ends inside a block. -/
theorem Files.expanded_of_not_endsInside (hbs : bs ≠ 0) (h4 : bs.toNat % 4 = 0)
    (h : ¬ bb.EndsInside bs) : w.expanded bs bb = w.normal bs bb := by
  cases hsrc : bb.source with
  | fill v =>
    have hdvd : bs.toNat ∣ bb.len.toNat := by
      by_contra hdvd
      exact h ⟨⟨v, hsrc⟩, hdvd⟩
    rw [Files.expanded_fill h4 hsrc, padded_eq (toNat_pos_of_ne_zero hbs) hdvd, Files.normal, hsrc]
  | data p => rw [Files.expanded, Files.normal, hsrc]
  | file f o => rw [Files.expanded, Files.normal, hsrc]
  | fd g o => rw [Files.expanded, Files.normal, hsrc]

/-- A fill that ends inside a block goes on in the sparse format. -/
theorem Files.expanded_of_endsInside (hbs : bs ≠ 0) (h4 : bs.toNat % 4 = 0)
    (h : bb.EndsInside bs) :
    w.expanded bs bb = w.normal bs bb ++ w.rest bs bb ∧ w.rest bs bb ≠ [] := by
  obtain ⟨⟨v, hsrc⟩, hdvd⟩ := h
  have hle := le_padded (n := bb.len.toNat) (toNat_pos_of_ne_zero hbs)
  have hne : padded bs.toNat bb.len.toNat ≠ bb.len.toNat := fun heq =>
    hdvd (heq ▸ dvd_padded bs.toNat bb.len.toNat)
  have htake : (w.expanded bs bb).take bb.len.toNat = w.normal bs bb := by
    rw [Files.expanded_fill h4 hsrc, Files.take_read, Nat.min_eq_left hle, Files.normal, hsrc]
  refine ⟨?_, fun h0 => ?_⟩
  · rw [← htake, Files.rest, List.take_append_drop]
  · have hlen := congrArg List.length h0
    rw [Files.rest, List.length_drop, Files.length_expanded hbs h4, List.length_nil] at hlen
    omega

/-- The normal format writes no byte of a block that the expanded block does not have. -/
theorem Files.normal_sublist (hbs : bs ≠ 0) (h4 : bs.toNat % 4 = 0) (bb : BackedBlock) :
    (w.normal bs bb).Sublist (w.expanded bs bb) := by
  by_cases h : bb.EndsInside bs
  · rw [(Files.expanded_of_endsInside hbs h4 h).1]
    exact List.sublist_append_left _ _
  · rw [Files.expanded_of_not_endsInside hbs h4 h]

/-- The normal format leaves out the rests of the fills. -/
theorem Files.normalAll_sublist (hbs : bs ≠ 0) (h4 : bs.toNat % 4 = 0) (l : List BackedBlock)
    (last : ℕ) : (w.normalAll bs l last).Sublist (w.expandedAll bs l last) := by
  induction l generalizing last with
  | nil => exact List.Sublist.refl _
  | cons bb l ih =>
    exact (List.Sublist.refl _).append ((Files.normal_sublist hbs h4 bb).append (ih _))

/-- The blocks of a placed list, expanded, reach from the block in front to the one behind. -/
theorem Files.length_expandedAll (hbs : bs ≠ 0) (h4 : bs.toNat % 4 = 0) {n : ℕ}
    (h : Placed w bs n l last) :
    last * bs.toNat + (w.expandedAll bs l last).length = stopOf bs l last * bs.toNat := by
  induction l generalizing last with
  | nil => rfl
  | cons bb l ih =>
    have hle := h.lower bb List.mem_cons_self
    have hstop : bb.stopBlock bs * bs.toNat =
        bb.block.toNat * bs.toNat + padded bs.toNat bb.len.toNat := by
      rw [BackedBlock.stopBlock, Nat.add_mul, padded, Nat.mul_comm bs.toNat]
    have hgap : last * bs.toNat + (bb.block.toNat - last) * bs.toNat =
        bb.block.toNat * bs.toNat := by
      rw [← Nat.add_mul, Nat.add_sub_cancel' hle]
    rw [Files.expandedAll, List.length_append, List.length_append, List.length_replicate,
      Files.length_expanded hbs h4, stopOf, ← ih h.tail, hstop]
    omega

/-- Blocks of zeros are a stream of zeros. -/
theorem Files.expandedAll_zero : (∀ x ∈ w.expandedAll bs l last, x = 0) ↔
    ∀ c ∈ l, ∀ x ∈ w.expanded bs c, x = 0 := by
  induction l generalizing last with
  | nil => exact iff_of_true (List.forall_mem_nil _) (List.forall_mem_nil _)
  | cons bb l ih =>
    rw [Files.expandedAll, List.forall_mem_cons, List.forall_mem_append, List.forall_mem_append, ih]
    exact and_iff_right fun x hx => List.eq_of_mem_replicate hx

/-- Where all blocks are zero, nothing stands behind a fill that is not. -/
theorem Files.inPlace_of_zero (h : ∀ c ∈ l, ∀ x ∈ w.expanded bs c, x = 0) : w.InPlace bs l := by
  induction l with
  | nil => trivial
  | cons bb l ih =>
    obtain ⟨hbb, hl⟩ := List.forall_mem_cons.mp h
    exact ⟨fun _ => ⟨fun x hx => hbb x (List.mem_of_mem_drop hx), hl⟩, ih hl⟩

/-- Zeros with zeros behind them are zeros. -/
theorem eq_replicate_append {a : List UInt8} (h : ∀ x ∈ a, x = 0) (k : ℕ) :
    a ++ List.replicate k 0 = List.replicate (a.length + k) 0 := by
  rw [← List.replicate_append_replicate, ← List.eq_replicate_of_mem h]

/-- **The two streams are the same**, with zeros up to one length, exactly when there are only zeros
behind each fill that ends inside a block. -/
theorem Files.stream_eq_iff (hbs : bs ≠ 0) (h4 : bs.toNat % 4 = 0) {k m : ℕ}
    (hlen : (w.normalAll bs l last).length + k = (w.expandedAll bs l last).length + m) :
    w.normalAll bs l last ++ List.replicate k 0 = w.expandedAll bs l last ++ List.replicate m 0 ↔
      w.InPlace bs l := by
  induction l generalizing last with
  | nil =>
    rw [Nat.add_left_cancel hlen]
    exact iff_of_true rfl trivial
  | cons bb l ih =>
    have hsub := Files.normalAll_sublist (w := w) hbs h4 l (bb.stopBlock bs)
    rw [Files.normalAll, Files.expandedAll, List.length_append, List.length_append,
      List.length_append, List.length_append] at hlen
    rw [Files.normalAll, Files.expandedAll, Files.InPlace]
    simp only [List.append_assoc]
    rw [List.append_right_inj]
    -- A fill that ends inside a block shifts what comes behind it.
    by_cases h : bb.EndsInside bs
    · obtain ⟨heq, hne⟩ := Files.expanded_of_endsInside (w := w) hbs h4 h
      rw [heq, List.length_append] at hlen
      rw [heq, List.append_assoc, List.append_right_inj]
      constructor
      · -- The shifted rest agrees with the other only when all of it is zero.
        intro hshift
        obtain ⟨hrest, hzero⟩ := eq_of_shift hsub hne hshift
        have hall := Files.expandedAll_zero.mp hzero
        exact ⟨fun _ => ⟨hrest, hall⟩, Files.inPlace_of_zero hall⟩
      · rintro ⟨hquiet, -⟩
        obtain ⟨hrest, hall⟩ := hquiet h
        have hzero : ∀ x ∈ w.expandedAll bs l (bb.stopBlock bs), x = 0 :=
          Files.expandedAll_zero.mpr hall
        have hnormal := fun x hx => hzero x (hsub.subset hx)
        rw [eq_replicate_append hnormal, ← List.append_assoc,
          eq_replicate_append (List.forall_mem_append.mpr ⟨hrest, hzero⟩), List.length_append]
        congr 1
        omega
    · -- Every other block has the same bytes in both formats.
      have heq := Files.expanded_of_not_endsInside (w := w) hbs h4 h
      rw [heq] at hlen
      have htail : (w.normalAll bs l (bb.stopBlock bs)).length + k =
          (w.expandedAll bs l (bb.stopBlock bs)).length + m := by omega
      rw [heq, List.append_right_inj, ih htail]
      exact (and_iff_right fun hends => absurd hends h).symm

end

/-! ## The files -/

section

variable {w : Files} {n len : ℕ} {s : SparseFile} {crc crc' : Bool}

/-- `write_all_blocks` of an image of whole blocks writes the stream, with zeros behind it that do
not reach behind the end. -/
theorem writeAllBlocks_stream (h : s.Lays w len n) (h4 : s.block_size.toNat % 4 = 0)
    (hdvd : s.block_size.toNat ∣ len) {out : OutputFile RawFile}
    (hout : Streams s.block_size s.len [] out) :
    ∃ k out', writeAllBlocks file_ops w.env s out = .ok (0, out') ∧
      (w.normalAll s.block_size s.blocks 0).length + k ≤ len ∧
      Streams s.block_size s.len
        (w.normalAll s.block_size s.blocks 0 ++ List.replicate k 0) out' := by
  have hplaced : Placed w s.block_size n s.blocks (0 : UInt32).toNat := h.placed
  obtain ⟨last, out1, heq, hlast, h1⟩ := Streams.blocks h.room h4 hplaced hout
  rw [UInt32.toNat_zero] at hlast h1
  rw [List.nil_append] at h1
  have hmul := h.mul_eq hdvd
  have hstop := Nat.mul_le_mul_right s.block_size.toNat (stopOf_le h.placed)
  have hlen := Files.length_expandedAll h.room.ne_zero h4 h.placed
  have hsub := (Files.normalAll_sublist (w := w) h.room.ne_zero h4 s.blocks 0).length_le
  -- The length to the end is not negative, and does not wrap.
  have hpad : s.len - last.toNat * s.block_size.toNat =
      ((len - stopOf s.block_size s.blocks 0 * s.block_size.toNat : ℕ) : ℤ) := by
    rw [h.len_eq, hlast]
    push_cast [← hmul, Nat.cast_sub hstop]
    rfl
  have heq' : writeBlocks file_ops w.env s.block_size s.backed_block_list.data_blocks 0 out =
    (0, last, out1) := heq
  unfold writeAllBlocks
  rw [heq']
  simp only [hpad]
  rw [if_neg (not_not.mpr rfl), if_neg (by omega)]
  split_ifs with hgap
  · rw [writeSkipChunk_eq out1 h1.sparse]
    refine ⟨_, _, rfl, ?_, h1.skip _⟩
    omega
  · refine ⟨0, out1, rfl, by omega, ?_⟩
    rw [List.replicate_zero, List.append_nil]
    exact h1

/-- **The file of the normal format** holds the stream, and zeros up to the length of the image. -/
theorem sparseFileWrite_stream (h : s.Lays w len n) (h4 : s.block_size.toNat % 4 = 0)
    (hdvd : s.block_size.toNat ∣ len) (crc : Bool) :
    ∃ f, sparseFileWrite file_ops w.env s ⟨[], 0⟩ false crc = .ok (0, f) ∧
      (w.normalAll s.block_size s.blocks 0).length ≤ len ∧
      f.bytes = w.normalAll s.block_size s.blocks 0 ++
        List.replicate (len - (w.normalAll s.block_size s.blocks 0).length) 0 := by
  obtain ⟨chunks, hchunks⟩ := sparseCountChunks_ok h.room.ne_zero
  obtain ⟨out, hinit, hout⟩ : ∃ out, outputFileInit file_ops ⟨[], 0⟩ s.block_size s.len false chunks
      crc = .ok (0, out) ∧ Streams s.block_size s.len [] out := by
    exact ⟨_, outputFileInit_normal file_ops ⟨[], 0⟩ h.room.lt_int s.len chunks crc, rfl, rfl, rfl,
      rfl, le_refl _, rfl⟩
  obtain ⟨k, out', hall, hle, h1⟩ := writeAllBlocks_stream h h4 hdvd hout
  have hlen : s.len.toNat = len := by
    rw [h.len_eq]
    rfl
  -- In the normal format closing the file brings it to its length.
  have hclose : (outputFileClose file_ops out').dev.bytes = resize 0 len out'.dev.bytes := by
    have hnn : ¬ s.len < 0 := by
      rw [h.len_eq]
      omega
    unfold outputFileClose
    rw [h1.sparse, if_neg Bool.false_ne_true]
    change (filePad out'.dev out'.len).2.bytes = _
    rw [h1.len, filePad, if_neg hnn, hlen]
  have hdata : (w.normalAll s.block_size s.blocks 0 ++ List.replicate k 0).length ≤ len := by
    rw [List.length_append, List.length_replicate]
    exact hle
  refine ⟨_, sparseFileWrite_eq hchunks hinit hall, (Nat.le_add_right _ _).trans hle, ?_⟩
  obtain ⟨m, hm⟩ := Nat.exists_eq_add_of_le hdata
  rw [hclose, resize_eq_padTo 0 (h1.length_le.trans hdata), hm, padTo_add 0 h1.length_le, h1.shown,
    List.append_assoc, List.replicate_append_replicate]
  rw [List.length_append, List.length_replicate] at hm ⊢
  congr 2
  omega

/-- The two formats describe the same image exactly when only zeros stand behind fills that end
inside a block. -/
theorem SparseFile.Lays.inPlace_iff (h : s.Lays w len n) (h4 : s.block_size.toNat % 4 = 0)
    (hdvd : s.block_size.toNat ∣ len) :
    SameImage w.env s crc crc' ↔ w.InPlace s.block_size s.blocks := by
  obtain ⟨normal, hnormal, hle, hbytes⟩ := sparseFileWrite_stream h h4 hdvd crc
  obtain ⟨-, -, hexpand⟩ := Files.image_ok h.room h4 h.placed crc' []
  have hsparse := @sparseFileWrite_whole w n len crc' s h hdvd ⟨[], 0⟩
  have hnew : (RawFile.put ⟨[], 0⟩ (w.image s.block_size n crc' s.blocks)).bytes =
      chunkFile s.block_size n (w.allChunks s.block_size n crc' s.blocks) [] :=
    overwrite_length 0 [] (w.image s.block_size n crc' s.blocks)
  have hmul := h.mul_eq hdvd
  have hstop := Nat.mul_le_mul_right s.block_size.toNat (stopOf_le h.placed)
  have hlen := Files.length_expandedAll h.room.ne_zero h4 h.placed
  -- Both streams are as long as the image, so they can be compared byte by byte.
  have hstream : normal.bytes = expand (RawFile.put ⟨[], 0⟩
      (w.image s.block_size n crc' s.blocks)).bytes ↔ w.InPlace s.block_size s.blocks := by
    rw [hnew, hexpand, hbytes, Files.expansion]
    refine Files.stream_eq_iff h.room.ne_zero h4 ?_
    rw [Nat.sub_mul]
    omega
  refine Iff.trans ?_ hstream
  constructor
  · rintro ⟨normal', sparse', h1, h2, heq⟩
    obtain rfl : normal = normal' := (Prod.mk.inj (Except.ok.inj (hnormal.symm.trans h1))).2
    obtain rfl := (Prod.mk.inj (Except.ok.inj (hsparse.symm.trans h2))).2
    exact heq
  · exact fun heq => ⟨normal, _, hnormal, hsparse, heq⟩

end

/-- **The two formats describe the same image** exactly when there are only zeros behind each fill
that ends inside a block. For every block size from 1024 on that is a multiple of four and every
length below `2^31` that is a multiple of it; a block size from `2^31` on is never written. -/
theorem sameImage_iff {w : Files} {bs : UInt32} {len : ℕ} {s : SparseFile}
    (hmin : 1024 ≤ bs.toNat) (h4 : bs.toNat % 4 = 0) (hdvd : bs.toNat ∣ len) (hlen : len < 2 ^ 31)
    (h : Built w bs len s) (crc crc' : Bool) :
    SameImage w.env s crc crc' ↔ bs.toNat < 2 ^ 31 ∧ w.InPlace bs s.blocks := by
  by_cases hlt : bs.toNat < 2 ^ 31
  · obtain ⟨rfl, hlays⟩ := h.lays hmin hdvd hlen hlt
    exact (hlays.inPlace_iff h4 hdvd).trans (and_iff_right hlt).symm
  · refine iff_of_false ?_ fun hc => hlt hc.1
    rintro ⟨normal, -, hw, -⟩
    exact sparseFileWrite_large (h.block_size_eq (by omega) hlen ▸ Nat.le_of_not_lt hlt) hw

/-- A fill of a block, and data of a block and a half behind it. -/
theorem sameImage_whole_fill : SameImage byteFiles.env
    ⟨1024, 3072, ⟨[⟨0, 0, 1024, .fill 7⟩, ⟨1, 1, 1536, .data 0⟩], some 1, 1024, 2⟩⟩ true false := by
  refine (@sameImage_iff byteFiles 1024 3072 _ (by decide) (by decide) (by decide) (by decide)
    (@Built.adds _ _ _ _ [⟨.fill 7, 1024, 0⟩, ⟨.data 0, 1536, 1⟩]
      ⟨⟨by decide, List.pairwise_pair.mpr (Or.inl (by decide))⟩, by decide, by decide⟩
      (by decide +kernel)) true false).mpr ⟨by decide, ?_, ?_, trivial⟩
  · exact fun h => absurd (Nat.dvd_refl 1024) h.2
  · rintro ⟨⟨v, hsrc⟩, -⟩
    cases hsrc

/-- Memory in which every byte is nine. -/
def nines : Files := ⟨fun _ => 9, fun _ => 0, fun _ => []⟩

/-- A fill of four zeros, and data in the block behind it. -/
def shortFill : SparseFile :=
  ⟨1024, 2048, ⟨[⟨0, 0, 4, .fill 0⟩, ⟨1, 1, 1024, .data 0⟩], some 1, 1024, 2⟩⟩

/-- The data behind a fill of four bytes starts at byte 4 in the normal format. -/
theorem short_fill_moves_data :
    addAll (sparseFileNew 1024 2048) [⟨.fill 0, 4, 0⟩, ⟨.data 0, 1024, 1⟩] = .ok shortFill ∧
      ¬ SameImage nines.env shortFill false false ∧ ¬ SameImage nines.env shortFill true true := by
  have hlays : shortFill.Lays nines 2048 2 := by
    refine ⟨rfl, by decide, ⟨by decide, by decide, by decide, by decide⟩,
      ⟨?_, ?_, by decide, by decide, by decide⟩⟩
    · exact List.forall_mem_cons.mpr ⟨⟨by decide, trivial⟩,
        List.forall_mem_singleton.mpr ⟨by decide, trivial⟩⟩
    · exact List.pairwise_pair.mpr (by decide)
  have hmoved : ¬ nines.InPlace 1024 shortFill.blocks := by
    rintro ⟨hquiet, -⟩
    have hdata := (hquiet ⟨⟨0, rfl⟩, by decide⟩).2 ⟨1, 1, 1024, .data 0⟩ List.mem_cons_self
    exact absurd (hdata 9 (by decide +kernel)) (by decide)
  refine ⟨by decide +kernel, fun h => hmoved ?_, fun h => hmoved ?_⟩
  · exact (hlays.inPlace_iff (by decide) (by decide)).mp h
  · exact (hlays.inPlace_iff (by decide) (by decide)).mp h

end AmlogicToolkit.Simg
