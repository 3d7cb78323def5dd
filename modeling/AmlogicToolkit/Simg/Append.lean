import AmlogicToolkit.Simg.Checksum
import AmlogicToolkit.Simg.Formats

/-!
# Appending to an image

`main` of `append2simg.c`: the old file is read as a sparse image or as a raw file, the new one is
added behind it, and what is written to a temporary file is renamed over the old one. The result is
the old image followed by the new bytes exactly when the old file is a sparse image or a raw file of
whole blocks (`appends_iff`). The block behind the old image is rounded down, so that the last block
of any other raw file is the first block of the new one too.
-/

namespace AmlogicToolkit.Simg

open Bytes Extents

/-- The files that `append2simg` has open: the output is descriptor 0, and the input is 1. -/
def openFiles (output input : List UInt8) : Files :=
  ⟨fun _ => 0, fun _ => 0, fun fd => if fd = 0 then output else input⟩

/-- `append2simg` on the content of the output, of the input and of the temporary file, which is
opened without `O_TRUNC`: what is renamed over the output, or `none` for an exit with an error, which
is in front of that. -/
def append2simg (output input tmp : List UInt8) : Except Fault (Option (List UInt8)) := do
  match ← sparseFileImportAuto 0 output false with
  | none => return none
  | some sparse_output =>
    if sparse_output.block_size = 0 then .error .divByZero
    else if input.length % sparse_output.block_size.toNat ≠ 0 then return none
    else
      let output_block := toInt (sparse_output.len.tdiv sparse_output.block_size.toNat)
      let sparse_output ← sparseFileAddFd sparse_output 1 0 (toU32 input.length) (toU32 output_block)
      let sparse_output := { sparse_output with len := sparse_output.len + input.length }
      let (ret, out) ← sparseFileWrite file_ops (openFiles output input).env sparse_output ⟨tmp, 0⟩
        true false
      if ret < 0 then return none else return some out.bytes

/-! ## What whole blocks expand to -/

section

variable {w : Files} {bs : UInt32} {n last : ℕ} {bb : BackedBlock} {l : List BackedBlock}

/-- The byte that a label stands for does not change over whole blocks. -/
theorem Files.byte_shift (h4 : bs.toNat % 4 = 0) (b k : ℕ) (x : Label) :
    w.byte (b * bs.toNat + k) x = w.byte k x := by
  cases x with
  | data p => rfl
  | file f o => rfl
  | fd g o => rfl
  | fill v =>
    have hmod : (b * bs.toNat + k) % 4 = k % 4 := by
      rw [Nat.add_mod, Nat.mul_mod, h4, Nat.mul_zero, Nat.zero_mod, Nat.zero_add, Nat.mod_mod]
    simp only [Files.byte, hmod]

/-- Whole blocks expand to the bytes of their source. -/
theorem Files.expanded_whole (hbs : bs ≠ 0) (h4 : bs.toNat % 4 = 0)
    (hdvd : bs.toNat ∣ bb.len.toNat) : w.expanded bs bb = w.read bb.source bb.len.toNat := by
  have hwhole : w.wholeBytes bs bb = w.read bb.source bb.len.toNat := by
    rw [Files.wholeBytes, padded_eq (toNat_pos_of_ne_zero hbs) hdvd,
      padTo_self (Files.length_read _ _)]
  rw [Files.expanded_of_not_endsInside hbs h4 fun h => h.2 hdvd, Files.normal, hwhole]
  cases bb.source <;> rfl

/-- A whole block is filled with what it expands to. -/
theorem Files.expanded_fills (hbs : bs ≠ 0) (h4 : bs.toNat % 4 = 0)
    (hdvd : bs.toNat ∣ bb.len.toNat) :
    Fills BlockSource.label w.byte 0 [bb.extent bs] (bb.block.toNat * bs.toNat)
      (w.expanded bs bb) := by
  rw [Files.expanded_whole hbs h4 hdvd]
  refine Extent.fills (e := bb.extent bs) (Files.length_read _ _) fun k hk => ?_
  exact (Files.getD_read hk).trans (Files.byte_shift h4 bb.block.toNat k _).symm

/-- **Whole blocks, one after the other, fill what they describe**: a position that a block describes
holds the byte of its label, and any other position holds zero. -/
theorem Files.expandedAll_fills (hbs : bs ≠ 0) (h4 : bs.toNat % 4 = 0) (h : Placed w bs n l last)
    (hw : ∀ bb ∈ l, bs.toNat ∣ bb.len.toNat) :
    Fills BlockSource.label w.byte 0 (extents bs l) (last * bs.toNat) (w.expandedAll bs l last) := by
  induction l generalizing last with
  | nil => exact fills_nil _
  | cons bb l ih =>
    have hdvd := hw bb List.mem_cons_self
    have hlen : (w.expanded bs bb).length = bb.len.toNat := by
      rw [Files.length_expanded hbs h4, padded_eq (toNat_pos_of_ne_zero hbs) hdvd]
    have hstop : bb.block.toNat * bs.toNat + (w.expanded bs bb).length =
        bb.stopBlock bs * bs.toNat := by
      rw [Files.length_expanded hbs h4, BackedBlock.stopBlock, Nat.add_mul, padded,
        Nat.mul_comm bs.toNat]
    have hgap : last * bs.toNat +
        (List.replicate ((bb.block.toNat - last) * bs.toNat) (0 : UInt8)).length =
          bb.block.toNat * bs.toNat := by
      rw [List.length_replicate, ← Nat.add_mul, Nat.add_sub_cancel' (h.lower bb List.mem_cons_self)]
    -- The induction starts behind the block, where the others stand in order.
    have hrest := ih h.tail fun b hb => hw b (List.mem_cons_of_mem _ hb)
    have hlater : ∀ e ∈ extents bs l, bb.stopBlock bs * bs.toNat ≤ e.start := by
      intro e he
      obtain ⟨y, hy, rfl⟩ := List.mem_map.mp he
      exact Nat.mul_le_mul_right _ (h.tail.lower y hy)
    rw [← hstop] at hrest hlater
    have hblocks : Fills BlockSource.label w.byte 0 (extents bs (bb :: l))
        (bb.block.toNat * bs.toNat) (w.expanded bs bb ++ w.expandedAll bs l (bb.stopBlock bs)) :=
      (Files.expanded_fills hbs h4 hdvd).append hrest
        (List.forall_mem_singleton.mpr (Nat.le_of_eq (congrArg _ hlen.symm))) hlater
    -- The gap in front is zeros that no block describes.
    rw [← hgap] at hblocks
    refine (fills_replicate _ _).append hblocks (List.forall_mem_nil _) fun e he => ?_
    rw [hgap]
    rcases List.mem_cons.mp he with rfl | he
    · exact le_refl _
    · exact (Nat.le_add_right _ _).trans (hlater e he)

/-- The expanded image is what the blocks expand to, with zeros behind them. -/
theorem Files.expansion_eq_padTo (hbs : bs ≠ 0) (h4 : bs.toNat % 4 = 0) (h : Placed w bs n l 0) :
    w.expansion bs n l = padTo 0 (n * bs.toNat) (w.expandedAll bs l 0) := by
  have hlen := Files.length_expandedAll hbs h4 h
  rw [Nat.zero_mul, Nat.zero_add] at hlen
  rw [Files.expansion, padTo, hlen, Nat.sub_mul]

/-- The expansion of placed blocks has the blocks of the image. -/
theorem Files.length_expansion (hbs : bs ≠ 0) (h4 : bs.toNat % 4 = 0) (h : Placed w bs n l 0) :
    (w.expansion bs n l).length = n * bs.toNat := by
  have hlen := Files.length_expandedAll hbs h4 h
  have hle := Nat.mul_le_mul_right bs.toNat (stopOf_le h)
  rw [Nat.zero_mul, Nat.zero_add] at hlen
  rw [Files.expansion_eq_padTo hbs h4 h, length_padTo, hlen, Nat.max_eq_left hle]

end

/-! ## Calls that make an image -/

/-- Calls of whole blocks that put the bytes of an image at their positions, or leave them out where
they are zero. -/
structure Depicts (w : Files) (bs : UInt32) (image : List UInt8) (calls : List Call) : Prop
    extends Inside w bs image.length calls where
  /-- All are whole blocks. -/
  whole : ∀ c ∈ calls, bs.toNat ∣ c.len.toNat
  /-- The image is a number of blocks. -/
  dvd : bs.toNat ∣ image.length
  /-- The bytes of the calls are those of the image. -/
  shows : ∀ p < image.length, (∃ x, Requested bs calls p x ∧ w.byte p x = image.getD p 0) ∨
    (∀ x, ¬ Requested bs calls p x) ∧ image.getD p 0 = 0

section

variable {w : Files} {bs : UInt32} {image : List UInt8} {calls : List Call}

/-- **One call more**, behind an image, puts its bytes behind those of the image. -/
theorem Depicts.concat (h : Depicts w bs image calls) (h4 : bs.toNat % 4 = 0) {c : Call}
    (hstart : c.block.toNat * bs.toNat = image.length) (hlen : c.len ≠ 0)
    (hdvd : bs.toNat ∣ c.len.toNat) (hread : w.Readable c.len.toNat c.source) :
    Depicts w bs (image ++ w.read c.source c.len.toNat) (calls ++ [c]) := by
  have hnew : (image ++ w.read c.source c.len.toNat).length = image.length + c.len.toNat := by
    rw [List.length_append, Files.length_read]
  have hstop : (c.extent bs).stop = image.length + c.len.toNat := by
    rw [Call.extent_stop, hstart]
  refine ⟨⟨⟨?_, ?_⟩, ?_, ?_⟩, ?_, ?_, fun p hp => ?_⟩
  · -- The new call lies behind all others, for these end within the image.
    exact List.forall_mem_append.mpr ⟨h.nonempty, List.forall_mem_singleton.mpr hlen⟩
  · rw [List.map_append, List.pairwise_append]
    refine ⟨h.apart, List.pairwise_singleton _ _, fun e he f hf => Or.inl ?_⟩
    obtain ⟨d, hd, rfl⟩ := List.mem_map.mp he
    obtain rfl := List.mem_singleton.mp hf
    rw [Call.extent_start, hstart]
    exact h.inside d hd
  · refine List.forall_mem_append.mpr ⟨fun d hd => ?_, List.forall_mem_singleton.mpr ?_⟩
    · exact (h.inside d hd).trans (by omega)
    · omega
  · exact List.forall_mem_append.mpr ⟨h.readable, List.forall_mem_singleton.mpr hread⟩
  · exact List.forall_mem_append.mpr ⟨h.whole, List.forall_mem_singleton.mpr hdvd⟩
  · rw [hnew]
    exact Nat.dvd_add h.dvd hdvd
  · simp only [requested_concat]
    by_cases hold : p < image.length
    · -- The position is in the old image, which the call does not touch.
      rw [List.getD_append _ _ _ _ hold]
      refine (h.shows p hold).imp (fun ⟨x, hx, hb⟩ => ⟨x, Or.inl hx, hb⟩) fun ⟨hno, hb⟩ =>
        ⟨fun x hx => hx.elim (hno x) fun hc => ?_, hb⟩
      have hle : (c.extent bs).start ≤ p := hc.1
      rw [Call.extent_start, hstart] at hle
      omega
    · rw [hnew] at hp
      -- The position is one of the new call, whose bytes are those that were appended.
      have hk : p - image.length < c.len.toNat := by omega
      refine Or.inl ⟨c.source.label (p - image.length), Or.inr ⟨?_, ?_, ?_⟩, ?_⟩
      · rw [Call.extent_start, hstart]
        omega
      · omega
      · rw [Call.extent_start, hstart]
        rfl
      · rw [List.getD_append_right _ _ _ _ (by omega), Files.getD_read hk,
          ← Files.byte_shift h4 c.block.toNat (p - image.length), hstart,
          Nat.add_sub_cancel' (by omega)]

/-- A file with `data` written over its start. -/
theorem overwrite_start (z : UInt8) (l data : List UInt8) :
    overwrite z l 0 data = data ++ l.drop data.length := by
  cases data with
  | nil => rfl
  | cons a data =>
    rw [overwrite_of_ne_nil z l 0 (List.cons_ne_nil a data), List.take_zero, List.nil_append,
      Nat.zero_add]

/-- A sparse image that is accepted, with or without a checksum. -/
structure Accepted (file : List UInt8) : Prop where
  /-- It is a well-formed image. -/
  image : Image file
  /-- It is imported. -/
  imported : ∀ fd crc, ∃ s, sparseFileImport fd file crc = .ok (some s)

/-- The file of an image without a checksum is accepted, with anything behind it. -/
theorem Files.image_accepted {n : ℕ} {l : List BackedBlock} (hr : Room bs n)
    (h4 : bs.toNat % 4 = 0) (h : Placed w bs n l 0) (post : List UInt8) :
    Accepted (chunkFile bs n (w.allChunks bs n false l) post) := by
  obtain ⟨himg, -, -⟩ := Files.image_ok hr h4 h false post
  obtain ⟨hok, -, hcount, -⟩ := Files.allChunks_ok hr h false
  obtain ⟨-, hrec, -, -⟩ := fileRecords_chunkFile (n := n)
    (fun c hc => (hok c hc).elim Chunk.Ok.formed And.left) hcount post
  -- No chunk is a checksum, so that there is nothing to compare.
  have hnone : ∀ r ∈ fileRecords (chunkFile bs n (w.allChunks bs n false l) post),
      r.header.kind ≠ .crc32 := by
    intro r hr' hk
    rw [hrec] at hr'
    obtain ⟨c, hc, he⟩ := layout_header hr'
    rw [Files.allChunks, crcChunk, if_neg Bool.false_ne_true, List.append_nil] at hc
    refine ((Files.emission_ok hr h).1 c hc).blocks ?_
    rw [← he, ChunkHeader.blocks, hk]
  refine ⟨himg, fun fd crc => ?_⟩
  obtain ⟨s, hi, hcrc⟩ := himg.import_crc fd
  cases crc with
  | false => exact ⟨s, hi.import_eq⟩
  | true => exact ⟨s, by rw [hcrc, if_pos (checked_of_no_crc hnone 0)]⟩

/-- The blocks that the calls of an image leave expand to it. -/
theorem Depicts.expansion_eq (h : Depicts w bs image calls) (h4 : bs.toNat % 4 = 0) {n : ℕ}
    {s : SparseFile} (hn : n * bs.toNat = image.length) (hpos : 0 < bs.toNat)
    (hbs : s.block_size = bs) (hplaced : Placed w bs n s.blocks 0) (hspan : AllSpan s calls)
    (hfaithful : Faithful s calls) : w.expansion bs n s.blocks = image := by
  subst hbs
  have hne := ne_zero_of_toNat_pos hpos
  have hwhole : ∀ bb ∈ s.blocks, s.block_size.toNat ∣ bb.len.toNat := by
    intro bb hbb
    obtain ⟨X, chain, hc⟩ := hspan bb hbb
    exact hc.whole h.whole
  refine ext_getD (z := 0) ((Files.length_expansion hne h4 hplaced).trans hn) fun p hp => ?_
  rw [Files.length_expansion hne h4 hplaced, hn] at hp
  obtain ⟨hshown, hzero⟩ := Files.expandedAll_fills hne h4 hplaced hwhole p (by omega)
  rw [Nat.zero_mul, Nat.sub_zero] at hshown hzero
  rw [Files.expansion_eq_padTo hne h4 hplaced, getD_padTo]
  rcases h.shows p hp with ⟨x, hx, hbyte⟩ | ⟨hno, hbyte⟩
  · rw [hshown x ((hfaithful p x).mpr hx), hbyte]
  · rw [hzero fun x hx => hno x ((hfaithful p x).mp hx), hbyte]

/-- **What is written of an image** over any temporary file is accepted, and expands to the image. -/
theorem Depicts.written (h : Depicts w bs image calls) (h4 : bs.toNat % 4 = 0)
    (hr : Room bs (image.length / bs.toNat)) (tmp : List UInt8) :
    ∃ s new, addAll (sparseFileNew bs image.length) calls = .ok s ∧
      sparseFileWrite file_ops w.env s ⟨tmp, 0⟩ true false = .ok (0, new) ∧ Accepted new.bytes ∧
      expand new.bytes = image := by
  obtain ⟨n, hn⟩ : ∃ n, image.length / bs.toNat = n := ⟨_, rfl⟩
  have hmul : n * bs.toNat = image.length := hn ▸ Nat.div_mul_cancel h.dvd
  have hlen : image.length < 2 ^ 32 := by
    have := hr.headers
    rw [hn] at this
    omega
  rw [hn] at hr
  -- The length is whole blocks, so the blocks of the header are its own.
  have hround : n = (image.length + bs.toNat - 1) / bs.toNat := by
    rw [← hmul, round_up_mul hr.pos]
  obtain ⟨s, heq, -, -, hplaced, hspan, hfaithful, -⟩ :=
    addAll_placed hr.ne_zero hlen hmul.ge h.toInside
  obtain ⟨hbs, hlays⟩ := h.toInside.lays hr hlen hround heq
  have hexp := h.expansion_eq h4 hmul hr.pos hbs hplaced hspan hfaithful
  subst hbs
  have hnew : (RawFile.put ⟨tmp, 0⟩ (w.image s.block_size n false s.blocks)).bytes =
      chunkFile s.block_size n (w.allChunks s.block_size n false s.blocks)
        (tmp.drop (w.image s.block_size n false s.blocks).length) := by
    rw [RawFile.put, overwrite_start, Files.image, chunkFile, chunkFile, List.append_nil]
    simp only [List.append_assoc]
  -- What is left of the old file stands behind the chunks, where nothing reads it.
  obtain ⟨-, -, hexpand⟩ := Files.image_ok hr h4 hplaced false
    (tmp.drop (w.image s.block_size n false s.blocks).length)
  refine ⟨s, _, heq, sparseFileWrite_whole hlays h.dvd ⟨tmp, 0⟩, ?_⟩
  rw [hnew]
  exact ⟨Files.image_accepted hr h4 hplaced _, hexpand.trans hexp⟩

end

/-! ## The old file -/

/-- A file to append to, with the block size and the length that it is read with, and its bytes in
whole blocks: a sparse image, or any file that is not imported as one. An image that an input of its
blocks keeps below `2^31` bytes leaves room for one more block, as `Image` asks for. -/
inductive OldFile (output : List UInt8) : UInt32 → ℕ → List UInt8 → Prop
  /-- A sparse image. -/
  | sparse (h : Image output) : OldFile output (fileHeader output).blk_sz
      ((fileHeader output).total_blks.toNat * (fileHeader output).blk_sz.toNat) (expand output)
  /-- A raw file. -/
  | raw (h : sparseFileImport 0 output false = .ok none) :
    OldFile output 4096 output.length (padTo 0 (padded 4096 output.length) output)

/-- What is promised of an output, an input and a temporary file: an error, or an image that is
accepted and that expands to the old bytes and those of the input. -/
def AppendsInput (output input tmp old : List UInt8) : Prop :=
  append2simg output input tmp = .ok none ∨
    ∃ new, append2simg output input tmp = .ok (some new) ∧ Accepted new ∧
      expand new = old ++ input

section

variable {output input tmp old : List UInt8} {bs : UInt32} {calls : List Call}

/-- What is read from the output or filled is read from the output. -/
theorem openFiles_source {source : BlockSource}
    (hsrc : (∃ o, source = .fd 0 o) ∨ ∃ v, source = .fill v) :
    (∀ len, Readable output len source → (openFiles output input).Readable len source) ∧
      ∀ p k, (openFiles output input).byte p (source.label k) = (source.label k).byte output p := by
  rcases hsrc with ⟨o, rfl⟩ | ⟨v, rfl⟩
  · exact ⟨fun len h => h, fun p k => rfl⟩
  · exact ⟨fun len h => h, fun p k => rfl⟩

/-- The calls that the import of a sparse image makes, make its expansion. -/
theorem Image.depicts (h : Image output) (input : List UInt8) :
    Depicts (openFiles output input) (fileHeader output).blk_sz (expand output)
      ((fileChunks 0 output).map (toCall (fileHeader output).blk_sz)) := by
  obtain ⟨hcalls, hdesc, -⟩ := h.calls 0
  have hlen := h.length_expand
  have hsrc := @chunks_source output (fileHeader output) 0 (fileRecords output) 0
  refine ⟨⟨hcalls.allowed, ?_, ?_⟩, hcalls.whole, ?_, fun p hp => ?_⟩
  · rw [hlen]
    exact hcalls.inside
  · refine List.forall_mem_map.mpr fun e he => ?_
    exact (openFiles_source (hsrc e he)).1 _ (hcalls.readable _ (List.mem_map_of_mem he))
  · rw [hlen]
    exact Nat.dvd_mul_left _ _
  · -- A position is described exactly when a chunk does, and the expansion has its byte there.
    obtain ⟨hshown, hzero⟩ := @contents_fills _ _ 0 _ h.records h.nonempty h.blk_sz_pos
      h.blk_sz_mod 0 p (by omega)
    rw [Nat.zero_mul, Nat.sub_zero] at hshown hzero
    by_cases hx : ∃ x, Requested (fileHeader output).blk_sz
        -- The label says which byte of `output` it is, in the file that is mapped as well.
        ((fileChunks 0 output).map (toCall (fileHeader output).blk_sz)) p x
    · obtain ⟨x, hx⟩ := hx
      have hx' := (hdesc p x).mp hx
      obtain ⟨e', he', hlo, hhi, hlab⟩ := hx'
      obtain ⟨e, he, rfl⟩ := List.mem_map.mp he'
      refine Or.inl ⟨x, hx, ?_⟩
      rw [← hlab]
      refine ((openFiles_source (hsrc e he)).2 p _).trans ?_
      exact (congrArg (Label.byte output p) hlab).trans (hshown x ((hdesc p x).mp hx)).symm
    · exact Or.inr ⟨fun x hxx => hx ⟨x, hxx⟩, hzero fun x hxx => hx ⟨x, (hdesc p x).mpr hxx⟩⟩

/-- The calls that the import of a raw file of whole blocks makes, make its bytes. -/
theorem normalCalls_depicts (hbs : bs ≠ 0) (h4 : bs.toNat % 4 = 0) (hlen : output.length < 2 ^ 32)
    (hdvd : bs.toNat ∣ output.length) (input : List UInt8) :
    Depicts (openFiles output input) bs output
      (normalCalls 0 output bs output.length 0 ((output.length + bs.toNat - 1) / bs.toNat)) := by
  have hpos := toNat_pos_of_ne_zero hbs
  refine ⟨@normalCalls_inside 0 bs _ (openFiles output input) hbs hlen (Nat.le_refl _), ?_, hdvd,
    fun p hp => Or.inl ?_⟩
  · refine List.forall_mem_map.mpr fun k hk => ?_
    obtain ⟨hlt, -, -⟩ := @blockLen_spec bs output.length hbs k (by simpa using hk)
    have hfull : blockLen bs output.length k = bs.toNat := by
      obtain ⟨m, hm⟩ := hdvd
      have hkm : k < m := by
        rw [hm, Nat.mul_comm] at hlt
        exact Nat.lt_of_mul_lt_mul_left hlt
      have hmul := Nat.mul_le_mul_right bs.toNat (show k + 1 ≤ m from hkm)
      rw [Nat.mul_comm m, ← hm, Nat.add_one_mul] at hmul
      exact Nat.min_eq_left (by omega)
    change bs.toNat ∣ (UInt32.ofNat (blockLen bs output.length k)).toNat
    rw [toNat_blockLen, hfull]
  · exact @normalCalls_requested 0 bs _ (openFiles output input) hbs h4 hlen (Nat.le_refl _) p hp

/-- The call that adds an input behind the whole blocks of an image of `len` bytes. -/
def inputCall (input : List UInt8) (bs : UInt32) (len : ℕ) : Call :=
  ⟨.fd 1 0, UInt32.ofNat input.length, UInt32.ofNat (len / bs.toNat)⟩

/-- **`append2simg`** of an output that is read and an input of whole blocks: the input is added,
and the longer file is written. -/
theorem append2simg_eq {s : SparseFile} {len : ℕ}
    (himp : sparseFileImportAuto 0 output false = .ok (some s)) (hbs : s.block_size ≠ 0)
    (hlen : s.len = len) (hdvd : s.block_size.toNat ∣ input.length) :
    append2simg output input tmp = (do
      let s' ← (inputCall input s.block_size len).add s
      let r ← sparseFileWrite file_ops (openFiles output input).env
        { s' with len := s'.len + input.length } ⟨tmp, 0⟩ true false
      if r.1 < 0 then return none else return some r.2.bytes) := by
  have hblock : toU32 (toInt (s.len.tdiv s.block_size.toNat)) =
      UInt32.ofNat (len / s.block_size.toNat) := by
    rw [hlen, ← Int.ofNat_tdiv, toU32_toInt_natCast]
  unfold append2simg
  rw [himp]
  simp only [bind, Except.bind]
  rw [if_neg hbs, if_neg (not_not.mpr (Nat.mod_eq_zero_of_dvd hdvd)), hblock, toU32_natCast]
  rfl

/-- What is read of the input is the input. -/
theorem read_input : (openFiles output input).read (.fd 1 0) input.length = input := by
  refine ext_getD (z := 0) (Files.length_read _ _) fun k hk => ?_
  rw [Files.length_read] at hk
  rw [Files.getD_read hk, BlockSource.label, Int.zero_add, Files.byte, Int.toNat_natCast]
  rfl

/-- **Whole blocks are appended to.** When the output is read with calls that make its bytes, the
input is put behind them. -/
theorem Depicts.appends (h : Depicts (openFiles output input) bs old calls) (h4 : bs.toNat % 4 = 0)
    (himp : ∀ s, addAll (sparseFileNew bs old.length) calls = .ok s →
      sparseFileImportAuto 0 output false = .ok (some s))
    (hpos : 0 < input.length) (hdvd : bs.toNat ∣ input.length)
    (hsize : old.length + input.length < 2 ^ 31) : AppendsInput output input tmp old := by
  have hbs : 0 < bs.toNat := Nat.pos_of_dvd_of_pos hdvd hpos
  have hle : bs.toNat ≤ input.length := Nat.le_of_dvd hpos hdvd
  have hlen : (inputCall input bs old.length).len.toNat = input.length := by
    change (UInt32.ofNat input.length).toNat = _
    rw [UInt32.toNat_ofNat', Nat.mod_eq_of_lt (by omega)]
  have hblock : (inputCall input bs old.length).block.toNat * bs.toNat = old.length := by
    have hdiv := Nat.div_le_self old.length bs.toNat
    change (UInt32.ofNat (old.length / bs.toNat)).toNat * bs.toNat = _
    rw [UInt32.toNat_ofNat', Nat.mod_eq_of_lt (by omega), Nat.div_mul_cancel h.dvd]
  have hread : (openFiles output input).Readable (inputCall input bs old.length).len.toNat
      (inputCall input bs old.length).source := by
    rw [hlen]
    exact ⟨Int.le_refl 0, (Nat.zero_add _).le⟩
  have hnew := h.concat h4 hblock (ne_zero_of_toNat_pos (hlen ▸ hpos)) (hlen ▸ hdvd) hread
  rw [hlen] at hnew
  change Depicts _ _ (old ++ (openFiles output input).read (.fd 1 0) input.length) _ at hnew
  rw [read_input] at hnew
  have hroom : Room bs ((old ++ input).length / bs.toNat) := by
    have hmul := Nat.div_mul_cancel hnew.dvd
    rw [List.length_append] at hmul ⊢
    refine ⟨hbs, by omega, ?_, ?_⟩
    · rw [Nat.add_one_mul]
      omega
    · omega
  obtain ⟨s, new, heq, hwrite, hacc, hexp⟩ := hnew.written h4 hroom tmp
  -- The list does not depend on the length, so that it is the one that `append2simg` makes.
  have hshort : addAll (sparseFileNew bs old.length) (calls ++ [inputCall input bs old.length]) =
      .ok { s with len := old.length } := addAll_withLen heq old.length
  obtain ⟨s0, hs0, hadd⟩ := addAll_init hshort
  obtain ⟨hs0bs, hs0len⟩ := addAll_fields hs0
  have hs0bs : s0.block_size = bs := hs0bs
  have hslen : s.len = ((old ++ input).length : ℕ) := (addAll_fields heq).2
  have hfile : ({ ({ s with len := old.length } : SparseFile) with
      len := (old.length : ℤ) + input.length } : SparseFile) = s := by
    rw [List.length_append] at hslen
    rw [← Nat.cast_add, ← hslen]
  refine Or.inr ⟨new.bytes, ?_, hacc, hexp⟩
  rw [append2simg_eq (himp s0 hs0) (hs0bs ▸ ne_zero_of_toNat_pos hbs) hs0len (hs0bs ▸ hdvd), hs0bs]
  simp only [hadd, bind, Except.bind]
  rw [hfile, hwrite]
  rfl

end

/-! ## A block that two nodes have -/

section

variable {σ : Type} {ops : OutputFileOps σ} {env : Env} {bs : UInt32}

/-- The counting pass goes on behind a list. -/
theorem countBlocks_append (l m : List BackedBlock) (last chunks : UInt32) :
    countBlocks bs (l ++ m) last chunks =
      countBlocks bs m (countBlocks bs l last chunks).1 (countBlocks bs l last chunks).2 := by
  induction l generalizing last chunks with
  | nil => rfl
  | cons bb l ih => exact ih _ _

/-- So does the writing pass, when the list is written. -/
theorem writeBlocks_append {l : List BackedBlock} {last last' : UInt32} {out out' : OutputFile σ}
    (h : writeBlocks ops env bs l last out = (0, last', out')) (m : List BackedBlock) :
    writeBlocks ops env bs (l ++ m) last out = writeBlocks ops env bs m last' out' := by
  induction l generalizing last out with
  | nil =>
    cases h
    rfl
  | cons bb l ih =>
    rw [List.cons_append, writeBlocks]
    rw [writeBlocks] at h
    generalize sparseFileWriteBlock ops env _ bb = r at h ⊢
    obtain ⟨ret, out2⟩ := r
    dsimp only at h ⊢
    by_cases hret : ret ≠ 0
    · rw [if_pos hret] at h
      cases h
      exact absurd rfl hret
    · rw [if_neg hret] at h ⊢
      exact ih h

end

section

variable {w : Files} {bs : UInt32} {n last : ℕ} {l : List BackedBlock}

/-- No block reaches behind the block behind a list. -/
theorem le_stopOf (h : Placed w bs n l last) :
    last ≤ stopOf bs l last ∧ ∀ bb ∈ l, bb.stopBlock bs ≤ stopOf bs l last := by
  induction l generalizing last with
  | nil => exact ⟨le_refl _, List.forall_mem_nil _⟩
  | cons bb l ih =>
    obtain ⟨h1, h2⟩ := ih h.tail
    have hstop : bb.block.toNat ≤ bb.stopBlock bs := Nat.le_add_right _ _
    exact ⟨((h.lower bb List.mem_cons_self).trans hstop).trans h1, List.forall_mem_cons.mpr ⟨h1, h2⟩⟩

/-- A sparse file of `n + m` blocks and a rest, whose last node starts at the block in which the
others end. -/
structure Overlaps (w : Files) (s : SparseFile) (l : List BackedBlock) (bb : BackedBlock)
    (n m : ℕ) : Prop where
  /-- The node is the last one. -/
  blocks : s.blocks = l ++ [bb]
  /-- The 32-bit numbers of the writers leave room. -/
  room : Room s.block_size (n + m + 1)
  /-- The others stand one after the other. -/
  placed : Placed w s.block_size (n + m + 1) l 0
  /-- They end in block `n`. -/
  stop : stopOf s.block_size l 0 = n + 1
  /-- The node can be read. -/
  serves : w.Serves bb
  /-- It starts at that block. -/
  block : bb.block.toNat = n
  /-- It has `m` blocks. -/
  len : bb.len.toNat = m * s.block_size.toNat
  /-- The file is longer than its blocks. -/
  lower : (((n + m) * s.block_size.toNat : ℕ) : ℤ) < s.len
  /-- It ends in the block behind them. -/
  upper : s.len < ((n + m + 1) * s.block_size.toNat : ℕ)

section

variable {s : SparseFile} {bb : BackedBlock} {m : ℕ} {out : OutputFile RawFile}

/-- The last node, which overlaps the new data, ends at block `n + m`, and its number does not wrap.
-/
theorem Overlaps.last_eq (h : Overlaps w s l bb n m) :
    bb.stopBlock s.block_size = n + m ∧
      (bb.block + divRoundUp bb.len s.block_size).toNat = n + m := by
  have hdiv : (bb.len.toNat + s.block_size.toNat - 1) / s.block_size.toNat = m := by
    rw [h.len, round_up_mul h.room.pos]
  have hstop : bb.stopBlock s.block_size = n + m := by
    rw [BackedBlock.stopBlock, h.block, hdiv]
  have hin : bb.stopBlock s.block_size ≤ n + m + 1 := by omega
  have hsum := (h.room.blocks_eq hin).1
  have hlt := h.room.lt
  refine ⟨hstop, ?_⟩
  rw [UInt32.toNat_add, hsum, hstop, Nat.mod_eq_of_lt (by omega)]

/-- The header counts a chunk for each node and gap, and one for the rest at the end. -/
theorem Overlaps.count (h : Overlaps w s l bb n m) : sparseCountChunks s =
    .ok (UInt32.ofNat ((w.chunks s.block_size l 0 ++ [w.chunk s.block_size bb]).length + 1)) := by
  obtain ⟨h1, h2⟩ := @countBlocks_chunks _ _ _ h.room _ 0 0 h.placed
  have hdata : s.backed_block_list.data_blocks = l ++ [bb] := h.blocks
  have hgap : ¬ bb.block > (countBlocks s.block_size l 0 0).1 := by
    rw [gt_iff_lt, UInt32.lt_iff_toNat_lt, h1, UInt32.toNat_zero, h.stop, h.block]
    omega
  have hround : ((n + m : ℕ) : ℤ) < (s.len + s.block_size.toNat - 1) / s.block_size.toNat := by
    have hpos := h.room.pos
    have hlow := h.lower
    refine Int.lt_iff_add_one_le.mpr ((Int.le_ediv_iff_mul_le (by omega)).mpr ?_)
    push_cast at hlow ⊢
    rw [Int.add_mul, Int.one_mul]
    omega
  have hlast : (bb.block + divRoundUp bb.len s.block_size).toNat = n + m := h.last_eq.2
  unfold sparseCountChunks
  rw [if_neg h.room.ne_zero, hdata, countBlocks_append]
  simp only [countBlocks, hgap, if_false, hlast, hround, if_true, h2, UInt32.toNat_zero,
    UInt32.zero_add]
  rw [List.length_append, List.length_singleton, UInt32.ofNat_add, UInt32.ofNat_add]
  rfl

/-- `write_all_blocks` writes the chunks of the nodes. The rest at the end is refused, and the loop
does not look at that. -/
theorem Overlaps.writeAllBlocks (h : Overlaps w s l bb n m) (hout : Sink s.block_size false out) :
    ∃ out', writeAllBlocks file_ops w.env s out = .ok (0, out') ∧ Sink s.block_size false out' ∧
      out'.dev = out.dev.put
        (encodeChunks (w.chunks s.block_size l 0 ++ [w.chunk s.block_size bb])) := by
  obtain ⟨last, out1, hwrite, hlast, hall⟩ :=
    @writeBlocks_outputs _ _ _ _ _ h.room _ 0 h.placed hout
  rw [UInt32.toNat_zero] at hlast hall
  obtain ⟨hstop, hnext⟩ := h.last_eq
  have hblk := sparseFileWriteBlock_outputs h.room h.serves (by omega) hall.sink
  -- The last node starts before `last`, so no gap is written in front of it.
  have hgap : ¬ bb.block > last := by
    rw [gt_iff_lt, UInt32.lt_iff_toNat_lt, hlast, h.stop, h.block]
    omega
  have hboth := hall.append hblk
  generalize hq : sparseFileWriteBlock file_ops w.env out1 bb = q at hblk hboth
  obtain ⟨ret, out2⟩ := q
  obtain rfl : ret = 0 := hblk.ret
  have hloop : writeBlocks file_ops w.env s.block_size s.backed_block_list.data_blocks 0 out =
      (0, bb.block + divRoundUp bb.len s.block_size, out2) := by
    have hdata : s.backed_block_list.data_blocks = l ++ [bb] := h.blocks
    rw [hdata, writeBlocks_append hwrite, writeBlocks]
    simp only [hgap, if_false, hq, ne_eq, not_true_eq_false]
    rfl
  -- The end lies inside a block, so the skip to it is refused, and its result is dropped.
  have hmod : (s.len - ((n + m : ℕ) : ℤ) * s.block_size.toNat) % s.block_size.toNat ≠ 0 := by
    have hlow := h.lower
    have hup := h.upper
    push_cast at hlow hup ⊢
    rw [Int.add_mul ((n : ℤ) + m) 1, Int.one_mul] at hup
    rw [Int.emod_eq_of_lt (by omega) (by omega)]
    omega
  have hpos : s.len - ((n + m : ℕ) : ℤ) * s.block_size.toNat > 0 := by
    have hlow := h.lower
    push_cast at hlow ⊢
    omega
  refine ⟨out2, ?_, hboth.sink, ?_⟩
  · unfold Simg.writeAllBlocks
    rw [hloop]
    simp only [ne_eq, not_true_eq_false, if_false, hnext]
    rw [if_neg (by omega), if_pos hpos, writeSkipChunk_odd hboth.sink hmod]
  · rw [encodeChunks_append, encodeChunks_cons, encodeChunks_nil, List.append_nil]
    exact hboth.dev

/-- **What is written of overlapping nodes** is not accepted, and the writer reports success. -/
theorem Overlaps.written (h : Overlaps w s l bb n m) (hlt : n + m + 1 < 2 ^ 31)
    (tmp : List UInt8) :
    ∃ new, sparseFileWrite file_ops w.env s ⟨tmp, 0⟩ true false = .ok (0, new) ∧
      ∀ fd crc s', sparseFileImport fd new.bytes crc ≠ .ok (some s') := by
  have hlow := h.lower
  have hup := h.upper
  obtain ⟨len, hlen⟩ := Int.eq_ofNat_of_zero_le (show 0 ≤ s.len by omega)
  -- The header has the blocks rounded down, one fewer than the chunks have.
  have hdiv : len / s.block_size.toNat = n + m := by
    refine (Nat.div_eq_iff h.room.pos).mpr ⟨?_, ?_⟩
    · omega
    · rw [Nat.add_one_mul] at hup
      omega
  obtain ⟨cs, hcs⟩ : ∃ cs, w.chunks s.block_size l 0 ++ [w.chunk s.block_size bb] = cs := ⟨_, rfl⟩
  obtain ⟨out, hinit, hout, -, hdev⟩ := outputFileInit_outputs ⟨tmp, 0⟩ h.room.ne_zero
    h.room.lt_int len (cs.length + 1) false
  obtain ⟨out', hall, hout', hdev'⟩ := h.writeAllBlocks hout
  have hcount := h.count
  rw [hcs] at hcount hdev'
  have hwrite : sparseFileWrite file_ops w.env s ⟨tmp, 0⟩ true false =
      .ok (0, RawFile.put ⟨tmp, 0⟩ ((writtenHeader s.block_size (n + m) (cs.length + 1)).encode ++
        encodeChunks cs)) := by
    rw [← hlen] at hinit
    rw [sparseFileWrite_eq hcount hinit hall, outputFileClose_dev hout', hdev', hdev,
      RawFile.put_put, RawFile.put_put, hdiv]
    simp only [crcChunk, Bool.false_eq_true, if_false, encodeChunks_nil, List.append_nil,
      List.length_nil, Nat.add_zero]
  refine ⟨_, hwrite, fun fd crc s' => ?_⟩
  obtain ⟨hok, hblocks, -⟩ := Files.chunks_ok h.room h.placed
  obtain ⟨hbbok, hbbblocks, -⟩ := Files.chunk_ok h.room h.serves (n := n + m + 1)
    (by rw [h.last_eq.1]; omega)
  have hin : bb.stopBlock s.block_size ≤ n + m + 1 := by rw [h.last_eq.1]; omega
  have hbb := (h.room.blocks_eq hin).1
  rw [h.stop, Nat.zero_add] at hblocks
  rw [h.last_eq.1, h.block] at hbb
  -- All chunks are of the format, but there is a block more than the header announces.
  have hcsok : ∀ c ∈ cs, c.Ok s.block_size := by
    rw [← hcs]
    exact List.forall_mem_append.mpr ⟨hok, List.forall_mem_singleton.mpr hbbok⟩
  have hcsblocks : chunkBlocks cs = n + m + 1 := by
    rw [← hcs, chunkBlocks_append, chunkBlocks_cons, chunkBlocks_nil, hbbblocks, hblocks]
    omega
  have hcslen := length_le_chunkBlocks fun c hc => (hcsok c hc).blocks
  rw [RawFile.put, overwrite_start, List.append_assoc]
  exact overlap_not_imported (fun c hc => (hcsok c hc).formed) (by omega) hcsblocks hlt

end

end

/-! ## Raw files -/

/-- What is placed in an image is placed in a larger one. -/
theorem Placed.mono {w : Files} {bs : UInt32} {n n' last : ℕ} {l : List BackedBlock}
    (h : Placed w bs n l last) (hn : n ≤ n') : Placed w bs n' l last :=
  ⟨h.blocks, h.before, h.lower, fun bb hbb => (h.inside bb hbb).trans hn, h.last_le.trans hn⟩

section

variable {output input tmp : List UInt8}

/-- A raw file is read as the calls of its blocks. -/
theorem sparseFileImportAuto_raw (himp : sparseFileImport 0 output false = .ok none)
    {s : SparseFile} (heq : addAll (sparseFileNew 4096 output.length)
      (normalCalls 0 output 4096 output.length 0
        ((output.length + (4096 : UInt32).toNat - 1) / (4096 : UInt32).toNat)) = .ok s) :
    sparseFileImportAuto 0 output false = .ok (some s) := by
  have hread := @sparseFileReadNormal_eq 0 output 4096 output.length (by decide) (Nat.le_refl _)
  rw [heq] at hread
  unfold sparseFileImportAuto
  simp only [himp, bind, Except.bind, hread]
  rfl

/-- The nodes of a raw file are fills, or read from the file. -/
theorem normalCalls_source {s : SparseFile} {bs : UInt32} {len k m : ℕ}
    (h : Holds s (normalCalls 0 output bs len k m)) :
    ∀ x ∈ s.blocks, (∃ o, x.source = .fd 0 o) ∨ ∃ v, x.source = .fill v := by
  intro x hx
  obtain ⟨c, hc, -, hsrc⟩ := h.heads x hx
  obtain ⟨j, -, rfl⟩ := List.mem_map.mp hc
  rw [hsrc]
  unfold normalCall
  dsimp only
  split_ifs
  · exact Or.inr ⟨_, rfl⟩
  · exact Or.inl ⟨_, rfl⟩

/-- No such node is merged with one behind it that is read from the input. -/
theorem linkBb_input {bs : UInt32} {x y : BackedBlock}
    (hx : (∃ o, x.source = .fd 0 o) ∨ ∃ v, x.source = .fill v) (hy : y.source = .fd 1 0) :
    linkBb bs x y [] = [x, y] := by
  have hmerge : ¬ canMerge bs x y := by
    unfold canMerge sourcesMerge
    rcases hx with ⟨o, hx⟩ | ⟨v, hx⟩
    · rw [hx, hy]
      simp
    · rw [hx, hy]
      simp
  unfold linkBb
  exact if_neg hmerge

/-- Whether the last block of a raw file that ends inside block `k` has a node of its own: it is the
only block, or the one in front of it is filled. -/
def StartsNode (output : List UInt8) (bs : UInt32) (k : ℕ) : Prop :=
  k = 0 ∨ isSparseBlock bs (slice output ((k - 1) * bs.toNat) bs.toNat)

/-- What a raw file that ends inside block `k` is read as: nodes one after the other up to the block
behind that, of which none starts behind it. -/
structure EndsInside (output input : List UInt8) (s : SparseFile) (k : ℕ) : Prop where
  /-- The file is valid. -/
  valid : s.Valid
  /-- The nodes stand one after the other. -/
  placed : Placed (openFiles output input) s.block_size (k + 1) s.blocks 0
  /-- They end in block `k`. -/
  stop : stopOf s.block_size s.blocks 0 = k + 1
  /-- They start in front of it, or there. -/
  start : ∀ x ∈ s.blocks, x.block.toNat ≤ k
  /-- They are fills, or read from the output. -/
  source : ∀ x ∈ s.blocks, (∃ o, x.source = .fd 0 o) ∨ ∃ v, x.source = .fill v
  /-- When one starts there. -/
  starts : (∃ x ∈ s.blocks, x.block.toNat = k) ↔ StartsNode output s.block_size k

/-- The calls of a raw file that ends inside block `k`. -/
structure EndsAt (bs : UInt32) (len k : ℕ) : Prop where
  /-- The block size is not zero. -/
  pos : 0 < bs.toNat
  /-- The block of the end. -/
  div : len / bs.toNat = k
  /-- The end is inside it. -/
  odd : ¬ bs.toNat ∣ len
  /-- The positions are below `2^32`. -/
  lt : len < 2 ^ 32

section

variable {bs : UInt32} {len k : ℕ}

/-- An end inside block `k` lies between the bounds of that block, and rounds up to `k + 1` blocks.
-/
theorem EndsAt.bounds (h : EndsAt bs len k) :
    k * bs.toNat < len ∧ len < k * bs.toNat + bs.toNat ∧ (len + bs.toNat - 1) / bs.toNat = k + 1 := by
  have hsplit := Nat.div_add_mod' len bs.toNat
  have hmod := Nat.mod_lt len h.pos
  have hne : len % bs.toNat ≠ 0 := fun h0 => h.odd (Nat.dvd_of_mod_eq_zero h0)
  rw [h.div] at hsplit
  refine ⟨by omega, by omega, (Nat.div_eq_iff h.pos).mpr ⟨?_, ?_⟩⟩
  · rw [Nat.add_one_mul]
    omega
  · rw [Nat.add_one_mul]
    omega

/-- A block that ends inside the file has all its bytes, and the last one has not. -/
theorem EndsAt.blockLen_eq (h : EndsAt bs len k) :
    (∀ j < k, blockLen bs len j = bs.toNat) ∧ blockLen bs len k < bs.toNat := by
  obtain ⟨hlow, hup, -⟩ := h.bounds
  refine ⟨fun j hj => ?_, (Nat.min_le_right _ _).trans_lt (by omega)⟩
  have hmul := Nat.mul_le_mul_right bs.toNat (Nat.succ_le_of_lt hj)
  rw [Nat.succ_mul] at hmul
  exact Nat.min_eq_left (by omega)

/-- Block `j` of the output covers `blockLen` bytes from its own start on. -/
theorem EndsAt.extent (h : EndsAt bs len k) {j : ℕ} (hj : j ≤ k) :
    (normalCall 0 output bs len j).extent bs =
      ⟨j * bs.toNat, blockLen bs len j, (normalCall 0 output bs len j).source⟩ :=
  normalCall_extent (ne_zero_of_toNat_pos h.pos) h.lt (by rw [h.bounds.2.2]; omega)

/-- The last block is read from the file. -/
theorem EndsAt.source_last (h : EndsAt bs len k) :
    (normalCall 0 output bs len k).source = .fd 0 (k * bs.toNat : ℕ) :=
  if_neg fun hfill => Nat.ne_of_lt h.blockLen_eq.2 hfill.1

/-- The block in front of it is filled, or read from the file. -/
theorem EndsAt.source_of_lt (h : EndsAt bs len k) {j : ℕ} (hj : j < k) :
    (normalCall 0 output bs len j).source =
      if isSparseBlock bs (slice output (j * bs.toNat) bs.toNat) then
        .fill (read32 (slice output (j * bs.toNat) bs.toNat) 0) else .fd 0 (j * bs.toNat : ℕ) := by
  unfold normalCall
  dsimp only
  rw [h.blockLen_eq.1 j hj]
  simp only [true_and]

/-- The call of the last block is joined with that of a block in front of it that is read from the
file. -/
theorem EndsAt.joined (h : EndsAt bs len (k + 1))
    (hns : ¬ isSparseBlock bs (slice output (k * bs.toNat) bs.toNat)) :
    Joined bs (normalCalls 0 output bs len 0 (k + 2)) (normalCall 0 output bs len k)
      (normalCall 0 output bs len (k + 1)) := by
  have hsrc := @EndsAt.source_of_lt output bs len _ h k (Nat.lt_succ_self k)
  rw [if_neg hns] at hsrc
  have hnext := @EndsAt.source_last output bs len _ h
  have hfull := h.blockLen_eq.1 k (Nat.lt_succ_self k)
  refine ⟨⟨?_, ?_, fun j => ?_⟩, Or.inl ?_⟩
  · -- Block `k` is no fill, so the two are parts of one file that continue each other.
    rw [hsrc]
    exact fun hty => nomatch hty
  · rw [h.extent (Nat.le_succ k), h.extent (le_refl _), hfull, Extent.stop, Nat.succ_mul]
  · rw [h.extent (Nat.le_succ k), h.extent (le_refl _), hfull]
    dsimp only
    rw [hsrc, hnext, BlockSource.label, BlockSource.label, Nat.succ_mul]
    congr 1
    push_cast
    omega
  · -- The two calls are made one after the other.
    have hpair : [k, k + 1].Sublist (List.range' 0 (k + 2)) := by
      have hsplit : List.range' 0 (k + 2) = List.range' 0 k ++ [k, k + 1] := by
        rw [← List.range'_append_1]
        simp [List.range']
      rw [hsplit]
      exact List.sublist_append_right _ _
    exact hpair.map _

/-- A node that reaches from in front of the last block into it has the byte at the end of the block in
front of it, and so is of its type. -/
theorem EndsAt.type_in_front {s : SparseFile} (h : EndsAt s.block_size len k)
    (hfaithful : Faithful s (normalCalls 0 output s.block_size len 0 (k + 1))) {z : BackedBlock}
    (hz : z ∈ s.blocks) (hzk : z.block.toNat < k)
    (hreach : k * s.block_size.toNat < (z.extent s.block_size).stop) :
    (normalCall 0 output s.block_size len (k - 1)).source.type = z.source.type := by
  have hpos := h.pos
  have hprev : z.block.toNat * s.block_size.toNat ≤ (k - 1) * s.block_size.toNat :=
    Nat.mul_le_mul_right _ (by omega)
  have hk1 : (k - 1) * s.block_size.toNat + s.block_size.toNat = k * s.block_size.toNat := by
    rw [← Nat.succ_mul, Nat.succ_eq_add_one, Nat.sub_add_cancel (by omega)]
  have hdesc : Describes s.block_size s.blocks (k * s.block_size.toNat - 1)
      (z.source.label (k * s.block_size.toNat - 1 - z.block.toNat * s.block_size.toNat)) :=
    ⟨_, List.mem_map_of_mem hz, by rw [BackedBlock.extent_start]; omega, by omega, rfl⟩
  obtain ⟨e, he, h1, h2, h3⟩ := (hfaithful _ _).mp hdesc
  obtain ⟨c, hc, rfl⟩ := List.mem_map.mp he
  obtain ⟨j, hj, rfl⟩ := List.mem_map.mp hc
  have hjk : j ≤ k := Nat.lt_succ_iff.mp (by simpa using hj)
  rw [h.extent hjk] at h1 h2 h3
  -- The byte is in front of block `k`, and not in front of block `k - 1`.
  have hjlt : j < k := by
    refine Nat.lt_of_mul_lt_mul_right (a := s.block_size.toNat) ?_
    dsimp only at h1
    omega
  have hjk' : j = k - 1 := by
    have hle : blockLen s.block_size len j ≤ s.block_size.toNat := Nat.min_le_left _ _
    rw [Extent.stop] at h2
    dsimp only at h2
    have hlt : k * s.block_size.toNat < (j + 2) * s.block_size.toNat := by
      rw [Nat.add_mul]
      omega
    have := Nat.lt_of_mul_lt_mul_right hlt
    omega
  subst hjk'
  exact label_type h3

/-- **When the last block has a node of its own**: the nodes are merged where they can be. -/
theorem EndsAt.starts {s : SparseFile} (h : EndsAt s.block_size len k)
    (hfaithful : Faithful s (normalCalls 0 output s.block_size len 0 (k + 1)))
    (habs : Absorbed s (normalCalls 0 output s.block_size len 0 (k + 1))) :
    (∃ x ∈ s.blocks, x.block.toNat = k) ↔ StartsNode output s.block_size k := by
  obtain ⟨hlow, hup, -⟩ := h.bounds
  constructor
  · rintro ⟨x, hx, hxk⟩
    by_contra hno
    obtain ⟨hk0, hns⟩ := not_or.mp hno
    obtain ⟨j, rfl⟩ := Nat.exists_eq_add_one_of_ne_zero hk0
    refine habs _ _ (h.joined hns) x hx (UInt32.toNat_inj.mp ?_)
    have hj := Nat.le_mul_of_pos_right (j + 1) h.pos
    have hlt := h.lt
    change x.block.toNat = (UInt32.ofNat (j + 1)).toNat
    rw [hxk, UInt32.toNat_ofNat', Nat.mod_eq_of_lt (by omega)]
  · intro hstart
    by_contra hno
    -- Some node has the first byte of the last block, and starts in front of it.
    have hreq : Requested s.block_size (normalCalls 0 output s.block_size len 0 (k + 1))
        (k * s.block_size.toNat) ((BlockSource.fd 0 (k * s.block_size.toNat : ℕ)).label 0) := by
      refine ⟨_, List.mem_map_of_mem (List.mem_map_of_mem (a := k) (by simp)), ?_⟩
      rw [h.extent (le_refl _), h.source_last]
      refine ⟨le_refl _, ?_, by rw [Nat.sub_self]⟩
      have hblk : blockLen s.block_size len k =
        min s.block_size.toNat (len - k * s.block_size.toNat) := rfl
      rw [Extent.stop]
      dsimp only
      omega
    obtain ⟨e, he, hle, hlt, hlab⟩ := (hfaithful _ _).mpr hreq
    obtain ⟨z, hz, rfl⟩ := List.mem_map.mp he
    rw [BackedBlock.extent_start] at hle
    rw [BackedBlock.extent_stop] at hlt
    have hzk : z.block.toNat < k :=
      Nat.lt_of_le_of_ne (Nat.le_of_mul_le_mul_right hle h.pos) fun heq => hno ⟨z, hz, heq⟩
    have hns := hstart.resolve_left (Nat.ne_zero_of_lt hzk)
    -- The block in front of it is filled, and the last block is not.
    have hfront := h.type_in_front hfaithful hz hzk (by rwa [BackedBlock.extent_stop])
    rw [h.source_of_lt (by omega), if_pos hns] at hfront
    have hfd : z.source.type = _ := label_type hlab
    rw [hfd] at hfront
    cases hfront

/-- A raw file that ends inside a block is read as such. -/
theorem EndsAt.endsInside (h : EndsAt bs output.length k) (h4 : bs.toNat % 4 = 0)
    (input : List UInt8) :
    ∃ s, addAll (sparseFileNew bs output.length) (normalCalls 0 output bs output.length 0
        ((output.length + bs.toNat - 1) / bs.toNat)) = .ok s ∧
      s.block_size = bs ∧ s.len = output.length ∧ EndsInside output input s k := by
  have hbs := ne_zero_of_toNat_pos h.pos
  obtain ⟨hlow, hup, hceil⟩ := h.bounds
  have hle : output.length ≤ (k + 1) * bs.toNat := by
    rw [Nat.add_one_mul]
    omega
  have hinside := @normalCalls_inside 0 bs _ (openFiles output input) hbs h.lt (Nat.le_refl _)
  have hlast := @normalCalls_requested 0 bs _ (openFiles output input) hbs h4 h.lt (Nat.le_refl _)
    (output.length - 1) (by omega)
  rw [hceil] at hinside hlast ⊢
  obtain ⟨s, heq, rfl, hslen, hplaced, -, hfaithful, hend⟩ := addAll_placed hbs h.lt hle hinside
  obtain ⟨s', heq', hholds, -, habs, -⟩ := addAll_run hbs output.length hinside.toAllowed
  cases heq.symm.trans heq'
  refine ⟨s, heq, rfl, hslen, hholds.valid, hplaced, ?_, fun x hx => ?_, normalCalls_source hholds,
    h.starts hfaithful (habs hfaithful)⟩
  · -- Some node has the last byte.
    obtain ⟨x, hx, -⟩ := hlast
    obtain ⟨e, he, -, hlt, -⟩ := (hfaithful _ x).mpr hx
    obtain ⟨bb, hbb, rfl⟩ := List.mem_map.mp he
    have hstop := (le_stopOf hplaced).2 bb hbb
    have hpad := le_padded (n := bb.len.toNat) h.pos
    have hmul : bb.stopBlock s.block_size * s.block_size.toNat =
        bb.block.toNat * s.block_size.toNat + padded s.block_size.toNat bb.len.toNat := by
      rw [BackedBlock.stopBlock, Nat.add_mul, padded, Nat.mul_comm s.block_size.toNat]
    rw [BackedBlock.extent_stop] at hlt
    have hk : k < bb.stopBlock s.block_size := by
      refine Nat.lt_of_mul_lt_mul_right (a := s.block_size.toNat) ?_
      omega
    exact le_antisymm (stopOf_le hplaced) (Nat.succ_le_of_lt (hk.trans_le hstop))
  · have hstop := hend x hx
    rw [BackedBlock.extent_stop] at hstop
    refine Nat.lt_succ_iff.mp (Nat.lt_of_mul_lt_mul_right (a := s.block_size.toNat) ?_)
    rw [Nat.succ_mul]
    omega

end

/-- A node of the input behind all nodes of the output is not merged. -/
theorem EndsInside.insertBb_input {s : SparseFile} (h : EndsInside output input s k)
    {bb : BackedBlock} (hsrc : bb.source = .fd 1 0) (hlt : ∀ x ∈ s.blocks, x.block < bb.block) :
    insertBb s.block_size bb s.blocks = s.blocks ++ [bb] := by
  rcases List.eq_nil_or_concat s.blocks with hnil | ⟨pre, z, hcat⟩
  · rw [hnil]
    rfl
  · rw [List.concat_eq_append] at hcat
    have hsorted : Sorted (pre ++ [z]) := hcat ▸ h.valid.list.sorted
    have hz := h.source z (by rw [hcat]; simp)
    rw [hcat] at hlt ⊢
    rw [insertBb_last hsorted hlt, linkBb_input hz hsrc, List.append_assoc]
    rfl

/-- **Raw files that end inside a block** are not appended to. The input is added at the block in
which the output ends: where a node starts there, the program runs into an assertion, and otherwise it
reports success and leaves a file that is not accepted. -/
theorem append2simg_unaligned (himp : sparseFileImport 0 output false = .ok none)
    (hodd : ¬ 4096 ∣ output.length) (hpos : 0 < input.length) (hdvd : 4096 ∣ input.length)
    (hsize : output.length + input.length < 2 ^ 31) (tmp : List UInt8) :
    (StartsNode output 4096 (output.length / 4096) →
        append2simg output input tmp = .error .assertion) ∧
      (¬ StartsNode output 4096 (output.length / 4096) →
        ∃ new, append2simg output input tmp = .ok (some new) ∧
          ∀ fd crc s, sparseFileImport fd new crc ≠ .ok (some s)) := by
  have hbs : (4096 : UInt32).toNat = 4096 := rfl
  obtain ⟨k, hk⟩ : ∃ k, output.length / 4096 = k := ⟨_, rfl⟩
  obtain ⟨m, hm⟩ := hdvd
  obtain ⟨s, heq, hsbs, hslen, hend⟩ :=
    @EndsAt.endsInside output 4096 k ⟨by decide, hk, hodd, by omega⟩ (by decide) input
  have hauto := sparseFileImportAuto_raw himp heq
  have hnz : s.block_size ≠ 0 := by rw [hsbs]; decide
  have hblock : (inputCall input s.block_size output.length).block.toNat = k := by
    rw [hsbs]
    change (UInt32.ofNat (output.length / 4096)).toNat = k
    rw [UInt32.toNat_ofNat', hk, Nat.mod_eq_of_lt (by omega)]
  have hlen : (inputCall input s.block_size output.length).len.toNat = m * s.block_size.toNat := by
    rw [hsbs, hbs]
    change (UInt32.ofNat input.length).toNat = m * 4096
    rw [UInt32.toNat_ofNat', Nat.mod_eq_of_lt (by omega)]
    omega
  have hstarts := hend.starts
  rw [hsbs] at hstarts
  rw [append2simg_eq hauto hnz hslen (by rw [hsbs, hbs]; omega), hk, ← hstarts]
  constructor
  · rintro ⟨x, hx, hxk⟩
    rw [Call.add_clash hend.valid hnz hx (UInt32.toNat_inj.mp (hxk.trans hblock.symm))]
    rfl
  intro hno
  have hne : ∀ x ∈ s.blocks, x.block ≠ (inputCall input s.block_size output.length).block :=
    fun x hx hxb => hno ⟨x, hx, hxb ▸ hblock⟩
  obtain ⟨s1, hadd, hs1bs, hs1len, hs1⟩ := Call.add_insert hend.valid hnz hne
  have hlt : ∀ x ∈ s.blocks, x.block < (inputCall input s.block_size output.length).block := by
    intro x hx
    refine UInt32.lt_of_le_of_ne ?_ (hne x hx)
    rw [UInt32.le_iff_toNat_le, hblock]
    exact hend.start x hx
  -- The new node is the last one.
  have hlast := hs1.trans (hend.insertBb_input rfl hlt)
  have hover : Overlaps (openFiles output input) { s1 with len := s1.len + input.length } s.blocks
      ⟨s.backed_block_list.next_addr, (inputCall input s.block_size output.length).block,
        (inputCall input s.block_size output.length).len, .fd 1 0⟩ k m := by
    refine ⟨hlast, ?_, ?_, ?_, ⟨?_, ?_⟩, hblock, ?_, ?_, ?_⟩
    · rw [hs1bs, hsbs]
      exact Room.of_le (by decide) (by decide) (by rw [hbs]; omega)
    · rw [hs1bs]
      exact hend.placed.mono (by omega)
    · rw [hs1bs]
      exact hend.stop
    · exact ne_zero_of_toNat_pos (by rw [hlen, hsbs, hbs]; omega)
    · refine ⟨Int.le_refl 0, ?_⟩
      dsimp only
      rw [hlen, hsbs, hbs]
      change 0 + m * 4096 ≤ input.length
      omega
    · rw [hs1bs]
      exact hlen
    · rw [hs1bs, hs1len, hslen, hsbs, hbs]
      push_cast
      omega
    · rw [hs1bs, hs1len, hslen, hsbs, hbs]
      push_cast
      omega
  obtain ⟨new, hwrite, hnot⟩ := hover.written (by omega) tmp
  refine ⟨new.bytes, ?_, hnot⟩
  rw [hadd]
  simp only [bind, Except.bind, hwrite]
  rfl

/-- Such files do not keep the promise. -/
theorem unaligned_not_appended (himp : sparseFileImport 0 output false = .ok none)
    (hodd : ¬ 4096 ∣ output.length) (hpos : 0 < input.length) (hdvd : 4096 ∣ input.length)
    (hsize : output.length + input.length < 2 ^ 31) (old : List UInt8) :
    ¬ AppendsInput output input tmp old := by
  obtain ⟨hstop, hlost⟩ := append2simg_unaligned himp hodd hpos hdvd hsize tmp
  by_cases hstart : StartsNode output 4096 (output.length / 4096)
  · rintro (h | ⟨new, h, -⟩)
    · rw [hstop hstart] at h
      cases h
    · rw [hstop hstart] at h
      cases h
  · obtain ⟨new, heq, hnot⟩ := hlost hstart
    rintro (h | ⟨new', h, hacc, -⟩)
    · rw [heq] at h
      cases h
    · rw [heq] at h
      cases h
      obtain ⟨s, hs⟩ := hacc.imported 0 false
      exact hnot 0 false s hs

end

/-- **`append2simg` appends exactly to whole blocks.** For every sparse image and every file that is
not imported as one, every input of a positive number of its blocks with less than `2^31` bytes
together, and every temporary file: an error is reported, or the result is an image that is accepted
and that expands to the old bytes and those of the input, if and only if the old file is a sparse
image or a number of whole blocks. -/
theorem appends_iff {output input old : List UInt8} {bs : UInt32} {len : ℕ}
    (h : OldFile output bs len old) (hpos : 0 < input.length) (hdvd : bs.toNat ∣ input.length)
    (hsize : len + input.length < 2 ^ 31) (tmp : List UInt8) :
    AppendsInput output input tmp old ↔ Image output ∨ 4096 ∣ output.length := by
  cases h with
  | sparse himg =>
    rw [← himg.length_expand] at hsize
    -- A sparse image goes through the sparse import, and depicts its expansion.
    refine iff_of_true ?_ (Or.inl himg)
    refine (himg.depicts input).appends himg.blk_sz_mod (fun s heq => ?_) hpos hdvd hsize
    rw [himg.length_expand] at heq
    unfold sparseFileImportAuto
    rw [(himg.calls 0).2.2 s heq]
    rfl
  | raw himp =>
    have hbs : (4096 : UInt32).toNat = 4096 := rfl
    -- A file that is no sparse image is imported raw, padded to blocks of 4096 bytes.
    have hno : ¬ Image output := fun himg => by
      obtain ⟨s, hi⟩ := himg.import 0
      rw [hi.import_eq] at himp
      cases himp
    by_cases hwhole : 4096 ∣ output.length
    · refine iff_of_true ?_ (Or.inr hwhole)
      have hold : padTo 0 (padded 4096 output.length) output = output := by
        rw [padded_eq (by decide) hwhole, padTo_self rfl]
      rw [hold]
      exact (@normalCalls_depicts output 4096 (by decide) (by decide) (by omega) hwhole
        input).appends (by decide) (fun s heq => sparseFileImportAuto_raw himp heq) hpos hdvd hsize
    · exact iff_of_false (unaligned_not_appended himp hwhole hpos hdvd hsize _)
        fun hc => hc.elim hno hwhole

/-- A block of four bytes is appended to an image of four such blocks. -/
theorem appends_to_sample :
    AppendsInput sampleImage [1, 2, 3, 4] [9, 9] (expand sampleImage) ↔
      Image sampleImage ∨ 4096 ∣ sampleImage.length :=
  appends_iff (.sparse (by decide +kernel)) (by decide) (by decide +kernel) (by decide +kernel) [9, 9]

/-- A raw file of a block and a byte. -/
def unalignedRaw : List UInt8 := 1 :: List.replicate 4096 3

/-- The end of a file of a block and a byte is where a block of the input is put, and what is renamed
over the file is not accepted. A file of one byte stops the program. -/
theorem unaligned_raw_is_lost :
    (sparseFileImport 0 unalignedRaw false = .ok none ∧
      (∃ new, append2simg unalignedRaw (List.replicate 4096 7) [] = .ok (some new) ∧
        ∀ fd crc s, sparseFileImport fd new crc ≠ .ok (some s)) ∧
      ¬ AppendsInput unalignedRaw (List.replicate 4096 7) [] (padTo 0 8192 unalignedRaw)) ∧
    sparseFileImport 0 [1] false = .ok none ∧
      append2simg [1] (List.replicate 4096 7) [] = .error .assertion ∧
      ¬ AppendsInput [1] (List.replicate 4096 7) [] (padTo 0 4096 [1]) := by
  have hlen : unalignedRaw.length = 4097 := by
    rw [unalignedRaw, List.length_cons, List.length_replicate]
  have hinput : (List.replicate 4096 (7 : UInt8)).length = 4096 := List.length_replicate
  have himp : sparseFileImport 0 unalignedRaw false = .ok none := by decide +kernel
  have hodd : ¬ 4096 ∣ unalignedRaw.length := by rw [hlen]; decide
  -- Block 1 starts no node: it is not the first, and block 0 is data like it.
  have hstart : ¬ StartsNode unalignedRaw 4096 (unalignedRaw.length / 4096) := by
    rw [hlen]
    rintro (h | h)
    · exact absurd h (by decide)
    · exact absurd h (by decide +kernel)
  have hsize : unalignedRaw.length + (List.replicate 4096 (7 : UInt8)).length < 2 ^ 31 := by
    rw [hlen, hinput]
    decide
  have himp1 : sparseFileImport 0 [1] false = .ok none := by decide +kernel
  have hsize1 : ([1] : List UInt8).length + (List.replicate 4096 (7 : UInt8)).length < 2 ^ 31 := by
    rw [hinput]
    decide
  refine ⟨⟨himp, ?_, ?_⟩, himp1, ?_, ?_⟩
  · exact (append2simg_unaligned himp hodd (by rw [hinput]; decide) (by rw [hinput]) hsize []).2
      hstart
  · exact unaligned_not_appended himp hodd (by rw [hinput]; decide) (by rw [hinput]) hsize _
  · exact (append2simg_unaligned himp1 (by decide) (by rw [hinput]; decide) (by rw [hinput]) hsize1
      []).1 (Or.inl rfl)
  · exact unaligned_not_appended himp1 (by decide) (by rw [hinput]; decide) (by rw [hinput]) hsize1 _

end AmlogicToolkit.Simg
