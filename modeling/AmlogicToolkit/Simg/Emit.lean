import AmlogicToolkit.Simg.Contents
import AmlogicToolkit.Simg.SparseWriter

/-!
# What the sparse writer emits

`sparse_file_write` in the sparse format for blocks of any length, with or without a checksum: the
chunks that the loop over the blocks writes (`writeBlocks_outputs`), with the bytes that it takes
into the checksum, and the number that `sparse_count_chunks` counts for them (`countBlocks_chunks`).
-/

namespace AmlogicToolkit.Simg

open Bytes

/-! ## The chunks of a list -/

section

variable (w : Files) (bs : UInt32)

/-- The bytes of a block, with zeros up to the end of its last block. -/
def Files.wholeBytes (bb : BackedBlock) : List UInt8 :=
  padTo 0 (padded bs.toNat bb.len.toNat) (w.read bb.source bb.len.toNat)

/-- The chunk that the writer makes of a block. -/
def Files.chunk (bb : BackedBlock) : Chunk :=
  match bb.source with
  | .fill v => ⟨⟨CHUNK_TYPE_FILL, 0, divRoundUp bb.len bs, 16⟩, le32 v⟩
  | _ => ⟨⟨CHUNK_TYPE_RAW, 0, divRoundUp bb.len bs, 12 + align bb.len bs⟩, w.wholeBytes bs bb⟩

/-- The bytes that the writer takes into the checksum for a block: one block of a fill, and all of
any other. -/
def Files.summed (bb : BackedBlock) : List UInt8 :=
  match bb.source with
  | .fill v => cycle (bs.toNat / 4) (le32 v)
  | _ => w.wholeBytes bs bb

/-- The chunks of the blocks of a list behind block `last`, with those of the gaps in front of
them. -/
def Files.chunks : List BackedBlock → ℕ → List Chunk
  | [], _ => []
  | bb :: l, last =>
    gapChunk last bb.block.toNat ++ w.chunk bs bb :: Files.chunks l (bb.stopBlock bs)

/-- The block behind the last one of a list, or the one in front when there is none. -/
def stopOf : List BackedBlock → ℕ → ℕ
  | [], last => last
  | bb :: l, _ => stopOf l (bb.stopBlock bs)

/-- The bytes that the writer takes into the checksum for a list. -/
def Files.summedAll (l : List BackedBlock) : List UInt8 := l.flatMap (w.summed bs)

end

section

variable {w : Files} {bs : UInt32} {n last : ℕ} {l : List BackedBlock}

/-- The blocks that are placed end within the image. -/
theorem stopOf_le (h : Placed w bs n l last) : stopOf bs l last ≤ n := by
  induction l generalizing last with
  | nil => exact h.last_le
  | cons bb l ih => exact ih h.tail

end

section

variable {w : Files} {bs : UInt32} {n : ℕ} {crc : Bool} {out : OutputFile RawFile}

/-- **One block** is written as its chunk. -/
theorem sparseFileWriteBlock_outputs (hr : Room bs n) {bb : BackedBlock} (hw : w.Serves bb)
    (hin : bb.stopBlock bs ≤ n) (h : Sink bs crc out) :
    Outputs bs crc out (w.chunk bs bb).encode (w.summed bs bb)
      (sparseFileWriteBlock file_ops w.env out bb) := by
  have hfit := hr.fits hin
  have hdata := writeDataChunk_outputs h hr.ne_zero hr.lt_int hfit
    (Files.length_read (w := w) bb.source bb.len.toNat)
  rw [sparseFileWriteBlock_read file_ops out hw]
  unfold Files.chunk Files.summed Files.wholeBytes
  cases hsrc : bb.source with
  | data p => rw [hsrc] at hdata; exact hdata
  | file filename o => rw [hsrc] at hdata; exact hdata
  | fd fd o => rw [hsrc] at hdata; exact hdata
  | fill v => exact writeFillChunk_outputs h hr.ne_zero hfit v

/-- **The loop over the blocks** writes their chunks and those of the gaps. -/
theorem writeBlocks_outputs (hr : Room bs n) {l : List BackedBlock} {last_block : UInt32}
    (h : Placed w bs n l last_block.toNat) (hout : Sink bs crc out) :
    ∃ last_block' out', writeBlocks file_ops w.env bs l last_block out = (0, last_block', out') ∧
      last_block'.toNat = stopOf bs l last_block.toNat ∧
      Outputs bs crc out (encodeChunks (w.chunks bs l last_block.toNat)) (w.summedAll bs l)
        (0, out') := by
  induction l generalizing last_block out with
  | nil => exact ⟨last_block, out, rfl, rfl, hout.outputs_nil⟩
  | cons bb l ih =>
    have hgap := gap_outputs hr.ne_zero h.gap hout
    have hblk := sparseFileWriteBlock_outputs hr (h.blocks bb List.mem_cons_self)
      (h.inside bb List.mem_cons_self) hgap.sink
    have hnext := h.stopBlock_eq hr
    have ht : Placed w bs n l (bb.block + divRoundUp bb.len bs).toNat := by
      rw [hnext]; exact h.tail
    obtain ⟨last_block', out', heq, hlast, hall⟩ := ih ht hblk.sink
    rw [hnext] at hlast hall
    have hsum := (hgap.append hblk).append hall
    refine ⟨last_block', out', ?_, hlast, ?_⟩
    · rw [writeBlocks]
      simp only [hblk.ret, ne_eq, not_true_eq_false, if_false]
      exact heq
    · rw [List.nil_append, List.append_assoc] at hsum
      rw [Files.chunks, encodeChunks_append, encodeChunks_cons]
      exact hsum

/-- The counting pass counts the chunks that the writing pass writes. -/
theorem countBlocks_chunks (hr : Room bs n) {l : List BackedBlock} {last_block chunks : UInt32}
    (h : Placed w bs n l last_block.toNat) :
    (countBlocks bs l last_block chunks).1.toNat = stopOf bs l last_block.toNat ∧
      (countBlocks bs l last_block chunks).2 =
        chunks + UInt32.ofNat (w.chunks bs l last_block.toNat).length := by
  induction l generalizing last_block chunks with
  | nil => exact ⟨rfl, by simp [countBlocks, Files.chunks]⟩
  | cons bb l ih =>
    have hnext := h.stopBlock_eq hr
    have ht := h.tail
    rw [← hnext] at ht
    obtain ⟨h1, h2⟩ := @ih _
      (chunks + UInt32.ofNat ((gapChunk last_block.toNat bb.block.toNat).length + 1)) ht
    rw [countBlocks_cons, h1, h2, hnext, Files.chunks, List.length_append, List.length_cons,
      UInt32.add_assoc, ← UInt32.ofNat_add, Nat.add_right_comm]
    exact ⟨rfl, rfl⟩

end

end AmlogicToolkit.Simg
