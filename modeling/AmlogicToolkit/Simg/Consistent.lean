import AmlogicToolkit.Simg.ReadRaw
import AmlogicToolkit.Simg.Written

/-!
# Consistent sparse files

What `sparse_file_write` makes of a sparse file of any length, with blocks from any of the four
functions or from a raw file: a file that is consistent in itself and that is imported, exactly when
the length is a whole number of blocks (`writesReadable_iff`).
-/

namespace AmlogicToolkit.Simg

open Bytes

/-- A sparse file that is consistent in itself: its header, and as many chunks as it announces and
nothing behind them. The chunks are of known types, have the payload that their type and block count
ask for, count it in their total size, and have the blocks that the header announces. -/
def Consistent (file : List UInt8) : Prop :=
  ∃ cs : List Chunk, file = (fileHeader file).encode ++ encodeChunks cs ∧
    (fileHeader file).total_chunks.toNat = cs.length ∧
    (fileHeader file).total_blks.toNat = (cs.map fun c => c.header.chunk_sz.toNat).sum ∧
    ∀ c ∈ cs, c.Formed (fileHeader file).blk_sz

/-- What is promised of a sparse file: writing it in the sparse format succeeds, and makes a file that
is consistent and that is imported with the block size. -/
def WritesReadable (env : Env) (s : SparseFile) (crc : Bool) : Prop :=
  ∃ new, sparseFileWrite file_ops env s ⟨[], 0⟩ true crc = .ok (0, new) ∧ Consistent new.bytes ∧
    ∀ fd, ∃ s', sparseFileImport fd new.bytes false = .ok (some s') ∧ s'.block_size = s.block_size

/-- A sparse file of a block size and a length, with blocks from calls that lie apart inside it, or
from a raw file. -/
inductive Built (w : Files) (bs : UInt32) (len : ℕ) (s : SparseFile) : Prop
  /-- Blocks from calls. -/
  | adds {calls : List Call} (inside : Inside w bs len calls)
    (eq : addAll (sparseFileNew bs len) calls = .ok s)
  /-- Blocks from a raw file. -/
  | read {fd : ℕ}
    (eq : sparseFileRead (sparseFileNew bs len) ⟨fd, w.content fd, 0⟩ false false = .ok s)

section

variable {w : Files} {bs : UInt32} {n len : ℕ} {s : SparseFile}

/-- What is read from a raw file is made by calls. -/
theorem Built.calls (hbs : bs ≠ 0) (hlen : len < 2 ^ 32) (h : Built w bs len s) :
    ∃ calls, Inside w bs len calls ∧ addAll (sparseFileNew bs len) calls = .ok s := by
  cases h with
  | adds inside eq => exact ⟨_, inside, eq⟩
  | read eq =>
    have hread : sparseFileReadNormal (sparseFileNew bs len) ⟨_, w.content _, 0⟩ = .ok s := eq
    have hfile := sparseFileReadNormal_length hbs hread
    rw [sparseFileReadNormal_eq hbs hfile] at hread
    refine ⟨_, normalCalls_inside hbs hlen hfile, ?_⟩
    generalize addAll _ _ = r at hread
    cases r with
    | ok s1 => cases hread; rfl
    | error f => cases hread

/-- Calls inside an image leave a sparse file whose blocks can be written one after the other. -/
theorem Inside.lays {calls : List Call} (hr : Room bs n) (hlen : len < 2 ^ 32)
    (hn : n = (len + bs.toNat - 1) / bs.toNat) (h : Inside w bs len calls)
    (heq : addAll (sparseFileNew bs len) calls = .ok s) :
    s.block_size = bs ∧ s.Lays w len n := by
  have hle := le_padded (n := len) hr.pos
  rw [padded, ← hn, Nat.mul_comm] at hle
  obtain ⟨s', heq', rfl, hslen, hplaced, -⟩ := addAll_placed hr.ne_zero hlen hle h
  cases heq.symm.trans heq'
  exact ⟨rfl, hslen, hn, hr, hplaced⟩

/-- A sparse file keeps its block size. -/
theorem Built.block_size_eq (hpos : 0 < bs.toNat) (hlen : len < 2 ^ 31) (h : Built w bs len s) :
    s.block_size = bs := by
  obtain ⟨calls, -, heq⟩ := h.calls (ne_zero_of_toNat_pos hpos) (by omega)
  exact (addAll_fields heq).1

/-- A sparse file of whole blocks below `2^31` bytes can be written. -/
theorem Built.lays (hmin : 1024 ≤ bs.toNat) (hdvd : bs.toNat ∣ len) (hlen : len < 2 ^ 31)
    (hlt : bs.toNat < 2 ^ 31) (h : Built w bs len s) :
    s.block_size = bs ∧ s.Lays w len (len / bs.toNat) := by
  have hpos : 0 < bs.toNat := by omega
  obtain ⟨calls, hinside, heq⟩ := h.calls (ne_zero_of_toNat_pos hpos) (by omega)
  obtain ⟨n, rfl⟩ := hdvd
  have hround : n = (bs.toNat * n + bs.toNat - 1) / bs.toNat := by
    have hsum : bs.toNat * n + bs.toNat - 1 = bs.toNat - 1 + bs.toNat * n := by omega
    rw [hsum, Nat.add_mul_div_left _ _ hpos, Nat.div_eq_of_lt (by omega), Nat.zero_add]
  have hroom : Room bs n := by
    refine Room.of_le (by omega) hlt ?_
    rw [Nat.add_mul, Nat.one_mul, Nat.mul_comm]
    omega
  rw [Nat.mul_div_cancel_left _ hpos]
  exact hinside.lays hroom (by omega) hround heq

/-- A chunk that is not empty has its blocks. -/
theorem ChunkHeader.blocks_eq {h : ChunkHeader} (hb : h.blocks ≠ 0) : h.blocks = h.chunk_sz := by
  unfold blocks at hb ⊢
  cases hk : h.kind <;> simp only [hk] at hb ⊢ <;> exact absurd rfl hb

/-- The block counts of the chunks of an image are what the chunks stand for. -/
theorem Files.allChunks_blocks {l : List BackedBlock} (hr : Room bs n) (h : Placed w bs n l 0)
    (crc : Bool) : ∀ c ∈ w.allChunks bs n crc l, c.header.blocks = c.header.chunk_sz := by
  intro c hc
  rcases List.mem_append.mp hc with hc | hc
  · exact ChunkHeader.blocks_eq ((Files.emission_ok hr h).1 c hc).blocks
  · -- A checksum has no blocks, and its header says so.
    cases crc with
    | false => cases hc
    | true =>
      rw [List.mem_singleton.mp hc]
      rfl

/-- The image of whole blocks is consistent, and is imported. -/
theorem SparseFile.Lays.writesReadable (h : s.Lays w len n) (h4 : s.block_size.toNat % 4 = 0)
    (hdvd : s.block_size.toNat ∣ len) (crc : Bool) : WritesReadable w.env s crc := by
  obtain ⟨hok, hblocks, hcount, -⟩ := Files.allChunks_ok h.room h.placed crc
  obtain ⟨himg, hhdr, -⟩ := Files.image_ok h.room h4 h.placed crc []
  have hnew : (RawFile.put ⟨[], 0⟩ (w.image s.block_size n crc s.blocks)).bytes =
      chunkFile s.block_size n (w.allChunks s.block_size n crc s.blocks) [] := by
    exact overwrite_length 0 [] (w.image s.block_size n crc s.blocks)
  refine ⟨_, sparseFileWrite_whole h hdvd ⟨[], 0⟩, ?_, fun fd => ?_⟩
  · rw [hnew]
    refine ⟨w.allChunks s.block_size n crc s.blocks, ?_, ?_, ?_, fun c hc => ?_⟩
    · rw [hhdr, chunkFile, List.append_nil]
    · rw [hhdr]
      change (UInt32.ofNat _).toNat = _
      rw [UInt32.toNat_ofNat', Nat.mod_eq_of_lt hcount]
    · -- The checksum chunk has no blocks, so the sum is the image.
      have hsum : ((w.allChunks s.block_size n crc s.blocks).map
          fun c => c.header.chunk_sz.toNat).sum = n := by
        refine Eq.trans ?_ hblocks
        unfold chunkBlocks
        congr 1
        exact List.map_congr_left fun c hc => by
          rw [Files.allChunks_blocks h.room h.placed crc c hc]
      rw [hhdr, hsum]
      change (UInt32.ofNat n).toNat = _
      rw [UInt32.toNat_ofNat', Nat.mod_eq_of_lt h.room.lt]
    · rw [hhdr]
      exact (hok c hc).elim Chunk.Ok.formed And.left
  · obtain ⟨s', hi⟩ := himg.import fd
    rw [hnew]
    exact ⟨s', hi.import_eq, hi.block_size.trans (by rw [hhdr]; rfl)⟩

/-- An image that ends inside a block is not written, or not imported. -/
theorem SparseFile.Lays.not_writesReadable (h : s.Lays w len n)
    (hdvd : ¬ s.block_size.toNat ∣ len) (crc : Bool) : ¬ WritesReadable w.env s crc := by
  rintro ⟨new, heq, -, himp⟩
  obtain ⟨hok, -, -⟩ := Files.chunks_ok h.room h.placed
  have hcount := length_le_chunkBlocks fun c hc => (hok c hc).blocks
  have hblocks := (Files.chunks_ok h.room h.placed).2.1
  have hle := stopOf_le h.placed
  -- A length inside a block either stops at the assertion, or leaves out the skip to the end.
  rcases @sparseFileWrite_odd w n len crc s h hdvd with habort | ⟨sum, new', heq', hbytes⟩
  · rw [habort] at heq
    cases heq
  · rw [heq'] at heq
    cases heq
    obtain ⟨s', hs', -⟩ := himp 0
    rw [hbytes] at hs'
    refine short_not_imported (fun c hc => ?_) ?_ hs'
    · rcases List.mem_append.mp hc with hc | hc
      · exact (hok c hc).formed
      · exact (crcChunk_formed c hc).1
    · have h1 : (crcChunk crc sum).length ≤ 1 := by cases crc <;> simp [crcChunk]
      have h2 := h.room.add_two_lt
      rw [List.length_append]
      omega

end

/-- **The sparse writer is consistent exactly on whole blocks.** For every block size from 1024 on
that is a multiple of four and every length that leaves room for a block below `2^31`, a sparse file
with blocks inside it is written, with or without a checksum, as a consistent file that is imported
if and only if the length is a multiple of the block size. -/
theorem writesReadable_iff {w : Files} {bs : UInt32} {len : ℕ} {s : SparseFile}
    (hmin : 1024 ≤ bs.toNat) (h4 : bs.toNat % 4 = 0) (hlen : len + bs.toNat < 2 ^ 31)
    (h : Built w bs len s) (crc : Bool) : WritesReadable w.env s crc ↔ bs.toNat ∣ len := by
  have hpos : 0 < bs.toNat := by omega
  have hroom : Room bs ((len + bs.toNat - 1) / bs.toNat) := by
    refine Room.of_le (by omega) (by omega) ?_
    have h1 := padded_lt (n := len) hpos
    rw [padded, Nat.mul_comm] at h1
    rw [Nat.add_mul, Nat.one_mul]
    omega
  obtain ⟨calls, hinside, heq⟩ := h.calls hroom.ne_zero (by omega)
  obtain ⟨rfl, hlays⟩ := hinside.lays hroom (by omega) rfl heq
  by_cases hdvd : s.block_size.toNat ∣ len
  · exact iff_of_true (hlays.writesReadable h4 hdvd crc) hdvd
  · exact iff_of_false (hlays.not_writesReadable hdvd crc) hdvd

/-- Files that all hold one byte. -/
def byteFiles : Files := ⟨fun _ => 0, fun _ => 0, fun _ => [7]⟩

/-- A fill of one block of 1024 bytes is written readably exactly when it is whole blocks. -/
theorem writesReadable_one_fill :
    WritesReadable byteFiles.env ⟨1024, 1024, ⟨[⟨0, 0, 1024, .fill 7⟩], none, 1024, 1⟩⟩ true ↔
      (1024 : UInt32).toNat ∣ 1024 :=
  writesReadable_iff (by decide) (by decide) (by decide)
    (@Built.adds _ _ _ _ [⟨.fill 7, 1024, 0⟩]
      ⟨⟨by decide, List.pairwise_singleton _ _⟩, by decide, by decide⟩ (by decide +kernel)) true

/-- A raw file of one byte, read with a block size of 1024: writing it runs into the assertion. A
sparse file of one byte without any block: what is written is not imported. -/
theorem unaligned_length_fails :
    (∃ s, sparseFileRead (sparseFileNew 1024 1) ⟨0, byteFiles.content 0, 0⟩ false false = .ok s ∧
      ∀ crc, sparseFileWrite file_ops byteFiles.env s ⟨[], 0⟩ true crc = .error .assertion ∧
        ¬ WritesReadable byteFiles.env s crc) ∧
    ∀ crc, ¬ WritesReadable byteFiles.env (sparseFileNew 1024 1) crc := by
  -- Without blocks the skip to the end is refused, and the header announces a block too many.
  have hempty : ∀ crc, ∃ new,
      sparseFileWrite file_ops byteFiles.env (sparseFileNew 1024 1) ⟨[], 0⟩ true crc =
        .ok (0, new) ∧ sparseFileImport 0 new.bytes false = .ok none := by
    intro crc
    cases crc
    · exact ⟨⟨(writtenHeader 1024 0 1).encode, 28⟩, by decide +kernel⟩
    · exact ⟨⟨(writtenHeader 1024 0 2).encode ++
        encodeChunks (crcChunk true 0), 44⟩, by decide +kernel⟩
  refine ⟨⟨⟨1024, 1, ⟨[⟨0, 0, 1, .fd 0 0⟩], none, 1024, 1⟩⟩, by decide +kernel, fun crc => ?_⟩,
    fun crc => ?_⟩
  · -- One byte of a file is padded to a block behind the length, which the assertion stops.
    have habort : sparseFileWrite file_ops byteFiles.env
        ⟨1024, 1, ⟨[⟨0, 0, 1, .fd 0 0⟩], none, 1024, 1⟩⟩ ⟨[], 0⟩ true crc = .error .assertion := by
      cases crc <;> decide +kernel
    refine ⟨habort, ?_⟩
    rintro ⟨new, heq, -⟩
    rw [habort] at heq
    cases heq
  · rintro ⟨new, heq, -, himp⟩
    obtain ⟨new', heq', hnone⟩ := hempty crc
    rw [heq'] at heq
    cases heq
    obtain ⟨s', hs', -⟩ := himp 0
    rw [hnone] at hs'
    cases hs'

end AmlogicToolkit.Simg
