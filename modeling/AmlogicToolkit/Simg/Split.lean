import AmlogicToolkit.Simg.Move
import AmlogicToolkit.Simg.NormalWriter

/-!
# Splitting and moving blocks

What the operations of one step of `sparse_file_resparse` do to the block list. Splitting a node at
one block or more makes two nodes that describe together what it did (`Tidy.split`), and moving the
nodes up to the last one that fits cuts the list in two (`backedBlockListMove_front`). The scan finds
that node with a counter in place of a file (`scanBlocks_size`).
-/

namespace AmlogicToolkit.Simg

open Bytes Extents

/-- Two lists describe the same map. -/
def SameMap (bs : UInt32) (l l' : List BackedBlock) : Prop :=
  ∀ p x, Describes bs l p x ↔ Describes bs l' p x

/-- A list of blocks of an image of `n` blocks that can be written, at addresses of their own below
the next one. -/
structure Tidy (file : List UInt8) (bs : UInt32) (n : ℕ) (l : List BackedBlock) (next : ℕ) :
    Prop where
  /-- The blocks can be written. -/
  fits : Fits file bs n l 0
  /-- No two nodes share an address. -/
  nodup : (l.map BackedBlock.addr).Nodup
  /-- The addresses are below the next one. -/
  fresh : ∀ bb ∈ l, bb.addr < next

section

variable {file : List UInt8} {bs : UInt32} {n next : ℕ} {l m pre post : List BackedBlock}
  {bb : BackedBlock}

/-- A list has its own map. -/
theorem SameMap.refl (bs : UInt32) (l : List BackedBlock) : SameMap bs l l := fun _ _ => Iff.rfl

/-- Lists with the map of a third have the same map. -/
theorem SameMap.trans (h : SameMap bs l m) {k : List BackedBlock} (h' : SameMap bs m k) :
    SameMap bs l k := fun p x => (h p x).trans (h' p x)

/-- Blocks that can be written are in strictly increasing order. -/
theorem Fits.sorted {last : ℕ} (h : Fits file bs n l last) : Sorted l := by
  refine List.Pairwise.imp_of_mem (fun {a b} ha _ hab => ?_) h.disjoint
  have hpos : 0 < a.len.toNat := toNat_pos_of_ne_zero (h.blocks a ha).nonempty
  rw [Before, BackedBlock.extent_stop, BackedBlock.extent_start] at hab
  rw [UInt32.lt_iff_toNat_lt]
  exact Nat.lt_of_mul_lt_mul_right (show a.block.toNat * bs.toNat < b.block.toNat * bs.toNat by
    omega)

/-- What fits into an image does so when blocks are taken out. -/
theorem Fits.sublist {last : ℕ} (h : Fits file bs n l last) (hs : m.Sublist l) :
    Fits file bs n m last :=
  ⟨fun b hb => h.blocks b (hs.mem hb), h.disjoint.sublist hs, fun b hb => h.inside b (hs.mem hb),
    fun b hb => h.lower b (hs.mem hb), h.last_le⟩

/-! ## Splitting -/

/-- `ALIGN_DOWN` gives a number of whole blocks. -/
theorem alignDown_dvd (r bs : UInt32) : bs.toNat ∣ (alignDown r bs).toNat := by
  rw [alignDown_toNat]
  exact Nat.dvd_mul_right _ _

/-- `ALIGN_DOWN` to the block size, of one block or more. -/
theorem alignDown_spec {r : UInt32} (hbs : bs ≠ 0) (hr : bs ≤ r) :
    bs.toNat ∣ (alignDown r bs).toNat ∧ 0 < (alignDown r bs).toNat := by
  have hpos : 0 < bs.toNat := toNat_pos_of_ne_zero hbs
  rw [alignDown_toNat]
  exact ⟨Nat.dvd_mul_right _ _,
    Nat.mul_pos hpos (Nat.div_pos (UInt32.le_iff_toNat_le.mp hr) hpos)⟩

/-- The two parts of a node that is split at `m` bytes. -/
structure Halves (file : List UInt8) (bs : UInt32) (bb a b : BackedBlock) : Prop where
  /-- The first part can be written. -/
  left : Writable file bs a
  /-- The second part can be written. -/
  right : Writable file bs b
  /-- The second part goes on where the first stops. -/
  continues : Continues BlockSource.label (a.extent bs) (b.extent bs)
  /-- Together they are the node. -/
  join : (a.extent bs).join (b.extent bs) = bb.extent bs

/-- **The second part** of a node goes on where the first stops, when the node is split at a whole
number of blocks and the block of the second part has a number of 32 bits. -/
theorem continues_of_cut (hbs : bs ≠ 0) {m : UInt32} (hdvd : bs.toNat ∣ m.toNat)
    (hlt : m.toNat < bb.len.toNat) (hblock : bb.block.toNat + m.toNat / bs.toNat < 2 ^ 32)
    (addr : ℕ) :
    Continues BlockSource.label (BackedBlock.extent bs { bb with len := m })
        (BackedBlock.extent bs
          ⟨addr, bb.block + m / bs, bb.len - m, bb.source.advance m.toNat⟩) ∧
      (BackedBlock.extent bs { bb with len := m }).join (BackedBlock.extent bs
        ⟨addr, bb.block + m / bs, bb.len - m, bb.source.advance m.toNat⟩) = bb.extent bs := by
  obtain ⟨q, hq⟩ := hdvd
  have hdiv : m.toNat / bs.toNat = q := by
    rw [hq, Nat.mul_div_cancel_left _ (toNat_pos_of_ne_zero hbs)]
  have hsub : (bb.len - m).toNat = bb.len.toNat - m.toNat :=
    UInt32.toNat_sub_of_le _ _ (UInt32.le_iff_toNat_le.mpr (Nat.le_of_lt hlt))
  have hnumber : (bb.block + m / bs).toNat = bb.block.toNat + q := by
    rw [UInt32.toNat_add, UInt32.toNat_div, Nat.mod_eq_of_lt hblock, hdiv]
  refine ⟨⟨?_, fun k => ?_⟩, ?_⟩
  · change bb.block.toNat * bs.toNat + m.toNat = (bb.block + m / bs).toNat * bs.toNat
    rw [hnumber, Nat.add_mul, Nat.mul_comm q, hq]
  · change bb.source.label (m.toNat + k) = (bb.source.advance m.toNat).label k
    cases bb.source <;> simp only [BlockSource.label, BlockSource.advance, Label.data.injEq,
      Label.file.injEq, Label.fd.injEq, true_and] <;> omega
  · simp only [BackedBlock.extent, Extent.join, hsub, Extent.mk.injEq, and_true, true_and]
    omega

/-- A node that ends at block `2^32` or before has no second part that starts there. -/
theorem block_of_stop (hin : (bb.extent bs).stop ≤ 2 ^ 32 * bs.toNat) {m : ℕ}
    (hlt : m / bs.toNat * bs.toNat < bb.len.toNat) : bb.block.toNat + m / bs.toNat < 2 ^ 32 := by
  rw [BackedBlock.extent_stop] at hin
  refine Nat.lt_of_mul_lt_mul_right (a := bs.toNat) ?_
  rw [Nat.add_mul]
  omega

/-- The same for a node that ends at block `2^32` or before. -/
theorem continues_of_split (hbs : bs ≠ 0) (hin : (bb.extent bs).stop ≤ 2 ^ 32 * bs.toNat) {m : UInt32}
    (hdvd : bs.toNat ∣ m.toNat) (hlt : m.toNat < bb.len.toNat) (addr : ℕ) :
    Continues BlockSource.label (BackedBlock.extent bs { bb with len := m })
        (BackedBlock.extent bs
          ⟨addr, bb.block + m / bs, bb.len - m, bb.source.advance m.toNat⟩) ∧
      (BackedBlock.extent bs { bb with len := m }).join (BackedBlock.extent bs
        ⟨addr, bb.block + m / bs, bb.len - m, bb.source.advance m.toNat⟩) = bb.extent bs :=
  continues_of_cut hbs hdvd hlt
    (block_of_stop hin (by rw [Nat.div_mul_cancel hdvd]; exact hlt)) addr

/-- **Splitting a node** at a whole number of blocks, less than it has. -/
theorem halves_of_split (hbs : bs ≠ 0) (hn : n < 2 ^ 32) (hw : Writable file bs bb)
    (hin : (bb.extent bs).stop ≤ n * bs.toNat) {m : UInt32} (hdvd : bs.toNat ∣ m.toNat)
    (h0 : 0 < m.toNat) (hlt : m.toNat < bb.len.toNat) (addr : ℕ) :
    Halves file bs bb { bb with len := m }
      ⟨addr, bb.block + m / bs, bb.len - m, bb.source.advance m.toNat⟩ := by
  have hpos : 0 < bs.toNat := toNat_pos_of_ne_zero hbs
  obtain ⟨q, hq⟩ := hdvd
  -- The second part is what the first leaves of the length.
  have hsub : (bb.len - m).toNat = bb.len.toNat - m.toNat :=
    UInt32.toNat_sub_of_le _ _ (UInt32.le_iff_toNat_le.mpr (Nat.le_of_lt hlt))
  have hwhole := hw.whole
  have hfits := hw.fits
  obtain ⟨hcont, hjoin⟩ := continues_of_split hbs
    (hin.trans (Nat.mul_le_mul_right _ (Nat.le_of_lt hn))) ⟨q, hq⟩ hlt addr
  -- Both parts are whole numbers of blocks.
  have hrest : (bb.len.toNat - m.toNat) / bs.toNat * bs.toNat = bb.len.toNat - m.toNat := by
    refine Nat.div_mul_cancel (Nat.dvd_sub ⟨bb.len.toNat / bs.toNat, ?_⟩ ⟨q, hq⟩)
    rw [Nat.mul_comm]
    exact hwhole.symm
  have hr := hw.readable
  -- First what the first part has to be, then the second.
  refine ⟨⟨ne_zero_of_toNat_pos h0, ?_, ?_, ?_⟩, ⟨fun h => ?_, ?_, ?_, ?_⟩, hcont, hjoin⟩
  · change m.toNat / bs.toNat * bs.toNat = m.toNat
    rw [hq, Nat.mul_div_cancel_left _ hpos, Nat.mul_comm]
  · change Readable file m.toNat bb.source
    cases hs : bb.source <;> rw [hs] at hr <;> simp only [Readable] at hr ⊢
    exact ⟨hr.1, by omega⟩
  · change m.toNat + bs.toNat ≤ 2 ^ 32
    omega
  · change bb.len - m = 0 at h
    rw [h, UInt32.toNat_zero] at hsub
    omega
  · change (bb.len - m).toNat / bs.toNat * bs.toNat = (bb.len - m).toNat
    rw [hsub, hrest]
  · change Readable file (bb.len - m).toNat (bb.source.advance m.toNat)
    rw [hsub]
    cases hs : bb.source <;> rw [hs] at hr <;> simp only [Readable, BlockSource.advance] at hr ⊢
    exact ⟨by omega, by omega⟩
  · change (bb.len - m).toNat + bs.toNat ≤ 2 ^ 32
    omega

/-- Two parts in place of a node keep the list in order. -/
theorem disjoint_cut {a b : BackedBlock}
    (hc : Continues BlockSource.label (a.extent bs) (b.extent bs))
    (hj : (a.extent bs).join (b.extent bs) = bb.extent bs) (h : Disjoint bs (pre ++ bb :: post)) :
    Disjoint bs (pre ++ a :: b :: post) := by
  have hext := h.extents
  rw [extents, List.map_append, List.map_cons, ← hj] at hext
  have hcut := pairwise_before_cut BlockSource.label hc hext
  rw [← List.map_cons, ← List.map_cons, ← List.map_append] at hcut
  exact List.pairwise_map.mp hcut

/-- They describe what the node does. -/
theorem sameMap_cut {a b : BackedBlock}
    (hc : Continues BlockSource.label (a.extent bs) (b.extent bs))
    (hj : (a.extent bs).join (b.extent bs) = bb.extent bs) :
    SameMap bs (pre ++ bb :: post) (pre ++ a :: b :: post) := by
  intro p x
  simp only [Describes, extents, List.map_append, List.map_cons, described_append]
  refine or_congr Iff.rfl ?_
  rw [← hj]
  exact described_join BlockSource.label hc _ p x

/-- They end where the node ends, or before. -/
theorem stop_cut {a b : BackedBlock}
    (hc : Continues BlockSource.label (a.extent bs) (b.extent bs))
    (hj : (a.extent bs).join (b.extent bs) = bb.extent bs) :
    (a.extent bs).stop ≤ (bb.extent bs).stop ∧ (b.extent bs).stop = (bb.extent bs).stop := by
  have h1 : (a.extent bs).start + (a.extent bs).len = (b.extent bs).start := hc.stop_eq
  rw [← hj]
  simp only [Extent.stop, Extent.join]
  omega

/-- Blocks fit into an image as before when one is cut into halves. -/
theorem Fits.halves (h : Fits file bs n (pre ++ bb :: post) 0) {a b : BackedBlock}
    (hh : Halves file bs bb a b) : Fits file bs n (pre ++ a :: b :: post) 0 := by
  obtain ⟨hale, hstop⟩ := stop_cut hh.continues hh.join
  have hmem : ∀ {P : BackedBlock → Prop}, (∀ c ∈ pre ++ bb :: post, P c) → P a → P b →
      ∀ c ∈ pre ++ a :: b :: post, P c := by
    intro P hP ha hb c hc
    simp only [List.mem_append, List.mem_cons] at hP hc
    rcases hc with hc | rfl | rfl | hc
    · exact hP c (Or.inl hc)
    · exact ha
    · exact hb
    · exact hP c (Or.inr (Or.inr hc))
  have hin := h.inside bb (by simp)
  exact ⟨hmem h.blocks hh.left hh.right, disjoint_cut hh.continues hh.join h.disjoint,
    hmem h.inside (hale.trans hin) (hstop ▸ hin), fun _ _ => Nat.zero_le _, h.last_le⟩

/-- What `backed_block_split` makes of a node: a first part at its address, and at most one more, at
a new one. -/
theorem splitBb_cons (bs : UInt32) (addr : ℕ) (bb : BackedBlock) (r : UInt32) :
    ∃ a rest, splitBb bs addr bb r = a :: rest ∧ a.addr = bb.addr ∧
      (rest = [] ∨ ∃ b, rest = [b] ∧ b.addr = addr) := by
  unfold splitBb
  dsimp only
  split_ifs
  · exact ⟨bb, [], rfl, rfl, Or.inl rfl⟩
  · exact ⟨_, _, rfl, rfl, Or.inr ⟨_, rfl, rfl⟩⟩

/-- **The cases of a split**: a node that is short enough is left as it is, and a longer one is cut
behind its first `r` bytes, rounded down. -/
theorem splitBb_cases {addr : ℕ} {a : BackedBlock} {rest : List BackedBlock} {r : UInt32}
    (h : splitBb bs addr bb r = a :: rest) :
    (bb.len ≤ alignDown r bs ∧ a = bb ∧ rest = []) ∨
      (alignDown r bs < bb.len ∧ a = { bb with len := alignDown r bs } ∧
        rest = [⟨addr, bb.block + alignDown r bs / bs, bb.len - alignDown r bs,
          bb.source.advance (alignDown r bs).toNat⟩]) := by
  unfold splitBb at h
  dsimp only at h
  split_ifs at h with hle
  · obtain ⟨ha, hrest⟩ := List.cons.inj h
    exact Or.inl ⟨hle, ha.symm, hrest.symm⟩
  · obtain ⟨ha, hrest⟩ := List.cons.inj h
    exact Or.inr ⟨UInt32.not_le.mp hle, ha.symm, hrest.symm⟩

/-- Splitting a node keeps the addresses apart. -/
theorem nodup_split {rest : List BackedBlock} {a : BackedBlock} {r : UInt32}
    (hbb : splitBb bs next bb r = a :: rest)
    (hnd : ((pre ++ bb :: post).map BackedBlock.addr).Nodup)
    (hfresh : ∀ c ∈ pre ++ bb :: post, c.addr < next) :
    ((pre ++ a :: (rest ++ post)).map BackedBlock.addr).Nodup ∧
      ∀ c ∈ pre ++ a :: (rest ++ post), c.addr < next + 1 := by
  obtain ⟨a', rest', heq, haddr, hrest⟩ := splitBb_cons bs next bb r
  rw [hbb] at heq
  obtain ⟨rfl, rfl⟩ := List.cons.inj heq
  have hlt : ∀ x ∈ (pre ++ bb :: post).map BackedBlock.addr, x < next :=
    List.forall_mem_map.mpr hfresh
  -- The addresses are those that there were, and the new one.
  have hperm : ((pre ++ a :: (rest ++ post)).map BackedBlock.addr).Perm
      (rest.map BackedBlock.addr ++ (pre ++ bb :: post).map BackedBlock.addr) := by
    have h1 : (a :: (rest ++ post)).Perm (rest ++ a :: post) := List.perm_middle.symm
    have h2 := (List.perm_append_comm_assoc pre rest (a :: post)).map BackedBlock.addr
    have h3 := (h1.append_left pre).map BackedBlock.addr
    simpa [haddr] using h3.trans h2
  have hnew : ∀ x ∈ rest.map BackedBlock.addr, x = next := by
    rcases hrest with rfl | ⟨b, rfl, hb⟩ <;> simp_all
  have hone : (rest.map BackedBlock.addr).Nodup := by
    rcases hrest with rfl | ⟨b, rfl, hb⟩ <;> simp
  refine ⟨hperm.nodup_iff.mpr (List.nodup_append.mpr ⟨hone, hnd, fun x hx y hy hxy => ?_⟩),
    fun c hc => ?_⟩
  · exact Nat.ne_of_gt (hxy ▸ hlt y hy) (hnew x hx).symm
  · rcases List.mem_append.mp (hperm.mem_iff.mp (List.mem_map_of_mem hc)) with hx | hx
    · exact Nat.lt_succ_of_le (Nat.le_of_eq (hnew _ hx))
    · exact Nat.lt_succ_of_lt (hlt _ hx)

/-- What `backed_block_split` makes of a list: the node, or its two parts. -/
theorem Tidy.split (h : Tidy file bs n (pre ++ bb :: post) next) (hbs : bs ≠ 0) (hn : n < 2 ^ 32)
    {r : UInt32} (hr : bs ≤ r) : ∃ a rest, splitBb bs next bb r = a :: rest ∧ a.addr = bb.addr ∧
      Tidy file bs n (pre ++ a :: (rest ++ post)) (next + 1) ∧
      SameMap bs (pre ++ bb :: post) (pre ++ a :: (rest ++ post)) := by
  obtain ⟨hdvd, h0⟩ := alignDown_spec hbs hr
  unfold splitBb
  by_cases hle : bb.len ≤ alignDown r bs
  · simp only [if_pos hle]
    exact ⟨bb, [], rfl, rfl,
      ⟨h.fits, h.nodup, fun c hc => Nat.lt_succ_of_lt (h.fresh c hc)⟩, SameMap.refl _ _⟩
  · have hlt : (alignDown r bs).toNat < bb.len.toNat :=
      UInt32.lt_iff_toNat_lt.mp (UInt32.not_le.mp hle)
    have hh := halves_of_split hbs hn (h.fits.blocks bb (by simp)) (h.fits.inside bb (by simp)) hdvd
      h0 hlt next
    simp only [if_neg hle]
    obtain ⟨hnd, hfresh⟩ := nodup_split (show splitBb bs next bb r = [_, _] by
      unfold splitBb; exact if_neg hle) h.nodup h.fresh
    exact ⟨_, _, rfl, rfl, ⟨h.fits.halves hh, hnd, hfresh⟩, sameMap_cut hh.continues hh.join⟩

/-- A node is split where it stands. -/
theorem backedBlockSplit_blocks {bbl : BackedBlockList} (hl : bbl.data_blocks = pre ++ bb :: post)
    (hnd : (bbl.data_blocks.map BackedBlock.addr).Nodup) (r : UInt32) :
    (backedBlockSplit bbl bb r).data_blocks =
      pre ++ (splitBb bbl.block_size bbl.next_addr bb r ++ post) := by
  have hother : ∀ l : List BackedBlock, (∀ c ∈ l, c.addr ≠ bb.addr) →
      l.flatMap (fun b => if b.addr = bb.addr then
        splitBb bbl.block_size bbl.next_addr b r else [b]) = l := by
    intro l hl
    induction l with
    | nil => rfl
    | cons c l ih =>
      rw [List.flatMap_cons, if_neg (hl c List.mem_cons_self),
        ih fun d hd => hl d (List.mem_cons_of_mem _ hd)]
      rfl
  rw [hl, List.map_append, List.map_cons] at hnd
  obtain ⟨-, h2, h3⟩ := List.nodup_append.mp hnd
  simp only [backedBlockSplit, hl, List.flatMap_append, List.flatMap_cons, if_true]
  rw [hother pre fun c hc => h3 _ (List.mem_map_of_mem hc) _ List.mem_cons_self,
    hother post fun c hc heq => (List.nodup_cons.mp h2).1 (heq ▸ List.mem_map_of_mem hc)]

/-! ## Scanning -/

/-- A write to the counter returns 0 and adds its length, taken as an `int`. -/
theorem counter_write (out : OutputFile ℤ) (data : List UInt8) (len : ℕ) :
    out.write counter_ops data len = (0, { out with dev := out.dev + toInt len }) := rfl

/-- The counter takes every chunk of data, and counts its header, its bytes and its padding. -/
theorem writeSparseDataChunk_counter (out : OutputFile ℤ) (len : UInt32) (data : List UInt8) :
    ∃ out', writeSparseDataChunk counter_ops out len data = (0, out') ∧
      out'.sparse = out.sparse ∧ out'.block_size = out.block_size ∧
        out'.dev = out.dev + 12 + toInt len.toNat + toInt (align len out.block_size - len).toNat := by
  -- Every write of this callback adds its length, taken as an int.
  have h12 : toInt (CHUNK_HEADER_LEN : ℤ) = 12 := by decide
  unfold writeSparseDataChunk
  extract_lets rnd_up_len zero_len zero_buf zero_size chunk_header
  have hzero : toInt (zero_size : ℤ) = zero_len := by
    have hlt := (rnd_up_len - len).toNat_lt
    simp only [zero_size, zero_len, toInt]
    split_ifs <;> omega
  rw [counter_write]
  split
  next ret out1 h1 =>
    obtain ⟨rfl, rfl⟩ := Prod.mk.inj h1
    rw [if_neg (by decide), counter_write]
    split
    next ret out2 h2 =>
      obtain ⟨rfl, rfl⟩ := Prod.mk.inj h2
      rw [if_neg (by decide), counter_write]
      -- The padding is written only if there is any.
      by_cases hz : zero_len ≠ 0
      · rw [if_pos hz]
        split
        next ret out3 h3 =>
          obtain ⟨rfl, rfl⟩ := Prod.mk.inj h3
          rw [if_neg (by decide)]
          exact ⟨_, rfl, rfl, rfl, by simp only [h12, hzero]; rfl⟩
      · rw [if_neg hz]
        split
        next ret out3 h3 =>
          obtain ⟨rfl, rfl⟩ := Prod.mk.inj h3
          have hz0 : toInt ((align len out.block_size - len).toNat : ℤ) = 0 := not_not.mp hz
          rw [if_neg (by decide)]
          exact ⟨_, rfl, rfl, rfl, by simp only [h12, hz0, add_zero]⟩

/-- The counter takes every fill chunk, and counts its header and its word. -/
theorem writeSparseFillChunk_counter (out : OutputFile ℤ) (len w : UInt32) :
    ∃ out', writeSparseFillChunk counter_ops out len w = (0, out') ∧ out'.sparse = out.sparse ∧
      out'.block_size = out.block_size ∧ out'.dev = out.dev + 16 := by
  have h12 : toInt (CHUNK_HEADER_LEN : ℤ) = 12 := by decide
  have h4 : toInt ((4 : ℕ) : ℤ) = 4 := by decide
  unfold writeSparseFillChunk
  extract_lets rnd_up_len chunk_header
  rw [counter_write]
  split
  next ret out1 h1 =>
    obtain ⟨rfl, rfl⟩ := Prod.mk.inj h1
    rw [if_neg (by decide), counter_write]
    split
    next ret out2 h2 =>
      obtain ⟨rfl, rfl⟩ := Prod.mk.inj h2
      rw [if_neg (by decide)]
      exact ⟨_, rfl, rfl, rfl, by simp only [h12, h4, add_assoc]; rfl⟩

/-- The counter takes every block that can be written, and does not count down for a short one. -/
theorem sparseFileWriteBlock_counter {out : OutputFile ℤ} (hs : out.sparse = true)
    (hw : Writable file bs bb) : ∃ out',
      sparseFileWriteBlock counter_ops (Env.ofFile file) out bb = (0, out') ∧
        out'.sparse = true ∧ out'.block_size = out.block_size ∧
        (bb.len.toNat < 2 ^ 31 → bs ≠ 0 → out.block_size = bs → out.dev ≤ out'.dev) := by
  have hr := hw.readable
  unfold sparseFileWriteBlock
  -- Memory and named files are not measured here: a piece of the open file, or a fill.
  cases hsrc : bb.source with
  | data _ => rw [hsrc] at hr; exact hr.elim
  | file _ _ => rw [hsrc] at hr; exact hr.elim
  | fd fd o =>
    rw [hsrc] at hr
    obtain ⟨data, hmap, hdrop⟩ := @mapFile_drop _ _ bb.len.toNat
      (fun h0 => hw.nonempty (UInt32.toNat_inj.mp h0)) hr.1 hr.2
    obtain ⟨out', h1, h2, h3, h4⟩ := writeSparseDataChunk_counter out bb.len
      (data.drop (o % 4096).toNat)
    simp only [writeFdChunk, Env.ofFile, hmap, writeDataChunk, hs, if_true]
    -- A length below 2^31 is not changed on its way through an int.
    refine ⟨out', h1, h2.trans hs, h3, fun hlt hbs hb => ?_⟩
    have hlen : toInt (bb.len.toNat : ℤ) = bb.len.toNat := toInt_of_lt hlt
    have hpad : toInt ((bb.len - bb.len).toNat : ℤ) = 0 := by rw [UInt32.sub_self]; decide
    rw [h4, hb, (align_eq hw.whole.symm hbs hw.fits).2, hlen, hpad]
    omega
  | fill w =>
    obtain ⟨out', h1, h2, h3, h4⟩ := writeSparseFillChunk_counter out bb.len w
    simp only [writeFillChunk, hs, if_true]
    exact ⟨out', h1, h2.trans hs, h3, fun _ _ _ => by omega⟩

/-- The last of a list with one in front is the last of the list, or that one. -/
theorem getLast?_cons_or {α : Type*} (a : α) (l : List α) (x : Option α) :
    (a :: l).getLast?.or x = l.getLast?.or (some a) := by
  cases l with
  | nil => rfl
  | cons b l =>
    rw [List.getLast?_cons_cons, List.getLast?_eq_getLast_of_ne_nil (List.cons_ne_nil b l)]
    rfl

/-- On a list that can be written every block that the scan looks at is measured. -/
theorem scanBlocks_ne_failed (hw : ∀ c ∈ l, Writable file bs c) (len : UInt32)
    (last_bb : Option BackedBlock) (last_block : UInt32) (file_len : ℤ) {out : OutputFile ℤ}
    (hs : out.sparse = true) :
    scanBlocks (Env.ofFile file) bs len l last_bb last_block file_len out ≠ .failed := by
  induction l generalizing last_bb last_block file_len out with
  | nil => exact fun h => nomatch h
  | cons c l ih =>
    obtain ⟨out', h1, h2, -⟩ := @sparseFileWriteBlock_counter _ _ _
      { out with dev := if c.block > last_block then 12 else 0 } hs
      (hw c List.mem_cons_self)
    rw [scanBlocks]
    simp only [h1, ne_eq, not_true_eq_false, if_false]
    by_cases hfull : file_len + out'.dev > len.toNat
    · rw [if_pos hfull]
      exact fun h => nomatch h
    · rw [if_neg hfull]
      exact ih (fun d hd => hw d (List.mem_cons_of_mem _ hd)) _ _ _ h2

/-- The bytes before the node that does not fit, with its header: only the header when it is the
first node. -/
theorem scanBlocks_size (hw : ∀ c ∈ l, Writable file bs c) (hlen : ∀ c ∈ l, c.len.toNat < 2 ^ 31)
    (hbs : bs ≠ 0) {len : UInt32} {last_bb last : Option BackedBlock} {last_block : UInt32}
    {file_len size : ℤ} {out : OutputFile ℤ} (hs : out.sparse = true) (hb : out.block_size = bs)
    (h0 : 0 ≤ file_len)
    (h : scanBlocks (Env.ofFile file) bs len l last_bb last_block file_len out =
      .full last bb size) :
    12 ≤ size ∧ (last = none → last_bb = none ∧ size = file_len + 12) := by
  induction l generalizing last_bb last_block file_len out with
  | nil => cases h
  | cons c l ih =>
    obtain ⟨out', h1, h2, h3, h4⟩ := @sparseFileWriteBlock_counter _ _ _
      { out with dev := if c.block > last_block then 12 else 0 } hs
      (hw c List.mem_cons_self)
    have hdev : (if c.block > last_block then 12 else 0) ≤ out'.dev :=
      h4 (hlen c List.mem_cons_self) hbs hb
    have h12 : (0 : ℤ) ≤ if c.block > last_block then 12 else 0 := by split <;> decide
    rw [scanBlocks] at h
    simp only [h1, ne_eq, not_true_eq_false, if_false] at h
    by_cases hfull : file_len + out'.dev > len.toNat
    · rw [if_pos hfull] at h
      obtain ⟨rfl, rfl, rfl⟩ := MoveStop.full.inj h
      exact ⟨by omega, fun hn => ⟨hn, rfl⟩⟩
    · rw [if_neg hfull] at h
      obtain ⟨h5, h6⟩ := ih (fun d hd => hw d (List.mem_cons_of_mem _ hd))
        (fun d hd => hlen d (List.mem_cons_of_mem _ hd)) h2 (h3.trans hb) (by omega) h
      exact ⟨h5, fun hn => nomatch (h6 hn).1⟩

end

/-! ## The scan of a step -/

/-- The counter behind the header, as `move_chunks_up_to_len` scans with it. -/
def counterFile (block_size : UInt32) (len : ℤ) : OutputFile ℤ :=
  ⟨0, 0, 0, true, false, block_size, len, 28⟩

/-- The scan of `move_chunks_up_to_len`: whether all fits, a block is the first that does not, or
one cannot be measured. -/
def scan (env : Env) (src : SparseFile) (max_len : UInt32) : MoveStop :=
  scanBlocks env src.block_size (max_len - overhead) src.blocks none 0 0
    (counterFile src.block_size src.len)

/-- A step that splits a block splits it at one block or more. -/
def SplitsWhole (env : Env) (src : SparseFile) (max_len : UInt32) : Prop :=
  ∀ last_bb bb file_len, scan env src max_len = .full last_bb bb file_len →
    splits (max_len - overhead) last_bb file_len →
      src.block_size ≤ toU32 ((max_len - overhead).toNat - file_len)

/-- When the limit leaves room for eight blocks, a step splits no block at less than one. -/
theorem splitsWhole_of_large {file : List UInt8} {src : SparseFile} {max_len : UInt32}
    (hbs : src.block_size ≠ 0) (h4 : 4 ≤ src.block_size.toNat)
    (hw : ∀ c ∈ src.blocks, Writable file src.block_size c)
    (hlen : ∀ c ∈ src.blocks, c.len.toNat < 2 ^ 31)
    (hmax : 8 * src.block_size.toNat ≤ (max_len - overhead).toNat) :
    SplitsWhole (Env.ofFile file) src max_len := by
  intro last_bb bb file_len hscan hsplit
  obtain ⟨h12, hfirst⟩ := scanBlocks_size hw hlen hbs rfl rfl (Int.le_refl 0) hscan
  have hlt := (max_len - overhead).toNat_lt
  have hsize : file_len + src.block_size.toNat ≤ (max_len - overhead).toNat := by
    simp only [splits, Bool.or_eq_true, Option.isNone_iff_eq_none, decide_eq_true_eq,
      UInt32.toNat_div] at hsplit
    rcases hsplit with hn | hlt
    · rw [(hfirst hn).2]
      omega
    · have h8 : (8 : UInt32).toNat = 8 := rfl
      rw [h8] at hlt
      omega
  rw [UInt32.le_iff_toNat_le, toU32, UInt32.toNat_ofNat']
  omega

/-- A counting file opens without an error, in the sparse format. -/
theorem outputFileInit_counter {bs : UInt32} (hbs : bs ≠ 0) (hlt : bs.toNat < 2 ^ 31) (len : ℤ) :
    outputFileInit counter_ops 0 bs len true 0 false = .ok (0, counterFile bs len) := by
  unfold outputFileInit
  extract_lets out sparse_header
  rw [if_neg (Nat.not_le.mpr hlt), if_pos rfl, if_neg hbs, counter_write]
  split
  next ret out' h1 =>
    obtain ⟨rfl, rfl⟩ := Prod.mk.inj h1
    rw [if_neg (by decide)]
    rfl

end AmlogicToolkit.Simg
