import AmlogicToolkit.Simg.Chains
import AmlogicToolkit.Simg.Import
import Mathlib.Algebra.BigOperators.Ring.List

/-!
# The block map of an import

The raw and fill chunks of a file at their exact positions (`fileChunks`), and how far the block
list of an import describes them. Three things are 32 bits wide: the block counter, the length that
is passed for a chunk, and the length of a node into which fill chunks of one word are merged. The
list is right exactly when none of them wraps: all chunks end inside the image, and no run of
abutting fill chunks of one word is `2^32` bytes long (`faithfulMap_iff`).
-/

namespace AmlogicToolkit.Simg

open Bytes Extents

/-! ## Chunks at their exact positions -/

section

variable (file : List UInt8) (hdr : SparseHeader) (fd : ℕ)

/-- The raw and fill chunks of a list of records from a block on, as extents of blocks. -/
def chunks : List Record → ℕ → List (Extent BlockSource)
  | [], _ => []
  | r :: rs, block =>
    ((r.source? file hdr fd).map fun source => ⟨block, r.header.chunk_sz.toNat, source⟩).toList ++
      chunks rs (block + r.header.blocks.toNat)

end

/-- The raw and fill chunks of a file. -/
def fileChunks (fd : ℕ) (file : List UInt8) : List (Extent BlockSource) :=
  chunks file (fileHeader file) fd (fileRecords file) 0

/-- The call that adds an extent of blocks: its length in bytes and its block wrap. -/
def toCall (bs : UInt32) (e : Extent BlockSource) : Call :=
  ⟨e.src, UInt32.ofNat (e.len * bs.toNat), UInt32.ofNat e.start⟩

section

variable {file : List UInt8} {hdr : SparseHeader} {fd : ℕ}

/-- A record that has a source is as many blocks long as its header says. -/
theorem Record.blocks_of_source {r : Record} {source : BlockSource}
    (h : r.source? file hdr fd = some source) : r.header.blocks = r.header.chunk_sz := by
  unfold Record.source? at h
  unfold ChunkHeader.blocks
  cases hk : r.header.kind <;> simp only [hk, reduceCtorEq] at h ⊢

/-- The chunk of a record at a block is a raw or a fill chunk. -/
theorem Record.mem_source {r : Record} {b : ℕ} {e : Extent BlockSource} :
    e ∈ ((r.source? file hdr fd).map fun source =>
        (⟨b, r.header.chunk_sz.toNat, source⟩ : Extent BlockSource)).toList ↔
      (r.header.kind = .raw ∧ e = ⟨b, r.header.chunk_sz.toNat, .fd fd (r.payload hdr)⟩) ∨
        (r.header.kind = .fill ∧ e = ⟨b, r.header.chunk_sz.toNat, .fill (r.word file hdr)⟩) := by
  unfold Record.source?
  cases hk : r.header.kind <;> simp

/-- What a record and the ones behind it describe: a raw or filled region at the block, or one of
the others behind its blocks. -/
theorem mem_chunks_cons {r : Record} {rs : List Record} {b : ℕ} {e : Extent BlockSource} :
    e ∈ chunks file hdr fd (r :: rs) b ↔
      (r.header.kind = .raw ∧ e = ⟨b, r.header.chunk_sz.toNat, .fd fd (r.payload hdr)⟩) ∨
        (r.header.kind = .fill ∧ e = ⟨b, r.header.chunk_sz.toNat, .fill (r.word file hdr)⟩) ∨
          e ∈ chunks file hdr fd rs (b + r.header.blocks.toNat) := by
  rw [chunks, List.mem_append, Record.mem_source, or_assoc]

/-- The calls of an import are those of its chunks. -/
theorem calls_eq (rs : List Record) (b : ℕ) :
    calls file hdr fd rs (UInt32.ofNat b) =
      (chunks file hdr fd rs b).map (toCall hdr.blk_sz) := by
  induction rs generalizing b with
  | nil => rfl
  | cons r rs ih =>
    have hnext : UInt32.ofNat b + r.header.blocks = UInt32.ofNat (b + r.header.blocks.toNat) := by
      rw [UInt32.ofNat_add, UInt32.ofNat_toNat]
    simp only [calls, chunks, List.map_append, hnext, ih, Record.call?]
    cases r.source? file hdr fd with
    | none => rfl
    | some source => simp [toCall]

/-- The chunks lie between the first block and the last. -/
theorem chunks_bounds (rs : List Record) (b : ℕ) :
    ∀ e ∈ chunks file hdr fd rs b, b ≤ e.start ∧ e.stop ≤ b + totalBlocks rs := by
  induction rs generalizing b with
  | nil => exact fun _ h => nomatch h
  | cons r rs ih =>
    have hsum : totalBlocks (r :: rs) = r.header.blocks.toNat + totalBlocks rs := rfl
    intro e he
    rcases List.mem_append.mp he with he | he
    · cases hs : r.source? file hdr fd with
      | none => rw [hs] at he; cases he
      | some source =>
        have hblk := Record.blocks_of_source hs
        rw [hs, Option.map_some, Option.toList_some, List.mem_singleton] at he
        subst he
        simp only [Extent.stop, hsum, hblk]
        omega
    · have := ih _ e he
      omega

/-- The chunks come one after the other. -/
theorem chunks_before (rs : List Record) (b : ℕ) : (chunks file hdr fd rs b).Pairwise Before := by
  induction rs generalizing b with
  | nil => exact List.Pairwise.nil
  | cons r rs ih =>
    refine List.pairwise_append.mpr ⟨?_, ih _, fun e he f hf => ?_⟩
    · cases r.source? file hdr fd <;> simp
    · cases hs : r.source? file hdr fd with
      | none => rw [hs] at he; cases he
      | some source =>
        have hblk := Record.blocks_of_source hs
        rw [hs, Option.map_some, Option.toList_some, List.mem_singleton] at he
        subst he
        have := (chunks_bounds rs _ f hf).1
        rw [hblk] at this
        exact this

/-- A chunk is read from behind the header of its record. -/
theorem chunks_offset {n pos b : ℕ} {e : Extent BlockSource} {g : ℕ} {o : ℤ}
    (he : e ∈ chunks file hdr fd (records file hdr n pos) b) (hsrc : e.src = .fd g o) :
    (pos : ℤ) + hdr.chunk_hdr_sz.toNat ≤ o := by
  induction n generalizing pos b with
  | zero => cases he
  | succ n ih =>
    rcases mem_chunks_cons.mp he with ⟨-, rfl⟩ | ⟨-, rfl⟩ | he
    · cases hsrc
      simp [Record.payload, recordAt]
    · cases hsrc
    · have hstop : pos ≤ (recordAt file pos).stop hdr := by
        simp only [Record.stop, Record.payload, recordAt]; omega
      have := ih he
      omega

/-- The payloads of two raw chunks never abut: a chunk header lies between them. -/
theorem chunks_gap (hsz : CHUNK_HEADER_LEN ≤ hdr.chunk_hdr_sz.toNat) (n pos b : ℕ) :
    (chunks file hdr fd (records file hdr n pos) b).Pairwise fun e f =>
      ∀ (g : ℕ) (o : ℤ) (g' : ℕ) (o' : ℤ), e.src = .fd g o → f.src = .fd g' o' →
        o + (e.len * hdr.blk_sz.toNat : ℕ) < o' := by
  induction n generalizing pos b with
  | zero => exact List.Pairwise.nil
  | succ n ih =>
    refine List.pairwise_append.mpr ⟨?_, ih _ _, fun e he f hf g o g' o' h1 h2 => ?_⟩
    · cases (recordAt file pos).source? file hdr fd <;> simp
    · have hf' := chunks_offset hf h2
      rcases Record.mem_source.mp he with ⟨hk, rfl⟩ | ⟨-, rfl⟩
      · cases h1
        have hstop : (recordAt file pos).stop hdr = (recordAt file pos).payload hdr +
            (recordAt file pos).header.chunk_sz.toNat * hdr.blk_sz.toNat := by
          simp only [Record.stop, ChunkHeader.payloadSize, hk]
        rw [hstop] at hf'
        simp only [CHUNK_HEADER_LEN] at hsz
        change ((recordAt file pos).payload hdr : ℤ) +
          ((recordAt file pos).header.chunk_sz.toNat * hdr.blk_sz.toNat : ℕ) < o'
        omega
      · cases h1

/-- A chunk is read from the file or filled. -/
theorem chunks_source (rs : List Record) (b : ℕ) : ∀ e ∈ chunks file hdr fd rs b,
    (∃ o, e.src = .fd fd o) ∨ ∃ w, e.src = .fill w := by
  induction rs generalizing b with
  | nil => exact fun _ h => nomatch h
  | cons r rs ih =>
    intro e he
    rcases mem_chunks_cons.mp he with ⟨-, rfl⟩ | ⟨-, rfl⟩ | he
    · exact Or.inl ⟨_, rfl⟩
    · exact Or.inr ⟨_, rfl⟩
    · exact ih _ e he

end

/-! ## Runs of fill chunks -/

/-- No run of abutting fill chunks of one word is `2^32` bytes long. -/
def NoFillRun (bs : UInt32) (cs : List (Extent BlockSource)) : Prop :=
  ∀ (w : UInt32) (run : List (Extent BlockSource)), (∀ e ∈ run, e ∈ cs ∧ e.src = .fill w) →
    run.IsChain (fun e f => e.stop = f.start) → (run.map Extent.len).sum * bs.toNat < 2 ^ 32

/-- Chunks in order, none of them empty, whose raw payloads do not abut. -/
structure Ordered (bs : UInt32) (cs : List (Extent BlockSource)) : Prop where
  /-- They come one after the other. -/
  before : cs.Pairwise Before
  /-- None is empty. -/
  nonempty : ∀ e ∈ cs, 0 < e.len
  /-- They are raw or fill chunks. -/
  source : ∀ e ∈ cs, (∃ g o, e.src = .fd g o) ∨ ∃ w, e.src = .fill w
  /-- No raw payload goes on where one before it stops. -/
  gap : cs.Pairwise fun e f =>
    ∀ (g : ℕ) (o : ℤ) (g' : ℕ) (o' : ℤ), e.src = .fd g o → f.src = .fd g' o' →
      o + (e.len * bs.toNat : ℕ) < o'

/-- The chunks whose positions and lengths are passed exactly. -/
def Exact (bs : UInt32) (cs : List (Extent BlockSource)) : Prop :=
  ∀ e ∈ cs, e.start < 2 ^ 32 ∧ e.len * bs.toNat < 2 ^ 32

/-- A call that is passed exactly has the region of its chunk. -/
theorem toCall_extent {bs : UInt32} {e : Extent BlockSource} (h1 : e.start < 2 ^ 32)
    (h2 : e.len * bs.toNat < 2 ^ 32) : (toCall bs e).extent bs = e.scale bs.toNat := by
  simp only [Call.extent, toCall, Extent.scale, UInt32.toNat_ofNat', Nat.mod_eq_of_lt h1,
    Nat.mod_eq_of_lt h2]

/-- Two elements of a list come in one order or the other. -/
theorem pair_sublist_or {α : Type*} {l : List α} {a b : α} (ha : a ∈ l) (hb : b ∈ l)
    (hne : a ≠ b) : [a, b].Sublist l ∨ [b, a].Sublist l := by
  induction l with
  | nil => cases ha
  | cons c l ih =>
    rcases List.mem_cons.mp ha with rfl | ha'
    · rcases List.mem_cons.mp hb with rfl | hb'
      · exact absurd rfl hne
      · exact Or.inl ((List.singleton_sublist.mpr hb').cons_cons a)
    · rcases List.mem_cons.mp hb with rfl | hb'
      · exact Or.inr ((List.singleton_sublist.mpr ha').cons_cons b)
      · exact (ih ha' hb').imp (fun h => h.cons c) fun h => h.cons c

section

variable {bs : UInt32} {cs : List (Extent BlockSource)}

/-- Of two chunks that abut, the second comes later. -/
theorem Ordered.sublist (h : Ordered bs cs) {e f : Extent BlockSource} (he : e ∈ cs) (hf : f ∈ cs)
    (hef : e.stop = f.start) : [e, f].Sublist cs := by
  have hepos := h.nonempty e he
  have hfpos := h.nonempty f hf
  have hne : e ≠ f := by
    rintro rfl
    simp only [Extent.stop] at hef
    omega
  refine (pair_sublist_or he hf hne).resolve_right fun hfe => ?_
  have hb : Before f e := h.before.forall_sublist hfe
  simp only [Before, Extent.stop] at hb hef
  omega

/-- The lengths that are passed for exact chunks add up to theirs. -/
theorem requestedLen_toCall {run : List (Extent BlockSource)}
    (h : ∀ e ∈ run, e.len * bs.toNat < 2 ^ 32) :
    requestedLen (run.map (toCall bs)) = (run.map Extent.len).sum * bs.toNat := by
  induction run with
  | nil => simp [requestedLen]
  | cons e run ih =>
    have he := h e List.mem_cons_self
    have ih := ih fun f hf => h f (List.mem_cons_of_mem _ hf)
    simp only [requestedLen, List.map_cons, List.sum_cons, Nat.add_mul] at ih ⊢
    rw [ih, toCall, UInt32.toNat_ofNat', Nat.mod_eq_of_lt he]

/-- A fill chunk that abuts one of its word is joined to it. -/
theorem Ordered.joined (h : Ordered bs cs) (hx : Exact bs cs) {e f : Extent BlockSource}
    {w : UInt32} (he : e ∈ cs) (hf : f ∈ cs) (hew : e.src = .fill w) (hfw : f.src = .fill w)
    (hef : e.stop = f.start) :
    Joined bs (cs.map (toCall bs)) (toCall bs e) (toCall bs f) := by
  obtain ⟨he1, he2⟩ := hx e he
  obtain ⟨hf1, hf2⟩ := hx f hf
  refine ⟨⟨?_, ?_, fun k => ?_⟩, Or.inl ?_⟩
  · simp [toCall, hew, BlockSource.type]
  · rw [toCall_extent he1 he2, toCall_extent hf1 hf2, Extent.scale_stop, hef]
    rfl
  · simp [Call.extent, toCall, hew, hfw, BlockSource.label]
  · exact (h.sublist he hf hef).map (toCall bs)

/-- Of two joined calls, the second goes on with the fill word of the first. -/
theorem Ordered.fill_of_joined (hb : bs ≠ 0) (h : Ordered bs cs) (hx : Exact bs cs)
    {e : Extent BlockSource} {Y : Call} (he : e ∈ cs)
    (hj : Joined bs (cs.map (toCall bs)) (toCall bs e) Y) :
    ∃ w, e.src = .fill w ∧ ∃ f ∈ cs, Y = toCall bs f ∧ f.src = .fill w ∧ e.stop = f.start := by
  obtain ⟨f, hf, rfl⟩ := List.mem_map.mp hj.mem.2
  obtain ⟨he1, he2⟩ := hx e he
  obtain ⟨hf1, hf2⟩ := hx f hf
  have hpos : 0 < bs.toNat := toNat_pos_of_ne_zero hb
  have hstop := hj.1.continues.stop_eq
  have hlab := hj.1.continues.label_eq 0
  rw [toCall_extent he1 he2, toCall_extent hf1 hf2] at hstop hlab
  rw [Extent.scale_stop] at hstop
  -- The second chunk starts at the end of the first.
  have hef : e.stop = f.start := Nat.eq_of_mul_eq_mul_right hpos hstop
  simp only [Extent.scale, Nat.add_zero] at hlab
  rcases h.source e he with ⟨g, o, heo⟩ | ⟨w, hew⟩
  · rcases h.source f hf with ⟨g', o', hfo⟩ | ⟨w', hfw⟩
    · -- Raw payloads never abut.
      have hgap := h.gap.forall_sublist (h.sublist he hf hef) g o g' o' heo hfo
      simp only [heo, hfo, BlockSource.label, Label.fd.injEq] at hlab
      omega
    · simp [heo, hfw, BlockSource.label] at hlab
  · -- A fill is continued by a fill of the same word only.
    rcases h.source f hf with ⟨g', o', hfo⟩ | ⟨w', hfw⟩
    · simp [hew, hfo, BlockSource.label] at hlab
    · simp only [hew, hfw, BlockSource.label, Label.fill.injEq] at hlab
      exact ⟨w, hew, f, hf, rfl, by rw [hfw, hlab], hef⟩

/-- A chain of joined calls of two or more is a run of fill chunks. -/
theorem Ordered.run_of_chain (hb : bs ≠ 0) (h : Ordered bs cs) (hx : Exact bs cs)
    {chain : List Call} {e : Extent BlockSource} {w : UInt32} (he : e ∈ cs) (hew : e.src = .fill w)
    (hc : (toCall bs e :: chain).IsChain (Joined bs (cs.map (toCall bs)))) :
    ∃ run, (e :: run).map (toCall bs) = toCall bs e :: chain ∧
      (∀ f ∈ e :: run, f ∈ cs ∧ f.src = .fill w) ∧
        (e :: run).IsChain fun e f => e.stop = f.start := by
  induction chain generalizing e with
  | nil =>
    refine ⟨[], rfl, fun f hf => ?_, List.isChain_singleton _⟩
    rw [List.mem_singleton.mp hf]
    exact ⟨he, hew⟩
  | cons Y chain ih =>
    obtain ⟨hj, hc⟩ := List.isChain_cons_cons.mp hc
    obtain ⟨w', hew', f, hf, rfl, hfw, hef⟩ := h.fill_of_joined hb hx he hj
    rw [hew] at hew'
    cases hew'
    obtain ⟨run, h1, h2, h3⟩ := ih hf hfw hc
    refine ⟨f :: run, by rw [List.map_cons, h1], fun g hg => ?_,
      List.isChain_cons_cons.mpr ⟨hef, h3⟩⟩
    rcases List.mem_cons.mp hg with rfl | hg
    · exact ⟨he, hew⟩
    · exact h2 g hg

/-- **Runs are chains.** For chunks that are passed exactly, no chain of joined calls is `2^32` bytes
long exactly when no run of fill chunks is. -/
theorem Ordered.noLongChain_iff (hb : bs ≠ 0) (h : Ordered bs cs) (hx : Exact bs cs) :
    NoLongChain bs (cs.map (toCall bs)) ↔ NoFillRun bs cs := by
  constructor
  · intro hno w run hmem hrun
    rw [← requestedLen_toCall fun e he => (hx e (hmem e he).1).2]
    refine hno _ ((List.isChain_map (toCall bs)).mpr (hrun.imp_of_mem_imp fun e f he hf hef => ?_))
    exact h.joined hx (hmem e he).1 (hmem f hf).1 (hmem e he).2 (hmem f hf).2 hef
  · intro hno chain hc
    match chain, hc with
    | [], _ => simp [requestedLen]
    | [X], _ => simpa [requestedLen] using X.len.toNat_lt
    | X :: Y :: chain, hc =>
      have hj := (List.isChain_cons_cons.mp hc).1
      obtain ⟨e, he, rfl⟩ := List.mem_map.mp hj.mem.1
      obtain ⟨w, hew, -⟩ := h.fill_of_joined hb hx he hj
      obtain ⟨run, h1, h2, h3⟩ := h.run_of_chain hb hx he hew hc
      rw [← h1, requestedLen_toCall fun f hf => (hx f (h2 f hf).1).2]
      exact hno w _ h2 h3

/-- Exact chunks are calls that `sparse.h` allows. -/
theorem Ordered.allowed (hb : bs ≠ 0) (h : Ordered bs cs) (hx : Exact bs cs) :
    Allowed bs (cs.map (toCall bs)) := by
  have hpos : 0 < bs.toNat := toNat_pos_of_ne_zero hb
  refine ⟨fun c hc => ?_, ?_⟩
  · obtain ⟨e, he, rfl⟩ := List.mem_map.mp hc
    intro h0
    have h1 := congrArg UInt32.toNat h0
    simp only [toCall, UInt32.toNat_ofNat', Nat.mod_eq_of_lt (hx e he).2, UInt32.toNat_zero] at h1
    have := Nat.mul_pos (h.nonempty e he) hpos
    omega
  · rw [List.map_map, List.pairwise_map]
    refine h.before.imp_of_mem fun {e f} he hf hef => ?_
    simp only [Function.comp_apply, toCall_extent (hx e he).1 (hx e he).2,
      toCall_extent (hx f hf).1 (hx f hf).2]
    exact (hef.scale _).apart

end

/-! ## The block map -/

/-- The regions of a block list in blocks: `[block, block + len / block_size)`. -/
def SparseFile.regions (s : SparseFile) : List (Extent BlockSource) :=
  s.blocks.map fun bb => ⟨bb.block.toNat, bb.len.toNat / s.block_size.toNat, bb.source⟩

/-- What is asked of the block list of an import, for the chunks `cs` of an image of `total_blks`
blocks. -/
structure FaithfulMap (s : SparseFile) (cs : List (Extent BlockSource)) (total_blks : ℕ) :
    Prop where
  /-- The list is strictly increasing in block number. -/
  sorted : Sorted s.blocks
  /-- No two regions share a block. -/
  disjoint : s.regions.Pairwise Apart
  /-- All regions lie inside the image. -/
  inside : ∀ e ∈ s.regions, e.stop ≤ total_blks
  /-- The regions cover the blocks of the chunks, no more and no fewer. -/
  covers : cells s.regions = cells cs
  /-- Every byte of a fill chunk is described as one. -/
  fills : ∀ e ∈ cs, ∀ w, e.src = .fill w → ∀ p, (e.scale s.block_size.toNat).start ≤ p →
    p < (e.scale s.block_size.toNat).stop → Describes s.block_size s.blocks p (.fill w)

/-- Sums of which no term is greater are equal only when all terms are. -/
theorem eq_of_sum_eq {α : Type*} {l : List α} {f g : α → ℕ} (hle : ∀ a ∈ l, f a ≤ g a)
    (h : (l.map g).sum ≤ (l.map f).sum) : ∀ a ∈ l, f a = g a := by
  have hsum : ∀ l : List α, (∀ a ∈ l, f a ≤ g a) → (l.map f).sum ≤ (l.map g).sum := by
    intro l
    induction l with
    | nil => exact fun _ => Nat.le_refl _
    | cons a l ih =>
      intro hle
      exact Nat.add_le_add (hle a List.mem_cons_self) (ih fun b hb => hle b (List.mem_cons_of_mem _ hb))
  induction l with
  | nil => exact fun _ ha => nomatch ha
  | cons a l ih =>
    have h1 := hle a List.mem_cons_self
    have h2 := hsum l fun b hb => hle b (List.mem_cons_of_mem _ hb)
    simp only [List.map_cons, List.sum_cons] at h
    intro b hb
    rcases List.mem_cons.mp hb with rfl | hb
    · omega
    · exact ih (fun c hc => hle c (List.mem_cons_of_mem _ hc)) (by omega) b hb

section

variable {bs : UInt32} {cs : List (Extent BlockSource)} {s : SparseFile}

/-- The calls of chunks in order come in increasing order, also when their lengths wrap. -/
theorem Ordered.increasing (h : Ordered bs cs) (hstart : ∀ e ∈ cs, e.start < 2 ^ 32) :
    Increasing bs (cs.map (toCall bs)) := by
  refine List.pairwise_map.mpr (h.before.imp_of_mem fun {e f} he hf hef => ?_)
  have h1 := hstart e he
  have h2 := hstart f hf
  have hpos := h.nonempty e he
  have hlt : e.start < f.start := by
    simp only [Before, Extent.stop] at hef; omega
  constructor
  · rw [UInt32.lt_iff_toNat_lt]
    simp only [toCall, UInt32.toNat_ofNat', Nat.mod_eq_of_lt h1, Nat.mod_eq_of_lt h2]
    exact hlt
  · have hle : e.len * bs.toNat % 2 ^ 32 ≤ e.len * bs.toNat := Nat.mod_le _ _
    have hmul : (e.start + e.len) * bs.toNat ≤ f.start * bs.toNat := Nat.mul_le_mul_right _ hef
    rw [Nat.add_mul] at hmul
    simp only [Before, Call.extent_stop, Call.extent_start]
    simp only [toCall, UInt32.toNat_ofNat', Nat.mod_eq_of_lt h1, Nat.mod_eq_of_lt h2]
    omega

/-- The sum of the lengths in blocks of the nodes is at most the sum in bytes. -/
theorem regions_total_le (s : SparseFile) :
    total s.regions * s.block_size.toNat ≤ totalLen s.blocks := by
  unfold SparseFile.regions total totalLen
  induction s.blocks with
  | nil => simp
  | cons bb l ih =>
    simp only [List.map_cons, List.sum_cons, Nat.add_mul] at ih ⊢
    exact Nat.add_le_add (Nat.div_mul_le_self _ _) ih

/-- The chunks of a faithful map end inside the image. -/
theorem FaithfulMap.ends (h : Ordered bs cs) {n : ℕ} (hm : FaithfulMap s cs n) :
    ∀ e ∈ cs, e.stop ≤ n := by
  intro e he
  have hepos := h.nonempty e he
  have hmem : e.stop - 1 ∈ cells s.regions := by
    rw [hm.covers, mem_cells]
    exact ⟨e, he, by simp only [Extent.stop]; omega, by simp only [Extent.stop]; omega⟩
  obtain ⟨f, hf, -, h2⟩ := mem_cells.mp hmem
  have := hm.inside f hf
  omega

/-- Chunks that end inside an image of 32-bit size start there. -/
theorem starts_lt (h : Ordered bs cs) {n : ℕ} (hn : n ≤ 2 ^ 32) (hend : ∀ e ∈ cs, e.stop ≤ n) :
    ∀ e ∈ cs, e.start < 2 ^ 32 := by
  intro e he
  have h1 := hend e he
  have h2 := h.nonempty e he
  simp only [Extent.stop] at h1
  omega

/-- **A faithful map has lost nothing**: all lengths were passed exactly, and none was lost in a
merge. -/
theorem FaithfulMap.exact (h : Ordered s.block_size cs) {n : ℕ} (hn : n ≤ 2 ^ 32)
    (hm : FaithfulMap s cs n) (hbs : s.block_size ≠ 0)
    (hs : Holds s (cs.map (toCall s.block_size))) :
    Exact s.block_size cs ∧ Faithful s (cs.map (toCall s.block_size)) := by
  have hend := hm.ends h
  have hstart := starts_lt h hn hend
  have hapart : cs.Pairwise Apart := h.before.imp Before.apart
  -- As many blocks as the chunks have are described, and not with more bytes than are passed.
  have hcount : total cs = total s.regions := by
    rw [← card_cells hapart, ← card_cells hm.disjoint, hm.covers]
  have hmul := regions_total_le s
  rw [← hcount] at hmul
  have hle := hs.total_le
  have htot : total cs * s.block_size.toNat =
      (cs.map fun e => e.len * s.block_size.toNat).sum := by
    rw [total, ← List.sum_map_mul_right]
  have hreq : requestedLen (cs.map (toCall s.block_size)) =
      (cs.map fun e => e.len * s.block_size.toNat % 2 ^ 32).sum := by
    simp [requestedLen, toCall, Function.comp_def]
  have hterm := eq_of_sum_eq (l := cs) (f := fun e => e.len * s.block_size.toNat % 2 ^ 32)
    (g := fun e => e.len * s.block_size.toNat) (fun e _ => Nat.mod_le _ _) (by omega)
  have hx : Exact s.block_size cs := by
    intro e he
    have := hterm e he
    have hlt : e.len * s.block_size.toNat % 2 ^ 32 < 2 ^ 32 := Nat.mod_lt _ (by decide)
    exact ⟨hstart e he, by omega⟩
  refine ⟨hx, (hs.faithful_iff (h.allowed hbs hx).apart).mpr ?_⟩
  have hsum : (cs.map fun e => e.len * s.block_size.toNat % 2 ^ 32) =
      cs.map fun e => e.len * s.block_size.toNat := List.map_congr_left hterm
  rw [hsum] at hreq
  omega

/-- **Where nothing is lost the map is faithful.** -/
theorem faithfulMap_of_faithful {n : ℕ} (hend : ∀ e ∈ cs, e.stop ≤ n) (hbs : s.block_size ≠ 0)
    (hx : Exact s.block_size cs)
    (hs : Holds s (cs.map (toCall s.block_size)))
    (hbefore : ∀ d, (∀ c ∈ cs.map (toCall s.block_size), Before (c.extent s.block_size) d) →
      ∀ x ∈ s.blocks, Before (x.extent s.block_size) d)
    (hspan : AllSpan s (cs.map (toCall s.block_size)))
    (hf : Faithful s (cs.map (toCall s.block_size))) : FaithfulMap s cs n := by
  have hpos := toNat_pos_of_ne_zero hbs
  -- Every node is a whole number of blocks long.
  have hdvd : ∀ y ∈ s.blocks, y.len.toNat / s.block_size.toNat * s.block_size.toNat =
      y.len.toNat := by
    intro y hy
    obtain ⟨X, chain, hc⟩ := hspan y hy
    refine Nat.div_mul_cancel ?_
    rw [hc.len]
    refine List.dvd_sum fun n hn => ?_
    obtain ⟨c, hcm, rfl⟩ := List.mem_map.mp hn
    obtain ⟨e, he, rfl⟩ := List.mem_map.mp (chain_mem hc.joined hc.mem c hcm)
    rw [toCall, UInt32.toNat_ofNat', Nat.mod_eq_of_lt (hx e he).2]
    exact Nat.dvd_mul_left _ _
  have hreg : s.regions.map (Extent.scale s.block_size.toNat) =
      extents s.block_size s.blocks := by
    unfold SparseFile.regions extents
    rw [List.map_map]
    refine List.map_congr_left fun y hy => ?_
    simp only [Function.comp_apply, Extent.scale, hdvd y hy]
    rfl
  have hcalls : (cs.map (toCall s.block_size)).map (Call.extent s.block_size) =
      cs.map (Extent.scale s.block_size.toNat) := by
    rw [List.map_map]
    exact List.map_congr_left fun e he => toCall_extent (hx e he).1 (hx e he).2
  have hinside : ∀ x ∈ s.blocks, Before (x.extent s.block_size)
      ⟨n * s.block_size.toNat, 0, .fill 0⟩ := by
    refine hbefore _ fun c hc => ?_
    obtain ⟨e, he, rfl⟩ := List.mem_map.mp hc
    rw [toCall_extent (hx e he).1 (hx e he).2, Before, Extent.scale_stop]
    exact Nat.mul_le_mul_right _ (hend e he)
  refine ⟨hs.valid.list.sorted, ?_, fun e he => ?_, ?_, fun e he w hw p h1 h2 => ?_⟩
  · refine List.pairwise_map.mpr (hs.valid.disjoint.imp_of_mem fun {x y} hx hy hxy => Or.inl ?_)
    have hd := hdvd x hx
    simp only [Before, BackedBlock.extent_stop, BackedBlock.extent_start] at hxy
    rw [← hd, ← Nat.add_mul] at hxy
    exact Nat.le_of_mul_le_mul_right hxy hpos
  · obtain ⟨y, hy, rfl⟩ := List.mem_map.mp he
    have hd := hdvd y hy
    have hb := hinside y hy
    simp only [Before, BackedBlock.extent_stop] at hb
    rw [← hd, ← Nat.add_mul] at hb
    exact Nat.le_of_mul_le_mul_right hb hpos
  · ext p
    rw [← mem_cells_scale hpos, hreg, ← @mem_cells_scale _ cs _ hpos, ← hcalls,
      cells_congr BlockSource.label hf]
  · refine (hf p _).mpr ?_
    rw [Requested, hcalls]
    exact ⟨_, List.mem_map_of_mem he, h1, h2, by simp [Extent.scale, hw, BlockSource.label]⟩

end

section

variable {file : List UInt8} {hdr : SparseHeader} {fd : ℕ}

/-- The length in bytes of a raw chunk that is accepted is below `2^32`. -/
theorem chunks_raw_len {rs : List Record} (hbs : hdr.blk_sz ≠ 0)
    (ht : ∀ r ∈ rs, r.taken file hdr) (b : ℕ) : ∀ e ∈ chunks file hdr fd rs b,
    ∀ g o, e.src = .fd g o → e.len * hdr.blk_sz.toNat < 2 ^ 32 := by
  induction rs generalizing b with
  | nil => exact fun _ h => nomatch h
  | cons r rs ih =>
    intro e he g o hsrc
    rcases mem_chunks_cons.mp he with ⟨hk, rfl⟩ | ⟨-, rfl⟩ | he
    · have hsize := Record.taken_size (ht r List.mem_cons_self) (by simp [hk]) fun _ => hbs
      have hlt := (r.dataSize hdr).toNat_lt
      simp only [ChunkHeader.payloadSize, hk] at hsize
      change r.header.chunk_sz.toNat * hdr.blk_sz.toNat < 2 ^ 32
      omega
    · cases hsrc
    · exact ih (fun r hr => ht r (List.mem_cons_of_mem _ hr)) _ e he g o hsrc

/-- Where no raw or fill chunk has no block, no chunk is empty. -/
theorem chunks_nonempty {rs : List Record}
    (hne : ∀ r ∈ rs, r.header.kind = .raw ∨ r.header.kind = .fill → r.header.chunk_sz ≠ 0) (b : ℕ) :
    ∀ e ∈ chunks file hdr fd rs b, 0 < e.len := by
  induction rs generalizing b with
  | nil => exact fun _ h => nomatch h
  | cons r rs ih =>
    intro e he
    have hr := hne r List.mem_cons_self
    rcases mem_chunks_cons.mp he with ⟨hk, rfl⟩ | ⟨hk, rfl⟩ | he
    · exact toNat_pos_of_ne_zero (hr (Or.inl hk))
    · exact toNat_pos_of_ne_zero (hr (Or.inr hk))
    · exact ih (fun r hr => hne r (List.mem_cons_of_mem _ hr)) _ e he

end

/-- The chunks of a file with a right header are in order. -/
theorem fileChunks_ordered {fd : ℕ} {file : List UInt8} (hh : HeaderOk file)
    (hne : ∀ r ∈ fileRecords file,
      r.header.kind = .raw ∨ r.header.kind = .fill → r.header.chunk_sz ≠ 0) :
    Ordered (fileHeader file).blk_sz (fileChunks fd file) :=
  ⟨chunks_before _ _, chunks_nonempty hne _,
    fun e he => (chunks_source _ _ e he).imp (fun ⟨o, ho⟩ => ⟨fd, o, ho⟩) id,
    chunks_gap hh.chunk_hdr_sz _ _ _⟩

/-- An import that comes to the end makes the calls of the chunks. -/
theorem importedFile_eq {fd : ℕ} {file : List UInt8} (hbs : (fileHeader file).blk_sz ≠ 0)
    (hfin : finishes file) : importedFile fd file = addAll (emptyFile (fileHeader file))
      ((fileChunks fd file).map (toCall (fileHeader file).blk_sz)) := by
  simp only [finishes, Bool.and_eq_true] at hfin
  rw [importedFile, reached_eq hfin.1, addRecords_eq_addAll _ _ _ _ fun _ _ _ => hbs]
  exact congrArg _ (calls_eq (fileRecords file) 0)

/-- **When the block map of an import is faithful.** For a file that is imported, with or without a
checksum, whose block size is not zero and whose raw and fill chunks are not empty: exactly when all
these chunks end inside the image and no run of abutting fill chunks of one word is `2^32` bytes
long. -/
theorem faithfulMap_iff {fd : ℕ} {file : List UInt8} {crc : Bool} {s : SparseFile}
    (h : sparseFileImport fd file crc = .ok (some s)) (hbs : (fileHeader file).blk_sz ≠ 0)
    (hne : ∀ r ∈ fileRecords file,
      r.header.kind = .raw ∨ r.header.kind = .fill → r.header.chunk_sz ≠ 0) :
    FaithfulMap s (fileChunks fd file) (fileHeader file).total_blks.toNat ↔
      (∀ e ∈ fileChunks fd file, e.stop ≤ (fileHeader file).total_blks.toNat) ∧
        NoFillRun (fileHeader file).blk_sz (fileChunks fd file) := by
  obtain ⟨hh, himp, hfin, -⟩ := sparseFileImport_some h
  obtain ⟨hacc, -, -⟩ := accepted_records himp hfin
  have hord := @fileChunks_ordered fd _ hh hne
  have hn : (fileHeader file).total_blks.toNat ≤ 2 ^ 32 :=
    Nat.le_of_lt (fileHeader file).total_blks.toNat_lt
  rw [importedFile_eq hbs hfin] at himp
  constructor
  · intro hm
    -- What describes the chunks has their ends, and so no length wraps.
    have hend := hm.ends hord
    obtain ⟨s', heq, hs, hsize, -, -⟩ := addAll_increasing hbs (fileHeader file).imageLen
      (hord.increasing (starts_lt hord hn hend))
    rw [emptyFile, heq] at himp
    cases himp
    rw [← hsize] at hbs hord hs ⊢
    obtain ⟨hx, hf⟩ := hm.exact hord hn hbs hs
    refine ⟨hend, (hord.noLongChain_iff hbs hx).mp ?_⟩
    exact (addAll_faithful_iff hbs _ (hord.allowed hbs hx)).mp ⟨s, by rw [hsize]; exact heq, hf⟩
  · rintro ⟨hend, hrun⟩
    have hstart := starts_lt hord hn hend
    -- The bytes of a raw chunk are in the file, and a fill chunk alone is a run of fills.
    have hx : Exact (fileHeader file).blk_sz (fileChunks fd file) := by
      intro e he
      refine ⟨hstart e he, ?_⟩
      rcases hord.source e he with ⟨g, o, hsrc⟩ | ⟨w, hsrc⟩
      · refine chunks_raw_len hbs (fun r hr => ?_) _ e he g o hsrc
        have := hacc r hr
        simp only [Record.accepted, Bool.and_eq_true] at this
        exact this.1
      · have := hrun w [e] (fun f hf => by rw [List.mem_singleton.mp hf]; exact ⟨he, hsrc⟩)
          (List.isChain_singleton _)
        simpa using this
    have hallow := hord.allowed hbs hx
    have hno := (hord.noLongChain_iff hbs hx).mpr hrun
    obtain ⟨s', heq, hs, hsize, -, hspan⟩ :=
      addAll_run hbs (fileHeader file).imageLen hallow
    obtain ⟨s'', heq', -, -, -, hbefore⟩ := addAll_increasing hbs (fileHeader file).imageLen
      (hord.increasing hstart)
    cases heq.symm.trans heq'
    rw [emptyFile, heq] at himp
    cases himp
    obtain ⟨hsp, htot⟩ := hspan hno
    rw [← hsize] at hbs hx hs hbefore hsp hallow htot
    exact faithfulMap_of_faithful hend hbs hx hs hbefore hsp
      ((hs.faithful_iff hallow.apart).mpr htot)

/-- A sparse file with one fill chunk of `n` blocks of 4096 bytes. -/
def fillImage (n : UInt32) : List UInt8 :=
  SparseHeader.encode ⟨SPARSE_HEADER_MAGIC, 1, 0, 28, 12, 4096, n, 1, 0⟩ ++
    (ChunkHeader.encode ⟨CHUNK_TYPE_FILL, 0, n, 16⟩ ++ [1, 2, 3, 4])

/-- The map of an image with one filled block is faithful exactly when that block lies inside and is
in no long run. -/
theorem faithfulMap_one_block :
    FaithfulMap ⟨4096, 4096, ⟨[⟨0, 0, 4096, .fill 0x04030201⟩], none, 4096, 1⟩⟩
        (fileChunks 0 (fillImage 1)) (fileHeader (fillImage 1)).total_blks.toNat ↔
      (∀ e ∈ fileChunks 0 (fillImage 1), e.stop ≤ (fileHeader (fillImage 1)).total_blks.toNat) ∧
        NoFillRun (fileHeader (fillImage 1)).blk_sz (fileChunks 0 (fillImage 1)) :=
  @faithfulMap_iff _ _ false _ (by decide +kernel) (by decide +kernel) (by decide +kernel)

/-- A fill chunk of 4 GiB is imported as a block of no length. -/
theorem fill_of_4GiB_is_lost :
    sparseFileImport 0 (fillImage 0x100000) false =
        .ok (some ⟨4096, 0x100000000, ⟨[⟨0, 0, 0, .fill 0x04030201⟩], none, 4096, 1⟩⟩) ∧
      ¬ FaithfulMap ⟨4096, 0x100000000, ⟨[⟨0, 0, 0, .fill 0x04030201⟩], none, 4096, 1⟩⟩
        (fileChunks 0 (fillImage 0x100000)) 0x100000 := by
  refine ⟨by decide +kernel, fun h => ?_⟩
  have hc : fileChunks 0 (fillImage 0x100000) = [⟨0, 0x100000, .fill 0x04030201⟩] := by
    decide +kernel
  have h0 : 0 ∈ cells (fileChunks 0 (fillImage 0x100000)) := by
    rw [hc]; simp [mem_cells, Extent.stop]
  rw [← h.covers] at h0
  simp [SparseFile.regions, SparseFile.blocks, mem_cells, Extent.stop] at h0

end AmlogicToolkit.Simg
