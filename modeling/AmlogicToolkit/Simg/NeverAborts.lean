import AmlogicToolkit.Simg.ChunkMap
import AmlogicToolkit.Simg.NormalWriter

/-!
# When `simg2img` aborts

An import stops the program in three ways: it divides by a block size of zero, it queues a chunk at
the block of a node that is there (the assertion of `merge_bb`), or it leaves a node that ends
behind the image (the assertion of `write_all_blocks`). Chunks come in order, so that only the last
node of the list matters: the run of fill chunks that the last chunk ended (`EndsIn`). As long as
the block counter does not wrap, the program aborts exactly when a chunk starts at the block where
the run before it starts, which takes a chunk of no blocks, or on a block size of zero
(`neverAborts_iff`).
-/

namespace AmlogicToolkit.Simg

open Bytes Extents

/-! ## Runs -/

section

variable (bs : UInt32)

/-- Whether a chunk goes on with a run: both are fills of one word, the chunk starts where the run
ends, and the run is below `2^32` bytes long. -/
def fillsOn (run e : Extent BlockSource) : Bool :=
  match run.src, e.src with
  | .fill v, .fill w => v == w && run.stop == e.start && decide (run.len * bs.toNat < 2 ^ 32)
  | _, _ => false

/-- The run that a chunk belongs to. -/
def runWith (run e : Extent BlockSource) : Extent BlockSource :=
  if fillsOn bs run e then run.join e else e

/-- Whether no chunk behind a run starts at the block where the run before it starts. -/
def startsApart : Extent BlockSource → List (Extent BlockSource) → Bool
  | _, [] => true
  | run, e :: es => run.start != e.start && startsApart (runWith bs run e) es

/-- Whether no chunk of a list starts at the block where the run before it starts. -/
def noRestart : List (Extent BlockSource) → Bool
  | [] => true
  | e :: es => startsApart bs e es

end

/-- Chunks in order, as a file without a wrapping counter has them; some may be empty. -/
structure InOrder (bs : UInt32) (cs : List (Extent BlockSource)) : Prop where
  /-- They come one after the other. -/
  before : cs.Pairwise Before
  /-- Their blocks fit into 32 bits. -/
  start : ∀ e ∈ cs, e.start < 2 ^ 32
  /-- They are raw or fill chunks. -/
  source : ∀ e ∈ cs, (∃ g o, e.src = .fd g o) ∨ ∃ w, e.src = .fill w
  /-- The length of a raw chunk fits into 32 bits. -/
  raw : ∀ e ∈ cs, ∀ g o, e.src = .fd g o → e.len * bs.toNat < 2 ^ 32
  /-- No raw payload goes on where one before it stops. -/
  gap : cs.Pairwise fun e f =>
    ∀ (g : ℕ) (o : ℤ) (g' : ℕ) (o' : ℤ), e.src = .fd g o → f.src = .fd g' o' →
      o + (e.len * bs.toNat : ℕ) < o'

section

variable {bs : UInt32} {run e : Extent BlockSource} {es : List (Extent BlockSource)}

/-- A chunk goes on with a run when both are fills of one word, it starts at the end of the run, and
the run is below `2^32` bytes. -/
theorem fillsOn_spec (h : fillsOn bs run e) : ∃ w, run.src = .fill w ∧ e.src = .fill w ∧
    run.stop = e.start ∧ run.len * bs.toNat < 2 ^ 32 := by
  unfold fillsOn at h
  cases hr : run.src <;> cases he : e.src <;> simp only [hr, he, Bool.false_eq_true] at h
  simp only [Bool.and_eq_true, beq_iff_eq, decide_eq_true_eq] at h
  obtain ⟨⟨rfl, h2⟩, h3⟩ := h
  exact ⟨_, rfl, rfl, h2, h3⟩

/-- The run of a chunk ends where the chunk does. -/
theorem runWith_stop (bs : UInt32) (run e : Extent BlockSource) :
    (runWith bs run e).stop = e.stop := by
  unfold runWith
  by_cases h : fillsOn bs run e
  · obtain ⟨w, -, -, hstop, -⟩ := fillsOn_spec h
    simp only [Extent.stop] at hstop
    rw [if_pos h]
    simp only [Extent.join, Extent.stop]
    omega
  · rw [if_neg h]

/-- Chunks in order are so without the first. -/
theorem InOrder.tail (h : InOrder bs (e :: es)) : InOrder bs es :=
  ⟨(List.pairwise_cons.mp h.before).2, fun f hf => h.start f (List.mem_cons_of_mem _ hf),
    fun f hf => h.source f (List.mem_cons_of_mem _ hf),
    fun f hf => h.raw f (List.mem_cons_of_mem _ hf), (List.pairwise_cons.mp h.gap).2⟩

/-- A run in place of the two chunks that it joins keeps the order. -/
theorem InOrder.runWith (h : InOrder bs (run :: e :: es)) :
    InOrder bs (runWith bs run e :: es) := by
  have hstop := runWith_stop bs run e
  by_cases hf : fillsOn bs run e
  · obtain ⟨w, hr, -⟩ := fillsOn_spec hf
    have hj : Simg.runWith bs run e = run.join e := by rw [Simg.runWith, if_pos hf]
    rw [hj] at hstop ⊢
    have ht := h.tail.tail
    refine ⟨List.pairwise_cons.mpr ⟨fun f hf => ?_, ht.before⟩, ?_, ?_, ?_,
      List.pairwise_cons.mpr ⟨fun f _ g o g' o' h1 _ => ?_, ht.gap⟩⟩
    · rw [Before, hstop]
      exact (List.pairwise_cons.mp h.tail.before).1 f hf
    · exact List.forall_mem_cons.mpr ⟨h.start run List.mem_cons_self, ht.start⟩
    · exact List.forall_mem_cons.mpr ⟨Or.inr ⟨w, hr⟩, ht.source⟩
    · refine List.forall_mem_cons.mpr ⟨fun g o h1 => ?_, ht.raw⟩
      cases hr.symm.trans h1
    · cases hr.symm.trans h1
  · have hj : Simg.runWith bs run e = e := by rw [Simg.runWith, if_neg hf]
    rw [hj]
    exact h.tail

/-- The call of a chunk merges into the node of a run exactly when the chunk goes on with it. -/
theorem canMerge_run (hbs : bs ≠ 0) (h : InOrder bs (run :: e :: es)) {node : BackedBlock}
    (hblock : node.block.toNat = run.start) (hlen : node.len = UInt32.ofNat (run.len * bs.toNat))
    (hsrc : node.source = run.src) (addr : ℕ) :
    canMerge bs node ⟨addr, (toCall bs e).block, (toCall bs e).len, (toCall bs e).source⟩ =
      fillsOn bs run e := by
  have hpos : 0 < bs.toNat := toNat_pos_of_ne_zero hbs
  have hle : run.stop ≤ e.start := (List.pairwise_cons.mp h.before).1 e List.mem_cons_self
  have he := h.start e (by simp)
  have hlen' : node.len.toNat = run.len * bs.toNat % 2 ^ 32 := by rw [hlen, UInt32.toNat_ofNat']
  -- The block that is reached is below that of the chunk, unless the run abuts and does not wrap.
  have hblk : node.block + node.len / bs = (toCall bs e).block ↔
      run.stop = e.start ∧ run.len * bs.toNat < 2 ^ 32 := by
    have hq : run.len * bs.toNat % 2 ^ 32 / bs.toNat ≤ run.len :=
      Nat.div_le_of_le_mul (by rw [Nat.mul_comm]; exact Nat.mod_le _ _)
    simp only [Extent.stop] at hle ⊢
    rw [← UInt32.toNat_inj, UInt32.toNat_add, UInt32.toNat_div, hlen', hblock, toCall,
      UInt32.toNat_ofNat', Nat.mod_eq_of_lt he, Nat.mod_eq_of_lt (by omega)]
    constructor
    · intro heq
      have hge : run.len ≤ run.len * bs.toNat % 2 ^ 32 / bs.toNat := by omega
      have := (Nat.le_div_iff_mul_le hpos).mp hge
      have hlt := Nat.mod_lt (run.len * bs.toNat) (show 0 < 2 ^ 32 by decide)
      exact ⟨by omega, by omega⟩
    · rintro ⟨h1, h2⟩
      rw [Nat.mod_eq_of_lt h2, Nat.mul_div_cancel _ hpos, h1]
  unfold canMerge fillsOn sourcesMerge
  have hs : (toCall bs e).source = e.src := rfl
  simp only [hsrc, hs]
  rcases h.source run List.mem_cons_self with ⟨g, o, hr⟩ | ⟨v, hr⟩ <;>
    rcases h.source e (by simp) with ⟨g', o', he'⟩ | ⟨w, he'⟩ <;>
    simp only [hr, he', BlockSource.type]
  · -- Raw payloads never abut.
    have hgap := (List.pairwise_cons.mp h.gap).1 e List.mem_cons_self g o g' o' hr he'
    have hne : (o + (node.len.toNat : ℤ) == o') = false := by
      rw [hlen', Nat.mod_eq_of_lt (h.raw run List.mem_cons_self g o hr)]
      exact beq_false_of_ne (Int.ne_of_lt hgap)
    simp [hne]
  · simp
  · simp
  · rw [Bool.eq_iff_iff]
    simp only [BEq.rfl, Bool.true_and, Bool.and_eq_true, beq_iff_eq, decide_eq_true_eq, hblk]
    tauto

end

/-! ## The last node -/

/-- The last node of a valid file is a run. -/
structure EndsIn (bs : UInt32) (s : SparseFile) (run : Extent BlockSource) : Prop where
  /-- The file is valid. -/
  valid : s.Valid
  /-- It has the block size. -/
  block_size : s.block_size = bs
  /-- The node is as long as the run, in 32 bits. -/
  last : ∃ pre node, s.blocks = pre ++ [node] ∧ node.block.toNat = run.start ∧
    node.len = UInt32.ofNat (run.len * bs.toNat) ∧ node.source = run.src

section

variable {bs : UInt32} {s : SparseFile} {run e : Extent BlockSource}
  {es : List (Extent BlockSource)}

/-- No node ends behind the run, or starts behind its start. -/
theorem EndsIn.bounds (h : EndsIn bs s run) : ∀ x ∈ s.blocks,
    (x.extent bs).stop ≤ run.stop * bs.toNat ∧ x.block.toNat ≤ run.start := by
  obtain ⟨pre, node, hl, hblock, hlen, -⟩ := h.last
  have hd : Disjoint bs (pre ++ [node]) := by
    have := h.valid.disjoint
    rwa [h.block_size, ← SparseFile.blocks, hl] at this
  have hs : Sorted (pre ++ [node]) := by
    have := h.valid.list.sorted
    rwa [← SparseFile.blocks, hl] at this
  -- The last node is no longer than its run.
  have hnode : (node.extent bs).stop ≤ run.stop * bs.toNat := by
    rw [BackedBlock.extent_stop, hblock, hlen, UInt32.toNat_ofNat', Extent.stop, Nat.add_mul]
    exact Nat.add_le_add_left (Nat.mod_le _ _) _
  intro x hx
  rw [hl] at hx
  rcases List.mem_append.mp hx with hx | hx
  · have h1 : Before (x.extent bs) (node.extent bs) :=
      (List.pairwise_append.mp hd).2.2 x hx node List.mem_cons_self
    have h2 := UInt32.lt_iff_toNat_lt.mp
      ((List.pairwise_append.mp hs).2.2 x hx node List.mem_cons_self)
    rw [Before] at h1
    refine ⟨h1.trans ?_, by omega⟩
    rw [BackedBlock.extent_start, hblock]
    exact Nat.mul_le_mul_right _ (Nat.le_add_right _ _)
  · rw [List.mem_singleton.mp hx]
    exact ⟨hnode, Nat.le_of_eq hblock⟩

/-- The first chunk of an image is added to a fresh file, whose last node is its run. -/
theorem EndsIn.first (hbs : bs ≠ 0) (len : ℤ) (h : InOrder bs (e :: es)) :
    ∃ s, (toCall bs e).add (sparseFileNew bs len) = .ok s ∧ EndsIn bs s e := by
  obtain ⟨s', heq, hv, hsize, -, hl⟩ := Call.add_spec (sparseFileNew_valid bs len) hbs
    (c := toCall bs e) (fun _ hx => nomatch hx) fun _ hx => nomatch hx
  refine ⟨s', heq, hv, hsize, [], _, hl, ?_, rfl, rfl⟩
  change (UInt32.ofNat e.start).toNat = e.start
  rw [UInt32.toNat_ofNat', Nat.mod_eq_of_lt (h.start e List.mem_cons_self)]

/-- **The next chunk** stops the program when it starts where the run starts. -/
theorem EndsIn.clash (hbs : bs ≠ 0) (h : EndsIn bs s run) (heq : run.start = e.start) :
    (toCall bs e).add s = .error .assertion := by
  obtain ⟨pre, node, hl, hblock, -⟩ := h.last
  refine Call.add_clash h.valid (h.block_size ▸ hbs) (x := node) (by rw [hl]; simp) ?_
  apply UInt32.toNat_inj.mp
  change node.block.toNat = (UInt32.ofNat e.start).toNat
  rw [UInt32.toNat_ofNat', ← heq, ← hblock, Nat.mod_eq_of_lt node.block.toNat_lt]

/-- **The next chunk** is linked to the run or becomes one when it starts behind the start of the
run. -/
theorem EndsIn.add (hbs : bs ≠ 0) (h : EndsIn bs s run) (ho : InOrder bs (run :: e :: es))
    (hne : run.start ≠ e.start) :
    ∃ s', (toCall bs e).add s = .ok s' ∧ EndsIn bs s' (runWith bs run e) := by
  obtain ⟨pre, node, hl, hblock, hlen, hsrc⟩ := h.last
  have hle : run.stop ≤ e.start := (List.pairwise_cons.mp ho.before).1 e List.mem_cons_self
  have hcb : (toCall bs e).block.toNat = e.start := by
    change (UInt32.ofNat e.start).toNat = e.start
    rw [UInt32.toNat_ofNat', Nat.mod_eq_of_lt (ho.start e (by simp))]
  -- All nodes start before the new chunk, so it is put behind the last.
  have hlt : ∀ x ∈ s.blocks, x.block < (toCall bs e).block := by
    intro x hx
    have := (h.bounds x hx).2
    simp only [Extent.stop] at hle
    rw [UInt32.lt_iff_toNat_lt, hcb]
    omega
  obtain ⟨s', heq, hv, hsize, -, hl'⟩ := Call.add_spec h.valid (h.block_size ▸ hbs)
    (c := toCall bs e) (fun x hx => UInt32.ne_of_lt (hlt x hx)) (fun x hx => by
      refine Or.inl ?_
      rw [h.block_size, Call.extent_start, hcb]
      exact (h.bounds x hx).1.trans (Nat.mul_le_mul_right _ hle))
  have hs : Sorted (pre ++ [node]) := by
    have := h.valid.list.sorted
    rwa [← SparseFile.blocks, hl] at this
  rw [hl] at hlt hl'
  rw [insertBb_last hs hlt, h.block_size] at hl'
  refine ⟨s', heq, hv, hsize.trans h.block_size, ?_⟩
  have hmerge := canMerge_run hbs ho hblock hlen hsrc s.backed_block_list.next_addr
  simp only [linkBb, absorbNext, hmerge] at hl'
  -- A fill that goes on is merged into the last node, and its length is added in 32 bits.
  by_cases hf : fillsOn bs run e
  · rw [if_pos hf] at hl'
    rw [runWith, if_pos hf]
    refine ⟨pre, _, hl', hblock, ?_, hsrc⟩
    change node.len + UInt32.ofNat (e.len * bs.toNat) = UInt32.ofNat ((run.len + e.len) * bs.toNat)
    rw [hlen, Nat.add_mul, UInt32.ofNat_add]
  · rw [if_neg hf] at hl'
    rw [runWith, if_neg hf]
    exact ⟨pre ++ [node], _, by rw [hl', List.append_assoc]; rfl, hcb, rfl, rfl⟩

/-- **A run of calls** of chunks in order stops the program exactly when a chunk starts where the run
before it starts. -/
theorem addAll_runs (hbs : bs ≠ 0) (h : EndsIn bs s run) (ho : InOrder bs (run :: es)) :
    (startsApart bs run es → ∃ s' run', addAll s (es.map (toCall bs)) = .ok s' ∧
      EndsIn bs s' run' ∧ ∀ m, (∀ e ∈ run :: es, e.stop ≤ m) → run'.stop ≤ m) ∧
    (¬ startsApart bs run es → addAll s (es.map (toCall bs)) = .error .assertion) := by
  induction es generalizing s run with
  | nil =>
    exact ⟨fun _ => ⟨s, run, rfl, h, fun m hm => hm run List.mem_cons_self⟩,
      fun hn => absurd rfl hn⟩
  | cons e es ih =>
    rw [List.map_cons, addAll_cons]
    -- The chunk starts where the run does: the assertion of the merge stops the import.
    by_cases heq : run.start = e.start
    · rw [h.clash hbs heq]
      refine ⟨fun hs => ?_, fun _ => rfl⟩
      simp [startsApart, heq] at hs
    · obtain ⟨s', hadd, h'⟩ := h.add hbs ho heq
      obtain ⟨ih1, ih2⟩ := ih h' ho.runWith
      have hs : startsApart bs run (e :: es) = startsApart bs (runWith bs run e) es := by
        simp [startsApart, heq]
      rw [hadd, hs]
      refine ⟨fun hap => ?_, ih2⟩
      obtain ⟨s'', run', h1, h2, h3⟩ := ih1 hap
      refine ⟨s'', run', h1, h2, fun m hm => h3 m fun f hf => ?_⟩
      rcases List.mem_cons.mp hf with rfl | hf
      · rw [runWith_stop]
        exact hm e (by simp)
      · exact hm f (by simp [hf])

/-- All chunks are added to a fresh file exactly when no run of fills starts again, and else the
assertion stops. -/
theorem addAll_noRestart (hbs : bs ≠ 0) (len : ℤ) {cs : List (Extent BlockSource)}
    (ho : InOrder bs cs) :
    (noRestart bs cs → ∃ s, addAll (sparseFileNew bs len) (cs.map (toCall bs)) = .ok s ∧
      (s.blocks = [] ∨ ∃ run, EndsIn bs s run ∧ ∀ m, (∀ e ∈ cs, e.stop ≤ m) → run.stop ≤ m)) ∧
    (¬ noRestart bs cs →
      addAll (sparseFileNew bs len) (cs.map (toCall bs)) = .error .assertion) := by
  cases cs with
  | nil => exact ⟨fun _ => ⟨_, rfl, Or.inl rfl⟩, fun hn => absurd rfl hn⟩
  | cons e es =>
    obtain ⟨s, hadd, hs⟩ := EndsIn.first hbs len ho
    obtain ⟨h1, h2⟩ := addAll_runs hbs hs ho
    rw [List.map_cons, addAll_cons, hadd]
    refine ⟨fun hn => ?_, h2⟩
    obtain ⟨s', run', h3, h4, h5⟩ := h1 hn
    exact ⟨s', h3, Or.inr ⟨run', h4, h5⟩⟩

end

/-! ## Writing never stops the program -/

/-- `last_block` behind a list, or the one in front when it is empty. -/
def behind (bs : UInt32) : List BackedBlock → UInt32 → UInt32
  | [], last_block => last_block
  | bb :: rest, _ => behind bs rest (bb.block + divRoundUp bb.len bs)

section

variable {σ : Type} (ops : OutputFileOps σ) (env : Env) {bs : UInt32}

/-- Behind a list stands the block behind its last node. -/
theorem behind_concat (bs : UInt32) (l : List BackedBlock) (bb : BackedBlock) (last : UInt32) :
    behind bs (l ++ [bb]) last = bb.block + divRoundUp bb.len bs := by
  induction l generalizing last with
  | nil => rfl
  | cons c l ih => exact ih _

/-- The loop over the blocks that comes to the end stops behind the list. -/
theorem writeBlocks_behind (l : List BackedBlock) (last_block : UInt32) (out : OutputFile σ)
    (h : (writeBlocks ops env bs l last_block out).1 = 0) :
    (writeBlocks ops env bs l last_block out).2.1 = behind bs l last_block := by
  induction l generalizing last_block out with
  | nil => rfl
  | cons bb l ih =>
    rw [writeBlocks] at h ⊢
    split at h
    next ret out' heq =>
      by_cases hret : ret ≠ 0
      · rw [if_pos hret] at h
        exact absurd h hret
      · rw [if_neg hret] at h
        simp only [if_neg hret]
        exact ih _ _ h

/-- The length that is rounded up is at most that of the run. -/
theorem divRoundUp_le (hbs : bs ≠ 0) (m : ℕ) :
    (divRoundUp (UInt32.ofNat (m * bs.toNat)) bs).toNat ≤ m := by
  have hpos : 0 < bs.toNat := toNat_pos_of_ne_zero hbs
  have hle := Nat.mod_le (m * bs.toNat) (2 ^ 32)
  have hx : (UInt32.ofNat (m * bs.toNat) + bs - 1).toNat ≤ m * bs.toNat + (bs.toNat - 1) := by
    have hlt := bs.toNat_lt
    rw [UInt32.toNat_sub, UInt32.toNat_add, UInt32.toNat_ofNat', UInt32.toNat_one]
    omega
  rw [divRoundUp, UInt32.toNat_div]
  calc (UInt32.ofNat (m * bs.toNat) + bs - 1).toNat / bs.toNat
      ≤ (m * bs.toNat + (bs.toNat - 1)) / bs.toNat := Nat.div_le_div_right hx
    _ = m := by
      rw [Nat.mul_comm, Nat.mul_add_div hpos, Nat.div_eq_of_lt (by omega), Nat.add_zero]

/-- The loop over the blocks of a file that ends in a run stops inside the run. -/
theorem EndsIn.behind_le {s : SparseFile} {run : Extent BlockSource} (hbs : bs ≠ 0)
    (h : EndsIn bs s run) : (behind bs s.blocks 0).toNat ≤ run.stop := by
  obtain ⟨pre, node, hl, hblock, hlen, -⟩ := h.last
  rw [hl, behind_concat, hlen, UInt32.toNat_add, hblock]
  exact (Nat.mod_le _ _).trans (Nat.add_le_add_left (divRoundUp_le hbs run.len) _)

/-- **Writing returns** when the block size is not zero and the last block ends inside the image. -/
theorem sparseFileWrite_returns {s : SparseFile} {n : ℕ} (hbs : s.block_size ≠ 0)
    (hlen : s.block_size.toNat < 2 ^ 31 → s.len = (n * s.block_size.toNat : ℕ))
    (hend : (behind s.block_size s.blocks 0).toNat ≤ n) (dev : σ) (crc : Bool) :
    ∃ r, sparseFileWrite ops env s dev false crc = .ok r := by
  -- A block size that is no `int` is refused with an error.
  by_cases hlt : 2 ^ 31 ≤ s.block_size.toNat
  · exact ⟨_, sparseFileWrite_unopened hbs hlt⟩
  · obtain ⟨chunks, hchunks⟩ := sparseCountChunks_ok hbs
    have hinit := outputFileInit_normal ops dev (not_le.mp hlt) s.len chunks crc
    obtain ⟨r, hr⟩ : ∃ r, writeAllBlocks ops env s
        ⟨0, 0, 0, false, crc, s.block_size, s.len, dev⟩ = .ok r := by
      unfold writeAllBlocks
      have hb := @writeBlocks_behind _ ops env s.block_size s.blocks 0
        ⟨0, 0, 0, false, crc, s.block_size, s.len, dev⟩
      unfold SparseFile.blocks at hb hend
      split
      next ret last_block out' heq =>
        rw [heq] at hb
        by_cases hret : ret ≠ 0
        · rw [if_pos hret]
          exact ⟨_, rfl⟩
        · have hlast : last_block = behind s.block_size s.backed_block_list.data_blocks 0 :=
            hb (not_not.mp hret)
          -- The blocks end within the length, so the assertion holds.
          have hpad : ¬ s.len - last_block.toNat * s.block_size.toNat < 0 := by
            have := Nat.mul_le_mul_right s.block_size.toNat (hlast ▸ hend)
            rw [hlen (by omega)]
            push_cast at this ⊢
            have : (last_block.toNat : ℤ) * s.block_size.toNat ≤ n * s.block_size.toNat := by
              exact_mod_cast this
            omega
          rw [if_neg hret]
          simp only [if_neg hpad]
          split_ifs <;> exact ⟨_, rfl⟩
    exact ⟨_, sparseFileWrite_eq hchunks hinit hr⟩

end

/-! ## The program -/

/-- Whether importing a file and, when that succeeds, writing it in the normal format over any file
both return. -/
def NeverAborts (file : List UInt8) : Prop :=
  ∃ r, sparseFileImport 0 file false = .ok r ∧ ∀ s, r = some s → ∀ dev, ∃ w,
    sparseFileWrite file_ops (Env.ofFile file) s dev false false = .ok w

/-- The records that the reader reaches. -/
def reachedRecords (file : List UInt8) : List Record :=
  reached file (fileHeader file) (fileRecords file)

/-- The raw and fill chunks that the reader reaches. -/
def reachedChunks (file : List UInt8) : List (Extent BlockSource) :=
  chunks file (fileHeader file) 0 (reachedRecords file) 0

/-- The files on which the program does not abort: those whose header is rejected; those with a block
size of zero that are rejected with no raw chunk and at most one fill chunk reached; those of which no
raw or fill chunk is reached; and those on whose reached records the block counter does not wrap and no
raw or fill chunk starts where the run before it starts. -/
def Safe (file : List UInt8) : Prop :=
  HeaderOk file →
    if (fileHeader file).blk_sz = 0 then
      (∀ r ∈ reachedRecords file, r.header.kind ≠ .raw) ∧ (reachedChunks file).length ≤ 1 ∧
        finishes file = false
    else reachedChunks file = [] ∨ totalBlocks (reachedRecords file) < 2 ^ 32 ∧
      noRestart (fileHeader file).blk_sz (reachedChunks file) = true

instance (file : List UInt8) : Decidable (Safe file) := by
  unfold Safe
  infer_instance

section

variable {file : List UInt8}

/-- An import makes the calls of the chunks that it reaches. -/
theorem importedFile_reached
    (hraw : ∀ r ∈ reachedRecords file, r.header.kind = .raw → (fileHeader file).blk_sz ≠ 0) :
    importedFile 0 file = addAll (emptyFile (fileHeader file))
      ((reachedChunks file).map (toCall (fileHeader file).blk_sz)) := by
  rw [importedFile, ← reachedRecords, addRecords_eq_addAll _ _ _ _ hraw]
  exact congrArg _ (calls_eq (reachedRecords file) 0)

/-- The chunks that an import reaches are in order when their blocks do not wrap. -/
theorem reachedChunks_inOrder (hh : HeaderOk file) (hbs : (fileHeader file).blk_sz ≠ 0)
    (hsum : totalBlocks (reachedRecords file) < 2 ^ 32) :
    InOrder (fileHeader file).blk_sz (reachedChunks file) := by
  refine ⟨chunks_before _ _, fun e he => ?_, fun e he => ?_, ?_, ?_⟩
  · have := (chunks_bounds _ _ e he).2
    simp only [Extent.stop] at this
    omega
  · exact (chunks_source _ _ e he).imp (fun h => ⟨0, h⟩) id
  · exact chunks_raw_len hbs (reached_taken _) 0
  · obtain ⟨m, hm⟩ := @reached_records file (fileHeader file)
      (fileHeader file).total_chunks.toNat (fileHeader file).file_hdr_sz.toNat
    rw [reachedChunks, reachedRecords, fileRecords, hm]
    exact chunks_gap hh.chunk_hdr_sz _ _ _

/-- Without raw chunks, all chunks are fills. -/
theorem chunks_fill {hdr : SparseHeader} {fd : ℕ} {rs : List Record}
    (h : ∀ r ∈ rs, r.header.kind ≠ .raw) (b : ℕ) :
    ∀ e ∈ chunks file hdr fd rs b, ∃ w, e.src = .fill w := by
  induction rs generalizing b with
  | nil => exact fun _ h => nomatch h
  | cons r rs ih =>
    intro e he
    rcases mem_chunks_cons.mp he with ⟨hk, rfl⟩ | ⟨-, rfl⟩ | he
    · exact absurd hk (h r List.mem_cons_self)
    · exact ⟨_, rfl⟩
    · exact ih (fun r hr => h r (List.mem_cons_of_mem _ hr)) _ e he

/-- One chunk never stops the program. -/
theorem addAll_one {bs : UInt32} {cs : List (Extent BlockSource)} (len : ℤ) (h : cs.length ≤ 1) :
    ∃ s, addAll (sparseFileNew bs len) (cs.map (toCall bs)) = .ok s := by
  match cs, h with
  | [], _ => exact ⟨_, rfl⟩
  | [e], _ =>
    rw [List.map_singleton, addAll_cons, Call.add_eq]
    exact ⟨_, rfl⟩

/-- With a block size of zero, a second fill chunk stops the program. -/
theorem addAll_zero {cs : List (Extent BlockSource)} {len : ℤ} (hb : cs.Pairwise Before)
    (hstart : ∀ e ∈ cs, e.start < 2 ^ 32) (hfill : ∀ e ∈ cs, ∃ w, e.src = .fill w)
    {s : SparseFile} (hs : addAll (sparseFileNew 0 len) (cs.map (toCall 0)) = .ok s) :
    cs.length ≤ 1 := by
  match cs, hb, hstart, hfill with
  | [], _, _, _ => exact Nat.zero_le _
  | [e], _, _, _ => exact Nat.le_refl _
  | e :: f :: cs, hb, hstart, hfill =>
    have hle : e.start ≤ f.start := by
      have : e.stop ≤ f.start := (List.pairwise_cons.mp hb).1 f List.mem_cons_self
      simp only [Extent.stop] at this
      omega
    have he := hstart e (by simp)
    have hf := hstart f (by simp)
    obtain ⟨v, hv⟩ := hfill e (by simp)
    obtain ⟨w, hw⟩ := hfill f (by simp)
    have hnlt : ¬ (UInt32.ofNat e.start > UInt32.ofNat f.start) := by
      rw [gt_iff_lt, UInt32.lt_iff_toNat_lt, UInt32.toNat_ofNat', UInt32.toNat_ofNat',
        Nat.mod_eq_of_lt he, Nat.mod_eq_of_lt hf]
      omega
    -- The second fill is merged with the first one or clashes with it: both stop the program.
    obtain ⟨fault, herr⟩ : ∃ fault, queueBb
        ⟨[⟨0, UInt32.ofNat e.start, UInt32.ofNat (e.len * 0), e.src⟩], none, 0, 2⟩
        ⟨1, UInt32.ofNat f.start, UInt32.ofNat (f.len * 0), f.src⟩ = .error fault := by
      simp only [queueBb, if_neg hnlt, searchStart, seekBb, mergeNext, mergeBb, hv, hw,
        BlockSource.type, bind, Except.bind]
      by_cases hlt : UInt32.ofNat e.start < UInt32.ofNat f.start
      · exact ⟨.divByZero, by simp [hlt]⟩
      · exact ⟨.assertion, by simp [hlt]⟩
    have hadd : addAll (sparseFileNew 0 len) ((e :: f :: cs).map (toCall 0)) = .error fault := by
      have h1 : (toCall 0 e).add (sparseFileNew 0 len) = .ok ⟨0, len,
          ⟨[⟨0, UInt32.ofNat e.start, UInt32.ofNat (e.len * 0), e.src⟩], none, 0, 1⟩⟩ := by
        rw [Call.add_eq]
        rfl
      rw [List.map_cons, addAll_cons, h1, List.map_cons]
      change (addAll _ (toCall 0 f :: cs.map (toCall 0))) = _
      rw [addAll_cons, Call.add_eq]
      change SparseFile.withList _ (queueBb
        ⟨[⟨0, UInt32.ofNat e.start, UInt32.ofNat (e.len * 0), e.src⟩], none, 0, 2⟩
        ⟨1, UInt32.ofNat f.start, UInt32.ofNat (f.len * 0), f.src⟩) >>= _ = _
      rw [herr]
      rfl
    rw [hadd] at hs
    cases hs

/-- An image whose chunks are added is written when its last block ends inside it. -/
theorem neverAborts_of_added (hh : HeaderOk file) (hbs : (fileHeader file).blk_sz ≠ 0)
    {s : SparseFile} (hs : importedFile 0 file = .ok s)
    (hend : finishes file = true → (behind (fileHeader file).blk_sz s.blocks 0).toNat ≤
      (fileHeader file).total_blks.toNat) : NeverAborts file := by
  refine ⟨_, by rw [sparseFileImport_eq, if_pos hh, hs], fun s' hs' dev => ?_⟩
  by_cases hf : finishes file
  swap
  · rw [if_neg hf] at hs'
    cases hs'
  rw [if_pos hf] at hs'
  cases hs'
  rw [importedFile_reached fun _ _ _ => hbs] at hs
  obtain ⟨hsize, hlen⟩ := addAll_fields hs
  change s.block_size = (fileHeader file).blk_sz at hsize
  refine sparseFileWrite_returns file_ops _ (n := (fileHeader file).total_blks.toNat)
    (hsize ▸ hbs) (fun hlt => ?_) (hsize ▸ hend hf) dev false
  rw [hsize] at hlt
  simp only [emptyFile, sparseFileNew, SparseHeader.imageLen_eq hlt] at hlen
  rw [hlen, hsize]

/-- **Without raw and fill chunks** there is nothing to add or to write. -/
theorem neverAborts_empty (hh : HeaderOk file) (hbs : (fileHeader file).blk_sz ≠ 0)
    (hnone : reachedChunks file = []) : NeverAborts file := by
  have himp := @importedFile_reached file fun _ _ _ => hbs
  rw [hnone] at himp
  exact neverAborts_of_added hh hbs himp fun _ => Nat.zero_le _

/-- **The block size is not zero**: the program returns exactly when no chunk starts where the run
before it starts. -/
theorem neverAborts_pos (hh : HeaderOk file) (hbs : (fileHeader file).blk_sz ≠ 0)
    (hsum : totalBlocks (reachedRecords file) < 2 ^ 32) :
    NeverAborts file ↔ noRestart (fileHeader file).blk_sz (reachedChunks file) = true := by
  have himp := @importedFile_reached file fun _ _ _ => hbs
  obtain ⟨h1, h2⟩ := addAll_noRestart hbs (fileHeader file).imageLen
    (reachedChunks_inOrder hh hbs hsum)
  constructor
  · -- A run that starts again stops the import, whatever comes of it.
    rintro ⟨r, hr, -⟩
    by_contra hn
    rw [sparseFileImport_eq, if_pos hh, himp, emptyFile, h2 hn] at hr
    cases hr
  · intro hn
    obtain ⟨s, hs, hend⟩ := h1 hn
    refine neverAborts_of_added hh hbs (himp.trans hs) fun hf => ?_
    simp only [finishes, Bool.and_eq_true, beq_iff_eq] at hf
    have hall : reachedRecords file = fileRecords file := reached_eq hf.1
    -- An import that finishes has read all records, whose blocks are those of the header.
    have htotal : totalBlocks (reachedRecords file) = (fileHeader file).total_blks.toNat := by
      have := congrArg UInt32.toNat hf.2
      rwa [toNat_blockAfter, UInt32.toNat_zero, Nat.zero_add, ← hall, Nat.mod_eq_of_lt hsum] at this
    rcases hend with h0 | ⟨run, hrun, hstop⟩
    · rw [h0]
      exact Nat.zero_le _
    · refine (hrun.behind_le hbs).trans (hstop _ fun e he => ?_)
      have := (chunks_bounds _ _ e he).2
      omega

/-- **The block size is zero**: the program returns exactly when it rejects the file before it adds a
raw chunk or a second fill chunk. -/
theorem neverAborts_zero (hh : HeaderOk file) (hbs : (fileHeader file).blk_sz = 0) :
    ((∀ r ∈ reachedRecords file, r.header.kind ≠ .raw) ∧ (reachedChunks file).length ≤ 1 ∧
        finishes file = false → NeverAborts file) ∧
      (totalBlocks (reachedRecords file) < 2 ^ 32 → NeverAborts file →
        (∀ r ∈ reachedRecords file, r.header.kind ≠ .raw) ∧ (reachedChunks file).length ≤ 1 ∧
          finishes file = false) := by
  -- Without RAW chunks nothing is divided by the block size.
  have himp : (∀ r ∈ reachedRecords file, r.header.kind ≠ .raw) → importedFile 0 file =
      addAll (sparseFileNew 0 (fileHeader file).imageLen)
        ((reachedChunks file).map (toCall 0)) := fun hraw => by
    rw [importedFile_reached fun r hr hk => absurd hk (hraw r hr), emptyFile, hbs]
  constructor
  · rintro ⟨hraw, hlen, hfin⟩
    obtain ⟨s, hs⟩ := @addAll_one 0 _ (fileHeader file).imageLen hlen
    refine ⟨none, ?_, fun _ h => absurd h (Option.some_ne_none _).symm⟩
    rw [sparseFileImport_eq, if_pos hh, himp hraw, hs]
    simp [hfin]
  · rintro hsum ⟨r, hr, hw⟩
    rw [sparseFileImport_eq, if_pos hh] at hr
    cases hi : importedFile 0 file with
    | error f => rw [hi] at hr; cases hr
    | ok s =>
      have hraw : ∀ r ∈ reachedRecords file, r.header.kind ≠ .raw := fun r hr hk =>
        addRecords_raw hi r hr hk hbs
      rw [himp hraw] at hi
      refine ⟨hraw, addAll_zero (chunks_before _ _) (fun e he => ?_) (chunks_fill hraw 0) hi, ?_⟩
      · have := (chunks_bounds _ _ e he).2
        simp only [Extent.stop] at this
        omega
      · -- A file that is returned would be counted in blocks of no bytes.
        by_contra hfin
        rw [himp hraw, hi] at hr
        rw [Bool.not_eq_false] at hfin
        simp only [hfin, if_true, Except.ok.injEq] at hr
        obtain ⟨w, hw⟩ := hw s hr.symm ⟨[], 0⟩
        have h0 : s.block_size = 0 := (addAll_fields hi).1
        rw [sparseFileWrite, sparseCountChunks, if_pos h0] at hw
        cases hw

/-- **When `simg2img` aborts.** A safe file never stops the program, and when the block counter does
not wrap on the records that are reached, only a safe file does not. -/
theorem neverAborts_iff (file : List UInt8) : (Safe file → NeverAborts file) ∧
    (totalBlocks (reachedRecords file) < 2 ^ 32 → NeverAborts file → Safe file) := by
  by_cases hh : HeaderOk file
  swap
  · refine ⟨fun _ => ⟨none, ?_, fun _ h => nomatch h⟩, fun _ _ h => absurd h hh⟩
    rw [sparseFileImport_eq, if_neg hh]
  by_cases hbs : (fileHeader file).blk_sz = 0
  · obtain ⟨h1, h2⟩ := neverAborts_zero hh hbs
    refine ⟨fun hs => h1 ?_, fun hsum hn _ => ?_⟩
    · have := hs hh
      rwa [if_pos hbs] at this
    · rw [if_pos hbs]
      exact h2 hsum hn
  · refine ⟨fun hs => ?_, fun hsum hn _ => ?_⟩
    · have := hs hh
      rw [if_neg hbs] at this
      rcases this with hnone | ⟨hsum, hrun⟩
      · exact neverAborts_empty hh hbs hnone
      · exact (neverAborts_pos hh hbs hsum).mpr hrun
    · rw [if_neg hbs]
      exact Or.inr ⟨hsum, (neverAborts_pos hh hbs hsum).mp hn⟩

end

/-- One block of a fill word is imported and written without an abort. -/
theorem neverAborts_one_block : NeverAborts (fillImage 1) ∧ Safe (fillImage 1) :=
  have h : NeverAborts (fillImage 1) := (neverAborts_iff _).1 (by decide +kernel)
  ⟨h, (neverAborts_iff _).2 (by decide +kernel) h⟩

/-- A header alone, with a block size of zero. -/
def zeroBlockImage : List UInt8 :=
  SparseHeader.encode ⟨SPARSE_HEADER_MAGIC, 1, 0, 28, 12, 0, 0, 0, 0⟩

/-- A fill chunk of no blocks and one of one block. -/
def emptyFillImage : List UInt8 :=
  SparseHeader.encode ⟨SPARSE_HEADER_MAGIC, 1, 0, 28, 12, 4096, 1, 2, 0⟩ ++
    (ChunkHeader.encode ⟨CHUNK_TYPE_FILL, 0, 0, 16⟩ ++ [7, 7, 7, 7]) ++
    (ChunkHeader.encode ⟨CHUNK_TYPE_FILL, 0, 1, 16⟩ ++ [9, 9, 9, 9])

/-- A fill chunk behind five skipped blocks, in an image of one block: the blocks of all chunks add up
to `2^32 + 1`. -/
def wrappedImage : List UInt8 :=
  SparseHeader.encode ⟨SPARSE_HEADER_MAGIC, 1, 0, 28, 12, 4096, 1, 4, 0⟩ ++
    ChunkHeader.encode ⟨CHUNK_TYPE_DONT_CARE, 0, 5, 12⟩ ++
    (ChunkHeader.encode ⟨CHUNK_TYPE_FILL, 0, 1, 16⟩ ++ [7, 7, 7, 7]) ++
    ChunkHeader.encode ⟨CHUNK_TYPE_DONT_CARE, 0, 0x7fffffff, 12⟩ ++
    ChunkHeader.encode ⟨CHUNK_TYPE_DONT_CARE, 0, 0x7ffffffc, 12⟩

/-- The three stop the program: a division by zero, and the two assertions. -/
theorem hostile_images_abort :
    ¬ NeverAborts zeroBlockImage ∧ ¬ NeverAborts emptyFillImage ∧ ¬ NeverAborts wrappedImage := by
  refine ⟨?_, ?_, ?_⟩
  · -- A block size of 0 is divided by.
    rintro ⟨r, hr, hw⟩
    have h1 : sparseFileImport 0 zeroBlockImage false = .ok (some (sparseFileNew 0 0)) := by
      decide +kernel
    rw [h1, Except.ok.injEq] at hr
    obtain ⟨w, hw⟩ := hw _ hr.symm ⟨[], 0⟩
    cases hw
  · -- Two fills at one block stop at the assertion of the merge.
    rintro ⟨r, hr, -⟩
    have h1 : sparseFileImport 0 emptyFillImage false = .error .assertion := by decide +kernel
    rw [h1] at hr
    cases hr
  · -- The block numbers have wrapped, and the block lies behind the length.
    rintro ⟨r, hr, hw⟩
    have h1 : sparseFileImport 0 wrappedImage false = .ok (some
        ⟨4096, 4096, ⟨[⟨0, 5, 4096, .fill 0x07070707⟩], none, 4096, 1⟩⟩) := by decide +kernel
    have h2 : ∃ w, sparseFileWrite file_ops (Env.ofFile wrappedImage)
        ⟨4096, 4096, ⟨[⟨0, 5, 4096, .fill 0x07070707⟩], none, 4096, 1⟩⟩ ⟨[], 0⟩ false false =
          .ok w := by
      rw [h1, Except.ok.injEq] at hr
      exact hw _ hr.symm ⟨[], 0⟩
    obtain ⟨w, hw⟩ := h2
    have h3 : sparseFileWrite file_ops (Env.ofFile wrappedImage)
        ⟨4096, 4096, ⟨[⟨0, 5, 4096, .fill 0x07070707⟩], none, 4096, 1⟩⟩ ⟨[], 0⟩ false false =
          .error .assertion := by decide +kernel
    rw [h3] at hw
    cases hw

end AmlogicToolkit.Simg
