import AmlogicToolkit.Simg.NeverAborts
import AmlogicToolkit.Simg.Runs
import Mathlib.Algebra.Order.BigOperators.Group.List
import Mathlib.Data.List.Basic

/-!
# What blocks take in a sparse file

The bytes of the chunk of a block, with the header of the gap in front of it (`cost`): what the
counter of `move_chunks_up_to_len` adds up for blocks below `2^31` bytes (`scanBlocks_cost`), and
what `sparse_file_write` writes for them (`sparseFileWrite_length`). With it, a pass of
`sparse_file_resparse` is a step of a packing of numbers (`Packs`).
-/

namespace AmlogicToolkit.Simg

open Bytes

/-! ## The sizes -/

/-- The bytes of the chunk of a block. -/
def chunkSize (bs : UInt32) (bb : BackedBlock) : ℕ :=
  match bb.source with
  | .fill _ => 16
  | _ => 12 + padded bs.toNat bb.len.toNat

/-- The bytes of the header of the gap in front of a block. -/
def gapSize (last : UInt32) (bb : BackedBlock) : ℕ := if bb.block > last then 12 else 0

/-- The bytes of the chunks of a list, and of those of the gaps between them, behind a block. -/
def cost (bs : UInt32) : List BackedBlock → UInt32 → ℕ
  | [], _ => 0
  | bb :: l, last =>
    gapSize last bb + chunkSize bs bb + cost bs l (bb.block + divRoundUp bb.len bs)

section

variable {bs last : UInt32} {l m pre post pre' post' : List BackedBlock} {bb bb' : BackedBlock}

/-- Every chunk has a header. -/
theorem twelve_le_chunkSize (bs : UInt32) (bb : BackedBlock) : 12 ≤ chunkSize bs bb := by
  unfold chunkSize
  split <;> omega

/-- A gap is one header at most. -/
theorem gapSize_le (last : UInt32) (bb : BackedBlock) : gapSize last bb ≤ 12 := by
  unfold gapSize
  split <;> omega

/-- Two lists in a row cost what the first costs, and the second behind it. -/
theorem cost_append (bs : UInt32) (l m : List BackedBlock) (last : UInt32) :
    cost bs (l ++ m) last = cost bs l last + cost bs m (behind bs l last) := by
  induction l generalizing last with
  | nil => exact (Nat.zero_add _).symm
  | cons bb l ih =>
    rw [List.cons_append, cost, cost, ih, Nat.add_assoc _ (cost bs l _)]
    rfl

/-- One node costs its gap and its chunk. -/
theorem cost_singleton (bs : UInt32) (bb : BackedBlock) (last : UInt32) :
    cost bs [bb] last = gapSize last bb + chunkSize bs bb := rfl

/-- One node more costs the gap behind the list, and its chunk. -/
theorem cost_concat (bs : UInt32) (l : List BackedBlock) (bb : BackedBlock) (last : UInt32) :
    cost bs (l ++ [bb]) last =
      cost bs l last + gapSize (behind bs l last) bb + chunkSize bs bb := by
  rw [cost_append, cost_singleton, Nat.add_assoc]

/-- A list with a node costs a header at least. -/
theorem twelve_le_cost (bs last : UInt32) (hl : l ≠ []) : 12 ≤ cost bs l last := by
  obtain ⟨bb, l', rfl⟩ := List.exists_cons_of_ne_nil hl
  have := twelve_le_chunkSize bs bb
  rw [cost]
  omega

/-- **Where a list stops to fit** is determined by the bytes that there are for it. -/
theorem cost_stop_unique {n : ℕ} (h : pre ++ bb :: post = pre' ++ bb' :: post')
    (hfits : cost bs pre last ≤ n) (hfull : n < cost bs (pre ++ [bb]) last)
    (hfits' : cost bs pre' last ≤ n) (hfull' : n < cost bs (pre' ++ [bb']) last) :
    pre = pre' ∧ bb = bb' ∧ post = post' := by
  -- A list that goes on behind the block that does not fit takes more.
  have key : ∀ {p q : List BackedBlock} {x : BackedBlock}, n < cost bs (p ++ [x]) last →
      cost bs q last ≤ n → ∀ t, q ≠ p ++ x :: t := by
    rintro p q x hlt hle t rfl
    have : p ++ x :: t = p ++ [x] ++ t := by simp
    rw [this, cost_append] at hle
    omega
  rcases List.append_eq_append_iff.mp h with ⟨t, h1, h2⟩ | ⟨t, h1, h2⟩
  · cases t with
    | nil =>
      rw [List.append_nil] at h1
      obtain ⟨h3, h4⟩ := List.cons.inj h2
      exact ⟨h1.symm, h3, h4⟩
    | cons y t =>
      obtain ⟨rfl, -⟩ := List.cons.inj h2
      exact absurd h1 (key hfull hfits' t)
  · cases t with
    | nil =>
      rw [List.append_nil] at h1
      obtain ⟨h3, h4⟩ := List.cons.inj h2
      exact ⟨h1, h3.symm, h4.symm⟩
    | cons y t =>
      obtain ⟨rfl, -⟩ := List.cons.inj h2
      exact absurd h1 (key hfull' hfits t)

end

/-! ## What the counter measures -/

/-- The counter takes the bytes of a block for what they are: the block is a fill, of which only a word
is written, or its length fits into the `int` of `out_counter_write`. -/
def BackedBlock.Countable (bb : BackedBlock) : Prop :=
  (∃ v, bb.source = .fill v) ∨ bb.len.toNat < 2 ^ 31

/-- A block that is no fill is countable when it is short. -/
theorem BackedBlock.Countable.short {bb : BackedBlock} (h : bb.Countable)
    (hs : ∀ v, bb.source ≠ .fill v) : bb.len.toNat < 2 ^ 31 :=
  h.resolve_left fun ⟨v, hv⟩ => hs v hv

section

variable {env : Env} {bs : UInt32} {l : List BackedBlock} {bb : BackedBlock}

/-- The counter has the size of a chunk of data. -/
theorem writeDataChunk_count {out : OutputFile ℤ} (hs : out.sparse = true)
    (hb : out.block_size = bs) (hbs : bs ≠ 0) (hlt : bs.toNat < 2 ^ 31) {len : UInt32}
    (hlen : len.toNat < 2 ^ 31) (data : List UInt8) :
    ∃ out', writeDataChunk counter_ops out len data = (0, out') ∧ out'.sparse = true ∧
      out'.block_size = bs ∧ out'.dev = out.dev + (12 + padded bs.toNat len.toNat : ℕ) := by
  have hle := le_padded (n := len.toNat) (toNat_pos_of_ne_zero hbs)
  have hpad := padded_lt (n := len.toNat) (toNat_pos_of_ne_zero hbs)
  obtain ⟨out', h1, h2, h3, h4⟩ := writeSparseDataChunk_counter out len data
  have hrest := align_sub_toNat hbs (show len.toNat + bs.toNat ≤ 2 ^ 32 by omega)
  rw [hb, hrest, toInt_of_lt hlen, toInt_of_lt (by omega)] at h4
  unfold writeDataChunk
  rw [if_pos hs]
  exact ⟨out', h1, h2.trans hs, h3.trans hb, by omega⟩

/-- **The counter** has the size of the chunk of a block, when it can be read. -/
theorem sparseFileWriteBlock_count {out out' : OutputFile ℤ} (hs : out.sparse = true)
    (hb : out.block_size = bs) (hbs : bs ≠ 0) (hlt : bs.toNat < 2 ^ 31)
    (hlen : bb.Countable) (h : sparseFileWriteBlock counter_ops env out bb = (0, out')) :
    out'.sparse = true ∧ out'.block_size = bs ∧ out'.dev = out.dev + (chunkSize bs bb : ℕ) := by
  -- The three kinds of data are counted in the same way.
  have hdata : bb.len.toNat < 2 ^ 31 → ∀ data, writeDataChunk counter_ops out bb.len data = (0, out') →
      out'.sparse = true ∧ out'.block_size = bs ∧
        out'.dev = out.dev + (12 + padded bs.toNat bb.len.toNat : ℕ) := by
    intro hshort data heq
    obtain ⟨out1, h1, h2⟩ := writeDataChunk_count hs hb hbs hlt hshort data
    rw [heq] at h1
    obtain ⟨-, rfl⟩ := Prod.mk.inj h1
    exact h2
  have hfd : bb.len.toNat < 2 ^ 31 → ∀ fd offset,
      writeFdChunk counter_ops env out bb.len fd offset = (0, out') → out'.sparse = true ∧ out'.block_size = bs ∧
        out'.dev = out.dev + (12 + padded bs.toNat bb.len.toNat : ℕ) := by
    intro hshort fd offset heq
    unfold writeFdChunk at heq
    dsimp only at heq
    split at heq
    · -- An `errno` is not zero.
      rename_i errno _
      have hpos := errno.pos
      obtain ⟨h0, -⟩ := Prod.mk.inj heq
      omega
    · exact hdata hshort _ heq
  -- Only fills may be long, and the callback counts their word alone.
  have hshort : (∀ v, bb.source ≠ .fill v) → bb.len.toNat < 2 ^ 31 := hlen.short
  unfold sparseFileWriteBlock at h
  -- One kind of source at a time; a call that returns 0 has written everything.
  unfold chunkSize
  cases hsrc : bb.source with
  | data p =>
    rw [hsrc] at h hshort
    exact hdata (hshort fun _ hv => nomatch hv) _ h
  | file filename offset =>
    rw [hsrc] at h hshort
    simp only [writeFileChunk] at h
    split at h
    · rename_i errno _
      have hpos := errno.pos
      obtain ⟨h0, -⟩ := Prod.mk.inj h
      omega
    · exact hfd (hshort fun _ hv => nomatch hv) _ _ h
  | fd fd offset =>
    rw [hsrc] at h hshort
    exact hfd (hshort fun _ hv => nomatch hv) _ _ h
  | fill w =>
    rw [hsrc] at h
    obtain ⟨out1, h1, h2, h3, h4⟩ := writeSparseFillChunk_counter out bb.len w
    simp only [writeFillChunk, hs, if_true, h1] at h
    obtain ⟨-, rfl⟩ := Prod.mk.inj h
    exact ⟨h2.trans hs, h3.trans hb, h4⟩

/-- **The scan adds up the sizes**, when no block fails: all blocks fit, or those before the one where
it stops fit and that one does not. -/
theorem scanBlocks_cost (hbs : bs ≠ 0) (hlt : bs.toNat < 2 ^ 31)
    (hlen : ∀ c ∈ l, c.Countable) {len : UInt32} (last_bb : Option BackedBlock)
    (last : UInt32) {file_len : ℕ} (hfits : file_len ≤ len.toNat) {out : OutputFile ℤ}
    (hs : out.sparse = true) (hb : out.block_size = bs) :
    scanBlocks env bs len l last_bb last file_len out = .failed ∨
      (scanBlocks env bs len l last_bb last file_len out = .all (l.getLast?.or last_bb) ∧
        file_len + cost bs l last ≤ len.toNat) ∨
      ∃ pre bb post, l = pre ++ bb :: post ∧ file_len + cost bs pre last ≤ len.toNat ∧
        len.toNat < file_len + cost bs (pre ++ [bb]) last ∧
        scanBlocks env bs len l last_bb last file_len out =
          .full (pre.getLast?.or last_bb) bb (file_len + cost bs pre last + 12 : ℕ) := by
  induction l generalizing last_bb last file_len out with
  | nil => exact Or.inr (Or.inl ⟨rfl, hfits⟩)
  | cons c l ih =>
    -- What the counter holds behind the first block, when it is written.
    have hsize : ∀ out', sparseFileWriteBlock counter_ops env
        { out with dev := if c.block > last then 12 else 0 } c = (0, out') →
          out'.sparse = true ∧ out'.block_size = bs ∧
            out'.dev = (gapSize last c + chunkSize bs c : ℕ) := by
      intro out' heq
      obtain ⟨h1, h2, h3⟩ := @sparseFileWriteBlock_count env bs c { out with
        dev := if c.block > last then 12 else 0 } out' hs hb hbs hlt (hlen c List.mem_cons_self) heq
      refine ⟨h1, h2, h3.trans ?_⟩
      unfold gapSize
      split_ifs <;> push_cast <;> rfl
    unfold scanBlocks
    dsimp only
    generalize sparseFileWriteBlock counter_ops env _ c = r at hsize
    obtain ⟨ret, out'⟩ := r
    dsimp only
    split_ifs with hret hfull
    · exact Or.inl rfl
    · -- The first block does not fit.
      obtain rfl := not_not.mp hret
      obtain ⟨-, -, h3⟩ := hsize out' rfl
      refine Or.inr (Or.inr ⟨[], c, l, rfl, hfits, ?_, rfl⟩)
      rw [List.nil_append, cost_singleton]
      omega
    · -- It fits, and the loop goes on behind it.
      obtain rfl := not_not.mp hret
      obtain ⟨h1, h2, h3⟩ := hsize out' rfl
      have hsum : (file_len : ℤ) + out'.dev = (file_len + (gapSize last c + chunkSize bs c) : ℕ) := by
        omega
      rw [hsum] at hfull ⊢
      have hassoc : ∀ k, file_len + (gapSize last c + chunkSize bs c + k) =
        file_len + (gapSize last c + chunkSize bs c) + k := fun k => by omega
      have hle : file_len + (gapSize last c + chunkSize bs c) ≤ len.toNat := by omega
      rcases ih (fun d hd => hlen d (List.mem_cons_of_mem _ hd)) (some c)
        (c.block + divRoundUp c.len bs) hle h1 h2 with
        h | ⟨h, hcost⟩ | ⟨pre, bb, post, heq, h4, h5, h6⟩
      · exact Or.inl h
      · refine Or.inr (Or.inl ⟨by rw [h, getLast?_cons_or], ?_⟩)
        rw [cost, hassoc]
        exact hcost
      · refine Or.inr (Or.inr ⟨c :: pre, bb, post, by rw [heq]; rfl, ?_, ?_, ?_⟩)
        · rw [cost, hassoc]
          exact h4
        · rw [List.cons_append, cost, hassoc]
          exact h5
        · rw [h6, getLast?_cons_or, cost, hassoc]

end

/-! ## Passes as packing -/

/-- The bytes that a pass has for the blocks of a piece: the limit less the overhead, in 32 bits. -/
def budget (max_len : UInt32) : ℕ := (max_len - overhead).toNat

/-- The room that a pass has for a part, in 32 bits. -/
theorem toU32_room {n c : ℕ} (hn : n < 2 ^ 32) (hc : c ≤ n) :
    (toU32 ((n : ℤ) - (c : ℕ))).toNat = n - c := by
  unfold toU32
  rw [UInt32.toNat_ofNat']
  omega

/-- **A pass that measures all blocks**, as a step of a packing: it takes the blocks that fit, and when
one does not fit, the first part of it if it is the first block or if more than an eighth of the
budget is left. -/
inductive Packs (bs : UInt32) (n : ℕ) (l : List BackedBlock) :
    Bool → List BackedBlock → List BackedBlock → Prop
  /-- All blocks fit. -/
  | all (hfits : cost bs l 0 ≤ n) : Packs bs n l false l []
  /-- The block that does not fit is split, and its first part is taken. -/
  | split {pre post rest : List BackedBlock} {bb a : BackedBlock} (addr : ℕ)
      (hblocks : l = pre ++ bb :: post) (hfits : cost bs pre 0 ≤ n)
      (hfull : n < cost bs (pre ++ [bb]) 0)
      (hsplits : pre = [] ∨ n / 8 + cost bs pre 0 + 12 < n)
      (hbb : splitBb bs addr bb (toU32 (n - (cost bs pre 0 + 12 : ℕ))) = a :: rest) :
      Packs bs n l true (pre ++ [a]) (rest ++ post)
  /-- The block that does not fit is left. -/
  | whole {pre post : List BackedBlock} {bb : BackedBlock} (hblocks : l = pre ++ bb :: post)
      (hpre : pre ≠ []) (hfits : cost bs pre 0 ≤ n) (hfull : n < cost bs (pre ++ [bb]) 0)
      (hkeeps : n ≤ n / 8 + cost bs pre 0 + 12) : Packs bs n l true pre (bb :: post)

section

variable {env : Env} {max_len : UInt32} {src : SparseFile} {more : Bool}
  {done taken left : List BackedBlock}

/-- The scan of a pass that measures all blocks stops at the first at which the cost goes beyond the
budget. -/
theorem scan_cost (hbs : src.block_size ≠ 0) (hlt : src.block_size.toNat < 2 ^ 31)
    (hlen : ∀ c ∈ src.blocks, c.Countable) (hmeas : scan env src max_len ≠ .failed) :
    (scan env src max_len = .all src.blocks.getLast? ∧
        cost src.block_size src.blocks 0 ≤ budget max_len) ∨
      ∃ pre bb post, src.blocks = pre ++ bb :: post ∧
        cost src.block_size pre 0 ≤ budget max_len ∧
        budget max_len < cost src.block_size (pre ++ [bb]) 0 ∧
        scan env src max_len =
          .full pre.getLast? bb (cost src.block_size pre 0 + 12 : ℕ) := by
  have h := @scanBlocks_cost env src.block_size src.blocks hbs hlt hlen (max_len - overhead) none 0 0
    (Nat.zero_le _) (counterFile src.block_size src.len) rfl rfl
  simp only [Option.or_none, Nat.zero_add] at h
  exact h.resolve_left hmeas

/-- **Without failures** a pass is a step of the packing. -/
theorem Takes.packs (h : Takes env max_len src more taken left) (hl : Linked done src)
    (hbs : src.block_size ≠ 0) (hlt : src.block_size.toNat < 2 ^ 31)
    (hlen : ∀ c ∈ src.blocks, c.Countable) (hmeas : scan env src max_len ≠ .failed) :
    Packs src.block_size (budget max_len) src.blocks more taken left := by
  have hscan := scan_cost hbs hlt hlen hmeas
  have hnd : src.blocks.Nodup :=
    (hl.nodup.sublist ((List.sublist_append_right _ _).map _)).of_map
  -- The nodes before the one that does not fit are those that the scan has added up.
  have hfull : ∀ {pre post bb size}, src.blocks = pre ++ bb :: post →
      scan env src max_len = .full pre.getLast? bb size →
      cost src.block_size pre 0 ≤ budget max_len ∧
        budget max_len < cost src.block_size (pre ++ [bb]) 0 ∧
        size = (cost src.block_size pre 0 + 12 : ℕ) := by
    intro pre post bb size hblocks heq
    rcases hscan with ⟨hall, -⟩ | ⟨pre', bb', post', hblocks', h1, h2, h3⟩
    · rw [heq] at hall
      cases hall
    · rw [heq] at h3
      obtain ⟨-, rfl, hsize⟩ := MoveStop.full.inj h3
      rw [hblocks', List.nodup_middle] at hnd
      obtain ⟨hpre, hpost⟩ := not_or.mp (List.mem_append.not.mp (List.nodup_cons.mp hnd).1)
      obtain ⟨rfl, -⟩ := (List.append_cons_inj_of_notMem hpre hpost).mp (hblocks'.symm.trans hblocks)
      exact ⟨h1, h2, hsize⟩
  cases h with
  | refused hlarge => exact absurd hlarge (Nat.not_le.mpr hlt)
  | failed hfail => exact absurd hfail hmeas
  | all last hall =>
    rcases hscan with ⟨-, hfits⟩ | ⟨pre, bb, post, -, -, -, heq⟩
    · exact .all hfits
    · rw [hall] at heq
      cases heq
  | @split pre post rest bb a size hblocks heq hsplits hbb =>
    obtain ⟨hfits, hnot, rfl⟩ := hfull hblocks heq
    refine .split src.backed_block_list.next_addr hblocks hfits hnot ?_ hbb
    simp only [splits, Bool.or_eq_true, Option.isNone_iff_eq_none, List.getLast?_eq_none_iff,
      decide_eq_true_eq, UInt32.toNat_div] at hsplits
    have h8 : (8 : UInt32).toNat = 8 := rfl
    rw [h8] at hsplits
    unfold budget
    exact hsplits.imp id fun hlt => by omega
  | @whole pre post bb size hblocks hpre heq hsplits =>
    obtain ⟨hfits, hnot, rfl⟩ := hfull hblocks heq
    refine .whole hblocks hpre hfits hnot ?_
    simp only [splits, Bool.or_eq_true, Option.isNone_iff_eq_none, List.getLast?_eq_none_iff,
      decide_eq_true_eq, UInt32.toNat_div, not_or] at hsplits
    have h8 : (8 : UInt32).toNat = 8 := rfl
    rw [h8] at hsplits
    unfold budget
    omega

/-- A pass makes no block longer, and nothing of a fill but fills. -/
theorem Takes.len_le (h : Takes env max_len src more taken left) :
    ∀ c ∈ taken ++ left, ∃ bb ∈ src.blocks, c.len.toNat ≤ bb.len.toNat ∧
      ∀ v, bb.source = .fill v → c.source = .fill v := by
  have hself : ∀ c ∈ src.blocks, ∃ bb ∈ src.blocks, c.len.toNat ≤ bb.len.toNat ∧
      ∀ v, bb.source = .fill v → c.source = .fill v :=
    fun c hc => ⟨c, hc, Nat.le_refl _, fun _ => id⟩
  cases h with
  | refused => exact hself
  | failed => exact hself
  | all => rw [List.append_nil]; exact hself
  | whole hblocks => rw [← hblocks]; exact hself
  -- Only the block that is split changes: both parts are no longer than it, and of its kind.
  | @split pre post rest bb a size hblocks hscan hsplits hbb =>
    obtain ⟨hsum, -, -⟩ := splitBb_len hbb
    have hparts : ∀ c ∈ rest, c.len.toNat ≤ totalLen rest := fun c hc =>
      List.single_le_sum (fun _ _ => Nat.zero_le _) _ (List.mem_map_of_mem hc)
    have hfill : ∀ c ∈ a :: rest, ∀ v, bb.source = .fill v → c.source = .fill v := by
      intro c hc v hv
      rcases splitBb_cases hbb with ⟨-, rfl, rfl⟩ | ⟨-, rfl, rfl⟩
      · rw [List.mem_singleton.mp hc, hv]
      · rcases List.mem_cons.mp hc with rfl | hc
        · exact hv
        · rw [List.mem_singleton.mp hc, hv]
          rfl
    intro c hc
    rw [hblocks] at hself ⊢
    simp only [List.append_assoc, List.singleton_append, List.mem_append, List.mem_cons] at hc hself
    rcases hc with hc | rfl | hc | hc
    · exact ⟨c, by simp [hc], Nat.le_refl _, fun _ => id⟩
    · exact ⟨bb, by simp, by omega, hfill _ List.mem_cons_self⟩
    · have := hparts c hc
      exact ⟨bb, by simp, by omega, hfill c (List.mem_cons_of_mem _ hc)⟩
    · exact ⟨c, by simp [hc], Nat.le_refl _, fun _ => id⟩

/-- The blocks that a pass takes and leaves are countable when those that it has are. -/
theorem Takes.countable (h : Takes env max_len src more taken left)
    (hlen : ∀ c ∈ src.blocks, c.Countable) : ∀ c ∈ taken ++ left, c.Countable := by
  intro c hc
  obtain ⟨bb, hbb, hle, hfill⟩ := h.len_le c hc
  exact (hlen bb hbb).imp (fun ⟨v, hv⟩ => ⟨v, hfill v hv⟩) fun hlt => hle.trans_lt hlt

/-- **Along a run** the blocks of the pieces and of the rest stay countable. -/
theorem Run.countable {in_s mid : SparseFile} {ss : List SparseFile} (hl : Linked [] in_s)
    (hlen : ∀ c ∈ in_s.blocks, c.Countable) (h : Run env max_len in_s ss mid more) :
    ∀ c ∈ ss.flatMap SparseFile.blocks ++ mid.blocks, c.Countable := by
  induction h with
  | start => exact hlen
  | @step ss mid mid' s more run pass ih =>
    obtain ⟨-, htakes, -⟩ := moveChunksUpToLen_takes (run.linked hl).1 pass
    have hnew := htakes.countable fun c hc => ih c (List.mem_append_right _ hc)
    rw [List.flatMap_append, List.flatMap_singleton, List.append_assoc]
    intro c hc
    rcases List.mem_append.mp hc with hc | hc
    · exact ih c (List.mem_append_left _ hc)
    · exact hnew c hc

/-- **Along a run** the blocks of the pieces and of the rest stay short. -/
theorem Run.short {in_s mid : SparseFile} {ss : List SparseFile} {n : ℕ} (hl : Linked [] in_s)
    (hlen : ∀ c ∈ in_s.blocks, c.len.toNat < n) (h : Run env max_len in_s ss mid more) :
    (∀ s ∈ ss, ∀ c ∈ s.blocks, c.len.toNat < n) ∧ ∀ c ∈ mid.blocks, c.len.toNat < n := by
  induction h with
  | start => exact ⟨fun _ h => (nomatch h), hlen⟩
  | @step ss mid mid' s more run pass ih =>
    obtain ⟨-, htakes, -⟩ := moveChunksUpToLen_takes (run.linked hl).1 pass
    have hle : ∀ c ∈ s.blocks ++ mid'.blocks, c.len.toNat < n := fun c hc => by
      obtain ⟨bb, hbb, hle, -⟩ := htakes.len_le c hc
      exact hle.trans_lt (ih.2 bb hbb)
    refine ⟨fun q hq => ?_, fun c hc => hle c (List.mem_append_right _ hc)⟩
    rcases List.mem_append.mp hq with hq | hq
    · exact ih.1 q hq
    · rw [List.mem_singleton.mp hq]
      exact fun c hc => hle c (List.mem_append_left _ hc)

/-- A piece that there is room for was made by one of the first passes. -/
theorem Run.pass_of_mem {in_s mid s : SparseFile} {ss : List SparseFile} {count : ℕ}
    (h : Run env max_len in_s ss mid more) (hs : s ∈ ss.take count) :
    ∃ ss' mid' more' mid'', Run env max_len in_s ss' mid' true ∧ ss'.length < count ∧
      moveChunksUpToLen env mid' (sparseFileNew mid'.block_size mid'.len) max_len =
        .ok (more', mid'', s) := by
  induction h with
  | start => rw [List.take_nil] at hs; cases hs
  | @step ss mid mid' q more run pass ih =>
    rw [List.take_append] at hs
    rcases List.mem_append.mp hs with hs | hs
    · exact ih hs
    · have hlt : ss.length < count := by
        by_contra hle
        rw [Nat.sub_eq_zero_of_le (Nat.not_lt.mp hle), List.take_zero] at hs
        cases hs
      rw [List.mem_singleton.mp (List.mem_of_mem_take hs)]
      exact ⟨ss, mid, more, mid', run, hlt, pass⟩

end

end AmlogicToolkit.Simg
