import AmlogicToolkit.Simg.Partition
import AmlogicToolkit.Simg.Sizes

/-!
# The dry run

`simg2simg` calls `sparse_file_resparse` twice: the first call counts the pieces and puts all blocks
back in one list, the second one makes them. The list that the second call starts from has been cut
where the pieces end. A pass of it takes the piece of the first call, and at most a block of no bytes
more: what follows a cut did not fit, and neither does its first part, because less than a block of
room was left (`Packs.replay`). So both calls make as many pieces, as long as the counter counts the
bytes of every block right and every split leaves its parts where they were
(`dry_run_predicts_iff`).
-/

namespace AmlogicToolkit.Simg

open Bytes Extents

/-! ## Blocks up to their addresses -/

/-- What a block is, wherever its node lies. -/
def BackedBlock.body (bb : BackedBlock) : UInt32 × UInt32 × BlockSource := (bb.block, bb.len, bb.source)

section

variable {bs last : UInt32} {n : ℕ} {a b bb bb' : BackedBlock} {l m taken left : List BackedBlock}
  {more : Bool}

/-- Two nodes have the same body when they agree in block, length and source. -/
theorem body_eq_iff : a.body = b.body ↔ a.block = b.block ∧ a.len = b.len ∧ a.source = b.source := by
  simp only [BackedBlock.body, Prod.mk.injEq]

/-- The size of a chunk depends on the body of its node only. -/
theorem chunkSize_congr (h : a.body = b.body) : chunkSize bs a = chunkSize bs b := by
  obtain ⟨-, hlen, hsource⟩ := body_eq_iff.mp h
  unfold chunkSize
  rw [hlen, hsource]

/-- The sizes do not depend on the addresses. -/
theorem cost_congr (h : l.map BackedBlock.body = m.map BackedBlock.body) (last : UInt32) :
    cost bs l last = cost bs m last := by
  induction l generalizing m last with
  | nil =>
    obtain rfl := List.map_eq_nil_iff.mp h.symm
    rfl
  | cons a l ih =>
    obtain ⟨b, m', rfl, hb, hm⟩ := List.map_eq_cons_iff.mp h.symm
    obtain ⟨hblock, hlen, -⟩ := body_eq_iff.mp hb
    rw [cost, cost, ih hm.symm, chunkSize_congr hb, gapSize, gapSize, hblock, hlen]

/-- Neither do the parts of a node that is split. -/
theorem splitBb_bodies (h : a.body = b.body) (addr addr' : ℕ) (r : UInt32) :
    (splitBb bs addr a r).map BackedBlock.body = (splitBb bs addr' b r).map BackedBlock.body := by
  obtain ⟨hblock, hlen, hsource⟩ := body_eq_iff.mp h
  unfold splitBb
  dsimp only
  rw [hlen]
  split_ifs
  · rw [List.map_singleton, List.map_singleton, h]
  · simp only [List.map_cons, List.map_nil, BackedBlock.body, hblock, hsource]

/-- **A step of the packing** does not depend on the addresses either. -/
theorem Packs.congr (h : Packs bs n l more taken left)
    (hb : l.map BackedBlock.body = m.map BackedBlock.body) :
    ∃ taken' left', Packs bs n m more taken' left' ∧
      left.map BackedBlock.body = left'.map BackedBlock.body := by
  -- The list cut at the block that does not fit.
  have hcut : ∀ {pre post : List BackedBlock} {bb : BackedBlock}, l = pre ++ bb :: post →
      ∃ pre' bb' post', m = pre' ++ bb' :: post' ∧
        pre.map BackedBlock.body = pre'.map BackedBlock.body ∧ bb.body = bb'.body ∧
          post.map BackedBlock.body = post'.map BackedBlock.body := by
    rintro pre post bb rfl
    rw [List.map_append, List.map_cons] at hb
    obtain ⟨pre', rest, rfl, h1, h2⟩ := List.map_eq_append_iff.mp hb.symm
    obtain ⟨bb', post', rfl, h3, h4⟩ := List.map_eq_cons_iff.mp h2
    exact ⟨pre', bb', post', rfl, h1.symm, h3.symm, h4.symm⟩
  have hconcat : ∀ {pre pre' : List BackedBlock} {bb bb' : BackedBlock},
      pre.map BackedBlock.body = pre'.map BackedBlock.body → bb.body = bb'.body →
      cost bs (pre ++ [bb]) 0 = cost bs (pre' ++ [bb']) 0 := fun h1 h2 =>
    cost_congr (by rw [List.map_append, List.map_append, h1, List.map_singleton, h2]; rfl) 0
  cases h with
  | all hfits => exact ⟨m, [], .all (cost_congr hb 0 ▸ hfits), rfl⟩
  | @split pre post rest bb a addr hblocks hfits hfull hsplits hbb =>
    obtain ⟨pre', bb', post', hm, h1, h2, h3⟩ := hcut hblocks
    have hcost := @cost_congr bs _ _ h1 0
    have hparts := @splitBb_bodies bs _ _ h2 addr addr (toU32 (n - (cost bs pre 0 + 12 : ℕ)))
    rw [hbb, hcost] at hparts
    obtain ⟨a', rest', hbb', -, hrest⟩ := List.map_eq_cons_iff.mp hparts.symm
    refine ⟨pre' ++ [a'], rest' ++ post', .split addr hm (hcost ▸ hfits) (hconcat h1 h2 ▸ hfull)
      (hsplits.imp (fun h0 => ?_) fun h0 => hcost ▸ h0) hbb', ?_⟩
    · rw [h0] at h1
      exact List.map_eq_nil_iff.mp h1.symm
    · rw [List.map_append, List.map_append, hrest, h3]
  | @whole pre post bb hblocks hpre hfits hfull hkeeps =>
    obtain ⟨pre', bb', post', hm, h1, h2, h3⟩ := hcut hblocks
    have hcost := @cost_congr bs _ _ h1 0
    refine ⟨pre', bb' :: post', .whole hm (fun h0 => hpre ?_) (hcost ▸ hfits)
      (hconcat h1 h2 ▸ hfull) (hcost ▸ hkeeps), ?_⟩
    · rw [h0] at h1
      exact List.map_eq_nil_iff.mp h1
    · rw [List.map_cons, List.map_cons, h2, h3]

end

/-! ## Where the parts of a split lie -/

/-- **A pass splits in place**: when it splits a block, the second part starts below block `2^32`, and
not behind the start of the next block. -/
structure SplitsInPlace (env : Env) (max_len : UInt32) (src : SparseFile) : Prop where
  /-- No number wraps. -/
  numbers : KeepsNumbers env max_len src
  /-- The parts are in order with the blocks behind them. -/
  order : ∀ bb post len, SplitsOff env max_len src bb post len →
    ∀ c ∈ post, bb.block.toNat + len.toNat / src.block_size.toNat ≤ c.block.toNat

section

variable {env : Env} {max_len : UInt32} {in_s mid src : SparseFile} {ss : List SparseFile}
  {more : Bool} {done taken left : List BackedBlock}

/-- **Blocks that do not overlap** are split in place when no number wraps. -/
theorem KeepsNumbers.inPlace (h : KeepsNumbers env max_len src)
    (hd : Disjoint src.block_size src.blocks) : SplitsInPlace env max_len src := by
  refine ⟨h, fun bb post m hsplit c hc => ?_⟩
  obtain ⟨-, pre, size, hblocks, -, -, hm, hlt⟩ := hsplit
  rw [hblocks] at hd
  have hbefore := (List.pairwise_cons.mp (List.pairwise_append.mp hd).2.1).1 c hc
  rw [Before, BackedBlock.extent_stop, BackedBlock.extent_start] at hbefore
  have hle : m.toNat / src.block_size.toNat * src.block_size.toNat ≤ m.toNat :=
    Nat.div_mul_le_self _ _
  rw [UInt32.lt_iff_toNat_lt] at hlt
  refine Nat.le_of_mul_le_mul_right (?_ : _ * src.block_size.toNat ≤ _ * src.block_size.toNat) ?_
  · rw [Nat.add_mul]
    omega
  · exact Nat.pos_of_ne_zero fun h0 => by
      rw [h0, Nat.mul_zero, Nat.mul_zero] at hbefore
      omega

/-- **A pass that splits in place** keeps the blocks in order. -/
theorem Takes.order (h : Takes env max_len src more taken left)
    (hlarge : src.block_size.toNat < 2 ^ 31) (hplace : SplitsInPlace env max_len src)
    (horder : (done ++ src.blocks).Pairwise fun a b => a.block ≤ b.block) :
    (done ++ (taken ++ left)).Pairwise fun a b => a.block ≤ b.block := by
  cases h with
  | refused => exact horder
  | failed => exact horder
  | all => rwa [List.append_nil]
  | whole hblocks => rwa [hblocks] at horder
  | @split pre post rest bb a size hblocks hscan hsplits hbb =>
    have hcat : done ++ (pre ++ [a] ++ (rest ++ post)) = done ++ pre ++ a :: (rest ++ post) := by
      simp
    rw [hblocks, ← List.append_assoc] at horder
    rw [hcat]
    rcases splitBb_cases hbb with ⟨-, rfl, rfl⟩ | ⟨hcut, rfl, rfl⟩
    · exact horder
    · have hsplit : SplitsOff env max_len src bb post _ :=
        ⟨hlarge, pre, size, hblocks, hscan, hsplits, rfl, hcut⟩
      have hnumber := hplace.numbers bb post _ hsplit
      have hnext := hplace.order bb post _ hsplit
      generalize alignDown (toU32 ((max_len - overhead).toNat - size)) src.block_size = m at *
      -- The number of the second part.
      have hsecond : (bb.block + m / src.block_size).toNat =
          bb.block.toNat + m.toNat / src.block_size.toNat := by
        rw [UInt32.toNat_add, UInt32.toNat_div]
        exact Nat.mod_eq_of_lt hnumber
      have hfirst : bb.block ≤ bb.block + m / src.block_size := by
        rw [UInt32.le_iff_toNat_le, hsecond]
        exact Nat.le_add_right _ _
      obtain ⟨hpre, hpost, hcross⟩ := List.pairwise_append.mp horder
      obtain ⟨hbehind, hpost⟩ := List.pairwise_cons.mp hpost
      refine List.pairwise_append.mpr ⟨hpre, List.pairwise_cons.mpr ⟨fun c hc => ?_,
        List.pairwise_cons.mpr ⟨fun c hc => ?_, hpost⟩⟩, fun c hc d hd => ?_⟩
      · rcases List.mem_cons.mp hc with rfl | hc
        · exact hfirst
        · exact hbehind c hc
      · rw [UInt32.le_iff_toNat_le, hsecond]
        exact hnext c hc
      · have hcbb := hcross c hc bb List.mem_cons_self
        rcases List.mem_cons.mp hd with rfl | hd
        · exact hcbb
        · rcases List.mem_cons.mp hd with rfl | hd
          · exact UInt32.le_trans hcbb hfirst
          · exact hcross c hc d (List.mem_cons_of_mem _ hd)

/-- **Along a run** whose passes split in place, the pieces and the rest are in order. -/
theorem Run.order (hl : Linked [] in_s) (horder : in_s.blocks.Pairwise fun a b => a.block ≤ b.block)
    (hplace : ∀ ss mid, Run env max_len in_s ss mid true → SplitsInPlace env max_len mid)
    (h : Run env max_len in_s ss mid more) :
    (ss.flatMap SparseFile.blocks ++ mid.blocks).Pairwise fun a b => a.block ≤ b.block := by
  induction h with
  | start => exact horder
  | @step ss mid mid' s more run pass ih =>
    obtain ⟨hlink, -⟩ := run.linked hl
    obtain ⟨-, htakes, -⟩ := moveChunksUpToLen_takes hlink pass
    rw [List.flatMap_append, List.flatMap_singleton, List.append_assoc]
    by_cases hlarge : 2 ^ 31 ≤ mid.block_size.toNat
    · rw [moveChunksUpToLen_large hlarge] at pass
      cases pass
      exact ih
    · exact htakes.order (Nat.not_le.mp hlarge) (hplace ss mid run) ih

/-- **Along a run** over blocks that do not overlap, the passes split in place when no number wraps. -/
theorem Run.splitsInPlace (hl : Linked [] in_s) (hd : Disjoint in_s.block_size in_s.blocks)
    (hkeeps : ∀ ss mid, Run env max_len in_s ss mid true → KeepsNumbers env max_len mid)
    (h : Run env max_len in_s ss mid true) : SplitsInPlace env max_len mid := by
  obtain ⟨hdisj, -⟩ := h.partition hl fun ss' mid' h' _ => hkeeps ss' mid' h'
  have hmid := (List.pairwise_append.mp (hdisj hd)).2.1
  rw [← (h.linked hl).2.1] at hmid
  exact (hkeeps ss mid h).inPlace hmid

end

/-! ## Replaying a pass -/

/-- The first block `x` of a piece, when the pass finds `y` first: `y` itself, or a part of it, of one
block or more, that leaves less than a block of the budget. -/
def StartsWith (bs : UInt32) (n : ℕ) (y x : BackedBlock) : Prop :=
  x = y ∨ (x = { y with len := x.len } ∧ x.len.toNat < y.len.toNat ∧
    (12 ≤ n → bs.toNat ≤ x.len.toNat ∧ x.len.toNat + 12 ≤ n ∧ n < x.len.toNat + bs.toNat + 12))

/-- What the following passes take of the blocks that a pass leaves: nothing when there are none, and
else a list that starts with the first one or a part of it. -/
def Follows (bs : UInt32) (n : ℕ) (left w : List BackedBlock) : Prop :=
  left = [] ∧ w = [] ∨ ∃ y left' x u, left = y :: left' ∧ w = x :: u ∧ StartsWith bs n y x

section

variable {bs : UInt32} {n : ℕ} {x y bb : BackedBlock} {l pre u w taken left taken' left' : List BackedBlock}
  {more : Bool}

/-- The chunk of a fill has one size, and that of any other block has its bytes in whole blocks. -/
theorem chunkSize_cases (bs : UInt32) (bb : BackedBlock) :
    (∀ m, chunkSize bs { bb with len := m } = 16) ∨
      ∀ m, chunkSize bs { bb with len := m } = 12 + padded bs.toNat m.toNat := by
  unfold chunkSize
  cases bb.source with
  | fill w => exact Or.inl fun _ => rfl
  | data p => exact Or.inr fun _ => rfl
  | file f o => exact Or.inr fun _ => rfl
  | fd f o => exact Or.inr fun _ => rfl

/-- The size does not depend on where in its source a block starts. -/
theorem chunkSize_advance (bs : UInt32) (bb : BackedBlock) (addr k : ℕ) (block len : UInt32) :
    chunkSize bs ⟨addr, block, len, bb.source.advance k⟩ = chunkSize bs { bb with len } := by
  unfold chunkSize
  cases bb.source <;> rfl

/-- When all blocks fit, nothing is left. -/
theorem Packs.of_fits (h : Packs bs n l more taken left) (hfits : cost bs l 0 ≤ n) :
    more = false ∧ left = [] ∧ taken = l := by
  have hnot : ∀ {pre post : List BackedBlock} {bb : BackedBlock}, l = pre ++ bb :: post →
      n < cost bs (pre ++ [bb]) 0 → False := by
    rintro pre post bb rfl hfull
    have hcat : pre ++ bb :: post = pre ++ [bb] ++ post := by simp
    rw [hcat, cost_append] at hfits
    omega
  cases h with
  | all => exact ⟨rfl, rfl, rfl⟩
  | split addr hblocks _ hfull => exact (hnot hblocks hfull).elim
  | whole hblocks _ _ hfull => exact (hnot hblocks hfull).elim

/-- The last pass takes all blocks, which fit. -/
theorem Packs.of_last (h : Packs bs n l false taken left) : cost bs l 0 ≤ n ∧ taken = l := by
  generalize hmore : false = b at h
  cases h with
  | all hfits => exact ⟨hfits, rfl⟩
  | split => cases hmore
  | whole => cases hmore

/-- When they do not, the pass stops at the block that does not fit, and splits it or leaves it. -/
theorem Packs.of_full (h : Packs bs n l more taken left) (hl : l = pre ++ x :: u)
    (hfits : cost bs pre 0 ≤ n) (hfull : n < cost bs (pre ++ [x]) 0) :
    more = true ∧
      (((pre = [] ∨ n / 8 + cost bs pre 0 + 12 < n) ∧ ∃ addr a rest,
          splitBb bs addr x (toU32 (n - (cost bs pre 0 + 12 : ℕ))) = a :: rest ∧
            left = rest ++ u) ∨
        (pre ≠ [] ∧ n ≤ n / 8 + cost bs pre 0 + 12 ∧ left = x :: u)) := by
  cases h with
  | all hall =>
    have hcat : l = pre ++ [x] ++ u := by rw [hl]; simp
    rw [hcat, cost_append] at hall
    omega
  | split addr hblocks hfits' hfull' hsplits hbb =>
    obtain ⟨rfl, rfl, rfl⟩ := cost_stop_unique (hblocks.symm.trans hl) hfits' hfull' hfits hfull
    exact ⟨rfl, Or.inl ⟨hsplits, addr, _, _, hbb, rfl⟩⟩
  | whole hblocks hpre hfits' hfull' hkeeps =>
    obtain ⟨rfl, rfl, rfl⟩ := cost_stop_unique (hblocks.symm.trans hl) hfits' hfull' hfits hfull
    exact ⟨rfl, Or.inr ⟨hpre, hkeeps, rfl⟩⟩

/-- **The first block of a piece**, when the pass is not stuck. -/
theorem Packs.first (h : Packs bs n (y :: l) more taken left) (hbs : bs ≠ 0) (hn : n < 2 ^ 32)
    (hfree : y.len ≠ 0 → n < cost bs [y] 0 → bs ≤ toU32 ((n : ℤ) - 12)) :
    ∃ x t, taken = x :: t ∧ StartsWith bs n y x := by
  have hpos := toNat_pos_of_ne_zero hbs
  generalize hl : y :: l = l' at h
  cases h with
  | all => exact ⟨y, l, hl.symm, Or.inl rfl⟩
  | @whole pre post bb hblocks hpre =>
    obtain ⟨c, pre', rfl⟩ := List.exists_cons_of_ne_nil hpre
    rw [hblocks] at hl
    obtain ⟨rfl, -⟩ := List.cons.inj hl
    exact ⟨y, pre', rfl, Or.inl rfl⟩
  | @split pre post rest bb a addr hblocks hfits hfull hsplits hbb =>
    rw [hblocks] at hl
    cases pre with
    | cons c pre' =>
      obtain ⟨rfl, -⟩ := List.cons.inj hl
      exact ⟨y, pre' ++ [a], rfl, Or.inl rfl⟩
    | nil =>
      obtain ⟨rfl, rfl⟩ := List.cons.inj hl
      -- The first block itself is split.
      refine ⟨a, [], rfl, ?_⟩
      have hroom : toU32 ((n : ℤ) - (cost bs [] 0 + 12 : ℕ)) = toU32 ((n : ℤ) - 12) := rfl
      rw [hroom] at hbb
      generalize hr : toU32 ((n : ℤ) - 12) = r at hfree hbb
      have hdown := alignDown_toNat r bs
      rcases splitBb_cases hbb with ⟨-, ha, -⟩ | ⟨hcut, rfl, -⟩
      · exact Or.inl ha
      · rw [UInt32.lt_iff_toNat_lt] at hcut
        refine Or.inr ⟨rfl, hcut, fun h12 => ?_⟩
        have hne : y.len ≠ 0 := ne_zero_of_toNat_pos (Nat.zero_lt_of_lt hcut)
        have hbr := UInt32.le_iff_toNat_le.mp (hfree hne hfull)
        have hrn : r.toNat = n - 12 := by
          rw [← hr]
          exact toU32_room (c := 12) hn h12
        have hdiv := Nat.div_add_mod r.toNat bs.toNat
        have hmod := Nat.mod_lt r.toNat hpos
        have hone : bs.toNat * 1 ≤ bs.toNat * (r.toNat / bs.toNat) :=
          Nat.mul_le_mul_left _ (Nat.div_pos hbr hpos)
        dsimp only
        omega

/-- A block that is no longer than what is taken is not split. -/
theorem splitBb_self {addr : ℕ} {r : UInt32} {a : BackedBlock} {rest : List BackedBlock}
    (h : splitBb bs addr x r = a :: rest) (hle : x.len ≤ alignDown r bs) : rest = [] := by
  obtain ⟨-, -, hrest⟩ | ⟨hcut, -, -⟩ := splitBb_cases h
  · exact hrest
  · exact absurd hcut (UInt32.not_lt.mpr hle)

/-- With less than a block of room a block of no bytes is split off. -/
theorem splitBb_empty {addr : ℕ} {r : UInt32} {a : BackedBlock} {rest : List BackedBlock}
    (h : splitBb bs addr x r = a :: rest) (hr : alignDown r bs = 0) (hne : x.len ≠ 0) :
    rest.map BackedBlock.body = [x.body] := by
  have hparts := splitBb_cases h
  rw [hr] at hparts
  obtain ⟨h0, -⟩ | ⟨-, -, rfl⟩ := hparts
  · exact absurd (UInt32.le_zero_iff.mp h0) hne
  simp only [List.map_cons, List.map_nil, BackedBlock.body, UInt32.zero_div, UInt32.add_zero,
    UInt32.sub_zero, UInt32.toNat_zero, BlockSource.advance_zero]

/-- When at most an eighth of the budget is left, the first part of a block that does not fit does not
fit either. -/
theorem StartsWith.full (h : StartsWith bs n y x) (hpos : 0 < bs.toNat) (hne : pre ≠ [])
    (hkeeps : n ≤ n / 8 + cost bs pre 0 + 12) (hfits : cost bs pre 0 ≤ n)
    (hfull : n < cost bs (pre ++ [y]) 0) :
    n < cost bs (pre ++ [x]) 0 := by
  rcases h with rfl | ⟨hx, -, hpart⟩
  · exact hfull
  · have htaken := twelve_le_cost bs 0 hne
    have hgap : gapSize (behind bs pre 0) x = gapSize (behind bs pre 0) y := by
      rw [hx]
      rfl
    rw [cost_concat] at hfull ⊢
    rw [hgap]
    rcases chunkSize_cases bs y with hfill | hdata
    · rw [hx, hfill]
      exact hfill y.len ▸ hfull
    · have hle := le_padded (n := x.len.toNat) hpos
      have hchunk := hdata x.len
      rw [← hx] at hchunk
      omega

/-- The first part of a block that is not a fill and not empty takes a block or more. -/
theorem StartsWith.chunkSize_le (h : StartsWith bs n y x) (hpos : 0 < bs.toNat) (hn : 12 ≤ n)
    (hy : y.len.toNat ≠ 0)
    (hdata : ∀ m, chunkSize bs { y with len := m } = 12 + padded bs.toNat m.toNat) :
    12 + bs.toNat ≤ chunkSize bs x ∧ x.len ≠ 0 := by
  have hxlen : x.len.toNat ≠ 0 := by
    rcases h with rfl | ⟨-, -, hpart⟩
    · exact hy
    · have := (hpart hn).1
      omega
  have hsize : chunkSize bs x = 12 + padded bs.toNat x.len.toNat := by
    rcases h with rfl | ⟨hx, -, -⟩
    · exact hdata x.len
    · rw [hx, hdata]
  have := bs_le_padded hpos hxlen
  exact ⟨by omega, fun h0 => hxlen (by rw [h0]; rfl)⟩

/-- **Behind a cut** that fits, less than a block is left of the budget: what takes a block or more does
not fit, and no part of it does. -/
theorem cut_full (hbs : bs ≠ 0) (hn : n < 2 ^ 32) {bb : BackedBlock} {r : UInt32}
    (hr : toU32 ((n : ℤ) - (cost bs pre 0 + 12 : ℕ)) = r)
    (hdata : ∀ m, chunkSize bs { bb with len := m } = 12 + padded bs.toNat m.toNat)
    (hfit : cost bs (pre ++ [{ bb with len := alignDown r bs }]) 0 ≤ n)
    (hx : 12 + bs.toNat ≤ chunkSize bs x) :
    n < cost bs (pre ++ [{ bb with len := alignDown r bs }] ++ [x]) 0 ∧
      (cost bs (pre ++ [{ bb with len := alignDown r bs }]) 0 + 12 ≤ n →
        alignDown (toU32 ((n : ℤ) -
          (cost bs (pre ++ [{ bb with len := alignDown r bs }]) 0 + 12 : ℕ))) bs = 0) := by
  have hpos := toNat_pos_of_ne_zero hbs
  have hdown := alignDown_toNat r bs
  have hpad : padded bs.toNat (alignDown r bs).toNat = (alignDown r bs).toNat :=
    padded_eq hpos (hdown ▸ Nat.dvd_mul_right _ _)
  -- The part of whole blocks costs a gap, a header and its own length.
  have hcost : cost bs (pre ++ [{ bb with len := alignDown r bs }]) 0 =
      cost bs pre 0 + (gapSize (behind bs pre 0) { bb with len := alignDown r bs } +
        (12 + (alignDown r bs).toNat)) := by
    rw [cost_concat, hdata, hpad, Nat.add_assoc]
  have hroom : r.toNat = n - (cost bs pre 0 + 12) := by
    rw [← hr]
    exact toU32_room hn (by omega)
  have hdiv := Nat.div_add_mod r.toNat bs.toNat
  have hmod := Nat.mod_lt r.toNat hpos
  constructor
  · rw [cost_concat, hcost]
    omega
  · -- What is left behind it is less than a block.
    intro hle
    rw [alignDown_eq_zero hbs, UInt32.lt_iff_toNat_lt, toU32_room hn hle, hcost]
    omega

/-- **Replaying a pass**: on the blocks that it has taken and what the following passes take of the
rest, a pass leaves the latter. -/
theorem Packs.replay (h : Packs bs n l true taken left) (hw : Follows bs n left w) (hbs : bs ≠ 0)
    (hn : n < 2 ^ 32) (h' : Packs bs n (taken ++ w) more taken' left') :
    more = true ∧ left'.map BackedBlock.body = w.map BackedBlock.body := by
  have hpos := toNat_pos_of_ne_zero hbs
  generalize hmore : true = b at h
  cases h with
  | all => cases hmore
  | @whole _ post bb hblocks hpre hfits hfull hkeeps =>
    obtain ⟨hnil, -⟩ | ⟨y, left1, x, u, hcons, rfl, hstart⟩ := hw
    · cases hnil
    obtain ⟨rfl, rfl⟩ := List.cons.inj hcons
    have hfull' := hstart.full hpos hpre hkeeps hfits hfull
    obtain ⟨rfl, h1 | ⟨-, -, rfl⟩⟩ := h'.of_full rfl hfits hfull'
    · rcases h1.1 with h0 | h0
      · exact absurd h0 hpre
      · omega
    · exact ⟨rfl, rfl⟩
  | @split pre post rest bb a addr hblocks hfits hfull hsplits hbb =>
    have hcat : ∀ v, pre ++ [a] ++ v = pre ++ a :: v := fun v => by simp
    rw [hcat] at h'
    -- A pass that stops at the first part again takes it whole.
    have hagain : n < cost bs (pre ++ [a]) 0 →
        a.len ≤ alignDown (toU32 (n - (cost bs pre 0 + 12 : ℕ))) bs →
          more = true ∧ left'.map BackedBlock.body = w.map BackedBlock.body := by
      intro hfull' hle
      obtain ⟨rfl, ⟨-, addr', a', rest', hbb', rfl⟩ | ⟨hpre, hkeeps, -⟩⟩ := h'.of_full rfl hfits hfull'
      · rw [splitBb_self hbb' hle]
        exact ⟨rfl, rfl⟩
      · rcases hsplits with h0 | h0
        · exact absurd h0 hpre
        · omega
    generalize hr : toU32 ((n : ℤ) - (cost bs pre 0 + 12 : ℕ)) = r at hagain hbb
    rcases splitBb_cases hbb with ⟨hle, rfl, rfl⟩ | ⟨hcut, rfl, rfl⟩
    · exact hagain hfull hle
    · by_cases hfit : cost bs (pre ++ [{ bb with len := alignDown r bs }]) 0 ≤ n
      swap
      · exact hagain (Nat.not_le.mp hfit) (UInt32.le_refl _)
      obtain ⟨hnil, -⟩ | ⟨y, left1, x, u, hcons, rfl, hstart⟩ := hw
      · cases hnil
      obtain ⟨rfl, -⟩ := List.cons.inj hcons
      have hlen' : (bb.len - alignDown r bs).toNat = bb.len.toNat - (alignDown r bs).toNat :=
        UInt32.toNat_sub_of_le _ _ (UInt32.le_of_lt hcut)
      rw [UInt32.lt_iff_toNat_lt] at hcut
      rcases chunkSize_cases bs bb with hfill | hdata
      · -- A fill chunk takes what it took before the split.
        have hgap : gapSize (behind bs pre 0) { bb with len := alignDown r bs } =
          gapSize (behind bs pre 0) bb := rfl
        rw [cost_concat, hfill, hgap] at hfit
        rw [cost_concat, show chunkSize bs bb = 16 from hfill bb.len] at hfull
        omega
      -- What follows the first part takes a block or more.
      have htwelve : 12 ≤ n := by
        rw [cost_concat, hdata] at hfit
        omega
      have hx := hstart.chunkSize_le hpos htwelve (by dsimp only; omega)
        fun m => (chunkSize_advance bs bb _ _ _ m).trans (hdata m)
      obtain ⟨hfull', hzero⟩ := cut_full hbs hn hr hdata hfit hx.1
      have hcat' : pre ++ { bb with len := alignDown r bs } :: x :: u =
        pre ++ [{ bb with len := alignDown r bs }] ++ x :: u := by simp
      obtain ⟨rfl, ⟨hsplits', addr', a', rest', hbb', rfl⟩ | ⟨-, -, rfl⟩⟩ :=
        h'.of_full hcat' hfit hfull'
      · have hlast := hsplits'.resolve_left (by simp)
        rw [List.map_append, splitBb_empty hbb' (hzero (by omega)) hx.2]
        exact ⟨rfl, rfl⟩
      · exact ⟨rfl, rfl⟩

end

/-! ## Both calls -/

/-- **The rest of a run**: the passes from a file on, and their pieces. -/
inductive Rest (env : Env) (max_len : UInt32) : SparseFile → List SparseFile → Prop
  /-- The last pass. -/
  | last {src src' s : SparseFile}
      (pass : moveChunksUpToLen env src (sparseFileNew src.block_size src.len) max_len =
        .ok (false, src', s)) : Rest env max_len src [s]
  /-- A pass, and the passes after it. -/
  | more {src src' s : SparseFile} {ts : List SparseFile}
      (pass : moveChunksUpToLen env src (sparseFileNew src.block_size src.len) max_len =
        .ok (true, src', s)) (rest : Rest env max_len src' ts) : Rest env max_len src (s :: ts)

section

variable {env : Env} {max_len : UInt32} {in_s mid src s : SparseFile}
  {ss src_ss ts : List SparseFile}
  {more : Bool} {count fuel : ℕ}

/-- A run, and the rest of it. -/
theorem Run.append_rest (h : Run env max_len in_s ss mid true) (hr : Rest env max_len mid ts) :
    Rest env max_len in_s (ss ++ ts) := by
  generalize hb : true = b at h
  induction h generalizing ts with
  | start => exact hr
  | step run pass ih =>
    subst hb
    rw [List.append_assoc]
    exact ih (.more pass hr) rfl

/-- **A run that has ended**, from its first pass on. -/
theorem Run.rest (h : Run env max_len in_s ts mid false) : Rest env max_len in_s ts := by
  generalize hb : false = b at h
  cases h with
  | start => cases hb
  | step run pass =>
    subst hb
    exact run.append_rest (.last pass)

/-- What the simulation needs of a call: it goes through, measures all blocks, and counts them right. -/
structure Plain (env : Env) (max_len : UInt32) (in_s : SparseFile) : Prop where
  /-- The nodes lie at addresses of their own. -/
  linked : Linked [] in_s
  /-- The block size fits into an `int`. -/
  block_size : in_s.block_size.toNat < 2 ^ 31
  /-- The counter takes the bytes of the blocks for what they are. -/
  countable : ∀ bb ∈ in_s.blocks, bb.Countable
  /-- No block fails. -/
  measures : Measures env max_len in_s

/-- The blocks that a pass of a call finds are countable. -/
theorem Plain.countable_rest (h : Plain env max_len in_s) (run : Run env max_len in_s ss mid more) :
    ∀ bb ∈ mid.blocks, bb.Countable := fun bb hbb =>
  run.countable h.linked h.countable bb (List.mem_append_right _ hbb)

/-- **A pass of a call** is a step of the packing. -/
theorem Plain.packs (h : Plain env max_len in_s) (run : Run env max_len in_s ss src true)
    {src' : SparseFile}
    (pass : moveChunksUpToLen env src (sparseFileNew src.block_size src.len) max_len =
      .ok (more, src', s)) :
    in_s.block_size ≠ 0 ∧
      Packs in_s.block_size (budget max_len) src.blocks more s.blocks src'.blocks := by
  obtain ⟨hlink, hsize, -⟩ := run.linked h.linked
  obtain ⟨hbs, htakes, -⟩ := moveChunksUpToLen_takes hlink pass
  have hp := htakes.packs hlink hbs (hsize ▸ h.block_size) (h.countable_rest run) (h.measures _ _ run)
  rw [hsize] at hbs hp
  exact ⟨hbs, hp⟩

/-- A pass that is not stuck has room for a part of its first block, when that does not fit. -/
theorem Plain.room (h : Plain env max_len in_s) (run : Run env max_len in_s src_ss src true)
    (hbs : in_s.block_size ≠ 0) {y : BackedBlock} {l : List BackedBlock} (hl : src.blocks = y :: l)
    (hfree : ¬ Stuck env max_len src) (hfull : budget max_len < cost in_s.block_size [y] 0) :
    in_s.block_size ≤ toU32 ((budget max_len : ℤ) - 12) := by
  obtain ⟨-, hsize, -⟩ := run.linked h.linked
  have hroom : toU32 ((budget max_len : ℤ) - 12) = max_len - overhead - 12 := toU32_sub _ 12
  rw [hroom]
  by_contra hlt
  rw [UInt32.not_le] at hlt
  refine hfree ⟨hsize ▸ h.block_size, hsize ▸ hlt, ?_⟩
  rcases scan_cost (hsize ▸ hbs) (hsize ▸ h.block_size) (h.countable_rest run)
    (h.measures _ _ run) with ⟨-, hfits⟩ | ⟨pre, bb, post, hblocks, h1, h2, h3⟩
  · have hcat : src.blocks = [y] ++ l := hl
    rw [hcat, cost_append, hsize] at hfits
    omega
  · rw [hsize] at h1 h2
    have hcat : pre ++ bb :: post = [] ++ y :: l := hblocks.symm.trans hl
    obtain ⟨rfl, rfl, -⟩ := cost_stop_unique hcat h1 h2 (Nat.zero_le _) hfull
    exact ⟨bb, h3⟩

/-- **What the passes take** of the blocks of a file that is not stuck follows these blocks. -/
theorem Rest.follows (hrest : Rest env max_len src ts) (h : Plain env max_len in_s)
    (run : Run env max_len in_s src_ss src true)
    (hfree : (∀ c ∈ src.blocks.head?, c.len ≠ 0) → ¬ Stuck env max_len src) :
    Follows in_s.block_size (budget max_len) src.blocks (ts.flatMap SparseFile.blocks) := by
  -- The first pass takes nothing, or a list that starts as it has to.
  have hfirst : ∀ {more src' s}, moveChunksUpToLen env src
      (sparseFileNew src.block_size src.len) max_len = .ok (more, src', s) →
      (src.blocks = [] ∧ more = false ∧ s.blocks = []) ∨
        ∃ y l x t, src.blocks = y :: l ∧ s.blocks = x :: t ∧
          StartsWith in_s.block_size (budget max_len) y x := by
    intro more src' s pass
    obtain ⟨hbs, hp⟩ := h.packs run pass
    cases hl : src.blocks with
    | nil =>
      rw [hl] at hp
      obtain ⟨hmore, -, hs⟩ := hp.of_fits (Nat.zero_le _)
      exact Or.inl ⟨rfl, hmore, hs⟩
    | cons y l =>
      rw [hl] at hp
      obtain ⟨x, t, hs, hstart⟩ := hp.first hbs (UInt32.toNat_lt _) fun hne hfull =>
        h.room run hbs hl (hfree fun c hc => by
          rw [hl] at hc
          exact Option.some.inj hc ▸ hne) hfull
      exact Or.inr ⟨y, l, x, t, rfl, hs, hstart⟩
  cases hrest with
  | last pass =>
    rcases hfirst pass with ⟨h1, -, h2⟩ | ⟨y, l, x, t, h1, h2, h3⟩
    · exact Or.inl ⟨h1, by rw [List.flatMap_singleton, h2]⟩
    · exact Or.inr ⟨y, l, x, t, h1, by rw [List.flatMap_singleton, h2], h3⟩
  | more pass rest =>
    rcases hfirst pass with ⟨-, h1, -⟩ | ⟨y, l, x, t, h1, h2, h3⟩
    · cases h1
    · exact Or.inr ⟨y, l, x, _, h1, by rw [List.flatMap_cons, h2]; rfl, h3⟩

/-- A loop that returns makes a pass, and goes on when the pass says so. -/
theorem resparseLoop_pass {tmp : SparseFile} {out_s : List SparseFile} {c : ℕ}
    {r : SparseFile × SparseFile × List SparseFile × ℕ}
    (hr : resparseLoop env max_len count fuel src tmp out_s c = .ok r) :
    ∃ k more src' s tmp' out', moveChunksUpToLen env src
        (sparseFileNew src.block_size src.len) max_len = .ok (more, src', s) ∧
      (more = true → resparseLoop env max_len count k src' tmp' out' (c + 1) = .ok r) ∧
      (more = false → r = (src', tmp', out', c + 1)) := by
  cases fuel with
  | zero => cases hr
  | succ k =>
    rw [resparseLoop] at hr
    obtain ⟨⟨more, src', s⟩, hm, hr⟩ := Except.bind_ok_iff.mp hr
    cases more with
    | true => exact ⟨k, true, src', s, _, _, hm, fun _ => hr, fun h => Bool.noConfusion h⟩
    | false =>
      exact ⟨k, false, src', s, _, _, hm, fun h => Bool.noConfusion h,
        fun _ => (Except.ok.inj hr).symm⟩

/-- **The simulation.** A run that starts from the blocks that the passes of another one take ends
after as many passes, and leaves nothing. -/
theorem Rest.simulate {in_s' src' tmp : SparseFile} {ss' out_s : List SparseFile} {c : ℕ}
    (hrest : Rest env max_len src ts) (h : Plain env max_len in_s)
    (hfree : ∀ ss mid, Run env max_len in_s ss mid true →
      (∀ c ∈ mid.blocks.head?, c.len ≠ 0) → ¬ Stuck env max_len mid)
    (run : Run env max_len in_s src_ss src true) (h' : Plain env max_len in_s')
    (hbs : in_s'.block_size = in_s.block_size) (run' : Run env max_len in_s' ss' src' true)
    (hbody : src'.blocks.map BackedBlock.body =
      (ts.flatMap SparseFile.blocks).map BackedBlock.body)
    {r : SparseFile × SparseFile × List SparseFile × ℕ}
    (hr : resparseLoop env max_len count fuel src' tmp out_s c = .ok r) :
    r.1.blocks = [] ∧ r.2.2.2 = c + ts.length := by
  induction hrest generalizing src_ss ss' src' fuel tmp out_s c with
  -- The last pass took all that was left, so the pass of the other run does too.
  | last pass =>
    obtain ⟨-, hp⟩ := h.packs run pass
    obtain ⟨k, more', mid', s', tmp', out', pass', hmore, hlast⟩ := resparseLoop_pass hr
    obtain ⟨-, hp'⟩ := h'.packs run' pass'
    rw [hbs] at hp'
    rw [List.flatMap_singleton] at hbody
    obtain ⟨hfits, htaken⟩ := hp.of_last
    rw [htaken] at hbody
    obtain ⟨rfl, hnil, -⟩ := hp'.of_fits (cost_congr hbody 0 ▸ hfits)
    rw [hlast rfl]
    exact ⟨hnil, rfl⟩
  | @more src mid s ts pass rest ih =>
    obtain ⟨hbs0, hp⟩ := h.packs run pass
    obtain ⟨k, more', mid', s', tmp', out', pass', hmore, hlast⟩ := resparseLoop_pass hr
    obtain ⟨-, hp'⟩ := h'.packs run' pass'
    rw [hbs] at hp'
    -- A pass takes of the merged list what the first run took, and the rest is that of the next
    -- pass.
    have hfollows := rest.follows h (run.step pass) (hfree _ _ (run.step pass))
    rw [List.flatMap_cons] at hbody
    obtain ⟨taken', left', hp'', hleft⟩ := hp'.congr hbody
    obtain ⟨rfl, hw⟩ := hp.replay hfollows hbs0 (UInt32.toNat_lt _) hp''
    obtain ⟨h1, h2⟩ := ih (run.step pass) (run'.step pass') (hleft.trans hw) (hmore rfl)
    exact ⟨h1, by rw [h2, List.length_cons]; omega⟩

/-- A run that has ended has moved all blocks. -/
theorem Plain.moved (h : Plain env max_len in_s) (run : Run env max_len in_s ts mid false) :
    in_s.block_size ≠ 0 ∧ mid.blocks = [] := by
  generalize hb : false = b at run
  cases run with
  | start => cases hb
  | step run pass =>
    subst hb
    obtain ⟨hbs, hp⟩ := h.packs run pass
    obtain ⟨hfits, -⟩ := hp.of_last
    exact ⟨hbs, (hp.of_fits hfits).2.1⟩

/-- **What the first call leaves**: the blocks of its pieces, one behind the other, at addresses of
their own. -/
theorem dry_run_leaves (h : Plain env max_len in_s)
    (horder : in_s.blocks.Pairwise fun a b => a.block ≤ b.block)
    (hplace : ∀ ss mid, Run env max_len in_s ss mid true → SplitsInPlace env max_len mid)
    (run : Run env max_len in_s ts mid false) (hs : { mid with
      backed_block_list := (backedBlockListMove (overflow in_s 0 ts).backed_block_list
        mid.backed_block_list none none).2 } = s) :
    s.blocks = ts.flatMap SparseFile.blocks ∧ s.block_size = in_s.block_size ∧ Linked [] s ∧
      SameMap in_s.block_size in_s.blocks s.blocks := by
  obtain ⟨hlink, hsize, -⟩ := run.linked h.linked
  obtain ⟨-, hsame⟩ := run.partition h.linked fun ss mid hrun _ => (hplace ss mid hrun).numbers
  have horder' := run.order h.linked horder hplace
  obtain ⟨hbs, hmoved⟩ := h.moved run
  rw [hmoved, List.append_nil] at hsame horder'
  -- Nothing is left, so the pieces put back are the whole list, in order.
  have htmp : (overflow in_s 0 ts).blocks = ts.flatMap SparseFile.blocks := by
    have h0 := @take_overflow_blocks in_s ts 0 horder'
    rw [List.take_zero, List.flatMap_nil, List.nil_append] at h0
    exact h0
  have hcat : mid.backed_block_list.data_blocks ++
      (overflow in_s 0 ts).backed_block_list.data_blocks = ts.flatMap SparseFile.blocks := by
    change mid.blocks ++ (overflow in_s 0 ts).blocks = _
    rw [hmoved, htmp, List.nil_append]
  obtain ⟨hblocks, hnext⟩ := @backedBlockListMove_append (overflow in_s 0 ts).backed_block_list
    mid.backed_block_list (hcat ▸ horder')
  have hnd := hlink.nodup
  have hfresh := hlink.fresh
  rw [hmoved, List.append_nil] at hnd hfresh
  have hsb : s.blocks = ts.flatMap SparseFile.blocks := by
    rw [← hs, ← hcat, ← hblocks]
    rfl
  -- The addresses were all made by one list, whose next address is not smaller now.
  refine ⟨hsb, by rw [← hs]; exact hsize, ⟨?_, fun bb hbb => ?_, ?_⟩, hsb ▸ hsame⟩
  · rw [List.nil_append, hsb]
    exact hnd
  · rw [List.nil_append, hsb] at hbb
    rw [← hs]
    exact (hfresh bb hbb).trans_le hnext
  · rw [← hs]
    exact (backedBlockListMove_block_size _ _).trans hlink.block_size

end

/-! ## Imported files -/

/-- Adding a block keeps the addresses apart. -/
theorem Call.add_linked {s s' : SparseFile} {c : Call} (h : Linked [] s) (hc : c.add s = .ok s') :
    Linked [] s' := by
  obtain ⟨list, hl, rfl⟩ := Call.add_ok hc
  obtain ⟨⟨l, hperm, hsub⟩, hsize, hnext⟩ := queueBb_addrs hl
  dsimp only at hperm hsize hnext
  have hnd : (l.map BackedBlock.addr).Nodup := by
    rw [(hperm.map BackedBlock.addr).nodup_iff, List.map_cons, List.nodup_cons]
    refine ⟨fun hmem => ?_, h.nodup⟩
    obtain ⟨bb, hbb, haddr⟩ := List.mem_map.mp hmem
    exact Nat.lt_irrefl _ (haddr ▸ h.fresh bb hbb)
  refine ⟨hnd.sublist hsub, fun bb hbb => ?_, hsize.trans h.block_size⟩
  -- The new node lies at the address that was the next one.
  change bb.addr < list.next_addr
  rw [hnext]
  obtain ⟨c, hc, haddr⟩ := List.mem_map.mp (hsub.mem (List.mem_map_of_mem hbb))
  rw [← haddr]
  rcases List.mem_cons.mp (hperm.mem_iff.mp hc) with rfl | hc
  · exact Nat.lt_succ_self _
  · exact Nat.lt_succ_of_lt (h.fresh c hc)

/-- A fresh file is linked, with nothing in front. -/
theorem sparseFileNew_linked (bs : UInt32) (len : ℤ) : Linked [] (sparseFileNew bs len) :=
  ⟨List.nodup_nil, fun _ h => absurd h List.not_mem_nil, rfl⟩

/-- A file that is linked is so after any calls that add blocks. -/
theorem addAll_linked {s s' : SparseFile} {calls : List Call} (h : Linked [] s)
    (hc : addAll s calls = .ok s') : Linked [] s' := by
  induction calls generalizing s with
  | nil => cases hc; exact h
  | cons c calls ih =>
    rw [addAll_cons] at hc
    obtain ⟨s1, h1, hc⟩ := Except.bind_ok_iff.mp hc
    exact ih (c.add_linked h h1) hc

/-- An imported file is made by calls that add blocks to an empty one. -/
theorem sparseFileImport_addAll {fd : ℕ} {file : List UInt8} {crc : Bool} {s : SparseFile}
    (h : sparseFileImport fd file crc = .ok (some s)) :
    ∃ calls, addAll (emptyFile (fileHeader file)) calls = .ok s := by
  obtain ⟨-, himp, hfin, -⟩ := sparseFileImport_some h
  obtain ⟨hall, hraw, -⟩ := accepted_records himp hfin
  rw [importedFile, reached_eq (List.all_eq_true.mpr hall),
    addRecords_eq_addAll _ _ fd _ hraw] at himp
  exact ⟨_, himp⟩

/-- **The nodes of an imported file** lie at addresses of their own. -/
theorem sparseFileImport_linked {fd : ℕ} {file : List UInt8} {crc : Bool} {s : SparseFile}
    (h : sparseFileImport fd file crc = .ok (some s)) : Linked [] s := by
  obtain ⟨calls, hcalls⟩ := sparseFileImport_addAll h
  exact addAll_linked (sparseFileNew_linked _ _) hcalls

/-- Calls that go through leave a valid list. -/
theorem addAll_valid {s s' : SparseFile} {calls : List Call} (hv : s.backed_block_list.Valid)
    (hbs : s.backed_block_list.block_size ≠ 0) (h : addAll s calls = .ok s') :
    s'.backed_block_list.Valid := by
  induction calls generalizing s with
  | nil => cases h; exact hv
  | cons c calls ih =>
    rw [addAll_cons] at h
    obtain ⟨s1, h1, h⟩ := Except.bind_ok_iff.mp h
    obtain ⟨l, hl, rfl⟩ := Call.add_ok h1
    obtain ⟨hv1, hsize⟩ := addBlock_valid hv hbs hl
    exact ih hv1 (hsize ▸ hbs) h

/-- **The blocks of an imported file** are in strictly increasing order, also where the counter of the
reader has wrapped. -/
theorem sparseFileImport_sorted {fd : ℕ} {file : List UInt8} {crc : Bool} {s : SparseFile}
    (h : sparseFileImport fd file crc = .ok (some s)) (hbs : s.block_size ≠ 0) :
    Sorted s.blocks := by
  obtain ⟨calls, hcalls⟩ := sparseFileImport_addAll h
  refine (addAll_valid (backedBlockListNew_valid _) ?_ hcalls).sorted
  rw [(addAll_fields hcalls).1] at hbs
  exact hbs

/-- The first call, with the result `r`, predicts the second one, with the result `r'`. -/
structure Predicts (s : SparseFile) (r r' : SparseFile × List SparseFile × ℕ) : Prop where
  /-- The list that the first call leaves describes what the file did. -/
  same : SameMap s.block_size s.blocks r.1.blocks
  /-- The second call returns what the first one did. -/
  count : r'.2.2 = r.2.2
  /-- It fills that many places of its array. -/
  filled : r'.2.1.length = r.2.2
  /-- It leaves nothing behind. -/
  moved : r'.1.blocks = []

/-- **What the prediction needs** of a file: the counter can be set up and counts the bytes of the
blocks right, and every pass of the first call splits in place. -/
structure Replayable (env : Env) (max_len : UInt32) (s : SparseFile) : Prop where
  /-- The counter can be set up, or has nothing to count. -/
  block_size : s.block_size.toNat < 2 ^ 31 ∨ s.blocks = []
  /-- No block that is measured has a length that is negative as an `int`. -/
  countable : ∀ bb ∈ s.blocks, bb.Countable
  /-- The splits of the passes. -/
  in_place : ∀ ss mid, Run env max_len s ss mid true → SplitsInPlace env max_len mid

section

variable {env : Env} {max_len : UInt32} {s : SparseFile} {fuel fuel' : ℕ}
  {r r' : SparseFile × List SparseFile × ℕ}

/-- **The prediction**, when the counter can be set up. -/
theorem Replayable.predicts (h : Replayable env max_len s) (hbs : s.block_size.toNat < 2 ^ 31)
    (hl : Linked [] s) (horder : s.blocks.Pairwise fun a b => a.block ≤ b.block)
    (hm : Measures env max_len s) (hr : sparseFileResparse env fuel s max_len 0 = .ok r)
    (hm' : Measures env max_len r.1)
    (hr' : sparseFileResparse env fuel' r.1 max_len r.2.2 = .ok r') : Predicts s r r' := by
  have hplain : Plain env max_len s := ⟨hl, hbs, h.countable, hm⟩
  obtain ⟨ts, mid, run, rfl⟩ := run_of_sparseFileResparse hr
  dsimp only at hm' hr' ⊢
  obtain ⟨hblocks, hsize, hlink, hsame⟩ := dry_run_leaves hplain horder h.in_place run rfl
  have hplain' : Plain env max_len { mid with
      backed_block_list := (backedBlockListMove (overflow s 0 ts).backed_block_list
        mid.backed_block_list none none).2 } :=
    ⟨hlink, hsize ▸ hbs, fun bb hbb => by
      rw [hblocks] at hbb
      exact run.countable hl h.countable bb (List.mem_append_left _ hbb), hm'⟩
  -- The second run makes as many pieces.
  obtain ⟨s', tmp, hq, -⟩ := sparseFileResparse_ok hr'
  obtain ⟨-, hlen'⟩ := run.rest.simulate hplain
    (fun _ _ hrun hne => not_stuck_of_returns hl hr hrun hne) .start hplain' hsize .start
    (congrArg _ hblocks) hq
  obtain ⟨ts', mid', run', rfl⟩ := run_of_sparseFileResparse hr'
  dsimp only at hlen' ⊢
  have heq : ts'.length = ts.length := by omega
  refine ⟨hsame, heq, by rw [List.length_take, heq, Nat.min_self], ?_⟩
  obtain ⟨-, hmoved⟩ := hplain'.moved run'
  have hover : ∀ in_s, (overflow in_s ts.length ts').blocks = [] := fun in_s => by
    unfold overflow
    rw [List.drop_of_length_le (Nat.le_of_eq heq)]
    rfl
  refine List.perm_nil.mp ((backedBlockListMove_perm _ _).trans ?_)
  change (mid'.blocks ++ (overflow _ ts.length ts').blocks).Perm []
  rw [hmoved, hover]
  exact List.Perm.refl _

/-- **The dry run predicts the real run.** For an imported file, when neither call fails to measure a
block and both return: the first call predicts the second one when every block is counted right and
no split has a second part that wraps or starts behind the next block. For blocks that do not overlap
and are counted right it does so only when no split has a second part that wraps. -/
theorem dry_run_predicts_iff {fd : ℕ} {file : List UInt8} {crc : Bool}
    (himp : sparseFileImport fd file crc = .ok (some s)) (hm : Measures env max_len s)
    (hr : sparseFileResparse env fuel s max_len 0 = .ok r) (hm' : Measures env max_len r.1)
    (hr' : sparseFileResparse env fuel' r.1 max_len r.2.2 = .ok r') :
    (Replayable env max_len s → Predicts s r r') ∧
      (Disjoint s.block_size s.blocks → (∀ bb ∈ s.blocks, bb.Countable) →
        (Predicts s r r' ↔ Replayable env max_len s)) := by
  have hl := sparseFileImport_linked himp
  have hbs : s.block_size ≠ 0 := by
    obtain ⟨ts, mid, run, -⟩ := run_of_sparseFileResparse hr
    generalize hb : false = b at run
    cases run with
    | start => cases hb
    | step run pass =>
      obtain ⟨hlink, hsize, -⟩ := run.linked hl
      exact hsize ▸ (moveChunksUpToLen_takes hlink pass).1
  have hpredicts : Replayable env max_len s → Predicts s r r' := by
    intro h
    by_cases hlarge : 2 ^ 31 ≤ s.block_size.toNat
    swap
    · exact h.predicts (Nat.not_le.mp hlarge) hl
        ((sparseFileImport_sorted himp hbs).imp UInt32.le_of_lt) hm hr hm' hr'
    -- Without blocks there is nothing to count.
    · have hnil := h.block_size.resolve_left (Nat.not_lt.mpr hlarge)
      obtain ⟨hperm, hsize, -, hone⟩ := sparseFileResparse_large hlarge hr
      obtain ⟨hperm', -, hpieces, hone'⟩ := sparseFileResparse_large (hsize ▸ hlarge) hr'
      have hr1 : r.1.blocks = [] := List.perm_nil.mp (hnil ▸ hperm)
      refine ⟨?_, hone'.trans hone.symm, by rw [hpieces, hone]; rfl, List.perm_nil.mp (hr1 ▸ hperm')⟩
      rw [hnil, hr1]
      exact SameMap.refl _ _
  refine ⟨hpredicts, fun hd hlen => ⟨fun h => ?_, hpredicts⟩⟩
  have hkeeps : ∀ ss mid, Run env max_len s ss mid true → KeepsNumbers env max_len mid := by
    refine fun ss mid => keepsNumbers_of_sameMap hl hd hr ?_
    obtain ⟨ts, mid, run, rfl⟩ := run_of_sparseFileResparse hr
    rw [List.take_zero, List.flatMap_nil, List.nil_append]
    exact h.same
  refine ⟨or_iff_not_imp_left.mpr fun hlarge => ?_, hlen, fun ss mid run => run.splitsInPlace hl hd hkeeps⟩
  -- The blocks stay behind when the counter cannot be set up.
  have hlarge' := Nat.not_lt.mp hlarge
  obtain ⟨hperm, hsize, -⟩ := sparseFileResparse_large hlarge' hr
  obtain ⟨hperm', -⟩ := sparseFileResparse_large (hsize ▸ hlarge') hr'
  exact List.perm_nil.mp (h.moved ▸ (hperm'.trans hperm)).symm

end

/-- An image of blocks of four bytes: two gaps and a fill chunk. -/
def gapImage (gap gap' n total_blks : UInt32) : List UInt8 :=
  SparseHeader.encode ⟨SPARSE_HEADER_MAGIC, 1, 0, 28, 12, 4, total_blks, 3, 0⟩ ++
    (ChunkHeader.encode ⟨CHUNK_TYPE_DONT_CARE, 0, gap, 12⟩ ++
      (ChunkHeader.encode ⟨CHUNK_TYPE_DONT_CARE, 0, gap', 12⟩ ++
        (ChunkHeader.encode ⟨CHUNK_TYPE_FILL, 0, n, 16⟩ ++ le32 7)))

/-- Every block is measured without an error when all files hold zeros. -/
theorem sparseFileWriteBlock_zeros {out : OutputFile ℤ} (hs : out.sparse = true)
    (bb : BackedBlock) : ∃ out', sparseFileWriteBlock counter_ops zeros out bb = (0, out') ∧
      out'.sparse = true := by
  have hdata : ∀ data, ∃ out', writeDataChunk counter_ops out bb.len data = (0, out') ∧
      out'.sparse = true := fun data => by
    obtain ⟨out', h1, h2, -⟩ := writeSparseDataChunk_counter out bb.len data
    unfold writeDataChunk
    rw [if_pos hs]
    exact ⟨out', h1, h2.trans hs⟩
  unfold sparseFileWriteBlock
  cases bb.source with
  | data p => exact hdata _
  | file f o => exact hdata _
  | fd f o => exact hdata _
  | fill w =>
    obtain ⟨out', h1, h2, -⟩ := writeSparseFillChunk_counter out bb.len w
    simp only [writeFillChunk, hs, if_true]
    exact ⟨out', h1, h2.trans hs⟩

/-- A file of zeros behind every source lets every pass measure its blocks. -/
theorem measures_zeros (max_len : UInt32) (in_s : SparseFile) : Measures zeros max_len in_s := by
  have key : ∀ (bs len : UInt32) (l : List BackedBlock) last_bb last file_len out,
      out.sparse = true → scanBlocks zeros bs len l last_bb last file_len out ≠ .failed := by
    intro bs len l
    induction l with
    | nil => exact fun _ _ _ _ _ h => MoveStop.noConfusion h
    | cons c l ih =>
      intro last_bb last file_len out hs
      obtain ⟨out', h1, h2⟩ := @sparseFileWriteBlock_zeros
        { out with dev := if c.block > last then 12 else 0 } hs c
      unfold scanBlocks
      simp only [h1, ne_eq, not_true_eq_false, if_false]
      split_ifs
      · exact fun h => h
      · exact ih _ _ _ _ h2
  exact fun _ mid _ => key _ _ mid.blocks none 0 0 _ rfl

/-- A fill chunk of eight blocks is made into four pieces, and an empty one. -/
theorem dry_run_predicts_iff_four :
    Predicts ⟨4, 40, ⟨[⟨0, 2, 32, .fill 7⟩], none, 4, 1⟩⟩
      (⟨4, 40, ⟨[⟨0, 2, 8, .fill 7⟩, ⟨1, 4, 8, .fill 7⟩, ⟨2, 6, 8, .fill 7⟩, ⟨3, 8, 8, .fill 7⟩],
        none, 4, 5⟩⟩, [], 5)
      (⟨4, 40, ⟨[], none, 4, 9⟩⟩,
        [⟨4, 40, ⟨[⟨0, 2, 8, .fill 7⟩], none, 4, 6⟩⟩, ⟨4, 40, ⟨[⟨1, 4, 8, .fill 7⟩], none, 4, 7⟩⟩,
          ⟨4, 40, ⟨[⟨2, 6, 8, .fill 7⟩], none, 4, 8⟩⟩, ⟨4, 40, ⟨[⟨3, 8, 8, .fill 7⟩], none, 4, 9⟩⟩,
          sparseFileNew 4 40], 5) := by
  have himp : sparseFileImport 3 (gapImage 1 1 8 10) false =
      .ok (some ⟨4, 40, ⟨[⟨0, 2, 32, .fill 7⟩], none, 4, 1⟩⟩) := by decide +kernel
  have hl := sparseFileImport_linked himp
  refine (@dry_run_predicts_iff zeros 76 _ 5 5 _ _ 3 (gapImage 1 1 8 10) false himp
    (measures_zeros _ _) (by decide +kernel) (measures_zeros _ _) (by decide +kernel)).1
      ⟨.inl (by decide), fun bb hbb => .inl ⟨7, ?_⟩, fun ss mid run => ?_⟩
  · rw [List.mem_singleton.mp hbb]
  exact run.splitsInPlace hl (by unfold Disjoint Before; decide) fun ss mid run =>
    run.keepsNumbers hl (by decide)

/-- The fill chunk starts two blocks below `2^32`, and the block of its second part wraps. -/
theorem second_part_wraps :
    ∃ s r r', sparseFileImport 3 (gapImage 0x7fffffff 0x7fffffff 4 2) false = .ok (some s) ∧
      Measures zeros 76 s ∧ sparseFileResparse zeros 2 s 76 0 = .ok r ∧
      Measures zeros 76 r.1 ∧ sparseFileResparse zeros 2 r.1 76 r.2.2 = .ok r' ∧
      ¬ Predicts s r r' := by
  refine ⟨⟨4, 8, ⟨[⟨0, 4294967294, 16, .fill 7⟩], none, 4, 1⟩⟩,
    (⟨4, 8, ⟨[⟨0, 4294967294, 8, .fill 7⟩, ⟨1, 0, 8, .fill 7⟩], none, 4, 2⟩⟩, [], 2),
    (⟨4, 8, ⟨[], none, 4, 3⟩⟩, [⟨4, 8, ⟨[⟨0, 4294967294, 8, .fill 7⟩], none, 4, 3⟩⟩,
      ⟨4, 8, ⟨[⟨1, 0, 8, .fill 7⟩], none, 4, 3⟩⟩], 2),
    by decide +kernel, measures_zeros _ _, by decide +kernel, measures_zeros _ _,
    by decide +kernel, fun h => ?_⟩
  -- The byte behind block `2^32` is lost.
  have hbefore : Describes 4 [⟨0, 4294967294, 16, .fill 7⟩] (2 ^ 34) (.fill 7) :=
    ⟨_, List.mem_cons_self, by decide, by decide, rfl⟩
  obtain ⟨e, he, h1, h2, -⟩ := (h.same (2 ^ 34) (.fill 7)).mp hbefore
  obtain ⟨bb, hbb, rfl⟩ := List.mem_map.mp he
  rcases List.mem_cons.mp hbb with rfl | hbb
  · exact absurd h2 (by decide)
  · rw [List.mem_singleton.mp hbb] at h2
    exact absurd h2 (by decide)

end AmlogicToolkit.Simg
