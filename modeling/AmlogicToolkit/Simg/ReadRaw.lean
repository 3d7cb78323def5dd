import AmlogicToolkit.Simg.Contents

/-!
# Reading a raw file of any length

`sparse_file_read_normal` on a file whose last block may be covered in part: it makes one call for
each block (`sparseFileReadNormal_eq`), the calls lie inside the image (`normalCalls_inside`), and
every position of the image has the byte of the file (`normalCalls_requested`).
-/

namespace AmlogicToolkit.Simg

open Bytes Extents

section

variable (fd : ℕ) (file : List UInt8) (bs : UInt32) (len : ℕ)

/-- The bytes that block `k` covers. -/
def blockLen (k : ℕ) : ℕ := min bs.toNat (len - k * bs.toNat)

/-- The call that adds block `k` of a raw file. Only a full block is looked at for a fill. -/
def normalCall (k : ℕ) : Call :=
  let buf := slice file (k * bs.toNat) (blockLen bs len k)
  ⟨if blockLen bs len k = bs.toNat ∧ isSparseBlock bs buf then .fill (read32 buf 0)
    else .fd fd (k * bs.toNat : ℕ), UInt32.ofNat (blockLen bs len k), UInt32.ofNat k⟩

/-- The calls that add `m` blocks of a raw file from block `k` on. -/
def normalCalls (k m : ℕ) : List Call := (List.range' k m).map (normalCall fd file bs len)

end

section

variable {fd : ℕ} {file : List UInt8} {bs : UInt32} {len : ℕ}

/-- A word that was read is written as the four bytes it was read from. -/
theorem le32_read32 {l : List UInt8} {off : ℕ} (h : off + 4 ≤ l.length) :
    le32 (read32 l off) = slice l off 4 := by
  have hlen := length_slice_of_le h
  have hlt := ofLe_lt (slice l off 4)
  rw [hlen] at hlt
  have hle := toLe_ofLe (slice l off 4)
  rw [hlen] at hle
  rw [le32, read32, UInt32.toNat_ofNat', Nat.mod_eq_of_lt (by omega), hle]

/-- A block whose words are all equal is the repetition of its first word. -/
theorem cycle_of_isSparseBlock {buf : List UInt8} (h4 : bs.toNat % 4 = 0)
    (hlen : buf.length = bs.toNat) (h : isSparseBlock bs buf) :
    cycle (bs.toNat / 4) (le32 (read32 buf 0)) = buf := by
  simp only [isSparseBlock, List.all_eq_true, List.mem_range, beq_iff_eq] at h
  refine ext_getD (z := 0) (by rw [length_cycle, length_le32]; omega) fun i hi => ?_
  rw [length_cycle, length_le32] at hi
  have hsplit := Nat.div_add_mod i 4
  rw [getD_cycle _ _ _ (by rw [length_le32]; exact hi), length_le32, h (i / 4) (by omega),
    le32_read32 (by omega), getD_slice, if_pos (Nat.mod_lt _ (by omega)), hsplit]

/-- The length of a block fits into 32 bits. -/
theorem toNat_blockLen (k : ℕ) : (UInt32.ofNat (blockLen bs len k)).toNat = blockLen bs len k := by
  have hlt := bs.toNat_lt
  have hle : blockLen bs len k ≤ bs.toNat := Nat.min_le_left _ _
  rw [UInt32.toNat_ofNat', Nat.mod_eq_of_lt (by omega)]

/-- A block in front of the end covers bytes, up to the next one or to the end. -/
theorem blockLen_spec (hbs : bs ≠ 0) {k : ℕ} (hk : k < (len + bs.toNat - 1) / bs.toNat) :
    k * bs.toNat < len ∧ 0 < blockLen bs len k ∧
      k * bs.toNat + blockLen bs len k = min ((k + 1) * bs.toNat) len := by
  have hpos := toNat_pos_of_ne_zero hbs
  have h1 := (Nat.le_div_iff_mul_le hpos).mp (Nat.succ_le_iff.mpr hk)
  rw [Nat.succ_mul] at h1
  rw [Nat.succ_mul]
  unfold blockLen
  omega

/-- What is read of block `k`. -/
theorem toU32_blockLen (k : ℕ) :
    toU32 (min ((len - k * bs.toNat : ℕ) : ℤ) (bs.toNat : ℤ)) = UInt32.ofNat (blockLen bs len k) := by
  have hcast : min ((len - k * bs.toNat : ℕ) : ℤ) (bs.toNat : ℤ) = (blockLen bs len k : ℕ) := by
    unfold blockLen
    omega
  apply UInt32.toNat_inj.mp
  rw [hcast, toU32, UInt32.toNat_ofNat', UInt32.toNat_ofNat']
  omega

/-- The call for block `k` is the one that the loop makes. -/
theorem normalCall_add {s : SparseFile} (hs : s.block_size = bs) (k : ℕ) :
    (if UInt32.ofNat (blockLen bs len k) = s.block_size ∧ isSparseBlock s.block_size
          (slice file (k * bs.toNat) (blockLen bs len k)) then
        sparseFileAddFill s (read32 (slice file (k * bs.toNat) (blockLen bs len k)) 0)
          (UInt32.ofNat (blockLen bs len k)) (UInt32.ofNat k)
      else sparseFileAddFd s fd (k * bs.toNat : ℕ) (UInt32.ofNat (blockLen bs len k))
        (UInt32.ofNat k)) = (normalCall fd file bs len k).add s := by
  have hfull : UInt32.ofNat (blockLen bs len k) = bs ↔ blockLen bs len k = bs.toNat := by
    rw [← UInt32.toNat_inj, toNat_blockLen]
  unfold normalCall
  rw [hs]
  by_cases h : blockLen bs len k = bs.toNat ∧ isSparseBlock bs
      (slice file (k * bs.toNat) (blockLen bs len k))
  · rw [if_pos ⟨hfull.mpr h.1, h.2⟩]
    simp only [if_pos h]
    rfl
  · rw [if_neg fun h' => h ⟨hfull.mp h'.1, h'.2⟩]
    simp only [if_neg h]
    rfl

/-- **The loop over a raw file** makes the calls of its blocks. -/
theorem readNormalLoop_calls (hbs : bs ≠ 0) (hfile : len ≤ file.length) {fuel k m : ℕ}
    {s : SparseFile} (hs : s.block_size = bs) (hm : k + m = (len + bs.toNat - 1) / bs.toNat)
    (hfuel : len - min (k * bs.toNat) len ≤ fuel) :
    readNormalLoop fuel s ⟨fd, file, min (k * bs.toNat) len⟩ (UInt32.ofNat k)
      (len - min (k * bs.toNat) len : ℕ) (min (k * bs.toNat) len : ℕ) =
        added (addAll s (normalCalls fd file bs len k m)) := by
  have hpos := toNat_pos_of_ne_zero hbs
  -- The induction is on the blocks that remain to be read.
  induction m generalizing fuel k s with
  | zero =>
    have hle := le_padded (n := len) hpos
    rw [padded, ← hm, Nat.mul_comm, Nat.add_zero] at hle
    rw [Nat.min_eq_right hle, Nat.sub_self]
    cases fuel <;> simp [readNormalLoop, normalCalls, addAll, added] <;> rfl
  | succ m ih =>
    -- One pass reads one block, the last of them short.
    obtain ⟨hlt, hblk, hnext⟩ := @blockLen_spec bs len hbs k (by omega)
    have hmin : min (k * bs.toNat) len = k * bs.toNat := Nat.min_eq_left hlt.le
    have hrest := @ih (fuel - 1) (k + 1)
    rw [← hnext] at hrest
    rw [hmin] at hfuel ⊢
    obtain ⟨fuel, rfl⟩ : ∃ f, fuel = f + 1 := ⟨fuel - 1, by omega⟩
    have hread : toU32 (min ((len - k * bs.toNat : ℕ) : ℤ) (s.block_size.toNat : ℤ)) =
        UInt32.ofNat (blockLen bs len k) := hs ▸ toU32_blockLen k
    have hin : k * bs.toNat + blockLen bs len k ≤ file.length := by omega
    rw [readNormalLoop, if_pos (by omega)]
    simp only [hread, toNat_blockLen, readOrStop_eq _ (Nat.ne_of_gt hblk)]
    rw [if_pos hin]
    simp only [bind, Except.bind, normalCall_add hs]
    rw [normalCalls, List.range'_succ, List.map_cons, addAll, List.foldlM_cons]
    -- What the next pass starts with is what the induction speaks of.
    cases hc : (normalCall fd file bs len k).add s with
    | error f => rfl
    | ok s' =>
      have hblock : UInt32.ofNat k + 1 = UInt32.ofNat (k + 1) := by rw [UInt32.ofNat_add]; rfl
      have hremain : ((len - k * bs.toNat : ℕ) : ℤ) - (blockLen bs len k : ℕ) =
          (len - (k * bs.toNat + blockLen bs len k) : ℕ) := by omega
      have hoff : ((k * bs.toNat : ℕ) : ℤ) + (blockLen bs len k : ℕ) =
          (k * bs.toNat + blockLen bs len k : ℕ) := by push_cast; rfl
      have := hrest ((Call.add_fields hc).1.trans hs) (by omega) (by omega)
      simp only [added, hblock, hremain, hoff]
      exact this

/-- **A raw file** is read as the calls of its blocks. -/
theorem sparseFileReadNormal_eq (hbs : bs ≠ 0) (hfile : len ≤ file.length) :
    sparseFileReadNormal (sparseFileNew bs len) ⟨fd, file, 0⟩ =
      added (addAll (sparseFileNew bs len)
        (normalCalls fd file bs len 0 ((len + bs.toNat - 1) / bs.toNat))) := by
  have h := @readNormalLoop_calls fd file bs len hbs hfile len 0 _ (sparseFileNew bs len) rfl
    (Nat.zero_add _) (Nat.sub_le _ _)
  rw [Nat.zero_mul, Nat.zero_min, Nat.sub_zero] at h
  exact h

/-- A raw file that ends before the image is not read. -/
theorem readNormalLoop_length {fuel : ℕ} {s s' : SparseFile} {f : InFile} {block : UInt32}
    {remain offset : ℤ} (hbs : s.block_size ≠ 0)
    (h : readNormalLoop fuel s f block remain offset = .ok s') (hr : 0 < remain) :
    (f.pos : ℤ) + remain ≤ f.bytes.length := by
  -- The induction is on the fuel: every pass reads what it asks for, or the call fails.
  induction fuel generalizing s f block remain offset with
  | zero =>
    rw [readNormalLoop, if_pos hr] at h
    cases h
  | succ fuel ih =>
    have hpos := toNat_pos_of_ne_zero hbs
    have hread := toU32_min_toNat hr s.block_size
    rw [readNormalLoop, if_pos hr] at h
    simp only [hread, readOrStop_eq f (show (min remain s.block_size.toNat).toNat ≠ 0 by omega),
      bind, Except.bind] at h
    -- A read that runs over the end of the file fails, and then there is no result.
    by_cases hin : f.pos + (min remain s.block_size.toNat).toNat ≤ f.bytes.length
    swap
    · rw [if_neg hin] at h
      cases h
    simp only [if_pos hin] at h
    generalize hadd : added _ = r at h
    cases r with
    | error e => cases h
    | ok s1 =>
      have hs1 : s1.block_size = s.block_size := by
        unfold added at hadd
        split at hadd
        next s2 h2 =>
          cases hadd
          split_ifs at h2 with hfill
          · exact (Call.add_fields (c := ⟨.fill _, _, _⟩) h2).1
          · exact (Call.add_fields (c := ⟨.fd _ _, _, _⟩) h2).1
        · cases hadd
      dsimp only at h
      -- The remainder has been read by the passes behind this one.
      by_cases hrest : 0 < remain - ((min remain s.block_size.toNat).toNat : ℤ)
      · have := ih (hs1 ▸ hbs) h hrest
        dsimp only at this
        omega
      · omega

/-- A raw file is only read when the image is in it. -/
theorem sparseFileReadNormal_length (hbs : bs ≠ 0) {s : SparseFile}
    (h : sparseFileReadNormal (sparseFileNew bs len) ⟨fd, file, 0⟩ = .ok s) :
    len ≤ file.length := by
  by_contra hlt
  have := readNormalLoop_length (by exact hbs) h (show (0 : ℤ) < len by omega)
  dsimp only [sparseFileNew] at this
  omega

/-- The call for block `k` of a raw file covers that block, up to the end of the file. -/
theorem normalCall_extent (hbs : bs ≠ 0) (hlen : len < 2 ^ 32) {k : ℕ}
    (hk : k < (len + bs.toNat - 1) / bs.toNat) : (normalCall fd file bs len k).extent bs =
      ⟨k * bs.toNat, blockLen bs len k, (normalCall fd file bs len k).source⟩ := by
  have hpos := toNat_pos_of_ne_zero hbs
  have h1 := (blockLen_spec hbs hk).1
  have h2 := Nat.le_mul_of_pos_right k hpos
  have hblock : (UInt32.ofNat k).toNat = k := by
    rw [UInt32.toNat_ofNat', Nat.mod_eq_of_lt (by omega)]
  have hext : (normalCall fd file bs len k).extent bs = ⟨(UInt32.ofNat k).toNat * bs.toNat,
    (UInt32.ofNat (blockLen bs len k)).toNat, (normalCall fd file bs len k).source⟩ := rfl
  rw [hext, hblock, toNat_blockLen]

/-- The calls of a raw file lie inside the image, and can be read. -/
theorem normalCalls_inside {w : Files} (hbs : bs ≠ 0) (hlen : len < 2 ^ 32)
    (hfile : len ≤ (w.content fd).length) : Inside w bs len
      (normalCalls fd (w.content fd) bs len 0 ((len + bs.toNat - 1) / bs.toNat)) := by
  have hmem : ∀ k ∈ List.range' 0 ((len + bs.toNat - 1) / bs.toNat),
      k < (len + bs.toNat - 1) / bs.toNat := fun k hk => by simpa using hk
  -- The k-th block ends where the next one starts, or at the end of the file.
  have hstop : ∀ k < (len + bs.toNat - 1) / bs.toNat,
      ((normalCall fd (w.content fd) bs len k).extent bs).stop = min ((k + 1) * bs.toNat) len :=
    fun k hk => by
      rw [normalCall_extent hbs hlen hk, ← (blockLen_spec hbs hk).2.2]
      rfl
  refine ⟨⟨?_, ?_⟩, ?_, ?_⟩
  · -- No call is empty.
    refine List.forall_mem_map.mpr fun k hk => ne_zero_of_toNat_pos ?_
    have h1 := (blockLen_spec hbs (hmem k hk)).2.1
    rw [← toNat_blockLen k] at h1
    exact h1
  · -- The calls are in the order of their blocks.
    rw [normalCalls, List.map_map, List.pairwise_map]
    refine List.Pairwise.imp_of_mem (fun {j k} hj hk hjk => Or.inl ?_) List.pairwise_lt_range'
    simp only [Function.comp_apply]
    rw [hstop j (hmem j hj), normalCall_extent hbs hlen (hmem k hk)]
    exact (Nat.min_le_left _ _).trans (Nat.mul_le_mul_right _ hjk)
  · refine List.forall_mem_map.mpr fun k hk => ?_
    rw [hstop k (hmem k hk)]
    exact Nat.min_le_right _ _
  · -- A call that refers to the file asks only for bytes the file holds.
    refine List.forall_mem_map.mpr fun k hk => ?_
    have h1 := (blockLen_spec hbs (hmem k hk)).2.2
    have h2 : (normalCall fd (w.content fd) bs len k).len.toNat = blockLen bs len k :=
      toNat_blockLen k
    rw [h2]
    unfold normalCall
    dsimp only
    split_ifs
    · trivial
    · refine ⟨Int.natCast_nonneg _, ?_⟩
      rw [Int.toNat_natCast, h1]
      exact (Nat.min_le_right _ _).trans hfile

/-- **The calls of a raw file** put every byte of the image at its position. -/
theorem normalCalls_requested {w : Files} (hbs : bs ≠ 0) (h4 : bs.toNat % 4 = 0)
    (hlen : len < 2 ^ 32) (hfile : len ≤ (w.content fd).length) {p : ℕ} (hp : p < len) :
    ∃ x, Requested bs (normalCalls fd (w.content fd) bs len 0 ((len + bs.toNat - 1) / bs.toNat)) p x ∧
      w.byte p x = (w.content fd).getD p 0 := by
  have hpos := toNat_pos_of_ne_zero hbs
  have hsplit := Nat.div_add_mod' p bs.toNat
  have hmod := Nat.mod_lt p hpos
  -- The byte is in the block its position divided by the block size gives.
  have hk : p / bs.toNat < (len + bs.toNat - 1) / bs.toNat := by
    refine (Nat.le_div_iff_mul_le hpos).mpr ?_
    rw [Nat.add_one_mul]
    omega
  have hblk : blockLen bs len (p / bs.toNat) = min bs.toNat (len - p / bs.toNat * bs.toNat) := rfl
  have hext := @normalCall_extent fd (w.content fd) bs len hbs hlen _ hk
  have hmem : normalCall fd (w.content fd) bs len (p / bs.toNat) ∈
      normalCalls fd (w.content fd) bs len 0 ((len + bs.toNat - 1) / bs.toNat) :=
    List.mem_map_of_mem (by simpa using hk)
  have hoff : p - p / bs.toNat * bs.toNat = p % bs.toNat := by omega
  -- This block's call asks for it.
  refine ⟨_, ⟨_, List.mem_map_of_mem hmem, ?_, ?_, rfl⟩, ?_⟩
  · rw [hext]
    exact Nat.div_mul_le_self _ _
  · rw [hext]
    change p < p / bs.toNat * bs.toNat + blockLen bs len (p / bs.toNat)
    omega
  · rw [hext]
    change w.byte p (BlockSource.label (normalCall fd (w.content fd) bs len (p / bs.toNat)).source
      (p - p / bs.toNat * bs.toNat)) = _
    rw [hoff]
    unfold normalCall
    dsimp only
    split_ifs with hfill
    · -- A fill repeats the first word of its block.
      obtain ⟨hfull, hsparse⟩ := hfill
      rw [hfull] at hsparse ⊢
      have hcycle := cycle_of_isSparseBlock h4 (length_slice_of_le (show p / bs.toNat * bs.toNat +
        bs.toNat ≤ (w.content fd).length by omega)) hsparse
      have hbyte := congrArg (fun l : List UInt8 => l.getD (p % bs.toNat) 0) hcycle
      rw [getD_cycle _ _ _ (by rw [length_le32]; omega), length_le32, getD_slice, if_pos hmod,
        hsplit, Nat.mod_mod_of_dvd _ (Nat.dvd_of_mod_eq_zero h4)] at hbyte
      exact hbyte
    · have hcast : ((p / bs.toNat * bs.toNat : ℕ) : ℤ) + (p % bs.toNat : ℕ) = (p : ℕ) := by omega
      simp only [BlockSource.label, Files.byte, hcast, Int.toNat_natCast]

end

end AmlogicToolkit.Simg
