import AmlogicToolkit.Simg.BackEnds
import AmlogicToolkit.Simg.Words

/-!
# Callbacks and compressed files

What reaches the two other back ends of `output_file.c` when an image is written, against the file
that `sparse_file_write` makes of it.

* A callback is called with the bytes of the file, in order, and without data where the file has a
  hole; whatever it makes of them, the calls are the same (`sparseFileCallback_calls`).
* A compressed file holds the bytes of the file. In the normal format it is not cut at the length of
  the image, as the file is (`sparseFileWrite_gz`).

zlib is what its interface says (`Gz.Documented`): a seek forward in a file that is written leaves
zeros.
-/

namespace AmlogicToolkit.Simg

open Bytes

/-! ## The stream of a file -/

/-- The file shows the bytes `c`, up to the offset. In the sparse format it has all of them. -/
structure Streamed (sparse : Bool) (f : RawFile) (c : List UInt8) : Prop where
  /-- The offset. -/
  pos : f.pos = c.length
  /-- Bytes at the end may only be skipped. -/
  length_le : f.bytes.length ≤ c.length
  /-- What is skipped is zero. -/
  shown : padTo 0 c.length f.bytes = c
  /-- In the sparse format nothing is skipped. -/
  whole : sparse → f.bytes = c

section

variable {sparse : Bool} {f : RawFile} {c : List UInt8}

/-- A fresh file is what no calls leave. -/
theorem streamed_empty (sparse : Bool) : Streamed sparse ⟨[], 0⟩ [] :=
  ⟨rfl, le_refl 0, rfl, fun _ => rfl⟩

/-- A write at the position of the file is one call more at the end of the stream. -/
theorem Streamed.write (h : Streamed sparse f c) (d : List UInt8) :
    Streamed sparse ⟨overwrite 0 f.bytes f.pos d, f.pos + d.length⟩ (c ++ d) := by
  by_cases hd : d = []
  · rw [hd, overwrite_nil, List.append_nil]
    exact h
  · have hbytes : overwrite 0 f.bytes f.pos d = c ++ d := by
      rw [h.pos, overwrite_behind 0 h.length_le hd, h.shown]
    refine ⟨?_, (congrArg List.length hbytes).le, ?_, fun _ => hbytes⟩
    · rw [h.pos, List.length_append]
    · rw [hbytes]
      exact padTo_self rfl

/-- In the normal format a skip is a run of zeros in the stream. -/
theorem Streamed.skip (h : Streamed false f c) (n : ℕ) :
    Streamed false ⟨f.bytes, f.pos + n⟩ (c ++ List.replicate n 0) := by
  refine ⟨?_, ?_, ?_, nofun⟩
  · rw [h.pos, List.length_append, List.length_replicate]
  · rw [List.length_append]
    exact h.length_le.trans (Nat.le_add_right _ _)
  · rw [List.length_append, List.length_replicate, padTo_add 0 h.length_le, h.shown]

/-- Setting the length of the file, and of the stream. -/
theorem Streamed.resize_eq (h : Streamed sparse f c) (n : ℕ) :
    resize 0 n f.bytes = resize 0 n c := by
  refine @ext_getD _ 0 _ _ (by rw [length_resize, length_resize]) fun i _ => ?_
  rw [getD_resize, getD_resize, ← h.shown, getD_padTo]

/-- `file_write` of a buffer that has the bytes. -/
theorem fileWrite_streamed (h : Streamed sparse f c) {data : List UInt8} {len : ℕ}
    (hret : 0 ≤ (fileWrite f data len).1) :
    (fileWrite f data len).1 = 0 ∧ len ≤ data.length ∧
      Streamed sparse (fileWrite f data len).2 (c ++ data.take len) := by
  have hlen : len ≤ data.length := by
    by_contra hlt
    unfold fileWrite at hret
    rw [if_pos (Nat.not_le.mp hlt)] at hret
    exact absurd hret (not_le.mpr (by decide : (-1 : ℤ) < 0))
  exact ⟨if_neg (Nat.not_lt.mpr hlen), hlen, h.write _⟩

/-- `file_skip` returns 0, and is a run of zeros in the stream. -/
theorem fileSkip_streamed (h : Streamed false f c) {cnt : ℤ} (hcnt : 0 ≤ cnt) :
    (fileSkip f cnt).1 = 0 ∧
      Streamed false (fileSkip f cnt).2 (c ++ List.replicate cnt.toNat 0) := by
  obtain ⟨n, rfl⟩ := Int.eq_ofNat_of_zero_le hcnt
  have hskip : fileSkip f n = (0, ⟨f.bytes, f.pos + n⟩) := by
    unfold fileSkip
    rw [if_neg (by omega)]
    rfl
  rw [hskip]
  exact ⟨rfl, h.skip n⟩

end

/-! ## Calls -/

/-- A call of a callback: the data, unless it is a null pointer, and the length. -/
abbrev CallbackCall := Option (List UInt8) × ℤ

/-- A callback that keeps the calls. -/
def recordCall (calls : List CallbackCall) (data : Option (List UInt8)) (len : ℤ) :
    ℤ × List CallbackCall := (0, calls ++ [(data, len)])

/-- The bytes of a call: its data, or zeros for a skip. -/
def CallbackCall.bytes : CallbackCall → List UInt8
  | (some data, len) => data.take len.toNat
  | (none, len) => List.replicate len.toNat 0

/-- The bytes of all calls, one after the other. -/
def callBytes (calls : List CallbackCall) : List UInt8 := calls.flatMap CallbackCall.bytes

/-- `sparse_file_callback`: the file is written through a callback instead of a descriptor. -/
def sparseFileCallback {σ : Type} (write : σ → Option (List UInt8) → ℤ → ℤ × σ) (env : Env)
    (s : SparseFile) (priv : σ) (sparse crc : Bool) : Except Fault (ℤ × σ) :=
  sparseFileWrite (callback_file_ops write) env s priv sparse crc

section

variable {σ : Type} {write : σ → Option (List UInt8) → ℤ → ℤ × σ} {calls : List CallbackCall}

/-- The skips are calls without data. -/
theorem callbackFileSkip_record {fuel : ℕ} {off : ℤ} (hoff : 0 ≤ off) (hfuel : off ≤ fuel) :
    (callbackFileSkip recordCall fuel calls off).1 = 0 ∧
      callBytes (callbackFileSkip recordCall fuel calls off).2 =
        callBytes calls ++ List.replicate off.toNat 0 := by
  induction fuel generalizing calls off with
  | zero =>
    obtain rfl : off = 0 := le_antisymm hfuel hoff
    exact ⟨rfl, (List.append_nil _).symm⟩
  | succ fuel ih =>
    unfold callbackFileSkip
    by_cases hpos : off > 0
    · rw [if_pos hpos]
      -- A pass skips at most `INT_MAX` bytes, and at least one.
      have hmin : (0 : ℤ) < min off INT_MAX := lt_min hpos (by decide)
      have hle := min_le_left off INT_MAX
      dsimp only [recordCall]
      rw [if_neg (lt_irrefl 0)]
      obtain ⟨hret, hbytes⟩ := @ih (calls ++ [(none, min off INT_MAX)]) (off - min off INT_MAX)
        (by omega) (by push_cast at hfuel; omega)
      refine ⟨hret, hbytes.trans ?_⟩
      -- A skip is a call without data, which stands for zeros.
      have hcall : callBytes (calls ++ [(none, min off INT_MAX)]) =
          callBytes calls ++ List.replicate (min off INT_MAX).toNat 0 := by
        unfold callBytes
        rw [List.flatMap_append, List.flatMap_singleton]
        rfl
      rw [hcall, List.append_assoc, List.replicate_append_replicate]
      congr 2
      omega
    · obtain rfl : off = 0 := le_antisymm (not_lt.mp hpos) hoff
      rw [if_neg hpos]
      exact ⟨rfl, (List.append_nil _).symm⟩

/-- What a callback makes of calls, when it returns 0. -/
def runCalls (write : σ → Option (List UInt8) → ℤ → ℤ × σ) (calls : List CallbackCall) (priv : σ) :
    σ := calls.foldl (fun s c => (write s c.1 c.2).2) priv

/-- **Two callbacks** that return 0, when a call of both keeps a relation of their states. -/
theorem mimics_calls {τ : Type} {write' : τ → Option (List UInt8) → ℤ → ℤ × τ} {R : σ → τ → Prop}
    (sparse : Bool) (hwrite : ∀ s data len, (write s data len).1 = 0)
    (hwrite' : ∀ t data len, (write' t data len).1 = 0)
    (hcall : ∀ s t data len, R s t → R (write s data len).2 (write' t data len).2) :
    Mimics sparse (fun _ => True) R (callback_file_ops write) (callback_file_ops write') := by
  have hskip : ∀ fuel s t off, R s t → (callbackFileSkip write fuel s off).1 = 0 ∧
      (callbackFileSkip write' fuel t off).1 = 0 ∧
        R (callbackFileSkip write fuel s off).2 (callbackFileSkip write' fuel t off).2 := by
    intro fuel
    induction fuel with
    | zero => exact fun _ _ _ hR => ⟨rfl, rfl, hR⟩
    | succ fuel ih =>
      intro s t off hR
      unfold callbackFileSkip
      split_ifs with hpos
      · dsimp only
        rw [if_neg (by rw [hwrite]; exact lt_irrefl 0), if_neg (by rw [hwrite']; exact lt_irrefl 0)]
        exact ih _ _ _ (hcall _ _ _ _ hR)
      · exact ⟨rfl, rfl, hR⟩
  refine ⟨fun _ _ => trivial, fun s data len _ => (hwrite s _ _).ge, fun s t data len hR _ _ => ?_,
    fun _ s t cnt hR _ => hskip _ _ _ _ hR⟩
  exact ⟨hwrite _ _ _, hwrite' _ _ _, hcall _ _ _ _ hR⟩

/-- **Any callback** that returns 0 is called as the one that keeps the calls is. -/
theorem mimics_callback (sparse : Bool) (hwrite : ∀ s data len, (write s data len).1 = 0) (priv : σ) :
    Mimics sparse (fun _ => True) (fun calls s => s = runCalls write calls priv)
      (callback_file_ops recordCall) (callback_file_ops write) := by
  refine mimics_calls sparse (fun _ _ _ => rfl) hwrite fun calls s data len hs => ?_
  rw [hs, recordCall, runCalls, runCalls, List.foldl_append]
  rfl

/-- **The file and the calls**: writing to a file is mirrored by a callback that records its calls.
-/
theorem mimics_record (sparse : Bool) :
    Mimics sparse (fun n => n < 2 ^ 31) (fun f calls => Streamed sparse f (callBytes calls)) file_ops
      (callback_file_ops recordCall) := by
  refine ⟨fun _ h => h, fun f data len hlen => ?_, fun f calls data len hR hlt hret => ?_,
    fun hsparse f calls cnt hR hcnt => ?_⟩
  · change 0 ≤ (fileWrite f data len).1
    unfold fileWrite
    rw [if_neg (Nat.not_lt.mpr hlen)]
  · obtain ⟨hzero, -, hst⟩ := fileWrite_streamed hR hret
    refine ⟨hzero, rfl, ?_⟩
    have hcall : callBytes (calls ++ [(some data, toInt len)]) = callBytes calls ++ data.take len := by
      rw [toInt_of_lt hlt, callBytes, List.flatMap_append, List.flatMap_singleton]
      rfl
    exact hcall ▸ hst
  · subst hsparse
    obtain ⟨hzero, hst⟩ := fileSkip_streamed hR hcnt
    obtain ⟨hret, hbytes⟩ := @callbackFileSkip_record calls cnt.toNat cnt hcnt (by omega)
    exact ⟨hzero, hret, hbytes ▸ hst⟩

/-- The zeros behind a block are less than a block, when the lengths fit into an `int`. -/
theorem blockOk_of_lt {bs : UInt32} {bb : BackedBlock} (hbs : bs ≠ 0) (hlt : bs.toNat < 2 ^ 31)
    (hlen : bb.len.toNat < 2 ^ 31) : BlockOk (fun n => n < 2 ^ 31) bs bb := by
  refine ⟨hlen, ?_⟩
  have hsub := @align_sub_toNat bs bb.len hbs (by omega)
  have hpad := padded_lt (n := bb.len.toNat) (toNat_pos_of_ne_zero hbs)
  have hle := le_padded (n := bb.len.toNat) (toNat_pos_of_ne_zero hbs)
  unfold zeroSize
  rw [toInt_of_lt (by omega)]
  omega

/-- A callback is not called to pad. -/
theorem callback_pad (write : σ → Option (List UInt8) → ℤ → ℤ × σ) (sparse : Bool) (priv : σ)
    (len : ℤ) : (if sparse then priv else ((callback_file_ops write).pad priv len).2) = priv := by
  split_ifs <;> rfl

/-- **The calls of a callback.** When `sparse_file_write` writes an image to an empty file, then
`sparse_file_callback` calls every callback that returns 0 with the same data, which are the bytes of
the file. -/
theorem sparseFileCallback_calls {env : Env} {s : SparseFile} {sparse crc : Bool} {f : RawFile}
    (h : sparseFileWrite file_ops env s ⟨[], 0⟩ sparse crc = .ok (0, f))
    (hl : ∀ bb ∈ s.blocks, bb.len.toNat < 2 ^ 31) :
    ∃ calls, f.bytes = (if sparse then callBytes calls else resize 0 s.len.toNat (callBytes calls)) ∧
      ∀ {σ : Type} (write : σ → Option (List UInt8) → ℤ → ℤ × σ),
        (∀ s data len, (write s data len).1 = 0) → ∀ priv,
          sparseFileCallback write env s priv sparse crc = .ok (0, runCalls write calls priv) := by
  obtain ⟨hbs, hlt, -⟩ := sparseFileWrite_done h
  have hempty : Streamed sparse ⟨[], 0⟩ (callBytes []) := streamed_empty sparse
  obtain ⟨hnn, dev, calls, hst, hf, hrec⟩ := (mimics_record sparse).sparseFileWrite env hempty
    (fun bb hbb => blockOk_of_lt hbs hlt (hl bb hbb)) h
  rw [callback_pad] at hrec
  refine ⟨calls, ?_, fun write hwrite priv => ?_⟩
  · rw [hf]
    split_ifs with hsparse
    · exact hst.whole hsparse
    · change (filePad dev s.len).2.bytes = _
      rw [filePad, if_neg (not_lt.mpr hnn)]
      exact hst.resize_eq _
  · have hsame : priv = runCalls write [] priv := rfl
    obtain ⟨-, calls', priv', hrun, hcalls, hwrite'⟩ :=
      (mimics_callback sparse hwrite priv).sparseFileWrite env hsame (fun _ _ => ⟨trivial, trivial⟩)
        hrec
    rw [callback_pad] at hcalls hwrite'
    rw [hrun, ← hcalls] at hwrite'
    exact hwrite'

/-- Two filled blocks, with a gap in front of each. -/
def twoFills : SparseFile := ⟨4, 16, ⟨[⟨0, 1, 4, .fill 7⟩, ⟨1, 3, 4, .fill 9⟩], none, 4, 2⟩⟩

/-- Two fills with gaps are handed to a callback as calls whose bytes are the image. -/
theorem twoFills_calls :
    ∃ calls, [0, 0, 0, 0, 7, 0, 0, 0, 0, 0, 0, 0, 9, 0, 0, 0] =
        (if false then callBytes calls else resize 0 16 (callBytes calls)) ∧
      ∀ {σ : Type} (write : σ → Option (List UInt8) → ℤ → ℤ × σ),
        (∀ s data len, (write s data len).1 = 0) → ∀ priv,
          sparseFileCallback write noFiles twoFills priv false false =
            .ok (0, runCalls write calls priv) :=
  @sparseFileCallback_calls noFiles twoFills false false
    ⟨[0, 0, 0, 0, 7, 0, 0, 0, 0, 0, 0, 0, 9, 0, 0, 0], 16⟩ rfl (by decide)

end

/-! ## Compressed files -/

/-- The functions of zlib that `output_file.c` uses, over the state of a `gzFile`. -/
structure Gz (γ : Type) where
  /-- `gzwrite`: the number of bytes written, or 0. -/
  gzwrite : γ → List UInt8 → ℕ → ℕ × γ
  /-- `gzseek` with `SEEK_CUR`. -/
  gzseekCur : γ → ℤ → ℤ × γ
  /-- `gzseek` with `SEEK_SET`. -/
  gzseekSet : γ → ℤ → ℤ × γ
  /-- `gztell`. -/
  gztell : γ → ℤ

/-- What zlib says of a file that is open for writing, when no write fails, with the bytes that it
holds when it is closed after `g` (`content g`). -/
structure Gz.Documented {γ : Type} (z : Gz γ) (content : γ → List UInt8) : Prop where
  /-- A write of a full buffer is complete. -/
  write : ∀ g data len, 0 < len → len ≤ data.length → len ≤ INT_MAX.toNat →
    (z.gzwrite g data len).1 = len ∧ content (z.gzwrite g data len).2 = content g ++ data.take len
  /-- Only forward seeks are supported; they leave zeros up to the new position. -/
  seekCur : ∀ g cnt, 0 ≤ cnt → 0 ≤ (z.gzseekCur g cnt).1 ∧
    content (z.gzseekCur g cnt).2 = content g ++ List.replicate cnt.toNat 0
  /-- The same for a position. -/
  seekSet : ∀ g (pos : ℕ), (content g).length ≤ pos → 0 ≤ (z.gzseekSet g pos).1 ∧
    content (z.gzseekSet g pos).2 = padTo 0 pos (content g)
  /-- The position is that behind the bytes. -/
  tell : ∀ g, z.gztell g = (content g).length

section

variable {γ : Type} (z : Gz γ)

/-- `gz_file_skip`: a seek forward, which zlib fills up with zeros. -/
def gzFileSkip (g : γ) (cnt : ℤ) : ℤ × γ :=
  let r := z.gzseekCur g cnt
  if r.1 < 0 then (-1, r.2) else (0, r.2)

/-- `gz_file_pad`. The result of `gzwrite` is not looked at. -/
def gzFilePad (g : γ) (len : ℤ) : ℤ × γ :=
  if z.gztell g < 0 then (-1, g)
  else if z.gztell g ≥ len then (0, g)
  else
    let r := z.gzseekSet g (len - 1)
    if r.1 < 0 then (-1, r.2) else (0, (z.gzwrite r.2 [0] 1).2)

/-- The loop of `gz_file_write`, with as many passes as `fuel` allows. -/
def gzWriteLoop : ℕ → γ → List UInt8 → ℕ → ℤ × γ
  | 0, g, _, _ => (0, g)
  | fuel + 1, g, data, len =>
    if 0 < len then
      let r := z.gzwrite g data (min len INT_MAX.toNat)
      if r.1 = 0 then (-1, r.2) else gzWriteLoop fuel r.2 (data.drop r.1) (len - r.1)
    else (0, g)

/-- `gz_file_write`. Each pass of the loop takes at least one byte off. -/
def gzFileWrite (g : γ) (data : List UInt8) (len : ℕ) : ℤ × γ := gzWriteLoop z len g data len

/-- `gz_file_ops`: the operations on a compressed file. -/
def gz_file_ops : OutputFileOps γ := ⟨gzFileSkip z, gzFilePad z, gzFileWrite z⟩

end

section

variable {γ : Type} {z : Gz γ} {content : γ → List UInt8} (hz : z.Documented content)
include hz

/-- `gz_file_write` of a buffer that has the bytes. -/
theorem Gz.Documented.writeLoop {fuel : ℕ} {g : γ} {data : List UInt8} {len : ℕ}
    (hlen : len ≤ data.length) (hfuel : len ≤ fuel) :
    (gzWriteLoop z fuel g data len).1 = 0 ∧
      content (gzWriteLoop z fuel g data len).2 = content g ++ data.take len := by
  induction fuel generalizing g data len with
  | zero =>
    rw [Nat.le_zero.mp hfuel, List.take_zero, List.append_nil]
    exact ⟨rfl, rfl⟩
  | succ fuel ih =>
    unfold gzWriteLoop
    by_cases hpos : 0 < len
    · rw [if_pos hpos]
      have hmax : 0 < INT_MAX.toNat := by decide
      have hmin : 0 < min len INT_MAX.toNat := lt_min hpos hmax
      have hle := min_le_left len INT_MAX.toNat
      obtain ⟨hret, hcontent⟩ := hz.write g data _ hmin (hle.trans hlen) (min_le_right _ _)
      generalize min len INT_MAX.toNat = k at hmin hle hret hcontent ⊢
      dsimp only
      rw [hret, if_neg (Nat.ne_of_gt hmin)]
      obtain ⟨hzero, hrest⟩ := @ih (z.gzwrite g data k).2 (data.drop k) (len - k)
        (by rw [List.length_drop]; omega) (by omega)
      refine ⟨hzero, hrest.trans ?_⟩
      rw [hcontent, List.append_assoc]
      congr 1
      obtain ⟨m, rfl⟩ := Nat.exists_eq_add_of_le hle
      rw [Nat.add_sub_cancel_left, List.take_add]
    · rw [if_neg hpos, Nat.eq_zero_of_not_pos hpos, List.take_zero, List.append_nil]
      exact ⟨rfl, rfl⟩

/-- `gz_file_pad` fills the file up with zeros to the length. -/
theorem Gz.Documented.pad (g : γ) (len : ℤ) :
    content (gzFilePad z g len).2 = padTo 0 len.toNat (content g) := by
  unfold gzFilePad
  rw [hz.tell, if_neg (not_lt.mpr (Int.natCast_nonneg _))]
  split_ifs with hge
  · have hzero : len.toNat - (content g).length = 0 := by omega
    rw [padTo, hzero]
    exact (List.append_nil _).symm
  · obtain ⟨n, rfl⟩ : ∃ n : ℕ, len = n + 1 := ⟨(len - 1).toNat, by omega⟩
    have hle : (content g).length ≤ n := by omega
    obtain ⟨hret, hseek⟩ := hz.seekSet g n hle
    obtain ⟨-, hwrite⟩ := hz.write (z.gzseekSet g n).2 [0] 1 (by decide) (by decide) (by decide)
    rw [show (n : ℤ) + 1 - 1 = n by omega]
    dsimp only
    rw [if_neg (not_lt.mpr hret)]
    refine hwrite.trans ?_
    rw [hseek, show ((n : ℤ) + 1).toNat = n + 1 by omega, padTo_add 0 hle]
    rfl

/-- **The file and the compressed one**: writing to a file is mirrored by any zlib that does what it
documents. -/
theorem Gz.Documented.mimics (sparse : Bool) :
    Mimics sparse (fun _ => True) (fun f g => Streamed sparse f (content g)) file_ops
      (gz_file_ops z) := by
  refine ⟨fun _ _ => trivial, fun f data len hlen => ?_, fun f g data len hR _ hret => ?_,
    fun hsparse f g cnt hR hcnt => ?_⟩
  · change 0 ≤ (fileWrite f data len).1
    unfold fileWrite
    rw [if_neg (Nat.not_lt.mpr hlen)]
  · obtain ⟨hzero, hlen, hst⟩ := fileWrite_streamed hR hret
    obtain ⟨hzero', hcontent⟩ := @Gz.Documented.writeLoop _ _ _ hz len g data len hlen (le_refl len)
    exact ⟨hzero, hzero', hcontent ▸ hst⟩
  · subst hsparse
    obtain ⟨hzero, hst⟩ := fileSkip_streamed hR hcnt
    obtain ⟨hret, hcontent⟩ := hz.seekCur g cnt hcnt
    have hskip : gzFileSkip z g cnt = (0, (z.gzseekCur g cnt).2) := if_neg (not_lt.mpr hret)
    refine ⟨hzero, congrArg Prod.fst hskip, ?_⟩
    change Streamed false _ (content (gzFileSkip z g cnt).2)
    rw [hskip, hcontent]
    exact hst

/-- **Compressed files.** When `sparse_file_write` writes an image to an empty file, then it writes
the image to a compressed file, which holds the same bytes. In the normal format, it may hold more,
when blocks reach behind the length of the image: it is not cut there. -/
theorem sparseFileWrite_gz {env : Env} {s : SparseFile} {sparse crc : Bool} {f : RawFile} {g : γ}
    (h : sparseFileWrite file_ops env s ⟨[], 0⟩ sparse crc = .ok (0, f)) (hg : content g = []) :
    ∃ g', sparseFileWrite (gz_file_ops z) env s g sparse crc = .ok (0, g') ∧
      (sparse = true → content g' = f.bytes) ∧
      (sparse = false → s.len.toNat ≤ (content g').length ∧
        f.bytes = (content g').take s.len.toNat) := by
  have hempty : Streamed sparse ⟨[], 0⟩ (content g) := by
    rw [hg]
    exact streamed_empty sparse
  obtain ⟨hnn, dev, g₁, hst, hf, hrun⟩ := (hz.mimics sparse).sparseFileWrite env hempty
    (fun _ _ => ⟨trivial, trivial⟩) h
  refine ⟨_, hrun, fun hsparse => ?_, fun hsparse => ?_⟩
  · rw [hf, if_pos hsparse, if_pos hsparse]
    exact (hst.whole hsparse).symm
  · have hnot : ¬ (sparse = true) := by
      rw [hsparse]
      exact Bool.false_ne_true
    rw [hf, if_neg hnot, if_neg hnot]
    change s.len.toNat ≤ (content (gzFilePad z g₁ s.len).2).length ∧
      (filePad dev s.len).2.bytes = (content (gzFilePad z g₁ s.len).2).take s.len.toNat
    rw [hz.pad, length_padTo, filePad, if_neg (not_lt.mpr hnn)]
    exact ⟨Nat.le_max_left _ _, hst.resize_eq _⟩

end

/-- A compressed file that keeps what is written to it. -/
def bufferGz : Gz (List UInt8) where
  gzwrite g data len := (len, g ++ data.take len)
  gzseekCur g cnt :=
    if cnt < 0 then (-1, g) else (g.length + cnt, g ++ List.replicate cnt.toNat 0)
  gzseekSet g pos := if pos < g.length then (-1, g) else (pos, padTo 0 pos.toNat g)
  gztell g := g.length

/-- A buffer in memory behaves as zlib documents. -/
theorem bufferGz_documented : bufferGz.Documented id := by
  refine ⟨fun g data len _ _ _ => ⟨rfl, rfl⟩, fun g cnt hcnt => ?_, fun g pos hpos => ?_,
    fun _ => rfl⟩
  · dsimp only [bufferGz]
    rw [if_neg (not_lt.mpr hcnt)]
    exact ⟨Int.add_nonneg (Int.natCast_nonneg _) hcnt, rfl⟩
  · have hle : ¬ (pos : ℤ) < g.length := not_lt.mpr (Int.ofNat_le.mpr hpos)
    dsimp only [bufferGz]
    rw [if_neg hle]
    exact ⟨Int.natCast_nonneg _, rfl⟩

/-- Two fills with gaps, written through such a buffer, are the image. -/
theorem twoFills_gz :
    ∃ g', sparseFileWrite (gz_file_ops bufferGz) noFiles twoFills [] false false = .ok (0, g') ∧
      (false = true → id g' = [0, 0, 0, 0, 7, 0, 0, 0, 0, 0, 0, 0, 9, 0, 0, 0]) ∧
      (false = false → (16 : ℤ).toNat ≤ (id g').length ∧
        [0, 0, 0, 0, 7, 0, 0, 0, 0, 0, 0, 0, 9, 0, 0, 0] = (id g').take (16 : ℤ).toNat) :=
  @sparseFileWrite_gz _ _ _ bufferGz_documented noFiles twoFills false false
    ⟨[0, 0, 0, 0, 7, 0, 0, 0, 0, 0, 0, 0, 9, 0, 0, 0], 16⟩ [] rfl rfl

end AmlogicToolkit.Simg
