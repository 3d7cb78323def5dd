import AmlogicToolkit.Boot.Config

/-!
# The package extractor

`aml_image_extractor.c`: the records of a package, written to files of their own. A record has two
names, an offset and a size, and they are used as they stand in the file, without a check; so the
extractor does what it is for exactly when they are in bounds (`packageExtracted_iff`). Of its
messages only the error is kept.
-/

namespace AmlogicToolkit.Package

open Bytes Boot

/-! ## The buffer -/

/-- How the extractor can leave its memory. -/
inductive Fault where
  /-- A read of the last byte of the buffer, which nothing has set. -/
  | uninitialized
  /-- A read outside the buffer. -/
  | outOfBounds
  /-- A write outside the 32 bytes of `filename`. -/
  | overflow
  deriving DecidableEq

/-- A byte of the buffer, that has one byte more than the file. -/
def readBuffer (buffer : List UInt8) (loc : ℕ) : Except Fault UInt8 :=
  match buffer[loc]? with
  | some b => .ok b
  | none => .error (if loc = buffer.length then .uninitialized else .outOfBounds)

/-- `ntohl` on a machine that stores the lowest byte first. -/
def ntohl (w : UInt32) : UInt32 := UInt32.ofNat (ofLe (le32 w).reverse)

/-- `convert`: a little-endian word from four bytes. -/
def convert (test : List UInt8) (loc : ℕ) : Except Fault UInt32 := do
  let b0 ← readBuffer test loc
  let b1 ← readBuffer test (loc + 1)
  let b2 ← readBuffer test (loc + 2)
  let b3 ← readBuffer test (loc + 3)
  return ntohl ((b0.toUInt32 <<< 24) ||| (b1.toUInt32 <<< 16) ||| (b2.toUInt32 <<< 8) |||
    b3.toUInt32)

/-- What `%s` takes from an address: the bytes up to a zero, one after the other. It meets the end of
the buffer before `fuel` is out. -/
def readString (buffer : List UInt8) : ℕ → ℕ → Except Fault (List UInt8)
  | 0, _ => .error .outOfBounds
  | fuel + 1, loc => do
    let b ← readBuffer buffer loc
    if b = 0 then .ok [] else return b :: (← readString buffer fuel (loc + 1))

/-- The bytes that `fwrite` takes from an address. -/
def readBytes (buffer : List UInt8) : ℕ → ℕ → Except Fault (List UInt8)
  | 0, _ => .ok []
  | size + 1, loc => do
    let b ← readBuffer buffer loc
    return b :: (← readBytes buffer size (loc + 1))

/-! ## The records -/

/-- What the extractor does with a record. -/
inductive Extracted where
  /-- It writes a file. -/
  | written (filename bytes : List UInt8)
  /-- It reports that the file could not be opened. -/
  | notOpened (filename : List UInt8)
  deriving DecidableEq

/-- `record_loc`: the place of a record in the table. -/
def recordLoc (record : ℕ) : ℕ := 0x40 + record * 0x240

/-- One pass of the loop of `main`. Whether `fopen` opens the file of a record is up to `opens`. -/
def extractRecord (opens : ℕ → List UInt8 → Bool) (buffer : List UInt8) (record : ℕ) :
    Except Fault Extracted := do
  let record_loc := recordLoc record
  let name ← readString buffer (buffer.length + 1) (record_loc + 0x120)
  let type ← readString buffer (buffer.length + 1) (record_loc + 0x20)
  let filename := bytesOf "tmp/" ++ name ++ bytesOf "." ++ type
  -- `sprintf` writes a zero behind the name.
  if 32 < filename.length + 1 then .error .overflow
  else
    let file_loc ← convert buffer (record_loc + 0x10)
    let file_size ← convert buffer (record_loc + 0x18)
    if opens record filename then
      return .written filename (← readBytes buffer file_size.toNat file_loc.toNat)
    else return .notOpened filename

/-- The loop of `main` over the records that are left. -/
def extractRecords (opens : ℕ → List UInt8 → Bool) (buffer : List UInt8) :
    ℕ → ℕ → Except Fault (List Extracted)
  | 0, _ => .ok []
  | left + 1, record => do
    let out ← extractRecord opens buffer record
    return out :: (← extractRecords opens buffer left (record + 1))

/-- `main` on a file: the header is checked, then each record is extracted. -/
def amlImageExtractor (opens : ℕ → List UInt8 → Bool) (file : List UInt8) :
    Except Fault (List Extracted) := do
  -- The number of records is one byte.
  let count ← readBuffer file 0x18
  extractRecords opens file count.toNat 0

/-! ## What a package says -/

/-- The number of records, a byte of the header. -/
def recordCount (file : List UInt8) : ℕ := (file.getD 0x18 0).toNat

/-- The name that a record gives its file. -/
def recordName (file : List UInt8) (record : ℕ) : List UInt8 :=
  bytesOf "tmp/" ++ cString (file.drop (recordLoc record + 0x120)) ++ bytesOf "." ++
    cString (file.drop (recordLoc record + 0x20))

/-- Where the data of a record starts. -/
def recordOffset (file : List UInt8) (record : ℕ) : ℕ :=
  (read32 file (recordLoc record + 0x10)).toNat

/-- The size of the data of a record. -/
def recordSize (file : List UInt8) (record : ℕ) : ℕ :=
  (read32 file (recordLoc record + 0x18)).toNat

/-- What is promised for a record: the file gets the bytes of the package from the offset on, as many
as the size says, or it is reported as an error. -/
def Exact (file : List UInt8) (record : ℕ) (out : Extracted) : Prop :=
  (out = .written (recordName file record)
      (slice file (recordOffset file record) (recordSize file record)) ∧
    (slice file (recordOffset file record) (recordSize file record)).length =
      recordSize file record) ∨
  out = .notOpened (recordName file record)

/-- What is promised of the extractor: it stays in its memory, and does right by every record. -/
def ExtractsExactly (opens : ℕ → List UInt8 → Bool) (file : List UInt8) : Prop :=
  ∃ outs, amlImageExtractor opens file = .ok outs ∧ outs.length = recordCount file ∧
    ∀ (record : ℕ) (out : Extracted), outs[record]? = some out → Exact file record out

/-- A record that the extractor can take: its fields are in the file, its names end in the file, the
name of its file has room, and its data is in the file, unless the file cannot be opened. -/
structure RecordFits (opens : ℕ → List UInt8 → Bool) (file : List UInt8) (record : ℕ) : Prop where
  /-- The offset and the size are in the file. -/
  fields : recordLoc record + 0x1c ≤ file.length
  /-- The first name ends. -/
  name : 0 ∈ file.drop (recordLoc record + 0x120)
  /-- The second name ends. -/
  type : 0 ∈ file.drop (recordLoc record + 0x20)
  /-- With the zero behind it, the name of the file has 32 bytes at most. -/
  length : (recordName file record).length < 32
  /-- The data is in the file. -/
  inside : opens record (recordName file record) → recordSize file record = 0 ∨
    recordOffset file record + recordSize file record ≤ file.length

/-! ## Reads -/

section

variable {buffer : List UInt8} {loc : ℕ}

/-- A byte is read exactly at the positions of the buffer. -/
theorem readBuffer_ok_iff {b : UInt8} : readBuffer buffer loc = .ok b ↔ buffer[loc]? = some b := by
  unfold readBuffer
  cases buffer[loc]? with
  | some c => exact ⟨fun h => congrArg _ (Except.ok.inj h), fun h => congrArg _ (Option.some.inj h)⟩
  | none => exact iff_of_false (fun h => nomatch h) fun h => nomatch h

/-- What is read front to back is a slice. -/
theorem slice_succ {b : UInt8} (h : buffer[loc]? = some b) (n : ℕ) :
    slice buffer loc (n + 1) = b :: slice buffer (loc + 1) n := by
  obtain ⟨hloc, hb⟩ := List.getElem?_eq_some_iff.mp h
  rw [slice, List.drop_eq_getElem_cons hloc, List.take_succ_cons, hb]
  rfl

/-- A field is read exactly within the buffer, or anywhere when it has no bytes. -/
theorem readBytes_ok_iff {size : ℕ} {bytes : List UInt8} : readBytes buffer size loc = .ok bytes ↔
    (size = 0 ∨ loc + size ≤ buffer.length) ∧ bytes = slice buffer loc size := by
  induction size generalizing loc bytes with
  | zero =>
    rw [slice_zero]
    exact ⟨fun h => ⟨Or.inl rfl, (Except.ok.inj h).symm⟩, fun h => congrArg _ h.2.symm⟩
  | succ size ih =>
    simp only [readBytes, Except.bind_ok_iff, readBuffer_ok_iff, ih]
    constructor
    · rintro ⟨b, hb, rest, ⟨hin, rfl⟩, h⟩
      cases h
      have hloc := (List.getElem?_eq_some_iff.mp hb).1
      exact ⟨Or.inr (by omega), (slice_succ hb size).symm⟩
    · rintro ⟨hin, rfl⟩
      have hloc : loc < buffer.length := by omega
      have hb := List.getElem?_eq_getElem hloc
      exact ⟨_, hb, _, ⟨by omega, rfl⟩, congrArg _ (slice_succ hb size).symm⟩

/-- A string is read when it ends in the file. -/
theorem readString_ok_iff {fuel : ℕ} {b : List UInt8} (hfuel : buffer.length < loc + fuel) :
    readString buffer fuel loc = .ok b ↔ 0 ∈ buffer.drop loc ∧ b = cString (buffer.drop loc) := by
  induction fuel generalizing loc b with
  | zero =>
    have hnil : buffer.drop loc = [] := List.drop_eq_nil_of_le (by omega)
    exact iff_of_false (fun h => nomatch h) fun h => List.not_mem_nil (hnil ▸ h.1)
  | succ fuel ih =>
    simp only [readString, Except.bind_ok_iff, readBuffer_ok_iff]
    -- Inside the buffer one byte is read, and it ends the string when it is NUL.
    by_cases hloc : loc < buffer.length
    · rw [List.drop_eq_getElem_cons hloc, cString]
      simp only [List.getElem?_eq_getElem hloc, Option.some.injEq, exists_eq_left']
      by_cases h0 : buffer[loc] = 0
      · rw [if_pos h0, h0]
        simp [eq_comm]
      · rw [if_neg h0, List.takeWhile_cons_of_pos (by simpa using h0), List.mem_cons]
        have hrest (rest : List UInt8) := @ih (loc + 1) rest (by omega)
        simp only [Except.bind_ok_iff, hrest]
        constructor
        · rintro ⟨rest, ⟨hmem, rfl⟩, h⟩
          cases h
          exact ⟨Or.inr hmem, rfl⟩
        · rintro ⟨hmem, rfl⟩
          exact ⟨_, ⟨hmem.resolve_left fun h => h0 h.symm, rfl⟩, rfl⟩
    · -- Behind the buffer nothing can be read.
      have hnil : buffer.drop loc = [] := List.drop_eq_nil_of_le (by omega)
      rw [hnil, List.getElem?_eq_none (by omega)]
      exact iff_of_false (fun ⟨_, h, _⟩ => nomatch h) fun h => List.not_mem_nil h.1

/-- Two numbers without a bit in common are added by `|`. -/
theorem or_shiftLeft {a b i k : ℕ} (h : b < 2 ^ i) : a <<< (i + k) ||| b <<< k = (a * 2 ^ i + b) <<< k := by
  rw [Nat.shiftLeft_add, ← Nat.shiftLeft_or_distrib, ← Nat.shiftLeft_add_eq_or_of_lt h,
    Nat.shiftLeft_eq a i]

/-- A byte loses no bit when it is shifted inside a word. -/
theorem toNat_shiftLeft_byte (b : UInt8) {k : UInt32} (hk : k.toNat ≤ 24) :
    (b.toUInt32 <<< k).toNat = b.toNat <<< k.toNat := by
  have hb := b.toNat_lt
  rw [UInt32.toNat_shiftLeft, UInt8.toNat_toUInt32, Nat.mod_eq_of_lt (show k.toNat < 32 by omega)]
  refine Nat.mod_eq_of_lt ?_
  rw [Nat.shiftLeft_eq]
  calc b.toNat * 2 ^ k.toNat < 2 ^ 8 * 2 ^ k.toNat :=
        Nat.mul_lt_mul_of_pos_right hb (Nat.two_pow_pos _)
    _ ≤ 2 ^ 8 * 2 ^ 24 := Nat.mul_le_mul_left _ (Nat.pow_le_pow_right (by decide) hk)
    _ = 2 ^ 32 := by decide

/-- Four bytes in a word, the first one at the top. -/
theorem toNat_word (b0 b1 b2 b3 : UInt8) :
    ((b0.toUInt32 <<< 24) ||| (b1.toUInt32 <<< 16) ||| (b2.toUInt32 <<< 8) ||| b3.toUInt32).toNat =
      ofLe [b3, b2, b1, b0] := by
  have h1 : b1.toNat < 2 ^ 8 := b1.toNat_lt
  have h2 : b2.toNat < 2 ^ 8 := b2.toNat_lt
  have h3 : b3.toNat < 2 ^ 8 := b3.toNat_lt
  have s0 : (b0.toUInt32 <<< 24).toNat = b0.toNat <<< (8 + 16) := toNat_shiftLeft_byte b0 (by decide)
  have s1 : (b1.toUInt32 <<< 16).toNat = b1.toNat <<< 16 := toNat_shiftLeft_byte b1 (by decide)
  have s2 : (b2.toUInt32 <<< 8).toNat = b2.toNat <<< 8 := toNat_shiftLeft_byte b2 (by decide)
  rw [UInt32.toNat_or, UInt32.toNat_or, UInt32.toNat_or, s0, s1, s2, UInt8.toNat_toUInt32]
  calc b0.toNat <<< (8 + 16) ||| b1.toNat <<< 16 ||| b2.toNat <<< 8 ||| b3.toNat
      = (b0.toNat * 2 ^ 8 + b1.toNat) <<< (8 + 8) ||| b2.toNat <<< 8 ||| b3.toNat := by
        rw [or_shiftLeft h1]
    _ = ((b0.toNat * 2 ^ 8 + b1.toNat) * 2 ^ 8 + b2.toNat) <<< 8 ||| b3.toNat := by
        rw [or_shiftLeft h2]
    _ = ((b0.toNat * 2 ^ 8 + b1.toNat) * 2 ^ 8 + b2.toNat) * 2 ^ 8 + b3.toNat := by
        rw [← Nat.shiftLeft_add_eq_or_of_lt h3, Nat.shiftLeft_eq]
    _ = ofLe [b3, b2, b1, b0] := by
        simp only [ofLe]
        omega

/-- `ntohl` undoes the order of the shifts. -/
theorem ntohl_word (b0 b1 b2 b3 : UInt8) :
    ntohl ((b0.toUInt32 <<< 24) ||| (b1.toUInt32 <<< 16) ||| (b2.toUInt32 <<< 8) |||
      b3.toUInt32) = UInt32.ofNat (ofLe [b0, b1, b2, b3]) := by
  rw [ntohl, le32, toNat_word]
  exact congrArg (fun b => UInt32.ofNat (ofLe b.reverse)) (toLe_ofLe [b3, b2, b1, b0])

/-- `convert` reads a little-endian word. -/
theorem convert_ok_iff {w : UInt32} :
    convert buffer loc = .ok w ↔ loc + 4 ≤ buffer.length ∧ w = read32 buffer loc := by
  simp only [convert, Except.bind_ok_iff, readBuffer_ok_iff, ntohl_word]
  have hslice {b0 b1 b2 b3 : UInt8} (h0 : buffer[loc]? = some b0)
      (h1 : buffer[loc + 1]? = some b1) (h2 : buffer[loc + 2]? = some b2)
      (h3 : buffer[loc + 3]? = some b3) : slice buffer loc 4 = [b0, b1, b2, b3] := by
    rw [slice_succ h0, slice_succ h1, slice_succ h2, slice_succ h3, slice_zero]
  constructor
  · rintro ⟨b0, h0, b1, h1, b2, h2, b3, h3, h⟩
    cases h
    have hloc := (List.getElem?_eq_some_iff.mp h3).1
    exact ⟨by omega, by rw [read32, hslice h0 h1 h2 h3]⟩
  · rintro ⟨hin, rfl⟩
    have h (k : ℕ) (hk : k < 4) : ∃ b, buffer[loc + k]? = some b :=
      ⟨_, List.getElem?_eq_getElem (by omega)⟩
    obtain ⟨b0, h0⟩ := h 0 (by decide)
    obtain ⟨b1, h1⟩ := h 1 (by decide)
    obtain ⟨b2, h2⟩ := h 2 (by decide)
    obtain ⟨b3, h3⟩ := h 3 (by decide)
    exact ⟨b0, h0, b1, h1, b2, h2, b3, h3, by rw [read32, hslice h0 h1 h2 h3]; rfl⟩

end

/-! ## The whole package -/

section

variable {opens : ℕ → List UInt8 → Bool} {file : List UInt8}

/-- What the extractor does with a record that it can take. -/
def extracted (opens : ℕ → List UInt8 → Bool) (file : List UInt8) (record : ℕ) : Extracted :=
  if opens record (recordName file record) then
    .written (recordName file record)
      (slice file (recordOffset file record) (recordSize file record))
  else .notOpened (recordName file record)

/-- **One record** is extracted exactly when the extractor can take it. -/
theorem extractRecord_ok_iff {record : ℕ} {out : Extracted} :
    extractRecord opens file record = .ok out ↔
      RecordFits opens file record ∧ out = extracted opens file record := by
  have hstring (loc : ℕ) {b : List UInt8} : readString file (file.length + 1) loc = .ok b ↔
      0 ∈ file.drop loc ∧ b = cString (file.drop loc) := readString_ok_iff (by omega)
  simp only [extractRecord, Except.bind_ok_iff, hstring, extracted]
  -- The checks of the source, one after the other: the strings, the length of the name, the fields,
  -- the bytes.
  constructor
  · rintro ⟨name, ⟨hname, rfl⟩, type, ⟨htype, rfl⟩, h⟩
    change (if 32 < (recordName file record).length + 1 then _ else _) = _ at h
    have hlength : ¬ 32 < (recordName file record).length + 1 := fun hlt => by
      rw [if_pos hlt] at h
      cases h
    rw [if_neg hlength] at h
    simp only [Except.bind_ok_iff, convert_ok_iff] at h
    obtain ⟨offset, ⟨hoffset, rfl⟩, size, ⟨hsize, rfl⟩, h⟩ := h
    change (if opens record (recordName file record) then _ else _) = _ at h
    by_cases hopens : opens record (recordName file record)
    · rw [if_pos hopens] at h ⊢
      simp only [Except.bind_ok_iff, readBytes_ok_iff] at h
      obtain ⟨bytes, ⟨hin, rfl⟩, h⟩ := h
      cases h
      exact ⟨⟨by omega, hname, htype, by omega, fun _ => hin⟩, rfl⟩
    · rw [if_neg hopens] at h ⊢
      cases h
      exact ⟨⟨by omega, hname, htype, by omega, fun h => absurd h hopens⟩, rfl⟩
  · -- A record that fits passes each of these checks.
    rintro ⟨h, rfl⟩
    refine ⟨_, ⟨h.name, rfl⟩, _, ⟨h.type, rfl⟩, ?_⟩
    have hfields := h.fields
    have hlength := h.length
    change (if 32 < (recordName file record).length + 1 then _ else _) = _
    rw [if_neg (by omega)]
    simp only [Except.bind_ok_iff, convert_ok_iff]
    refine ⟨_, ⟨by omega, rfl⟩, _, ⟨by omega, rfl⟩, ?_⟩
    change (if opens record (recordName file record) then _ else _) = _
    by_cases hopens : opens record (recordName file record)
    · rw [if_pos hopens, if_pos hopens]
      simp only [Except.bind_ok_iff, readBytes_ok_iff]
      exact ⟨_, ⟨h.inside hopens, rfl⟩, rfl⟩
    · rw [if_neg hopens, if_neg hopens]
      rfl

/-- **All records from one on** are extracted exactly when each of them fits the file. -/
theorem extractRecords_ok_iff {left record : ℕ} {outs : List Extracted} :
    extractRecords opens file left record = .ok outs ↔
      (∀ k < left, RecordFits opens file (record + k)) ∧
        outs = (List.range' record left).map (extracted opens file) := by
  induction left generalizing record outs with
  | zero =>
    exact ⟨fun h => ⟨fun k hk => absurd hk (Nat.not_lt_zero k), (Except.ok.inj h).symm⟩,
      fun h => congrArg _ h.2.symm⟩
  | succ left ih =>
    simp only [extractRecords, Except.bind_ok_iff, extractRecord_ok_iff, ih]
    constructor
    · rintro ⟨out, ⟨hfirst, rfl⟩, rest, ⟨hrest, rfl⟩, h⟩
      cases h
      refine ⟨fun k hk => ?_, by rw [List.range'_succ]; rfl⟩
      cases k with
      | zero => exact hfirst
      | succ k =>
        rw [← Nat.succ_add_eq_add_succ]
        exact hrest k (Nat.lt_of_succ_lt_succ hk)
    · rintro ⟨h, rfl⟩
      refine ⟨_, ⟨h 0 (Nat.succ_pos left), rfl⟩, _, ⟨fun k hk => ?_, rfl⟩, by
        rw [List.range'_succ]; rfl⟩
      rw [Nat.succ_add_eq_add_succ]
      exact h (k + 1) (Nat.succ_lt_succ hk)

/-- The extractor comes to its end when it can take all records, and then does what is to be done for
each. -/
theorem amlImageExtractor_ok_iff {outs : List Extracted} :
    amlImageExtractor opens file = .ok outs ↔
      (0x18 < file.length ∧ ∀ record < recordCount file, RecordFits opens file record) ∧
        outs = (List.range (recordCount file)).map (extracted opens file) := by
  simp only [amlImageExtractor, Except.bind_ok_iff, readBuffer_ok_iff, extractRecords_ok_iff,
    Nat.zero_add, ← List.range_eq_range']
  constructor
  · rintro ⟨count, hcount, hrecords, rfl⟩
    have hlt := (List.getElem?_eq_some_iff.mp hcount).1
    have hget : recordCount file = count.toNat := by
      rw [recordCount, List.getD_eq_getElem?_getD, hcount]
      rfl
    rw [hget]
    exact ⟨⟨hlt, hrecords⟩, rfl⟩
  · rintro ⟨⟨hlt, hrecords⟩, rfl⟩
    have hget : recordCount file = file[0x18].toNat := by
      rw [recordCount, List.getD_eq_getElem _ _ hlt]
    rw [hget] at hrecords ⊢
    exact ⟨_, List.getElem?_eq_getElem hlt, hrecords, rfl⟩

/-- A record that the extractor can take is extracted as promised. -/
theorem RecordFits.exact {record : ℕ} (h : RecordFits opens file record) :
    Exact file record (extracted opens file record) := by
  unfold extracted
  by_cases hopens : opens record (recordName file record)
  · rw [if_pos hopens]
    refine Or.inl ⟨rfl, ?_⟩
    rcases h.inside hopens with h0 | hin
    · rw [h0, slice_zero]
      rfl
    · exact length_slice_of_le hin
  · rw [if_neg hopens]
    exact Or.inr rfl

/-- **The extractor is in bounds and exact** exactly when the package has a record count and the
extractor can take every record. -/
theorem packageExtracted_iff : ExtractsExactly opens file ↔
    0x18 < file.length ∧ ∀ record < recordCount file, RecordFits opens file record := by
  constructor
  · rintro ⟨outs, h, -⟩
    exact (amlImageExtractor_ok_iff.mp h).1
  · intro h
    refine ⟨_, amlImageExtractor_ok_iff.mpr ⟨h, rfl⟩, by simp, fun record out hout => ?_⟩
    obtain ⟨hlt, rfl⟩ := List.getElem?_eq_some_iff.mp hout
    rw [List.length_map, List.length_range] at hlt
    rw [List.getElem_map, List.getElem_range]
    exact (h.2 record hlt).exact

end

/-- A package of 354 bytes with one record, of one byte at offset 512, for `tmp/a.b`. -/
def strayRecord : List UInt8 :=
  List.replicate 0x18 0 ++ [1] ++ List.replicate 0x37 0 ++ [0, 2, 0, 0, 0, 0, 0, 0, 1] ++
    List.replicate 7 0 ++ bytesOf "b" ++ List.replicate 255 0 ++ bytesOf "a" ++ [0]

/-- Its data is read outside the buffer. -/
theorem strayRecord_is_read_outside : strayRecord.length = 354 ∧
    recordName strayRecord 0 = bytesOf "tmp/a.b" ∧ recordOffset strayRecord 0 = 512 ∧
    amlImageExtractor (fun _ _ => true) strayRecord = .error .outOfBounds ∧
    ¬ ExtractsExactly (fun _ _ => true) strayRecord := by
  have h : amlImageExtractor (fun _ _ => true) strayRecord = .error .outOfBounds := by
    decide +kernel
  exact ⟨by decide +kernel, by decide +kernel, by decide +kernel, h,
    fun ⟨_, hok, _⟩ => nomatch h.symm.trans hok⟩

end AmlogicToolkit.Package
