import AmlogicToolkit.Simg.Consistent

/-!
# Showing an image

`simg_dump.py`, on one file: what is printed, the rows of the table and whether the program stops
with an exception. A file that is shown without a complaint is one of version 1.0 with chunks of the
format that have the blocks of the header, and nothing behind them, except that the data of the last
chunk may be cut off (`dumpFile_clean_iff`).
-/

namespace AmlogicToolkit.Simg

open Bytes

/-! ## What is shown -/

/-- The options of the tool: how often `-v` is given, `-s`, and whether `-c` names a file. -/
structure DumpOptions where
  /-- How often there is `-v`. -/
  verbose : ℕ
  /-- `-s`. -/
  showhash : Bool
  /-- Whether there is a file name for `-c`. -/
  csvfilename : Bool

/-- `output`: whether rows of chunks are asked for. -/
def DumpOptions.output (o : DumpOptions) : Prop :=
  0 < o.verbose ∨ o.csvfilename = true ∨ o.showhash = true

instance (o : DumpOptions) : Decidable o.output :=
  inferInstanceAs (Decidable (0 < o.verbose ∨ o.csvfilename = true ∨ o.showhash = true))

/-- A number with leading zeros, in hexadecimal digits. -/
def hex (width n : ℕ) : String :=
  let digits := (Nat.toDigits 16 n).map Char.toUpper
  String.ofList (List.replicate (width - digits.length) (Char.ofNat 48) ++ digits)

/-- A text behind blanks, up to a width. -/
def padLeft (width : ℕ) (s : String) : String :=
  String.ofList (List.replicate (width - s.length) (Char.ofNat 32)) ++ s

/-- A text in front of blanks. -/
def padRight (width : ℕ) (s : String) : String :=
  s ++ String.ofList (List.replicate (width - s.length) (Char.ofNat 32))

/-- `curtype`: what is shown of the type of a chunk. -/
inductive CurType where
  /-- A raw chunk. -/
  | raw
  /-- A fill chunk. -/
  | fill (fill : UInt32)
  /-- A chunk without data. -/
  | dontCare
  /-- A checksum. -/
  | crc32 (crc : UInt32)
  deriving DecidableEq

/-- The text of a type, as it stands in a row. -/
def CurType.text : CurType → String
  | .raw => "Raw data"
  | .fill v => "Fill with 0x" ++ hex 8 v.toNat
  | .dontCare => "Don't care"
  | .crc32 v => "Unverified CRC32 0x" ++ hex 8 v.toNat

/-- A row of the table has the place and size of a chunk, its blocks and its checksum. -/
structure DumpRow where
  /-- The number of the chunk, from 1 on. -/
  i : ℕ
  /-- Where its data starts. -/
  curpos : ℕ
  /-- The size of its data. -/
  data_sz : ℤ
  /-- The blocks before it. -/
  offset : ℕ
  /-- Its blocks. -/
  chunk_sz : UInt32
  /-- Its type. -/
  curtype : CurType
  /-- The checksum of its data. -/
  curhash : String
  deriving DecidableEq

/-- What is printed at once: a line of the header, a chunk, or a complaint. -/
inductive DumpPrint where
  /-- The magic number is another one. -/
  | magic (magic : UInt32)
  /-- The version is another one. -/
  | version (major_version minor_version : UInt16)
  /-- The size of the file header is another one. -/
  | fileHdrSz (file_hdr_sz : UInt16)
  /-- The size of the chunk headers is another one. -/
  | chunkHdrSz (chunk_hdr_sz : UInt16)
  /-- The sizes of the header. -/
  | total (total_blks blk_sz total_chunks : UInt32)
  /-- The checksum of the header. -/
  | checksum (image_checksum : UInt32)
  /-- The titles of the columns. -/
  | columns
  /-- A chunk, before its data is looked at. -/
  | chunk (i curpos : ℕ) (data_sz : ℤ) (offset : ℕ) (chunk_sz : UInt32)
  /-- The size of raw data is wrong. -/
  | rawSize (data_sz : ℤ) (output_size : ℕ)
  /-- The size of a fill word is wrong. -/
  | fillSize (data_sz : ℤ)
  /-- There is data where none is expected. -/
  | dontCareSize (data_sz : ℤ)
  /-- The size of a checksum is wrong. -/
  | crcSize (data_sz : ℤ)
  /-- The type is unknown. -/
  | unknownType (chunk_type : UInt16)
  /-- The type of a chunk. -/
  | curtype (curtype : CurType)
  /-- The bytes of its header. -/
  | header (header_bin : List UInt8)
  /-- The checksum of its data. -/
  | curhash (curhash : String)
  /-- The end of the chunks. -/
  | endOf (pos offset : ℕ)
  /-- The header has another number of blocks. -/
  | blocks (total_blks : UInt32) (offset : ℕ)
  /-- There are bytes behind the chunks. -/
  | junk (junk_len : ℕ)
  deriving DecidableEq

/-- The text that is printed, for the program name `me` and the file name `path`. -/
def DumpPrint.text (me path : String) : DumpPrint → String
  | .magic v => me ++ ": " ++ path ++ ": Magic should be 0xED26FF3A but is 0x" ++ hex 8 v.toNat ++ "\n"
  | .version major minor => me ++ ": " ++ path ++
      ": I only know about version 1.0, but this is version " ++ toString major ++ "." ++
      toString minor ++ "\n"
  | .fileHdrSz n => me ++ ": " ++ path ++ ": The file header size was expected to be 28, but is " ++
      toString n ++ ".\n"
  | .chunkHdrSz n => me ++ ": " ++ path ++
      ": The chunk header size was expected to be 12, but is " ++ toString n ++ ".\n"
  | .total blks sz chunks => path ++ ": Total of " ++ toString blks ++ " " ++ toString sz ++
      "-byte output blocks in " ++ toString chunks ++ " input chunks.\n"
  | .checksum v => "checksum=0x" ++ hex 8 v.toNat ++ "\n"
  | .columns => "            input_bytes      output_blocks\n" ++
      "chunk    offset     number  offset  number\n"
  | .chunk i curpos data_sz offset chunk_sz => padLeft 4 (toString i) ++ " " ++
      padLeft 10 (toString curpos) ++ " " ++ padLeft 10 (toString data_sz) ++ " " ++
      padLeft 7 (toString offset) ++ " " ++ padLeft 7 (toString chunk_sz) ++ " "
  | .rawSize data_sz output_size => "Raw chunk input size (" ++ toString data_sz ++
      ") does not match output size (" ++ toString output_size ++ ")\n"
  | .fillSize data_sz => "Fill chunk should have 4 bytes of fill, but this has " ++
      toString data_sz ++ "\n"
  | .dontCareSize data_sz => "Don't care chunk input size is non-zero (" ++ toString data_sz ++ ")\n"
  | .crcSize data_sz => "CRC32 chunk should have 4 bytes of CRC, but this has " ++
      toString data_sz ++ "\n"
  | .unknownType t => "Unknown chunk type 0x" ++ hex 4 t.toNat ++ "\n"
  | .curtype t => padRight 18 t.text ++ " "
  | .header b =>
      let byte := fun i => hex 2 (b.getD i 0).toNat
      " (" ++ byte 0 ++ byte 1 ++ " " ++ byte 2 ++ byte 3 ++ " " ++ byte 4 ++ byte 5 ++ byte 6 ++
        byte 7 ++ " " ++ byte 8 ++ byte 9 ++ byte 10 ++ byte 11 ++ ") "
  | .curhash s => s ++ "\n"
  | .endOf pos offset => "     " ++ padLeft 10 (toString pos) ++ "            " ++
      padLeft 7 (toString offset) ++ "         End\n"
  | .blocks total_blks offset => "The header said we should have " ++ toString total_blks ++
      " output blocks, but we saw " ++ toString offset ++ "\n"
  | .junk n => "There were " ++ toString n ++ " bytes of extra data at the end of the file.\n"

/-- Whether something is wrong with the file. -/
def DumpPrint.complaint : DumpPrint → Bool
  | .magic _ | .version _ _ | .fileHdrSz _ | .chunkHdrSz _ => true
  | .rawSize _ _ | .fillSize _ | .dontCareSize _ | .crcSize _ | .unknownType _ => true
  | .blocks _ _ | .junk _ => true
  | .total _ _ _ | .checksum _ | .columns | .chunk _ _ _ _ _ => false
  | .curtype _ | .header _ | .curhash _ | .endOf _ _ => false

/-- A line of the table is the titles or a row. -/
inductive CsvLine where
  /-- The titles. -/
  | titles
  /-- A chunk. -/
  | row (row : DumpRow)
  deriving DecidableEq

/-! ## Chunks -/

/-- `struct.unpack` of bytes that are read: an exception when there are too few. -/
def readStruct (file : List UInt8) (pos len : ℕ) : Option (List UInt8) :=
  if pos + len ≤ file.length then some (slice file pos len) else none

/-- What comes of a chunk: it is shown, or the tool stops there. -/
inductive ChunkDump where
  /-- An exception. -/
  | raised
  /-- A complaint, behind which the loop is left. -/
  | complaint (print : DumpPrint)
  /-- Its type, the checksum and the position behind its data. -/
  | shown (curtype : CurType) (curhash : String) (pos : ℕ)

section

variable (sha1 : List UInt8 → String) (o : DumpOptions) (file : List UInt8) (hdr : SparseHeader)

/-- The branches over `chunk_type`. A read at the end of the file returns fewer bytes. -/
def dumpChunk (pos : ℕ) (h : ChunkHeader) : ChunkDump :=
  let data_sz : ℤ := h.total_sz.toNat - 12
  if h.chunk_type = CHUNK_TYPE_RAW then
    let output_size := h.chunk_sz.toNat * hdr.blk_sz.toNat
    if data_sz ≠ output_size then .complaint (.rawSize data_sz output_size)
    else
      let data := slice file pos data_sz.toNat
      .shown .raw (if o.showhash then sha1 data else "") (pos + data.length)
  else if h.chunk_type = CHUNK_TYPE_FILL then
    if data_sz ≠ 4 then .complaint (.fillSize data_sz)
    else
      match readStruct file pos 4 with
      | none => .raised
      | some fill_bin =>
        let data := cycle (hdr.blk_sz.toNat / 4) fill_bin
        .shown (.fill (read32 fill_bin 0))
          (if o.showhash then sha1 (cycle h.chunk_sz.toNat data) else "") (pos + 4)
  else if h.chunk_type = CHUNK_TYPE_DONT_CARE then
    if data_sz ≠ 0 then .complaint (.dontCareSize data_sz) else .shown .dontCare "" pos
  else if h.chunk_type = CHUNK_TYPE_CRC32 then
    if data_sz ≠ 4 then .complaint (.crcSize data_sz)
    else
      match readStruct file pos 4 with
      | none => .raised
      | some crc_bin => .shown (.crc32 (read32 crc_bin 0)) "" (pos + 4)
  else .complaint (.unknownType h.chunk_type)

/-- What comes of the loop over the chunks: what is printed, the rows, and the position and the
blocks, unless there was an exception. -/
structure LoopDump where
  /-- What is printed. -/
  printed : List DumpPrint
  /-- The rows. -/
  rows : List CsvLine
  /-- The position and the blocks. -/
  stop : Option (ℕ × ℕ)

/-- The loop over the chunks that are left, from the one with number `i` on. -/
def dumpLoop : ℕ → ℕ → ℕ → ℕ → LoopDump
  | 0, _, pos, offset => ⟨[], [], some (pos, offset)⟩
  | left + 1, i, pos, offset =>
    match readStruct file pos CHUNK_HEADER_LEN with
    | none => ⟨[], [], none⟩
    | some header_bin =>
      let h := ChunkHeader.decode header_bin
      let curpos := pos + CHUNK_HEADER_LEN
      let data_sz : ℤ := h.total_sz.toNat - 12
      let before := if 0 < o.verbose then [.chunk i curpos data_sz offset h.chunk_sz] else []
      match dumpChunk sha1 o file hdr curpos h with
      | .raised => ⟨before, [], none⟩
      | .complaint print => ⟨before ++ [print], [], some (curpos, offset)⟩
      | .shown curtype curhash pos =>
        let behind := if 0 < o.verbose then [.curtype curtype] ++
            (if 1 < o.verbose then [.header header_bin] else []) ++ [.curhash curhash]
          else []
        let row := if o.csvfilename
          then [.row ⟨i, curpos, data_sz, offset, h.chunk_sz, curtype, curhash⟩] else []
        let rest := dumpLoop left (i + 1) pos (offset + h.chunk_sz.toNat)
        ⟨before ++ behind ++ rest.printed, row ++ rest.rows, rest.stop⟩

/-! ## Files -/

/-- What comes of a file: what was printed, the rows of the table, and whether an exception was
raised. -/
structure Dump where
  /-- What is printed. -/
  printed : List DumpPrint
  /-- The rows. -/
  rows : List CsvLine
  /-- Whether there was an exception. -/
  raised : Bool

/-- The loop of `main` over the files, for one of them. -/
def dumpFile : Dump :=
  match readStruct file 0 SPARSE_HEADER_LEN with
  | none => ⟨[], [], true⟩
  | some header_bin =>
    let header := SparseHeader.decode header_bin
    if header.magic ≠ SPARSE_HEADER_MAGIC then ⟨[.magic header.magic], [], false⟩
    else if header.major_version ≠ 1 ∨ header.minor_version ≠ 0 then
      ⟨[.version header.major_version header.minor_version], [], false⟩
    else if header.file_hdr_sz ≠ 28 then ⟨[.fileHdrSz header.file_hdr_sz], [], false⟩
    else if header.chunk_hdr_sz ≠ 12 then ⟨[.chunkHdrSz header.chunk_hdr_sz], [], false⟩
    else
      let totals := [.total header.total_blks header.blk_sz header.total_chunks] ++
        if header.image_checksum ≠ 0 then [.checksum header.image_checksum] else []
      if ¬ o.output then ⟨totals, [], false⟩
      else
        let columns := if 0 < o.verbose then [.columns] else []
        let titles := if o.csvfilename then [.titles] else []
        let loop := dumpLoop sha1 o file header header.total_chunks.toNat 1 SPARSE_HEADER_LEN 0
        match loop.stop with
        | none => ⟨totals ++ columns ++ loop.printed, titles ++ loop.rows, true⟩
        | some (pos, offset) =>
          let junk_len := file.length - pos
          ⟨totals ++ columns ++ loop.printed ++
              (if 0 < o.verbose then [.endOf pos offset] else []) ++
              (if header.total_blks.toNat ≠ offset then [.blocks header.total_blks offset] else []) ++
              (if junk_len ≠ 0 then [.junk junk_len] else []),
            titles ++ loop.rows, false⟩

end

/-- A file is shown without an exception and without a complaint. -/
def Dump.Clean (d : Dump) : Prop := d.raised = false ∧ ∀ p ∈ d.printed, p.complaint = false

instance (d : Dump) : Decidable d.Clean :=
  inferInstanceAs (Decidable (d.raised = false ∧ ∀ p ∈ d.printed, p.complaint = false))

/-! ## The chunks that are shown -/

section

variable (sha1 : List UInt8 → String) (o : DumpOptions) (file : List UInt8) (hdr : SparseHeader)

/-- A record that is shown: that all of a raw payload is in the file is not looked at. -/
structure Record.Shown (r : Record) : Prop where
  /-- The header is in the file. -/
  present : r.start + CHUNK_HEADER_LEN ≤ file.length
  /-- The type is known. -/
  kind : r.header.kind ≠ .unknown
  /-- The total size is that of the header and the payload. -/
  total_sz : r.header.total_sz.toNat = hdr.chunk_hdr_sz.toNat + r.header.payloadSize hdr.blk_sz
  /-- The word of a fill chunk or of a checksum is in the file. -/
  payload : r.header.kind = .raw ∨ r.stop hdr ≤ file.length

/-- The type that is shown for a record. -/
def Record.curType (r : Record) : CurType :=
  match r.header.kind with
  | .raw => .raw
  | .fill => .fill (r.word file hdr)
  | .dontCare => .dontCare
  | .crc32 => .crc32 (r.word file hdr)
  | .unknown => .dontCare

/-- The data of a chunk, of which the checksum is shown. -/
def Record.shownData? (r : Record) : Option (List UInt8) :=
  match r.header.kind with
  | .raw => some (slice file (r.payload hdr) (r.header.payloadSize hdr.blk_sz))
  | .fill => some (cycle r.header.chunk_sz.toNat
      (cycle (hdr.blk_sz.toNat / 4) (slice file (r.payload hdr) 4)))
  | _ => none

/-- The checksum that is shown: that of the data, when `-s` asks for it. -/
def Record.shownHash (r : Record) : String :=
  if o.showhash then ((r.shownData? file hdr).map sha1).getD "" else ""

/-- The row of a record, behind `offset` blocks. -/
def Record.row (i offset : ℕ) (r : Record) : DumpRow :=
  ⟨i, r.payload hdr, r.header.payloadSize hdr.blk_sz, offset, r.header.chunk_sz,
    r.curType file hdr, r.shownHash sha1 o file hdr⟩

/-- The rows of records, numbered from `i` on and placed from `offset` on. -/
def shownRows : List Record → ℕ → ℕ → List DumpRow
  | [], _, _ => []
  | r :: rs, i, offset =>
    r.row sha1 o file hdr i offset :: shownRows rs (i + 1) (offset + r.header.chunk_sz.toNat)

/-- The blocks of a list of records that are counted: those of a checksum too. -/
def shownBlocks (rs : List Record) : ℕ := (rs.map fun r => r.header.chunk_sz.toNat).sum

/-- The position behind the last record, or the first position when there is none. -/
def lastStop : List Record → ℕ → ℕ
  | [], pos => pos
  | r :: rs, _ => lastStop rs (r.stop hdr)

end

section

variable {sha1 : List UInt8 → String} {o : DumpOptions} {file : List UInt8} {hdr : SparseHeader}

/-- A structure that ends within the file is its bytes. -/
theorem readStruct_eq_some {pos len : ℕ} (h : pos + len ≤ file.length) :
    readStruct file pos len = some (slice file pos len) := if_pos h

/-- A structure that ends behind the file is not read. -/
theorem readStruct_eq_none {pos len : ℕ} (h : ¬ pos + len ≤ file.length) :
    readStruct file pos len = none := if_neg h

/-- What comes of a chunk, by the kind that its type stands for. -/
theorem dumpChunk_eq (pos : ℕ) (h : ChunkHeader) :
    dumpChunk sha1 o file hdr pos h =
      match h.kind with
      | .raw =>
        if (h.total_sz.toNat : ℤ) - 12 ≠ (h.chunk_sz.toNat * hdr.blk_sz.toNat : ℕ) then
          .complaint (.rawSize (h.total_sz.toNat - 12) (h.chunk_sz.toNat * hdr.blk_sz.toNat))
        else
          .shown .raw (if o.showhash then
              sha1 (slice file pos ((h.total_sz.toNat : ℤ) - 12).toNat) else "")
            (pos + (slice file pos ((h.total_sz.toNat : ℤ) - 12).toNat).length)
      | .fill =>
        if (h.total_sz.toNat : ℤ) - 12 ≠ 4 then .complaint (.fillSize (h.total_sz.toNat - 12))
        else
          match readStruct file pos 4 with
          | none => .raised
          | some fill_bin => .shown (.fill (read32 fill_bin 0))
              (if o.showhash then
                sha1 (cycle h.chunk_sz.toNat (cycle (hdr.blk_sz.toNat / 4) fill_bin)) else "")
              (pos + 4)
      | .dontCare =>
        if (h.total_sz.toNat : ℤ) - 12 ≠ 0 then .complaint (.dontCareSize (h.total_sz.toNat - 12))
        else .shown .dontCare "" pos
      | .crc32 =>
        if (h.total_sz.toNat : ℤ) - 12 ≠ 4 then .complaint (.crcSize (h.total_sz.toNat - 12))
        else
          match readStruct file pos 4 with
          | none => .raised
          | some crc_bin => .shown (.crc32 (read32 crc_bin 0)) "" (pos + 4)
      | .unknown => .complaint (.unknownType h.chunk_type) := by
  unfold dumpChunk ChunkHeader.kind
  dsimp only
  split_ifs <;> rfl

/-- What comes of a chunk whose record is shown if and only if `shown` is the case. -/
structure ChunkDump.Spec (shown : Prop) (curtype : CurType) (curhash : String) (pos : ℕ)
    (d : ChunkDump) : Prop where
  /-- A record that is shown. -/
  shown_eq : shown → d = .shown curtype curhash pos
  /-- One that is not. -/
  failed : ¬ shown → d = .raised ∨ ∃ p, d = .complaint p ∧ p.complaint = true

/-- A wrong size is complained about. -/
theorem ChunkDump.Spec.size {shown : Prop} {curtype : CurType} {curhash : String} {pos : ℕ}
    {size good : ℤ} {p : DumpPrint} {d : ChunkDump} (hp : p.complaint = true) (h : shown → size = good)
    (hd : size = good → d.Spec shown curtype curhash pos) :
    (if size ≠ good then ChunkDump.complaint p else d).Spec shown curtype curhash pos := by
  by_cases hsize : size = good
  · rw [if_neg (not_not.mpr hsize)]
    exact hd hsize
  · rw [if_pos hsize]
    exact ⟨fun hs => absurd (h hs) hsize, fun _ => Or.inr ⟨p, rfl, hp⟩⟩

/-- **One chunk** is shown, or there is an exception or a complaint. -/
theorem dumpChunk_spec (hh : hdr.chunk_hdr_sz = 12) {r : Record}
    (hp : r.start + CHUNK_HEADER_LEN ≤ file.length) :
    (dumpChunk sha1 o file hdr (r.start + CHUNK_HEADER_LEN) r.header).Spec (r.Shown file hdr)
      (r.curType file hdr) (r.shownHash sha1 o file hdr) (min (r.stop hdr) file.length) := by
  have hsz : hdr.chunk_hdr_sz.toNat = 12 := by rw [hh]; rfl
  have hpay : r.start + CHUNK_HEADER_LEN = r.payload hdr := by rw [Record.payload, hsz]; rfl
  have htotal : r.Shown file hdr →
      (r.header.total_sz.toNat : ℤ) - 12 = r.header.payloadSize hdr.blk_sz := fun h => by
    have := h.total_sz
    omega
  have hshown : r.header.kind ≠ .unknown →
      (r.header.total_sz.toNat : ℤ) - 12 = r.header.payloadSize hdr.blk_sz →
        (r.header.kind = .raw ∨ r.stop hdr ≤ file.length) → r.Shown file hdr :=
    fun hk ht hpl => ⟨hp, hk, by omega, hpl⟩
  rw [dumpChunk_eq, hpay]
  rw [hpay] at hp
  -- A word that is read, or not.
  have hword : ∀ {t : List UInt8 → CurType} {hash : List UInt8 → String},
      r.header.payloadSize hdr.blk_sz = 4 → r.header.kind ≠ .raw →
      (r.payload hdr + 4 ≤ file.length → r.Shown file hdr) →
      t (slice file (r.payload hdr) 4) = r.curType file hdr →
      hash (slice file (r.payload hdr) 4) = r.shownHash sha1 o file hdr →
        ChunkDump.Spec (r.Shown file hdr) (r.curType file hdr) (r.shownHash sha1 o file hdr)
          (min (r.stop hdr) file.length) (match readStruct file (r.payload hdr) 4 with
            | none => .raised
            | some b => .shown (t b) (hash b) (r.payload hdr + 4)) := by
    intro t hash hsize hraw hin ht hhash
    have hstop : r.stop hdr = r.payload hdr + 4 := by rw [Record.stop, hsize]
    by_cases h4 : r.payload hdr + 4 ≤ file.length
    · rw [readStruct_eq_some h4]
      refine ⟨fun _ => ?_, fun h => absurd (hin h4) h⟩
      rw [hstop, Nat.min_eq_left h4, ← ht, ← hhash]
    · rw [readStruct_eq_none h4]
      refine ⟨fun h => absurd (h.payload.resolve_left hraw) ?_, fun _ => Or.inl rfl⟩
      rwa [hstop]
  have hsize : r.header.payloadSize hdr.blk_sz = match r.header.kind with
    | .raw => r.header.chunk_sz.toNat * hdr.blk_sz.toNat
    | .fill => 4
    | .dontCare => 0
    | .crc32 => 4
    | .unknown => 0 := rfl
  cases hk : r.header.kind with
  | raw =>
    rw [hk] at hsize
    dsimp only at hsize ⊢
    rw [hsize] at htotal hshown
    refine .size rfl htotal fun hdata => ⟨fun _ => ?_, fun h => absurd (hshown ?_ hdata (.inl hk)) h⟩
    · have hlen : ((r.header.total_sz.toNat : ℤ) - 12).toNat = r.header.payloadSize hdr.blk_sz := by
        rw [hdata, hsize]
        exact Int.toNat_natCast _
      rw [hlen, length_slice, Record.curType, Record.shownHash, Record.shownData?, hk, Record.stop]
      congr 1
      omega
    · rw [hk]
      decide
  | fill =>
    rw [hk] at hsize
    dsimp only at hsize ⊢
    rw [hsize] at htotal hshown
    refine .size rfl htotal fun hdata => ?_
    refine @hword (fun b => .fill (read32 b 0)) (fun b => if o.showhash then
      sha1 (cycle r.header.chunk_sz.toNat (cycle (hdr.blk_sz.toNat / 4) b)) else "") hsize ?_ ?_ ?_ ?_
    · rw [hk]; decide
    · refine fun h4 => hshown ?_ hdata (.inr ?_)
      · rw [hk]; decide
      · rwa [Record.stop, hsize]
    · rw [Record.curType, hk, Record.word, read32_slice]
    · rw [Record.shownHash, Record.shownData?, hk]
      rfl
  | dontCare =>
    rw [hk] at hsize
    dsimp only at hsize ⊢
    rw [hsize] at htotal hshown
    have hstop : r.stop hdr = r.payload hdr := by rw [Record.stop, hsize]; rfl
    refine .size rfl htotal fun hdata => ⟨fun _ => ?_, fun h => absurd (hshown ?_ hdata ?_) h⟩
    · rw [Record.curType, Record.shownHash, Record.shownData?, hk, hstop, Nat.min_eq_left hp]
      split_ifs <;> rfl
    · rw [hk]; decide
    · rw [hstop]
      exact .inr hp
  | crc32 =>
    rw [hk] at hsize
    dsimp only at hsize ⊢
    rw [hsize] at htotal hshown
    refine .size rfl htotal fun hdata => ?_
    refine @hword (fun b => .crc32 (read32 b 0)) (fun _ => "") hsize ?_ ?_ ?_ ?_
    · rw [hk]; decide
    · refine fun h4 => hshown ?_ hdata (.inr ?_)
      · rw [hk]; decide
      · rwa [Record.stop, hsize]
    · rw [Record.curType, hk, Record.word, read32_slice]
    · rw [Record.shownHash, Record.shownData?, hk]
      split_ifs <;> rfl
  | unknown =>
    exact ⟨fun h => absurd hk h.kind, fun _ => .inr ⟨_, rfl, rfl⟩⟩

/-- What comes of a loop over records that are all shown if and only if `shown` is the case. -/
structure LoopDump.Spec (shown : Prop) (stop : ℕ × ℕ) (rows : List CsvLine) (d : LoopDump) : Prop where
  /-- The loop comes to its end. -/
  stop_eq : shown → d.stop = some stop
  /-- There are no complaints. -/
  printed : shown → ∀ p ∈ d.printed, p.complaint = false
  /-- The rows. -/
  rows_eq : shown → d.rows = rows
  /-- There is an exception or a complaint. -/
  failed : ¬ shown → d.stop = none ∨ ∃ p ∈ d.printed, p.complaint = true

/-- **All chunks** are shown, or there is an exception or a complaint. -/
theorem dumpLoop_spec (hh : hdr.chunk_hdr_sz = 12) (n i pos offset : ℕ) :
    (dumpLoop sha1 o file hdr n i (min pos file.length) offset).Spec
      (∀ r ∈ records file hdr n pos, r.Shown file hdr)
      (min (lastStop hdr (records file hdr n pos) pos) file.length,
        offset + shownBlocks (records file hdr n pos))
      (if o.csvfilename then
        (shownRows sha1 o file hdr (records file hdr n pos) i offset).map .row else []) := by
  induction n generalizing i pos offset with
  | zero =>
    refine ⟨fun _ => rfl, fun _ p hp => ?_, fun _ => ?_, fun h => absurd (fun r hr => ?_) h⟩
    · cases hp
    · split_ifs <;> rfl
    · cases hr
  | succ n ih =>
    obtain ⟨r, hr⟩ : ∃ r, recordAt file pos = r := ⟨_, rfl⟩
    have hstart : r.start = pos := by rw [← hr]; rfl
    have hrs : records file hdr (n + 1) pos = r :: records file hdr n (r.stop hdr) := by
      rw [records, hr]
    rw [hrs]
    unfold dumpLoop
    by_cases hp : pos + CHUNK_HEADER_LEN ≤ file.length
    · have hpos : min pos file.length = pos := by omega
      have hhead : ChunkHeader.decode (slice file pos CHUNK_HEADER_LEN) = r.header := by rw [← hr]; rfl
      have hspec := @dumpChunk_spec sha1 o file hdr hh r (by rwa [hstart])
      rw [hstart] at hspec
      rw [hpos, readStruct_eq_some hp]
      dsimp only
      rw [hhead]
      -- A record that is shown goes on with the next one.
      by_cases hs : r.Shown file hdr
      · have hrest := ih (i + 1) (r.stop hdr) (offset + r.header.chunk_sz.toNat)
        have hall : (∀ r' ∈ r :: records file hdr n (r.stop hdr), r'.Shown file hdr) ↔
            ∀ r' ∈ records file hdr n (r.stop hdr), r'.Shown file hdr := by
          rw [List.forall_mem_cons]
          exact and_iff_right hs
        have hrow : r.row sha1 o file hdr i offset = ⟨i, pos + CHUNK_HEADER_LEN,
            (r.header.total_sz.toNat : ℤ) - 12, offset, r.header.chunk_sz, r.curType file hdr,
            r.shownHash sha1 o file hdr⟩ := by
          have hsz : hdr.chunk_hdr_sz.toNat = 12 := by rw [hh]; rfl
          have hdata := hs.total_sz
          rw [Record.row, Record.payload, hsz, hstart, show (r.header.total_sz.toNat : ℤ) - 12 =
            r.header.payloadSize hdr.blk_sz by omega]
          rfl
        rw [hall, hspec.shown_eq hs]
        dsimp only
        refine ⟨fun h => ?_, fun h => List.forall_mem_append.mpr ⟨?_, hrest.printed h⟩, fun h => ?_,
          fun h => (hrest.failed h).imp_right
            (Exists.imp fun _ => And.imp_left (List.mem_append_right _))⟩
        · rw [hrest.stop_eq h, Nat.add_assoc]
          rfl
        · split_ifs <;> simp [DumpPrint.complaint]
        · rw [hrest.rows_eq h, ← hrow]
          split_ifs <;> rfl
      · -- One that is not stops the loop, with an exception or a complaint.
        have hall : ¬ ∀ r' ∈ r :: records file hdr n (r.stop hdr), r'.Shown file hdr :=
          fun h => hs (h r List.mem_cons_self)
        refine ⟨fun h => absurd h hall, fun h => absurd h hall, fun h => absurd h hall, fun _ => ?_⟩
        rcases hspec.failed hs with hraised | ⟨p, hcomplaint, hc⟩
        · rw [hraised]
          exact .inl rfl
        · rw [hcomplaint]
          exact .inr ⟨p, List.mem_append_right _ (List.mem_singleton_self p), hc⟩
    · -- The header of the chunk ends behind the file.
      have hnot : ¬ r.Shown file hdr := fun h => hp (hstart ▸ h.present)
      have hlen : 0 < CHUNK_HEADER_LEN := by decide
      rw [readStruct_eq_none (by omega)]
      have hall : ¬ ∀ r' ∈ r :: records file hdr n (r.stop hdr), r'.Shown file hdr :=
        fun h => hnot (h r List.mem_cons_self)
      exact ⟨fun h => absurd h hall, fun h => absurd h hall, fun h => absurd h hall, fun _ => .inl rfl⟩

/-! ## The files that are shown -/

/-- The header of a file that is shown. -/
structure HeaderShown (file : List UInt8) : Prop where
  /-- The header is in the file. -/
  present : SPARSE_HEADER_LEN ≤ file.length
  /-- The magic number. -/
  magic : (fileHeader file).magic = SPARSE_HEADER_MAGIC
  /-- The version. -/
  version : (fileHeader file).major_version = 1 ∧ (fileHeader file).minor_version = 0
  /-- The size of the file header. -/
  file_hdr_sz : (fileHeader file).file_hdr_sz = 28
  /-- The size of the chunk headers. -/
  chunk_hdr_sz : (fileHeader file).chunk_hdr_sz = 12

/-- The chunks of a file that is shown. -/
structure ChunksShown (file : List UInt8) : Prop where
  /-- All records are shown. -/
  records : ∀ r ∈ fileRecords file, r.Shown file (fileHeader file)
  /-- They have the blocks of the header. -/
  total_blks : shownBlocks (fileRecords file) = (fileHeader file).total_blks.toNat
  /-- There is nothing behind them. -/
  length_le : file.length ≤ lastStop (fileHeader file) (fileRecords file) SPARSE_HEADER_LEN

/-- Under a header that is right the records start behind the 28 bytes that it takes. -/
theorem HeaderShown.fileRecords_eq (h : HeaderShown file) :
    fileRecords file = records file (fileHeader file) (fileHeader file).total_chunks.toNat
      SPARSE_HEADER_LEN := by
  rw [fileRecords, h.file_hdr_sz]
  rfl

/-- A run that has printed a complaint is not clean. -/
theorem not_clean {d : Dump} {p : DumpPrint} (hp : p ∈ d.printed) (hc : p.complaint = true) :
    ¬ d.Clean := fun h => Bool.false_ne_true ((h.2 p hp).symm.trans hc)

/-- A run whose only print is a complaint is not clean. -/
theorem not_clean_singleton {p : DumpPrint} {rows : List CsvLine} {raised : Bool}
    (hc : p.complaint = true) : ¬ Dump.Clean ⟨[p], rows, raised⟩ :=
  not_clean (List.mem_singleton_self p) hc

/-- The end of a file of which the header is right. -/
theorem dumpFile_eq (h : HeaderShown file) (ho : o.output) :
    ∃ before titles, (∀ p ∈ before, p.complaint = false) ∧
      titles = (if o.csvfilename then [CsvLine.titles] else []) ∧
      dumpFile sha1 o file =
        let loop := dumpLoop sha1 o file (fileHeader file) (fileHeader file).total_chunks.toNat 1
          SPARSE_HEADER_LEN 0
        match loop.stop with
        | none => ⟨before ++ loop.printed, titles ++ loop.rows, true⟩
        | some (pos, offset) =>
          ⟨before ++ loop.printed ++ (if 0 < o.verbose then [.endOf pos offset] else []) ++
              (if (fileHeader file).total_blks.toNat ≠ offset then
                [.blocks (fileHeader file).total_blks offset] else []) ++
              (if file.length - pos ≠ 0 then [.junk (file.length - pos)] else []),
            titles ++ loop.rows, false⟩ := by
  refine ⟨[.total (fileHeader file).total_blks (fileHeader file).blk_sz
      (fileHeader file).total_chunks] ++ (if (fileHeader file).image_checksum ≠ 0 then
        [.checksum (fileHeader file).image_checksum] else []) ++
        (if 0 < o.verbose then [.columns] else []), _, ?_, rfl, ?_⟩
  · -- Nothing in front of the loop is a complaint under a right header.
    split_ifs <;> simp [DumpPrint.complaint]
  · have hmajor : ¬ ((fileHeader file).major_version ≠ 1 ∨ (fileHeader file).minor_version ≠ 0) :=
      fun hv => hv.elim (· h.version.1) (· h.version.2)
    have hread : readStruct file 0 SPARSE_HEADER_LEN = some (slice file 0 SPARSE_HEADER_LEN) :=
      readStruct_eq_some (by rw [Nat.zero_add]; exact h.present)
    unfold dumpFile
    rw [hread]
    dsimp only
    rw [show SparseHeader.decode (slice file 0 SPARSE_HEADER_LEN) = fileHeader file from rfl]
    rw [if_neg (not_not.mpr h.magic), if_neg hmajor, if_neg (not_not.mpr h.file_hdr_sz),
      if_neg (not_not.mpr h.chunk_hdr_sz), if_neg (not_not.mpr ho)]

/-- Without rows asked for, a run is clean when the header is right, and never when it is not. -/
theorem dumpFile_header :
    (HeaderShown file → ¬ o.output → (dumpFile sha1 o file).Clean) ∧
      (¬ HeaderShown file → ¬ (dumpFile sha1 o file).Clean) := by
  unfold dumpFile
  by_cases hp : 0 + SPARSE_HEADER_LEN ≤ file.length
  · rw [readStruct_eq_some hp]
    dsimp only
    rw [show SparseHeader.decode (slice file 0 SPARSE_HEADER_LEN) = fileHeader file from rfl]
    -- The checks of the header, in the order of the tool.
    by_cases h1 : (fileHeader file).magic = SPARSE_HEADER_MAGIC
    · by_cases h2 : (fileHeader file).major_version ≠ 1 ∨ (fileHeader file).minor_version ≠ 0
      · rw [if_neg (not_not.mpr h1), if_pos h2]
        refine ⟨fun h => absurd h2 ?_, fun _ => not_clean_singleton rfl⟩
        exact fun hv => hv.elim (· h.version.1) (· h.version.2)
      by_cases h3 : (fileHeader file).file_hdr_sz = 28
      · by_cases h4 : (fileHeader file).chunk_hdr_sz = 12
        · rw [if_neg (not_not.mpr h1), if_neg h2, if_neg (not_not.mpr h3), if_neg (not_not.mpr h4)]
          refine ⟨fun _ ho => ?_, fun h => absurd ⟨?_, h1, ?_, h3, h4⟩ h⟩
          · rw [if_pos ho]
            refine ⟨rfl, ?_⟩
            dsimp only
            split_ifs <;> simp [DumpPrint.complaint]
          · rwa [Nat.zero_add] at hp
          · exact ⟨not_not.mp fun h => h2 (.inl h), not_not.mp fun h => h2 (.inr h)⟩
        · rw [if_neg (not_not.mpr h1), if_neg h2, if_neg (not_not.mpr h3), if_pos h4]
          exact ⟨fun h => absurd h.chunk_hdr_sz h4, fun _ => not_clean_singleton rfl⟩
      · rw [if_neg (not_not.mpr h1), if_neg h2, if_pos h3]
        exact ⟨fun h => absurd h.file_hdr_sz h3, fun _ => not_clean_singleton rfl⟩
    · rw [if_pos h1]
      exact ⟨fun h => absurd h.magic h1, fun _ => not_clean_singleton rfl⟩
  · rw [readStruct_eq_none hp]
    refine ⟨fun h => absurd h.present ?_, fun _ h => Bool.false_ne_true h.1.symm⟩
    rwa [Nat.zero_add] at hp

/-- **What is shown without a complaint.** Without `-v`, `-s` and `-c` only the header is looked at. -/
theorem dumpFile_clean_iff :
    (dumpFile sha1 o file).Clean ↔ HeaderShown file ∧ (o.output → ChunksShown file) := by
  by_cases h : HeaderShown file
  · by_cases ho : o.output
    · rw [and_iff_right h, forall_prop_of_true ho]
      obtain ⟨before, titles, hbefore, -, heq⟩ := @dumpFile_eq sha1 o file h ho
      have hlen := h.present
      have hspec := @dumpLoop_spec sha1 o file _ h.chunk_hdr_sz
        (fileHeader file).total_chunks.toNat 1 SPARSE_HEADER_LEN 0
      rw [Nat.min_eq_left h.present, ← h.fileRecords_eq] at hspec
      rw [heq]
      dsimp only
      generalize dumpLoop sha1 o file (fileHeader file) (fileHeader file).total_chunks.toNat 1
        SPARSE_HEADER_LEN 0 = loop at hspec ⊢
      obtain ⟨printed, rows, stop⟩ := loop
      -- The three things the rows are followed by: the blocks, what is behind them, and the printed
      -- rows.
      by_cases hall : ∀ r ∈ fileRecords file, r.Shown file (fileHeader file)
      · have hstop := hspec.stop_eq hall
        have hquiet := hspec.printed hall
        dsimp only at hstop hquiet ⊢
        rw [hstop, Nat.zero_add]
        dsimp only
        refine ⟨fun hc => ⟨hall, ?_, ?_⟩, fun hs => ⟨rfl, ?_⟩⟩
        · by_contra hne
          refine absurd hc (@not_clean _ (.blocks (fileHeader file).total_blks
            (shownBlocks (fileRecords file))) ?_ rfl)
          refine List.mem_append_left _ (List.mem_append_right _ ?_)
          rw [if_pos (Ne.symm hne)]
          exact List.mem_singleton_self _
        · by_contra hlt
          refine absurd hc (@not_clean _ (.junk (file.length - min (lastStop (fileHeader file)
            (fileRecords file) SPARSE_HEADER_LEN) file.length)) ?_ rfl)
          refine List.mem_append_right _ ?_
          rw [if_pos (by omega)]
          exact List.mem_singleton_self _
        · have hle := hs.length_le
          have hjunk : ¬ file.length - min (lastStop (fileHeader file) (fileRecords file)
              SPARSE_HEADER_LEN) file.length ≠ 0 := by omega
          rw [if_neg (not_not.mpr hs.total_blks.symm), if_neg hjunk, List.append_nil,
            List.append_nil]
          refine List.forall_mem_append.mpr ⟨List.forall_mem_append.mpr ⟨hbefore, hquiet⟩, ?_⟩
          split_ifs <;> simp [DumpPrint.complaint]
      · -- A record that is not shown has raised, or has printed a complaint.
        refine iff_of_false ?_ fun hs => hall hs.records
        rcases hspec.failed hall with hnone | ⟨p, hp, hc⟩
        · dsimp only at hnone
          rw [hnone]
          exact fun hc => Bool.false_ne_true hc.1.symm
        · dsimp only at hp ⊢
          cases stop with
          | none => exact not_clean (List.mem_append_right _ hp) hc
          | some at_end =>
            refine not_clean ?_ hc
            exact List.mem_append_left _ (List.mem_append_left _ (List.mem_append_left _
              (List.mem_append_right _ hp)))
    · exact ⟨fun _ => ⟨h, fun ho' => absurd ho' ho⟩, fun _ => dumpFile_header.1 h ho⟩
  · exact ⟨fun hc => absurd hc (dumpFile_header.2 h), fun hs => absurd hs.1 h⟩

end

end AmlogicToolkit.Simg
