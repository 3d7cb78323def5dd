import AmlogicToolkit.Lib.Bytes

/-!
# The sparse image format

The two headers of `sparse_format.h` and their images in a file. The structures are packed: every
field is aligned at its size, so that the 28 and 12 bytes have no padding.
-/

namespace AmlogicToolkit.Simg

open Bytes

/-- `SPARSE_HEADER_MAGIC`: the first word of a sparse image. -/
def SPARSE_HEADER_MAGIC : UInt32 := 0xed26ff3a

/-- `SPARSE_HEADER_MAJOR_VER`: the only major version that is read. -/
def SPARSE_HEADER_MAJOR_VER : UInt16 := 1

/-- `SPARSE_HEADER_MINOR_VER`: the minor version that is written. -/
def SPARSE_HEADER_MINOR_VER : UInt16 := 0

/-- `CHUNK_TYPE_RAW`: a chunk with its bytes. -/
def CHUNK_TYPE_RAW : UInt16 := 0xCAC1

/-- `CHUNK_TYPE_FILL`: a chunk with the word that it repeats. -/
def CHUNK_TYPE_FILL : UInt16 := 0xCAC2

/-- `CHUNK_TYPE_DONT_CARE`: a gap. -/
def CHUNK_TYPE_DONT_CARE : UInt16 := 0xCAC3

/-- `CHUNK_TYPE_CRC32`: the checksum of what stands before. -/
def CHUNK_TYPE_CRC32 : UInt16 := 0xCAC4

/-- `SPARSE_HEADER_LEN`: `sparse_header_t` has 28 bytes. -/
def SPARSE_HEADER_LEN : ℕ := 28

/-- `CHUNK_HEADER_LEN`: `chunk_header_t` has 12 bytes. -/
def CHUNK_HEADER_LEN : ℕ := 12

/-- `sparse_header_t`: the sizes of the headers and of a block, and the numbers of blocks and
chunks. -/
structure SparseHeader where
  /-- `0xed26ff3a`. -/
  magic : UInt32
  /-- Images with higher major versions are rejected. -/
  major_version : UInt16
  /-- Images with higher minor versions are allowed. -/
  minor_version : UInt16
  /-- 28 bytes for the first revision of the file format. -/
  file_hdr_sz : UInt16
  /-- 12 bytes for the first revision of the file format. -/
  chunk_hdr_sz : UInt16
  /-- Block size in bytes. -/
  blk_sz : UInt32
  /-- Total blocks in the non-sparse output image. -/
  total_blks : UInt32
  /-- Total chunks in the sparse input image. -/
  total_chunks : UInt32
  /-- CRC32 checksum of the original data. -/
  image_checksum : UInt32
  deriving DecidableEq

/-- The 28 bytes of a header. -/
def SparseHeader.encode (h : SparseHeader) : List UInt8 :=
  le32 h.magic ++ (le16 h.major_version ++ (le16 h.minor_version ++ (le16 h.file_hdr_sz ++
    (le16 h.chunk_hdr_sz ++ (le32 h.blk_sz ++ (le32 h.total_blks ++ (le32 h.total_chunks ++
      le32 h.image_checksum)))))))

/-- The header that 28 bytes are. -/
def SparseHeader.decode (b : List UInt8) : SparseHeader where
  magic := read32 b 0
  major_version := read16 b 4
  minor_version := read16 b 6
  file_hdr_sz := read16 b 8
  chunk_hdr_sz := read16 b 10
  blk_sz := read32 b 12
  total_blks := read32 b 16
  total_chunks := read32 b 20
  image_checksum := read32 b 24

/-- `chunk_header_t`: the type of a chunk, its blocks, and its bytes with the header. -/
structure ChunkHeader where
  /-- `0xCAC1` raw, `0xCAC2` fill, `0xCAC3` don't care, `0xCAC4` CRC. -/
  chunk_type : UInt16
  /-- Unused. -/
  reserved1 : UInt16
  /-- In blocks in the output image. -/
  chunk_sz : UInt32
  /-- In bytes of the chunk in the input file, with its header and its data. -/
  total_sz : UInt32
  deriving DecidableEq

/-- The 12 bytes of a chunk header. -/
def ChunkHeader.encode (h : ChunkHeader) : List UInt8 :=
  le16 h.chunk_type ++ (le16 h.reserved1 ++ (le32 h.chunk_sz ++ le32 h.total_sz))

/-- The chunk header that 12 bytes are. -/
def ChunkHeader.decode (b : List UInt8) : ChunkHeader where
  chunk_type := read16 b 0
  reserved1 := read16 b 2
  chunk_sz := read32 b 4
  total_sz := read32 b 8

/-- A file header takes 28 bytes. -/
@[simp]
theorem SparseHeader.length_encode (h : SparseHeader) : h.encode.length = SPARSE_HEADER_LEN := by
  simp [encode, SPARSE_HEADER_LEN]

/-- A chunk header takes 12 bytes. -/
@[simp]
theorem ChunkHeader.length_encode (h : ChunkHeader) : h.encode.length = CHUNK_HEADER_LEN := by
  simp [encode, CHUNK_HEADER_LEN]

/-- A header's bytes decode to the header. -/
@[simp]
theorem SparseHeader.decode_encode (h : SparseHeader) : decode h.encode = h := by
  have e0 : slice h.encode 0 4 = le32 h.magic := rfl
  have e1 : slice h.encode 4 2 = le16 h.major_version := rfl
  have e2 : slice h.encode 6 2 = le16 h.minor_version := rfl
  have e3 : slice h.encode 8 2 = le16 h.file_hdr_sz := rfl
  have e4 : slice h.encode 10 2 = le16 h.chunk_hdr_sz := rfl
  have e5 : slice h.encode 12 4 = le32 h.blk_sz := rfl
  have e6 : slice h.encode 16 4 = le32 h.total_blks := rfl
  have e7 : slice h.encode 20 4 = le32 h.total_chunks := rfl
  have e8 : slice h.encode 24 4 = le32 h.image_checksum := rfl
  simp only [decode, read32, read16, e0, e1, e2, e3, e4, e5, e6, e7, e8, ofLe_le32, ofLe_le16]

/-- A chunk header's bytes decode to the chunk header. -/
@[simp]
theorem ChunkHeader.decode_encode (h : ChunkHeader) : decode h.encode = h := by
  have e0 : slice h.encode 0 2 = le16 h.chunk_type := rfl
  have e1 : slice h.encode 2 2 = le16 h.reserved1 := rfl
  have e2 : slice h.encode 4 4 = le32 h.chunk_sz := rfl
  have e3 : slice h.encode 8 4 = le32 h.total_sz := rfl
  simp only [decode, read32, read16, e0, e1, e2, e3, ofLe_le32, ofLe_le16]

end AmlogicToolkit.Simg
