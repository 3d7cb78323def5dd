import AmlogicToolkit.Boot.Header
import AmlogicToolkit.Lib.Results
import AmlogicToolkit.Lib.Stdio

/-!
# Reading and writing boot images

The functions of `abootimg.c` that read, check and write a boot image in a regular file. The sizes
and offsets are `unsigned`; a `long` has 64 bits, so that `fseek` takes every offset. `malloc` and
`calloc` succeed. A read that gets all of its bytes does not set the end-of-file indicator, so that
the tests of `feof` behind such a read never hold. Every stream is flushed when the program exits.
-/

namespace AmlogicToolkit.Boot

open Bytes Stdio

/-- How the program stops before its end. -/
inductive Stop where
  /-- `abort_perror`. -/
  | perror (str : String)
  /-- `abort_printf`. -/
  | printf (text : String)
  /-- A division by zero. -/
  | divByZero
  /-- An access through a null pointer. -/
  | nullPointer
  /-- An access outside a buffer. -/
  | outOfBounds
  deriving DecidableEq

/-- The files that can be opened, by their names. -/
abbrev Files := String → Option (List UInt8)

/-- `t_abootimg`: an image with its options and what is loaded of it, without its stream. -/
structure Abootimg where
  /-- The size of the image. -/
  size : UInt32
  /-- Whether the image is a block device. -/
  is_blkdev : Bool
  /-- The name of the image. -/
  fname : String
  /-- The name of the config file. -/
  config_fname : Option String
  /-- The name of the kernel. -/
  kernel_fname : Option String
  /-- The name of the ramdisk. -/
  ramdisk_fname : Option String
  /-- The name of the second stage. -/
  second_fname : Option String
  /-- The header. -/
  header : BootImgHdr
  /-- The buffer of the kernel. -/
  kernel : Option (List UInt8)
  /-- The buffer of the ramdisk. -/
  ramdisk : Option (List UInt8)
  /-- The buffer of the second stage. -/
  second : Option (List UInt8)
  deriving DecidableEq

/-- The number of pages of a section. -/
def pages (size page_size : UInt32) : UInt32 := (size + page_size - 1) / page_size

/-! ## Checking the header -/

/-- `check_boot_img_header`: what it complains about, if anything. -/
def checkBootImgHeader (img : Abootimg) : Option String :=
  if img.header.magic ≠ BOOT_MAGIC then some (img.fname ++ ": no Android Magic Value\n")
  else if img.header.kernel_size = 0 then some (img.fname ++ ": kernel size is null\n")
  else if img.header.ramdisk_size = 0 then some (img.fname ++ ": ramdisk size is null\n")
  else
    let page_size := img.header.page_size
    if page_size = 0 then some (img.fname ++ ": Image page size is null\n")
    else
      let n := pages img.header.kernel_size page_size
      let m := pages img.header.ramdisk_size page_size
      let o := pages img.header.second_size page_size
      -- The size is an `unsigned`, and may wrap.
      let total_size := (1 + n + m + o) * page_size
      if total_size > img.size then some (img.fname ++ ": sizes mismatches in boot image\n")
      else none

/-- `read_header` of a regular file, whose size is taken as an `unsigned`. -/
def readHeader (img : Abootimg) (stream : Stream) : Except Stop (Abootimg × Stream) :=
  match stream.fread BOOT_HEADER_SIZE with
  | none => .error (.perror img.fname)
  | some (b, stream) =>
    let img := { img with
      header := BootImgHdr.decode b
      size := UInt32.ofNat stream.image.length
      is_blkdev := false }
    match checkBootImgHeader img with
    | some _ => .error (.printf (img.fname ++ ": not a valid Android Boot Image.\n"))
    | none => .ok (img, stream)

/-! ## Loading the sections -/

/-- The size of a file and its bytes, as `update_images` loads a section. An empty file is an item
of no bytes, of which `fread` reads none. -/
def loadFile (fs : Files) (fname : String) : Except Stop (UInt32 × List UInt8) :=
  match fs fname with
  | none => .error (.perror fname)
  | some bytes =>
    -- `st_size` is taken as an `unsigned`.
    let size := UInt32.ofNat bytes.length
    match (Stream.ofFile bytes).fread size.toNat with
    | none => .error (.perror fname)
    | some (buf, _) => .ok (size, buf)

/-- The bytes of a section of the image, as `update_images` and the `extract_` functions read
them. -/
def readSection (img : Abootimg) (stream : Stream) (offset size : UInt32) :
    Except Stop (List UInt8 × Stream) :=
  match (stream.fseek offset.toNat).fread size.toNat with
  | none => .error (.perror img.fname)
  | some r => .ok r

/-- The part of `update_images` for the kernel. -/
def updateKernel (fs : Files) (img : Abootimg) : Except Stop Abootimg :=
  match img.kernel_fname with
  | some fname => do
    let (ksize, k) ← loadFile fs fname
    return { img with header := { img.header with kernel_size := ksize }, kernel := some k }
  | none => .ok img

/-- The part of `update_images` for the ramdisk: when the kernel is updated, the ramdisk is copied
from the original image. -/
def updateRamdisk (fs : Files) (roffset rsize : UInt32) (img : Abootimg) (stream : Stream) :
    Except Stop (Abootimg × Stream) :=
  match img.ramdisk_fname with
  | some fname => do
    let (rsize, r) ← loadFile fs fname
    return ({ img with header := { img.header with ramdisk_size := rsize }, ramdisk := some r },
      stream)
  | none =>
    if img.kernel.isSome then do
      let (r, stream) ← readSection img stream roffset rsize
      return ({ img with ramdisk := some r }, stream)
    else .ok (img, stream)

/-- The part of `update_images` for the second stage: when the ramdisk is updated, the second stage
is copied from the original image. -/
def updateSecond (fs : Files) (soffset ssize : UInt32) (img : Abootimg) (stream : Stream) :
    Except Stop (Abootimg × Stream) :=
  match img.second_fname with
  | some fname => do
    let (ssize, s) ← loadFile fs fname
    return ({ img with header := { img.header with second_size := ssize }, second := some s },
      stream)
  | none =>
    if img.ramdisk.isSome ∧ img.header.second_size ≠ 0 then do
      let (s, stream) ← readSection img stream soffset ssize
      return ({ img with second := some s }, stream)
    else .ok (img, stream)

/-- The end of `update_images`: the size of the image is that of its sections when it is not set,
and must not be smaller when it is. -/
def updateSize (img : Abootimg) : Except Stop Abootimg :=
  let page_size := img.header.page_size
  let n := pages img.header.kernel_size page_size
  let m := pages img.header.ramdisk_size page_size
  let o := pages img.header.second_size page_size
  let total_size := (1 + n + m + o) * page_size
  if img.size = 0 then .ok { img with size := total_size }
  else if total_size > img.size then
    .error (.printf (img.fname ++ ": updated is too big for the Boot Image (" ++
      toString total_size.toNat ++ " vs " ++ toString img.size.toNat ++ " bytes)\n"))
  else .ok img

/-- `update_images`: the kernel, the ramdisk and the second stage are loaded, then the size is set.
-/
def updateImages (fs : Files) (img : Abootimg) (stream : Stream) :
    Except Stop (Abootimg × Stream) := do
  let page_size := img.header.page_size
  let ksize := img.header.kernel_size
  let rsize := img.header.ramdisk_size
  let ssize := img.header.second_size
  if page_size = 0 then .error (.printf (img.fname ++ ": Image page size is null\n"))
  else
    let n := pages ksize page_size
    let m := pages rsize page_size
    -- Where the old sections lie, with the page size that the config may have changed.
    let roffset := (1 + n) * page_size
    let soffset := (1 + n + m) * page_size
    let img ← updateKernel fs img
    let (img, stream) ← updateRamdisk fs roffset rsize img stream
    let (img, stream) ← updateSecond fs soffset ssize img stream
    let img ← updateSize img
    return (img, stream)

/-! ## Writing -/

/-- `fwrite` of `size` bytes of a buffer. -/
def writeBuffer (stream : Stream) (buf : List UInt8) (size : ℕ) : Except Stop Stream :=
  if buf.length < size then .error .outOfBounds else .ok (stream.fwrite (buf.take size))

/-- A section and the padding behind it, a whole page when the section fills its last one. -/
def writeSection (stream : Stream) (buf : List UInt8) (size psize : UInt32) :
    Except Stop Stream := do
  let stream ← writeBuffer stream buf size.toNat
  writeBuffer stream (List.replicate psize.toNat 0) (psize - size % psize).toNat

/-- The part of `write_bootimg` for the header. -/
def writeHeader (img : Abootimg) (stream : Stream) : Except Stop Stream :=
  let psize := img.header.page_size
  let stream := (stream.fseek 0).fwrite img.header.encode
  -- A page smaller than the header makes the size of its padding a huge `size_t`.
  if psize.toNat < BOOT_HEADER_SIZE then .error .outOfBounds
  else writeBuffer stream (List.replicate psize.toNat 0) (psize.toNat - BOOT_HEADER_SIZE)

/-- The part of `write_bootimg` for the kernel. -/
def writeKernel (img : Abootimg) (stream : Stream) : Except Stop Stream :=
  match img.kernel with
  -- The kernel follows the padding of the header, without a seek.
  | some k => writeSection stream k img.header.kernel_size img.header.page_size
  | none => .ok stream

/-- The part of `write_bootimg` for the ramdisk. -/
def writeRamdisk (img : Abootimg) (stream : Stream) : Except Stop Stream :=
  let psize := img.header.page_size
  let n := pages img.header.kernel_size psize
  match img.ramdisk with
  | some r =>
    writeSection (stream.fseek ((1 + n) * psize).toNat) r img.header.ramdisk_size psize
  | none => .ok stream

/-- The part of `write_bootimg` for the second stage, which looks at its size and not at its
buffer. -/
def writeSecond (img : Abootimg) (stream : Stream) : Except Stop Stream :=
  let psize := img.header.page_size
  let n := pages img.header.kernel_size psize
  let m := pages img.header.ramdisk_size psize
  if img.header.second_size ≠ 0 then
    match img.second with
    | some s =>
      writeSection (stream.fseek ((1 + n + m) * psize).toNat) s img.header.second_size psize
    -- `fwrite` gets a null pointer.
    | none => .error .nullPointer
  else .ok stream

/-- `write_bootimg`, and the end of the program. `ftruncate` cuts the file while the stream holds
back its last `held` bytes, which are written when the program exits. -/
def writeBootimg (held : ℕ) (img : Abootimg) (stream : Stream) : Except Stop Stream := do
  let psize := img.header.page_size
  if psize = 0 then .error .divByZero
  else
    let stream ← writeHeader img stream
    let stream ← writeKernel img stream
    let stream ← writeRamdisk img stream
    let stream ← writeSecond img stream
    return (stream.ftruncate held img.size.toNat).flush

/-! ## Extracting -/

/-- `extract_kernel`: the section behind the page of the header. -/
def extractKernel (img : Abootimg) (stream : Stream) : Except Stop (List UInt8 × Stream) :=
  let psize := img.header.page_size
  let ksize := img.header.kernel_size
  readSection img stream psize ksize

/-- `extract_ramdisk`: the section behind the pages of the kernel. -/
def extractRamdisk (img : Abootimg) (stream : Stream) : Except Stop (List UInt8 × Stream) :=
  let psize := img.header.page_size
  let ksize := img.header.kernel_size
  let rsize := img.header.ramdisk_size
  let n := pages ksize psize
  let roffset := (1 + n) * psize
  readSection img stream roffset rsize

/-- `extract_second`. Its buffer is allocated with the size of the kernel; `room` says how many bytes
can be written behind a pointer that `malloc` has returned for a size. -/
def extractSecond (room : ℕ → ℕ) (img : Abootimg) (stream : Stream) :
    Except Stop (Option (List UInt8) × Stream) :=
  let psize := img.header.page_size
  let ksize := img.header.kernel_size
  let rsize := img.header.ramdisk_size
  let ssize := img.header.second_size
  if ssize = 0 then .ok (none, stream)
  else
    let n := pages rsize psize + pages ksize psize
    let soffset := (1 + n) * psize
    match readSection img stream soffset ssize with
    | .error e => .error e
    | .ok (s, stream) =>
      if room ksize.toNat < ssize.toNat then .error .outOfBounds else .ok (some s, stream)

end AmlogicToolkit.Boot
