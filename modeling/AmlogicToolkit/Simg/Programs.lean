import AmlogicToolkit.Simg.SparseRead

/-!
# The command line programs

`main` of `simg2img.c`, `img2simg.c` and `simg2simg.c` on the contents of their files. Files can be
opened and created, `read` and `mmap` return what a file holds, and a hole reads as zero. `none` is
an exit with an error.
-/

namespace AmlogicToolkit.Simg

/-- The environment of a program that has one input file open. -/
def Env.ofFile (file : List UInt8) : Env where
  mem _ := 0
  openFile _ := .error 2
  mmap _ offset size := mapFile file offset size

/-- One pass of the loop of `simg2img`: the input `file` is imported and written over `out`. -/
def simg2imgFile (file : List UInt8) (out : RawFile) : Except Fault (Option RawFile) := do
  match ← sparseFileImport 0 file false with
  | none => return none
  | some s =>
    let (ret, out) ← sparseFileWrite file_ops (Env.ofFile file) s { out with pos := 0 } false false
    if ret < 0 then return none else return some out

/-- The loop of `simg2img` over its inputs. -/
def simg2imgLoop : List (List UInt8) → RawFile → Except Fault (Option RawFile)
  | [], out => .ok (some out)
  | file :: files, out => do
    match ← simg2imgFile file out with
    | none => return none
    | some out => simg2imgLoop files out

/-- `simg2img`: the raw image from its sparse inputs, in the order of the command line. -/
def simg2img (files : List (List UInt8)) : Except Fault (Option (List UInt8)) := do
  return (← simg2imgLoop files ⟨[], 0⟩).map RawFile.bytes

/-- `img2simg`: the sparse image of a raw file, with the block size of the command line (4096 when
there is none). -/
def img2simg (file : List UInt8) (block_size : UInt32) : Except Fault (Option (List UInt8)) :=
  if block_size < 1024 ∨ block_size % 4 ≠ 0 then .ok none
  else do
    match ← nullOnError (sparseFileRead (sparseFileNew block_size file.length) ⟨0, file, 0⟩
        false false) with
    | none => return none
    | some s =>
      let (ret, out) ← sparseFileWrite file_ops (Env.ofFile file) s ⟨[], 0⟩ true false
      if ret ≠ 0 then return none else return some out.bytes

/-- The writing loop of `simg2simg`: each piece goes to a file of its own. -/
def writePieces (env : Env) : List SparseFile → Except Fault (Option (List (List UInt8)))
  | [] => .ok (some [])
  | s :: pieces => do
    let (ret, out) ← sparseFileWrite file_ops env s ⟨[], 0⟩ true false
    if ret ≠ 0 then return none
    else return (← writePieces env pieces).map (out.bytes :: ·)

/-- `simg2simg`, with at most `fuel` passes of each loop of `sparse_file_resparse`: the pieces of a
sparse image. `max_size` is what `atoll` returns, converted to the `unsigned int` parameter. The
last loop reads as many elements of the array as the second call returns. -/
def simg2simg (fuel : ℕ) (file : List UInt8) (max_size : ℤ) :
    Except Fault (Option (List (List UInt8))) := do
  let env := Env.ofFile file
  match ← sparseFileImport 0 file false with
  | none => return none
  | some s =>
    -- The first call counts the pieces, the second one makes them.
    let (s, _, count) ← sparseFileResparse env fuel s (toU32 max_size) 0
    let (_, out_s, files) ← sparseFileResparse env fuel s (toU32 max_size) count
    -- The pieces are read from the array, which has room for the first count.
    if count < files then .error .outOfBounds
    else writePieces env out_s

end AmlogicToolkit.Simg
