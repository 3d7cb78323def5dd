import AmlogicToolkit.Boot.Config

/-!
# The command line programs

`parse_args` and `main` of `abootimg.c` on the contents of files, and what the scripts `unpack` and
`recreate` of the toolkit do with the boot partition. An argument is a text of characters below 256,
one for each byte. The image is a regular file, or does not exist yet, and none of the files that
are extracted from it has its name.
-/

namespace AmlogicToolkit.Boot

open Bytes Stdio

/-- `enum command`: what `abootimg` is asked to do. -/
inductive Command where
  | none
  | help
  | info
  | extract
  | update
  | create
  deriving DecidableEq

/-- `MAX_CONF_LEN`: no more of a config file is read. -/
def MAX_CONF_LEN : ℕ := 4096

/-- `new_bootimg`: an image with the default addresses, page size and magic value. -/
def newBootimg : Abootimg where
  size := 0
  is_blkdev := false
  fname := ""
  config_fname := some "bootimg.cfg"
  kernel_fname := some "zImage"
  ramdisk_fname := some "initrd.img"
  second_fname := some "stage2.img"
  header :=
    { magic := BOOT_MAGIC
      kernel_size := 0
      kernel_addr := 0
      ramdisk_size := 0
      ramdisk_addr := 0
      second_size := 0
      second_addr := 0
      tags_addr := 0
      page_size := 2048
      unused := List.Vector.replicate 2 0
      name := List.Vector.replicate BOOT_NAME_SIZE 0
      cmdline := List.Vector.replicate BOOT_ARGS_SIZE 0
      id := List.Vector.replicate 8 0 }
  kernel := none
  ramdisk := none
  second := none

/-- The loop of `parse_args` over the options of `-u` and `--create`, which collects the entries of
the command line in `config_args`. `none` are bad arguments. -/
def parseOptions : List String → Abootimg → List UInt8 →
    Except Stop (Option (Abootimg × List UInt8))
  | [], img, config_args => .ok (some (img, config_args))
  -- An option without its argument, or an unknown one.
  | [_], _, _ => .ok none
  | option :: arg :: args, img, config_args =>
    if option = "-c" then
      let len := (bytesOf arg).length
      if config_args.length + len + 1 ≥ MAX_CONF_LEN then
        .error (.printf "too many config parameters.\n")
      else parseOptions args img (config_args ++ bytesOf arg ++ [10])
    else if option = "-f" then parseOptions args { img with config_fname := some arg } config_args
    else if option = "-k" then parseOptions args { img with kernel_fname := some arg } config_args
    else if option = "-r" then parseOptions args { img with ramdisk_fname := some arg } config_args
    else if option = "-s" then parseOptions args { img with second_fname := some arg } config_args
    else .ok none

/-- The options of `-u` and `--create` behind the name of the image. -/
def parseImage (cmd : Command) (img : Abootimg) (fname : String) (args : List String) :
    Except Stop (Command × Abootimg × List UInt8) := do
  -- The default names are those of `-x` only.
  let img := { img with
    fname := fname
    config_fname := none
    kernel_fname := none
    ramdisk_fname := none
    second_fname := none }
  match ← parseOptions args img [] with
  | some (img, config_args) => return (cmd, img, config_args)
  | none => return (.none, img, [])

/-- The names of `-x` behind the name of the image, each with its default. -/
def parseExtract (img : Abootimg) (fname : String) (args : List String) : Command × Abootimg :=
  if args.length > 4 then (.none, img)
  else (.extract, { img with
    fname := fname
    config_fname := args[0]?.or img.config_fname
    kernel_fname := args[1]?.or img.kernel_fname
    ramdisk_fname := args[2]?.or img.ramdisk_fname
    second_fname := args[3]?.or img.second_fname })

/-- `parse_args`, behind the name of the program: the command, the image and `config_args`. -/
def parseArgs (argv : List String) (img : Abootimg) :
    Except Stop (Command × Abootimg × List UInt8) :=
  match argv with
  | [] => .ok (.none, img, [])
  | cmd :: args =>
    if cmd = "-h" then .ok (.help, img, [])
    else if cmd = "-i" then
      match args with
      | [fname] => .ok (.info, { img with fname := fname }, [])
      | _ => .ok (.none, img, [])
    else if cmd = "-x" then
      match args with
      | fname :: args =>
        let (cmd, img) := parseExtract img fname args
        .ok (cmd, img, [])
      | [] => .ok (.none, img, [])
    else if cmd = "-u" then
      match args with
      | fname :: args => parseImage .update img fname args
      | [] => .ok (.none, img, [])
    else if cmd = "--create" then
      match args with
      | fname :: args => parseImage .create img fname args
      | [] => .ok (.none, img, [])
    else .ok (.none, img, [])

/-! ## Commands -/

/-- `open_bootimg` of an image that is there. -/
def openBootimg (fs : Files) (img : Abootimg) : Except Stop Stream :=
  match fs img.fname with
  | none => .error (.perror img.fname)
  | some bytes => .ok (Stream.ofFile bytes)

/-- What `-x` writes out: a config, the kernel, the ramdisk, and a second stage if there is one. -/
structure Extracted where
  /-- The config file. -/
  config : List UInt8
  /-- The kernel. -/
  kernel : List UInt8
  /-- The ramdisk. -/
  ramdisk : List UInt8
  /-- The second stage, if there is one. -/
  second : Option (List UInt8)
  deriving DecidableEq

/-- The command `-x`, from the image that it has opened. -/
def extract (room : ℕ → ℕ) (img : Abootimg) (stream : Stream) : Except Stop Extracted := do
  let (img, stream) ← readHeader img stream
  let config := writeBootimgConfig img
  let (kernel, stream) ← extractKernel img stream
  let (ramdisk, stream) ← extractRamdisk img stream
  let (second, _) ← extractSecond room img stream
  return ⟨config, kernel, ramdisk, second⟩

/-- The command `-u`, from the image that it has opened: the image that it leaves. -/
def update (held : ℕ) (fs : Files) (config_args : List UInt8) (img : Abootimg) (stream : Stream) :
    Except Stop (List UInt8) := do
  let (img, stream) ← readHeader img stream
  let img ← updateHeader fs config_args img
  let (img, stream) ← updateImages fs img stream
  let stream ← writeBootimg held img stream
  return stream.image

/-- The command `--create`, from the empty image that it has made: the image that it leaves. -/
def create (held : ℕ) (fs : Files) (config_args : List UInt8) (img : Abootimg) (stream : Stream) :
    Except Stop (List UInt8) := do
  let img ← updateHeader fs config_args img
  let (img, stream) ← updateImages fs img stream
  match checkBootImgHeader img with
  | some _ => .error (.printf (img.fname ++ ": Sanity cheks failed"))
  | none =>
    let stream ← writeBootimg held img stream
    return stream.image

/-- `main`: the files that the program writes. -/
def main (held : ℕ) (room : ℕ → ℕ) (fs : Files) (argv : List String) :
    Except Stop (List (String × List UInt8)) := do
  let (cmd, img, config_args) ← parseArgs argv newBootimg
  match cmd with
  | .none => return []
  | .help => return []
  | .info => do
    let _ ← readHeader img (← openBootimg fs img)
    return []
  | .extract => do
    let x ← extract room img (← openBootimg fs img)
    return (img.config_fname.map (·, x.config)).toList ++
      (img.kernel_fname.map (·, x.kernel)).toList ++
      (img.ramdisk_fname.map (·, x.ramdisk)).toList ++
      (img.second_fname.bind fun fname => x.second.map (fname, ·)).toList
  | .update => do
    let bytes ← update held fs config_args img (← openBootimg fs img)
    return [(img.fname, bytes)]
  | .create =>
    if img.kernel_fname.isNone ∨ img.ramdisk_fname.isNone then return []
    else do
      let bytes ← create held (Function.update fs img.fname (some [])) config_args img
        (Stream.ofFile [])
      return [(img.fname, bytes)]

/-! ## Scripts -/

/-- The files as a program sees them whose working directory is `dir`. -/
def Files.view (fs : Files) (dir : String) : Files := fun name => fs (dir ++ name)

/-- The files after a program whose working directory is `dir` has written some. -/
def Files.writeAll (fs : Files) (dir : String) (outs : List (String × List UInt8)) : Files :=
  outs.foldl (fun fs out => Function.update fs (dir ++ out.1) (some out.2)) fs

/-- The boot partition of an unpacked image. -/
def bootPartition : String := "output/image/boot.PARTITION"

/-- What `unpack` does with the boot partition: `abootimg -x boot.img` on a copy of it in
`output/boot`, which is removed. -/
def unpackBoot (room : ℕ → ℕ) (fs : Files) : Except Stop Files := do
  let fs := Function.update fs "output/boot/boot.img" (fs bootPartition)
  let outs ← main 0 room (Files.view fs "output/boot/") ["-x", "boot.img"]
  return Function.update (Files.writeAll fs "output/boot/" outs) "output/boot/boot.img" none

/-- What `recreate` does with the boot partition. -/
def recreateBoot (held : ℕ) (room : ℕ → ℕ) (fs : Files) : Except Stop Files := do
  let fs := Function.update fs bootPartition none
  let outs ← main held room fs ["--create", bootPartition, "-f", "output/boot/bootimg.cfg",
    "-k", "output/boot/zImage", "-r", "output/boot/initrd.img"]
  return Files.writeAll fs "" outs

end AmlogicToolkit.Boot
