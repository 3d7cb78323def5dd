import AmlogicToolkit.Flash.Shell

/-!
# `aml-flash`

The script, one definition for each of its commented parts: its options, the files `image.cfg` and
the platform's configuration that `unpack` leaves in `output/image`, and its talk with the device
through `tools/update`. What it prints and how long it sleeps is left out.
-/

namespace AmlogicToolkit.Flash

open Boot Dialogue

/-! ## Parse options -/

/-- The variables that the options set. A variable of `vars`, where all those are whose names end in
`_file` and `_file_type`, is empty before it is set. -/
structure Options where
  parts : String
  wipe : Bool
  reset : String
  soc : String
  password : String
  destroy : Bool
  wait_device : Bool
  vars : String → String

/-- The variables before the first option. -/
def Options.init : Options where
  parts := ""
  wipe := false
  reset := ""
  soc := ""
  password := ""
  destroy := false
  wait_device := true
  vars _ := ""

/-- `${opt%=*}`: what stands before the last `=`. -/
def optName (opt : String) : String :=
  if '=' ∈ opt.toList then
    String.ofList ((opt.toList.reverse.dropWhile (· ≠ '=')).tail).reverse
  else opt

/-- `${opt#*=}`: what stands behind the first `=`. -/
def optVal (opt : String) : String :=
  if '=' ∈ opt.toList then String.ofList (opt.toList.dropWhile (· ≠ '=')).tail else opt

/-- `${optval/#\~/$HOME}`: a tilde in front is replaced by the home directory. -/
def tilde (home optval : String) : String :=
  match optval.toList with
  | '~' :: rest => home ++ String.ofList rest
  | _ => optval

/-- An option `--..-file`, whose value is the name of a file. -/
def isFileOption (name : String) : Bool :=
  decide ("--".toList <+: name.toList ∧ "-file".toList <:+ name.toList ∧ 7 ≤ name.toList.length)

/-- The variable that an option `--..-file` sets. -/
def fileVariable (name : String) : String := String.ofList (sedFile (name.toList.drop 2))

/-- The loop over the options: each sets a variable, or stops the script. -/
def parseOptions (host : Host) : List String → Options → Except Stop Options
  | [], o => .ok o
  | opt :: opts, o =>
    let optval := optVal opt
    let name := optName opt
    if name = "--help" ∨ name = "-h" then .error (.exit 0)
    else if name = "--img" then do
      checkFile host.files (words (tilde host.home optval))
      parseOptions host opts o
    else if name = "--parts" then parseOptions host opts { o with parts := optval }
    else if name = "--wipe" then parseOptions host opts { o with wipe := true }
    else if name = "--reset" then parseOptions host opts { o with reset := optval }
    else if name = "--efuse-file" then do
      let efuse_file := tilde host.home optval
      checkFile host.files (words efuse_file)
      parseOptions host opts { o with vars := Function.update o.vars "efuse_file" efuse_file }
    else if name = "--uboot-file" then do
      let uboot_file := tilde host.home optval
      checkFile host.files (words uboot_file)
      parseOptions host opts { o with vars := Function.update o.vars "uboot_file" uboot_file }
    else if name = "--soc" then parseOptions host opts { o with soc := optval }
    else if name = "--password" then do
      checkFile host.files (words optval)
      parseOptions host opts { o with password := optval }
    else if name = "--destroy" then parseOptions host opts { o with destroy := true }
    else if name = "--debug" then parseOptions host opts o
    else if name = "--no-wait" then parseOptions host opts { o with wait_device := false }
    else if isFileOption name then
      let newvar := fileVariable name
      if isIdentifier newvar then do
        let file := fieldAt ',' 1 (echo optval)
        checkFile host.files (words file)
        parseOptions host opts { o with
          vars := Function.update (Function.update o.vars newvar file) (newvar ++ "_type")
            (fieldAt ',' 2 (echo optval)) }
      -- No variable has this name, and the error in its expansion gives up the whole loop.
      else .ok o
    else parseOptions host opts o

/-- "Check parameters": without `--parts` or `--destroy`, or with a chip that is not known, the
script stops. -/
def checkParameters (o : Options) : Except Stop Options :=
  if ¬o.destroy ∧ o.parts = "" then .error (.exit 1)
  else
    let soc := if o.soc = "" then "gxl" else o.soc
    if soc ≠ "gxl" ∧ soc ≠ "axg" ∧ soc ≠ "txlx" ∧ soc ≠ "m8" then .error (.exit 1)
    else .ok { o with soc := soc }

/-- The test of the script that tells the newer chips from `m8`. -/
def isGx (soc : String) : Bool := soc = "gxl" || soc = "axg" || soc = "txlx"

/-! ## The device is found and unlocked -/

/-- `run_update_return identify 7`, whose answer is kept. -/
def identify : Script String := runUpdateReturn "identify" ["7"]

/-- The loop that waits for the device, for at most `rounds` passes. -/
def waitDevice : ℕ → Script Unit
  | 0 => stop .waits
  | rounds + 1 => do
    if grepIgnoringCase "firmware" (← identify) then pure () else waitDevice rounds

/-- The device is looked for, and waited for when it is not there. -/
def findDevice (rounds : ℕ) (o : Options) : Script Unit := do
  if grepIgnoringCase "firmware" (← identify) then pure ()
  else if o.wait_device then waitDevice rounds
  else stop (.exit 1)

/-- "Check if the board is locked with a password", and "Unlock usb mode by password". -/
def unlock (o : Options) : Script Unit := do
  if grepIgnoringCase "Password check NG" (← identify) then
    if o.password = "" then stop (.exit 1)
    else do
      runUpdateAssert "password" (words o.password)
      if grepIgnoringCase "Password check OK" (← identify) then pure () else stop (.exit 1)
  else pure ()

/-- The commands that `--destroy` adds to a reboot. -/
def destroyStore : Script Unit := do
  let _ ← runUpdate "bulkcmd" ["store erase boot"]
  let _ ← runUpdate "bulkcmd" ["amlmmc erase 1"]
  let _ ← runUpdate "bulkcmd" ["nand erase 0 4096"]

/-- The board is rebooted if its u-boot answers. -/
def reboot (o : Options) : Script Unit := do
  if ← runUpdate "bulkcmd" ["echo 12345"] then
    if o.destroy then stop (.exit 0)
  else do
    let _ ← runUpdate "bulkcmd" ["bootloader_is_old"]
    runUpdateAssert "bulkcmd" ["erase_bootloader"]
    destroyStore.when o.destroy
    let _ ← runUpdate "bulkcmd" ["reset"]
    if o.destroy then stop (.exit 0)

/-- "Should we destroy the boot ?" -/
def destroyBoot (o : Options) : Script Unit := do
  (reboot o).when (o.parts = "all" ∨ o.parts = "bootloader" ∨ o.parts = "" ∨ o.parts = "none")
  if o.destroy then stop (.exit 0)

/-- The register that tells whether the board is secure, and the bit. -/
def secureRegister (soc : String) : String × String :=
  if soc = "gxl" then ("0xc8100228", "0x10")
  else if soc = "axg" ∨ soc = "txlx" then ("0xff800228", "0x10")
  else ("0xd9018048", "0x80")

/-- The text `0x`, with what `rreg` prints behind the first colon, blanks left out. -/
def registerValue (update_return : String) : String :=
  "0x" ++ String.ofList (gsub [' '] (fieldAt ':' 2 update_return).toList)

/-- `secured`, by what the register is read as: whether the text of `value` is not `0`. Where the
expression is an error the whole `if` around it is given up, and `value` keeps a text with `0x`. -/
def isSecured (host : Host) (soc update_return : String) : Bool :=
  host.expand (registerValue update_return) " & " (secureRegister soc).2 (· &&& ·) ≠ some 0

/-- "Check if board is secure": the register is read, and its bit decides. -/
def checkSecure (host : Host) (soc : String) : Script Bool := do
  return isSecured host soc (← runUpdateReturn "rreg" ["4", (secureRegister soc).1])

/-! ## The image's configuration -/

/-- What the script reads from `image.cfg` and from the platform's configuration. -/
structure Config where
  ddr_filename : String
  uboot_filename : String
  uboot_comp_filename : String
  dtb_meson_filename : String
  dtb_meson1_filename : String
  dtb_meson1_enc_filename : String
  ddr_enc_filename : String
  uboot_enc_filename : String
  bin_params : String
  ddr_load : String
  ddr_run : String
  uboot_decomp : String
  uboot_enc_down : String
  uboot_enc_run : String
  uboot_load : String
  uboot_run : String
  bl2_params : String
  nb_partitions : ℕ
  partitions_file : List String
  partitions_name : List String
  partitions_type : List String
  deriving DecidableEq

/-- The lines of the files that `awk` is given. -/
def awkLines (files : Files) (path : String) : List (List Char) :=
  (words path).flatMap fun name => lines ((files name).getD [])

/-- "Parsing image configuration files": the partitions with their names, files and types. -/
def readConfig (files : Files) (tmp_dir : String) : Config :=
  let cfg := awkLines files (tmp_dir ++ "/image.cfg")
  let item (sub : String) := backquote (awk ("sub_type=\"" ++ sub ++ "\"") ["file=", "\""] 1 cfg)
  let conf := awkLines files (tmp_dir ++ "/" ++ item "platform")
  let para (key : String) := backquote (awk key [key] 1 conf)
  let partitions (del : String) (n : ℕ) :=
    ((awk "main_type=\"PARTITION\"" [del, "\""] n cfg).flatMap wordsOf).map String.ofList
  { ddr_filename := item "DDR"
    uboot_filename := item "UBOOT"
    uboot_comp_filename := item "UBOOT_COMP"
    dtb_meson_filename := item "meson"
    dtb_meson1_filename := item "meson1"
    dtb_meson1_enc_filename := item "meson1_ENC"
    ddr_enc_filename := item "DDR_ENC"
    uboot_enc_filename := item "UBOOT_ENC"
    bin_params := para "BinPara:"
    ddr_load := para "DDRLoad:"
    ddr_run := para "DDRRun:"
    uboot_decomp := para "Uboot_decomp:"
    uboot_enc_down := para "Uboot_enc_down:"
    uboot_enc_run := para "Uboot_enc_run:"
    uboot_load := para "UbootLoad:"
    uboot_run := para "UbootRun:"
    bl2_params := para "bl2ParaAddr="
    nb_partitions := (cfg.filter (isIn "main_type=\"PARTITION\"".toList)).length
    partitions_file := partitions "file=" 1
    partitions_name := partitions "sub_type=" 3
    partitions_type := partitions "file_type=" 4 }

/-- `${partitions_name[$i]}`, empty where there is none. -/
def Config.nameAt (conf : Config) (i : ℕ) : String := conf.partitions_name.getD i ""

/-- `${partitions_file[$i]}`, empty where there is none. -/
def Config.fileAt (conf : Config) (i : ℕ) : String := conf.partitions_file.getD i ""

/-- `${partitions_type[$i]}`, empty where there is none. -/
def Config.typeAt (conf : Config) (i : ℕ) : String := conf.partitions_type.getD i ""

/-- The first partition of that name. -/
def Config.find (conf : Config) (name : String) : Option ℕ :=
  (List.range conf.nb_partitions).find? fun i => conf.nameAt i = name

/-! ## Bootloader update -/

/-- The variables of the bootloader update, and the files after it has taken `uboot_file` apart. -/
structure BootFiles where
  files : Files
  ddr : String
  fip : String
  bootloader_file : String
  dtb_file : String
  bl2 : String
  tpl : String

/-- `bootloader_file`: the one of the options, or that of the package. -/
def bootloaderFile (tmp_dir : String) (o : Options) (conf : Config) : String :=
  if o.vars "bootloader_file" ≠ "" then o.vars "bootloader_file"
  else match conf.find "bootloader" with
    | some i => tmp_dir ++ "/" ++ conf.fileAt i
    | none => ""

/-- `dtb_file`: the one of the options, or the one that the package has for the chip. -/
def dtbFile (files : Files) (tmp_dir : String) (o : Options) (conf : Config) : String :=
  if o.vars "dtb_file" ≠ "" then o.vars "dtb_file"
  else if isGx o.soc then
    if (files (tmp_dir ++ "/" ++ conf.dtb_meson1_filename)).isSome then
      tmp_dir ++ "/" ++ conf.dtb_meson1_filename
    else match conf.find "_aml_dtb" with
      | some i => tmp_dir ++ "/" ++ conf.fileAt i
      | none => ""
  else tmp_dir ++ "/" ++ conf.dtb_meson_filename

/-- The files when the two `dd`, with blocks of 49152 bytes, have taken `uboot_file` apart. -/
def splitUboot (files : Files) (tmp_dir uboot_file : String) : Files :=
  let files := Function.update files (tmp_dir ++ "/uboot_file_bl2.bin")
    ((files uboot_file).map (List.take 49152))
  Function.update files (tmp_dir ++ "/uboot_file_tpl.bin")
    ((files uboot_file).map (List.drop 49152))

/-- `bl2` and `tpl`, and the files that are there then. -/
def ubootFiles (files : Files) (tmp_dir : String) (o : Options) (conf : Config) (secured : Bool) :
    Except Stop (Files × String × String) :=
  let uboot_file := o.vars "uboot_file"
  if uboot_file = "" then
    if ¬secured then
      .ok (files, tmp_dir ++ "/" ++ conf.ddr_filename,
        tmp_dir ++ "/" ++
          if conf.uboot_comp_filename = "" then conf.uboot_filename else conf.uboot_comp_filename)
    else if conf.ddr_enc_filename = "" ∨ conf.uboot_enc_filename = "" then .error (.exit 1)
    else .ok (files, tmp_dir ++ "/" ++ conf.ddr_enc_filename,
      tmp_dir ++ "/" ++ conf.uboot_enc_filename)
  else if isGx o.soc then
    .ok (splitUboot files tmp_dir uboot_file, tmp_dir ++ "/uboot_file_bl2.bin",
      tmp_dir ++ "/uboot_file_tpl.bin")
  else .ok (files, tmp_dir ++ "/" ++ conf.ddr_filename, uboot_file)

/-- `ddr`: the parameters with which the memory is initialised. -/
def Host.ddr (host : Host) : String := host.tool_path ++ "/tools/usbbl2runpara_ddrinit.bin"

/-- `fip`: the parameters with which u-boot is run on that chip. -/
def Host.fip (host : Host) (soc : String) : String :=
  host.tool_path ++
    if isGx soc then "/tools/usbbl2runpara_runfipimg.bin" else "/tools/decompressPara_4M.dump"

/-- The bootloader update before its first command. -/
def bootFiles (host : Host) (tmp_dir : String) (o : Options) (conf : Config) (secured : Bool) :
    Except Stop BootFiles := do
  (if isGx o.soc then checkFile host.files (words host.ddr) else .ok ())
  checkFile host.files (words (host.fip o.soc))
  let bootloader_file := bootloaderFile tmp_dir o conf
  let dtb_file := dtbFile host.files tmp_dir o conf
  checkFile host.files [bootloader_file]
  checkFile host.files [dtb_file]
  let (files, bl2, tpl) ← ubootFiles host.files tmp_dir o conf secured
  checkFile files [bl2]
  checkFile files [tpl]
  return { files, ddr := host.ddr, fip := host.fip o.soc, bootloader_file, dtb_file, bl2, tpl }

/-- "Initializing ddr": the value of `usb_protocol`. -/
def initDdr (o : Options) (conf : Config) (b : BootFiles) : Script String := do
  if isGx o.soc then do
    runUpdateAssert "cwr" (b.bl2 :: words conf.ddr_load)
    runUpdateAssert "write" (b.ddr :: words conf.bl2_params)
    runUpdateAssert "run" (words conf.ddr_run)
    let update_return ← identify
    if grepIgnoringCase "firmware" update_return then do
      (runUpdateAssert "run" (words conf.bl2_params)).when (fieldAt '-' 4 update_return = "8")
      return fieldAt '-' 4 update_return
    else stop (.exit 1)
  else do
    runUpdateAssert "cwr" (b.bl2 :: words conf.ddr_load)
    runUpdateAssert "run" (words conf.ddr_run)
    return ""

/-- The number that `bc` prints with `obase=16`. -/
def bcHex (n : ℤ) : String :=
  (if n < 0 then "-" else "") ++
    String.ofList ((Nat.toDigits 16 n.natAbs).map Char.toUpper)

/-- "Running u-boot": the memory is initialised, u-boot is loaded and run. -/
def runUboot (host : Host) (o : Options) (conf : Config) (secured : Bool) (b : BootFiles)
    (usb_protocol : String) : Script Unit := do
  if isGx o.soc then do
    runUpdateAssert "write" (b.bl2 :: words conf.ddr_load)
    runUpdateAssert "write" (b.fip :: words conf.bl2_params)
    runUpdateAssert "write" (b.tpl :: words conf.uboot_load)
    runUpdateAssert "run"
      (words (if usb_protocol = "8" then conf.bl2_params else conf.uboot_run))
  else do
    runUpdateAssert "write" (b.fip :: words conf.bin_params)
    if secured then do
      runUpdateAssert "write" (b.tpl :: words conf.uboot_enc_down)
      runUpdateAssert "run" (words conf.uboot_enc_run)
    else do
      runUpdateAssert "write" [b.tpl, "0x00400000"]
      runUpdateAssert "run" (words conf.uboot_decomp)
      let value := ((host.expand conf.bin_params " + " "0x18" (· + ·)).map bcHex).getD ""
      let update_return ← runUpdateReturn "rreg" ("4" :: words ("0x" ++ value))
      runUpdateAssert "run" (words (registerValue update_return))

/-- "Writing bootloader": its file goes to the partition `bootloader`. -/
def writeBootloader (b : BootFiles) : Script Unit :=
  runUpdateAssert "partition" ["bootloader", b.bootloader_file]

/-- `run_update_assert mwrite $dtb_file mem dtb normal`. -/
def writeDtb (b : BootFiles) : Script Unit :=
  runUpdateAssert "mwrite" (words b.dtb_file ++ ["mem", "dtb", "normal"])

/-- The device tree in memory by which the newer chips make their partitions. -/
def memoryDtb (tmp_dir : String) (conf : Config) (secured : Bool) : String :=
  tmp_dir ++ "/" ++ if secured then conf.dtb_meson1_enc_filename else conf.dtb_meson1_filename

/-- "Create partitions", "Writing device tree" and "Writing bootloader" of the newer chips. -/
def createPartitions (tmp_dir : String) (o : Options) (conf : Config) (b : BootFiles) :
    Script Unit := do
  runUpdateAssert "bulkcmd" [if o.wipe then "disk_initial 1" else "disk_initial 0"]
  (if (b.files (tmp_dir ++ "/" ++ conf.dtb_meson1_filename)).isSome then writeDtb b
    else runUpdateAssert "partition" ["_aml_dtb", b.dtb_file])
  writeBootloader b

/-- The same of `m8`, which writes the device tree last. -/
def createPartitionsM8 (o : Options) (b : BootFiles) : Script Unit := do
  (do let _ ← runUpdate "bulkcmd" ["disk_initial 3"]) |>.when o.wipe
  runUpdateAssert "bulkcmd" [if o.wipe then "disk_initial 2" else "disk_initial 0"]
  writeBootloader b
  writeDtb b

/-- What u-boot is told then: it gets the device tree on the newer chips, makes the partitions and
takes the bootloader. -/
def writeBoot (tmp_dir : String) (o : Options) (conf : Config) (secured : Bool) (b : BootFiles) :
    Script Unit :=
  if isGx o.soc then do
    lift (checkFile b.files [memoryDtb tmp_dir conf secured])
    runUpdateAssert "mwrite" [memoryDtb tmp_dir conf secured, "mem", "dtb", "normal"]
    (createPartitions tmp_dir o conf b).when (o.parts ≠ "none")
  else (createPartitionsM8 o b).when (o.parts ≠ "none")

/-- The environment of u-boot after the partitions. -/
def saveStep : Script Unit := do
  let _ ← runUpdate "bulkcmd" ["setenv upgrade_step 1"]
  let _ ← runUpdate "bulkcmd" ["save"]

/-- The end of the bootloader update. -/
def saveUpgrade (o : Options) : Script Unit := do
  saveStep.when (o.parts ≠ "none")
  if o.soc = "m8" then do
    let _ ← runUpdate "bulkcmd" ["save_setting"]

/-- The commands of the bootloader update. -/
def updateBoot (host : Host) (tmp_dir : String) (o : Options) (conf : Config) (secured : Bool)
    (b : BootFiles) : Script Unit := do
  let usb_protocol ← initDdr o conf b
  runUboot host o conf secured b usb_protocol
  writeBoot tmp_dir o conf secured b
  saveUpgrade o

/-- The test of the bootloader update. -/
def updatesBoot (parts : String) : Bool := parts = "all" || parts = "bootloader" || parts = "none"

/-- "Bootloader update": the files and the variables that it leaves. -/
def bootloaderUpdate (host : Host) (tmp_dir : String) (o : Options) (conf : Config)
    (secured : Bool) : Script (Files × (String → String)) := do
  if updatesBoot o.parts then do
    let b ← lift (bootFiles host tmp_dir o conf secured)
    updateBoot host tmp_dir o conf secured b
    return (b.files, Function.update (Function.update o.vars "bootloader_file" b.bootloader_file)
      "dtb_file" b.dtb_file)
  else return (host.files, o.vars)

/-! ## Partitions, efuses and the end -/

/-- The environment of u-boot for a board that is wiped. -/
def wipeEnvironment : Script Unit := do
  let _ ← runUpdate "bulkcmd" ["setenv firstboot 1"]
  let _ ← runUpdate "bulkcmd" ["save"]
  let _ ← runUpdate "bulkcmd" ["rpmb_reset"]

/-- "Wiping data partition" and "Wiping cache partition". -/
def wipePartitions : Script Unit := do
  let _ ← runUpdate "bulkcmd" ["amlmmc erase data"]
  let _ ← runUpdate "bulkcmd" ["nand erase.part data"]
  let _ ← runUpdate "bulkcmd" ["amlmmc erase cache"]
  let _ ← runUpdate "bulkcmd" ["nand erase.part cache"]

/-- "Data and cache partitions wiping", which `--wipe` asks for. -/
def wipeData (o : Options) : Script Unit := do
  wipeEnvironment.when o.wipe
  wipePartitions.when (o.soc ≠ "m8" ∧ o.wipe)

/-- The partitions that the loop programs: the bootloader and, but for `--parts=dtb`, the device
tree are left to the bootloader update. -/
def isProgrammed (parts name : String) : Bool :=
  (parts = "all" || parts = name || (parts = "dtb" && name = "_aml_dtb")) &&
    !(name = "bootloader" || (name = "_aml_dtb" && parts ≠ "dtb"))

/-- `newvar`: the variable that holds the file of a partition, which is `dtb_file` for the device
tree. -/
def partitionVariable (name : String) : String :=
  if name = "_aml_dtb" then "dtb_file" else name ++ "_file"

/-- `partition_file`: the file of the option for the partition, or that of the package. -/
def partitionFile (tmp_dir : String) (conf : Config) (vars : String → String) (i : ℕ) : String :=
  let newvar := partitionVariable (conf.nameAt i)
  if vars newvar = "" then tmp_dir ++ "/" ++ conf.fileAt i else vars newvar

/-- `partition_type`: the type that goes with the file. -/
def partitionType (conf : Config) (vars : String → String) (i : ℕ) : String :=
  let newvar_type := partitionVariable (conf.nameAt i) ++ "_type"
  if vars newvar_type = "" then conf.typeAt i else vars newvar_type

/-- The arguments of `run_update_assert partition`: the words of the name, the file and the type. -/
def partitionArgs (tmp_dir : String) (conf : Config) (vars : String → String) (i : ℕ) :
    List String :=
  words (conf.nameAt i) ++ words (partitionFile tmp_dir conf vars i) ++
    words (partitionType conf vars i)

/-- "Program all the partitions", those with the numbers of the list. -/
def programPartitions (tmp_dir parts : String) (conf : Config) (files : Files) :
    List ℕ → (String → String) → Script (String → String)
  | [], vars => return vars
  | i :: is, vars =>
    if isProgrammed parts (conf.nameAt i) then
      if isIdentifier (partitionVariable (conf.nameAt i)) then do
        let partition_file := partitionFile tmp_dir conf vars i
        lift (checkFile files (words partition_file))
        runUpdateAssert "partition" (partitionArgs tmp_dir conf vars i)
        programPartitions tmp_dir parts conf files is
          (Function.update vars "partition_file" partition_file)
      -- No variable has this name, and the error in its expansion gives up the whole loop.
      else return vars
    else programPartitions tmp_dir parts conf files is vars

/-- "eFuse update": the file is loaded and programmed, when one is given. -/
def efuseUpdate (files : Files) (soc efuse_file : String) : Script Unit := do
  if efuse_file ≠ "" then do
    lift (checkFile files [efuse_file])
    runUpdateAssert "write" (words efuse_file ++ ["0x03000000"])
    runUpdateAssert "bulkcmd" [if soc = "m8" then "efuse secure_boot_set 0x03000000"
      else "efuse amlogic_set 0x03000000"]

/-- The loop that asks whether to reset the board, over the lines that are typed. -/
def askReset : List String → Except Stop String
  | [] => .error .waits
  | reset :: typed =>
    if reset.toList.any fun c => c = 'y' || c = 'Y' || c = 'n' || c = 'N' then .ok reset
    else askReset typed

/-- "Resetting board ?": by the option or by what is typed, when partitions were programmed. -/
def resetBoard (host : Host) (o : Options) : Script Unit := do
  if o.parts ≠ "none" then do
    let reset ← lift (if o.reset = "" then askReset host.typed else .ok o.reset)
    if reset.toList.any fun c => c = 'y' || c = 'Y' then do
      let _ ← runUpdate "bulkcmd" ["burn_complete 1"]

/-! ## The script -/

/-- `tmp_dir`: the directory `output/image` below the current one. -/
def Host.tmpDir (host : Host) : String := host.cwd ++ "/output/image"

/-- The options when the configuration is read: an array without an index is its first element. -/
def Options.withArray (o : Options) (conf : Config) : Options :=
  { o with vars := Function.update o.vars "partitions_file" (conf.partitions_file.headD "") }

/-- The script from "Check if board is secure" on. -/
def burn (host : Host) (o : Options) : Script Unit := do
  let secured ← checkSecure host o.soc
  let conf := readConfig host.files host.tmpDir
  let o := o.withArray conf
  let (files, vars) ← bootloaderUpdate host host.tmpDir o conf secured
  wipeData o
  let vars ← programPartitions host.tmpDir o.parts conf files (List.range conf.nb_partitions) vars
  efuseUpdate files o.soc (vars "efuse_file")
  resetBoard host o

/-- The script with its parameters checked. -/
def flash (host : Host) (rounds : ℕ) (o : Options) : Script Unit := do
  findDevice rounds o
  unlock o
  destroyBoot o
  unlock o
  burn host o

/-- `aml-flash`, which waits for the device for at most `rounds` passes. -/
def amlFlash (host : Host) (rounds : ℕ) (args : List String) : Script Unit := do
  let o ← lift (parseOptions host args Options.init)
  let o ← lift (checkParameters o)
  flash host rounds o

end AmlogicToolkit.Flash
