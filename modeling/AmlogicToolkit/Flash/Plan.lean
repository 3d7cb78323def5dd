import AmlogicToolkit.Flash.Commands
import AmlogicToolkit.Lib.Results

/-!
# What a run stores

The commands by which a run of `aml-flash` changes what the board stores are known before the first
one is sent: the device only decides how far the script comes. `plan` lists them from the options
and the image's configuration, and in every run they are a first part of that list, and all of it
when the script reaches its end (`amlFlash_stores`).
-/

namespace AmlogicToolkit.Flash

open Boot Dialogue

/-! ## The plan -/

/-- The commands `bulkcmd` that change what the board stores. -/
def storingCommands : List (List String) :=
  destroyCommands ++ wipeCommands ++ storingTexts.map bulkcmd

/-- The command writes a partition, makes the partitions, erases, or programs the efuses. -/
def isStoring (c : List String) : Bool := c.headD "" = "partition" || storingCommands.contains c

/-- The command `partition` with these arguments. -/
def partitionCommand (args : List String) : List String := "partition" :: updateArgs "partition" args

variable {host : Host} {o : Options} {conf : Config} {tmp_dir : String} {secured : Bool}

/-- The files after the bootloader update. -/
def filesAfter (host : Host) (tmp_dir : String) (o : Options) : Files :=
  if o.vars "uboot_file" ≠ "" ∧ isGx o.soc then splitUboot host.files tmp_dir (o.vars "uboot_file")
  else host.files

/-- The commands of the bootloader update that store: the partitions are made, then the bootloader
is written. -/
def bootPlan (host : Host) (tmp_dir : String) (o : Options) (conf : Config) : List (List String) :=
  let dtb := dtbFile host.files tmp_dir o conf
  let bootloader := partitionCommand ["bootloader", bootloaderFile tmp_dir o conf]
  if isGx o.soc then
    let meson1 := filesAfter host tmp_dir o (tmp_dir ++ "/" ++ conf.dtb_meson1_filename)
    [bulkcmd (if o.wipe then "disk_initial 1" else "disk_initial 0")] ++
      ((if meson1.isSome then [] else [partitionCommand ["_aml_dtb", dtb]]) ++ [bootloader])
  else
    (if o.wipe then [bulkcmd "disk_initial 3"] else []) ++
      ([bulkcmd (if o.wipe then "disk_initial 2" else "disk_initial 0")] ++ [bootloader])

/-- The commands of `--wipe` that erase, behind the bootloader update. -/
def wipePlan (o : Options) : List (List String) :=
  (if o.wipe then [bulkcmd "rpmb_reset"] else []) ++
    if o.soc ≠ "m8" ∧ o.wipe then
      [bulkcmd "amlmmc erase data", bulkcmd "nand erase.part data", bulkcmd "amlmmc erase cache",
        bulkcmd "nand erase.part cache"]
    else []

/-- The numbers of the partitions that are programmed, of those in the list: the selected ones, in
the order of `image.cfg`, up to the first whose name no variable can have. -/
def programmed (parts : String) (conf : Config) (is : List ℕ) : List ℕ :=
  (is.filter fun i => isProgrammed parts (conf.nameAt i)).takeWhile fun i =>
    isIdentifier (partitionVariable (conf.nameAt i))

/-- The commands that program them, each once. -/
def partitionPlan (tmp_dir parts : String) (conf : Config) (vars : String → String)
    (is : List ℕ) : List (List String) :=
  (programmed parts conf is).map fun i => partitionCommand (partitionArgs tmp_dir conf vars i)

/-- The commands of the efuse update that store: the one of the chip, when a file is given. -/
def efusePlan (soc efuse_file : String) : List (List String) :=
  if efuse_file ≠ "" then
    [bulkcmd (if soc = "m8" then "efuse secure_boot_set 0x03000000"
      else "efuse amlogic_set 0x03000000")]
  else []

/-- The variables that the loop over the partitions starts with. -/
def planVars (host : Host) (tmp_dir : String) (o : Options) (conf : Config) : String → String :=
  if updatesBoot o.parts then
    Function.update
      (Function.update o.vars "bootloader_file" (bootloaderFile tmp_dir o conf))
      "dtb_file" (dtbFile host.files tmp_dir o conf)
  else o.vars

/-- The partitions that a run programs. -/
def Config.selected (conf : Config) (parts : String) : List ℕ :=
  programmed parts conf (List.range conf.nb_partitions)

/-- The configuration that the script reads. -/
def Host.config (host : Host) : Config := readConfig host.files host.tmpDir

/-- What a run without `--destroy` stores. -/
def burnPlan (host : Host) (o : Options) (conf : Config) : List (List String) :=
  let o := o.withArray conf
  (if o.parts ≠ "none" ∧ updatesBoot o.parts then bootPlan host host.tmpDir o conf else []) ++
    (wipePlan o ++ (partitionPlan host.tmpDir o.parts conf (planVars host host.tmpDir o conf)
      (List.range conf.nb_partitions) ++ efusePlan o.soc (o.vars "efuse_file")))

/-- The commands that a run stores with. -/
def plan (host : Host) (o : Options) : List (List String) :=
  if o.destroy then destroyCommands else burnPlan host o host.config

/-! ## The parts follow it -/

/-- A part none of whose commands store follows the empty plan. -/
theorem follows_of_sends {α : Type} {P : List String → Prop} {p : Script α} (h : Sends P p)
    (hP : ∀ c, P c → isStoring c = false) : p.Follows isStoring [] := h.follows hP

/-- A command that stores, sent by `run_update_return`, is its own plan. -/
theorem updateReturn_follows {cmd : String} {args : List String}
    (h : isStoring (cmd :: updateArgs cmd args) = true) :
    (runUpdateReturn cmd args).Follows isStoring [cmd :: updateArgs cmd args] :=
  (follows_send h).bind fun _ _ => follows_pure _

/-- A command that stores, sent by `run_update`, is its own plan. -/
theorem update_follows {cmd : String} {args : List String}
    (h : isStoring (cmd :: updateArgs cmd args) = true) :
    (runUpdate cmd args).Follows isStoring [cmd :: updateArgs cmd args] :=
  (updateReturn_follows h).bind fun _ _ => follows_pure _

/-- A command that stores, sent by `run_update_assert`, is its own plan. -/
theorem updateAssert_follows {cmd : String} {args : List String}
    (h : isStoring (cmd :: updateArgs cmd args) = true) :
    (runUpdateAssert cmd args).Follows isStoring [cmd :: updateArgs cmd args] := by
  have hend (bad : Bool) :
      (if bad = true then stop (.exit 1) else pure () : Script Unit).Follows isStoring [] := by
    cases bad
    · exact follows_pure _
    · exact follows_stop _
  exact (update_follows h).bind fun bad _ => hend bad

/-- A command `partition` is its own plan. -/
theorem partition_follows (args : List String) :
    (runUpdateAssert "partition" args).Follows isStoring [partitionCommand args] :=
  updateAssert_follows (by simp [isStoring])

/-- `bulkcmd` with one of the texts stores. -/
theorem bulkcmd_follows {text : String} (h : isStoring (bulkcmd text) = true) :
    (runUpdate "bulkcmd" [text]).Follows isStoring [bulkcmd text] := by
  rw [← updateArgs_bulkcmd] at h ⊢
  exact update_follows h

/-- A text that stores, sent by `run_update_assert`, is its own plan. -/
theorem bulkcmdAssert_follows {text : String} (h : isStoring (bulkcmd text) = true) :
    (runUpdateAssert "bulkcmd" [text]).Follows isStoring [bulkcmd text] := by
  rw [← updateArgs_bulkcmd] at h ⊢
  exact updateAssert_follows h

/-- Commands with another first word do not store. -/
theorem isStoring_of_head {c : List String} {v : String} (h : c.head? = some v)
    (hpartition : v ≠ "partition") (hbulkcmd : v ≠ "bulkcmd") : isStoring c = false := by
  obtain ⟨args, rfl⟩ := List.head?_eq_some_iff.mp h
  simp [isStoring, storingCommands, destroyCommands, wipeCommands, storingTexts, bulkcmd, hpartition,
    hbulkcmd]

/-- Looking for a device stores nothing. -/
theorem findDevice_follows (rounds : ℕ) : (findDevice rounds o).Follows isStoring [] :=
  follows_of_sends (findDevice_sends rounds) fun c hc => by
    rw [hc]
    decide

/-- Unlocking stores nothing. -/
theorem unlock_follows : (unlock o).Follows isStoring [] :=
  follows_of_sends unlock_sends fun c hc => by
    obtain rfl | hc := hc
    · decide
    · exact isStoring_of_head hc (by decide) (by decide)

/-- Without `--destroy` a reboot stores nothing. -/
theorem destroyBoot_follows (hd : o.destroy = false) : (destroyBoot o).Follows isStoring [] := by
  refine follows_of_sends destroyBoot_sends fun c hc => ?_
  obtain hc | ⟨hd', -⟩ := hc
  · revert c
    decide
  · simp [hd] at hd'

/-- A command that loads or runs a file stores nothing. -/
theorem isStoring_of_isLoading {c : List String} (h : IsLoading c) : isStoring c = false := by
  simp only [IsLoading, List.mem_cons, List.not_mem_nil, or_false] at h
  obtain h | h | h := h <;> exact isStoring_of_head h (by decide) (by decide)

/-- The check for a secure board stores nothing. -/
theorem checkSecure_follows (soc : String) : (checkSecure host soc).Follows isStoring [] :=
  follows_of_sends (checkSecure_sends soc) fun c hc =>
    isStoring_of_head (v := "rreg") (by rw [hc]; rfl) (by decide) (by decide)

/-- Handing over the device tree stores nothing. -/
theorem writeDtb_follows {b : BootFiles} : (writeDtb b).Follows isStoring [] :=
  follows_of_sends writeDtb_sends fun _ hc => isStoring_of_head hc (by decide) (by decide)

/-- The files that are there after the choice of u-boot are those of the plan. -/
theorem ubootFiles_ok {r : Files × String × String}
    (h : ubootFiles host.files tmp_dir o conf secured = .ok r) : r.1 = filesAfter host tmp_dir o := by
  simp only [ubootFiles, filesAfter] at h ⊢
  split at h
  · next hu =>
    rw [if_neg fun hn => hn.1 hu]
    split at h
    · cases h
      rfl
    · split at h
      · cases h
      · cases h
        rfl
  · next hu =>
    split at h
    · next hg =>
      cases h
      exact (if_pos ⟨hu, hg⟩).symm
    · next hg =>
      cases h
      exact (if_neg fun hn => hg hn.2).symm

/-- What the bootloader update has found before its first command. -/
theorem bootFiles_ok {b : BootFiles} (h : bootFiles host tmp_dir o conf secured = .ok b) :
    b.files = filesAfter host tmp_dir o ∧ b.bootloader_file = bootloaderFile tmp_dir o conf ∧
      b.dtb_file = dtbFile host.files tmp_dir o conf := by
  obtain ⟨_, -, h⟩ := Except.bind_ok_iff.mp h
  obtain ⟨_, -, h⟩ := Except.bind_ok_iff.mp h
  obtain ⟨_, -, h⟩ := Except.bind_ok_iff.mp h
  obtain ⟨_, -, h⟩ := Except.bind_ok_iff.mp h
  obtain ⟨r, hr, h⟩ := Except.bind_ok_iff.mp h
  obtain ⟨_, -, h⟩ := Except.bind_ok_iff.mp h
  obtain ⟨_, -, h⟩ := Except.bind_ok_iff.mp h
  cases h
  exact ⟨ubootFiles_ok hr, rfl, rfl⟩

/-- The device tree and the partitions of the newer chips. -/
theorem createPartitions_follows {b : BootFiles}
    (hb : bootFiles host tmp_dir o conf secured = .ok b) (hg : isGx o.soc) :
    (createPartitions tmp_dir o conf b).Follows isStoring (bootPlan host tmp_dir o conf) := by
  obtain ⟨hfiles, hboot, hdtb⟩ := bootFiles_ok hb
  unfold createPartitions bootPlan writeBootloader
  rw [if_pos hg, hfiles, hboot, hdtb]
  have hinit : isStoring (bulkcmd (if o.wipe then "disk_initial 1" else "disk_initial 0")) := by
    split <;> decide
  refine (bulkcmdAssert_follows hinit).bind fun _ _ => ?_
  refine Follows.bind (.ite (fun _ => writeDtb_follows) fun _ => ?_) fun _ _ => ?_
  · exact partition_follows _
  · exact partition_follows _

/-- The partitions of `m8` are made as planned. -/
theorem createPartitionsM8_follows {b : BootFiles}
    (hb : bootFiles host tmp_dir o conf secured = .ok b) (hg : ¬isGx o.soc) :
    (createPartitionsM8 o b).Follows isStoring (bootPlan host tmp_dir o conf) := by
  obtain ⟨-, hboot, -⟩ := bootFiles_ok hb
  unfold createPartitionsM8 bootPlan writeBootloader
  rw [if_neg hg, hboot]
  have hinit : isStoring (bulkcmd (if o.wipe then "disk_initial 2" else "disk_initial 0")) := by
    split <;> decide
  refine Follows.bind (.when fun _ => ?_) fun _ _ => ?_
  · exact (bulkcmd_follows (by decide)).bind fun _ _ => follows_pure _
  · refine (bulkcmdAssert_follows hinit).bind fun _ _ => ?_
    exact (partition_follows _).bind fun _ _ => writeDtb_follows

/-- The bootloader is written as planned, and not at all when no partitions are. -/
theorem updateBoot_follows {b : BootFiles} (hb : bootFiles host tmp_dir o conf secured = .ok b) :
    (updateBoot host tmp_dir o conf secured b).Follows isStoring
      (if o.parts ≠ "none" then bootPlan host tmp_dir o conf else []) := by
  refine (follows_of_sends initDdr_sends fun c hc => ?_).nil_bind fun usb_protocol _ => ?_
  · obtain hc | rfl := hc
    · exact isStoring_of_isLoading hc
    · decide
  refine (follows_of_sends (runUboot_sends usb_protocol) fun _ hc => hc.elim isStoring_of_isLoading
    fun h => isStoring_of_head h (by decide) (by decide)).nil_bind fun _ _ => ?_
  refine Follows.bind_nil ?_ fun _ _ => follows_of_sends saveUpgrade_sends (by decide)
  unfold writeBoot
  by_cases hg : isGx o.soc
  · rw [if_pos hg]
    refine (follows_lift _).nil_bind fun _ _ => ?_
    refine (follows_of_sends (sends_updateAssert (P := (·.head? = some "mwrite")) rfl) fun _ hc =>
      isStoring_of_head hc (by decide) (by decide)).nil_bind fun _ _ => ?_
    exact .when fun _ => createPartitions_follows hb hg
  · rw [if_neg hg]
    exact .when fun _ => createPartitionsM8_follows hb hg

/-- The bootloader update, and the files and variables that it leaves. -/
theorem bootloaderUpdate_follows :
    (bootloaderUpdate host tmp_dir o conf secured).Follows isStoring
      (if o.parts ≠ "none" ∧ updatesBoot o.parts then bootPlan host tmp_dir o conf else []) := by
  unfold bootloaderUpdate
  by_cases hu : updatesBoot o.parts
  · rw [if_pos hu]
    simp only [hu, and_true]
    refine (follows_lift _).nil_bind fun b hb => ?_
    exact (updateBoot_follows (returns_lift.mp hb)).bind_nil fun _ _ => follows_pure _
  · rw [if_neg hu, if_neg fun h => hu h.2]
    exact follows_pure _

/-- The variables behind the update of the bootloader are those of the plan. -/
theorem bootloaderUpdate_returns {r : Files × (String → String)}
    (h : (bootloaderUpdate host tmp_dir o conf secured).Returns r) :
    r.2 = planVars host tmp_dir o conf := by
  unfold bootloaderUpdate at h
  unfold planVars
  by_cases hu : updatesBoot o.parts
  · rw [if_pos hu] at h ⊢
    obtain ⟨b, hb, h⟩ := returns_bind.mp h
    obtain ⟨-, -, h⟩ := returns_bind.mp h
    obtain ⟨-, hboot, hdtb⟩ := bootFiles_ok (returns_lift.mp hb)
    rw [returns_pure.mp h, hboot, hdtb]
  · rw [if_neg hu] at h ⊢
    rw [returns_pure.mp h]

/-- `--wipe` sends the commands of its plan that store. -/
theorem wipeData_follows : (wipeData o).Follows isStoring (wipePlan o) := by
  refine Follows.bind (.when fun _ => ?_) fun _ _ => .when fun _ => ?_
  · refine (follows_of_sends (sends_update (P := (· ∈ saveCommands)) (by decide))
      (by decide)).nil_bind fun _ _ => ?_
    refine (follows_of_sends (sends_update (P := (· ∈ saveCommands)) (by decide))
      (by decide)).nil_bind fun _ _ => ?_
    exact (bulkcmd_follows (by decide)).bind_nil fun _ _ => follows_pure _
  · refine (bulkcmd_follows (by decide)).bind fun _ _ => ?_
    refine (bulkcmd_follows (by decide)).bind fun _ _ => ?_
    refine (bulkcmd_follows (by decide)).bind fun _ _ => ?_
    exact (bulkcmd_follows (by decide)).bind_nil fun _ _ => follows_pure _

/-! ## The loop over the partitions -/

/-- The loop sets `partition_file` only, which no other partition has for its variable. -/
theorem partitionVariable_ne {name : String} (hname : name ≠ "partition") :
    partitionVariable name ≠ "partition_file" := by
  unfold partitionVariable
  split
  · decide
  · intro h
    have hchars := congrArg String.toList h
    rw [String.toList_append, show "partition_file".toList = "partition".toList ++ "_file".toList from
      rfl, List.append_left_inj] at hchars
    exact hname (String.toList_injective hchars)

/-- No variable that holds the type of a partition is the one that holds its file. -/
theorem typeVariable_ne (name : String) : name ++ "_type" ≠ "partition_file" := by
  intro h
  have hsuffix : "_type".toList <:+ "partition_file".toList := by
    rw [← h, String.toList_append]
    exact List.suffix_append _ _
  revert hsuffix
  decide

/-- Variables that differ in `partition_file` only make the same command. -/
theorem partitionArgs_congr {vars vars' : String → String} {i : ℕ}
    (hvars : ∀ v, v ≠ "partition_file" → vars v = vars' v) (hname : conf.nameAt i ≠ "partition") :
    partitionArgs tmp_dir conf vars i = partitionArgs tmp_dir conf vars' i := by
  have hfile := hvars _ (partitionVariable_ne hname)
  have htype := hvars _ (typeVariable_ne (partitionVariable (conf.nameAt i)))
  simp only [partitionArgs, partitionFile, partitionType, hfile, htype]

/-- **The loop** programs each of the partitions once, in their order. -/
theorem programPartitions_follows {parts : String} {files : Files} {vars₀ : String → String}
    (is : List ℕ) (vars : String → String) (hvars : ∀ v, v ≠ "partition_file" → vars v = vars₀ v)
    (hname : ∀ i ∈ programmed parts conf is, conf.nameAt i ≠ "partition") :
    (programPartitions tmp_dir parts conf files is vars).Follows isStoring
      (partitionPlan tmp_dir parts conf vars₀ is) := by
  induction is generalizing vars with
  | nil => exact follows_pure _
  | cons i is ih =>
    unfold programPartitions
    unfold partitionPlan
    unfold programmed at hname ⊢
    by_cases hp : isProgrammed parts (conf.nameAt i)
    · rw [List.filter_cons_of_pos (by simpa using hp)] at hname ⊢
      rw [if_pos hp]
      by_cases hi : isIdentifier (partitionVariable (conf.nameAt i))
      · rw [List.takeWhile_cons_of_pos (by simpa using hi)] at hname ⊢
        rw [if_pos hi]
        -- Only `partition_file` has changed so far, and no name of a partition is that of this
        -- variable.
        have hcongr : partitionArgs tmp_dir conf vars i = partitionArgs tmp_dir conf vars₀ i :=
          partitionArgs_congr hvars (hname i (by simp))
        refine (follows_lift _).nil_bind fun _ _ => ?_
        rw [List.map_cons, ← hcongr, ← List.singleton_append]
        refine (partition_follows _).bind fun _ _ => ?_
        refine ih _ (fun v hv => ?_) fun j hj => hname j (List.mem_cons_of_mem _ hj)
        rw [Function.update_of_ne hv]
        exact hvars v hv
      · -- The name gives the loop up, and the plan ends here.
        rw [List.takeWhile_cons_of_neg (by simpa using hi), if_neg hi]
        exact follows_pure _
    · rw [List.filter_cons_of_neg (by simpa using hp)] at hname ⊢
      rw [if_neg hp]
      exact ih vars hvars hname

/-- Programming the partitions leaves the file of the efuses alone. -/
theorem programPartitions_returns {parts : String} {files : Files} {is : List ℕ}
    {vars vars' : String → String}
    (h : (programPartitions tmp_dir parts conf files is vars).Returns vars') :
    vars' "efuse_file" = vars "efuse_file" := by
  induction is generalizing vars with
  | nil => rw [returns_pure.mp h]
  | cons i is ih =>
    unfold programPartitions at h
    split at h
    · split at h
      · obtain ⟨-, -, h⟩ := returns_bind.mp h
        obtain ⟨-, -, h⟩ := returns_bind.mp h
        rw [ih h, Function.update_of_ne (by decide)]
      · rw [returns_pure.mp h]
    · exact ih h

/-! ## The script -/

/-- Programming the efuses follows its plan. -/
theorem efuseUpdate_follows (files : Files) (soc efuse_file : String) :
    (efuseUpdate files soc efuse_file).Follows isStoring (efusePlan soc efuse_file) := by
  refine .ite (fun _ => ?_) fun _ => follows_pure _
  refine (follows_lift _).nil_bind fun _ _ => ?_
  refine (follows_of_sends (sends_updateAssert (P := (·.head? = some "write")) rfl) fun _ hc =>
    isStoring_of_head hc (by decide) (by decide)).nil_bind fun _ _ => ?_
  refine bulkcmdAssert_follows ?_
  split <;> decide

/-- The array of the partitions hides one variable only. -/
theorem withArray_vars (o : Options) {v : String} (h : v ≠ "partitions_file") :
    (o.withArray conf).vars v = o.vars v := Function.update_of_ne h _ _

/-- The update of the bootloader leaves the file of the efuses alone. -/
theorem planVars_efuse : planVars host tmp_dir o conf "efuse_file" = o.vars "efuse_file" := by
  unfold planVars
  split
  · rw [Function.update_of_ne (by decide), Function.update_of_ne (by decide)]
  · rfl

/-- The script from "Check if board is secure" on. -/
theorem burn_follows
    (hname : ∀ i ∈ host.config.selected o.parts, host.config.nameAt i ≠ "partition") :
    (burn host o).Follows isStoring (burnPlan host o host.config) := by
  refine (checkSecure_follows _).nil_bind fun secured _ => ?_
  refine Follows.bind bootloaderUpdate_follows fun r hr => ?_
  obtain ⟨files, vars⟩ := r
  obtain rfl := bootloaderUpdate_returns hr
  refine Follows.bind wipeData_follows fun _ _ => ?_
  refine Follows.bind (programPartitions_follows _ _ (fun _ _ => rfl) hname) fun vars hvars => ?_
  rw [programPartitions_returns hvars, planVars_efuse]
  exact (efuseUpdate_follows _ _ _).bind_nil fun _ _ => follows_of_sends resetBoard_sends (by decide)

/-- Destroying the store is the plan of its three commands. -/
theorem destroyStore_follows : destroyStore.Follows isStoring destroyCommands := by
  change Follows isStoring ([bulkcmd _] ++ ([bulkcmd _] ++ [bulkcmd _])) destroyStore
  refine (bulkcmd_follows (by decide)).bind fun _ _ => ?_
  refine (bulkcmd_follows (by decide)).bind fun _ _ => ?_
  exact (bulkcmd_follows (by decide)).bind_nil fun _ _ => follows_pure _

/-- With `--destroy` a reboot erases, and is the end of the script. -/
theorem reboot_follows (hd : o.destroy = true) :
    (reboot o).Follows isStoring destroyCommands := by
  have hsends {text : String} (h : bulkcmd text ∈ rebootCommands) :
      (runUpdate "bulkcmd" [text]).Follows isStoring [] := by
    rw [← updateArgs_bulkcmd] at h
    refine follows_of_sends (sends_update (P := (· ∈ rebootCommands)) h) (by decide)
  unfold reboot
  simp only [hd, if_true]
  refine (hsends (by decide)).nil_bind fun bad _ => ?_
  cases bad
  · refine (hsends (by decide)).nil_bind fun _ _ => ?_
    refine Follows.nil_bind (follows_of_sends (sends_updateAssert (P := (· ∈ rebootCommands))
      (by decide)) (by decide)) fun _ _ => ?_
    refine Follows.bind_nil destroyStore_follows fun _ _ => ?_
    exact (hsends (by decide)).nil_bind fun _ _ => follows_stop _
  · exact follows_stop _

/-- With `--destroy` the step for a device that runs u-boot follows the plan of a destroyed store.
-/
theorem destroyBoot_follows_destroy (hd : o.destroy = true) :
    (destroyBoot o).Follows isStoring destroyCommands := by
  unfold destroyBoot when
  rw [if_pos hd]
  split
  · exact (reboot_follows hd).bind_nil fun _ _ => follows_stop _
  · exact (follows_pure _).nil_bind fun _ _ => follows_stop _

/-- With `--destroy` nothing of the script is run behind that step. -/
theorem destroyBoot_returns (hd : o.destroy = true) (a : Unit) : ¬(destroyBoot o).Returns a := by
  unfold destroyBoot
  rw [if_pos hd, returns_bind]
  rintro ⟨_, -, h⟩
  exact returns_stop h

/-- The script, once its parameters are checked, follows the plan. -/
theorem flash_follows (rounds : ℕ)
    (hname : ∀ i ∈ host.config.selected o.parts, host.config.nameAt i ≠ "partition") :
    (flash host rounds o).Follows isStoring (plan host o) := by
  refine (findDevice_follows rounds).nil_bind fun _ _ => unlock_follows.nil_bind fun _ _ => ?_
  unfold plan
  by_cases hd : o.destroy = true
  · rw [if_pos hd]
    exact (destroyBoot_follows_destroy hd).bind_nil fun a ha => absurd ha (destroyBoot_returns hd a)
  · rw [if_neg hd]
    refine (destroyBoot_follows (Bool.eq_false_of_not_eq_true hd)).nil_bind fun _ _ => ?_
    exact unlock_follows.nil_bind fun _ _ => burn_follows hname

/-- **What a run stores.** In every run, with any device, the commands that store are first commands
of the plan, in its order, and all of them when the script reaches its end. No partition is called
`partition`, for whose file the script would take that of the partition before it. -/
theorem amlFlash_stores {args : List String} (rounds : ℕ)
    (hargs : (parseOptions host args Options.init >>= checkParameters) = .ok o)
    (hname : ∀ i ∈ host.config.selected o.parts, host.config.nameAt i ≠ "partition") :
    (amlFlash host rounds args).Follows isStoring (plan host o) := by
  -- The options are what the arguments give.
  obtain ⟨o', ho', hcheck⟩ := Except.bind_ok_iff.mp hargs
  refine (follows_lift _).nil_bind fun o₁ h₁ => ?_
  obtain rfl : o₁ = o' := Except.ok.inj ((returns_lift.mp h₁).symm.trans ho')
  refine (follows_lift _).nil_bind fun o₂ h₂ => ?_
  obtain rfl : o₂ = o := Except.ok.inj ((returns_lift.mp h₂).symm.trans hcheck)
  exact flash_follows rounds hname

/-- The files of a list of names and lines. -/
def filesOf (texts : List (String × List String)) : Files := fun name =>
  (texts.lookup name).map (List.flatMap fun line => bytesOf line ++ [10])

/-- The tools for the newer chips. -/
def toolFiles : List (String × List String) :=
  [("/t/bin/aml-linux-usb-burn/tools/usbbl2runpara_ddrinit.bin", ["i"]),
    ("/t/bin/aml-linux-usb-burn/tools/usbbl2runpara_runfipimg.bin", ["f"])]

/-- The lines of a file for a platform: four addresses, and that of the parameters. -/
def platformLines : List String :=
  ["DDRLoad:0xd9000000", "DDRRun:0xd9000030", "UbootLoad:0x200c000", "UbootRun:0xd9000000",
    "bl2ParaAddr=0xd900c000"]

/-- A small image, unpacked, with the tools. No expression of the script is one for `arith`. -/
def smallHost : Host where
  files := filesOf (toolFiles ++ [("/t/output/image/image.cfg",
      ["file=\"ddr.bin\" main_type=\"USB\" sub_type=\"DDR\"",
        "file=\"uboot.bin\" main_type=\"USB\" sub_type=\"UBOOT\"",
        "file=\"dtb.bin\" main_type=\"dtb\" sub_type=\"meson1\"",
        "file=\"platform.conf\" main_type=\"conf\" sub_type=\"platform\"",
        "file=\"bl.bin\" main_type=\"PARTITION\" sub_type=\"bootloader\" file_type=\"normal\"",
        "file=\"sys.bin\" main_type=\"PARTITION\" sub_type=\"system\" file_type=\"sparse\""]),
    ("/t/output/image/platform.conf", platformLines), ("/t/output/image/ddr.bin", ["d"]),
    ("/t/output/image/uboot.bin", ["u"]), ("/t/output/image/dtb.bin", ["t"]),
    ("/t/output/image/bl.bin", ["b"]), ("/t/output/image/sys.bin", ["s"])])
  tool_path := "/t/bin/aml-linux-usb-burn"
  cwd := "/t"
  home := "/"
  arith _ := none
  typed := []

/-- The configuration that its files describe, with two partitions. -/
def smallConfig : Config where
  ddr_filename := "ddr.bin"
  uboot_filename := "uboot.bin"
  uboot_comp_filename := ""
  dtb_meson_filename := ""
  dtb_meson1_filename := "dtb.bin"
  dtb_meson1_enc_filename := ""
  ddr_enc_filename := ""
  uboot_enc_filename := ""
  bin_params := ""
  ddr_load := "0xd9000000"
  ddr_run := "0xd9000030"
  uboot_decomp := ""
  uboot_enc_down := ""
  uboot_enc_run := ""
  uboot_load := "0x200c000"
  uboot_run := "0xd9000000"
  bl2_params := "0xd900c000"
  nb_partitions := 2
  partitions_file := ["bl.bin", "sys.bin"]
  partitions_name := ["bootloader", "system"]
  partitions_type := ["normal", "sparse"]

/-- The lines that the small host prints are those of the small configuration. -/
theorem smallHost_config : smallHost.config = smallConfig := by decide +kernel

/-- The options `--wipe`, `--reset=n` and `--parts=all`. -/
def wipeAll : Options :=
  { Options.init with parts := "all", wipe := true, reset := "n", soc := "gxl" }

/-- The small package, wiped and written without a reset, stores these commands on every device. -/
theorem smallHost_stores :
    (amlFlash smallHost 1 ["--wipe", "--reset=n", "--parts=all"]).Follows isStoring
      [bulkcmd "disk_initial 1", ["partition", "bootloader", "/t/output/image/bl.bin"],
        bulkcmd "rpmb_reset", bulkcmd "amlmmc erase data", bulkcmd "nand erase.part data",
        bulkcmd "amlmmc erase cache", bulkcmd "nand erase.part cache",
        ["partition", "system", "/t/output/image/sys.bin", "sparse"]] := by
  have hname : ∀ i ∈ smallHost.config.selected "all", smallHost.config.nameAt i ≠ "partition" := by
    rw [smallHost_config]
    decide
  have hfollows : (amlFlash smallHost 1 ["--wipe", "--reset=n", "--parts=all"]).Follows isStoring
      (plan smallHost wipeAll) := amlFlash_stores 1 rfl hname
  unfold plan at hfollows
  rw [smallHost_config] at hfollows
  convert hfollows using 1
  decide +kernel

end AmlogicToolkit.Flash
