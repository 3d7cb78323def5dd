import AmlogicToolkit.Flash.Script

/-!
# The commands of the script's parts

What each part of `aml-flash` sends to the device, stated once for the properties of whole runs, and
the first of these: a command that `run_update_assert` sends and the device answers with an error is
the last one of the run, which exits with 1 (`amlFlash_heeds`).
-/

namespace AmlogicToolkit.Flash

open Boot Dialogue

/-! ## The wrappers -/

section

variable {P : List String → Prop} {cmd : String} {args : List String}

/-- `run_update_return` sends its one command. -/
theorem sends_updateReturn (h : P (cmd :: updateArgs cmd args)) :
    Sends P (runUpdateReturn cmd args) := .bind (sends_send h) fun _ _ => sends_pure _

/-- `run_update` sends its one command. -/
theorem sends_update (h : P (cmd :: updateArgs cmd args)) : Sends P (runUpdate cmd args) :=
  .bind (sends_updateReturn h) fun _ _ => sends_pure _

/-- `run_update_assert` sends its one command, whatever comes back. -/
theorem sends_updateAssert (h : P (cmd :: updateArgs cmd args)) :
    Sends P (runUpdateAssert cmd args) :=
  .bind (sends_update h) fun _ _ => .ite (fun _ => sends_stop _) fun _ => sends_pure _

end

/-! ## What the parts send -/

/-- `identify 7`, the question which device it is. -/
def identifyCommand : List String := ["identify", "7"]

/-- The command `bulkcmd` with that text. -/
def bulkcmd (text : String) : List String := ["bulkcmd", "     " ++ text]

/-- The words of a `bulkcmd` are the verb and the text behind five blanks. -/
theorem updateArgs_bulkcmd (text : String) :
    "bulkcmd" :: updateArgs "bulkcmd" [text] = bulkcmd text := by
  simp [updateArgs, bulkcmd]

/-- The command asks the device which one it is, or gives it the password. -/
def IsUnlocking (c : List String) : Prop := c = identifyCommand ∨ c.head? = some "password"

/-- The command loads a file into the memory of the device, or runs it. -/
def IsLoading (c : List String) : Prop := c.head? ∈ [some "cwr", some "write", some "run"]

/-- The texts of the commands `bulkcmd` that make the partitions or program the efuses. -/
def storingTexts : List String :=
  ["disk_initial 0", "disk_initial 1", "disk_initial 2", "disk_initial 3",
    "efuse secure_boot_set 0x03000000", "efuse amlogic_set 0x03000000"]

/-- The command makes the partitions, writes one, or hands over a device tree. -/
def IsWriting (c : List String) : Prop :=
  c.head? ∈ [some "mwrite", some "partition"] ∨ c ∈ storingTexts.map bulkcmd

/-- The three commands that erase the store, which only `--destroy` sends. -/
def destroyCommands : List (List String) :=
  [bulkcmd "store erase boot", bulkcmd "amlmmc erase 1", bulkcmd "nand erase 0 4096"]

/-- The commands that a reboot sends besides those that erase. -/
def rebootCommands : List (List String) :=
  [bulkcmd "echo 12345", bulkcmd "bootloader_is_old", bulkcmd "erase_bootloader", bulkcmd "reset"]

/-- The commands that change the environment of u-boot, and the last one. -/
def saveCommands : List (List String) :=
  [bulkcmd "setenv upgrade_step 1", bulkcmd "setenv firstboot 1", bulkcmd "save",
    bulkcmd "save_setting", bulkcmd "burn_complete 1"]

/-- The commands of `--wipe` behind those. -/
def wipeCommands : List (List String) :=
  [bulkcmd "rpmb_reset", bulkcmd "amlmmc erase data", bulkcmd "nand erase.part data",
    bulkcmd "amlmmc erase cache", bulkcmd "nand erase.part cache"]

variable {host : Host} {o : Options} {conf : Config} {b : BootFiles}
  {tmp_dir : String} {secured : Bool}

/-- Asking the device which one it is sends that command only. -/
theorem identify_sends : Sends (· = identifyCommand) identify := sends_updateReturn (by decide)

/-- Waiting for a device only asks which one it is. -/
theorem waitDevice_sends (rounds : ℕ) : Sends (· = identifyCommand) (waitDevice rounds) := by
  induction rounds with
  | zero => exact sends_stop _
  | succ rounds ih => exact .bind identify_sends fun _ _ => .ite (fun _ => sends_pure _) fun _ => ih

/-- Looking for a device only asks which one it is. -/
theorem findDevice_sends (rounds : ℕ) : Sends (· = identifyCommand) (findDevice rounds o) := by
  refine .bind identify_sends fun _ _ => .ite (fun _ => sends_pure _) fun _ => ?_
  exact .ite (fun _ => waitDevice_sends rounds) fun _ => sends_stop _

/-- Unlocking asks the device which one it is and gives it the password. -/
theorem unlock_sends : Sends IsUnlocking (unlock o) := by
  have hidentify : Sends IsUnlocking identify := identify_sends.imp fun _ h => .inl h
  refine .bind hidentify fun _ _ => .ite (fun _ => ?_) fun _ => sends_pure _
  refine .ite (fun _ => sends_stop _) fun _ => ?_
  refine .bind (sends_updateAssert (.inr rfl)) fun _ _ => ?_
  exact .bind hidentify fun _ _ => .ite (fun _ => sends_pure _) fun _ => sends_stop _

/-- Destroying the store sends the three commands that erase. -/
theorem destroyStore_sends : Sends (· ∈ destroyCommands) destroyStore := by
  refine .bind (sends_update (by decide)) fun _ _ => ?_
  refine .bind (sends_update (by decide)) fun _ _ => ?_
  exact .bind (sends_update (by decide)) fun _ _ => sends_pure _

/-- A reboot sends its own commands, and those that erase only with `--destroy`. -/
theorem reboot_sends :
    Sends (fun c => c ∈ rebootCommands ∨ (o.destroy ∧ c ∈ destroyCommands)) (reboot o) := by
  refine .bind (sends_update (.inl (by decide))) fun _ _ => .ite (fun _ => ?_) fun _ => ?_
  · exact .ite (fun _ => sends_stop _) fun _ => sends_pure _
  · refine .bind (sends_update (.inl (by decide))) fun _ _ => ?_
    refine .bind (sends_updateAssert (.inl (by decide))) fun _ _ => ?_
    refine .bind (.when fun h => destroyStore_sends.imp fun _ hc => .inr ⟨h, hc⟩) fun _ _ => ?_
    refine .bind (sends_update (.inl (by decide))) fun _ _ => ?_
    exact .ite (fun _ => sends_stop _) fun _ => sends_pure _

/-- The step for a device that runs u-boot sends the commands of a reboot. -/
theorem destroyBoot_sends :
    Sends (fun c => c ∈ rebootCommands ∨ (o.destroy ∧ c ∈ destroyCommands)) (destroyBoot o) :=
  .bind (.when fun _ => reboot_sends) fun _ _ => .ite (fun _ => sends_stop _) fun _ => sends_pure _

/-- The words that read the secure register are the verb, the length and the address. -/
theorem updateArgs_rreg (soc : String) :
    "rreg" :: updateArgs "rreg" ["4", (secureRegister soc).1] =
      ["rreg", "4", (secureRegister soc).1] := by
  obtain h | h | h : (secureRegister soc).1 = "0xc8100228" ∨ (secureRegister soc).1 = "0xff800228" ∨
      (secureRegister soc).1 = "0xd9018048" := by
    unfold secureRegister
    split_ifs <;> simp
  all_goals
    rw [h]
    decide

/-- The check for a secure board reads one register. -/
theorem checkSecure_sends (soc : String) :
    Sends (· = ["rreg", "4", (secureRegister soc).1]) (checkSecure host soc) :=
  .bind (sends_updateReturn (updateArgs_rreg soc)) fun _ _ => sends_pure _

/-- Initialising the memory loads and runs files, and asks the device which one it is. -/
theorem initDdr_sends : Sends (fun c => IsLoading c ∨ c = identifyCommand) (initDdr o conf b) := by
  have hload {cmd : String} {args : List String} (h : cmd ∈ ["cwr", "write", "run"]) :
      Sends (fun c => IsLoading c ∨ c = identifyCommand) (runUpdateAssert cmd args) := by
    refine sends_updateAssert (.inl ?_)
    simp only [List.mem_cons, List.not_mem_nil, or_false] at h
    obtain rfl | rfl | rfl := h <;> simp [IsLoading]
  refine .ite (fun _ => ?_) fun _ => ?_
  · refine .bind (hload (by simp)) fun _ _ => .bind (hload (by simp)) fun _ _ => ?_
    refine .bind (hload (by simp)) fun _ _ => ?_
    refine .bind (identify_sends.imp fun _ => .inr) fun _ _ => .ite (fun _ => ?_) fun _ => sends_stop _
    exact .bind (.when fun _ => hload (by simp)) fun _ _ => sends_pure _
  · refine .bind (hload (by simp)) fun _ _ => .bind (hload (by simp)) fun _ _ => sends_pure _

/-- Starting u-boot loads and runs files, and reads registers. -/
theorem runUboot_sends (usb_protocol : String) :
    Sends (fun c => IsLoading c ∨ c.head? = some "rreg")
      (runUboot host o conf secured b usb_protocol) := by
  have hload {cmd : String} {args : List String} (h : cmd ∈ ["cwr", "write", "run"]) :
      Sends (fun c => IsLoading c ∨ c.head? = some "rreg") (runUpdateAssert cmd args) := by
    refine sends_updateAssert (.inl ?_)
    simp only [List.mem_cons, List.not_mem_nil, or_false] at h
    obtain rfl | rfl | rfl := h <;> simp [IsLoading]
  refine .ite (fun _ => ?_) fun _ => ?_
  · refine .bind (hload (by simp)) fun _ _ => .bind (hload (by simp)) fun _ _ => ?_
    exact .bind (hload (by simp)) fun _ _ => hload (by simp)
  · refine .bind (hload (by simp)) fun _ _ => .ite (fun _ => ?_) fun _ => ?_
    · exact .bind (hload (by simp)) fun _ _ => hload (by simp)
    · refine .bind (hload (by simp)) fun _ _ => .bind (hload (by simp)) fun _ _ => ?_
      exact .bind (sends_updateReturn (.inr rfl)) fun _ _ => hload (by simp)

/-- The device tree is handed over by `mwrite`. -/
theorem writeDtb_sends : Sends (·.head? = some "mwrite") (writeDtb b) := sends_updateAssert rfl

/-- A command `partition` is one that writes. -/
theorem partition_sends (args : List String) :
    Sends IsWriting (runUpdateAssert "partition" args) := sends_updateAssert (.inl (by simp))

/-- Writing the bootloader sends only commands that write. -/
theorem writeBoot_sends : Sends IsWriting (writeBoot tmp_dir o conf secured b) := by
  have hdtb : Sends IsWriting (writeDtb b) := writeDtb_sends.imp fun _ h => .inl (by simp [h])
  have htext {text : String} (h : text ∈ storingTexts) :
      Sends IsWriting (runUpdateAssert "bulkcmd" [text]) := by
    refine sends_updateAssert (.inr ?_)
    rw [updateArgs_bulkcmd]
    exact List.mem_map_of_mem h
  refine .ite (fun _ => ?_) fun _ => .when fun _ => ?_
  · refine .bind (sends_lift _) fun _ _ => .bind (sends_updateAssert (.inl (by simp))) fun _ _ => ?_
    refine .when fun _ => .bind (htext (by split <;> decide)) fun _ _ => .bind ?_ fun _ _ => ?_
    · exact .ite (fun _ => hdtb) fun _ => partition_sends _
    · exact partition_sends _
  · refine .bind (.when fun _ => .bind (sends_update (.inr (by decide))) fun _ _ => sends_pure _) ?_
    intro _ _
    refine .bind (htext (by split <;> decide)) fun _ _ => .bind (partition_sends _) fun _ _ => hdtb

/-- Saving a step of the upgrade sends only commands of the environment. -/
theorem saveStep_sends : Sends (· ∈ saveCommands) saveStep := by
  refine .bind (sends_update (by decide)) fun _ _ => ?_
  exact .bind (sends_update (by decide)) fun _ _ => sends_pure _

/-- Saving the upgrade sends only commands of the environment. -/
theorem saveUpgrade_sends : Sends (· ∈ saveCommands) (saveUpgrade o) := by
  refine .bind (.when fun _ => saveStep_sends) fun _ _ => .ite (fun _ => ?_) fun _ => sends_pure _
  exact .bind (sends_update (by decide)) fun _ _ => sends_pure _

/-- Wiping the environment sends commands of the environment and of `--wipe`. -/
theorem wipeEnvironment_sends : Sends (· ∈ saveCommands ++ wipeCommands) wipeEnvironment := by
  refine .bind (sends_update (by decide)) fun _ _ => ?_
  refine .bind (sends_update (by decide)) fun _ _ => ?_
  exact .bind (sends_update (by decide)) fun _ _ => sends_pure _

/-- Wiping the partitions sends only commands of `--wipe`. -/
theorem wipePartitions_sends : Sends (· ∈ wipeCommands) wipePartitions := by
  refine .bind (sends_update (by decide)) fun _ _ => ?_
  refine .bind (sends_update (by decide)) fun _ _ => ?_
  refine .bind (sends_update (by decide)) fun _ _ => ?_
  exact .bind (sends_update (by decide)) fun _ _ => sends_pure _

/-- Programming the partitions sends only commands `partition`. -/
theorem programPartitions_sends {parts : String} {files : Files} (is : List ℕ)
    (vars : String → String) :
    Sends (·.head? = some "partition") (programPartitions tmp_dir parts conf files is vars) := by
  induction is generalizing vars with
  | nil => exact sends_pure _
  | cons i is ih =>
    refine .ite (fun _ => .ite (fun _ => ?_) fun _ => sends_pure _) fun _ => ih _
    exact .bind (sends_lift _) fun _ _ => .bind (sends_updateAssert rfl) fun _ _ => ih _

/-- The reset at the end sends only commands of the environment. -/
theorem resetBoard_sends : Sends (· ∈ saveCommands) (resetBoard host o) := by
  refine .ite (fun _ => ?_) fun _ => sends_pure _
  refine .bind (sends_lift _) fun _ _ => .ite (fun _ => ?_) fun _ => sends_pure _
  exact .bind (sends_update (by decide)) fun _ _ => sends_pure _

/-! ## An error ends the run -/

/-- The texts of the commands `bulkcmd` whose answer is checked. -/
def assertedTexts : List String :=
  ["erase_bootloader", "disk_initial 0", "disk_initial 1", "disk_initial 2",
    "efuse secure_boot_set 0x03000000", "efuse amlogic_set 0x03000000"]

/-- The command is one that `run_update_assert` sends. -/
def isAsserted (c : List String) : Bool :=
  c.headD "" ∈ ["password", "cwr", "write", "run", "mwrite", "partition"] ||
    c ∈ assertedTexts.map bulkcmd

/-- The device has answered such a command with an error. -/
def Failed (e : List String × String) : Prop := isAsserted e.1 ∧ grep "ERR" (echo e.2)

/-- A run of `run_update_assert` is one exchange, and stops with status 1 where the answer has
`ERR`. -/
theorem updateAssert_runs {cmd : String} {args : List String} {log : List (List String × String)}
    {out : Except Stop Unit} (h : Runs (runUpdateAssert cmd args) log out) :
    ∃ a, log = [(cmd :: updateArgs cmd args, a)] ∧
      out = if grep "ERR" (echo a) then .error (.exit 1) else .ok () := by
  obtain ⟨e, he, -⟩ | ⟨bad, before, after, hb, ha, rfl⟩ := runs_bind.mp h
  · simp [runUpdate, runUpdateReturn, runs_bind] at he
  · obtain ⟨a, rfl, rfl⟩ : ∃ a, before = [(cmd :: updateArgs cmd args, a)] ∧
        bad = grep "ERR" (echo a) := by
      simpa [runUpdate, runUpdateReturn, runs_bind] using hb
    refine ⟨a, ?_⟩
    split at ha
    · next herr =>
      obtain ⟨rfl, rfl⟩ := runs_stop.mp ha
      exact ⟨rfl, (if_pos herr).symm⟩
    · next herr =>
      obtain ⟨rfl, rfl⟩ := runs_pure.mp ha
      exact ⟨rfl, (if_neg herr).symm⟩

/-- `run_update_assert` stops with status 1 at a failed answer. -/
theorem updateAssert_heeds (cmd : String) (args : List String) :
    (runUpdateAssert cmd args).Heeds Failed (.exit 1) := by
  intro log out h before e after hlog hbad
  obtain ⟨a, rfl, rfl⟩ := updateAssert_runs h
  cases before with
  | nil =>
    obtain ⟨rfl, rfl⟩ := List.cons.inj hlog
    exact ⟨rfl, if_pos hbad.2⟩
  | cons e' before => simp at hlog

/-- Parts that send nothing that is checked. -/
theorem heeds_of_sends {α : Type} {P : List String → Prop} {p : Script α} (h : Sends P p)
    (hP : ∀ c, P c → isAsserted c = false) : p.Heeds Failed (.exit 1) :=
  h.heeds fun c _ hc hf => Bool.false_ne_true ((hP c hc).symm.trans hf.1)

/-- `run_update` heeds a failed answer when its command is not one of the asserted. -/
theorem update_heeds {cmd : String} {args : List String}
    (h : isAsserted (cmd :: updateArgs cmd args) = false) :
    (runUpdate cmd args).Heeds Failed (.exit 1) :=
  heeds_of_sends (sends_update h) fun _ hc => hc

/-- Asking the device which one it is asserts nothing. -/
theorem identify_heeds : identify.Heeds Failed (.exit 1) :=
  heeds_of_sends identify_sends fun c hc => by
    rw [hc]
    decide

/-- A script that has stopped heeds all answers. -/
theorem stop_heeds {α : Type} (e : Stop) :
    (stop e : Script α).Heeds Failed (.exit 1) :=
  heeds_of_sends (P := fun _ => False) (sends_stop _) fun _ h => h.elim

/-- A script that is over heeds all answers. -/
theorem pure_heeds {α : Type} (a : α) : (pure a : Script α).Heeds Failed (.exit 1) :=
  heeds_of_sends (P := fun _ => False) (sends_pure _) fun _ h => h.elim

/-- A step without commands heeds all answers. -/
theorem lift_heeds {α : Type} (r : Except Stop α) : (lift r : Script α).Heeds Failed (.exit 1) :=
  heeds_of_sends (P := fun _ => False) (sends_lift _) fun _ h => h.elim

/-- Looking for a device heeds failed answers. -/
theorem findDevice_heeds (rounds : ℕ) : (findDevice rounds o).Heeds Failed (.exit 1) :=
  heeds_of_sends (findDevice_sends rounds) fun c hc => by
    rw [hc]
    decide

/-- Unlocking heeds failed answers. -/
theorem unlock_heeds : (unlock o).Heeds Failed (.exit 1) := by
  refine .bind identify_heeds fun _ _ => .ite (fun _ => ?_) fun _ => pure_heeds _
  refine .ite (fun _ => stop_heeds _) fun _ => ?_
  refine .bind (updateAssert_heeds _ _) fun _ _ => .bind identify_heeds fun _ _ => ?_
  exact .ite (fun _ => pure_heeds _) fun _ => stop_heeds _

/-- The step for a device that runs u-boot heeds failed answers. -/
theorem destroyBoot_heeds : (destroyBoot o).Heeds Failed (.exit 1) := by
  have hreboot : (reboot o).Heeds Failed (.exit 1) := by
    refine .bind (update_heeds (by decide)) fun _ _ => .ite (fun _ => ?_) fun _ => ?_
    · exact .ite (fun _ => stop_heeds _) fun _ => pure_heeds _
    · refine .bind (update_heeds (by decide)) fun _ _ => ?_
      refine .bind (updateAssert_heeds _ _) fun _ _ => ?_
      refine .bind (.when fun _ => heeds_of_sends destroyStore_sends (by decide)) fun _ _ => ?_
      refine .bind (update_heeds (by decide)) fun _ _ => ?_
      exact .ite (fun _ => stop_heeds _) fun _ => pure_heeds _
  exact .bind (.when fun _ => hreboot) fun _ _ => .ite (fun _ => stop_heeds _) fun _ => pure_heeds _

/-- The check for a secure board heeds failed answers. -/
theorem checkSecure_heeds (soc : String) : (checkSecure host soc).Heeds Failed (.exit 1) :=
  heeds_of_sends (checkSecure_sends soc) fun c hc => by
    rw [hc]
    simp [isAsserted, assertedTexts, bulkcmd]

/-- Initialising the memory stops at the first failed answer. -/
theorem initDdr_heeds : (initDdr o conf b).Heeds Failed (.exit 1) := by
  refine .ite (fun _ => ?_) fun _ => ?_
  · refine .bind (updateAssert_heeds _ _) fun _ _ => .bind (updateAssert_heeds _ _) fun _ _ => ?_
    refine .bind (updateAssert_heeds _ _) fun _ _ => .bind identify_heeds fun _ _ => ?_
    refine .ite (fun _ => ?_) fun _ => stop_heeds _
    exact .bind (.when fun _ => updateAssert_heeds _ _) fun _ _ => pure_heeds _
  · refine .bind (updateAssert_heeds _ _) fun _ _ => .bind (updateAssert_heeds _ _) fun _ _ => ?_
    exact pure_heeds _

/-- Starting u-boot stops at the first failed answer. -/
theorem runUboot_heeds (usb_protocol : String) :
    (runUboot host o conf secured b usb_protocol).Heeds Failed (.exit 1) := by
  have hrreg (args : List String) : (runUpdateReturn "rreg" args).Heeds Failed (.exit 1) :=
    heeds_of_sends (P := fun c => c.head? = some "rreg") (sends_updateReturn rfl) fun c hc => by
      obtain ⟨c', rfl⟩ := List.head?_eq_some_iff.mp hc
      simp [isAsserted, assertedTexts, bulkcmd]
  refine .ite (fun _ => ?_) fun _ => ?_
  · refine .bind (updateAssert_heeds _ _) fun _ _ => .bind (updateAssert_heeds _ _) fun _ _ => ?_
    exact .bind (updateAssert_heeds _ _) fun _ _ => updateAssert_heeds _ _
  · refine .bind (updateAssert_heeds _ _) fun _ _ => .ite (fun _ => ?_) fun _ => ?_
    · exact .bind (updateAssert_heeds _ _) fun _ _ => updateAssert_heeds _ _
    · refine .bind (updateAssert_heeds _ _) fun _ _ => .bind (updateAssert_heeds _ _) fun _ _ => ?_
      exact .bind (hrreg _) fun _ _ => updateAssert_heeds _ _

/-- Writing the bootloader stops at the first failed answer. -/
theorem writeBoot_heeds : (writeBoot tmp_dir o conf secured b).Heeds Failed (.exit 1) := by
  refine .ite (fun _ => ?_) fun _ => .when fun _ => ?_
  · refine .bind (lift_heeds _) fun _ _ => .bind (updateAssert_heeds _ _) fun _ _ => .when fun _ => ?_
    refine .bind (updateAssert_heeds _ _) fun _ _ => .bind ?_ fun _ _ => updateAssert_heeds _ _
    exact .ite (fun _ => updateAssert_heeds _ _) fun _ => updateAssert_heeds _ _
  · refine .bind (.when fun _ => .bind (update_heeds (by decide)) fun _ _ => pure_heeds _) ?_
    intro _ _
    refine .bind (updateAssert_heeds _ _) fun _ _ => .bind (updateAssert_heeds _ _) fun _ _ => ?_
    exact updateAssert_heeds _ _

/-- The update of the bootloader stops at the first failed answer. -/
theorem bootloaderUpdate_heeds :
    (bootloaderUpdate host tmp_dir o conf secured).Heeds Failed (.exit 1) := by
  refine .ite (fun _ => ?_) fun _ => pure_heeds _
  refine .bind (lift_heeds _) fun b _ => .bind ?_ fun _ _ => pure_heeds _
  refine .bind initDdr_heeds fun usb_protocol _ => .bind (runUboot_heeds usb_protocol) fun _ _ => ?_
  exact .bind writeBoot_heeds fun _ _ => heeds_of_sends saveUpgrade_sends (by decide)

/-- Programming the partitions stops at the first failed answer, whatever is left to program. -/
theorem programPartitions_heeds (parts : String) (files : Files) (is : List ℕ)
    (vars : String → String) :
    (programPartitions tmp_dir parts conf files is vars).Heeds Failed (.exit 1) := by
  induction is generalizing vars with
  | nil => exact pure_heeds _
  | cons i is ih =>
    refine .ite (fun _ => .ite (fun _ => ?_) fun _ => pure_heeds _) fun _ => ih _
    exact .bind (lift_heeds _) fun _ _ => .bind (updateAssert_heeds _ _) fun _ _ => ih _

/-- Programming the efuses stops at the first failed answer. -/
theorem efuseUpdate_heeds (files : Files) (soc efuse_file : String) :
    (efuseUpdate files soc efuse_file).Heeds Failed (.exit 1) := by
  refine .ite (fun _ => ?_) fun _ => pure_heeds _
  refine .bind (lift_heeds _) fun _ _ => .bind (updateAssert_heeds _ _) fun _ _ => ?_
  exact updateAssert_heeds _ _

/-- The script from the check for a secure board on heeds failed answers. -/
theorem burn_heeds : (burn host o).Heeds Failed (.exit 1) := by
  refine .bind (checkSecure_heeds o.soc) fun _ _ => .bind bootloaderUpdate_heeds fun _ _ => ?_
  refine .bind (.bind (.when fun _ => ?_) fun _ _ => .when fun _ => ?_) fun _ _ => ?_
  · exact heeds_of_sends wipeEnvironment_sends (by decide)
  · exact heeds_of_sends wipePartitions_sends (by decide)
  · refine .bind (programPartitions_heeds _ _ _ _) fun _ _ => ?_
    refine .bind (efuseUpdate_heeds _ _ _) fun _ _ => ?_
    exact heeds_of_sends resetBoard_sends (by decide)

/-- **Fail stop.** In a run with any device, a command of `run_update_assert` that is answered with
an error is the last one, and the script exits with 1. -/
theorem amlFlash_heeds (host : Host) (rounds : ℕ) (args : List String) :
    (amlFlash host rounds args).Heeds Failed (.exit 1) := by
  refine .bind (lift_heeds _) fun _ _ => .bind (lift_heeds _) fun _ _ => ?_
  refine .bind (findDevice_heeds rounds) fun _ _ => .bind unlock_heeds fun _ _ => ?_
  exact .bind destroyBoot_heeds fun _ _ => .bind unlock_heeds fun _ _ => burn_heeds

end AmlogicToolkit.Flash
