import AmlogicToolkit.Flash.Plan
import Mathlib.Data.Nat.Bitwise

/-!
# What the device has to answer first

Two monitors of the talk with the device. The first one (`amlFlash_gate`) looks for the answers
after which the script goes on: nothing but `identify 7` is sent before the device has named its
firmware, and nothing but the password to a board that has last said that it is locked, until a
file that was loaded has taken over. The second one (`amlFlash_signed`) looks at the register of the
secure boot: a board that has it set is sent no bootloader but a signed one.
-/

namespace AmlogicToolkit.Flash

open Boot Dialogue

variable {host : Host} {o : Options} {conf : Config} {b : BootFiles}
  {tmp_dir : String} {secured : Bool}

/-! ## The device is there and unlocked -/

/-- What the answers have shown so far. -/
structure Seen where
  /-- The device has named its firmware. -/
  found : Bool
  /-- What it has last answered to `identify 7`, since the script has told it to reset. -/
  answer : Option String
  /-- It has been told to run what was loaded. -/
  ran : Bool

/-- At the start nothing has been seen of the device. -/
def Seen.init : Seen := ⟨false, none, false⟩

/-- One more command and its answer. -/
def Seen.step (s : Seen) (e : List String × String) : Seen :=
  if e.1 = identifyCommand then
    { s with found := s.found || grepIgnoringCase "firmware" (echo e.2), answer := some (echo e.2) }
  else if e.1 = bulkcmd "reset" then { s with answer := none }
  else if e.1.head? = some "run" then { s with ran := true }
  else s

/-- An answer of a board that is not locked, or not any more. -/
def IsUnlocked (answer : String) : Prop :=
  grepIgnoringCase "Password check NG" answer = false ∨ grepIgnoringCase "Password check OK" answer

/-- The last answer was that of an unlocked board, or the board runs what was loaded. -/
def Seen.Open (s : Seen) : Prop := s.ran = true ∨ ∃ answer, s.answer = some answer ∧ IsUnlocked answer

/-- The commands that may be sent. -/
def Seen.Allows (s : Seen) (c : List String) : Prop :=
  c = identifyCommand ∨ (s.found = true ∧ (c.head? = some "password" ∨ s.Open))

/-- The parts of the script, from states of `I` to states of `Q`. -/
abbrev Gated {α : Type} (I : Seen → Prop) (p : Script α) (Q : α → Seen → Prop) : Prop :=
  Guarded Seen.step Seen.Allows I p Q

/-- A device was found: an answer has named its firmware. -/
def IsFound (s : Seen) : Prop := s.found = true

/-- A device was found and is unlocked. -/
def IsReady (s : Seen) : Prop := s.found = true ∧ s.Open

/-- And runs what was loaded, after which everything may be sent. -/
def HasRun (s : Seen) : Prop := s.found = true ∧ s.ran = true

/-- A board that runs what was loaded is ready. -/
theorem HasRun.isReady {s : Seen} (h : HasRun s) : IsReady s := ⟨h.1, .inl h.2⟩

/-- The words that the script makes of its question are the command `identify 7`. -/
theorem identifyCommand_eq : "identify" :: updateArgs "identify" ["7"] = identifyCommand := by decide

/-- Asking the device which one it is is always allowed, and its answer is what is seen last. -/
theorem identify_gated (I : Seen → Prop) :
    Gated I identify fun answer s => ∃ s', I s' ∧ s =
      ⟨s'.found || grepIgnoringCase "firmware" answer, some answer, s'.ran⟩ := by
  unfold identify runUpdateReturn
  rw [identifyCommand_eq]
  refine Guarded.bind (guarded_send fun s _ => .inl rfl) fun a _ => guarded_pure ?_
  rintro s ⟨s', hs', rfl⟩
  exact ⟨s', hs', if_pos rfl⟩

/-- Commands that keep an unlocked board unlocked. -/
theorem ready_of_sends {α : Type} {P : List String → Prop} {p : Script α} (h : Sends P p)
    (hP : ∀ c, P c → c ≠ identifyCommand ∧ c ≠ bulkcmd "reset") : Gated IsReady p fun _ => IsReady := by
  refine h.guarded fun s c a hs hc => ⟨.inr ⟨hs.1, .inr hs.2⟩, ?_⟩
  obtain ⟨hi, hr⟩ := hP c hc
  unfold Seen.step
  rw [if_neg hi, if_neg hr]
  split
  · exact ⟨hs.1, .inl rfl⟩
  · exact hs

/-- Once a file runs, every command may be sent. -/
theorem hasRun_gated {α : Type} (p : Script α) : Gated HasRun p fun _ => HasRun := by
  have hsends : Sends (fun _ => True) p := fun _ _ _ _ _ => trivial
  refine hsends.guarded fun s c a hs _ => ⟨.inr ⟨hs.1, .inr (.inl hs.2)⟩, ?_⟩
  unfold Seen.step
  split
  · exact ⟨by simp [hs.1], hs.2⟩
  · split
    · exact hs
    · split
      · exact ⟨hs.1, rfl⟩
      · exact hs

/-- After a command `run` the board runs what was loaded. -/
theorem run_gated (args : List String) :
    Gated IsReady (runUpdateAssert "run" args) fun _ => HasRun := by
  intro s hs log out h
  obtain ⟨a, rfl, -⟩ := updateAssert_runs h
  refine ⟨⟨.inr ⟨hs.1, .inr hs.2⟩, trivial⟩, fun _ _ => ?_⟩
  have hreset : "run" :: updateArgs "run" args ≠ bulkcmd "reset" := by simp [bulkcmd]
  have hidentify : "run" :: updateArgs "run" args ≠ identifyCommand := by simp [identifyCommand]
  simp only [List.foldl_cons, List.foldl_nil, Seen.step, if_neg hreset, if_neg hidentify,
    List.head?_cons, if_true]
  exact ⟨hs.1, rfl⟩

/-- The wait is over only when a device was found. -/
theorem waitDevice_gated (rounds : ℕ) :
    Gated (fun _ => True) (waitDevice rounds) fun _ => IsFound := by
  induction rounds with
  | zero => exact guarded_stop _
  | succ rounds ih =>
    refine Guarded.bind (identify_gated _) fun answer _ => .ite (fun h => guarded_pure ?_) fun _ => ?_
    · rintro s ⟨s', -, rfl⟩
      simp [IsFound, h]
    · exact ih.imp (fun _ _ => trivial) fun _ _ => id

/-- Looking for a device is allowed from the start, and goes on only when one was found. -/
theorem findDevice_gated (rounds : ℕ) :
    Gated (fun _ => True) (findDevice rounds o) fun _ => IsFound := by
  refine Guarded.bind (identify_gated _) fun answer _ => .ite (fun h => guarded_pure ?_) fun _ => ?_
  · rintro s ⟨s', -, rfl⟩
    simp [IsFound, h]
  · refine .ite (fun _ => ?_) fun _ => guarded_stop _
    exact (waitDevice_gated rounds).imp (fun _ _ => trivial) fun _ _ => id

/-- Unlocking is allowed once a device was found, and goes on only when it is unlocked. -/
theorem unlock_gated : Gated IsFound (unlock o) fun _ => IsReady := by
  refine Guarded.bind (identify_gated _) fun answer _ => .ite (fun _ => ?_) fun h => ?_
  · refine .ite (fun _ => guarded_stop _) fun _ => ?_
    -- The password may be sent to a device that was found, and its answer keeps it found.
    have hpassword : Gated IsFound (runUpdateAssert "password" (words o.password)) fun _ => IsFound := by
      refine (sends_updateAssert (P := fun c => c.head? = some "password") rfl).guarded ?_
      intro s c a hs hc
      refine ⟨.inr ⟨hs, .inl hc⟩, ?_⟩
      unfold Seen.step
      split
      · simp [IsFound, show s.found = true from hs]
      · split
        · exact hs
        · split <;> exact hs
    refine Guarded.bind (hpassword.imp ?_ fun _ _ => id) fun _ _ => ?_
    · rintro s ⟨s', hs', rfl⟩
      simp [IsFound, show s'.found = true from hs']
    · -- The second answer names the device again, and says whether the password was right.
      refine Guarded.bind (identify_gated _) fun answer _ => .ite (fun h => guarded_pure ?_) fun _ => ?_
      · rintro s ⟨s', hs', rfl⟩
        exact ⟨by simp [show s'.found = true from hs'], .inr ⟨answer, rfl, .inr h⟩⟩
      · exact guarded_stop _
  · -- Without the complaint in the answer the board was never locked.
    refine guarded_pure ?_
    rintro s ⟨s', hs', rfl⟩
    refine ⟨by simp [show s'.found = true from hs'], .inr ⟨answer, rfl, .inl ?_⟩⟩
    exact Bool.eq_false_of_not_eq_true h

/-- The last command of a reboot, after which the board may be locked again. -/
theorem reset_gated : Gated IsReady (runUpdate "bulkcmd" ["reset"]) fun _ => IsFound := by
  unfold runUpdate runUpdateReturn
  rw [updateArgs_bulkcmd]
  refine Guarded.bind (Guarded.bind (guarded_send (I := IsReady) fun s hs => .inr ⟨hs.1, .inr hs.2⟩)
    fun a _ => guarded_pure (Q := fun _ => IsFound) ?_) fun _ _ => guarded_pure fun _ => id
  rintro s ⟨s', hs', rfl⟩
  exact hs'.1

/-- The step for a device that runs u-boot is allowed on a board that is ready, and a reset leaves
it found. -/
theorem destroyBoot_gated : Gated IsReady (destroyBoot o) fun _ => IsFound := by
  have hsends {α : Type} {p : Script α} (h : Sends (· ∈ rebootCommands.dropLast ++ destroyCommands) p) :
      Gated IsReady p fun _ => IsReady := ready_of_sends h (by decide)
  have hreboot : Gated IsReady (reboot o) fun _ => IsFound := by
    refine Guarded.bind (hsends (sends_update (by decide))) fun _ _ => .ite (fun _ => ?_) fun _ => ?_
    · exact .ite (fun _ => guarded_stop _) fun _ => guarded_pure fun _ hs => hs.1
    · refine Guarded.bind (hsends (sends_update (by decide))) fun _ _ => ?_
      refine Guarded.bind (hsends (sends_updateAssert (by decide))) fun _ _ => ?_
      refine Guarded.bind (.when (fun _ => hsends (destroyStore_sends.imp (by decide))) fun _ _ => id)
        fun _ _ => ?_
      refine Guarded.bind reset_gated fun _ _ => ?_
      exact .ite (fun _ => guarded_stop _) fun _ => guarded_pure fun _ => id
  refine Guarded.bind (.when (fun _ => hreboot) fun _ _ hs => hs.1) fun _ _ => ?_
  exact .ite (fun _ => guarded_stop _) fun _ => guarded_pure fun _ => id

/-- Commands with another first word keep an unlocked board unlocked. -/
theorem ready_of_head {α : Type} {p : Script α} {v : String} (h : Sends (·.head? = some v) p)
    (hidentify : v ≠ "identify") (hbulkcmd : v ≠ "bulkcmd") :
    Gated IsReady p fun _ => IsReady := by
  refine ready_of_sends h fun c hc => ?_
  obtain ⟨args, rfl⟩ := List.head?_eq_some_iff.mp hc
  simp [identifyCommand, bulkcmd, hidentify, hbulkcmd]

/-- The bootloader update asks `identify 7` only when a file runs. -/
theorem initDdr_gated : Gated IsReady (initDdr o conf b) fun _ => IsReady := by
  have hcwr {args : List String} : Gated IsReady (runUpdateAssert "cwr" args) fun _ => IsReady :=
    ready_of_head (sends_updateAssert rfl) (by decide) (by decide)
  have hwrite {args : List String} : Gated IsReady (runUpdateAssert "write" args) fun _ => IsReady :=
    ready_of_head (sends_updateAssert rfl) (by decide) (by decide)
  refine .ite (fun _ => ?_) fun _ => ?_
  · refine Guarded.bind hcwr fun _ _ => Guarded.bind hwrite fun _ _ => ?_
    refine Guarded.bind (run_gated _) fun _ _ => ?_
    exact (hasRun_gated _).imp (fun _ => id) fun _ _ => HasRun.isReady
  · refine Guarded.bind hcwr fun _ _ => Guarded.bind (run_gated _) fun _ _ => ?_
    exact guarded_pure fun _ => HasRun.isReady

/-- A command that writes neither asks the device nor resets it. -/
theorem writing_plain {c : List String} (h : IsWriting c) :
    c ≠ identifyCommand ∧ c ≠ bulkcmd "reset" := by
  obtain h | h := h
  · simp only [List.mem_cons, List.not_mem_nil, or_false] at h
    constructor
    · rintro rfl
      simp [identifyCommand] at h
    · rintro rfl
      simp [bulkcmd] at h
  · revert c
    decide

/-- A command that loads or reads a register neither asks the device nor resets it. -/
theorem loading_plain {c : List String} (h : IsLoading c ∨ c.head? = some "rreg") :
    c ≠ identifyCommand ∧ c ≠ bulkcmd "reset" := by
  constructor
  · rintro rfl
    simp [IsLoading, identifyCommand] at h
  · rintro rfl
    simp [IsLoading, bulkcmd] at h

/-- The update of the bootloader is allowed on a board that is ready, and leaves it so. -/
theorem bootloaderUpdate_gated :
    Gated IsReady (bootloaderUpdate host tmp_dir o conf secured) fun _ => IsReady := by
  refine .ite (fun _ => ?_) fun _ => guarded_pure fun _ => id
  refine Guarded.bind (guarded_lift _) fun b _ => Guarded.bind ?_ fun _ _ => guarded_pure fun _ => id
  refine Guarded.bind initDdr_gated fun usb_protocol _ => ?_
  refine Guarded.bind (ready_of_sends (runUboot_sends usb_protocol) fun _ => loading_plain) fun _ _ => ?_
  refine Guarded.bind (ready_of_sends writeBoot_sends fun _ => writing_plain) fun _ _ => ?_
  exact ready_of_sends saveUpgrade_sends (by decide)

/-- Programming the efuses is allowed on a board that is ready, and leaves it so. -/
theorem efuseUpdate_gated (files : Files) (soc efuse_file : String) :
    Gated IsReady (efuseUpdate files soc efuse_file) fun _ => IsReady := by
  have hbulkcmd {text : String} (h : text ∈ storingTexts) :
      Gated IsReady (runUpdateAssert "bulkcmd" [text]) fun _ => IsReady := by
    refine ready_of_sends (P := IsWriting) (sends_updateAssert (.inr ?_)) fun _ => writing_plain
    rw [updateArgs_bulkcmd]
    exact List.mem_map_of_mem h
  refine .ite (fun _ => ?_) fun _ => guarded_pure fun _ => id
  refine Guarded.bind (guarded_lift _) fun _ _ => ?_
  refine Guarded.bind (ready_of_head (v := "write") (sends_updateAssert rfl) (by decide)
    (by decide)) fun _ _ => hbulkcmd (by split <;> decide)

/-- The script from the check for a secure board on is allowed on a board that is ready. -/
theorem burn_gated : Gated IsReady (burn host o) fun _ => IsReady := by
  refine Guarded.bind (ready_of_head (v := "rreg") ((checkSecure_sends _).imp ?_) (by decide)
    (by decide)) fun secured _ => ?_
  · rintro _ rfl
    rfl
  refine Guarded.bind bootloaderUpdate_gated fun _ _ => ?_
  refine Guarded.bind (Guarded.bind (.when (fun _ => ?_) fun _ _ => id) fun _ _ =>
    .when (fun _ => ?_) fun _ _ => id) fun _ _ => ?_
  · exact ready_of_sends wipeEnvironment_sends (by decide)
  · exact ready_of_sends wipePartitions_sends (by decide)
  · refine Guarded.bind (ready_of_head (programPartitions_sends _ _) (by decide) (by decide)) ?_
    intro _ _
    refine Guarded.bind (efuseUpdate_gated _ _ _) fun _ _ => ?_
    exact ready_of_sends resetBoard_sends (by decide)

/-- **The device answers first.** In every run nothing but `identify 7` is sent before an answer has
named the firmware, and, until a loaded file has been run, nothing but that and the password unless
the last answer since the start or the last reset was that of an unlocked board. -/
theorem amlFlash_gate {rounds : ℕ} {args : List String} {log : List (List String × String)}
    {out : Except Stop Unit} (h : Runs (amlFlash host rounds args) log out) :
    Allowed Seen.step Seen.Allows Seen.init log := by
  have hflash (o : Options) : Gated (fun _ => True) (flash host rounds o) fun _ => IsReady := by
    refine Guarded.bind (findDevice_gated rounds) fun _ _ => Guarded.bind unlock_gated fun _ _ => ?_
    refine Guarded.bind destroyBoot_gated fun _ _ => Guarded.bind unlock_gated fun _ _ => ?_
    exact burn_gated
  have hscript : Gated (fun _ => True) (amlFlash host rounds args) fun _ => IsReady := by
    refine Guarded.bind (guarded_lift _) fun _ _ => Guarded.bind (guarded_lift _) fun _ _ => ?_
    exact hflash _
  exact (hscript Seen.init trivial log out h).1

/-- A device that names its firmware, and prints nothing for other commands. -/
def smallPeer (_ : List (List String × String)) (c : List String) : String :=
  if c = identifyCommand then "This firmware version is 0-7-0-16-0-0-0-" else ""

/-- With a device that names its firmware, `--destroy` sends these commands, and each is allowed. -/
theorem destroy_gate :
    Allowed Seen.step Seen.Allows Seen.init
        ((amlFlash smallHost 1 ["--destroy"]).run smallPeer []).1 ∧
      ((amlFlash smallHost 1 ["--destroy"]).run smallPeer []).1.map Prod.fst =
        [identifyCommand, identifyCommand, bulkcmd "echo 12345", bulkcmd "bootloader_is_old",
          bulkcmd "erase_bootloader"] ++ destroyCommands ++ [bulkcmd "reset"] :=
  ⟨amlFlash_gate (run_runs smallPeer _ _), by decide +kernel⟩

/-! ## A secure board -/

/-- What the script takes for the number in an answer to `rreg`: what stands behind the first colon. -/
def registerDigits (update_return : String) : List Char :=
  gsub [' '] (fieldAt ':' 2 update_return).toList

/-- The bit of the register that says that the board is secure. -/
def secureBit (soc : String) : ℕ := if soc = "gxl" ∨ soc = "axg" ∨ soc = "txlx" then 4 else 7

/-- **The register says that the board is secure**: the bit is set in the number that the hexadecimal
digits are, or one of its letters is no such digit. Without digits the number is zero. A text that is
no number is what the shell makes of it. -/
def SaysSecure (host : Host) (soc update_return : String) : Prop :=
  let digits := registerDigits update_return
  if digits.all isNumberChar then
    digits.all (digitOf 16 · < 16) → (hexNumber 0 digits).testBit (secureBit soc)
  else host.arith (registerValue update_return ++ " & " ++ (secureRegister soc).2) ≠ some 0

instance (host : Host) (soc update_return : String) :
    Decidable (SaysSecure host soc update_return) := by
  unfold SaysSecure
  infer_instance

/-- The mask has the one bit. -/
theorem secureRegister_mask (soc : String) : isNumber (secureRegister soc).2.toList ∧
    numberOf (secureRegister soc).2.toList = some (BitVec.ofNat 64 (2 ^ secureBit soc)) := by
  unfold secureRegister secureBit
  by_cases h : soc = "gxl"
  · rw [if_pos h, if_pos (Or.inl h)]
    decide
  · rw [if_neg h]
    by_cases h' : soc = "axg" ∨ soc = "txlx"
    · rw [if_pos h', if_pos (Or.inr h')]
      decide
    · rw [if_neg h', if_neg (by tauto)]
      decide

/-- A number under a mask of one bit is zero when it has not that bit. -/
theorem and_mask_eq_zero {n i : ℕ} (hi : i < 64) :
    (BitVec.ofNat 64 n &&& BitVec.ofNat 64 (2 ^ i)).toInt = 0 ↔ n.testBit i = false := by
  have hpow : 2 ^ i % 2 ^ 64 = 2 ^ i :=
    Nat.mod_eq_of_lt (Nat.pow_lt_pow_right (by decide) hi)
  have hbit : (n % 2 ^ 64).testBit i = n.testBit i := by
    rw [Nat.testBit_mod_two_pow, decide_eq_true hi, Bool.true_and]
  rw [← BitVec.toInt_zero, BitVec.toInt_inj, ← BitVec.toNat_inj, BitVec.toNat_and,
    BitVec.toNat_ofNat, BitVec.toNat_ofNat, hpow, Nat.and_two_pow, hbit]
  cases n.testBit i with
  | false => simp
  | true => simp

/-- **`secured`** is what the register says. -/
theorem isSecured_iff (host : Host) (soc update_return : String) :
    isSecured host soc update_return = true ↔ SaysSecure host soc update_return := by
  obtain ⟨hmask, hvalue⟩ := secureRegister_mask soc
  have hbit : secureBit soc < 64 := by
    unfold secureBit
    split_ifs <;> decide
  obtain ⟨digits, hdigits⟩ : ∃ digits, registerDigits update_return = digits := ⟨_, rfl⟩
  -- The text of the value is `0x` and the digits, whatever these are.
  have htext : (registerValue update_return).toList = '0' :: 'x' :: digits := by
    rw [← hdigits]
    simp [registerValue, registerDigits]
  have hnumber : isNumber (registerValue update_return).toList = digits.all isNumberChar := by
    rw [htext]
    rfl
  rw [isSecured, decide_eq_true_iff, Host.expand, hnumber, hmask, SaysSecure, hdigits]
  by_cases hall : digits.all isNumberChar
  swap
  · rw [if_neg fun h => hall h.1, if_neg hall]
  rw [if_pos ⟨hall, rfl⟩, if_pos hall, hvalue, htext]
  change (numberAt 16 true 0 digits >>= fun a => some _) ≠ some 0 ↔ _
  by_cases hhex : digits.all (digitOf 16 · < 16)
  · -- The number, and its bit.
    have hread := numberAt_hex (fun c hc => of_decide_eq_true (List.all_eq_true.mp hhex c hc)) 0
    rw [show numberAt 16 true 0 digits = _ from hread]
    change some (BitVec.ofNat 64 (hexNumber 0 digits) &&&
      BitVec.ofNat 64 (2 ^ secureBit soc)).toInt ≠ some 0 ↔ _
    rw [ne_eq, Option.some_inj, and_mask_eq_zero hbit, Bool.not_eq_false]
    exact ⟨fun h _ => h, fun h => h hhex⟩
  · -- An error.
    have hbad : ∃ c ∈ digits, 16 ≤ digitOf 16 c := by
      simpa using hhex
    rw [numberAt_error hbad]
    exact iff_of_true (fun h => nomatch h) fun h => absurd h hhex

/-- The register of the secure boot was read, and says that the board is secure. -/
def secureStep (host : Host) (soc : String) (s : Bool) (e : List String × String) : Bool :=
  s || (e.1 = ["rreg", "4", (secureRegister soc).1] && SaysSecure host soc (echo e.2))

/-- The files that may be loaded into a secure board: those of the tools, and the signed bootloader
if the image has one. -/
def signedFiles (host : Host) (conf : Config) (soc : String) : List String :=
  [host.ddr, host.fip soc] ++
    if conf.ddr_enc_filename = "" ∨ conf.uboot_enc_filename = "" then []
    else [host.tmpDir ++ "/" ++ conf.ddr_enc_filename, host.tmpDir ++ "/" ++ conf.uboot_enc_filename]

/-- The command loads one of these, or the data of the efuses. -/
def IsSigned (host : Host) (conf : Config) (soc efuse_file : String) (c : List String) : Prop :=
  (∃ file ∈ signedFiles host conf soc, ∃ verb args, c = verb :: updateArgs verb (file :: args)) ∨
    c = "write" :: updateArgs "write" (words efuse_file ++ ["0x03000000"])

/-- The command loads a file into the memory of the device. -/
def Loads (c : List String) : Prop := c.head? = some "cwr" ∨ c.head? = some "write"

/-- Once the register has said secure, only signed files may be loaded. -/
def SecureAllows (host : Host) (conf : Config) (soc efuse_file : String) (s : Bool)
    (c : List String) : Prop := s = true → Loads c → IsSigned host conf soc efuse_file c

/-- The parts of the script, guarded by what may be sent to a secure board. -/
abbrev Secured {α : Type} (host : Host) (conf : Config) (soc efuse_file : String)
    (I : Bool → Prop) (p : Script α) (Q : α → Bool → Prop) : Prop :=
  Guarded (secureStep host soc) (SecureAllows host conf soc efuse_file) I p Q

variable {efuse_file : String}

/-- Parts that load nothing, or only what is signed. -/
theorem secured_of_sends {α : Type} {P : List String → Prop} {p : Script α} (h : Sends P p)
    (hP : ∀ c, P c → Loads c → IsSigned host conf o.soc efuse_file c) :
    Secured host conf o.soc efuse_file (fun _ => True) p fun _ _ => True :=
  h.guarded fun _ c _ _ hc => ⟨fun _ => hP c hc, trivial⟩

/-- Before the register is read everything may be sent. -/
theorem insecure_of_sends {α : Type} {P : List String → Prop} {p : Script α} (h : Sends P p)
    (hP : ∀ c, P c → c.head? ≠ some "rreg") :
    Secured host conf o.soc efuse_file (· = false) p fun _ => (· = false) := by
  refine h.guarded fun s c a hs hc => ⟨fun ht => by simp [hs] at ht, ?_⟩
  have hne : c ≠ ["rreg", "4", (secureRegister o.soc).1] := by
    rintro rfl
    exact hP _ hc rfl
  simp [secureStep, hs, hne]

/-- The check for a secure board returns what the register says. -/
theorem checkSecure_secured :
    Secured host conf o.soc efuse_file (· = false) (checkSecure host o.soc) fun secured s => s = secured := by
  unfold checkSecure runUpdateReturn
  rw [updateArgs_rreg]
  refine Guarded.bind (Guarded.bind (guarded_send fun s hs ht => by simp [hs] at ht) fun a _ =>
    guarded_pure (Q := fun r s => s = isSecured host o.soc r) ?_) fun r _ => guarded_pure fun s hs => hs
  rintro s ⟨s', rfl, rfl⟩
  simp [secureStep, ← isSecured_iff]

/-- On a secure board the bootloader is the signed one, or the update stops. -/
theorem bootFiles_signed {b : BootFiles} (h : bootFiles host host.tmpDir o conf true = .ok b)
    (hu : o.vars "uboot_file" = "") :
    b.ddr ∈ signedFiles host conf o.soc ∧ b.fip ∈ signedFiles host conf o.soc ∧
      b.bl2 ∈ signedFiles host conf o.soc ∧ b.tpl ∈ signedFiles host conf o.soc := by
  obtain ⟨_, -, h⟩ := Except.bind_ok_iff.mp h
  obtain ⟨_, -, h⟩ := Except.bind_ok_iff.mp h
  obtain ⟨_, -, h⟩ := Except.bind_ok_iff.mp h
  obtain ⟨_, -, h⟩ := Except.bind_ok_iff.mp h
  obtain ⟨r, hr, h⟩ := Except.bind_ok_iff.mp h
  obtain ⟨_, -, h⟩ := Except.bind_ok_iff.mp h
  obtain ⟨_, -, h⟩ := Except.bind_ok_iff.mp h
  cases h
  simp only [ubootFiles, hu, if_true, not_true, if_false] at hr
  split at hr
  · cases hr
  · next henc =>
    cases hr
    simp [signedFiles, henc]

/-- Commands with another first word load nothing. -/
theorem not_loads {c : List String} {v : String} (h : c.head? = some v) (hcwr : v ≠ "cwr")
    (hwrite : v ≠ "write") : ¬Loads c := by
  simp [Loads, h, hcwr, hwrite]

/-- Loading one of the signed files is allowed on a secure board. -/
theorem load_sends {file cmd : String} {args : List String}
    (h : file ∈ signedFiles host conf o.soc) :
    Sends (fun c => Loads c → IsSigned host conf o.soc efuse_file c) (runUpdateAssert cmd (file :: args)) :=
  sends_updateAssert fun _ => .inl ⟨file, h, cmd, args, rfl⟩

/-- A command `run` loads nothing. -/
theorem run_sends (args : List String) :
    Sends (fun c => Loads c → IsSigned host conf o.soc efuse_file c) (runUpdateAssert "run" args) :=
  sends_updateAssert fun h => absurd h (not_loads rfl (by decide) (by decide))

/-- A secure board is sent the signed bootloader. -/
theorem initDdr_signed (hu : o.vars "uboot_file" = "")
    (hb : bootFiles host host.tmpDir o conf true = .ok b) :
    Sends (fun c => Loads c → IsSigned host conf o.soc efuse_file c) (initDdr o conf b) := by
  obtain ⟨hddr, -, hbl2, -⟩ := bootFiles_signed hb hu
  have hidentify : Sends (fun c => Loads c → IsSigned host conf o.soc efuse_file c) identify :=
    identify_sends.imp fun c hc h => by
      rw [hc] at h
      exact absurd h (not_loads rfl (by decide) (by decide))
  refine .ite (fun _ => ?_) fun _ => ?_
  · refine .bind (load_sends hbl2) fun _ _ => .bind (load_sends hddr) fun _ _ => ?_
    refine .bind (run_sends _) fun _ _ => .bind hidentify fun _ _ => ?_
    refine .ite (fun _ => ?_) fun _ => sends_stop _
    exact .bind (.when fun _ => run_sends _) fun _ _ => sends_pure _
  · exact .bind (load_sends hbl2) fun _ _ => .bind (run_sends _) fun _ _ => sends_pure _

/-- On a secure board u-boot is started from signed files only. -/
theorem runUboot_signed (hu : o.vars "uboot_file" = "")
    (hb : bootFiles host host.tmpDir o conf true = .ok b) (usb_protocol : String) :
    Sends (fun c => Loads c → IsSigned host conf o.soc efuse_file c)
      (runUboot host o conf true b usb_protocol) := by
  obtain ⟨-, hfip, hbl2, htpl⟩ := bootFiles_signed hb hu
  refine .ite (fun _ => ?_) fun _ => ?_
  · refine .bind (load_sends hbl2) fun _ _ => .bind (load_sends hfip) fun _ _ => ?_
    exact .bind (load_sends htpl) fun _ _ => run_sends _
  · refine .bind (load_sends hfip) fun _ _ => .ite (fun _ => ?_) fun h => absurd rfl h
    exact .bind (load_sends htpl) fun _ _ => run_sends _

/-- A part that loads nothing may be run on a secure board. -/
theorem quiet_secured {α : Type} {P : List String → Prop} {p : Script α} (h : Sends P p)
    (hP : ∀ c, P c → ¬Loads c) : Secured host conf o.soc efuse_file (fun _ => True) p fun _ _ => True :=
  secured_of_sends h fun c hc hl => absurd hl (hP c hc)

/-- A part with one verb that loads nothing may be run on a secure board. -/
theorem quiet_of_head {α : Type} {p : Script α} {v : String} (h : Sends (·.head? = some v) p)
    (hcwr : v ≠ "cwr") (hwrite : v ≠ "write") :
    Secured host conf o.soc efuse_file (fun _ => True) p fun _ _ => True :=
  quiet_secured h fun _ hc => not_loads hc hcwr hwrite

/-- Another board is asked for a register once more, and sent no file behind that. -/
theorem runUboot_insecure (usb_protocol : String) :
    Secured host conf o.soc efuse_file (· = false) (runUboot host o conf false b usb_protocol) fun _ _ => True := by
  have hload {cmd : String} {args : List String} (h : cmd ≠ "rreg") :
      Secured host conf o.soc efuse_file (· = false) (runUpdateAssert cmd args) fun _ => (· = false) :=
    insecure_of_sends (P := (·.head? = some cmd)) (sends_updateAssert rfl) fun c hc => by
      rw [hc]
      simpa using h
  have hrun (args : List String) :
      Secured host conf o.soc efuse_file (fun _ => True) (runUpdateAssert "run" args) fun _ _ => True :=
    secured_of_sends (run_sends args) fun _ => id
  refine .ite (fun _ => ?_) fun _ => ?_
  · refine Guarded.bind (hload (by decide)) fun _ _ => Guarded.bind (hload (by decide)) fun _ _ => ?_
    refine Guarded.bind (hload (by decide)) fun _ _ => ?_
    exact (hrun _).imp (fun _ _ => trivial) fun _ _ => id
  · refine Guarded.bind (hload (by decide)) fun _ _ => .ite (fun h => by cases h) fun _ => ?_
    refine Guarded.bind (hload (by decide)) fun _ _ => Guarded.bind (hload (by decide)) fun _ _ => ?_
    refine Guarded.bind ?_ fun _ _ => hrun _
    exact (quiet_of_head (v := "rreg") (sends_updateReturn rfl) (by decide) (by decide)).imp
      (fun _ _ => trivial) fun _ _ => id

/-- Initialising the memory reads no register: a board not found to be secure stays so. -/
theorem initDdr_insecure :
    Secured host conf o.soc efuse_file (· = false) (initDdr o conf b) fun _ => (· = false) := by
  refine insecure_of_sends initDdr_sends fun c hc h => ?_
  obtain hc | rfl := hc
  · simp [IsLoading, h] at hc
  · simp [identifyCommand] at h

/-- A command that writes loads nothing. -/
theorem writing_quiet {c : List String} (h : IsWriting c) : ¬Loads c := by
  obtain h | h := h
  · simp only [List.mem_cons, List.not_mem_nil, or_false] at h
    obtain h | h := h <;> exact not_loads h (by decide) (by decide)
  · obtain ⟨text, -, rfl⟩ := List.mem_map.mp h
    exact not_loads rfl (by decide) (by decide)

instance (c : List String) : Decidable (Loads c) := by
  unfold Loads
  infer_instance

/-- The update of the bootloader loads signed files when the board was found to be secure. -/
theorem bootloaderUpdate_secured (hu : o.vars "uboot_file" = "") :
    Secured host conf o.soc efuse_file (· = secured) (bootloaderUpdate host host.tmpDir o conf secured)
      fun _ _ => True := by
  refine .ite (fun _ => ?_) fun _ => guarded_pure fun _ _ => trivial
  refine Guarded.bind (guarded_lift _) fun b hb => ?_
  refine Guarded.bind (Q := fun _ _ => True) ?_ fun _ _ => guarded_pure fun _ _ => trivial
  have hrest : Secured host conf o.soc efuse_file (fun _ => True) (do
      writeBoot host.tmpDir o conf secured b
      saveUpgrade o) fun _ _ => True :=
    Guarded.bind (quiet_secured writeBoot_sends fun _ => writing_quiet) fun _ _ =>
      quiet_secured saveUpgrade_sends (by decide)
  cases secured with
  | false =>
    refine Guarded.bind initDdr_insecure fun usb_protocol _ => ?_
    exact Guarded.bind (runUboot_insecure usb_protocol) fun _ _ => hrest
  | true =>
    have hb := returns_lift.mp hb
    refine Guarded.bind ((secured_of_sends (initDdr_signed hu hb) fun _ => id).imp
      (fun _ _ => trivial) fun _ _ => id) fun usb_protocol _ => ?_
    exact Guarded.bind (secured_of_sends (runUboot_signed hu hb usb_protocol) fun _ => id)
      fun _ _ => hrest

/-- The data of the efuses may be loaded into every board. -/
theorem efuseUpdate_secured (files : Files) :
    Secured host conf o.soc efuse_file (fun _ => True) (efuseUpdate files o.soc efuse_file)
      fun _ _ => True := by
  refine .ite (fun _ => ?_) fun _ => guarded_pure fun _ _ => trivial
  refine Guarded.bind (guarded_lift _) fun _ _ => ?_
  refine Guarded.bind (secured_of_sends (sends_updateAssert (P := (· = _)) rfl) ?_) fun _ _ => ?_
  · exact fun c hc _ => .inr hc
  · exact quiet_of_head (v := "bulkcmd") (sends_updateAssert rfl) (by decide) (by decide)

/-- The script from the check for a secure board on loads signed files when the register says
secure. -/
theorem burn_secured (hu : o.vars "uboot_file" = "") :
    Secured host host.config o.soc (o.vars "efuse_file") (· = false) (burn host o)
      fun _ _ => True := by
  refine Guarded.bind checkSecure_secured fun secured _ => ?_
  have hu' : (o.withArray host.config).vars "uboot_file" = "" := by
    rw [withArray_vars o (by decide), hu]
  refine Guarded.bind (bootloaderUpdate_secured (o := o.withArray host.config) hu') fun r hr => ?_
  obtain ⟨files, vars⟩ := r
  obtain rfl := bootloaderUpdate_returns hr
  refine Guarded.bind (Guarded.bind (.when (fun _ => ?_) fun _ _ _ => trivial) fun _ _ =>
    .when (fun _ => ?_) fun _ _ _ => trivial) fun _ _ => ?_
  · exact quiet_secured wipeEnvironment_sends (by decide)
  · exact quiet_secured wipePartitions_sends (by decide)
  · refine Guarded.bind (quiet_of_head (programPartitions_sends _ _) (by decide) (by decide)) ?_
    intro vars hvars
    have hefuse : vars "efuse_file" = o.vars "efuse_file" := by
      rw [programPartitions_returns hvars, planVars_efuse, withArray_vars o (by decide)]
    rw [hefuse]
    refine Guarded.bind (efuseUpdate_secured (o := o) files) fun _ _ => ?_
    exact quiet_secured resetBoard_sends (by decide)

/-- **A secure board gets no unsigned bootloader.** When the register that the script reads says
that the board is secure, and no `--uboot-file` is given, every file that a run loads behind that is
one of the tools', the data of the efuses, or part of the image's signed bootloader. -/
theorem amlFlash_signed {rounds : ℕ} {args : List String} {log : List (List String × String)}
    {out : Except Stop Unit}
    (hargs : (parseOptions host args Options.init >>= checkParameters) = .ok o)
    (hu : o.vars "uboot_file" = "") (h : Runs (amlFlash host rounds args) log out) :
    Allowed (secureStep host o.soc)
      (SecureAllows host host.config o.soc (o.vars "efuse_file")) false log := by
  -- Before the register is read everything may be sent.
  have hearly {α : Type} {P : List String → Prop} {p : Script α} (h : Sends P p)
      (hP : ∀ c, P c → c.head? ≠ some "rreg") :
      Secured host host.config o.soc (o.vars "efuse_file") (· = false) p fun _ => (· = false) :=
    insecure_of_sends h hP
  have hunlock : ∀ c, IsUnlocking c → c.head? ≠ some "rreg" := by
    rintro c (rfl | hc)
    · decide
    · simp [hc]
  obtain ⟨o', ho', hcheck⟩ := Except.bind_ok_iff.mp hargs
  have hscript : Secured host host.config o.soc (o.vars "efuse_file") (· = false)
      (amlFlash host rounds args) fun _ _ => True := by
    -- The options are those that the parameters give.
    refine Guarded.bind (guarded_lift _) fun o₁ h₁ => Guarded.bind (guarded_lift _) fun o₂ h₂ => ?_
    obtain rfl : o₁ = o' := Except.ok.inj ((returns_lift.mp h₁).symm.trans ho')
    obtain rfl : o₂ = o := Except.ok.inj ((returns_lift.mp h₂).symm.trans hcheck)
    refine Guarded.bind (hearly (findDevice_sends rounds) fun c hc => by simp [hc, identifyCommand]) ?_
    refine fun _ _ => Guarded.bind (hearly unlock_sends hunlock) fun _ _ => ?_
    refine Guarded.bind (hearly destroyBoot_sends ?_) fun _ _ => ?_
    · rintro c (hc | ⟨-, hc⟩) <;> revert c <;> decide
    · exact Guarded.bind (hearly unlock_sends hunlock) fun _ _ => burn_secured hu
  exact (hscript false rfl log out h).1

/-- An image with a signed bootloader. -/
def signedHost : Host :=
  { smallHost with
    files := filesOf (toolFiles ++ [("/t/output/image/image.cfg",
        ["file=\"ddr.enc\" main_type=\"USB\" sub_type=\"DDR_ENC\"",
          "file=\"uboot.enc\" main_type=\"USB\" sub_type=\"UBOOT_ENC\"",
          "file=\"dtb.bin\" main_type=\"dtb\" sub_type=\"meson1\"",
          "file=\"dtb.enc\" main_type=\"dtb\" sub_type=\"meson1_ENC\"",
          "file=\"platform.conf\" main_type=\"conf\" sub_type=\"platform\""]),
      ("/t/output/image/platform.conf", platformLines), ("/t/output/image/ddr.enc", ["d"]),
      ("/t/output/image/uboot.enc", ["u"]), ("/t/output/image/dtb.bin", ["t"]),
      ("/t/output/image/dtb.enc", ["e"]), ("b", ["b"])]) }

/-- A board whose register says that it is secure. -/
def securePeer (_ : List (List String × String)) (c : List String) : String :=
  if c = identifyCommand then "This firmware version is 0-7-0-16-0-0-0-"
  else if c = ["rreg", "4", "0xc8100228"] then "0xc8100228: 00000010"
  else ""

/-- The options `--parts=none` and `--bootloader-file=b`, as they are parsed. -/
def bootNone : Options :=
  { Options.init with
    parts := "none"
    soc := "gxl"
    vars := Function.update (Function.update Options.init.vars "bootloader_file" "b")
      "bootloader_file_type" "" }

/-- The register is read, and the signed bootloader is sent. -/
theorem signedHost_signed :
    Allowed (secureStep signedHost "gxl") (SecureAllows signedHost signedHost.config "gxl" "") false
        ((amlFlash signedHost 1 ["--parts=none", "--bootloader-file=b"]).run securePeer []).1 ∧
      SaysSecure signedHost "gxl" "0xc8100228: 00000010" ∧
      ["cwr", "/t/output/image/ddr.enc", "0xd9000000"] ∈
        ((amlFlash signedHost 1 ["--parts=none", "--bootloader-file=b"]).run securePeer []).1.map
          Prod.fst :=
  ⟨amlFlash_signed (o := bootNone) rfl rfl (run_runs securePeer _ _), by decide +kernel,
    by decide +kernel⟩

end AmlogicToolkit.Flash
