import AmlogicToolkit.Boot.Image

/-!
# The config file

The text that `abootimg -x` writes about the header of an image, and how `abootimg` reads such a
text, from a file and from its command line, into a header. Texts are bytes; the C string at an
address ends before the first zero.
-/

namespace AmlogicToolkit.Boot

open Bytes

/-- The C string at the front of some bytes. -/
def cString (b : List UInt8) : List UInt8 := b.takeWhile (· ≠ 0)

/-- The bytes of a string literal of the source. -/
def textOf (b : List UInt8) : String := String.ofList (b.map fun c => Char.ofNat c.toNat)

/-- The lines of a text as `getline` returns them, with their newlines. -/
def getlines : List UInt8 → List (List UInt8)
  | [] => []
  | c :: rest =>
    if c = 10 then [c] :: getlines rest
    else match getlines rest with
      | [] => [[c]]
      | line :: lines => (c :: line) :: lines

/-! ## Numbers -/

/-- `isspace`: a blank, or one of the five control characters for white space. -/
def isSpace (c : UInt8) : Bool := c == 32 || (9 ≤ c && c ≤ 13)

/-- The value of a digit, at least 36 for what is no digit. -/
def digitVal (c : UInt8) : ℕ :=
  if 48 ≤ c ∧ c ≤ 57 then c.toNat - 48
  else if 97 ≤ c ∧ c ≤ 122 then c.toNat - 87
  else if 65 ≤ c ∧ c ≤ 90 then c.toNat - 55
  else 36

/-- The number that the digits at the front of a text make. -/
def digitsVal (base : ℕ) (b : List UInt8) : ℕ :=
  (b.takeWhile (digitVal · < base)).foldl (fun acc c => acc * base + digitVal c) 0

/-- The number at the front of a text, in the base that its prefix tells. -/
def unsignedVal (b : List UInt8) : ℕ :=
  match b with
  | 48 :: x :: d :: rest =>
    if (x = 120 ∨ x = 88) ∧ digitVal d < 16 then digitsVal 16 (d :: rest) else digitsVal 8 b
  | 48 :: _ => digitsVal 8 b
  | _ => digitsVal 10 b

/-- `strtoul` with base 0: a number that does not fit is the largest `unsigned long`. -/
def strtoul (b : List UInt8) : ℕ :=
  let clamp (n : ℕ) (neg : Bool) : ℕ :=
    if 2 ^ 64 ≤ n then 2 ^ 64 - 1 else if neg then (2 ^ 64 - n) % 2 ^ 64 else n
  match b.dropWhile isSpace with
  | 45 :: rest => clamp (unsignedVal rest) true
  | 43 :: rest => clamp (unsignedVal rest) false
  | rest => clamp (unsignedVal rest) false

/-- The character that `%x` writes for a value below 16. -/
def hexDigit (d : ℕ) : UInt8 := if d < 10 then UInt8.ofNat (48 + d) else UInt8.ofNat (87 + d)

/-- The hexadecimal digits of a number, of at most `fuel` digits, in front of others. -/
def hexDigits : ℕ → ℕ → List UInt8 → List UInt8
  | 0, _, acc => acc
  | fuel + 1, n, acc => if n = 0 then acc else hexDigits fuel (n / 16) (hexDigit (n % 16) :: acc)

/-- `%x`: the hexadecimal digits of a word, without leading zeros. -/
def hex (n : UInt32) : List UInt8 := if n = 0 then [48] else hexDigits 8 n.toNat []

/-! ## Reading -/

/-- Whether a character is one of `" \t"`. -/
def isBlank (c : UInt8) : Bool := c == 32 || c == 9

/-- The array of `n` bytes that starts with a text and is zero behind it. -/
def asciiz (n : ℕ) (b : List UInt8) : List.Vector UInt8 n := ⟨resize 0 n b, length_resize 0 n b⟩

/-- What `update_header_entry` does for a token and its value. -/
def updateToken (img : Abootimg) (token value : List UInt8) : Except Stop Abootimg :=
  let valuenum := UInt32.ofNat (strtoul value)
  let starts (text : String) : Bool := (bytesOf text).isPrefixOf token
  -- Only this token is compared as a whole.
  if token = bytesOf "cmdline" then
    if BOOT_ARGS_SIZE ≤ value.length then
      .error (.printf ("cmdline length (" ++ toString value.length ++ ") is too long (max " ++
        toString (BOOT_ARGS_SIZE - 1) ++ ")"))
    else .ok { img with header := { img.header with cmdline := asciiz BOOT_ARGS_SIZE value } }
  else if starts "name" then
    .ok { img with header := { img.header with
      name := asciiz BOOT_NAME_SIZE (value.take (BOOT_NAME_SIZE - 1)) } }
  else if starts "bootsize" then
    if img.is_blkdev ∧ img.size ≠ valuenum then
      .error (.printf (img.fname ++ ": cannot change Boot Image size for a block device\n"))
    else .ok { img with size := valuenum }
  else if starts "pagesize" then
    .ok { img with header := { img.header with page_size := valuenum } }
  else if starts "kerneladdr" then
    .ok { img with header := { img.header with kernel_addr := valuenum } }
  else if starts "ramdiskaddr" then
    .ok { img with header := { img.header with ramdisk_addr := valuenum } }
  else if starts "secondaddr" then
    .ok { img with header := { img.header with second_addr := valuenum } }
  else if starts "tagsaddr" then
    .ok { img with header := { img.header with tags_addr := valuenum } }
  else .error (.printf (textOf token ++ ": bad config entry\n"))

/-- `update_header_entry`: a line of a config sets the field that its key names, and an unknown key
is an error. -/
def updateHeaderEntry (img : Abootimg) (line : List UInt8) : Except Stop Abootimg :=
  -- The newline is cut off.
  let cmd := (cString line).takeWhile (· ≠ 10)
  let p := cmd.dropWhile isBlank
  let token := p.takeWhile fun c => !(isBlank c || c == 61)
  match (p.drop token.length).dropWhile isBlank with
  | 61 :: rest => updateToken img token (rest.dropWhile isBlank)
  -- The token is not cut off yet: the message shows the whole entry.
  | _ => .error (.printf (textOf p ++ ": bad config entry\n"))

/-- The loop of `update_header` over the lines of a text. -/
def updateEntries (img : Abootimg) (lines : List (List UInt8)) : Except Stop Abootimg :=
  lines.foldlM updateHeaderEntry img

/-- `update_header`, with the entries of the command line in `config_args`. -/
def updateHeader (fs : Files) (config_args : List UInt8) (img : Abootimg) :
    Except Stop Abootimg := do
  let img ← match img.config_fname with
    | none => .ok img
    | some fname =>
      match fs fname with
      | none => .error (.perror fname)
      | some text => updateEntries img (getlines text)
  updateEntries img (getlines (cString config_args))

/-- What no entry of a config file changes. -/
structure Kept (img img' : Abootimg) : Prop where
  /-- The magic value. -/
  magic : img'.header.magic = img.header.magic
  /-- The size of the kernel. -/
  kernel_size : img'.header.kernel_size = img.header.kernel_size
  /-- The size of the ramdisk. -/
  ramdisk_size : img'.header.ramdisk_size = img.header.ramdisk_size
  /-- The size of the second stage. -/
  second_size : img'.header.second_size = img.header.second_size
  /-- Whether the image is a block device. -/
  is_blkdev : img'.is_blkdev = img.is_blkdev
  /-- The name of the kernel. -/
  kernel_fname : img'.kernel_fname = img.kernel_fname
  /-- The name of the ramdisk. -/
  ramdisk_fname : img'.ramdisk_fname = img.ramdisk_fname
  /-- The name of the second stage. -/
  second_fname : img'.second_fname = img.second_fname
  /-- The buffer of the kernel. -/
  kernel : img'.kernel = img.kernel
  /-- The buffer of the ramdisk. -/
  ramdisk : img'.ramdisk = img.ramdisk
  /-- The buffer of the second stage. -/
  second : img'.second = img.second

section

variable {img img' img'' : Abootimg} {token value line : List UInt8} {lines : List (List UInt8)}

/-- An image has kept what no entry changes when nothing is done to it. -/
theorem Kept.refl (img : Abootimg) : Kept img img :=
  ⟨rfl, rfl, rfl, rfl, rfl, rfl, rfl, rfl, rfl, rfl, rfl⟩

/-- Two steps that keep the magic value and the sizes keep them together. -/
theorem Kept.trans (h : Kept img img') (h' : Kept img' img'') : Kept img img'' :=
  ⟨h'.magic.trans h.magic, h'.kernel_size.trans h.kernel_size,
    h'.ramdisk_size.trans h.ramdisk_size, h'.second_size.trans h.second_size,
    h'.is_blkdev.trans h.is_blkdev, h'.kernel_fname.trans h.kernel_fname,
    h'.ramdisk_fname.trans h.ramdisk_fname, h'.second_fname.trans h.second_fname,
    h'.kernel.trans h.kernel, h'.ramdisk.trans h.ramdisk, h'.second.trans h.second⟩

/-- A token that is accepted keeps the magic value and the sizes of the sections. -/
theorem updateToken_kept (h : updateToken img token value = .ok img') : Kept img img' := by
  unfold updateToken at h
  extract_lets valuenum starts at h
  split_ifs at h <;> cases h <;> exact ⟨rfl, rfl, rfl, rfl, rfl, rfl, rfl, rfl, rfl, rfl, rfl⟩

/-- An entry that is taken is an update of a token. -/
theorem updateHeaderEntry_ok (h : updateHeaderEntry img line = .ok img') :
    ∃ token rest, updateToken img token (rest.dropWhile isBlank) = .ok img' ∧
      61 :: rest <:+ (cString line).takeWhile (· ≠ 10) := by
  unfold updateHeaderEntry at h
  extract_lets cmd p token at h
  split at h
  · next rest hrest =>
    refine ⟨token, rest, h, ?_⟩
    rw [← hrest]
    exact (List.dropWhile_suffix _).trans ((List.drop_suffix _ _).trans (List.dropWhile_suffix _))
  · cases h

/-- **A property of images** that every update of a token keeps holds after all lines. -/
theorem updateEntries_invariant {P : Abootimg → Prop}
    (hstep : ∀ img img' line, P img → updateHeaderEntry img line = .ok img' → P img')
    (h0 : P img) (h : updateEntries img lines = .ok img') : P img' := by
  induction lines generalizing img with
  | nil => cases h; exact h0
  | cons line lines ih =>
    rw [updateEntries, List.foldlM_cons] at h
    obtain ⟨mid, hl, h⟩ := Except.bind_ok_iff.mp h
    exact ih (hstep _ _ _ h0 hl) h

/-- What every entry of a config keeps is kept by `update_header`, whichever texts it reads. -/
theorem updateHeader_invariant {fs : Files} {config_args : List UInt8} {P : Abootimg → Prop}
    (hstep : ∀ img img' line, P img → updateHeaderEntry img line = .ok img' → P img')
    (h0 : P img) (h : updateHeader fs config_args img = .ok img') : P img' := by
  unfold updateHeader at h
  cases hc : img.config_fname with
  | none =>
    rw [hc] at h
    exact updateEntries_invariant hstep h0 h
  | some fname =>
    rw [hc] at h
    cases hf : fs fname with
    | none => simp only [hf] at h; cases h
    | some text =>
      simp only [hf] at h
      obtain ⟨mid, hm, h⟩ := Except.bind_ok_iff.mp h
      exact updateEntries_invariant hstep (updateEntries_invariant hstep h0 hm) h

/-- **What a config leaves alone**: no config changes the magic value or the size of a section. -/
theorem updateHeader_kept {fs : Files} {config_args : List UInt8}
    (h : updateHeader fs config_args img = .ok img') : Kept img img' := by
  refine updateHeader_invariant (P := Kept img) (fun a b line hk hs => ?_) (Kept.refl img) h
  obtain ⟨token, rest, hu, -⟩ := updateHeaderEntry_ok hs
  exact hk.trans (updateToken_kept hu)

end

/-! ## Writing -/

/-- `header.name` as a C string, which goes on into the fields behind it when it has no end; the
pointers behind the header are null. -/
def BootImgHdr.nameString (h : BootImgHdr) : List UInt8 :=
  cString (h.name.toList ++ (h.cmdline.toList ++ wordBytes h.id.toList))

/-- `header.cmdline` as a C string, which ends at its first NUL. -/
def BootImgHdr.cmdlineString (h : BootImgHdr) : List UInt8 :=
  cString (h.cmdline.toList ++ wordBytes h.id.toList)

/-- A line of the config file. -/
def configLine (key : String) (value : List UInt8) : List UInt8 :=
  bytesOf key ++ bytesOf " = " ++ value ++ [10]

/-- A line of the config file with a number. -/
def configWord (key : String) (value : UInt32) : List UInt8 :=
  configLine key (bytesOf "0x" ++ hex value)

/-- The lines of the config file that `write_bootimg_config` writes. -/
def configLines (img : Abootimg) : List (List UInt8) :=
  [configWord "bootsize" img.size,
    configWord "pagesize" img.header.page_size,
    configWord "kerneladdr" img.header.kernel_addr,
    configWord "ramdiskaddr" img.header.ramdisk_addr,
    configWord "secondaddr" img.header.second_addr,
    configWord "tagsaddr" img.header.tags_addr,
    configLine "name" img.header.nameString,
    configLine "cmdline" img.header.cmdlineString]

/-- `write_bootimg_config`: the text of the config file. -/
def writeBootimgConfig (img : Abootimg) : List UInt8 := (configLines img).flatten

end AmlogicToolkit.Boot
