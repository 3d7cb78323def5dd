import AmlogicToolkit.Boot.Config
import Mathlib.Data.List.TakeWhile

/-!
# The text of the config file

What `update_header` makes of the text that `write_bootimg_config` has written. Every line is an
entry that sets what it tells (`updateEntries_configLines`), if the name and the cmdline are texts
that a line can carry (`Plain`): shorter than their fields, without a newline, and not starting with
a blank. Every config leaves such texts (`updateHeader_plain`).
-/

namespace AmlogicToolkit.Boot

open Bytes

section

variable {b v rest line : List UInt8} {n : ℕ}

/-! ## C strings in fields -/

/-- A prefix up to a stop does not see what is behind it. -/
theorem takeWhile_append_stop {p : UInt8 → Bool} {c : UInt8} (hc : ¬ p c) (b rest : List UInt8) :
    (b ++ c :: rest).takeWhile p = b.takeWhile p := by
  rw [List.takeWhile_append, List.takeWhile_cons_of_neg hc, List.append_nil]
  split_ifs with hlen
  · exact ((List.takeWhile_prefix p).eq_of_length hlen).symm
  · rfl

/-- A C string has no zero. -/
theorem zero_notMem_cString (b : List UInt8) : (0 : UInt8) ∉ cString b := fun h => by
  have := List.mem_takeWhile_imp h
  simp at this

/-- Without a zero, a C string is the whole text. -/
theorem cString_eq (h : (0 : UInt8) ∉ b) : cString b = b :=
  List.takeWhile_eq_self_iff.mpr fun _ hc => decide_eq_true fun h0 => h (h0 ▸ hc)

/-- A text in a longer field ends at its first zero or at the padding. -/
theorem cString_resize (h : v.length < n) (rest : List UInt8) :
    cString (resize 0 n v ++ rest) = cString v := by
  have hfield : resize 0 n v = v ++ 0 :: List.replicate (n - v.length - 1) 0 := by
    rw [resize, padTo, List.take_of_length_le, ← List.replicate_succ]
    · congr 2
      omega
    · rw [List.length_append, List.length_replicate]
      omega
  rw [hfield, List.append_assoc, List.cons_append]
  exact takeWhile_append_stop (by simp) _ _

/-! ## Texts that a line can carry -/

/-- A text that a line of a config file can carry into a field of `n` bytes. -/
structure Plain (n : ℕ) (b : List UInt8) : Prop where
  /-- It is shorter than the field. -/
  length : b.length < n
  /-- It has no newline. -/
  newline : (10 : UInt8) ∉ b
  /-- It does not start with a blank. -/
  blank : ∀ c ∈ b.head?, isBlank c = false

/-- The empty text is plain in every field that has room for its NUL. -/
theorem plain_nil (h : 0 < n) : Plain n [] := ⟨h, by simp, by simp⟩

/-- What stands behind the blanks does not start with one. -/
theorem head?_dropWhile_isBlank (b : List UInt8) :
    ∀ c ∈ (b.dropWhile isBlank).head?, isBlank c = false := by
  intro c hc
  have := List.head?_dropWhile_not isBlank b
  rw [hc] at this
  simpa using this

/-- A text that does not start with a blank is left alone. -/
theorem dropWhile_isBlank (h : ∀ c ∈ b.head?, isBlank c = false) : b.dropWhile isBlank = b := by
  cases b with
  | nil => rfl
  | cons c b => rw [List.dropWhile_cons_of_neg (by simp [h c rfl])]

/-- The C string of a prefix of what stands behind the blanks. -/
theorem plain_cString (h : v.length < n) (hv : v <+: b.dropWhile isBlank)
    (hb : (10 : UInt8) ∉ b) : Plain n (cString v) := by
  have hpre : cString v <+: b.dropWhile isBlank := (List.takeWhile_prefix _).trans hv
  refine ⟨?_, fun hc => ?_, fun c hc => ?_⟩
  · exact Nat.lt_of_le_of_lt (List.takeWhile_prefix _).length_le h
  · exact hb ((List.dropWhile_suffix _).subset (hpre.subset hc))
  · obtain ⟨t, ht⟩ := hpre
    refine head?_dropWhile_isBlank b c ?_
    rw [← ht]
    cases hs : cString v with
    | nil => rw [hs] at hc; cases hc
    | cons d l => rw [hs] at hc; exact hc

end

/-! ## What every config leaves -/

/-- A field that holds a text of a line. -/
def PlainField (n : ℕ) (field : List.Vector UInt8 n) : Prop :=
  ∃ v, field = asciiz n v ∧ v.length < n ∧ Plain n (cString v)

/-- The C string at such a field does not go on behind it. -/
theorem PlainField.plain {n : ℕ} {field : List.Vector UInt8 n} (h : PlainField n field)
    (rest : List UInt8) : Plain n (cString (field.toList ++ rest)) := by
  obtain ⟨v, rfl, hlt, hv⟩ := h
  have hstring : cString ((asciiz n v).toList ++ rest) = cString v := cString_resize hlt rest
  rw [hstring]
  exact hv

/-- The fields for the name and the cmdline hold texts of a line. -/
def PlainNames (h : BootImgHdr) : Prop :=
  PlainField BOOT_NAME_SIZE h.name ∧ PlainField BOOT_ARGS_SIZE h.cmdline

/-- **Every entry leaves plain names**: an entry that is accepted writes only text that fits its
field. -/
theorem updateHeaderEntry_plain {img img' : Abootimg} {line : List UInt8}
    (h : PlainNames img.header) (hs : updateHeaderEntry img line = .ok img') :
    PlainNames img'.header := by
  obtain ⟨token, rest, hu, hsuf⟩ := updateHeaderEntry_ok hs
  have hnl : (10 : UInt8) ∉ rest := fun hc => by
    have := List.mem_takeWhile_imp (hsuf.subset (List.mem_cons_of_mem _ hc))
    simp at this
  unfold updateToken at hu
  extract_lets valuenum starts at hu
  split_ifs at hu with h1 hlong h2
  · -- The cmdline, which is shorter than its field.
    cases hu
    have hlt := Nat.not_le.mp hlong
    exact ⟨h.1, _, rfl, hlt, plain_cString hlt (List.prefix_refl _) hnl⟩
  · -- The name, which is cut.
    cases hu
    have hlt : ((rest.dropWhile isBlank).take (BOOT_NAME_SIZE - 1)).length < BOOT_NAME_SIZE := by
      rw [List.length_take]
      exact Nat.lt_of_le_of_lt (Nat.min_le_left _ _) (by decide)
    exact ⟨⟨_, rfl, hlt, plain_cString hlt (List.take_prefix _ _) hnl⟩, h.2⟩
  all_goals cases hu; exact h

/-- **Every config** leaves a name and a cmdline that a line can carry, where they were so before. -/
theorem updateHeader_plain {fs : Files} {config_args : List UInt8} {img img' : Abootimg}
    (h : PlainNames img.header) (hs : updateHeader fs config_args img = .ok img') :
    Plain BOOT_NAME_SIZE img'.header.nameString ∧ Plain BOOT_ARGS_SIZE img'.header.cmdlineString := by
  have hp : PlainNames img'.header := updateHeader_invariant (P := fun img => PlainNames img.header)
    (fun _ _ _ h hl => updateHeaderEntry_plain h hl) h hs
  exact ⟨hp.1.plain _, hp.2.plain _⟩

/-! ## Numbers -/

section

variable {n d : ℕ}

/-- A digit that `%x` writes is read back as its value. -/
theorem digitVal_hexDigit (h : d < 16) : digitVal (hexDigit d) = d := by
  have hall : ∀ d < 16, digitVal (hexDigit d) = d := by decide
  exact hall d h

/-- Reading the digits of a number goes on from the number. -/
theorem foldl_hexDigits (fuel : ℕ) (acc : List UInt8) (h : n < 16 ^ fuel) :
    (hexDigits fuel n acc).foldl (fun a c => a * 16 + digitVal c) 0 =
      acc.foldl (fun a c => a * 16 + digitVal c) n := by
  induction fuel generalizing n acc with
  | zero =>
    obtain rfl : n = 0 := by simpa using h
    rfl
  | succ fuel ih =>
    rw [hexDigits]
    split_ifs with h0
    · rw [h0]
    · have hdiv : n / 16 < 16 ^ fuel := by
        rw [Nat.pow_succ] at h
        exact Nat.div_lt_of_lt_mul (by rwa [Nat.mul_comm])
      rw [ih _ hdiv, List.foldl_cons, digitVal_hexDigit (Nat.mod_lt _ (by decide)),
        Nat.div_add_mod']

/-- The digits of a number are digits. -/
theorem mem_hexDigits (fuel : ℕ) (acc : List UInt8) {c : UInt8} (h : c ∈ hexDigits fuel n acc) :
    c ∈ acc ∨ ∃ d < 16, c = hexDigit d := by
  induction fuel generalizing n acc with
  | zero => exact Or.inl h
  | succ fuel ih =>
    rw [hexDigits] at h
    split_ifs at h with h0
    · exact Or.inl h
    · rcases ih _ h with h | h
      · rcases List.mem_cons.mp h with rfl | h
        · exact Or.inr ⟨_, Nat.mod_lt _ (by decide), rfl⟩
        · exact Or.inl h
      · exact Or.inr h

/-- `%x` writes at least one digit. -/
theorem hex_ne_nil (n : UInt32) : hex n ≠ [] := by
  have hgrow : ∀ (fuel m : ℕ) (acc : List UInt8), acc ≠ [] → hexDigits fuel m acc ≠ [] := by
    intro fuel
    induction fuel with
    | zero => exact fun m acc h => h
    | succ fuel ih =>
      intro m acc h
      rw [hexDigits]
      split_ifs
      · exact h
      · exact ih _ _ (List.cons_ne_nil _ _)
  unfold hex
  split_ifs with h0
  · exact List.cons_ne_nil _ _
  · have hne : n.toNat ≠ 0 := fun h => h0 (UInt32.toNat_inj.mp h)
    rw [hexDigits, if_neg hne]
    exact hgrow _ _ _ (List.cons_ne_nil _ _)

/-- All characters that `%x` writes are hexadecimal digits. -/
theorem mem_hex {n : UInt32} {c : UInt8} (h : c ∈ hex n) : ∃ d < 16, c = hexDigit d := by
  unfold hex at h
  split_ifs at h
  · exact ⟨0, by decide, List.mem_singleton.mp h⟩
  · exact (mem_hexDigits 8 [] h).resolve_left (List.not_mem_nil)

/-- **A number is read back** as it was written. -/
theorem strtoul_hex (n : UInt32) : UInt32.ofNat (strtoul (bytesOf "0x" ++ hex n)) = n := by
  obtain ⟨d, ds, hds⟩ := List.exists_cons_of_ne_nil (hex_ne_nil n)
  have hdigit : ∀ c ∈ hex n, digitVal c < 16 := fun c hc => by
    obtain ⟨d, hd, rfl⟩ := mem_hex hc
    rw [digitVal_hexDigit hd]
    exact hd
  -- The digits are all read, and make the number.
  have hval : digitsVal 16 (hex n) = n.toNat := by
    have hall : (hex n).takeWhile (digitVal · < 16) = hex n :=
      List.takeWhile_eq_self_iff.mpr fun c hc => decide_eq_true (hdigit c hc)
    rw [digitsVal, hall, hex]
    split_ifs with h0
    · rw [h0]
      rfl
    · rw [foldl_hexDigits 8 [] n.toNat_lt]
      rfl
  have hunsigned : unsignedVal (48 :: 120 :: hex n) = n.toNat := by
    rw [hds, unsignedVal, if_pos ⟨Or.inl rfl, hdigit d (by rw [hds]; exact List.mem_cons_self)⟩,
      ← hds, hval]
  have hlt := n.toNat_lt
  have hbytes : bytesOf "0x" ++ hex n = 48 :: 120 :: hex n := rfl
  have hclamp : strtoul (48 :: 120 :: hex n) = if 2 ^ 64 ≤ unsignedVal (48 :: 120 :: hex n)
    then 2 ^ 64 - 1 else unsignedVal (48 :: 120 :: hex n) := rfl
  rw [hbytes, hclamp, hunsigned, if_neg (by omega), UInt32.ofNat_toNat]

end

/-! ## Lines -/

section

variable {b rest value : List UInt8} {key : String} {img : Abootimg}

/-- A text is read line by line: the first line ends behind the first newline. -/
theorem getlines_cons (hb : (10 : UInt8) ∉ b) (rest : List UInt8) :
    getlines (b ++ 10 :: rest) = (b ++ [10]) :: getlines rest := by
  induction b with
  | nil => rw [List.nil_append, getlines, if_pos rfl, List.nil_append]
  | cons c b ih =>
    obtain ⟨hc, hb⟩ := not_or.mp (fun h => hb (List.mem_cons.mpr h))
    rw [List.cons_append, getlines, if_neg (Ne.symm hc), ih hb]
    rfl

/-- **The lines** of a text that is made of lines are these lines. -/
theorem getlines_flatten {ls : List (List UInt8)}
    (h : ∀ l ∈ ls, ∃ b, l = b ++ [10] ∧ (10 : UInt8) ∉ b) : getlines ls.flatten = ls := by
  induction ls with
  | nil => rfl
  | cons l ls ih =>
    obtain ⟨b, rfl, hb⟩ := h l List.mem_cons_self
    rw [List.flatten_cons, List.append_assoc, List.singleton_append, getlines_cons hb,
      ih fun m hm => h m (List.mem_cons_of_mem _ hm)]

/-- A key of the config file: a word without blanks, equal signs, newlines or zeros. -/
structure Key (key : String) : Prop where
  /-- It is not empty. -/
  nonempty : bytesOf key ≠ []
  /-- It has no blank. -/
  blank : ∀ c ∈ bytesOf key, isBlank c = false
  /-- It has no equal sign. -/
  equals : (61 : UInt8) ∉ bytesOf key
  /-- It has no newline. -/
  newline : (10 : UInt8) ∉ bytesOf key
  /-- It has no zero. -/
  zero : (0 : UInt8) ∉ bytesOf key

instance (key : String) : Decidable (Key key) :=
  decidable_of_iff (bytesOf key ≠ [] ∧ (bytesOf key).all (fun c => isBlank c == false) ∧
      (61 : UInt8) ∉ bytesOf key ∧ (10 : UInt8) ∉ bytesOf key ∧ (0 : UInt8) ∉ bytesOf key) (by
    simp only [List.all_eq_true, beq_iff_eq]
    exact ⟨fun h => ⟨h.1, h.2.1, h.2.2.1, h.2.2.2.1, h.2.2.2.2⟩,
      fun h => ⟨h.nonempty, h.blank, h.equals, h.newline, h.zero⟩⟩)

/-- A line of the config file is one line. -/
theorem configLine_eq (hk : Key key) (hv : (10 : UInt8) ∉ value) :
    ∃ b, configLine key value = b ++ [10] ∧ (10 : UInt8) ∉ b := by
  refine ⟨_, rfl, ?_⟩
  have hmid : (10 : UInt8) ∉ bytesOf " = " := by decide
  simp [hk.newline, hmid, hv]

/-- **A line of the config file** sets its key to its value. -/
theorem updateHeaderEntry_configLine (hk : Key key) (hnl : (10 : UInt8) ∉ value)
    (h0 : (0 : UInt8) ∉ value) (hb : ∀ c ∈ value.head?, isBlank c = false) :
    updateHeaderEntry img (configLine key value) = updateToken img (bytesOf key) value := by
  have hmid : bytesOf " = " = [32, 61, 32] := rfl
  have hcmd : (cString (configLine key value)).takeWhile (· ≠ 10) =
      bytesOf key ++ 32 :: 61 :: 32 :: value := by
    rw [cString_eq, configLine, hmid, takeWhile_append_stop (by simp)]
    · rw [List.append_assoc]
      refine List.takeWhile_eq_self_iff.mpr fun c hc => decide_eq_true ?_
      rintro rfl
      simp [hk.newline, hnl] at hc
    · simp [configLine, hmid, hk.zero, h0]
  have hp : (bytesOf key ++ 32 :: 61 :: 32 :: value).dropWhile isBlank =
      bytesOf key ++ 32 :: 61 :: 32 :: value := by
    obtain ⟨c, l, hkey⟩ := List.exists_cons_of_ne_nil hk.nonempty
    have hc := hk.blank c (by rw [hkey]; exact List.mem_cons_self)
    rw [hkey, List.cons_append, List.dropWhile_cons_of_neg (by simp [hc])]
  have htoken : (bytesOf key ++ 32 :: 61 :: 32 :: value).takeWhile
      (fun c => !(isBlank c || c == 61)) = bytesOf key := by
    rw [takeWhile_append_stop (by decide), List.takeWhile_eq_self_iff]
    intro c hc
    have hne : c ≠ 61 := fun h => hk.equals (h ▸ hc)
    simp [hk.blank c hc, hne]
  -- Behind the key, a blank, the equal sign and another blank.
  have hrest : (32 :: 61 :: 32 :: value).dropWhile isBlank = 61 :: 32 :: value := rfl
  have hvalue : (32 :: value).dropWhile isBlank = value := by
    rw [List.dropWhile_cons_of_pos (by decide), dropWhile_isBlank hb]
  unfold updateHeaderEntry
  simp only [hcmd, hp, htoken, List.drop_left, hrest, hvalue]

/-- The text of a number is plain. -/
theorem mem_word {n : UInt32} {c : UInt8} (h : c ∈ bytesOf "0x" ++ hex n) : 48 ≤ c := by
  rcases List.mem_append.mp h with h | h
  · have hall : (bytesOf "0x").all (48 ≤ ·) := by decide
    exact of_decide_eq_true (List.all_eq_true.mp hall c h)
  · obtain ⟨d, hd, rfl⟩ := mem_hex h
    have hall : ∀ d < 16, 48 ≤ hexDigit d := by decide
    exact hall d hd

/-- **A line with a number** sets its key to the number. -/
theorem updateHeaderEntry_configWord (hk : Key key) (n : UInt32) :
    updateHeaderEntry img (configWord key n) =
      updateToken img (bytesOf key) (bytesOf "0x" ++ hex n) := by
  refine updateHeaderEntry_configLine hk (fun h => ?_) (fun h => ?_) fun c hc => ?_
  · exact absurd (mem_word h) (by decide)
  · exact absurd (mem_word h) (by decide)
  · cases hc
    rfl

/-- What the config file of an image makes of the options of `--create`. -/
def configured (img args : Abootimg) : Abootimg :=
  { args with
    size := img.size
    header := { args.header with
      page_size := img.header.page_size
      kernel_addr := img.header.kernel_addr
      ramdisk_addr := img.header.ramdisk_addr
      second_addr := img.header.second_addr
      tags_addr := img.header.tags_addr
      name := asciiz BOOT_NAME_SIZE img.header.nameString
      cmdline := asciiz BOOT_ARGS_SIZE img.header.cmdlineString } }

/-- **The entries of the config file** of an image with plain names set what the file tells. -/
theorem updateEntries_configLines {args : Abootimg} (hblk : args.is_blkdev = false)
    (hname : Plain BOOT_NAME_SIZE img.header.nameString)
    (hcmdline : Plain BOOT_ARGS_SIZE img.header.cmdlineString) :
    updateEntries args (configLines img) = .ok (configured img args) := by
  have hboot : updateHeaderEntry args (configWord "bootsize" img.size) =
      .ok { args with size := img.size } := by
    rw [updateHeaderEntry_configWord (by decide)]
    refine (if_neg (by simp [hblk])).trans ?_
    rw [strtoul_hex]
  -- The numbers of the header.
  have hpage : ∀ a n, updateHeaderEntry a (configWord "pagesize" n) =
      .ok { a with header := { a.header with page_size := n } } := fun a n => by
    rw [updateHeaderEntry_configWord (by decide)]
    conv_rhs => rw [← strtoul_hex n]
    rfl
  have hkernel : ∀ a n, updateHeaderEntry a (configWord "kerneladdr" n) =
      .ok { a with header := { a.header with kernel_addr := n } } := fun a n => by
    rw [updateHeaderEntry_configWord (by decide)]
    conv_rhs => rw [← strtoul_hex n]
    rfl
  have hramdisk : ∀ a n, updateHeaderEntry a (configWord "ramdiskaddr" n) =
      .ok { a with header := { a.header with ramdisk_addr := n } } := fun a n => by
    rw [updateHeaderEntry_configWord (by decide)]
    conv_rhs => rw [← strtoul_hex n]
    rfl
  have hsecond : ∀ a n, updateHeaderEntry a (configWord "secondaddr" n) =
      .ok { a with header := { a.header with second_addr := n } } := fun a n => by
    rw [updateHeaderEntry_configWord (by decide)]
    conv_rhs => rw [← strtoul_hex n]
    rfl
  have htags : ∀ a n, updateHeaderEntry a (configWord "tagsaddr" n) =
      .ok { a with header := { a.header with tags_addr := n } } := fun a n => by
    rw [updateHeaderEntry_configWord (by decide)]
    conv_rhs => rw [← strtoul_hex n]
    rfl
  -- The name and the cmdline, which fit into their fields.
  have hnameLine : ∀ a, updateHeaderEntry a (configLine "name" img.header.nameString) =
      .ok { a with header := { a.header with
        name := asciiz BOOT_NAME_SIZE img.header.nameString } } := fun a => by
    rw [updateHeaderEntry_configLine (by decide) hname.newline (zero_notMem_cString _) hname.blank]
    conv_rhs => rw [← List.take_of_length_le (Nat.le_pred_of_lt hname.length)]
    rfl
  have hcmdlineLine : ∀ a, updateHeaderEntry a (configLine "cmdline" img.header.cmdlineString) =
      .ok { a with header := { a.header with
        cmdline := asciiz BOOT_ARGS_SIZE img.header.cmdlineString } } := fun a => by
    rw [updateHeaderEntry_configLine (by decide) hcmdline.newline (zero_notMem_cString _)
      hcmdline.blank]
    exact if_neg (Nat.not_le.mpr hcmdline.length)
  simp only [updateEntries, configLines, List.foldlM_cons, List.foldlM_nil, hboot, hpage, hkernel,
    hramdisk, hsecond, htags, hnameLine, hcmdlineLine, bind, Except.bind]
  rfl

/-- **The config file** of an image with plain names, read by `--create`. -/
theorem updateHeader_writeBootimgConfig {fs : Files} {args : Abootimg} {fname : String}
    (hf : args.config_fname = some fname) (htext : fs fname = some (writeBootimgConfig img))
    (hblk : args.is_blkdev = false) (hname : Plain BOOT_NAME_SIZE img.header.nameString)
    (hcmdline : Plain BOOT_ARGS_SIZE img.header.cmdlineString) :
    updateHeader fs [] args = .ok (configured img args) := by
  have hword : ∀ {key : String} (n : UInt32), Key key →
      ∃ b, configWord key n = b ++ [10] ∧ (10 : UInt8) ∉ b := fun n hk =>
    configLine_eq hk fun h => absurd (mem_word h) (by decide)
  have hlines : getlines (writeBootimgConfig img) = configLines img := by
    refine getlines_flatten fun l hl => ?_
    simp only [configLines, List.mem_cons, List.not_mem_nil, or_false] at hl
    rcases hl with rfl | rfl | rfl | rfl | rfl | rfl | rfl | rfl
    · exact hword _ (by decide)
    · exact hword _ (by decide)
    · exact hword _ (by decide)
    · exact hword _ (by decide)
    · exact hword _ (by decide)
    · exact hword _ (by decide)
    · exact configLine_eq (by decide) hname.newline
    · exact configLine_eq (by decide) hcmdline.newline
  unfold updateHeader
  simp only [hf, htext, hlines, updateEntries_configLines hblk hname hcmdline, bind, Except.bind]
  rfl

/-- The strings of the configured header are those of the image. -/
theorem configured_strings (args : Abootimg) (hname : Plain BOOT_NAME_SIZE img.header.nameString)
    (hcmdline : Plain BOOT_ARGS_SIZE img.header.cmdlineString) :
    (configured img args).header.nameString = img.header.nameString ∧
      (configured img args).header.cmdlineString = img.header.cmdlineString :=
  ⟨(cString_resize hname.length _).trans (cString_eq (zero_notMem_cString _)),
    (cString_resize hcmdline.length _).trans (cString_eq (zero_notMem_cString _))⟩

end

end AmlogicToolkit.Boot
