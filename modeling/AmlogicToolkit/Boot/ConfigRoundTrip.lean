import AmlogicToolkit.Boot.ConfigText
import AmlogicToolkit.Boot.Extract

/-!
# The round trip of the config file

The config file of an image, read into the header of `new_bootimg`. The six numbers always survive.
The name and the cmdline survive exactly when they end inside their fields, have no newline and do
not start with a blank (`configRoundTrips_iff`): the text has no quotes, the writer prints a string
past the end of its field, and the reader cuts a line at its newline and skips blanks.
-/

namespace AmlogicToolkit.Boot

open Bytes Stdio

/-- What `update_header` makes of the config file of an image, in the header of `new_bootimg`. -/
def rereadConfig (img : Abootimg) : Except Stop Abootimg :=
  updateHeader (fun _ => some (writeBootimgConfig img)) [] newBootimg

/-- What the config file tells about an image, and another image has. -/
structure Restores (img img' : Abootimg) : Prop where
  /-- The size of the image. -/
  size : img'.size = img.size
  /-- The size of a page. -/
  page_size : img'.header.page_size = img.header.page_size
  /-- The address of the kernel. -/
  kernel_addr : img'.header.kernel_addr = img.header.kernel_addr
  /-- The address of the ramdisk. -/
  ramdisk_addr : img'.header.ramdisk_addr = img.header.ramdisk_addr
  /-- The address of the second stage. -/
  second_addr : img'.header.second_addr = img.header.second_addr
  /-- The address of the tags. -/
  tags_addr : img'.header.tags_addr = img.header.tags_addr
  /-- The name, up to its first zero or the end of its field. -/
  name : cString img'.header.name.toList = cString img.header.name.toList
  /-- The cmdline, up to its first zero or the end of its field. -/
  cmdline : cString img'.header.cmdline.toList = cString img.header.cmdline.toList

/-- The config file of an image is read without an error, and restores what it tells. -/
def ConfigRoundTrips (img : Abootimg) : Prop :=
  ∃ img', rereadConfig img = .ok img' ∧ Restores img img'

section

variable {img img' : Abootimg} {n : ℕ} {field : List.Vector UInt8 n} {rest : List UInt8}

/-- A string that ends inside its field does not go on behind it. -/
theorem cString_append (h : (cString field.toList).length < n) :
    cString (field.toList ++ rest) = cString field.toList := by
  have hlen : field.toList.length = n := field.toList_length
  rw [cString, cString, List.takeWhile_append]
  split_ifs with hall
  · rw [cString, hall, hlen] at h
    exact absurd h (Nat.lt_irrefl n)
  · rfl

/-- The name and the command line of a fresh image are plain. -/
theorem newBootimg_plain : PlainNames newBootimg.header :=
  ⟨⟨[], by decide +kernel, by decide, plain_nil (by decide)⟩,
    ⟨[], by decide +kernel, by decide, plain_nil (by decide)⟩⟩

/-- **What is read back is plain**: strings that a line can carry into their fields. -/
theorem plain_of_reread (h : rereadConfig img = .ok img') :
    Plain BOOT_NAME_SIZE (cString img'.header.name.toList) ∧
      Plain BOOT_ARGS_SIZE (cString img'.header.cmdline.toList) := by
  have hp : PlainNames img'.header := updateHeader_invariant
    (P := fun img => PlainNames img.header) (fun _ _ _ h hl => updateHeaderEntry_plain h hl)
    newBootimg_plain h
  constructor
  · have hname := hp.1.plain []
    rwa [List.append_nil] at hname
  · have hcmdline := hp.2.plain []
    rwa [List.append_nil] at hcmdline

/-- Where the configuration comes back, the name and the command line are plain text that fits. -/
theorem plain_of_roundTrips (h : ConfigRoundTrips img) :
    Plain BOOT_NAME_SIZE (cString img.header.name.toList) ∧
      Plain BOOT_ARGS_SIZE (cString img.header.cmdline.toList) := by
  obtain ⟨img', hread, hrest⟩ := h
  rw [← hrest.name, ← hrest.cmdline]
  exact plain_of_reread hread

/-- **The config file round trips** exactly when the name and the cmdline end inside their fields,
have no newline and do not start with a blank. -/
theorem configRoundTrips_iff : ConfigRoundTrips img ↔
    Plain BOOT_NAME_SIZE (cString img.header.name.toList) ∧
      Plain BOOT_ARGS_SIZE (cString img.header.cmdline.toList) := by
  constructor
  · exact plain_of_roundTrips
  · rintro ⟨hname, hcmdline⟩
    -- What is printed are the strings in the fields.
    have hprint1 : img.header.nameString = cString img.header.name.toList :=
      cString_append hname.length
    have hprint2 : img.header.cmdlineString = cString img.header.cmdline.toList :=
      cString_append hcmdline.length
    have hread : rereadConfig img = .ok (configured img newBootimg) :=
      updateHeader_writeBootimgConfig rfl rfl rfl (hprint1 ▸ hname) (hprint2 ▸ hcmdline)
    obtain ⟨hstring1, hstring2⟩ := configured_strings newBootimg (hprint1 ▸ hname)
      (hprint2 ▸ hcmdline)
    have hplain := plain_of_reread hread
    refine ⟨_, hread, rfl, rfl, rfl, rfl, rfl, rfl, ?_, ?_⟩
    · calc cString (configured img newBootimg).header.name.toList
          = (configured img newBootimg).header.nameString := (cString_append hplain.1.length).symm
        _ = cString img.header.name.toList := hstring1.trans hprint1
    · calc cString (configured img newBootimg).header.cmdline.toList
          = (configured img newBootimg).header.cmdlineString :=
            (cString_append hplain.2.length).symm
        _ = cString img.header.cmdline.toList := hstring2.trans hprint2

/-- A header of an image of three pages with a name that fills its field. -/
def fullNameHeader : BootImgHdr :=
  { newBootimg.header with
    kernel_size := 1
    ramdisk_size := 1
    name := ⟨bytesOf "0123456789abcdef", by decide⟩ }

/-- A name that fills its field does not survive. -/
theorem full_name_is_lost : ∃ file s img,
    readHeader newBootimg (Stream.ofFile file) = .ok (img, s) ∧ ¬ ConfigRoundTrips img := by
  have hlen : (fullNameHeader.encode ++ List.replicate 5536 0).length = 6144 := by
    rw [List.length_append, fullNameHeader.length_encode, List.length_replicate]
    rfl
  have hcheck : checkBootImgHeader (newBootimg.read (fullNameHeader.encode ++
      List.replicate 5536 0) fullNameHeader) = none := by
    rw [checkBootImgHeader_none]
    refine ⟨rfl, by decide, by decide, by decide, ?_⟩
    change _ ≤ UInt32.ofNat _
    rw [hlen]
    decide
  obtain ⟨s, hread⟩ := readHeader_encode newBootimg hcheck
  refine ⟨_, s, _, hread, fun h => ?_⟩
  exact absurd (plain_of_roundTrips h).1.length (by decide)

end

end AmlogicToolkit.Boot
