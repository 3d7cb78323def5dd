import AmlogicToolkit.Boot.ConfigText
import AmlogicToolkit.Boot.Programs

/-!
# The entries of a config

What a line of a config means, `blanks key blanks = blanks value` (`Entry`), and what the eight keys
of the README set (`ConfigKey.set`). The code compares the key of `cmdline` as a whole and only the
front of the other seven, so that it takes every key that goes on behind one of them
(`updateHeaderEntry_ok_iff`).
-/

namespace AmlogicToolkit.Boot

open Bytes

/-- The seven keys that `update_header_entry` knows. -/
inductive ConfigKey where
  | bootsize
  | pagesize
  | kerneladdr
  | ramdiskaddr
  | secondaddr
  | tagsaddr
  | name
  | cmdline
  deriving DecidableEq

/-- The text that a key is compared with. -/
def ConfigKey.text : ConfigKey → List UInt8
  | .bootsize => bytesOf "bootsize"
  | .pagesize => bytesOf "pagesize"
  | .kerneladdr => bytesOf "kerneladdr"
  | .ramdiskaddr => bytesOf "ramdiskaddr"
  | .secondaddr => bytesOf "secondaddr"
  | .tagsaddr => bytesOf "tagsaddr"
  | .name => bytesOf "name"
  | .cmdline => bytesOf "cmdline"

/-- A value as a number: `strtoul` in base 0, reduced to 32 bits. -/
def configNumber (value : List UInt8) : UInt32 := UInt32.ofNat (strtoul value)

/-- **What a key sets**: its own field, and no other. -/
def ConfigKey.set (img : Abootimg) (value : List UInt8) : ConfigKey → Abootimg
  | .bootsize => { img with size := configNumber value }
  | .pagesize => { img with header := { img.header with page_size := configNumber value } }
  | .kerneladdr => { img with header := { img.header with kernel_addr := configNumber value } }
  | .ramdiskaddr => { img with header := { img.header with ramdisk_addr := configNumber value } }
  | .secondaddr => { img with header := { img.header with second_addr := configNumber value } }
  | .tagsaddr => { img with header := { img.header with tags_addr := configNumber value } }
  | .name => { img with header := { img.header with
      name := asciiz BOOT_NAME_SIZE (value.take (BOOT_NAME_SIZE - 1)) } }
  | .cmdline => { img with header := { img.header with cmdline := asciiz BOOT_ARGS_SIZE value } }

/-- A value that a key does not take: a cmdline that is too long, or another size for a block
device. -/
def ConfigKey.refuses (img : Abootimg) (value : List UInt8) : ConfigKey → Prop
  | .cmdline => BOOT_ARGS_SIZE ≤ value.length
  | .bootsize => img.is_blkdev ∧ img.size ≠ configNumber value
  | _ => False

/-- Whether the code takes a token for a key. -/
def ConfigKey.takes (token : List UInt8) : ConfigKey → Prop
  | .cmdline => token = bytesOf "cmdline"
  | key => key.text <+: token

/-- The text of a line: the C string up to its newline. -/
def lineText (line : List UInt8) : List UInt8 := (cString line).takeWhile (· ≠ 10)

/-- **The form of an entry**: a key without blanks and equal signs, an equal sign, and a value that
does not start with a blank, with blanks around them. -/
structure Entry (line key value : List UInt8) : Prop where
  /-- The parts. -/
  parts : ∃ b1 b2 b3, (∀ c ∈ b1 ++ b2 ++ b3, isBlank c) ∧
    lineText line = b1 ++ (key ++ (b2 ++ 61 :: (b3 ++ value)))
  /-- The key is one word. -/
  key : ∀ c ∈ key, (isBlank c || c == 61) = false
  /-- The blanks before the value are not of the value. -/
  value : ∀ c ∈ value.head?, isBlank c = false

section

variable {img img' : Abootimg} {line key value token : List UInt8} {k k' : ConfigKey}

/-! ## Keys -/

/-- No key is the front of another. -/
theorem ConfigKey.eq_of_text (h : k.text <+: k'.text) : k = k' := by
  revert h
  cases k <;> cases k' <;> decide

/-- A token that the code takes for a key starts with the key. -/
theorem ConfigKey.takes.starts (h : k.takes token) : k.text <+: token := by
  cases k
  case cmdline => exact h ▸ List.prefix_rfl
  all_goals exact h

/-- The code takes a token for at most one key, so that the order of its comparisons does not
matter. -/
theorem ConfigKey.takes.unique (h : k.takes token) (h' : k'.text <+: token) : k = k' := by
  rcases List.prefix_or_prefix_of_prefix h.starts h' with hk | hk
  · exact ConfigKey.eq_of_text hk
  · exact (ConfigKey.eq_of_text hk).symm

/-- **The update of a token** that the code takes for a key: the key sets its field, unless it
refuses the value. -/
theorem updateToken_ok_iff :
    updateToken img token value = .ok img' ↔
      ∃ k : ConfigKey, k.takes token ∧ ¬ k.refuses img value ∧ img' = k.set img value := by
  unfold updateToken
  extract_lets valuenum starts
  have hstarts : ∀ (k : ConfigKey) {text : String}, k.text = bytesOf text →
      (starts text = true ↔ k.text <+: token) := by
    intro k text ht
    rw [ht]
    exact List.isPrefixOf_iff_prefix
  constructor
  · intro h
    split_ifs at h with h1 h2 h3 h4 h5 h6 h7 h8 h9 h10 <;> cases h
    · exact ⟨.cmdline, h1, h2, rfl⟩
    · exact ⟨.name, (hstarts .name rfl).mp h3, id, rfl⟩
    · exact ⟨.bootsize, (hstarts .bootsize rfl).mp h4, h5, rfl⟩
    · exact ⟨.pagesize, (hstarts .pagesize rfl).mp h6, id, rfl⟩
    · exact ⟨.kerneladdr, (hstarts .kerneladdr rfl).mp h7, id, rfl⟩
    · exact ⟨.ramdiskaddr, (hstarts .ramdiskaddr rfl).mp h8, id, rfl⟩
    · exact ⟨.secondaddr, (hstarts .secondaddr rfl).mp h9, id, rfl⟩
    · exact ⟨.tagsaddr, (hstarts .tagsaddr rfl).mp h10, id, rfl⟩
  · rintro ⟨k, htakes, hrefuses, rfl⟩
    -- The comparison that holds is that of the key.
    have hkey : ∀ (k' : ConfigKey) {text : String}, k'.text = bytesOf text → starts text = true →
        k = k' := fun k' text ht h => htakes.unique ((hstarts k' ht).mp h)
    split_ifs with h1 h2 h3 h4 h5 h6 h7 h8 h9 h10
    · obtain rfl : k = .cmdline := htakes.unique (h1 ▸ List.prefix_rfl)
      exact absurd h2 hrefuses
    · obtain rfl : k = .cmdline := htakes.unique (h1 ▸ List.prefix_rfl)
      rfl
    · obtain rfl := hkey .name rfl h3
      rfl
    · obtain rfl := hkey .bootsize rfl h4
      exact absurd h5 hrefuses
    · obtain rfl := hkey .bootsize rfl h4
      rfl
    · obtain rfl := hkey .pagesize rfl h6
      rfl
    · obtain rfl := hkey .kerneladdr rfl h7
      rfl
    · obtain rfl := hkey .ramdiskaddr rfl h8
      rfl
    · obtain rfl := hkey .secondaddr rfl h9
      rfl
    · obtain rfl := hkey .tagsaddr rfl h10
      rfl
    · -- No comparison holds, so no key is taken.
      cases k
      case cmdline => exact absurd htakes h1
      case name => exact absurd ((hstarts .name rfl).mpr htakes) h3
      case bootsize => exact absurd ((hstarts .bootsize rfl).mpr htakes) h4
      case pagesize => exact absurd ((hstarts .pagesize rfl).mpr htakes) h6
      case kerneladdr => exact absurd ((hstarts .kerneladdr rfl).mpr htakes) h7
      case ramdiskaddr => exact absurd ((hstarts .ramdiskaddr rfl).mpr htakes) h8
      case secondaddr => exact absurd ((hstarts .secondaddr rfl).mpr htakes) h9
      case tagsaddr => exact absurd ((hstarts .tagsaddr rfl).mpr htakes) h10

/-! ## Lines -/

/-- **The parts of an entry** are where the code looks for them. -/
theorem Entry.split (h : Entry line key value) :
    ((lineText line).dropWhile isBlank).takeWhile (fun c => !(isBlank c || c == 61)) = key ∧
      ∃ rest, (((lineText line).dropWhile isBlank).drop key.length).dropWhile isBlank = 61 :: rest ∧
        rest.dropWhile isBlank = value := by
  obtain ⟨b1, b2, b3, hblank, htext⟩ := h.parts
  have hb : ∀ b ∈ [b1, b2, b3], ∀ c ∈ b, isBlank c = true := by
    intro b hb c hc
    apply hblank c
    simp only [List.mem_cons, List.not_mem_nil, or_false] at hb
    rcases hb with rfl | rfl | rfl <;> simp [hc]
  have hequals : ∀ b, (∀ c ∈ b, isBlank c = true) → ∀ rest : List UInt8,
      (b ++ 61 :: rest).dropWhile isBlank = 61 :: rest := by
    intro b hb rest
    rw [List.dropWhile_append_of_pos hb, List.dropWhile_cons_of_neg (by decide)]
  have hvalue : (b3 ++ value).dropWhile isBlank = value := by
    rw [List.dropWhile_append_of_pos (hb b3 (by simp)), dropWhile_isBlank h.value]
  rw [htext, List.dropWhile_append_of_pos (hb b1 (by simp))]
  cases key with
  | nil =>
    -- Without a key, the blanks before the equal sign are skipped with those in front.
    rw [List.nil_append, hequals b2 (hb b2 (by simp))]
    exact ⟨rfl, _, rfl, hvalue⟩
  | cons c key =>
    have hc : isBlank c = false := by
      have := h.key c List.mem_cons_self
      rw [Bool.or_eq_false_iff] at this
      exact this.1
    have hword : ∀ d ∈ c :: key, (fun c => !(isBlank c || c == 61)) d = true := fun d hd => by
      simp only [h.key d hd, Bool.not_false]
    have hskip : (c :: key ++ (b2 ++ 61 :: (b3 ++ value))).dropWhile isBlank =
        c :: key ++ (b2 ++ 61 :: (b3 ++ value)) := by
      rw [List.cons_append, List.dropWhile_cons_of_neg (by simp [hc])]
    have hstop : (b2 ++ 61 :: (b3 ++ value)).takeWhile (fun c => !(isBlank c || c == 61)) = [] := by
      cases b2 with
      | nil => exact List.takeWhile_cons_of_neg (by decide)
      | cons d b2 =>
        have hd := hb (d :: b2) (by simp) d List.mem_cons_self
        exact List.takeWhile_cons_of_neg (by simp [hd])
    rw [hskip, List.takeWhile_append_of_pos hword, hstop, List.append_nil, List.drop_left,
      hequals b2 (hb b2 (by simp))]
    exact ⟨rfl, _, rfl, hvalue⟩

/-- A line is an entry in one way. -/
theorem Entry.unique {key' value' : List UInt8} (h : Entry line key value)
    (h' : Entry line key' value') : key = key' ∧ value = value' := by
  obtain ⟨h1, rest, h2, h3⟩ := h.split
  obtain ⟨h1', rest', h2', h3'⟩ := h'.split
  obtain rfl : key = key' := h1.symm.trans h1'
  obtain rfl : rest = rest' := List.tail_eq_of_cons_eq (h2.symm.trans h2')
  exact ⟨rfl, h3.symm.trans h3'⟩

/-- **An entry** is an update of its key. -/
theorem Entry.update (h : Entry line key value) :
    updateHeaderEntry img line = updateToken img key value := by
  obtain ⟨h1, rest, h2, h3⟩ := h.split
  unfold updateHeaderEntry
  unfold lineText at h1 h2
  simp only [h1, h2, h3]

/-- A line that is taken is an entry. -/
theorem entry_of_ok (h : updateHeaderEntry img line = .ok img') :
    ∃ key value, Entry line key value ∧ updateToken img key value = .ok img' := by
  unfold updateHeaderEntry at h
  extract_lets cmd p token at h
  split at h
  · next rest hrest =>
    refine ⟨token, _, ⟨⟨cmd.takeWhile isBlank, (p.drop token.length).takeWhile isBlank,
      rest.takeWhile isBlank, fun c hc => ?_, ?_⟩, fun c hc => ?_, head?_dropWhile_isBlank rest⟩, h⟩
    · simp only [List.mem_append] at hc
      rcases hc with (hc | hc) | hc <;> exact List.mem_takeWhile_imp hc
    · -- The token is what stands before the first blank or `=`, so the rest follows it.
      have hword : token ++ p.drop token.length = p := by
        have htake : token = p.takeWhile (fun c => !(isBlank c || c == 61)) := rfl
        have hdrop : p.drop token.length = p.dropWhile (fun c => !(isBlank c || c == 61)) := by
          nth_rewrite 1 [← List.takeWhile_append_dropWhile (p := fun c => !(isBlank c || c == 61))
            (l := p)]
          exact List.drop_left
        rw [hdrop, htake, List.takeWhile_append_dropWhile]
      calc lineText line = cmd.takeWhile isBlank ++ p := List.takeWhile_append_dropWhile.symm
        _ = cmd.takeWhile isBlank ++ (token ++ p.drop token.length) := by rw [hword]
        _ = cmd.takeWhile isBlank ++ (token ++ ((p.drop token.length).takeWhile isBlank ++
              61 :: (rest.takeWhile isBlank ++ rest.dropWhile isBlank))) := by
            rw [List.takeWhile_append_dropWhile, ← hrest, List.takeWhile_append_dropWhile]
    · have := List.mem_takeWhile_imp hc
      simpa using this
  · cases h

/-- **A line is taken** exactly when it is an entry whose key the code takes for a known one that
does not refuse the value. -/
theorem updateHeaderEntry_ok_iff :
    updateHeaderEntry img line = .ok img' ↔
      ∃ key value, Entry line key value ∧
        ∃ k : ConfigKey, k.takes key ∧ ¬ k.refuses img value ∧ img' = k.set img value := by
  constructor
  · intro h
    obtain ⟨key, value, hentry, hu⟩ := entry_of_ok h
    exact ⟨key, value, hentry, updateToken_ok_iff.mp hu⟩
  · rintro ⟨key, value, hentry, hk⟩
    rw [hentry.update]
    exact updateToken_ok_iff.mpr hk

/-! ## Named fields -/

/-- A line that is taken is an entry with one of the known keys, and sets the field of that key to
the value. -/
def SetsNamedField (img : Abootimg) (line : List UInt8) : Prop :=
  ∀ img', updateHeaderEntry img line = .ok img' →
    ∃ (k : ConfigKey) (value : List UInt8), Entry line k.text value ∧ img' = k.set img value

/-- A key that goes on behind one of the seven known keys of which the code compares the front. -/
def ConfigKey.Extended (key : List UInt8) (k : ConfigKey) : Prop :=
  k ≠ .cmdline ∧ k.text <+: key ∧ key ≠ k.text

/-- An entry whose name is only a prefix of the key is one that the code takes. -/
theorem ConfigKey.Extended.takes (h : k.Extended key) : k.takes key := by
  cases k
  case cmdline => exact absurd rfl h.1
  all_goals exact h.2.1

/-- What the code takes for a key is the key, or goes on behind it. -/
theorem ConfigKey.takes.cases (h : k.takes key) : key = k.text ∨ k.Extended key := by
  by_cases heq : key = k.text
  · exact Or.inl heq
  · refine Or.inr ⟨?_, h.starts, heq⟩
    rintro rfl
    exact heq h

/-- An entry with an extended key sets a field that it does not name. -/
theorem not_setsNamedField (hentry : Entry line key value) (hext : k.Extended key)
    (hrefuses : ¬ k.refuses img value) : ¬ SetsNamedField img line := by
  intro h
  obtain ⟨k', value', hentry', -⟩ := h (k.set img value)
    (updateHeaderEntry_ok_iff.mpr ⟨key, value, hentry, k, hext.takes, hrefuses, rfl⟩)
  obtain ⟨hkey, -⟩ := hentry.unique hentry'
  have hk : k = k' := ConfigKey.eq_of_text (hkey ▸ hext.2.1)
  exact hext.2.2 (hk ▸ hkey)

/-- **A line sets exactly the field that it names**, unless its key goes on behind a known one. -/
theorem setsNamedField_iff : SetsNamedField img line ↔
    ∀ (k : ConfigKey) (key value : List UInt8), Entry line key value → k.Extended key →
      k.refuses img value := by
  constructor
  · intro h k key value hentry hext
    by_contra hrefuses
    exact not_setsNamedField hentry hext hrefuses h
  · intro h img' hok
    obtain ⟨key, value, hentry, k, htakes, hrefuses, rfl⟩ := updateHeaderEntry_ok_iff.mp hok
    rcases htakes.cases with rfl | hext
    · exact ⟨k, value, hentry, rfl⟩
    · exact absurd (h k key value hentry hext) hrefuses

/-- A mistyped name is taken for the name. -/
theorem names_is_taken_for_name : ¬ SetsNamedField newBootimg (bytesOf "names = foo\n") := by
  have hentry : Entry (bytesOf "names = foo\n") (bytesOf "names") (bytesOf "foo") :=
    ⟨⟨[], [32], [32], List.all_eq_true.mp rfl, rfl⟩, by decide +kernel, by decide +kernel⟩
  exact not_setsNamedField (k := .name) hentry ⟨by decide, by decide, by decide⟩ id

end

end AmlogicToolkit.Boot
