import AmlogicToolkit.Lib.Dialogue
import AmlogicToolkit.Boot.Programs

/-!
# What the flashing script takes from its shell

`aml-flash` is a script of `bash`: expansions of variables, word splitting, and the pipes through
`grep`, `awk` and `sed` that take texts apart. A text has no characters that are special to the
shell, and words are split at blanks, tabs and line ends. An arithmetic expansion of two numbers is
calculated in 64 bits; what the shell makes of any other expression is left open (`Host.arith`).
-/

namespace AmlogicToolkit.Flash

open Boot

/-! ## Words -/

/-- The characters at which an expansion without quotes is split. -/
def isBlank (c : Char) : Bool := c = ' ' || c = '\t' || c = '\n'

/-- The words of a text are what stands between blanks, tabs and ends of lines. -/
def wordsOf (text : List Char) : List (List Char) := (text.splitOnP isBlank).filter (· ≠ [])

/-- An expansion without quotes is split into words. -/
def words (text : String) : List String := (wordsOf text.toList).map String.ofList

/-- `echo $text` without quotes: the words of the text with one blank between them. -/
def echo (text : String) : String := " ".intercalate (words text)

/-! ## Filters -/

/-- The `pattern`, which has no special characters, stands in the line. -/
def isIn (pattern line : List Char) : Bool := line.tails.any pattern.isPrefixOf

/-- `grep -q pattern` on one line. -/
def grep (pattern line : String) : Bool := isIn pattern.toList line.toList

/-- `grep -iq pattern` on one line. -/
def grepIgnoringCase (pattern line : String) : Bool :=
  isIn (pattern.toList.map Char.toLower) (line.toList.map Char.toLower)

/-- The field number `n` of a line that is taken apart at each `sep`: `awk -F` with `print $n`. -/
def fieldAt (sep : Char) (n : ℕ) (line : String) : String :=
  String.ofList ((line.toList.splitOnP (· = sep)).getD (n - 1) [])

/-- A text without the places where `del` stands. The first `skip` characters are the rest of such a
place. -/
def gsubAt (del : List Char) : ℕ → List Char → List Char
  | _, [] => []
  | skip + 1, _ :: cs => gsubAt del skip cs
  | 0, c :: cs =>
    if del.isPrefixOf (c :: cs) then gsubAt del (del.length - 1) cs else c :: gsubAt del 0 cs

/-- `gsub(del,"",..)`: every occurrence of the text is removed. -/
def gsub (del text : List Char) : List Char := gsubAt del 0 text

/-- The lines of a file that are not empty. -/
def lines (file : List UInt8) : List (List Char) :=
  ((file.map fun b => Char.ofNat b.toNat).splitOnP (· = '\n')).filter (· ≠ [])

/-- The field number `n` of each line in which `pattern` stands, without the texts of `dels`:
`awk '/pattern/{gsub(del,"",$n); ..; print $n}'`. -/
def awk (pattern : String) (dels : List String) (n : ℕ) (lines : List (List Char)) :
    List (List Char) :=
  (lines.filter (isIn pattern.toList)).map fun line =>
    dels.foldl (fun text del => gsub del.toList text) ((wordsOf line).getD (n - 1) [])

/-- What the shell keeps of the lines that a command in backquotes prints. -/
def backquote (out : List (List Char)) : String :=
  String.ofList (['\n'].intercalate (out.reverse.dropWhile (· = [])).reverse)

/-! ## Names of variables -/

/-- A name that a variable can have. -/
def isIdentifier (name : String) : Bool :=
  match name.toList with
  | [] => false
  | c :: cs => (c.isAlpha || c = '_') && cs.all fun c => c.isAlphanum || c = '_'

/-- The second `sed` of a name: `_file` for `-file`, in the first place only. -/
def sedFile : List Char → List Char
  | [] => []
  | c :: cs =>
    if "-file".toList <+: c :: cs then "_file".toList ++ (c :: cs).drop 5 else c :: sedFile cs

/-! ## Numbers -/

/-- The characters that the shell takes together as one number when a digit stands in front. -/
def isNumberChar (c : Char) : Bool := c.isAlphanum || c = '#' || c = '@' || c = '_'

/-- The text is one number of the shell: it starts with a digit, and has only characters of numbers.
-/
def isNumber (text : List Char) : Bool := (text.headD ' ').isDigit && text.all isNumberChar

/-- The value of a digit. The letters are one range in a base up to 36, and two ranges above it. -/
def digitOf (base : ℕ) (c : Char) : ℕ :=
  if c.isDigit then c.toNat - '0'.toNat
  else if c.isLower then c.toNat - 'a'.toNat + 10
  else if c.isUpper then c.toNat - 'A'.toNat + if base ≤ 36 then 10 else 36
  else if c = '@' then 62
  else 63

/-- The rest of a number behind the digits of `val`. The digits in front of a `#` are the base, unless
it is `known`. -/
def numberAt (base : ℕ) (known : Bool) (val : BitVec 64) : List Char → Option (BitVec 64)
  | [] => some val
  | c :: cs =>
    if c = '#' then
      if known ∨ val.toInt < 2 ∨ 64 < val.toInt ∨ cs.headD '#' = '#' then none
      else numberAt val.toNat true 0 cs
    -- "value too great for base"
    else if base ≤ digitOf base c then none
    else numberAt base known
      (val * BitVec.ofNat 64 base + BitVec.ofNat 64 (digitOf base c)) cs

/-- The value of a text that is one number; `none` is an error. -/
def numberOf : List Char → Option (BitVec 64)
  | '0' :: c :: cs =>
    if c = 'x' ∨ c = 'X' then numberAt 16 true 0 cs else numberAt 8 true 0 (c :: cs)
  | text => numberAt 10 false 0 text

/-- Hexadecimal digits, behind others that make the number `n`. -/
def hexNumber (n : ℕ) (digits : List Char) : ℕ := digits.foldl (fun n c => n * 16 + digitOf 16 c) n

/-- **Hexadecimal digits** are read as the number that they are, in 64 bits. -/
theorem numberAt_hex {digits : List Char} (h : ∀ c ∈ digits, digitOf 16 c < 16) (n : ℕ) :
    numberAt 16 true (BitVec.ofNat 64 n) digits = some (BitVec.ofNat 64 (hexNumber n digits)) := by
  induction digits generalizing n with
  | nil => rfl
  | cons c cs ih =>
    obtain ⟨hc, hcs⟩ := List.forall_mem_cons.mp h
    have hne : c ≠ '#' := by
      rintro rfl
      exact absurd hc (by decide)
    have hval : BitVec.ofNat 64 n * BitVec.ofNat 64 16 + BitVec.ofNat 64 (digitOf 16 c) =
        BitVec.ofNat 64 (n * 16 + digitOf 16 c) := by
      rw [BitVec.ofNat_add, BitVec.ofNat_mul]
    rw [numberAt, if_neg hne, if_neg (Nat.not_le.mpr hc), hval, ih hcs]
    rfl

/-- A digit that is none in base 16 is an error. -/
theorem numberAt_error {digits : List Char} (h : ∃ c ∈ digits, 16 ≤ digitOf 16 c)
    (val : BitVec 64) : numberAt 16 true val digits = none := by
  induction digits generalizing val with
  | nil =>
    obtain ⟨c, hc, -⟩ := h
    cases hc
  | cons c cs ih =>
    rw [numberAt]
    by_cases hne : c = '#'
    · rw [if_pos hne, if_pos (Or.inl rfl)]
    · rw [if_neg hne]
      by_cases hle : 16 ≤ digitOf 16 c
      · rw [if_pos hle]
      · rw [if_neg hle]
        obtain ⟨d, hd, hbad⟩ := h
        refine ih ⟨d, (List.mem_cons.mp hd).resolve_left ?_, hbad⟩ _
        rintro rfl
        exact hle hbad

/-! ## The host -/

/-- What the script is started with. -/
structure Host where
  /-- The files that are there. -/
  files : Files
  /-- `TOOL_PATH`, the directory of the script. -/
  tool_path : String
  /-- The working directory. -/
  cwd : String
  /-- `HOME`. -/
  home : String
  /-- What the shell makes of an arithmetic expression that is not of two numbers: `none` is an
  error in it. -/
  arith : String → Option ℤ
  /-- The lines that are typed when the script asks. -/
  typed : List String

/-- `$((a op b))`, with the blanks around `op`. An error in the expression gives up the command that it stands in. -/
def Host.expand (host : Host) (a op b : String) (apply : BitVec 64 → BitVec 64 → BitVec 64) :
    Option ℤ :=
  if isNumber a.toList ∧ isNumber b.toList then do
    return (apply (← numberOf a.toList) (← numberOf b.toList)).toInt
  else host.arith (a ++ op ++ b)

/-- How the script stops before its end. -/
inductive Stop where
  | exit (code : ℕ)
  /-- It still waits for the device, or for an answer that is typed. -/
  | waits
  deriving DecidableEq

/-- `check_file`, with the words that it is called with. -/
def checkFile (files : Files) (args : List String) : Except Stop Unit :=
  if (files (args.headD "")).isSome then .ok () else .error (.exit 1)

/-! ## The device -/

/-- A part of the script that runs `tools/update`: a command is the words that it is started with,
an answer the text that it prints. -/
abbrev Script (α : Type) := Dialogue (List String) String Stop α

/-- The words behind the command: `run_update_return` builds a text and evaluates it, so that an
argument without quotes there is split again. -/
def updateArgs (cmd : String) (args : List String) : List String :=
  args.flatMap fun arg =>
    if ' ' ∈ arg.toList ∨ cmd = "bulkcmd" ∨ cmd = "tplcmd" then ["     " ++ arg] else words arg

/-- `run_update_return`: `update_return`, as every use of it reads it. -/
def runUpdateReturn (cmd : String) (args : List String) : Script String := do
  return echo (← Dialogue.send (cmd :: updateArgs cmd args))

/-- `run_update`: whether the answer of the tool is an error. -/
def runUpdate (cmd : String) (args : List String) : Script Bool := do
  return grep "ERR" (← runUpdateReturn cmd args)

/-- `run_update_assert`: the script exits when the answer of the tool is an error. -/
def runUpdateAssert (cmd : String) (args : List String) : Script Unit := do
  if ← runUpdate cmd args then Dialogue.stop (.exit 1)

end AmlogicToolkit.Flash
