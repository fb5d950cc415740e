import Mathlib
import Mizu.Lsm.Db

/-!
# Names of the files of a database

`db/filename.cc`, and the functions of `db/db_files.cc` that list the directory. A name is the last
component of a path; `Disk` has numbers where the directory has names.
-/

namespace Mizu.Lsm

abbrev FileName := List Char

inductive NumberedFileType
  | wal
  | sstable
  | sstableTemporary
deriving DecidableEq, Repr

/-! ### Names -/

/-- The number, padded to six digits, and the suffix of the type. -/
def numberedName (number : ℕ) (suffix : String) : FileName :=
  let digits := Nat.toDigits 10 number
  let digits :=
    if digits.length < 6 then List.replicate (6 - digits.length) '0' ++ digits else digits
  digits ++ suffix.toList

def lockFileName : FileName := "LOCK".toList

def manifestFileName : FileName := "MANIFEST".toList

def manifestTemporaryFileName : FileName := "MANIFEST.tmp".toList

def walFileName (number : ℕ) : FileName := numberedName number ".log"

def sstableFileName (number : ℕ) : FileName := numberedName number ".sst"

def sstableTemporaryFileName (number : ℕ) : FileName := numberedName number ".sst.tmp"

/-- The name that is generated for a type and a number. -/
def NumberedFileType.fileName : NumberedFileType → ℕ → FileName
  | .wal => walFileName
  | .sstable => sstableFileName
  | .sstableTemporary => sstableTemporaryFileName

/-! ### Reading a name -/

/-- The loop of `parseNumber`. -/
def parseDigits (parsed : ℕ) : List Char → Option ℕ
  | [] => some parsed
  | character :: text =>
    if character < '0' ∨ character > '9' then none
    else
      let digit := character.toNat - '0'.toNat
      if parsed > (maxFileNumber - digit) / 10 then none
      else parseDigits (parsed * 10 + digit) text

def parseNumber (text : List Char) : Option ℕ :=
  if text = [] then none
  else do
    let parsed ← parseDigits 0 text
    if parsed = 0 then none else some parsed

/-- What stands before a suffix; a name that is only the suffix does not count. -/
def cutSuffix (name suffix : List Char) : Option (List Char) :=
  if name.length ≤ suffix.length ∨ name.drop (name.length - suffix.length) ≠ suffix then none
  else some (name.take (name.length - suffix.length))

def suffixes : List (String × NumberedFileType) :=
  [(".sst.tmp", .sstableTemporary), (".sst", .sstable), (".log", .wal)]

/-- The first suffix that fits decides, also when the rest is not a number. -/
def parseSuffixes (name : FileName) :
    List (String × NumberedFileType) → Option (ℕ × NumberedFileType)
  | [] => none
  | (suffix, type) :: rest =>
    match cutSuffix name suffix.toList with
    | none => parseSuffixes name rest
    | some text => (parseNumber text).map fun number => (number, type)

def parseNumberedFileName (name : FileName) : Option (ℕ × NumberedFileType) :=
  parseSuffixes name suffixes

/-! ### The directory -/

/-- The error of a removal that fails is ignored. -/
def removeFileBestEffort (fails : FileName → Bool) (name : FileName) (files : List FileName) :
    List FileName :=
  if fails name then files else files.filter (· ≠ name)

/-- The loop over the directory. -/
def removeEach (fails obsolete : FileName → Bool) (files : List FileName) : List FileName :=
  files.foldl
    (fun left name => if obsolete name then removeFileBestEffort fails name left else left) files

def obsoleteWal (liveWalNumber : ℕ) (name : FileName) : Bool :=
  match parseNumberedFileName name with
  | some (number, .wal) => !decide (number ≥ liveWalNumber)
  | _ => false

def obsoleteSSTable (live : List ℕ) (name : FileName) : Bool :=
  match parseNumberedFileName name with
  | some (number, .sstable) => !decide (number ∈ live)
  | some (_, .sstableTemporary) => true
  | _ => false

def removeObsoleteWalFilesBestEffort (fails : FileName → Bool) (liveWalNumber : ℕ)
    (files : List FileName) : List FileName :=
  removeEach fails (obsoleteWal liveWalNumber) files

def removeObsoleteSSTableFilesBestEffort (fails : FileName → Bool) (manifest : Manifest)
    (files : List FileName) : List FileName :=
  removeEach fails (obsoleteSSTable manifest.live) files

/-! ### Numbers -/

section Numbers

variable {text : List Char} {number parsed : ℕ}

theorem not_digit_iff {c : Char} : (c < '0' ∨ c > '9') ↔ ¬c.isDigit = true := by
  rw [Char.isDigit_iff_toNat, not_and_or, not_le, not_le]
  rfl

/-- The guard of the loop refuses exactly what leaves the range: digits only add. -/
theorem parseDigits_eq (hparsed : parsed ≤ maxFileNumber) (text : List Char) :
    parseDigits parsed text =
      if (∀ c ∈ text, c.isDigit = true) ∧ Nat.ofDigitChars 10 text parsed ≤ maxFileNumber then
        some (Nat.ofDigitChars 10 text parsed)
      else none := by
  induction text generalizing parsed with
  | nil => simp [parseDigits, hparsed]
  | cons c text ih =>
    rw [parseDigits, Nat.ofDigitChars_cons]
    by_cases hc : c.isDigit = true
    · have hdigit : c.toNat - '0'.toNat ≤ 9 := by
        have := (Char.isDigit_iff_toNat.mp hc).2
        have h9 : '9'.toNat = 57 := rfl
        have h0 : '0'.toNat = 48 := rfl
        omega
      rw [if_neg (not_not_intro hc ∘ not_digit_iff.mp)]
      generalize c.toNat - '0'.toNat = digit at hdigit ⊢
      have hmax : maxFileNumber = 18446744073709551615 := rfl
      by_cases hroom : parsed > (maxFileNumber - digit) / 10
      · have hpow : 1 ≤ 10 ^ text.length := Nat.one_le_pow _ _ (by decide)
        have hge : 10 * parsed + digit ≤ Nat.ofDigitChars 10 text (10 * parsed + digit) := by
          rw [Nat.ofDigitChars_eq_ofDigitChars_zero]
          nlinarith
        rw [if_pos hroom, if_neg]
        omega
      · rw [if_neg hroom, Nat.mul_comm parsed, ih (by omega)]
        simp only [List.forall_mem_cons, hc, true_and]
    · rw [if_pos (not_digit_iff.mpr hc), if_neg]
      exact fun h => hc (h.1 c (List.mem_cons_self ..))

theorem parseNumber_eq_some : parseNumber text = some number ↔
    text ≠ [] ∧ (∀ c ∈ text, c.isDigit = true) ∧ Nat.ofDigitChars 10 text 0 = number ∧
      1 ≤ number ∧ number ≤ maxFileNumber := by
  unfold parseNumber
  rw [parseDigits_eq (Nat.zero_le _)]
  split_ifs with hnil hdigits
  · simp [hnil]
  · simp only [bind, Option.bind]
    split_ifs with hzero
    · simp only [false_iff]
      omega
    · rw [Option.some_inj]
      constructor
      · rintro rfl
        exact ⟨hnil, hdigits.1, rfl, by omega, hdigits.2⟩
      · exact fun h => h.2.2.1
  · simp only [bind, Option.bind, reduceCtorEq, false_iff]
    rintro ⟨-, hall, rfl, -, hle⟩
    exact hdigits ⟨hall, hle⟩

/-- Zeros in front do not change the number. -/
theorem parseNumber_padded (k : ℕ) (hpos : 1 ≤ number) (hle : number ≤ maxFileNumber) :
    parseNumber (List.replicate k '0' ++ Nat.toDigits 10 number) = some number := by
  rw [parseNumber_eq_some]
  refine ⟨?_, ?_, ?_, hpos, hle⟩
  · exact List.append_ne_nil_of_right_ne_nil _ Nat.toDigits_ne_nil
  · intro c hc
    rcases List.mem_append.mp hc with hc | hc
    · rw [List.eq_of_mem_replicate hc]
      rfl
    · exact Nat.isDigit_of_mem_toDigits (by decide) (by decide) hc
  · rw [Nat.ofDigitChars_append, Nat.ofDigitChars_replicate_zero, Nat.mul_zero,
      Nat.ofDigitChars_ten_toDigits]

end Numbers

/-! ### Suffixes -/

section Suffixes

variable {name text suffix : List Char} {number : ℕ} {type : NumberedFileType}

theorem cutSuffix_append (h : text ≠ []) (suffix : List Char) :
    cutSuffix (text ++ suffix) suffix = some text := by
  have hpos := List.length_pos_iff.mpr h
  rw [cutSuffix, List.length_append, Nat.add_sub_cancel, List.drop_left, List.take_left, if_neg]
  rintro (hlen | hne)
  · omega
  · exact hne rfl

theorem cutSuffix_eq_none {other : List Char} (hother : other ≠ []) (hsuffix : suffix ≠ [])
    (h : other.getLast? ≠ suffix.getLast?) : cutSuffix (text ++ other) suffix = none := by
  rw [cutSuffix, if_pos]
  by_contra hfit
  rw [not_or, not_not] at hfit
  apply h
  calc other.getLast? = (text ++ other).getLast? := (List.getLast?_append_of_ne_nil _ hother).symm
    _ = suffix.getLast? := by
      rw [← List.take_append_drop ((text ++ other).length - suffix.length) (text ++ other),
        hfit.2, List.getLast?_append_of_ne_nil _ hsuffix]

theorem exists_padding (number : ℕ) (suffix : String) : ∃ k, numberedName number suffix =
    (List.replicate k '0' ++ Nat.toDigits 10 number) ++ suffix.toList := by
  unfold numberedName
  dsimp only
  split_ifs
  · exact ⟨_, rfl⟩
  · exact ⟨0, rfl⟩

variable {rest : List (String × NumberedFileType)}

theorem parseSuffixes_skip {other : List Char} {suffix : String} (hother : other ≠ [])
    (hsuffix : suffix.toList ≠ []) (h : other.getLast? ≠ suffix.toList.getLast?) :
    parseSuffixes (text ++ other) ((suffix, type) :: rest) = parseSuffixes (text ++ other)
      rest := by
  rw [parseSuffixes, cutSuffix_eq_none hother hsuffix h]

theorem parseSuffixes_padded {suffix : String} (k : ℕ)
    (hpos : 1 ≤ number) (hle : number ≤ maxFileNumber) :
    parseSuffixes ((List.replicate k '0' ++ Nat.toDigits 10 number) ++ suffix.toList)
      ((suffix, type) :: rest) = some (number, type) := by
  have hne : List.replicate k '0' ++ Nat.toDigits 10 number ≠ [] :=
    List.append_ne_nil_of_right_ne_nil _ Nat.toDigits_ne_nil
  rw [parseSuffixes, cutSuffix_append hne]
  dsimp only
  rw [parseNumber_padded k hpos hle]
  rfl

/-- A generated name is read back. No suffix ends like a later one in the list. -/
theorem parse_fileName (type : NumberedFileType) (hpos : 1 ≤ number)
    (hle : number ≤ maxFileNumber) :
    parseNumberedFileName (type.fileName number) = some (number, type) := by
  unfold parseNumberedFileName suffixes
  cases type with
  | wal =>
    obtain ⟨k, hk⟩ := exists_padding number ".log"
    rw [NumberedFileType.fileName, walFileName, hk,
      parseSuffixes_skip (by decide) (by decide) (by decide),
      parseSuffixes_skip (by decide) (by decide) (by decide), parseSuffixes_padded k hpos hle]
  | sstable =>
    obtain ⟨k, hk⟩ := exists_padding number ".sst"
    rw [NumberedFileType.fileName, sstableFileName, hk,
      parseSuffixes_skip (by decide) (by decide) (by decide), parseSuffixes_padded k hpos hle]
  | sstableTemporary =>
    obtain ⟨k, hk⟩ := exists_padding number ".sst.tmp"
    rw [NumberedFileType.fileName, sstableTemporaryFileName, hk, parseSuffixes_padded k hpos hle]

theorem fileName_inj {type' : NumberedFileType} {number' : ℕ} (hpos : 1 ≤ number)
    (hle : number ≤ maxFileNumber) (hpos' : 1 ≤ number') (hle' : number' ≤ maxFileNumber)
    (h : type.fileName number = type'.fileName number') : number = number' ∧ type = type' := by
  have hparse := parse_fileName type hpos hle
  rw [h, parse_fileName type' hpos' hle'] at hparse
  obtain ⟨hnumber, htype⟩ := Prod.mk.inj (Option.some.inj hparse)
  exact ⟨hnumber.symm, htype.symm⟩

end Suffixes

/-! ### Removal -/

section Removal

variable {fails obsolete : FileName → Bool} {files : List FileName} {name : FileName} {live n : ℕ}
  {m : Manifest}

/-- A file is left unless it is obsolete and could be removed. -/
theorem mem_removeEach : name ∈ removeEach fails obsolete files ↔
    name ∈ files ∧ (obsolete name = true → fails name = true) := by
  -- induction on the names still to be visited, over whatever is left of the directory
  have hloop (todo left : List FileName) :
      name ∈ todo.foldl (fun left name =>
          if obsolete name then removeFileBestEffort fails name left else left) left ↔
        name ∈ left ∧ (name ∈ todo → obsolete name = true → fails name = true) := by
    induction todo generalizing left with
    | nil => simp
    | cons first todo ih =>
      rw [List.foldl_cons, ih, List.mem_cons]
      by_cases hobsolete : obsolete first = true
      · by_cases hfails : fails first = true
        · rw [if_pos hobsolete, removeFileBestEffort, if_pos hfails]
          grind
        · rw [if_pos hobsolete, removeFileBestEffort, if_neg hfails, List.mem_filter]
          grind
      · grind
  rw [removeEach, hloop]
  grind

theorem obsoleteWal_iff : obsoleteWal live name = true ↔
    ∃ n < live, parseNumberedFileName name = some (n, .wal) := by
  unfold obsoleteWal
  split
  · rename_i n heq
    simp [heq]
  · rename_i hnot
    simp only [Bool.false_eq_true, false_iff]
    rintro ⟨n, -, heq⟩
    exact hnot n heq

theorem obsoleteSSTable_iff {live : List ℕ} : obsoleteSSTable live name = true ↔
    (∃ n ∉ live, parseNumberedFileName name = some (n, .sstable)) ∨
      ∃ n, parseNumberedFileName name = some (n, .sstableTemporary) := by
  unfold obsoleteSSTable
  split
  · rename_i n heq
    simp [heq]
  · rename_i n heq
    simp [heq]
  · rename_i hnot hnot'
    simp only [Bool.false_eq_true, false_iff]
    rintro (⟨n, -, heq⟩ | ⟨n, heq⟩)
    · exact hnot n heq
    · exact hnot' n heq

/-- Every numbered file of the directory has a name that was generated for it. -/
def OwnFiles (files : List FileName) : Prop :=
  ∀ name ∈ files, (∃ type n, 1 ≤ n ∧ n ≤ maxFileNumber ∧
    name = NumberedFileType.fileName type n) ∨ parseNumberedFileName name = none

theorem OwnFiles.parse_iff (h : OwnFiles files) (hmem : name ∈ files) {type : NumberedFileType} :
    parseNumberedFileName name = some (n, type) ↔
      1 ≤ n ∧ n ≤ maxFileNumber ∧ name = type.fileName n := by
  constructor
  · intro hparse
    rcases h name hmem with ⟨type', n', hpos, hle, rfl⟩ | hnone
    · rw [parse_fileName type' hpos hle] at hparse
      cases hparse
      exact ⟨hpos, hle, rfl⟩
    · rw [hnone] at hparse
      cases hparse
  · rintro ⟨hpos, hle, rfl⟩
    exact parse_fileName type hpos hle

end Removal

/-- Generated names are read back and differ, the other files of a database are not numbered, and
`parseNumber` accepts the digit strings with a value in the range. So the removal of tables leaves
of the tables exactly those that the manifest names, no temporary one and every other file; the
removal of logs removes exactly the logs below the live number. A file that the operating system
does not remove is left as well. -/
theorem file_names_round_trip :
    (∀ (type : NumberedFileType) (n : ℕ), 1 ≤ n → n ≤ maxFileNumber →
      parseNumberedFileName (type.fileName n) = some (n, type)) ∧
    (∀ (type type' : NumberedFileType) (n n' : ℕ), 1 ≤ n → n ≤ maxFileNumber → 1 ≤ n' →
      n' ≤ maxFileNumber → type.fileName n = type'.fileName n' → n = n' ∧ type = type') ∧
    (∀ name ∈ [lockFileName, manifestFileName, manifestTemporaryFileName],
      parseNumberedFileName name = none) ∧
    (∀ text number, parseNumber text = some number ↔
      text ≠ [] ∧ (∀ c ∈ text, c.isDigit = true) ∧ Nat.ofDigitChars 10 text 0 = number ∧
        1 ≤ number ∧ number ≤ maxFileNumber) ∧
    (∀ fails files (manifest : Manifest), OwnFiles files → ∀ name, fails name = false →
      (name ∈ removeObsoleteSSTableFilesBestEffort fails manifest files ↔
        name ∈ files ∧
          (∀ n, 1 ≤ n → n ≤ maxFileNumber → name = sstableFileName n → n ∈ manifest.live) ∧
          ∀ n, 1 ≤ n → n ≤ maxFileNumber → name ≠ sstableTemporaryFileName n)) ∧
    (∀ fails files live, OwnFiles files → ∀ name, fails name = false →
      (name ∈ removeObsoleteWalFilesBestEffort fails live files ↔
        name ∈ files ∧ ∀ n, 1 ≤ n → n ≤ maxFileNumber → name = walFileName n → live ≤ n)) ∧
    (∀ fails files (manifest : Manifest) live name, fails name = true →
      (name ∈ removeObsoleteSSTableFilesBestEffort fails manifest files ↔ name ∈ files) ∧
      (name ∈ removeObsoleteWalFilesBestEffort fails live files ↔ name ∈ files)) := by
  refine ⟨fun type n => parse_fileName type, fun type type' n n' => fileName_inj, by decide,
    fun text number => parseNumber_eq_some, ?_, ?_, ?_⟩
  · intro fails files manifest hown name hremoved
    rw [removeObsoleteSSTableFilesBestEffort, mem_removeEach, obsoleteSSTable_iff]
    refine and_congr_right fun hmem => ?_
    simp only [hown.parse_iff hmem, hremoved, Bool.false_eq_true, imp_false, not_or, not_exists]
    refine and_congr ?_ ?_
    · exact ⟨fun h n hpos hle hname => by_contra fun hlive => h n ⟨hlive, hpos, hle, hname⟩,
        fun h n ⟨hlive, hpos, hle, hname⟩ => hlive (h n hpos hle hname)⟩
    · exact ⟨fun h n hpos hle hname => h n ⟨hpos, hle, hname⟩,
        fun h n ⟨hpos, hle, hname⟩ => h n hpos hle hname⟩
  · intro fails files live hown name hremoved
    rw [removeObsoleteWalFilesBestEffort, mem_removeEach, obsoleteWal_iff]
    refine and_congr_right fun hmem => ?_
    simp only [hown.parse_iff hmem, hremoved, Bool.false_eq_true, imp_false, not_exists]
    exact ⟨fun h n hpos hle hname => not_lt.mp fun hlt => h n ⟨hlt, hpos, hle, hname⟩,
      fun h n ⟨hlt, hpos, hle, hname⟩ => absurd (h n hpos hle hname) (not_le.mpr hlt)⟩
  · intro fails files manifest live name hfails
    rw [removeObsoleteSSTableFilesBestEffort, removeObsoleteWalFilesBestEffort, mem_removeEach,
      mem_removeEach]
    simp [hfails]

/-- A directory with two tables, a temporary one and two logs. -/
def smallDirectory : List FileName :=
  [lockFileName, manifestFileName, walFileName 3, walFileName 7, sstableFileName 4,
    sstableFileName 5, sstableTemporaryFileName 6]

theorem ownFiles_smallDirectory : OwnFiles smallDirectory := by
  intro name hname
  fin_cases hname
  · exact .inr (by decide)
  · exact .inr (by decide)
  · exact .inl ⟨.wal, 3, by decide, by decide, rfl⟩
  · exact .inl ⟨.wal, 7, by decide, by decide, rfl⟩
  · exact .inl ⟨.sstable, 4, by decide, by decide, rfl⟩
  · exact .inl ⟨.sstable, 5, by decide, by decide, rfl⟩
  · exact .inl ⟨.sstableTemporary, 6, by decide, by decide, rfl⟩

/-- The manifest names table 5 and the logs are live from 7 on. -/
theorem file_names_round_trip_small :
    parseNumberedFileName (sstableFileName maxFileNumber) = some (maxFileNumber, .sstable) ∧
      walFileName 1000000 ≠ walFileName 100000 ∧
      sstableFileName 4 ∉ removeObsoleteSSTableFilesBestEffort (fun _ => false)
        ⟨1, 7, ![[⟨5, 1, ⟨[1], 1, .value⟩, ⟨[1], 1, .value⟩⟩], [], []]⟩ smallDirectory ∧
      walFileName 3 ∉ removeObsoleteWalFilesBestEffort (fun _ => false) 7 smallDirectory := by
  obtain ⟨hread, hdiffer, -, -, htables, hwals, -⟩ := file_names_round_trip
  refine ⟨hread .sstable _ (by decide) (by decide), ?_, ?_, ?_⟩
  · intro h
    have heq := (hdiffer .wal .wal _ _ (by decide) (by decide) (by decide) (by decide) h).1
    omega
  · rw [htables _ _ _ ownFiles_smallDirectory _ rfl]
    rintro ⟨-, hlive, -⟩
    exact absurd (hlive 4 (by decide) (by decide) rfl) (by decide)
  · rw [hwals _ _ _ ownFiles_smallDirectory _ rfl]
    rintro ⟨-, hlive⟩
    exact absurd (hlive 3 (by decide) (by decide) rfl) (by decide)

end Mizu.Lsm
