import Mizu.Lsm.Coding

/-!
# The manifest

The manifest names the tables of every level, the last sequence they hold and the
oldest log a recovery has to replay. It is checked when it is written and again
when it is read; the limit of 64 MiB is checked table by table by the writer and
on the whole file by the reader.
-/

namespace Mizu.Lsm

structure TableMeta where
  number : ℕ
  fileSize : ℕ
  smallestKey : InternalKey
  largestKey : InternalKey
deriving DecidableEq

instance threeLevels : NeZero 3 := ⟨by decide⟩

/-- `ManifestState` -/
structure Manifest where
  flushedSequence : ℕ
  oldestWalNumber : ℕ
  levels : Fin 3 → List TableMeta
deriving DecidableEq

/-! ## `validateState` -/

/-- `numeric_limits<uint32_t>::max()` -/
def maxUint32 : ℕ := 2 ^ 32 - 1

/-- Checks one table and records its number. -/
def validateTable (t : TableMeta) (numbers : List ℕ) : Except String (List ℕ) :=
  if t.number = 0 ∨ t.fileSize = 0 then .error "manifest contains invalid table metadata"
  else if t.number ∈ numbers then .error "manifest contains a duplicate table number"
  else if t.smallestKey.userKey.length + 8 > maxUint32 ∨
      t.largestKey.userKey.length + 8 > maxUint32 then
    .error "manifest table key is too large"
  else if t.largestKey.Less t.smallestKey then
    .error "manifest contains an invalid table key range"
  else .ok (t.number :: numbers)

def validateLevel0 : List TableMeta → List ℕ → Except String (List ℕ)
  | [], numbers => .ok numbers
  | t :: ts, numbers => do
    let numbers ← validateTable t numbers
    validateLevel0 ts numbers

/-- The tables of a level below level 0, after one that ended at `previous`. -/
def validateLevel : Option Bytes → List TableMeta → List ℕ → Except String (List ℕ)
  | _, [], numbers => .ok numbers
  | previous, t :: ts, numbers => do
    let numbers ← validateTable t numbers
    if previous.any fun p => p ≥ t.smallestKey.userKey then
      .error "manifest non-L0 table ranges overlap or are out of order"
    else validateLevel (some t.largestKey.userKey) ts numbers

def validateState (m : Manifest) : Except String (List ℕ) :=
  if m.flushedSequence > maxSequenceNumber then
    .error "manifest flushed sequence is out of range"
  else if m.oldestWalNumber = 0 then .error "manifest WAL number must be positive"
  else if ∃ l, (m.levels l).length > maxUint32 then
    .error "manifest has too many tables in a level"
  else do
    let numbers ← validateLevel0 (m.levels 0) []
    let numbers ← validateLevel none (m.levels 1) numbers
    validateLevel none (m.levels 2) numbers

/-! ## The encoded size -/

/-- `kMaximumManifestSize` -/
def maxManifestSize : ℕ := 64 * 1024 * 1024

/-- Two numbers and two keys, each key with its length and its tag. -/
def TableMeta.encodedSize (t : TableMeta) : ℕ :=
  24 + (t.smallestKey.userKey.length + 8) + (t.largestKey.userKey.length + 8)

/-- The loop of `appendTables`, which checks the size after every table. -/
def appendTableSizes : List TableMeta → ℕ → Except Status ℕ
  | [], size => .ok size
  | t :: ts, size =>
    if size + t.encodedSize > maxManifestSize - 4 then
      .error (.invalidArgument "manifest exceeds 64 MiB")
    else appendTableSizes ts (size + t.encodedSize)

/-- `appendTables`: the count of the level, then its tables. -/
def appendTables (ts : List TableMeta) (size : ℕ) : Except Status ℕ :=
  appendTableSizes ts (size + 4)

/-- `encodeManifest`: the length of the file it produces. -/
def encodeManifest (m : Manifest) : Except Status ℕ :=
  match validateState m with
  | .error e => .error (.invalidArgument e)
  | .ok _ => do
    let size ← appendTables (m.levels 0) 28
    let size ← appendTables (m.levels 1) size
    let size ← appendTables (m.levels 2) size
    pure (size + 4)

def levelSize (ts : List TableMeta) : ℕ := 4 + (ts.map TableMeta.encodedSize).sum

/-- The length of the encoded manifest. -/
def Manifest.encodedSize (m : Manifest) : ℕ :=
  28 + levelSize (m.levels 0) + levelSize (m.levels 1) + levelSize (m.levels 2) + 4

/-- `readManifest` of the file that holds `m`. -/
def readManifest (m : Manifest) : Except Status Manifest :=
  if m.encodedSize > maxManifestSize then
    .error (.corruption "manifest is not a valid regular file")
  else
    match validateState m with
    | .error e => .error (.corruption e)
    | .ok _ => .ok m

section EncodedSize

variable {m : Manifest} {ts : List TableMeta} {size size' : ℕ}

theorem appendTableSizes_ok (h : appendTableSizes ts size = .ok size') :
    size' = size + (ts.map TableMeta.encodedSize).sum := by
  induction ts generalizing size with
  | nil => simpa [appendTableSizes] using h.symm
  | cons t ts ih =>
    rw [appendTableSizes] at h
    split at h
    · simp at h
    · rw [ih h]
      simp only [List.map_cons, List.sum_cons]
      omega

theorem appendTables_ok (h : appendTables ts size = .ok size') : size' = size + levelSize ts := by
  rw [appendTableSizes_ok h, levelSize]
  omega

/-- The writer's running size is the length of the file. -/
theorem encodeManifest_ok (h : encodeManifest m = .ok size) :
    size = m.encodedSize ∧ ∃ ns, validateState m = .ok ns := by
  unfold encodeManifest at h
  cases hv : validateState m with
  | error e =>
    rw [hv] at h
    simp at h
  | ok ns =>
    rw [hv] at h
    cases h0 : appendTables (m.levels 0) 28 with
    | error e => simp [h0, bind, Except.bind] at h
    | ok s0 =>
      cases h1 : appendTables (m.levels 1) s0 with
      | error e => simp [h0, h1, bind, Except.bind] at h
      | ok s1 =>
        cases h2 : appendTables (m.levels 2) s1 with
        | error e => simp [h0, h1, h2, bind, Except.bind] at h
        | ok s2 =>
          have hsize : s2 + 4 = size := by
            simpa [h0, h1, h2, bind, Except.bind, pure, Except.pure] using h
          have e0 := appendTables_ok h0
          have e1 := appendTables_ok h1
          have e2 := appendTables_ok h2
          refine ⟨?_, ns, rfl⟩
          unfold Manifest.encodedSize
          omega

theorem readManifest_of_encode (h : encodeManifest m = .ok size)
    (hsize : m.encodedSize ≤ maxManifestSize) : readManifest m = .ok m := by
  obtain ⟨_, ns, hv⟩ := encodeManifest_ok h
  rw [readManifest, if_neg (by omega), hv]

end EncodedSize

end Mizu.Lsm
