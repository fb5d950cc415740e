import Mizu.Lsm.Manifest
import Mizu.Lsm.BatchCodec
import Mizu.Lsm.BlockIterator

/-!
# The bytes of a manifest

`encodeManifest` and `decodeManifest` of `db/manifest.cc`, with keys as byte strings and 64-bit
numbers. The writer checks its limit of 64 MiB after every table, the reader on the whole input.
Versions 1 and 2 have only the first one or two levels.
-/

namespace Mizu.Lsm.Encoded

structure TableMeta where
  number : UInt64
  fileSize : UInt64
  smallestKey : Bytes
  largestKey : Bytes
deriving DecidableEq

structure ManifestState where
  flushedSequence : UInt64
  oldestWalNumber : UInt64
  levels : Fin 3 → List TableMeta
deriving DecidableEq

/-! ### `validateState` -/

def validateTable (t : TableMeta) (numbers : List UInt64) : Except String (List UInt64) :=
  if t.number = 0 ∨ t.fileSize = 0 then .error "manifest contains invalid table metadata"
  else if t.number ∈ numbers then .error "manifest contains a duplicate table number"
  else if t.smallestKey.length > maxUint32 ∨ t.largestKey.length > maxUint32 then
    .error "manifest table key is too large"
  else if parseInternalKey t.smallestKey = none ∨ parseInternalKey t.largestKey = none ∨
      internalKeyLess t.largestKey t.smallestKey = some true then
    .error "manifest contains an invalid table key range"
  else .ok (t.number :: numbers)

def validateLevel0 : List TableMeta → List UInt64 → Except String (List UInt64)
  | [], numbers => .ok numbers
  | t :: ts, numbers => do
    let numbers ← validateTable t numbers
    validateLevel0 ts numbers

/-- The user key of a valid internal key. -/
def userKey (key : Bytes) : Bytes := key.take (key.length - 8)

/-- The tables of a level below level 0, after one that ended at `previous`. -/
def validateLevel : Option Bytes → List TableMeta → List UInt64 → Except String (List UInt64)
  | _, [], numbers => .ok numbers
  | previous, t :: ts, numbers => do
    let numbers ← validateTable t numbers
    if previous.any fun p => p ≥ userKey t.smallestKey then
      .error "manifest non-L0 table ranges overlap or are out of order"
    else validateLevel (some (userKey t.largestKey)) ts numbers

def validateState (s : ManifestState) : Except String (List UInt64) :=
  if s.flushedSequence.toNat > maxSequenceNumber then
    .error "manifest flushed sequence is out of range"
  else if s.oldestWalNumber = 0 then .error "manifest WAL number must be positive"
  else if ∃ l, (s.levels l).length > maxUint32 then
    .error "manifest has too many tables in a level"
  else do
    let numbers ← validateLevel0 (s.levels 0) []
    let numbers ← validateLevel none (s.levels 1) numbers
    validateLevel none (s.levels 2) numbers

/-! ### Encoding -/

/-- `kManifestMagic`: "LSMMAN01" -/
def magic : Bytes := [76, 83, 77, 77, 65, 78, 48, 49]

def encodeString (value : Bytes) : Bytes := putFixed32 value.length ++ value

def encodeTable (t : TableMeta) : Bytes :=
  putFixed64 t.number.toNat ++ (putFixed64 t.fileSize.toNat ++
    (encodeString t.smallestKey ++ encodeString t.largestKey))

/-- The loop of `appendTables`. -/
def appendEach : List TableMeta → Bytes → Except Status Bytes
  | [], encoded => .ok encoded
  | t :: ts, encoded =>
    let encoded := encoded ++ encodeTable t
    if encoded.length > maxManifestSize - 4 then
      .error (.invalidArgument "manifest exceeds 64 MiB")
    else appendEach ts encoded

def appendTables (ts : List TableMeta) (encoded : Bytes) : Except Status Bytes :=
  appendEach ts (encoded ++ putFixed32 ts.length)

def header (version : ℕ) (s : ManifestState) : Bytes :=
  magic ++ (putFixed32 version ++
    (putFixed64 s.flushedSequence.toNat ++ putFixed64 s.oldestWalNumber.toNat))

def encodeManifest (s : ManifestState) : Except Status Bytes :=
  match validateState s with
  | .error e => .error (.invalidArgument e)
  | .ok _ => do
    let encoded ← appendTables (s.levels 0) (header 3 s)
    let encoded ← appendTables (s.levels 1) encoded
    let encoded ← appendTables (s.levels 2) encoded
    .ok (encoded ++ putFixed32 (crc32c encoded))

/-! ### Decoding -/

def takeString (input : Bytes) : Option (Bytes × Bytes) := do
  let (size, input) ← getFixed32 input
  if input.length < size then none else some (input.take size, input.drop size)

def takeTable (input : Bytes) : Option (TableMeta × Bytes) := do
  let (number, input) ← getFixed64 input
  let (fileSize, input) ← getFixed64 input
  let (smallestKey, input) ← takeString input
  let (largestKey, input) ← takeString input
  some (⟨.ofNat number, .ofNat fileSize, smallestKey, largestKey⟩, input)

/-- The loop of `takeTables`. -/
def takeEach : ℕ → Bytes → Option (List TableMeta × Bytes)
  | 0, input => some ([], input)
  | count + 1, input => do
    let (t, input) ← takeTable input
    let (ts, input) ← takeEach count input
    some (t :: ts, input)

/-- No table takes less than 40 bytes. -/
def takeTables (input : Bytes) : Option (List TableMeta × Bytes) := do
  let (count, input) ← getFixed32 input
  if count > input.length / 40 then none else takeEach count input

/-- A level that the version does not have is empty. -/
def takeLevel (present : Bool) (input : Bytes) : Option (List TableMeta × Bytes) :=
  if present then takeTables input else some ([], input)

def decodeManifest (input : Bytes) : Except Status ManifestState :=
  if input.length < 32 + 4 then .error (.corruption "manifest is shorter than its header")
  else if input.length > maxManifestSize then .error (.corruption "manifest exceeds 64 MiB")
  else
    let contents := input.take (input.length - 4)
    if crc32c contents ≠ LittleEndian.decode (input.drop (input.length - 4)) then
      .error (.corruption "manifest checksum mismatch")
    else if contents.take 8 ≠ magic then .error (.corruption "invalid manifest magic")
    else
      match getFixed32 (contents.drop 8) with
      | none => .error (.corruption "unsupported manifest version")
      | some (version, cursor) =>
        if version < 1 ∨ version > 3 then .error (.corruption "unsupported manifest version")
        else
          match getFixed64 cursor with
          | none => .error (.corruption "truncated manifest header")
          | some (flushed, cursor) =>
            match getFixed64 cursor with
            | none => .error (.corruption "truncated manifest header")
            | some (oldest, cursor) =>
              match takeTables cursor with
              | none => .error (.corruption "invalid manifest L0 table list")
              | some (level0, cursor) =>
                match takeLevel (version ≥ 2) cursor with
                | none => .error (.corruption "invalid manifest L1 table list")
                | some (level1, cursor) =>
                  match takeLevel (version ≥ 3) cursor with
                  | none => .error (.corruption "invalid manifest L2 table list")
                  | some (level2, cursor) =>
                    if cursor ≠ [] then .error (.corruption "manifest has trailing bytes")
                    else
                      let decoded : ManifestState :=
                        ⟨.ofNat flushed, .ofNat oldest, ![level0, level1, level2]⟩
                      match validateState decoded with
                      | .error e => .error (.corruption e)
                      | .ok _ => .ok decoded

/-! ### The format -/

def encodeTables (ts : List TableMeta) : Bytes := putFixed32 ts.length ++ ts.flatMap encodeTable

/-- What the checksum of a manifest of a version covers. -/
def contents (version : ℕ) (s : ManifestState) : Bytes :=
  header version s ++ (encodeTables (s.levels 0) ++
    ((if 2 ≤ version then encodeTables (s.levels 1) else []) ++
      if 3 ≤ version then encodeTables (s.levels 2) else []))

/-- The manifest of a version. -/
def encodeAs (version : ℕ) (s : ManifestState) : Bytes :=
  contents version s ++ putFixed32 (crc32c (contents version s))

/-- The levels that a version does not have are empty. -/
def Missing (version : ℕ) (s : ManifestState) : Prop :=
  (version < 2 → s.levels 1 = []) ∧ (version < 3 → s.levels 2 = [])

/-- Both numbers and keys of a table with their lengths. -/
def TableMeta.encodedSize (t : TableMeta) : ℕ :=
  24 + t.smallestKey.length + t.largestKey.length

/-- The length of a manifest: 44 bytes and the tables. -/
def ManifestState.encodedSize (s : ManifestState) : ℕ :=
  44 + (((s.levels 0 ++ s.levels 1 ++ s.levels 2)).map TableMeta.encodedSize).sum

variable {s : ManifestState} {t : TableMeta} {ts : List TableMeta}
  {input rest bytes encoded : Bytes} {version : ℕ}

theorem length_encodeTable (t : TableMeta) : (encodeTable t).length = t.encodedSize := by
  simp [encodeTable, encodeString, TableMeta.encodedSize]
  omega

theorem length_flatMap_encodeTable (ts : List TableMeta) :
    (ts.flatMap encodeTable).length = (ts.map TableMeta.encodedSize).sum := by
  induction ts with
  | nil => rfl
  | cons t ts ih => simp [ih, length_encodeTable]

theorem length_header (version : ℕ) (s : ManifestState) : (header version s).length = 28 := by
  simp [header, magic]

theorem length_encodeTables (ts : List TableMeta) :
    (encodeTables ts).length = 4 + (ts.map TableMeta.encodedSize).sum := by
  rw [encodeTables, List.length_append, length_putFixed32, length_flatMap_encodeTable]

theorem length_encodeAs (s : ManifestState) : (encodeAs 3 s).length = s.encodedSize := by
  simp [encodeAs, contents, length_header, length_encodeTables, ManifestState.encodedSize]
  omega

/-! ### The writer -/

theorem appendEach_ok (h : appendEach ts encoded = .ok bytes) :
    bytes = encoded ++ ts.flatMap encodeTable := by
  induction ts generalizing encoded with
  | nil => simpa [appendEach] using h.symm
  | cons t ts ih =>
    unfold appendEach at h
    dsimp only at h
    split at h
    · simp at h
    · rw [ih h, List.flatMap_cons, List.append_assoc]

theorem appendEach_of_le (h : (encoded ++ ts.flatMap encodeTable).length ≤ maxManifestSize - 4) :
    appendEach ts encoded = .ok (encoded ++ ts.flatMap encodeTable) := by
  induction ts generalizing encoded with
  | nil => simp [appendEach]
  | cons t ts ih =>
    rw [List.flatMap_cons, ← List.append_assoc] at h ⊢
    unfold appendEach
    rw [if_neg, ih h]
    rw [List.length_append] at h
    omega

theorem appendTables_ok (h : appendTables ts encoded = .ok bytes) :
    bytes = encoded ++ encodeTables ts := by
  rw [appendEach_ok h, encodeTables, List.append_assoc]

theorem appendTables_of_le (h : (encoded ++ encodeTables ts).length ≤ maxManifestSize - 4) :
    appendTables ts encoded = .ok (encoded ++ encodeTables ts) := by
  unfold encodeTables at h ⊢
  rw [← List.append_assoc] at h ⊢
  exact appendEach_of_le h

theorem contents_three (s : ManifestState) :
    contents 3 s = ((header 3 s ++ encodeTables (s.levels 0)) ++ encodeTables (s.levels 1)) ++
      encodeTables (s.levels 2) := by
  simp [contents]

theorem encodeManifest_ok (h : encodeManifest s = .ok bytes) :
    bytes = encodeAs 3 s ∧ ∃ ns, validateState s = .ok ns := by
  unfold encodeManifest at h
  cases hv : validateState s with
  | error e => simp [hv] at h
  | ok ns =>
    rw [hv] at h
    cases h0 : appendTables (s.levels 0) (header 3 s) with
    | error e => simp [h0, bind, Except.bind] at h
    | ok b0 =>
      cases h1 : appendTables (s.levels 1) b0 with
      | error e => simp [h0, h1, bind, Except.bind] at h
      | ok b1 =>
        cases h2 : appendTables (s.levels 2) b1 with
        | error e => simp [h0, h1, h2, bind, Except.bind] at h
        | ok b2 =>
          have hbytes : b2 ++ putFixed32 (crc32c b2) = bytes := by
            simpa [h0, h1, h2, bind, Except.bind] using h
          have hcontents : b2 = contents 3 s := by
            rw [contents_three, appendTables_ok h2, appendTables_ok h1, appendTables_ok h0]
          exact ⟨by rw [encodeAs, ← hcontents, hbytes], ns, rfl⟩

theorem encodeManifest_of_le (hv : ∃ ns, validateState s = .ok ns)
    (h : (encodeAs 3 s).length ≤ maxManifestSize) : encodeManifest s = .ok (encodeAs 3 s) := by
  obtain ⟨ns, hv⟩ := hv
  have hsize : (contents 3 s).length ≤ maxManifestSize - 4 := by
    rw [encodeAs, List.length_append, length_putFixed32] at h
    omega
  rw [contents_three] at hsize
  have h1 : ((header 3 s ++ encodeTables (s.levels 0)) ++ encodeTables (s.levels 1)).length ≤
      maxManifestSize - 4 := by
    rw [List.length_append] at hsize
    omega
  have h0 : (header 3 s ++ encodeTables (s.levels 0)).length ≤ maxManifestSize - 4 := by
    rw [List.length_append] at h1
    omega
  unfold encodeManifest
  rw [hv]
  rw [appendTables_of_le h0]
  simp only [bind, Except.bind]
  rw [appendTables_of_le h1]
  dsimp only
  rw [appendTables_of_le hsize, encodeAs, contents_three]

/-! ### What a valid state promises the reader -/

/-- The keys of a table have a tag, and their lengths fit their fields. -/
def TableMeta.Fits (t : TableMeta) : Prop :=
  (8 ≤ t.smallestKey.length ∧ t.smallestKey.length ≤ maxUint32) ∧
    8 ≤ t.largestKey.length ∧ t.largestKey.length ≤ maxUint32

theorem validateTable_fits {ns ns' : List UInt64} (h : validateTable t ns = .ok ns') : t.Fits := by
  unfold validateTable at h
  split_ifs at h with hmeta hdup hlarge hrange
  rw [not_or] at hlarge
  rw [not_or, not_or] at hrange
  obtain ⟨k, hk⟩ := Option.ne_none_iff_exists'.mp hrange.1
  obtain ⟨k', hk'⟩ := Option.ne_none_iff_exists'.mp hrange.2.1
  exact ⟨⟨length_of_parse hk, not_lt.mp hlarge.1⟩, length_of_parse hk', not_lt.mp hlarge.2⟩

theorem validateLevel0_fits {ns ns' : List UInt64} (h : validateLevel0 ts ns = .ok ns') :
    ∀ t ∈ ts, t.Fits := by
  induction ts generalizing ns with
  | nil => simp
  | cons t ts ih =>
    rw [validateLevel0] at h
    cases ht : validateTable t ns with
    | error e => simp [ht, bind, Except.bind] at h
    | ok ns1 =>
      rw [ht] at h
      exact List.forall_mem_cons.mpr ⟨validateTable_fits ht, ih h⟩

theorem validateLevel_fits {previous : Option Bytes} {ns ns' : List UInt64}
    (h : validateLevel previous ts ns = .ok ns') : ∀ t ∈ ts, t.Fits := by
  induction ts generalizing previous ns with
  | nil => simp
  | cons t ts ih =>
    rw [validateLevel] at h
    cases ht : validateTable t ns with
    | error e => simp [ht, bind, Except.bind] at h
    | ok ns1 =>
      simp only [ht, bind, Except.bind] at h
      split at h
      · simp at h
      · exact List.forall_mem_cons.mpr ⟨validateTable_fits ht, ih h⟩

theorem validateState_fits {ns : List UInt64} (h : validateState s = .ok ns) (l : Fin 3) :
    (s.levels l).length ≤ maxUint32 ∧ ∀ t ∈ s.levels l, t.Fits := by
  unfold validateState at h
  split_ifs at h with hflushed hwal hcount
  have hlen : (s.levels l).length ≤ maxUint32 := by
    by_contra hnot
    exact hcount ⟨l, by omega⟩
  refine ⟨hlen, ?_⟩
  cases h0 : validateLevel0 (s.levels 0) [] with
  | error e => simp [h0, bind, Except.bind] at h
  | ok n0 =>
    cases h1 : validateLevel none (s.levels 1) n0 with
    | error e => simp [h0, h1, bind, Except.bind] at h
    | ok n1 =>
      simp only [h0, h1, bind, Except.bind] at h
      fin_cases l
      · exact validateLevel0_fits h0
      · exact validateLevel_fits h1
      · exact validateLevel_fits h

/-! ### The reader -/

theorem takeString_append {value : Bytes} (h : value.length ≤ maxUint32) (rest : Bytes) :
    takeString (encodeString value ++ rest) = some (value, rest) := by
  have hlen : value.length < 2 ^ 32 := lt_of_le_of_lt h (by decide)
  simp [takeString, encodeString, getFixed32_put hlen]

theorem takeTable_append (h : t.Fits) (rest : Bytes) :
    takeTable (encodeTable t ++ rest) = some (t, rest) := by
  simp [takeTable, encodeTable, getFixed64_put (UInt64.toNat_lt _), takeString_append h.1.2,
    takeString_append h.2.2]

theorem takeEach_append (h : ∀ t ∈ ts, t.Fits) (rest : Bytes) :
    takeEach ts.length (ts.flatMap encodeTable ++ rest) = some (ts, rest) := by
  induction ts with
  | nil => rfl
  | cons t ts ih =>
    obtain ⟨ht, hts⟩ := List.forall_mem_cons.mp h
    simp [takeEach, takeTable_append ht, ih hts]

/-- A table that fits takes 40 bytes or more. -/
theorem forty_mul_le (h : ∀ t ∈ ts, t.Fits) : 40 * ts.length ≤ (ts.flatMap encodeTable).length := by
  induction ts with
  | nil => simp
  | cons t ts ih =>
    obtain ⟨ht, hts⟩ := List.forall_mem_cons.mp h
    have := ih hts
    have := ht.1.1
    have := ht.2.1
    simp only [List.flatMap_cons, List.length_append, List.length_cons, length_encodeTable,
      TableMeta.encodedSize]
    omega

theorem takeTables_append (hlen : ts.length ≤ maxUint32) (h : ∀ t ∈ ts, t.Fits) (rest : Bytes) :
    takeTables (encodeTables ts ++ rest) = some (ts, rest) := by
  have hcount : ts.length < 2 ^ 32 := lt_of_le_of_lt hlen (by decide)
  have hroom : ¬ts.length > (ts.flatMap encodeTable ++ rest).length / 40 := by
    have := forty_mul_le h
    rw [List.length_append]
    omega
  rw [takeTables, encodeTables, List.append_assoc, getFixed32_put hcount]
  simp only [Option.bind_eq_bind, Option.bind_some]
  rw [if_neg hroom, takeEach_append h]

theorem takeString_eq_some {value : Bytes} (h : takeString input = some (value, rest)) :
    input = encodeString value ++ rest := by
  simp only [takeString, Option.bind_eq_bind, Option.bind_eq_some_iff, Prod.exists] at h
  obtain ⟨size, cursor, hsize, hcursor⟩ := h
  split_ifs at hcursor with hshort
  cases hcursor
  have hlen : (cursor.take size).length = size := by simp; omega
  rw [encodeString, hlen, List.append_assoc, List.take_append_drop]
  exact getFixed32_eq_some hsize

theorem getFixed64_toNat {v : ℕ} (h : getFixed64 input = some (v, rest)) :
    (UInt64.ofNat v).toNat = v := by
  have hv : v < 2 ^ 64 := by
    unfold getFixed64 at h
    split_ifs at h with hlen
    obtain ⟨rfl, -⟩ := Prod.mk.inj (Option.some_inj.mp h)
    have height : (input.take 8).length = 8 := by simp; omega
    have := LittleEndian.decode_lt (input.take 8)
    rw [height] at this
    simpa using this
  exact UInt64.toNat_ofNat_of_lt' hv

theorem takeTable_eq_some (h : takeTable input = some (t, rest)) :
    input = encodeTable t ++ rest := by
  simp only [takeTable, Option.bind_eq_bind, Option.bind_eq_some_iff, Prod.exists] at h
  obtain ⟨number, c1, h1, fileSize, c2, h2, smallest, c3, h3, largest, c4, h4, heq⟩ := h
  cases heq
  rw [encodeTable, getFixed64_toNat h1, getFixed64_toNat h2, getFixed64_eq_some h1,
    getFixed64_eq_some h2, takeString_eq_some h3, takeString_eq_some h4]
  simp

theorem takeEach_eq_some {count : ℕ} (h : takeEach count input = some (ts, rest)) :
    input = ts.flatMap encodeTable ++ rest ∧ ts.length = count := by
  induction count generalizing input ts with
  | zero =>
    cases h
    simp
  | succ count ih =>
    simp only [takeEach, Option.bind_eq_bind, Option.bind_eq_some_iff, Prod.exists] at h
    obtain ⟨t, c1, h1, ts', c2, h2, heq⟩ := h
    cases heq
    obtain ⟨hc1, hlen⟩ := ih h2
    rw [takeTable_eq_some h1, hc1]
    simp [hlen]

theorem takeTables_eq_some (h : takeTables input = some (ts, rest)) :
    input = encodeTables ts ++ rest := by
  simp only [takeTables, Option.bind_eq_bind, Option.bind_eq_some_iff, Prod.exists] at h
  obtain ⟨count, cursor, hcount, heach⟩ := h
  split_ifs at heach with hroom
  obtain ⟨hcursor, hlen⟩ := takeEach_eq_some heach
  rw [encodeTables, hlen, List.append_assoc, ← hcursor]
  exact getFixed32_eq_some hcount

theorem takeLevel_append {present : Bool} (hlen : ts.length ≤ maxUint32) (h : ∀ t ∈ ts, t.Fits)
    (hmissing : present = false → ts = []) (rest : Bytes) :
    takeLevel present ((if present then encodeTables ts else []) ++ rest) = some (ts, rest) := by
  cases present with
  | true => exact takeTables_append hlen h rest
  | false => simp [takeLevel, hmissing rfl]

theorem takeLevel_eq_some {present : Bool} (h : takeLevel present input = some (ts, rest)) :
    input = (if present then encodeTables ts else []) ++ rest ∧ (present = false → ts = []) := by
  cases present with
  | true => exact ⟨takeTables_eq_some h, by simp⟩
  | false =>
    cases h
    simp

theorem contents_eq (version : ℕ) (s : ManifestState) :
    contents version s = magic ++ (putFixed32 version ++ (putFixed64 s.flushedSequence.toNat ++
      (putFixed64 s.oldestWalNumber.toNat ++ (encodeTables (s.levels 0) ++
        ((if decide (version ≥ 2) then encodeTables (s.levels 1) else []) ++
          ((if decide (version ≥ 3) then encodeTables (s.levels 2) else []) ++ [])))))) := by
  simp [contents, header]

/-- The reader takes the manifest of every version that it knows. -/
theorem decodeManifest_encodeAs (hversion : 1 ≤ version ∧ version ≤ 3)
    (hmissing : Missing version s) (hvalid : ∃ ns, validateState s = .ok ns)
    (hsize : (encodeAs version s).length ≤ maxManifestSize) :
    decodeManifest (encodeAs version s) = .ok s := by
  obtain ⟨ns, hvalid⟩ := hvalid
  have hfits := validateState_fits hvalid
  have hlength : (encodeAs version s).length - 4 = (contents version s).length := by
    simp [encodeAs]
  have hshort : ¬(encodeAs version s).length < 32 + 4 := by
    simp only [encodeAs, contents, List.length_append, length_header, length_encodeTables,
      length_putFixed32]
    omega
  have htake : (encodeAs version s).take (contents version s).length = contents version s := by
    simp [encodeAs]
  have hcrc : LittleEndian.decode ((encodeAs version s).drop (contents version s).length) =
      crc32c (contents version s) := by
    rw [encodeAs, List.drop_left]
    exact LittleEndian.decode_encode (lt_of_lt_of_le (crc32c_lt _) (by decide))
  have hmagic : (contents version s).take 8 = magic := by
    rw [contents_eq]
    exact List.take_left' rfl
  have hrest : (contents version s).drop 8 =
      putFixed32 version ++ (putFixed64 s.flushedSequence.toNat ++
        (putFixed64 s.oldestWalNumber.toNat ++ (encodeTables (s.levels 0) ++
          ((if decide (version ≥ 2) then encodeTables (s.levels 1) else []) ++
            ((if decide (version ≥ 3) then encodeTables (s.levels 2) else []) ++ []))))) := by
    rw [contents_eq]
    exact List.drop_left' rfl
  have hlevels : (![s.levels 0, s.levels 1, s.levels 2] : Fin 3 → List TableMeta) = s.levels := by
    funext l
    fin_cases l <;> rfl
  unfold decodeManifest
  rw [if_neg hshort, if_neg (not_lt.mpr hsize)]
  dsimp only
  rw [hlength, htake, hcrc, if_neg (not_not.mpr rfl), hmagic, if_neg (not_not.mpr rfl), hrest,
    getFixed32_put (lt_of_le_of_lt hversion.2 (by decide))]
  dsimp only
  rw [if_neg (by omega), getFixed64_put (UInt64.toNat_lt _)]
  dsimp only
  rw [getFixed64_put (UInt64.toNat_lt _)]
  dsimp only
  rw [takeTables_append (hfits 0).1 (hfits 0).2]
  dsimp only
  rw [takeLevel_append (hfits 1).1 (hfits 1).2 fun h => hmissing.1 (by simpa using h)]
  dsimp only
  rw [takeLevel_append (hfits 2).1 (hfits 2).2 fun h => hmissing.2 (by simpa using h)]
  dsimp only
  rw [if_neg (not_not.mpr rfl), hlevels, UInt64.ofNat_toNat, UInt64.ofNat_toNat, hvalid]

/-- The reader takes nothing else. -/
theorem decodeManifest_ok (h : decodeManifest input = .ok s) :
    ∃ version, (1 ≤ version ∧ version ≤ 3) ∧ input = encodeAs version s ∧ Missing version s ∧
      (∃ ns, validateState s = .ok ns) ∧ input.length ≤ maxManifestSize := by
  unfold decodeManifest at h
  split_ifs at h with hshort hlong
  dsimp only at h
  split_ifs at h with hcrc hmagic
  rw [not_not] at hcrc hmagic
  generalize hcontents : input.take (input.length - 4) = body at h hcrc hmagic
  -- the fields one by one
  rcases hversion : getFixed32 (body.drop 8) with _ | ⟨version, c1⟩
  · simp [hversion] at h
  rw [hversion] at h
  dsimp only at h
  split_ifs at h with hrange
  rcases hflushed : getFixed64 c1 with _ | ⟨flushed, c2⟩
  · simp [hflushed] at h
  rw [hflushed] at h
  dsimp only at h
  rcases holdest : getFixed64 c2 with _ | ⟨oldest, c3⟩
  · simp [holdest] at h
  rw [holdest] at h
  dsimp only at h
  rcases h0 : takeTables c3 with _ | ⟨level0, c4⟩
  · simp [h0] at h
  rw [h0] at h
  dsimp only at h
  rcases h1 : takeLevel (version ≥ 2) c4 with _ | ⟨level1, c5⟩
  · simp [h1] at h
  rw [h1] at h
  dsimp only at h
  rcases h2 : takeLevel (version ≥ 3) c5 with _ | ⟨level2, c6⟩
  · simp [h2] at h
  rw [h2] at h
  dsimp only at h
  split_ifs at h with htrailing
  rw [not_not] at htrailing
  rcases hvalid : validateState ⟨.ofNat flushed, .ofNat oldest, ![level0, level1, level2]⟩ with e | ns
  · simp [hvalid] at h
  rw [hvalid] at h
  cases h
  obtain ⟨hc4, hmissing1⟩ := takeLevel_eq_some h1
  obtain ⟨hc5, hmissing2⟩ := takeLevel_eq_some h2
  have hbody : body = contents version
      ⟨.ofNat flushed, .ofNat oldest, ![level0, level1, level2]⟩ := by
    rw [contents_eq, getFixed64_toNat hflushed, getFixed64_toNat holdest]
    rw [← List.take_append_drop 8 body, hmagic, getFixed32_eq_some hversion,
      getFixed64_eq_some hflushed, getFixed64_eq_some holdest, takeTables_eq_some h0, hc4, hc5,
      htrailing]
    rfl
  refine ⟨version, by omega, ?_, ⟨fun hlt => hmissing1 (by simpa using hlt),
    fun hlt => hmissing2 (by simpa using hlt)⟩, ⟨ns, hvalid⟩, not_lt.mp hlong⟩
  rw [encodeAs, ← hbody, hcrc, ← hcontents]
  have hfour : (input.drop (input.length - 4)).length = 4 := by simp; omega
  have := LittleEndian.encode_decode (input.drop (input.length - 4))
  rw [hfour] at this
  rw [putFixed32, this, List.take_append_drop]

/-! ### Files -/

/-- `readFile` of a regular file that holds `bytes`. -/
def readFile (bytes : Bytes) : Except Status Bytes :=
  if bytes.length > maxManifestSize then
    .error (.corruption "manifest is not a valid regular file")
  else .ok bytes

/-- The status of `decodeManifest` and the state it was given; it is assigned at the end only. -/
def decodeInto (input : Bytes) (output : ManifestState) : Option Status × ManifestState :=
  match decodeManifest input with
  | .error e => (some e, output)
  | .ok decoded => (none, decoded)

/-- The field that follows the magic. -/
def versionOf (input : Bytes) : Option ℕ := (getFixed32 (input.drop 8)).map Prod.fst

theorem versionOf_encodeAs (h : version ≤ 3) : versionOf (encodeAs version s) = some version := by
  rw [versionOf, encodeAs, contents_eq, List.append_assoc,
    List.drop_left' (show magic.length = 8 from rfl), List.append_assoc,
    getFixed32_put (lt_of_le_of_lt h (by decide))]
  rfl

/-- A manifest is read back as it was written if and only if it fits 64 MiB; a manifest that is
accepted is the one of its version for the state it gives, and in version 3 the one the writer
makes; the levels that an older version does not have are empty; and a call that fails leaves its
output as it was. -/
theorem manifest_round_trip (s : ManifestState) (input : Bytes) :
    (∀ bytes, encodeManifest s = .ok bytes →
      (decodeManifest bytes = .ok s ∧ readFile bytes = .ok bytes ↔
        s.encodedSize ≤ maxManifestSize)) ∧
    (decodeManifest input = .ok s → versionOf input = some 3 → encodeManifest s = .ok input) ∧
    (∀ version, decodeManifest input = .ok s → versionOf input = some version →
      input = encodeAs version s ∧ Missing version s) ∧
    (∀ version, version = 1 ∨ version = 2 → Missing version s →
      (∃ ns, validateState s = .ok ns) → (encodeAs version s).length ≤ maxManifestSize →
      decodeManifest (encodeAs version s) = .ok s) ∧
    ∀ output e, (decodeInto input output).1 = some e → (decodeInto input output).2 = output := by
  refine ⟨?_, ?_, ?_, ?_, ?_⟩
  · intro bytes h
    obtain ⟨rfl, hvalid⟩ := encodeManifest_ok h
    rw [← length_encodeAs]
    constructor
    · rintro ⟨hdecode, -⟩
      obtain ⟨-, -, -, -, -, hsize⟩ := decodeManifest_ok hdecode
      exact hsize
    · intro hsize
      have hmissing : Missing 3 s := ⟨by omega, by omega⟩
      exact ⟨decodeManifest_encodeAs ⟨by omega, by omega⟩ hmissing hvalid hsize,
        if_neg (not_lt.mpr hsize)⟩
  · intro h hversion
    obtain ⟨version, hrange, rfl, -, hvalid, hsize⟩ := decodeManifest_ok h
    rw [versionOf_encodeAs hrange.2] at hversion
    cases hversion
    exact encodeManifest_of_le hvalid hsize
  · intro version h hversion
    obtain ⟨version', hrange, rfl, hmissing, -⟩ := decodeManifest_ok h
    rw [versionOf_encodeAs hrange.2] at hversion
    cases hversion
    exact ⟨rfl, hmissing⟩
  · intro version hversion hmissing hvalid hsize
    exact decodeManifest_encodeAs (by omega) hmissing hvalid hsize
  · intro output e h
    unfold decodeInto at h ⊢
    cases hdec : decodeManifest input with
    | error e' => rfl
    | ok decoded => simp [hdec] at h

/-- A state with one table of two short keys. -/
def smallState : ManifestState :=
  ⟨5, 4, ![[⟨2, 100, encodeInternalKey ⟨[97], 5, .value⟩, encodeInternalKey ⟨[98], 3, .deletion⟩⟩],
    [], []]⟩

theorem manifest_round_trip_small :
    encodeManifest smallState = .ok (encodeAs 3 smallState) ∧
      smallState.encodedSize ≤ maxManifestSize ∧
      decodeManifest (encodeAs 3 smallState) = .ok smallState := by
  have hsize : smallState.encodedSize ≤ maxManifestSize := by decide
  have hencode : encodeManifest smallState = .ok (encodeAs 3 smallState) :=
    encodeManifest_of_le ⟨_, rfl⟩ (by rw [length_encodeAs]; exact hsize)
  exact ⟨hencode, hsize, (((manifest_round_trip smallState []).1 _ hencode).mpr hsize).1⟩

/-! ### At the limit -/

/-- One table in level 0, with the same key at both ends. -/
def wideState (key : Bytes) : ManifestState := ⟨1, 1, ![[⟨1, 1, key, key⟩], [], []]⟩

theorem encodedSize_wideState (key : Bytes) :
    (wideState key).encodedSize = 68 + 2 * key.length := by
  simp [ManifestState.encodedSize, wideState, TableMeta.encodedSize]
  omega

theorem validateState_wideState {key : Bytes} {k : InternalKey}
    (hparse : parseInternalKey key = some k) (hlen : key.length ≤ maxUint32) :
    validateState (wideState key) = .ok [1] := by
  have hless : internalKeyLess key key ≠ some true := by
    rw [internalKeyLess_eq hparse hparse]
    simp
  have htable : validateTable ⟨1, 1, key, key⟩ [] = .ok [1] := by
    simp [validateTable, hparse, hless, not_lt.mpr hlen]
  have hcount : ¬∃ l, ((wideState key).levels l).length > maxUint32 := by
    rintro ⟨l, hl⟩
    fin_cases l <;> simp [wideState, maxUint32] at hl
  have hflushed : ¬(wideState key).flushedSequence.toNat > maxSequenceNumber :=
    show ¬(1 : UInt64).toNat > maxSequenceNumber by decide
  unfold validateState
  rw [if_neg hflushed, if_neg (show ¬(wideState key).oldestWalNumber = 0 by simp [wideState]),
    if_neg hcount]
  simp only [wideState, Matrix.cons_val_zero, Matrix.cons_val_one, Matrix.cons_val, validateLevel0,
    validateLevel, htable, bind, Except.bind]

/-- The counts of the empty levels and the checksum are added behind the writer's last check. -/
theorem wideState_rejected {key : Bytes} {k : InternalKey}
    (hparse : parseInternalKey key = some k) (hlen : key.length = 33554402) :
    encodeManifest (wideState key) = .ok (encodeAs 3 (wideState key)) ∧
      decodeManifest (encodeAs 3 (wideState key)) =
        .error (.corruption "manifest exceeds 64 MiB") ∧
      readFile (encodeAs 3 (wideState key)) =
        .error (.corruption "manifest is not a valid regular file") := by
  have hvalid := validateState_wideState hparse (by rw [hlen]; decide)
  have hsize : (encodeAs 3 (wideState key)).length = 67108872 := by
    rw [length_encodeAs, encodedSize_wideState, hlen]
  have hlong : (encodeAs 3 (wideState key)).length > maxManifestSize := by
    rw [hsize]
    decide
  have h0 : (header 3 (wideState key) ++ encodeTables ((wideState key).levels 0)).length ≤
      maxManifestSize - 4 := by
    simp only [wideState, Matrix.cons_val_zero, List.length_append, length_header,
      length_encodeTables, List.map_cons, List.map_nil, List.sum_cons, List.sum_nil,
      TableMeta.encodedSize, hlen]
    decide
  refine ⟨?_, ?_, if_pos hlong⟩
  · unfold encodeManifest
    rw [hvalid]
    rw [appendTables_of_le h0, encodeAs, contents_three]
    simp only [bind, Except.bind, wideState, Matrix.cons_val_one, Matrix.cons_val, appendTables,
      appendEach, encodeTables, List.flatMap_nil, List.append_nil]
  · unfold decodeManifest
    rw [if_neg (by rw [hsize]; decide), if_pos hlong]

theorem exists_rejected {K : Bytes} (hlen : K.length = 33554394) :
    ∃ bytes, encodeManifest (wideState (encodeInternalKey ⟨K, 1, .value⟩)) = .ok bytes ∧
      decodeManifest bytes = .error (.corruption "manifest exceeds 64 MiB") ∧
      readFile bytes = .error (.corruption "manifest is not a valid regular file") := by
  have hkey : (encodeInternalKey ⟨K, 1, .value⟩).length = 33554402 := by
    simp [encodeInternalKey, hlen]
  have hsequence : (⟨K, 1, .value⟩ : InternalKey).sequence ≤ maxSequenceNumber :=
    (by decide : 1 ≤ maxSequenceNumber)
  exact ⟨_, wideState_rejected (parseInternalKey_encode hsequence) hkey⟩

/-- The writer accepts a table whose two keys have 33554402 bytes each, and the reader then refuses
the file of 67108872 bytes. -/
theorem manifest_at_limit_rejected :
    ∃ bytes, encodeManifest (wideState (encodeInternalKey
        ⟨List.replicate 33554394 97, 1, .value⟩)) = .ok bytes ∧
      decodeManifest bytes = .error (.corruption "manifest exceeds 64 MiB") ∧
      readFile bytes = .error (.corruption "manifest is not a valid regular file") :=
  exists_rejected List.length_replicate

end Mizu.Lsm.Encoded
