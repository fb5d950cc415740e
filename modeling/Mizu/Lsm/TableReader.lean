import Mathlib.Data.List.TakeWhile
import Mizu.Lsm.BlockRead
import Mizu.Lsm.TableBuilder

/-!
# Reading a table back

`SSTableReader` and `SSTableIterator` of `table/sstable_reader.cc` over `table/table_io.cc`. A call
is `none` when an assertion fails or a block is read outside of its bytes; what is wrong with the
file is a status.

A reader over `tableFile` finds every block where the builder has put it. The iterator is described
by the entries that are still to come.
-/

namespace Mizu.Lsm

open Multiversion

/-! ### Reads of the file -/

/-- `pread` in a loop; a read of nothing needs no bytes. -/
def readExactly (file : Bytes) (offset size : ℕ) : Except Status Bytes :=
  if size = 0 ∨ offset + size ≤ file.length then .ok ((file.drop offset).take size)
  else .error (.corruption "truncated SSTable input")

def validateBlockHandle (fileSize : ℕ) (handle : BlockHandle) : Except Status Unit :=
  if fileSize < sstableFooterSize then .error (.corruption "SSTable is shorter than its footer")
  else if handle.offset > fileSize - sstableFooterSize then
    .error (.corruption "block offset is outside SSTable")
  else if handle.size > fileSize - sstableFooterSize - handle.offset ∨
      blockTrailerSize > fileSize - sstableFooterSize - handle.offset - handle.size then
    .error (.corruption "block extends outside SSTable")
  else .ok ()

/-- The fields behind the magic: version, reserved field and the two handles. -/
def footerFields (input : Bytes) : Option (ℕ × ℕ × BlockHandle × BlockHandle) := do
  let (version, input) ← getFixed32 input
  let (reserved, input) ← getFixed32 input
  let (filterHandle, input) ← getBlockHandle input
  let (indexHandle, input) ← getBlockHandle input
  if input ≠ [] then none else some (version, reserved, filterHandle, indexHandle)

def decodeSSTableFooter (encoded : Bytes) : Except Status (BlockHandle × BlockHandle) :=
  if encoded.length ≠ sstableFooterSize then .error (.corruption "invalid SSTable footer size")
  else if encoded.take 8 ≠ sstableMagic then .error (.corruption "invalid SSTable magic")
  else
    match footerFields (encoded.drop 8) with
    | none => .error (.corruption "invalid SSTable footer")
    | some (version, reserved, filterHandle, indexHandle) =>
      if version ≠ sstableVersion then .error (.notSupported "unsupported SSTable version")
      else if reserved ≠ 0 then .error (.corruption "non-zero SSTable footer reserved field")
      else .ok (filterHandle, indexHandle)

def readSSTableFooter (file : Bytes) (fileSize : ℕ) : Except Status (BlockHandle × BlockHandle) :=
  if fileSize < sstableFooterSize then .error (.corruption "SSTable is shorter than its footer")
  else do
    let encoded ← readExactly file (fileSize - sstableFooterSize) sstableFooterSize
    let (filterHandle, indexHandle) ← decodeSSTableFooter encoded
    validateBlockHandle fileSize filterHandle
    validateBlockHandle fileSize indexHandle
    .ok (filterHandle, indexHandle)

def readBlock (file : Bytes) (fileSize : ℕ) (handle : BlockHandle) (verifyChecksum : Bool) :
    Except Status Bytes := do
  validateBlockHandle fileSize handle
  let block ← readExactly file handle.offset (handle.size + blockTrailerSize)
  if verifyChecksum ∧ LittleEndian.decode (block.drop (handle.size + 1)) ≠
      crc32c (block.take (handle.size + 1)) then
    .error (.corruption "SSTable block checksum mismatch")
  else if block.getD handle.size 0 ≠ noCompression then
    .error (.corruption "unsupported SSTable block compression")
  else .ok (block.take handle.size)

/-! ### The reader -/

structure SSTableReader where
  file : Bytes
  fileSize : ℕ
  filterBlock : Bytes
  indexBlock : Bytes
deriving DecidableEq

namespace SSTableReader

def openTable (file : Bytes) : Option (Except Status SSTableReader) :=
  let blocks : Except Status (Bytes × Bytes) := do
    let (filterHandle, indexHandle) ← readSSTableFooter file file.length
    let filterBlock ← readBlock file file.length filterHandle true
    let indexBlock ← readBlock file file.length indexHandle true
    .ok (filterBlock, indexBlock)
  match blocks with
  | .error s => some (.error s)
  | .ok (filterBlock, indexBlock) => do
    let index ← BlockIterator.new indexBlock
    match index.status with
    | some s => some (.error s)
    | none => some (.ok ⟨file, file.length, filterBlock, indexBlock⟩)

variable (table : SSTableReader)

/-- The data block that an index entry names. -/
def readDataBlock (encodedHandle : Bytes) (verifyChecksums : Bool) : Except Status Bytes :=
  match getBlockHandle encodedHandle with
  | some (handle, []) => readBlock table.file table.fileSize handle verifyChecksums
  | _ => .error (.corruption "invalid data block handle in SSTable index")

/-- The last part of `get`, on the entry that was found. -/
def answer (key value userKey : Bytes) : Except Status (Answer Bytes) :=
  match parseInternalKey key with
  | none => .error (.corruption "invalid internal key in SSTable data block")
  | some parsed =>
    if parsed.userKey ≠ userKey then .ok .absent
    else
      match parsed.type with
      | .deletion => .ok .deleted
      | .value => .ok (.value value)

/-- `get` in the data block that the index points to. -/
def getIn (dataBlock lookupKey userKey : Bytes) : Option (Except Status (Answer Bytes)) := do
  let data ← BlockIterator.new dataBlock
  match data.status with
  | some s => some (.error s)
  | none =>
    let data ← data.seek lookupKey
    match data.status with
    | some s => some (.error s)
    | none =>
      if data.valid = false then
        some (.error (.corruption "SSTable index does not cover its data block"))
      else some (answer data.key data.value userKey)

def get (verifyChecksums : Bool) (userKey : Bytes) (visibleSequence : ℕ) :
    Option (Except Status (Answer Bytes)) :=
  if visibleSequence > maxSequenceNumber then none
  else if bloomFilterMayContain userKey table.filterBlock = false then some (.ok .absent)
  else do
    let lookupKey := encodeInternalKey ⟨userKey, visibleSequence, .value⟩
    let index ← BlockIterator.new table.indexBlock
    match index.status with
    | some s => some (.error s)
    | none =>
      let index ← index.seek lookupKey
      match index.status with
      | some s => some (.error s)
      | none =>
        if index.valid = false then some (.ok .absent)
        else
          match table.readDataBlock index.value verifyChecksums with
          | .error s => some (.error s)
          | .ok dataBlock => getIn dataBlock lookupKey userKey

end SSTableReader

/-! ### The iterator -/

structure SSTableIterator where
  table : SSTableReader
  verifyChecksums : Bool
  index : BlockIterator
  data : Option BlockIterator := none
  status : Option Status := none
deriving DecidableEq

namespace SSTableIterator

def new (table : SSTableReader) (verifyChecksums : Bool) : Option SSTableIterator := do
  let index ← BlockIterator.new table.indexBlock
  some ⟨table, verifyChecksums, index, none, index.status⟩

variable (it : SSTableIterator)

def valid : Bool := it.status.isNone && (it.data.map BlockIterator.valid).getD false

def fail (s : Status) : SSTableIterator := { it with status := some s, data := none }

def loadDataBlock : Option SSTableIterator :=
  match it.table.readDataBlock it.index.value it.verifyChecksums with
  | .error s => some { it with status := some s }
  | .ok dataBlock => do
    let data ← BlockIterator.new dataBlock
    match data.status with
    | some s => some (it.fail s)
    | none =>
      let data ← data.seekToFirst
      match data.status with
      | some s => some (it.fail s)
      | none =>
        if data.valid then some { it with status := none, data := some data }
        else some (it.fail (.corruption "SSTable index references an empty data block"))

def seekToFirst : Option SSTableIterator :=
  if it.status ≠ none then some it
  else do
    let index ← it.index.seekToFirst
    let it := { it with data := none, index := index }
    match index.status with
    | some s => some (it.fail s)
    | none => if index.valid then it.loadDataBlock else some it

def seek (target : Bytes) : Option SSTableIterator :=
  if it.status ≠ none then some it
  else if parseInternalKey target = none then
    some (it.fail (.invalidArgument "invalid InternalKey seek target"))
  else do
    let index ← it.index.seek target
    let it := { it with data := none, index := index }
    match index.status with
    | some s => some (it.fail s)
    | none =>
      if index.valid = false then some it
      else
        let it ← it.loadDataBlock
        match it.status with
        | some _ => some it
        | none =>
          let data ← it.data
          let data ← data.seek target
          match data.status with
          | some s => some (it.fail s)
          | none =>
            if data.valid then some { it with data := some data }
            else some (it.fail (.corruption "SSTable index does not cover seek target"))

def next : Option SSTableIterator :=
  if it.valid = false then none
  else do
    let data ← it.data
    let data ← data.next
    match data.status with
    | some s => some (it.fail s)
    | none =>
      if data.valid then some { it with data := some data }
      else
        let index ← it.index.next
        let it := { it with data := none, index := index }
        match index.status with
        | some s => some (it.fail s)
        | none => if index.valid then it.loadDataBlock else some it

/-- `internalKey` and `value`. -/
def current : Option (Bytes × Bytes) :=
  if it.valid then it.data.map fun data => (data.key, data.value) else none

/-- The keys and values that `next` leads over, and the iterator at the end. -/
def entries : ℕ → SSTableIterator → Option (List (Bytes × Bytes) × SSTableIterator)
  | 0, it => if it.valid then none else some ([], it)
  | fuel + 1, it =>
    match it.current with
    | none => some ([], it)
    | some shown => do
      let it' ← it.next
      let (rest, last) ← entries fuel it'
      some (shown :: rest, last)

end SSTableIterator

/-! ### Blocks in a file -/

section Reads

variable {front rest payload : Bytes} {interval : ℕ} {bs : List (List Entry)} {b : List Entry}
  {i : ℕ}

/-- A block inside of the file is accepted or refused by its trailer. -/
theorem readBlock_at {file block : Bytes} {size : ℕ} (hfile : file = front ++ (block ++ rest))
    (hblock : block.length = size + blockTrailerSize) (hrest : sstableFooterSize ≤ rest.length)
    (verifyChecksum : Bool) :
    readBlock file file.length ⟨front.length, size⟩ verifyChecksum =
      if verifyChecksum ∧ LittleEndian.decode (block.drop (size + 1)) ≠
          crc32c (block.take (size + 1)) then
        .error (.corruption "SSTable block checksum mismatch")
      else if block.getD size 0 ≠ noCompression then
        .error (.corruption "unsupported SSTable block compression")
      else .ok (block.take size) := by
  have hlen : file.length = front.length + (size + blockTrailerSize + rest.length) := by
    simp [hfile, hblock]
  have hvalid : validateBlockHandle file.length ⟨front.length, size⟩ = .ok () := by
    rw [validateBlockHandle, hlen, if_neg (by omega), if_neg (by dsimp only; omega),
      if_neg (by dsimp only; omega)]
  have hread : readExactly file front.length (size + blockTrailerSize) = .ok block := by
    rw [readExactly, if_pos (by right; omega), hfile, List.drop_left, List.take_left' hblock]
  rw [readBlock, hvalid, hread]
  rfl

/-- A block that was written is read back, with or without its checksum. -/
theorem readBlock_append {file : Bytes}
    (hfile : file = front ++ (SSTableBuilder.blockContents payload ++ rest))
    (hrest : sstableFooterSize ≤ rest.length) (verifyChecksum : Bool) :
    readBlock file file.length ⟨front.length, payload.length⟩ verifyChecksum = .ok payload := by
  have htake : (SSTableBuilder.blockContents payload).take (payload.length + 1) =
      payload ++ [noCompression] := List.take_left' (by simp)
  have hdrop : (SSTableBuilder.blockContents payload).drop (payload.length + 1) =
      putFixed32 (crc32c (payload ++ [noCompression])) := List.drop_left' (by simp)
  have hcrc : LittleEndian.decode (putFixed32 (crc32c (payload ++ [noCompression]))) =
      crc32c (payload ++ [noCompression]) :=
    LittleEndian.decode_encode (lt_of_lt_of_le (crc32c_lt _) (by decide))
  have hcompression : (SSTableBuilder.blockContents payload).getD payload.length 0 =
      noCompression := by
    simp [SSTableBuilder.blockContents, List.getD_eq_getElem?_getD]
  have hpayload : (SSTableBuilder.blockContents payload).take payload.length = payload := by
    rw [SSTableBuilder.blockContents, List.append_assoc, List.take_left]
  rw [readBlock_at hfile (by simp [blockTrailerSize]) hrest, htake, hdrop, hcrc, hcompression,
    hpayload, if_neg (fun h => h.2 rfl), if_neg (not_not_intro rfl)]

theorem getBlockHandle_put {handle : BlockHandle} (hoffset : handle.offset < 2 ^ 64)
    (hsize : handle.size < 2 ^ 64) (rest : Bytes) :
    getBlockHandle (putBlockHandle handle ++ rest) = some (handle, rest) := by
  simp [getBlockHandle, putBlockHandle, getFixed64_put hoffset, getFixed64_put hsize]

theorem decodeSSTableFooter_put {filterHandle indexHandle : BlockHandle}
    (hfilter : filterHandle.offset < 2 ^ 64 ∧ filterHandle.size < 2 ^ 64)
    (hindex : indexHandle.offset < 2 ^ 64 ∧ indexHandle.size < 2 ^ 64) :
    decodeSSTableFooter (putSSTableFooter filterHandle indexHandle) =
      .ok (filterHandle, indexHandle) := by
  have htake : (putSSTableFooter filterHandle indexHandle).take 8 = sstableMagic :=
    List.take_left' rfl
  have hfields : footerFields ((putSSTableFooter filterHandle indexHandle).drop 8) =
      some (sstableVersion, 0, filterHandle, indexHandle) := by
    have hindex' := getBlockHandle_put hindex.1 hindex.2 []
    rw [List.append_nil] at hindex'
    rw [putSSTableFooter, List.drop_left' (show sstableMagic.length = 8 from rfl)]
    simp only [footerFields, getFixed32_put (by decide : sstableVersion < 2 ^ 32),
      getFixed32_put (by decide : 0 < 2 ^ 32), getBlockHandle_put hfilter.1 hfilter.2, hindex',
      Option.bind_eq_bind, Option.bind_some, ne_eq, not_true, if_false]
  rw [decodeSSTableFooter, length_putSSTableFooter, if_neg (not_not.mpr rfl), htake,
    if_neg (not_not.mpr rfl), hfields]
  rfl

/-! ### Where the builder has put the blocks -/

/-- Blocks of ascending entries that are below 4 GiB. -/
structure TableOf (restartInterval : ℕ) (bs : List (List Entry)) : Prop
    extends Bounded restartInterval bs where
  interval : 0 < restartInterval
  nonempty : ∀ b ∈ bs, b ≠ []
  ascending : Ascending bs.flatten
  sequence : ∀ e ∈ bs.flatten, e.key.sequence ≤ maxSequenceNumber

theorem length_dataPart (interval : ℕ) (bs : List (List Entry)) :
    12 * bs.flatten.length ≤ (dataPart interval bs).length := by
  induction bs with
  | nil => simp
  | cons b bs ih =>
    have hb := length_blockBytes_append interval [] b
    rw [← List.singleton_append, dataPart_append, dataPart_singleton, List.length_append,
      length_blockContents]
    simp only [List.nil_append, List.singleton_append, List.flatten_cons, List.length_append] at *
    omega

theorem length_dataPart_le (h : ∀ b ∈ bs, (blockBytes interval b).length < 2 ^ 32) :
    (dataPart interval bs).length ≤ bs.length * (2 ^ 32 + 4) := by
  induction bs with
  | nil => simp [dataPart]
  | cons b bs ih =>
    obtain ⟨hb, hbs⟩ := List.forall_mem_cons.mp h
    have := ih hbs
    rw [← List.singleton_append, dataPart_append, dataPart_singleton, List.length_append,
      length_blockContents, List.length_append, List.length_singleton]
    omega

theorem length_tableFile (interval : ℕ) (bs : List (List Entry)) :
    (tableFile interval bs).length = (dataPart interval bs).length +
      ((filterBytes bs).length + 5) + ((indexBytes interval bs).length + 5) +
        sstableFooterSize := by
  simp only [tableFile, List.length_append, length_blockContents, length_putSSTableFooter]

/-- Positions in the file fit their 64 bits: the index has an entry for every block. -/
theorem Bounded.length_tableFile (h : Bounded interval bs) :
    (tableFile interval bs).length < 2 ^ 64 := by
  have hcount := length_dataPart interval bs
  have hdata := length_dataPart_le h.block
  have hindex := length_blockBytes_append interval [] (indexEntries interval 0 bs)
  have hbound := h.index
  have hfilter : (filterBytes bs).length = bloomByteCount bs.flatten.length + 1 := by
    rw [filterBytes, length_buildFilter, List.length_map, List.length_map]
  rw [List.nil_append, length_indexEntries] at hindex
  rw [Lsm.length_tableFile, hfilter, bloomByteCount, sstableFooterSize]
  rw [indexBytes] at hbound ⊢
  omega

theorem TableOf.handles_lt (h : TableOf interval bs) :
    ((filterHandle interval bs).offset < 2 ^ 64 ∧
      (filterHandle interval bs).size < 2 ^ 64) ∧
    (indexHandle interval bs).offset < 2 ^ 64 ∧
      (indexHandle interval bs).size < 2 ^ 64 := by
  have hlen := h.toBounded.length_tableFile
  rw [length_tableFile] at hlen
  simp only [filterHandle, indexHandle, length_blockContents]
  omega

theorem readBlock_filter (interval : ℕ) (bs : List (List Entry)) (verifyChecksum : Bool) :
    readBlock (tableFile interval bs) (tableFile interval bs).length
      (filterHandle interval bs) verifyChecksum = .ok (filterBytes bs) := by
  have hfile : tableFile interval bs = dataPart interval bs ++
      (SSTableBuilder.blockContents (filterBytes bs) ++
        (SSTableBuilder.blockContents (indexBytes interval bs) ++
          putSSTableFooter (filterHandle interval bs) (indexHandle interval bs))) := by
    simp only [tableFile, List.append_assoc]
  refine readBlock_append hfile ?_ verifyChecksum
  rw [List.length_append, length_putSSTableFooter]
  omega

theorem readBlock_index (interval : ℕ) (bs : List (List Entry)) (verifyChecksum : Bool) :
    readBlock (tableFile interval bs) (tableFile interval bs).length
      (indexHandle interval bs) verifyChecksum = .ok (indexBytes interval bs) := by
  have hfile : tableFile interval bs =
      (dataPart interval bs ++ SSTableBuilder.blockContents (filterBytes bs)) ++
        (SSTableBuilder.blockContents (indexBytes interval bs) ++
          putSSTableFooter (filterHandle interval bs) (indexHandle interval bs)) := by
    simp only [tableFile, List.append_assoc]
  have hread := readBlock_append hfile (length_putSSTableFooter _ _).ge verifyChecksum
  rwa [List.length_append] at hread

/-- A data block is where its index entry says. -/
theorem readBlock_data (hb : bs[i]? = some b) (verifyChecksum : Bool) :
    readBlock (tableFile interval bs) (tableFile interval bs).length
      ⟨(dataPart interval (bs.take i)).length, (blockBytes interval b).length⟩
      verifyChecksum = .ok (blockBytes interval b) := by
  have hbs : bs = bs.take i ++ ([b] ++ bs.drop (i + 1)) := by
    obtain ⟨hi, rfl⟩ := List.getElem?_eq_some_iff.mp hb
    rw [List.singleton_append, ← List.drop_eq_getElem_cons hi, List.take_append_drop]
  have hdata : dataPart interval bs = dataPart interval (bs.take i) ++
      (SSTableBuilder.blockContents (blockBytes interval b) ++
        dataPart interval (bs.drop (i + 1))) := by
    conv_lhs => rw [hbs, dataPart_append, dataPart_append, dataPart_singleton]
  have hfile : tableFile interval bs = dataPart interval (bs.take i) ++
      (SSTableBuilder.blockContents (blockBytes interval b) ++
        (dataPart interval (bs.drop (i + 1)) ++
          (SSTableBuilder.blockContents (filterBytes bs) ++
            (SSTableBuilder.blockContents (indexBytes interval bs) ++
              putSSTableFooter (filterHandle interval bs)
                (indexHandle interval bs))))) := by
    simp only [tableFile, hdata, List.append_assoc]
  refine readBlock_append hfile ?_ verifyChecksum
  simp only [List.length_append, length_putSSTableFooter]
  omega

/-- The footer, with handles that are inside the file. -/
theorem TableOf.readFooter (h : TableOf interval bs) :
    readSSTableFooter (tableFile interval bs) (tableFile interval bs).length =
      .ok (filterHandle interval bs, indexHandle interval bs) := by
  have hlen := length_tableFile interval bs
  have hread : readExactly (tableFile interval bs)
      ((tableFile interval bs).length - sstableFooterSize) sstableFooterSize =
        .ok (putSSTableFooter (filterHandle interval bs)
          (indexHandle interval bs)) := by
    have hfooter := length_putSSTableFooter (filterHandle interval bs)
      (indexHandle interval bs)
    rw [readExactly, if_pos (by right; omega)]
    congr 1
    rw [tableFile, List.length_append, hfooter, Nat.add_sub_cancel, List.drop_left,
      List.take_of_length_le hfooter.le]
  have hfilter : validateBlockHandle (tableFile interval bs).length
      (filterHandle interval bs) = .ok () := by
    simp only [validateBlockHandle, filterHandle, hlen, blockTrailerSize]
    rw [if_neg (by omega), if_neg (by omega), if_neg (by omega)]
  have hindex : validateBlockHandle (tableFile interval bs).length
      (indexHandle interval bs) = .ok () := by
    simp only [validateBlockHandle, indexHandle, hlen, blockTrailerSize, length_blockContents]
    rw [if_neg (by omega), if_neg (by omega), if_neg (by omega)]
  obtain ⟨hf, hi⟩ := h.handles_lt
  rw [readSSTableFooter, if_neg (by omega)]
  simp only [hread, decodeSSTableFooter_put hf hi, hfilter, hindex, bind, Except.bind]

/-! ### The index -/

theorem getElem?_indexEntries (offset i : ℕ) (bs : List (List Entry)) :
    (indexEntries interval offset bs)[i]? = bs[i]?.map
      (indexEntry interval (offset + (dataPart interval (bs.take i)).length)) := by
  induction bs generalizing offset i with
  | nil => simp [indexEntries]
  | cons b bs ih =>
    cases i with
    | zero => rfl
    | succ i =>
      rw [indexEntries, List.getElem?_cons_succ, ih, List.getElem?_cons_succ, List.take_succ_cons,
        ← List.singleton_append, dataPart_append, dataPart_singleton, List.length_append,
        Nat.add_assoc]

theorem exists_lastKeyOf (hb : b ≠ []) : ∃ e ∈ b, e.key = lastKeyOf b := by
  obtain ⟨init, e, rfl⟩ := (List.eq_nil_or_concat' b).resolve_left hb
  exact ⟨e, by simp, by simp [lastKeyOf]⟩

theorem le_lastKeyOf (hb : Ascending b) {e : Entry} (he : e ∈ b) : e.key ≤ lastKeyOf b := by
  obtain ⟨init, x, rfl⟩ := (List.eq_nil_or_concat' b).resolve_left (List.ne_nil_of_mem he)
  have hlast : lastKeyOf (init ++ [x]) = x.key := by simp [lastKeyOf]
  rw [hlast]
  rcases List.mem_append.mp he with he | he
  · exact ((List.pairwise_append.mp hb).2.2 e he x (by simp)).le
  · rw [List.mem_singleton.mp he]

theorem key_of_mem_indexEntries {offset : ℕ} {x : Entry}
    (hx : x ∈ indexEntries interval offset bs) : ∃ b ∈ bs, x.key = lastKeyOf b := by
  induction bs generalizing offset with
  | nil => simp [indexEntries] at hx
  | cons b bs ih =>
    rcases List.mem_cons.mp hx with rfl | hx
    · exact ⟨b, List.mem_cons_self, rfl⟩
    · obtain ⟨b', hb', hkey⟩ := ih hx
      exact ⟨b', List.mem_cons_of_mem _ hb', hkey⟩

theorem ascending_indexEntries (hne : ∀ b ∈ bs, b ≠ []) (hes : Ascending bs.flatten)
    (offset : ℕ) : Ascending (indexEntries interval offset bs) := by
  induction bs generalizing offset with
  | nil => exact List.Pairwise.nil
  | cons b bs ih =>
    obtain ⟨hb, hbs⟩ := List.forall_mem_cons.mp hne
    obtain ⟨-, hrest, hlt⟩ := List.pairwise_append.mp hes
    refine List.pairwise_cons.mpr ⟨?_, ih hbs hrest _⟩
    intro x hx
    obtain ⟨b', hb', hkey⟩ := key_of_mem_indexEntries hx
    obtain ⟨e, he, hlast⟩ := exists_lastKeyOf hb
    obtain ⟨e', he', hlast'⟩ := exists_lastKeyOf (hbs b' hb')
    have := hlt e he e' (List.mem_flatten_of_mem hb' he')
    rwa [hlast, hlast', ← hkey] at this

namespace TableOf

theorem ascending_block (h : TableOf interval bs) (hb : b ∈ bs) : Ascending b :=
  (List.pairwise_flatten.mp h.ascending).1 b hb

theorem index_layout (h : TableOf interval bs) :
    ∃ cs rs, Layout (indexBytes interval bs) cs rs ∧
      cs.map Chunk.entry = indexEntries interval 0 bs := by
  refine exists_layout h.interval (ascending_indexEntries h.nonempty h.ascending 0) ?_ h.index
  intro x hx
  obtain ⟨b, hb, hkey⟩ := key_of_mem_indexEntries hx
  obtain ⟨e, he, hlast⟩ := exists_lastKeyOf (h.nonempty b hb)
  rw [hkey, ← hlast]
  exact h.sequence e (List.mem_flatten_of_mem hb he)

theorem data_layout (h : TableOf interval bs) (hb : b ∈ bs) :
    ∃ cs rs, Layout (blockBytes interval b) cs rs ∧ cs.map Chunk.entry = b :=
  exists_layout h.interval (h.ascending_block hb)
    (fun e he => h.sequence e (List.mem_flatten_of_mem hb he)) (h.block b hb)

end TableOf

/-- The reader of a table. -/
def readerOf (restartInterval : ℕ) (bs : List (List Entry)) : SSTableReader where
  file := tableFile restartInterval bs
  fileSize := (tableFile restartInterval bs).length
  filterBlock := filterBytes bs
  indexBlock := indexBytes restartInterval bs

theorem TableOf.openTable_eq (h : TableOf interval bs) :
    SSTableReader.openTable (tableFile interval bs) =
      some (.ok (readerOf interval bs)) := by
  obtain ⟨cs, rs, L, -⟩ := h.index_layout
  obtain ⟨index, hnew, hon, -⟩ := L.new
  simp only [SSTableReader.openTable, h.readFooter, readBlock_filter, readBlock_index, bind,
    Except.bind, Option.bind, hnew, hon.status]
  rfl

/-- The index entry of a block leads to it. -/
theorem TableOf.readDataBlock (h : TableOf interval bs) (hb : bs[i]? = some b)
    (verifyChecksums : Bool) :
    (readerOf interval bs).readDataBlock
      (putBlockHandle ⟨(dataPart interval (bs.take i)).length,
        (blockBytes interval b).length⟩) verifyChecksums =
      .ok (blockBytes interval b) := by
  have hlen := h.toBounded.length_tableFile
  rw [length_tableFile] at hlen
  have hoffset : (dataPart interval (bs.take i)).length ≤
      (dataPart interval bs).length := by
    conv_rhs => rw [← List.take_append_drop i bs, dataPart_append, List.length_append]
    exact Nat.le_add_right _ _
  have hsize := h.block b (List.mem_of_getElem? hb)
  have hhandle : getBlockHandle (putBlockHandle ⟨(dataPart interval (bs.take i)).length,
      (blockBytes interval b).length⟩ ++ []) = some (_, []) :=
    getBlockHandle_put (by dsimp only; omega) (by dsimp only; omega) []
  rw [List.append_nil] at hhandle
  rw [SSTableReader.readDataBlock, hhandle]
  exact readBlock_data hb verifyChecksums

end Reads

/-! ### Positions of the iterator -/

section Positions

variable {interval : ℕ} {bs : List (List Entry)} {b : List Entry} {ics : List Chunk}
  {irs : List ℕ} {i j : ℕ} {ic c : Chunk} {it : SSTableIterator}

/-- The iterator is over this table and has not failed. -/
structure Over (L : Layout (indexBytes interval bs) ics irs) (it : SSTableIterator) :
    Prop where
  table : it.table = readerOf interval bs
  status : it.status = none
  index : L.On it.index

/-- The iterator is in a data block. -/
structure InBlock (L : Layout (indexBytes interval bs) ics irs) (it : SSTableIterator)
    (i : ℕ) (b : List Entry) (cs : List Chunk) (data : BlockIterator) : Prop
    extends Over L it where
  block : bs[i]? = some b
  entry : ∃ ic, L.At it.index i ic
  entries : cs.map Chunk.entry = b
  data : it.data = some data

/-- Where the iterator is, by the entries that are still to come. -/
inductive Remains (L : Layout (indexBytes interval bs) ics irs) (it : SSTableIterator) :
    List Entry → Prop
  | entry {i j : ℕ} {b : List Entry} {cs : List Chunk} {rs : List ℕ} {c : Chunk}
      {data : BlockIterator} (D : Layout (blockBytes interval b) cs rs)
      (hin : InBlock L it i b cs data) (hat : D.At data j c) :
      Remains L it (b.drop j ++ (bs.drop (i + 1)).flatten)
  | done (hover : Over L it) (hdata : it.data = none) : Remains L it []

variable {L : Layout (indexBytes interval bs) ics irs} {index : BlockIterator}

/-- The block that an index entry belongs to. -/
theorem At.exists_block
    (hics : ics.map Chunk.entry = indexEntries interval 0 bs) (hat : L.At index i ic) :
    ∃ b, bs[i]? = some b ∧ ic.entry.key = lastKeyOf b ∧
      index.value = putBlockHandle ⟨(dataPart interval (bs.take i)).length,
        (blockBytes interval b).length⟩ := by
  have hentry : (ics.map Chunk.entry)[i]? = some ic.entry := by
    rw [List.getElem?_map, hat.entry, Option.map_some]
  rw [hics, getElem?_indexEntries, Option.map_eq_some_iff] at hentry
  obtain ⟨b, hb, hentry⟩ := hentry
  refine ⟨b, hb, by rw [← hentry]; rfl, ?_⟩
  rw [hat.value, ← hentry, Nat.zero_add]
  rfl

variable {cs : List Chunk}

theorem drop_entries (hcs : cs.map Chunk.entry = b) (hc : cs[j]? = some c) :
    b.drop j = c.entry :: b.drop (j + 1) := by
  obtain ⟨hj, rfl⟩ := List.getElem?_eq_some_iff.mp hc
  rw [← hcs, ← List.map_drop, ← List.map_drop, List.drop_eq_getElem_cons hj, List.map_cons]

theorem drop_flatten (hb : bs[i]? = some b) :
    (bs.drop i).flatten = b ++ (bs.drop (i + 1)).flatten := by
  obtain ⟨hi, rfl⟩ := List.getElem?_eq_some_iff.mp hb
  rw [List.drop_eq_getElem_cons hi, List.flatten_cons]

theorem length_ics (hics : ics.map Chunk.entry = indexEntries interval 0 bs) :
    ics.length = bs.length := by
  rw [← List.length_map (f := Chunk.entry), hics, length_indexEntries]

variable {rest : List Entry} {e : Entry}

theorem Over.index_at (h : Over L it) (hon : L.On index) :
    Over L { it with data := none, index := index } :=
  ⟨h.table, h.status, hon⟩

theorem Remains.over (h : Remains L it rest) : Over L it := by
  cases h with
  | entry _ hin _ => exact hin.toOver
  | done hover _ => exact hover

/-- The iterator shows the first of the entries that are still to come. -/
theorem Remains.current_eq (h : Remains L it rest) : it.current = rest.head?.map Entry.shown := by
  cases h with
  | entry D hin hat =>
    rw [drop_entries hin.entries hat.entry]
    simp [SSTableIterator.current, SSTableIterator.valid, hin.status, hin.data, hat.valid, hat.key,
      hat.value, Entry.shown, Chunk.key]
  | done hover hdata => simp [SSTableIterator.current, SSTableIterator.valid, hdata]

theorem Remains.valid_eq (h : Remains L it rest) : it.valid = !rest.isEmpty := by
  cases h with
  | entry D hin hat =>
    rw [drop_entries hin.entries hat.entry]
    simp [SSTableIterator.valid, hin.status, hin.data, hat.valid]
  | done hover hdata => simp [SSTableIterator.valid, hdata]

variable {target : Bytes} {t : InternalKey}

/-- The entries before a position in a block. -/
theorem flatten_split (hb : bs[i]? = some b) (j : ℕ) :
    bs.flatten = ((bs.take i).flatten ++ b.take j) ++ (b.drop j ++ (bs.drop (i + 1)).flatten) := by
  conv_lhs => rw [← List.take_append_drop i bs, List.flatten_append, drop_flatten hb,
    ← List.take_append_drop j b]
  simp only [List.append_assoc]

/-- The index key is the last key of the block, so the block reaches the target. -/
theorem TableOf.reaches (h : TableOf interval bs) (hb : b ∈ bs)
    (hcs : cs.map Chunk.entry = b) (hle : t ≤ lastKeyOf b) : ¬∀ a ∈ cs, a.entry.key < t := by
  intro hall
  obtain ⟨e, he, hlast⟩ := exists_lastKeyOf (h.nonempty b hb)
  rw [← hcs] at he
  obtain ⟨a, ha, rfl⟩ := List.mem_map.mp he
  rw [← hlast] at hle
  exact absurd (hall a ha) (not_lt.mpr hle)

/-- Blocks whose index entries are before a key hold only entries before it. -/
theorem lt_of_lastKeyOf_lt (h : TableOf interval bs) {cs : List (List Entry)}
    (hsub : ∀ b ∈ cs, b ∈ bs) (hlast : ∀ b ∈ cs, lastKeyOf b < t) (he : e ∈ cs.flatten) :
    e.key < t := by
  obtain ⟨b, hb, heb⟩ := List.mem_flatten.mp he
  exact (le_lastKeyOf (h.ascending_block (hsub b hb)) heb).trans_lt (hlast b hb)

theorem lastKeyOf_lt_of_index (hics : ics.map Chunk.entry = indexEntries interval 0 bs)
    (hbefore : ∀ k < i, ∀ a, ics[k]? = some a → a.entry.key < t) (hb : b ∈ bs.take i) :
    lastKeyOf b < t := by
  obtain ⟨k, hk, rfl⟩ := List.mem_iff_getElem.mp hb
  rw [List.length_take] at hk
  have hlen := length_ics hics
  obtain ⟨a, ha⟩ : ∃ a, ics[k]? = some a := ⟨_, List.getElem?_eq_getElem (by omega)⟩
  have hentry : (indexEntries interval 0 bs)[k]? = some a.entry := by
    rw [← hics, List.getElem?_map, ha, Option.map_some]
  rw [getElem?_indexEntries, List.getElem?_eq_getElem (by omega : k < bs.length), Option.map_some,
    Option.some_inj] at hentry
  have hlt := hbefore k (by omega) a ha
  rw [← hentry] at hlt
  rw [List.getElem_take]
  exact hlt

variable (h : TableOf interval bs)
  (hics : ics.map Chunk.entry = indexEntries interval 0 bs)

include h hics

theorem loadDataBlock_eq (hover : Over L it) (hat : L.At it.index i ic) :
    ∃ b cs rs data c it', ∃ D : Layout (blockBytes interval b) cs rs,
      it.loadDataBlock = some it' ∧ InBlock L it' i b cs data ∧ D.At data 0 c ∧
        ic.entry.key = lastKeyOf b := by
  obtain ⟨b, hb, hkey, hvalue⟩ := At.exists_block hics hat
  have hmem := List.mem_of_getElem? hb
  obtain ⟨cs, rs, D, hcs⟩ := h.data_layout hmem
  obtain ⟨fresh, hnew, hon, -⟩ := D.new
  obtain ⟨data, hfirst, ⟨c, hc⟩ | ⟨hnil, -⟩⟩ := D.seekToFirst hon
  · refine ⟨b, cs, rs, data, c, { it with status := none, data := some data }, D, ?_,
      ⟨⟨hover.table, rfl, hover.index⟩, hb, ⟨ic, hat⟩, hcs, rfl⟩, hc, hkey⟩
    have hread : it.table.readDataBlock it.index.value it.verifyChecksums =
        .ok (blockBytes interval b) := by
      rw [hover.table, hvalue]
      exact h.readDataBlock hb it.verifyChecksums
    simp only [SSTableIterator.loadDataBlock, hread, hnew, hon.status, hfirst, hc.status, hc.valid,
      Option.bind_eq_bind, Option.bind_some, if_true]
  · rw [hnil, List.map_nil] at hcs
    exact absurd hcs.symm (h.nonempty b hmem)

theorem loadDataBlock_remains (hover : Over L it) (hat : L.At it.index i ic) :
    ∃ it', it.loadDataBlock = some it' ∧ Remains L it' (bs.drop i).flatten := by
  obtain ⟨b, cs, rs, data, c, it', D, hload, hin, hfirst, -⟩ := loadDataBlock_eq h hics hover hat
  refine ⟨it', hload, ?_⟩
  rw [drop_flatten hin.block]
  exact .entry D hin hfirst

theorem Over.seekToFirst (hover : Over L it) :
    ∃ it', it.seekToFirst = some it' ∧ Remains L it' bs.flatten := by
  obtain ⟨index, hindex, ⟨ic, hat⟩ | ⟨hnil, hon, hv⟩⟩ := L.seekToFirst hover.index
  · obtain ⟨it', hload, hremains⟩ := loadDataBlock_remains h hics (hover.index_at hat.toOn) hat
    refine ⟨it', ?_, hremains⟩
    simp only [SSTableIterator.seekToFirst, hover.status, hindex, hat.status, hat.valid, ne_eq,
      not_true, if_false, if_true, Option.bind_eq_bind, Option.bind_some]
    exact hload
  · have hflat : bs.flatten = [] := by
      have hlen := length_ics hics
      rw [hnil] at hlen
      rw [List.length_eq_zero_iff.mp hlen.symm]
      rfl
    refine ⟨_, ?_, by rw [hflat]; exact .done (hover.index_at hon) rfl⟩
    simp only [SSTableIterator.seekToFirst, hover.status, hindex, hon.status, hv, ne_eq,
      not_true, if_false, Bool.false_eq_true, Option.bind_eq_bind, Option.bind_some]

/-- One step leads to the next entry, in this block or at the beginning of the next. -/
theorem Remains.next (hremains : Remains L it (e :: rest)) :
    ∃ it', it.next = some it' ∧ Remains L it' rest := by
  have hvalid : it.valid = true := by simp [hremains.valid_eq]
  generalize hes : e :: rest = es at hremains
  cases hremains with
  | @entry i j b cs rs c data D hin hat =>
    rw [drop_entries hin.entries hat.entry, List.cons_append] at hes
    obtain ⟨-, rfl⟩ := List.cons.inj hes
    obtain ⟨data', hnext, ⟨c', hat'⟩ | ⟨hend, hon, hv⟩⟩ := hat.next
    · refine ⟨{ it with data := some data' }, ?_, .entry D
        ⟨⟨hin.table, hin.status, hin.index⟩, hin.block, hin.entry, hin.entries, rfl⟩ hat'⟩
      simp only [SSTableIterator.next, hvalid, hin.data, hnext, hat'.status, hat'.valid,
        Bool.true_eq_false, if_false, if_true, Option.bind_eq_bind, Option.bind_some]
    · have hblock : b.drop (j + 1) = [] := by
        rw [List.drop_eq_nil_iff, ← hin.entries, List.length_map, hend]
      obtain ⟨ic, hindex⟩ := hin.entry
      obtain ⟨index, hstep, ⟨ic', hindex'⟩ | ⟨hlast, honIndex, hvIndex⟩⟩ := hindex.next
      · obtain ⟨it', hload, hremains⟩ :=
          loadDataBlock_remains h hics (hin.toOver.index_at hindex'.toOn) hindex'
        refine ⟨it', ?_, by rw [hblock, List.nil_append]; exact hremains⟩
        simp only [SSTableIterator.next, hvalid, hin.data, hnext, hon.status, hv, hstep,
          hindex'.status, hindex'.valid, Bool.true_eq_false, Bool.false_eq_true, if_false, if_true,
          Option.bind_eq_bind, Option.bind_some]
        exact hload
      · have hdrop : bs.drop (i + 1) = [] := by
          rw [List.drop_eq_nil_iff, hlast, length_ics hics]
        refine ⟨_, ?_, by rw [hblock, hdrop]; exact .done (hin.toOver.index_at honIndex) rfl⟩
        simp only [SSTableIterator.next, hvalid, hin.data, hnext, hon.status, hv, hstep,
          honIndex.status, hvIndex, Bool.true_eq_false, Bool.false_eq_true, if_false,
          Option.bind_eq_bind, Option.bind_some]
  | done _ _ => simp at hes

/-! ### Seeking -/

theorem lt_of_index_lt (hall : ∀ a ∈ ics, a.entry.key < t) (he : e ∈ bs.flatten) : e.key < t := by
  refine lt_of_lastKeyOf_lt h (fun b hb => hb) (fun b hb => ?_) he
  refine lastKeyOf_lt_of_index (i := bs.length) hics
    (fun k _ a ha => hall a (List.mem_of_getElem? ha)) ?_
  rwa [List.take_length]

/-- The entries from a position in a block on, when those before it are before the key. -/
theorem dropWhile_eq (hbefore : ∀ k < i, ∀ a, ics[k]? = some a → a.entry.key < t)
    (hb : bs[i]? = some b) (hcs : cs.map Chunk.entry = b) (hc : cs[j]? = some c)
    (hle : t ≤ c.entry.key)
    (hearlier : ∀ k < j, ∀ a, cs[k]? = some a → a.entry.key < t) :
    bs.flatten.dropWhile (fun e => e.key < t) = b.drop j ++ (bs.drop (i + 1)).flatten := by
  have hall : ∀ e ∈ (bs.take i).flatten ++ b.take j, (decide (e.key < t)) = true := by
    intro e he
    rw [decide_eq_true_eq]
    rcases List.mem_append.mp he with he | he
    · exact lt_of_lastKeyOf_lt h (fun b hb => List.mem_of_mem_take hb)
        (fun b hb => lastKeyOf_lt_of_index hics hbefore hb) he
    · obtain ⟨k, hk, rfl⟩ := List.mem_iff_getElem.mp he
      rw [← hcs, List.length_take, List.length_map] at hk
      have := hearlier k (by omega) _ (List.getElem?_eq_getElem (by omega : k < cs.length))
      simpa only [← hcs, List.getElem_take, List.getElem_map] using this
  rw [flatten_split hb j, List.dropWhile_append_of_pos hall, drop_entries hcs hc, List.cons_append,
    List.dropWhile_cons_of_neg (by simpa using hle)]

/-- `seek` from any position leaves the entries that are not before the target. -/
theorem Over.seek (hover : Over L it) (ht : parseInternalKey target = some t) :
    ∃ it', it.seek target = some it' ∧
      Remains L it' (bs.flatten.dropWhile fun e => e.key < t) := by
  obtain ⟨index, hindex, hstopped⟩ := L.seek hover.index ht
  cases hstopped with
  | @entry i ic hat hle hbefore =>
    obtain ⟨b, cs, rs, data, c, it', D, hload, hin, hfirst, hkey⟩ :=
      loadDataBlock_eq h hics (hover.index_at hat.toOn) hat
    obtain ⟨data', hseek, hstopped'⟩ := D.seek hfirst.toOn ht
    cases hstopped' with
    | @entry j c' hat' hle' hearlier =>
      refine ⟨{ it' with data := some data' }, ?_, ?_⟩
      · rw [SSTableIterator.seek, if_neg (by simp [hover.status]), if_neg (by simp [ht]), hindex]
        simp only [hat.status, hat.valid, hload, hin.status, hin.data, hseek, hat'.status,
          hat'.valid, Bool.true_eq_false, if_false, if_true, Option.bind_eq_bind, Option.bind_some]
      · rw [dropWhile_eq h hics hbefore hin.block hin.entries hat'.entry hle' hearlier]
        exact .entry D ⟨⟨hin.table, hin.status, hin.index⟩, hin.block, hin.entry, hin.entries, rfl⟩
          hat'
    | done hon hv hall =>
      exact absurd hall (h.reaches (List.mem_of_getElem? hin.block) hin.entries (hkey ▸ hle))
  | done hon hv hall =>
    have hnil : bs.flatten.dropWhile (fun e => e.key < t) = [] := by
      rw [List.dropWhile_eq_nil_iff]
      intro e he
      rw [decide_eq_true_eq]
      exact lt_of_index_lt h hics hall he
    refine ⟨_, ?_, by rw [hnil]; exact .done (hover.index_at hon) rfl⟩
    simp only [SSTableIterator.seek, hover.status, ht, hindex, hon.status, hv, ne_eq, not_true,
      reduceCtorEq, if_false, if_true, Option.bind_eq_bind, Option.bind_some]

end Positions

/-! ### Lookups -/

section Lookups

variable {interval : ℕ} {bs : List (List Entry)} {es : List Entry} {key : Bytes} {s : ℕ}
  {t : InternalKey}

theorem seek_eq_head?_dropWhile (es : List Entry) (t : InternalKey) :
    seek es t = (es.dropWhile fun e => e.key < t).head? := by
  rw [← List.find?_not_eq_head?_dropWhile, seek]
  simp only [InternalKey.less_iff, decide_not]

theorem lookup_of_not_mem (h : ∀ e ∈ es, e.key.userKey ≠ key) : lookup es key s = .absent := by
  unfold lookup
  cases hseek : seek es (lookupKey key s) with
  | none => rfl
  | some e => exact if_pos (h e (mem_of_seek hseek))

/-- The filter holds every user key of the table. -/
theorem not_mem_of_filter (h : bloomFilterMayContain key (filterBytes bs) = false) :
    ∀ e ∈ bs.flatten, e.key.userKey ≠ key := by
  rintro e he rfl
  have hmem : e.key.userKey ∈ bs.flatten.map fun e => e.key.userKey := List.mem_map_of_mem he
  rw [filterBytes, mayContain_buildFilter hmem] at h
  simp at h

theorem answer_eq_lookup {e : Entry} (hseq : e.key.sequence ≤ maxSequenceNumber)
    (hseek : seek es (lookupKey key s) = some e) :
    SSTableReader.answer (encodeInternalKey e.key) e.value key = .ok (lookup es key s) := by
  unfold SSTableReader.answer lookup
  rw [parseInternalKey_encode hseq, hseek]
  dsimp only
  split_ifs
  · rfl
  · cases e.key.type <;> rfl

/-- `get` answers as the run of all entries does. -/
theorem TableOf.get_eq (h : TableOf interval bs) (verifyChecksums : Bool) (key : Bytes)
    (hs : s ≤ maxSequenceNumber) :
    (readerOf interval bs).get verifyChecksums key s =
      some (.ok (lookup bs.flatten key s)) := by
  have ht : parseInternalKey (encodeInternalKey (lookupKey key s)) = some (lookupKey key s) :=
    parseInternalKey_encode hs
  unfold SSTableReader.get
  rw [if_neg (not_lt.mpr hs)]
  by_cases hfilter : bloomFilterMayContain key (readerOf interval bs).filterBlock = false
  · rw [if_pos hfilter, lookup_of_not_mem (not_mem_of_filter hfilter)]
  rw [if_neg hfilter]
  obtain ⟨ics, irs, L, hics⟩ := h.index_layout
  obtain ⟨fresh, hnew, hon, -⟩ := L.new
  obtain ⟨index, hindex, hstopped⟩ := L.seek hon ht
  have hnew' : BlockIterator.new (readerOf interval bs).indexBlock = some fresh := hnew
  have hkey : (⟨key, s, .value⟩ : InternalKey) = lookupKey key s := rfl
  cases hstopped with
  | @entry i ic hat hle hbefore =>
    obtain ⟨b, hb, hlast, hvalue⟩ := At.exists_block hics hat
    have hmem := List.mem_of_getElem? hb
    obtain ⟨cs, rs, D, hcs⟩ := h.data_layout hmem
    obtain ⟨freshData, hnewData, honData, -⟩ := D.new
    obtain ⟨data, hseek, hstopped'⟩ := D.seek honData ht
    cases hstopped' with
    | @entry j c hat' hle' hearlier =>
      have hfound : seek bs.flatten (lookupKey key s) = some c.entry := by
        rw [seek_eq_head?_dropWhile, dropWhile_eq h hics hbefore hb hcs hat'.entry hle' hearlier,
          drop_entries hcs hat'.entry]
        rfl
      have hanswer : SSTableReader.answer data.key data.value key =
          .ok (lookup bs.flatten key s) := by
        rw [hat'.key, hat'.value]
        exact answer_eq_lookup (D.sequence c (List.mem_of_getElem? hat'.entry)) hfound
      simp only [hkey, hnew', hon.status, hindex, hat.status, hat.valid, hvalue,
        h.readDataBlock hb, SSTableReader.getIn, hnewData, honData.status, hseek, hat'.status,
        hat'.valid, hanswer, Bool.true_eq_false, if_false, Option.bind_eq_bind, Option.bind_some]
    | done honData' hv hall => exact absurd hall (h.reaches hmem hcs (hlast ▸ hle))
  | done hon' hv hall =>
    have hnone : seek bs.flatten (lookupKey key s) = none := by
      rw [seek_eq_none]
      intro e he
      exact lt_of_index_lt h hics hall he
    have hlookup : lookup bs.flatten key s = .absent := by
      rw [lookup, hnone]
    simp only [hkey, hnew', hon.status, hindex, hon'.status, hv, hlookup, if_true,
      Option.bind_eq_bind, Option.bind_some]

end Lookups

/-! ### The round trip -/

/-- The iterators that allowed calls lead to. -/
inductive SSTableRun (table : SSTableReader) (verifyChecksums : Bool) : SSTableIterator → Prop
  | new {it : SSTableIterator} (h : SSTableIterator.new table verifyChecksums = some it) :
      SSTableRun table verifyChecksums it
  | seekToFirst {it it' : SSTableIterator} (h : SSTableRun table verifyChecksums it)
      (hcall : it.seekToFirst = some it') : SSTableRun table verifyChecksums it'
  | seek {it it' : SSTableIterator} {target : Bytes} (h : SSTableRun table verifyChecksums it)
      (ht : parseInternalKey target ≠ none) (hcall : it.seek target = some it') :
      SSTableRun table verifyChecksums it'
  | next {it it' : SSTableIterator} (h : SSTableRun table verifyChecksums it)
      (hv : it.valid = true) (hcall : it.next = some it') : SSTableRun table verifyChecksums it'

section RoundTrip

variable {interval : ℕ} {bs : List (List Entry)} {ics : List Chunk} {irs : List ℕ}
  {L : Layout (indexBytes interval bs) ics irs} {it : SSTableIterator} {rest : List Entry}
  {verifyChecksums : Bool}

theorem exists_new (L : Layout (indexBytes interval bs) ics irs) (verifyChecksums : Bool) :
    ∃ it, SSTableIterator.new (readerOf interval bs) verifyChecksums = some it ∧
      Remains L it [] := by
  obtain ⟨index, hnew, hon, -⟩ := L.new
  have hnew' : BlockIterator.new (readerOf interval bs).indexBlock = some index := hnew
  refine ⟨⟨readerOf interval bs, verifyChecksums, index, none, index.status⟩, ?_,
    .done ⟨rfl, hon.status, hon⟩ rfl⟩
  simp only [SSTableIterator.new, hnew', Option.bind_eq_bind, Option.bind_some]

section

variable (h : TableOf interval bs) (hics : ics.map Chunk.entry = indexEntries interval 0 bs)

include h hics

/-- After every sequence of calls the iterator is at a position of the table. -/
theorem SSTableRun.remains (hrun : SSTableRun (readerOf interval bs) verifyChecksums it) :
    ∃ rest, Remains L it rest := by
  have called {call : Option SSTableIterator} {it : SSTableIterator} {rest : List Entry}
      (hcall : call = some it) (h : ∃ it', call = some it' ∧ Remains L it' rest) :
      ∃ rest, Remains L it rest := by
    obtain ⟨it', hit, hremains⟩ := h
    rw [hcall, Option.some_inj] at hit
    exact ⟨rest, hit ▸ hremains⟩
  induction hrun with
  | new hnew => exact called hnew (exists_new L verifyChecksums)
  | seekToFirst hrun hcall ih =>
    obtain ⟨rest, hrest⟩ := ih
    exact called hcall (hrest.over.seekToFirst h hics)
  | seek hrun ht hcall ih =>
    obtain ⟨rest, hrest⟩ := ih
    obtain ⟨t, ht⟩ := Option.ne_none_iff_exists'.mp ht
    exact called hcall (hrest.over.seek h hics ht)
  | next hrun hv hcall ih =>
    obtain ⟨rest, hrest⟩ := ih
    rw [hrest.valid_eq] at hv
    cases rest with
    | nil => simp at hv
    | cons e rest => exact called hcall (hrest.next h hics)

/-- `next` leads over the entries that are still to come. -/
theorem Remains.entries {fuel : ℕ}
    (hremains : Remains L it rest) (hfuel : rest.length ≤ fuel) :
    ∃ last, it.entries fuel = some (rest.map Entry.shown, last) ∧ last.valid = false ∧
      last.status = none := by
  induction rest generalizing it fuel with
  | nil =>
    have hv : it.valid = false := hremains.valid_eq
    have hcurrent : it.current = none := hremains.current_eq
    refine ⟨it, ?_, hv, hremains.over.status⟩
    cases fuel <;> simp [SSTableIterator.entries, hv, hcurrent]
  | cons e rest ih =>
    obtain ⟨fuel, rfl⟩ := Nat.exists_eq_add_of_lt (Nat.lt_of_lt_of_le (Nat.zero_lt_succ _) hfuel)
    obtain ⟨it', hnext, hremains'⟩ := hremains.next h hics
    rw [Nat.zero_add]
    obtain ⟨last, hrest, hlast⟩ := ih hremains' (by simpa using hfuel : rest.length ≤ fuel)
    have hcurrent : it.current = some e.shown := hremains.current_eq
    refine ⟨last, ?_, hlast⟩
    simp only [SSTableIterator.entries, hcurrent, hnext, hrest, Option.bind_eq_bind,
      Option.bind_some, List.map_cons]

end

end RoundTrip

/-- A table read back. The builder makes a file that opens and describes it truly; `get` returns
the first entry of a user key up to a sequence; and from every position of an iterator `seekToFirst`
and `next` enumerate the entries and `seek` stops on the first that is not less than its target, or
is invalid without an error. -/
theorem sstable_round_trip {blockSize restartInterval : ℕ} (hb : 0 < blockSize)
    (hi : 0 < restartInterval) {es : List Entry} (hes : Ascending es)
    (hseq : ∀ e ∈ es, e.key.sequence ≤ maxSequenceNumber)
    (hbound : Bounded restartInterval (dataBlocks blockSize restartInterval es)) :
    ∃ file info table,
      SSTableBuilder.build blockSize restartInterval es = some (.ok (file, info)) ∧
      info = ⟨file.length, es.length, (es.head?.map fun e => encodeInternalKey e.key).getD [],
        (es.getLast?.map fun e => encodeInternalKey e.key).getD []⟩ ∧
      SSTableReader.openTable file = some (.ok table) ∧
      (∀ verifyChecksums key s, s ≤ maxSequenceNumber →
        ∃ r, table.get verifyChecksums key s = some (.ok r) ∧ Finds (· ∈ es) key s r) ∧
      ∀ verifyChecksums, (∃ it, SSTableIterator.new table verifyChecksums = some it) ∧
        ∀ it, SSTableRun table verifyChecksums it →
          (∃ it' last, it.seekToFirst = some it' ∧
            it'.entries es.length = some (es.map Entry.shown, last) ∧
            last.valid = false ∧ last.status = none) ∧
          ∀ target t, parseInternalKey target = some t →
            ∃ it', it.seek target = some it' ∧ it'.status = none ∧
              it'.current = (seek es t).map Entry.shown := by
  have hflat := flatten_dataBlocks blockSize restartInterval es
  have hbuild := build_eq_tableFile hb hi hes hseq hbound
  have htable : TableOf restartInterval (dataBlocks blockSize restartInterval es) :=
    ⟨hbound, hi, fun b => ne_nil_of_mem_dataBlocks, by rwa [hflat], by rwa [hflat]⟩
  obtain ⟨ics, irs, L, hics⟩ := htable.index_layout
  refine ⟨_, _, _, hbuild, ?_, htable.openTable_eq, ?_, ?_⟩
  · rw [tableMeta, hflat]
  · intro verifyChecksums key s hs
    refine ⟨_, htable.get_eq verifyChecksums key hs, ?_⟩
    rw [hflat]
    exact lookup_finds hes key s
  · intro verifyChecksums
    obtain ⟨it, hnew, -⟩ := exists_new L verifyChecksums
    refine ⟨⟨it, hnew⟩, fun it hrun => ?_⟩
    obtain ⟨rest, hrest⟩ := hrun.remains (L := L) htable hics
    constructor
    · obtain ⟨it', hit', hremains⟩ := hrest.over.seekToFirst htable hics
      rw [hflat] at hremains
      obtain ⟨last, hentries, hlast⟩ := hremains.entries htable hics le_rfl
      exact ⟨it', last, hit', hentries, hlast⟩
    · intro target t ht
      obtain ⟨it', hit', hremains⟩ := hrest.over.seek htable hics ht
      refine ⟨it', hit', hremains.over.status, ?_⟩
      rw [hremains.current_eq, hflat, seek_eq_head?_dropWhile]

/-- Two versions of one key that end up in different blocks, and another key. -/
def smallTable : List Entry :=
  [⟨⟨[97], 2, .deletion⟩, []⟩, ⟨⟨[97], 1, .value⟩, [1]⟩, ⟨⟨[98], 3, .value⟩, [2]⟩]

theorem sstable_round_trip_small :
    (dataBlocks 20 2 smallTable).length = 3 ∧ Bounded 2 (dataBlocks 20 2 smallTable) ∧
      ∃ file info table, SSTableBuilder.build 20 2 smallTable = some (.ok (file, info)) ∧
        SSTableReader.openTable file = some (.ok table) := by
  have hbound : Bounded 2 (dataBlocks 20 2 smallTable) := ⟨by decide, by decide +kernel⟩
  obtain ⟨file, info, table, hbuild, -, hopen, -⟩ :=
    sstable_round_trip (by decide) (by decide) (by decide) (by decide) hbound
  exact ⟨by decide, hbound, file, info, table, hbuild, hopen⟩

end Mizu.Lsm
