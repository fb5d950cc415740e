import Mizu.Lsm.Block
import Mizu.Lsm.BloomFilter

/-!
# The bytes of a table

`SSTableBuilder` of `table/sstable_builder.cc` with the format of `table/table_format.cc`. The
entries are cut into data blocks by size; behind them come the Bloom filter, an index block with the
last key and the position of every data block, and the footer. Writes to the file succeed here.

`dataBlocks` says how the entries are cut and `tableFile` what the file then holds; the builder is
followed over the blocks that it has written and the one that it is writing.
-/

namespace Mizu.Lsm

/-! ### The format -/

structure BlockHandle where
  offset : ℕ
  size : ℕ
deriving DecidableEq, Repr

def putBlockHandle (handle : BlockHandle) : Bytes :=
  putFixed64 handle.offset ++ putFixed64 handle.size

def getBlockHandle (input : Bytes) : Option (BlockHandle × Bytes) := do
  let (offset, input) ← getFixed64 input
  let (size, input) ← getFixed64 input
  some (⟨offset, size⟩, input)

/-- `kSSTableMagic`: "LSMTREE1" -/
def sstableMagic : Bytes := [76, 83, 77, 84, 82, 69, 69, 49]

/-- `kSSTableVersion` -/
def sstableVersion : ℕ := 1

/-- `kSSTableFooterSize` -/
def sstableFooterSize : ℕ := 48

/-- `kBlockTrailerSize`: the compression and a checksum. -/
def blockTrailerSize : ℕ := 5

/-- `kNoCompression` -/
def noCompression : UInt8 := 0

def putSSTableFooter (filterHandle indexHandle : BlockHandle) : Bytes :=
  sstableMagic ++ (putFixed32 sstableVersion ++ (putFixed32 0 ++
    (putBlockHandle filterHandle ++ putBlockHandle indexHandle)))

/-! ### The builder -/

structure SSTableMeta where
  fileSize : ℕ
  entryCount : ℕ
  smallestKey : Bytes
  largestKey : Bytes
deriving DecidableEq, Repr

/-- `file` is what has been written, `bloomFilter` the hashes that the filter will hold. -/
structure SSTableBuilder where
  blockSize : ℕ
  building : Bool := true
  dataBlock : BlockBuilder
  indexBlock : BlockBuilder
  bloomFilter : List UInt32 := []
  file : Bytes := []
  fileOffset : ℕ := 0
  entryCount : ℕ := 0
  firstKey : Bytes := []
  lastKey : Bytes := []
deriving DecidableEq

namespace SSTableBuilder

def openTable (blockSize restartInterval : ℕ) : Except Status SSTableBuilder :=
  if blockSize = 0 then .error (.invalidArgument "SSTable block size must be positive")
  else if restartInterval = 0 then
    .error (.invalidArgument "block restart interval must be positive")
  else
    .ok {
      blockSize := blockSize
      dataBlock := { restartInterval := restartInterval }
      indexBlock := { restartInterval := restartInterval } }

/-- What `writeBlock` writes for a payload. -/
def blockContents (payload : Bytes) : Bytes :=
  payload ++ [noCompression] ++ putFixed32 (crc32c (payload ++ [noCompression]))

variable (b : SSTableBuilder)

def writeBlock (payload : Bytes) : SSTableBuilder × BlockHandle :=
  ({ b with
      file := b.file ++ blockContents payload
      fileOffset := b.fileOffset + (blockContents payload).length },
    ⟨b.fileOffset, payload.length⟩)

def flushDataBlock : Option SSTableBuilder :=
  if b.dataBlock.entryCount = 0 then some b
  else do
    let (dataBlock, payload) ← b.dataBlock.finish
    let (b, handle) := { b with dataBlock := dataBlock }.writeBlock payload
    let indexBlock ← b.indexBlock.add b.lastKey (putBlockHandle handle)
    some { b with indexBlock := indexBlock, dataBlock := b.dataBlock.reset }

/-- What `add` notes about an entry that the data block has taken. -/
def noted (key userKey : Bytes) (dataBlock : BlockBuilder) : SSTableBuilder :=
  { b with
    bloomFilter := b.bloomFilter ++ [bloomHash userKey]
    firstKey := if b.entryCount = 0 then key else b.firstKey
    lastKey := key
    dataBlock := dataBlock
    entryCount := b.entryCount + 1 }

def add (key value : Bytes) : Option (Except Status SSTableBuilder) :=
  if b.building = false then none
  else
    match parseInternalKey key with
    | none => some (.error (.invalidArgument "invalid SSTable internal key"))
    | some parsed =>
      if b.entryCount ≠ 0 ∧ internalKeyLess b.lastKey key ≠ some true then none
      else do
        let dataBlock ← b.dataBlock.add key value
        let b := b.noted key parsed.userKey dataBlock
        if b.dataBlock.currentSizeEstimate ≥ b.blockSize then b.flushDataBlock.map .ok
        else some (.ok b)

def finish : Option (SSTableBuilder × SSTableMeta) :=
  if b.building = false then none
  else do
    let b ← b.flushDataBlock
    let (b, filterHandle) := b.writeBlock (buildFilter b.bloomFilter)
    let (indexBlock, payload) ← b.indexBlock.finish
    let (b, indexHandle) := { b with indexBlock := indexBlock }.writeBlock payload
    let footer := putSSTableFooter filterHandle indexHandle
    let b :=
      { b with file := b.file ++ footer, fileOffset := b.fileOffset + footer.length }
    some ({ b with building := false }, ⟨b.fileOffset, b.entryCount, b.firstKey, b.lastKey⟩)

/-- `add` for every entry. -/
def addAll : List Entry → SSTableBuilder → Option (Except Status SSTableBuilder)
  | [], b => some (.ok b)
  | e :: es, b => do
    match ← b.add (encodeInternalKey e.key) e.value with
    | .error s => some (.error s)
    | .ok b => addAll es b

/-- A table from `open` to `finish`: its file and what `finish` says about it. -/
def build (blockSize restartInterval : ℕ) (es : List Entry) :
    Option (Except Status (Bytes × SSTableMeta)) :=
  match openTable blockSize restartInterval with
  | .error s => some (.error s)
  | .ok b => do
    match ← b.addAll es with
    | .error s => some (.error s)
    | .ok b =>
      let (b, info) ← b.finish
      some (.ok (b.file, info))

end SSTableBuilder

/-! ### How the entries are cut -/

section Cut

variable (blockSize restartInterval : ℕ)

/-- One more entry: the blocks that are complete and the one that is not. -/
def place (p : List (List Entry) × List Entry) (e : Entry) : List (List Entry) × List Entry :=
  if (blockBytes restartInterval (p.2 ++ [e])).length ≥ blockSize then (p.1 ++ [p.2 ++ [e]], [])
  else (p.1, p.2 ++ [e])

/-- The last block need not be full. -/
def closed (p : List (List Entry) × List Entry) : List (List Entry) :=
  if p.2 = [] then p.1 else p.1 ++ [p.2]

/-- The data blocks of a table. -/
def dataBlocks (es : List Entry) : List (List Entry) :=
  closed (es.foldl (place blockSize restartInterval) ([], []))

end Cut

section Blocks

variable (restartInterval : ℕ)

/-- The file up to the end of some data blocks. -/
def dataPart (bs : List (List Entry)) : Bytes :=
  bs.flatMap fun b => SSTableBuilder.blockContents (blockBytes restartInterval b)

def lastKeyOf (b : List Entry) : InternalKey := (b.getLast?.map Entry.key).getD ⟨[], 0, .deletion⟩

/-- The index entry of a block at a position. -/
def indexEntry (offset : ℕ) (b : List Entry) : Entry :=
  ⟨lastKeyOf b, putBlockHandle ⟨offset, (blockBytes restartInterval b).length⟩⟩

/-- The index entries of blocks from a position on. -/
def indexEntries : ℕ → List (List Entry) → List Entry
  | _, [] => []
  | offset, b :: bs =>
    indexEntry restartInterval offset b :: indexEntries
      (offset + (SSTableBuilder.blockContents (blockBytes restartInterval b)).length) bs

def indexBytes (bs : List (List Entry)) : Bytes :=
  blockBytes restartInterval (indexEntries restartInterval 0 bs)

def filterBytes (bs : List (List Entry)) : Bytes :=
  buildFilter ((bs.flatten.map fun e => e.key.userKey).map bloomHash)

/-- The positions of the filter and the index. -/
def filterHandle (bs : List (List Entry)) : BlockHandle :=
  ⟨(dataPart restartInterval bs).length, (filterBytes bs).length⟩

def indexHandle (bs : List (List Entry)) : BlockHandle :=
  ⟨(dataPart restartInterval bs).length + (SSTableBuilder.blockContents (filterBytes bs)).length,
    (indexBytes restartInterval bs).length⟩

/-- The file of a table with these data blocks. -/
def tableFile (bs : List (List Entry)) : Bytes :=
  dataPart restartInterval bs ++ SSTableBuilder.blockContents (filterBytes bs) ++
    SSTableBuilder.blockContents (indexBytes restartInterval bs) ++
    putSSTableFooter (filterHandle restartInterval bs) (indexHandle restartInterval bs)

end Blocks

section

variable {blockSize interval : ℕ} {bs : List (List Entry)} {b cur es : List Entry} {e : Entry}
  {p : List (List Entry) × List Entry}

@[simp] theorem length_blockContents (payload : Bytes) :
    (SSTableBuilder.blockContents payload).length = payload.length + 5 := by
  simp [SSTableBuilder.blockContents]

@[simp] theorem length_putBlockHandle (handle : BlockHandle) :
    (putBlockHandle handle).length = 16 := by
  simp [putBlockHandle]

theorem length_putSSTableFooter (filterHandle indexHandle : BlockHandle) :
    (putSSTableFooter filterHandle indexHandle).length = sstableFooterSize := by
  simp [putSSTableFooter, sstableMagic, sstableFooterSize]

theorem dataPart_append (interval : ℕ) (bs cs : List (List Entry)) :
    dataPart interval (bs ++ cs) =
      dataPart interval bs ++ dataPart interval cs := List.flatMap_append

theorem dataPart_singleton (interval : ℕ) (b : List Entry) :
    dataPart interval [b] = SSTableBuilder.blockContents (blockBytes interval b) := by
  simp [dataPart]

theorem indexEntries_append (offset : ℕ) (bs cs : List (List Entry)) :
    indexEntries interval offset (bs ++ cs) = indexEntries interval offset bs ++
      indexEntries interval (offset + (dataPart interval bs).length) cs := by
  induction bs generalizing offset with
  | nil => rfl
  | cons b bs ih =>
    have hpart : (dataPart interval (b :: bs)).length =
        (SSTableBuilder.blockContents (blockBytes interval b)).length +
          (dataPart interval bs).length := by
      simp [dataPart]
    rw [List.cons_append, indexEntries, ih, indexEntries, hpart, Nat.add_assoc, List.cons_append]

theorem length_indexEntries (offset : ℕ) (bs : List (List Entry)) :
    (indexEntries interval offset bs).length = bs.length := by
  induction bs generalizing offset with
  | nil => rfl
  | cons b bs ih => rw [indexEntries, List.length_cons, ih, List.length_cons]

/-- The index of the first blocks is a beginning of the index. -/
theorem length_indexBytes_append (bs cs : List (List Entry)) :
    (indexBytes interval bs).length ≤ (indexBytes interval (bs ++ cs)).length := by
  rw [indexBytes, indexBytes, indexEntries_append]
  exact (Nat.le_add_right _ _).trans (length_blockBytes_append ..)

/-! ### Cutting loses nothing -/

theorem flatten_closed (p : List (List Entry) × List Entry) :
    (closed p).flatten = p.1.flatten ++ p.2 := by
  unfold closed
  split_ifs with h
  · rw [h, List.append_nil]
  · simp

theorem flatten_place (p : List (List Entry) × List Entry) (e : Entry) :
    (place blockSize interval p e).1.flatten ++ (place blockSize interval p e).2 =
      p.1.flatten ++ (p.2 ++ [e]) := by
  unfold place
  split_ifs <;> simp

theorem flatten_foldl_place (es : List Entry) (p : List (List Entry) × List Entry) :
    (closed (es.foldl (place blockSize interval) p)).flatten =
      p.1.flatten ++ (p.2 ++ es) := by
  induction es generalizing p with
  | nil => rw [List.foldl_nil, flatten_closed, List.append_nil]
  | cons e es ih => rw [List.foldl_cons, ih, ← List.append_assoc, flatten_place]; simp

theorem flatten_dataBlocks (blockSize interval : ℕ) (es : List Entry) :
    (dataBlocks blockSize interval es).flatten = es := flatten_foldl_place es _

theorem ne_nil_of_mem_place (h : ∀ b ∈ p.1, b ≠ []) :
    ∀ b ∈ (place blockSize interval p e).1, b ≠ [] := by
  unfold place
  split_ifs
  · intro b hb
    rcases List.mem_append.mp hb with hb | hb
    · exact h b hb
    · rw [List.mem_singleton.mp hb]
      simp
  · exact h

theorem ne_nil_of_mem_foldl (h : ∀ b ∈ p.1, b ≠ []) :
    ∀ b ∈ closed (es.foldl (place blockSize interval) p), b ≠ [] := by
  induction es generalizing p with
  | nil =>
    intro b hb
    rw [List.foldl_nil, closed] at hb
    split_ifs at hb with hnil
    · exact h b hb
    · rcases List.mem_append.mp hb with hb | hb
      · exact h b hb
      · rw [List.mem_singleton.mp hb]
        exact hnil
  | cons e es ih => exact ih (ne_nil_of_mem_place h)

theorem ne_nil_of_mem_dataBlocks (h : b ∈ dataBlocks blockSize interval es) : b ≠ [] :=
  ne_nil_of_mem_foldl (by simp) b h

/-! ### What the builder has written -/

/-- The blocks begin with those that are complete, and one continues the current block. -/
def Continues (p : List (List Entry) × List Entry) (bs : List (List Entry)) : Prop :=
  ∃ rest, bs = p.1 ++ rest ∧ (p.2 ≠ [] → ∃ more rest', rest = (p.2 ++ more) :: rest')

theorem Continues.of_place (h : Continues (place blockSize interval p e) bs) :
    Continues p bs := by
  obtain ⟨rest, rfl, hcur⟩ := h
  unfold place at hcur ⊢
  split_ifs at hcur ⊢ with hfull
  · exact ⟨[p.2 ++ [e]] ++ rest, by simp, fun _ => ⟨[e], rest, rfl⟩⟩
  · obtain ⟨more, rest', rfl⟩ := hcur (by simp)
    exact ⟨_, rfl, fun _ => ⟨[e] ++ more, rest', by simp⟩⟩

theorem continues_foldl (es : List Entry) (p : List (List Entry) × List Entry) :
    Continues p (closed (es.foldl (place blockSize interval) p)) := by
  induction es generalizing p with
  | nil =>
    rw [List.foldl_nil, closed]
    split_ifs with h
    · exact ⟨[], by simp, fun hne => absurd h hne⟩
    · exact ⟨[p.2], rfl, fun _ => ⟨[], [], by simp⟩⟩
  | cons e es ih => exact (ih (place blockSize interval p e)).of_place

/-- Every block is below 4 GiB. -/
structure Bounded (restartInterval : ℕ) (bs : List (List Entry)) : Prop where
  block : ∀ b ∈ bs, (blockBytes restartInterval b).length < 2 ^ 32
  index : (indexBytes restartInterval bs).length < 2 ^ 32

theorem Bounded.of_append {cs : List (List Entry)} (h : Bounded interval (bs ++ cs)) :
    Bounded interval bs where
  block b hb := h.block b (List.mem_append_left _ hb)
  index := lt_of_le_of_lt (length_indexBytes_append bs cs) h.index

/-- The builder with complete blocks and a current one. -/
def SSTableBuilder.after (blockSize restartInterval : ℕ) (p : List (List Entry) × List Entry) :
    SSTableBuilder where
  blockSize := blockSize
  dataBlock := BlockBuilder.pushAll { restartInterval := restartInterval } p.2
  indexBlock := BlockBuilder.pushAll { restartInterval := restartInterval }
    (indexEntries restartInterval 0 p.1)
  bloomFilter := ((p.1.flatten ++ p.2).map fun e => e.key.userKey).map bloomHash
  file := dataPart restartInterval p.1
  fileOffset := (dataPart restartInterval p.1).length
  entryCount := (p.1.flatten ++ p.2).length
  firstKey := ((p.1.flatten ++ p.2).head?.map fun e => encodeInternalKey e.key).getD []
  lastKey := ((p.1.flatten ++ p.2).getLast?.map fun e => encodeInternalKey e.key).getD []

theorem BlockBuilder.pushAll_entryCount (b : BlockBuilder) (es : List Entry) :
    (b.pushAll es).entryCount = b.entryCount + es.length := by
  induction es generalizing b with
  | nil => rfl
  | cons e es ih =>
    have hpush : (b.push (encodeInternalKey e.key) e.value).entryCount = b.entryCount + 1 := by
      simp only [BlockBuilder.push]
      split_ifs <;> rfl
    have hpushAll : b.pushAll (e :: es) =
        (b.push (encodeInternalKey e.key) e.value).pushAll es := rfl
    rw [hpushAll, ih, hpush, List.length_cons]
    omega

theorem BlockBuilder.pushAll_restartInterval (b : BlockBuilder) (es : List Entry) :
    (b.pushAll es).restartInterval = b.restartInterval := by
  induction es generalizing b with
  | nil => rfl
  | cons e es ih => exact (ih _).trans (b.push_restartInterval _ _)

/-- A block below 4 GiB takes one more entry. -/
theorem add_pushAll (hi : 0 < interval)
    (hsize : (blockBytes interval (es ++ [e])).length < 2 ^ 32) :
    (BlockBuilder.pushAll { restartInterval := interval } es).add (encodeInternalKey e.key)
      e.value = some (BlockBuilder.pushAll { restartInterval := interval } (es ++ [e])) := by
  obtain ⟨cs, rs, hlaid, -⟩ := (Laid.new interval).pushAll hi es
  have hpush : BlockBuilder.pushAll { restartInterval := interval } (es ++ [e]) =
      (BlockBuilder.pushAll { restartInterval := interval } es).push
        (encodeInternalKey e.key) e.value := BlockBuilder.pushAll_append _ es [e]
  rw [blockBytes, BlockBuilder.length_contents, hpush] at hsize
  rw [hpush, hlaid.add_eq (BlockBuilder.pushAll_finished _ es) (by omega)]

theorem finish_pushAll (hsize : (blockBytes interval es).length < 2 ^ 32) :
    ∃ frozen, (BlockBuilder.pushAll { restartInterval := interval } es).finish =
      some (frozen, blockBytes interval es) ∧
      frozen.reset = { restartInterval := interval } := by
  rw [blockBytes, BlockBuilder.length_contents] at hsize
  have hfinished := BlockBuilder.pushAll_finished { restartInterval := interval } es
  refine ⟨{ BlockBuilder.pushAll { restartInterval := interval } es with
    buffer := blockBytes interval es, finished := true }, ?_, ?_⟩
  · rw [BlockBuilder.finish, if_neg]
    · rfl
    · rw [hfinished]
      simp only [Bool.false_eq_true, false_or, ge_iff_le, not_le]
      omega
  · simp only [BlockBuilder.reset, BlockBuilder.pushAll_restartInterval]

theorem currentSizeEstimate_pushAll (es : List Entry) :
    (BlockBuilder.pushAll { restartInterval := interval } es).currentSizeEstimate =
      (blockBytes interval es).length := by
  have hfinished := BlockBuilder.pushAll_finished { restartInterval := interval } es
  rw [BlockBuilder.currentSizeEstimate, hfinished, blockBytes, BlockBuilder.length_contents]
  simp only [Bool.false_eq_true, if_false]
  omega

theorem lastKey_eq (hcur : cur ≠ []) (front : List Entry) :
    ((front ++ cur).getLast?.map fun e => encodeInternalKey e.key).getD [] =
      encodeInternalKey (lastKeyOf cur) := by
  obtain ⟨init, e, rfl⟩ := (List.eq_nil_or_concat' cur).resolve_left hcur
  simp [lastKeyOf, ← List.append_assoc]

theorem flushDataBlock_eq {b : SSTableBuilder} {frozen index : BlockBuilder} {payload : Bytes}
    (hcount : b.dataBlock.entryCount ≠ 0) (hfinish : b.dataBlock.finish = some (frozen, payload))
    (hadd : b.indexBlock.add b.lastKey (putBlockHandle ⟨b.fileOffset, payload.length⟩) =
      some index) :
    b.flushDataBlock = some { b with
      file := b.file ++ SSTableBuilder.blockContents payload
      fileOffset := b.fileOffset + (SSTableBuilder.blockContents payload).length
      indexBlock := index
      dataBlock := frozen.reset } := by
  simp only [SSTableBuilder.flushDataBlock, if_neg hcount, hfinish, Option.bind_eq_bind,
    Option.bind_some, SSTableBuilder.writeBlock, hadd]

/-- The current block goes to the file and its last key to the index. -/
theorem flush_after (hi : 0 < interval) (hcur : cur ≠ [])
    (hbound : Bounded interval (bs ++ [cur])) :
    (SSTableBuilder.after blockSize interval (bs, cur)).flushDataBlock =
      some (SSTableBuilder.after blockSize interval (bs ++ [cur], [])) := by
  have hcount : (BlockBuilder.pushAll { restartInterval := interval } cur).entryCount ≠ 0 := by
    rw [BlockBuilder.pushAll_entryCount]
    simpa using hcur
  obtain ⟨frozen, hfinish, hreset⟩ := finish_pushAll (hbound.block cur (by simp))
  have hentries : indexEntries interval 0 (bs ++ [cur]) = indexEntries interval 0 bs ++
      [indexEntry interval (dataPart interval bs).length cur] := by
    rw [indexEntries_append, Nat.zero_add]
    rfl
  have hindex := hbound.index
  rw [indexBytes, hentries] at hindex
  have hadd := add_pushAll hi hindex
  rw [← hentries] at hadd
  have hlast : (SSTableBuilder.after blockSize interval (bs, cur)).lastKey =
      encodeInternalKey (lastKeyOf cur) := lastKey_eq hcur bs.flatten
  rw [flushDataBlock_eq hcount hfinish (by rw [hlast]; exact hadd), hreset]
  simp only [SSTableBuilder.after, dataPart_append, dataPart_singleton, List.length_append,
    List.flatten_append, List.flatten_cons, List.flatten_nil, List.append_nil]
  rfl

theorem noted_after (e : Entry) :
    (SSTableBuilder.after blockSize interval (bs, cur)).noted (encodeInternalKey e.key)
      e.key.userKey (BlockBuilder.pushAll { restartInterval := interval } (cur ++ [e])) =
        SSTableBuilder.after blockSize interval (bs, cur ++ [e]) := by
  have hfirst : (if bs.flatten.length + cur.length = 0 then encodeInternalKey e.key
      else ((bs.flatten ++ cur).head?.map fun e => encodeInternalKey e.key).getD []) =
      ((bs.flatten ++ cur ++ [e]).head?.map fun e => encodeInternalKey e.key).getD [] := by
    rw [← List.length_append]
    cases bs.flatten ++ cur <;> simp
  simp only [SSTableBuilder.noted, SSTableBuilder.after, hfirst, ← List.append_assoc,
    List.map_append, List.map_cons, List.map_nil, List.getLast?_concat, Option.map_some,
    Option.getD_some, List.length_append, List.length_singleton]

/-- The keys of the table ascend up to the new one. -/
theorem less_after (hes : Ascending (bs.flatten ++ (cur ++ [e])))
    (hseq : ∀ x ∈ bs.flatten ++ (cur ++ [e]), x.key.sequence ≤ maxSequenceNumber)
    (hne : (SSTableBuilder.after blockSize interval (bs, cur)).entryCount ≠ 0) :
    internalKeyLess (SSTableBuilder.after blockSize interval (bs, cur)).lastKey
      (encodeInternalKey e.key) = some true := by
  obtain ⟨init, x, hx⟩ := (List.eq_nil_or_concat' (bs.flatten ++ cur)).resolve_left
    (List.length_pos_iff.mp (Nat.pos_of_ne_zero hne))
  rw [← List.append_assoc, hx] at hes hseq
  have hlast : (SSTableBuilder.after blockSize interval (bs, cur)).lastKey =
      encodeInternalKey x.key := by
    simp [SSTableBuilder.after, hx]
  have hlt : x.key < e.key := (List.pairwise_append.mp hes).2.2 x (by simp) e (by simp)
  rw [hlast, internalKeyLess_eq (parseInternalKey_encode (hseq x (by simp)))
    (parseInternalKey_encode (hseq e (by simp))), decide_eq_true hlt]

/-- An entry behind those that were added. -/
theorem add_after (hi : 0 < interval) (hes : Ascending (bs.flatten ++ (cur ++ [e])))
    (hseq : ∀ x ∈ bs.flatten ++ (cur ++ [e]), x.key.sequence ≤ maxSequenceNumber)
    (hbound : Bounded interval (place blockSize interval (bs, cur) e).1)
    (hsize : (blockBytes interval (cur ++ [e])).length < 2 ^ 32) :
    (SSTableBuilder.after blockSize interval (bs, cur)).add (encodeInternalKey e.key) e.value =
      some (.ok (SSTableBuilder.after blockSize interval
        (place blockSize interval (bs, cur) e))) := by
  have hparse := parseInternalKey_encode (hseq e (by simp))
  have horder : ¬((SSTableBuilder.after blockSize interval (bs, cur)).entryCount ≠ 0 ∧
      internalKeyLess (SSTableBuilder.after blockSize interval (bs, cur)).lastKey
        (encodeInternalKey e.key) ≠ some true) :=
    fun h => h.2 (less_after hes hseq h.1)
  have hdata : (SSTableBuilder.after blockSize interval (bs, cur)).dataBlock.add
      (encodeInternalKey e.key) e.value = some (BlockBuilder.pushAll
        { restartInterval := interval } (cur ++ [e])) := add_pushAll hi hsize
  have hestimate : (SSTableBuilder.after blockSize interval
      (bs, cur ++ [e])).dataBlock.currentSizeEstimate =
        (blockBytes interval (cur ++ [e])).length := currentSizeEstimate_pushAll _
  have hblockSize : (SSTableBuilder.after blockSize interval (bs, cur ++ [e])).blockSize =
      blockSize := rfl
  unfold SSTableBuilder.add
  rw [if_neg (by simp [SSTableBuilder.after]), hparse]
  simp only [if_neg horder, hdata, Option.bind_eq_bind, Option.bind_some, noted_after, hestimate,
    hblockSize]
  unfold place at hbound ⊢
  by_cases hfull : (blockBytes interval (cur ++ [e])).length ≥ blockSize
  · rw [if_pos hfull] at hbound
    rw [if_pos hfull, if_pos hfull]
    rw [flush_after hi (by simp) hbound]
    rfl
  · rw [if_neg hfull, if_neg hfull]

/-- All entries, one after the other. -/
theorem addAll_after (hi : 0 < interval) (hes : Ascending (p.1.flatten ++ (p.2 ++ es)))
    (hseq : ∀ x ∈ p.1.flatten ++ (p.2 ++ es), x.key.sequence ≤ maxSequenceNumber)
    (hbound : Bounded interval (closed (es.foldl (place blockSize interval) p))) :
    SSTableBuilder.addAll es (SSTableBuilder.after blockSize interval p) =
      some (.ok (SSTableBuilder.after blockSize interval
        (es.foldl (place blockSize interval) p))) := by
  induction es generalizing p with
  | nil => rfl
  | cons e es ih =>
    obtain ⟨bs, cur⟩ := p
    have hsplit : bs.flatten ++ (cur ++ e :: es) = (bs.flatten ++ (cur ++ [e])) ++ es := by simp
    have hplace : (place blockSize interval (bs, cur) e).1.flatten ++
        ((place blockSize interval (bs, cur) e).2 ++ es) =
          bs.flatten ++ (cur ++ e :: es) := by
      rw [← List.append_assoc, flatten_place, hsplit]
    -- what the builder has written is a beginning of what it writes in the end
    obtain ⟨rest, hrest, hcur⟩ := continues_foldl es (place blockSize interval (bs, cur) e)
    rw [List.foldl_cons] at hbound ⊢
    rw [hrest] at hbound
    have hsize : (blockBytes interval (cur ++ [e])).length < 2 ^ 32 := by
      unfold place at hbound hcur
      split_ifs at hbound hcur with hfull
      · exact hbound.block _ (by simp)
      · obtain ⟨more, rest', rfl⟩ := hcur (by simp)
        have hmore := length_blockBytes_append interval (cur ++ [e]) more
        exact lt_of_le_of_lt ((Nat.le_add_right _ _).trans hmore)
          (hbound.block _ (List.mem_append_right _ List.mem_cons_self))
    rw [← hplace] at hes hseq
    have hih := ih hes hseq (hrest ▸ hbound)
    rw [hplace, hsplit] at hes hseq
    have hadd := add_after hi (List.pairwise_append.mp hes).1
      (fun x hx => hseq x (List.mem_append_left _ hx)) hbound.of_append hsize
    rw [SSTableBuilder.addAll, hadd]
    exact hih

/-- `finish` flushes the current block if there is one. -/
theorem flush_closed (hi : 0 < interval) (hbound : Bounded interval (closed p)) :
    (SSTableBuilder.after blockSize interval p).flushDataBlock =
      some (SSTableBuilder.after blockSize interval (closed p, [])) := by
  obtain ⟨bs, cur⟩ := p
  unfold closed at hbound ⊢
  split_ifs at hbound ⊢ with h
  · subst h
    exact if_pos rfl
  · exact flush_after hi h hbound

/-- What `finish` says about the entries. -/
def tableMeta (restartInterval : ℕ) (bs : List (List Entry)) : SSTableMeta where
  fileSize := (tableFile restartInterval bs).length
  entryCount := bs.flatten.length
  smallestKey := (bs.flatten.head?.map fun e => encodeInternalKey e.key).getD []
  largestKey := (bs.flatten.getLast?.map fun e => encodeInternalKey e.key).getD []

theorem finish_after (blockSize : ℕ) (hi : 0 < interval) (hbound : Bounded interval (closed p)) :
    ∃ b, (SSTableBuilder.after blockSize interval p).finish =
      some (b, tableMeta interval (closed p)) ∧
        b.file = tableFile interval (closed p) := by
  have hflush : (SSTableBuilder.after blockSize interval p).flushDataBlock =
      some (SSTableBuilder.after blockSize interval (closed p, [])) := flush_closed hi hbound
  obtain ⟨frozen, hfinish, -⟩ := finish_pushAll hbound.index
  generalize closed p = bs at hflush hfinish ⊢
  have hindex : (SSTableBuilder.after blockSize interval (bs, [])).indexBlock.finish =
      some (frozen, indexBytes interval bs) := hfinish
  have hfilter : buildFilter (SSTableBuilder.after blockSize interval (bs, [])).bloomFilter =
      filterBytes bs := by
    simp only [SSTableBuilder.after, List.append_nil, filterBytes]
  have hoffset : (SSTableBuilder.after blockSize interval (bs, [])).fileOffset =
      (dataPart interval bs).length := rfl
  have hfile : (SSTableBuilder.after blockSize interval (bs, [])).file =
      dataPart interval bs := rfl
  unfold SSTableBuilder.finish
  rw [if_neg (by simp [SSTableBuilder.after]), hflush]
  simp only [Option.bind_eq_bind, Option.bind_some, SSTableBuilder.writeBlock, hindex, hfilter,
    hoffset, hfile]
  refine ⟨_, congrArg some (Prod.ext rfl ?_), rfl⟩
  simp only [tableMeta, SSTableBuilder.after, List.append_nil, tableFile, List.length_append,
    SSTableMeta.mk.injEq, and_true]
  rfl

/-- The builder succeeds, with the file and the description of the blocks. -/
theorem build_eq_tableFile (hb : 0 < blockSize) (hi : 0 < interval) (hes : Ascending es)
    (hseq : ∀ e ∈ es, e.key.sequence ≤ maxSequenceNumber)
    (hbound : Bounded interval (dataBlocks blockSize interval es)) :
    SSTableBuilder.build blockSize interval es =
      some (.ok (tableFile interval (dataBlocks blockSize interval es),
        tableMeta interval (dataBlocks blockSize interval es))) := by
  have hopen : SSTableBuilder.openTable blockSize interval =
      .ok (SSTableBuilder.after blockSize interval ([], [])) := by
    rw [SSTableBuilder.openTable, if_neg hb.ne', if_neg hi.ne']
    rfl
  have hadd := addAll_after (p := ([], [])) hi hes hseq hbound
  obtain ⟨b, hfinish, hfile⟩ := finish_after blockSize hi hbound
  unfold SSTableBuilder.build
  rw [hopen]
  dsimp only
  rw [hadd]
  simp only [Option.bind_eq_bind, Option.bind_some, hfinish, hfile]
  rfl

end

end Mizu.Lsm
