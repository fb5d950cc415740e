import Mizu.Lsm.BlockIterator

/-!
# Blocks, written and read back

`BlockBuilder` of `table/block_builder.cc` with `BlockIterator` over its output. An entry stores
how much of its key it shares with the key before it; at a restart point it shares nothing. The
proof describes a finished block by the entries with their shared lengths (`Chunk`) and the
indices of the restart points, and follows the iterator over that description.
-/

namespace Mizu.Lsm

/-! ### The builder -/

def commonPrefix : Bytes → Bytes → ℕ
  | a :: as, b :: bs => if a = b then commonPrefix as bs + 1 else 0
  | _, _ => 0

/-- An entry of a block: header, rest of the key, value. -/
def encodeEntry (shared : ℕ) (key value : Bytes) : Bytes :=
  putFixed32 shared ++ (putFixed32 (key.length - shared) ++ (putFixed32 value.length ++
    (key.drop shared ++ value)))

structure BlockBuilder where
  restartInterval : ℕ
  buffer : Bytes := []
  restarts : List ℕ := [0]
  lastKey : Bytes := []
  entriesSinceRestart : ℕ := 0
  entryCount : ℕ := 0
  finished : Bool := false
deriving DecidableEq, Repr

namespace BlockBuilder

variable (b : BlockBuilder)

def reset : BlockBuilder :=
  { b with
    buffer := []
    restarts := [0]
    lastKey := []
    entriesSinceRestart := 0
    entryCount := 0
    finished := false }

/-- `add` without its assertions. -/
def push (key value : Bytes) : BlockBuilder :=
  let b' :=
    if b.entriesSinceRestart = b.restartInterval then
      { b with restarts := b.restarts ++ [b.buffer.length], entriesSinceRestart := 0 }
    else b
  let shared :=
    if b.entriesSinceRestart = b.restartInterval then 0 else commonPrefix b.lastKey key
  { b' with
    buffer := b'.buffer ++ encodeEntry shared key value
    lastKey := key
    entriesSinceRestart := b'.entriesSinceRestart + 1
    entryCount := b'.entryCount + 1 }

/-- `none` is a failed assertion. -/
def add (key value : Bytes) : Option BlockBuilder :=
  if b.finished ∨ key.length ≥ 2 ^ 32 ∨ value.length ≥ 2 ^ 32 ∨
      (b.entriesSinceRestart = b.restartInterval ∧ b.buffer.length ≥ 2 ^ 32) then none
  else some (b.push key value)

/-- The bytes with the restart array and its length. -/
def contents : Bytes :=
  b.buffer ++ (b.restarts.flatMap putFixed32 ++ putFixed32 b.restarts.length)

def finish : Option (BlockBuilder × Bytes) :=
  if b.finished ∨ b.restarts.length ≥ 2 ^ 32 then none
  else some ({ b with buffer := b.contents, finished := true }, b.contents)

def currentSizeEstimate : ℕ :=
  if b.finished then b.buffer.length else b.buffer.length + b.restarts.length * 4 + 4

end BlockBuilder

/-- `add` for every entry and `finish`, with all assertions. -/
def BlockBuilder.build (b : BlockBuilder) (es : List Entry) : Option Bytes := do
  let b ← es.foldlM (fun b e => b.add (encodeInternalKey e.key) e.value) b
  let (_, bytes) ← b.finish
  some bytes

def BlockBuilder.pushAll (b : BlockBuilder) (es : List Entry) : BlockBuilder :=
  es.foldl (fun (b : BlockBuilder) e => b.push (encodeInternalKey e.key) e.value) b

/-- The bytes of a block with these entries. -/
def blockBytes (restartInterval : ℕ) (es : List Entry) : Bytes :=
  (BlockBuilder.pushAll { restartInterval := restartInterval } es).contents

/-! ### Blocks described by their entries -/

structure Chunk where
  shared : ℕ
  entry : Entry

namespace Chunk

def key (c : Chunk) : Bytes := encodeInternalKey c.entry.key

def encode (c : Chunk) : Bytes := encodeEntry c.shared c.key c.entry.value

end Chunk

/-- Where the entry with index `i` begins. -/
def offset (cs : List Chunk) (i : ℕ) : ℕ := ((cs.take i).flatMap Chunk.encode).length

/-- The key before the entry with index `i`. -/
def keyBefore (cs : List Chunk) (i : ℕ) : Bytes :=
  match i with
  | 0 => []
  | i + 1 => (cs[i]?.map Chunk.key).getD []

/-- The bytes of a block with entries `cs` and restart points at the indices `rs`. -/
structure Layout (block : Bytes) (cs : List Chunk) (rs : List ℕ) : Prop where
  bytes : block = cs.flatMap Chunk.encode ++
    (rs.flatMap (fun i => putFixed32 (offset cs i)) ++ putFixed32 rs.length)
  size : block.length < 2 ^ 32
  /-- What an entry leaves out is at the beginning of the key before it. -/
  shared : ∀ i c, cs[i]? = some c → c.shared ≤ (keyBefore cs i).length ∧
    (keyBefore cs i).take c.shared = c.key.take c.shared
  first : rs.head? = some 0
  restart : ∀ i ∈ rs, ∀ c, cs[i]? = some c → c.shared = 0
  inside : ∀ i ∈ rs, i ≤ cs.length - 1
  keySize : ∀ c ∈ cs, c.key.length < 2 ^ 32
  sequence : ∀ c ∈ cs, c.entry.key.sequence ≤ maxSequenceNumber
  ascending : cs.Pairwise fun a b => a.entry.key < b.entry.key
  increasing : rs.Pairwise (· < ·)

theorem commonPrefix_le_left (a b : Bytes) : commonPrefix a b ≤ a.length := by
  fun_induction commonPrefix a b with
  | case1 a as bs ih => simpa using ih
  | case2 => simp
  | case3 => simp

theorem take_commonPrefix (a b : Bytes) :
    a.take (commonPrefix a b) = b.take (commonPrefix a b) := by
  fun_induction commonPrefix a b with
  | case1 a as bs ih => simpa using ih
  | case2 => simp
  | case3 => simp

theorem commonPrefix_le_right (a b : Bytes) : commonPrefix a b ≤ b.length := by
  fun_induction commonPrefix a b with
  | case1 a as bs ih => simpa using ih
  | case2 => simp
  | case3 => simp

theorem offset_append {cs : List Chunk} {i : ℕ} (h : i ≤ cs.length) (cs' : List Chunk) :
    offset (cs ++ cs') i = offset cs i := by
  rw [offset, List.take_append_of_le_length h, offset]

theorem offset_length (cs : List Chunk) :
    offset cs cs.length = (cs.flatMap Chunk.encode).length := by
  rw [offset, List.take_length]

theorem offset_succ {cs : List Chunk} {i : ℕ} {c : Chunk} (h : cs[i]? = some c) :
    offset cs (i + 1) = offset cs i + c.encode.length := by
  rw [offset, List.take_add_one, h, List.flatMap_append, List.length_append, offset]
  simp

theorem offset_mono (cs : List Chunk) {i j : ℕ} (h : i ≤ j) : offset cs i ≤ offset cs j := by
  obtain ⟨k, rfl⟩ := Nat.exists_eq_add_of_le h
  rw [offset, offset, List.take_add, List.flatMap_append, List.length_append]
  exact Nat.le_add_right _ _

theorem length_flatMap_putFixed32 (f : ℕ → ℕ) (l : List ℕ) :
    (l.flatMap fun i => putFixed32 (f i)).length = l.length * 4 := by
  induction l with
  | nil => rfl
  | cons i l ih =>
    rw [List.flatMap_cons, List.length_append, ih, length_putFixed32, List.length_cons]
    omega

theorem length_encodeEntry (shared : ℕ) (key value : Bytes) :
    (encodeEntry shared key value).length = 12 + (key.length - shared) + value.length := by
  simp [encodeEntry]
  omega

theorem keyBefore_append {cs : List Chunk} {i : ℕ} (h : i ≤ cs.length) (cs' : List Chunk) :
    keyBefore (cs ++ cs') i = keyBefore cs i := by
  cases i with
  | zero => rfl
  | succ i => rw [keyBefore, keyBefore, List.getElem?_append_left h]

theorem keyBefore_concat (cs : List Chunk) (c : Chunk) :
    keyBefore (cs ++ [c]) (cs.length + 1) = c.key := by
  simp [keyBefore]

/-! ### What the builder writes -/

/-- The builder has written the entries `cs`, with restart points at `rs`. -/
structure Laid (b : BlockBuilder) (cs : List Chunk) (rs : List ℕ) : Prop where
  buffer : b.buffer = cs.flatMap Chunk.encode
  restarts : b.restarts = rs.map (offset cs)
  lastKey : b.lastKey = keyBefore cs cs.length
  keySize : ∀ c ∈ cs, c.key.length ≤ b.buffer.length
  shared : ∀ i c, cs[i]? = some c → c.shared ≤ (keyBefore cs i).length ∧
    (keyBefore cs i).take c.shared = c.key.take c.shared
  first : rs.head? = some 0
  restart : ∀ i ∈ rs, ∀ c, cs[i]? = some c → c.shared = 0
  inside : ∀ i ∈ rs, i ≤ cs.length - 1
  since : ∃ last ∈ rs, cs.length = last + b.entriesSinceRestart
  increasing : rs.Pairwise (· < ·)

theorem Laid.new (interval : ℕ) : Laid { restartInterval := interval } [] [0] where
  buffer := rfl
  restarts := rfl
  lastKey := rfl
  keySize c h := by simp at h
  shared i c h := by simp at h
  first := rfl
  restart i _ c h := by simp at h
  inside i h := by simpa using h
  since := ⟨0, by simp, rfl⟩
  increasing := by simp

/-- The entry that `push` writes. -/
def BlockBuilder.chunk (b : BlockBuilder) (e : Entry) : Chunk where
  shared := if b.entriesSinceRestart = b.restartInterval then 0
    else commonPrefix b.lastKey (encodeInternalKey e.key)
  entry := e

theorem BlockBuilder.shared_le (b : BlockBuilder) (e : Entry) :
    (b.chunk e).shared ≤ b.lastKey.length ∧
      b.lastKey.take (b.chunk e).shared = (b.chunk e).key.take (b.chunk e).shared ∧
      (b.chunk e).shared ≤ (encodeInternalKey e.key).length := by
  unfold BlockBuilder.chunk
  split_ifs
  · simp
  · exact ⟨commonPrefix_le_left .., take_commonPrefix .., commonPrefix_le_right ..⟩

theorem BlockBuilder.push_buffer (b : BlockBuilder) (e : Entry) :
    (b.push (encodeInternalKey e.key) e.value).buffer = b.buffer ++ (b.chunk e).encode := by
  dsimp only [BlockBuilder.push, BlockBuilder.chunk, Chunk.encode, Chunk.key]
  split_ifs <;> rfl

variable {es : List Entry}

section Push

variable {b : BlockBuilder} {cs : List Chunk} {rs : List ℕ} {e : Entry}

/-- Writing one entry keeps the earlier ones. -/
theorem Laid.shared_concat (h : Laid b cs rs) (e : Entry) (i : ℕ) (c : Chunk)
    (hc : (cs ++ [b.chunk e])[i]? = some c) :
    c.shared ≤ (keyBefore (cs ++ [b.chunk e]) i).length ∧
      (keyBefore (cs ++ [b.chunk e]) i).take c.shared = c.key.take c.shared := by
  rcases Nat.lt_trichotomy i cs.length with hi | rfl | hi
  · rw [List.getElem?_append_left hi] at hc
    rw [keyBefore_append hi.le]
    exact h.shared i c hc
  · obtain rfl : b.chunk e = c := by simpa using hc
    rw [keyBefore_append le_rfl, ← h.lastKey]
    exact ⟨(b.shared_le e).1, (b.shared_le e).2.1⟩
  · rw [List.getElem?_eq_none (by simp; omega)] at hc
    simp at hc

theorem Laid.length_lastKey (h : Laid b cs rs) : b.lastKey.length ≤ b.buffer.length := by
  rw [h.lastKey]
  cases hlen : cs.length with
  | zero => exact Nat.zero_le _
  | succ n =>
    obtain ⟨c, hc⟩ : ∃ c, cs[n]? = some c := ⟨_, List.getElem?_eq_getElem (by omega)⟩
    rw [keyBefore, hc]
    exact h.keySize c (List.mem_of_getElem? hc)

theorem Laid.keySize_push (h : Laid b cs rs) (e : Entry) :
    (encodeInternalKey e.key).length ≤
      (b.push (encodeInternalKey e.key) e.value).buffer.length := by
  obtain ⟨hle, -, hkey⟩ := b.shared_le e
  have := h.length_lastKey
  rw [BlockBuilder.push_buffer, List.length_append, Chunk.encode, length_encodeEntry]
  dsimp only [Chunk.key] at *
  have hentry : (b.chunk e).entry = e := rfl
  rw [hentry]
  omega

/-- The entries at the old restarts share nothing. -/
theorem Laid.restart_concat (h : Laid b cs rs) (e : Entry) :
    ∀ i ∈ rs, ∀ c, (cs ++ [b.chunk e])[i]? = some c → c.shared = 0 := by
  intro i him c hc
  have hle := h.inside i him
  by_cases hlt : i < cs.length
  · rw [List.getElem?_append_left hlt] at hc
    exact h.restart i him c hc
  · -- The first entry: there is no key before it.
    obtain rfl : cs = [] := by
      rw [← List.length_eq_zero_iff]
      omega
    obtain rfl : i = 0 := by simpa using hle
    obtain rfl : b.chunk e = c := by simpa using hc
    have := (b.shared_le e).1
    rw [h.lastKey] at this
    simpa [keyBefore] using this

theorem Laid.push (h : Laid b cs rs) (hi : 0 < b.restartInterval) (e : Entry) :
    ∃ rs', Laid (b.push (encodeInternalKey e.key) e.value) (cs ++ [b.chunk e]) rs' := by
  have hbuffer : (b.push (encodeInternalKey e.key) e.value).buffer =
      (cs ++ [b.chunk e]).flatMap Chunk.encode := by
    rw [BlockBuilder.push_buffer, h.buffer]
    simp
  have hlast : (b.push (encodeInternalKey e.key) e.value).lastKey =
      keyBefore (cs ++ [b.chunk e]) (cs ++ [b.chunk e]).length := by
    rw [List.length_append, List.length_singleton, keyBefore_concat]
    rfl
  have hkeys : ∀ c ∈ cs ++ [b.chunk e],
      c.key.length ≤ (b.push (encodeInternalKey e.key) e.value).buffer.length := by
    intro c hc
    rcases List.mem_append.mp hc with hc | hc
    · refine (h.keySize c hc).trans ?_
      rw [BlockBuilder.push_buffer, List.length_append]
      exact Nat.le_add_right _ _
    · obtain rfl := List.mem_singleton.mp hc
      exact h.keySize_push e
  have hold : ∀ i ∈ rs, i ≤ cs.length := fun i him => (h.inside i him).trans (Nat.sub_le ..)
  have hoffsets : rs.map (offset (cs ++ [b.chunk e])) = rs.map (offset cs) :=
    List.map_congr_left fun i him => offset_append (hold i him) _
  obtain ⟨last, hlastmem, hsince⟩ := h.since
  by_cases hrestart : b.entriesSinceRestart = b.restartInterval
  · refine ⟨rs ++ [cs.length], hbuffer, ?_, hlast, hkeys, h.shared_concat e, ?_, ?_, ?_,
      ?_, ?_⟩
    · rw [List.map_append, hoffsets, List.map_singleton, offset_append le_rfl, offset_length,
        ← h.buffer, ← h.restarts]
      simp [BlockBuilder.push, hrestart]
    · rw [List.head?_append, h.first]
      rfl
    · intro i him c hc
      rcases List.mem_append.mp him with him | him
      · exact h.restart_concat e i him c hc
      · obtain rfl := List.mem_singleton.mp him
        obtain rfl : b.chunk e = c := by simpa using hc
        exact if_pos hrestart
    · intro i him
      rw [List.length_append, List.length_singleton, Nat.add_sub_cancel]
      rcases List.mem_append.mp him with him | him
      · exact hold i him
      · exact (List.mem_singleton.mp him).le
    · exact ⟨cs.length, by simp, by simp [BlockBuilder.push, hrestart]⟩
    · refine List.pairwise_append.mpr ⟨h.increasing, List.pairwise_singleton _ _, ?_⟩
      intro i him j hj
      obtain rfl := List.mem_singleton.mp hj
      have := h.inside i him
      omega
  · refine ⟨rs, hbuffer, ?_, hlast, hkeys, h.shared_concat e, h.first, h.restart_concat e, ?_, ?_,
      h.increasing⟩
    · rw [hoffsets, ← h.restarts]
      simp [BlockBuilder.push, hrestart]
    · intro i him
      rw [List.length_append, List.length_singleton, Nat.add_sub_cancel]
      exact hold i him
    · refine ⟨last, hlastmem, ?_⟩
      simp [BlockBuilder.push, hrestart]
      omega

theorem BlockBuilder.push_restartInterval (b : BlockBuilder) (key value : Bytes) :
    (b.push key value).restartInterval = b.restartInterval := by
  simp only [BlockBuilder.push]
  split_ifs <;> rfl

/-- All entries, one after the other. -/
theorem Laid.pushAll (h : Laid b cs rs) (hi : 0 < b.restartInterval) (es : List Entry) :
    ∃ cs' rs', Laid (b.pushAll es) (cs ++ cs') rs' ∧ cs'.map Chunk.entry = es := by
  induction es generalizing b cs rs with
  | nil => exact ⟨[], rs, by rw [List.append_nil]; exact h, rfl⟩
  | cons e es ih =>
    obtain ⟨rs₁, h₁⟩ := h.push hi e
    obtain ⟨cs', rs', h', hmap⟩ := ih h₁ (by rw [BlockBuilder.push_restartInterval]; exact hi)
    refine ⟨b.chunk e :: cs', rs', ?_, by simpa [BlockBuilder.chunk] using hmap⟩
    rw [List.append_cons]
    exact h'

theorem BlockBuilder.length_buffer_pushAll (b : BlockBuilder) (es : List Entry) :
    b.buffer.length ≤ (b.pushAll es).buffer.length := by
  induction es generalizing b with
  | nil => exact le_rfl
  | cons e es ih =>
    refine le_trans ?_ (ih (b.push (encodeInternalKey e.key) e.value))
    rw [BlockBuilder.push_buffer, List.length_append]
    exact Nat.le_add_right _ _

theorem BlockBuilder.push_finished (b : BlockBuilder) (key value : Bytes) :
    (b.push key value).finished = b.finished := by
  simp only [BlockBuilder.push]
  split_ifs <;> rfl

theorem BlockBuilder.pushAll_finished (b : BlockBuilder) (es : List Entry) :
    (b.pushAll es).finished = b.finished := by
  induction es generalizing b with
  | nil => rfl
  | cons e es ih => exact (ih _).trans (b.push_finished _ _)

/-- The assertions of `add` hold when the block stays below 4 GiB. -/
theorem Laid.add_eq (h : Laid b cs rs) (hf : b.finished = false)
    (hsize : (b.push (encodeInternalKey e.key) e.value).buffer.length < 2 ^ 32) :
    b.add (encodeInternalKey e.key) e.value = some (b.push (encodeInternalKey e.key) e.value) := by
  have hkey := h.keySize_push e
  have hbuffer : (b.push (encodeInternalKey e.key) e.value).buffer.length =
      b.buffer.length + (12 + ((b.chunk e).key.length - (b.chunk e).shared) + e.value.length) := by
    rw [BlockBuilder.push_buffer, List.length_append, Chunk.encode, length_encodeEntry]
    rfl
  rw [BlockBuilder.add, if_neg]
  rw [hf]
  simp only [Bool.false_eq_true, false_or, ge_iff_le, not_or, not_and, not_le]
  exact ⟨by omega, by omega, fun _ => by omega⟩

theorem Laid.foldlM_add (h : Laid b cs rs) (hi : 0 < b.restartInterval) (hf : b.finished = false)
    (hsize : (b.pushAll es).buffer.length < 2 ^ 32) :
    es.foldlM (fun (b : BlockBuilder) e => b.add (encodeInternalKey e.key) e.value) b =
      some (b.pushAll es) := by
  induction es generalizing b cs rs with
  | nil => rfl
  | cons e es ih =>
    obtain ⟨rs₁, h₁⟩ := h.push hi e
    have hgrow := (b.push (encodeInternalKey e.key) e.value).length_buffer_pushAll es
    have hpushAll : b.pushAll (e :: es) =
        (b.push (encodeInternalKey e.key) e.value).pushAll es := rfl
    rw [hpushAll] at hsize ⊢
    rw [List.foldlM_cons, h.add_eq hf (by omega)]
    exact ih h₁ (by rw [BlockBuilder.push_restartInterval]; exact hi)
      (by rw [BlockBuilder.push_finished]; exact hf) hsize

theorem BlockBuilder.length_contents (b : BlockBuilder) :
    b.contents.length = b.buffer.length + (b.restarts.length * 4 + 4) := by
  simp [BlockBuilder.contents]

theorem BlockBuilder.length_contents_push (b : BlockBuilder) (e : Entry) :
    b.contents.length + 12 ≤ (b.push (encodeInternalKey e.key) e.value).contents.length := by
  have hbuffer := congrArg List.length (b.push_buffer e)
  have hrestarts : b.restarts.length ≤
      (b.push (encodeInternalKey e.key) e.value).restarts.length := by
    simp only [BlockBuilder.push]
    split_ifs <;> simp
  rw [List.length_append, Chunk.encode, length_encodeEntry] at hbuffer
  rw [BlockBuilder.length_contents, BlockBuilder.length_contents]
  omega

/-- Every entry takes twelve bytes or more. -/
theorem BlockBuilder.length_contents_pushAll (b : BlockBuilder) (es : List Entry) :
    b.contents.length + 12 * es.length ≤ (b.pushAll es).contents.length := by
  induction es generalizing b with
  | nil => exact le_rfl
  | cons e es ih =>
    have hpush := b.length_contents_push e
    have hrest := ih (b.push (encodeInternalKey e.key) e.value)
    have hpushAll : b.pushAll (e :: es) =
        (b.push (encodeInternalKey e.key) e.value).pushAll es := rfl
    rw [hpushAll, List.length_cons]
    omega

theorem BlockBuilder.pushAll_append (b : BlockBuilder) (es fs : List Entry) :
    b.pushAll (es ++ fs) = (b.pushAll es).pushAll fs := List.foldl_append

end Push

theorem length_blockBytes_append (interval : ℕ) (es fs : List Entry) :
    (blockBytes interval es).length + 12 * fs.length ≤
      (blockBytes interval (es ++ fs)).length := by
  rw [blockBytes, blockBytes, BlockBuilder.pushAll_append]
  exact BlockBuilder.length_contents_pushAll _ fs

/-- The builder writes its block when that is below 4 GiB. -/
theorem build_eq {interval : ℕ} (hi : 0 < interval)
    (hsize : (blockBytes interval es).length < 2 ^ 32) :
    BlockBuilder.build { restartInterval := interval } es =
      some (blockBytes interval es) := by
  rw [blockBytes, BlockBuilder.length_contents] at hsize
  have hfold := (Laid.new interval).foldlM_add hi rfl
    (by omega : (BlockBuilder.pushAll { restartInterval := interval } es).buffer.length < _)
  have hfinished : (BlockBuilder.pushAll { restartInterval := interval } es).finished =
      false := BlockBuilder.pushAll_finished _ es
  simp only [BlockBuilder.build, hfold, Option.bind_eq_bind, Option.bind_some]
  rw [BlockBuilder.finish, if_neg]
  · rfl
  · rw [hfinished]
    simp only [Bool.false_eq_true, false_or, ge_iff_le, not_le]
    omega

/-- The block of entries in ascending order has a layout with these entries. -/
theorem exists_layout {interval : ℕ} (hi : 0 < interval)
    (hes : Ascending es) (hseq : ∀ e ∈ es, e.key.sequence ≤ maxSequenceNumber)
    (hsize : (blockBytes interval es).length < 2 ^ 32) :
    ∃ cs rs, Layout (blockBytes interval es) cs rs ∧ cs.map Chunk.entry = es := by
  obtain ⟨cs, rs, h, hmap⟩ := (Laid.new interval).pushAll hi es
  rw [List.nil_append] at h
  refine ⟨cs, rs, ?_, hmap⟩
  constructor
  · rw [blockBytes, BlockBuilder.contents, h.buffer, h.restarts, List.length_map, List.flatMap_map]
  · exact hsize
  · exact h.shared
  · exact h.first
  · exact h.restart
  · exact h.inside
  · intro c hc
    have := h.keySize c hc
    rw [blockBytes, BlockBuilder.length_contents] at hsize
    omega
  · intro c hc
    exact hseq _ (hmap ▸ List.mem_map_of_mem hc)
  · rw [← hmap, Ascending, List.pairwise_map] at hes
    exact hes
  · exact h.increasing

end Mizu.Lsm
