import Mizu.Lsm.Coding

/-!
# Iterators over the bytes of a block

`BlockIterator` of `table/block_iterator.cc`. Every read of the block is checked against its
length: a call is `none` when it would read outside of the block, violate an assertion or not
end. The bytes are not trusted; what the entries and the restart array say is checked before it is
used.
-/

namespace Mizu.Lsm

/-! ### Reads -/

/-- `decodeFixed32` of the four bytes at a position. -/
def load32 (block : Bytes) (pos : ℕ) : Option ℕ :=
  if pos + 4 ≤ block.length then some (LittleEndian.decode ((block.drop pos).take 4)) else none

def loadBytes (block : Bytes) (pos size : ℕ) : Option Bytes :=
  if pos + size ≤ block.length then some ((block.drop pos).take size) else none

variable {block : Bytes}

theorem exists_load32 {pos : ℕ} (h : pos + 4 ≤ block.length) :
    ∃ v, load32 block pos = some v := ⟨_, if_pos h⟩

theorem exists_header {pos : ℕ} (h : pos + 12 ≤ block.length) : ∃ a b c, load32 block pos = some a ∧
    load32 block (pos + 4) = some b ∧ load32 block (pos + 8) = some c :=
  ⟨_, _, _, if_pos (by omega), if_pos (by omega), if_pos (by omega)⟩

theorem loadBytes_of_le {pos size : ℕ} (h : pos + size ≤ block.length) :
    loadBytes block pos size = some ((block.drop pos).take size) := if_pos h

/-- `InternalKeyLess` on encoded keys; both must have a tag. -/
def internalKeyLess (a b : Bytes) : Option Bool :=
  if a.length < 8 ∨ b.length < 8 then none
  else
    let aUser := a.take (a.length - 8)
    let bUser := b.take (b.length - 8)
    some (if aUser ≠ bUser then aUser < bUser else decodeTag a > decodeTag b)

variable {k : InternalKey} {key : Bytes}

theorem length_of_parse (h : parseInternalKey key = some k) :
    8 ≤ key.length := by
  unfold parseInternalKey at h
  split_ifs at h with hlen
  omega

/-- The parts of an encoded key. -/
theorem parse_parts (h : parseInternalKey key = some k) :
    k.userKey = key.take (key.length - 8) ∧ k.tag = decodeTag key := by
  unfold parseInternalKey at h
  split_ifs at h with hlen
  dsimp only at h
  split_ifs at h with hdel hval
  · cases h
    refine ⟨rfl, ?_⟩
    simp only [InternalKey.tag, ValueType.code]
    omega
  · cases h
    refine ⟨rfl, ?_⟩
    simp only [InternalKey.tag, ValueType.code]
    omega

/-- Encoded keys are compared as the keys that they encode. -/
theorem internalKeyLess_eq {a b : Bytes} {ka kb : InternalKey} (ha : parseInternalKey a = some ka)
    (hb : parseInternalKey b = some kb) : internalKeyLess a b = some (decide (ka < kb)) := by
  have hlen : ¬(a.length < 8 ∨ b.length < 8) := by
    have := length_of_parse ha
    have := length_of_parse hb
    omega
  obtain ⟨hua, hta⟩ := parse_parts ha
  obtain ⟨hub, htb⟩ := parse_parts hb
  have hless : (ka < kb) ↔ ka.Less kb := InternalKey.less_iff.symm
  unfold internalKeyLess
  simp only [← hua, ← hub, ← hta, ← htb, hless, InternalKey.Less, gt_iff_lt]
  split_ifs <;> rfl

/-! ### Encoded keys and their order -/

/-- What the parser accepts is the encoding of what it returns. -/
theorem encodeInternalKey_parse (h : parseInternalKey key = some k) :
    encodeInternalKey k = key := by
  have hlen := length_of_parse h
  obtain ⟨huser, htag⟩ := parse_parts h
  have htail : putFixed64 k.tag = key.drop (key.length - 8) := by
    have hwidth : (key.drop (key.length - 8)).length = 8 := by
      rw [List.length_drop]
      omega
    have hencode := LittleEndian.encode_decode (key.drop (key.length - 8))
    rw [hwidth] at hencode
    rw [htag]
    exact hencode
  rw [encodeInternalKey, huser, htail, List.take_append_drop]

theorem sequence_le_of_parse (h : parseInternalKey key = some k) :
    k.sequence ≤ maxSequenceNumber := by
  have hlen := length_of_parse h
  have hlt := LittleEndian.decode_lt (key.drop (key.length - 8))
  have hwidth : (key.drop (key.length - 8)).length = 8 := by
    rw [List.length_drop]
    omega
  rw [hwidth, ← decodeTag, ← (parse_parts h).2] at hlt
  unfold InternalKey.tag at hlt
  unfold maxSequenceNumber
  omega

theorem internalKeyLess_encode {a b : InternalKey} (ha : a.sequence ≤ maxSequenceNumber)
    (hb : b.sequence ≤ maxSequenceNumber) :
    internalKeyLess (encodeInternalKey a) (encodeInternalKey b) = some (decide (a < b)) :=
  internalKeyLess_eq (parseInternalKey_encode ha) (parseInternalKey_encode hb)

/-- Values come before deletions, since the order of the tags is reversed. -/
theorem InternalKey.lt_iff_fields {a b : InternalKey} :
    a < b ↔ a.userKey < b.userKey ∨ a.userKey = b.userKey ∧
      (b.sequence < a.sequence ∨
        a.sequence = b.sequence ∧ a.type = .value ∧ b.type = .deletion) := by
  have htype : b.type.code < a.type.code ↔ a.type = .value ∧ b.type = .deletion := by
    cases a.type <;> cases b.type <;> simp [ValueType.code]
  rw [InternalKey.lt_iff, InternalKey.tag_lt_iff, htype, eq_comm (a := b.sequence)]

/-- Internal keys are read back, and only encodings are read. `InternalKeyLess` on encodings is a
strict total order: user keys ascend by unsigned bytes, then sequences descend, then values come
before deletions. The key of a lookup stands before every version that the lookup may see and
after every newer one. -/
theorem internal_keys_encode_order :
    (∀ k : InternalKey, k.sequence ≤ maxSequenceNumber →
      parseInternalKey (encodeInternalKey k) = some k) ∧
    (∀ key k, parseInternalKey key = some k →
      k.sequence ≤ maxSequenceNumber ∧ encodeInternalKey k = key) ∧
    (∀ a b : InternalKey, a.sequence ≤ maxSequenceNumber → b.sequence ≤ maxSequenceNumber →
      internalKeyLess (encodeInternalKey a) (encodeInternalKey b) =
        some (decide (List.Lex (fun x y : UInt8 => x.toNat < y.toNat) a.userKey b.userKey ∨
          a.userKey = b.userKey ∧ (b.sequence < a.sequence ∨
            a.sequence = b.sequence ∧ a.type = .value ∧ b.type = .deletion)))) ∧
    (∀ a b c : InternalKey, a.sequence ≤ maxSequenceNumber → b.sequence ≤ maxSequenceNumber →
      c.sequence ≤ maxSequenceNumber →
      internalKeyLess (encodeInternalKey a) (encodeInternalKey a) = some false ∧
      (internalKeyLess (encodeInternalKey a) (encodeInternalKey b) = some true →
        internalKeyLess (encodeInternalKey b) (encodeInternalKey c) = some true →
        internalKeyLess (encodeInternalKey a) (encodeInternalKey c) = some true) ∧
      (internalKeyLess (encodeInternalKey a) (encodeInternalKey b) = some true ∨
        encodeInternalKey a = encodeInternalKey b ∨
        internalKeyLess (encodeInternalKey b) (encodeInternalKey a) = some true)) ∧
    (∀ (key : Bytes) (s : ℕ) (v : InternalKey), s ≤ maxSequenceNumber →
      v.sequence ≤ maxSequenceNumber → v.userKey = key →
      internalKeyLess (encodeInternalKey v) (encodeInternalKey ⟨key, s, .value⟩) =
        some (decide (s < v.sequence))) := by
  refine ⟨fun k => parseInternalKey_encode, ?_, ?_, ?_, ?_⟩
  · intro key k h
    exact ⟨sequence_le_of_parse h, encodeInternalKey_parse h⟩
  · intro a b ha hb
    rw [internalKeyLess_encode ha hb]
    exact congrArg some (decide_eq_decide.mpr InternalKey.lt_iff_fields)
  · intro a b c ha hb hc
    simp only [internalKeyLess_encode, ha, hb, hc, Option.some.injEq, decide_eq_true_eq,
      decide_eq_false_iff_not]
    refine ⟨lt_irrefl a, lt_trans, ?_⟩
    rcases lt_trichotomy a b with h | rfl | h
    · exact .inl h
    · exact .inr (.inl rfl)
    · exact .inr (.inr h)
  · rintro key s v hs hv rfl
    rw [internalKeyLess_encode hv hs]
    refine congrArg some (decide_eq_decide.mpr ?_)
    rw [← not_le, ← not_le, ← lookupKey, lookupKey_le_iff]
    simp

theorem internal_keys_encode_order_small :
    parseInternalKey (encodeInternalKey ⟨[255], 3, .deletion⟩) = some ⟨[255], 3, .deletion⟩ ∧
      internalKeyLess (encodeInternalKey ⟨[1], 3, .value⟩) (encodeInternalKey ⟨[255], 3, .value⟩) =
        some true ∧
      internalKeyLess (encodeInternalKey ⟨[1], 9, .deletion⟩) (encodeInternalKey ⟨[1], 8, .value⟩) =
        some true := by
  obtain ⟨hread, -, hless, -, hlookup⟩ := internal_keys_encode_order
  refine ⟨hread _ (by decide), ?_, ?_⟩
  · exact (hless _ _ (by decide) (by decide)).trans (by decide)
  · exact hlookup [1] 8 _ (by decide) (by decide) rfl

/-! ### The iterator -/

/-- `value_` is kept as a position in the block and a size. -/
structure BlockIterator where
  block : Bytes
  restartOffset : ℕ := 0
  restartCount : ℕ := 0
  nextOffset : ℕ := 0
  key : Bytes := []
  valuePos : ℕ := 0
  valueSize : ℕ := 0
  valid : Bool := false
  status : Option Status := none
deriving DecidableEq, Repr

namespace BlockIterator

variable (it : BlockIterator)

def value : Bytes := (it.block.drop it.valuePos).take it.valueSize

def invalidate : BlockIterator :=
  { it with valid := false, key := [], valuePos := 0, valueSize := 0 }

def fail (message : String) : BlockIterator :=
  { it with status := some (.corruption message) }.invalidate

/-- `restartOffset(index)` -/
def restartAt (index : ℕ) : Option ℕ :=
  if index < it.restartCount then load32 it.block (it.restartOffset + index * 4) else none

/-- The constructor. -/
def new (block : Bytes) : Option BlockIterator :=
  let it : BlockIterator := { block := block }
  if block.length < 4 then some (it.fail "block is shorter than restart count")
  else do
    let count ← load32 block (block.length - 4)
    let it := { it with restartCount := count }
    if count = 0 then some (it.fail "block has no restart points")
    else if count > (block.length - 4) / 4 then
      some (it.fail "restart array extends outside block")
    else do
      let it := { it with restartOffset := block.length - 4 - count * 4 }
      let first ← it.restartAt 0
      if first ≠ 0 then some (it.fail "first restart point is not zero") else some it

/-- `decodeEntry` and whether it succeeded. -/
def decodeEntry (offset : ℕ) : Option (BlockIterator × Bool) :=
  if offset ≥ it.restartOffset then some (it.fail "entry offset is outside block", false)
  else if it.restartOffset - offset < 12 then some (it.fail "truncated block entry", false)
  else do
    let shared ← load32 it.block offset
    let unshared ← load32 it.block (offset + 4)
    let valueSize ← load32 it.block (offset + 8)
    let available := it.restartOffset - offset - 12
    if shared > it.key.length ∨ unshared > available then
      some (it.fail "invalid key lengths in block entry", false)
    else do
      let suffix ← loadBytes it.block (offset + 12) unshared
      let decodedKey := it.key.take shared ++ suffix
      if valueSize > available - unshared then some (it.fail "truncated block value", false)
      else if parseInternalKey decodedKey = none then
        some (it.fail "invalid internal key in block", false)
      else
        some ({ it with
          valuePos := offset + 12 + unshared
          valueSize := valueSize
          nextOffset := offset + 12 + unshared + valueSize
          key := decodedKey
          valid := true }, true)

def seekToFirst : Option BlockIterator :=
  if it.status ≠ none then some it
  else if it.invalidate.restartOffset = 0 then some it.invalidate
  else (it.invalidate.decodeEntry 0).map Prod.fst

def next : Option BlockIterator :=
  if it.valid = false then none
  else if it.nextOffset = it.restartOffset then some it.invalidate
  else (it.decodeEntry it.nextOffset).map Prod.fst

/-- `readRestartKey`; without a key the iterator has failed. -/
def readRestartKey (index : ℕ) : Option (BlockIterator × Option Bytes) := do
  let offset ← it.restartAt index
  if offset ≥ it.restartOffset then
    some (it.fail "restart point is outside entry data", none)
  else if it.restartOffset - offset < 12 then some (it.fail "invalid restart entry", none)
  else do
    let shared ← load32 it.block offset
    let unshared ← load32 it.block (offset + 4)
    let valueSize ← load32 it.block (offset + 8)
    let available := it.restartOffset - offset - 12
    if shared ≠ 0 ∨ unshared > available then some (it.fail "invalid restart entry", none)
    else do
      let key ← loadBytes it.block (offset + 12) unshared
      if valueSize > available - unshared then some (it.fail "truncated restart entry", none)
      else if parseInternalKey key = none then
        some (it.fail "invalid internal key in block", none)
      else some (it, some key)

/-- The binary search of `seek`: the number of restart keys up to the target. -/
def searchRestarts (target : Bytes) : ℕ → ℕ → ℕ → Option (BlockIterator × Option ℕ)
  | 0, left, right => if left < right then none else some (it, some left)
  | fuel + 1, left, right =>
    if left < right then do
      let middle := left + (right - left) / 2
      match ← it.readRestartKey middle with
      | (failed, none) => some (failed, none)
      | (_, some restartKey) =>
        let less ← internalKeyLess target restartKey
        if less = false then searchRestarts target fuel (middle + 1) right
        else searchRestarts target fuel left middle
    else some (it, some left)

/-- The loop at the end of `seek`. -/
def advance (target : Bytes) : ℕ → BlockIterator → Option BlockIterator
  | 0, it => if it.valid then none else some it
  | fuel + 1, it =>
    if it.valid then do
      let less ← internalKeyLess it.key target
      if less then do
        let it ← it.next
        advance target fuel it
      else some it
    else some it

def seek (target : Bytes) : Option BlockIterator :=
  if it.status ≠ none then some it
  else if parseInternalKey target = none then none
  else
    let it := it.invalidate
    if it.restartOffset = 0 then some it
    else do
      match ← it.searchRestarts target it.restartCount 0 it.restartCount with
      | (failed, none) => some failed
      | (it, some left) =>
        let offset ← it.restartAt (if left = 0 then 0 else left - 1)
        let (it, ok) ← { it with key := [] }.decodeEntry offset
        if ok then advance target it.block.length it else some it

/-! ### What the calls can do -/

/-- The iterator on the entry at `offset`, whose value is at `pos`. -/
def atEntry (key : Bytes) (pos size : ℕ) : BlockIterator :=
  { it with
    valuePos := pos, valueSize := size, nextOffset := pos + size, key := key, valid := true }

/-- The results of `decodeEntry`. -/
inductive Decoded (offset : ℕ) : BlockIterator × Bool → Prop
  | failed (message : String) : Decoded offset (it.fail message, false)
  | entry (key : Bytes) (pos size : ℕ) (hpos : offset + 12 ≤ pos)
      (hend : pos + size ≤ it.restartOffset) (hkey : parseInternalKey key ≠ none) :
      Decoded offset (it.atEntry key pos size, true)

variable {it}

theorem exists_decodeEntry (h : it.restartOffset ≤ it.block.length) (offset : ℕ) :
    ∃ result, it.decodeEntry offset = some result ∧ it.Decoded offset result := by
  unfold decodeEntry
  by_cases houtside : offset ≥ it.restartOffset
  · exact ⟨_, if_pos houtside, .failed _⟩
  by_cases hshort : it.restartOffset - offset < 12
  · rw [if_neg houtside, if_pos hshort]
    exact ⟨_, rfl, .failed _⟩
  obtain ⟨shared, unshared, valueSize, hshared, hunshared, hvalueSize⟩ :=
    exists_header (by omega : offset + 12 ≤ it.block.length)
  simp only [if_neg houtside, if_neg hshort, hshared, hunshared, hvalueSize, Option.bind_eq_bind,
    Option.bind_some]
  by_cases hlengths : shared > it.key.length ∨ unshared > it.restartOffset - offset - 12
  · exact ⟨_, if_pos hlengths, .failed _⟩
  rw [if_neg hlengths, loadBytes_of_le (by omega), Option.bind_some]
  by_cases hvalue : valueSize > it.restartOffset - offset - 12 - unshared
  · exact ⟨_, if_pos hvalue, .failed _⟩
  by_cases hkey : parseInternalKey
      (it.key.take shared ++ (it.block.drop (offset + 12)).take unshared) = none
  · rw [if_neg hvalue, if_pos hkey]
    exact ⟨_, rfl, .failed _⟩
  · rw [if_neg hvalue, if_neg hkey]
    exact ⟨_, rfl, .entry _ _ _ (by omega) (by omega) hkey⟩

/-- The restart array is inside the block. -/
structure Framed (it : BlockIterator) : Prop where
  count_pos : 0 < it.restartCount
  length_eq : it.restartOffset + it.restartCount * 4 + 4 = it.block.length

theorem Framed.restartOffset_le (h : it.Framed) : it.restartOffset ≤ it.block.length := by
  have := h.length_eq
  omega

theorem Framed.exists_restartAt (h : it.Framed) {index : ℕ} (hi : index < it.restartCount) :
    ∃ offset, it.restartAt index = some offset := by
  rw [restartAt, if_pos hi]
  have := h.length_eq
  exact exists_load32 (by omega)

theorem Framed.exists_readRestartKey (h : it.Framed) {index : ℕ} (hi : index < it.restartCount) :
    (∃ message, it.readRestartKey index = some (it.fail message, none)) ∨
      ∃ key, it.readRestartKey index = some (it, some key) ∧ parseInternalKey key ≠ none := by
  have hle := h.restartOffset_le
  obtain ⟨offset, hoffset⟩ := h.exists_restartAt hi
  simp only [readRestartKey, hoffset, Option.bind_eq_bind, Option.bind_some]
  by_cases houtside : offset ≥ it.restartOffset
  · exact .inl ⟨_, if_pos houtside⟩
  by_cases hshort : it.restartOffset - offset < 12
  · rw [if_neg houtside, if_pos hshort]
    exact .inl ⟨_, rfl⟩
  obtain ⟨shared, unshared, valueSize, hshared, hunshared, hvalueSize⟩ :=
    exists_header (by omega : offset + 12 ≤ it.block.length)
  simp only [if_neg houtside, if_neg hshort, hshared, hunshared, hvalueSize, Option.bind_some]
  by_cases hlengths : shared ≠ 0 ∨ unshared > it.restartOffset - offset - 12
  · exact .inl ⟨_, if_pos hlengths⟩
  rw [if_neg hlengths, loadBytes_of_le (by omega), Option.bind_some]
  by_cases hvalue : valueSize > it.restartOffset - offset - 12 - unshared
  · exact .inl ⟨_, if_pos hvalue⟩
  by_cases hkey : parseInternalKey ((it.block.drop (offset + 12)).take unshared) = none
  · rw [if_neg hvalue, if_pos hkey]
    exact .inl ⟨_, rfl⟩
  · rw [if_neg hvalue, if_neg hkey]
    exact .inr ⟨_, rfl, hkey⟩

theorem exists_internalKeyLess {a b : Bytes} (ha : parseInternalKey a ≠ none)
    (hb : parseInternalKey b ≠ none) : ∃ less, internalKeyLess a b = some less := by
  obtain ⟨ka, hka⟩ := Option.ne_none_iff_exists'.mp ha
  obtain ⟨kb, hkb⟩ := Option.ne_none_iff_exists'.mp hb
  exact ⟨_, internalKeyLess_eq hka hkb⟩

variable {target : Bytes}

/-- The binary search reads restart keys inside the block, and ends. -/
theorem Framed.exists_searchRestarts (h : it.Framed)
    (ht : parseInternalKey target ≠ none) {fuel left right : ℕ} (hfuel : right - left ≤ fuel)
    (hleft : left ≤ right) (hright : right ≤ it.restartCount) :
    (∃ message, it.searchRestarts target fuel left right = some (it.fail message, none)) ∨
      ∃ result ≤ it.restartCount,
        it.searchRestarts target fuel left right = some (it, some result) := by
  induction fuel generalizing left right with
  | zero =>
    have : ¬left < right := by omega
    exact .inr ⟨left, by omega, by rw [searchRestarts, if_neg this]⟩
  | succ fuel ih =>
    unfold searchRestarts
    by_cases hlt : left < right
    · rw [if_pos hlt]
      have hmiddle : left + (right - left) / 2 < it.restartCount := by omega
      rcases h.exists_readRestartKey hmiddle with ⟨message, hfail⟩ | ⟨key, hkey, hparse⟩
      · exact .inl ⟨message, by simp [hfail]⟩
      · obtain ⟨less, hless⟩ := exists_internalKeyLess ht hparse
        simp only [hkey, hless, Option.bind_eq_bind, Option.bind_some]
        split_ifs
        · exact ih (by omega) (by omega) hright
        · exact ih (by omega) (by omega) (by omega)
    · rw [if_neg hlt]
      exact .inr ⟨left, by omega, rfl⟩

/-! ### Safety -/

/-- What holds of the iterator between calls. -/
structure Safe (it : BlockIterator) : Prop where
  restart_le : it.restartOffset ≤ it.block.length
  next_le : it.nextOffset ≤ it.restartOffset
  framed : it.status = none → it.Framed
  entry : it.valid = true → it.status = none ∧ parseInternalKey it.key ≠ none ∧
    it.valuePos + it.valueSize ≤ it.restartOffset

theorem Safe.fail (h : it.Safe) (message : String) : (it.fail message).Safe where
  restart_le := h.restart_le
  next_le := h.next_le
  framed hs := by simp [BlockIterator.fail, invalidate] at hs
  entry hv := by simp [BlockIterator.fail, invalidate] at hv

theorem Safe.invalidate (h : it.Safe) : it.invalidate.Safe where
  restart_le := h.restart_le
  next_le := h.next_le
  framed hs := ⟨(h.framed hs).1, (h.framed hs).2⟩
  entry hv := by simp [BlockIterator.invalidate] at hv

theorem Safe.new (block : Bytes) : ∃ it, new block = some it ∧ it.Safe := by
  have hfail (it : BlockIterator) (hle : it.restartOffset ≤ it.block.length)
      (hnext : it.nextOffset = 0) (message : String) : (it.fail message).Safe :=
    ⟨hle, by simp [BlockIterator.fail, BlockIterator.invalidate, hnext],
      fun hs => by simp [BlockIterator.fail, BlockIterator.invalidate] at hs,
      fun hv => by simp [BlockIterator.fail, BlockIterator.invalidate] at hv⟩
  unfold BlockIterator.new
  by_cases hlen : block.length < 4
  · exact ⟨_, if_pos hlen, hfail _ (Nat.zero_le _) rfl _⟩
  obtain ⟨count, hcount⟩ := exists_load32 (by omega : block.length - 4 + 4 ≤ block.length)
  simp only [if_neg hlen, hcount, Option.bind_eq_bind, Option.bind_some]
  by_cases hzero : count = 0
  · exact ⟨_, if_pos hzero, hfail _ (Nat.zero_le _) rfl _⟩
  by_cases hmany : count > (block.length - 4) / 4
  · rw [if_neg hzero, if_pos hmany]
    exact ⟨_, rfl, hfail _ (Nat.zero_le _) rfl _⟩
  have hframed : Framed ⟨block, block.length - 4 - count * 4, count, 0, [], 0, 0, false, none⟩ := by
    constructor
    · exact Nat.pos_of_ne_zero hzero
    · dsimp only
      omega
  obtain ⟨first, hfirst⟩ := hframed.exists_restartAt (Nat.pos_of_ne_zero hzero)
  rw [hfirst, Option.bind_some]
  split_ifs
  · exact ⟨_, rfl, hfail _ hframed.restartOffset_le rfl _⟩
  · exact ⟨_, rfl, hframed.restartOffset_le, Nat.zero_le _, fun _ => hframed,
      fun hv => by simp at hv⟩

/-- An entry that was decoded, or a failure. -/
theorem Safe.decoded (h : it.Safe) (hs : it.status = none) {offset : ℕ}
    {result : BlockIterator × Bool} (hd : it.Decoded offset result) : result.1.Safe := by
  cases hd with
  | failed message => exact h.fail message
  | entry key pos size hpos hend hkey =>
    exact ⟨h.restart_le, hend, fun _ => ⟨(h.framed hs).1, (h.framed hs).2⟩,
      fun _ => ⟨hs, hkey, hend⟩⟩

theorem Safe.seekToFirst (h : it.Safe) :
    ∃ it', it.seekToFirst = some it' ∧ it'.Safe ∧ (it.status ≠ none → it' = it) := by
  unfold BlockIterator.seekToFirst
  by_cases hs : it.status = none
  · rw [if_neg (not_not.mpr hs)]
    split_ifs with hempty
    · exact ⟨_, rfl, h.invalidate, fun hne => absurd hs hne⟩
    · obtain ⟨result, hresult, hd⟩ := exists_decodeEntry h.invalidate.restart_le 0
      exact ⟨result.1, by rw [hresult]; rfl, h.invalidate.decoded hs hd, fun hne => absurd hs hne⟩
  · exact ⟨it, if_pos hs, h, fun _ => rfl⟩

/-- A step ends the iteration, fails, or goes on behind the current entry. -/
theorem Safe.next (h : it.Safe) (hv : it.valid = true) :
    ∃ it', it.next = some it' ∧ it'.Safe ∧
      (it'.valid = true → it'.restartOffset = it.restartOffset ∧
        it.nextOffset < it'.nextOffset) := by
  have hs := (h.entry hv).1
  unfold BlockIterator.next
  rw [if_neg (by simp [hv])]
  split_ifs with hend
  · exact ⟨_, rfl, h.invalidate, fun hv' => by simp [BlockIterator.invalidate] at hv'⟩
  · obtain ⟨result, hresult, hd⟩ := exists_decodeEntry h.restart_le it.nextOffset
    refine ⟨result.1, by rw [hresult]; rfl, h.decoded hs hd, ?_⟩
    cases hd with
    | failed message =>
      intro hv'
      simp [BlockIterator.fail, BlockIterator.invalidate] at hv'
    | entry key pos size hpos hend' hkey =>
      intro _
      dsimp only [atEntry]
      omega

/-- The loop of `seek` moves towards the restart array, so it ends. -/
theorem Safe.advance (h : it.Safe) (ht : parseInternalKey target ≠ none)
    (fuel : ℕ) (hfuel : it.valid = true → it.restartOffset - it.nextOffset < fuel) :
    ∃ it', advance target fuel it = some it' ∧ it'.Safe := by
  induction fuel generalizing it with
  | zero =>
    have hv : ¬it.valid = true := fun hv => absurd (hfuel hv) (Nat.not_lt_zero _)
    exact ⟨it, by rw [BlockIterator.advance, if_neg hv], h⟩
  | succ fuel ih =>
    unfold BlockIterator.advance
    by_cases hv : it.valid = true
    · obtain ⟨less, hless⟩ := exists_internalKeyLess (h.entry hv).2.1 ht
      obtain ⟨it', hnext, hsafe, hmoved⟩ := h.next hv
      simp only [if_pos hv, hless, hnext, Option.bind_eq_bind, Option.bind_some]
      split_ifs
      · refine ih hsafe fun hv' => ?_
        obtain ⟨hsame, hlt⟩ := hmoved hv'
        have := hfuel hv
        have := hsafe.next_le
        omega
      · exact ⟨it, rfl, h⟩
    · exact ⟨it, if_neg hv, h⟩

theorem Safe.seek (h : it.Safe) (ht : parseInternalKey target ≠ none) :
    ∃ it', it.seek target = some it' ∧ it'.Safe ∧ (it.status ≠ none → it' = it) := by
  unfold BlockIterator.seek
  by_cases hs : it.status = none
  · rw [if_neg (not_not.mpr hs), if_neg ht]
    dsimp only
    split_ifs with hempty
    · exact ⟨_, rfl, h.invalidate, fun hne => absurd hs hne⟩
    · have hframed := h.invalidate.framed hs
      rcases hframed.exists_searchRestarts ht (Nat.sub_le _ 0) (Nat.zero_le _) le_rfl with
        ⟨message, hfail⟩ | ⟨left, hleft, hfound⟩
      · rw [hfail]
        exact ⟨_, rfl, h.invalidate.fail message, fun hne => absurd hs hne⟩
      · rw [hfound]
        have hpos := hframed.count_pos
        obtain ⟨offset, hoffset⟩ := hframed.exists_restartAt
          (by split_ifs <;> omega : (if left = 0 then 0 else left - 1) < _)
        have hclear : ({ it.invalidate with key := [] } : BlockIterator) = it.invalidate := rfl
        obtain ⟨result, hresult, hd⟩ := exists_decodeEntry h.invalidate.restart_le offset
        have hsafe := h.invalidate.decoded hs hd
        simp only [Option.bind_eq_bind, Option.bind_some, hoffset, hclear, hresult]
        cases hd with
        | failed message => exact ⟨_, rfl, hsafe, fun hne => absurd hs hne⟩
        | entry key pos size hpos' hend hkey =>
          obtain ⟨it', hadvance, hsafe'⟩ := hsafe.advance ht it.block.length (by
            have := h.restart_le
            dsimp only [atEntry]
            have : it.invalidate.restartOffset = it.restartOffset := rfl
            omega)
          exact ⟨it', hadvance, hsafe', fun hne => absurd hs hne⟩
  · exact ⟨it, if_pos hs, h, fun _ => rfl⟩

end BlockIterator

/-! ### Runs -/

inductive BlockCall
  | seekToFirst
  | seek (target : Bytes)
  | next
deriving DecidableEq, Repr

namespace BlockCall

/-- Targets are internal keys, and only a valid iterator is moved on. -/
def Allowed (it : BlockIterator) : BlockCall → Prop
  | seekToFirst => True
  | seek target => parseInternalKey target ≠ none
  | next => it.valid = true

def run (it : BlockIterator) : BlockCall → Option BlockIterator
  | seekToFirst => it.seekToFirst
  | seek target => it.seek target
  | next => it.next

end BlockCall

/-- The iterators that allowed calls lead to. -/
inductive BlockRun (block : Bytes) : BlockIterator → Prop
  | new {it : BlockIterator} (h : BlockIterator.new block = some it) : BlockRun block it
  | call {it it' : BlockIterator} {c : BlockCall} (h : BlockRun block it) (hc : c.Allowed it)
      (hrun : c.run it = some it') : BlockRun block it'

/-- One call: it stays inside the block, ends, and keeps a failed iterator as it is. -/
theorem BlockIterator.Safe.run {it : BlockIterator} (h : it.Safe) {c : BlockCall}
    (hc : c.Allowed it) :
    ∃ it', c.run it = some it' ∧ it'.Safe ∧ (it.status ≠ none → it' = it) := by
  cases c with
  | seekToFirst => exact h.seekToFirst
  | seek target => exact h.seek hc
  | next =>
    obtain ⟨it', hnext, hsafe, -⟩ := h.next hc
    exact ⟨it', hnext, hsafe, fun hne => absurd (h.entry hc).1 hne⟩

theorem BlockRun.safe {it : BlockIterator} (h : BlockRun block it) : it.Safe := by
  induction h with
  | new hnew =>
    obtain ⟨it, hit, hsafe⟩ := BlockIterator.Safe.new block
    rw [hnew] at hit
    exact Option.some_inj.mp hit ▸ hsafe
  | call h hc hrun ih =>
    obtain ⟨it', hit', hsafe, -⟩ := ih.run hc
    rw [hrun] at hit'
    exact Option.some_inj.mp hit' ▸ hsafe

/-- The iterator is safe on every byte string: its constructor and all allowed calls read inside
of the block and end; a valid iterator has a well-formed key and a value inside the entry area;
the next offset never passes the restart array; and an error is kept, with the iterator invalid. -/
theorem block_iterator_safe (block : Bytes) :
    (∃ it, BlockIterator.new block = some it) ∧
    ∀ it, BlockRun block it →
      it.nextOffset ≤ it.restartOffset ∧ it.restartOffset ≤ it.block.length ∧
      (it.valid = true → (∃ k, parseInternalKey it.key = some k) ∧
        it.valuePos + it.valueSize ≤ it.restartOffset) ∧
      (it.status ≠ none → it.valid = false) ∧
      ∀ c : BlockCall, c.Allowed it →
        ∃ it', c.run it = some it' ∧
          (it.status ≠ none → it'.status = it.status ∧ it'.valid = false) := by
  constructor
  · obtain ⟨it, hit, -⟩ := BlockIterator.Safe.new block
    exact ⟨it, hit⟩
  · intro it hrun
    have hsafe := hrun.safe
    have hinvalid : it.status ≠ none → it.valid = false := by
      intro hne
      by_contra hv
      exact hne (hsafe.entry (Bool.eq_true_of_not_eq_false hv)).1
    refine ⟨hsafe.next_le, hsafe.restart_le, ?_, hinvalid, ?_⟩
    · intro hv
      obtain ⟨-, hkey, hvalue⟩ := hsafe.entry hv
      exact ⟨Option.ne_none_iff_exists'.mp hkey, hvalue⟩
    · intro c hc
      obtain ⟨it', hit', -, hkeep⟩ := hsafe.run hc
      refine ⟨it', hit', fun hne => ?_⟩
      rw [hkeep hne]
      exact ⟨rfl, hinvalid hne⟩

end Mizu.Lsm
