import Mizu.Lsm.Coding

/-!
# Write batches and the write-ahead log

A batch is encoded with the sequence number of its first operation and becomes
the payload of one log record: length, checksum, payload. The reader stops at the
first record that is not complete; everything before it is valid.
-/

namespace Mizu.Lsm

inductive Operation
  | put (key value : Bytes)
  | erase (key : Bytes)
deriving DecidableEq, Repr

abbrev WriteBatch := List Operation

namespace Operation

def key : Operation → Bytes
  | put k _ => k
  | erase k => k

/-- The entry `applyBatch` adds for the operation. -/
def entry (sequence : ℕ) : Operation → Entry
  | put k v => ⟨⟨k, sequence, .value⟩, v⟩
  | erase k => ⟨⟨k, sequence, .deletion⟩, []⟩

/-- The value the operation leaves under its key. -/
def result : Operation → Option Bytes
  | put _ v => some v
  | erase _ => none

end Operation

/-- `kMaxWalRecordPayloadSize`, which is also `kMaxWriteBatchPayloadSize`. -/
def maxPayloadSize : ℕ := 64 * 1024 * 1024

/-- `numeric_limits<uint32_t>::max()` of the codec's length fields. -/
def maxLength : ℕ := 2 ^ 32 - 1

/-! ## `WriteBatchCodec` -/

def hasValidSequenceRange (firstSequence count : ℕ) : Prop :=
  ¬ (firstSequence = 0 ∨ firstSequence > maxSequenceNumber ∨ count = 0 ∨ count > maxLength) ∧
    count - 1 ≤ maxSequenceNumber - firstSequence

instance (f c : ℕ) : Decidable (hasValidSequenceRange f c) := by
  unfold hasValidSequenceRange
  infer_instance

def addEncodedSize (amount total : ℕ) : Except Status ℕ :=
  if amount > maxPayloadSize - total then
    .error (.invalidArgument "write batch payload exceeds 64 MiB")
  else .ok (total + amount)

/-- The checks of one operation, before anything is encoded. -/
def checkOperation (total : ℕ) (op : Operation) : Except Status ℕ := do
  if op.key.length > maxLength then throw (.invalidArgument "write batch key is too large")
  let total ← addEncodedSize 5 total
  let total ← addEncodedSize op.key.length total
  match op with
  | .put _ v =>
    if v.length > maxLength then throw (.invalidArgument "write batch value is too large")
    let total ← addEncodedSize 4 total
    addEncodedSize v.length total
  | .erase _ => pure total

def encodeOperation : Operation → Bytes
  | .put k v => 1 :: (putFixed32 k.length ++ k ++ (putFixed32 v.length ++ v))
  | .erase k => 2 :: (putFixed32 k.length ++ k)

/-- The payload of a batch. -/
def encodeBatch (batch : WriteBatch) (firstSequence : ℕ) : Bytes :=
  putFixed64 firstSequence ++ (putFixed32 batch.length ++ batch.flatMap encodeOperation)

/-- `WriteBatchCodec::encode` -/
def encode (batch : WriteBatch) (firstSequence : ℕ) : Except Status Bytes :=
  if batch.length = 0 then .error (.invalidArgument "cannot encode an empty write batch")
  else if ¬ hasValidSequenceRange firstSequence batch.length then
    .error (.invalidArgument "invalid write batch sequence range")
  else do
    let _ ← batch.foldlM checkOperation 12
    pure (encodeBatch batch firstSequence)

def decodeOperation : Bytes → Except Status (Operation × Bytes)
  | [] => .error (.corruption "missing write batch operation type")
  | type :: cursor =>
    if type ≠ 1 ∧ type ≠ 2 then .error (.corruption "unknown write batch operation type")
    else
      match getFixed32 cursor with
      | none => .error (.corruption "truncated write batch key length")
      | some (keyLength, cursor) =>
        if cursor.length < keyLength then .error (.corruption "truncated write batch key")
        else
          let key := cursor.take keyLength
          let cursor := cursor.drop keyLength
          if type = 1 then
            match getFixed32 cursor with
            | none => .error (.corruption "truncated write batch value length")
            | some (valueLength, cursor) =>
              if cursor.length < valueLength then
                .error (.corruption "truncated write batch value")
              else .ok (.put key (cursor.take valueLength), cursor.drop valueLength)
          else .ok (.erase key, cursor)

def decodeOperations : ℕ → Bytes → Except Status (WriteBatch × Bytes)
  | 0, cursor => .ok ([], cursor)
  | n + 1, cursor => do
    let (op, cursor) ← decodeOperation cursor
    let (ops, cursor) ← decodeOperations n cursor
    pure (op :: ops, cursor)

/-- `WriteBatchCodec::decode` -/
def decode (input : Bytes) : Except Status (ℕ × WriteBatch) :=
  if input.length < 12 then
    .error (.corruption "write batch payload is shorter than its header")
  else if input.length > maxPayloadSize then
    .error (.corruption "write batch payload exceeds 64 MiB")
  else
    match getFixed64 input with
    | none => .error (.corruption "invalid write batch header")
    | some (firstSequence, cursor) =>
      match getFixed32 cursor with
      | none => .error (.corruption "invalid write batch header")
      | some (count, cursor) =>
        if ¬ hasValidSequenceRange firstSequence count then
          .error (.corruption "invalid write batch sequence range")
        else if count > cursor.length / 5 then
          .error (.corruption "write batch operation count exceeds payload")
        else do
          let (batch, cursor) ← decodeOperations count cursor
          if cursor ≠ [] then
            throw (.corruption "write batch payload has trailing bytes")
          pure (firstSequence, batch)

section Codec

variable {batch : WriteBatch} {firstSequence total total' : ℕ} {op : Operation} {bytes : Bytes}

theorem addEncodedSize_ok {amount : ℕ} (h : addEncodedSize amount total = .ok total')
    (ht : total ≤ maxPayloadSize) : total' = total + amount ∧ total' ≤ maxPayloadSize := by
  unfold addEncodedSize at h
  split at h
  · simp at h
  · rw [← Except.ok.inj h]
    omega

/-- What passes the checks fits the length fields and the payload limit. -/
theorem checkOperation_ok (h : checkOperation total op = .ok total') (ht : total ≤ maxPayloadSize) :
    total' = total + (encodeOperation op).length ∧ total' ≤ maxPayloadSize := by
  unfold checkOperation at h
  simp only [bind, Except.bind, throw, throwThe, MonadExceptOf.throw, pure, Except.pure] at h
  split at h
  · simp at h
  split at h
  · simp at h
  rename_i t₁ h₁
  split at h
  · simp at h
  rename_i t₂ h₂
  obtain ⟨rfl, ht₁⟩ := addEncodedSize_ok h₁ ht
  obtain ⟨rfl, ht₂⟩ := addEncodedSize_ok h₂ ht₁
  cases op with
  | put k v =>
    simp only at h
    split at h
    · simp at h
    split at h
    · simp at h
    rename_i t₃ h₃
    obtain ⟨rfl, ht₃⟩ := addEncodedSize_ok h₃ ht₂
    obtain ⟨rfl, ht₄⟩ := addEncodedSize_ok h ht₃
    refine ⟨?_, ht₄⟩
    simp [encodeOperation, Operation.key]
    omega
  | erase k =>
    cases h
    refine ⟨?_, ht₂⟩
    simp [encodeOperation, Operation.key]
    omega

theorem foldlM_checkOperation_ok (h : batch.foldlM checkOperation total = .ok total')
    (ht : total ≤ maxPayloadSize) :
    total' = total + (batch.flatMap encodeOperation).length ∧ total' ≤ maxPayloadSize := by
  induction batch generalizing total with
  | nil => exact ⟨by simpa using (Except.ok.inj h).symm, Except.ok.inj h ▸ ht⟩
  | cons op ops ih =>
    rw [List.foldlM_cons] at h
    cases hop : checkOperation total op with
    | error e =>
      rw [hop] at h
      simp [bind, Except.bind] at h
    | ok t =>
      rw [hop] at h
      obtain ⟨rfl, ht'⟩ := checkOperation_ok hop ht
      obtain ⟨rfl, hle⟩ := ih h ht'
      simp only [List.flatMap_cons, List.length_append]
      omega

/-- What `encode` accepts. -/
theorem encode_ok (h : encode batch firstSequence = .ok bytes) :
    bytes = encodeBatch batch firstSequence ∧ batch ≠ [] ∧
      hasValidSequenceRange firstSequence batch.length ∧ bytes.length ≤ maxPayloadSize := by
  unfold encode at h
  split at h
  · simp at h
  rename_i hne
  split at h
  · simp at h
  rename_i hrange
  rw [not_not] at hrange
  cases hcheck : batch.foldlM checkOperation 12 with
  | error e =>
    rw [hcheck] at h
    simp [bind, Except.bind] at h
  | ok t =>
    rw [hcheck] at h
    cases h
    obtain ⟨ht, hle⟩ := foldlM_checkOperation_ok hcheck (by decide)
    refine ⟨rfl, by simpa [← List.length_eq_zero_iff] using hne, hrange, ?_⟩
    simp only [encodeBatch, List.length_append, length_putFixed64, length_putFixed32]
    omega

theorem decodeOperation_encode (hsize : (encodeOperation op).length ≤ maxPayloadSize)
    (rest : Bytes) : decodeOperation (encodeOperation op ++ rest) = .ok (op, rest) := by
  have hmax : maxPayloadSize < 2 ^ 32 := by decide
  cases op with
  | put k v =>
    simp only [encodeOperation, List.length_cons, List.length_append, length_putFixed32] at hsize
    have hk := getFixed32_put (v := k.length) (by omega) (k ++ (putFixed32 v.length ++ v) ++ rest)
    have hv := getFixed32_put (v := v.length) (by omega) (v ++ rest)
    simp only [List.append_assoc] at hk
    simp [decodeOperation, encodeOperation, hk, hv]
  | erase k =>
    simp only [encodeOperation, List.length_cons, List.length_append, length_putFixed32] at hsize
    have hk := getFixed32_put (v := k.length) (by omega) (k ++ rest)
    simp [decodeOperation, encodeOperation, hk]

theorem decodeOperations_encode
    (hsize : (batch.flatMap encodeOperation).length ≤ maxPayloadSize) (rest : Bytes) :
    decodeOperations batch.length (batch.flatMap encodeOperation ++ rest) = .ok (batch, rest) := by
  induction batch with
  | nil => rfl
  | cons op ops ih =>
    simp only [List.flatMap_cons, List.length_append] at hsize
    rw [List.length_cons, decodeOperations, List.flatMap_cons, List.append_assoc,
      decodeOperation_encode (by omega)]
    simp only [bind, Except.bind]
    rw [ih (by omega)]
    rfl

theorem five_le_encodeOperation (op : Operation) : 5 ≤ (encodeOperation op).length := by
  cases op <;> simp [encodeOperation]

theorem count_le_encoded (batch : WriteBatch) :
    5 * batch.length ≤ (batch.flatMap encodeOperation).length := by
  induction batch with
  | nil => simp
  | cons op ops ih =>
    have := five_le_encodeOperation op
    simp only [List.length_cons, List.flatMap_cons, List.length_append]
    omega

/-- A payload that `encode` produced decodes to its batch. -/
theorem decode_encode (h : encode batch firstSequence = .ok bytes) :
    decode bytes = .ok (firstSequence, batch) := by
  obtain ⟨rfl, hne, hrange, hsize⟩ := encode_ok h
  have hcount := count_le_encoded batch
  have hlen : (encodeBatch batch firstSequence).length =
      12 + (batch.flatMap encodeOperation).length := by
    simp [encodeBatch]
    omega
  have hbound : batch.length ≤ maxLength ∧ firstSequence ≤ maxSequenceNumber := by
    have := hrange.1
    omega
  have h64 := getFixed64_put (v := firstSequence)
    (by have := hbound.2; unfold maxSequenceNumber at this; omega)
    (putFixed32 batch.length ++ batch.flatMap encodeOperation)
  have h32 := getFixed32_put (v := batch.length)
    (by have := hbound.1; unfold maxLength at this; omega) (batch.flatMap encodeOperation)
  have hops : decodeOperations batch.length (batch.flatMap encodeOperation ++ []) =
      .ok (batch, []) := decodeOperations_encode (by omega) []
  rw [List.append_nil] at hops
  have hdiv : ¬ batch.length > (batch.flatMap encodeOperation).length / 5 := by omega
  unfold decode
  rw [if_neg (by omega), if_neg (by omega), encodeBatch, h64]
  simp only [h32, hrange, not_true, if_false, hdiv, hops, bind, Except.bind]
  rfl

end Codec

/-! ## Log records -/

/-- `WalWriter::append`: length and checksum, then the payload. -/
def walRecord (payload : Bytes) : Bytes :=
  putFixed32 payload.length ++ (putFixed32 (crc32c payload) ++ payload)

@[simp] theorem length_walRecord (payload : Bytes) :
    (walRecord payload).length = payload.length + 8 := by
  simp [walRecord]
  omega

def corruptionAt (message : String) (validBytes : ℕ) : Status :=
  .corruption (message ++ " at offset " ++ toString validBytes)

/-- `WalReader::readNext` on the unread part of the file; `none` is `kEnd`. -/
def readNext (validBytes : ℕ) (input : Bytes) : Except Status (Option (Bytes × Bytes)) :=
  if input.length < 8 then .ok none
  else
    let payloadLength := LittleEndian.decode (input.take 4)
    let expectedChecksum := LittleEndian.decode ((input.drop 4).take 4)
    let body := input.drop 8
    if payloadLength = 0 then .error (corruptionAt "empty WAL record payload" validBytes)
    else if payloadLength > maxPayloadSize then
      .error (corruptionAt "WAL record payload exceeds 64 MiB" validBytes)
    else if body.length < payloadLength then .ok none
    else if crc32c (body.take payloadLength) ≠ expectedChecksum then
      .error (corruptionAt "WAL record checksum mismatch" validBytes)
    else .ok (some (body.take payloadLength, body.drop payloadLength))

/-- A payload the log accepts. -/
def ValidPayload (payload : Bytes) : Prop := payload ≠ [] ∧ payload.length ≤ maxPayloadSize

/-- What an append that did not complete leaves behind; nothing, at least. -/
def Torn (tail : Bytes) : Prop :=
  ∃ payload n, ValidPayload payload ∧ n < (walRecord payload).length ∧
    tail = (walRecord payload).take n

section Records

variable {payload rest tail : Bytes} {n : ℕ}

/-- A complete record is accepted or refused by its checksum. -/
theorem readNext_of_header {checksum : ℕ} (h : ValidPayload payload)
    (hchecksum : checksum < 2 ^ 32) :
    readNext n (putFixed32 payload.length ++ (putFixed32 checksum ++ (payload ++ rest))) =
      if crc32c payload ≠ checksum then
        .error (corruptionAt "WAL record checksum mismatch" n)
      else .ok (some (payload, rest)) := by
  have hmax : maxPayloadSize < 2 ^ 32 := by decide
  have hpos : payload.length ≠ 0 := by
    rw [Ne, List.length_eq_zero_iff]
    exact h.1
  have hlen : LittleEndian.decode (putFixed32 payload.length) = payload.length :=
    LittleEndian.decode_encode (by have := h.2; omega)
  have hcrc : LittleEndian.decode (putFixed32 checksum) = checksum :=
    LittleEndian.decode_encode (by simpa using hchecksum)
  have hbody : (putFixed32 payload.length ++ (putFixed32 checksum ++ (payload ++ rest))).drop 8 =
      payload ++ rest := by
    rw [← List.append_assoc]
    exact List.drop_left' (by simp)
  unfold readNext
  rw [if_neg (by simp; omega), List.take_left' (by simp), List.drop_left' (by simp),
    List.take_left' (by simp), hbody, hlen, hcrc]
  simp [hpos, h.2]

theorem readNext_record (h : ValidPayload payload) :
    readNext n (walRecord payload ++ rest) = .ok (some (payload, rest)) := by
  rw [walRecord, List.append_assoc, List.append_assoc,
    readNext_of_header h (crc32c_lt payload), if_neg (not_not_intro rfl)]

/-- A torn record reads as the end of the log. -/
theorem readNext_torn (h : Torn tail) : readNext n tail = .ok none := by
  obtain ⟨payload, k, hp, hk, rfl⟩ := h
  have hmax : maxPayloadSize < 2 ^ 32 := by decide
  rw [length_walRecord] at hk
  unfold readNext
  by_cases h8 : k < 8
  · rw [if_pos (by simp; omega)]
  · have hpos : payload.length ≠ 0 := by
      rw [Ne, List.length_eq_zero_iff]
      exact hp.1
    have hlen : LittleEndian.decode (putFixed32 payload.length) = payload.length :=
      LittleEndian.decode_encode (by have := hp.2; omega)
    have h4 : ((walRecord payload).take k).take 4 = putFixed32 payload.length := by
      rw [List.take_take, Nat.min_eq_left (by omega), walRecord]
      exact List.take_left' (by simp)
    have hshort : (((walRecord payload).take k).drop 8).length < payload.length := by
      simp
      omega
    have hsize := hp.2
    rw [if_neg (by simp; omega), h4, hlen, if_neg hpos, if_neg (by omega), if_pos hshort]

theorem torn_nil : Torn [] := ⟨[0], 0, ⟨by simp, by decide⟩, by simp, by simp⟩

theorem ValidPayload.of_encode {batch : WriteBatch} {s : ℕ} (h : encode batch s = .ok payload) :
    ValidPayload payload := by
  obtain ⟨rfl, _, _, hsize⟩ := encode_ok h
  refine ⟨?_, hsize⟩
  intro hnil
  have := congrArg List.length hnil
  simp [encodeBatch] at this

end Records

/-- The records of batches written one after the other from `sequence` on. -/
def walBytes : ℕ → List WriteBatch → Bytes
  | _, [] => []
  | sequence, b :: bs => walRecord (encodeBatch b sequence) ++ walBytes (sequence + b.length) bs

/-- How many operations the batches hold. -/
def operationCount (bs : List WriteBatch) : ℕ := bs.flatten.length

@[simp] theorem operationCount_nil : operationCount [] = 0 := rfl

@[simp] theorem operationCount_cons (b : WriteBatch) (bs : List WriteBatch) :
    operationCount (b :: bs) = b.length + operationCount bs := by
  simp [operationCount]

@[simp] theorem operationCount_append (bs cs : List WriteBatch) :
    operationCount (bs ++ cs) = operationCount bs + operationCount cs := by
  simp [operationCount]

theorem walBytes_append (sequence : ℕ) (bs cs : List WriteBatch) :
    walBytes sequence (bs ++ cs) =
      walBytes sequence bs ++ walBytes (sequence + operationCount bs) cs := by
  induction bs generalizing sequence with
  | nil => simp [walBytes]
  | cons b bs ih =>
    rw [List.cons_append, walBytes, walBytes, ih, operationCount_cons]
    simp [Nat.add_assoc]

/-- Every batch was accepted at its sequence number. -/
def Encodable : ℕ → List WriteBatch → Prop
  | _, [] => True
  | sequence, b :: bs =>
    encode b sequence = .ok (encodeBatch b sequence) ∧ Encodable (sequence + b.length) bs

theorem encodable_append {sequence : ℕ} {bs cs : List WriteBatch} :
    Encodable sequence (bs ++ cs) ↔
      Encodable sequence bs ∧ Encodable (sequence + operationCount bs) cs := by
  induction bs generalizing sequence with
  | nil => simp [Encodable]
  | cons b bs ih =>
    rw [List.cons_append, Encodable, Encodable, ih, operationCount_cons]
    simp [Nat.add_assoc, and_assoc]

end Mizu.Lsm
