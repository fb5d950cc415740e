import Mizu.Lsm.Wal

/-!
# The write batch codec accepts exactly what it writes

`WriteBatchCodec` of `db/write_batch_codec.cc`. Decoding a payload and encoding the batch again
gives the payload back, and the checks of the encoder fail for the reasons that they name only.
-/

namespace Mizu.Lsm

variable {batch ops : WriteBatch} {op : Operation} {input rest bytes : Bytes}
variable {firstSequence count v total : ℕ}

/-! ### Decoded bytes -/

theorem getFixed32_eq_some (h : getFixed32 input = some (v, rest)) :
    input = putFixed32 v ++ rest := by
  unfold getFixed32 at h
  split_ifs at h with hlen
  cases h
  have hfour : (input.take 4).length = 4 := by simp; omega
  have := LittleEndian.encode_decode (input.take 4)
  rw [hfour] at this
  rw [putFixed32, this, List.take_append_drop]

theorem getFixed64_eq_some (h : getFixed64 input = some (v, rest)) :
    input = putFixed64 v ++ rest := by
  unfold getFixed64 at h
  split_ifs at h with hlen
  cases h
  have height : (input.take 8).length = 8 := by simp; omega
  have := LittleEndian.encode_decode (input.take 8)
  rw [height] at this
  rw [putFixed64, this, List.take_append_drop]

/-- An operation is read from its own encoding. -/
theorem decodeOperation_ok (h : decodeOperation input = .ok (op, rest)) :
    input = encodeOperation op ++ rest := by
  cases input with
  | nil => simp [decodeOperation] at h
  | cons type cursor =>
    simp only [decodeOperation] at h
    by_cases htype : type ≠ 1 ∧ type ≠ 2
    · rw [if_pos htype] at h
      simp at h
    rw [if_neg htype] at h
    cases hkey : getFixed32 cursor with
    | none => simp [hkey] at h
    | some lengthAndRest =>
      obtain ⟨keyLength, afterLength⟩ := lengthAndRest
      rw [hkey] at h
      dsimp only at h
      by_cases hshort : afterLength.length < keyLength
      · simp [hshort] at h
      have hk : (afterLength.take keyLength).length = keyLength := by simp; omega
      rw [if_neg hshort] at h
      by_cases hput : type = 1
      · rw [if_pos hput] at h
        cases hvalue : getFixed32 (afterLength.drop keyLength) with
        | none => simp [hvalue] at h
        | some valueAndRest =>
          obtain ⟨valueLength, afterValue⟩ := valueAndRest
          rw [hvalue] at h
          dsimp only at h
          split_ifs at h with hshortValue
          cases h
          have hv : (afterValue.take valueLength).length = valueLength := by simp; omega
          rw [encodeOperation, hk, hv, hput, getFixed32_eq_some hkey]
          conv_lhs => rw [← List.take_append_drop keyLength afterLength, getFixed32_eq_some hvalue,
            ← List.take_append_drop valueLength afterValue]
          simp
      · rw [if_neg hput] at h
        cases h
        obtain rfl : type = 2 := by
          by_contra htwo
          exact htype ⟨hput, htwo⟩
        rw [encodeOperation, hk, getFixed32_eq_some hkey]
        simp

theorem decodeOperations_ok (h : decodeOperations count input = .ok (ops, rest)) :
    input = ops.flatMap encodeOperation ++ rest ∧ ops.length = count := by
  induction count generalizing input ops with
  | zero =>
    cases h
    simp
  | succ count ih =>
    rw [decodeOperations] at h
    cases hop : decodeOperation input with
    | error e => simp [hop, bind, Except.bind] at h
    | ok opAndRest =>
      obtain ⟨op, cursor⟩ := opAndRest
      cases hops : decodeOperations count cursor with
      | error e => simp [hop, hops, bind, Except.bind] at h
      | ok opsAndRest =>
        simp only [hop, hops, bind, Except.bind, pure, Except.pure, Except.ok.injEq,
          Prod.mk.injEq] at h
        obtain ⟨rfl, rfl⟩ := h
        obtain ⟨hcursor, hlen⟩ := ih hops
        rw [decodeOperation_ok hop, hcursor]
        simp [hlen]

/-- What `decode` accepts. -/
theorem decode_ok (h : decode bytes = .ok (firstSequence, batch)) :
    bytes = encodeBatch batch firstSequence ∧ bytes.length ≤ maxPayloadSize ∧
      hasValidSequenceRange firstSequence batch.length := by
  unfold decode at h
  split_ifs at h with hshort hlong
  cases h64 : getFixed64 bytes with
  | none => simp [h64] at h
  | some first =>
    obtain ⟨s, cursor⟩ := first
    rw [h64] at h
    dsimp only at h
    cases h32 : getFixed32 cursor with
    | none => simp [h32] at h
    | some second =>
      obtain ⟨count, cursor'⟩ := second
      rw [h32] at h
      dsimp only at h
      split_ifs at h with hrange hcount
      cases hops : decodeOperations count cursor' with
      | error e => simp [hops, bind, Except.bind] at h
      | ok opsAndRest =>
        obtain ⟨ops, cursor''⟩ := opsAndRest
        rw [hops] at h
        simp only [bind, Except.bind] at h
        by_cases htrailing : cursor'' = []
        · simp only [htrailing, ne_eq, not_true, if_false, pure, Except.pure, Except.ok.injEq,
            Prod.mk.injEq] at h
          obtain ⟨rfl, rfl⟩ := h
          obtain ⟨hbytes, hlen⟩ := decodeOperations_ok hops
          refine ⟨?_, by omega, hlen ▸ hrange⟩
          rw [getFixed64_eq_some h64, getFixed32_eq_some h32, hbytes, htrailing, encodeBatch, hlen]
          simp
        · simp [htrailing, throw, throwThe, MonadExceptOf.throw] at h

/-! ### The checks of the encoder -/

/-- The lengths of an operation fit their fields. -/
def Operation.Fits : Operation → Prop
  | put key value => key.length ≤ maxLength ∧ value.length ≤ maxLength
  | erase key => key.length ≤ maxLength

theorem addEncodedSize_of_le {amount : ℕ} (h : total + amount ≤ maxPayloadSize) :
    addEncodedSize amount total = .ok (total + amount) := by
  rw [addEncodedSize, if_neg (by omega)]

theorem Operation.fits_of_length (h : (encodeOperation op).length ≤ maxPayloadSize) : op.Fits := by
  have hmax : maxPayloadSize ≤ maxLength := by decide
  cases op with
  | put key value =>
    simp only [encodeOperation, List.length_cons, List.length_append, length_putFixed32] at h
    constructor <;> omega
  | erase key =>
    simp only [encodeOperation, List.length_cons, List.length_append, length_putFixed32] at h
    exact le_trans (by omega) hmax

theorem checkOperation_of_le (h : total + (encodeOperation op).length ≤ maxPayloadSize) :
    checkOperation total op = .ok (total + (encodeOperation op).length) := by
  have hfits : op.Fits := Operation.fits_of_length (by omega)
  cases op with
  | put key value =>
    simp only [encodeOperation, List.length_cons, List.length_append, length_putFixed32] at h ⊢
    simp only [checkOperation, Operation.key, if_neg (not_lt.mpr hfits.1),
      if_neg (not_lt.mpr hfits.2), bind, Except.bind]
    rw [addEncodedSize_of_le (by omega)]
    dsimp only
    rw [addEncodedSize_of_le (by omega)]
    dsimp only
    rw [addEncodedSize_of_le (by omega)]
    dsimp only
    rw [addEncodedSize_of_le (by omega)]
    congr 1
    omega
  | erase key =>
    simp only [encodeOperation, List.length_cons, List.length_append, length_putFixed32] at h ⊢
    have hkey : ¬(Operation.erase key).key.length > maxLength := not_lt.mpr hfits
    have heq : (Operation.erase key).key = key := rfl
    simp only [checkOperation, bind, Except.bind, pure, Except.pure]
    rw [if_neg hkey, addEncodedSize_of_le (by omega)]
    dsimp only
    rw [heq, addEncodedSize_of_le (by omega)]
    dsimp only
    congr 1
    omega

theorem foldlM_checkOperation_of_le
    (h : total + (batch.flatMap encodeOperation).length ≤ maxPayloadSize) :
    batch.foldlM checkOperation total = .ok (total + (batch.flatMap encodeOperation).length) := by
  induction batch generalizing total with
  | nil => rfl
  | cons op batch ih =>
    simp only [List.flatMap_cons, List.length_append] at h ⊢
    rw [List.foldlM_cons, checkOperation_of_le (by omega)]
    simp only [bind, Except.bind]
    rw [ih (by omega), Nat.add_assoc]

theorem length_encodeBatch (batch : WriteBatch) (firstSequence : ℕ) :
    (encodeBatch batch firstSequence).length = 12 + (batch.flatMap encodeOperation).length := by
  simp [encodeBatch]
  omega

theorem length_encodeOperation_le (h : op ∈ batch) :
    (encodeOperation op).length ≤ (batch.flatMap encodeOperation).length :=
  (List.sublist_flatten_of_mem (List.mem_map_of_mem h)).length_le

/-- The checks pass exactly for the batches that fit the format. -/
theorem encode_eq_ok_iff :
    encode batch firstSequence = .ok bytes ↔ bytes = encodeBatch batch firstSequence ∧
      batch ≠ [] ∧ hasValidSequenceRange firstSequence batch.length ∧
      bytes.length ≤ maxPayloadSize := by
  constructor
  · exact encode_ok
  · rintro ⟨rfl, hne, hrange, hsize⟩
    rw [length_encodeBatch] at hsize
    have hlen : ¬batch.length = 0 := by rwa [List.length_eq_zero_iff]
    rw [encode, if_neg hlen, if_neg (not_not.mpr hrange), foldlM_checkOperation_of_le hsize]
    rfl

theorem encode_of_decode (h : decode bytes = .ok (firstSequence, batch)) :
    encode batch firstSequence = .ok bytes := by
  obtain ⟨hbytes, hsize, hrange⟩ := decode_ok h
  refine encode_eq_ok_iff.mpr ⟨hbytes, ?_, hrange, hsize⟩
  rintro rfl
  exact hrange.1 (by simp)

theorem hasValidSequenceRange_iff (hcount : count ≠ 0) :
    hasValidSequenceRange firstSequence count ↔
      1 ≤ firstSequence ∧ firstSequence + (count - 1) ≤ maxSequenceNumber ∧ count ≤ maxLength := by
  unfold hasValidSequenceRange
  omega

/-! ### Calls with their outputs -/

/-- The status of `encode` and the string it was given; it is assigned at the end only. -/
def encodeInto (batch : WriteBatch) (firstSequence : ℕ) (output : Bytes) :
    Option Status × Bytes :=
  match encode batch firstSequence with
  | .error e => (some e, output)
  | .ok encoded => (none, encoded)

/-- The status of `decode` and the sequence and batch it was given. -/
def decodeInto (input : Bytes) (firstSequence : ℕ) (batch : WriteBatch) :
    Option Status × ℕ × WriteBatch :=
  match decode input with
  | .error e => (some e, firstSequence, batch)
  | .ok (decodedSequence, decodedBatch) => (none, decodedSequence, decodedBatch)

/-- The codec is a bijection between the batches it encodes, with their sequence, and the byte
strings it decodes; it refuses a batch only for its size, its sequence range or being empty; and
a call that fails leaves its outputs as they were. -/
theorem write_batch_codec :
    (∀ batch s bytes, encode batch s = .ok bytes → decode bytes = .ok (s, batch)) ∧
    (∀ bytes s batch, decode bytes = .ok (s, batch) → encode batch s = .ok bytes) ∧
    (∀ batch s, (∃ e, encode batch s = .error e) ↔
      batch = [] ∨ ¬(1 ≤ s ∧ s + (batch.length - 1) ≤ maxSequenceNumber) ∨
        (encodeBatch batch s).length > maxPayloadSize ∨
        batch.length > maxLength ∨ ∃ op ∈ batch, ¬op.Fits) ∧
    (∀ batch s output e, (encodeInto batch s output).1 = some e →
      (encodeInto batch s output).2 = output) ∧
    ∀ input s batch e, (decodeInto input s batch).1 = some e →
      (decodeInto input s batch).2 = (s, batch) := by
  refine ⟨fun _ _ _ => decode_encode, fun _ _ _ => encode_of_decode, ?_, ?_, ?_⟩
  · intro batch s
    have hfail : (∃ e, encode batch s = .error e) ↔ ∀ bytes, encode batch s ≠ .ok bytes := by
      cases encode batch s <;> simp
    rw [hfail]
    constructor
    · intro hnot
      by_contra hno
      rw [not_or, not_or, not_or, not_or, not_not, not_lt, not_lt] at hno
      obtain ⟨hne, hseq, hsize, hcount, -⟩ := hno
      refine hnot _ (encode_eq_ok_iff.mpr ⟨rfl, hne, ?_, hsize⟩)
      rw [hasValidSequenceRange_iff (by rwa [Ne, List.length_eq_zero_iff])]
      exact ⟨hseq.1, hseq.2, hcount⟩
    · intro hbad bytes hok
      obtain ⟨rfl, hne, hrange, hsize⟩ := encode_eq_ok_iff.mp hok
      rw [hasValidSequenceRange_iff (by rwa [Ne, List.length_eq_zero_iff])] at hrange
      rcases hbad with hnil | hseq | hlong | hcount | ⟨op, hop, hfits⟩
      · exact hne hnil
      · exact hseq ⟨hrange.1, hrange.2.1⟩
      · omega
      · omega
      · apply hfits
        apply Operation.fits_of_length
        have := length_encodeOperation_le hop
        rw [length_encodeBatch] at hsize
        omega
  · intro batch s output e h
    unfold encodeInto at h ⊢
    cases henc : encode batch s with
    | error e' => rfl
    | ok encoded => simp [henc] at h
  · intro input s batch e h
    unfold decodeInto at h ⊢
    cases hdec : decode input with
    | error e' => rfl
    | ok decoded => simp [hdec] at h

end Mizu.Lsm
