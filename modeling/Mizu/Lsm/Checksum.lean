import Mizu.Library.BitArray
import Mizu.Library.ShiftRegister
import Mizu.Lsm.ManifestCodec
import Mizu.Lsm.TableReader

/-!
# What the checksum detects

`crc32c` is a shift register that consumes the bits of a byte from the least significant one on.
Its polynomial feeds back at the top, so that every burst of at most 32 bits changes the checksum.
-/

namespace Mizu.Lsm

open ShiftRegister

/-- The bits of a byte, least significant first. -/
def byteBits (b : UInt8) : List Bool := (List.range 8).map fun i => b.toBitVec.getLsbD i

/-- The bits of a byte string in the order in which `crc32c` consumes them. -/
def bits (x : Bytes) : List Bool := x.flatMap byteBits

/-- Bit `i` of a byte string in that order. -/
def bitAt (x : Bytes) (i : ℕ) : Bool := (x.getD (i / 8) 0).toBitVec.getLsbD (i % 8)

def flipBit (x : Bytes) (i : ℕ) : Bytes := x.modify (i / 8) (· ^^^ BitArray.mask i)

section Register

variable {x y : Bytes} {i : ℕ}

@[simp] theorem length_byteBits (b : UInt8) : (byteBits b).length = 8 := by simp [byteBits]

@[simp] theorem length_bits (x : Bytes) : (bits x).length = 8 * x.length := by
  simp [bits, Nat.mul_comm]

theorem bits_cons (b : UInt8) (x : Bytes) : bits (b :: x) = byteBits b ++ bits x := rfl

theorem getElem?_byteBits (b : UInt8) (h : i < 8) :
    (byteBits b)[i]? = some (b.toBitVec.getLsbD i) := by
  simp [byteBits, h]

theorem byteBits_injective : Function.Injective byteBits := by
  intro b c h
  rw [← UInt8.toBitVec_inj]
  apply BitVec.eq_of_getLsbD_eq
  intro i hi
  have hbit := getElem?_byteBits b hi
  rw [h, getElem?_byteBits c hi] at hbit
  exact (Option.some.inj hbit).symm

theorem bits_injective : Function.Injective bits := by
  intro x y h
  induction x generalizing y with
  | nil =>
    have hlength := congrArg List.length h
    exact (List.length_eq_zero_iff.mp (by simpa using hlength.symm)).symm
  | cons b x ih =>
    cases y with
    | nil => simp [bits, byteBits] at h
    | cons c y =>
      obtain ⟨hb, hx⟩ := List.append_inj h (by simp)
      rw [byteBits_injective hb, ih hx]

theorem getElem?_bits (h : i < 8 * x.length) : (bits x)[i]? = some (bitAt x i) := by
  induction x generalizing i with
  | nil => simp at h
  | cons b x ih =>
    rw [bits_cons]
    by_cases hi : i < 8
    · rw [List.getElem?_append_left (by simpa using hi), getElem?_byteBits b hi, bitAt,
        Nat.div_eq_of_lt hi, Nat.mod_eq_of_lt hi]
      rfl
    · obtain ⟨j, rfl⟩ := Nat.exists_eq_add_of_le' (Nat.le_of_not_lt hi)
      rw [List.length_cons] at h
      rw [List.getElem?_append_right (by simp), length_byteBits, Nat.add_sub_cancel,
        ih (by omega), bitAt, bitAt, Nat.add_div_right j (by decide), Nat.add_mod_right,
        List.getD_cons_succ]

/-! ### The loop is a shift register -/

theorem toBitVec_crc32cBit (crc : UInt32) :
    (crc32cBit crc).toBitVec = ShiftRegister.step crc32cPolynomial.toBitVec crc.toBitVec := by
  have hlow : crc &&& 1 ≠ 0 ↔ crc.toBitVec.getLsbD 0 = true := by
    rw [Ne, ← UInt32.toNat_inj, UInt32.toNat_and, UInt32.toNat_one, Nat.and_one_is_mod,
      BitVec.getLsbD, Nat.testBit_zero, decide_eq_true_iff]
    exact Nat.mod_two_ne_zero
  unfold crc32cBit ShiftRegister.step
  by_cases h : crc.toBitVec.getLsbD 0 = true
  · rw [if_pos (hlow.mpr h), if_pos h]
    rfl
  · rw [if_neg (mt hlow.mp h), if_neg h]
    rfl

theorem load_byteBits (b : UInt8) : load (byteBits b) = b.toUInt32.toBitVec := by
  apply BitVec.eq_of_getLsbD_eq
  intro i hi
  rw [getLsbD_load, List.getD_eq_getElem?_getD]
  by_cases h8 : i < 8
  · simp [getElem?_byteBits b h8, hi]
  · rw [List.getElem?_eq_none (by simpa using h8)]
    simp [BitVec.getLsbD_of_ge _ _ (Nat.le_of_not_lt h8)]

theorem toBitVec_crc32cByte (crc : UInt32) (b : UInt8) :
    (crc32cByte crc b).toBitVec =
      feed crc32cPolynomial.toBitVec crc.toBitVec (byteBits b) := by
  rw [feed_eq_iterate _ (by simp), length_byteBits, load_byteBits]
  simp only [crc32cByte, Function.iterate_succ_apply, ← UInt32.toBitVec_xor, ← toBitVec_crc32cBit]
  rfl

theorem toBitVec_foldl (crc : UInt32) (x : Bytes) :
    (x.foldl crc32cByte crc).toBitVec = feed crc32cPolynomial.toBitVec crc.toBitVec (bits x) := by
  induction x generalizing crc with
  | nil => rfl
  | cons b x ih => rw [List.foldl_cons, ih, toBitVec_crc32cByte, bits_cons, feed_append]

theorem crc32c_eq_iff : crc32c x = crc32c y ↔
    feed crc32cPolynomial.toBitVec (0xffffffff : UInt32).toBitVec (bits x) =
      feed crc32cPolynomial.toBitVec (0xffffffff : UInt32).toBitVec (bits y) := by
  rw [← toBitVec_foldl, ← toBitVec_foldl, UInt32.toBitVec_inj, crc32c, crc32c, UInt32.toNat_inj,
    UInt32.not_inj]

/-! ### Bursts -/

/-- The order of the bits matters only for which bursts are short. -/
theorem crc32c_ne_of_burst (hlength : x.length = y.length) (hne : x ≠ y) (k : ℕ)
    (hwindow : ∀ i, bitAt x i ≠ bitAt y i → k ≤ i ∧ i < k + 32) : crc32c x ≠ crc32c y := by
  have hbits : (bits x).length = (bits y).length := by simp [hlength]
  have hdiff : bits x ≠ bits y := fun h => hne (bits_injective h)
  have hplaces : ∀ i, (bits x)[i]? ≠ (bits y)[i]? → k ≤ i ∧ i < k + 32 := by
    intro i hi
    by_cases hin : i < 8 * x.length
    · rw [getElem?_bits hin, getElem?_bits (hlength ▸ hin)] at hi
      exact hwindow i fun h => hi (congrArg some h)
    · rw [List.getElem?_eq_none (by simpa using hin),
        List.getElem?_eq_none (by simpa [← hlength] using hin)] at hi
      exact absurd rfl hi
  rw [Ne, crc32c_eq_iff]
  exact feed_ne_of_burst (by decide) _ hbits hdiff k hplaces

/-! ### One flipped bit -/

@[simp] theorem length_flipBit (x : Bytes) (i : ℕ) : (flipBit x i).length = x.length := by
  simp [flipBit]

theorem getLsbD_mask (i j : ℕ) (hj : j < 8) :
    (BitArray.mask i).toBitVec.getLsbD j = decide (j = i % 8) := by
  have hi : i % 8 < 8 := Nat.mod_lt _ (by decide)
  unfold BitArray.mask
  generalize i % 8 = k at hi ⊢
  interval_cases k <;> interval_cases j <;> rfl

theorem bitAt_flipBit (h : i < 8 * x.length) (j : ℕ) :
    bitAt (flipBit x i) j = (bitAt x j ^^ decide (j = i)) := by
  have hbyte : i / 8 < x.length := by omega
  by_cases hj : i / 8 = j / 8
  · have heq : (flipBit x i).getD (j / 8) 0 = x.getD (j / 8) 0 ^^^ BitArray.mask i := by
      simp [flipBit, List.getD_eq_getElem?_getD, ← hj, hbyte]
    have hsame : j % 8 = i % 8 ↔ j = i := by omega
    rw [bitAt, heq, UInt8.toBitVec_xor, BitVec.getLsbD_xor,
      getLsbD_mask i _ (Nat.mod_lt _ (by decide)), decide_eq_decide.mpr hsame, ← bitAt]
  · have heq : (flipBit x i).getD (j / 8) 0 = x.getD (j / 8) 0 := by
      simp [flipBit, List.getD_eq_getElem?_getD, hj]
    have hne : j ≠ i := by
      rintro rfl
      exact hj rfl
    rw [bitAt, heq, decide_eq_false hne, Bool.xor_false, ← bitAt]

theorem flipBit_ne (h : i < 8 * x.length) : flipBit x i ≠ x := by
  intro heq
  have hbit := bitAt_flipBit h i
  rw [heq] at hbit
  simp at hbit

theorem crc32c_flipBit_ne (h : i < 8 * x.length) : crc32c (flipBit x i) ≠ crc32c x := by
  refine crc32c_ne_of_burst (length_flipBit x i) (flipBit_ne h) i ?_
  intro j hj
  rw [bitAt_flipBit h] at hj
  have hji : j = i := by
    by_contra hne
    simp [hne] at hj
  omega

theorem putFixed32_crc32c_inj (h : putFixed32 (crc32c x) = putFixed32 (crc32c y)) :
    crc32c x = crc32c y := by
  have hx := getFixed32_put (crc32c_lt x) []
  rw [h, getFixed32_put (crc32c_lt y)] at hx
  exact (congrArg Prod.fst (Option.some.inj hx)).symm

/-- The stored checksum is that of other contents once a bit of them is flipped. -/
theorem stored_ne (h : i < 8 * x.length) :
    putFixed32 (crc32c (flipBit x i)) ≠ putFixed32 (crc32c x) :=
  fun heq => crc32c_flipBit_ne h (putFixed32_crc32c_inj heq)

end Register

/-! ## The stored checksums -/

theorem blockContents_checksum (payload : Bytes) :
    (SSTableBuilder.blockContents payload).drop (payload.length + 1) =
      putFixed32 (crc32c (payload ++ [noCompression])) :=
  List.drop_left' (by simp)

theorem encodeManifest_checksum {s : Encoded.ManifestState} {bytes : Bytes}
    (h : Encoded.encodeManifest s = .ok bytes) :
    bytes.drop (bytes.length - 4) = putFixed32 (crc32c (bytes.take (bytes.length - 4))) := by
  obtain ⟨rfl, -⟩ := Encoded.encodeManifest_ok h
  have hlength : (Encoded.encodeAs 3 s).length - 4 = (Encoded.contents 3 s).length := by
    simp [Encoded.encodeAs]
  rw [hlength, Encoded.encodeAs, List.drop_left, List.take_left]

/-- Contents of equal length that differ, and only within 32 consecutive bits in the order in which
`crc32c` consumes them, have different checksums. A single flipped bit in the payload of a log
record, in a block of a table or in the body of a manifest is one such burst: the checksum stored
with the original is not the one of what is now there. -/
theorem crc32c_detects_bursts :
    (∀ x y : Bytes, x.length = y.length → x ≠ y →
      (∃ k, ∀ i, bitAt x i ≠ bitAt y i → k ≤ i ∧ i < k + 32) → crc32c x ≠ crc32c y) ∧
    (∀ payload i, i < 8 * payload.length →
      ((walRecord payload).drop 4).take 4 ≠ putFixed32 (crc32c (flipBit payload i))) ∧
    (∀ payload i, i < 8 * (payload.length + 1) →
      (SSTableBuilder.blockContents payload).drop (payload.length + 1) ≠
        putFixed32 (crc32c (flipBit (payload ++ [noCompression]) i))) ∧
    (∀ s bytes i, Encoded.encodeManifest s = .ok bytes → i < 8 * (bytes.length - 4) →
      bytes.drop (bytes.length - 4) ≠
        putFixed32 (crc32c (flipBit (bytes.take (bytes.length - 4)) i))) := by
  refine ⟨?_, ?_, ?_, ?_⟩
  · rintro x y hlength hne ⟨k, hwindow⟩
    exact crc32c_ne_of_burst hlength hne k hwindow
  · intro payload i hi
    exact (stored_ne hi).symm
  · intro payload i hi
    rw [blockContents_checksum]
    exact (stored_ne (by simpa using hi)).symm
  · intro s bytes i hs hi
    rw [encodeManifest_checksum hs]
    exact (stored_ne (by simpa using hi)).symm

theorem crc32c_detects_bursts_small :
    crc32c [1, 2] ≠ crc32c [3, 2] ∧
      ((walRecord [7]).drop 4).take 4 ≠ putFixed32 (crc32c (flipBit [7] 5)) ∧
      (SSTableBuilder.blockContents [7]).drop 2 ≠
        putFixed32 (crc32c (flipBit ([7] ++ [noCompression]) 9)) ∧
      ∃ bytes, Encoded.encodeManifest Encoded.smallState = .ok bytes ∧
        bytes.drop (bytes.length - 4) ≠
          putFixed32 (crc32c (flipBit (bytes.take (bytes.length - 4)) 100)) := by
  obtain ⟨hburst, hwal, htable, hmanifest⟩ := crc32c_detects_bursts
  refine ⟨hburst _ _ rfl (by decide) ⟨0, ?_⟩, hwal [7] 5 (by decide), htable [7] 9 (by decide),
    Encoded.encodeAs 3 Encoded.smallState, ?_, ?_⟩
  · intro i hi
    by_contra hlarge
    have hbyte : 2 ≤ i / 8 := by omega
    exact hi (by simp [bitAt, List.getElem?_eq_none, hbyte])
  · exact Encoded.encodeManifest_of_le ⟨_, rfl⟩
      (by rw [Encoded.length_encodeAs]; decide)
  · refine hmanifest Encoded.smallState _ 100 (Encoded.encodeManifest_of_le ⟨_, rfl⟩ ?_) ?_
    · decide
    · decide

end Mizu.Lsm
