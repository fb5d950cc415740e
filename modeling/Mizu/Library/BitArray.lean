import Mathlib.Tactic

/-!
# Bits in a byte string

Bit `i` is bit `i % 8` of byte `i / 8`. Bits are only ever set.
-/

namespace BitArray

def mask (i : ℕ) : UInt8 := 1 <<< UInt8.ofNat (i % 8)

def setBit (bytes : List UInt8) (i : ℕ) : List UInt8 := bytes.modify (i / 8) (· ||| mask i)

def testBit (bytes : List UInt8) (i : ℕ) : Bool := bytes.getD (i / 8) 0 &&& mask i != 0

def setAll (bytes : List UInt8) (bits : List ℕ) : List UInt8 := bits.foldl setBit bytes

variable {bytes : List UInt8} {i j : ℕ} {bits : List ℕ}

theorem mask_ne_zero (i : ℕ) : mask i ≠ 0 := by
  have hi : i % 8 < 8 := Nat.mod_lt _ (by decide)
  unfold mask
  generalize i % 8 = k at hi
  interval_cases k <;> decide

theorem or_and_distrib (a b m : UInt8) : (a ||| b) &&& m = (a &&& m) ||| (b &&& m) := by
  rw [← UInt8.toNat_inj]
  simp [Nat.and_or_distrib_right]

@[simp] theorem length_setBit (bytes : List UInt8) (i : ℕ) :
    (setBit bytes i).length = bytes.length := by
  simp [setBit]

@[simp] theorem length_setAll (bytes : List UInt8) (bits : List ℕ) :
    (setAll bytes bits).length = bytes.length := by
  induction bits generalizing bytes with
  | nil => rfl
  | cons i bits ih => exact (ih _).trans (length_setBit _ _)

/-- A byte that the bit is not in stays as it was. -/
theorem getElem?_setBit_of_ne (h : i / 8 ≠ j) : (setBit bytes i)[j]? = bytes[j]? := by
  simp [setBit, h]

theorem getElem?_setAll_of_ne (h : ∀ i ∈ bits, i / 8 ≠ j) :
    (setAll bytes bits)[j]? = bytes[j]? := by
  induction bits generalizing bytes with
  | nil => rfl
  | cons i bits ih =>
    obtain ⟨hi, hbits⟩ := List.forall_mem_cons.mp h
    exact (ih hbits).trans (getElem?_setBit_of_ne hi)

theorem getD_setBit (h : i / 8 < bytes.length) :
    (setBit bytes i).getD (i / 8) 0 = bytes.getD (i / 8) 0 ||| mask i := by
  simp [setBit, List.getD_eq_getElem?_getD, h]

theorem testBit_setBit_self (h : i / 8 < bytes.length) : testBit (setBit bytes i) i = true := by
  rw [testBit, getD_setBit h, or_and_distrib, UInt8.and_self, bne_iff_ne]
  intro hzero
  exact mask_ne_zero i (UInt8.or_eq_zero_iff.mp hzero).2

/-- A bit that is set stays set. -/
theorem testBit_setBit (h : testBit bytes j = true) : testBit (setBit bytes i) j = true := by
  unfold testBit at h ⊢
  rcases eq_or_ne (i / 8) (j / 8) with heq | hne
  · by_cases hlt : i / 8 < bytes.length
    · rw [bne_iff_ne] at h ⊢
      rw [← heq] at h ⊢
      rw [getD_setBit hlt, or_and_distrib]
      intro hzero
      exact h (UInt8.or_eq_zero_iff.mp hzero).1
    · rwa [setBit, List.modify_eq_self (not_lt.mp hlt)]
  · rwa [List.getD_eq_getElem?_getD, getElem?_setBit_of_ne hne, ← List.getD_eq_getElem?_getD]

theorem testBit_setAll (h : testBit bytes j = true) : testBit (setAll bytes bits) j = true := by
  induction bits generalizing bytes with
  | nil => exact h
  | cons i bits ih => exact ih (testBit_setBit h)

theorem testBit_setAll_mem (hi : i ∈ bits) (hlt : i / 8 < bytes.length) :
    testBit (setAll bytes bits) i = true := by
  induction bits generalizing bytes with
  | nil => simp at hi
  | cons j bits ih =>
    rcases List.mem_cons.mp hi with rfl | hmem
    · change testBit (setAll (setBit bytes i) bits) i = true
      exact testBit_setAll (testBit_setBit_self hlt)
    · exact ih hmem (by rwa [length_setBit])

end BitArray
