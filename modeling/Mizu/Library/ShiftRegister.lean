import Mathlib.Tactic
import Mathlib.Logic.Function.Iterate

/-!
# Linear feedback shift registers

A register of `w` bits is shifted down, and a bit that falls out at the bottom is fed back at the
places of a polynomial. The bits of a message enter at the bottom, one before each shift. Where the
polynomial feeds back at the top a shift loses nothing, so that two messages which differ only
inside `w` consecutive bits never leave the same register.
-/

namespace ShiftRegister

variable {w : ℕ} (poly : BitVec w)

/-- One shift. -/
def step (c : BitVec w) : BitVec w := if c.getLsbD 0 then (c >>> 1) ^^^ poly else c >>> 1

/-- A bit at the bottom of the register. -/
def bottom (d : Bool) : BitVec w := BitVec.ofNat w d.toNat

/-- The bits of a message enter one after the other. -/
def feed (c : BitVec w) (ds : List Bool) : BitVec w :=
  ds.foldl (fun c d => step poly (c ^^^ bottom d)) c

/-- A message in the register, its first bit at the bottom. -/
def load : List Bool → BitVec w
  | [] => 0
  | d :: ds => (load ds <<< 1) ^^^ bottom d

variable {poly} {ds es pre post : List Bool}

theorem getLsbD_bottom (d : Bool) (i : ℕ) :
    (bottom d : BitVec w).getLsbD i = (decide (i < w) && (decide (i = 0) && d)) := by
  cases d <;> cases i <;> simp [bottom, BitVec.getLsbD_ofNat, Nat.testBit_succ]

theorem getLsbD_load (ds : List Bool) (i : ℕ) :
    (load ds : BitVec w).getLsbD i = (decide (i < w) && ds.getD i false) := by
  induction ds generalizing i with
  | nil => simp [load]
  | cons d ds ih =>
    rw [load, BitVec.getLsbD_xor, BitVec.getLsbD_shiftLeft, getLsbD_bottom]
    cases i with
    | zero => simp
    | succ i =>
      rw [Nat.add_sub_cancel, ih]
      by_cases hi : i + 1 < w
      · simp [hi, Nat.lt_of_succ_lt hi]
      · simp [hi]

theorem getLsbD_step (c : BitVec w) (i : ℕ) :
    (step poly c).getLsbD i = (c.getLsbD (i + 1) ^^ (c.getLsbD 0 && poly.getLsbD i)) := by
  unfold step
  cases c.getLsbD 0 <;> simp [Nat.add_comm]

theorem step_xor (a b : BitVec w) : step poly (a ^^^ b) = step poly a ^^^ step poly b := by
  apply BitVec.eq_of_getLsbD_eq
  simp only [getLsbD_step, BitVec.getLsbD_xor]
  cases a.getLsbD 0 <;> cases b.getLsbD 0 <;> simp [Bool.xor_comm, Bool.xor_left_comm]

/-- Feedback at the top tells which bit fell out, so a shift loses nothing. -/
theorem step_injective (hpoly : poly.msb = true) : Function.Injective (step poly) := by
  intro a b h
  have hbit (i : ℕ) : (a.getLsbD (i + 1) ^^ (a.getLsbD 0 && poly.getLsbD i)) =
      (b.getLsbD (i + 1) ^^ (b.getLsbD 0 && poly.getLsbD i)) := by
    rw [← getLsbD_step, ← getLsbD_step, h]
  have hw : 0 < w := by
    rcases Nat.eq_zero_or_pos w with rfl | hw
    · simp [BitVec.msb_eq_getLsbD_last] at hpoly
    · exact hw
  have hlow : a.getLsbD 0 = b.getLsbD 0 := by
    have htop := hbit (w - 1)
    rw [← BitVec.msb_eq_getLsbD_last, hpoly, Nat.sub_add_cancel hw] at htop
    simpa using htop
  apply BitVec.eq_of_getLsbD_eq
  intro i _
  cases i with
  | zero => exact hlow
  | succ i => simpa [hlow] using hbit i

theorem xor_bottom_injective (d : Bool) :
    Function.Injective (fun c : BitVec w => c ^^^ bottom d) :=
  fun _ _ h => (BitVec.xor_left_inj _).mp h

theorem feed_injective (hpoly : poly.msb = true) (ds : List Bool) :
    Function.Injective (fun c => feed poly c ds) := by
  induction ds with
  | nil => exact fun _ _ h => h
  | cons d ds ih => exact ih.comp ((step_injective hpoly).comp (xor_bottom_injective d))

theorem feed_append (c : BitVec w) (ds es : List Bool) :
    feed poly c (ds ++ es) = feed poly (feed poly c ds) es :=
  List.foldl_append

/-- A message shorter than the register is shifted down unchanged. -/
theorem step_load_shiftLeft (poly : BitVec w) (h : ds.length < w) :
    step poly (load ds <<< 1) = load ds := by
  apply BitVec.eq_of_getLsbD_eq
  intro i hi
  rw [getLsbD_step, BitVec.getLsbD_shiftLeft, BitVec.getLsbD_shiftLeft, Nat.add_sub_cancel,
    getLsbD_load]
  by_cases hlast : i + 1 < w
  · simp [hlast]
  · have hnone : ds.length ≤ i := by omega
    simp [hlast, List.getElem?_eq_none hnone]

/-- A message that fits into the register may as well be put there at once. -/
theorem feed_eq_iterate (c : BitVec w) (h : ds.length ≤ w) :
    feed poly c ds = (step poly)^[ds.length] (c ^^^ load ds) := by
  induction ds generalizing c with
  | nil => simp [feed, load]
  | cons d ds ih =>
    have hstep : step poly (c ^^^ bottom d) ^^^ load ds = step poly (c ^^^ load (d :: ds)) := by
      rw [← step_load_shiftLeft poly h, ← step_xor, load]
      congr 1
      ac_rfl
    calc feed poly c (d :: ds)
        = feed poly (step poly (c ^^^ bottom d)) ds := rfl
      _ = (step poly)^[ds.length] (step poly (c ^^^ bottom d) ^^^ load ds) :=
          ih _ (Nat.le_of_succ_le h)
      _ = (step poly)^[(d :: ds).length] (c ^^^ load (d :: ds)) := by
          rw [hstep, List.length_cons, Function.iterate_succ_apply]

theorem load_inj (hds : ds.length ≤ w) (hlength : ds.length = es.length)
    (h : (load ds : BitVec w) = load es) : ds = es := by
  apply List.ext_getElem hlength
  intro i hi hi'
  have hbit := getLsbD_load (w := w) ds i
  rw [h, getLsbD_load] at hbit
  simpa [hi, hi', lt_of_lt_of_le hi hds] using hbit.symm

/-- Messages that differ, and only inside as many consecutive bits as the register has, leave
different registers. -/
theorem feed_ne_of_window (hpoly : poly.msb = true) (c : BitVec w) (hlength : ds.length = es.length)
    (hds : ds.length ≤ w) (hne : ds ≠ es) :
    feed poly c (pre ++ ds ++ post) ≠ feed poly c (pre ++ es ++ post) := by
  intro h
  simp only [feed_append] at h
  have hwindow := feed_injective hpoly post h
  have hes : es.length ≤ w := hlength ▸ hds
  rw [feed_eq_iterate (feed poly c pre) hds, feed_eq_iterate (feed poly c pre) hes,
    hlength] at hwindow
  have hload := (step_injective hpoly).iterate _ hwindow
  exact hne (load_inj hds hlength ((BitVec.xor_right_inj _).mp hload))

/-- The same, the differing bits told by their positions. -/
theorem feed_ne_of_burst (hpoly : poly.msb = true) (c : BitVec w) (hlength : ds.length = es.length)
    (hne : ds ≠ es) (k : ℕ) (hwindow : ∀ i, ds[i]? ≠ es[i]? → k ≤ i ∧ i < k + w) :
    feed poly c ds ≠ feed poly c es := by
  have hpre : ds.take k = es.take k := by
    apply List.ext_getElem?
    intro i
    by_cases hi : i < k
    · rw [List.getElem?_take_of_lt hi, List.getElem?_take_of_lt hi]
      by_contra hdiff
      exact absurd (hwindow i hdiff).1 (by omega)
    · rw [List.getElem?_take_eq_none (by omega), List.getElem?_take_eq_none (by omega)]
  have hpost : (ds.drop k).drop w = (es.drop k).drop w := by
    apply List.ext_getElem?
    intro i
    simp only [List.getElem?_drop]
    by_contra hdiff
    exact absurd (hwindow _ hdiff).2 (by omega)
  have hds : ds = ds.take k ++ (ds.drop k).take w ++ (ds.drop k).drop w := by
    rw [List.append_assoc, List.take_append_drop, List.take_append_drop]
  have hes : es = ds.take k ++ (es.drop k).take w ++ (ds.drop k).drop w := by
    rw [hpre, hpost, List.append_assoc, List.take_append_drop, List.take_append_drop]
  have hmiddle : (ds.drop k).take w ≠ (es.drop k).take w := by
    intro h
    exact hne (by rw [hds, hes, h])
  rw [hds, hes]
  exact feed_ne_of_window hpoly c (by simp [hlength]) (by simp) hmiddle

end ShiftRegister
