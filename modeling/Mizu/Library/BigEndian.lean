import Mizu.Library.LittleEndian

/-!
# Keys in lexicographic order

Big-endian integers of one width are ordered as the integers, and the strings with one common
start are neighbours.
-/

instance instLinearOrderUInt8 : LinearOrder UInt8 where
  le_refl := UInt8.le_refl
  le_trans _ _ _ := UInt8.le_trans
  lt_iff_le_not_ge a b := by
    simp only [UInt8.lt_iff_toNat_lt, UInt8.le_iff_toNat_le]
    omega
  le_antisymm _ _ := UInt8.le_antisymm
  le_total := UInt8.le_total
  toDecidableLE := inferInstance
  toDecidableLT := inferInstance
  toDecidableEq := inferInstance

namespace Lexicographic

variable {α : Type*} [LinearOrder α] {a b k p xs ys : List α} {x y : α}

theorem append_lt_append_iff (p : List α) : p ++ a < p ++ b ↔ a < b := by
  induction p with
  | nil => rfl
  | cons c p ih => simpa [List.cons_lt_cons_iff] using ih

/-- The last element decides between lists of one length that agree before it. -/
theorem concat_lt_concat_iff (h : xs.length = ys.length) :
    xs ++ [x] < ys ++ [y] ↔ xs < ys ∨ (xs = ys ∧ x < y) := by
  induction xs generalizing ys with
  | nil =>
    obtain rfl : ys = [] := List.length_eq_zero_iff.mp h.symm
    simp [List.cons_lt_cons_iff]
  | cons c xs ih =>
    obtain ⟨d, ys, rfl⟩ := List.exists_cons_of_length_eq_add_one h.symm
    have hlen : xs.length = ys.length := by simpa using h
    simp only [List.cons_append, List.cons_lt_cons_iff, ih hlen, List.cons.injEq]
    tauto

/-- What follows a string that starts with `p` and does not start so itself, follows them all. -/
theorem lt_of_not_isPrefix (ha : p <+: a) (hb : p <+: b) (hk : ¬p <+: k) (h : a ≤ k) : b < k := by
  induction p generalizing a b k with
  | nil => exact absurd List.nil_prefix hk
  | cons c p ih =>
    obtain ⟨a, rfl⟩ := ha
    obtain ⟨b, rfl⟩ := hb
    cases k with
    | nil => exact absurd h (by simp)
    | cons d k =>
      rcases lt_or_eq_of_le h with hlt | heq
      · rcases List.cons_lt_cons_iff.mp hlt with hcd | ⟨rfl, hrest⟩
        · exact List.cons_lt_cons_iff.mpr (Or.inl hcd)
        · refine List.cons_lt_cons_iff.mpr (Or.inr ⟨rfl, ?_⟩)
          refine ih (List.prefix_append p a) (List.prefix_append p b) (fun hp => hk ?_) hrest.le
          exact (List.prefix_cons_inj c).mpr hp
      · rw [← heq] at hk
        exact absurd (List.prefix_append (c :: p) a) hk

omit [LinearOrder α] in
/-- A separator that is in neither of two words makes them readable. -/
theorem append_cons_inj {w w' : List α} (h : x ∉ w) (h' : x ∉ w')
    (heq : w ++ x :: a = w' ++ x :: b) : w = w' ∧ a = b := by
  induction w generalizing w' with
  | nil =>
    cases w' with
    | nil => simpa using heq
    | cons d w' =>
      simp only [List.nil_append, List.cons_append, List.cons.injEq] at heq
      exact absurd (heq.1 ▸ List.mem_cons_self ..) h'
  | cons c w ih =>
    cases w' with
    | nil =>
      simp only [List.nil_append, List.cons_append, List.cons.injEq] at heq
      exact absurd (heq.1 ▸ List.mem_cons_self ..) h
    | cons d w' =>
      simp only [List.cons_append, List.cons.injEq] at heq
      obtain ⟨rfl, rfl⟩ := ih (fun hx => h (List.mem_cons_of_mem _ hx))
        (fun hx => h' (List.mem_cons_of_mem _ hx)) heq.2
      exact ⟨by rw [heq.1], rfl⟩

end Lexicographic

namespace BigEndian

variable {width v u : ℕ}

/-- The low `width` bytes of `v`, most significant first. -/
def encode (width v : ℕ) : List UInt8 := (LittleEndian.encode width v).reverse

def decode (bs : List UInt8) : ℕ := LittleEndian.decode bs.reverse

@[simp] theorem length_encode (width v : ℕ) : (encode width v).length = width := by
  simp [encode]

theorem decode_encode (h : v < 256 ^ width) : decode (encode width v) = v := by
  rw [decode, encode, List.reverse_reverse, LittleEndian.decode_encode h]

theorem encode_inj (hv : v < 256 ^ width) (hu : u < 256 ^ width)
    (h : encode width v = encode width u) : v = u := by
  rw [← decode_encode hv, h, decode_encode hu]

theorem encode_lt_encode_iff (hv : v < 256 ^ width) (hu : u < 256 ^ width) :
    encode width v < encode width u ↔ v < u := by
  induction width generalizing v u with
  | zero =>
    obtain rfl : u = 0 := by simpa using hu
    simp [encode, LittleEndian.encode]
  | succ width ih =>
    have hv' : v / 256 < 256 ^ width := by omega
    have hu' : u / 256 < 256 ^ width := by omega
    have hlast : UInt8.ofNat v < UInt8.ofNat u ↔ v % 256 < u % 256 := by
      simp [UInt8.lt_iff_toNat_lt, UInt8.toNat_ofNat']
    have hsucc (w : ℕ) : encode (width + 1) w = encode width (w / 256) ++ [UInt8.ofNat w] := by
      simp [encode, LittleEndian.encode]
    have heq : encode width (v / 256) = encode width (u / 256) ↔ v / 256 = u / 256 :=
      ⟨encode_inj hv' hu', fun h => by rw [h]⟩
    have hlen : (encode width (v / 256)).length = (encode width (u / 256)).length := by simp
    rw [hsucc, hsucc]
    refine (Lexicographic.concat_lt_concat_iff hlen).trans ?_
    rw [ih hv' hu', heq, hlast]
    omega

end BigEndian
