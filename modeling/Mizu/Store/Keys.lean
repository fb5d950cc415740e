import Mizu.Library.BigEndian
import Mizu.Raft.Types

/-!
# The keys of the Raft and region namespaces

`lsmRaftStorage` of `kv/storage/lsm.go` and `EncodeKey` of `kv/storage/storage.go`. A Raft key
names its region in decimal digits between slashes and ends with a tag; an entry's tag carries
the index in eight big-endian bytes. The strings are ASCII.
-/

namespace Mizu

/-- The bytes of an ASCII string. -/
def text (s : String) : Bytes := s.toList.map Char.toUInt8

def slash : UInt8 := 47

/-- `strconv.FormatUint(n, 10)` -/
def formatUint (n : ℕ) : Bytes :=
  if n = 0 then text "0" else (Nat.digits 10 n).reverse.map fun d => UInt8.ofNat (48 + d)

def regionPrefix (regionID : ℕ) : Bytes := text "raft/" ++ formatUint regionID ++ text "/"

def hardStateKey (regionID : ℕ) : Bytes := regionPrefix regionID ++ text "hard_state"

def snapshotKey (regionID : ℕ) : Bytes := regionPrefix regionID ++ text "snapshot"

def entryPrefix (regionID : ℕ) : Bytes := regionPrefix regionID ++ text "entry/"

def entryKey (regionID index : ℕ) : Bytes := entryPrefix regionID ++ BigEndian.encode 8 index

def regionDataPrefix (regionID : ℕ) : Bytes := text "data/" ++ formatUint regionID ++ text "/"

def encodeCFPrefix (regionID : ℕ) (cf : Bytes) : Bytes :=
  regionDataPrefix regionID ++ cf ++ [slash]

def encodeKey (regionID : ℕ) (key cf : Bytes) : Bytes := encodeCFPrefix regionID cf ++ key

/-! ### Decimal numbers -/

/-- The number that the digits stand for. -/
def readDigits (bs : Bytes) : ℕ := bs.foldl (fun n b => 10 * n + (b.toNat - 48)) 0

theorem toNat_digit {d : ℕ} (h : d < 10) : (UInt8.ofNat (48 + d)).toNat = 48 + d := by
  rw [UInt8.toNat_ofNat']
  omega

theorem readDigits_formatUint (n : ℕ) : readDigits (formatUint n) = n := by
  unfold formatUint
  split_ifs with h
  · subst h
    decide
  · have hread : ∀ ds : List ℕ, (∀ d ∈ ds, d < 10) →
        readDigits (ds.reverse.map fun d => UInt8.ofNat (48 + d)) = Nat.ofDigits 10 ds := by
      intro ds hds
      induction ds with
      | nil => rfl
      | cons d ds ih =>
        have hd : d < 10 := hds d (List.mem_cons_self ..)
        have hrest := ih fun x hx => hds x (List.mem_cons_of_mem _ hx)
        unfold readDigits at hrest ⊢
        rw [List.reverse_cons, List.map_append, List.foldl_append, hrest, Nat.ofDigits_cons]
        simp only [List.map_cons, List.map_nil, List.foldl_cons, List.foldl_nil, toNat_digit hd]
        omega
    rw [hread _ fun d hd => Nat.digits_lt_base (by decide) hd, Nat.ofDigits_digits]

theorem formatUint_injective : Function.Injective formatUint :=
  Function.LeftInverse.injective readDigits_formatUint

theorem slash_notMem_formatUint (n : ℕ) : slash ∉ formatUint n := by
  unfold formatUint
  split_ifs
  · decide
  · intro h
    obtain ⟨d, hd, heq⟩ := List.mem_map.mp h
    have hlt : d < 10 := Nat.digits_lt_base (by decide) (List.mem_reverse.mp hd)
    have := congrArg UInt8.toNat heq
    rw [toNat_digit hlt] at this
    have hslash : slash.toNat = 47 := rfl
    omega

/-! ### Raft keys -/

/-- A Raft key can be read back. -/
theorem regionPrefix_append_inj {r r' : ℕ} {a b : Bytes}
    (h : regionPrefix r ++ a = regionPrefix r' ++ b) : r = r' ∧ a = b := by
  have hsplit (n : ℕ) (x : Bytes) :
      regionPrefix n ++ x = text "raft/" ++ (formatUint n ++ slash :: x) := by
    have : text "/" = [slash] := by decide
    simp [regionPrefix, this]
  rw [hsplit, hsplit] at h
  obtain ⟨hdigits, hrest⟩ := Lexicographic.append_cons_inj (slash_notMem_formatUint r)
    (slash_notMem_formatUint r') (List.append_cancel_left h)
  exact ⟨formatUint_injective hdigits, hrest⟩

theorem entryKey_eq (r i : ℕ) :
    entryKey r i = regionPrefix r ++ (text "entry/" ++ BigEndian.encode 8 i) := by
  simp [entryKey, entryPrefix]

theorem entryKey_inj {r r' i i' : ℕ} (hi : i < 2 ^ 64) (hi' : i' < 2 ^ 64) :
    entryKey r i = entryKey r' i' ↔ r = r' ∧ i = i' := by
  constructor
  · intro h
    rw [entryKey_eq, entryKey_eq] at h
    obtain ⟨hr, htag⟩ := regionPrefix_append_inj h
    exact ⟨hr, BigEndian.encode_inj (by norm_num; omega) (by norm_num; omega)
      (List.append_cancel_left htag)⟩
  · rintro ⟨rfl, rfl⟩
    rfl

theorem hardStateKey_ne_snapshotKey (r r' : ℕ) : hardStateKey r ≠ snapshotKey r' := by
  intro h
  exact absurd (regionPrefix_append_inj h).2 (by decide)

/-- Strings that begin differently differ. -/
theorem append_ne_append {a b x y : Bytes} (h : a.head? ≠ b.head?) (ha : a ≠ []) (hb : b ≠ []) :
    a ++ x ≠ b ++ y := by
  intro heq
  apply h
  rw [← List.head?_append_of_ne_nil a ha, heq, List.head?_append_of_ne_nil b hb]

theorem hardState_ne_entry_append (x : Bytes) : text "entry/" ++ x ≠ text "hard_state" := by
  have := append_ne_append (a := text "entry/") (b := text "hard_state") (x := x) (y := [])
    (by decide) (by decide) (by decide)
  rwa [List.append_nil] at this

theorem snapshot_ne_entry_append (x : Bytes) : text "entry/" ++ x ≠ text "snapshot" := by
  have := append_ne_append (a := text "entry/") (b := text "snapshot") (x := x) (y := [])
    (by decide) (by decide) (by decide)
  rwa [List.append_nil] at this

theorem hardStateKey_ne_entryKey (r r' i : ℕ) : hardStateKey r ≠ entryKey r' i := by
  intro h
  rw [entryKey_eq] at h
  exact hardState_ne_entry_append _ (regionPrefix_append_inj h).2.symm

theorem snapshotKey_ne_entryKey (r r' i : ℕ) : snapshotKey r ≠ entryKey r' i := by
  intro h
  rw [entryKey_eq] at h
  exact snapshot_ne_entry_append _ (regionPrefix_append_inj h).2.symm

/-- A key of the region-data namespace. -/
def IsData (key : Bytes) : Prop := text "data/" <+: key

theorem encodeKey_isData (regionID : ℕ) (key cf : Bytes) : IsData (encodeKey regionID key cf) :=
  ⟨formatUint regionID ++ text "/" ++ cf ++ [slash] ++ key, by
    simp [encodeKey, encodeCFPrefix, regionDataPrefix]⟩

theorem not_isData_regionPrefix_append (r : ℕ) (a : Bytes) : ¬IsData (regionPrefix r ++ a) := by
  rintro ⟨b, h⟩
  rw [regionPrefix, List.append_assoc, List.append_assoc] at h
  exact append_ne_append (by decide) (by decide) (by decide) h

/-- The keys that the storage writes. -/
inductive IsKey : Bytes → Prop
  | hardState (r : ℕ) : IsKey (hardStateKey r)
  | snapshot (r : ℕ) : IsKey (snapshotKey r)
  | entry (r : ℕ) {i : ℕ} (hi : i < 2 ^ 64) : IsKey (entryKey r i)
  | data {key : Bytes} (h : IsData key) : IsKey key

/-- The prefix of the entries of a region captures no other key. -/
theorem IsKey.eq_entryKey {key : Bytes} {r : ℕ} (h : IsKey key) (hp : entryPrefix r <+: key) :
    ∃ i < 2 ^ 64, key = entryKey r i := by
  obtain ⟨x, rfl⟩ := hp
  rw [entryPrefix, List.append_assoc] at h
  generalize hkey : regionPrefix r ++ (text "entry/" ++ x) = key at h
  cases h with
  | hardState r' => exact absurd (regionPrefix_append_inj hkey).2 (hardState_ne_entry_append x)
  | snapshot r' => exact absurd (regionPrefix_append_inj hkey).2 (snapshot_ne_entry_append x)
  | entry r' hi =>
    rw [entryKey_eq] at hkey
    obtain ⟨rfl, htag⟩ := regionPrefix_append_inj hkey
    exact ⟨_, hi, by rw [entryKey, List.append_cancel_left htag]⟩
  | data h => exact absurd (hkey ▸ h) (not_isData_regionPrefix_append r _)

/-- The keys of the entries of a region are ordered by index. -/
theorem entryKey_le_iff {r i j : ℕ} (hi : i < 2 ^ 64) (hj : j < 2 ^ 64) :
    entryKey r i ≤ entryKey r j ↔ i ≤ j := by
  rw [← not_lt, ← not_lt, not_iff_not]
  exact (Lexicographic.append_lt_append_iff (entryPrefix r)).trans
    (BigEndian.encode_lt_encode_iff (by norm_num; omega) (by norm_num; omega))

end Mizu
