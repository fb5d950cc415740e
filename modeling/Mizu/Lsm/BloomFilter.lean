import Mizu.Lsm.Coding
import Mizu.Library.BitArray

/-!
# The Bloom filter of a table

`table/bloom_filter.cc`: ten bits for every key, six probes, and the number of probes in the last
byte. A key that was added is never reported as missing.
-/

namespace Mizu.Lsm

/-! ### The hash -/

def bloomHashSeed : UInt32 := 0xbc9f1d34

def bloomMultiplier : UInt32 := 0xc6a4a793

/-- The end of the `switch`, with the first of the remaining bytes. -/
def bloomHashLast (hash : UInt32) (a : UInt8) : UInt32 :=
  let hash := (hash + a.toUInt32) * bloomMultiplier
  hash ^^^ (hash >>> 24)

/-- Four bytes at a time, then the rest. -/
def bloomHashRest (hash : UInt32) : Bytes → UInt32
  | a :: b :: c :: d :: rest =>
    let hash := (hash + UInt32.ofNat (LittleEndian.decode [a, b, c, d])) * bloomMultiplier
    bloomHashRest (hash ^^^ (hash >>> 16)) rest
  | [a, b, c] => bloomHashLast (hash + (c.toUInt32 <<< 16) + (b.toUInt32 <<< 8)) a
  | [a, b] => bloomHashLast (hash + (b.toUInt32 <<< 8)) a
  | [a] => bloomHashLast hash a
  | [] => hash

def bloomHash (key : Bytes) : UInt32 :=
  bloomHashRest (bloomHashSeed ^^^ (UInt32.ofNat key.length * bloomMultiplier)) key

def rotatedDelta (hash : UInt32) : UInt32 := (hash >>> 17) ||| (hash <<< 15)

/-! ### The filter -/

/-- The bits that the probes of a hash look at. -/
def probeBits (bitCount : ℕ) (delta : UInt32) : ℕ → UInt32 → List ℕ
  | 0, _ => []
  | probes + 1, hash => hash.toNat % bitCount :: probeBits bitCount delta probes (hash + delta)

/-- `kBloomProbes` -/
def bloomProbes : UInt8 := 6

/-- `byte_count`: ten bits for each key, 64 at least. -/
def bloomByteCount (count : ℕ) : ℕ := (max (count * 10) 64 + 7) / 8

/-- The loop of `buildFilter`: the bits of every hash are set. -/
def setHashes (byteCount : ℕ) (hashes : List UInt32) (encoded : Bytes) : Bytes :=
  hashes.foldl
    (fun encoded hash =>
      BitArray.setAll encoded (probeBits (byteCount * 8) (rotatedDelta hash)
        bloomProbes.toNat hash))
    encoded

def buildFilter (hashes : List UInt32) : Bytes :=
  let byteCount := bloomByteCount hashes.length
  setHashes byteCount hashes (List.replicate byteCount 0 ++ [bloomProbes])

def bloomFilterMayContain (key encodedFilter : Bytes) : Bool :=
  if encodedFilter.length = 0 then true
  else if encodedFilter.length = 1 then true
  else
    let byteCount := encodedFilter.length - 1
    let probes := encodedFilter.getD byteCount 0
    if probes = 0 ∨ probes > 30 then true
    else
      let hash := bloomHash key
      (probeBits (byteCount * 8) (rotatedDelta hash) probes.toNat hash).all
        (BitArray.testBit encodedFilter)

/-! ### No key is missed -/

variable {byteCount : ℕ}

section

variable {hashes : List UInt32} {hash : UInt32}

theorem probeBits_lt {bitCount : ℕ} (h : 0 < bitCount) {delta : UInt32} {probes i : ℕ}
    (hi : i ∈ probeBits bitCount delta probes hash) : i < bitCount := by
  induction probes generalizing hash with
  | zero => simp [probeBits] at hi
  | succ probes ih =>
    rcases List.mem_cons.mp hi with rfl | hi
    · exact Nat.mod_lt _ h
    · exact ih hi

theorem bloomByteCount_pos (count : ℕ) : 8 ≤ bloomByteCount count := by
  unfold bloomByteCount
  omega

theorem setHashes_cons (byteCount : ℕ) (hash : UInt32) (hashes : List UInt32) (encoded : Bytes) :
    setHashes byteCount (hash :: hashes) encoded = setHashes byteCount hashes
      (BitArray.setAll encoded
      (probeBits (byteCount * 8) (rotatedDelta hash) bloomProbes.toNat hash)) := rfl

theorem length_setHashes (byteCount : ℕ) (hashes : List UInt32) (encoded : Bytes) :
    (setHashes byteCount hashes encoded).length = encoded.length := by
  induction hashes generalizing encoded with
  | nil => rfl
  | cons hash hashes ih => rw [setHashes_cons, ih, BitArray.length_setAll]

theorem length_buildFilter (hashes : List UInt32) :
    (buildFilter hashes).length = bloomByteCount hashes.length + 1 := by
  rw [buildFilter, length_setHashes]
  simp

/-- The number of probes stays in the last byte. -/
theorem getElem?_setHashes (h : 0 < byteCount) (hashes : List UInt32)
    (encoded : Bytes) : (setHashes byteCount hashes encoded)[byteCount]? = encoded[byteCount]? := by
  induction hashes generalizing encoded with
  | nil => rfl
  | cons hash hashes ih =>
    rw [setHashes_cons, ih]
    apply BitArray.getElem?_setAll_of_ne
    intro i hi
    have := probeBits_lt (by omega) hi
    omega

theorem testBit_setHashes {i : ℕ} {encoded : Bytes} (h : BitArray.testBit encoded i = true) :
    BitArray.testBit (setHashes byteCount hashes encoded) i = true := by
  induction hashes generalizing encoded with
  | nil => exact h
  | cons hash hashes ih =>
    exact ih (BitArray.testBit_setAll h)

theorem testBit_setHashes_mem {i : ℕ} {encoded : Bytes} (hbyte : 0 < byteCount)
    (hlen : byteCount ≤ encoded.length) (hmem : hash ∈ hashes)
    (hi : i ∈ probeBits (byteCount * 8) (rotatedDelta hash) bloomProbes.toNat hash) :
    BitArray.testBit (setHashes byteCount hashes encoded) i = true := by
  induction hashes generalizing encoded with
  | nil => simp at hmem
  | cons first hashes ih =>
    rw [setHashes_cons]
    rcases List.mem_cons.mp hmem with rfl | hmem
    · have := probeBits_lt (by omega) hi
      exact testBit_setHashes (BitArray.testBit_setAll_mem hi (by omega))
    · exact ih (by rwa [BitArray.length_setAll]) hmem

/-- A key that was added may be contained. -/
theorem mayContain_buildFilter {keys : List Bytes} {key : Bytes} (h : key ∈ keys) :
    bloomFilterMayContain key (buildFilter (keys.map bloomHash)) = true := by
  have hcount := bloomByteCount_pos (keys.map bloomHash).length
  have hlen := length_buildFilter (keys.map bloomHash)
  have hlast : (buildFilter (keys.map bloomHash)).getD
      (bloomByteCount (keys.map bloomHash).length) 0 = bloomProbes := by
    rw [List.getD_eq_getElem?_getD, buildFilter, getElem?_setHashes (by omega)]
    simp
  unfold bloomFilterMayContain
  rw [hlen, if_neg (by omega), if_neg (by omega)]
  dsimp only
  rw [Nat.add_sub_cancel, hlast, if_neg (by decide), List.all_eq_true]
  intro i hi
  exact testBit_setHashes_mem (by omega) (by simp) (List.mem_map_of_mem h) hi

end

/-! ### The builder -/

/-- The hashes that a builder has collected. -/
structure BloomFilterBuilder where
  hashes : List UInt32

namespace BloomFilterBuilder

def new : BloomFilterBuilder := ⟨[]⟩

def add (b : BloomFilterBuilder) (key : Bytes) : BloomFilterBuilder := ⟨b.hashes ++ [bloomHash key]⟩

def finish (b : BloomFilterBuilder) : Bytes := buildFilter b.hashes

theorem hashes_foldl_add (b : BloomFilterBuilder) (keys : List Bytes) :
    (keys.foldl add b).hashes = b.hashes ++ keys.map bloomHash := by
  induction keys generalizing b with
  | nil => simp
  | cons key keys ih => simp [ih, add]

end BloomFilterBuilder

/-! ### The probe stays inside of the filter -/

/-- The loop of `bloomFilterMayContain` with every read checked: `none` where it would divide by
zero or read outside of the filter. -/
def checkedProbes (encodedFilter : Bytes) (bitCount : ℕ) (delta : UInt32) :
    ℕ → UInt32 → Option Bool
  | 0, _ => some true
  | probes + 1, hash => do
    guard (bitCount ≠ 0)
    let bit := hash.toNat % bitCount
    let byte ← encodedFilter[bit / 8]?
    if byte &&& BitArray.mask bit = 0 then some false
    else checkedProbes encodedFilter bitCount delta probes (hash + delta)

/-- `bloomFilterMayContain` with every read checked. -/
def checkedMayContain (key encodedFilter : Bytes) : Option Bool :=
  if encodedFilter.length = 0 then some true
  else if encodedFilter.length = 1 then some true
  else do
    let byteCount := encodedFilter.length - 1
    let probes ← encodedFilter[byteCount]?
    if probes = 0 ∨ probes > 30 then some true
    else
      let hash := bloomHash key
      checkedProbes encodedFilter (byteCount * 8) (rotatedDelta hash) probes.toNat hash

/-- An encoding that the builder produces no filter in: no bits, or a number of probes that is not
in use. -/
def Unrecognised (encodedFilter : Bytes) : Prop :=
  encodedFilter.length ≤ 1 ∨ ∀ probes ∈ encodedFilter.getLast?, probes = 0 ∨ 30 < probes

variable {encodedFilter : Bytes}

theorem checkedProbes_eq (hpos : 0 < byteCount)
    (hlen : byteCount ≤ encodedFilter.length) (delta : UInt32) (probes : ℕ) (hash : UInt32) :
    checkedProbes encodedFilter (byteCount * 8) delta probes hash =
      some ((probeBits (byteCount * 8) delta probes hash).all
        (BitArray.testBit encodedFilter)) := by
  induction probes generalizing hash with
  | zero => rfl
  | succ probes ih =>
    have hbit : hash.toNat % (byteCount * 8) < byteCount * 8 := Nat.mod_lt _ (by omega)
    have hbyte : hash.toNat % (byteCount * 8) / 8 < encodedFilter.length := by omega
    have hne : byteCount * 8 ≠ 0 := by omega
    rw [checkedProbes, ih, probeBits, List.all_cons, BitArray.testBit, List.getD_eq_getElem?_getD]
    simp only [guard, hne, ne_eq, not_false_eq_true, if_true, pure, bind, Option.bind,
      List.getElem?_eq_getElem hbyte, Option.getD_some]
    split_ifs with hzero
    · simp [hzero]
    · simp [hzero]

theorem checkedMayContain_eq (key encodedFilter : Bytes) :
    checkedMayContain key encodedFilter = some (bloomFilterMayContain key encodedFilter) := by
  unfold checkedMayContain bloomFilterMayContain
  by_cases h0 : encodedFilter.length = 0
  · rw [if_pos h0, if_pos h0]
  by_cases h1 : encodedFilter.length = 1
  · rw [if_neg h0, if_neg h0, if_pos h1, if_pos h1]
  have hlast : encodedFilter.length - 1 < encodedFilter.length := by omega
  simp only [List.getD_eq_getElem?_getD, List.getElem?_eq_getElem hlast, bind, Option.bind,
    Option.getD_some]
  split_ifs with hprobes
  · rfl
  · exact checkedProbes_eq (by omega) (by omega) _ _ _

theorem mayContain_of_unrecognised (h : Unrecognised encodedFilter)
    (key : Bytes) : bloomFilterMayContain key encodedFilter = true := by
  unfold bloomFilterMayContain
  split_ifs with h0 h1
  · rfl
  · rfl
  · rcases h with hshort | hprobes
    · omega
    · have hlast : encodedFilter.length - 1 < encodedFilter.length := by omega
      have hp := hprobes encodedFilter[encodedFilter.length - 1]
        (by rw [List.getLast?_eq_getElem?, List.getElem?_eq_getElem hlast]; rfl)
      dsimp only
      rw [List.getD_eq_getElem?_getD, List.getElem?_eq_getElem hlast, Option.getD_some, if_pos hp]

/-- No key that was added is reported as missing. The probe of any byte string reads only inside of
it and never divides by zero, and every encoding that is not recognised may contain every key. -/
theorem bloom_filter_sound :
    (∀ (keys : List Bytes) (key : Bytes), key ∈ keys →
      bloomFilterMayContain key (keys.foldl BloomFilterBuilder.add .new).finish = true) ∧
    (∀ key encodedFilter,
      checkedMayContain key encodedFilter = some (bloomFilterMayContain key encodedFilter)) ∧
    (∀ key encodedFilter, Unrecognised encodedFilter →
      checkedMayContain key encodedFilter = some true) := by
  refine ⟨?_, checkedMayContain_eq, ?_⟩
  · intro keys key hmem
    rw [BloomFilterBuilder.finish, BloomFilterBuilder.hashes_foldl_add]
    exact mayContain_buildFilter hmem
  · intro key encodedFilter h
    rw [checkedMayContain_eq, mayContain_of_unrecognised h]

theorem bloom_filter_sound_small :
    bloomFilterMayContain [98]
        ([[97], [98], []].foldl BloomFilterBuilder.add .new).finish = true ∧
      checkedMayContain [98] [255, 31] = some true := by
  obtain ⟨hadded, -, hunknown⟩ := bloom_filter_sound
  exact ⟨hadded _ _ (by decide), hunknown _ _ (.inr (by decide +kernel))⟩

end Mizu.Lsm
