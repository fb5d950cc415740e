import Mizu.Library.LittleEndian
import Mizu.Lsm.Run

/-!
# Fixed-width integers, checksums and encoded internal keys
-/

namespace Mizu.Lsm

/-- A `Status` other than success. -/
inductive Status
  | notFound (message : String)
  | alreadyExists (message : String)
  | invalidArgument (message : String)
  | ioError (message : String)
  | corruption (message : String)
  | notSupported (message : String)
deriving DecidableEq, Repr

def putFixed32 (v : ℕ) : Bytes := LittleEndian.encode 4 v

def putFixed64 (v : ℕ) : Bytes := LittleEndian.encode 8 v

def getFixed32 (input : Bytes) : Option (ℕ × Bytes) :=
  if input.length < 4 then none
  else some (LittleEndian.decode (input.take 4), input.drop 4)

def getFixed64 (input : Bytes) : Option (ℕ × Bytes) :=
  if input.length < 8 then none
  else some (LittleEndian.decode (input.take 8), input.drop 8)

@[simp] theorem length_putFixed32 (v : ℕ) : (putFixed32 v).length = 4 := by simp [putFixed32]

@[simp] theorem length_putFixed64 (v : ℕ) : (putFixed64 v).length = 8 := by simp [putFixed64]

theorem getFixed32_put {v : ℕ} (h : v < 2 ^ 32) (rest : Bytes) :
    getFixed32 (putFixed32 v ++ rest) = some (v, rest) := by
  have hv : LittleEndian.decode (putFixed32 v) = v := LittleEndian.decode_encode (by simpa using h)
  simp [getFixed32, hv]

theorem getFixed64_put {v : ℕ} (h : v < 2 ^ 64) (rest : Bytes) :
    getFixed64 (putFixed64 v ++ rest) = some (v, rest) := by
  have hv : LittleEndian.decode (putFixed64 v) = v := LittleEndian.decode_encode (by simpa using h)
  simp [getFixed64, hv]

/-- `kCrc32cPolynomial`: the Castagnoli polynomial, reflected. -/
def crc32cPolynomial : UInt32 := 0x82f63b78

/-- One bit of the checksum loop. -/
def crc32cBit (crc : UInt32) : UInt32 :=
  if crc &&& 1 ≠ 0 then (crc >>> 1) ^^^ crc32cPolynomial else crc >>> 1

def crc32cByte (crc : UInt32) (b : UInt8) : UInt32 :=
  (List.range 8).foldl (fun crc _ => crc32cBit crc) (crc ^^^ b.toUInt32)

def crc32c (input : Bytes) : ℕ := (~~~(input.foldl crc32cByte 0xffffffff)).toNat

theorem crc32c_lt (input : Bytes) : crc32c input < 2 ^ 32 := UInt32.toNat_lt _

/-- The check value of CRC-32C: the checksum of the digits 1 to 9. -/
example : crc32c [49, 50, 51, 52, 53, 54, 55, 56, 57] = 0xe3069283 := by decide +kernel

/-! ## Internal keys as bytes -/

def encodeInternalKey (k : InternalKey) : Bytes := k.userKey ++ putFixed64 k.tag

/-- The tag is the last eight bytes. -/
def decodeTag (encoded : Bytes) : ℕ := LittleEndian.decode (encoded.drop (encoded.length - 8))

def parseInternalKey (encoded : Bytes) : Option InternalKey :=
  if encoded.length < 8 then none
  else
    let tag := decodeTag encoded
    let userKey := encoded.take (encoded.length - 8)
    if tag % 256 = 0 then some ⟨userKey, tag / 256, .deletion⟩
    else if tag % 256 = 1 then some ⟨userKey, tag / 256, .value⟩
    else none

theorem InternalKey.tag_lt {k : InternalKey} (h : k.sequence ≤ maxSequenceNumber) :
    k.tag < 2 ^ 64 := by
  have := k.type.code_le
  unfold InternalKey.tag
  unfold maxSequenceNumber at h
  omega

theorem parseInternalKey_encode {k : InternalKey} (h : k.sequence ≤ maxSequenceNumber) :
    parseInternalKey (encodeInternalKey k) = some k := by
  have hlen : (encodeInternalKey k).length = k.userKey.length + 8 := by simp [encodeInternalKey]
  have htag : decodeTag (encodeInternalKey k) = k.tag := by
    have hdrop : (encodeInternalKey k).drop k.userKey.length = putFixed64 k.tag := by
      simp [encodeInternalKey]
    rw [decodeTag, hlen, Nat.add_sub_cancel, hdrop]
    exact LittleEndian.decode_encode (by simpa using InternalKey.tag_lt h)
  have huser : (encodeInternalKey k).take k.userKey.length = k.userKey := by
    simp [encodeInternalKey]
  rw [parseInternalKey, hlen, if_neg (by omega), htag, Nat.add_sub_cancel, huser]
  obtain ⟨userKey, sequence, type⟩ := k
  cases type with
  | deletion => simp [InternalKey.tag, ValueType.code]
  | value =>
    have hmod : (sequence * 256 + 1) % 256 = 1 := by omega
    have hdiv : (sequence * 256 + 1) / 256 = sequence := by omega
    simp [InternalKey.tag, ValueType.code, hmod, hdiv]

end Mizu.Lsm
