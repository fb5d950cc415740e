import Mizu.Lsm.Block

/-!
# Reading a block back

An iterator over a block with a known layout: at an entry it can be moved on to the next, and
`seek` finds the first entry that is not before its target, from every position.
-/

namespace Mizu.Lsm

/-! ### Reads at known positions -/

theorem load32_append {v : ℕ} (hv : v < 2 ^ 32) (front rest : Bytes) :
    load32 (front ++ (putFixed32 v ++ rest)) front.length = some v := by
  have htake : ((front ++ (putFixed32 v ++ rest)).drop front.length).take 4 = putFixed32 v := by
    rw [List.drop_left]
    exact List.take_left' (by simp)
  rw [load32, if_pos (by simp), htake]
  exact congrArg some (LittleEndian.decode_encode (by simpa using hv))

theorem loadBytes_append (front bytes rest : Bytes) :
    loadBytes (front ++ (bytes ++ rest)) front.length bytes.length = some bytes := by
  rw [loadBytes, if_pos (by simp), List.drop_left, List.take_left]

section Layout

variable {block : Bytes} {cs : List Chunk} {rs : List ℕ} {i : ℕ} {c : Chunk} {it : BlockIterator}

namespace Layout

/-- The iterator is over this block and has not failed. -/
structure On (h : Layout block cs rs) (it : BlockIterator) : Prop where
  block : it.block = block
  restartOffset : it.restartOffset = offset cs cs.length
  restartCount : it.restartCount = rs.length
  status : it.status = none

/-- The iterator is at an entry. -/
structure At (h : Layout block cs rs) (it : BlockIterator) (i : ℕ) (c : Chunk) : Prop
    extends h.On it where
  entry : cs[i]? = some c
  valid : it.valid = true
  key : it.key = c.key
  value : it.value = c.entry.value
  nextOffset : it.nextOffset = offset cs (i + 1)

/-- The block around an entry. -/
theorem split (h : Layout block cs rs) (hc : cs[i]? = some c) :
    ∃ front rest, front.length = offset cs i ∧ block = front ++ (c.encode ++ rest) := by
  refine ⟨(cs.take i).flatMap Chunk.encode, (cs.drop (i + 1)).flatMap Chunk.encode ++
    (rs.flatMap (fun i => putFixed32 (offset cs i)) ++ putFixed32 rs.length), rfl, ?_⟩
  have hcs : cs = cs.take i ++ c :: cs.drop (i + 1) := by
    conv_lhs => rw [← List.take_append_drop i cs]
    obtain ⟨hi, rfl⟩ := List.getElem?_eq_some_iff.mp hc
    rw [List.drop_eq_getElem_cons hi]
  conv_lhs => rw [h.bytes]
  have hflat : cs.flatMap Chunk.encode = (cs.take i).flatMap Chunk.encode ++
      (c.encode ++ (cs.drop (i + 1)).flatMap Chunk.encode) := by
    conv_lhs => rw [hcs, List.flatMap_append, List.flatMap_cons]
  rw [hflat]
  simp only [List.append_assoc]

theorem offset_le (_ : Layout block cs rs) (i : ℕ) : offset cs i ≤ offset cs cs.length := by
  rcases Nat.le_total i cs.length with hi | hi
  · exact offset_mono cs hi
  · rw [offset, offset, List.take_of_length_le hi, List.take_length]

theorem length_eq (h : Layout block cs rs) :
    block.length = offset cs cs.length + (rs.length * 4 + 4) := by
  conv_lhs => rw [h.bytes]
  rw [List.length_append, List.length_append, length_flatMap_putFixed32, length_putFixed32,
    offset_length]

/-- The fields of an entry at their positions. -/
structure Fields (block : Bytes) (pos : ℕ) (c : Chunk) : Prop where
  shared : load32 block pos = some c.shared
  unshared : load32 block (pos + 4) = some (c.key.length - c.shared)
  valueSize : load32 block (pos + 8) = some c.entry.value.length
  suffix : loadBytes block (pos + 12) (c.key.length - c.shared) = some (c.key.drop c.shared)
  value : (block.drop (pos + 12 + (c.key.length - c.shared))).take c.entry.value.length =
    c.entry.value

section

variable (h : Layout block cs rs) (hc : cs[i]? = some c)

include h hc

theorem shared_le : c.shared ≤ c.key.length := by
  obtain ⟨hle, htake⟩ := h.shared i c hc
  have := congrArg List.length htake
  simp at this
  omega

theorem encode_le :
    offset cs i + (12 + (c.key.length - c.shared) + c.entry.value.length) ≤
      offset cs cs.length := by
  have hle := h.offset_le (i + 1)
  rw [offset_succ hc, Chunk.encode, length_encodeEntry] at hle
  exact hle

theorem fields :
    Fields block (offset cs i) c := by
  obtain ⟨front, rest, hfront, hblock⟩ := h.split hc
  have hlen := h.length_eq
  have hsize := h.size
  have hle := h.encode_le hc
  have hkey := h.keySize c (List.mem_of_getElem? hc)
  have hshared := h.shared_le hc
  constructor
  · have := load32_append (by omega : c.shared < 2 ^ 32) front
      (putFixed32 (c.key.length - c.shared) ++ (putFixed32 c.entry.value.length ++
        (c.key.drop c.shared ++ c.entry.value)) ++ rest)
    rw [hblock, ← hfront, ← this]
    simp [Chunk.encode, encodeEntry]
  · have := load32_append (by omega : c.key.length - c.shared < 2 ^ 32)
      (front ++ putFixed32 c.shared) (putFixed32 c.entry.value.length ++
        (c.key.drop c.shared ++ c.entry.value) ++ rest)
    rw [hblock, ← hfront, ← this]
    simp [Chunk.encode, encodeEntry]
  · have := load32_append (by omega : c.entry.value.length < 2 ^ 32)
      (front ++ (putFixed32 c.shared ++ putFixed32 (c.key.length - c.shared)))
      ((c.key.drop c.shared ++ c.entry.value) ++ rest)
    rw [hblock, ← hfront, ← this]
    simp [Chunk.encode, encodeEntry]
  · have := loadBytes_append (front ++ (putFixed32 c.shared ++
      (putFixed32 (c.key.length - c.shared) ++ putFixed32 c.entry.value.length)))
      (c.key.drop c.shared) (c.entry.value ++ rest)
    rw [hblock, ← hfront, ← this]
    simp [Chunk.encode, encodeEntry]
  · have hsplit : block = (front ++ (putFixed32 c.shared ++ (putFixed32 (c.key.length - c.shared) ++
        (putFixed32 c.entry.value.length ++ c.key.drop c.shared)))) ++ (c.entry.value ++ rest) := by
      rw [hblock]
      simp [Chunk.encode, encodeEntry]
    rw [hsplit, List.drop_left' (by simp; omega), List.take_left]

theorem parse_key :
    parseInternalKey c.key = some c.entry.key :=
  parseInternalKey_encode (h.sequence c (List.mem_of_getElem? hc))

end

section

variable (h : Layout block cs rs)

include h

/-- Decoding an entry, with the part of its key that it leaves out at hand. -/
theorem decodeEntry (hon : h.On it) (hc : cs[i]? = some c)
    (hshared : c.shared ≤ it.key.length) (hkey : it.key.take c.shared = c.key.take c.shared) :
    ∃ it', it.decodeEntry (offset cs i) = some (it', true) ∧ h.At it' i c := by
  have hf := h.fields hc
  have hle := h.encode_le hc
  have hnext : offset cs (i + 1) =
      offset cs i + 12 + (c.key.length - c.shared) + c.entry.value.length := by
    rw [offset_succ hc, Chunk.encode, length_encodeEntry]
    omega
  have hfull : it.key.take c.shared ++ c.key.drop c.shared = c.key := by
    rw [hkey, List.take_append_drop]
  refine ⟨it.atEntry c.key (offset cs i + 12 + (c.key.length - c.shared)) c.entry.value.length,
    ?_, ⟨hon.block, hon.restartOffset, hon.restartCount, hon.status⟩, hc, rfl, rfl, ?_, hnext.symm⟩
  · unfold BlockIterator.decodeEntry
    rw [hon.restartOffset, if_neg (by omega), if_neg (by omega), hon.block, hf.shared, hf.unshared,
      hf.valueSize]
    simp only [Option.bind_eq_bind, Option.bind_some]
    rw [if_neg (by omega), hf.suffix, Option.bind_some, hfull, if_neg (by omega),
      if_neg (by rw [h.parse_key hc]; simp), BlockIterator.atEntry, hon.block, hon.restartOffset]
  · dsimp only [BlockIterator.value, BlockIterator.atEntry]
    rw [hon.block]
    exact hf.value

/-! ### Restart points -/

theorem restartAt (hon : h.On it) {j r : ℕ} (hr : rs[j]? = some r) :
    it.restartAt j = some (offset cs r) := by
  obtain ⟨hj, rfl⟩ := List.getElem?_eq_some_iff.mp hr
  have hrs : rs = rs.take j ++ rs[j] :: rs.drop (j + 1) := by
    rw [← List.drop_eq_getElem_cons hj, List.take_append_drop]
  have hsplit : block = (cs.flatMap Chunk.encode ++
      (rs.take j).flatMap fun i => putFixed32 (offset cs i)) ++
      (putFixed32 (offset cs rs[j]) ++ ((rs.drop (j + 1)).flatMap
        (fun i => putFixed32 (offset cs i)) ++ putFixed32 rs.length)) := by
    have hflat : rs.flatMap (fun i => putFixed32 (offset cs i)) =
        (rs.take j).flatMap (fun i => putFixed32 (offset cs i)) ++
          (putFixed32 (offset cs rs[j]) ++
            (rs.drop (j + 1)).flatMap fun i => putFixed32 (offset cs i)) := by
      conv_lhs => rw [hrs, List.flatMap_append, List.flatMap_cons]
    conv_lhs => rw [h.bytes, hflat]
    simp only [List.append_assoc]
  have hlt : offset cs rs[j] < 2 ^ 32 := by
    have := h.offset_le rs[j]
    have := h.length_eq
    have := h.size
    omega
  have hload := load32_append hlt (cs.flatMap Chunk.encode ++
    (rs.take j).flatMap fun i => putFixed32 (offset cs i))
    ((rs.drop (j + 1)).flatMap (fun i => putFixed32 (offset cs i)) ++ putFixed32 rs.length)
  rw [← hsplit, List.length_append, length_flatMap_putFixed32, List.length_take,
    Nat.min_eq_left hj.le, ← offset_length] at hload
  rw [BlockIterator.restartAt, hon.restartCount, if_pos hj, hon.block, hon.restartOffset]
  exact hload

/-- The entry of a restart point. -/
theorem exists_restart (hcs : cs ≠ []) {j : ℕ} (hj : j < rs.length) :
    ∃ r c, rs[j]? = some r ∧ cs[r]? = some c ∧ c.shared = 0 := by
  have hr : rs[j]? = some rs[j] := List.getElem?_eq_getElem hj
  have hinside := h.inside _ (List.mem_of_getElem? hr)
  have hlen : 0 < cs.length := List.length_pos_of_ne_nil hcs
  have hc : cs[rs[j]]? = some cs[rs[j]] := List.getElem?_eq_getElem (by omega)
  exact ⟨_, _, hr, hc, h.restart _ (List.mem_of_getElem? hr) _ hc⟩

theorem readRestartKey (hon : h.On it) {j r : ℕ} (hr : rs[j]? = some r)
    (hc : cs[r]? = some c) (hzero : c.shared = 0) :
    it.readRestartKey j = some (it, some c.key) := by
  have hf := h.fields hc
  have hle := h.encode_le hc
  have hsuffix := hf.suffix
  rw [hzero, List.drop_zero] at hsuffix
  unfold BlockIterator.readRestartKey
  simp only [h.restartAt hon hr, Option.bind_eq_bind, Option.bind_some]
  rw [hon.restartOffset, if_neg (by omega), if_neg (by omega), hon.block, hf.shared, hf.unshared,
    hf.valueSize, hzero]
  simp only [Option.bind_some]
  rw [if_neg (by omega), hsuffix, Option.bind_some, if_neg (by omega),
    if_neg (by rw [h.parse_key hc]; simp)]

theorem entry_lt {j : ℕ} {a b : Chunk} (ha : cs[i]? = some a)
    (hb : cs[j]? = some b) (hij : i < j) : a.entry.key < b.entry.key := by
  obtain ⟨hi, rfl⟩ := List.getElem?_eq_some_iff.mp ha
  obtain ⟨hj, rfl⟩ := List.getElem?_eq_some_iff.mp hb
  exact List.pairwise_iff_getElem.mp h.ascending i j hi hj hij

theorem restart_lt {j j' r r' : ℕ} {a b : Chunk} (hr : rs[j]? = some r)
    (hr' : rs[j']? = some r') (hjj : j < j') (ha : cs[r]? = some a) (hb : cs[r']? = some b) :
    a.entry.key < b.entry.key := by
  obtain ⟨hj, rfl⟩ := List.getElem?_eq_some_iff.mp hr
  obtain ⟨hj', rfl⟩ := List.getElem?_eq_some_iff.mp hr'
  exact h.entry_lt ha hb (List.pairwise_iff_getElem.mp h.increasing j j' hj hj' hjj)

end

/-- The restart keys that are not behind the target come first. -/
structure Found (h : Layout block cs rs) (t : InternalKey) (left : ℕ) : Prop where
  le : left ≤ rs.length
  before : ∀ j < left, ∀ r c, rs[j]? = some r → cs[r]? = some c → c.entry.key ≤ t

theorem searchRestarts (h : Layout block cs rs) (hon : h.On it) (hcs : cs ≠ []) {target : Bytes}
    {t : InternalKey} (ht : parseInternalKey target = some t) {fuel left right : ℕ}
    (hfuel : right - left ≤ fuel) (hle : left ≤ right) (hright : right ≤ rs.length)
    (hbefore : ∀ j < left, ∀ r c, rs[j]? = some r → cs[r]? = some c → c.entry.key ≤ t) :
    ∃ result, it.searchRestarts target fuel left right = some (it, some result) ∧
      h.Found t result := by
  induction fuel generalizing left right with
  | zero =>
    have hnot : ¬left < right := by omega
    exact ⟨left, by rw [BlockIterator.searchRestarts, if_neg hnot], by omega, hbefore⟩
  | succ fuel ih =>
    unfold BlockIterator.searchRestarts
    by_cases hlt : left < right
    · obtain ⟨r, c, hr, hc, hzero⟩ := h.exists_restart hcs
        (by omega : left + (right - left) / 2 < rs.length)
      simp only [if_pos hlt, h.readRestartKey hon hr hc hzero, Option.bind_eq_bind,
        Option.bind_some, internalKeyLess_eq ht (h.parse_key hc)]
      by_cases hless : t < c.entry.key
      · rw [if_neg (by simpa using hless)]
        exact ih (by omega) (by omega) (by omega) hbefore
      · rw [if_pos (by simpa using hless)]
        refine ih (by omega) (by omega) hright ?_
        -- restart keys are in order, so those before the middle are not behind the target either
        intro j hj r' c' hr' hc'
        rcases Nat.lt_or_ge j left with hjl | hjl
        · exact hbefore j hjl r' c' hr' hc'
        · rcases (Nat.lt_succ_iff.mp hj).eq_or_lt with rfl | hjm
          · rw [hr, Option.some_inj] at hr'
            subst hr'
            rw [hc, Option.some_inj] at hc'
            exact hc' ▸ not_lt.mp hless
          · exact (h.restart_lt hr' hr hjm hc' hc).le.trans (not_lt.mp hless)
    · rw [if_neg hlt]
      exact ⟨left, rfl, by omega, hbefore⟩

/-! ### Calls -/

/-- Where `seek` stops: at the first entry that is not before the target, or invalid. -/
inductive Stopped (h : Layout block cs rs) (t : InternalKey) (it : BlockIterator) : Prop
  | entry {i : ℕ} {c : Chunk} (hat : h.At it i c) (hle : t ≤ c.entry.key)
      (hbefore : ∀ j < i, ∀ a, cs[j]? = some a → a.entry.key < t)
  | done (hon : h.On it) (hinvalid : it.valid = false) (hall : ∀ a ∈ cs, a.entry.key < t)

theorem On.invalidate {h : Layout block cs rs} (hon : h.On it) : h.On it.invalidate :=
  ⟨hon.block, hon.restartOffset, hon.restartCount, hon.status⟩

theorem length_le_offset (cs : List Chunk) : cs.length ≤ offset cs cs.length := by
  rw [offset_length]
  induction cs with
  | nil => exact le_rfl
  | cons c cs ih =>
    rw [List.flatMap_cons, List.length_append, List.length_cons, Chunk.encode, length_encodeEntry]
    omega

/-- A step from an entry leads to the next one, and from the last one to the end. -/
theorem At.next {h : Layout block cs rs} (hat : h.At it i c) :
    ∃ it', it.next = some it' ∧
      ((∃ c', h.At it' (i + 1) c') ∨
        (i + 1 = cs.length ∧ h.On it' ∧ it'.valid = false)) := by
  have hi : i < cs.length := (List.getElem?_eq_some_iff.mp hat.entry).1
  unfold BlockIterator.next
  rw [if_neg (by simp [hat.valid]), hat.nextOffset, hat.restartOffset]
  rcases Nat.lt_or_ge (i + 1) cs.length with hlt | hge
  · obtain ⟨c', hc'⟩ : ∃ c', cs[i + 1]? = some c' := ⟨_, List.getElem?_eq_getElem hlt⟩
    have hne : offset cs (i + 1) ≠ offset cs cs.length := by
      have := h.encode_le hc'
      omega
    obtain ⟨hshared, htake⟩ := h.shared (i + 1) c' hc'
    have hkey : keyBefore cs (i + 1) = it.key := by
      rw [keyBefore, hat.entry, hat.key]
      rfl
    rw [hkey] at hshared htake
    obtain ⟨it', hdecode, hat'⟩ := h.decodeEntry hat.toOn hc' hshared htake
    rw [if_neg hne, hdecode]
    exact ⟨it', rfl, .inl ⟨c', hat'⟩⟩
  · obtain heq : i + 1 = cs.length := by omega
    rw [heq, if_pos rfl]
    exact ⟨_, rfl, .inr ⟨rfl, hat.toOn.invalidate, rfl⟩⟩

section

variable (h : Layout block cs rs)

include h

/-- The loop of `seek`, from an entry that has only earlier entries before it. -/
theorem advance {target : Bytes} {t : InternalKey}
    (ht : parseInternalKey target = some t) (hat : h.At it i c) {fuel : ℕ}
    (hfuel : cs.length ≤ i + fuel) (hbefore : ∀ j < i, ∀ a, cs[j]? = some a → a.entry.key < t) :
    ∃ it', BlockIterator.advance target fuel it = some it' ∧ h.Stopped t it' := by
  induction fuel generalizing it i c with
  | zero =>
    have := (List.getElem?_eq_some_iff.mp hat.entry).1
    omega
  | succ fuel ih =>
    have hless : internalKeyLess it.key target = some (decide (c.entry.key < t)) := by
      rw [hat.key]
      exact internalKeyLess_eq (h.parse_key hat.entry) ht
    unfold BlockIterator.advance
    simp only [if_pos hat.valid, hless, Option.bind_eq_bind, Option.bind_some]
    by_cases hlt : c.entry.key < t
    · rw [if_pos (by simpa using hlt)]
      have hbefore' : ∀ j < i + 1, ∀ a, cs[j]? = some a → a.entry.key < t := by
        intro j hj a ha
        rcases (Nat.lt_succ_iff.mp hj).eq_or_lt with rfl | hji
        · rw [hat.entry, Option.some_inj] at ha
          exact ha ▸ hlt
        · exact hbefore j hji a ha
      obtain ⟨it', hnext, ⟨c', hat'⟩ | ⟨hend, hon, hinvalid⟩⟩ := hat.next
      · rw [hnext, Option.bind_some]
        exact ih hat' (by omega) hbefore'
      · rw [hnext, Option.bind_some]
        refine ⟨it', ?_, .done hon hinvalid ?_⟩
        · cases fuel <;> simp [BlockIterator.advance, hinvalid]
        · intro a ha
          obtain ⟨j, hj, rfl⟩ := List.mem_iff_getElem.mp ha
          exact hbefore' j (by omega) _ (List.getElem?_eq_getElem hj)
    · rw [if_neg (by simpa using hlt)]
      exact ⟨it, rfl, .entry hat (not_lt.mp hlt) hbefore⟩

theorem count_pos : 0 < rs.length := by
  cases rs with
  | nil => simpa using h.first
  | cons r rs => exact Nat.succ_pos _

/-- `seek` from any position. -/
theorem seek (hon : h.On it) {target : Bytes} {t : InternalKey}
    (ht : parseInternalKey target = some t) :
    ∃ it', it.seek target = some it' ∧ h.Stopped t it' := by
  unfold BlockIterator.seek
  rw [if_neg (by simp [hon.status]), if_neg (by simp [ht])]
  by_cases hcs : cs = []
  · have hzero : it.invalidate.restartOffset = 0 := by
      rw [hon.invalidate.restartOffset, hcs]
      rfl
    rw [if_pos hzero]
    exact ⟨_, rfl, .done hon.invalidate rfl (by simp [hcs])⟩
  · have hpos : 0 < cs.length := List.length_pos_of_ne_nil hcs
    have hne : it.invalidate.restartOffset ≠ 0 := by
      rw [hon.invalidate.restartOffset]
      have := length_le_offset cs
      omega
    rw [if_neg hne, hon.invalidate.restartCount]
    obtain ⟨left, hsearch, hfound⟩ := h.searchRestarts hon.invalidate hcs ht (Nat.sub_le _ 0)
      (Nat.zero_le _) le_rfl (fun j hj => absurd hj (Nat.not_lt_zero j))
    have hcount := h.count_pos
    have hle := hfound.le
    obtain ⟨r, c, hr, hc, hzero⟩ := h.exists_restart hcs
      (by split_ifs <;> omega : (if left = 0 then 0 else left - 1) < rs.length)
    have hclear : ({ it.invalidate with key := [] } : BlockIterator) = it.invalidate := rfl
    obtain ⟨it', hdecode, hat⟩ := h.decodeEntry hon.invalidate hc (by simp [hzero])
      (by simp [hzero])
    have hbefore : ∀ j < r, ∀ a, cs[j]? = some a → a.entry.key < t := by
      intro j hj a ha
      by_cases hleft : left = 0
      · rw [if_pos hleft, ← List.head?_eq_getElem?, h.first, Option.some_inj] at hr
        omega
      · rw [if_neg hleft] at hr
        exact (h.entry_lt ha hc hj).trans_le
          (hfound.before (left - 1) (by omega) r c hr hc)
    obtain ⟨it'', hadvance, hstopped⟩ := h.advance ht hat
      (by
        rw [hat.block, h.length_eq]
        have := length_le_offset cs
        omega : cs.length ≤ r + it'.block.length) hbefore
    rw [hsearch]
    simp only [Option.bind_eq_bind, Option.bind_some, h.restartAt hon.invalidate hr, hclear,
      hdecode]
    exact ⟨it'', hadvance, hstopped⟩

theorem seekToFirst (hon : h.On it) :
    ∃ it', it.seekToFirst = some it' ∧
      ((∃ c, h.At it' 0 c) ∨ (cs = [] ∧ h.On it' ∧ it'.valid = false)) := by
  unfold BlockIterator.seekToFirst
  rw [if_neg (by simp [hon.status]), hon.invalidate.restartOffset]
  cases cs with
  | nil => exact ⟨_, if_pos rfl, .inr ⟨rfl, hon.invalidate, rfl⟩⟩
  | cons c cs =>
    have hc : (c :: cs)[0]? = some c := rfl
    have hne : offset (c :: cs) (c :: cs).length ≠ 0 := by
      have := length_le_offset (c :: cs)
      have hlen : 0 < (c :: cs).length := Nat.succ_pos _
      omega
    obtain ⟨hshared, htake⟩ := h.shared 0 c hc
    obtain ⟨it', hdecode, hat⟩ := h.decodeEntry hon.invalidate hc hshared htake
    have hoffset : offset (c :: cs) 0 = 0 := rfl
    rw [hoffset] at hdecode
    rw [if_neg hne, hdecode]
    exact ⟨it', rfl, .inl ⟨c, hat⟩⟩

/-- The constructor. -/
theorem new :
    ∃ it, BlockIterator.new block = some it ∧ h.On it ∧ it.valid = false := by
  have hlen := h.length_eq
  have hsize := h.size
  have hcount := h.count_pos
  have hload : load32 block (block.length - 4) = some rs.length := by
    have := load32_append (by omega : rs.length < 2 ^ 32)
      (cs.flatMap Chunk.encode ++ rs.flatMap fun i => putFixed32 (offset cs i)) []
    rw [List.append_nil, List.append_assoc, ← h.bytes, List.length_append,
      length_flatMap_putFixed32, ← offset_length] at this
    rw [hlen, ← this]
    congr 1
  have hon : h.On ⟨block, block.length - 4 - rs.length * 4, rs.length, 0, [], 0, 0, false,
      none⟩ := by
    refine ⟨rfl, ?_, rfl, rfl⟩
    dsimp only
    omega
  have hfirst : rs[0]? = some 0 := by
    rw [← List.head?_eq_getElem?]
    exact h.first
  have hrestart := h.restartAt hon hfirst
  refine ⟨_, ?_, hon, rfl⟩
  unfold BlockIterator.new
  simp only [if_neg (by omega : ¬block.length < 4), hload, Option.bind_eq_bind, Option.bind_some]
  rw [if_neg (by omega), if_neg (by omega), hrestart]
  rfl

end

/-- The iterator is over this block, at an entry if it is valid. -/
def Placed (h : Layout block cs rs) (it : BlockIterator) : Prop :=
  h.On it ∧ (it.valid = true → ∃ i c, h.At it i c)

theorem Placed.of_invalid {h : Layout block cs rs} (hon : h.On it) (hv : it.valid = false) :
    h.Placed it := ⟨hon, fun hvalid => by simp [hv] at hvalid⟩

theorem Placed.of_at {h : Layout block cs rs} (hat : h.At it i c) : h.Placed it :=
  ⟨hat.toOn, fun _ => ⟨i, c, hat⟩⟩

theorem placed (h : Layout block cs rs) (hrun : BlockRun block it) : h.Placed it := by
  induction hrun with
  | new hnew =>
    obtain ⟨it, hit, hon, hv⟩ := h.new
    rw [hnew, Option.some_inj] at hit
    exact hit ▸ .of_invalid hon hv
  | @call it it' call hrun hc hcall ih =>
    cases call with
    | seekToFirst =>
      obtain ⟨it₁, hit, ⟨c, hat⟩ | ⟨-, hon, hv⟩⟩ := h.seekToFirst ih.1
      · rw [BlockCall.run, hit, Option.some_inj] at hcall
        exact hcall ▸ .of_at hat
      · rw [BlockCall.run, hit, Option.some_inj] at hcall
        exact hcall ▸ .of_invalid hon hv
    | seek target =>
      obtain ⟨t, ht⟩ := Option.ne_none_iff_exists'.mp hc
      obtain ⟨it₁, hit, hstopped⟩ := h.seek ih.1 ht
      rw [BlockCall.run, hit, Option.some_inj] at hcall
      cases hstopped with
      | entry hat _ _ => exact hcall ▸ .of_at hat
      | done hon hv _ => exact hcall ▸ .of_invalid hon hv
    | next =>
      obtain ⟨i, c, hat⟩ := ih.2 hc
      obtain ⟨it₁, hit, ⟨c', hat'⟩ | ⟨-, hon, hv⟩⟩ := hat.next
      · rw [BlockCall.run, hit, Option.some_inj] at hcall
        exact hcall ▸ .of_at hat'
      · rw [BlockCall.run, hit, Option.some_inj] at hcall
        exact hcall ▸ .of_invalid hon hv

end Layout

end Layout

/-! ### Enumeration -/

/-- The keys and values that `next` leads over, and the iterator at the end. -/
def BlockIterator.entries : ℕ → BlockIterator → Option (List (Bytes × Bytes) × BlockIterator)
  | 0, it => if it.valid then none else some ([], it)
  | fuel + 1, it =>
    if it.valid then do
      let it' ← it.next
      let (rest, last) ← entries fuel it'
      some ((it.key, it.value) :: rest, last)
    else some ([], it)

/-- An entry as the iterator shows it. -/
def Entry.shown (e : Entry) : Bytes × Bytes := (encodeInternalKey e.key, e.value)

section Entries

variable {block : Bytes} {cs : List Chunk} {rs : List ℕ} {i : ℕ} {c : Chunk} {it : BlockIterator}

theorem BlockIterator.entries_of_invalid (h : it.valid = false) (fuel : ℕ) :
    it.entries fuel = some ([], it) := by
  cases fuel <;> simp [BlockIterator.entries, h]

theorem Layout.At.entries {h : Layout block cs rs} (hat : h.At it i c) {fuel : ℕ}
    (hfuel : cs.length ≤ i + fuel) :
    ∃ last, it.entries fuel = some (((cs.drop i).map Chunk.entry).map Entry.shown, last) ∧
      h.On last ∧ last.valid = false := by
  have hi : i < cs.length := (List.getElem?_eq_some_iff.mp hat.entry).1
  induction fuel generalizing it i c with
  | zero => omega
  | succ fuel ih =>
    obtain ⟨hlt, rfl⟩ := List.getElem?_eq_some_iff.mp hat.entry
    have hdrop : cs.drop i = cs[i] :: cs.drop (i + 1) := List.drop_eq_getElem_cons hi
    unfold BlockIterator.entries
    obtain ⟨it', hnext, ⟨c', hat'⟩ | ⟨hend, hon, hv⟩⟩ := hat.next
    · obtain ⟨last, hrest, hon, hv⟩ := ih hat' (by omega)
        (List.getElem?_eq_some_iff.mp hat'.entry).1
      refine ⟨last, ?_, hon, hv⟩
      simp only [if_pos hat.valid, hnext, hrest, Option.bind_eq_bind, Option.bind_some, hdrop,
        List.map_cons, hat.key, hat.value]
      rfl
    · refine ⟨it', ?_, hon, hv⟩
      have hnil : cs.drop (i + 1) = [] := List.drop_eq_nil_of_le (by omega)
      simp only [if_pos hat.valid, hnext, BlockIterator.entries_of_invalid hv, Option.bind_eq_bind,
        Option.bind_some, hdrop, hnil, List.map_cons, List.map_nil, hat.key, hat.value]
      rfl

/-- Where `seek` stops is where the run of the entries is sought. -/
theorem Layout.Stopped.seek_eq {h : Layout block cs rs} {t : InternalKey} (hs : h.Stopped t it) :
    match Lsm.seek (cs.map Chunk.entry) t with
    | some e => it.valid = true ∧ (it.key, it.value) = e.shown
    | none => it.valid = false := by
  cases hs with
  | @entry i c hat hle hbefore =>
    have hseek : Lsm.seek (cs.map Chunk.entry) t = some c.entry := by
      rw [Lsm.seek, List.find?_eq_some_iff_getElem]
      obtain ⟨hi, hentry⟩ := List.getElem?_eq_some_iff.mp hat.entry
      refine ⟨by simpa using hle, i, by simpa using hi, by simp [hentry], ?_⟩
      intro j hj
      have hlt := hbefore j hj _ (List.getElem?_eq_getElem (by omega))
      simpa using hlt
    rw [hseek]
    exact ⟨hat.valid, by rw [hat.key, hat.value]; rfl⟩
  | done hon hv hall =>
    have hseek : Lsm.seek (cs.map Chunk.entry) t = none := by
      rw [seek_eq_none]
      intro e he
      obtain ⟨a, ha, rfl⟩ := List.mem_map.mp he
      exact hall a ha
    rw [hseek]
    exact hv

theorem Layout.Stopped.on {h : Layout block cs rs} {t : InternalKey} (hs : h.Stopped t it) :
    h.On it := by
  cases hs with
  | entry hat _ _ => exact hat.toOn
  | done hon _ _ => exact hon

end Entries

/-- A block read back: the builder, fresh or reset, writes the same bytes; from every position of
an iterator over them `seekToFirst` and `next` enumerate the entries, and `seek` stops on the first
entry that is not less than its target, or is invalid without an error. -/
theorem block_round_trip {restartInterval : ℕ} (hi : 0 < restartInterval) {es : List Entry}
    (hes : Ascending es) (hseq : ∀ e ∈ es, e.key.sequence ≤ maxSequenceNumber)
    (hsize : (blockBytes restartInterval es).length < 2 ^ 32) :
    BlockBuilder.build { restartInterval := restartInterval } es =
      some (blockBytes restartInterval es) ∧
    (∀ b : BlockBuilder, b.restartInterval = restartInterval →
      b.reset.build es = some (blockBytes restartInterval es)) ∧
    (∃ it, BlockIterator.new (blockBytes restartInterval es) = some it) ∧
    ∀ it, BlockRun (blockBytes restartInterval es) it →
      (∃ it' last, it.seekToFirst = some it' ∧
        it'.entries es.length = some (es.map Entry.shown, last) ∧
        last.valid = false ∧ last.status = none) ∧
      ∀ target t, parseInternalKey target = some t →
        ∃ it', it.seek target = some it' ∧ it'.status = none ∧
          match seek es t with
          | some e => it'.valid = true ∧ (it'.key, it'.value) = e.shown
          | none => it'.valid = false := by
  obtain ⟨cs, rs, h, hmap⟩ := exists_layout hi hes hseq hsize
  have hbuild := build_eq hi hsize
  refine ⟨hbuild, ?_, ?_, ?_⟩
  · rintro b rfl
    exact hbuild
  · obtain ⟨it, hit, -⟩ := h.new
    exact ⟨it, hit⟩
  · intro it hrun
    have hon := (h.placed hrun).1
    have hlength : es.length = cs.length := by rw [← hmap, List.length_map]
    constructor
    · obtain ⟨it', hit', ⟨c, hat⟩ | ⟨hnil, hon', hv⟩⟩ := h.seekToFirst hon
      · obtain ⟨last, hentries, hlast, hv⟩ := hat.entries (by omega : cs.length ≤ 0 + es.length)
        rw [List.drop_zero, hmap] at hentries
        exact ⟨it', last, hit', hentries, hv, hlast.status⟩
      · refine ⟨it', it', hit', ?_, hv, hon'.status⟩
        rw [BlockIterator.entries_of_invalid hv, ← hmap, hnil]
        rfl
    · intro target t ht
      obtain ⟨it', hit', hstopped⟩ := h.seek hon ht
      refine ⟨it', hit', hstopped.on.status, ?_⟩
      rw [← hmap]
      exact hstopped.seek_eq

/-- Two versions of one key and another key, with a restart point at the third. -/
theorem block_round_trip_three :
    Ascending [⟨⟨[97], 2, .deletion⟩, []⟩, ⟨⟨[97], 1, .value⟩, [1]⟩, ⟨⟨[98], 3, .value⟩, [2]⟩] ∧
      ∃ it, BlockIterator.new (blockBytes 2
        [⟨⟨[97], 2, .deletion⟩, []⟩, ⟨⟨[97], 1, .value⟩, [1]⟩, ⟨⟨[98], 3, .value⟩, [2]⟩]) =
          some it :=
  ⟨by decide, (block_round_trip (by decide) (by decide) (by decide) (by decide)).2.2.1⟩

end Mizu.Lsm
