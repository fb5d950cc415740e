import Mizu.Lsm.Wal

/-!
# Log files, read and written through system calls

`WalReader` of `wal/wal_reader.cc` and `WalWriter` of `wal/wal_writer.cc`. A `read` or `write`
may move fewer bytes than asked for or be interrupted; the loops around it go on until everything
has been moved. A log that is cut anywhere reads as the records before the cut.
-/

namespace Mizu.Lsm

/-- What a system call does: it moves at most `n + 1` bytes, is interrupted, or fails. When no
more is said about the calls, each moves everything it is asked for. -/
inductive IoEvent
  | moves (n : ℕ)
  | interrupted
  | failed
deriving DecidableEq, Repr

/-! ### Reading -/

/-- `WalReader::readUpTo`: the bytes read, those that are left, and the events to come. -/
def readUpTo : List IoEvent → ℕ → Bytes → Except Status (Bytes × Bytes × List IoEvent)
  | [], size, file => .ok (file.take size, file.drop size, [])
  | event :: events, size, file =>
    if size = 0 then .ok ([], file, event :: events)
    else
      match event with
      | .failed => .error (.ioError "read WAL")
      | .interrupted => readUpTo events size file
      | .moves n =>
        let count := min (min (n + 1) size) file.length
        if count = 0 then .ok ([], file, events)
        else
          match readUpTo events (size - count) (file.drop count) with
          | .error e => .error e
          | .ok (bytes, left, events) => .ok (file.take count ++ bytes, left, events)

/-- Short and interrupted reads do not show. -/
theorem readUpTo_eq {events : List IoEvent} (h : .failed ∉ events) (size : ℕ) (file : Bytes) :
    ∃ events', .failed ∉ events' ∧
      readUpTo events size file = .ok (file.take size, file.drop size, events') := by
  induction events generalizing size file with
  | nil => exact ⟨[], h, rfl⟩
  | cons event events ih =>
    have hrest : .failed ∉ events := fun hm => h (List.mem_cons_of_mem _ hm)
    unfold readUpTo
    by_cases hsize : size = 0
    · exact ⟨event :: events, h, by simp [hsize]⟩
    rw [if_neg hsize]
    cases event with
    | failed => exact absurd (List.mem_cons_self ..) h
    | interrupted => exact ih hrest size file
    | moves n =>
      dsimp only
      by_cases hcount : min (min (n + 1) size) file.length = 0
      · obtain rfl : file = [] := by
          rw [← List.length_eq_zero_iff]
          omega
        exact ⟨events, hrest, by simp⟩
      · rw [if_neg hcount]
        obtain ⟨events', hmore, heq⟩ := ih hrest (size - min (min (n + 1) size) file.length)
          (file.drop (min (min (n + 1) size) file.length))
        refine ⟨events', hmore, ?_⟩
        rw [heq]
        generalize hc : min (min (n + 1) size) file.length = count
        have hsplit : size = count + (size - count) := by omega
        conv_rhs => rw [hsplit, List.take_add, ← List.drop_drop]

/-- The reader: the unread part of the file and how much before it was valid. -/
structure WalReader where
  file : Bytes
  validBytes : ℕ := 0
  events : List IoEvent := []

/-- `WalReader::readNext`; no payload is `kEnd`. -/
def WalReader.readNext (r : WalReader) : Except Status (Option Bytes × WalReader) := do
  let (header, file, events) ← readUpTo r.events 8 r.file
  if header.length < 8 then return (none, { r with file := file, events := events })
  match getFixed32 header with
  | none => throw (corruptionAt "invalid WAL record header" r.validBytes)
  | some (payloadLength, header) =>
    match getFixed32 header with
    | none => throw (corruptionAt "invalid WAL record header" r.validBytes)
    | some (expectedChecksum, _) =>
      if payloadLength = 0 then throw (corruptionAt "empty WAL record payload" r.validBytes)
      if payloadLength > maxPayloadSize then
        throw (corruptionAt "WAL record payload exceeds 64 MiB" r.validBytes)
      let (payload, file, events) ← readUpTo events payloadLength file
      if payload.length < payloadLength then
        return (none, { r with file := file, events := events })
      if crc32c payload ≠ expectedChecksum then
        throw (corruptionAt "WAL record checksum mismatch" r.validBytes)
      return (some payload, ⟨file, r.validBytes + (8 + payloadLength), events⟩)

/-- The loop of `recoverWalFile` around the reader: the payloads up to `kEnd` and the number of
valid bytes. -/
def WalReader.readAll : ℕ → WalReader → Option (Except Status (List Bytes × ℕ))
  | 0, _ => none
  | fuel + 1, r =>
    match r.readNext with
    | .error e => some (.error e)
    | .ok (none, r) => some (.ok ([], r.validBytes))
    | .ok (some payload, r) =>
      (r.readAll fuel).map fun rest => rest.map fun x => (payload :: x.1, x.2)

section Reading

variable {r : WalReader} {payload rest tail : Bytes} {payloads : List Bytes} {fuel v : ℕ}
  {events : List IoEvent}

/-- The header of a record, read back. -/
theorem take_header (payload rest : Bytes) : (walRecord payload ++ rest).take 8 =
    putFixed32 payload.length ++ putFixed32 (crc32c payload) := by
  rw [walRecord, ← List.append_assoc, List.append_assoc]
  exact List.take_left' (by simp)

theorem drop_header (payload rest : Bytes) : (walRecord payload ++ rest).drop 8 =
    payload ++ rest := by
  rw [walRecord, ← List.append_assoc, List.append_assoc]
  exact List.drop_left' (by simp)

/-- One complete record. -/
theorem WalReader.readNext_record (h : ValidPayload payload) (hev : .failed ∉ events)
    (rest : Bytes) :
    ∃ events', .failed ∉ events' ∧
      (⟨walRecord payload ++ rest, v, events⟩ : WalReader).readNext =
        .ok (some payload, ⟨rest, v + (walRecord payload).length, events'⟩) := by
  obtain ⟨events₁, hev₁, hheader⟩ := readUpTo_eq hev 8 (walRecord payload ++ rest)
  obtain ⟨events₂, hev₂, hpayload⟩ := readUpTo_eq hev₁ payload.length (payload ++ rest)
  have hmax : maxPayloadSize < 2 ^ 32 := by decide
  have hpos : payload.length ≠ 0 := by
    rw [Ne, List.length_eq_zero_iff]
    exact h.1
  have hsize := h.2
  rw [take_header, drop_header] at hheader
  have hlength := getFixed32_put (by omega : payload.length < 2 ^ 32) (putFixed32 (crc32c payload))
  have hchecksum := getFixed32_put (crc32c_lt payload) []
  rw [List.append_nil] at hchecksum
  refine ⟨events₂, hev₂, ?_⟩
  have hle : ¬payload.length > maxPayloadSize := by omega
  simp [WalReader.readNext, hheader, hlength, hchecksum, hpos, hle, hpayload, bind, Except.bind,
    pure, Except.pure]
  omega

/-- A torn record reads as the end of the log. -/
theorem WalReader.readNext_tail (h : Torn tail) (hev : .failed ∉ events) :
    ∃ r' : WalReader, (⟨tail, v, events⟩ : WalReader).readNext = .ok (none, r') ∧
      r'.validBytes = v := by
  obtain ⟨payload, k, hp, hk, rfl⟩ := h
  obtain ⟨events₁, hev₁, hheader⟩ := readUpTo_eq hev 8 ((walRecord payload).take k)
  rw [length_walRecord] at hk
  by_cases hshort : k < 8
  · refine ⟨⟨((walRecord payload).take k).drop 8, v, events₁⟩, ?_, rfl⟩
    have hlen : (((walRecord payload).take k).take 8).length < 8 := by simp; omega
    simp only [WalReader.readNext, hheader, bind, Except.bind]
    rw [if_pos hlen]
    rfl
  · have hmax : maxPayloadSize < 2 ^ 32 := by decide
    have hpos : payload.length ≠ 0 := by
      rw [Ne, List.length_eq_zero_iff]
      exact hp.1
    have hsize := hp.2
    have htake : ((walRecord payload).take k).take 8 =
        putFixed32 payload.length ++ putFixed32 (crc32c payload) := by
      have := take_header payload []
      rw [List.append_nil] at this
      rw [List.take_take, Nat.min_eq_left (by omega), this]
    rw [htake] at hheader
    obtain ⟨events₂, hev₂, hpayload⟩ := readUpTo_eq hev₁ payload.length
      (((walRecord payload).take k).drop 8)
    have hlength := getFixed32_put (by omega : payload.length < 2 ^ 32)
      (putFixed32 (crc32c payload))
    have hchecksum := getFixed32_put (crc32c_lt payload) []
    rw [List.append_nil] at hchecksum
    have hle : ¬payload.length > maxPayloadSize := by omega
    have hpart : ((((walRecord payload).take k).drop 8).take payload.length).length <
        payload.length := by
      simp
      omega
    refine ⟨⟨(((walRecord payload).take k).drop 8).drop payload.length, v, events₂⟩, ?_, rfl⟩
    have hfull : ¬(putFixed32 payload.length ++ putFixed32 (crc32c payload)).length < 8 := by simp
    simp only [WalReader.readNext, hheader, bind, Except.bind]
    rw [if_neg hfull, hlength]
    dsimp only
    rw [hchecksum]
    simp only [hpos, hle, if_false, hpayload, pure, Except.pure]
    rw [if_pos hpart]

/-- Records that a torn one follows are read in order. -/
theorem WalReader.readAll_records (hp : ∀ p ∈ payloads, ValidPayload p) (ht : Torn tail)
    (hev : .failed ∉ events) (hfuel : payloads.length < fuel) :
    (⟨payloads.flatMap walRecord ++ tail, v, events⟩ : WalReader).readAll fuel =
      some (.ok (payloads, v + (payloads.flatMap walRecord).length)) := by
  induction payloads generalizing v events fuel with
  | nil =>
    obtain ⟨fuel, rfl⟩ := Nat.exists_eq_succ_of_ne_zero (by omega : fuel ≠ 0)
    obtain ⟨r', hnext, hvalid⟩ := WalReader.readNext_tail ht hev (v := v)
    rw [List.flatMap_nil, List.nil_append, WalReader.readAll, hnext]
    simp [hvalid]
  | cons payload payloads ih =>
    obtain ⟨fuel, rfl⟩ := Nat.exists_eq_succ_of_ne_zero (by omega : fuel ≠ 0)
    obtain ⟨events', hev', hnext⟩ := WalReader.readNext_record (hp payload (List.mem_cons_self ..))
      hev (payloads.flatMap walRecord ++ tail) (v := v)
    rw [List.flatMap_cons, List.append_assoc, WalReader.readAll, hnext]
    dsimp only
    rw [ih (fun p hm => hp p (List.mem_cons_of_mem _ hm)) hev'
      (by rw [List.length_cons] at hfuel; omega), List.length_append, ← Nat.add_assoc]
    rfl

end Reading

/-! ### Cuts -/

/-- How many of the records lie wholly within the first `n` bytes. -/
def wholeRecords : ℕ → List Bytes → ℕ
  | _, [] => 0
  | n, payload :: payloads =>
    if n < (walRecord payload).length then 0
    else wholeRecords (n - (walRecord payload).length) payloads + 1

theorem wholeRecords_le (n : ℕ) (payloads : List Bytes) :
    wholeRecords n payloads ≤ payloads.length := by
  induction payloads generalizing n with
  | nil => exact le_rfl
  | cons payload payloads ih =>
    unfold wholeRecords
    split_ifs
    · exact Nat.zero_le _
    · exact Nat.succ_le_succ (ih _)

/-- They are the records that end within the first `n` bytes. -/
theorem le_wholeRecords_iff {n j : ℕ} {payloads : List Bytes} (hj : j ≤ payloads.length) :
    j ≤ wholeRecords n payloads ↔ ((payloads.take j).flatMap walRecord).length ≤ n := by
  induction payloads generalizing n j with
  | nil =>
    obtain rfl : j = 0 := by simpa using hj
    simp
  | cons payload payloads ih =>
    cases j with
    | zero => simp
    | succ j =>
      rw [wholeRecords, List.take_succ_cons, List.flatMap_cons, List.length_append]
      split_ifs with hn
      · constructor
        · omega
        · omega
      · rw [Nat.add_le_add_iff_right, ih (Nat.le_of_succ_le_succ hj)]
        omega

theorem torn_take_walRecord {payload : Bytes} (hp : ValidPayload payload) {n : ℕ}
    (hn : n < (walRecord payload).length) : Torn ((walRecord payload).take n) :=
  ⟨payload, n, hp, hn, rfl⟩

/-- The first `n` bytes are the whole records and the beginning of the next. -/
theorem take_records {payloads : List Bytes} (hp : ∀ p ∈ payloads, ValidPayload p) (n : ℕ) :
    ∃ tail, Torn tail ∧ (payloads.flatMap walRecord).take n =
      (payloads.take (wholeRecords n payloads)).flatMap walRecord ++ tail := by
  induction payloads generalizing n with
  | nil => exact ⟨[], torn_nil, by simp⟩
  | cons payload payloads ih =>
    rw [List.flatMap_cons, wholeRecords]
    split_ifs with hn
    · refine ⟨_, torn_take_walRecord (hp payload (List.mem_cons_self ..)) hn, ?_⟩
      rw [List.take_append_of_le_length hn.le]
      rfl
    · obtain ⟨tail, htorn, heq⟩ := ih (fun p hm => hp p (List.mem_cons_of_mem _ hm))
        (n - (walRecord payload).length)
      refine ⟨tail, htorn, ?_⟩
      rw [List.take_append, List.take_of_length_le (by omega), heq, List.take_succ_cons,
        List.flatMap_cons, List.append_assoc]

/-! ### Writing -/

structure WalWriter where
  file : Bytes := []
  error : Option Status := none

/-- `WalWriter::writeAll`: the status, the writer and the events to come. A failed call is
latched. -/
def WalWriter.writeAll : List IoEvent → Bytes → WalWriter →
    Option Status × WalWriter × List IoEvent
  | [], data, w => (none, { w with file := w.file ++ data }, [])
  | event :: events, data, w =>
    if data = [] then (none, w, event :: events)
    else
      match event with
      | .failed =>
        let e := w.error.getD (.ioError "write WAL")
        (some e, { w with error := some e }, events)
      | .interrupted => writeAll events data w
      | .moves n =>
        writeAll events (data.drop (n + 1)) { w with file := w.file ++ data.take (n + 1) }

/-- `WalWriter::append` -/
def WalWriter.append (events : List IoEvent) (payload : Bytes) (w : WalWriter) :
    Option Status × WalWriter × List IoEvent :=
  match w.error with
  | some e => (some e, w, events)
  | none =>
    if payload = [] then
      (some (.invalidArgument "WAL record payload must not be empty"), w, events)
    else if payload.length > maxPayloadSize then
      (some (.invalidArgument "WAL record payload exceeds 64 MiB"), w, events)
    else
      let header := putFixed32 payload.length ++ putFixed32 (crc32c payload)
      match w.writeAll events header with
      | (some e, w, events) => (some e, w, events)
      | (none, w, events) => w.writeAll events payload

/-- The payloads, one after the other; `none` when one of them fails. -/
def WalWriter.appendAll : List IoEvent → List Bytes → WalWriter → Option WalWriter
  | _, [], w => some w
  | events, payload :: payloads, w =>
    match w.append events payload with
    | (some _, _, _) => none
    | (none, w, events) => appendAll events payloads w

section Writing

variable {w : WalWriter} {events : List IoEvent} {payload : Bytes} {payloads : List Bytes}

/-- Short and interrupted writes do not show. -/
theorem WalWriter.writeAll_eq (h : .failed ∉ events) (data : Bytes) (w : WalWriter) :
    ∃ events', .failed ∉ events' ∧
      w.writeAll events data = (none, { w with file := w.file ++ data }, events') := by
  induction events generalizing data w with
  | nil => exact ⟨[], h, rfl⟩
  | cons event events ih =>
    have hrest : .failed ∉ events := fun hm => h (List.mem_cons_of_mem _ hm)
    unfold WalWriter.writeAll
    by_cases hdata : data = []
    · exact ⟨event :: events, h, by simp [hdata]⟩
    rw [if_neg hdata]
    cases event with
    | failed => exact absurd (List.mem_cons_self ..) h
    | interrupted => exact ih hrest data w
    | moves n =>
      obtain ⟨events', hev', heq⟩ := ih hrest (data.drop (n + 1))
        { w with file := w.file ++ data.take (n + 1) }
      refine ⟨events', hev', ?_⟩
      dsimp only
      rw [heq, List.append_assoc, List.take_append_drop]

theorem WalWriter.append_eq (hp : ValidPayload payload) (h : .failed ∉ events) (file : Bytes) :
    ∃ events', .failed ∉ events' ∧
      (⟨file, none⟩ : WalWriter).append events payload =
        (none, ⟨file ++ walRecord payload, none⟩, events') := by
  obtain ⟨events₁, hev₁, hheader⟩ := WalWriter.writeAll_eq h
    (putFixed32 payload.length ++ putFixed32 (crc32c payload)) ⟨file, none⟩
  obtain ⟨events₂, hev₂, hpayload⟩ := WalWriter.writeAll_eq hev₁ payload
    ⟨file ++ (putFixed32 payload.length ++ putFixed32 (crc32c payload)), none⟩
  refine ⟨events₂, hev₂, ?_⟩
  rw [WalWriter.append]
  dsimp only
  rw [if_neg hp.1, if_neg (not_lt.mpr hp.2), hheader]
  dsimp only
  rw [hpayload, walRecord]
  simp

/-- A log without failed calls has the records of its payloads. -/
theorem WalWriter.appendAll_eq (hp : ∀ p ∈ payloads, ValidPayload p) (h : .failed ∉ events)
    (file : Bytes) :
    (⟨file, none⟩ : WalWriter).appendAll events payloads =
      some ⟨file ++ payloads.flatMap walRecord, none⟩ := by
  induction payloads generalizing file events with
  | nil => simp [WalWriter.appendAll]
  | cons payload payloads ih =>
    obtain ⟨events', hev', heq⟩ :=
      WalWriter.append_eq (hp payload (List.mem_cons_self ..)) h file
    rw [WalWriter.appendAll, heq]
    dsimp only
    rw [ih (fun p hm => hp p (List.mem_cons_of_mem _ hm)) hev', List.flatMap_cons,
      List.append_assoc]

end Writing

theorem length_le_records (payloads : List Bytes) :
    payloads.length ≤ (payloads.flatMap walRecord).length := by
  induction payloads with
  | nil => exact Nat.zero_le _
  | cons payload payloads ih =>
    rw [List.flatMap_cons, List.length_append, List.length_cons, length_walRecord]
    omega

/-- A log of valid payloads that is cut after any number of bytes reads as the records that lie
wholly before the cut, whatever short or interrupted calls there are; cut to its valid bytes and
continued, it reads as those records and the new ones. -/
theorem cut_log_reads_back {payloads : List Bytes} (hp : ∀ p ∈ payloads, ValidPayload p)
    {writes : List IoEvent} (hwrites : .failed ∉ writes) :
    ∃ log, ({} : WalWriter).appendAll writes payloads = some ⟨log, none⟩ ∧
      ∀ n, ∃ k ≤ payloads.length,
        (∀ j ≤ payloads.length,
          j ≤ k ↔ ((payloads.take j).flatMap walRecord).length ≤ n) ∧
        (∀ reads, .failed ∉ reads → ∀ fuel > (log.take n).length,
          (⟨log.take n, 0, reads⟩ : WalReader).readAll fuel =
            some (.ok (payloads.take k, ((payloads.take k).flatMap walRecord).length))) ∧
        ∀ more, (∀ p ∈ more, ValidPayload p) → ∀ writes', .failed ∉ writes' →
          ∃ log', (⟨(log.take n).take ((payloads.take k).flatMap walRecord).length, none⟩ :
              WalWriter).appendAll writes' more = some ⟨log', none⟩ ∧
            ∀ reads, .failed ∉ reads → ∀ fuel > log'.length,
              (⟨log', 0, reads⟩ : WalReader).readAll fuel =
                some (.ok (payloads.take k ++ more, log'.length)) := by
  refine ⟨payloads.flatMap walRecord, WalWriter.appendAll_eq hp hwrites [], fun n => ?_⟩
  obtain ⟨tail, htorn, hcut⟩ := take_records hp n
  have hwhole : ∀ p ∈ payloads.take (wholeRecords n payloads), ValidPayload p :=
    fun p hm => hp p (List.mem_of_mem_take hm)
  refine ⟨wholeRecords n payloads, wholeRecords_le n payloads,
    fun j hj => le_wholeRecords_iff hj, ?_, ?_⟩
  · intro reads hreads fuel hfuel
    have hcount := length_le_records (payloads.take (wholeRecords n payloads))
    rw [hcut, List.length_append] at hfuel
    rw [hcut, WalReader.readAll_records hwhole htorn hreads (by omega), Nat.zero_add]
  · intro more hmore writes' hwrites'
    have hboth : ∀ p ∈ payloads.take (wholeRecords n payloads) ++ more, ValidPayload p := by
      intro p hm
      rcases List.mem_append.mp hm with hm | hm
      · exact hwhole p hm
      · exact hmore p hm
    refine ⟨_, WalWriter.appendAll_eq hmore hwrites' _, ?_⟩
    rw [hcut, List.take_left, ← List.flatMap_append]
    intro reads hreads fuel hfuel
    have hcount := length_le_records (payloads.take (wholeRecords n payloads) ++ more)
    have hread := WalReader.readAll_records (v := 0) hboth torn_nil hreads
      (by omega : (payloads.take (wholeRecords n payloads) ++ more).length < fuel)
    rw [List.append_nil, Nat.zero_add] at hread
    exact hread

/-- Two records, cut inside the second. -/
theorem cut_log_reads_back_two :
    (∀ p ∈ [[1], [2]], ValidPayload p) ∧
      ∃ log, ({} : WalWriter).appendAll [.moves 2, .interrupted] [[1], [2]] = some ⟨log, none⟩ ∧
        (⟨log.take 12, 0, [.interrupted, .moves 0]⟩ : WalReader).readAll 13 =
          some (.ok ([[1]], 9)) := by
  have hp : ∀ p ∈ [[1], [2]], ValidPayload p := by
    intro p hm
    simp only [List.mem_cons, List.not_mem_nil, or_false] at hm
    rcases hm with rfl | rfl <;> exact ⟨by simp, by decide⟩
  refine ⟨hp, ?_⟩
  obtain ⟨log, hlog, hcut⟩ := cut_log_reads_back hp
    (by decide : IoEvent.failed ∉ [.moves 2, .interrupted])
  obtain ⟨k, hk, hwhole, hread, -⟩ := hcut 12
  have h1 : 1 ≤ k := (hwhole 1 (by decide)).mpr (by simp)
  have h2 : ¬2 ≤ k := fun h => absurd ((hwhole 2 (by decide)).mp h) (by simp)
  obtain rfl : k = 1 := by omega
  refine ⟨log, hlog, ?_⟩
  have := hread [.interrupted, .moves 0] (by decide) 13 (by simp)
  simpa using this

end Mizu.Lsm
