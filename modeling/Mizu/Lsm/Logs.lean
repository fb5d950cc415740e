import Mizu.Lsm.Files

/-!
# The logs

The live logs, from the manifest's oldest on, hold the batches that are not flushed
yet: record after record and file after file, with at most one incomplete record at
the end of the newest. Replaying them brings the batches back.
-/

namespace Mizu.Lsm

/-- Complete files, each going on where the one before it ends. -/
inductive Spans : ℕ → List Bytes → List WriteBatch → Prop
  | nil (s : ℕ) : Spans s [] []
  | cons {s : ℕ} {files : List Bytes} {rest : List WriteBatch} (bs : List WriteBatch) :
      Spans (s + operationCount bs) files rest → Spans s (walBytes s bs :: files) (bs ++ rest)

theorem Spans.snoc {s : ℕ} {files : List Bytes} {front : List WriteBatch}
    (h : Spans s files front) (bs : List WriteBatch) :
    Spans s (files ++ [walBytes (s + operationCount front) bs]) (front ++ bs) := by
  induction h with
  | nil s =>
    simpa using Spans.cons bs (.nil _)
  | cons bs' _ ih =>
    rw [List.cons_append, List.append_assoc, operationCount_append, ← Nat.add_assoc]
    exact .cons bs' ih

/-- The logs a recovery replays. -/
def Disk.liveLogs (d : Disk) (oldest : ℕ) : List (ℕ × WalFile) :=
  d.wals.filter fun p => oldest ≤ p.1

/-- The live logs hold `front` in the files before the newest, which is number
`current` and holds `back` and an incomplete record. -/
structure Logs (d : Disk) (m : Manifest) (current : ℕ) (front back : List WriteBatch)
    (tail : Bytes) : Prop where
  sorted : (Assoc.keys d.wals).Pairwise (· < ·)
  synced : ∀ p ∈ d.wals, p.2.synced ≤ p.2.bytes.length
  positive : 0 < m.oldestWalNumber
  oldest : m.oldestWalNumber ∈ Assoc.keys d.wals
  torn : Torn tail
  live : ∃ earlier f, d.liveLogs m.oldestWalNumber = earlier ++ [(current, f)] ∧
    Spans (m.flushedSequence + 1) (earlier.map fun p => p.2.bytes) front ∧
      f.bytes = walBytes (m.flushedSequence + 1 + operationCount front) back ++ tail

/-- The log cut after `n` bytes. -/
def WalFile.cut (n : ℕ) (f : WalFile) : WalFile := ⟨f.bytes.take n, min f.synced n⟩

/-- The directory after a recovery has cut the incomplete record off the newest log. -/
def Trimmed (d : Disk) (m : Manifest) (d' : Disk) : Prop :=
  ∃ current front back tail, Logs d m current front back tail ∧
    Encodable (m.flushedSequence + 1) (front ++ back) ∧
    d' = d.mapWal current
      (WalFile.cut (walBytes (m.flushedSequence + 1 + operationCount front) back).length)

/-! ## Replay -/

section Replay

variable {bs : List WriteBatch} {r : Recovered} {n : ℕ} {ops : List Operation} {tail : Bytes}

theorem length_le_walBytes (s : ℕ) (bs : List WriteBatch) : bs.length ≤ (walBytes s bs).length := by
  induction bs generalizing s with
  | nil => simp
  | cons b bs ih =>
    have := ih (s + b.length)
    simp only [walBytes, List.length_cons, List.length_append, length_walRecord]
    omega

/-- The replay loop reads every record and stops at what is left of the last. -/
theorem replay_records (henc : Encodable (r.lastSequence + 1) bs) (ht : Torn tail)
    (hm : r.memtable.Holds n ops) (hlast : r.lastSequence = n + ops.length) {fuel : ℕ}
    (hfuel : bs.length < fuel) (v : ℕ) :
    ∃ r', replay fuel v (walBytes (r.lastSequence + 1) bs ++ tail) r =
        .ok (r', v + (walBytes (r.lastSequence + 1) bs).length) ∧
      r'.memtable.Holds n (ops ++ bs.flatten) ∧
        r'.lastSequence = r.lastSequence + operationCount bs := by
  induction bs generalizing r ops fuel v with
  | nil =>
    obtain ⟨k, rfl⟩ := Nat.exists_eq_add_of_lt hfuel
    refine ⟨r, ?_, by simpa using hm, by simp⟩
    simp [replay, walBytes, readNext_torn ht]
  | cons b bs ih =>
    obtain ⟨hb, hbs⟩ := henc
    rw [List.length_cons] at hfuel
    obtain ⟨k, rfl⟩ : ∃ k, fuel = k + 1 := ⟨fuel - 1, by omega⟩
    have hk : bs.length < k := by omega
    have hread : readNext v (walRecord (encodeBatch b (r.lastSequence + 1)) ++
        (walBytes (r.lastSequence + 1 + b.length) bs ++ tail)) = .ok (some (_, _)) :=
      readNext_record (ValidPayload.of_encode hb)
    rw [show r.lastSequence + 1 + b.length = r.lastSequence + b.length + 1 by omega] at hbs hread
    have hholds := hm.applyBatch b
    rw [← hlast] at hholds
    have hlen : r.lastSequence + b.length = n + (ops ++ b).length := by
      rw [List.length_append, hlast]
      omega
    obtain ⟨r', hr', hm', hl'⟩ := ih (r := ⟨applyBatch r.memtable (r.lastSequence + 1) b,
      r.lastSequence + b.length⟩) hbs hholds hlen hk
      (v + (8 + (encodeBatch b (r.lastSequence + 1)).length))
    dsimp only at hr' hl'
    refine ⟨r', ?_, by simpa using hm', by rw [hl', operationCount_cons]; omega⟩
    rw [walBytes, List.append_assoc,
      show r.lastSequence + 1 + b.length = r.lastSequence + b.length + 1 by omega, replay, hread]
    simp only [decode_encode hb, ne_eq, not_true, if_false, hr', Except.ok.injEq, Prod.mk.injEq,
      true_and, List.length_append, length_walRecord]
    omega

end Replay

/-! ## The directory during recovery -/

variable {earlier : List (ℕ × WalFile)} {p : ℕ × WalFile} {g : WalFile → WalFile}

section Recover

variable {d : Disk} {r : Recovered} {n : ℕ} {ops : List Operation}

theorem Disk.mapWal_eq_self {k : ℕ}
    (h : ∀ p ∈ d.wals, p.1 = k → g p.2 = p.2) : d.mapWal k g = d := by
  have hmap : d.wals.map (fun p => if p.1 = k then (p.1, g p.2) else p) = d.wals := by
    conv_rhs => rw [← List.map_id d.wals]
    apply List.map_congr_left
    intro p hp
    by_cases hk : p.1 = k
    · rw [if_pos hk, h p hp hk]
      rfl
    · simp [hk]
  unfold mapWal
  rw [hmap]

section

variable (hs : (Assoc.keys d.wals).Pairwise (· < ·))

include hs

/-- A key of a sorted directory has one file. -/
theorem eq_of_sorted {q : ℕ × WalFile}
    (hp : p ∈ d.wals) (hq : q ∈ d.wals) (h : p.1 = q.1) : p = q := by
  have hnd : (Assoc.keys d.wals).Nodup := hs.imp fun h => h.ne
  exact List.inj_on_of_nodup_map hnd hp hq h

theorem get_of_sorted (hp : p ∈ d.wals) : Assoc.get p.1 d.wals = some p.2 :=
  Assoc.get_of_mem (hs.imp fun h => h.ne) hp

/-- A file is replayed and cut after its last complete record. -/
theorem recoverWalFile_records (hp : p ∈ d.wals) {bs : List WriteBatch} {tail : Bytes}
    (hbytes : p.2.bytes = walBytes (r.lastSequence + 1) bs ++ tail) (ht : Torn tail)
    (henc : Encodable (r.lastSequence + 1) bs) (hm : r.memtable.Holds n ops)
    (hlast : r.lastSequence = n + ops.length) :
    ∃ r', recoverWalFile d p.1 r = .ok (d.mapWal p.1 fun f =>
        ⟨f.bytes.take (walBytes (r.lastSequence + 1) bs).length,
          min f.synced (walBytes (r.lastSequence + 1) bs).length⟩, r') ∧
      r'.memtable.Holds n (ops ++ bs.flatten) ∧
        r'.lastSequence = r.lastSequence + operationCount bs := by
  have hfuel : bs.length < p.2.bytes.length + 1 := by
    have := length_le_walBytes (r.lastSequence + 1) bs
    rw [hbytes, List.length_append]
    omega
  obtain ⟨r', hr', hm', hl'⟩ := replay_records henc ht hm hlast hfuel 0
  rw [← hbytes, Nat.zero_add] at hr'
  refine ⟨r', ?_, hm', hl'⟩
  unfold recoverWalFile
  rw [get_of_sorted hs hp]
  simp only [hr']

/-- The files before the newest are replayed and stay as they are. -/
theorem recoverWals_spans (hsync : ∀ p ∈ d.wals, p.2.synced ≤ p.2.bytes.length)
    (hsub : ∀ p ∈ earlier, p ∈ d.wals) {front : List WriteBatch}
    (h : Spans (r.lastSequence + 1) (earlier.map fun p => p.2.bytes) front)
    (henc : Encodable (r.lastSequence + 1) front) (hm : r.memtable.Holds n ops)
    (hlast : r.lastSequence = n + ops.length) :
    ∃ r', (∀ ns, recoverWals d (Assoc.keys earlier ++ ns) r = recoverWals d ns r') ∧
      (∀ k ≤ earlier.length, (recoverWals d ((Assoc.keys earlier).take k) r).1 = d) ∧
      r'.memtable.Holds n (ops ++ front.flatten) ∧
        r'.lastSequence = r.lastSequence + operationCount front := by
  induction earlier generalizing r front ops with
  | nil =>
    cases h
    exact ⟨r, fun ns => rfl, by simp [recoverWals, Assoc.keys], by simpa using hm, by simp⟩
  | cons p earlier ih =>
    rw [List.map_cons] at h
    obtain ⟨bs, rest, hbytes, hrest, rfl⟩ :
        ∃ bs rest, p.2.bytes = walBytes (r.lastSequence + 1) bs ∧
        Spans (r.lastSequence + 1 + operationCount bs) (earlier.map fun p => p.2.bytes) rest ∧
          front = bs ++ rest := by
      generalize hb : p.2.bytes = b at h
      cases h with
      | cons bs hrest => exact ⟨bs, _, rfl, hrest, rfl⟩
    obtain ⟨hencb, hencr⟩ := encodable_append.mp henc
    have hp := hsub p (by simp)
    obtain ⟨r₁, hr₁, hm₁, hl₁⟩ := recoverWalFile_records hs hp
      (by rw [hbytes, List.append_nil]) torn_nil hencb hm hlast
    -- a complete file is cut at its end
    have hself : (d.mapWal p.1 fun f => (⟨f.bytes.take (walBytes (r.lastSequence + 1) bs).length,
        min f.synced (walBytes (r.lastSequence + 1) bs).length⟩ : WalFile)) = d := by
      apply Disk.mapWal_eq_self
      intro q hq hk
      obtain rfl := eq_of_sorted hs hq hp hk
      have hle := hsync q hq
      rw [← hbytes, List.take_length, min_eq_left hle]
    rw [hself] at hr₁
    rw [show r.lastSequence + 1 + operationCount bs = r₁.lastSequence + 1 by omega] at hrest hencr
    obtain ⟨r', hrun, hcut, hm', hl'⟩ :=
      ih (r := r₁) (fun q hq => hsub q (List.mem_cons_of_mem _ hq))
      hrest hencr hm₁ (by rw [hl₁, hlast, List.length_append]; unfold operationCount; omega)
    refine ⟨r', ?_, ?_, by simpa using hm', by rw [hl', hl₁, operationCount_append]; omega⟩
    · intro ns
      change recoverWals d (p.1 :: (Assoc.keys earlier ++ ns)) r = _
      rw [recoverWals, hr₁]
      exact hrun ns
    · intro k hk
      cases k with
      | zero => rfl
      | succ k =>
        change (recoverWals d (p.1 :: (Assoc.keys earlier).take k) r).1 = d
        rw [recoverWals, hr₁]
        exact hcut k (by simpa using hk)

end

end Recover

/-! ## The live logs of a sorted directory -/

section Live

variable {d : Disk} {oldest : ℕ}

theorem liveLogs_subset (h : p ∈ d.liveLogs oldest) : p ∈ d.wals :=
  List.mem_of_mem_filter h

theorem keys_liveLogs (d : Disk) (oldest : ℕ) :
    Assoc.keys (d.liveLogs oldest) = (Assoc.keys d.wals).filter (oldest ≤ ·) := by
  rw [Disk.liveLogs, Assoc.keys, Assoc.keys, List.filter_map]
  rfl

/-- In a sorted list, what is dropped before the bound is what is below it. -/
theorem drop_lowerBound_eq_filter {l : List ℕ} (h : l.Pairwise (· < ·)) (n : ℕ) :
    l.drop (Search.lowerBound (fun k => decide (k < n)) l) = l.filter (n ≤ ·) := by
  have hsplit : Search.Splits (fun k => decide (k < n)) l := by
    apply h.imp
    intro a b hab hb
    simp only [decide_eq_true_eq] at hb ⊢
    omega
  conv_rhs => rw [← List.take_append_drop (Search.lowerBound (fun k => decide (k < n)) l) l,
    List.filter_append]
  have hlow : (l.take (Search.lowerBound (fun k => decide (k < n)) l)).filter (n ≤ ·) = [] := by
    rw [List.filter_eq_nil_iff]
    intro x hx
    have := Search.of_mem_take_lowerBound hsplit hx
    simpa using this
  have hhigh : (l.drop (Search.lowerBound (fun k => decide (k < n)) l)).filter (n ≤ ·) =
      l.drop (Search.lowerBound (fun k => decide (k < n)) l) := by
    rw [List.filter_eq_self]
    intro x hx
    have := Search.not_of_mem_drop_lowerBound hsplit hx
    simpa using this
  rw [hlow, hhigh, List.nil_append]

theorem liveWals_eq {m : Manifest} (hs : (Assoc.keys d.wals).Pairwise (· < ·))
    (hpos : 0 < m.oldestWalNumber) (hold : m.oldestWalNumber ∈ Assoc.keys d.wals) :
    liveWals d m = .ok (Assoc.keys (d.liveLogs m.oldestWalNumber)) := by
  have hsort : d.walNumbers = Assoc.keys d.wals :=
    List.Pairwise.insertionSort_eq (hs.imp fun h => h.le)
  have hdrop := drop_lowerBound_eq_filter hs m.oldestWalNumber
  have hfirst : (Assoc.keys d.wals)[Search.lowerBound (fun k => decide (k < m.oldestWalNumber))
      (Assoc.keys d.wals)]? = some m.oldestWalNumber := by
    rw [← List.head?_drop, hdrop]
    -- the oldest is the least of those that are not below it
    have hmem : m.oldestWalNumber ∈ (Assoc.keys d.wals).filter (m.oldestWalNumber ≤ ·) := by
      simp [hold]
    have hpair := hs.filter (fun k => decide (m.oldestWalNumber ≤ k))
    have hall : ∀ x ∈ (Assoc.keys d.wals).filter (m.oldestWalNumber ≤ ·),
        m.oldestWalNumber ≤ x := by simp
    cases hl : (Assoc.keys d.wals).filter (m.oldestWalNumber ≤ ·) with
    | nil => simp [hl] at hmem
    | cons a as =>
      rw [hl] at hmem hpair hall
      rcases List.mem_cons.mp hmem with h | h
      · simp [h]
      · have := (List.pairwise_cons.mp hpair).1 _ h
        have := hall a (by simp)
        omega
  unfold liveWals
  rw [if_neg (by omega), hsort]
  simp only [hfirst, if_true, hdrop, keys_liveLogs]

end Live

/-! ## The steps keep the logs -/

namespace Logs

variable {d d' : Disk} {m m' : Manifest} {current : ℕ} {front back : List WriteBatch} {tail : Bytes}

section

variable (h : Logs d m current front back tail)

include h

theorem congr (hw : d'.wals = d.wals)
    (hf : m'.flushedSequence = m.flushedSequence) (ho : m'.oldestWalNumber = m.oldestWalNumber) :
    Logs d' m' current front back tail := by
  have hlive := h.live
  refine ⟨?_, ?_, ?_, ?_, h.torn, ?_⟩
  · rw [hw]
    exact h.sorted
  · rw [hw]
    exact h.synced
  · rw [ho]
    exact h.positive
  · rw [ho, hw]
    exact h.oldest
  · rw [Disk.liveLogs, hw, ho, hf]
    exact hlive

theorem current_mem : current ∈ Assoc.keys d.wals := by
  obtain ⟨earlier, f, hl, _⟩ := h.live
  have hmem : (current, f) ∈ d.liveLogs m.oldestWalNumber := by simp [hl]
  exact List.mem_map_of_mem (liveLogs_subset hmem)

theorem oldest_le : m.oldestWalNumber ≤ current := by
  obtain ⟨earlier, f, hl, _⟩ := h.live
  have hmem : (current, f) ∈ d.liveLogs m.oldestWalNumber := by simp [hl]
  simpa [Disk.liveLogs] using (List.mem_filter.mp hmem).2

end

variable {f : WalFile}

section

variable (h : Logs d m current front back tail)
  (hl : d.liveLogs m.oldestWalNumber = earlier ++ [(current, f)])

include h hl

/-- The newest log has the greatest number. -/
theorem earlier_lt :
    ∀ p ∈ earlier, p.1 < current := by
  have hsorted := h.sorted.filter fun k => decide (m.oldestWalNumber ≤ k)
  rw [← keys_liveLogs, hl] at hsorted
  simp only [Assoc.keys, List.map_append, List.map_cons, List.map_nil] at hsorted
  intro p hp
  exact (List.pairwise_append.mp hsorted).2.2 p.1 (List.mem_map_of_mem hp) current (by simp)

theorem liveLogs_mapWal (g : WalFile → WalFile) :
    (d.mapWal current g).liveLogs m.oldestWalNumber = earlier ++ [(current, g f)] := by
  have hcomm : (d.mapWal current g).liveLogs m.oldestWalNumber =
      (d.liveLogs m.oldestWalNumber).map
        fun p => if p.1 = current then (p.1, g p.2) else p := by
    simp only [Disk.liveLogs, Disk.mapWal, List.filter_map]
    congr 1
    apply List.filter_congr
    intro p _
    by_cases hk : p.1 = current <;> simp [hk]
  rw [hcomm, hl, List.map_append, List.map_cons, List.map_nil, if_pos rfl]
  congr 1
  conv_rhs => rw [← List.map_id earlier]
  apply List.map_congr_left
  intro p hp
  rw [if_neg (h.earlier_lt hl p hp).ne]
  rfl

end

/-- The newest log is written to or cut. -/
theorem map (h : Logs d m current front back tail)
    {back' : List WriteBatch} {tail' : Bytes} (ht : Torn tail')
    (hsync : ∀ f : WalFile, f.synced ≤ f.bytes.length → (g f).synced ≤ (g f).bytes.length)
    (hg : ∀ f : WalFile,
      f.bytes = walBytes (m.flushedSequence + 1 + operationCount front) back ++ tail →
      (g f).bytes = walBytes (m.flushedSequence + 1 + operationCount front) back' ++ tail') :
    Logs (d.mapWal current g) m current front back' tail' := by
  obtain ⟨earlier, f, hl, hspans, hbytes⟩ := h.live
  refine ⟨?_, ?_, h.positive, ?_, ht, earlier, g f, h.liveLogs_mapWal hl g, hspans, hg f hbytes⟩
  · rw [Disk.keys_mapWal]
    exact h.sorted
  · intro p hp
    obtain ⟨q, hq, rfl⟩ := List.mem_map.mp hp
    by_cases hk : q.1 = current
    · simpa [hk] using hsync q.2 (h.synced q hq)
    · simpa [hk] using h.synced q hq
  · rw [Disk.keys_mapWal]
    exact h.oldest

variable {n : ℕ}

theorem wals_openWal (hn : ∀ k ∈ Assoc.keys d.wals, k < n) :
    (d.openWal n).wals = d.wals ++ [(n, ⟨[], 0⟩)] := by
  have hnew : ¬ (Assoc.get n d.wals).isSome := by
    rw [Assoc.get_isSome_iff]
    exact fun hk => lt_irrefl _ (hn n hk)
  rw [Disk.openWal, if_neg hnew]

theorem liveLogs_openWal (h : Logs d m current front back tail)
    (hn : ∀ k ∈ Assoc.keys d.wals, k < n) : (d.openWal n).liveLogs m.oldestWalNumber =
      d.liveLogs m.oldestWalNumber ++ [(n, ⟨[], 0⟩)] := by
  have hlt : m.oldestWalNumber < n := hn _ h.oldest
  rw [Disk.liveLogs, wals_openWal hn, List.filter_append, ← Disk.liveLogs]
  simp [hlt.le]

/-- A new log is opened after the last one, which is complete. -/
theorem rotate (h : Logs d m current front back []) (hn : ∀ k ∈ Assoc.keys d.wals, k < n) :
    Logs (d.openWal n) m n (front ++ back) [] [] := by
  obtain ⟨earlier, f, hl, hspans, hbytes⟩ := h.live
  have hopen := wals_openWal hn
  have hkeys : Assoc.keys (d.openWal n).wals = Assoc.keys d.wals ++ [n] := by
    simp [hopen, Assoc.keys]
  refine ⟨?_, ?_, h.positive, ?_, torn_nil, earlier ++ [(current, f)], ⟨[], 0⟩, ?_, ?_,
    by simp [walBytes]⟩
  · rw [hkeys, List.pairwise_append]
    exact ⟨h.sorted, by simp, by simpa using hn⟩
  · rw [hopen]
    intro p hp
    rcases List.mem_append.mp hp with hp | hp
    · exact h.synced p hp
    · rw [List.mem_singleton.mp hp]
      exact le_rfl
  · rw [hkeys]
    exact List.mem_append_left _ h.oldest
  · rw [h.liveLogs_openWal hn, hl]
  · rw [List.append_nil] at hbytes
    rw [List.map_append, List.map_cons, List.map_nil, hbytes]
    exact hspans.snoc back

theorem liveLogs_flush (h : Logs d m current front back tail)
    (hl : d.liveLogs m.oldestWalNumber = earlier ++ [(current, f)])
    (hw : d'.wals = d.wals) (ho : m'.oldestWalNumber = current) :
    d'.liveLogs m'.oldestWalNumber = [(current, f)] := by
  have hle := h.oldest_le
  have hfilter : d'.liveLogs m'.oldestWalNumber =
      (d.liveLogs m.oldestWalNumber).filter fun p => decide (current ≤ p.1) := by
    simp only [Disk.liveLogs, hw, ho, List.filter_filter]
    apply List.filter_congr
    simp only [decide_eq_decide, ← Bool.decide_and]
    omega
  have hnone : earlier.filter (fun p => decide (current ≤ p.1)) = [] := by
    rw [List.filter_eq_nil_iff]
    intro p hp
    have := h.earlier_lt hl p hp
    simpa using this
  rw [hfilter, hl, List.filter_append, hnone]
  simp

/-- The batches before the newest log are flushed. -/
theorem flush (h : Logs d m current front back tail) (hw : d'.wals = d.wals)
    (ho : m'.oldestWalNumber = current)
    (hf : m'.flushedSequence = m.flushedSequence + operationCount front) :
    Logs d' m' current [] back tail := by
  obtain ⟨earlier, f, hl, hspans, hbytes⟩ := h.live
  have hle := h.oldest_le
  have hpos := h.positive
  refine ⟨?_, ?_, ?_, ?_, h.torn, [], f, h.liveLogs_flush hl hw ho, .nil _, ?_⟩
  · rw [hw]
    exact h.sorted
  · rw [hw]
    exact h.synced
  · omega
  · rw [hw, ho]
    exact h.current_mem
  · rw [hf, operationCount_nil, hbytes]
    congr 2
    omega

theorem liveLogs_removeWal {oldest : ℕ} (hn : n < oldest) :
    (d.removeWal n).liveLogs oldest = d.liveLogs oldest := by
  simp only [Disk.liveLogs, Disk.removeWal, Assoc.erase, List.filter_filter]
  apply List.filter_congr
  intro p _
  by_cases hp : oldest ≤ p.1
  · simp [hp, show p.1 ≠ n by omega]
  · simp [hp]

theorem removeWal (h : Logs d m current front back tail) (hn : n < m.oldestWalNumber) :
    Logs (d.removeWal n) m current front back tail := by
  have hsub : (Assoc.keys (d.removeWal n).wals).Sublist (Assoc.keys d.wals) :=
    List.filter_sublist.map _
  refine ⟨h.sorted.sublist hsub, ?_, h.positive, ?_, h.torn, ?_⟩
  · exact fun p hp => h.synced p (List.mem_of_mem_filter hp)
  · obtain ⟨p, hp, heq⟩ := List.mem_map.mp h.oldest
    refine List.mem_map.mpr ⟨p, List.mem_filter.mpr ⟨hp, ?_⟩, heq⟩
    simp only [ne_eq, decide_eq_true_eq]
    omega
  · rw [liveLogs_removeWal hn]
    exact h.live

/-! ## Recovery -/

/-- Replaying the live logs brings their batches back and cuts the newest. -/
theorem recover (h : Logs d m current front back tail)
    (henc : Encodable (m.flushedSequence + 1) (front ++ back)) :
    ∃ ns d' r, liveWals d m = .ok ns ∧ ns.getLastD 0 = current ∧
      recoverWals d ns ⟨.empty, m.flushedSequence⟩ = (d', .ok r) ∧
      (∀ k, (recoverWals d (ns.take k) ⟨.empty, m.flushedSequence⟩).1 = d ∨
        (recoverWals d (ns.take k) ⟨.empty, m.flushedSequence⟩).1 = d') ∧
      d' = d.mapWal current
        (WalFile.cut (walBytes (m.flushedSequence + 1 + operationCount front) back).length) ∧
      Logs d' m current front back [] ∧
      r.memtable.Holds m.flushedSequence (front ++ back).flatten ∧
      r.lastSequence = m.flushedSequence + operationCount (front ++ back) := by
  obtain ⟨earlier, f, hl, hspans, hbytes⟩ := h.live
  obtain ⟨hencf, hencb⟩ := encodable_append.mp henc
  have hsub : ∀ p ∈ earlier ++ [(current, f)], p ∈ d.wals := by
    intro p hp
    rw [← hl] at hp
    exact liveLogs_subset hp
  have hkeys : Assoc.keys (earlier ++ [(current, f)]) = Assoc.keys earlier ++ [current] := by
    simp [Assoc.keys]
  obtain ⟨r₁, hrun, hcut, hm₁, hl₁⟩ := recoverWals_spans (r := ⟨.empty, m.flushedSequence⟩)
    h.sorted h.synced (fun p hp => hsub p (List.mem_append_left _ hp)) hspans hencf
    (show MemTable.Holds .empty m.flushedSequence [] from rfl) rfl
  have hstart : m.flushedSequence + 1 + operationCount front = r₁.lastSequence + 1 := by
    rw [hl₁]
    change _ = m.flushedSequence + operationCount front + 1
    omega
  rw [hstart] at hbytes hencb
  obtain ⟨r, hr, hm, hlast⟩ := recoverWalFile_records (r := r₁) h.sorted
    (hsub (current, f) (by simp)) hbytes h.torn hencb hm₁
    (by rw [hl₁]; simp [operationCount])
  have hfull : ∀ ns, recoverWals d (Assoc.keys earlier ++ (current :: ns))
      ⟨.empty, m.flushedSequence⟩ = recoverWals (d.mapWal current fun f =>
        ⟨f.bytes.take (walBytes (r₁.lastSequence + 1) back).length,
          min f.synced (walBytes (r₁.lastSequence + 1) back).length⟩) ns r := by
    intro ns
    rw [hrun, recoverWals, hr]
  refine ⟨Assoc.keys earlier ++ [current], _, r, ?_, by simp, (hfull []), ?_, ?_, ?_, ?_, ?_⟩
  · rw [liveWals_eq h.sorted h.positive h.oldest, hl, hkeys]
  · intro k
    by_cases hk : k ≤ earlier.length
    · left
      rw [List.take_append_of_le_length (by simpa [Assoc.keys] using hk)]
      exact hcut k hk
    · right
      rw [List.take_of_length_le (by simp [Assoc.keys]; omega), hfull []]
      rfl
  · rw [hstart]
    rfl
  · apply h.map torn_nil
    · simp only [List.length_take]
      omega
    · intro f hf
      rw [hstart] at hf ⊢
      simp only [hf, List.take_left, List.append_nil]
  · simpa using hm
  · rw [hlast, hl₁, operationCount_append]
    omega

end Logs

end Mizu.Lsm
