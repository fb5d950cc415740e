import Mizu.Lsm.Logs

/-!
# Every run

`Running` is what holds while a process has the database open, `Directory` what it
leaves behind whenever it ends. Both speak of the batches `bs` that count and of
`extra`: nothing, or one batch that reached the log whole although its write did
not succeed. Every step of the system keeps them.
-/

open Multiversion

namespace Mizu.Lsm

/-- What the directory holds for the next open. -/
structure Directory (d : Disk) (m : Manifest) (v : Version) (bs extra : List WriteBatch) :
    Prop where
  manifest : d.manifest = some m
  written : ∃ n, encodeManifest m = .ok n
  levels : ∀ l, m.levels l = (v.level l).map Table.info
  placed : ∀ l, ∀ t ∈ v.level l, Placed d t
  unique : m.live.Nodup
  numbers : ∀ n ∈ d.numbers, n < maxFileNumber
  keeps : v.Keeps m.flushedSequence bs.flatten
  faithful : bs.flatten.length < maxSequenceNumber →
    v.Faithful m.flushedSequence bs.flatten m.flushedSequence
  encodable : Encodable 1 (bs ++ extra)
  logs : ∃ current old front back tail, old ++ front ++ back = bs ++ extra ∧
    operationCount old = m.flushedSequence ∧ Logs d m current front back tail

structure DB.Running (cfg : Config) (d : Disk) (db : DB) (bs extra : List WriteBatch) : Prop where
  sound : db.Sound bs.flatten
  filed : db.Filed d
  encodable : Encodable 1 (bs ++ extra)
  removing : ∀ live, db.job = .removingWals live → live ≤ db.manifest.oldestWalNumber
  room : db.walError ≠ none → db.hasRoom cfg
  logs : ∃ old front back tail, old ++ front ++ back = bs ++ extra ∧
    operationCount old = db.manifest.flushedSequence ∧
    Logs d db.manifest db.walNumber front back tail ∧
    (db.walError = none → extra = [] ∧ tail = []) ∧
    ∀ i, db.immutable = some i →
      i.lastSequence = db.manifest.flushedSequence + operationCount front

/-- What holds in every state of every run. -/
def State.Inv (cfg : Config) (st : State) : Prop :=
  ∃ extra : List WriteBatch, (extra = [] ∨ ∃ b, extra = [b] ∧ st.pending = some b) ∧
    match st.db with
    | some db => db.Running cfg st.disk st.acknowledged extra
    | none => ∃ m v, Directory st.disk m v st.acknowledged extra

/-! ## The background thread -/

variable {batch : WriteBatch} {payload : Bytes}

namespace DB

variable {cfg : Config} {d d' : Disk} {db db' : DB} {ops : List Operation}

theorem Run.ext {r s : Run} (h : r.entries = s.entries) : r = s := by
  obtain ⟨fs, _⟩ := s
  subst h
  rfl

theorem Compacting.output {p : CompactionPlan} {c : List Entry} {todo : List (List Entry)}
    {done : List Table} {t : Table} (h : db.Compacting p (c :: todo) done)
    (ht : t.reader.entries = c) (hd : t.Described) : db.Compacting p todo (done ++ [t]) := by
  obtain ⟨built, hout, hbuilt⟩ := h.outputs
  refine ⟨h.version, h.fits, h.floor, built ++ [c], by simpa using hout, ?_, ?_⟩
  · simp [hbuilt.entries, ht]
  · intro u hu
    rcases List.mem_append.mp hu with hu | hu
    · exact hbuilt.described u hu
    · rw [List.mem_singleton.mp hu]
      exact hd

theorem Sound.work (h : db.Sound ops) (hw : Work cfg d db d' db') : db'.Sound ops := by
  cases hw with
  | fail e tables next ht hle hmax =>
    have h' : ({ db with job := .idle } : DB).Sound ops := h.setJob (by simp) (by simp)
    exact h'.congr rfl rfl rfl rfl rfl rfl rfl
  | flushOpen i hj hi hn => exact h.setJob (by simp) (by simp)
  | flushRename i t hj hi ht =>
    obtain ⟨_, _, hentries, hdesc⟩ := buildTable_spec ht
    apply h.setJob (by simp)
    intro u hu
    obtain rfl : t = u := by simpa using hu
    exact ⟨i, hi, Run.ext hentries, hdesc⟩
  | flushCommit i t n hj hi hn => exact h.flush hj hi (by simp) (by simp)
  | compactPick p chunks hj hp hb =>
    have hpos : 0 < cfg.compaction.outputBytes := by
      by_contra hz
      simp [buildCompactionTables, show cfg.compaction.outputBytes = 0 by omega] at hb
    obtain ⟨chunks', hb', hc⟩ := h.pick hpos cfg.sizing hp
    obtain rfl : chunks' = chunks := Except.ok.inj (hb'.symm.trans hb)
    apply h.setJob _ (by simp)
    intro q todo b done hq
    obtain ⟨rfl, rfl, rfl, rfl⟩ := by simpa using hq
    exact hc
  | outputOpen p c todo done hj hmax hzero htemp =>
    have hc := h.compacting p (c :: todo) none done hj
    have h' : ({ db with
        job := .compacting p (c :: todo) (some db.nextFileNumber) done } : DB).Sound ops := by
      apply h.setJob _ (by simp)
      intro q todo' b done' hq
      obtain ⟨rfl, rfl, rfl, rfl⟩ := by simpa using hq
      exact hc
    exact h'.congr rfl rfl rfl rfl rfl rfl rfl
  | outputFinish p c todo n done t hj ht =>
    obtain ⟨_, _, hentries, hdesc⟩ := buildTable_spec ht
    have hc := h.compacting p (c :: todo) (some n) done hj
    apply h.setJob _ (by simp)
    intro q todo' b done' hq
    obtain ⟨rfl, rfl, rfl, rfl⟩ := by simpa using hq
    exact hc.output hentries hdesc
  | compactCommit p done n hj hn => exact h.compact hj (by simp) (by simp)
  | removeWal n hj => exact h
  | removeTable n hj hlive => exact h
  | removeTemporary n hj => exact h
  | finishRemoval job hj hjob =>
    rcases hjob with rfl | rfl
    · exact h.setJob (by simp) (by simp)
    · exact h.setJob (by simp) (by simp)

variable {bs extra : List WriteBatch}

/-- A step that leaves the logs, the memtables and the log part of the manifest. -/
theorem Running.congr (h : db.Running cfg d bs extra) (hs : db'.Sound bs.flatten)
    (hf : db'.Filed d')
    (hw : d'.wals = d.wals) (hflushed : db'.manifest.flushedSequence = db.manifest.flushedSequence)
    (holdest : db'.manifest.oldestWalNumber = db.manifest.oldestWalNumber)
    (hnum : db'.walNumber = db.walNumber) (herr : db'.walError = db.walError)
    (hmem : db'.memtable = db.memtable) (hi : db'.immutable = db.immutable)
    (hj : ∀ live, db'.job = .removingWals live → live ≤ db'.manifest.oldestWalNumber) :
    db'.Running cfg d' bs extra := by
  refine ⟨hs, hf, h.encodable, hj, ?_, ?_⟩
  · rw [herr, hasRoom, hmem]
    exact h.room
  · obtain ⟨old, front, back, tail, hsplit, hold, hlogs, hclean, himm⟩ := h.logs
    refine ⟨old, front, back, tail, hsplit, by rw [hold, hflushed], ?_, ?_, ?_⟩
    · rw [hnum]
      exact hlogs.congr hw hflushed holdest
    · rw [herr]
      exact hclean
    · rw [hi, hflushed]
      exact himm

theorem Running.work (h : db.Running cfg d bs extra) (hw : Work cfg d db d' db') :
    db'.Running cfg d' bs extra := by
  have hs := h.sound.work hw
  have hf := h.filed.work h.sound hw
  cases hw with
  | fail e tables next ht hle hmax =>
    exact h.congr hs hf (d.removeTables_frame tables).2.1 rfl rfl rfl rfl rfl rfl (by simp)
  | flushOpen i hj hi hn => exact h.congr hs hf rfl rfl rfl rfl rfl rfl rfl (by simp)
  | flushRename i t hj hi ht => exact h.congr hs hf rfl rfl rfl rfl rfl rfl rfl (by simp)
  | flushCommit i t n hj hi hn =>
    obtain ⟨old, front, back, tail, hsplit, hold, hlogs, hclean, himm⟩ := h.logs
    have hlast := himm i hi
    refine ⟨hs, hf, h.encodable, ?_, h.room, old ++ front, [], back, tail, by simpa using hsplit,
      ?_, ?_, hclean, by simp⟩
    · intro live hlive
      obtain rfl : db.walNumber = live := by simpa using hlive
      exact le_rfl
    · rw [operationCount_append, hold]
      exact hlast.symm
    · exact hlogs.flush rfl rfl hlast
  | compactPick p chunks hj hp hb => exact h.congr hs hf rfl rfl rfl rfl rfl rfl rfl (by simp)
  | outputOpen p c todo done hj hmax hzero htemp =>
    exact h.congr hs hf rfl rfl rfl rfl rfl rfl rfl (by simp)
  | outputFinish p c todo n done t hj ht =>
    exact h.congr hs hf rfl rfl rfl rfl rfl rfl rfl (by simp)
  | compactCommit p done n hj hn => exact h.congr hs hf rfl rfl rfl rfl rfl rfl rfl (by simp)
  | removeWal n hj =>
    have hlt : n < db.manifest.oldestWalNumber := by
      rcases hj with ⟨live, hj, hlt⟩ | ⟨_, hlt⟩
      · exact hlt.trans_le (h.removing live hj)
      · exact hlt
    obtain ⟨old, front, back, tail, hsplit, hold, hlogs, hclean, himm⟩ := h.logs
    exact ⟨hs, hf, h.encodable, h.removing, h.room, old, front, back, tail, hsplit, hold,
      hlogs.removeWal hlt, hclean, himm⟩
  | removeTable n hj hlive => exact h.congr hs hf rfl rfl rfl rfl rfl rfl rfl h.removing
  | removeTemporary n hj => exact h.congr hs hf rfl rfl rfl rfl rfl rfl rfl h.removing
  | finishRemoval job hj hjob =>
    apply h.congr hs hf rfl rfl rfl rfl rfl rfl rfl
    intro live hlive
    have hlive' : job = .removingWals live := hlive
    rcases hjob with rfl | rfl <;> simp at hlive'

/-! ## Writes -/

theorem Room.hasRoom (hr : Room cfg d db d' db') : db'.hasRoom cfg := by
  cases hr with
  | enough h => exact h
  | rotated _ _ _ => simp [DB.hasRoom, MemTable.isEmpty, MemTable.empty]

/-- The next operation follows those in the tables and in the logs. -/
theorem Running.next_sequence (h : db.Running cfg d bs []) {old front back : List WriteBatch}
    (hsplit : old ++ front ++ back = bs ++ [])
    (hold : operationCount old = db.manifest.flushedSequence) : db.lastSequence + 1 =
      db.manifest.flushedSequence + 1 + operationCount front + operationCount back := by
  have hlen := congrArg operationCount hsplit
  simp only [operationCount_append, List.append_nil] at hlen
  rw [h.sound.count, ← operationCount, ← hlen, hold]
  omega

theorem Running.makeRoom (h : db.Running cfg d bs extra) (hr : Room cfg d db d' db') :
    db'.Running cfg d' bs extra := by
  have hf := h.filed.room hr
  cases hr with
  | enough _ => exact h
  | rotated hfull hi hnum =>
    -- a log that failed keeps its memtable below the limit, so this one is clean
    have herr : db.walError = none := by
      by_contra hne
      exact hfull (h.room hne)
    obtain ⟨old, front, back, tail, hsplit, hold, hlogs, hclean, himm⟩ := h.logs
    obtain ⟨rfl, rfl⟩ := hclean herr
    have hne : db.memtable.isEmpty = false := by
      simp only [hasRoom, Bool.or_eq_true, not_or, Bool.not_eq_true] at hfull
      exact hfull.1
    have hcount : db.lastSequence = db.manifest.flushedSequence + operationCount
        (front ++ back) := by
      have hnext := h.next_sequence hsplit hold
      rw [operationCount_append]
      omega
    refine ⟨h.sound.rotate hi hne, hf, h.encodable, h.removing, by simp, old, front ++ back, [], [],
      by simpa using hsplit, hold, ?_, by simp, ?_⟩
    · apply hlogs.rotate
      intro k hk
      have := h.filed.numbers k (Disk.mem_numbers.mpr (Or.inl hk))
      omega
    · intro i hi'
      obtain rfl := Option.some.inj hi'
      exact hcount

/-- A record goes to the end of a clean log. -/
theorem logs_append {m : Manifest} {current : ℕ} {front back : List WriteBatch} {s : ℕ}
    (h : Logs d m current front back [])
    (hs : s = m.flushedSequence + 1 + operationCount front + operationCount back)
    (henc : encode batch s = .ok payload) {g : WalFile → WalFile}
    (hsync : ∀ f : WalFile, f.synced ≤ f.bytes.length → (g f).synced ≤ (g f).bytes.length)
    (hg : ∀ f : WalFile, (g f).bytes = f.bytes ++ walRecord payload) :
    Logs (d.mapWal current g) m current front (back ++ [batch]) [] := by
  apply h.map torn_nil hsync
  intro f hf
  rw [hg, hf, walBytes_append, ← hs, (encode_ok henc).1]
  simp [walBytes]

theorem Running.logging {ok : Bool} (h : db.Running cfg d bs extra)
    (hroom : db.hasRoom cfg) (hl : Logging batch d db ok d' db') :
    (ok = true ∧ db'.Running cfg d' (bs ++ [batch]) []) ∨
      ok = false ∧ (db'.Running cfg d' bs extra ∨ db'.Running cfg d' bs [batch] ∧
        db.walError = none ∧ (encode batch (db.lastSequence + 1)).isOk) := by
  have hf := h.filed.logging hl
  obtain ⟨old, front, back, tail, hsplit, hold, hlogs, hclean, himm⟩ := h.logs
  have hnext : db.walError = none → db.lastSequence + 1 =
      db.manifest.flushedSequence + 1 + operationCount front + operationCount back := by
    intro herr
    obtain ⟨rfl, rfl⟩ := hclean herr
    exact h.next_sequence hsplit hold
  have hencodable : ∀ {payload}, db.walError = none →
      encode batch (db.lastSequence + 1) = .ok payload → Encodable 1 (bs ++ [batch]) := by
    intro payload herr henc
    obtain ⟨rfl, rfl⟩ := hclean herr
    have hbs := h.encodable
    rw [List.append_nil] at hbs
    rw [encodable_append]
    refine ⟨hbs, ?_, trivial⟩
    rw [h.sound.count, ← operationCount, Nat.add_comm] at henc
    rw [henc, (encode_ok henc).1]
  cases hl with
  | refused hwhy => exact Or.inr ⟨rfl, Or.inl h⟩
  | torn payload n henc herr hn =>
    obtain ⟨rfl, rfl⟩ := hclean herr
    refine Or.inr ⟨rfl, Or.inl ⟨?_, hf, h.encodable, h.removing, fun _ => hroom, old, front, back,
      _, hsplit, hold, hlogs.map ⟨payload, n, .of_encode henc, hn, rfl⟩ ?_ ?_, by simp, himm⟩⟩
    · exact h.sound.congr rfl rfl rfl rfl rfl rfl rfl
    · simp only [List.length_append]
      omega
    · intro f hbytes
      rw [hbytes, List.append_nil]
  | unsynced payload henc herr =>
    obtain ⟨rfl, rfl⟩ := hclean herr
    refine Or.inr ⟨rfl, Or.inr ⟨⟨?_, hf, hencodable herr henc, h.removing, fun _ => hroom, old,
      front, back ++ [batch], [], ?_, hold, logs_append hlogs (hnext herr) henc ?_ (fun f => rfl),
      by simp, himm⟩, herr, by simp [henc, Except.isOk, Except.toBool]⟩⟩
    · exact h.sound.congr rfl rfl rfl rfl rfl rfl rfl
    · rw [← List.append_assoc, hsplit, List.append_nil]
    · simp only [List.length_append]
      omega
  | applied payload sync henc herr =>
    obtain ⟨rfl, rfl⟩ := hclean herr
    refine Or.inl ⟨rfl, ?_, hf, ?_, h.removing, ?_, old, front, back ++ [batch], [], ?_, hold,
      logs_append hlogs (hnext herr) henc ?_ (fun f => rfl), by simp, himm⟩
    · have := h.sound.apply batch
      simpa using this
    · rw [List.append_nil]
      exact hencodable herr henc
    · exact fun hne => absurd herr hne
    · rw [← List.append_assoc, hsplit, List.append_nil, List.append_nil]
    · intro f hle
      simp only
      split
      · exact le_rfl
      · rw [List.length_append]
        omega

/-! ## The end of the process -/

/-- Whatever the process was doing, this is what it leaves. -/
theorem Running.directory (h : db.Running cfg d bs extra) :
    Directory d db.manifest db.version bs extra := by
  obtain ⟨old, front, back, tail, hsplit, hold, hlogs, _, _⟩ := h.logs
  refine ⟨h.filed.manifest, h.filed.written, h.filed.levels, h.filed.placed, h.filed.live_nodup, ?_,
    h.sound.keeps, ?_, h.encodable, db.walNumber, old, front, back, tail, hsplit, hold, hlogs⟩
  · intro n hn
    exact (h.filed.numbers n hn).trans_le h.filed.next.2
  · exact fun hlt => (h.sound.faithful hlt).of_flushed h.sound.keeps

end DB

/-! ## Opening -/

section Open

variable {d : Disk} {m : Manifest} {v : Version} {bs extra : List WriteBatch}

theorem openLevel_placed {ts : List Table} (h : ∀ t ∈ ts, Placed d t) :
    openLevel d (ts.map Table.info) = .ok ts := by
  induction ts with
  | nil => rfl
  | cons t ts ih =>
    have ht := (h t (by simp)).stored
    have hopen : openTable d t.info = .ok t := by
      unfold openTable
      simp only [ht, Table.file, ne_eq, not_true, if_false]
    rw [List.map_cons, openLevel, hopen, ih fun u hu => h u (List.mem_cons_of_mem _ hu)]
    rfl

theorem openVersion_placed (hl : ∀ l, m.levels l = (v.level l).map Table.info)
    (hp : ∀ l, ∀ t ∈ v.level l, Placed d t) : openVersion d m = .ok v := by
  have hv : (⟨![v.level 0, v.level 1, v.level 2]⟩ : Version) = v := by
    congr 1
    funext l
    fin_cases l <;> rfl
  unfold openVersion
  rw [hl 0, hl 1, hl 2, openLevel_placed (hp 0), openLevel_placed (hp 1), openLevel_placed (hp 2)]
  exact congrArg Except.ok hv

theorem foldl_max_spec (ns : List ℕ) (k : ℕ) : (∀ n ∈ ns, n ≤ ns.foldl max k) ∧ k ≤ ns.foldl max k ∧
    (∀ b, k < b → (∀ n ∈ ns, n < b) → ns.foldl max k < b) := by
  induction ns generalizing k with
  | nil => simp
  | cons a ns ih =>
    obtain ⟨hle, hk, hlt⟩ := ih (max k a)
    refine ⟨?_, (le_max_left k a).trans hk, ?_⟩
    · intro n hn
      rcases List.mem_cons.mp hn with rfl | hn
      · exact (le_max_right k n).trans hk
      · exact hle n hn
    · intro b hb hall
      exact hlt b (max_lt hb (hall a (by simp))) fun n hn => hall n (List.mem_cons_of_mem _ hn)

namespace Directory

section

variable (h : Directory d m v bs extra)

include h

theorem maximumNumber_lt : d.maximumNumber < maxFileNumber :=
  (foldl_max_spec d.numbers 0).2.2 _ (by decide) h.numbers

/-- The directory after the newest log was cut or not. -/
theorem congr {d' : Disk} (hm : d'.manifest = d.manifest)
    (ht : d'.tables = d.tables) (hn : d'.numbers = d.numbers)
    (hl : ∃ current old front back tail, old ++ front ++ back = bs ++ extra ∧
      operationCount old = m.flushedSequence ∧ Logs d' m current front back tail) :
    Directory d' m v bs extra :=
  ⟨hm.trans h.manifest, h.written, h.levels, fun l t hmem => (h.placed l t hmem).congr ht, h.unique,
    by rw [hn]; exact h.numbers, h.keeps, h.faithful, h.encodable, hl⟩

theorem encodable_logs {old front back : List WriteBatch}
    (hsplit : old ++ front ++ back = bs ++ extra) (hold : operationCount old = m.flushedSequence) :
    Encodable (m.flushedSequence + 1) (front ++ back) := by
  have henc := h.encodable
  rw [← hsplit, List.append_assoc, encodable_append, hold, Nat.add_comm] at henc
  exact henc.2

/-- A recovery that is cut off leaves the directory as good as it was. -/
theorem interrupt (k : ℕ) :
    Directory (interruptOpen d k) m v bs extra ∧
      (interruptOpen d k = d ∨ Trimmed d m (interruptOpen d k)) := by
  obtain ⟨current, old, front, back, tail, hsplit, hold, hlogs⟩ := h.logs
  have henc := h.encodable_logs hsplit hold
  obtain ⟨ns, d', r, hns, _, _, hcut, hg, hlogs', _⟩ := hlogs.recover henc
  have hinterrupt : interruptOpen d k =
      (recoverWals d (ns.take k) ⟨.empty, m.flushedSequence⟩).1 := by
    unfold interruptOpen
    simp only [h.manifest, hns]
  rw [hinterrupt]
  rcases hcut k with hd | hd
  · rw [hd]
    exact ⟨h, Or.inl rfl⟩
  · rw [hd]
    refine ⟨h.congr ?_ ?_ ?_ ⟨current, old, front, back, [], hsplit, hold, hlogs'⟩,
      Or.inr ⟨current, front, back, tail, hlogs, henc, hg⟩⟩
    · rw [hg]
      rfl
    · rw [hg]
      rfl
    · rw [hg, Disk.numbers_mapWal]

/-- The next open brings back the batches and the one that reached the log. -/
theorem recover (hsize : m.encodedSize ≤ maxManifestSize)
    (cfg : Config) : ∃ d' db, openDatabase d = (d', .ok db) ∧ db.Running cfg d' (bs ++ extra) [] ∧
      d'.manifest = some m ∧ db.isOpen = false ∧ db.snapshots = [] ∧ Trimmed d m d' := by
  obtain ⟨current, old, front, back, tail, hsplit, hold, hlogs⟩ := h.logs
  have henc := h.encodable_logs hsplit hold
  obtain ⟨ns, d', r, hns, hlast, hrun, _, hg, hlogs', hmem, hcount⟩ := hlogs.recover henc
  obtain ⟨size, hwritten⟩ := h.written
  have hnumbers : d'.numbers = d.numbers := by rw [hg, Disk.numbers_mapWal]
  have htables : d'.tables = d.tables := by rw [hg]; rfl
  have hmanifest : d'.manifest = some m := by rw [hg]; exact h.manifest
  have hmax := h.maximumNumber_lt
  have hops : (bs ++ extra).flatten = old.flatten ++ (front ++ back).flatten := by
    rw [← hsplit, List.append_assoc, List.flatten_append]
  have hold' : old.flatten.length = m.flushedSequence := hold
  have hlen : r.lastSequence = (bs ++ extra).flatten.length := by
    rw [hcount, hops, List.length_append, hold']
    rfl
  refine ⟨d',
    { walNumber := current
      nextFileNumber := d.maximumNumber + 1
      manifest := m
      version := v
      lastSequence := r.lastSequence
      memtable := r.memtable
      job := .openingWals },
    ?_, ⟨?_, ?_, ?_, by simp, by simp, ?_⟩, hmanifest, rfl, rfl,
    current, front, back, tail, hlogs, henc, hg⟩
  · unfold openDatabase
    rw [if_neg hmax.ne, h.manifest]
    simp only [recoverDatabase, readManifest_of_encode hwritten hsize,
      openVersion_placed h.levels h.placed, hns, hrun, hlast]
  · have hkeeps := h.keeps.append extra.flatten
    rw [← List.flatten_append] at hkeeps
    refine ⟨hlen, hkeeps, ?_, by simp, by simp, ?_, by simp, by simp⟩
    · change r.memtable.Holds m.flushedSequence ((bs ++ extra).flatten.drop m.flushedSequence)
      rw [hops, ← hold', List.drop_left]
      rw [hold']
      exact hmem
    · intro hlt
      rw [List.flatten_append, List.length_append] at hlt
      have hfaith := (h.faithful (by omega)).append h.keeps.le extra.flatten
      rw [← List.flatten_append] at hfaith
      apply hfaith.mono
      change m.flushedSequence ≤ r.lastSequence
      omega
  · refine ⟨hmanifest, h.written, h.levels, fun l t ht => (h.placed l t ht).congr htables, ?_, ?_,
      by simp [Job.tables], ?_, by simp, by simp, by simp, by simp⟩
    · intro n hn
      rw [hnumbers] at hn
      exact Nat.lt_succ_of_le ((foldl_max_spec d.numbers 0).1 n hn)
    · exact ⟨Nat.succ_pos _, hmax⟩
    · simpa [Job.tables] using h.unique
  · rw [List.append_nil]
    exact h.encodable
  · exact ⟨old, front, back, [], by simpa using hsplit, hold, hlogs', by simp, by simp⟩

/-- A manifest over the limit stops the open before it changes anything. -/
theorem open_large (hsize : ¬ m.encodedSize ≤ maxManifestSize) :
    openDatabase d = (d, .error (.corruption "manifest is not a valid regular file")) := by
  unfold openDatabase
  rw [if_neg h.maximumNumber_lt.ne, h.manifest]
  simp only [recoverDatabase, readManifest, if_pos (not_le.mp hsize)]

end

end Directory

end Open

/-! ## The steps of the system -/

namespace State

variable {cfg : Config} {st st' : State} {db : DB}

theorem Inv.running (h : st.Inv cfg) (hd : st.db = some db) :
    ∃ extra : List WriteBatch, (extra = [] ∨ ∃ b, extra = [b] ∧ st.pending = some b) ∧
      db.Running cfg st.disk st.acknowledged extra := by
  obtain ⟨extra, hextra, hdb⟩ := h
  simp only [hd] at hdb
  exact ⟨extra, hextra, hdb⟩

theorem Inv.directory (h : st.Inv cfg) :
    ∃ extra m v, (extra = [] ∨ ∃ b, extra = [b] ∧ st.pending = some b) ∧
      Directory st.disk m v st.acknowledged extra := by
  cases hd : st.db with
  | none =>
    obtain ⟨extra, hextra, hdb⟩ := h
    simp only [hd] at hdb
    obtain ⟨m, v, hdir⟩ := hdb
    exact ⟨extra, m, v, hextra, hdir⟩
  | some db =>
    obtain ⟨extra, hextra, hdb⟩ := h.running hd
    exact ⟨extra, _, _, hextra, hdb.directory⟩

variable {d : Disk}

theorem reachesLog_eq (batch : WriteBatch) {d₁ : Disk} {db₁ : DB}
    (h : makeRoomForWrite cfg d db = some (.ok (d₁, db₁))) : reachesLog cfg batch d db =
      ((encode batch (db₁.lastSequence + 1)).isOk && db₁.walError.isNone) := by
  unfold reachesLog
  simp only [h]

theorem reachesLog_eq_false
    (h : ∀ x, makeRoomForWrite cfg d db ≠ some (.ok x)) : reachesLog cfg batch d db = false := by
  unfold reachesLog
  split
  · rename_i x hx
    exact absurd hx (h _)
  · rfl

variable {bs : List WriteBatch}

/-- A log that holds a batch which did not succeed has failed. -/
theorem walError_of_extra {b : WriteBatch} (h : db.Running cfg d bs [b]) : db.walError ≠ none := by
  intro herr
  obtain ⟨_, _, _, _, _, _, _, hclean, _⟩ := h.logs
  simpa using (hclean herr).1

variable {d' : Disk}

theorem Inv.write {durability : Durability} {o : WriteOutcome} {db' : DB} {r : Except Status Unit}
    (h : st.Inv cfg) (hd : st.db = some db)
    (hw : Lsm.write cfg durability batch o st.disk db = some (r, d', db')) (durable : ℕ) :
    (st.wrote cfg batch db r.isOk d' db' durable).Inv cfg := by
  obtain ⟨extra, hextra, hdb⟩ := h.running hd
  rcases write_cases hw with ⟨rfl, rfl, hwhy⟩ | ⟨hne, d₁, db₁, hroom, hlog⟩
  · rcases hwhy with ⟨rfl, hok⟩ | ⟨hok, hno⟩
    · exact ⟨extra, by simpa [hok] using hextra, by simpa [hok] using hdb⟩
    · exact ⟨extra, by simpa [hok, reachesLog_eq_false hno] using hextra, by simpa [hok] using hdb⟩
  · obtain ⟨hbg, hr⟩ := room_of_makeRoom hroom
    have hrunning := hdb.makeRoom hr
    obtain ⟨hlogging, _⟩ := logging_of_logAndApply hlog
    have hemp : batch.isEmpty = false := by simpa using hne
    have hreach := reachesLog_eq batch hroom
    rcases hrunning.logging (DB.Room.hasRoom hr) hlogging with
      ⟨hok, hrun⟩ | ⟨hok, hrun | ⟨hrun, herr, henc⟩⟩
    · exact ⟨[], Or.inl rfl, by simpa [hok, hemp] using hrun⟩
    · rcases hextra with rfl | ⟨b, rfl, hpend⟩
      · exact ⟨[], Or.inl rfl, by simpa [hok] using hrun⟩
      · have hfalse : reachesLog cfg batch st.disk db = false := by
          rw [hreach]
          simp [Option.ne_none_iff_isSome.mp (walError_of_extra hrunning)]
        exact ⟨[b], Or.inr ⟨b, rfl, by simpa [hok, hfalse] using hpend⟩, by simpa [hok] using hrun⟩
    · have htrue : reachesLog cfg batch st.disk db = true := by
        rw [hreach, henc, herr]
        rfl
      exact ⟨[batch], Or.inr ⟨batch, rfl, by simp [hok, htrue]⟩, by simpa [hok] using hrun⟩

theorem Inv.closed (h : st.Inv cfg) (hd : st.db = some db) :
    ({ st with db := none } : State).Inv cfg := by
  obtain ⟨extra, hextra, hdb⟩ := h.running hd
  exact ⟨extra, hextra, db.manifest, db.version, hdb.directory⟩

/-- A crash inside an append leaves what a failed append or a failed sync leaves. -/
theorem logging_of_crash (n : ℕ) (henc : encode batch (db.lastSequence + 1) = .ok payload) :
    ∃ db', Logging batch d db false (walAppend payload n d db).2.1 db' := by
  cases herr : db.walError with
  | some e =>
    have happ : walAppend payload n d db = (.error e, d, db) := by simp [walAppend, herr]
    rw [happ]
    exact ⟨db, .refused (Or.inl (by simp [herr]))⟩
  | none =>
    rw [walAppend_of_encode henc herr]
    by_cases hn : n < (walRecord payload).length
    · rw [if_pos hn]
      exact ⟨_, .torn payload n henc herr hn⟩
    · rw [if_neg hn, List.take_of_length_le (by omega)]
      exact ⟨_, .unsynced payload henc herr⟩

theorem Inv.cutWrite {db₁ : DB} {d₁ : Disk} (h : st.Inv cfg) (hd : st.db = some db)
    (hroom : makeRoomForWrite cfg st.disk db = some (.ok (d₁, db₁)))
    (henc : encode batch (db₁.lastSequence + 1) = .ok payload) (n : ℕ) :
    State.Inv cfg
      { st with
        disk := (walAppend payload n d₁ db₁).2.1
        db := none
        pending := if db₁.walError.isNone then some batch else st.pending } := by
  obtain ⟨extra, hextra, hdb⟩ := h.running hd
  obtain ⟨_, hr⟩ := room_of_makeRoom hroom
  have hrunning := hdb.makeRoom hr
  obtain ⟨db', hlog⟩ := logging_of_crash (d := d₁) n henc
  rcases hrunning.logging (DB.Room.hasRoom hr) hlog with ⟨hok, _⟩ | ⟨_, hrun | ⟨hrun, herr, _⟩⟩
  · simp at hok
  · rcases hextra with rfl | ⟨b, rfl, hpend⟩
    · exact ⟨[], Or.inl rfl, _, _, hrun.directory⟩
    · exact ⟨[b], Or.inr ⟨b, rfl, by simpa [walError_of_extra hrunning] using hpend⟩, _, _,
        hrun.directory⟩
  · exact ⟨[batch], Or.inr ⟨batch, rfl, by simp [herr]⟩, _, _, hrun.directory⟩

theorem ne_nil_of_encodable {b : WriteBatch} (h : Encodable 1 (bs ++ [b])) :
    b ≠ [] := (encode_ok ((encodable_append.mp h).2.1)).2.1

theorem Inv.opened (h : st.Inv cfg) (hopen : openDatabase st.disk = (d', .ok db)) :
    State.Inv cfg
      { st with
        disk := d'
        db := some db
        acknowledged :=
          if db.lastSequence = operationCount st.acknowledged then st.acknowledged
          else st.acknowledged ++ st.pending.toList
        pending := none } := by
  obtain ⟨extra, m, v, hextra, hdir⟩ := h.directory
  by_cases hsize : m.encodedSize ≤ maxManifestSize
  · obtain ⟨d₁, db₁, hopen₁, hrun, _⟩ := hdir.recover hsize cfg
    cases hopen.symm.trans hopen₁
    refine ⟨[], Or.inl rfl, ?_⟩
    have hcount : db.lastSequence = operationCount (st.acknowledged ++ extra) := hrun.sound.count
    have hack : (if db.lastSequence = operationCount st.acknowledged then st.acknowledged
        else st.acknowledged ++ st.pending.toList) = st.acknowledged ++ extra := by
      rcases hextra with rfl | ⟨b, rfl, hpend⟩
      · rw [if_pos (by rw [hcount, List.append_nil]), List.append_nil]
      · have hne := ne_nil_of_encodable hdir.encodable
        rw [if_neg (by rw [hcount]; simp; exact hne), hpend]
        rfl
    simp only [hack]
    exact hrun
  · cases hopen.symm.trans (hdir.open_large hsize)

theorem Inv.refused {e : Status} (h : st.Inv cfg) (hopen : openDatabase st.disk = (d', .error e)) :
    ({ st with disk := d', db := none } : State).Inv cfg := by
  obtain ⟨extra, m, v, hextra, hdir⟩ := h.directory
  by_cases hsize : m.encodedSize ≤ maxManifestSize
  · obtain ⟨d₁, db₁, hopen₁, _⟩ := hdir.recover hsize cfg
    cases hopen.symm.trans hopen₁
  · cases hopen.symm.trans (hdir.open_large hsize)
    exact ⟨extra, hextra, m, v, hdir⟩

theorem Inv.snapshots (h : st.Inv cfg) (hd : st.db = some db) {snapshots : List ℕ}
    (hle : ∀ s ∈ snapshots, s ≤ db.lastSequence) (hfloor : ∀ s ∈ snapshots, db.oldestSnapshot ≤ s) :
    ({ st with db := some { db with snapshots := snapshots } } : State).Inv cfg := by
  obtain ⟨extra, hextra, hdb⟩ := h.running hd
  refine ⟨extra, hextra, hdb.congr (hdb.sound.setSnapshots hle hfloor) ?_ rfl rfl rfl rfl rfl
    rfl rfl hdb.removing⟩
  exact hdb.filed.congr rfl rfl hdb.filed.numbers ⟨le_rfl, hdb.filed.next.2⟩ rfl rfl rfl rfl
    hdb.filed.fresh

theorem Inv.step {a : Action} (h : st.Inv cfg) (hs : step cfg st a = some st') : st'.Inv cfg := by
  have hsnap {db : DB} (hd : st.db = some db) : ∀ s ∈ db.snapshots, s ≤ db.lastSequence := by
    obtain ⟨_, _, hdb⟩ := h.running hd
    exact hdb.sound.snapshots
  cases turn_of_step hs with
  | write hd hopen hw => exact h.write hd hw _
  | newSnapshot hd =>
    refine h.snapshots hd (List.forall_mem_cons.mpr ⟨le_rfl, hsnap hd⟩)
      (List.forall_mem_cons.mpr ⟨DB.oldestSnapshot_le (hsnap hd), ?_⟩)
    exact fun s hmem => DB.oldestSnapshot_le_of_mem hmem
  | releaseSnapshot hd =>
    apply h.snapshots hd
    · exact fun s hmem => hsnap hd s (List.mem_of_mem_erase hmem)
    · exact fun s hmem => DB.oldestSnapshot_le_of_mem (List.mem_of_mem_erase hmem)
  | background hf hd hr =>
    obtain ⟨extra, hextra, hdb⟩ := h.running hd
    exact ⟨extra, hextra, hdb.work (work_of_operation hf hdb.filed.next.2 hr)⟩
  | ended _ hd => exact h.closed hd
  | cutRoom hd hroom =>
    obtain ⟨extra, hextra, hdb⟩ := h.running hd
    exact ⟨extra, hextra, _, _, (hdb.makeRoom (room_of_makeRoom hroom).2).directory⟩
  | cutWrite hd hroom henc => exact h.cutWrite hd hroom henc _
  | opened _ hopen => exact h.opened hopen
  | refused _ hopen => exact h.refused hopen
  | @interrupted k hd =>
    obtain ⟨extra, m, v, hextra, hdir⟩ := h.directory
    exact ⟨extra, hextra, m, v, (hdir.interrupt k).1⟩

theorem inv_fresh (cfg : Config) : freshState.Inv cfg := by
  refine ⟨[], Or.inl rfl, ?_⟩
  have hordered : Version.empty.Ordered := by
    refine ⟨by simp [Version.empty], List.Pairwise.nil, fun _ _ => List.Pairwise.nil, ?_⟩
    rintro l k _ u ⟨e, he, rfl⟩
    simp [Version.empty] at he
  have hupdates : Version.empty.updates = ∅ := by
    rw [Version.updates_eq]
    simp [Version.empty, contents]
  refine ⟨⟨rfl, ⟨hordered, le_rfl, by simp [hupdates], by simp [hupdates]⟩, rfl, by simp,
    by simp, ?_,
    by simp, by simp⟩, ?_, trivial, by simp, by simp, [], [], [], [], rfl, rfl, ?_, by simp,
      by simp⟩
  · intro _ key t o _
    have hnil : history (List.take 0 ([] : List WriteBatch).flatten) = ∅ := by simp [history]
    rw [hupdates, ← hnil]
    rfl
  · refine ⟨rfl, ⟨_, rfl⟩, by simp [Version.empty], by simp [Version.empty], ?_, by decide,
      by simp [Job.tables], by decide, by simp, by simp, by simp, by simp⟩
    decide
  · refine ⟨by decide, by decide, by decide, by decide, torn_nil, [], ⟨[], 0⟩, rfl, .nil _, rfl⟩

end State

/-- Every state of every run. -/
theorem inv_of_reach {cfg : Config} {G : State → Action → Prop} {st : State}
    (h : (system cfg).Reach G st) : st.Inv cfg := by
  apply h.induct
  · rintro st rfl
    exact State.inv_fresh cfg
  · intro st a st' _ hI _ hs
    exact hI.step hs

/-! ## Runs on given actions -/

/-- Actions that a guard allows, taken from the fresh database, end in a state of a run. -/
theorem exists_run (cfg : Config) (G : State → Action → Prop) [∀ st a, Decidable (G st a)]
    (P : State → Prop) [DecidablePred P] (as : List Action)
    (hP : (TransitionSystem.exec (TransitionSystem.guarded G (fun _ _ => True) (step cfg))
      freshState as).any (fun st => P st) = true) : ∃ st, (system cfg).Reach G st ∧ P st :=
  TransitionSystem.exists_reach (S := system cfg) (fun _ _ _ _ hs => hs) rfl P as hP

/-- A database whose memtable is full after one operation. -/
def tinyConfig : Config where
  writeBufferSize := 1
  sizing :=
    { memoryUsage := List.length
      estimatedFileSize := List.length
      fileSize := fun es => es.length + 1
      lastRestart := fun _ => 0
      fileSize_pos := fun _ => Nat.succ_pos _ }
  compaction := {}

namespace Action

/-- A write without failures. -/
def put (durability : Durability) (key value : Bytes) : Action :=
  .write durability [.put key value] ⟨1000, true⟩

/-- A whole flush. -/
def flush : List Action := [.flushOpen, .flushRename, .flushCommit, .finishRemoval]

/-- A whole compaction with one output. -/
def compaction : List Action :=
  [.compactPick, .outputOpen, .outputFinish, .compactCommit, .finishRemoval]

end Action

end Mizu.Lsm
