import Mizu.Lsm.Steps

/-!
# The files of an open database

The directory holds every table the version serves, under the number the manifest
gives it, and every number in use is below the next one to be handed out. A table
that is being built has a number of its own, so neither a rename nor the removal of
unpublished tables touches what is served.
-/

namespace Mizu.Lsm

/-- The table is in the directory under its number. -/
structure Placed (d : Disk) (t : Table) : Prop where
  stored : Assoc.get t.info.number d.tables = some t.file
  number : 0 < t.info.number
  size : 0 < t.info.fileSize

/-- The manifest lists the tables of the version, each under a number of its own. -/
structure Describes (m : Manifest) (v : Version) : Prop where
  levels : ∀ l, m.levels l = (v.level l).map Table.info
  valid : ∀ l, ∀ t ∈ v.level l, 0 < t.info.number ∧ 0 < t.info.fileSize
  unique : m.live.Nodup

structure DB.Filed (d : Disk) (db : DB) : Prop where
  manifest : d.manifest = some db.manifest
  written : ∃ n, encodeManifest db.manifest = .ok n
  levels : ∀ l, db.manifest.levels l = (db.version.level l).map Table.info
  placed : ∀ l, ∀ t ∈ db.version.level l, Placed d t
  numbers : ∀ n ∈ d.numbers, n < db.nextFileNumber
  next : 0 < db.nextFileNumber ∧ db.nextFileNumber ≤ maxFileNumber
  pending : ∀ t ∈ db.job.tables, Placed d t
  unique : (db.manifest.live ++ db.job.tables.map fun t => t.info.number).Nodup
  reserved : ∀ i, db.immutable = some i → 0 < i.tableNumber ∧ i.tableNumber < db.nextFileNumber ∧
    i.tableNumber ∉ db.manifest.live ∧
      ∀ t ∈ db.job.tables, t.info.number = i.tableNumber → db.job = .flushBuilt t
  built : ∀ t, db.job = .flushBuilt t → ∃ i, db.immutable = some i ∧ t.info.number = i.tableNumber
  building : ∀ p todo n done, db.job = .compacting p todo (some n) done →
    0 < n ∧ n < db.nextFileNumber ∧ n ∉ db.manifest.live ∧ (∀ t ∈ done, t.info.number ≠ n) ∧
      ∀ i, db.immutable = some i → i.tableNumber ≠ n
  fresh : ∀ i, db.immutable = some i → db.backgroundError = none → db.job ≠ .flushBuilding →
    i.tableNumber ∉ d.temporaries

/-! ## Changes of the directory -/

section Disk

variable {d : Disk} {n : ℕ} {t : Table}

theorem Disk.mem_numbers : n ∈ d.numbers ↔
    n ∈ Assoc.keys d.wals ∨ n ∈ Assoc.keys d.tables ∨ n ∈ d.temporaries := by
  simp [numbers]

theorem mem_keys_of_get {α : Type} {ps : List (ℕ × α)} {v : α} (h : Assoc.get n ps = some v) :
    n ∈ Assoc.keys ps := by
  rw [← Assoc.get_isSome_iff, h]
  rfl

theorem keys_erase_subset {α : Type} (n : ℕ) (ps : List (ℕ × α)) :
    Assoc.keys (Assoc.erase n ps) ⊆ Assoc.keys ps := by
  intro k hk
  obtain ⟨p, hp, rfl⟩ := List.mem_map.mp hk
  exact List.mem_map_of_mem (List.mem_of_mem_filter hp)

theorem Placed.mem_numbers (h : Placed d t) : t.info.number ∈ d.numbers :=
  Disk.mem_numbers.mpr (Or.inr (Or.inl (mem_keys_of_get h.stored)))

theorem Placed.congr {d' : Disk} (h : Placed d t) (he : d'.tables = d.tables) : Placed d' t :=
  ⟨he ▸ h.stored, h.number, h.size⟩

theorem Placed.removeTable (h : Placed d t) (hne : t.info.number ≠ n) :
    Placed (d.removeTable n) t := by
  refine ⟨?_, h.number, h.size⟩
  rw [Disk.removeTable, Assoc.get_erase, if_neg hne]
  exact h.stored

theorem Placed.renameTable (h : Placed d t) (hne : t.info.number ≠ n) (f : TableFile) :
    Placed (d.renameTable n f) t := by
  refine ⟨?_, h.number, h.size⟩
  rw [Disk.renameTable, Assoc.get_set, if_neg hne]
  exact h.stored

theorem Placed.of_rename (hn : 0 < t.info.number) (hs : 0 < t.info.fileSize) :
    Placed (d.renameTable t.info.number t.file) t := by
  refine ⟨?_, hn, hs⟩
  rw [Disk.renameTable, Assoc.get_set, if_pos rfl]

variable {k : ℕ}

theorem Disk.mem_numbers_removeTable (h : k ∈ (d.removeTable n).numbers) :
    k ∈ d.numbers := by
  rw [mem_numbers] at h ⊢
  exact h.imp_right (Or.imp_left fun hk => keys_erase_subset n _ hk)

theorem Disk.mem_numbers_removeTemporary (h : k ∈ (d.removeTemporary n).numbers) :
    k ∈ d.numbers := by
  rw [mem_numbers] at h ⊢
  exact h.imp_right (Or.imp_right fun hk => List.mem_of_mem_filter hk)

theorem Disk.mem_numbers_removeWal (h : k ∈ (d.removeWal n).numbers) : k ∈ d.numbers := by
  rw [mem_numbers] at h ⊢
  exact h.imp_left fun hk => keys_erase_subset n _ hk

theorem Disk.mem_numbers_renameTable {f : TableFile}
    (h : k ∈ (d.renameTable n f).numbers) : k = n ∨ k ∈ d.numbers := by
  rw [mem_numbers] at h
  rcases h with h | h | h
  · exact Or.inr (mem_numbers.mpr (Or.inl h))
  · rcases Assoc.mem_keys_set.mp h with rfl | h
    · exact Or.inl rfl
    · exact Or.inr (mem_numbers.mpr (Or.inr (Or.inl h)))
  · exact Or.inr (mem_numbers.mpr (Or.inr (Or.inr (List.mem_of_mem_filter h))))

theorem Disk.keys_mapWal (d : Disk) (n : ℕ) (f : WalFile → WalFile) :
    Assoc.keys (d.mapWal n f).wals = Assoc.keys d.wals := by
  simp only [mapWal, Assoc.keys, List.map_map]
  apply List.map_congr_left
  intro p _
  by_cases h : p.1 = n <;> simp [h]

theorem Disk.numbers_mapWal (d : Disk) (n : ℕ) (f : WalFile → WalFile) :
    (d.mapWal n f).numbers = d.numbers := by
  unfold numbers
  rw [keys_mapWal]
  rfl

theorem Disk.mem_numbers_openWal (h : k ∈ (d.openWal n).numbers) : k = n ∨ k ∈ d.numbers := by
  unfold openWal at h
  split at h
  · exact Or.inr h
  · rw [mem_numbers] at h
    rcases h with h | h
    · simp only [Assoc.keys, List.map_append, List.map_cons, List.map_nil, List.mem_append,
        List.mem_singleton] at h
      rcases h with h | h
      · exact Or.inr (mem_numbers.mpr (Or.inl h))
      · exact Or.inl h
    · exact Or.inr (mem_numbers.mpr (Or.inr h))

@[simp] theorem Disk.openWal_tables (d : Disk) (n : ℕ) : (d.openWal n).tables = d.tables := by
  unfold openWal
  split <;> rfl

@[simp] theorem Disk.openWal_manifest (d : Disk) (n : ℕ) :
    (d.openWal n).manifest = d.manifest := by
  unfold openWal
  split <;> rfl

@[simp] theorem Disk.openWal_temporaries (d : Disk) (n : ℕ) :
    (d.openWal n).temporaries = d.temporaries := by
  unfold openWal
  split <;> rfl

/-- The directory without some tables. -/
def Disk.removeTables (d : Disk) (ts : List Table) : Disk :=
  ts.foldl (fun d t => d.removeTable t.info.number) d

theorem Placed.removeTables {ts : List Table} (h : Placed d t)
    (hne : ∀ u ∈ ts, t.info.number ≠ u.info.number) : Placed (d.removeTables ts) t := by
  induction ts generalizing d with
  | nil => exact h
  | cons u ts ih =>
    exact ih (h.removeTable (hne u (by simp))) fun w hw => hne w (List.mem_cons_of_mem _ hw)

theorem Disk.removeTables_frame (d : Disk) (ts : List Table) :
    (d.removeTables ts).manifest = d.manifest ∧ (d.removeTables ts).wals = d.wals ∧
      (d.removeTables ts).temporaries = d.temporaries ∧ (d.removeTables ts).numbers ⊆
        d.numbers := by
  induction ts generalizing d with
  | nil => exact ⟨rfl, rfl, rfl, List.Subset.refl _⟩
  | cons t ts ih =>
    obtain ⟨hm, hw, ht, hn⟩ := ih (d.removeTable t.info.number)
    exact ⟨hm, hw, ht, List.Subset.trans hn fun k hk => mem_numbers_removeTable hk⟩

end Disk

/-! ## Building a table -/

theorem buildTable_spec {z : Sizing} {n : ℕ} {es : List Entry} {t : Table}
    (h : buildTable z n es = some t) :
    t.info.number = n ∧ 0 < t.info.fileSize ∧ t.reader.entries = es ∧ t.Described := by
  unfold buildTable at h
  split at h
  · split at h
    · rename_i first last hf hl
      cases h
      exact ⟨rfl, z.fileSize_pos es, rfl, by simp [hf], by simp [hl]⟩
    · simp at h
  · simp at h

/-- Entries in order make a table unless there are none or too many. -/
theorem buildTable_isSome {z : Sizing} {n : ℕ} {es : List Entry} (hasc : Ascending es)
    (hne : es ≠ []) (hfit : z.lastRestart es < 2 ^ 32) : ∃ t, buildTable z n es = some t := by
  obtain ⟨e, es, rfl⟩ := List.exists_cons_of_ne_nil hne
  unfold buildTable
  rw [dif_pos ⟨hasc, hfit⟩, List.getLast?_eq_some_getLast hne]
  exact ⟨_, rfl⟩

/-! ## The steps keep the files -/

variable {done : List Table}

namespace DB

variable {cfg : Config} {d d' : Disk} {db db' : DB}

theorem Filed.live_lt (h : db.Filed d) {n : ℕ} (hn : n ∈ db.manifest.live) :
    n < db.nextFileNumber := by
  unfold Manifest.live at hn
  rw [h.levels, h.levels, h.levels, ← List.map_append, ← List.map_append, List.map_map] at hn
  obtain ⟨t, ht, rfl⟩ := List.mem_map.mp hn
  simp only [List.mem_append] at ht
  rcases ht with ht | ht | ht
  · exact h.numbers _ (h.placed 0 t ht).mem_numbers
  · exact h.numbers _ (h.placed 1 t ht).mem_numbers
  · exact h.numbers _ (h.placed 2 t ht).mem_numbers

variable {t : Table}

theorem Filed.mem_live (h : db.Filed d) {l : Fin 3} (ht : t ∈ db.version.level l) :
    t.info.number ∈ db.manifest.live := by
  unfold Manifest.live
  rw [h.levels, h.levels, h.levels, ← List.map_append, ← List.map_append, List.map_map]
  refine List.mem_map.mpr ⟨t, ?_, rfl⟩
  simp only [List.mem_append]
  fin_cases l
  · exact Or.inl ht
  · exact Or.inr (Or.inl ht)
  · exact Or.inr (Or.inr ht)

theorem Filed.live_nodup (h : db.Filed d) : db.manifest.live.Nodup :=
  (List.nodup_append.mp h.unique).1

/-- Steps that leave the tables and what is pending as they are. -/
theorem Filed.congr (h : db.Filed d) (hm : d'.manifest = d.manifest) (ht : d'.tables = d.tables)
    (hn : ∀ n ∈ d'.numbers, n < db'.nextFileNumber)
    (hnext : db.nextFileNumber ≤ db'.nextFileNumber ∧ db'.nextFileNumber ≤ maxFileNumber)
    (hdm : db'.manifest = db.manifest) (hv : db'.version = db.version) (hj : db'.job = db.job)
    (hi : db'.immutable = db.immutable)
    (hfresh : ∀ i, db'.immutable = some i → db'.backgroundError = none → db'.job ≠ .flushBuilding →
      i.tableNumber ∉ d'.temporaries) : db'.Filed d' := by
  refine ⟨?_, ?_, ?_, ?_, hn, ⟨by have := h.next.1; omega, hnext.2⟩, ?_, ?_, ?_, ?_, ?_, hfresh⟩
  · rw [hm, hdm, h.manifest]
  · rw [hdm]
    exact h.written
  · rw [hdm, hv]
    exact h.levels
  · rw [hv]
    exact fun l t hmem => (h.placed l t hmem).congr ht
  · rw [hj]
    exact fun t hmem => (h.pending t hmem).congr ht
  · rw [hdm, hj]
    exact h.unique
  · rw [hi, hdm, hj]
    intro i hsome
    obtain ⟨hpos, hlt, hlive, hjob⟩ := h.reserved i hsome
    exact ⟨hpos, by omega, hlive, hjob⟩
  · rw [hj, hi]
    exact h.built
  · rw [hj, hdm, hi]
    intro p todo n done hjob
    obtain ⟨hpos, hlt, hrest⟩ := h.building p todo n done hjob
    exact ⟨hpos, by omega, hrest⟩

/-- A job with nothing pending. -/
theorem Filed.setJob (h : db.Filed d) (d' : Disk) (hm : d'.manifest = d.manifest)
    (hp : ∀ l, ∀ t ∈ db.version.level l, Placed d' t)
    (hn : ∀ n ∈ d'.numbers, n < db.nextFileNumber) {job : Job} (hj : job.tables = [])
    (hb : ∀ p todo n done, job ≠ .compacting p todo (some n) done) {e : Option Status} {next : ℕ}
    (hnext : db.nextFileNumber ≤ next ∧ next ≤ maxFileNumber)
    (hfresh : ∀ i, db.immutable = some i → e = none → job ≠ .flushBuilding →
      i.tableNumber ∉ d'.temporaries) :
    ({ db with job := job, backgroundError := e, nextFileNumber := next } : DB).Filed d' := by
  refine ⟨hm.trans h.manifest, h.written, h.levels, hp, ?_, ⟨?_, hnext.2⟩, ?_, ?_, ?_, ?_, ?_,
    hfresh⟩
  · intro n hmem
    exact (hn n hmem).trans_le hnext.1
  · exact h.next.1.trans_le hnext.1
  · simp [hj]
  · simp only [hj, List.map_nil, List.append_nil]
    exact h.live_nodup
  · intro i hi
    obtain ⟨hpos, hlt, hlive, _⟩ := h.reserved i hi
    exact ⟨hpos, hlt.trans_le hnext.1, hlive, by simp [hj]⟩
  · intro t ht
    have ht' : job = .flushBuilt t := ht
    simp [ht', Job.tables] at hj
  · intro p todo n done hjob
    exact absurd hjob (hb p todo n done)

theorem Filed.fail (h : db.Filed d) {e : Status} {tables : List Table} {next : ℕ}
    (ht : ∀ t ∈ tables, t ∈ db.job.tables) (hle : db.nextFileNumber ≤ next)
    (hmax : next ≤ max db.nextFileNumber maxFileNumber) :
    ({ db with nextFileNumber := next, backgroundError := some e, job := .idle } : DB).Filed
      (d.removeTables tables) := by
  obtain ⟨hm, _, _, hn⟩ := d.removeTables_frame tables
  have hnext := h.next.2
  have hmax' : next ≤ maxFileNumber := by
    rwa [max_eq_right hnext] at hmax
  apply h.setJob _ hm _ (fun n hmem => h.numbers n (hn hmem)) rfl (by simp) ⟨hle, hmax'⟩ (by simp)
  intro l t hmem
  -- what is served is not among the tables that are removed
  apply (h.placed l t hmem).removeTables
  intro u hu heq
  have hdis := List.disjoint_of_nodup_append h.unique (h.mem_live hmem)
  exact hdis (List.mem_map.mpr ⟨u, ht u hu, heq.symm⟩)

variable {i : ImmutableMemTable}

section

variable (h : db.Filed d)

include h

theorem Filed.flushOpen (hi : db.immutable = some i) :
    ({ db with job := .flushBuilding } : DB).Filed
      { d with temporaries := i.tableNumber :: d.temporaries } := by
  apply h.setJob { d with temporaries := i.tableNumber :: d.temporaries } rfl
    (fun l t ht => (h.placed l t ht).congr rfl) _ rfl (by simp) ⟨le_rfl, h.next.2⟩ (by simp)
  intro n hn
  rw [Disk.mem_numbers] at hn
  simp only [List.mem_cons] at hn
  rcases hn with hn | hn | rfl | hn
  · exact h.numbers n (Disk.mem_numbers.mpr (Or.inl hn))
  · exact h.numbers n (Disk.mem_numbers.mpr (Or.inr (Or.inl hn)))
  · exact (h.reserved i hi).2.1
  · exact h.numbers n (Disk.mem_numbers.mpr (Or.inr (Or.inr hn)))

theorem Filed.flushRename (hi : db.immutable = some i)
    (hnum : t.info.number = i.tableNumber) (hsize : 0 < t.info.fileSize) :
    ({ db with job := .flushBuilt t } : DB).Filed (d.renameTable i.tableNumber t.file) := by
  obtain ⟨hpos, hlt, hlive, _⟩ := h.reserved i hi
  have hnum' := hnum
  rw [← hnum] at hpos hlt hlive ⊢
  have hnodup : (db.manifest.live ++ [t.info.number]).Nodup := by
    rw [List.nodup_append]
    refine ⟨h.live_nodup, by simp, ?_⟩
    rintro a ha b hb rfl
    rw [List.mem_singleton] at hb
    exact hlive (hb ▸ ha)
  refine ⟨h.manifest, h.written, h.levels, ?_, ?_, h.next, ?_, hnodup, ?_, ?_, by simp, ?_⟩
  · intro l u hu
    apply (h.placed l u hu).renameTable
    intro heq
    exact hlive (heq ▸ h.mem_live hu)
  · intro n hn
    rcases Disk.mem_numbers_renameTable hn with rfl | hn
    · exact hlt
    · exact h.numbers n hn
  · intro u hu
    obtain rfl : u = t := by simpa [Job.tables] using hu
    exact Placed.of_rename hpos hsize
  · intro k hk
    obtain rfl : i = k := Option.some.inj (hi.symm.trans hk)
    rw [← hnum']
    refine ⟨hpos, hlt, hlive, ?_⟩
    intro u hu _
    obtain rfl : u = t := by simpa [Job.tables] using hu
    rfl
  · intro u hu
    obtain rfl : t = u := by simpa using hu
    exact ⟨i, hi, hnum'⟩
  · intro k hk _ _
    obtain rfl : i = k := Option.some.inj (hi.symm.trans hk)
    simp [Disk.renameTable, Disk.removeTemporary, hnum']

/-- What a flush is about to publish. -/
theorem Filed.describes_flush
    (hj : db.job = .flushBuilt t) :
    Describes (flushCandidate db i t).1 (flushCandidate db i t).2 := by
  have hunique := h.unique
  rw [hj] at hunique
  have hlive : (flushCandidate db i t).1.live = t.info.number :: db.manifest.live := by
    simp [flushCandidate, Manifest.live]
  have hpending := h.pending t (by simp [hj, Job.tables])
  refine ⟨?_, ?_, ?_⟩
  · intro l
    simp only [flushCandidate, withLevel0Table_level]
    by_cases hl : l = 0
    · subst hl
      simp [h.levels]
    · simp [hl, h.levels]
  · intro l u hu
    simp only [flushCandidate, withLevel0Table_level] at hu
    split at hu
    · rcases List.mem_cons.mp hu with rfl | hu
      · exact ⟨hpending.number, hpending.size⟩
      · exact ⟨(h.placed 0 u hu).number, (h.placed 0 u hu).size⟩
    · exact ⟨(h.placed l u hu).number, (h.placed l u hu).size⟩
  · exact (List.perm_append_comm.nodup_iff).mp hunique

theorem Filed.flushCommit {n live : ℕ}
    (hj : db.job = .flushBuilt t) (hn : encodeManifest (flushCandidate db i t).1 = .ok n) :
    ({ db with
        manifest := (flushCandidate db i t).1
        version := (flushCandidate db i t).2
        immutable := none
        job := .removingWals live } : DB).Filed
      { d with manifest := some (flushCandidate db i t).1 } := by
  have hd := h.describes_flush (i := i) hj
  refine ⟨rfl, ⟨n, hn⟩, hd.levels, ?_, h.numbers, h.next, by simp [Job.tables], ?_, by simp,
    by simp, by simp, by simp⟩
  · intro l u hu
    simp only [flushCandidate, withLevel0Table_level] at hu
    split at hu
    · rcases List.mem_cons.mp hu with rfl | hu
      · exact (h.pending u (by simp [hj, Job.tables])).congr rfl
      · exact (h.placed 0 u hu).congr rfl
    · exact (h.placed l u hu).congr rfl
  · simpa [Job.tables] using hd.unique

theorem Filed.outputOpen {p : CompactionPlan} {todo todo' : List (List Entry)}
    (hj : db.job = .compacting p todo none done) (hmax : db.nextFileNumber ≠ maxFileNumber) :
    ({ db with
        nextFileNumber := db.nextFileNumber + 1
        job := .compacting p todo' (some db.nextFileNumber) done } : DB).Filed
      { d with temporaries := db.nextFileNumber :: d.temporaries } := by
  have hunique := h.unique
  have hpending := h.pending
  have hres := h.reserved
  rw [hj] at hunique hpending hres
  refine ⟨h.manifest, h.written, h.levels, fun l t ht => (h.placed l t ht).congr rfl, ?_, ?_, ?_,
    hunique, ?_, by simp, ?_, ?_⟩
  · intro n hn
    rw [Disk.mem_numbers] at hn
    simp only [List.mem_cons] at hn
    rcases hn with hn | hn | rfl | hn
    · exact Nat.lt_succ_of_lt (h.numbers n (Disk.mem_numbers.mpr (Or.inl hn)))
    · exact Nat.lt_succ_of_lt (h.numbers n (Disk.mem_numbers.mpr (Or.inr (Or.inl hn))))
    · exact Nat.lt_succ_self _
    · exact Nat.lt_succ_of_lt (h.numbers n (Disk.mem_numbers.mpr (Or.inr (Or.inr hn))))
  · have := h.next
    change 0 < db.nextFileNumber + 1 ∧ db.nextFileNumber + 1 ≤ maxFileNumber
    omega
  · exact fun t ht => (hpending t ht).congr rfl
  · intro i hi
    obtain ⟨hpos, hlt, hlive, hjob⟩ := hres i hi
    refine ⟨hpos, Nat.lt_succ_of_lt hlt, hlive, ?_⟩
    intro t ht heq
    simpa using hjob t ht heq
  · intro q todo n done' hq
    obtain ⟨rfl, rfl, rfl, rfl⟩ := by simpa using hq
    refine ⟨h.next.1, Nat.lt_succ_self _, fun hlive => lt_irrefl _ (h.live_lt hlive), ?_, ?_⟩
    · intro t ht heq
      exact lt_irrefl _ (heq ▸ h.numbers _ (hpending t ht).mem_numbers)
    · intro i hi heq
      exact lt_irrefl _ (heq ▸ (hres i hi).2.1)
  · intro i hi hbg _ hmem
    rcases List.mem_cons.mp hmem with heq | hmem
    · exact lt_irrefl _ (heq ▸ (h.reserved i hi).2.1)
    · exact h.fresh i hi hbg (by simp [hj]) hmem

theorem Filed.outputFinish {p : CompactionPlan} {todo todo' : List (List Entry)} {n : ℕ}
    (hj : db.job = .compacting p todo (some n) done)
    (hnum : t.info.number = n) (hsize : 0 < t.info.fileSize) :
    ({ db with job := .compacting p todo' none (done ++ [t]) } : DB).Filed
      (d.renameTable n t.file) := by
  obtain ⟨hpos, hlt, hlive, hdone, himm⟩ := h.building p todo n done hj
  subst hnum
  have hunique := h.unique
  have hpending := h.pending
  have hres := h.reserved
  rw [hj] at hunique hpending hres
  have hnodup : (db.manifest.live ++ (done ++ [t]).map fun t => t.info.number).Nodup := by
    rw [List.map_append, ← List.append_assoc, List.nodup_append]
    refine ⟨hunique, by simp, ?_⟩
    rintro a ha b hb rfl
    obtain rfl : a = t.info.number := by simpa using hb
    rcases List.mem_append.mp ha with ha | ha
    · exact hlive ha
    · obtain ⟨u, hu, heq⟩ := List.mem_map.mp ha
      exact hdone u hu heq
  refine ⟨h.manifest, h.written, h.levels, ?_, ?_, h.next, ?_, hnodup, ?_, by simp, by simp, ?_⟩
  · intro l u hu
    apply (h.placed l u hu).renameTable
    intro heq
    exact hlive (heq ▸ h.mem_live hu)
  · intro k hk
    rcases Disk.mem_numbers_renameTable hk with rfl | hk
    · exact hlt
    · exact h.numbers k hk
  · intro u hu
    rcases List.mem_append.mp hu with hu | hu
    · exact (hpending u hu).renameTable (hdone u hu) _
    · obtain rfl : u = t := by simpa using hu
      exact Placed.of_rename hpos hsize
  · intro i hi
    obtain ⟨hpos', hlt', hlive', hjob⟩ := hres i hi
    refine ⟨hpos', hlt', hlive', ?_⟩
    intro u hu heq
    rcases List.mem_append.mp hu with hu | hu
    · simpa using hjob u hu heq
    · obtain rfl : u = t := by simpa using hu
      exact absurd heq.symm (himm i hi)
  · intro i hi hbg _ hmem
    exact h.fresh i hi hbg (by simp [hj]) (List.mem_of_mem_filter hmem)

end

end DB

/-! ## Installing a compaction -/

theorem IndexRange.replace_perm {α : Type*} (r : IndexRange) (l new : List α) :
    (r.replace l new).Perm (r.erase l ++ new) := by
  unfold replace erase
  rw [List.append_assoc, List.append_assoc]
  exact List.perm_append_comm.append_left _

theorem IndexRange.count_erase_le {r : IndexRange} (h : r.start ≤ r.stop) (l : List ℕ) (k : ℕ) :
    (r.erase l).count k ≤ l.count k :=
  (r.erase_sublist h l).count_le k

theorem IndexRange.count_replace_le {r : IndexRange} (h : r.start ≤ r.stop) (l new : List ℕ)
    (k : ℕ) : (r.replace l new).count k ≤ l.count k + new.count k := by
  rw [(r.replace_perm l new).count_eq, List.count_append]
  have := IndexRange.count_erase_le h l k
  omega

theorem Manifest.count_live (m : Manifest) (k : ℕ) : m.live.count k =
    ((m.levels 0).map TableMeta.number).count k + ((m.levels 1).map TableMeta.number).count k +
      ((m.levels 2).map TableMeta.number).count k := by
  simp only [live, List.map_append, List.count_append]
  omega

section Install

variable {p : CompactionPlan}

theorem compactionCandidate_levels (db : DB) (p : CompactionPlan) (done : List Table) (l : Fin 3) :
    (compactionCandidate db p done).1.levels l =
      if l = p.outputLevel then
        p.overlaps.replace (db.manifest.levels p.outputLevel) (done.map Table.info)
      else if l = p.sourceLevel then p.inputs.erase (db.manifest.levels p.sourceLevel)
      else db.manifest.levels l := by
  by_cases ho : l = p.outputLevel
  · subst ho
    simp [compactionCandidate]
  · by_cases hs : l = p.sourceLevel
    · subst hs
      simp [compactionCandidate, p.source_lt_output.ne]
    · simp [compactionCandidate, ho, hs]

theorem install_level (p : CompactionPlan) (outs : List Table) (l : Fin 3) :
    (p.install outs).level l =
      if l = p.outputLevel then p.overlaps.replace (p.inputVersion.level p.outputLevel) outs
      else if l = p.sourceLevel then p.inputs.erase (p.inputVersion.level p.sourceLevel)
      else p.inputVersion.level l := by
  by_cases ho : l = p.outputLevel
  · subst ho
    simp [p.level_output]
  · by_cases hs : l = p.sourceLevel
    · subst hs
      simp [p.level_source, p.source_lt_output.ne]
    · simp [CompactionPlan.level_other hs ho, ho, hs]

/-- A number is used by the candidate no more often than before and by the outputs. -/
theorem compactionCandidate_count (db : DB) (done : List Table) (hf : p.Fits) (k : ℕ) :
    (compactionCandidate db p done).1.live.count k ≤
      db.manifest.live.count k + (done.map fun t => t.info.number).count k := by
  have hin := IndexRange.count_erase_le hf.inputs.1.le
    ((db.manifest.levels p.sourceLevel).map TableMeta.number) k
  have hout := IndexRange.count_replace_le hf.overlaps.1
    ((db.manifest.levels p.outputLevel).map TableMeta.number) (done.map fun t => t.info.number) k
  simp only [Manifest.count_live, compactionCandidate_levels]
  obtain hl | hl : p.inputLevel = 0 ∨ p.inputLevel = 1 := by
    generalize p.inputLevel = l
    fin_cases l <;> simp
  · have hs : p.sourceLevel = 0 := by simp [CompactionPlan.sourceLevel, hl]
    have ho : p.outputLevel = 1 := by simp [CompactionPlan.outputLevel, hl]
    rw [hs] at hin
    rw [ho] at hout
    simp [hs, ho, IndexRange.map_erase, IndexRange.map_replace, Function.comp_def]
    omega
  · have hs : p.sourceLevel = 1 := by simp [CompactionPlan.sourceLevel, hl]
    have ho : p.outputLevel = 2 := by simp [CompactionPlan.outputLevel, hl]
    rw [hs] at hin
    rw [ho] at hout
    simp [hs, ho, IndexRange.map_erase, IndexRange.map_replace, Function.comp_def]
    omega

end Install

namespace DB

variable {cfg : Config} {d d' : Disk} {db db' : DB} {ops : List Operation} {p : CompactionPlan}

/-- A table of the installed version was there before or is an output. -/
theorem mem_install (hf : p.Fits) {l : Fin 3} {t : Table}
    (ht : t ∈ (p.install done).level l) : (∃ k, t ∈ p.inputVersion.level k) ∨ t ∈ done := by
  rw [install_level] at ht
  split_ifs at ht
  · rcases List.mem_append.mp ((p.overlaps.replace_perm _ _).mem_iff.mp ht) with ht | ht
    · exact Or.inl ⟨_, (IndexRange.erase_sublist hf.overlaps.1 _).subset ht⟩
    · exact Or.inr ht
  · exact Or.inl ⟨_, (IndexRange.erase_sublist hf.inputs.1.le _).subset ht⟩
  · exact Or.inl ⟨_, ht⟩

/-- What a compaction is about to publish. -/
theorem Filed.describes_compaction (h : db.Filed d)
    (hj : db.job = .compacting p [] none done) (hv : p.inputVersion = db.version) (hf : p.Fits) :
    Describes (compactionCandidate db p done).1 (compactionCandidate db p done).2 := by
  have hversion : (compactionCandidate db p done).2 = p.install done := rfl
  have hunique := h.unique
  rw [hj] at hunique
  have hcount := List.nodup_iff_count_le_one.mp hunique
  refine ⟨?_, ?_, ?_⟩
  · intro l
    rw [compactionCandidate_levels, hversion, install_level, hv]
    split_ifs
    · rw [IndexRange.map_replace, h.levels]
    · rw [IndexRange.map_erase, h.levels]
    · exact h.levels l
  · intro l t ht
    rcases mem_install hf ht with ⟨k, hk⟩ | hdone
    · rw [hv] at hk
      exact ⟨(h.placed k t hk).number, (h.placed k t hk).size⟩
    · have := h.pending t (by rw [hj]; exact hdone)
      exact ⟨this.number, this.size⟩
  · rw [List.nodup_iff_count_le_one]
    intro k
    have hle := compactionCandidate_count db done hf k
    have hone := hcount k
    rw [List.count_append] at hone
    simp only [Job.tables] at hone
    omega

theorem Filed.compactCommit (h : db.Filed d) {n : ℕ}
    (hj : db.job = .compacting p [] none done) (hv : p.inputVersion = db.version) (hf : p.Fits)
    (hn : encodeManifest (compactionCandidate db p done).1 = .ok n) :
    ({ db with
        manifest := (compactionCandidate db p done).1
        version := (compactionCandidate db p done).2
        job := .removingTables } : DB).Filed
      { d with manifest := some (compactionCandidate db p done).1 } := by
  have hd := h.describes_compaction hj hv hf
  have hlive : ∀ k ∈ (compactionCandidate db p done).1.live,
      k ∈ db.manifest.live ∨ ∃ t ∈ done, t.info.number = k := by
    intro k hk
    have hle := compactionCandidate_count db done hf k
    have hpos := List.count_pos_iff.mpr hk
    by_cases hold : k ∈ db.manifest.live
    · exact Or.inl hold
    · rw [List.count_eq_zero_of_not_mem hold] at hle
      have hmem : 0 < (done.map fun t => t.info.number).count k := by omega
      exact Or.inr (List.mem_map.mp (List.count_pos_iff.mp hmem))
  refine ⟨rfl, ⟨n, hn⟩, hd.levels, ?_, h.numbers, h.next, by simp [Job.tables], ?_, ?_, by simp,
    by simp, ?_⟩
  · intro l t ht
    rcases mem_install hf ht with ⟨k, hk⟩ | hdone
    · rw [hv] at hk
      exact (h.placed k t hk).congr rfl
    · exact (h.pending t (by rw [hj]; exact hdone)).congr rfl
  · simpa [Job.tables] using hd.unique
  · intro i hi
    obtain ⟨hpos, hlt, hnot, hjob⟩ := h.reserved i hi
    refine ⟨hpos, hlt, ?_, by simp [Job.tables]⟩
    intro hmem
    rcases hlive _ hmem with hold | ⟨t, ht, heq⟩
    · exact hnot hold
    · have := hjob t (by rw [hj]; exact ht) heq
      simp [hj] at this
  · intro i hi hbg _ hmem
    exact h.fresh i hi hbg (by simp [hj]) hmem

/-- The background thread keeps the files. -/
theorem Filed.work (h : db.Filed d) (hs : db.Sound ops) (hw : Work cfg d db d' db') :
    db'.Filed d' := by
  have hsame : ∀ l, ∀ t ∈ db.version.level l, Placed d t := h.placed
  cases hw with
  | fail e tables next ht hle hmax => exact h.fail ht hle hmax
  | flushOpen i hj hi hn => exact h.flushOpen hi
  | flushRename i t hj hi ht =>
    obtain ⟨hnum, hsize, _⟩ := buildTable_spec ht
    exact h.flushRename hi hnum hsize
  | flushCommit i t n hj hi hn => exact h.flushCommit hj hn
  | compactPick p chunks hj hp hb =>
    apply h.setJob _ rfl hsame h.numbers rfl (by simp) ⟨le_rfl, h.next.2⟩
    exact fun i hi hbg _ => h.fresh i hi hbg (by simp [hj])
  | outputOpen p c todo done hj hmax hzero htemp => exact h.outputOpen hj hmax
  | outputFinish p c todo n done t hj ht =>
    obtain ⟨hnum, hsize, _⟩ := buildTable_spec ht
    exact h.outputFinish hj hnum hsize
  | compactCommit p done n hj hn =>
    have hc := hs.compacting p [] none done hj
    exact h.compactCommit hj hc.version hc.fits hn
  | removeWal n hj =>
    exact h.congr rfl rfl (fun k hk => h.numbers k (Disk.mem_numbers_removeWal hk))
      ⟨le_rfl, h.next.2⟩ rfl rfl rfl rfl h.fresh
  | removeTable n hj hlive =>
    have htables : db.job.tables = [] := by rcases hj with hj | hj <;> simp [hj, Job.tables]
    have hcomp : ∀ p todo n done, db.job ≠ .compacting p todo (some n) done := by
      rcases hj with hj | hj <;> simp [hj]
    apply h.setJob (d.removeTable n) rfl _
      (fun k hk => h.numbers k (Disk.mem_numbers_removeTable hk)) htables hcomp ⟨le_rfl, h.next.2⟩
      h.fresh
    intro l t ht
    apply (h.placed l t ht).removeTable
    intro heq
    exact hlive (heq ▸ h.mem_live ht)
  | removeTemporary n hj =>
    apply h.congr (show (d.removeTemporary n).manifest = _ from rfl) rfl
      (fun k hk => h.numbers k (Disk.mem_numbers_removeTemporary hk)) ⟨le_rfl, h.next.2⟩ rfl rfl
        rfl rfl
    exact fun i hi hbg hne hmem => h.fresh i hi hbg hne (List.mem_of_mem_filter hmem)
  | finishRemoval job hj hjob =>
    have htables : job.tables = [] := by rcases hjob with hjob | hjob <;> simp [hjob, Job.tables]
    have hcomp : ∀ p todo n done, job ≠ .compacting p todo (some n) done := by
      rcases hjob with hjob | hjob <;> simp [hjob]
    apply h.setJob _ rfl hsame h.numbers htables hcomp ⟨le_rfl, h.next.2⟩
    intro i hi hbg _
    exact h.fresh i hi hbg hj

/-- A rotation takes two new numbers. -/
theorem Filed.room (h : db.Filed d) (hr : Room cfg d db d' db') : db'.Filed d' := by
  cases hr with
  | enough => exact h
  | rotated hfull hi hnum =>
    have hnext := h.next
    refine ⟨?_, h.written, h.levels, ?_, ?_, ?_, ?_, h.unique, ?_, ?_, ?_, ?_⟩
    · rw [Disk.openWal_manifest]
      exact h.manifest
    · exact fun l t ht => (h.placed l t ht).congr (Disk.openWal_tables _ _)
    · intro n hn
      change n < db.nextFileNumber + 2
      rcases Disk.mem_numbers_openWal hn with rfl | hn
      · omega
      · have := h.numbers n hn
        omega
    · change 0 < db.nextFileNumber + 2 ∧ db.nextFileNumber + 2 ≤ maxFileNumber
      omega
    · exact fun t ht => (h.pending t ht).congr (Disk.openWal_tables _ _)
    · intro i hi'
      cases hi'
      refine ⟨hnext.1, Nat.lt_add_of_pos_right (by omega), fun hlive => lt_irrefl _
        (h.live_lt hlive), ?_⟩
      intro t ht heq
      have := h.numbers _ (h.pending t ht).mem_numbers
      simp only at heq
      omega
    · intro t ht
      obtain ⟨i, hi', _⟩ := h.built t ht
      simp [hi] at hi'
    · intro p todo n done hj
      obtain ⟨hpos, hlt, hlive, hdone, _⟩ := h.building p todo n done hj
      refine ⟨hpos, Nat.lt_add_right 2 hlt, hlive, hdone, ?_⟩
      intro i hi' heq
      cases hi'
      simp only at heq
      omega
    · intro i hi' hbg hne hmem
      cases hi'
      rw [Disk.openWal_temporaries] at hmem
      exact lt_irrefl _ (h.numbers _ (Disk.mem_numbers.mpr (Or.inr (Or.inr hmem))))

theorem Filed.logging {batch : WriteBatch} {ok : Bool} (h : db.Filed d)
    (hl : Logging batch d db ok d' db') : db'.Filed d' := by
  cases hl with
  | refused => exact h
  | torn payload n _ _ _ =>
    exact h.congr rfl rfl (by rw [Disk.numbers_mapWal]; exact h.numbers) ⟨le_rfl, h.next.2⟩ rfl rfl
      rfl rfl h.fresh
  | unsynced payload _ _ =>
    exact h.congr rfl rfl (by rw [Disk.numbers_mapWal]; exact h.numbers) ⟨le_rfl, h.next.2⟩ rfl rfl
      rfl rfl h.fresh
  | applied payload sync _ _ =>
    exact h.congr rfl rfl (by rw [Disk.numbers_mapWal]; exact h.numbers) ⟨le_rfl, h.next.2⟩ rfl rfl
      rfl rfl h.fresh

end DB

end Mizu.Lsm
