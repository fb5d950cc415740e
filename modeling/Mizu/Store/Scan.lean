import Mizu.Store.RegionStorage

/-!
# Scans

`Node.Scan` of `kv/node/node.go` after the wait for a linearizable read, with `lsmIterator` of
`kv/storage/lsm.go` over the iterator of the database. Creating that iterator, moving it and
copying its item may fail. A failed iterator is invalid, as one at its end is.
-/

namespace Mizu

/-- The calls that fail: `next n`, `peek n` and `item n` are about the `n`-th `Next`, the `Item`
inside the `n`-th `Valid`, and the `n`-th `Item` of the loop. -/
structure ScanFaults where
  reader : Bool := false
  create : Bool := false
  seek : Bool := false
  next : ℕ → Bool := fun _ => false
  peek : ℕ → Bool := fun _ => false
  item : ℕ → Bool := fun _ => false

/-- The iterator of the database: the items from its position on, and its status. -/
structure DbCursor where
  rest : List (Bytes × Bytes) := []
  ok : Bool := true

namespace DbCursor

def valid (c : DbCursor) : Bool := c.ok && !c.rest.isEmpty

def seek (db : Database) (target : Bytes) (fault : Bool) (c : DbCursor) : DbCursor :=
  if !c.ok then c else if fault then ⟨[], false⟩ else ⟨db.scan target, true⟩

def next (fault : Bool) (c : DbCursor) : DbCursor :=
  if fault then ⟨[], false⟩ else ⟨c.rest.tail, c.ok⟩

/-- `Iterator.Item` of the cgo layer -/
def item (fault : Bool) (c : DbCursor) : Option (Bytes × Bytes) :=
  if fault || !c.ok then none else c.rest.head?

end DbCursor

/-- `lsmIterator`; without an iterator of the database it carries the error of its creation. -/
structure LsmIterator where
  iterator : Option DbCursor
  keyPrefix : Bytes
  err : Bool

namespace LsmIterator

/-- `lsmRegionReader.IterCF` -/
def create (regionID : ℕ) (cf : Bytes) (fault : Bool) : LsmIterator :=
  if fault then ⟨none, [], true⟩ else ⟨some {}, encodeCFPrefix regionID cf, false⟩

def seek (db : Database) (key : Bytes) (fault : Bool) (it : LsmIterator) : LsmIterator :=
  if it.err then it else
    { it with iterator := it.iterator.map (DbCursor.seek db (it.keyPrefix ++ key) fault) }

/-- `Valid` notes an error of `Item` in the iterator. -/
def valid (fault : Bool) (it : LsmIterator) : Bool × LsmIterator :=
  match it.iterator with
  | none => (false, it)
  | some c =>
    if it.err || !c.valid then (false, it) else
      match c.item fault with
      | none => (false, { it with err := true })
      | some item => (it.keyPrefix.isPrefixOf item.1, it)

def next (fault : Bool) (it : LsmIterator) : LsmIterator :=
  if it.err then it else { it with iterator := it.iterator.map (DbCursor.next fault) }

def item (fault : Bool) (it : LsmIterator) : Option (Bytes × Bytes) :=
  if it.err then none else it.iterator.bind (DbCursor.item fault)

end LsmIterator

/-- The loop of `Scan` from its `n`-th round on; `none` is an error response. -/
def scanLoop (F : ScanFaults) (regionID : ℕ) (cf : Bytes) (limit : ℕ) :
    ℕ → ℕ → LsmIterator → List (Bytes × Bytes) → Option (List (Bytes × Bytes))
  | 0, _, _, _ => none
  | fuel + 1, n, it, pairs =>
    match it.valid (F.peek n) with
    | (false, _) => some pairs
    | (true, it) =>
      match it.item (F.item n) with
      | none => none
      | some item =>
        match decodeUserKey regionID cf item.1 with
        | none => scanLoop F regionID cf limit fuel (n + 1) (it.next (F.next n)) pairs
        | some userKey =>
          if limit > 0 ∧ (pairs ++ [(userKey, item.2)]).length ≥ limit then
            some (pairs ++ [(userKey, item.2)])
          else scanLoop F regionID cf limit fuel (n + 1) (it.next (F.next n))
            (pairs ++ [(userKey, item.2)])

/-- The items before the iterator, one more than the loop can pass. -/
def LsmIterator.fuel (it : LsmIterator) : ℕ := (it.iterator.elim 0 fun c => c.rest.length) + 1

/-- `Node.Scan` -/
def scan (F : ScanFaults) (regionID : ℕ) (cf startKey : Bytes) (limit : ℕ) (db : Database) :
    Option (List (Bytes × Bytes)) :=
  if F.reader then none else
    let it := (LsmIterator.create regionID cf F.create).seek db startKey F.seek
    scanLoop F regionID cf limit it.fuel 0 it []

/-! ### What a scan should answer -/

/-- The pairs stored under a region and column family, from a key on. -/
def stored (regionID : ℕ) (cf startKey : Bytes) (db : Database) : List (Bytes × Bytes) :=
  (iterCF regionID cf startKey db).map fun kv =>
    (kv.1.drop (encodeCFPrefix regionID cf).length, kv.2)

/-- The first `limit` pairs, all of them when `limit` is zero. -/
def cut (limit : ℕ) (pairs : List (Bytes × Bytes)) : List (Bytes × Bytes) :=
  if limit > 0 then pairs.take limit else pairs

section

variable {r : ℕ} {cf startKey : Bytes} {db : Database}

theorem iterCF_eq_map_stored (r : ℕ) (cf startKey : Bytes) (db : Database) :
    iterCF r cf startKey db =
      (stored r cf startKey db).map fun kv => (encodeKey r kv.1 cf, kv.2) := by
  rw [stored, List.map_map]
  conv_lhs => rw [← List.map_id (iterCF r cf startKey db)]
  apply List.map_congr_left
  rintro ⟨k, v⟩ hmem
  obtain ⟨key, rfl, -⟩ := mem_iterCF.mp hmem
  simp [encodeKey]

theorem mem_stored {k v : Bytes} :
    (k, v) ∈ stored r cf startKey db ↔ startKey ≤ k ∧ db.get (encodeKey r k cf) = some v := by
  constructor
  · intro h
    have hmem : (encodeKey r k cf, v) ∈ iterCF r cf startKey db := by
      rw [iterCF_eq_map_stored]
      exact List.mem_map_of_mem h
    obtain ⟨key, hkey, hle, hget⟩ := mem_iterCF.mp hmem
    rw [List.append_cancel_left hkey]
    exact ⟨hle, hkey ▸ hget⟩
  · rintro ⟨hle, hget⟩
    refine List.mem_map.mpr ⟨(encodeKey r k cf, v), mem_iterCF.mpr ⟨k, rfl, hle, hget⟩, ?_⟩
    simp [encodeKey]

theorem pairwise_stored (r : ℕ) (cf startKey : Bytes) (db : Database) :
    (stored r cf startKey db).Pairwise fun a b => a.1 < b.1 := by
  have h : (iterCF r cf startKey db).Pairwise fun a b => a.1 < b.1 :=
    db.pairwise_scanUnder _ _
  rw [iterCF_eq_map_stored, List.pairwise_map] at h
  exact h.imp fun hlt => (Lexicographic.append_lt_append_iff _).mp hlt

/-! ### The loop -/

/-- An iterator of the column family before the items `rest`. -/
def LsmIterator.before (r : ℕ) (cf : Bytes) (rest : List (Bytes × Bytes)) : LsmIterator :=
  ⟨some ⟨rest, true⟩, encodeCFPrefix r cf, false⟩

variable {F : ScanFaults} {limit : ℕ}

theorem scanLoop_of_invalid {fuel n : ℕ} {it : LsmIterator}
    {pairs : List (Bytes × Bytes)} (h : (it.valid (F.peek n)).1 = false) :
    scanLoop F r cf limit (fuel + 1) n it pairs = some pairs := by
  rw [scanLoop]
  generalize it.valid (F.peek n) = answer at h
  obtain ⟨valid, it'⟩ := answer
  obtain rfl : valid = false := h
  rfl

variable {rest : List (Bytes × Bytes)}

/-- At the end of the column family the loop ends, whatever fails there. -/
theorem valid_before_end (h : ∀ kv ∈ rest.head?, ¬encodeCFPrefix r cf <+: kv.1) (fault : Bool) :
    ((LsmIterator.before r cf rest).valid fault).1 = false := by
  cases rest with
  | nil => rfl
  | cons kv rest =>
    have hkv : (encodeCFPrefix r cf).isPrefixOf kv.1 = false := by
      rw [← Bool.not_eq_true, List.isPrefixOf_iff_prefix]
      exact h kv rfl
    cases fault with
    | true => rfl
    | false => exact hkv

theorem valid_before_cons (key value : Bytes) (rest : List (Bytes × Bytes)) :
    (LsmIterator.before r cf ((encodeKey r key cf, value) :: rest)).valid false =
      (true, LsmIterator.before r cf ((encodeKey r key cf, value) :: rest)) := by
  have h : (encodeCFPrefix r cf).isPrefixOf (encodeKey r key cf) = true :=
    List.isPrefixOf_iff_prefix.mpr (List.prefix_append ..)
  simp [LsmIterator.valid, LsmIterator.before, DbCursor.valid, DbCursor.item, h]

/-- The pairs that are still missing when `collected` of them have been collected. -/
def missing (limit collected : ℕ) (pairs : List (Bytes × Bytes)) : List (Bytes × Bytes) :=
  if limit > 0 then pairs.take (limit - collected) else pairs

/-- One round of the loop at an item of the column family. -/
theorem scanLoop_cons {fuel n : ℕ} {key value : Bytes}
    {pairs : List (Bytes × Bytes)} (hpeek : F.peek n = false) :
    scanLoop F r cf limit (fuel + 1) n
        (LsmIterator.before r cf ((encodeKey r key cf, value) :: rest)) pairs =
      if F.item n then none
      else if limit > 0 ∧ pairs.length + 1 ≥ limit then some (pairs ++ [(key, value)])
      else scanLoop F r cf limit fuel (n + 1)
        ((LsmIterator.before r cf ((encodeKey r key cf, value) :: rest)).next (F.next n))
        (pairs ++ [(key, value)]) := by
  rw [scanLoop, hpeek, valid_before_cons]
  cases hitem : F.item n with
  | true => rfl
  | false =>
    have : (LsmIterator.before r cf ((encodeKey r key cf, value) :: rest)).item false =
        some (encodeKey r key cf, value) := rfl
    simp only [this, decodeUserKey_encodeKey, List.length_append, List.length_singleton]
    rfl

/-- From round `n` on and until `count` pairs have been collected, the iterator fails only behind an
`Item` of the loop that has failed. -/
structure Reported (F : ScanFaults) (n count : ℕ) : Prop where
  peek : ∀ k < count, F.peek (n + k) = true → ∃ i < k, F.item (n + i) = true
  next : ∀ k, k + 1 < count → F.next (n + k) = true → ∃ i ≤ k, F.item (n + i) = true

/-- How the loop ends that has collected `pairs` before round `n` and should collect `us`. -/
structure Ends (F : ScanFaults) (n : ℕ) (us pairs : List (Bytes × Bytes))
    (answer : Option (List (Bytes × Bytes))) : Prop where
  complete : Reported F n us.length →
    (answer = none ∧ ∃ i < us.length, F.item (n + i) = true) ∨
      answer = some (pairs ++ us) ∧ ∀ i < us.length, F.item (n + i) = false
  short : ¬Reported F n us.length → ∃ t, t.length < us.length ∧ answer = some (pairs ++ t)

section Ends

variable {n : ℕ} {u : Bytes × Bytes} {us pairs : List (Bytes × Bytes)}
  {answer : Option (List (Bytes × Bytes))}

theorem Ends.nil : Ends F n [] pairs (some pairs) where
  complete _ := .inr ⟨by rw [List.append_nil], fun _ h => absurd h (Nat.not_lt_zero _)⟩
  short h := absurd ⟨fun _ h => absurd h (Nat.not_lt_zero _),
    fun _ h => absurd h (Nat.not_lt_zero _)⟩ h

theorem Ends.peek (h : F.peek n = true) : Ends F n (u :: us) pairs (some pairs) where
  complete hr := by
    obtain ⟨i, hi, -⟩ := hr.peek 0 (Nat.succ_pos _) h
    exact absurd hi (Nat.not_lt_zero i)
  short _ := ⟨[], Nat.succ_pos _, by rw [List.append_nil]⟩

theorem Ends.item (hpeek : F.peek n = false) (h : F.item n = true) :
    Ends F n (u :: us) pairs none where
  complete _ := .inl ⟨rfl, 0, Nat.succ_pos _, h⟩
  short hr := by
    refine absurd ⟨fun k _ hk => ?_, fun k _ _ => ⟨0, Nat.zero_le k, h⟩⟩ hr
    cases k with
    | zero => exact absurd hk (by simp [hpeek])
    | succ k => exact ⟨0, Nat.succ_pos k, h⟩

theorem Ends.last (hpeek : F.peek n = false) (hitem : F.item n = false) :
    Ends F n [u] pairs (some (pairs ++ [u])) where
  complete _ := by
    refine .inr ⟨rfl, fun i hi => ?_⟩
    obtain rfl : i = 0 := Nat.lt_one_iff.mp hi
    exact hitem
  short hr := by
    refine absurd ⟨fun k hk hfail => ?_, fun k hk _ => ?_⟩ hr
    · obtain rfl : k = 0 := Nat.lt_one_iff.mp hk
      exact absurd hfail (by simp [hpeek])
    · exact absurd hk (by simp)

theorem Ends.next (hitem : F.item n = false) (h : F.next n = true) (hus : us ≠ []) :
    Ends F n (u :: us) pairs (some (pairs ++ [u])) where
  complete hr := by
    obtain ⟨i, hi, hfail⟩ := hr.next 0 (by simpa [List.length_pos_iff] using hus) h
    obtain rfl : i = 0 := Nat.le_zero.mp hi
    exact absurd hfail (by simp [hitem])
  short _ := ⟨[u], by simpa [List.length_pos_iff] using hus, rfl⟩

/-- A round in which nothing fails. -/
theorem Ends.cons (hpeek : F.peek n = false) (hitem : F.item n = false) (hnext : F.next n = false)
    (h : Ends F (n + 1) us (pairs ++ [u]) answer) : Ends F n (u :: us) pairs answer := by
  have hshift (k : ℕ) : n + (k + 1) = n + 1 + k := by omega
  have hiff : Reported F n (u :: us).length ↔ Reported F (n + 1) us.length := by
    constructor
    · intro hr
      refine ⟨fun k hk hfail => ?_, fun k hk hfail => ?_⟩
      · obtain ⟨i, hi, hfails⟩ := hr.peek (k + 1) (Nat.succ_lt_succ hk) (by rwa [hshift])
        cases i with
        | zero => exact absurd hfails (by simp [hitem])
        | succ i => exact ⟨i, Nat.lt_of_succ_lt_succ hi, by rwa [← hshift]⟩
      · obtain ⟨i, hi, hfails⟩ := hr.next (k + 1) (Nat.succ_lt_succ hk) (by rwa [hshift])
        cases i with
        | zero => exact absurd hfails (by simp [hitem])
        | succ i => exact ⟨i, Nat.le_of_succ_le_succ hi, by rwa [← hshift]⟩
    · intro hr
      refine ⟨fun k hk hfail => ?_, fun k hk hfail => ?_⟩
      · cases k with
        | zero => exact absurd hfail (by simp [hpeek])
        | succ k =>
          obtain ⟨i, hi, hfails⟩ := hr.peek k (Nat.lt_of_succ_lt_succ hk) (by rwa [← hshift])
          exact ⟨i + 1, Nat.succ_lt_succ hi, by rwa [hshift]⟩
      · cases k with
        | zero => exact absurd hfail (by simp [hnext])
        | succ k =>
          obtain ⟨i, hi, hfails⟩ := hr.next k (Nat.lt_of_succ_lt_succ hk) (by rwa [← hshift])
          exact ⟨i + 1, Nat.succ_le_succ hi, by rwa [hshift]⟩
  refine ⟨fun hr => ?_, fun hr => ?_⟩
  · rcases h.complete (hiff.mp hr) with ⟨hnone, i, hi, hfails⟩ | ⟨hall, hitems⟩
    · exact .inl ⟨hnone, i + 1, Nat.succ_lt_succ hi, by rwa [hshift]⟩
    · refine .inr ⟨by rw [hall, List.append_assoc, List.singleton_append], fun i hi => ?_⟩
      cases i with
      | zero => exact hitem
      | succ i =>
        rw [hshift]
        exact hitems i (Nat.lt_of_succ_lt_succ hi)
  · obtain ⟨t, ht, hanswer⟩ := h.short (mt hiff.mpr hr)
    exact ⟨u :: t, Nat.succ_lt_succ ht, by rw [hanswer, List.append_assoc, List.singleton_append]⟩

end Ends

theorem missing_nil (limit collected : ℕ) : missing limit collected [] = [] := by
  unfold missing
  split_ifs <;> simp

theorem missing_cons {pairs : List (Bytes × Bytes)} (hlimit : limit > 0 → pairs.length < limit)
    (u : Bytes × Bytes) (us : List (Bytes × Bytes)) :
    missing limit pairs.length (u :: us) = u :: missing limit (pairs ++ [u]).length us := by
  unfold missing
  split_ifs with hl
  · obtain ⟨m, hm⟩ : ∃ m, limit - pairs.length = m + 1 := ⟨limit - pairs.length - 1, by omega⟩
    rw [hm, List.take_succ_cons, List.length_append, List.length_singleton]
    congr 2
    omega
  · rfl

theorem scanLoop_before (hrest : ∀ kv ∈ rest.head?, ¬encodeCFPrefix r cf <+: kv.1)
    (us pairs : List (Bytes × Bytes)) {fuel n : ℕ} (hfuel : us.length < fuel)
    (hlimit : limit > 0 → pairs.length < limit) :
    Ends F n (missing limit pairs.length us) pairs (scanLoop F r cf limit fuel n
      (LsmIterator.before r cf (us.map (fun kv => (encodeKey r kv.1 cf, kv.2)) ++ rest))
        pairs) := by
  induction us generalizing pairs fuel n with
  | nil =>
    obtain ⟨fuel, rfl⟩ := Nat.exists_eq_succ_of_ne_zero (by omega : fuel ≠ 0)
    rw [List.map_nil, List.nil_append, scanLoop_of_invalid (valid_before_end hrest _), missing_nil]
    exact .nil
  | cons u us ih =>
    obtain ⟨fuel, rfl⟩ := Nat.exists_eq_succ_of_ne_zero (by omega : fuel ≠ 0)
    rw [List.length_cons] at hfuel
    rw [missing_cons hlimit, List.map_cons, List.cons_append]
    cases hpeek : F.peek n with
    | true =>
      rw [scanLoop_of_invalid (by rw [hpeek]; rfl)]
      exact .peek hpeek
    | false =>
    rw [scanLoop_cons hpeek]
    cases hitem : F.item n with
    | true => exact .item hpeek hitem
    | false =>
    rw [if_neg (by decide)]
    by_cases hstop : limit > 0 ∧ pairs.length + 1 ≥ limit
    · rw [if_pos hstop, show missing limit (pairs ++ [u]).length us = [] by simp [missing, hstop]]
      exact .last hpeek hitem
    · rw [if_neg hstop]
      cases hnext : F.next n with
      | true =>
        obtain ⟨fuel, rfl⟩ := Nat.exists_eq_succ_of_ne_zero (by omega : fuel ≠ 0)
        rw [scanLoop_of_invalid rfl]
        by_cases hnil : missing limit (pairs ++ [u]).length us = []
        · rw [hnil]
          exact .last hpeek hitem
        · exact .next hitem hnext hnil
      | false =>
        refine .cons hpeek hitem hnext (ih (pairs ++ [u]) (by omega) fun hl => ?_)
        rw [List.length_append, List.length_singleton]
        omega

/-- The loop of a scan whose iterator could be created and put at its start. -/
theorem ends_scan (hreader : F.reader = false) (hcreate : F.create = false)
    (hseek : F.seek = false) :
    Ends F 0 (cut limit (stored r cf startKey db)) [] (scan F r cf startKey limit db) := by
  have hsplit : db.scan (encodeCFPrefix r cf ++ startKey) =
      (stored r cf startKey db).map (fun kv => (encodeKey r kv.1 cf, kv.2)) ++
        (db.scan (encodeCFPrefix r cf ++ startKey)).dropWhile
          fun e => (encodeCFPrefix r cf).isPrefixOf e.1 := by
    rw [← iterCF_eq_map_stored]
    exact List.takeWhile_append_dropWhile.symm
  set rest := (db.scan (encodeCFPrefix r cf ++ startKey)).dropWhile
    fun e => (encodeCFPrefix r cf).isPrefixOf e.1 with hrest
  have hend : ∀ kv ∈ rest.head?, ¬encodeCFPrefix r cf <+: kv.1 := by
    intro kv hkv
    have := List.head?_dropWhile_not (fun e : Bytes × Bytes =>
      (encodeCFPrefix r cf).isPrefixOf e.1) (db.scan (encodeCFPrefix r cf ++ startKey))
    rw [← hrest, Option.mem_def.mp hkv] at this
    rw [← List.isPrefixOf_iff_prefix, Bool.not_eq_true]
    exact this
  have hit : (LsmIterator.create r cf F.create).seek db startKey F.seek =
      LsmIterator.before r cf
        ((stored r cf startKey db).map (fun kv => (encodeKey r kv.1 cf, kv.2)) ++ rest) := by
    rw [hcreate, hseek, ← hsplit]
    rfl
  unfold scan
  rw [hreader, if_neg (by decide), hit]
  exact scanLoop_before hend (stored r cf startKey db) []
    (by simp [LsmIterator.fuel, LsmIterator.before]) (fun hl => hl)

/-- An iterator that could not be created or put at its start ends the loop at once. -/
theorem scan_of_failed (hreader : F.reader = false) (h : F.create = true ∨ F.seek = true) :
    scan F r cf startKey limit db = some [] := by
  unfold scan
  rw [hreader, if_neg (by decide)]
  refine scanLoop_of_invalid ?_
  cases hcreate : F.create with
  | true => rfl
  | false =>
    have hseek : F.seek = true := h.resolve_left (by simp [hcreate])
    rw [hseek]
    rfl

end

/-- A call of the iterator that is due before the answer has `count` pairs fails. -/
def ScanFaults.Fails (F : ScanFaults) (count : ℕ) : Prop :=
  0 < count ∧ (F.create = true ∨ F.seek = true) ∨ (∃ k < count, F.peek k = true) ∨
    ∃ k, k + 1 < count ∧ F.next k = true

theorem Ends.complete_iff {F : ScanFaults} {us : List (Bytes × Bytes)}
    {answer : Option (List (Bytes × Bytes))} (hstart : ¬(F.create = true ∨ F.seek = true))
    (h : Ends F 0 us [] answer) : (answer = none → ∃ i < us.length, F.item i = true) ∧
      ((∀ pairs, answer = some pairs → pairs = us) ∧ (F.Fails us.length → answer = none) ↔
        Reported F 0 us.length) := by
  by_cases hr : Reported F 0 us.length
  · rcases h.complete hr with ⟨rfl, i, hi, hfail⟩ | ⟨rfl, hitems⟩
    · rw [Nat.zero_add] at hfail
      exact ⟨fun _ => ⟨i, hi, hfail⟩, iff_of_true ⟨by simp, fun _ => rfl⟩ hr⟩
    · refine ⟨by simp, iff_of_true ⟨by simp, fun hfails => ?_⟩ hr⟩
      rcases hfails with ⟨-, hfail⟩ | ⟨k, hk, hfail⟩ | ⟨k, hk, hfail⟩
      · exact absurd hfail hstart
      · obtain ⟨i, hi, hitem⟩ := hr.peek k hk (by rwa [Nat.zero_add])
        rw [hitems i (by omega)] at hitem
        cases hitem
      · obtain ⟨i, hi, hitem⟩ := hr.next k hk (by rwa [Nat.zero_add])
        rw [hitems i (by omega)] at hitem
        cases hitem
  · obtain ⟨t, ht, rfl⟩ := h.short hr
    refine ⟨by simp, iff_of_false (fun hall => ?_) hr⟩
    have heq : t = us := hall.1 t rfl
    exact absurd ht (by simp [heq])

/-- The stored pairs come in the order of their keys. A success with all of them, cut to the limit,
and an error whenever the iterator fails before that: this is what a scan answers exactly if the
reader cannot be opened, or the iterator can be created and put at its start and fails before the
answer is full only behind an `Item` that has failed. An error comes from the reader or from an
`Item` alone. -/
theorem scan_complete (F : ScanFaults) (r : ℕ) (cf startKey : Bytes) (limit : ℕ) (db : Database) :
    (stored r cf startKey db).Pairwise (fun a b => a.1 < b.1) ∧
    (∀ k v, (k, v) ∈ stored r cf startKey db ↔
      startKey ≤ k ∧ db.get (encodeKey r k cf) = some v) ∧
    (scan F r cf startKey limit db = none →
      F.reader = true ∨ ∃ i < (cut limit (stored r cf startKey db)).length, F.item i = true) ∧
    ((∀ pairs, scan F r cf startKey limit db = some pairs →
        pairs = cut limit (stored r cf startKey db)) ∧
      (F.Fails (cut limit (stored r cf startKey db)).length →
        scan F r cf startKey limit db = none) ↔
      F.reader = true ∨
        (0 < (cut limit (stored r cf startKey db)).length → F.create = false ∧ F.seek = false) ∧
          Reported F 0 (cut limit (stored r cf startKey db)).length) := by
  refine ⟨pairwise_stored .., fun k v => mem_stored, ?_⟩
  by_cases hreader : F.reader = true
  · simp [scan, hreader]
  by_cases hfailed : F.create = true ∨ F.seek = true
  · rw [scan_of_failed (by simpa using hreader) hfailed]
    cases hus : cut limit (stored r cf startKey db) with
    | nil =>
      have hzero : Reported F 0 0 := ⟨by simp, by simp⟩
      simp [ScanFaults.Fails, hzero]
    | cons u us => rcases hfailed with h | h <;> simp [hreader, h]
  · have hends : Ends F 0 (cut limit (stored r cf startKey db)) []
        (scan F r cf startKey limit db) :=
      ends_scan (by simpa using hreader) (by simpa using (not_or.mp hfailed).1)
        (by simpa using (not_or.mp hfailed).2)
    simpa [hreader, not_or.mp hfailed] using hends.complete_iff hfailed

/-- An iterator that could not be created, or that failed on its first step, ends the scan
with a success that misses the stored pair. -/
theorem failed_iterator_is_empty_success :
    scan { create := true } 1 (text "default") [] 0
        (OrderedMap.empty.put (encodeKey 1 (text "k") (text "default")) (text "v")) = some [] ∧
    scan { seek := true } 1 (text "default") [] 0
        (OrderedMap.empty.put (encodeKey 1 (text "k") (text "default")) (text "v")) = some [] ∧
    (text "k", text "v") ∈ stored 1 (text "default") []
        (OrderedMap.empty.put (encodeKey 1 (text "k") (text "default")) (text "v")) := by
  refine ⟨rfl, rfl, mem_stored.mpr ⟨not_lt.mp (List.not_lt_nil _), ?_⟩⟩
  rw [OrderedMap.get_put, if_pos rfl]

end Mizu
