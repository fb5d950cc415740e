import Mizu.Raft.Types
import Mizu.Library.Multiversion
import Mizu.Library.Search
import Mizu.Library.BigEndian

/-!
# Internal keys and sorted runs

Every version of a user key is stored under an internal key: the user key, the
sequence number of the write and whether it put a value or deleted the key. The
order puts user keys in byte order and the versions of one user key newest
first. A memtable and an SSTable are both sorted runs of entries; a point lookup
takes the first entry that is not before the newest version the reader may see.
-/

open Multiversion

namespace Mizu.Lsm

/-- `kMaxSequenceNumber`: sequence numbers have 56 bits. -/
def maxSequenceNumber : ℕ := 2 ^ 56 - 1

inductive ValueType
  | deletion
  | value
deriving DecidableEq, Repr

def ValueType.code : ValueType → ℕ
  | .deletion => 0
  | .value => 1

theorem ValueType.code_le (t : ValueType) : t.code ≤ 1 := by cases t <;> decide

theorem ValueType.code_injective : Function.Injective ValueType.code := by
  intro a b h
  cases a <;> cases b <;> simp_all [code]

/-- `ParsedInternalKey` -/
@[ext]
structure InternalKey where
  userKey : Bytes
  sequence : ℕ
  type : ValueType
deriving DecidableEq, Repr

namespace InternalKey

/-- The high 56 bits of the tag are the sequence, the low 8 bits the type. -/
def tag (k : InternalKey) : ℕ := k.sequence * 256 + k.type.code

/-- `InternalKeyLess`: versions of one user key are ordered newest first. -/
def Less (a b : InternalKey) : Prop :=
  if a.userKey ≠ b.userKey then a.userKey < b.userKey else b.tag < a.tag

instance (a b : InternalKey) : Decidable (Less a b) := by
  unfold Less
  infer_instance

/-- Where a key stands in the order. -/
def rank (k : InternalKey) : Bytes ×ₗ ℕᵒᵈ := toLex (k.userKey, OrderDual.toDual k.tag)

theorem tag_lt_iff {a b : InternalKey} : a.tag < b.tag ↔
    a.sequence < b.sequence ∨ a.sequence = b.sequence ∧ a.type.code < b.type.code := by
  have ha := a.type.code_le
  have hb := b.type.code_le
  unfold tag
  omega

theorem rank_injective : Function.Injective rank := by
  intro a b h
  have h' : (a.userKey, a.tag) = (b.userKey, b.tag) := congrArg ofLex h
  obtain ⟨hk, ht⟩ := Prod.mk.inj h'
  have ha := a.type.code_le
  have hb := b.type.code_le
  unfold tag at ht
  have htype : a.type = b.type := ValueType.code_injective (by omega)
  cases a
  cases b
  simp_all

instance : LinearOrder InternalKey := LinearOrder.lift' rank rank_injective

section

variable {a b : InternalKey}

theorem lt_iff :
    a < b ↔ a.userKey < b.userKey ∨ a.userKey = b.userKey ∧ b.tag < a.tag :=
  Prod.Lex.toLex_lt_toLex

@[simp] theorem less_iff : a.Less b ↔ a < b := by
  unfold Less
  rw [lt_iff]
  split
  · rename_i h
    simp [h]
  · rename_i h
    rw [not_not] at h
    simp [h]

theorem userKey_le (h : a ≤ b) : a.userKey ≤ b.userKey := by
  rcases h.lt_or_eq with h | rfl
  · rcases lt_iff.mp h with h | h
    · exact h.le
    · exact h.1.le
  · exact le_rfl

theorem lt_of_userKey_lt (h : a.userKey < b.userKey) : a < b :=
  lt_iff.mpr (Or.inl h)

theorem lt_of_sequence_lt (hk : a.userKey = b.userKey)
    (h : b.sequence < a.sequence) : a < b :=
  lt_iff.mpr (Or.inr ⟨hk, tag_lt_iff.mpr (Or.inl h)⟩)

theorem sequence_le (hk : a.userKey = b.userKey) (h : a ≤ b) :
    b.sequence ≤ a.sequence := by
  by_contra hlt
  exact absurd (lt_of_sequence_lt hk.symm (not_le.mp hlt)) (not_lt.mpr h)

end

end InternalKey

/-- The key a lookup seeks: every version of `key` up to `s` is at or after it. -/
def lookupKey (key : Bytes) (s : ℕ) : InternalKey := ⟨key, s, .value⟩

theorem lookupKey_le_iff {key : Bytes} {s : ℕ} {k : InternalKey} :
    lookupKey key s ≤ k ↔ key < k.userKey ∨ key = k.userKey ∧ k.sequence ≤ s := by
  rw [← not_lt, InternalKey.lt_iff, InternalKey.tag_lt_iff]
  have hc : ¬ (ValueType.value.code < k.type.code) := by
    exact not_lt.mpr k.type.code_le
  simp only [lookupKey, hc, and_false, or_false, not_or, not_lt, not_and]
  constructor
  · rintro ⟨hle, hseq⟩
    rcases hle.lt_or_eq with h | h
    · exact Or.inl h
    · exact Or.inr ⟨h, hseq h.symm⟩
  · rintro (h | ⟨h, hs⟩)
    · exact ⟨h.le, fun he => absurd he h.ne'⟩
    · exact ⟨h.le, fun _ => hs⟩

structure Entry where
  key : InternalKey
  value : Bytes
deriving DecidableEq, Repr

namespace Entry

/-- The entry as an update of the multi-version map. -/
def update (e : Entry) : Update Bytes Bytes :=
  ⟨e.key.userKey, e.key.sequence, match e.key.type with
    | .deletion => none
    | .value => some e.value⟩

@[simp] theorem update_key (e : Entry) : e.update.key = e.key.userKey := rfl

@[simp] theorem update_time (e : Entry) : e.update.time = e.key.sequence := rfl

end Entry

/-- Strictly ascending internal keys. -/
def Ascending (es : List Entry) : Prop := es.Pairwise fun a b => a.key < b.key

instance (es : List Entry) : Decidable (Ascending es) := by
  unfold Ascending
  infer_instance

theorem eq_of_key_eq {es : List Entry} (hes : Ascending es) {x y : Entry} (hx : x ∈ es)
    (hy : y ∈ es) (hk : x.key = y.key) : x = y := by
  induction es with
  | nil => simp at hx
  | cons a as ih =>
    obtain ⟨ha, has⟩ := List.pairwise_cons.mp hes
    rcases List.mem_cons.mp hx with rfl | hx' <;> rcases List.mem_cons.mp hy with rfl | hy'
    · rfl
    · exact absurd hk (ha y hy').ne
    · exact absurd hk (ha x hx').ne'
    · exact ih has hx' hy'

/-- A sorted run: the contents of a memtable or an SSTable. -/
structure Run where
  entries : List Entry
  ascending : Ascending entries
deriving DecidableEq

/-- The updates a list of entries holds. -/
def contents (es : List Entry) : Set (Update Bytes Bytes) := {u | ∃ e ∈ es, e.update = u}

theorem update_mem_contents {es : List Entry} {e : Entry} (h : e ∈ es) :
    e.update ∈ contents es := ⟨e, h, rfl⟩

@[simp] theorem contents_append (es fs : List Entry) :
    contents (es ++ fs) = contents es ∪ contents fs := by
  ext u
  simp [contents, or_and_right, exists_or]

/-- The first entry that is not before `target`: where `seek` stops. -/
def seek (es : List Entry) (target : InternalKey) : Option Entry :=
  es.find? fun e => ¬ e.key.Less target

/-- The entry after `e`: where `next` goes. -/
def successor (es : List Entry) (e : Entry) : Option Entry :=
  es.find? fun x => e.key.Less x.key

section Seek

variable {es : List Entry} {target : InternalKey} {e x : Entry}

theorem seek_eq_none : seek es target = none ↔ ∀ x ∈ es, x.key < target := by
  simp [seek]

theorem mem_of_seek (h : seek es target = some e) : e ∈ es := List.mem_of_find?_eq_some h

theorem le_of_seek (h : seek es target = some e) : target ≤ e.key := by
  have := List.find?_some h
  simpa using this

theorem seek_le (hes : Ascending es) (h : seek es target = some e) (hx : x ∈ es)
    (hle : target ≤ x.key) : e.key ≤ x.key := by
  rcases Search.eq_or_rel_of_find? hes h hx (by simpa using hle) with rfl | hlt
  · exact le_rfl
  · exact hlt.le

theorem successor_eq_none : successor es e = none ↔ ∀ x ∈ es, x.key ≤ e.key := by
  simp [successor]

theorem mem_of_successor (h : successor es e = some x) : x ∈ es := List.mem_of_find?_eq_some h

theorem lt_of_successor (h : successor es e = some x) : e.key < x.key := by
  have := List.find?_some h
  simpa using this

theorem successor_le {y : Entry} (hes : Ascending es) (h : successor es e = some x) (hy : y ∈ es)
    (hlt : e.key < y.key) : x.key ≤ y.key := by
  rcases Search.eq_or_rel_of_find? hes h hy (by simpa using hlt) with rfl | hlt
  · exact le_rfl
  · exact hlt.le

end Seek

/-- `MemTable::get` and `SSTableReader::get`: seek the newest visible version
and compare the user key. -/
def lookup (es : List Entry) (key : Bytes) (s : ℕ) : Answer Bytes :=
  match seek es (lookupKey key s) with
  | none => .absent
  | some e =>
    if e.key.userKey ≠ key then .absent
    else
      match e.key.type with
      | .deletion => .deleted
      | .value => .value e.value

/-- The newest of the entries `E` under a key. -/
structure Newest (E : Entry → Prop) (k : Bytes) (e : Entry) : Prop where
  mem : E e
  key : e.key.userKey = k
  least : ∀ y, E y → y.key.userKey = k → e.key ≤ y.key

/-- What the first of the entries `E` of `key` up to `s` says. -/
inductive Finds (E : Entry → Prop) (key : Bytes) (s : ℕ) : Answer Bytes → Prop
  | absent : (∀ x, E x → x.key.userKey = key → s < x.key.sequence) → Finds E key s .absent
  | newest {e : Entry} : Newest (fun x => E x ∧ x.key.sequence ≤ s) key e →
      Finds E key s (.ofValue e.update.value)

namespace Finds

variable {A B : Entry → Prop} {key : Bytes} {s : ℕ} {r r' : Answer Bytes}

theorem congr (h : ∀ x, x.key.userKey = key → (A x ↔ B x)) (hr : Finds A key s r) :
    Finds B key s r := by
  cases hr with
  | absent hn =>
    apply absent
    intro x hx hk
    exact hn x ((h x hk).mpr hx) hk
  | newest he =>
    apply newest
    constructor
    · exact ⟨(h _ he.key).mp he.mem.1, he.mem.2⟩
    · exact he.key
    · intro y hy hk
      exact he.least y ⟨(h y hk).mpr hy.1, hy.2⟩ hk

/-- The upper layer hides the lower one where it answers at all. -/
theorem union (hAB : ∀ x y, A x → B y → x.key.userKey = y.key.userKey →
    y.key.sequence < x.key.sequence) (hr : Finds A key s r) (hr' : Finds B key s r') :
    Finds (fun x => A x ∨ B x) key s (r.orElse r') := by
  cases hr with
  | absent hn =>
    cases hr' with
    | absent hn' =>
      apply absent
      rintro x (hx | hx) hk
      · exact hn x hx hk
      · exact hn' x hx hk
    | newest he =>
      apply newest
      constructor
      · exact ⟨Or.inr he.mem.1, he.mem.2⟩
      · exact he.key
      · rintro y ⟨hy | hy, hs⟩ hk
        · exact absurd (hn y hy hk) (not_lt.mpr hs)
        · exact he.least y ⟨hy, hs⟩ hk
  | @newest e he =>
    rw [Answer.orElse_of_ne (Answer.ofValue_ne_absent _)]
    apply newest
    constructor
    · exact ⟨Or.inl he.mem.1, he.mem.2⟩
    · exact he.key
    · rintro y ⟨hy | hy, hs⟩ hk
      · exact he.least y ⟨hy, hs⟩ hk
      · have hlt := hAB e y he.mem.1 hy (by rw [he.key, hk])
        exact (InternalKey.lt_of_sequence_lt (by rw [he.key, hk]) hlt).le

theorem answers (hr : Finds A key s r) : Answers {u | ∃ e, A e ∧ e.update = u} key s r := by
  cases hr with
  | absent hn =>
    apply Answers.absent
    rintro _ ⟨x, hx, rfl⟩ hk
    exact hn x hx hk
  | @newest e he =>
    apply Answers.latest
    refine ⟨⟨e, he.mem.1, rfl⟩, he.key, he.mem.2, ?_⟩
    rintro _ ⟨x, hx, rfl⟩ hk hs
    exact InternalKey.sequence_le (he.key.trans hk.symm) (he.least x ⟨hx, hs⟩ hk)

/-- Entries that are hidden up to `f`, or deletions with nothing older left, can
go: from `f` on the same value is found. -/
theorem collected {f : ℕ} (hsub : ∀ x, B x → A x)
    (huniq : ∀ x y, A x → A y → x.key = y.key → x = y)
    (hmiss : ∀ x, A x → ¬ B x →
      (∃ y, A y ∧ y.key.userKey = x.key.userKey ∧ y.key.sequence ≤ f ∧ y.key < x.key) ∨
        (x.key.type = .deletion ∧ ∀ y, B y → y.key.userKey = x.key.userKey → y.key < x.key))
    (hf : f ≤ s) (hr : Finds A key s r) (hr' : Finds B key s r') : r.toOption = r'.toOption := by
  cases hr with
  | absent hn =>
    cases hr' with
    | absent => rfl
    | newest he => exact absurd (hn _ (hsub _ he.mem.1) he.key) (not_lt.mpr he.mem.2)
  | @newest e he =>
    by_cases hB : B e
    · cases hr' with
      | absent hn => exact absurd (hn e hB he.key) (not_lt.mpr he.mem.2)
      | @newest e' he' =>
        have hle := he.least e' ⟨hsub e' he'.mem.1, he'.mem.2⟩ he'.key
        have hge := he'.least e ⟨hB, he.mem.2⟩ he.key
        rw [huniq e e' he.mem.1 (hsub e' he'.mem.1) (le_antisymm hle hge)]
    · rcases hmiss e he.mem.1 hB with ⟨y, hy, hk, hseq, hlt⟩ | ⟨hdel, hold⟩
      · have hle := he.least y ⟨hy, hseq.trans hf⟩ (hk.trans he.key)
        exact absurd hlt (not_lt.mpr hle)
      · cases hr' with
        | absent => simp [Entry.update, hdel, Answer.ofValue, Answer.toOption]
        | @newest e' he' =>
          have hle := he.least e' ⟨hsub e' he'.mem.1, he'.mem.2⟩ he'.key
          have hlt := hold e' he'.mem.1 (he'.key.trans he.key.symm)
          exact absurd hlt (not_lt.mpr hle)

end Finds

theorem lookup_finds {es : List Entry} (hes : Ascending es) (key : Bytes) (s : ℕ) :
    Finds (· ∈ es) key s (lookup es key s) := by
  unfold lookup
  split
  · rename_i hnone
    apply Finds.absent
    intro x hx hk
    have hlt := seek_eq_none.mp hnone x hx
    by_contra hle
    exact absurd (lookupKey_le_iff.mpr (Or.inr ⟨hk.symm, not_lt.mp hle⟩)) (not_le.mpr hlt)
  · rename_i e he
    have hle : ∀ x ∈ es, x.key.userKey = key → x.key.sequence ≤ s → e.key ≤ x.key := by
      intro x hx hk hs
      exact seek_le hes he hx (lookupKey_le_iff.mpr (Or.inr ⟨hk.symm, hs⟩))
    have hge := lookupKey_le_iff.mp (le_of_seek he)
    split
    · rename_i hne
      -- the entry found belongs to a larger user key, so `key` has nothing up to `s`
      have hlt : key < e.key.userKey := by
        rcases hge with h | ⟨h, _⟩
        · exact h
        · exact absurd h.symm hne
      apply Finds.absent
      intro x hx hk
      by_contra hs
      have hx' := InternalKey.userKey_le (hle x hx hk (not_lt.mp hs))
      rw [hk] at hx'
      exact absurd hx' (not_le.mpr hlt)
    · rename_i heq
      rw [not_not] at heq
      have hnewest : Newest (fun x => x ∈ es ∧ x.key.sequence ≤ s) key e := by
        constructor
        · rcases hge with h | ⟨_, h⟩
          · exact absurd heq.symm h.ne
          · exact ⟨mem_of_seek he, h⟩
        · exact heq
        · intro y hy hk
          exact hle y hy.1 hk hy.2
      have hfinds := Finds.newest hnewest
      cases ht : e.key.type with
      | deletion => simpa [Entry.update, ht, Answer.ofValue] using hfinds
      | value => simpa [Entry.update, ht, Answer.ofValue] using hfinds

/-! ## The memtable's order -/

/-- The bottom list of the skip list after inserting `e`. An assertion excludes
a key that is already there. -/
def insertEntry (e : Entry) : List Entry → List Entry
  | [] => [e]
  | x :: xs =>
    if x.key.Less e.key then x :: insertEntry e xs
    else if e.key.Less x.key then e :: x :: xs
    else x :: xs

theorem mem_of_mem_insertEntry {e x : Entry} {es : List Entry} (h : x ∈ insertEntry e es) :
    x = e ∨ x ∈ es := by
  induction es with
  | nil => exact Or.inl (by simpa [insertEntry] using h)
  | cons y ys ih =>
    unfold insertEntry at h
    split_ifs at h
    · rcases List.mem_cons.mp h with rfl | h
      · exact Or.inr (by simp)
      · rcases ih h with h | h
        · exact Or.inl h
        · exact Or.inr (List.mem_cons_of_mem _ h)
    · rcases List.mem_cons.mp h with rfl | h
      · exact Or.inl rfl
      · exact Or.inr h
    · exact Or.inr h

theorem mem_insertEntry_of_mem {e x : Entry} {es : List Entry} (h : x ∈ es) :
    x ∈ insertEntry e es := by
  induction es with
  | nil => simp at h
  | cons y ys ih =>
    unfold insertEntry
    split_ifs
    · rcases List.mem_cons.mp h with rfl | h
      · simp
      · exact List.mem_cons_of_mem _ (ih h)
    · exact List.mem_cons_of_mem _ h
    · exact h

theorem mem_insertEntry_self {e : Entry} {es : List Entry} (h : ∀ x ∈ es, x.key ≠ e.key) :
    e ∈ insertEntry e es := by
  induction es with
  | nil => simp [insertEntry]
  | cons y ys ih =>
    unfold insertEntry
    split_ifs with hye hey
    · exact List.mem_cons_of_mem _ (ih fun x hx => h x (List.mem_cons_of_mem _ hx))
    · simp
    · rw [InternalKey.less_iff] at hye hey
      exact absurd (le_antisymm (not_lt.mp hey) (not_lt.mp hye)) (h y (by simp))

theorem insertEntry_perm {e : Entry} {es : List Entry} (h : ∀ x ∈ es, x.key ≠ e.key) :
    (insertEntry e es).Perm (e :: es) := by
  induction es with
  | nil => exact List.Perm.refl _
  | cons y ys ih =>
    unfold insertEntry
    split_ifs with hye hey
    · have hrest := ih fun x hx => h x (List.mem_cons_of_mem _ hx)
      exact (hrest.cons y).trans (List.Perm.swap e y ys)
    · exact List.Perm.refl _
    · rw [InternalKey.less_iff] at hye hey
      exact absurd (le_antisymm (not_lt.mp hey) (not_lt.mp hye)) (h y (by simp))

theorem ascending_insertEntry {e : Entry} {es : List Entry} (h : Ascending es) :
    Ascending (insertEntry e es) := by
  induction es with
  | nil => simp [insertEntry, Ascending]
  | cons y ys ih =>
    obtain ⟨hy, hys⟩ := List.pairwise_cons.mp h
    unfold insertEntry
    split_ifs with hye hey
    · refine List.pairwise_cons.mpr ⟨?_, ih hys⟩
      intro x hx
      rcases mem_of_mem_insertEntry hx with rfl | hx
      · simpa using hye
      · exact hy x hx
    · rw [InternalKey.less_iff] at hey
      refine List.pairwise_cons.mpr ⟨?_, h⟩
      intro x hx
      rcases List.mem_cons.mp hx with rfl | hx
      · exact hey
      · exact hey.trans (hy x hx)
    · exact h

namespace Run

def empty : Run := ⟨[], List.Pairwise.nil⟩

def insert (r : Run) (e : Entry) : Run :=
  ⟨insertEntry e r.entries, ascending_insertEntry r.ascending⟩

/-- The updates of a run. -/
def updates (r : Run) : Set (Update Bytes Bytes) := contents r.entries

theorem lookup_answers (r : Run) (key : Bytes) (s : ℕ) :
    Answers r.updates key s (lookup r.entries key s) :=
  (lookup_finds r.ascending key s).answers

end Run

/-- A memtable is the entries in the order they were added. -/
structure MemTable where
  added : List Entry
deriving DecidableEq

namespace MemTable

def empty : MemTable := ⟨[]⟩

def isEmpty (m : MemTable) : Bool := m.added.isEmpty

def add (m : MemTable) (e : Entry) : MemTable := ⟨m.added ++ [e]⟩

/-- What iteration over the skip list sees. -/
def run (m : MemTable) : Run := m.added.foldl Run.insert Run.empty

def get (m : MemTable) (key : Bytes) (s : ℕ) : Answer Bytes := lookup m.run.entries key s

@[simp] theorem run_empty : empty.run = Run.empty := rfl

end MemTable

end Mizu.Lsm
