import Mizu.Lsm.Merge
import Mizu.Lsm.Coding
import Mizu.Library.PriorityQueue

/-!
# The merging iterator and its heap

`MergingIterator` of `db/merging_iterator.cc` with the heap it keeps: the heap holds indices of
children and compares what these children currently show. A child is any iterator with the
methods of `InternalIterator`. Only the child that was taken off the heap moves, so the others stay
in heap order; the top is the child that the merge of `Lsm/Merge.lean` takes.
-/

namespace Mizu.Lsm

/-- The methods of `InternalIterator`, over the states of an iterator. -/
structure InternalIterator (σ : Type) where
  valid : σ → Bool
  seekToFirst : σ → σ
  seek : σ → InternalKey → σ
  next : σ → σ
  internalKey : σ → InternalKey
  value : σ → Bytes
  status : σ → Option Status

namespace InternalIterator

variable {σ : Type} (ops : InternalIterator σ)

/-- What the iterator shows. -/
def current (c : σ) : Option Entry :=
  if ops.valid c then some ⟨ops.internalKey c, ops.value c⟩ else none

/-- The states that stand in a list, `At c es rest` with `rest` of `es` still to come: the
iterator enumerates the list without an error. -/
structure Enumerates (At : σ → List Entry → List Entry → Prop) : Prop where
  seekToFirst : ∀ {c es rest}, At c es rest → At (ops.seekToFirst c) es es
  seek : ∀ {c es rest} (t : InternalKey), At c es rest →
    At (ops.seek c t) es (es.dropWhile fun e => e.key.Less t)
  next : ∀ {c es e rest}, At c es (e :: rest) → At (ops.next c) es rest
  current : ∀ {c es rest}, At c es rest → ops.current c = rest.head?
  status : ∀ {c es rest}, At c es rest → ops.status c = none

end InternalIterator

namespace Heaped

structure MergingIterator (σ : Type) where
  children : List σ
  heap : List ℕ := []
  status : Option Status := none

namespace MergingIterator

variable {σ : Type} (ops : InternalIterator σ)

/-- `(*children)[i]->internalKey()`; the heap holds only indices of children. -/
def keyAt (children : List σ) (i : ℕ) : InternalKey :=
  match children[i]? with
  | some c => ops.internalKey c
  | none => ⟨[], 0, .deletion⟩

/-- `Greater` -/
def greater (children : List σ) (lhs rhs : ℕ) : Bool :=
  let left := keyAt ops children lhs
  let right := keyAt ops children rhs
  if right.Less left then true
  else if left.Less right then false
  else decide (lhs > rhs)

/-- `children_[i]->valid()` -/
def validAt (children : List σ) (i : ℕ) : Bool :=
  match children[i]? with
  | some c => ops.valid c
  | none => false

variable (m : MergingIterator σ)

def valid : Bool :=
  m.status.isNone &&
    match m.heap with
    | [] => false
    | top :: _ => validAt ops m.children top

def clearHeap : MergingIterator σ := { m with heap := [] }

/-- `checkChildren` and what it returns: the first error of a child stays. -/
def checkChildren : MergingIterator σ × Bool :=
  match m.children.findSome? ops.status with
  | some s => ({ m with status := some s }.clearHeap, false)
  | none => (m, true)

def rebuildHeap : MergingIterator σ :=
  { m with
    heap := (List.range m.children.length).foldl
      (fun heap i =>
        if validAt ops m.children i then PriorityQueue.push (greater ops m.children) heap i
        else heap)
      m.heap }

/-- What `seekToFirst` and `seek` do with the children. -/
def reposition (move : σ → σ) : MergingIterator σ :=
  if m.status.isSome then m
  else
    let m := { m.clearHeap with children := m.children.map move }
    let (m, ok) := m.checkChildren ops
    if ok then m.rebuildHeap ops else m

def seekToFirst : MergingIterator σ := m.reposition ops ops.seekToFirst

def seek (target : InternalKey) : MergingIterator σ := m.reposition ops fun c => ops.seek c target

/-- `next`; an assertion excludes an invalid iterator. -/
def next : Option (MergingIterator σ) :=
  if ¬ m.valid ops then none
  else
    match m.heap with
    | [] => none
    | index :: _ =>
      let heap := PriorityQueue.pop (greater ops m.children) m.heap
      let m := { m with heap := heap, children := m.children.modify index ops.next }
      let (m, ok) := m.checkChildren ops
      if ¬ ok then some m
      else if validAt ops m.children index then
        some { m with heap := PriorityQueue.push (greater ops m.children) m.heap index }
      else some m

/-- `internalKey()` and `value()`; an assertion excludes an invalid iterator. -/
def entry : Option Entry :=
  if ¬ m.valid ops then none
  else
    match m.heap with
    | [] => none
    | top :: _ =>
      match m.children[top]? with
      | some c => some ⟨ops.internalKey c, ops.value c⟩
      | none => none

/-- What `next` passes until the iterator is invalid. -/
def entries : ℕ → MergingIterator σ → Option (List Entry × MergingIterator σ)
  | 0, m => some ([], m)
  | fuel + 1, m =>
    if m.valid ops then do
      let e ← m.entry ops
      let m' ← m.next ops
      let (rest, last) ← entries fuel m'
      some (e :: rest, last)
    else some ([], m)

end MergingIterator

/-! ### Calls -/

inductive MergeCall
  | seekToFirst
  | seek (target : InternalKey)
  | next
deriving DecidableEq, Repr

variable {σ : Type} {ops : InternalIterator σ}

def MergeCall.run (ops : InternalIterator σ) (m : MergingIterator σ) :
    MergeCall → Option (MergingIterator σ)
  | seekToFirst => some (m.seekToFirst ops)
  | seek target => some (m.seek ops target)
  | next => m.next ops

/-- The iterators that calls lead to; `next` only when the iterator is valid. -/
inductive MergeRun (ops : InternalIterator σ) (start : MergingIterator σ) :
    MergingIterator σ → Prop
  | start : MergeRun ops start start
  | call {m m' : MergingIterator σ} {a : MergeCall} (h : MergeRun ops start m)
      (hrun : a.run ops m = some m') : MergeRun ops start m'

namespace MergingIterator

variable {m m' : MergingIterator σ} {cs : List σ} {i j : ℕ}

/-! ### The order of the heap -/

/-- Children are ordered by what they show, on a tie by their indices. -/
def rank (ops : InternalIterator σ) (cs : List σ) (i : ℕ) : InternalKey ×ₗ ℕ :=
  toLex (keyAt ops cs i, i)

theorem greater_iff : greater ops cs i j = true ↔ rank ops cs j < rank ops cs i := by
  unfold greater rank
  rw [Prod.Lex.toLex_lt_toLex]
  rcases lt_trichotomy (keyAt ops cs j) (keyAt ops cs i) with hlt | heq | hlt
  · simp [hlt]
  · simp [heq]
  · simp [hlt, hlt.ne', hlt.not_gt]

theorem greater_eq_false : greater ops cs i j = false ↔ rank ops cs i ≤ rank ops cs j := by
  rw [← Bool.not_eq_true, greater_iff, not_lt]

theorem strictWeak_greater (cs : List σ) : PriorityQueue.StrictWeak (greater ops cs) where
  asymm h := greater_eq_false.mpr (greater_iff.mp h).le
  negTrans hab hbc := by
    rw [greater_eq_false] at hab hbc ⊢
    exact hab.trans hbc

/-- The heap has the children with `P`, each once and in heap order. -/
structure Holds (ops : InternalIterator σ) (cs : List σ) (P : ℕ → Prop) (heap : List ℕ) :
    Prop where
  ordered : PriorityQueue.Ordered (greater ops cs) heap
  mem : ∀ i, i ∈ heap ↔ P i
  nodup : heap.Nodup

/-- The heap of the children holds the valid ones. -/
abbrev Heap (ops : InternalIterator σ) (cs : List σ) (heap : List ℕ) : Prop :=
  Holds ops cs (fun i => validAt ops cs i = true) heap

/-- What the children show. -/
def heads (ops : InternalIterator σ) (cs : List σ) : Heads := cs.map ops.current

theorem validAt_iff : validAt ops cs i = true ↔ ∃ e, (heads ops cs)[i]? = some (some e) := by
  unfold validAt heads InternalIterator.current
  rw [List.getElem?_map]
  cases cs[i]? with
  | none => simp
  | some c => by_cases hv : ops.valid c = true <;> simp [hv]

variable {e : Entry}

theorem keyAt_of_heads (h : (heads ops cs)[i]? = some (some e)) :
    keyAt ops cs i = e.key := by
  unfold heads InternalIterator.current at h
  rw [List.getElem?_map] at h
  unfold keyAt
  cases hc : cs[i]? with
  | none => simp [hc] at h
  | some c =>
    rw [hc, Option.map_some, Option.some.injEq] at h
    split_ifs at h
    rw [← Option.some.inj h]

variable {heap : List ℕ}

/-- The top of the heap is the child with the least key, the lowest index on a tie. -/
theorem Holds.top (h : Heap ops cs heap) :
    heap.head? = (Lsm.MergingIterator.top (heads ops cs)).map Prod.fst := by
  cases htop : Lsm.MergingIterator.top (heads ops cs) with
  | none =>
    cases heap with
    | nil => rfl
    | cons a l =>
      obtain ⟨e, he⟩ := validAt_iff.mp ((h.mem a).mp (by simp))
      exact absurd (List.mem_of_getElem? he) (Lsm.MergingIterator.top_eq_none htop e)
  | some p =>
    obtain ⟨j, e⟩ := p
    have hj := Lsm.MergingIterator.getElem?_top htop
    have hmem := (h.mem j).mpr (validAt_iff.mpr ⟨e, hj⟩)
    cases heap with
    | nil => simp at hmem
    | cons a l =>
      obtain ⟨x, hx⟩ := validAt_iff.mp ((h.mem a).mp (by simp))
      have hhead := greater_eq_false.mp (h.ordered.head (strictWeak_greater cs) hmem)
      have hfirst : rank ops cs j ≤ rank ops cs a := by
        rw [rank, rank, Prod.Lex.toLex_le_toLex, keyAt_of_heads hx, keyAt_of_heads hj]
        exact Lsm.MergingIterator.top_first htop hx
      -- neither of the two is before the other
      have haj : a = j := congrArg Prod.snd (toLex.injective (le_antisymm hhead hfirst))
      rw [List.head?_cons, Option.map_some, haj]

/-! ### What keeps the heap -/

theorem Holds.push {P : ℕ → Prop} {a : ℕ} (h : Holds ops cs P heap) (ha : ¬ P a) :
    Holds ops cs (fun i => i = a ∨ P i) (PriorityQueue.push (greater ops cs) heap a) := by
  have hperm : (PriorityQueue.push (greater ops cs) heap a).Perm (a :: heap) :=
    PriorityQueue.push_perm
  refine ⟨h.ordered.push (strictWeak_greater cs) a, ?_, ?_⟩
  · intro i
    rw [hperm.mem_iff, List.mem_cons, h.mem]
  · rw [hperm.nodup_iff, List.nodup_cons, h.mem]
    exact ⟨ha, h.nodup⟩

theorem Holds.congr {P Q : ℕ → Prop} (h : Holds ops cs P heap)
    (hPQ : ∀ i, P i ↔ Q i) : Holds ops cs Q heap :=
  ⟨h.ordered, fun i => (h.mem i).trans (hPQ i), h.nodup⟩

theorem heap_rebuildHeap (ops : InternalIterator σ) (hm : m.heap = []) :
    Heap ops m.children (m.rebuildHeap ops).heap := by
  -- after the first `k` children the heap holds the valid ones among them
  have hfold (k : ℕ) : Holds ops m.children (fun i => i < k ∧ validAt ops m.children i = true)
      ((List.range k).foldl
        (fun heap i =>
          if validAt ops m.children i then PriorityQueue.push (greater ops m.children) heap i
          else heap) []) := by
    induction k with
    | zero => exact ⟨PriorityQueue.ordered_nil, by simp, List.nodup_nil⟩
    | succ k ih =>
      rw [List.range_succ, List.foldl_append, List.foldl_cons, List.foldl_nil]
      by_cases hv : validAt ops m.children k = true
      · rw [if_pos hv]
        refine (ih.push (by omega : ¬(k < k ∧ _))).congr fun i => ?_
        constructor
        · rintro (rfl | ⟨hlt, hvi⟩)
          · exact ⟨by omega, hv⟩
          · exact ⟨by omega, hvi⟩
        · rintro ⟨hlt, hvi⟩
          rcases Nat.lt_succ_iff_lt_or_eq.mp hlt with hlt | rfl
          · exact Or.inr ⟨hlt, hvi⟩
          · exact Or.inl rfl
      · rw [if_neg hv]
        refine ih.congr fun i => ?_
        constructor
        · rintro ⟨hlt, hvi⟩
          exact ⟨by omega, hvi⟩
        · rintro ⟨hlt, hvi⟩
          rcases Nat.lt_succ_iff_lt_or_eq.mp hlt with hlt | rfl
          · exact ⟨hlt, hvi⟩
          · exact absurd hvi hv
  have hheap : (m.rebuildHeap ops).heap = (List.range m.children.length).foldl
      (fun heap i =>
        if validAt ops m.children i then PriorityQueue.push (greater ops m.children) heap i
        else heap) [] := by
    unfold rebuildHeap
    rw [hm]
  rw [hheap]
  refine (hfold m.children.length).congr fun i => ⟨And.right, fun hv => ⟨?_, hv⟩⟩
  by_contra hlt
  have hnone := List.getElem?_eq_none_iff.mpr (Nat.le_of_not_lt hlt)
  simp [validAt, hnone] at hv

/-- The child that is off the heap moves; the heap of the others stays one. -/
theorem Holds.pop {a : ℕ} {l : List ℕ} (h : Heap ops cs (a :: l)) (f : σ → σ) :
    Holds ops (cs.modify a f) (fun i => i ≠ a ∧ validAt ops (cs.modify a f) i = true)
      (PriorityQueue.pop (greater ops cs) (a :: l)) := by
  have hperm : (PriorityQueue.pop (greater ops cs) (a :: l)).Perm l := PriorityQueue.pop_perm a l
  obtain ⟨hal, hnd⟩ := List.nodup_cons.mp h.nodup
  have hsame : ∀ i, i ≠ a → (cs.modify a f)[i]? = cs[i]? := by
    intro i hne
    simp [Ne.symm hne]
  have hne : ∀ i ∈ PriorityQueue.pop (greater ops cs) (a :: l), i ≠ a := by
    rintro i hi rfl
    exact hal (hperm.mem_iff.mp hi)
  refine ⟨?_, ?_, hperm.nodup_iff.mpr hnd⟩
  · apply (h.ordered.pop (strictWeak_greater cs)).congr
    intro x hx y hy
    unfold greater keyAt
    rw [hsame x (hne x hx), hsame y (hne y hy)]
  · intro i
    rw [hperm.mem_iff]
    constructor
    · intro hi
      have hia : i ≠ a := fun heq => hal (heq ▸ hi)
      refine ⟨hia, ?_⟩
      unfold validAt
      rw [hsame i hia]
      exact (h.mem i).mp (List.mem_cons_of_mem _ hi)
    · rintro ⟨hia, hv⟩
      unfold validAt at hv
      rw [hsame i hia] at hv
      exact (List.mem_cons.mp ((h.mem i).mpr hv)).resolve_left hia

/-! ### The ordered merge -/

/-- The entries of the children, each with the index of its child. -/
def tagged : ℕ → List (List Entry) → List (ℕ × Entry)
  | _, [] => []
  | k, es :: ess => es.map (Prod.mk k) ++ tagged (k + 1) ess

/-- The order of the merge: by key, then by child. -/
def Precedes (p q : ℕ × Entry) : Prop :=
  p.2.key < q.2.key ∨ p.2.key = q.2.key ∧ p.1 < q.1

variable {ess : List (List Entry)}

theorem mem_tagged {k : ℕ} {p : ℕ × Entry} (h : p ∈ tagged k ess) :
    ∃ (j : ℕ) (es : List Entry), p.1 = k + j ∧ ess[j]? = some es ∧ p.2 ∈ es := by
  induction ess generalizing k with
  | nil => simp [tagged] at h
  | cons es ess ih =>
    rcases List.mem_append.mp h with h | h
    · obtain ⟨e, he, rfl⟩ := List.mem_map.mp h
      exact ⟨0, es, rfl, rfl, he⟩
    · obtain ⟨j, es', hj, hes', hp⟩ := ih h
      exact ⟨j + 1, es', by omega, by simpa using hes', hp⟩

/-- Taking the first entry of one child. -/
theorem tagged_set_perm {k : ℕ} {rest : List Entry} (h : ess[i]? = some (e :: rest)) :
    (tagged k ess).Perm ((k + i, e) :: tagged k (ess.set i rest)) := by
  induction ess generalizing k i with
  | nil => simp at h
  | cons es ess ih =>
    cases i with
    | zero =>
      rw [List.getElem?_cons_zero, Option.some.injEq] at h
      subst h
      exact List.Perm.refl _
    | succ i =>
      have hperm := ih (k := k + 1) (i := i) (by simpa using h)
      rw [Nat.add_assoc, Nat.add_comm 1] at hperm
      exact (hperm.append_left _).trans List.perm_middle

theorem tagged_eq_nil {k : ℕ} (h : ∀ es ∈ ess, es = []) :
    tagged k ess = [] := by
  induction ess generalizing k with
  | nil => rfl
  | cons es ess ih =>
    have hes := h es (by simp)
    have hrest := ih (k := k + 1) fun es' hes' => h es' (List.mem_cons_of_mem _ hes')
    simp [tagged, hes, hrest]

theorem dropWhile_less {es : List Entry} (hes : Ascending es) (t : InternalKey) :
    (es.dropWhile fun e => e.key.Less t) = es.filter fun e => ¬ e.key < t := by
  have hsplit : Search.Splits (fun e : Entry => decide (e.key.Less t)) es := by
    apply hes.imp
    intro a b hab hb
    rw [decide_eq_true_eq, InternalKey.less_iff] at hb ⊢
    exact hab.trans hb
  rw [hsplit.dropWhile_eq_filter]
  simp only [InternalKey.less_iff, ← decide_not]

/-- What `seek` leaves of the children. -/
theorem tagged_dropWhile {k : ℕ} (hasc : ∀ es ∈ ess, Ascending es) (t : InternalKey) :
    tagged k (ess.map fun es => es.dropWhile fun e => e.key.Less t) =
      (tagged k ess).filter fun p => ¬ p.2.key < t := by
  induction ess generalizing k with
  | nil => rfl
  | cons es ess ih =>
    have hes := dropWhile_less (hasc es (by simp)) t
    have hrest := ih (k := k + 1) fun es' hes' => hasc es' (List.mem_cons_of_mem _ hes')
    rw [List.map_cons, tagged, hes, hrest, tagged, List.filter_append, List.filter_map]
    rfl

theorem forall₂_modify {α β : Type} {R : α → β → Prop} {as : List α} {bs : List β}
    {f : α → α} {b : β} (h : List.Forall₂ R as bs) (hi : ∀ a, as[i]? = some a → R (f a) b) :
    List.Forall₂ R (as.modify i f) (bs.set i b) := by
  induction h generalizing i with
  | nil => simp
  | @cons a b' as bs hab has ih =>
    cases i with
    | zero => exact List.Forall₂.cons (hi a rfl) has
    | succ i => exact List.Forall₂.cons hab (ih fun a ha => hi a (by simpa using ha))

/-- The children stand where `rests` are still to come, and the heap is theirs. -/
structure Stands (ops : InternalIterator σ) (At : σ → List Entry → List Entry → Prop)
    (m : MergingIterator σ) (rests : List (List Entry)) : Prop where
  status : m.status = none
  heap : Heap ops m.children m.heap
  children : List.Forall₂ (fun c rest => ∃ es, At c es rest) m.children rests
  ascending : ∀ rest ∈ rests, Ascending rest

section Stands

variable {At : σ → List Entry → List Entry → Prop} {rests : List (List Entry)}

theorem heads_eq (hops : ops.Enumerates At)
    (h : List.Forall₂ (fun c rest => ∃ es, At c es rest) cs rests) :
    heads ops cs = rests.map List.head? := by
  induction h with
  | nil => rfl
  | cons hc _ ih =>
    obtain ⟨es, hat⟩ := hc
    rw [List.map_cons, ← ih, ← hops.current hat]
    rfl

theorem checkChildren_of_ok (h : ∀ c ∈ m.children, ops.status c = none) :
    m.checkChildren ops = (m, true) := by
  have hnone : m.children.findSome? ops.status = none := List.findSome?_eq_none_iff.mpr h
  unfold checkChildren
  rw [hnone]

theorem status_of_forall₂ {β : Type} {R : σ → β → Prop} {bs : List β} (h : List.Forall₂ R cs bs)
    (hR : ∀ c b, R c b → ops.status c = none) : ∀ c ∈ cs, ops.status c = none :=
  ((List.forall₂_and_left _ _).mp (h.imp fun c b hcb => ⟨hR c b hcb, hcb⟩)).1

theorem Stands.done (hops : ops.Enumerates At) (h : Stands ops At m rests)
    (htop : Lsm.MergingIterator.top (rests.map List.head?) = none) :
    m.valid ops = false ∧ ∀ rest ∈ rests, rest = [] := by
  have hhead := h.heap.top
  rw [heads_eq hops h.children, htop, Option.map_none, List.head?_eq_none_iff] at hhead
  constructor
  · simp [valid, hhead]
  · intro rest hrest
    cases hr : rest with
    | nil => rfl
    | cons e r =>
      have hmem := List.mem_map_of_mem (f := List.head?) hrest
      rw [hr] at hmem
      exact absurd hmem (Lsm.MergingIterator.top_eq_none htop e)

/-- The child at the top of the heap. -/
theorem Stands.child (hops : ops.Enumerates At) (h : Stands ops At m rests)
    (htop : Lsm.MergingIterator.top (rests.map List.head?) = some (i, e)) :
    ∃ l c rest, m.heap = i :: l ∧ m.children[i]? = some c ∧ ops.current c = some e ∧
      rests[i]? = some (e :: rest) ∧ validAt ops m.children i = true := by
  have hheads := heads_eq hops h.children
  have hget := Lsm.MergingIterator.getElem?_top htop
  have hhead := h.heap.top
  rw [hheads, htop, Option.map_some] at hhead
  obtain ⟨l, hl⟩ := List.head?_eq_some_iff.mp hhead
  have hci : (heads ops m.children)[i]? = some (some e) := by rw [hheads, hget]
  rw [heads, List.getElem?_map] at hci
  rw [List.getElem?_map] at hget
  obtain ⟨c, hc, hcur⟩ := Option.map_eq_some_iff.mp hci
  obtain ⟨r, hr, hhd⟩ := Option.map_eq_some_iff.mp hget
  obtain ⟨rest, rfl⟩ := List.head?_eq_some_iff.mp hhd
  exact ⟨l, c, rest, hl, hc, hcur, hr, (h.heap.mem i).mp (by simp [hl])⟩

/-- Where the children stand after one of them has moved. -/
theorem Stands.children_next (hops : ops.Enumerates At) (h : Stands ops At m rests)
    {rest : List Entry} (hrest : rests[i]? = some (e :: rest)) :
    List.Forall₂ (fun c rest => ∃ es, At c es rest)
      (m.children.modify i ops.next) (rests.set i rest) := by
  apply forall₂_modify h.children
  intro a ha
  obtain ⟨hia, rfl⟩ := List.getElem?_eq_some_iff.mp ha
  obtain ⟨hir, hri⟩ := List.getElem?_eq_some_iff.mp hrest
  obtain ⟨es, hat⟩ := h.children.get hia hir
  rw [List.get_eq_getElem, List.get_eq_getElem, hri] at hat
  exact ⟨es, hops.next hat⟩

/-- The merge shows the top and moves past it. -/
theorem Stands.move (hops : ops.Enumerates At) (h : Stands ops At m rests)
    (htop : Lsm.MergingIterator.top (rests.map List.head?) = some (i, e)) :
    ∃ rest m', rests[i]? = some (e :: rest) ∧ m.valid ops = true ∧ m.entry ops = some e ∧
      m.next ops = some m' ∧ Stands ops At m' (rests.set i rest) := by
  obtain ⟨l, c, rest, hl, hc, hcur, hrest, hvi⟩ := h.child hops htop
  have hheap := h.heap
  rw [hl] at hheap
  have hvalid : m.valid ops = true := by simp [valid, h.status, hl, hvi]
  have hchildren := h.children_next hops hrest
  have hcheck := status_of_forall₂ hchildren fun _ _ ⟨_, hat⟩ => hops.status hat
  have hasc : ∀ r ∈ rests.set i rest, Ascending r := by
    intro r hr
    rcases List.mem_or_eq_of_mem_set hr with hr | rfl
    · exact h.ascending r hr
    · exact (List.pairwise_cons.mp (h.ascending _ (List.mem_of_getElem? hrest))).2
  have hpop := hheap.pop ops.next
  have hentry : m.entry ops = some e := by
    unfold InternalIterator.current at hcur
    split_ifs at hcur
    rw [← hcur]
    simp [entry, hvalid, hl, hc]
  have hnext : m.next ops =
      if validAt ops (m.children.modify i ops.next) i then
        some ⟨m.children.modify i ops.next, PriorityQueue.push
          (greater ops (m.children.modify i ops.next))
          (PriorityQueue.pop (greater ops m.children) (i :: l)) i, m.status⟩
      else some ⟨m.children.modify i ops.next,
        PriorityQueue.pop (greater ops m.children) (i :: l), m.status⟩ := by
    unfold next
    rw [if_neg (by simp [hvalid]), hl]
    dsimp only
    rw [checkChildren_of_ok hcheck]
    rfl
  by_cases hv : validAt ops (m.children.modify i ops.next) i = true
  · rw [if_pos hv] at hnext
    refine ⟨rest, _, hrest, hvalid, hentry, hnext, h.status,
      (hpop.push fun h => h.1 rfl).congr fun j => ?_, hchildren, hasc⟩
    constructor
    · rintro (rfl | ⟨-, hvj⟩)
      · exact hv
      · exact hvj
    · intro hvj
      by_cases hji : j = i
      · exact Or.inl hji
      · exact Or.inr ⟨hji, hvj⟩
  · rw [if_neg hv] at hnext
    refine ⟨rest, _, hrest, hvalid, hentry, hnext, h.status,
      hpop.congr fun j => ⟨And.right, fun hvj => ⟨?_, hvj⟩⟩, hchildren, hasc⟩
    rintro rfl
    exact hv hvj

/-- The top comes before everything that is left. -/
theorem precedes_top (hasc : ∀ rest ∈ rests, Ascending rest) {rest : List Entry}
    (htop : Lsm.MergingIterator.top (rests.map List.head?) = some (i, e))
    (hrest : rests[i]? = some (e :: rest)) {p : ℕ × Entry}
    (hp : p ∈ tagged 0 (rests.set i rest)) : Precedes (i, e) p := by
  obtain ⟨j, es, hpj, hes, hmem⟩ := mem_tagged hp
  rw [Nat.zero_add] at hpj
  by_cases hji : j = i
  · subst hji
    rw [List.getElem?_set_self (List.getElem?_eq_some_iff.mp hrest).1, Option.some.injEq] at hes
    have hfirst := (List.pairwise_cons.mp (hasc _ (List.mem_of_getElem? hrest))).1
    exact Or.inl (hfirst p.2 (hes ▸ hmem))
  · rw [List.getElem?_set_ne (Ne.symm hji)] at hes
    cases es with
    | nil => simp at hmem
    | cons x es =>
      have hx : (rests.map List.head?)[j]? = some (some x) := by
        rw [List.getElem?_map, hes]
        rfl
      have hle : x.key ≤ p.2.key := by
        rcases List.mem_cons.mp hmem with hpx | hpx
        · rw [hpx]
        · exact ((List.pairwise_cons.mp (hasc _ (List.mem_of_getElem? hes))).1 p.2 hpx).le
      rcases Lsm.MergingIterator.top_first htop hx with hlt | ⟨hkey, hij⟩
      · exact Or.inl (hlt.trans_le hle)
      · rcases hle.lt_or_eq with hlt | heq
        · exact Or.inl (hkey ▸ hlt)
        · exact Or.inr ⟨hkey.trans heq, by rw [hpj]; exact lt_of_le_of_ne hij (Ne.symm hji)⟩

/-- From where the children stand, `next` passes all that is left, in the order of the merge. -/
theorem Stands.entries (hops : ops.Enumerates At) {fuel : ℕ} (h : Stands ops At m rests)
    (hfuel : (tagged 0 rests).length ≤ fuel) :
    ∃ (out : List (ℕ × Entry)) (last : MergingIterator σ),
      m.entries ops fuel = some (out.map Prod.snd, last) ∧ last.valid ops = false ∧
      last.status = none ∧ out.Perm (tagged 0 rests) ∧ out.Pairwise Precedes := by
  induction fuel generalizing m rests with
  | zero =>
    have hnil : tagged 0 rests = [] := List.eq_nil_of_length_eq_zero (by omega)
    cases htop : Lsm.MergingIterator.top (rests.map List.head?) with
    | none =>
      obtain ⟨hinvalid, -⟩ := h.done hops htop
      exact ⟨[], m, rfl, hinvalid, h.status, by rw [hnil], List.Pairwise.nil⟩
    | some p =>
      obtain ⟨rest, -, hrest, -⟩ := h.move hops htop
      have hlen := (tagged_set_perm (k := 0) hrest).length_eq
      rw [hnil, List.length_cons] at hlen
      simp at hlen
  | succ fuel ih =>
    unfold MergingIterator.entries
    cases htop : Lsm.MergingIterator.top (rests.map List.head?) with
    | none =>
      obtain ⟨hinvalid, hall⟩ := h.done hops htop
      rw [if_neg (by simp [hinvalid])]
      exact ⟨[], m, rfl, hinvalid, h.status, by rw [tagged_eq_nil hall], List.Pairwise.nil⟩
    | some p =>
      obtain ⟨i, e⟩ := p
      obtain ⟨rest, m', hrest, hvalid, hentry, hnext, hstands⟩ := h.move hops htop
      have hperm := tagged_set_perm (k := 0) hrest
      rw [Nat.zero_add] at hperm
      have hlen := hperm.length_eq
      rw [List.length_cons] at hlen
      obtain ⟨out, last, hout, hinvalid, hstatus, hperm', hsorted⟩ :=
        ih hstands (by omega)
      rw [if_pos hvalid]
      refine ⟨(i, e) :: out, last, ?_, hinvalid, hstatus, (hperm'.cons _).trans hperm.symm, ?_⟩
      · simp [hentry, hnext, hout]
      · refine List.pairwise_cons.mpr ⟨fun p hp => ?_, hsorted⟩
        exact precedes_top h.ascending htop hrest (hperm'.mem_iff.mp hp)

/-! ### Any calls before -/

theorem reposition_of_ok {move : σ → σ} (hs : m.status = none)
    (hcheck : ∀ c ∈ m.children, ops.status (move c) = none) :
    m.reposition ops move = rebuildHeap ops ⟨m.children.map move, [], none⟩ := by
  unfold reposition
  rw [if_neg (by simp [hs])]
  dsimp only
  rw [checkChildren_of_ok (by simpa using hcheck), ← hs]
  rfl

/-- The children can be told to move, whatever was called before. -/
structure Tracks (At : σ → List Entry → List Entry → Prop) (lists : List (List Entry))
    (m : MergingIterator σ) : Prop where
  status : m.status = none
  children : List.Forall₂ (fun c es => ∃ rest, At c es rest) m.children lists

variable {lists : List (List Entry)}

/-- Both ways to position the iterator. -/
theorem Tracks.reposition (hops : ops.Enumerates At) (h : Tracks At lists m)
    (hasc : ∀ es ∈ lists, Ascending es) {move : σ → σ} {left : List Entry → List Entry}
    (hmove : ∀ {c es rest}, At c es rest → At (move c) es (left es))
    (hleft : ∀ es, (left es).Sublist es) :
    Stands ops At (m.reposition ops move) (lists.map left) ∧
      Tracks At lists (m.reposition ops move) := by
  have hstand : List.Forall₂ (fun c rest => ∃ es, At c es rest) (m.children.map move)
      (lists.map left) := by
    rw [List.forall₂_map_left_iff, List.forall₂_map_right_iff]
    exact h.children.imp fun c es ⟨rest, hat⟩ => ⟨es, hmove hat⟩
  have htrack : List.Forall₂ (fun c es => ∃ rest, At c es rest) (m.children.map move) lists := by
    rw [List.forall₂_map_left_iff]
    exact h.children.imp fun c es ⟨rest, hat⟩ => ⟨left es, hmove hat⟩
  have hcheck : ∀ c ∈ m.children, ops.status (move c) = none := by
    intro c hc
    exact status_of_forall₂ hstand (fun _ _ ⟨_, hat⟩ => hops.status hat) _ (List.mem_map_of_mem hc)
  rw [reposition_of_ok h.status hcheck]
  have hheap := heap_rebuildHeap ops (m := ⟨m.children.map move, [], none⟩) rfl
  refine ⟨⟨rfl, hheap, hstand, ?_⟩, ⟨rfl, htrack⟩⟩
  intro rest hrest
  obtain ⟨es, hes, rfl⟩ := List.mem_map.mp hrest
  exact (hasc es hes).sublist (hleft es)

theorem valid_of_next (h : m.next ops = some m') : m.valid ops = true := by
  by_contra hv
  simp [next, hv] at h

/-- The child at the top of a valid iterator is not at its end. -/
theorem Tracks.top (hops : ops.Enumerates At) (h : Tracks At lists m) (hv : m.valid ops = true) :
    ∃ index l es e rest c, m.heap = index :: l ∧ m.children[index]? = some c ∧
      lists[index]? = some es ∧ At c es (e :: rest) := by
  unfold valid at hv
  rw [h.status, Option.isNone_none, Bool.true_and] at hv
  cases hheap : m.heap with
  | nil => simp [hheap] at hv
  | cons index l =>
    rw [hheap] at hv
    cases hc : m.children[index]? with
    | none => simp [validAt, hc] at hv
    | some c =>
      have hvc : ops.valid c = true := by simpa [validAt, hc] using hv
      obtain ⟨hlt, rfl⟩ := List.getElem?_eq_some_iff.mp hc
      have hlt' : index < lists.length := h.children.length_eq ▸ hlt
      obtain ⟨rest, hat⟩ := h.children.get hlt hlt'
      rw [List.get_eq_getElem, List.get_eq_getElem] at hat
      have hcur := hops.current hat
      unfold InternalIterator.current at hcur
      rw [if_pos hvc] at hcur
      obtain ⟨rest', rfl⟩ := List.head?_eq_some_iff.mp hcur.symm
      exact ⟨index, l, _, _, rest', _, rfl, hc, List.getElem?_eq_getElem hlt', hat⟩

theorem Tracks.next (hops : ops.Enumerates At) (h : Tracks At lists m)
    (hnext : m.next ops = some m') : Tracks At lists m' := by
  have hv := valid_of_next hnext
  obtain ⟨index, l, es, e, rest, c, hheap, hc, hes, hat⟩ := h.top hops hv
  have hchildren : List.Forall₂ (fun c es => ∃ rest, At c es rest)
      (m.children.modify index ops.next) lists := by
    have hset : lists.set index es = lists := by
      obtain ⟨hlt, rfl⟩ := List.getElem?_eq_some_iff.mp hes
      exact List.set_getElem_self hlt
    rw [← hset]
    apply forall₂_modify h.children
    intro a ha
    rw [hc, Option.some.injEq] at ha
    exact ⟨rest, hops.next (ha ▸ hat)⟩
  have hcheck := status_of_forall₂ hchildren fun _ _ ⟨_, hat⟩ => hops.status hat
  unfold MergingIterator.next at hnext
  rw [if_neg (by simp [hv]), hheap] at hnext
  dsimp only at hnext
  rw [checkChildren_of_ok hcheck, if_neg (by simp)] at hnext
  split_ifs at hnext
  · rw [← Option.some.inj hnext]
    exact ⟨h.status, hchildren⟩
  · rw [← Option.some.inj hnext]
    exact ⟨h.status, hchildren⟩

theorem Tracks.run (hops : ops.Enumerates At) (hasc : ∀ es ∈ lists, Ascending es)
    (h : Tracks At lists m) (hrun : MergeRun ops m m') : Tracks At lists m' := by
  induction hrun with
  | start => exact h
  | @call m₁ m₂ a _ hcall ih =>
    cases a with
    | seekToFirst =>
      rw [← Option.some.inj hcall]
      exact (ih.reposition hops hasc hops.seekToFirst fun es => List.Sublist.refl es).2
    | seek t =>
      rw [← Option.some.inj hcall]
      exact (ih.reposition hops hasc (hops.seek t) fun es => List.dropWhile_sublist _).2
    | next => exact ih.next hops hcall

end Stands

/-! ### Errors of children -/

theorem checkChildren_spec (ops : InternalIterator σ) (h : m.status = none) :
    (m.checkChildren ops).1.children = m.children ∧
      (m.checkChildren ops).1.status = m.children.findSome? ops.status := by
  unfold checkChildren
  cases m.children.findSome? ops.status with
  | none => exact ⟨rfl, h⟩
  | some s => exact ⟨rfl, rfl⟩

theorem status_reposition (h : m.status = none) (move : σ → σ) :
    (m.reposition ops move).status = (m.reposition ops move).children.findSome? ops.status := by
  unfold reposition
  rw [if_neg (by simp [h])]
  dsimp only
  obtain ⟨hchildren, hstatus⟩ := checkChildren_spec ops
    (m := { m.clearHeap with children := m.children.map move }) h
  split
  · exact hstatus.trans (by rw [← hchildren]; rfl)
  · exact hstatus.trans (by rw [hchildren])

theorem status_next (h : m.status = none) (hnext : m.next ops = some m') :
    m'.status = m'.children.findSome? ops.status := by
  unfold next at hnext
  split_ifs at hnext
  split at hnext
  · simp at hnext
  · rename_i index l hheap
    obtain ⟨hchildren, hstatus⟩ := checkChildren_spec ops
      (m := { m with
        heap := PriorityQueue.pop (greater ops m.children) m.heap
        children := m.children.modify index ops.next }) h
    dsimp only at hnext
    split_ifs at hnext
    · rw [← Option.some.inj hnext, hchildren]
      exact hstatus
    · rw [← Option.some.inj hnext]
      exact hstatus.trans (by rw [← hchildren])
    · rw [← Option.some.inj hnext, hchildren]
      exact hstatus

theorem status_call {a : MergeCall} (h : m.status = none) (hrun : a.run ops m = some m') :
    m'.status = m'.children.findSome? ops.status := by
  cases a with
  | seekToFirst =>
    rw [← Option.some.inj hrun]
    exact status_reposition h _
  | seek t =>
    rw [← Option.some.inj hrun]
    exact status_reposition h _
  | next => exact status_next h hrun

theorem not_valid_of_status {s : Status} (h : m.status = some s) : m.valid ops = false := by
  simp [valid, h]

/-- With an error no call changes anything. -/
theorem eq_of_run {s : Status} (h : m.status = some s) (hrun : MergeRun ops m m') : m' = m := by
  induction hrun with
  | start => rfl
  | @call m₁ m₂ a _ hcall ih =>
    subst ih
    cases a with
    | seekToFirst => simpa [MergeCall.run, seekToFirst, reposition, h] using hcall.symm
    | seek t => simpa [MergeCall.run, seek, reposition, h] using hcall.symm
    | next => exact absurd (valid_of_next hcall) (by simp [not_valid_of_status h])

/-- From `m` on, `next` passes the entries of `all` in the order of the merge, and then the
iterator is invalid without an error. -/
def Passes (ops : InternalIterator σ) (m : MergingIterator σ) (all : List (ℕ × Entry)) : Prop :=
  ∃ (out : List (ℕ × Entry)) (last : MergingIterator σ),
    m.entries ops all.length = some (out.map Prod.snd, last) ∧
      last.valid ops = false ∧ last.status = none ∧ out.Perm all ∧ out.Pairwise Precedes

/-- The merging iterator is an ordered merge of its children, whatever was called before: from
`seekToFirst` it passes each entry of each child once, by key and then by child, and from `seek`
those that are not less than the target. After a movement its status is the first error of a
child; with an error it is invalid and no further call changes that. -/
theorem merges_in_order (ops : InternalIterator σ) (children : List σ) :
    (∀ At lists, ops.Enumerates At →
      List.Forall₂ (fun c es => Ascending es ∧ ∃ rest, At c es rest) children lists →
      ∀ m, MergeRun ops ⟨children, [], none⟩ m →
        Passes ops (m.seekToFirst ops) (tagged 0 lists) ∧
        ∀ t, Passes ops (m.seek ops t) ((tagged 0 lists).filter fun p => ¬ p.2.key < t)) ∧
    ∀ m m' a, MergeRun ops ⟨children, [], none⟩ m → m.status = none →
      MergeCall.run ops m a = some m' → (∃ c ∈ m'.children, ops.status c ≠ none) →
      m'.status ≠ none ∧ m'.status = m'.children.findSome? ops.status ∧
        ∀ m'', MergeRun ops m' m'' → m''.status = m'.status ∧ m''.valid ops = false := by
  constructor
  · intro At lists hops hchildren m hrun
    have hasc : ∀ es ∈ lists, Ascending es := by
      intro es hes
      obtain ⟨i, hi⟩ := List.getElem?_of_mem hes
      obtain ⟨hlt, rfl⟩ := List.getElem?_eq_some_iff.mp hi
      exact (hchildren.get (hchildren.length_eq ▸ hlt) hlt).1
    have htrack : Tracks At lists m :=
      Tracks.run hops hasc ⟨rfl, hchildren.imp fun _ _ h => h.2⟩ hrun
    constructor
    · obtain ⟨hstands, -⟩ :=
        htrack.reposition hops hasc hops.seekToFirst fun es => List.Sublist.refl es
      rw [List.map_id'] at hstands
      exact hstands.entries hops le_rfl
    · intro t
      obtain ⟨hstands, -⟩ :=
        htrack.reposition hops hasc (hops.seek t) fun es => List.dropWhile_sublist _
      have hpass := hstands.entries hops le_rfl
      rw [tagged_dropWhile hasc] at hpass
      exact hpass
  · rintro m m' a - hok hrun ⟨c, hc, herr⟩
    have hstatus := status_call hok hrun
    have hne : m'.status ≠ none := by
      rw [hstatus]
      intro hnone
      exact herr (List.findSome?_eq_none_iff.mp hnone c hc)
    refine ⟨hne, hstatus, fun m'' hrun' => ?_⟩
    obtain ⟨s, hs⟩ := Option.ne_none_iff_exists'.mp hne
    rw [eq_of_run hs hrun']
    exact ⟨rfl, not_valid_of_status hs⟩

/-- An iterator over a list in memory: the list and what of it is still to come. -/
def listIterator : InternalIterator (List Entry × List Entry) where
  valid c := ! c.2.isEmpty
  seekToFirst c := (c.1, c.1)
  seek c t := (c.1, c.1.dropWhile fun e => e.key.Less t)
  next c := (c.1, c.2.tail)
  internalKey c := (c.2.head?.map Entry.key).getD ⟨[], 0, .deletion⟩
  value c := (c.2.head?.map Entry.value).getD []
  status _ := none

theorem enumerates_listIterator :
    listIterator.Enumerates fun c es rest => c = (es, rest) where
  seekToFirst := by
    rintro c es rest rfl
    rfl
  seek := by
    rintro c es rest t rfl
    rfl
  next := by
    rintro c es e rest rfl
    rfl
  current := by
    rintro c es rest rfl
    cases rest with
    | nil => rfl
    | cons e rest => rfl
  status _ := rfl

/-- Two children with one key in common. -/
theorem merges_in_order_two :
    Passes listIterator (seekToFirst listIterator
      ⟨[([⟨⟨[97], 2, .value⟩, [1]⟩], []), ([⟨⟨[97], 2, .value⟩, [2]⟩], [])], [], none⟩)
      [(0, ⟨⟨[97], 2, .value⟩, [1]⟩), (1, ⟨⟨[97], 2, .value⟩, [2]⟩)] :=
  ((merges_in_order listIterator _).1 _ [[⟨⟨[97], 2, .value⟩, [1]⟩], [⟨⟨[97], 2, .value⟩, [2]⟩]]
    enumerates_listIterator (.cons ⟨by decide, _, rfl⟩ (.cons ⟨by decide, _, rfl⟩ .nil)) _
    .start).1

end MergingIterator

end Heaped

end Mizu.Lsm
