import Mizu.Library.Linked
import Mizu.Library.Search
import Mathlib.Data.List.TakeWhile

/-!
# The skip list

`SkipList` of `db/skiplist.h`, with its nodes at addresses of an arena and the head at address 0.
A node has one link for each level below its height. `none` stands for a violated assertion, a
read of a link or a node that is not there, or a loop that does not end. The height that
`randomHeight` returns is an argument of `insert`.
-/

namespace Mizu.Lsm

structure SkipList.Node (α : Type) where
  key : α
  next : List (Option ℕ)

structure SkipList (α : Type) where
  nodes : List (SkipList.Node α)
  maxHeight : ℕ := 1

namespace SkipList

/-- `kMaxHeight` -/
def heightLimit : ℕ := 12

def nextRandom (state : UInt32) : UInt32 :=
  let state := state ^^^ (state <<< 13)
  let state := state ^^^ (state >>> 17)
  state ^^^ (state <<< 5)

/-- The loop of `randomHeight`, with at most `room` levels to add. -/
def growHeight : ℕ → ℕ → UInt32 → ℕ × UInt32
  | 0, height, state => (height, state)
  | room + 1, height, state =>
    let state := nextRandom state
    if state &&& 3 = 0 then growHeight room (height + 1) state else (height, state)

theorem growHeight_bounds (room height : ℕ) (state : UInt32) :
    height ≤ (growHeight room height state).1 ∧ (growHeight room height state).1 ≤ height +
      room := by
  induction room generalizing height state with
  | zero => exact ⟨le_rfl, le_rfl⟩
  | succ room ih =>
    unfold growHeight
    dsimp only
    split_ifs
    · obtain ⟨hle, hge⟩ := ih (height + 1) (nextRandom state)
      omega
    · exact ⟨le_rfl, Nat.le_add_right _ _⟩

/-- The heights of the nodes. -/
abbrev Height := {h : ℕ // 1 ≤ h ∧ h ≤ heightLimit}

def randomHeight (state : UInt32) : Height × UInt32 :=
  (⟨(growHeight (heightLimit - 1) 1 state).1, growHeight_bounds _ 1 state⟩,
    (growHeight (heightLimit - 1) 1 state).2)

section Model

variable {α : Type} (compare : α → α → Option ℤ)

/-- The constructor: a head with all links. -/
def new [Inhabited α] : SkipList α :=
  { nodes := [⟨default, List.replicate heightLimit none⟩] }

variable (s : SkipList α)

def keyAt (node : ℕ) : Option α := (s.nodes[node]?).map Node.key

def nextAt (node level : ℕ) : Option (Option ℕ) := (s.nodes[node]?).bind fun n => n.next[level]?

def setNext (node level : ℕ) (target : Option ℕ) : Option (SkipList α) := do
  let n ← s.nodes[node]?
  if level < n.next.length then
    some { s with nodes := s.nodes.set node { n with next := n.next.set level target } }
  else none

def keyIsAfterNode (key : α) : Option ℕ → Option Bool
  | none => some false
  | some i => do
    let k ← s.keyAt i
    let c ← compare k key
    some (decide (c < 0))

/-- The loop of `findGreaterOrEqual`, with the entries of `previous` above `level`. -/
def search (target : α) : ℕ → ℕ → ℕ → List ℕ → Option (Option ℕ × List ℕ)
  | 0, _, _, _ => none
  | fuel + 1, node, level, previous => do
    let next ← s.nextAt node level
    match ← s.keyIsAfterNode compare target next, next with
    | true, some i => search target fuel i level previous
    | _, _ =>
      if level = 0 then some (next, node :: previous)
      else search target fuel node (level - 1) (node :: previous)

/-- The node found and `previous`. -/
def findGreaterOrEqual (target : α) : Option (Option ℕ × List ℕ) :=
  s.search compare target (s.maxHeight * (s.nodes.length + 1)) 0 (s.maxHeight - 1) []

def isEqual (key : α) : Option ℕ → Option Bool
  | none => some false
  | some i => do
    let k ← s.keyAt i
    let c ← compare key k
    some (decide (c = 0))

/-- The links of the new node `id`, from `level` up. -/
def link (id : ℕ) : ℕ → List ℕ → SkipList α → Option (SkipList α)
  | _, [], s => some s
  | level, p :: previous, s => do
    let next ← s.nextAt p level
    let s ← s.setNext id level next
    let s ← s.setNext p level (some id)
    link id (level + 1) previous s

def insert (key : α) (height : ℕ) : Option (SkipList α) := do
  let (existing, previous) ← s.findGreaterOrEqual compare key
  if ← s.isEqual compare key existing then none
  else if height < 1 ∨ heightLimit < height then none
  else do
    let previous :=
      if height > s.maxHeight then previous ++ List.replicate (height - s.maxHeight) 0
      else previous
    let s' ← link s.nodes.length 0 (previous.take height)
      { s with nodes := s.nodes ++ [⟨key, List.replicate height none⟩] }
    some { s' with maxHeight := if height > s.maxHeight then height else s.maxHeight }

/-- The keys at a level, in the order of its links. -/
def level (l : ℕ) : Option (List α) :=
  (Linked.walk (fun node => s.nextAt node l) s.nodes.length 0).map fun ids =>
    ids.filterMap s.keyAt

end Model

/-! ### Links and keys -/

variable {id : ℕ}

section Memory

variable {α : Type} {s s' : SkipList α} {i j l k : ℕ}

theorem setNext_spec {old : Option ℕ} (h : s.nextAt i l = some old) (target : Option ℕ) :
    ∃ s', s.setNext i l target = some s' ∧ s'.nextAt i l = some target ∧
      (∀ j k, (j, k) ≠ (i, l) → s'.nextAt j k = s.nextAt j k) ∧
      (∀ j, s'.keyAt j = s.keyAt j) ∧ s'.nodes.length = s.nodes.length ∧
      s'.maxHeight = s.maxHeight := by
  obtain ⟨n, hn, hl⟩ := Option.bind_eq_some_iff.mp h
  have hlt := (List.getElem?_eq_some_iff.mp hl).1
  have hi := (List.getElem?_eq_some_iff.mp hn).1
  refine ⟨{ s with nodes := s.nodes.set i { n with next := n.next.set l target } }, ?_, ?_, ?_, ?_,
    ?_, rfl⟩
  · simp [setNext, hn, hlt]
  · simp [nextAt, List.getElem?_set_self hi, List.getElem?_set_self hlt]
  · intro j k hne
    unfold nextAt
    by_cases hij : i = j
    · subst hij
      have hlk : l ≠ k := fun heq => hne (by rw [heq])
      simp [List.getElem?_set_self hi, hn, List.getElem?_set_ne hlk]
    · simp [List.getElem?_set_ne hij]
  · intro j
    unfold keyAt
    by_cases hij : i = j
    · subst hij
      simp [List.getElem?_set_self hi, hn]
    · simp [List.getElem?_set_ne hij]
  · simp

/-- The new node is linked in after each of `previous`; no other link changes. -/
theorem link_spec {level : ℕ} {previous : List ℕ}
    (hprev : ∀ (j p : ℕ), previous[j]? = some p → p ≠ id ∧
      (∃ old, s.nextAt p (level + j) = some old) ∧ ∃ old, s.nextAt id (level + j) = some old) :
    ∃ s', link id level previous s = some s' ∧
      (∀ (j p : ℕ), previous[j]? = some p → s'.nextAt p (level + j) = some (some id) ∧
        s'.nextAt id (level + j) = s.nextAt p (level + j)) ∧
      (∀ r k, (∀ (j p : ℕ), previous[j]? = some p → k = level + j → r ≠ p ∧ r ≠ id) →
        s'.nextAt r k = s.nextAt r k) ∧
      (∀ j, s'.keyAt j = s.keyAt j) ∧ s'.nodes.length = s.nodes.length ∧
      s'.maxHeight = s.maxHeight := by
  induction previous generalizing level s with
  | nil =>
    refine ⟨s, rfl, ?_, fun _ _ _ => rfl, fun _ => rfl, rfl, rfl⟩
    intro j p hp
    simp at hp
  | cons p previous ih =>
    obtain ⟨hpid, ⟨old, hold⟩, ⟨old', hold'⟩⟩ := hprev 0 p rfl
    rw [Nat.add_zero] at hold hold'
    obtain ⟨s₁, hs₁, hat₁, hother₁, hkey₁, hlen₁, hmax₁⟩ := setNext_spec hold' old
    have hold₁ : s₁.nextAt p level = some old := by
      rw [hother₁ p level (by simp [hpid]), hold]
    obtain ⟨s₂, hs₂, hat₂, hother₂, hkey₂, hlen₂, hmax₂⟩ := setNext_spec hold₁ (some id)
    have hhigh : ∀ r k, k ≠ level → s₂.nextAt r k = s.nextAt r k := by
      intro r k hk
      rw [hother₂ r k (by simp [hk]), hother₁ r k (by simp [hk])]
    have hprev' : ∀ (j q : ℕ), previous[j]? = some q → q ≠ id ∧
        (∃ old, s₂.nextAt q (level + 1 + j) = some old) ∧
        ∃ old, s₂.nextAt id (level + 1 + j) = some old := by
      intro j q hq
      have hnext := hprev (j + 1) q (by simpa using hq)
      rw [show level + (j + 1) = level + 1 + j by omega] at hnext
      rw [hhigh q _ (by omega), hhigh id _ (by omega)]
      exact hnext
    obtain ⟨s₃, hs₃, hat₃, hother₃, hkey₃, hlen₃, hmax₃⟩ := ih hprev'
    have hlow : ∀ r, s₃.nextAt r level = s₂.nextAt r level := by
      intro r
      apply hother₃
      omega
    refine ⟨s₃, ?_, ?_, ?_, ?_, by rw [hlen₃, hlen₂, hlen₁], by rw [hmax₃, hmax₂, hmax₁]⟩
    · simp [link, hold, hs₁, hs₂, hs₃]
    · intro j q hq
      cases j with
      | zero =>
        rw [List.getElem?_cons_zero, Option.some.injEq] at hq
        subst hq
        rw [Nat.add_zero, hlow, hlow, hat₂, hother₂ id level (by simp [Ne.symm hpid]), hat₁, hold]
        exact ⟨rfl, rfl⟩
      | succ j =>
        have hq' := hat₃ j q (by simpa using hq)
        rw [show level + (j + 1) = level + 1 + j by omega, ← hhigh q _ (by omega)]
        exact hq'
    · intro r k hr
      by_cases hk : k = level
      · subst hk
        obtain ⟨hrp, hrid⟩ := hr 0 p rfl rfl
        rw [hlow, hother₂ r k (by simp [hrp]), hother₁ r k (by simp [hrid])]
      · rw [hother₃ r k, hhigh r k hk]
        intro j q hq heq
        exact hr (j + 1) q (by simpa using hq) (by omega)
    · intro j
      rw [hkey₃, hkey₂, hkey₁]

end Memory

/-! ### The levels -/

section Levels

variable {α κ : Type} [LinearOrder κ]

/-- The comparison of the keys in `S` is the order of their ranks. -/
def Compares (compare : α → α → Option ℤ) (S : α → Prop) (rank : α → κ) : Prop :=
  ∀ a b, S a → S b →
    ∃ c, compare a b = some c ∧ (c < 0 ↔ rank a < rank b) ∧ (c = 0 ↔ rank a = rank b)

/-- Whether the key of a node is before `target`. -/
def less (rank : α → κ) (s : SkipList α) (target : α) (i : ℕ) : Bool :=
  match s.keyAt i with
  | some k => decide (rank k < rank target)
  | none => false

/-- The lists of nodes of the levels: each a part of the one below, the lowest with all nodes in
the order of their keys. -/
structure Levels (S : α → Prop) (rank : α → κ) (s : SkipList α) (ls : ℕ → List ℕ) : Prop where
  follows : ∀ l < heightLimit, Linked.Follows (fun node => s.nextAt node l) 0 (ls l)
  keys : ∀ i ∈ ls 0, ∃ k, s.keyAt i = some k ∧ S k
  mem : ∀ i, i ∈ ls 0 ↔ 0 < i ∧ i < s.nodes.length
  sorted : (ls 0).Pairwise fun i j =>
    ∀ a b, s.keyAt i = some a → s.keyAt j = some b → rank a < rank b
  sub : ∀ l, (ls (l + 1)).Sublist (ls l)
  empty : ∀ l, s.maxHeight ≤ l → ls l = []
  height : 0 < s.maxHeight ∧ s.maxHeight ≤ heightLimit

variable {compare : α → α → Option ℤ} {S : α → Prop} {rank : α → κ} {s : SkipList α}
  {ls : ℕ → List ℕ} {target : α} {i l : ℕ}

theorem less_of_keyAt {k : α} (h : s.keyAt i = some k) :
    less rank s target i = decide (rank k < rank target) := by
  simp [less, h]

namespace Levels

variable (h : Levels S rank s ls)

include h

theorem sublist_zero (l : ℕ) : (ls l).Sublist (ls 0) := by
  induction l with
  | zero => exact List.Sublist.refl _
  | succ l ih => exact (h.sub l).trans ih

theorem nodup (l : ℕ) : (ls l).Nodup := by
  refine List.Sublist.nodup (h.sublist_zero l) ?_
  refine h.sorted.imp_of_mem ?_
  rintro i j hi - hij rfl
  obtain ⟨k, hk, -⟩ := h.keys i hi
  exact lt_irrefl _ (hij k k hk hk)

theorem lt_of_mem (hi : i ∈ ls l) : 0 < i ∧ i < s.nodes.length :=
  (h.mem i).mp ((h.sublist_zero l).subset hi)

theorem pos : 0 < s.nodes.length := by
  have hhead := (h.follows 0 (by decide)).head
  obtain ⟨n, hn, -⟩ := Option.bind_eq_some_iff.mp hhead
  exact (List.getElem?_eq_some_iff.mp hn).1

theorem nodup_cons (l : ℕ) : (0 :: ls l).Nodup :=
  List.nodup_cons.mpr ⟨fun hmem => absurd (h.lt_of_mem hmem).1 (by omega), h.nodup l⟩

theorem length_lt (l : ℕ) : (ls l).length < s.nodes.length := by
  have hsub : 0 :: ls l ⊆ List.range s.nodes.length := by
    intro i hi
    rw [List.mem_range]
    rcases List.mem_cons.mp hi with rfl | hi
    · exact h.pos
    · exact (h.lt_of_mem hi).2
  have hle := ((h.nodup_cons l).subperm hsub).length_le
  rwa [List.length_range, List.length_cons, Nat.succ_le_iff] at hle

/-- The nodes before a target come first. -/
theorem splits (target : α) (l : ℕ) : Search.Splits (less rank s target) (ls l) := by
  have hsorted := h.sorted.sublist (h.sublist_zero l)
  refine hsorted.imp_of_mem ?_
  intro i j hi hj hij hless
  obtain ⟨a, ha, -⟩ := h.keys i ((h.sublist_zero l).subset hi)
  obtain ⟨b, hb, -⟩ := h.keys j ((h.sublist_zero l).subset hj)
  rw [less_of_keyAt hb, decide_eq_true_eq] at hless
  rw [less_of_keyAt ha, decide_eq_true_eq]
  exact (hij a b ha hb).trans hless

theorem keyIsAfterNode (hc : Compares compare S rank) (hS : S target) (hi : i ∈ ls 0) :
    s.keyIsAfterNode compare target (some i) = some (less rank s target i) := by
  obtain ⟨k, hk, hSk⟩ := h.keys i hi
  obtain ⟨c, hcmp, hlt, -⟩ := hc k target hSk hS
  rw [less_of_keyAt hk]
  simp [SkipList.keyIsAfterNode, hk, hcmp, hlt]

/-- A node of one level is a node of the level below; all nodes in front of it are before the
target as well. -/
theorem descend {pre post : List ℕ} (hsplit : ls (l + 1) = pre ++ post)
    (hless : ∀ i ∈ pre, less rank s target i = true) :
    ∃ pre' post', ls l = pre' ++ post' ∧ pre'.getLastD 0 = pre.getLastD 0 ∧
      ∀ i ∈ pre', less rank s target i = true := by
  rcases List.eq_nil_or_concat pre with rfl | ⟨pre, i, rfl⟩
  · exact ⟨[], ls l, rfl, rfl, by simp⟩
  · have hi : i ∈ ls l := (h.sub l).subset (by simp [hsplit])
    obtain ⟨pre', post', hls⟩ := List.append_of_mem hi
    have hlast : less rank s target i = true := hless i (by simp)
    refine ⟨pre' ++ [i], post', by simp [hls], by simp, ?_⟩
    have hsp := h.splits target l
    rw [hls] at hsp
    intro j hj
    rcases List.mem_append.mp hj with hj | hj
    · exact (List.pairwise_append.mp hsp).2.2 j hj i (by simp) hlast
    · rw [List.mem_singleton.mp hj]
      exact hlast

end Levels

/-- The last node of a level that is before the target, or the head. -/
def pred (rank : α → κ) (s : SkipList α) (ls : ℕ → List ℕ) (target : α) (l : ℕ) : ℕ :=
  ((ls l).takeWhile (less rank s target)).getLastD 0

/-- The search from a node of a level that is before the target. -/
theorem Levels.search (h : Levels S rank s ls) (hc : Compares compare S rank) (hS : S target)
    {fuel : ℕ} {pre post : List ℕ} (previous : List ℕ) (hl : l < heightLimit)
    (hsplit : ls l = pre ++ post)
    (hless : ∀ i ∈ pre, less rank s target i = true)
    (hfuel : post.length + l * (s.nodes.length + 1) < fuel) :
    s.search compare target fuel (pre.getLastD 0) l previous =
      some ((ls 0).find? fun i => ! less rank s target i,
        (List.range (l + 1)).map (pred rank s ls target) ++ previous) := by
  induction fuel generalizing pre post l previous with
  | zero => omega
  | succ fuel ih =>
    have hfollows := h.follows l hl
    rw [hsplit] at hfollows
    have hnext : s.nextAt (pre.getLastD 0) l = some post.head? := hfollows.append.head
    have hmem : ∀ i ∈ post, i ∈ ls 0 := by
      intro i hi
      exact (h.sublist_zero l).subset (by simp [hsplit, hi])
    -- the end of the search at this level
    have hstop : (∀ i ∈ post.head?, less rank s target i = false) →
        (if l = 0 then some (post.head?, pre.getLastD 0 :: previous)
          else s.search compare target fuel (pre.getLastD 0) (l - 1)
            (pre.getLastD 0 :: previous)) =
        some ((ls 0).find? fun i => ! less rank s target i,
          (List.range (l + 1)).map (pred rank s ls target) ++ previous) := by
      intro hhead
      have htake : (ls l).takeWhile (less rank s target) = pre := by
        rw [hsplit, List.takeWhile_append_of_pos hless]
        cases post with
        | nil => simp
        | cons i post => simp [hhead i rfl]
      have hpred : pred rank s ls target l = pre.getLastD 0 := by rw [pred, htake]
      cases l with
      | zero =>
        have hfind : (ls 0).find? (fun i => ! less rank s target i) = post.head? := by
          rw [hsplit, List.find?_append, List.find?_eq_none.mpr (by simpa using hless)]
          cases post with
          | nil => rfl
          | cons i post => simp [hhead i rfl]
        simp [hfind, hpred]
      | succ l =>
        obtain ⟨pre', post', hls, hlast, hless'⟩ := h.descend hsplit hless
        have hlen := h.length_lt l
        rw [hls, List.length_append] at hlen
        rw [Nat.succ_mul] at hfuel
        have hrange : List.range (l + 1 + 1) = List.range (l + 1) ++ [l + 1] := List.range_succ
        rw [if_neg (by omega), Nat.add_sub_cancel, ← hlast,
          ih _ (by omega) hls hless' (by omega), hrange, List.map_append, hlast, ← hpred]
        simp only [List.map_cons, List.map_nil, List.append_assoc, List.cons_append,
          List.nil_append]
    unfold SkipList.search
    rw [hnext]
    cases post with
    | nil => exact hstop (by simp)
    | cons i post =>
      have hafter := h.keyIsAfterNode hc hS (hmem i (by simp))
      rw [List.length_cons] at hfuel
      cases hi : less rank s target i with
      | true =>
        have hsplit' : ls l = (pre ++ [i]) ++ post := by simp [hsplit]
        have hless' : ∀ j ∈ pre ++ [i], less rank s target j = true := by
          intro j hj
          rcases List.mem_append.mp hj with hj | hj
          · exact hless j hj
          · rw [List.mem_singleton.mp hj]
            exact hi
        have hrec := ih previous hl hsplit' hless' (by omega)
        simpa [hafter, hi] using hrec
      | false =>
        have hend := hstop (by simpa using hi)
        simpa [hafter, hi] using hend

theorem Levels.findGreaterOrEqual (h : Levels S rank s ls) (hc : Compares compare S rank)
    (hS : S target) :
    s.findGreaterOrEqual compare target =
      some ((ls 0).find? fun i => ! less rank s target i,
        (List.range s.maxHeight).map (pred rank s ls target)) := by
  obtain ⟨hpos, hle⟩ := h.height
  have hlen := h.length_lt (s.maxHeight - 1)
  have hfuel : (ls (s.maxHeight - 1)).length + (s.maxHeight - 1) * (s.nodes.length + 1) <
      s.maxHeight * (s.nodes.length + 1) := by
    obtain ⟨n, hn⟩ : ∃ n, s.maxHeight = n + 1 := ⟨s.maxHeight - 1, by omega⟩
    rw [hn, Nat.succ_mul, Nat.add_sub_cancel]
    rw [hn, Nat.add_sub_cancel] at hlen
    omega
  have hsplit : ls (s.maxHeight - 1) = [] ++ ls (s.maxHeight - 1) := rfl
  have hsearch := h.search hc hS [] (by omega) hsplit (by simp) hfuel
  rw [Nat.sub_add_cancel hpos, List.append_nil] at hsearch
  exact hsearch

/-! ### Insertion -/

/-- The list of a level below the height of the new node. -/
def insertAt (rank : α → κ) (s : SkipList α) (key : α) (id : ℕ) (ids : List ℕ) : List ℕ :=
  ids.takeWhile (less rank s key) ++ id :: ids.dropWhile (less rank s key)

/-- The nodes with the new one, before it is linked. -/
def allocate (s : SkipList α) (key : α) (height : ℕ) : SkipList α :=
  { s with nodes := s.nodes ++ [⟨key, List.replicate height none⟩] }

section Allocate

variable {key : α} {height : ℕ}

theorem keyAt_allocate_self : (s.allocate key height).keyAt s.nodes.length = some key := by
  simp [allocate, keyAt]

theorem getElem?_allocate (hi : i ≠ s.nodes.length) :
    (s.allocate key height).nodes[i]? = s.nodes[i]? := by
  rcases Nat.lt_or_gt_of_ne hi with hlt | hgt
  · exact List.getElem?_append_left hlt
  · rw [List.getElem?_eq_none (by simp [allocate]; omega), List.getElem?_eq_none (by omega)]

theorem keyAt_allocate (hi : i ≠ s.nodes.length) : (s.allocate key height).keyAt i = s.keyAt i := by
  rw [keyAt, keyAt, getElem?_allocate hi]

theorem nextAt_allocate_self (hl : l < height) :
    (s.allocate key height).nextAt s.nodes.length l = some none := by
  simp [allocate, nextAt, hl]

theorem nextAt_allocate (hi : i ≠ s.nodes.length) :
    (s.allocate key height).nextAt i l = s.nextAt i l := by
  rw [nextAt, nextAt, getElem?_allocate hi]

end Allocate

theorem Levels.insert_eq (h : Levels S rank s ls) (hc : Compares compare S rank) {key : α}
    {height : ℕ} (hS : S key) (hheight : 1 ≤ height ∧ height ≤ heightLimit)
    (hfresh : ∀ i ∈ ls 0, ∀ k, s.keyAt i = some k → rank k ≠ rank key) :
    s.insert compare key height =
      (link s.nodes.length 0 ((List.range height).map (pred rank s ls key))
        (s.allocate key height)).map fun s' =>
          { s' with maxHeight := if height > s.maxHeight then height else s.maxHeight } := by
  have hfind := h.findGreaterOrEqual hc hS
  -- no key is equal
  have hequal : s.isEqual compare key ((ls 0).find? fun i => ! less rank s key i) = some false := by
    cases hex : (ls 0).find? fun i => ! less rank s key i with
    | none => rfl
    | some i =>
      have hi := List.mem_of_find?_eq_some hex
      obtain ⟨k, hk, hSk⟩ := h.keys i hi
      obtain ⟨c, hcmp, -, heq⟩ := hc key k hS hSk
      have hne : c ≠ 0 := fun h0 => hfresh i hi k hk (heq.mp h0).symm
      simp [isEqual, hk, hcmp, hne]
  -- the head is the last node before the key at the levels that are new
  have hprev : (if height > s.maxHeight then
      (List.range s.maxHeight).map (pred rank s ls key) ++
        List.replicate (height - s.maxHeight) 0
      else (List.range s.maxHeight).map (pred rank s ls key)).take height =
        (List.range height).map (pred rank s ls key) := by
    apply List.ext_getElem?
    intro l
    by_cases hlh : l < height
    · rw [List.getElem?_take_of_lt hlh, List.getElem?_map, List.getElem?_range hlh, Option.map_some]
      by_cases hlm : l < s.maxHeight
      · split_ifs
        · rw [List.getElem?_append_left (by simpa using hlm)]
          simp [hlm]
        · simp [hlm]
      · have hnew : pred rank s ls key l = 0 := by simp [pred, h.empty l (by omega)]
        rw [if_pos (by omega), List.getElem?_append_right (by simp; omega), hnew]
        rw [List.getElem?_replicate_of_lt (by simp; omega)]
    · rw [List.getElem?_eq_none (by simp; omega), List.getElem?_eq_none (by simp; omega)]
  unfold SkipList.insert
  rw [hfind]
  simp only [Option.bind_eq_bind, Option.bind_some, hequal, hprev]
  rw [if_neg (by simp), if_neg (by omega)]
  exact Option.map_eq_bind.symm

namespace Levels

variable (h : Levels S rank s ls) {key : α} {height : ℕ}

include h

theorem pred_lt (key : α) (l : ℕ) : pred rank s ls key l < s.nodes.length := by
  have hmem : pred rank s ls key l ∈ 0 :: (ls l).takeWhile (less rank s key) :=
    List.getLastD_mem_cons
  rcases List.mem_cons.mp hmem with heq | hmem
  · rw [heq]
    exact h.pos
  · exact (h.lt_of_mem ((List.takeWhile_sublist _).subset hmem)).2

theorem nextAt_pred (key : α) (hl : l < heightLimit) :
    s.nextAt (pred rank s ls key l) l = some ((ls l).dropWhile (less rank s key)).head? := by
  have hfollows := h.follows l hl
  rw [← List.takeWhile_append_dropWhile (p := less rank s key) (l := ls l)] at hfollows
  exact hfollows.append.head

theorem linked (key : α) (hheight : height ≤ heightLimit) :
    ∃ s', link s.nodes.length 0 ((List.range height).map (pred rank s ls key))
        (s.allocate key height) = some s' ∧
      (∀ l < heightLimit, Linked.Follows (fun node => s'.nextAt node l) 0
        (if l < height then insertAt rank s key s.nodes.length (ls l) else ls l)) ∧
      (∀ i, s'.keyAt i = (s.allocate key height).keyAt i) ∧
      s'.nodes.length = s.nodes.length + 1 := by
  have hget : ∀ j p, ((List.range height).map (pred rank s ls key))[j]? = some p ↔
      j < height ∧ p = pred rank s ls key j := by
    intro j p
    by_cases hj : j < height
    · simp [hj, eq_comm]
    · simp [hj]
  have hne : ∀ l, pred rank s ls key l ≠ s.nodes.length := fun l => (h.pred_lt key l).ne
  have hslots : ∀ j p, ((List.range height).map (pred rank s ls key))[j]? = some p →
      p ≠ s.nodes.length ∧ (∃ old, (s.allocate key height).nextAt p (0 + j) = some old) ∧
        ∃ old, (s.allocate key height).nextAt s.nodes.length (0 + j) = some old := by
    intro j p hp
    obtain ⟨hj, rfl⟩ := (hget j p).mp hp
    rw [Nat.zero_add, nextAt_allocate (hne j)]
    exact ⟨hne j, ⟨_, h.nextAt_pred key (by omega)⟩, none, nextAt_allocate_self hj⟩
  obtain ⟨s', hlink, hat, hother, hkey, hlen, -⟩ := link_spec hslots
  refine ⟨s', hlink, ?_, hkey, by rw [hlen]; simp [allocate]⟩
  intro l hl
  have hid : s.nodes.length ∉ 0 :: ls l := by
    intro hmem
    rcases List.mem_cons.mp hmem with heq | hmem
    · exact absurd h.pos (by omega)
    · exact absurd (h.lt_of_mem hmem).2 (by omega)
  by_cases hlh : l < height
  · rw [if_pos hlh]
    obtain ⟨hatp, hati⟩ := hat l _ ((hget l _).mpr ⟨hlh, rfl⟩)
    rw [Nat.zero_add] at hatp hati
    have hsplit := List.takeWhile_append_dropWhile (p := less rank s key) (l := ls l)
    have hfollows := h.follows l hl
    rw [← hsplit] at hfollows
    apply hfollows.insert
    · rw [hsplit]
      exact h.nodup_cons l
    · rwa [hsplit]
    · exact hatp
    · rw [hati, nextAt_allocate (hne l)]
      rfl
    · intro i hi hip
      rw [hother i l, nextAt_allocate hi]
      intro j p hp hlj
      obtain ⟨-, rfl⟩ := (hget j p).mp hp
      rw [Nat.zero_add] at hlj
      subst hlj
      exact ⟨hip, hi⟩
  · rw [if_neg hlh]
    refine (h.follows l hl).congr fun i hi => ?_
    rw [hother i l, nextAt_allocate fun heq => hid (heq ▸ hi)]
    intro j p hp hlj
    have hj := ((hget j p).mp hp).1
    omega

/-- The new node stands between the keys before its own and the keys after it. -/
theorem sorted_insertAt {s' : SkipList α} (hnew : s'.keyAt id = some key)
    (hold : ∀ i ∈ ls 0, s'.keyAt i = s.keyAt i)
    (hfresh : ∀ i ∈ ls 0, ∀ k, s.keyAt i = some k → rank k ≠ rank key) :
    (insertAt rank s key id (ls 0)).Pairwise fun i j =>
      ∀ a b, s'.keyAt i = some a → s'.keyAt j = some b → rank a < rank b := by
  have hsplits := h.splits key 0
  have hsorted : (ls 0).Pairwise fun i j =>
      ∀ a b, s'.keyAt i = some a → s'.keyAt j = some b → rank a < rank b := by
    refine h.sorted.imp_of_mem fun {i j} hi hj hij => ?_
    rwa [hold i hi, hold j hj]
  have hbefore : ∀ i ∈ (ls 0).takeWhile (less rank s key), ∀ a, s'.keyAt i = some a →
      rank a < rank key := by
    intro i hi a ha
    rw [hsplits.takeWhile_eq_filter, List.mem_filter] at hi
    rw [hold i hi.1] at ha
    simpa [less_of_keyAt ha] using hi.2
  have hafter : ∀ i ∈ (ls 0).dropWhile (less rank s key), ∀ a, s'.keyAt i = some a →
      rank key < rank a := by
    intro i hi a ha
    rw [hsplits.dropWhile_eq_filter, List.mem_filter] at hi
    rw [hold i hi.1] at ha
    have hle : rank key ≤ rank a := by simpa [less_of_keyAt ha] using hi.2
    exact lt_of_le_of_ne hle (hfresh i hi.1 a ha).symm
  rw [← List.takeWhile_append_dropWhile (p := less rank s key) (l := ls 0),
    List.pairwise_append] at hsorted
  obtain ⟨hpre, hpost, -⟩ := hsorted
  refine List.pairwise_append.mpr ⟨hpre, List.pairwise_cons.mpr ⟨?_, hpost⟩, ?_⟩
  · intro j hj a b ha hb
    rw [hnew, Option.some.injEq] at ha
    rw [← ha]
    exact hafter j hj b hb
  · intro i hi j hj a b ha hb
    rcases List.mem_cons.mp hj with rfl | hj
    · rw [hnew, Option.some.injEq] at hb
      rw [← hb]
      exact hbefore i hi a ha
    · exact (hbefore i hi a ha).trans (hafter j hj b hb)

theorem sublist_insertAt (l : ℕ) :
    (insertAt rank s key id (ls (l + 1))).Sublist (insertAt rank s key id (ls l)) := by
  unfold insertAt
  rw [(h.splits key l).takeWhile_eq_filter, (h.splits key l).dropWhile_eq_filter,
    (h.splits key (l + 1)).takeWhile_eq_filter, (h.splits key (l + 1)).dropWhile_eq_filter]
  exact ((h.sub l).filter _).append (((h.sub l).filter _).cons_cons _)

omit h in
theorem sublist_insertAt_self {ids : List ℕ} : ids.Sublist (insertAt rank s key id ids) := by
  have hsplit := List.takeWhile_append_dropWhile (p := less rank s key) (l := ids)
  have hsub : (ids.takeWhile (less rank s key) ++ ids.dropWhile (less rank s key)).Sublist
      (insertAt rank s key id ids) := (List.Sublist.refl _).append (List.sublist_cons_self _ _)
  rwa [hsplit] at hsub

omit h in
theorem perm_insertAt {ids : List ℕ} :
    (insertAt rank s key id ids).Perm (id :: ids) := by
  have hsplit := List.takeWhile_append_dropWhile (p := less rank s key) (l := ids)
  have hperm : (insertAt rank s key id ids).Perm
      (id :: (ids.takeWhile (less rank s key) ++ ids.dropWhile (less rank s key))) :=
    List.perm_middle
  rwa [hsplit] at hperm

/-- `insert` of a new key, with any height: the new node stands at its place in the levels below
its height. -/
theorem insert (hc : Compares compare S rank) (hS : S key)
    (hheight : 1 ≤ height ∧ height ≤ heightLimit)
    (hfresh : ∀ i ∈ ls 0, ∀ k, s.keyAt i = some k → rank k ≠ rank key) :
    ∃ s', s.insert compare key height = some s' ∧
      Levels S rank s' (fun l =>
        if l < height then insertAt rank s key s.nodes.length (ls l) else ls l) ∧
      s'.keyAt s.nodes.length = some key ∧ ∀ i ∈ ls 0, s'.keyAt i = s.keyAt i := by
  obtain ⟨s', hlink, hfollows, hkey, hlen⟩ := h.linked key hheight.2
  have hinsert := h.insert_eq hc hS hheight hfresh
  rw [hlink, Option.map_some] at hinsert
  have hnew : s'.keyAt s.nodes.length = some key := by rw [hkey, keyAt_allocate_self]
  have hold : ∀ i ∈ ls 0, s'.keyAt i = s.keyAt i := by
    intro i hi
    rw [hkey, keyAt_allocate ((h.mem i).mp hi).2.ne]
  have hbottom : (if 0 < height then insertAt rank s key s.nodes.length (ls 0) else ls 0) =
      insertAt rank s key s.nodes.length (ls 0) := if_pos (by omega)
  refine ⟨_, hinsert, ⟨hfollows, ?_, ?_, ?_, ?_, ?_, ?_⟩, hnew, hold⟩
  · intro i hi
    rw [hbottom, perm_insertAt.mem_iff, List.mem_cons] at hi
    rcases hi with rfl | hi
    · exact ⟨key, hnew, hS⟩
    · obtain ⟨k, hk, hSk⟩ := h.keys i hi
      exact ⟨k, (hold i hi).trans hk, hSk⟩
  · intro i
    have hpos := h.pos
    rw [hbottom, perm_insertAt.mem_iff, List.mem_cons, h.mem, hlen]
    omega
  · rw [hbottom]
    exact h.sorted_insertAt hnew hold hfresh
  · intro l
    by_cases hl : l + 1 < height
    · rw [if_pos hl, if_pos (by omega)]
      exact h.sublist_insertAt l
    · split_ifs
      · exact (h.sub l).trans sublist_insertAt_self
      · exact h.sub l
  · intro l hl
    dsimp only at hl ⊢
    split_ifs at hl with hgt
    · rw [if_neg (by omega)]
      exact h.empty l (by omega)
    · rw [if_neg (by omega)]
      exact h.empty l hl
  · have hmax := h.height
    dsimp only
    split_ifs <;> omega

/-! ### Reading -/

theorem level_eq (hl : l < heightLimit) : s.level l = some ((ls l).filterMap s.keyAt) := by
  unfold SkipList.level
  rw [(h.follows l hl).walk (h.length_lt l)]
  rfl

theorem sorted_keys (l : ℕ) :
    ((ls l).filterMap s.keyAt).Pairwise fun a b => rank a < rank b := by
  refine (h.sorted.sublist (h.sublist_zero l)).filterMap _ ?_
  intro i j hij a ha b hb
  exact hij a b ha hb

/-- The keys from where `seek` stops. -/
theorem filterMap_dropWhile (target : α) :
    ((ls 0).dropWhile (less rank s target)).filterMap s.keyAt =
      ((ls 0).filterMap s.keyAt).dropWhile fun k => decide (rank k < rank target) := by
  have hkeys := h.keys
  generalize ls 0 = ids at hkeys
  induction ids with
  | nil => rfl
  | cons i ids ih =>
    obtain ⟨k, hk, -⟩ := hkeys i (by simp)
    rw [List.filterMap_cons_some hk, List.dropWhile_cons, List.dropWhile_cons, less_of_keyAt hk]
    split_ifs
    · exact ih fun j hj => hkeys j (List.mem_cons_of_mem _ hj)
    · exact List.filterMap_cons_some hk

end Levels

theorem levels_new [Inhabited α] : Levels S rank (new : SkipList α) fun _ => [] where
  follows l hl := by
    have hnext : (new : SkipList α).nextAt 0 l = some none := by
      unfold new nextAt
      rw [List.getElem?_cons_zero, Option.bind_some, List.getElem?_replicate_of_lt hl]
    exact hnext
  keys := by simp
  mem i := by
    simp [new]
    omega
  sorted := List.Pairwise.nil
  sub l := List.Sublist.refl _
  empty _ _ := rfl
  height := ⟨Nat.zero_lt_one, Nat.le_of_ble_eq_true rfl⟩

end Levels

/-! ### The iterator -/

section Iterator

variable {α : Type} (s : SkipList α)

namespace Iterator

/-- The states of `SkipList::Iterator` are the nodes and the null pointer. -/
def seekToFirst : Option (Option ℕ) := s.nextAt 0 0

/-- `next`; an assertion excludes an invalid iterator. -/
def next : Option ℕ → Option (Option ℕ)
  | none => none
  | some i => s.nextAt i 0

def seek (compare : α → α → Option ℤ) (target : α) : Option (Option ℕ) :=
  (s.findGreaterOrEqual compare target).map Prod.fst

def key (node : Option ℕ) : Option α := node.bind s.keyAt

end Iterator

variable {κ : Type} [LinearOrder κ] {compare : α → α → Option ℤ} {S : α → Prop} {rank : α → κ}
  {s : SkipList α} {ls : ℕ → List ℕ} {node : Option ℕ} {rest : List ℕ}

/-- The iterator stands where `rest` of the lowest level is still to come. -/
def Stands (ls : ℕ → List ℕ) (node : Option ℕ) (rest : List ℕ) : Prop :=
  node = rest.head? ∧ rest <:+ ls 0

theorem Levels.stands_seekToFirst (h : Levels S rank s ls) :
    ∃ node, Iterator.seekToFirst s = some node ∧ Stands ls node (ls 0) :=
  ⟨_, (h.follows 0 (by decide)).head, rfl, List.suffix_refl _⟩

theorem Levels.stands_next (h : Levels S rank s ls) {i : ℕ} (hs : Stands ls node (i :: rest)) :
    ∃ node', Iterator.next s node = some node' ∧ Stands ls node' rest := by
  obtain ⟨rfl, pre, hpre⟩ := hs
  have hfollows := h.follows 0 (by decide)
  have hsplit : ls 0 = (pre ++ [i]) ++ rest := by rw [← hpre]; simp
  rw [hsplit] at hfollows
  have hhead := hfollows.append.head
  rw [List.getLastD_concat] at hhead
  exact ⟨_, hhead, rfl, pre ++ [i], hsplit.symm⟩

theorem Levels.stands_seek (h : Levels S rank s ls) (hc : Compares compare S rank) {target : α}
    (hS : S target) :
    ∃ node, Iterator.seek s compare target = some node ∧
      Stands ls node ((ls 0).dropWhile (less rank s target)) := by
  refine ⟨((ls 0).dropWhile (less rank s target)).head?, ?_, rfl, List.dropWhile_suffix _⟩
  unfold Iterator.seek
  rw [h.findGreaterOrEqual hc hS, Option.map_some, List.find?_not_eq_head?_dropWhile]

end Iterator

end SkipList

end Mizu.Lsm
