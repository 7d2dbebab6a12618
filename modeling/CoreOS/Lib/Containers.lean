import CoreOS.Lib.Machine

/-!
# Ordered containers

The keys of an ordered map and the contents of a min-heap, as lists that carry their order, so
that an unordered map or heap cannot be built.

* `SortedKeys α`: the key sequence of an ordered map, in strictly ascending order; `insert` leaves
  a key that is already there alone, `erase` removes one.
* `MinHeap α`: the contents of a heap with the least element on top, in ascending order (an
  element may occur more than once); `push`, `top?` and `pop`.
* `Ahead pre a l`: in the queue `l`, exactly `pre` waits in front of `a`; what pushing at the back,
  erasing another element and taking the front do to it.
-/

namespace CoreOS.Lib

variable {α : Type*} [LinearOrder α]

/-! ## The keys of an ordered map -/

/-- The keys of an ordered map, in the order an iterator meets them. -/
structure SortedKeys (α : Type*) [LinearOrder α] where
  /-- The keys in ascending order. -/
  toList : List α
  /-- A key occurs once, before every greater one. -/
  sorted : toList.Pairwise (· < ·)

namespace SortedKeys

@[ext] theorem ext {m m' : SortedKeys α} (h : m.toList = m'.toList) : m = m' := by
  cases m; cases m'; simp_all

instance : Membership α (SortedKeys α) := ⟨fun m k => k ∈ m.toList⟩

theorem mem_def {m : SortedKeys α} {k : α} : k ∈ m ↔ k ∈ m.toList := Iff.rfl

instance (m : SortedKeys α) (k : α) : Decidable (k ∈ m) :=
  inferInstanceAs (Decidable (k ∈ m.toList))

/-- The map without keys. -/
def empty : SortedKeys α := ⟨[], List.Pairwise.nil⟩

@[simp] theorem not_mem_empty (k : α) : k ∉ (empty : SortedKeys α) := List.not_mem_nil

/-- Inserts a key into an ascending list, unless it is there. -/
def insertList (k : α) : List α → List α
  | [] => [k]
  | x :: xs => if k < x then k :: x :: xs else if k = x then x :: xs else x :: insertList k xs

theorem mem_insertList {k x : α} : ∀ {l : List α}, x ∈ insertList k l ↔ x = k ∨ x ∈ l
  | [] => by simp [insertList]
  | y :: ys => by
      unfold insertList
      split_ifs with h1 h2
      · simp
      · subst h2; simp
      · simp only [List.mem_cons, mem_insertList (l := ys)]
        tauto

theorem pairwise_insertList {k : α} : ∀ {l : List α}, l.Pairwise (· < ·) →
    (insertList k l).Pairwise (· < ·)
  | [], _ => List.pairwise_singleton _ _
  | y :: ys, h => by
      obtain ⟨hy, hys⟩ := List.pairwise_cons.mp h
      unfold insertList
      split_ifs with h1 h2
      · refine List.pairwise_cons.mpr ⟨?_, h⟩
        intro x hx
        rcases List.mem_cons.mp hx with rfl | hx
        · exact h1
        · exact h1.trans (hy x hx)
      · exact h
      · refine List.pairwise_cons.mpr ⟨?_, pairwise_insertList hys⟩
        intro x hx
        rcases mem_insertList.mp hx with rfl | hx
        · exact lt_of_le_of_ne (not_lt.mp h1) (Ne.symm h2)
        · exact hy x hx

/-- Inserts a key; a key that is already there stays as it is. -/
def insert (k : α) (m : SortedKeys α) : SortedKeys α :=
  ⟨insertList k m.toList, pairwise_insertList m.sorted⟩

@[simp] theorem mem_insert {k x : α} {m : SortedKeys α} : x ∈ m.insert k ↔ x = k ∨ x ∈ m :=
  mem_insertList

/-- Removes a key, if it is there. -/
def erase (m : SortedKeys α) (k : α) : SortedKeys α :=
  ⟨m.toList.erase k, m.sorted.sublist List.erase_sublist⟩

theorem nodup (m : SortedKeys α) : m.toList.Nodup := m.sorted.imp fun h => ne_of_lt h

@[simp] theorem mem_erase {k x : α} {m : SortedKeys α} : x ∈ m.erase k ↔ x ≠ k ∧ x ∈ m :=
  m.nodup.mem_erase_iff

theorem erase_of_not_mem {k : α} {m : SortedKeys α} (h : k ∉ m) : m.erase k = m :=
  ext (List.erase_of_not_mem h)

/-- Keeps the keys that satisfy `p`. -/
def filter (p : α → Bool) (m : SortedKeys α) : SortedKeys α :=
  ⟨m.toList.filter p, m.sorted.sublist List.filter_sublist⟩

@[simp] theorem mem_filter {p : α → Bool} {x : α} {m : SortedKeys α} :
    x ∈ m.filter p ↔ x ∈ m ∧ p x = true := List.mem_filter

/-- A map's key sequence is determined by which keys it has. -/
theorem eq_of_mem_iff {m m' : SortedKeys α} (h : ∀ k, k ∈ m ↔ k ∈ m') : m = m' := by
  have hperm : m.toList.Perm m'.toList :=
    (List.perm_ext_iff_of_nodup m.nodup m'.nodup).mpr h
  exact ext (hperm.eq_of_pairwise (fun a b _ _ hab hba => absurd hab hba.asymm) m.sorted m'.sorted)

end SortedKeys

/-! ## Min-heaps -/

/-- The contents of a heap whose top is its least element, in ascending order. -/
structure MinHeap (α : Type*) [LinearOrder α] where
  /-- The elements in the order successive pops return them. -/
  toList : List α
  /-- The elements ascend. -/
  sorted : toList.Pairwise (· ≤ ·)

namespace MinHeap

instance : Membership α (MinHeap α) := ⟨fun h x => x ∈ h.toList⟩

theorem mem_def {h : MinHeap α} {x : α} : x ∈ h ↔ x ∈ h.toList := Iff.rfl

/-- The heap without elements. -/
def empty : MinHeap α := ⟨[], List.Pairwise.nil⟩

@[simp] theorem not_mem_empty (x : α) : x ∉ (empty : MinHeap α) := List.not_mem_nil

/-- Inserts an element into an ascending list. -/
def pushList (x : α) : List α → List α
  | [] => [x]
  | y :: ys => if x ≤ y then x :: y :: ys else y :: pushList x ys

theorem perm_pushList (x : α) : ∀ l : List α, (pushList x l).Perm (x :: l)
  | [] => List.Perm.refl _
  | y :: ys => by
      unfold pushList
      split_ifs
      · exact List.Perm.refl _
      · exact ((perm_pushList x ys).cons y).trans (List.Perm.swap x y ys)

theorem pairwise_pushList {x : α} : ∀ {l : List α}, l.Pairwise (· ≤ ·) →
    (pushList x l).Pairwise (· ≤ ·)
  | [], _ => List.pairwise_singleton _ _
  | y :: ys, h => by
      obtain ⟨hy, hys⟩ := List.pairwise_cons.mp h
      unfold pushList
      split_ifs with hxy
      · refine List.pairwise_cons.mpr ⟨?_, h⟩
        intro z hz
        rcases List.mem_cons.mp hz with rfl | hz
        · exact hxy
        · exact hxy.trans (hy z hz)
      · refine List.pairwise_cons.mpr ⟨?_, pairwise_pushList hys⟩
        intro z hz
        rcases List.mem_cons.mp ((perm_pushList x ys).mem_iff.mp hz) with rfl | hz
        · exact (not_le.mp hxy).le
        · exact hy z hz

/-- Adds an element. -/
def push (x : α) (h : MinHeap α) : MinHeap α := ⟨pushList x h.toList, pairwise_pushList h.sorted⟩

@[simp] theorem mem_push {x y : α} {h : MinHeap α} : y ∈ h.push x ↔ y = x ∨ y ∈ h := by
  simp only [mem_def, push, (perm_pushList x h.toList).mem_iff, List.mem_cons]

theorem nodup_push {x : α} {h : MinHeap α} :
    (h.push x).toList.Nodup ↔ x ∉ h ∧ h.toList.Nodup := by
  simp only [push, (perm_pushList x h.toList).nodup_iff, List.nodup_cons, mem_def]

/-- The least element, if there is one. -/
def top? (h : MinHeap α) : Option α := h.toList.head?

/-- Removes the top. -/
def pop (h : MinHeap α) : MinHeap α := ⟨h.toList.tail, h.sorted.tail⟩

/-- A heap with a top is that top over the popped heap. -/
theorem toList_of_top? {h : MinHeap α} {x : α} (hx : h.top? = some x) :
    h.toList = x :: h.pop.toList := by
  obtain ⟨ys, hys⟩ := List.head?_eq_some_iff.mp hx
  simp [pop, hys]

/-- The top is no greater than any element. -/
theorem top_le {h : MinHeap α} {x y : α} (hx : h.top? = some x) (hy : y ∈ h) : x ≤ y := by
  have hl := toList_of_top? hx
  rw [mem_def, hl] at hy
  have hs := h.sorted
  rw [hl] at hs
  rcases List.mem_cons.mp hy with rfl | hy
  · exact le_rfl
  · exact (List.pairwise_cons.mp hs).1 y hy

end MinHeap

/-! ## Waiting in a queue -/

section queue

variable {β : Type*} {pre l l' : List β} {a x : β}

/-- In the queue `l` (front first) exactly `pre` waits in front of `a`. -/
def Ahead (pre : List β) (a : β) (l : List β) : Prop := ∃ post, l = pre ++ a :: post

theorem Ahead.mem (h : Ahead pre a l) : a ∈ l := by
  obtain ⟨post, rfl⟩ := h
  exact List.mem_append_right _ List.mem_cons_self

/-- Arrivals queue up behind. -/
theorem Ahead.append (h : Ahead pre a l) (back : List β) : Ahead pre a (l ++ back) := by
  obtain ⟨post, rfl⟩ := h
  exact ⟨post ++ back, by simp⟩

/-- Removing another element lets nobody overtake. -/
theorem Ahead.erase [DecidableEq β] (h : Ahead pre a l) (hx : x ≠ a) :
    ∃ pre', pre'.Sublist pre ∧ Ahead pre' a (l.erase x) := by
  obtain ⟨post, rfl⟩ := h
  rw [List.erase_append]
  split_ifs
  · exact ⟨pre.erase x, List.erase_sublist, post, rfl⟩
  · refine ⟨pre, List.Sublist.refl _, post.erase x, ?_⟩
    rw [List.erase_cons_tail (by simpa using hx.symm)]

/-- Taking the front of the queue takes `a` or one of those in front of it. -/
theorem Ahead.front (h : Ahead pre a l) (hl : x :: l' = l) :
    (pre = [] ∧ x = a) ∨ ∃ pre', pre = x :: pre' ∧ Ahead pre' a l' := by
  obtain ⟨post, rfl⟩ := h
  cases pre with
  | nil =>
      obtain ⟨rfl, -⟩ := List.cons.inj hl
      exact .inl ⟨rfl, rfl⟩
  | cons y pre' =>
      obtain ⟨rfl, rfl⟩ := List.cons.inj hl
      exact .inr ⟨pre', rfl, post, rfl⟩

end queue

end CoreOS.Lib
