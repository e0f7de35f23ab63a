import Mathlib.Data.List.Basic

universe u v

namespace Xv6.Lib

variable {α : Type u} {β : Type v}

def slice (a : Nat → α) (lo hi : Nat) : List α := (List.range' lo (hi - lo)).map a

@[simp] theorem length_slice : (slice a lo hi).length = hi - lo := by
  simp [slice]

@[simp] theorem slice_self : slice a lo lo = [] := by
  simp [slice]

theorem slice_of_le (h : hi ≤ lo) : slice a lo hi = [] := by
  rw [slice, Nat.sub_eq_zero_of_le h]
  rfl

theorem slice_append (hlo : lo ≤ mid) (hhi : mid ≤ hi) :
    slice a lo mid ++ slice a mid hi = slice a lo hi := by
  have hmid : mid = lo + 1 * (mid - lo) := by omega
  rw [slice, slice, ← List.map_append]
  nth_rewrite 2 [hmid]
  rw [List.range'_append, slice]
  congr 2
  omega

theorem slice_succ (h : lo ≤ hi) : slice a lo (hi + 1) = slice a lo hi ++ [a hi] := by
  rw [← slice_append h (Nat.le_succ hi)]
  simp [slice]

theorem slice_cons (h : lo < hi) : slice a lo hi = a lo :: slice a (lo + 1) hi := by
  rw [← slice_append (Nat.le_succ lo) h]
  simp [slice]

theorem slice_congr (h : ∀ i, lo ≤ i → i < hi → b i = a i) : slice b lo hi = slice a lo hi := by
  refine List.map_congr_left fun i hi' => ?_
  obtain ⟨hlo, hlt⟩ := List.mem_range'_1.mp hi'
  exact h i hlo (by omega)

theorem slice_shift (h : ∀ i, lo ≤ i → i < hi → b (i + 1) = a i) :
    slice b (lo + 1) (hi + 1) = slice a lo hi := by
  have hmoved : slice b (lo + 1) (hi + 1) = slice (fun i => b (i + 1)) lo hi := by
    rw [slice, slice, Nat.add_sub_add_right, Nat.add_comm lo 1, ← List.map_add_range', List.map_map]
    exact List.map_congr_left fun i _ => congrArg b (Nat.add_comm 1 i)
  rw [hmoved]
  exact slice_congr h

structure Opens (a b : Nat → α) (cur hi : Nat) (c : α) : Prop where
  left : ∀ i, i < cur → b i = a i
  new : b cur = c
  right : ∀ i, cur ≤ i → i < hi → b (i + 1) = a i

namespace Opens

theorem slice_before (h : Opens a b cur hi c) (hm : m ≤ cur) : slice b lo m = slice a lo m :=
  slice_congr fun i _ hi => h.left i (Nat.lt_of_lt_of_le hi hm)

theorem slice_behind (h : Opens a b cur hi c) (hlo : cur ≤ lo) (hm : m ≤ hi) :
    slice b (lo + 1) (m + 1) = slice a lo m :=
  slice_shift fun i hi hlt => h.right i (Nat.le_trans hlo hi) (Nat.lt_of_lt_of_le hlt hm)

theorem slice_across (h : Opens a b cur hi c) (hlo : lo ≤ cur) (hcur : cur ≤ m) (hm : m ≤ hi) :
    slice b lo (m + 1) = slice a lo cur ++ c :: slice a cur m := by
  rw [← slice_append hlo (Nat.le_succ_of_le hcur), h.slice_before (Nat.le_refl _),
    slice_cons (Nat.lt_succ_of_le hcur), h.new, h.slice_behind (Nat.le_refl _) hm]

end Opens

@[ext] structure Zipper (α : Type u) where
  left : List α
  right : List α

namespace Zipper

variable {z : Zipper α} {c : α}

def empty : Zipper α := ⟨[], []⟩

def insert (z : Zipper α) (c : α) : Zipper α := ⟨z.left ++ [c], z.right⟩

def delete (z : Zipper α) : Zipper α := ⟨z.left.dropLast, z.right⟩

def moveLeft (z : Zipper α) : Zipper α := ⟨z.left.dropLast, z.left.getLast?.toList ++ z.right⟩

def moveRight (z : Zipper α) : Zipper α := ⟨z.left ++ z.right.head?.toList, z.right.tail⟩

def map (f : α → β) (z : Zipper α) : Zipper β := ⟨z.left.map f, z.right.map f⟩

theorem map_insert (f : α → β) : (z.insert c).map f = (z.map f).insert (f c) := by
  simp [map, insert]

theorem map_delete (f : α → β) : z.delete.map f = (z.map f).delete := by
  simp [map, delete, List.map_dropLast]

theorem map_moveLeft (f : α → β) : z.moveLeft.map f = (z.map f).moveLeft := by
  rcases List.eq_nil_or_concat z.left with h | ⟨l, c, h⟩
  · simp [map, moveLeft, h]
  · simp [map, moveLeft, h]

theorem map_moveRight (f : α → β) : z.moveRight.map f = (z.map f).moveRight := by
  cases h : z.right <;> simp [map, moveRight, h]

theorem moveLeft_all : z.moveLeft.left ++ z.moveLeft.right = z.left ++ z.right := by
  rcases List.eq_nil_or_concat z.left with h | ⟨l, c, h⟩
  · simp [moveLeft, h]
  · simp [moveLeft, h]

theorem moveRight_all : z.moveRight.left ++ z.moveRight.right = z.left ++ z.right := by
  cases h : z.right <;> simp [moveRight, h]

structure In (a : Nat → α) (lo cur hi : Nat) (z : Zipper α) : Prop where
  lo_le : lo ≤ cur
  le_hi : cur ≤ hi
  left : slice a lo cur = z.left
  right : slice a cur hi = z.right

namespace In

theorem empty : In a lo lo lo (Zipper.empty : Zipper α) :=
  ⟨Nat.le_refl _, Nat.le_refl _, slice_self, slice_self⟩

theorem all (h : In a lo cur hi z) : slice a lo hi = z.left ++ z.right := by
  rw [← slice_append h.lo_le h.le_hi, h.left, h.right]

theorem insert (h : In a lo cur hi z) (hleft : ∀ i, i < cur → b i = a i) (hc : b cur = c)
    (hright : ∀ i, cur ≤ i → i < hi → b (i + 1) = a i) :
    In b lo (cur + 1) (hi + 1) (z.insert c) where
  lo_le := Nat.le_succ_of_le h.lo_le
  le_hi := Nat.succ_le_succ h.le_hi
  left := by rw [slice_succ h.lo_le, slice_congr fun i _ => hleft i, h.left, hc]; rfl
  right := by rw [slice_shift hright, h.right]; rfl

theorem delete (h : In a lo (cur + 1) (hi + 1) z) (hlo : lo ≤ cur)
    (hleft : ∀ i, i < cur → b i = a i) (hright : ∀ i, cur ≤ i → i < hi → b i = a (i + 1)) :
    In b lo cur hi z.delete where
  lo_le := hlo
  le_hi := Nat.le_of_succ_le_succ h.le_hi
  left := by
    rw [Zipper.delete, ← h.left, slice_succ hlo, List.dropLast_concat]
    exact slice_congr fun i _ => hleft i
  right := by
    rw [Zipper.delete, ← h.right]
    exact (slice_shift fun i hlo hlt => (hright i hlo hlt).symm).symm

theorem delete_start (h : In a lo lo hi z) : z.delete = z := by
  ext1
  · rw [Zipper.delete, ← h.left, slice_self, List.dropLast_nil]
  · rfl

theorem moveLeft (h : In a lo (cur + 1) hi z) (hlo : lo ≤ cur) : In a lo cur hi z.moveLeft where
  lo_le := hlo
  le_hi := Nat.le_of_succ_le h.le_hi
  left := by rw [Zipper.moveLeft, ← h.left, slice_succ hlo, List.dropLast_concat]
  right := by
    rw [Zipper.moveLeft, ← h.left, ← h.right, slice_succ hlo, List.getLast?_concat,
      slice_cons h.le_hi]
    rfl

theorem moveLeft_start (h : In a lo lo hi z) : z.moveLeft = z := by
  ext1
  · rw [Zipper.moveLeft, ← h.left, slice_self, List.dropLast_nil]
  · rw [Zipper.moveLeft, ← h.left, slice_self]
    rfl

theorem moveRight (h : In a lo cur hi z) (hhi : cur < hi) : In a lo (cur + 1) hi z.moveRight where
  lo_le := Nat.le_succ_of_le h.lo_le
  le_hi := hhi
  left := by
    rw [Zipper.moveRight, ← h.left, ← h.right, slice_succ h.lo_le, slice_cons hhi]
    rfl
  right := by
    rw [Zipper.moveRight, ← h.right, slice_cons hhi]
    rfl

theorem moveRight_end (h : In a lo hi hi z) : z.moveRight = z := by
  ext1
  · rw [Zipper.moveRight, ← h.right, slice_self, List.head?_nil]
    exact List.append_nil _
  · rw [Zipper.moveRight, ← h.right, slice_self, List.tail_nil]

end In

end Zipper

end Xv6.Lib
