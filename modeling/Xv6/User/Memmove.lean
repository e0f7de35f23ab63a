import Xv6.Proc.Table

namespace Xv6

open Function

abbrev Bytes := Word → Byte

def copyUp (m : Bytes) (d s : Word) : Nat → Bytes
  | 0 => m
  | n + 1 => copyUp (update m d (m s)) (d + 1) (s + 1) n

def copyDown (m : Bytes) (d s : Word) : Nat → Bytes
  | 0 => m
  | n + 1 => copyDown (update m (d - 1) (m (s - 1))) (d - 1) (s - 1) n

/-- The kernel's, where `n` is a `uint`. -/
def memmove (m : Bytes) (dst src n : Word) : Bytes :=
  if src < dst ∧ src + n > dst then copyDown m (dst + n) (src + n) n.toNat
  else copyUp m dst src n.toNat

/-- The user library's, where `n` is an `int`. -/
def Ulib.memmove (m : Bytes) (dst src n : Word) : Bytes := copyUp m dst src n.toInt.toNat

structure Moved (m : Bytes) (dst src : Word) (n : Nat) (m' : Bytes) : Prop where
  copied : ∀ i < n, m' (dst + BitVec.ofNat 32 i) = m (src + BitVec.ofNat 32 i)
  other : ∀ a, (∀ i < n, a ≠ dst + BitVec.ofNat 32 i) → m' a = m a

variable {m : Bytes} {n : Nat}

theorem copyUp_of_le (h : n ≤ (a - d).toNat) : copyUp m d s n a = m a := by
  induction n generalizing m d s with
  | zero => rfl
  | succ n ih =>
    have hne : a ≠ d := by
      rintro rfl
      simp at h
    rw [copyUp, ih (by bv_omega), update_of_ne hne]

theorem copyUp_add (k n : Nat) : copyUp m d s (k + n) =
    copyUp (copyUp m d s k) (d + BitVec.ofNat 32 k) (s + BitVec.ofNat 32 k) n := by
  induction k generalizing m d s with
  | zero => simp [copyUp]
  | succ k ih =>
    rw [Nat.succ_add, copyUp, ih, copyUp]
    congr 1 <;> bv_omega

def moved (m : Bytes) (d s : Word) (n : Nat) : Bytes := fun a =>
  let i := a - d
  if i.toNat < n then m (s + i) else m a

theorem moved_spec (hn : n ≤ 2 ^ 32) : Moved m d s n (moved m d s n) := by
  refine ⟨fun i hi => ?_, fun a ha => if_neg fun hlt => ha _ hlt ?_⟩
  · have hoff : d + BitVec.ofNat 32 i - d = BitVec.ofNat 32 i := by bv_omega
    simp only [moved, hoff]
    exact if_pos (by bv_omega)
  · rw [BitVec.ofNat_toNat, BitVec.setWidth_eq]
    bv_omega

theorem moved_succ (h : ∀ i : Word, i ≠ 0 → i.toNat < n + 1 → s + i ≠ d) (hn : n + 1 ≤ 2 ^ 32) :
    moved (update m d (m s)) (d + 1) (s + 1) n = moved m d s (n + 1) := by
  funext a
  by_cases ha : a = d
  · simp only [moved, ha]
    rw [if_neg (by bv_omega), if_pos (by simp), update_self]
    simp
  · have hload : s + 1 + (a - (d + 1)) = s + (a - d) := by bv_omega
    have hlt : (a - (d + 1)).toNat < n ↔ (a - d).toNat < n + 1 := by bv_omega
    simp only [moved, hload, hlt, update_of_ne ha]
    split
    case isTrue hi => rw [update_of_ne (h _ (by bv_omega) hi)]
    case isFalse => rfl

theorem copyUp_eq (hn : n ≤ 2 ^ 32)
    (h : ∀ i j : Word, i < j → j.toNat < n → s + j ≠ d + i) : copyUp m d s n = moved m d s n := by
  induction n generalizing m d s with
  | zero => rfl
  | succ n ih =>
    have hnext (i j : Word) (hij : i < j) (hj : j.toNat < n) : s + 1 + j ≠ d + 1 + i := by
      have := h (i + 1) (j + 1) (by bv_omega) (by bv_omega)
      bv_omega
    rw [copyUp, ih (by omega) hnext, moved_succ (fun i hi hlt => ?_) hn]
    have := h 0 i (by bv_omega) hlt
    bv_omega

theorem moved_last (h : ∀ i : Word, i.toNat < n → s + i ≠ d + BitVec.ofNat 32 n) (hn : n + 1 ≤ 2 ^ 32) :
    moved (update m (d + BitVec.ofNat 32 n) (m (s + BitVec.ofNat 32 n))) d s n = moved m d s (n + 1) := by
  funext a
  by_cases ha : a = d + BitVec.ofNat 32 n
  · have hi : a - d = BitVec.ofNat 32 n := by bv_omega
    simp only [moved, hi]
    rw [if_neg (by bv_omega), if_pos (by bv_omega), ha, update_self]
  · have hlt : (a - d).toNat < n + 1 ↔ (a - d).toNat < n := by bv_omega
    simp only [moved, hlt, update_of_ne ha]
    split
    case isTrue hi => rw [update_of_ne (h _ hi)]
    case isFalse => rfl

theorem copyDown_eq (hn : n ≤ 2 ^ 32) (h : ∀ i j : Word, i < j → j.toNat < n → s + i ≠ d + j) :
    copyDown m (d + BitVec.ofNat 32 n) (s + BitVec.ofNat 32 n) n = moved m d s n := by
  induction n generalizing m with
  | zero => rfl
  | succ n ih =>
    have hd : d + BitVec.ofNat 32 (n + 1) - 1 = d + BitVec.ofNat 32 n := by bv_omega
    have hs : s + BitVec.ofNat 32 (n + 1) - 1 = s + BitVec.ofNat 32 n := by bv_omega
    rw [copyDown, hd, hs, ih (by omega) fun i j hij hj => h i j hij (by omega),
      moved_last (fun i hi => h i _ (by bv_omega) (by bv_omega)) hn]

section Calls

variable {dst src n : Word} (hsrc : src.toNat + n.toNat ≤ 2 ^ 32)

include hsrc

theorem not_moved (h : src < dst) (hover : dst.toNat < src.toNat + n.toNat) :
    ∃ m : Bytes, ¬ Moved m dst src n.toNat (copyUp m dst src n.toNat) := by
  obtain ⟨m, hm⟩ : ∃ m : Bytes, m = update (fun _ => 0) src 1 := ⟨_, rfl⟩
  refine ⟨m, fun hmoved => ?_⟩
  obtain ⟨k, hk⟩ : ∃ k, dst.toNat = src.toNat + (k + 1) := ⟨dst.toNat - src.toNat - 1, by bv_omega⟩
  obtain ⟨r, hr⟩ : ∃ r, n.toNat = k + 1 + (r + 1) := ⟨n.toNat - k - 2, by omega⟩
  have hback : src + BitVec.ofNat 32 (k + 1) = dst := by bv_omega
  have hwant := hmoved.copied (k + 1) (by omega)
  have hfirst : copyUp m dst src (k + 1) dst = 1 := by
    rw [copyUp, copyUp_of_le (by bv_omega), update_self, hm, update_self]
  rw [hback, hr, copyUp_add, hback, copyUp, copyUp_of_le (by bv_omega), update_self, hfirst, hm,
    update_of_ne (by bv_omega)] at hwant
  cases hwant

variable (hdst : dst.toNat + n.toNat ≤ 2 ^ 32)

include hdst

theorem copyUp_moved (h : dst ≤ src ∨ src.toNat + n.toNat ≤ dst.toNat) :
    Moved m dst src n.toNat (copyUp m dst src n.toNat) := by
  rw [copyUp_eq (by omega) fun i j hij hj => by bv_omega]
  exact moved_spec (by omega)

theorem memmove_moved : Moved m dst src n.toNat (memmove m dst src n) := by
  unfold memmove
  split
  case isTrue hover =>
    have hn : n = BitVec.ofNat 32 n.toNat := by simp
    have hdown : copyDown m (dst + n) (src + n) n.toNat = moved m dst src n.toNat := by
      rw [← copyDown_eq (by omega) fun i j hij hj => by bv_omega, ← hn]
    rw [hdown]
    exact moved_spec (by omega)
  case isFalse hapart => exact copyUp_moved hsrc hdst (by bv_omega)

end Calls

theorem memmove_iff_apart (dst src n : Word) (hn : 0 ≤ n.toInt) (hdst : dst.toNat + n.toNat ≤ 2 ^ 32)
    (hsrc : src.toNat + n.toNat ≤ 2 ^ 32) :
    (∀ m, Moved m dst src n.toNat (memmove m dst src n)) ∧
      ((∀ m, Moved m dst src n.toNat (Ulib.memmove m dst src n)) ↔
        dst ≤ src ∨ src.toNat + n.toNat ≤ dst.toNat) := by
  have hcount : n.toInt.toNat = n.toNat := by
    rw [BitVec.toInt_eq_toNat_cond] at hn ⊢
    split at hn <;> omega
  simp only [Ulib.memmove, hcount]
  refine ⟨fun m => memmove_moved hsrc hdst, fun h => ?_, fun h m => copyUp_moved hsrc hdst h⟩
  by_contra hover
  have hlt : src < dst := by bv_omega
  obtain ⟨m, hm⟩ := not_moved hsrc hlt (by bv_omega)
  exact hm (h m)

theorem memmove_iff_apart_down : (∀ m, Moved m 100 102 4 (memmove m 100 102 4)) ∧
    ∀ m, Moved m 100 102 4 (Ulib.memmove m 100 102 4) :=
  let h := memmove_iff_apart 100 102 4 (by decide) (by decide) (by decide)
  ⟨h.1, h.2.2 (.inl (by decide))⟩

theorem ulib_memmove_overlap : ∃ m : Bytes, m 100 = 1 ∧ m 101 = 2 ∧
    memmove m 101 100 2 101 = 1 ∧ memmove m 101 100 2 102 = 2 ∧
    Ulib.memmove m 101 100 2 101 = 1 ∧ Ulib.memmove m 101 100 2 102 = 1 :=
  ⟨fun a => if a = 100 then 1 else if a = 101 then 2 else 0, by decide⟩

end Xv6
