import Mathlib.Data.List.TakeWhile
import Mathlib.Data.UInt

/-! Path names.  A C string is the list of its bytes up to the terminating zero, which the
list does not hold: reading past the end of the list reads that zero. -/

namespace Xv6.Fs

abbrev Str := List UInt8

def slash : UInt8 := 47
def dirsiz : Nat := 14

/-- The sign of the result is all that callers use; zero means equal. -/
def strncmp : Nat → Str → Str → Int
  | 0, _, _ => 0
  | n + 1, p, q =>
    if p.headD 0 ≠ 0 ∧ p.headD 0 = q.headD 0 then strncmp n p.tail q.tail
    else (p.headD 0).toNat - (q.headD 0).toNat

def namecmp (s t : Str) : Int := strncmp dirsiz s t

def safestrcpy (t : Str) (n : Nat) : Str := t.take (n - 1)

def strncpy (t : Str) (n : Nat) : Str := t.take n

/-- The next path element, cut to `DIRSIZ` bytes, and what follows it, without leading
slashes; `none` when the path has no element left. -/
def skipelem (path : Str) : Option (Str × Str) :=
  let s := path.dropWhile (· == slash)
  if s = [] then none
  else some ((s.takeWhile (· != slash)).take dirsiz, (s.dropWhile (· != slash)).dropWhile (· == slash))

def elemsLoop : Nat → Str → List Str
  | 0, _ => []
  | n + 1, path =>
    match skipelem path with
    | none => []
    | some (name, rest) => name :: elemsLoop n rest

def elems (path : Str) : List Str := elemsLoop path.length path

def nameKey (s : Str) : Str := (s.takeWhile (· != 0)).take dirsiz

theorem strncmp_eq_zero_iff :
    strncmp n p q = 0 ↔ (p.takeWhile (· != 0)).take n = (q.takeWhile (· != 0)).take n := by
  have hbyte : ∀ a b : UInt8, (a.toNat : Int) - b.toNat = 0 ↔ a = b := by
    intro a b
    rw [sub_eq_zero, Nat.cast_inj, UInt8.toNat_inj]
  induction n generalizing p q with
  | zero => simp [strncmp]
  | succ n ih =>
    rw [strncmp]
    split
    case isTrue h =>
      obtain ⟨hp, hpq⟩ := h
      cases p with
      | nil => exact absurd rfl hp
      | cons a p =>
        cases q with
        | nil => exact absurd hpq hp
        | cons b q =>
          simp only [List.headD_cons] at hp hpq
          subst hpq
          refine ih.trans ?_
          simp [hp]
    case isFalse h =>
      rw [hbyte]
      cases p with
      | nil =>
        cases q with
        | nil => simp
        | cons b q =>
          by_cases hb : b = 0
          · simp [hb]
          · simp [hb, Ne.symm hb]
      | cons a p =>
        by_cases ha : a = 0
        · cases q with
          | nil => simp [ha]
          | cons b q =>
            by_cases hb : b = 0
            · simp [ha, hb]
            · simp [ha, hb, Ne.symm hb]
        · simp only [List.headD_cons, ne_eq, ha, not_false_eq_true, true_and] at h
          cases q with
          | nil => simp [ha]
          | cons b q =>
            simp only [List.headD_cons] at h ⊢
            by_cases hb : b = 0 <;> simp [ha, hb, h]

theorem namecmp_eq_zero_iff : namecmp s t = 0 ↔ nameKey s = nameKey t :=
  strncmp_eq_zero_iff

theorem nameKey_strncpy (s : Str) : nameKey (strncpy s dirsiz) = nameKey s := by
  have htake : ∀ (n : Nat) (l : Str), ((l.take n).takeWhile (· != 0)).take n =
      (l.takeWhile (· != 0)).take n := by
    intro n
    induction n with
    | zero => simp
    | succ n ih =>
      intro l
      cases l with
      | nil => rfl
      | cons a l => by_cases ha : a = 0 <;> simp [ha, ih]
  exact htake dirsiz s

theorem head_dropWhile_slash {l s : Str} {a : UInt8} (h : l.dropWhile (· == slash) = a :: s) :
    (a == slash) = false := by
  have hhead := List.head?_dropWhile_not (· == slash) l
  rw [h] at hhead
  simpa using hhead

theorem length_of_skipelem (h : skipelem path = some (name, rest)) :
    rest.length < path.length := by
  simp only [skipelem] at h
  split at h
  case isTrue => cases h
  case isFalse hne =>
    cases h
    obtain ⟨a, s, hdrop⟩ := List.exists_cons_of_ne_nil hne
    have ha : (a == slash) = false := head_dropWhile_slash hdrop
    have hrest : ((a :: s).dropWhile (· != slash)) = s.dropWhile (· != slash) := by
      simp [bne, ha]
    rw [hdrop, hrest]
    calc
      _ ≤ (s.dropWhile (· != slash)).length := List.length_dropWhile_le _ _
      _ ≤ s.length := List.length_dropWhile_le _ _
      _ < (a :: s).length := Nat.lt_succ_self _
      _ = (path.dropWhile (· == slash)).length := by rw [hdrop]
      _ ≤ path.length := List.length_dropWhile_le _ _

theorem elemsLoop_of_le (hm : path.length ≤ m) (hn : path.length ≤ n) :
    elemsLoop m path = elemsLoop n path := by
  induction m generalizing n path with
  | zero =>
    have hpath : path = [] := List.length_eq_zero_iff.mp (Nat.le_zero.mp hm)
    subst hpath
    cases n <;> rfl
  | succ m ih =>
    cases n with
    | zero =>
      have hpath : path = [] := List.length_eq_zero_iff.mp (Nat.le_zero.mp hn)
      subst hpath
      rfl
    | succ n =>
      simp only [elemsLoop]
      cases hskip : skipelem path with
      | none => rfl
      | some p =>
        obtain ⟨name, rest⟩ := p
        have hlt := length_of_skipelem hskip
        exact congrArg _ (ih (by omega) (by omega))

theorem elems_eq (path : Str) :
    elems path = match skipelem path with
      | none => []
      | some (name, rest) => name :: elems rest := by
  cases path with
  | nil => rfl
  | cons a path =>
    rw [elems, List.length_cons, elemsLoop]
    cases hskip : skipelem (a :: path) with
    | none => rfl
    | some p =>
      obtain ⟨name, rest⟩ := p
      have hle : rest.length ≤ path.length := Nat.lt_succ_iff.mp (length_of_skipelem hskip)
      exact congrArg _ (elemsLoop_of_le hle le_rfl)

theorem elems_rest_eq_nil_iff (h : skipelem path = some (name, rest)) :
    elems rest = [] ↔ rest = [] := by
  constructor
  · intro hnil
    cases rest with
    | nil => rfl
    | cons a rest =>
      have ha : (a == slash) = false := by
        simp only [skipelem] at h
        split at h
        case isTrue => cases h
        case isFalse =>
          simp only [Option.some.injEq, Prod.mk.injEq] at h
          exact head_dropWhile_slash h.2
      rw [elems_eq] at hnil
      simp [skipelem, List.dropWhile_cons, ha] at hnil
  · rintro rfl
    rfl

end Xv6.Fs
