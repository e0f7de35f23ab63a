import Xv6.Lock.Reentrant

/-! `reentrantlock_test`, which calls itself with `count + 1` until `count` is 5 and takes the
reentrant lock once on every level.  `frames` is the number of nested calls the kernel stack
has room for. -/

namespace Xv6.Reentrantlock

open Lib Lib.Conf Function

variable {P : Type} [DecidableEq P] {p : P} {r r' : Reentrantlock P} {t : Thread} {n : Nat} {count : Word}

/-- A whole call, by a process that no other disturbs.  Taken by another process the spin lock
is waited for, taken by the caller it panics. -/
def acquirereentrantlock (p : P) (r : Reentrantlock P) : Option (Reentrantlock P) :=
  if r.owner = some p then some { r with recursion := r.recursion + 1 }
  else
    match r.lock with
    | none => some { lock := some p, owner := some p, recursion := 1 }
    | some _ => none

def releasereentrantlock (p : P) (r : Reentrantlock P) : Option (Reentrantlock P) :=
  if r.owner ≠ some p then none
  else if r.recursion - 1 = 0 then
    if r.lock = some p then some { lock := none, owner := none, recursion := 0 } else none
  else some { r with recursion := r.recursion - 1 }

def reentrantlockTest (p : P) : Nat → Word → Reentrantlock P → Option (Option Word × Reentrantlock P)
  | 0, _, _ => none
  | frames + 1, count, r =>
    if count = 5 then some (none, r)
    else do
      let r ← acquirereentrantlock p r
      let (_, r) ← reentrantlockTest p frames (count + 1) r
      let r ← releasereentrantlock p r
      some (some 0, r)

theorem acquirereentrantlock_reaches (h : acquirereentrantlock p r = some r') (hout : t.pc = .out) :
    Reaches (Solo go p) (r, t) (r', { t with returned := t.returned + 1 }) := by
  obtain ⟨pc, returned, entered⟩ := t
  obtain rfl : pc = .out := hout
  refine Solo.head (a := .acquire) rfl ?_
  unfold acquirereentrantlock at h
  split at h
  case isTrue howner =>
    cases h
    have htest : go p .go r ⟨.acqTest, returned, entered⟩ = some (r, ⟨.acqInc, returned, entered⟩) := by
      simp [go, next, howner]
    exact Solo.head htest (Solo.last (a := .go) rfl)
  case isFalse howner =>
    split at h
    case h_1 hlock =>
      cases h
      have htest : go p .go r ⟨.acqTest, returned, entered⟩ = some (r, ⟨.acqLock, returned, entered⟩) := by
        simp [go, next, howner]
      have htake : go p .go r ⟨.acqLock, returned, entered⟩ =
          some ({ r with lock := some p }, ⟨.acqOwner, returned, entered⟩) := by
        simp [go, next, hlock]
      exact Solo.head htest (Solo.head htake (Solo.head (a := .go) rfl (Solo.last (a := .go) rfl)))
    case h_2 => cases h

theorem releasereentrantlock_reaches (h : releasereentrantlock p r = some r') (hout : t.pc = .out)
    (hin : t.Inside) : Reaches (Solo go p) (r, t) (r', { t with entered := t.entered + 1 }) := by
  obtain ⟨pc, returned, entered⟩ := t
  obtain rfl : pc = .out := hout
  have hcall : go p .release r ⟨.out, returned, entered⟩ = some (r, ⟨.relTest, returned, entered + 1⟩) :=
    if_pos ⟨rfl, hin⟩
  refine Solo.head hcall ?_
  unfold releasereentrantlock at h
  split at h
  case isTrue => cases h
  case isFalse howner =>
    have htest : go p .go r ⟨.relTest, returned, entered + 1⟩ = some (r, ⟨.relDec, returned, entered + 1⟩) := by
      simp [go, next, not_not.mp howner]
    refine Solo.head htest (Solo.head (a := .go) rfl ?_)
    split at h
    case isTrue hzero =>
      split at h
      case isTrue hlock =>
        cases h
        rw [hzero]
        have hunlock : go p .go { r with recursion := 0 } ⟨.relUnlock, returned, entered + 1⟩ =
            some (⟨none, r.owner, 0⟩, ⟨.relClear, returned, entered + 1⟩) := by
          simp [go, next, hlock]
        exact Solo.head (a := .go) rfl (Solo.head hunlock (Solo.last (a := .go) rfl))
      case isFalse => cases h
    case isFalse hne =>
      cases h
      refine Solo.last (a := .go) ?_
      simp [go, next, hne]

theorem reentrantlockTest_solo (h : reentrantlockTest p frames count r = some (v, r')) (hout : t.pc = .out)
    (hle : t.entered ≤ t.returned) : ∃ n, Reaches (Solo go p) (r, t)
      (r', { t with returned := t.returned + n, entered := t.entered + n }) := by
  induction frames generalizing count r v r' t with
  | zero => cases h
  | succ frames ih =>
    unfold reentrantlockTest at h
    split at h
    case isTrue =>
      cases h
      exact ⟨0, .refl _⟩
    case isFalse =>
      obtain ⟨r₁, hacq, h⟩ := Option.bind_eq_some_iff.mp h
      obtain ⟨⟨w, r₂⟩, htest, h⟩ := Option.bind_eq_some_iff.mp h
      obtain ⟨r₃, hrel, h⟩ := Option.bind_eq_some_iff.mp h
      cases h
      have htake := acquirereentrantlock_reaches hacq hout
      obtain ⟨n, hrest⟩ := ih (t := { t with returned := t.returned + 1 }) htest hout (by simp only; omega)
      have hgive := releasereentrantlock_reaches (t := { t with
        returned := t.returned + 1 + n, entered := t.entered + n }) hrel hout (by simp only [Thread.Inside]; omega)
      refine ⟨n + 1, (htake.trans hrest).trans ?_⟩
      simpa only [Nat.add_assoc, Nat.add_comm 1 n] using hgive

/-- The calls as functions are runs of the statements of one process, while the others stand still. -/
theorem reentrantlockTest_reaches (s : Conf P (Reentrantlock P) Thread) (hout : (s.loc p).pc = .out)
    (hle : (s.loc p).entered ≤ (s.loc p).returned) (h : reentrantlockTest p frames count s.shared = some (v, r')) :
    ∃ n, Reaches (Conf.Step go) s ⟨r', update s.loc p { s.loc p with
      returned := (s.loc p).returned + n, entered := (s.loc p).entered + n }⟩ := by
  obtain ⟨n, hsolo⟩ := reentrantlockTest_solo h hout hle
  exact ⟨n, Conf.reaches_of_solo s hsolo⟩

inductive Alone (p : P) : Reentrantlock P → Prop
  | free : Alone p ⟨none, none, 0⟩
  | held (n : Nat) : Alone p ⟨some p, some p, n + 1⟩

theorem Alone.acquire (h : Alone p r) :
    ∃ r', acquirereentrantlock p r = some r' ∧ Alone p r' ∧ releasereentrantlock p r' = some r := by
  cases h with
  | free => exact ⟨⟨some p, some p, (0 : Nat) + 1⟩, by simp [acquirereentrantlock], .held 0, by simp [releasereentrantlock]⟩
  | held n =>
    refine ⟨⟨some p, some p, (n + 1 : Nat) + 1⟩, by simp [acquirereentrantlock], .held (n + 1), ?_⟩
    have hne : ((n + 1 : Nat) : Int) + 1 - 1 ≠ 0 := by omega
    simp only [releasereentrantlock, ne_eq, not_true, if_false, hne]
    rw [Int.add_sub_cancel]
    rfl

def levels (count : Word) : Nat := (5 - count).toNat

theorem levels_succ (h : count ≠ 5) : levels count = levels (count + 1) + 1 := by
  have hlt := count.isLt
  have hne : count.toNat ≠ 5 := fun heq => h (BitVec.eq_of_toNat_eq heq)
  simp only [levels, BitVec.toNat_sub, BitVec.toNat_add, show (5 : Word).toNat = 5 from rfl,
    show (1 : Word).toNat = 1 from rfl]
  omega

theorem reentrantlockTest_eq (h : Alone p r) (frames : Nat) :
    reentrantlockTest p frames count r =
      if levels count < frames then some (if count = 5 then none else some 0, r) else none := by
  induction frames generalizing count r with
  | zero => rfl
  | succ frames ih =>
    unfold reentrantlockTest
    by_cases hcount : count = 5
    · rw [if_pos hcount, if_pos hcount, if_pos]
      rw [hcount]
      exact Nat.succ_pos frames
    · obtain ⟨r', hacq, halone, hrel⟩ := h.acquire
      rw [if_neg hcount, if_neg hcount, levels_succ hcount, hacq]
      simp only [Option.bind_eq_bind, Option.bind_some, ih halone]
      by_cases hroom : levels (count + 1) < frames
      · rw [if_pos hroom, if_pos (Nat.succ_lt_succ hroom), Option.bind_some, hrel, Option.bind_some]
      · rw [if_neg hroom, if_neg fun hlt => hroom (Nat.lt_of_succ_lt_succ hlt), Option.bind_none]

theorem reentrantlockTest_returns_iff (p : P) (count : Word) {r : Reentrantlock P} (h : Alone p r) :
    (∃ v, reentrantlockTest p 6 count r = some (v, r)) ↔ 0 ≤ count.toInt ∧ count.toInt ≤ 5 := by
  have hlevels : levels count < 6 ↔ 0 ≤ count.toInt ∧ count.toInt ≤ 5 := by
    have hlt := count.isLt
    rw [levels, BitVec.toNat_sub, BitVec.toInt_eq_toNat_cond, show (5 : Word).toNat = 5 from rfl]
    split <;> omega
  rw [reentrantlockTest_eq h, ← hlevels]
  constructor
  · rintro ⟨v, hv⟩
    by_contra hno
    rw [if_neg hno] at hv
    cases hv
  · intro hroom
    exact ⟨_, if_pos hroom⟩

theorem reentrantlockTest_returns_zero :
    ∃ v, reentrantlockTest (0 : Slot) 6 0 ⟨none, none, 0⟩ = some (v, ⟨none, none, 0⟩) :=
  (reentrantlockTest_returns_iff 0 0 .free).mpr (by decide)

theorem reentrantlockTest_six : reentrantlockTest (0 : Slot) 6 6 ⟨none, none, 0⟩ = none ∧
    reentrantlockTest (0 : Slot) 4096 6 ⟨none, none, 0⟩ = none := by
  rw [reentrantlockTest_eq .free, reentrantlockTest_eq .free]
  exact ⟨if_neg (by decide), if_neg (by decide)⟩

end Xv6.Reentrantlock
