import Mathlib.Algebra.BigOperators.Fin
import Xv6.Proc.Table

/-! `syscall` and its per-process counters.  `struct proc` lays `ti` out directly after
`used_syscalls`, so the words past the end of the array are the fields of `ti`. -/

namespace Xv6

inductive Sys
  | fork | exit | wait | pipe | read | kill | exec | fstat | chdir | dup | getpid | sbrk | sleep
  | uptime | open | write | mknod | unlink | link | mkdir | close | createPalindrome | moveFile
  | sortSyscalls | getMostInvokedSyscall | listAllProcesses | setInitialBurstConfidence
  | changeQueue | printProcessInformation | getNumberOfTotalSyscalls | reentrantlockTest
  deriving DecidableEq, Repr

/-- The dispatch table; entry 0 is the null pointer the designated initialisers leave. -/
def syscalls : List (Option Sys) :=
  [none, some .fork, some .exit, some .wait, some .pipe, some .read, some .kill, some .exec,
   some .fstat, some .chdir, some .dup, some .getpid, some .sbrk, some .sleep, some .uptime,
   some .open, some .write, some .mknod, some .unlink, some .link, some .mkdir, some .close,
   some .createPalindrome, some .moveFile, some .sortSyscalls, some .getMostInvokedSyscall,
   some .listAllProcesses, some .setInitialBurstConfidence, some .changeQueue,
   some .printProcessInformation, some .getNumberOfTotalSyscalls, some .reentrantlockTest]

def accepted (num : Word) : Bool :=
  decide (0 < num.toInt) && decide (num.toInt < syscalls.length) &&
    (syscalls.getD num.toNat none).isSome

theorem accepted_iff : accepted num ↔ 1 ≤ num.toNat ∧ num.toNat ≤ 31 := by
  have hlen : syscalls.length = 32 := rfl
  have htable : ∀ i : Fin 32, i ≠ 0 → (syscalls.getD i none).isSome := by decide
  simp only [accepted, hlen, Bool.and_eq_true, decide_eq_true_eq, BitVec.toInt_eq_toNat_cond]
  constructor
  · rintro ⟨⟨hpos, hlt⟩, -⟩
    split at hpos <;> omega
  · rintro ⟨hpos, hle⟩
    refine ⟨by split <;> omega, ?_⟩
    exact htable ⟨num.toNat, by omega⟩ (by simp [Fin.ext_iff]; omega)

def TimeInfo.incWord (t : TimeInfo) : Nat → TimeInfo
  | 0 => { t with queue := t.queue + 1 }
  | 1 => { t with ticksUsed := t.ticksUsed + 1 }
  | 2 => { t with burstTime := t.burstTime + 1 }
  | 3 => { t with creationTime := t.creationTime + 1 }
  | 4 => { t with enterQueueTime := t.enterQueueTime + 1 }
  | 5 => { t with lastRunTime := t.lastRunTime + 1 }
  | 6 => { t with confidence := t.confidence + 1 }
  | _ => t

theorem TimeInfo.incWord_queue (t : TimeInfo) (i : Nat) :
    (t.incWord i).queue = if i = 0 then t.queue + 1 else t.queue := by
  unfold TimeInfo.incWord
  split <;> simp_all

theorem TimeInfo.incWord_ticksUsed (t : TimeInfo) (i : Nat) :
    (t.incWord i).ticksUsed = if i = 1 then t.ticksUsed + 1 else t.ticksUsed := by
  unfold TimeInfo.incWord
  split <;> simp_all

namespace Proc

/-- `used_syscalls[i]++`, which C does not check against the length of the array. -/
def incUsedSyscalls (p : Proc) (i : Nat) : Proc :=
  if h : i < maxSyscalls then
    { p with usedSyscalls := Function.update p.usedSyscalls ⟨i, h⟩ (p.usedSyscalls ⟨i, h⟩ + 1) }
  else { p with ti := p.ti.incWord (i - maxSyscalls) }

def countSyscall (p : Proc) (num : Word) : Proc := p.incUsedSyscalls (num.toNat - 1)

def countSyscalls (p : Proc) (nums : List Word) : Proc := nums.foldl countSyscall p

def clearUsedSyscalls (p : Proc) : Proc := { p with usedSyscalls := fun _ => 0 }

def totalSyscalls (p : Proc) : Word :=
  (List.finRange maxSyscalls).foldl (fun sum i => sum + p.usedSyscalls i) 0

theorem totalSyscalls_eq_sum (p : Proc) : p.totalSyscalls = ∑ i, p.usedSyscalls i := by
  rw [totalSyscalls, ← List.foldl_map (f := p.usedSyscalls) (g := (· + ·)),
    ← List.sum_eq_foldl, ← List.ofFn_eq_map, List.sum_ofFn]

theorem totalSyscalls_incUsedSyscalls (p : Proc) (i : Nat) :
    (p.incUsedSyscalls i).totalSyscalls =
      p.totalSyscalls + if i < maxSyscalls then 1 else 0 := by
  unfold incUsedSyscalls
  split
  case isTrue h =>
    simp only [totalSyscalls_eq_sum]
    rw [Finset.sum_update_of_mem (Finset.mem_univ _),
      ← Finset.add_sum_erase _ _ (Finset.mem_univ (⟨i, h⟩ : Fin maxSyscalls)),
      Finset.sdiff_singleton_eq_erase, add_right_comm]
  case isFalse => rw [add_zero]; rfl

def counted (nums : List Word) : Nat := nums.countP fun num => num.toNat ≤ maxSyscalls

theorem counted_cons (num : Word) (nums : List Word) :
    counted (num :: nums) = counted nums + if num.toNat ≤ maxSyscalls then 1 else 0 := by
  simp [counted, List.countP_cons]

theorem totalSyscalls_countSyscalls (p : Proc)
    (h : ∀ num ∈ nums, accepted num) :
    (p.countSyscalls nums).totalSyscalls = p.totalSyscalls + BitVec.ofNat 32 (counted nums) := by
  induction nums generalizing p with
  | nil => simp [countSyscalls, counted]
  | cons num nums ih =>
    obtain ⟨hnum, hnums⟩ := List.forall_mem_cons.mp h
    have hpos := (accepted_iff.mp hnum).1
    have hstep := totalSyscalls_incUsedSyscalls p (num.toNat - 1)
    have ih := ih (p.countSyscall num) hnums
    rw [countSyscalls] at ih ⊢
    rw [List.foldl_cons, ih, countSyscall, hstep, counted_cons]
    by_cases hle : num.toNat ≤ maxSyscalls
    · rw [if_pos (by omega), if_pos hle, BitVec.ofNat_add, add_right_comm, add_assoc]
      rfl
    · rw [if_neg (by omega), if_neg hle, add_zero, add_zero]

theorem ti_countSyscalls (p : Proc) (h : ∀ num ∈ nums, accepted num)
    (hle : ∀ num ∈ nums, num.toNat ≤ maxSyscalls) : (p.countSyscalls nums).ti = p.ti := by
  induction nums generalizing p with
  | nil => rfl
  | cons num nums ih =>
    obtain ⟨hnum, hnums⟩ := List.forall_mem_cons.mp h
    obtain ⟨hlenum, hlenums⟩ := List.forall_mem_cons.mp hle
    have hpos := (accepted_iff.mp hnum).1
    have hstep : (p.countSyscall num).ti = p.ti := by
      rw [countSyscall, incUsedSyscalls, dif_pos (by omega)]
    exact (ih (p.countSyscall num) hnums hlenums).trans hstep

theorem countSyscalls_frame_iff (p : Proc) (nums : List Word) (h : ∀ num ∈ nums, accepted num) :
    ((p.clearUsedSyscalls.countSyscalls nums).ti = p.ti ∧
        (p.clearUsedSyscalls.countSyscalls nums).totalSyscalls.toInt = nums.length) ↔
      (∀ num ∈ nums, num.toNat ≤ maxSyscalls) ∧ nums.length < 2 ^ 31 := by
  have hzero : p.clearUsedSyscalls.totalSyscalls = 0 := by
    simp [totalSyscalls_eq_sum, clearUsedSyscalls]
  have htotal : (p.clearUsedSyscalls.countSyscalls nums).totalSyscalls =
      BitVec.ofNat 32 (counted nums) := by
    rw [totalSyscalls_countSyscalls _ h, hzero, zero_add]
  have hcounted : counted nums ≤ nums.length := List.countP_le_length
  constructor
  · rintro ⟨-, hsum⟩
    rw [htotal] at hsum
    have hbound := BitVec.toInt_lt (x := BitVec.ofNat 32 (counted nums))
    have hlen : nums.length < 2 ^ 31 := by omega
    rw [BitVec.toInt_ofNat', Int.bmod_eq_of_le (by omega) (by omega)] at hsum
    have hall : counted nums = nums.length := by omega
    refine ⟨fun num hnum => ?_, hlen⟩
    simpa using List.countP_eq_length.mp hall num hnum
  · rintro ⟨hle, hlen⟩
    have hall : counted nums = nums.length :=
      List.countP_eq_length.mpr fun num hnum => by simpa using hle num hnum
    refine ⟨ti_countSyscalls p.clearUsedSyscalls h hle, ?_⟩
    rw [htotal, hall, BitVec.toInt_ofNat', Int.bmod_eq_of_le (by omega) (by omega)]

theorem countSyscalls_frame_calls :
    let p := { zero with pid := 3, usedSyscalls := fun _ => 9, ti := ⟨2, 5, 2, 40, 60, 30, 50⟩ }
    (p.clearUsedSyscalls.countSyscalls [1, 15, 16, 16, 26, 1]).ti = ⟨2, 5, 2, 40, 60, 30, 50⟩ ∧
      (p.clearUsedSyscalls.countSyscalls [1, 15, 16, 16, 26, 1]).totalSyscalls.toInt = 6 :=
  (countSyscalls_frame_iff _ [1, 15, 16, 16, 26, 1] (by simp [accepted_iff])).mpr (by simp [maxSyscalls])

theorem countSyscalls_frame_fails :
    ¬ ∀ (p : Proc) (nums : List Word), (∀ num ∈ nums, accepted num) →
      (p.clearUsedSyscalls.countSyscalls nums).ti = p.ti ∧
        (p.clearUsedSyscalls.countSyscalls nums).totalSyscalls.toInt = nums.length := by
  intro hall
  have hti := (hall Proc.zero [27] (by simp [accepted_iff])).1
  exact absurd hti (by decide)

end Proc

end Xv6
