import Mathlib.Algebra.BigOperators.Fin
import Xv6.Lib.Run
import Xv6.Proc.Table

namespace Xv6

open Lib

def sysOpen : Word := 15
def sysWrite : Word := 16

structure Counts where
  totalNumberOfSyscalls : Word
  numberOfSyscalls : Fin ncpu → Word
  deriving DecidableEq

structure Trap where
  cpu : Fin ncpu
  eax : Word
  killed : Bool
  deriving DecidableEq, Repr

namespace Trap

def weight (t : Trap) : Word :=
  if t.eax = sysOpen then 3 else if t.eax = sysWrite then 2 else 1

def isOpen (t : Trap) : Bool := !t.killed && t.eax == sysOpen

def isWrite (t : Trap) : Bool := !t.killed && t.eax == sysWrite

def isOther (t : Trap) : Bool := !t.killed && t.eax != sysOpen && t.eax != sysWrite

end Trap

namespace Counts

def zero : Counts := ⟨0, fun _ => 0⟩

/-- The critical section of `syscallslock`.  A killed process exits before it gets there. -/
def trap (s : Counts) (t : Trap) : Counts :=
  if t.killed then s
  else
    { totalNumberOfSyscalls := s.totalNumberOfSyscalls + t.weight
      numberOfSyscalls :=
        Function.update s.numberOfSyscalls t.cpu (s.numberOfSyscalls t.cpu + t.weight) }

def counted (t : Trap) : Word := if t.killed then 0 else t.weight

theorem trap_total (s : Counts) (t : Trap) :
    (s.trap t).totalNumberOfSyscalls = s.totalNumberOfSyscalls + counted t := by
  unfold trap counted
  split
  · exact (add_zero _).symm
  · rfl

theorem trap_cpu (s : Counts) (t : Trap) (c : Fin ncpu) :
    (s.trap t).numberOfSyscalls c = s.numberOfSyscalls c + if c = t.cpu then counted t else 0 := by
  unfold trap counted
  split
  · simp
  · by_cases hc : c = t.cpu
    · subst hc
      simp
    · simp [hc]

theorem trap_sum (s : Counts) (t : Trap) (cs : Finset (Fin ncpu)) :
    ∑ c ∈ cs, (s.trap t).numberOfSyscalls c =
      ∑ c ∈ cs, s.numberOfSyscalls c + if t.cpu ∈ cs then counted t else 0 := by
  simp only [trap_cpu, Finset.sum_add_distrib, Finset.sum_ite_eq']

theorem counted_eq (t : Trap) :
    counted t = BitVec.ofNat 32
      (3 * t.isOpen.toNat + 2 * t.isWrite.toNat + t.isOther.toNat) := by
  have hne : (sysOpen == sysWrite) = false := by decide
  have hne' : (sysWrite == sysOpen) = false := by decide
  unfold counted Trap.weight Trap.isOpen Trap.isWrite Trap.isOther
  cases t.killed with
  | true => simp
  | false =>
    by_cases hopen : t.eax = sysOpen
    · simp [hopen, hne]
    · by_cases hwrite : t.eax = sysWrite
      · have hopen : ¬ sysWrite = sysOpen := hwrite ▸ hopen
        simp [hopen, hwrite, hne']
      · simp [hopen, hwrite, bne, beq_false_of_ne hopen, beq_false_of_ne hwrite]

theorem total_eq_sum (ts : List Trap) :
    (ts.foldl trap zero).totalNumberOfSyscalls = ∑ c, (ts.foldl trap zero).numberOfSyscalls c := by
  induction ts using List.reverseRecOn with
  | nil => simp [zero]
  | append_singleton ts t ih =>
    rw [List.foldl_append, List.foldl_cons, List.foldl_nil, trap_total, trap_sum, ih,
      if_pos (Finset.mem_univ _)]

theorem total_eq_weights (ts : List Trap) :
    (ts.foldl trap zero).totalNumberOfSyscalls = BitVec.ofNat 32
      (3 * ts.countP Trap.isOpen + 2 * ts.countP Trap.isWrite + ts.countP Trap.isOther) := by
  induction ts using List.reverseRecOn with
  | nil => rfl
  | append_singleton ts t ih =>
    have hone : ∀ P : Trap → Bool, (ts ++ [t]).countP P = ts.countP P + (P t).toNat := by
      intro P
      cases hP : P t <;> simp [List.countP_append, hP]
    rw [List.foldl_append, List.foldl_cons, List.foldl_nil, trap_total, ih, counted_eq,
      ← BitVec.ofNat_add, hone, hone, hone]
    congr 1
    omega

theorem counts_agree (ts : List Trap) :
    let s := ts.foldl trap zero
    let weights := 3 * ts.countP Trap.isOpen + 2 * ts.countP Trap.isWrite + ts.countP Trap.isOther
    s.totalNumberOfSyscalls = ∑ c, s.numberOfSyscalls c ∧
      s.totalNumberOfSyscalls = BitVec.ofNat 32 weights ∧
      ∑ c, s.numberOfSyscalls c = BitVec.ofNat 32 weights :=
  ⟨total_eq_sum ts, total_eq_weights ts, (total_eq_sum ts).symm.trans (total_eq_weights ts)⟩

/-- Counted over all traps, killed processes included, the numbers are larger. -/
theorem killed_trap_not_counted : ∃ ts : List Trap,
    (ts.foldl trap zero).totalNumberOfSyscalls ≠ BitVec.ofNat 32
      (3 * ts.countP (fun t => t.eax == sysOpen) + 2 * ts.countP (fun t => t.eax == sysWrite) +
        ts.countP fun t => t.eax != sysOpen && t.eax != sysWrite) :=
  ⟨[⟨0, sysOpen, true⟩], by decide⟩

end Counts

/-- Where `get_number_of_total_syscalls` is: before one of its reads of the counter of CPU `i`,
in the condition, in the sum or in the line it prints, or before its read of the global counter,
or back, having printed the two totals. -/
inductive Report
  | test (i : Nat) (count : Word)
  | sum (i : Fin ncpu) (count : Word)
  | print (i : Fin ncpu) (count : Word)
  | global (count : Word)
  | done (count total : Word)
  deriving DecidableEq

namespace Report

def next (s : Counts) : Report → Option Report
  | test i count =>
    if h : i < ncpu then
      if s.numberOfSyscalls ⟨i, h⟩ ≠ 0 then some (sum ⟨i, h⟩ count) else some (test (i + 1) count)
    else some (global count)
  | sum i count => some (print i (count + s.numberOfSyscalls i))
  | print i count => some (test (i + 1) count)
  | global count => some (done count s.totalNumberOfSyscalls)
  | done _ _ => none

def count : Report → Word
  | test _ count | sum _ count | print _ count | global count | done count _ => count

def ahead : Report → Finset (Fin ncpu)
  | test i _ => Finset.univ.filter fun c => i ≤ c.val
  | sum i _ => Finset.univ.filter fun c => i.val ≤ c.val
  | print i _ => Finset.univ.filter fun c => i.val < c.val
  | global _ | done _ _ => ∅

end Report

inductive ReportEvent
  | trap (t : Trap)
  | read
  deriving DecidableEq

structure Reporting where
  counts : Counts
  report : Report
  deriving DecidableEq

namespace Reporting

def step (s : Reporting) : ReportEvent → Option Reporting
  | .trap t => some { s with counts := s.counts.trap t }
  | .read => (s.report.next s.counts).map fun r => { s with report := r }

def Step (s : Reporting) (e : ReportEvent) (s' : Reporting) : Prop := s.step e = some s'

def late (e : Reporting × ReportEvent) : Word :=
  match e.2, e.1.report with
  | .trap _, .done _ _ => 0
  | .trap t, r => if t.cpu ∈ r.ahead then 0 else Counts.counted t
  | .read, _ => 0

def total (s : Reporting) : Word :=
  match s.report with
  | .done _ total => total
  | _ => s.counts.totalNumberOfSyscalls

def Behind (s : Reporting) (w : Word) : Prop :=
  s.total = s.report.count + ∑ c ∈ s.report.ahead, s.counts.numberOfSyscalls c + w

theorem ahead_test_of_lt (h : i < ncpu) (count : Word) :
    (Report.test i count).ahead = insert ⟨i, h⟩ (Report.test (i + 1) count).ahead := by
  ext c
  simp only [Report.ahead, Finset.mem_filter, Finset.mem_univ, true_and, Finset.mem_insert, Fin.ext_iff]
  omega

theorem ahead_test_of_le (h : ncpu ≤ i) (count : Word) : (Report.test i count).ahead = ∅ := by
  ext c
  have hc := c.isLt
  simp only [Report.ahead, Finset.mem_filter, Finset.mem_univ, true_and, Finset.notMem_empty, iff_false]
  omega

theorem notMem_ahead_test (h : i < ncpu) (count : Word) :
    (⟨i, h⟩ : Fin ncpu) ∉ (Report.test (i + 1) count).ahead := by
  simp [Report.ahead]

variable {s s' : Reporting} {w : Word}

theorem Behind.trap (hs : s.Behind w) (t : Trap) :
    { s with counts := s.counts.trap t }.Behind (w + late (s, .trap t)) := by
  obtain ⟨counts, report⟩ := s
  unfold Behind at hs ⊢
  cases report with
  | done count total => simpa [Reporting.total, Report.ahead, late] using hs
  | _ =>
    simp only [Reporting.total, late, Counts.trap_total, Counts.trap_sum] at hs ⊢
    rw [hs]
    split_ifs
    · rw [add_zero, ← add_assoc, add_right_comm]
    · rw [add_zero, add_assoc _ w]

theorem Behind.read (hs : s.Behind w) (h : s.report.next s.counts = some r) :
    { s with report := r }.Behind w := by
  obtain ⟨counts, report⟩ := s
  unfold Behind at hs ⊢
  cases report with
  | test i count =>
    simp only [Report.next] at h
    split_ifs at h with hi hzero
    · cases h
      exact hs
    · push Not at hzero
      cases h
      rw [ahead_test_of_lt hi, Finset.sum_insert (notMem_ahead_test hi count), hzero, zero_add] at hs
      exact hs
    · cases h
      rw [ahead_test_of_le (not_lt.mp hi)] at hs
      exact hs
  | sum i count =>
    cases h
    have hahead : (Report.sum i count).ahead = insert i (Report.test (i + 1) count).ahead :=
      ahead_test_of_lt i.isLt count
    rw [hahead, Finset.sum_insert (notMem_ahead_test i.isLt count), ← add_assoc] at hs
    exact hs
  | print i count =>
    cases h
    exact hs
  | global count =>
    cases h
    exact hs
  | done count total => cases h

theorem Step.behind (h : Step s e s') (hs : s.Behind w) : s'.Behind (w + late (s, e)) := by
  cases e with
  | trap t =>
    cases h
    exact hs.trap t
  | read =>
    obtain ⟨r, hr, rfl⟩ := Option.map_eq_some_iff.mp h
    simpa [late] using hs.read hr

theorem run_behind (h : Run Step s es s') (hs : s.Behind w) :
    s'.Behind (w + (es.map late).sum) := by
  induction h generalizing w with
  | nil => simpa using hs
  | cons hstep _ ih =>
    rw [List.map_cons, List.sum_cons, ← add_assoc]
    exact ih (hstep.behind hs)

theorem report_consistent_iff (ts : List Trap) {es : List (Reporting × ReportEvent)} {counts : Counts}
    {count total : Word}
    (h : Run Step ⟨ts.foldl Counts.trap .zero, .test 0 0⟩ es ⟨counts, .done count total⟩) :
    count = total ↔ (es.map late).sum = 0 := by
  have hstart : Behind ⟨ts.foldl Counts.trap .zero, .test 0 0⟩ 0 := by
    simpa [Behind, Reporting.total, Report.count, Report.ahead] using Counts.total_eq_sum ts
  have hend := run_behind h hstart
  simp only [Behind, Reporting.total, Report.count, Report.ahead, Finset.sum_empty, add_zero,
    zero_add] at hend
  rw [hend]
  exact left_eq_add

theorem report_consistent_of_early_trap :
    ∃ es counts count total, Run Step ⟨.zero, .test 0 0⟩ es ⟨counts, .done count total⟩ ∧
      count = total := by
  let early : List ReportEvent := .read :: .trap ⟨1, sysOpen, false⟩ :: .replicate 11 .read
  obtain ⟨⟨counts, report⟩, hrun, h⟩ := Run.of_exec_any step ⟨.zero, .test 0 0⟩ early
    (fun s => s.report == .done 3 3) (by decide)
  obtain rfl : report = .done 3 3 := by simpa using h
  refine ⟨_, _, _, _, hrun, (report_consistent_iff [] hrun).mpr ?_⟩
  decide

theorem report_inconsistent_of_late_trap :
    ∃ es counts count total, Run Step ⟨.zero, .test 0 0⟩ es ⟨counts, .done count total⟩ ∧
      count ≠ total := by
  obtain ⟨⟨counts, report⟩, hrun, h⟩ := Run.of_exec_any step ⟨.zero, .test 0 0⟩
    (.replicate 8 .read ++ .trap ⟨1, sysOpen, false⟩ :: .replicate 2 .read)
    (fun s => s.report == .done 0 3) (by decide)
  obtain rfl : report = .done 0 3 := by simpa using h
  exact ⟨_, _, _, _, hrun, by decide⟩

end Reporting

end Xv6
