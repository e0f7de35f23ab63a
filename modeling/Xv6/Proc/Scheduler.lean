import Xv6.Lib.Scan
import Xv6.Proc.Table

namespace Xv6

open Lib

/-- `sizeof(struct proc)`: the loop of `round_robin` counts up to the size of the table in
bytes, not in slots. -/
def sizeofProc : Nat := 256

/-- `p` may have stepped one past the end of the table, where the loop wraps it. -/
def roundRobinLoop (t : Table) : Nat → Nat → Option Slot
  | 0, _ => none
  | count + 1, p =>
    let p : Slot := if h : p < nproc then ⟨p, h⟩ else 0
    if (t p).candidate .rr then some p else roundRobinLoop t count (p.val + 1)

def roundRobin (t : Table) (lastExecutedProc : Slot) : Option Slot :=
  roundRobinLoop t (nproc * sizeofProc) lastExecutedProc.val

def createRandomNumber (ticks : Word) (seed : Nat) : Nat := ticks.toNat % seed

def shorterJob (t : Table) (ticks : Word) (p q : Slot) : Bool :=
  decide ((t p).ti.burstTime.toInt < (t q).ti.burstTime.toInt) &&
    decide ((createRandomNumber ticks 100 : Int) < (t p).ti.confidence.toInt)

def shortestJobFirst (t : Table) (ticks : Word) : Option Slot :=
  select (fun p => (t p).candidate .sjf) (shorterJob t ticks) (List.finRange nproc)

def enteredEarlier (t : Table) (p q : Slot) : Bool :=
  decide ((t p).ti.enterQueueTime.toInt < (t q).ti.enterQueueTime.toInt)

def firstComeFirstService (t : Table) : Option Slot :=
  select (fun p => (t p).candidate .fcfs) (enteredEarlier t) (List.finRange nproc)

inductive Decision
  | dispatch (l : Level) (p : Slot)
  | refill
  deriving DecidableEq, Repr

def choose (t : Table) (ticks : Word) (c : Cpu) : Level → Option Slot
  | .rr => roundRobin t c.lastExecutedProc
  | .sjf => shortestJobFirst t ticks
  | .fcfs => firstComeFirstService t

def tryLevel (t : Table) (ticks : Word) (c : Cpu) (l : Level) : Option Slot :=
  if 0 < c.remainTime l then choose t ticks c l else none

def decision (t : Table) (ticks : Word) (c : Cpu) : Decision :=
  match tryLevel t ticks c .rr with
  | some p => .dispatch .rr p
  | none =>
    match tryLevel t ticks c .sjf with
    | some p => .dispatch .sjf p
    | none =>
      match tryLevel t ticks c .fcfs with
      | some p => .dispatch .fcfs p
      | none => .refill

/-- Up to the context switch.  A process that went to sleep resumes inside `sleep`, whose
first statement clears `chan`, still under the lock. -/
def runProcessOnCpu (t : Table) (p : Slot) : Table :=
  Function.update t p { t p with state := .running, chan := none }

def refill (c : Cpu) : Cpu :=
  { c with
    rrRemainTime := Level.budget .rr
    sjfRemainTime := Level.budget .sjf
    fcfsRemainTime := Level.budget .fcfs }

def applyDecision (t : Table) (c : Cpu) : Decision → Table × Cpu
  | .dispatch .rr p => (runProcessOnCpu t p, { c with proc := some p, lastExecutedProc := p })
  | .dispatch _ p => (runProcessOnCpu t p, { c with proc := some p })
  | .refill => (t, refill c)

def schedulerIter (t : Table) (ticks : Word) (c : Cpu) : Table × Cpu :=
  applyDecision t c (decision t ticks c)

theorem roundRobinLoop_eq_scan (t : Table) (count : Nat) (p : Slot) :
    roundRobinLoop t count p.val = scan (fun q => (t q).candidate .rr) count p := by
  induction count generalizing p with
  | zero => rfl
  | succ count ih =>
    have hp : (if h : p.val < nproc then ⟨p.val, h⟩ else 0 : Slot) = p := by simp
    simp only [roundRobinLoop, scan, hp]
    split
    · rfl
    · rw [← ih (p + 1)]
      by_cases hlast : p.val + 1 < nproc
      · congr 1
        rw [Fin.val_add_one_of_lt' hlast]
      -- both walks come round to slot 0, one by the wrap of the loop, one by that of `Fin`
      · have hwrap : p + 1 = 0 := by
          have hend : p.val + 1 = nproc := by
            have := p.isLt
            omega
          apply Fin.ext
          simp [Fin.val_add, hend]
        rw [hwrap]
        cases count with
        | zero => rfl
        | succ count =>
          have hp1 : (if h : p.val + 1 < nproc then ⟨p.val + 1, h⟩ else 0 : Slot) = 0 := dif_neg hlast
          have h0 : (if h : (0 : Slot).val < nproc then ⟨(0 : Slot).val, h⟩ else 0 : Slot) = 0 := by
            simp
          simp only [roundRobinLoop, hp1, h0]

theorem roundRobin_eq_firstFrom (t : Table) (last : Slot) :
    roundRobin t last = firstFrom (fun q => (t q).candidate .rr) last := by
  rw [roundRobin, roundRobinLoop_eq_scan]
  exact scan_eq_firstFrom _ _ (by decide)

theorem choose_candidate
    (h : choose t ticks c l = some p) : (t p).candidate l := by
  cases l with
  | rr =>
    rw [choose, roundRobin_eq_firstFrom] at h
    exact firstFrom_mem h
  | sjf => exact (select_mem h).2
  | fcfs => exact (select_mem h).2

theorem choose_eq_none_iff :
    choose t ticks c l = none ↔ ∀ p, ¬ (t p).candidate l := by
  cases l with
  | rr =>
    rw [choose, roundRobin_eq_firstFrom]
    exact firstFrom_eq_none_iff
  | sjf => rw [choose, shortestJobFirst, select_eq_none_iff]; simp
  | fcfs => rw [choose, firstComeFirstService, select_eq_none_iff]; simp

def Ready (t : Table) (c : Cpu) (l : Level) : Prop := 0 < c.remainTime l ∧ ∃ p, (t p).candidate l

theorem tryLevel_eq_none_iff :
    tryLevel t ticks c l = none ↔ ¬ Ready t c l := by
  unfold tryLevel Ready
  split
  case isTrue h => simp [choose_eq_none_iff, h]
  case isFalse h => simp [h]

theorem tryLevel_eq_some
    (h : tryLevel t ticks c l = some p) :
    0 < c.remainTime l ∧ choose t ticks c l = some p := by
  unfold tryLevel at h
  split at h
  case isTrue hpos => exact ⟨hpos, h⟩
  case isFalse => cases h

theorem decision_eq_dispatch_iff :
    decision t ticks c = .dispatch l p ↔
      Ready t c l ∧ choose t ticks c l = some p ∧ ∀ m, m.code < l.code → ¬ Ready t c m := by
  have hready : ∀ {m q}, tryLevel t ticks c m = some q → Ready t c m := fun h =>
    let ⟨hpos, hq⟩ := tryLevel_eq_some h
    ⟨hpos, _, choose_candidate hq⟩
  have hsome : ∀ {m q}, Ready t c m → choose t ticks c m = some q → tryLevel t ticks c m = some q :=
    fun hm hq => by rw [tryLevel, if_pos hm.1, hq]
  constructor
  · intro h
    unfold decision at h
    split at h
    case h_1 q hq =>
      cases h
      refine ⟨hready hq, (tryLevel_eq_some hq).2, fun m hm => ?_⟩
      exact absurd hm (by cases m <;> decide)
    case h_2 hrr =>
      have hrr' := tryLevel_eq_none_iff.mp hrr
      split at h
      case h_1 q hq =>
        cases h
        refine ⟨hready hq, (tryLevel_eq_some hq).2, fun m hm => ?_⟩
        cases m with
        | rr => exact hrr'
        | sjf | fcfs => exact absurd hm (by decide)
      case h_2 hsjf =>
        have hsjf' := tryLevel_eq_none_iff.mp hsjf
        split at h
        case h_1 q hq =>
          cases h
          refine ⟨hready hq, (tryLevel_eq_some hq).2, fun m hm => ?_⟩
          cases m with
          | rr => exact hrr'
          | sjf => exact hsjf'
          | fcfs => exact absurd hm (by decide)
        case h_2 => cases h
  · rintro ⟨hl, hp, hbefore⟩
    have hnone : ∀ m, m.code < l.code → tryLevel t ticks c m = none := fun m hm =>
      tryLevel_eq_none_iff.mpr (hbefore m hm)
    cases l with
    | rr => simp [decision, hsome hl hp]
    | sjf => simp [decision, hsome hl hp, hnone .rr (by decide)]
    | fcfs => simp [decision, hsome hl hp, hnone .rr (by decide), hnone .sjf (by decide)]

theorem decision_eq_refill_iff :
    decision t ticks c = .refill ↔ ∀ l, ¬ Ready t c l := by
  have hnone : ∀ l, ¬ Ready t c l ↔ tryLevel t ticks c l = none := fun _ => tryLevel_eq_none_iff.symm
  simp only [hnone]
  constructor
  · intro h
    cases hrr : tryLevel t ticks c .rr with
    | some p => simp [decision, hrr] at h
    | none =>
      cases hsjf : tryLevel t ticks c .sjf with
      | some p => simp [decision, hrr, hsjf] at h
      | none =>
        cases hfcfs : tryLevel t ticks c .fcfs with
        | some p => simp [decision, hrr, hsjf, hfcfs] at h
        | none => intro l; cases l <;> assumption
  · intro h
    simp [decision, h]

@[simp] theorem refill_remainTime (c : Cpu) (l : Level) : (refill c).remainTime l = l.budget := by
  cases l <;> rfl

theorem Level.budget_pos (l : Level) : 0 < l.budget := by cases l <;> decide

theorem decision_refill_dispatches
    (h : ∃ l p, (t p).candidate l) : ∃ l p, decision t ticks (refill c) = .dispatch l p := by
  cases hd : decision t ticks (refill c) with
  | dispatch l p => exact ⟨l, p, rfl⟩
  | refill =>
    obtain ⟨l, p, hp⟩ := h
    refine absurd ?_ (decision_eq_refill_iff.mp hd l)
    exact ⟨by rw [refill_remainTime]; exact l.budget_pos, p, hp⟩

def SchedulerSound (t : Table) (ticks : Word) (c : Cpu) : Prop :=
  (∀ l p, decision t ticks c = .dispatch l p →
    (t p).candidate l ∧ Ready t c l ∧ (∀ m, m.code < l.code → ¬ Ready t c m) ∧
      (schedulerIter t ticks c).2.proc = some p ∧ ((schedulerIter t ticks c).1 p).state = .running) ∧
  (decision t ticks c = .refill → ∀ l, (schedulerIter t ticks c).2.remainTime l = l.budget)

theorem schedulerIter_sound (t : Table) (ticks : Word) (c : Cpu) : SchedulerSound t ticks c := by
  refine ⟨fun l p h => ?_, fun h l => ?_⟩
  · obtain ⟨hready, hchoose, hbefore⟩ := decision_eq_dispatch_iff.mp h
    rw [schedulerIter, h]
    refine ⟨choose_candidate hchoose, hready, hbefore, ?_⟩
    cases l <;> simp [applyDecision, runProcessOnCpu]
  · rw [schedulerIter, h, applyDecision, refill_remainTime]

theorem scheduler_work_conserving (t : Table) (ticks ticks' : Word) (c : Cpu)
    (h : ∃ l p, (t p).candidate l) :
    let r := schedulerIter t ticks c
    ((∃ l p, decision t ticks c = .dispatch l p) ∨ ∃ l p, decision r.1 ticks' r.2 = .dispatch l p) ∧
      SchedulerSound t ticks c ∧ SchedulerSound r.1 ticks' r.2 := by
  refine ⟨?_, schedulerIter_sound _ _ _, schedulerIter_sound _ _ _⟩
  cases hd : decision t ticks c with
  | dispatch l p => exact .inl ⟨l, p, rfl⟩
  | refill =>
    right
    simp only [schedulerIter, hd, applyDecision]
    exact decision_refill_dispatches h

theorem scheduler_work_conserving_exhausted :
    let t : Table := Function.update (fun _ => .zero) 0 { Proc.zero with state := .runnable }
    let c : Cpu := ⟨none, 0, -1, -5, Fin.last 63⟩
    let r := schedulerIter t 0 c
    (t 0).candidate .rr ∧
      ((∃ l p, decision t 0 c = .dispatch l p) ∨ ∃ l p, decision r.1 1 r.2 = .dispatch l p) := by
  intro t c r
  have h : (t 0).candidate .rr := by decide
  exact ⟨h, (scheduler_work_conserving t 0 1 c ⟨.rr, 0, h⟩).1⟩

end Xv6
