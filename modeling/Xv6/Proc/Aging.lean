import Xv6.Proc.Starvation

namespace Xv6.Kernel

open Lib

variable {k : Kernel} {p : Slot}

/-- What the pass does to one process: a `RUNNABLE` one whose two stamps are old goes up one
level and enters its new queue now. -/
def raise (k : Kernel) (p : Proc) : Proc :=
  if p.state = .runnable ∧ k.starved p then
    if p.ti.queue = Level.fcfs.code then { p with ti := { p.ti with queue := Level.sjf.code, enterQueueTime := k.ticks } }
    else if p.ti.queue = Level.sjf.code then
      { p with ti := { p.ti with queue := Level.rr.code, enterQueueTime := k.ticks } }
    else p
  else p

def PidsApart (k : Kernel) : Prop := ∀ p, (k.proc p).state ≠ .unused → k.PidAlone p

theorem raise_pid (k : Kernel) (q : Proc) : (k.raise q).pid = q.pid := by
  unfold raise
  split_ifs <;> rfl

theorem raise_state (k : Kernel) (q : Proc) : (k.raise q).state = q.state := by
  unfold raise
  split_ifs <;> rfl

theorem getProcByPid_of_alone (h : k.PidAlone p) : k.getProcByPid (k.proc p).pid = some p := by
  refine find?_finRange_eq_some_iff.mpr ⟨beq_self_eq_true _, fun q hq hpid => ?_⟩
  exact absurd (h q (eq_of_beq hpid)) hq.ne

theorem changeQueue_of_alone (h : k.PidAlone p) (target : Word) :
    k.changeQueue (k.proc p).pid target =
      k.setProc p { k.proc p with ti := { (k.proc p).ti with queue := target, enterQueueTime := k.ticks } } := by
  rw [changeQueue, getProcByPid_of_alone h]

theorem setProc_proc (k : Kernel) (p : Slot) : k.setProc p (k.proc p) = k := by
  rw [setProc, Function.update_eq_self]

theorem agingSlot_eq_raise (h : k.PidsApart) (p : Slot) : k.agingSlot p = k.setProc p (k.raise (k.proc p)) := by
  have hsjfRr : Level.sjf.code ≠ Level.rr.code := by decide
  have hfcfsRr : Level.fcfs.code ≠ Level.rr.code := by decide
  have hfcfsSjf : Level.fcfs.code ≠ Level.sjf.code := by decide
  unfold agingSlot raise
  by_cases hdue : (k.proc p).state = .runnable ∧ k.starved (k.proc p)
  · have halone := h p (by rw [hdue.1]; decide)
    have hgo : (k.proc p).ti.queue ≠ Level.rr.code →
        ¬((k.proc p).state ≠ .runnable ∨ (k.proc p).ti.queue = Level.rr.code) :=
      fun hrr => not_or.mpr ⟨not_not.mpr hdue.1, hrr⟩
    rw [if_pos hdue]
    simp only
    by_cases hfcfs : (k.proc p).ti.queue = Level.fcfs.code
    · rw [if_neg (hgo (hfcfs ▸ hfcfsRr)), if_pos hdue.2, if_neg (hfcfs ▸ hfcfsSjf), if_pos hfcfs, if_pos hfcfs]
      exact changeQueue_of_alone halone _
    · rw [if_neg hfcfs, if_neg hfcfs]
      by_cases hsjf : (k.proc p).ti.queue = Level.sjf.code
      · rw [if_neg (hgo (hsjf ▸ hsjfRr)), if_pos hdue.2, if_pos hsjf, if_pos hsjf]
        exact changeQueue_of_alone halone _
      · rw [if_neg hsjf, if_neg hsjf, ite_self, ite_self, setProc_proc]
  · rw [if_neg hdue, setProc_proc]
    simp only
    split_ifs with hskip hstarved
    · rfl
    · exact absurd ⟨not_not.mp (not_or.mp hskip).1, hstarved⟩ hdue
    · exact absurd ⟨not_not.mp (not_or.mp hskip).1, hstarved⟩ hdue
    · rfl
    · rfl

theorem PidsApart.setProc_raise (h : k.PidsApart) (p : Slot) : (k.setProc p (k.raise (k.proc p))).PidsApart := by
  have hpid : ∀ q, ((k.setProc p (k.raise (k.proc p))).proc q).pid = (k.proc q).pid := by
    intro q
    by_cases hq : q = p
    · rw [hq, setProc_self, raise_pid]
    · rw [setProc_of_ne _ _ hq]
  intro q hq r hr
  rw [hpid, hpid] at hr
  refine h q ?_ r hr
  by_cases hqp : q = p
  · rwa [hqp, setProc_self, raise_state, ← hqp] at hq
  · rwa [setProc_of_ne _ _ hqp] at hq

theorem foldl_agingSlot_eq_raise (h : k.PidsApart) {l : List Slot} (hl : l.Nodup) :
    l.foldl agingSlot k = { k with proc := fun p => if p ∈ l then k.raise (k.proc p) else k.proc p } := by
  induction l generalizing k with
  | nil => simp
  | cons p l ih =>
    obtain ⟨hp, hl⟩ := List.nodup_cons.mp hl
    rw [List.foldl_cons, agingSlot_eq_raise h, ih (h.setProc_raise p) hl]
    have hsame : (k.setProc p (k.raise (k.proc p))).raise = k.raise := rfl
    rw [hsame]
    refine congrArg (fun f => { k with proc := f }) (funext fun q => ?_)
    by_cases hq : q = p
    · subst hq
      rw [if_neg hp, setProc_self, if_pos List.mem_cons_self]
    · rw [setProc_of_ne _ _ hq]
      simp only [List.mem_cons, hq, false_or]

theorem aging_eq_raise (k : Kernel) (h : k.PidsApart) :
    k.aging = { k with proc := fun p => k.raise (k.proc p) } := by
  rw [aging, foldl_agingSlot_eq_raise h (List.nodup_finRange nproc)]
  simp only [List.mem_finRange, if_true]

def twoWaiting : Kernel :=
  { zero with
    ticks := 900
    proc := fun p =>
      if p = 0 then { Proc.zero with pid := 1, state := .runnable, ti := TimeInfo.init 50 }
      else if p = 1 then { Proc.zero with pid := 2, state := .runnable, ti := TimeInfo.init 200 }
      else .zero }

theorem aging_eq_raise_twoWaiting : (twoWaiting.aging.proc 0).ti.queue = Level.sjf.code ∧
    (twoWaiting.aging.proc 0).ti.enterQueueTime = 900 ∧ twoWaiting.aging.proc 1 = twoWaiting.proc 1 := by
  rw [aging_eq_raise twoWaiting (by unfold PidsApart PidAlone; decide)]
  decide

end Xv6.Kernel
