import Xv6.Proc.ExitWait

namespace Xv6

open Lib

/-- What a call does.  `deref` is the pointer it goes through after its search, which may be null;
`none` is a call that returns before. -/
structure Call where
  ret : Word
  kernel : Kernel
  deref : Option (Option Slot)
  out : List String

namespace Call

def kill (k : Kernel) (pid : Word) : Call :=
  match k.getProcByPid pid with
  | some p => ⟨0, k.kill pid, some (some p), []⟩
  | none => ⟨-1, k, none, []⟩

def report (k : Kernel) (pid : Word) (out : Proc → List String) : Call :=
  match k.getProcByPid pid with
  | some p => ⟨0, k, some (some p), out (k.proc p)⟩
  | none => ⟨-1, k, none, []⟩

def sortedLines (p : Proc) : List String :=
  (List.finRange maxSyscalls).map fun i =>
    s!"\tSystem call number {i.val + 1}: {(p.usedSyscalls i).toInt} usage\n"

def sortSyscalls (k : Kernel) (pid : Word) : Call := report k pid sortedLines

def mostInvoked (p : Proc) : Word × Nat :=
  (List.finRange maxSyscalls).foldl
    (fun m i => if m.1.slt (p.usedSyscalls i) then (p.usedSyscalls i, i.val) else m) (0, 0)

def mostInvokedLine (p : Proc) : List String :=
  let m := mostInvoked p
  [s!"The most invoked system call is system call number {m.2 + 1} with {m.1.toInt} usage\n"]

def getMostInvokedSyscall (k : Kernel) (pid : Word) : Call := report k pid mostInvokedLine

def store (k : Kernel) (pid : Word) (k' : Kernel) (out : List String) : Call :=
  ⟨0, k', some (k.getProcByPid pid), out⟩

def changeQueue (k : Kernel) (pid targetQueue : Word) : Call :=
  store k pid (k.changeQueue pid targetQueue) []

def burstLine (pid burst confidence : Word) : List String :=
  [s!"pid: {pid.toInt} new_burst: {burst.toInt} new_confidence: {confidence.toInt}\n"]

def setInitialBurstConfidence (k : Kernel) (pid burst confidence : Word) : Call :=
  store k pid (k.setInitialBurstConfidence pid burst confidence) (burstLine pid burst confidence)

end Call

namespace Kernel

variable {k : Kernel} {pid : Word} {p q : Slot}

def Named (k : Kernel) (pid : Word) (p : Slot) : Prop := (k.proc p).state ≠ .unused ∧ (k.proc p).pid = pid

instance (k : Kernel) (pid : Word) : DecidablePred (k.Named pid) := fun _ => inferInstanceAs (Decidable (_ ∧ _))

/-- `out` is what the call prints of the record it finds. -/
def PidOk (k : Kernel) (pid : Word) (out : Proc → List String) (o : Call) : Prop :=
  ((∀ q, ¬ k.Named pid q) → o.ret = -1 ∧ o.kernel = k) ∧
    ∀ q, k.Named pid q → o.deref = some (some q) ∧ o.out = out (k.proc q) ∧ ∃ x, o.kernel = k.setProc q x

def FirstNamed (k : Kernel) (pid : Word) : Prop :=
  ∀ p, (k.proc p).pid = pid → (∀ q < p, (k.proc q).pid ≠ pid) →
    k.Named pid p ∧ ∀ q, k.Named pid q → q = p

theorem getProcByPid_isSome (h : (k.proc q).pid = pid) : ∃ p, k.getProcByPid pid = some p := by
  rw [← Option.isSome_iff_exists, getProcByPid, List.find?_isSome]
  exact ⟨q, List.mem_finRange q, by simp [h]⟩

theorem setProc_same (k : Kernel) (p : Slot) : k.setProc p (k.proc p) = k := by
  simp [setProc]

def Through (k : Kernel) (pid : Word) (out : Proc → List String) (o : Call) : Prop :=
  ∀ p, k.getProcByPid pid = some p →
    o.ret = 0 ∧ o.deref = some (some p) ∧ o.out = out (k.proc p) ∧ ∃ x, o.kernel = k.setProc p x

theorem Through.firstNamed (ho : k.Through pid out o) (h : k.PidOk pid out o) : k.FirstNamed pid := by
  intro p hp hfirst
  obtain ⟨hret, hderef, -⟩ := ho p (getProcByPid_eq_some_iff.mpr ⟨hp, hfirst⟩)
  have honly : ∀ q, k.Named pid q → q = p := by
    intro q hq
    have := (h.2 q hq).1
    rw [hderef] at this
    simpa using this.symm
  have hsome : ∃ q, k.Named pid q := by
    by_contra hnone
    have := (h.1 (not_exists.mp hnone)).1
    rw [hret] at this
    exact absurd this (by decide)
  obtain ⟨q, hq⟩ := hsome
  exact ⟨honly q hq ▸ hq, honly⟩

theorem FirstNamed.touches (h : k.FirstNamed pid) (ho : k.Through pid out o) (hq : k.Named pid q) :
    o.deref = some (some q) ∧ o.out = out (k.proc q) ∧ ∃ x, o.kernel = k.setProc q x := by
  obtain ⟨p, hp⟩ := getProcByPid_isSome hq.2
  obtain ⟨hpid, hfirst⟩ := getProcByPid_eq_some_iff.mp hp
  obtain rfl := (h p hpid hfirst).2 q hq
  exact (ho q hp).2

theorem pidOk_checked (ho : k.Through pid out o)
    (hnone : k.getProcByPid pid = none → o.ret = -1 ∧ o.kernel = k) :
    k.PidOk pid out o ↔ k.FirstNamed pid := by
  refine ⟨ho.firstNamed, fun h => ⟨fun hno => hnone ?_, fun q hq => h.touches ho hq⟩⟩
  cases hfind : k.getProcByPid pid with
  | none => rfl
  | some p =>
    obtain ⟨hpid, hfirst⟩ := getProcByPid_eq_some_iff.mp hfind
    exact absurd (h p hpid hfirst).1 (hno p)

theorem pidOk_unchecked (ho : k.Through pid out o) (hret : o.ret = 0) :
    k.PidOk pid out o ↔ k.FirstNamed pid ∧ ∃ q, k.Named pid q := by
  constructor
  · intro h
    refine ⟨ho.firstNamed h, ?_⟩
    by_contra hnone
    have := (h.1 (not_exists.mp hnone)).1
    rw [hret] at this
    exact absurd this (by decide)
  · rintro ⟨h, q, hq⟩
    exact ⟨fun hno => absurd hq (hno q), fun q hq => h.touches ho hq⟩

theorem through_report (out : Proc → List String) : k.Through pid out (Call.report k pid out) := by
  intro p hp
  simp only [Call.report, hp]
  exact ⟨trivial, trivial, trivial, _, (k.setProc_same p).symm⟩

theorem pidOk_report (out : Proc → List String) :
    k.PidOk pid out (Call.report k pid out) ↔ k.FirstNamed pid :=
  pidOk_checked (through_report out) fun h => by simp [Call.report, h]

theorem pidOk_kill : k.PidOk pid (fun _ => []) (Call.kill k pid) ↔ k.FirstNamed pid := by
  refine pidOk_checked (fun p hp => ?_) fun h => by simp [Call.kill, h]
  simp only [Call.kill, kill, hp]
  exact ⟨trivial, trivial, trivial, _, rfl⟩

theorem pidOk_changeQueue (target : Word) :
    k.PidOk pid (fun _ => []) (Call.changeQueue k pid target) ↔ k.FirstNamed pid ∧ ∃ q, k.Named pid q := by
  refine pidOk_unchecked (fun p hp => ?_) rfl
  simp only [Call.changeQueue, Call.store, changeQueue, hp]
  exact ⟨trivial, trivial, trivial, _, rfl⟩

theorem pidOk_setInitialBurstConfidence (burst confidence : Word) :
    k.PidOk pid (fun _ => Call.burstLine pid burst confidence)
      (Call.setInitialBurstConfidence k pid burst confidence) ↔ k.FirstNamed pid ∧ ∃ q, k.Named pid q := by
  refine pidOk_unchecked (fun p hp => ?_) rfl
  simp only [Call.setInitialBurstConfidence, Call.store, setInitialBurstConfidence, hp]
  exact ⟨trivial, trivial, trivial, _, rfl⟩

theorem pid_calls_iff (k : Kernel) (pid : Word) :
    (k.PidOk pid (fun _ => []) (Call.kill k pid) ↔ k.FirstNamed pid) ∧
      (k.PidOk pid Call.sortedLines (Call.sortSyscalls k pid) ↔ k.FirstNamed pid) ∧
      (k.PidOk pid Call.mostInvokedLine (Call.getMostInvokedSyscall k pid) ↔ k.FirstNamed pid) ∧
      (∀ target, k.PidOk pid (fun _ => []) (Call.changeQueue k pid target) ↔
        k.FirstNamed pid ∧ ∃ q, k.Named pid q) ∧
      ∀ burst confidence, k.PidOk pid (fun _ => Call.burstLine pid burst confidence)
          (Call.setInitialBurstConfidence k pid burst confidence) ↔
        k.FirstNamed pid ∧ ∃ q, k.Named pid q :=
  ⟨pidOk_kill, pidOk_report _, pidOk_report _, pidOk_changeQueue, pidOk_setInitialBurstConfidence⟩

theorem pid_calls_at_boot :
    ¬ boot.PidOk 0 (fun _ => []) (Call.kill boot 0) ∧ ¬ boot.PidOk 7 (fun _ => []) (Call.changeQueue boot 7 0) := by
  have hnobody : (∀ q, ¬ boot.Named 0 q) ∧ ∀ q, ¬ boot.Named 7 q := by decide +kernel
  constructor
  · intro h
    exact absurd (h.1 hnobody.1).1 (by decide +kernel)
  · intro h
    exact absurd (h.1 hnobody.2).1 (by decide +kernel)

end Kernel

end Xv6
