import Xv6.Proc.Invariant

namespace Xv6.Kernel

open Lib

variable {k k' : Kernel} {e : Event}

def QueuesValid (k : Kernel) : Prop :=
  ∀ p, (k.proc p).state ≠ .unused → ValidQueue (k.proc p).ti.queue

/-- The condition on a step: a queue value stored for a live process is one of the three,
and a process that makes call 27 is not in the last queue. -/
def QueueSafe (k : Kernel) : Event → Prop
  | .syscall c num =>
    num = 27 → ∀ p, (k.cpus c).proc = some p → (k.proc p).ti.queue ≠ Level.fcfs.code
  | .changeQueue _ pid target =>
    ∀ p, k.getProcByPid pid = some p → (k.proc p).state ≠ .unused → ValidQueue target
  | _ => True

def InOneQueue (k : Kernel) : Prop :=
  k.QueuesValid ∧ ∀ p, (k.proc p).state = .runnable → ∃! l, (k.proc p).candidate l

theorem QueuesValid.inOneQueue (h : k.QueuesValid) : k.InOneQueue := by
  refine ⟨h, fun p hp => ?_⟩
  obtain ⟨l, hl⟩ := h p (by simp [hp])
  refine ⟨l, Proc.candidate_iff.mpr ⟨hp, hl⟩, fun m hm => ?_⟩
  exact Proc.candidate_level_unique hm (Proc.candidate_iff.mpr ⟨hp, hl⟩)

theorem inOneQueue_iff : k.InOneQueue ↔ k.QueuesValid := ⟨fun h => h.1, fun h => h.inOneQueue⟩

theorem Quiet.queuesValid (h : Quiet ValidQueue k k') (hk : k.QueuesValid) : k'.QueuesValid := by
  intro p hp
  rcases (h.slot p).queue hp with ⟨hlive, heq⟩ | hv
  · rw [heq]
    exact hk p hlive
  · exact hv

theorem Leave.queuesValid (h : Leave ValidQueue c p k k')
    (hp : (k.proc p).state ≠ .unused) (hk : k.QueuesValid) : k'.QueuesValid := by
  intro q hq
  by_cases hqp : q = p
  · subst hqp
    rw [h.ti]
    exact hk q hp
  · rcases (h.slot q hqp).queue hq with ⟨hlive, heq⟩ | hv
    · rw [heq]
      exact hk q hlive
    · exact hv

theorem queuesValid_setProc_iff (hk : k.QueuesValid) :
    (k.setProc p q).QueuesValid ↔ (q.state ≠ .unused → ValidQueue q.ti.queue) := by
  constructor
  · intro h
    have hp := h p
    rwa [setProc_self] at hp
  · intro h r
    by_cases hrp : r = p
    · subst hrp
      rwa [setProc_self]
    · rw [setProc_of_ne _ _ hrp]
      exact hk r

theorem schedule_queuesValid (c : Fin ncpu) (hk : k.QueuesValid) : (k.schedule c).QueuesValid := by
  cases hd : k.decision c with
  | refill =>
    rw [schedule_of_refill hd]
    exact hk
  | dispatch l p =>
    obtain ⟨-, hqueue⟩ := Proc.candidate_iff.mp (decision_candidate hd)
    rw [schedule_of_dispatch hd]
    exact (queuesValid_setProc_iff (p := p) hk).mpr fun _ => ⟨l, hqueue⟩

theorem chargeTick_queuesValid (hk : k.QueuesValid)
    (hp : (k.proc p).state = .running) : (k.chargeTick c p).QueuesValid := by
  have hqueue : ValidQueue (k.proc p).ti.queue := hk p (by simp [hp])
  unfold chargeTick
  simp only
  set x := (k.cpus c).updateRemainTimes (k.proc p).ti.queue
  have hcpu : (k.setCpu c x).QueuesValid := hk
  split
  · refine (leave_yield _ c p).queuesValid ?_ ((queuesValid_setProc_iff hcpu).mpr fun _ => hqueue)
    simp [setProc, hp]
  · exact (queuesValid_setProc_iff hcpu).mpr fun _ => hqueue

theorem validQueue_add_one (h : ValidQueue w) :
    ValidQueue (w + 1) ↔ w ≠ Level.fcfs.code := by
  obtain ⟨l, rfl⟩ := h
  cases l with
  | rr => exact ⟨fun _ => by decide, fun _ => ⟨.sjf, by decide⟩⟩
  | sjf => exact ⟨fun _ => by decide, fun _ => ⟨.fcfs, by decide⟩⟩
  | fcfs =>
    constructor
    · rintro ⟨l, hl⟩
      cases l <;> exact absurd hl (by decide)
    · intro h
      exact absurd rfl h

theorem syscall_queuesValid_iff (hk : k.QueuesValid)
    (hp : (k.cpus c).proc = some p) (hrun : (k.proc p).state = .running) (hacc : accepted num) :
    (k.setProc p ((k.proc p).countSyscall num)).QueuesValid ↔ k.QueueSafe (.syscall c num) := by
  have hqueue : ValidQueue (k.proc p).ti.queue := hk p (by simp [hrun])
  rw [queuesValid_setProc_iff hk, Proc.countSyscall_state, hrun, Proc.countSyscall_queue _ hacc]
  simp only [QueueSafe, hp, Option.some.injEq, forall_eq', ne_eq, reduceCtorEq, not_false_eq_true,
    true_implies]
  split
  case isTrue h => simp only [h, true_implies, validQueue_add_one hqueue, ne_eq]
  case isFalse h => exact iff_of_true hqueue fun h' => absurd h' h

theorem changeQueue_queuesValid_iff (hk : k.QueuesValid) :
    (k.changeQueue pid target).QueuesValid ↔ k.QueueSafe (.changeQueue c pid target) := by
  unfold changeQueue
  simp only [QueueSafe]
  split
  case h_1 p hp =>
    -- an unused slot may hold anything: `allocproc` overwrites it
    simp only [hp, Option.some.injEq, forall_eq', queuesValid_setProc_iff hk]
  case h_2 hnone => simp [hnone, hk]

theorem Idle.queueSafe (h : k.Idle e) : k.QueueSafe e := by
  cases e <;> trivial

theorem Effect.queuesValid_iff (h : Effect k e k') (hproper : k.Proper) (hk : k.QueuesValid) :
    k'.QueuesValid ↔ k.QueueSafe e := by
  have hclock (c : Fin ncpu) : (k.clock c).QueuesValid := (k.quiet_clock c).queuesValid hk
  cases h with
  | schedule _ => exact iff_of_true (schedule_queuesValid _ hk) trivial
  | charge _ hrun _ => exact iff_of_true (chargeTick_queuesValid (hclock _) hrun) trivial
  | syscall hp hacc _ => exact syscall_queuesValid_iff hk hp (hproper.running _ _ hp) hacc
  | changeQueue => exact changeQueue_queuesValid_iff hk
  | leave hidle hquiet hp hleave =>
    have hrun := (hquiet.proper hproper).running _ _ hp
    exact iff_of_true (hleave.queuesValid (by simp [hrun]) (hquiet.queuesValid hk)) hidle.queueSafe
  | quiet hidle hquiet => exact iff_of_true (hquiet.queuesValid hk) hidle.queueSafe

theorem boot_queuesValid : boot.QueuesValid :=
  zero.quiet_userinit.queuesValid fun _ hp => absurd rfl hp

/-- No process falls out of the scheduler, in any run from boot, exactly when every queue
value stored for a live process is valid and call 27 is never made from the last queue.
`change_queue` looks up and stores in one step here.  Where they are two steps, as in `Smp`, a
slot that is free at the lookup may be taken before the store, and this is not enough. -/
theorem inOneQueue_always_iff {es : List (Kernel × Event)} (h : Run Step boot es k) :
    Run.Always InOneQueue es k ↔ ∀ e ∈ es, QueueSafe e.1 e.2 := by
  have hiff := h.always_iff (A := Proper) (P := QueuesValid) (C := QueueSafe)
    (fun _ _ _ hstep haux _ _ => (step_effect hstep).proper haux)
    (fun _ _ _ hstep haux hk => (step_effect hstep).queuesValid_iff haux hk)
    boot_proper boot_queuesValid
  rw [← hiff]
  simp only [Run.Always, inOneQueue_iff]

theorem inOneQueue_always_of_valid_target :
    let es := trace step boot [.schedule 0, .schedule 0, .changeQueue 0 1 Level.sjf.code]
    ∃ k, Run Step boot es k ∧ Run.Always InOneQueue es k := by
  intro es
  obtain ⟨k, hrun, -⟩ := Run.of_exec_any step boot
    [.schedule 0, .schedule 0, .changeQueue 0 1 Level.sjf.code] (fun _ => true) (by decide +kernel)
  refine ⟨k, hrun, (inOneQueue_always_iff hrun).mpr fun e he => ?_⟩
  have hmem := mem_trace he
  simp only [List.mem_cons, List.not_mem_nil, or_false] at hmem
  rcases hmem with h | h | h
  · rw [h]; trivial
  · rw [h]; trivial
  · rw [h]; exact fun _ _ _ => ⟨.sjf, rfl⟩

theorem inOneQueue_fails_of_invalid_target :
    ∃ k, Run Step boot (trace step boot [.schedule 0, .schedule 0, .changeQueue 0 1 7]) k ∧
      ¬ k.InOneQueue := by
  obtain ⟨k, hrun, hk⟩ := Run.of_exec_any step boot [.schedule 0, .schedule 0, .changeQueue 0 1 7]
    (fun k => decide ((k.proc 0).state = .running ∧ (k.proc 0).ti.queue = 7)) (by decide +kernel)
  obtain ⟨hstate, hqueue⟩ := of_decide_eq_true hk
  refine ⟨k, hrun, fun h => ?_⟩
  obtain ⟨l, hl⟩ := h.1 0 (by simp [hstate])
  rw [hqueue] at hl
  cases l <;> exact absurd hl (by decide)

end Xv6.Kernel
