import Xv6.Proc.Invariant

namespace Xv6

open Function Lib

def sliceTicks : Int := (quantum / sysTick : Nat)

theorem Cpu.charge_remainTime (x : Cpu) (l q : Level) :
    (x.charge l).remainTime q = x.remainTime q - if l = q then 1 else 0 := by
  cases l <;> cases q <;> simp [Cpu.charge, Cpu.remainTime]

theorem Cpu.updateRemainTimes_remainTime (x : Cpu) (w : Word) (q : Level) :
    (x.updateRemainTimes w).remainTime q =
      x.remainTime q - if Level.ofCode w = some q then 1 else 0 := by
  unfold Cpu.updateRemainTimes
  split
  case h_1 l hl => simp [hl, Cpu.charge_remainTime]
  case h_2 hl => simp [hl]

namespace Kernel

variable {k k' : Kernel} {e : Event} {c d : Fin ncpu} {p : Slot} {q : Level}

def slice (k : Kernel) (c : Fin ncpu) : Option Int :=
  (k.cpus c).proc.map fun p => (k.proc p).ti.ticksUsed.toInt

theorem slice_eq_some (h : k.slice c = some u) :
    ∃ p, (k.cpus c).proc = some p ∧ (k.proc p).ti.ticksUsed.toInt = u := by
  simpa [slice] using h

theorem slice_of_proc (h : (k.cpus c).proc = some p) :
    k.slice c = some (k.proc p).ti.ticksUsed.toInt := by
  rw [slice, h, Option.map_some]

def SliceGrows (c : Fin ncpu) (k k' : Kernel) : Prop :=
  ∀ u', k'.slice c = some u' → ∃ u, k.slice c = some u ∧ u ≤ u'

inductive CpuStep (c : Fin ncpu) (k : Kernel) (e : Event) (k' : Kernel) : Prop
  | refill : k.decided c e = some .refill → CpuStep c k e k'
  | dispatch (l p) : k.decided c e = some (.dispatch l p) → k.chargedTo c e = none →
      (∀ q, (k'.cpus c).remainTime q = (k.cpus c).remainTime q) →
      (∀ u, k'.slice c = some u → 0 ≤ u) → CpuStep c k e k'
  | tick (u) : k.decided c e = none →
      (∀ q, (k'.cpus c).remainTime q =
        (k.cpus c).remainTime q - if k.chargedTo c e = some q then 1 else 0) →
      k.slice c = some u → (k'.slice c = none ∨ u < sliceTicks ∧ k'.slice c = some (u + 1)) →
      CpuStep c k e k'
  | keep : k.decided c e = none → k.chargedTo c e = none →
      (∀ q, (k'.cpus c).remainTime q = (k.cpus c).remainTime q) → SliceGrows c k k' →
      CpuStep c k e k'

theorem sliceGrows_of_cpus (hcpus : k'.cpus c = k.cpus c)
    (hle : ∀ p, (k.cpus c).proc = some p →
      (k.proc p).ti.ticksUsed.toInt ≤ (k'.proc p).ti.ticksUsed.toInt) : SliceGrows c k k' := by
  intro u' hu'
  obtain ⟨p, hp, rfl⟩ := slice_eq_some hu'
  rw [hcpus] at hp
  exact ⟨_, slice_of_proc hp, hle p hp⟩

theorem sliceGrows_of_none (h : (k'.cpus c).proc = none) : SliceGrows c k k' := by
  intro u' hu'
  obtain ⟨p, hp, -⟩ := slice_eq_some hu'
  rw [h] at hp
  cases hp

theorem SlotStep.ticksUsed_of_running (h : SlotStep V a b)
    (ha : a.state = .running) : b.ti.ticksUsed = a.ti.ticksUsed := by
  rcases h.ticksUsed with heq | ⟨-, hne⟩
  · exact heq
  · exact absurd ha hne

theorem Quiet.slice (h : Quiet V k k') (hk : k.Proper) (c : Fin ncpu) :
    k'.slice c = k.slice c := by
  unfold Kernel.slice
  rw [h.cpus]
  cases hp : (k.cpus c).proc with
  | none => rw [Option.map_none, Option.map_none]
  | some p =>
    have hrun := hk.running c p hp
    rw [Option.map_some, Option.map_some, SlotStep.ticksUsed_of_running (h.slot p) hrun]

theorem Quiet.cpuStep (h : Quiet V k k') (hk : k.Proper)
    (hd : k.decided c e = none) (hc : k.chargedTo c e = none) : CpuStep c k e k' := by
  refine .keep hd hc (fun q => by rw [h.cpus]) fun u' hu' => ?_
  rw [h.slice hk] at hu'
  exact ⟨u', hu', le_rfl⟩

theorem Leave.sliceGrows (h : Leave V d p k k') (hk : k.Proper)
    (hp : (k.cpus d).proc = some p) : SliceGrows c k k' := by
  by_cases hc : c = d
  · subst hc
    exact sliceGrows_of_none (by rw [h.cpus, update_self])
  · refine sliceGrows_of_cpus (by rw [h.cpus, update_of_ne hc]) fun r hr => ?_
    have hrp : r ≠ p := by
      rintro rfl
      exact hc (hk.alone c d r hr hp)
    rw [SlotStep.ticksUsed_of_running (h.slot r hrp) (hk.running c r hr)]

theorem Leave.remainTime (h : Leave V d p k k') :
    (k'.cpus c).remainTime q = (k.cpus c).remainTime q := by
  rw [h.cpus]
  by_cases hc : c = d
  · subst hc
    rw [update_self]
    cases q <;> rfl
  · rw [update_of_ne hc]

theorem schedule_ti (k : Kernel) (d : Fin ncpu) (p : Slot) :
    ((k.schedule d).proc p).ti = (k.proc p).ti := by
  cases hd : k.decision d with
  | refill => rw [schedule_of_refill hd, setCpu_proc]
  | dispatch l r =>
    rw [schedule_of_dispatch hd, setCpu_proc]
    by_cases hp : p = r
    · subst hp
      simp [runProcessOnCpu]
    · simp [runProcessOnCpu, hp]

theorem schedule_cpuStep (hk : k.Proper) : CpuStep c k (.schedule d) (k.schedule d) := by
  by_cases hdc : d = c
  · subst hdc
    cases hd : k.decision d with
    | refill => exact .refill (by rw [decided_schedule, hd])
    | dispatch l p =>
      refine .dispatch l p (by rw [decided_schedule, hd]) rfl (fun q => ?_) fun u hu => ?_
      · rw [schedule_of_dispatch hd, setCpu_self]
        cases q <;> rfl
      · obtain ⟨r, -, rfl⟩ := slice_eq_some hu
        rw [schedule_ti]
        exact hk.ticksUsed r
  · have hother : (k.schedule d).cpus c = k.cpus c := setCpu_of_ne _ _ (Ne.symm hdc)
    refine .keep (by simp [decided, hdc]) rfl (fun q => by rw [hother]) ?_
    exact sliceGrows_of_cpus hother fun p _ => by rw [schedule_ti]

theorem chargeTick_cpus_of_ne (hcd : c ≠ d) : (k.chargeTick d p).cpus c = k.cpus c := by
  unfold chargeTick
  simp only
  split
  · rw [yield, leaveCpu, setCpu_of_ne _ _ hcd]
    exact setCpu_of_ne _ _ hcd
  · exact setCpu_of_ne _ _ hcd

theorem chargeTick_remainTime (k : Kernel) (c : Fin ncpu) (p : Slot) (q : Level) :
    ((k.chargeTick c p).cpus c).remainTime q =
      (k.cpus c).remainTime q - if Level.ofCode (k.proc p).ti.queue = some q then 1 else 0 := by
  rw [← Cpu.updateRemainTimes_remainTime]
  unfold chargeTick
  simp only
  split
  · rw [yield, leaveCpu, setCpu_self, setProc_cpus, setProc_cpus, setCpu_self]
    cases q <;> rfl
  · rw [setProc_cpus, setCpu_self]

theorem chargeTick_slice (hp : (k.cpus c).proc = some p) :
    (k.chargeTick c p).slice c = none ∨
      (k.proc p).ti.ticksUsed.toInt < sliceTicks ∧
        (k.chargeTick c p).slice c = some ((k.proc p).ti.ticksUsed.toInt + 1) := by
  unfold chargeTick
  simp only
  split
  case isTrue => exact .inl (by rw [slice, yield, leaveCpu, setCpu_self, Option.map_none])
  case isFalse hlt =>
    have hlt : (k.proc p).ti.ticksUsed.toInt < sliceTicks := not_le.mp hlt
    refine .inr ⟨hlt, ?_⟩
    have hproc : (((k.setCpu c ((k.cpus c).updateRemainTimes (k.proc p).ti.queue))).cpus c).proc =
        some p := by
      rw [setCpu_self, updateRemainTimes_proc, hp]
    rw [slice_of_proc (p := p) (by rw [setProc_cpus, hproc]), setProc_self, toInt_add_one]
    intro hmax
    rw [hmax] at hlt
    exact absurd hlt (by decide)

theorem charge_cpuStep (hk : (k.clock d).Proper)
    (hp : ((k.clock d).cpus d).proc = some p)
    (hc : k.chargedTo d (.timer d user) = Level.ofCode ((k.clock d).proc p).ti.queue)
    (hproper : k.Proper) : CpuStep c k (.timer d user) ((k.clock d).chargeTick d p) := by
  have hquiet := k.quiet_clock d
  have hslice := hquiet.slice hproper
  by_cases hdc : d = c
  · subst hdc
    refine .tick ((k.clock d).proc p).ti.ticksUsed.toInt rfl (fun q => ?_) ?_ (chargeTick_slice hp)
    · rw [chargeTick_remainTime, hc, hquiet.cpus]
    · rw [← hslice d, slice_of_proc hp]
  · have hcd : c ≠ d := Ne.symm hdc
    refine .keep rfl (by simp [chargedTo, hdc]) (fun q => ?_) fun u hu => ?_
    · rw [chargeTick_cpus_of_ne hcd, hquiet.cpus]
    · have hgrow : SliceGrows c (k.clock d) ((k.clock d).chargeTick d p) := by
        refine sliceGrows_of_cpus (chargeTick_cpus_of_ne hcd) fun r hr => ?_
        have hrp : r ≠ p := by
          rintro rfl
          exact hcd (hk.alone c d r hr hp)
        rw [chargeTick_proc_of_ne hrp]
      rw [← hslice c]
      exact hgrow u hu

theorem syscall_sliceGrows (hp : (k.cpus d).proc = some p) (hacc : accepted num)
    (hword : (k.proc p).word (num.toNat - 1) ≠ BitVec.intMax 32) :
    SliceGrows c k (k.setProc p ((k.proc p).countSyscall num)) := by
  refine sliceGrows_of_cpus rfl fun r _ => ?_
  by_cases hrp : r = p
  · subst hrp
    rw [setProc_self, Proc.countSyscall_ticksUsed _ hacc]
    split
    case isTrue h28 =>
      subst h28
      have hmax : (k.proc r).ti.ticksUsed ≠ BitVec.intMax 32 := hword
      rw [toInt_add_one hmax]
      omega
    case isFalse => exact le_rfl
  · rw [setProc_of_ne _ _ hrp]

theorem Idle.decided (h : k.Idle e) : k.decided c e = none := by
  cases e with
  | schedule _ => exact h.elim
  | _ => rfl

theorem Idle.chargedTo (h : k.Idle e) : k.chargedTo c e = none := by
  cases e with
  | schedule _ | syscall _ _ | changeQueue _ _ _ => exact h.elim
  | _ => exact h c

theorem Effect.cpuStep (h : Effect k e k') (hk : k.Proper) (c : Fin ncpu) : CpuStep c k e k' := by
  cases h with
  | schedule _ => exact schedule_cpuStep hk
  | charge hp _ hc => exact charge_cpuStep ((k.quiet_clock _).proper hk) hp hc hk
  | syscall hp hacc hword => exact .keep rfl rfl (fun _ => rfl) (syscall_sliceGrows hp hacc hword)
  | changeQueue => exact (k.quiet_changeQueue (V := fun _ => True) _ trivial).cpuStep hk rfl rfl
  | leave hidle hquiet hp hleave =>
    refine .keep hidle.decided hidle.chargedTo (fun q => ?_) fun u' hu' => ?_
    · rw [hleave.remainTime, hquiet.cpus]
    · rw [← hquiet.slice hk c]
      exact hleave.sliceGrows (hquiet.proper hk) hp u' hu'
  | quiet hidle hquiet => exact hquiet.cpuStep hk hidle.decided hidle.chargedTo

def chargedTicks (c : Fin ncpu) (q : Level) (es : List (Kernel × Event)) : Nat :=
  es.countP fun e => e.1.chargedTo c e.2 = some q

def homeAfter (c : Fin ncpu) (home : Option Level) (e : Kernel × Event) : Option Level :=
  match e.1.decided c e.2 with
  | some (.dispatch l _) => some l
  | some .refill => none
  | none => home

def homeTicks (c : Fin ncpu) (q : Level) : Option Level → List (Kernel × Event) → Nat
  | _, [] => 0
  | home, e :: es =>
    (if e.1.chargedTo c e.2 = some q ∧ home = some q then 1 else 0) +
      homeTicks c q (homeAfter c home e) es

structure Account (c : Fin ncpu) (q : Level) (home : Option Level) (own total : Nat) (k : Kernel) :
    Prop where
  remain : (k.cpus c).remainTime q = q.budget - total
  own_le : own ≤ total
  bound : own ≤ q.budget + sliceTicks
  running : home = some q → ∀ u, k.slice c = some u → own + 1 ≤ q.budget + min u sliceTicks

theorem step_account (h : Step k e k') (hk : k.Proper)
    (hne : k.decided c e ≠ some .refill) (hacc : Account c q home own total k) :
    Account c q (homeAfter c home (k, e))
      (own + if k.chargedTo c e = some q ∧ home = some q then 1 else 0)
      (total + if k.chargedTo c e = some q then 1 else 0) k' := by
  obtain ⟨hremain, hle, hbound, hrunning⟩ := hacc
  cases (step_effect h).cpuStep hk c with
  | refill hd => exact absurd hd hne
  | dispatch l p hd hc hsame hnonneg =>
    simp only [homeAfter, hd, hc, reduceCtorEq, false_and, if_false, Nat.add_zero]
    refine ⟨by rw [hsame, hremain], hle, hbound, ?_⟩
    rintro hl u hu
    obtain ⟨hready, -, -⟩ := decision_eq_dispatch_iff.mp (decided_eq_some hd).2
    have hpos : 0 < (k.cpus c).remainTime q := by
      cases hl
      exact hready.1
    have hu0 := hnonneg u hu
    have hs : (0 : Int) ≤ sliceTicks := by decide
    omega
  | tick u hd hrem hu hu' =>
    simp only [homeAfter, hd]
    have hfive : (0 : Int) ≤ sliceTicks := by decide
    refine ⟨?_, ?_, ?_, ?_⟩
    · rw [hrem, hremain]
      split <;> omega
    · have hdelta : (if k.chargedTo c e = some q ∧ home = some q then 1 else 0) ≤
          if k.chargedTo c e = some q then 1 else 0 := by
        by_cases hone : k.chargedTo c e = some q
        · simp only [hone, true_and, if_true]
          split <;> omega
        · simp [hone]
      omega
    · split
      case isTrue hhome =>
        have := hrunning hhome.2 u hu
        omega
      case isFalse => omega
    · intro hhome v hv
      have hown := hrunning hhome u hu
      rcases hu' with hnone | ⟨hlt, hsome⟩
      · rw [hnone] at hv
        cases hv
      · rw [hsome] at hv
        cases hv
        split <;> omega
  | keep hd hc hsame hgrow =>
    simp only [homeAfter, hd, hc, reduceCtorEq, false_and, if_false, Nat.add_zero]
    refine ⟨by rw [hsame, hremain], hle, hbound, fun hhome u' hu' => ?_⟩
    obtain ⟨u, hu, hle⟩ := hgrow u' hu'
    have := hrunning hhome u hu
    omega

theorem run_account
    (h : Run Step k es k') (hk : k.Proper) (hne : ∀ e ∈ es, e.1.decided c e.2 ≠ some .refill)
    (hacc : Account c q home own total k) :
    ∃ home', Account c q home' (own + homeTicks c q home es) (total + chargedTicks c q es) k' := by
  induction h generalizing home own total with
  | nil => exact ⟨home, by simpa [homeTicks, chargedTicks] using hacc⟩
  | @cons k e k₁ es k' hstep _ ih =>
    obtain ⟨hhead, htail⟩ := List.forall_mem_cons.mp hne
    obtain ⟨home', hacc'⟩ := ih ((step_effect hstep).proper hk) htail
      (step_account hstep hk hhead hacc)
    refine ⟨home', ?_⟩
    have hcharged : chargedTicks c q ((k, e) :: es) =
        (if k.chargedTo c e = some q then 1 else 0) + chargedTicks c q es := by
      rw [chargedTicks, List.countP_cons, Nat.add_comm]
      simp [chargedTicks]
    rw [hcharged, homeTicks, ← Nat.add_assoc, ← Nat.add_assoc]
    exact hacc'

theorem account_of_refill (h : Step k e k') (hd : k.decided c e = some .refill) (q : Level) :
    Account c q none 0 0 k' := by
  rw [step_decided h hd, schedule_of_refill (decided_eq_some hd).2]
  have hpos := q.budget_pos
  have hslice : (0 : Int) ≤ sliceTicks := by decide
  refine ⟨?_, le_rfl, ?_, fun h => by cases h⟩
  · rw [setCpu_self, refill_remainTime, Nat.cast_zero, sub_zero]
  · rw [Nat.cast_zero]
    omega

theorem homeTicks_le_budget_add_slice {es₁ es₂ : List (Kernel × Event)} {k₀ k₁ : Kernel}
    (h₁ : Run Step boot es₁ k₀) (hd : k₀.decided c e = some .refill) (hstep : Step k₀ e k₁)
    (h₂ : Run Step k₁ es₂ k) (hne : ∀ e ∈ es₂, e.1.decided c e.2 ≠ some .refill) (q : Level) :
    homeTicks c q none es₂ ≤ q.budget + sliceTicks ∧
      homeTicks c q none es₂ ≤ chargedTicks c q es₂ ∧
      (k.cpus c).remainTime q = q.budget - chargedTicks c q es₂ := by
  have hproper : k₁.Proper :=
    (h₁.append (.single hstep)).invariant_of_step (fun _ _ _ h => (step_effect h).proper) boot_proper
  obtain ⟨home, hacc⟩ := run_account h₂ hproper hne (account_of_refill hstep hd q)
  simp only [Nat.zero_add] at hacc
  exact ⟨hacc.bound, hacc.own_le, hacc.remain⟩

theorem homeTicks_le_budget_of_first_slice :
    let events := .schedule 0 :: (List.replicate 6 (.timer 0 true) ++ [.schedule 0, .timer 0 true])
    ∃ k₁ k, Step boot (.schedule 0) k₁ ∧ Run Step k₁ (trace step k₁ events) k ∧
      homeTicks 0 .rr none (trace step k₁ events) ≤ Level.rr.budget + sliceTicks := by
  intro events
  obtain ⟨k₁, hk₁, h⟩ := (Option.any_eq_true _ _).mp
    (show (step boot (.schedule 0)).any (fun k₁ => (exec step k₁ events).isSome &&
      decide (∀ e ∈ trace step k₁ events, e.1.decided 0 e.2 ≠ some .refill)) by decide +kernel)
  simp only [Bool.and_eq_true, decide_eq_true_eq] at h
  obtain ⟨k, hk⟩ := Option.isSome_iff_exists.mp h.1
  have hd : boot.decided 0 (.schedule 0) = some .refill := by decide +kernel
  exact ⟨k₁, k, hk₁, Run.of_exec hk,
    (homeTicks_le_budget_add_slice .nil hd hk₁ (Run.of_exec hk) h.2 .rr).1⟩

def hop : List Event :=
  [.schedule 0, .syscall 0 28, .changeQueue 0 1 Level.fcfs.code] ++ .replicate 3 (.timer 0 true) ++
    [.syscall 0 28, .changeQueue 0 1 Level.rr.code, .timer 0 true]

def hops : List Event := (List.replicate 4 hop).flatten

theorem chargedTicks_exceeds_budget :
    boot.decided 0 (.schedule 0) = some .refill ∧
    ∃ k₁ k, Step boot (.schedule 0) k₁ ∧ Run Step k₁ (trace step k₁ hops) k ∧
      (∀ e ∈ trace step k₁ hops, e.1.decided 0 e.2 ≠ some .refill) ∧
      Level.fcfs.budget < chargedTicks 0 .fcfs (trace step k₁ hops) ∧
      (k.cpus 0).remainTime .fcfs < 0 := by
  obtain ⟨k₁, hk₁, h⟩ := (Option.any_eq_true _ _).mp
    (show (step boot (.schedule 0)).any (fun k₁ =>
      (exec step k₁ hops).any (fun k => decide ((k.cpus 0).remainTime .fcfs < 0)) &&
      decide (∀ e ∈ trace step k₁ hops, e.1.decided 0 e.2 ≠ some .refill) &&
      decide (Level.fcfs.budget < chargedTicks 0 .fcfs (trace step k₁ hops))) by decide +kernel)
  simp only [Bool.and_eq_true, decide_eq_true_eq, Option.any_eq_true] at h
  obtain ⟨⟨⟨k, hk, hneg⟩, hne⟩, hlt⟩ := h
  have hd : boot.decided 0 (.schedule 0) = some .refill := by decide +kernel
  exact ⟨hd, k₁, k, hk₁, Run.of_exec hk, hne, hlt, hneg⟩

end Kernel

end Xv6
