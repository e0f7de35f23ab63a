import Xv6.Lib.Run
import Xv6.Proc.Kernel

namespace Xv6

def ValidQueue (w : Word) : Prop := ∃ l : Level, w = l.code

/-- How a slot may change while its process is not the one taking the step.  `V` bounds the
queue values stored. -/
structure SlotStep (V : Word → Prop) (a b : Proc) : Prop where
  queue : b.state ≠ .unused → (a.state ≠ .unused ∧ b.ti.queue = a.ti.queue) ∨ V b.ti.queue
  running : b.state = .running ↔ a.state = .running
  ticksUsed : b.ti.ticksUsed = a.ti.ticksUsed ∨ (b.ti.ticksUsed = 0 ∧ a.state ≠ .running)

namespace SlotStep

theorem refl (a : Proc) : SlotStep V a a := ⟨fun h => .inl ⟨h, rfl⟩, .rfl, .inl rfl⟩

theorem trans (h : SlotStep V a b) (h' : SlotStep V b c) : SlotStep V a c where
  queue hc := by
    rcases h'.queue hc with ⟨hb, heq⟩ | hv
    · rw [heq]
      exact h.queue hb
    · exact .inr hv
  running := h'.running.trans h.running
  ticksUsed := by
    rcases h'.ticksUsed with heq | ⟨h0, hb⟩
    · rw [heq]
      exact h.ticksUsed
    · exact .inr ⟨h0, fun ha => hb (h.running.mpr ha)⟩

end SlotStep

structure Nudge (a b : Proc) : Prop where
  ti : b.ti = a.ti
  unused : b.state = .unused ↔ a.state = .unused
  running : b.state = .running ↔ a.state = .running

namespace Nudge

theorem refl (a : Proc) : Nudge a a := ⟨rfl, .rfl, .rfl⟩

theorem trans (h : Nudge a b) (h' : Nudge b c) : Nudge a c :=
  ⟨h'.ti.trans h.ti, h'.unused.trans h.unused, h'.running.trans h.running⟩

theorem slotStep (h : Nudge a b) : SlotStep V a b :=
  ⟨fun hb => .inl ⟨fun ha => hb (h.unused.mpr ha), by rw [h.ti]⟩, h.running, .inl (by rw [h.ti])⟩

end Nudge

theorem SlotStep.of_unused (hti : b.ti = a.ti) (hb : b.state = .unused)
    (ha : a.state ≠ .running) : SlotStep V a b :=
  ⟨fun h => absurd hb h, by simp [hb, ha], .inl (by rw [hti])⟩

theorem wakeup1_nudge (t : Table) (chan : Chan) (p : Slot) : Nudge (t p) (wakeup1 t chan p) := by
  unfold wakeup1
  split
  case isTrue h => exact ⟨rfl, by simp [h.1], by simp [h.1]⟩
  case isFalse => exact .refl _

namespace Kernel

variable {k k' : Kernel}

structure Quiet (V : Word → Prop) (k k' : Kernel) : Prop where
  cpus : k'.cpus = k.cpus
  slot : ∀ p, SlotStep V (k.proc p) (k'.proc p)

namespace Quiet

theorem refl (k : Kernel) : Quiet V k k := ⟨rfl, fun _ => .refl _⟩

theorem trans (h : Quiet V k k') (h' : Quiet V k' k'') : Quiet V k k'' :=
  ⟨h'.cpus.trans h.cpus, fun p => (h.slot p).trans (h'.slot p)⟩

theorem setProc (h : SlotStep V (k.proc p) q) : Quiet V k (k.setProc p q) := by
  refine ⟨rfl, fun r => ?_⟩
  by_cases hr : r = p
  · subst hr
    simpa [Kernel.setProc] using h
  · simpa [Kernel.setProc, hr] using SlotStep.refl (V := V) (k.proc r)

end Quiet

theorem quiet_wakeup (k : Kernel) (chan : Chan) : Quiet V k (k.wakeup chan) :=
  ⟨rfl, fun p => (wakeup1_nudge k.proc chan p).slotStep⟩

theorem quiet_changeQueue (k : Kernel) (pid : Word) (h : V target) :
    Quiet V k (k.changeQueue pid target) := by
  unfold changeQueue
  split
  · exact .setProc ⟨fun _ => .inr h, .rfl, .inl rfl⟩
  · exact .refl k

theorem quiet_setInitialBurstConfidence (k : Kernel) (pid burst confidence : Word) :
    Quiet V k (k.setInitialBurstConfidence pid burst confidence) := by
  unfold setInitialBurstConfidence
  split
  · exact .setProc ⟨fun hlive => .inl ⟨hlive, rfl⟩, .rfl, .inl rfl⟩
  · exact .refl k

theorem quiet_kill (k : Kernel) (pid : Word) : Quiet V k (k.kill pid) := by
  unfold kill
  split
  case h_1 p _ =>
    apply Quiet.setProc
    by_cases hs : (k.proc p).state = .sleeping
    · exact Nudge.slotStep ⟨rfl, by simp [hs], by simp [hs]⟩
    · exact Nudge.slotStep ⟨rfl, by simp [hs], by simp [hs]⟩
  case h_2 => exact .refl k

theorem quiet_allocproc (k : Kernel) (kstack : Bool) :
    Quiet ValidQueue k (k.allocproc kstack).2 := by
  unfold allocproc
  split
  case h_1 => exact .refl k
  case h_2 p hp =>
    have hunused : (k.proc p).state = .unused := by simpa using List.find?_some hp
    have hpid : Quiet ValidQueue k { k with nextpid := k.nextpid + 1 } := ⟨rfl, fun _ => .refl _⟩
    cases kstack with
    | true =>
      refine hpid.trans (.setProc ?_)
      exact ⟨fun _ => .inr ⟨.fcfs, rfl⟩, by simp [hunused], .inr ⟨rfl, by simp [hunused]⟩⟩
    | false => exact hpid.trans (.setProc (.of_unused rfl rfl (by simp [hunused])))

theorem allocproc_embryo (h : (k.allocproc kstack).1 = some p) :
    (((k.allocproc kstack).2).proc p).state = .embryo := by
  unfold allocproc at h ⊢
  split at h
  case h_1 => cases h
  case h_2 q hq =>
    cases kstack with
    | true =>
      cases h
      simp [setProc]
    | false => cases h

theorem quiet_fork (k : Kernel) (curproc : Slot) (kstack pgdir : Bool) :
    Quiet ValidQueue k (k.fork curproc kstack pgdir) := by
  have halloc := k.quiet_allocproc kstack
  unfold fork
  split
  case h_1 k' hk' => simpa [hk'] using halloc
  case h_2 np k' hk' =>
    have hk : Quiet ValidQueue k k' := by simpa [hk'] using halloc
    have hembryo : (k'.proc np).state = .embryo := by
      have h : (k.allocproc kstack).1 = some np := by rw [hk']
      simpa [hk'] using allocproc_embryo h
    split
    · have hchild : Quiet ValidQueue k'
          (k'.setProc np { k'.proc np with parent := some curproc, state := .runnable }) :=
        .setProc (Nudge.slotStep ⟨rfl, by simp [hembryo], by simp [hembryo]⟩)
      simp only
      split
      · exact (hk.trans hchild).trans (quiet_changeQueue _ _ ⟨.rr, rfl⟩)
      · exact hk.trans hchild
    · exact hk.trans (.setProc (.of_unused rfl rfl (by simp [hembryo])))

theorem quiet_agingSlot (k : Kernel) (p : Slot) : Quiet ValidQueue k (k.agingSlot p) := by
  unfold agingSlot
  simp only
  split
  · exact .refl k
  · split
    · split
      · exact quiet_changeQueue _ _ ⟨.rr, rfl⟩
      · split
        · exact quiet_changeQueue _ _ ⟨.sjf, rfl⟩
        · exact .refl k
    · exact .refl k

theorem quiet_foldl_agingSlot (k : Kernel) (l : List Slot) :
    Quiet ValidQueue k (l.foldl agingSlot k) := by
  induction l generalizing k with
  | nil => exact .refl k
  | cons p l ih => exact (k.quiet_agingSlot p).trans (ih _)

theorem clock_zero (k : Kernel) :
    k.clock 0 = ({ k with ticks := k.ticks + 1 }.wakeup .ticks).aging := if_pos rfl

theorem quiet_clock (k : Kernel) (c : Fin ncpu) : Quiet ValidQueue k (k.clock c) := by
  unfold clock
  split
  · have htick : Quiet ValidQueue k { k with ticks := k.ticks + 1 } := ⟨rfl, fun _ => .refl _⟩
    exact (htick.trans (quiet_wakeup _ _)).trans (quiet_foldl_agingSlot _ _)
  · exact .refl k

structure Leave (V : Word → Prop) (c : Fin ncpu) (p : Slot) (k k' : Kernel) : Prop where
  cpus : k'.cpus = Function.update k.cpus c { k.cpus c with proc := none }
  slot : ∀ q, q ≠ p → SlotStep V (k.proc q) (k'.proc q)
  ti : (k'.proc p).ti = (k.proc p).ti
  state : (k'.proc p).state ≠ .running ∧ (k'.proc p).state ≠ .unused

theorem leave_sleep (k : Kernel) (c : Fin ncpu) (p : Slot) (chan : Chan) :
    Leave V c p k (k.sleep c p chan) where
  cpus := rfl
  slot q hq := by simpa [sleep, leaveCpu, setProc, setCpu, hq] using SlotStep.refl (V := V) (k.proc q)
  ti := by simp [sleep, leaveCpu, setProc, setCpu]
  state := by simp [sleep, leaveCpu, setProc, setCpu]

theorem leave_yield (k : Kernel) (c : Fin ncpu) (p : Slot) : Leave ValidQueue c p k (k.yield c p) where
  cpus := rfl
  slot q hq := by simpa [yield, leaveCpu, setProc, setCpu, hq] using SlotStep.refl (k.proc q)
  ti := by simp [yield, leaveCpu, setProc, setCpu]
  state := by simp [yield, leaveCpu, setProc, setCpu]

theorem wakeupParent_nudge (k : Kernel) (p q : Slot) :
    Nudge (k.proc q) ((k.wakeupParent p).proc q) := by
  unfold wakeupParent
  split
  · exact wakeup1_nudge k.proc _ q
  · exact .refl _

theorem giveToInit_nudge (k : Kernel) (p q : Slot) : Nudge (k.proc q) (k.giveToInit p q) := by
  unfold giveToInit
  split
  · exact ⟨rfl, .rfl, .rfl⟩
  · exact .refl _

theorem reparent_nudge (k : Kernel) (p q : Slot) : Nudge (k.proc q) (k.reparent p q) := by
  have hgive := k.giveToInit_nudge p q
  cases hinit : k.initproc with
  | none => simpa only [reparent, hinit] using hgive
  | some i =>
    simp only [reparent, hinit]
    split
    · exact hgive.trans (wakeup1_nudge _ _ q)
    · exact hgive

theorem leave_exit (h : k.exit c p = some k') : Leave V c p k k' := by
  unfold exit at h
  split at h
  case isTrue => cases h
  case isFalse =>
    cases h
    have hnudge : ∀ q, Nudge (k.proc q) ((k.wakeupParent p).reparent p q) := fun q =>
      (k.wakeupParent_nudge p q).trans ((k.wakeupParent p).reparent_nudge p q)
    refine ⟨rfl, fun q hq => ?_, ?_, ?_⟩
    · simpa [leaveCpu, setProc, setCpu, hq] using (hnudge q).slotStep
    · simpa [leaveCpu, setProc, setCpu] using (hnudge p).ti
    · simp [leaveCpu, setProc, setCpu]

theorem wait_cases (k : Kernel) (c : Fin ncpu) (p : Slot) :
    Leave V c p k (k.wait c p) ∨ Quiet V k (k.wait c p) := by
  unfold wait
  simp only
  split
  case h_1 q hq =>
    have hzombie : (k.proc q).state = .zombie := by
      have := List.find?_some hq
      simp at this
      exact this.2
    exact .inr (.setProc (.of_unused rfl rfl (by simp [hzombie])))
  case h_2 =>
    split
    · exact .inl (k.leave_sleep c p _)
    · exact .inr (.refl k)

structure Proper (k : Kernel) : Prop where
  running : ∀ c p, (k.cpus c).proc = some p → (k.proc p).state = .running
  alone : ∀ c d p, (k.cpus c).proc = some p → (k.cpus d).proc = some p → c = d
  ticksUsed : ∀ p, 0 ≤ (k.proc p).ti.ticksUsed.toInt

theorem SlotStep.ticksUsed_nonneg (h : SlotStep V a b)
    (ha : 0 ≤ a.ti.ticksUsed.toInt) : 0 ≤ b.ti.ticksUsed.toInt := by
  rcases h.ticksUsed with heq | ⟨h0, -⟩
  · rwa [heq]
  · rw [h0]
    decide

theorem Quiet.proper (h : Quiet V k k') (hk : k.Proper) : k'.Proper where
  running c p hp := by
    rw [h.cpus] at hp
    exact (h.slot p).running.mpr (hk.running c p hp)
  alone c d p := by
    rw [h.cpus]
    exact hk.alone c d p
  ticksUsed p := SlotStep.ticksUsed_nonneg (h.slot p) (hk.ticksUsed p)

theorem proc_of_update {cpus : Fin ncpu → Cpu} {c d : Fin ncpu} {x : Cpu} {p : Slot}
    (h : (Function.update cpus c x d).proc = some p) :
    (d = c ∧ x.proc = some p) ∨ (d ≠ c ∧ (cpus d).proc = some p) := by
  by_cases hd : d = c
  · subst hd
    exact .inl ⟨rfl, by simpa using h⟩
  · exact .inr ⟨hd, by simpa [hd] using h⟩

theorem Leave.proper (h : Leave V c p k k')
    (hp : (k.cpus c).proc = some p) (hk : k.Proper) : k'.Proper where
  running d q hq := by
    rw [h.cpus] at hq
    rcases proc_of_update hq with ⟨-, h⟩ | ⟨hd, hq⟩
    · cases h
    · have hqp : q ≠ p := by
        rintro rfl
        exact hd (hk.alone d c q hq hp)
      exact (h.slot q hqp).running.mpr (hk.running d q hq)
  alone d e q hd he := by
    rw [h.cpus] at hd he
    rcases proc_of_update hd with ⟨-, h⟩ | ⟨-, hd⟩
    · cases h
    · rcases proc_of_update he with ⟨-, h⟩ | ⟨-, he⟩
      · cases h
      · exact hk.alone d e q hd he
  ticksUsed q := by
    by_cases hq : q = p
    · subst hq
      rw [h.ti]
      exact hk.ticksUsed q
    · exact SlotStep.ticksUsed_nonneg (h.slot q hq) (hk.ticksUsed q)

theorem Proper.setProc_running (hk : k.Proper)
    (hp : (k.cpus c).proc = some p) (hstate : q.state = (k.proc p).state)
    (hticks : 0 ≤ q.ti.ticksUsed.toInt) : (k.setProc p q).Proper where
  running d r hr := by
    by_cases h : r = p
    · subst h
      simp [setProc, hstate, hk.running c r hp]
    · simpa [setProc, h] using hk.running d r hr
  alone := hk.alone
  ticksUsed r := by
    by_cases h : r = p
    · subst h
      simpa [setProc] using hticks
    · simpa [setProc, h] using hk.ticksUsed r

theorem updateRemainTimes_proc (x : Cpu) (w : Word) : (x.updateRemainTimes w).proc = x.proc := by
  unfold Cpu.updateRemainTimes
  split
  case h_1 l _ => cases l <;> rfl
  case h_2 => rfl

theorem Proper.setCpu (hk : k.Proper) (hx : x.proc = (k.cpus c).proc) :
    (k.setCpu c x).Proper := by
  have hproc : ∀ d, ((k.setCpu c x).cpus d).proc = (k.cpus d).proc := by
    intro d
    by_cases hd : d = c
    · subst hd
      simpa [Kernel.setCpu] using hx
    · simp [Kernel.setCpu, hd]
  exact ⟨fun d p hp => hk.running d p (hproc d ▸ hp),
    fun d e p hd he => hk.alone d e p (hproc d ▸ hd) (hproc e ▸ he), hk.ticksUsed⟩

theorem toInt_add_one (h : w ≠ BitVec.intMax 32) : (w + 1).toInt = w.toInt + 1 := by
  have hne : w.toNat ≠ 2147483647 := fun e => h (BitVec.eq_of_toNat_eq e)
  have hone : (1 : Word).toNat = 1 := rfl
  have hw := w.isLt
  rw [BitVec.toInt_eq_toNat_cond, BitVec.toInt_eq_toNat_cond, BitVec.toNat_add, hone]
  split <;> split <;> omega

theorem chargeTick_proc_of_ne (hrp : r ≠ p) : (k.chargeTick d p).proc r = k.proc r := by
  unfold chargeTick
  simp only
  split
  · rw [yield, leaveCpu, setCpu_proc, setProc_of_ne _ _ hrp, setProc_of_ne _ _ hrp, setCpu_proc]
  · rw [setProc_of_ne _ _ hrp, setCpu_proc]

theorem chargeTick_proper (hk : k.Proper) (hp : (k.cpus c).proc = some p) :
    (k.chargeTick c p).Proper := by
  unfold chargeTick
  simp only
  set x := (k.cpus c).updateRemainTimes (k.proc p).ti.queue with hx
  have hxp : x.proc = (k.cpus c).proc := updateRemainTimes_proc _ _
  have hk1 : (k.setCpu c x).Proper := hk.setCpu hxp
  have hp1 : ((k.setCpu c x).cpus c).proc = some p := by simpa [Kernel.setCpu] using hxp.trans hp
  split
  case isTrue =>
    set q : Proc := { k.proc p with ti := { (k.proc p).ti with ticksUsed := 0 } }
    have hq : 0 ≤ q.ti.ticksUsed.toInt := le_refl (0 : Int)
    exact (leave_yield _ c p).proper hp1 (hk1.setProc_running hp1 rfl hq)
  case isFalse hlt =>
    refine hk1.setProc_running hp1 rfl ?_
    have hnonneg := hk.ticksUsed p
    have hfive : ((quantum / sysTick : Nat) : Int) = 5 := by decide
    rw [toInt_add_one]
    · omega
    · intro h
      rw [h, hfive] at hlt
      exact hlt (by decide)

theorem schedule_of_dispatch
    (h : k.decision c = .dispatch l p) :
    k.schedule c = { k with proc := runProcessOnCpu k.proc p }.setCpu c
      { k.cpus c with
        proc := some p
        lastExecutedProc := if l = Level.rr then p else (k.cpus c).lastExecutedProc } := by
  unfold decision at h
  cases l <;> simp [schedule, schedulerIter, h, applyDecision]

theorem schedule_of_refill (h : k.decision c = .refill) :
    k.schedule c = k.setCpu c (refill (k.cpus c)) := by
  unfold decision at h
  simp [schedule, schedulerIter, h, applyDecision]

theorem decision_candidate (h : k.decision c = .dispatch l p) :
    (k.proc p).candidate l :=
  choose_candidate (decision_eq_dispatch_iff.mp h).2.1

theorem schedule_proper (c : Fin ncpu) (hk : k.Proper) : (k.schedule c).Proper := by
  cases hd : k.decision c with
  | refill =>
    rw [schedule_of_refill hd]
    exact hk.setCpu rfl
  | dispatch l p =>
    have hrunnable := (Proc.candidate_iff.mp (decision_candidate hd)).1
    have hfree : ∀ d q, (k.cpus d).proc = some q → q ≠ p := by
      rintro d q hq rfl
      simp [hk.running d q hq] at hrunnable
    rw [schedule_of_dispatch hd]
    refine ⟨fun d q hq => ?_, fun d e q hd he => ?_, fun q => ?_⟩
    · rcases proc_of_update hq with ⟨-, h⟩ | ⟨-, hq⟩
      · cases h
        simp [setCpu, runProcessOnCpu]
      · simpa [setCpu, runProcessOnCpu, hfree d q hq] using hk.running d q hq
    · rcases proc_of_update hd with ⟨hdc, h⟩ | ⟨-, hd⟩ <;>
        rcases proc_of_update he with ⟨hec, h'⟩ | ⟨-, he⟩
      · rw [hdc, hec]
      · cases h
        exact absurd rfl (hfree e p he)
      · cases h'
        exact absurd rfl (hfree d p hd)
      · exact hk.alone d e q hd he
    · by_cases hq : q = p
      · subst hq
        simpa [setCpu, runProcessOnCpu] using hk.ticksUsed q
      · simpa [setCpu, runProcessOnCpu, hq] using hk.ticksUsed q

end Kernel

namespace Proc

theorem countSyscall_state (p : Proc) (num : Word) : (p.countSyscall num).state = p.state := by
  unfold countSyscall incUsedSyscalls
  split <;> rfl

theorem countSyscall_queue (p : Proc) (h : accepted num) :
    (p.countSyscall num).ti.queue = if num = 27 then p.ti.queue + 1 else p.ti.queue := by
  obtain ⟨hpos, hle⟩ := accepted_iff.mp h
  have hmax : maxSyscalls = 26 := rfl
  have heq : num = 27 ↔ num.toNat = 27 := BitVec.toNat_inj.symm
  simp only [heq]
  unfold countSyscall incUsedSyscalls
  split
  case isTrue => rw [if_neg (by omega)]
  case isFalse =>
    rw [TimeInfo.incWord_queue]
    congr 1
    exact propext (by omega)

theorem countSyscall_ticksUsed (p : Proc) (h : accepted num) :
    (p.countSyscall num).ti.ticksUsed =
      if num = 28 then p.ti.ticksUsed + 1 else p.ti.ticksUsed := by
  obtain ⟨hpos, hle⟩ := accepted_iff.mp h
  have hmax : maxSyscalls = 26 := rfl
  have heq : num = 28 ↔ num.toNat = 28 := BitVec.toNat_inj.symm
  simp only [heq]
  unfold countSyscall incUsedSyscalls
  split
  case isTrue => rw [if_neg (by omega)]
  case isFalse =>
    rw [TimeInfo.incWord_ticksUsed]
    congr 1
    exact propext (by omega)

end Proc

namespace Kernel

variable {k k' : Kernel}

/-- The event leaves queues and counters to others: it is no scheduling decision and no
call of `syscall` or `change_queue`, and it charges no tick. -/
def Idle (k : Kernel) (e : Event) : Prop :=
  match e with
  | .schedule _ | .syscall _ _ | .changeQueue _ _ _ => False
  | e => ∀ c, k.chargedTo c e = none

inductive Effect (k : Kernel) : Event → Kernel → Prop
  | schedule {c} : (k.cpus c).proc = none → Effect k (.schedule c) (k.schedule c)
  | charge {c user p} : ((k.clock c).cpus c).proc = some p → ((k.clock c).proc p).state = .running →
      k.chargedTo c (.timer c user) = Level.ofCode ((k.clock c).proc p).ti.queue →
      Effect k (.timer c user) ((k.clock c).chargeTick c p)
  | syscall {c num p} : (k.cpus c).proc = some p → accepted num →
      (k.proc p).word (num.toNat - 1) ≠ BitVec.intMax 32 →
      Effect k (.syscall c num) (k.setProc p ((k.proc p).countSyscall num))
  | changeQueue {c pid target} : Effect k (.changeQueue c pid target) (k.changeQueue pid target)
  | leave {e c p k₁ k'} : k.Idle e → Quiet ValidQueue k k₁ → (k₁.cpus c).proc = some p →
      Leave ValidQueue c p k₁ k' → Effect k e k'
  | quiet {e k'} : k.Idle e → Quiet ValidQueue k k' → Effect k e k'

theorem timer_effect (h : k.timer c user = some k') :
    Effect k (.timer c user) k' := by
  have hidle : k.chargedTo c (.timer c user) = none → k.Idle (.timer c user) := by
    intro hc d
    by_cases hd : c = d
    · exact hd ▸ hc
    · simp [chargedTo, hd]
  have hclock := k.quiet_clock c
  unfold timer at h
  simp only at h
  split at h
  case h_1 hnone =>
    cases h
    exact .quiet (hidle (by simp [chargedTo, hnone])) hclock
  case h_2 p hp =>
    split at h
    case isTrue hkill => exact .leave (hidle (by simp [chargedTo, hp, hkill])) hclock hp (leave_exit h)
    case isFalse hkill =>
      split at h
      case isTrue hrun => cases h; exact .charge hp hrun (by simp [chargedTo, hp, hkill, hrun])
      case isFalse hrun =>
        cases h
        exact .quiet (hidle (by simp [chargedTo, hp, hrun])) hclock

theorem step_effect (h : k.step e = some k') : Effect k e k' := by
  cases e with
  | schedule c =>
    simp only [step] at h
    split at h
    case isTrue hc => cases h; exact .schedule hc
    case isFalse => cases h
  | timer c user => exact timer_effect h
  | syscall c num =>
    simp only [step, Option.bind_eq_bind, Option.bind_eq_some_iff] at h
    obtain ⟨p, hp, h⟩ := h
    split at h
    case isTrue hcond =>
      simp only [Bool.and_eq_true, bne_iff_ne] at hcond
      cases h
      exact .syscall hp hcond.1 hcond.2
    case isFalse => cases h
  | fork c kstack pgdir =>
    obtain ⟨p, -, h⟩ := Option.bind_eq_some_iff.mp h
    cases h
    exact .quiet (fun _ => rfl) (k.quiet_fork p kstack pgdir)
  | exit c =>
    obtain ⟨p, hp, h⟩ := Option.bind_eq_some_iff.mp h
    exact .leave (fun _ => rfl) (.refl k) hp (leave_exit h)
  | wait c =>
    obtain ⟨p, hp, h⟩ := Option.bind_eq_some_iff.mp h
    cases h
    rcases k.wait_cases c p with hleave | hquiet
    · exact .leave (fun _ => rfl) (.refl k) hp hleave
    · exact .quiet (fun _ => rfl) hquiet
  | sleep c chan =>
    obtain ⟨p, hp, h⟩ := Option.bind_eq_some_iff.mp h
    cases h
    exact .leave (fun _ => rfl) (.refl k) hp (k.leave_sleep c p chan)
  | wakeup chan => cases h; exact .quiet (fun _ => rfl) (k.quiet_wakeup chan)
  | kill pid => cases h; exact .quiet (fun _ => rfl) (k.quiet_kill pid)
  | changeQueue c pid target =>
    obtain ⟨p, -, h⟩ := Option.bind_eq_some_iff.mp h
    cases h
    exact .changeQueue
  | setInitialBurstConfidence c pid burst confidence =>
    obtain ⟨p, -, h⟩ := Option.bind_eq_some_iff.mp h
    cases h
    exact .quiet (fun _ => rfl) (k.quiet_setInitialBurstConfidence pid burst confidence)

theorem Effect.proper (h : Effect k e k') (hk : k.Proper) : k'.Proper := by
  cases h with
  | schedule _ => exact schedule_proper _ hk
  | charge hp _ _ => exact chargeTick_proper ((k.quiet_clock _).proper hk) hp
  | @syscall c num p hp hacc hword =>
    refine hk.setProc_running hp (Proc.countSyscall_state _ _) ?_
    rw [Proc.countSyscall_ticksUsed _ hacc]
    split
    case isTrue h28 =>
      subst h28
      have hnonneg := hk.ticksUsed p
      have hmax : (k.proc p).ti.ticksUsed ≠ BitVec.intMax 32 := hword
      rw [toInt_add_one hmax]
      omega
    case isFalse => exact hk.ticksUsed p
  | changeQueue => exact (k.quiet_changeQueue (V := fun _ => True) _ trivial).proper hk
  | leave _ hquiet hp hleave => exact hleave.proper hp (hquiet.proper hk)
  | quiet _ hquiet => exact hquiet.proper hk

theorem decided_eq_some (h : k.decided c e = some d) :
    e = .schedule c ∧ k.decision c = d := by
  unfold decided at h
  split at h
  case h_1 c' =>
    split at h
    case isTrue heq => subst heq; cases h; exact ⟨rfl, rfl⟩
    case isFalse => cases h
  case h_2 => cases h

@[simp] theorem decided_schedule (k : Kernel) (c : Fin ncpu) :
    k.decided c (.schedule c) = some (k.decision c) := by
  simp [decided]

theorem step_decided (h : Step k e k')
    (hd : k.decided c e = some d) : k' = k.schedule c := by
  obtain ⟨rfl, -⟩ := decided_eq_some hd
  simp only [Step, step] at h
  split at h
  · exact (Option.some.inj h).symm
  · cases h

theorem quiet_userinit (k : Kernel) : Quiet ValidQueue k k.userinit := by
  have halloc := k.quiet_allocproc true
  unfold userinit
  split
  case h_1 p k' hk' =>
    have hk : Quiet ValidQueue k k' := by simpa [hk'] using halloc
    have hembryo : (k'.proc p).state = .embryo := by
      have h : (k.allocproc true).1 = some p := by rw [hk']
      simpa [hk'] using allocproc_embryo h
    have hrunnable : Quiet ValidQueue k' (k'.setProc p { k'.proc p with state := .runnable }) :=
      .setProc (Nudge.slotStep ⟨rfl, by simp [hembryo], by simp [hembryo]⟩)
    have hinit : Quiet ValidQueue (k'.setProc p { k'.proc p with state := .runnable })
        { k'.setProc p { k'.proc p with state := .runnable } with initproc := some p } :=
      ⟨rfl, fun _ => .refl _⟩
    exact ((hk.trans hrunnable).trans hinit).trans (quiet_changeQueue _ _ ⟨.rr, rfl⟩)
  case h_2 k' hk' => simpa [hk'] using halloc

theorem boot_proper : boot.Proper := by
  refine zero.quiet_userinit.proper ⟨?_, ?_, ?_⟩
  · simp [zero, Cpu.zero]
  · simp [zero, Cpu.zero]
  · simp [zero, Proc.zero, TimeInfo.zero]

end Kernel

end Xv6
