import Xv6.Proc.Invariant

/-! The clock and what it leaves in the record of a process.  Only the timer of CPU 0 moves
`ticks`.  `enter_queue_time` is a value of it, stored by `allocproc` and `change_queue`;
`last_run_time` is not, `trap` adds one to it for each tick it charges. -/

namespace Xv6

open Lib

namespace Kernel

variable {k k' : Kernel} {p : Slot}

@[simp] theorem setProc_ticks (k : Kernel) (p : Slot) (q : Proc) : (k.setProc p q).ticks = k.ticks := rfl

@[simp] theorem setCpu_ticks (k : Kernel) (c : Fin ncpu) (x : Cpu) : (k.setCpu c x).ticks = k.ticks := rfl

@[simp] theorem leaveCpu_ticks (k : Kernel) (c : Fin ncpu) : (k.leaveCpu c).ticks = k.ticks := rfl

@[simp] theorem changeQueue_ticks (k : Kernel) (pid target : Word) :
    (k.changeQueue pid target).ticks = k.ticks := by
  unfold changeQueue
  split <;> rfl

@[simp] theorem setInitialBurstConfidence_ticks (k : Kernel) (pid burst confidence : Word) :
    (k.setInitialBurstConfidence pid burst confidence).ticks = k.ticks := by
  unfold setInitialBurstConfidence
  split <;> rfl

@[simp] theorem kill_ticks (k : Kernel) (pid : Word) : (k.kill pid).ticks = k.ticks := by
  unfold kill
  split <;> rfl

@[simp] theorem allocproc_ticks (k : Kernel) (kstack : Bool) : (k.allocproc kstack).2.ticks = k.ticks := by
  unfold allocproc
  split
  · rfl
  · cases kstack <;> rfl

@[simp] theorem fork_ticks (k : Kernel) (p : Slot) (kstack pgdir : Bool) :
    (k.fork p kstack pgdir).ticks = k.ticks := by
  have halloc := k.allocproc_ticks kstack
  unfold fork
  split
  case h_1 k₁ hk₁ => simpa [hk₁] using halloc
  case h_2 np k₁ hk₁ =>
    have hk : k₁.ticks = k.ticks := by simpa [hk₁] using halloc
    cases pgdir with
    | true =>
      simp only [if_true]
      split
      · simpa using hk
      · exact hk
    | false => exact hk

theorem exit_ticks (h : k.exit c p = some k') : k'.ticks = k.ticks := by
  unfold exit at h
  split at h
  · cases h
  · cases h
    rfl

@[simp] theorem sleep_ticks (k : Kernel) (c : Fin ncpu) (p : Slot) (chan : Chan) :
    (k.sleep c p chan).ticks = k.ticks := rfl

@[simp] theorem wait_ticks (k : Kernel) (c : Fin ncpu) (p : Slot) : (k.wait c p).ticks = k.ticks := by
  unfold wait
  simp only
  split
  · rfl
  · split <;> rfl

@[simp] theorem agingSlot_ticks (k : Kernel) (p : Slot) : (k.agingSlot p).ticks = k.ticks := by
  unfold agingSlot
  simp only
  split_ifs <;> simp

@[simp] theorem foldl_agingSlot_ticks (k : Kernel) (l : List Slot) :
    (l.foldl agingSlot k).ticks = k.ticks := by
  induction l generalizing k with
  | nil => rfl
  | cons p l ih => rw [List.foldl_cons, ih, agingSlot_ticks]

theorem clock_ticks (k : Kernel) (c : Fin ncpu) :
    (k.clock c).ticks = k.ticks + if c = 0 then 1 else 0 := by
  unfold clock
  split
  · rw [aging, foldl_agingSlot_ticks]
    rfl
  · simp

@[simp] theorem chargeTick_ticks (k : Kernel) (c : Fin ncpu) (p : Slot) :
    (k.chargeTick c p).ticks = k.ticks := by
  unfold chargeTick
  simp only
  split <;> rfl

theorem timer_ticks (h : k.timer c user = some k') :
    k'.ticks = k.ticks + if c = 0 then 1 else 0 := by
  rw [← clock_ticks]
  unfold timer at h
  simp only at h
  split at h
  · cases h
    rfl
  · split_ifs at h
    · exact exit_ticks h
    · cases h
      exact chargeTick_ticks _ _ _
    · cases h
      rfl

end Kernel

def Event.isTick : Event → Bool
  | .timer c _ => c == 0
  | _ => false

namespace Kernel

variable {k k' : Kernel} {e : Event} {p : Slot}

theorem step_ticks (h : Step k e k') : k'.ticks = k.ticks + if e.isTick then 1 else 0 := by
  cases e with
  | timer c user => simpa [Event.isTick] using timer_ticks h
  | exit c =>
    obtain ⟨p, -, h⟩ := Option.bind_eq_some_iff.mp h
    simpa [Event.isTick] using exit_ticks h
  | schedule c =>
    simp only [Step, step] at h
    split at h
    · cases h
      simp [Event.isTick, schedule]
    · cases h
  | syscall c num =>
    obtain ⟨p, -, h⟩ := Option.bind_eq_some_iff.mp h
    simp only at h
    split at h
    · cases h
      simp [Event.isTick]
    · cases h
  | wakeup chan => cases h; simp [Event.isTick, wakeup]
  | kill pid => cases h; simp [Event.isTick]
  | fork c kstack pgdir =>
    obtain ⟨p, -, h⟩ := Option.bind_eq_some_iff.mp h
    cases h
    simp [Event.isTick]
  | wait c =>
    obtain ⟨p, -, h⟩ := Option.bind_eq_some_iff.mp h
    cases h
    simp [Event.isTick]
  | sleep c chan =>
    obtain ⟨p, -, h⟩ := Option.bind_eq_some_iff.mp h
    cases h
    simp [Event.isTick]
  | changeQueue c pid target =>
    obtain ⟨p, -, h⟩ := Option.bind_eq_some_iff.mp h
    cases h
    simp [Event.isTick]
  | setInitialBurstConfidence c pid burst confidence =>
    obtain ⟨p, -, h⟩ := Option.bind_eq_some_iff.mp h
    cases h
    simp [Event.isTick]

theorem run_ticks (h : Run Step k es k') :
    k'.ticks = k.ticks + BitVec.ofNat 32 (es.countP fun x => x.2.isTick) := by
  induction h with
  | nil => simp
  | @cons k e k₁ es k' hstep _ ih =>
    rw [ih, step_ticks hstep, List.countP_cons, BitVec.add_assoc]
    congr 1
    cases e.isTick <;> simp [BitVec.ofNat_add, BitVec.add_comm]

theorem agingSlot_cases (k : Kernel) (p : Slot) :
    k.agingSlot p = k ∨
      (k.proc p).state = .runnable ∧ k.starved (k.proc p) ∧ ∃ l m : Level,
        (k.proc p).ti.queue = l.code ∧ (l = .sjf ∧ m = .rr ∨ l = .fcfs ∧ m = .sjf) ∧
          k.agingSlot p = k.changeQueue (k.proc p).pid m.code := by
  unfold agingSlot
  simp only
  split_ifs with hskip hstarved hsjf hfcfs
  · exact .inl rfl
  · push Not at hskip
    exact .inr ⟨hskip.1, hstarved, .sjf, .rr, hsjf, .inl ⟨rfl, rfl⟩, rfl⟩
  · push Not at hskip
    exact .inr ⟨hskip.1, hstarved, .fcfs, .sjf, hfcfs, .inr ⟨rfl, rfl⟩, rfl⟩
  · exact .inl rfl
  · exact .inl rfl

end Kernel

namespace Proc

/-- What may happen to the record of a process in a step that is not a call of its own.  Its
place in its queue is kept, or it is moved to one of the upper queues and stamped anew; and
`n` more ticks are counted for it. -/
structure Remains (now n : Word) (a b : Proc) : Prop where
  place : b.ti.queue = a.ti.queue ∧ b.ti.enterQueueTime = a.ti.enterQueueTime ∧
      (b.state ≠ .unused → a.state ≠ .unused) ∨
    b.ti.queue ≠ Level.fcfs.code ∧ b.ti.enterQueueTime = now
  count : b.ti.lastRunTime = a.ti.lastRunTime + n

def Arrives (now n : Word) (a b : Proc) : Prop :=
  Remains now n a b ∨ a.state = .unused ∧ b.ti.enterQueueTime = now

namespace Remains

theorem of_ti (hti : b.ti = a.ti) (hlive : b.state ≠ .unused → a.state ≠ .unused) : Remains now 0 a b :=
  ⟨.inl ⟨by rw [hti], by rw [hti], hlive⟩, by simp [hti]⟩

theorem refl (a : Proc) : Remains now 0 a a := of_ti rfl id

theorem of_nudge (h : Nudge a b) : Remains now 0 a b := of_ti h.ti fun hb ha => hb (h.unused.mpr ha)

theorem trans (h : Remains now 0 a b) (h' : Remains now n b c) : Remains now n a c where
  place := by
    rcases h'.place with ⟨hqueue, hstamp, hlive⟩ | hmoved
    · rw [hqueue, hstamp]
      rcases h.place with ⟨hqueue', hstamp', hlive'⟩ | hmoved
      · exact .inl ⟨hqueue', hstamp', fun hc => hlive' (hlive hc)⟩
      · exact .inr hmoved
    · exact .inr hmoved
  count := by
    rw [h'.count, h.count, add_zero]

theorem stamp (h : Remains now n a b) :
    b.ti.enterQueueTime = a.ti.enterQueueTime ∨ b.ti.enterQueueTime = now :=
  h.place.imp (fun h => h.2.1) fun h => h.2

end Remains

theorem Arrives.remains (h : Arrives now 0 a b) (h' : Remains now 0 b c) : Arrives now 0 a c := by
  rcases h with h | ⟨hunused, hstamp⟩
  · exact .inl (h.trans h')
  · rcases h'.stamp with heq | hnow
    · exact .inr ⟨hunused, heq.trans hstamp⟩
    · exact .inr ⟨hunused, hnow⟩

theorem Arrives.stamp (h : Arrives now n a b) :
    b.ti.enterQueueTime = a.ti.enterQueueTime ∨ b.ti.enterQueueTime = now :=
  h.elim Remains.stamp fun h => .inr h.2

end Proc

namespace Kernel

open Proc

variable {k k' : Kernel} {c : Fin ncpu} {p r : Slot} {e : Event}

def Remain (now : Word) (n : Slot → Word) (k k' : Kernel) : Prop :=
  ∀ p, Remains now (n p) (k.proc p) (k'.proc p)

namespace Remain

theorem refl (k : Kernel) : Remain now 0 k k := fun _ => .refl _

theorem trans (h : Remain now 0 k k') (h' : Remain now n k' k'') : Remain now n k k'' :=
  fun p => (h p).trans (h' p)

theorem setProc (h : Remains now 0 (k.proc p) q) : Remain now 0 k (k.setProc p q) := by
  intro r
  by_cases hr : r = p
  · rw [hr, setProc_self]
    exact h
  · rw [setProc_of_ne _ _ hr]
    exact .refl _

end Remain

theorem remain_wakeup (k : Kernel) (chan : Chan) : Remain now 0 k (k.wakeup chan) :=
  fun p => .of_nudge (wakeup1_nudge k.proc chan p)

theorem remain_changeQueue (k : Kernel) (pid : Word) (h : target ≠ Level.fcfs.code) :
    Remain k.ticks 0 k (k.changeQueue pid target) := by
  unfold changeQueue
  split
  · exact .setProc ⟨.inr ⟨h, rfl⟩, (add_zero _).symm⟩
  · exact .refl k

theorem remain_agingSlot (k : Kernel) (p : Slot) : Remain k.ticks 0 k (k.agingSlot p) := by
  rcases k.agingSlot_cases p with heq | ⟨-, -, l, m, -, hup, heq⟩
  · rw [heq]
    exact .refl k
  · rw [heq]
    apply remain_changeQueue
    rcases hup with ⟨-, rfl⟩ | ⟨-, rfl⟩
    · decide
    · decide

theorem remain_foldl_agingSlot (l : List Slot) (k : Kernel) : Remain k.ticks 0 k (l.foldl agingSlot k) := by
  induction l generalizing k with
  | nil => exact .refl k
  | cons p l ih =>
    have hrest := ih (k.agingSlot p)
    rw [agingSlot_ticks] at hrest
    exact (k.remain_agingSlot p).trans hrest

theorem remain_clock (k : Kernel) (c : Fin ncpu) : Remain (k.clock c).ticks 0 k (k.clock c) := by
  rw [clock_ticks]
  unfold clock
  split
  · have htick : Remain (k.ticks + 1) 0 k { k with ticks := k.ticks + 1 } := fun _ => .refl _
    have haging := remain_foldl_agingSlot (List.finRange nproc) ({ k with ticks := k.ticks + 1 }.wakeup .ticks)
    exact (htick.trans (remain_wakeup _ _)).trans haging
  · exact .refl k

theorem remain_leave (h : (k.proc p).state ≠ .unused) (hti : q.ti = (k.proc p).ti) :
    Remain now 0 k ((k.setProc p q).leaveCpu c) :=
  Remain.setProc (.of_ti hti fun _ => h)

theorem remain_yield (h : (k.proc p).state ≠ .unused) : Remain now 0 k (k.yield c p) :=
  remain_leave (q := { k.proc p with state := .runnable }) h rfl

/-- The timer interrupt counts a tick in `last_run_time` of the process it interrupts, unless
it ends the slice of the process or the process itself. -/
def counts (k : Kernel) (e : Event) (p : Slot) : Bool :=
  match e with
  | .timer c user =>
    let q := (k.clock c).proc p
    ((k.clock c).cpus c).proc == some p && !(q.killed && user) &&
      decide (q.ti.ticksUsed.toInt < ((quantum / sysTick : Nat) : Int))
  | _ => false

def counted (k : Kernel) (e : Event) (p : Slot) : Word := if k.counts e p then 1 else 0

theorem counted_eq_zero (h : ∀ c user, e ≠ .timer c user) : k.counted e = 0 := by
  funext p
  unfold counted counts
  split
  · next c user => exact absurd rfl (h c user)
  · rfl

theorem remain_chargeTick (h : (k.proc p).state = .running) :
    Remain now (fun r => if r = p ∧ (k.proc p).ti.ticksUsed.toInt < ((quantum / sysTick : Nat) : Int) then 1
      else 0) k (k.chargeTick c p) := by
  have hlive : (k.proc p).state ≠ .unused := by rw [h]; decide
  by_cases hend : ((quantum / sysTick : Nat) : Int) ≤ (k.proc p).ti.ticksUsed.toInt
  · have hreset : Remain now 0 k ((k.setCpu c ((k.cpus c).updateRemainTimes (k.proc p).ti.queue)).setProc p
        { k.proc p with ti := { (k.proc p).ti with ticksUsed := 0 } }) :=
      (Remain.refl k).trans (.setProc ⟨.inl ⟨rfl, rfl, id⟩, (add_zero _).symm⟩)
    have hyield := hreset.trans (remain_yield (c := c) (p := p) (by rwa [setProc_self]))
    intro r
    simp only [chargeTick, if_pos hend]
    rw [if_neg fun hr : r = p ∧ _ => absurd hr.2 (not_lt.mpr hend)]
    exact hyield r
  · intro r
    simp only [chargeTick, if_neg hend]
    by_cases hr : r = p
    · rw [hr, if_pos ⟨rfl, not_le.mp hend⟩, setProc_self]
      exact ⟨.inl ⟨rfl, rfl, id⟩, rfl⟩
    · rw [if_neg fun h => hr h.1, setProc_of_ne _ _ hr]
      exact .refl _

theorem remain_exit (h : (k.proc p).state ≠ .unused) (hexit : k.exit c p = some k') : Remain now 0 k k' := by
  unfold exit at hexit
  split at hexit
  · cases hexit
  · cases hexit
    have hnudge : ∀ q, Nudge (k.proc q) ((k.wakeupParent p).reparent p q) := fun q =>
      (k.wakeupParent_nudge p q).trans ((k.wakeupParent p).reparent_nudge p q)
    have hmoved : Remain now 0 k { k with proc := (k.wakeupParent p).reparent p } :=
      fun q => .of_nudge (hnudge q)
    exact hmoved.trans (remain_leave (fun hu => h ((hnudge p).unused.mp hu)) rfl)

theorem remain_timer (hk : k.Proper) (h : k.timer c user = some k') :
    Remain k'.ticks (k.counted (.timer c user)) k k' := by
  have hclock := k.remain_clock c
  rw [timer_ticks h, ← clock_ticks]
  unfold timer at h
  simp only at h
  split at h
  · next hnone =>
    cases h
    have hzero : k.counted (.timer c user) = 0 := by
      funext p
      simp [counted, counts, hnone]
    rw [hzero]
    exact hclock
  · next p hp =>
    have hrun := ((k.quiet_clock c).proper hk).running c p hp
    split at h
    · next hkill =>
      have hzero : k.counted (.timer c user) = 0 := by
        funext r
        rw [counted, if_neg]
        · rfl
        · intro hcounts
          simp only [counts, hp, Bool.and_eq_true, beq_iff_eq, Option.some.injEq] at hcounts
          obtain ⟨⟨rfl, hno⟩, -⟩ := hcounts
          rw [hkill] at hno
          cases hno
      rw [hzero]
      exact hclock.trans (remain_exit (by rw [hrun]; decide) h)
    · next hkill =>
      cases h
      have hcounts : ∀ r, k.counts (.timer c user) r ↔
          r = p ∧ ((k.clock c).proc p).ti.ticksUsed.toInt < ((quantum / sysTick : Nat) : Int) := by
        intro r
        simp only [counts, hp, Bool.and_eq_true, beq_iff_eq, Option.some.injEq, decide_eq_true_eq]
        constructor
        · rintro ⟨⟨rfl, -⟩, hlt⟩
          exact ⟨rfl, hlt⟩
        · rintro ⟨rfl, hlt⟩
          exact ⟨⟨rfl, by rw [Bool.eq_false_iff.mpr hkill, Bool.not_false]⟩, hlt⟩
      intro r
      simp only [counted, hcounts]
      exact hclock.trans (remain_chargeTick hrun) r

theorem remain_wait (h : (k.proc p).state ≠ .unused) : Remain now 0 k (k.wait c p) := by
  unfold wait
  simp only
  split
  · exact .setProc (.of_ti rfl fun hb => absurd rfl hb)
  · split
    · exact remain_leave h rfl
    · exact .refl k

theorem remain_kill (k : Kernel) (pid : Word) : Remain now 0 k (k.kill pid) := by
  unfold kill
  split
  · next q _ =>
    refine .setProc (.of_ti rfl fun hb ha => hb ?_)
    rw [ha]
    rfl
  · exact .refl k

theorem remain_setInitialBurstConfidence (k : Kernel) (pid burst confidence : Word) :
    Remain now 0 k (k.setInitialBurstConfidence pid burst confidence) := by
  unfold setInitialBurstConfidence
  split
  · exact .setProc ⟨.inl ⟨rfl, rfl, id⟩, (add_zero _).symm⟩
  · exact .refl k

theorem remain_schedule (k : Kernel) (c : Fin ncpu) : Remain now 0 k (k.schedule c) := by
  cases hd : k.decision c with
  | refill =>
    rw [schedule_of_refill hd]
    exact .refl k
  | dispatch l p =>
    rw [schedule_of_dispatch hd]
    have hrunnable := (candidate_iff.mp (decision_candidate hd)).1
    exact Remain.setProc (.of_ti rfl fun _ => by rw [hrunnable]; decide)

theorem allocproc_arrives (k : Kernel) (kstack : Bool) (p : Slot) :
    Arrives k.ticks 0 (k.proc p) ((k.allocproc kstack).2.proc p) := by
  unfold allocproc
  split
  · exact .inl (.refl _)
  · next q hq =>
    have hunused : (k.proc q).state = .unused := by simpa using List.find?_some hq
    by_cases hp : p = q
    · subst hp
      cases kstack with
      | true =>
        refine .inr ⟨hunused, ?_⟩
        simp only [if_true, setProc_self]
        rfl
      | false =>
        simp only [Bool.false_eq_true, if_false, setProc_self]
        exact .inl (.of_ti rfl fun hb => absurd rfl hb)
    · refine .inl ?_
      cases kstack with
      | true => rw [if_pos rfl, setProc_of_ne _ _ hp]; exact .refl _
      | false => rw [if_neg (by decide), setProc_of_ne _ _ hp]; exact .refl _

theorem fork_arrives (k : Kernel) (curproc : Slot) (kstack pgdir : Bool) (p : Slot) :
    Arrives k.ticks 0 (k.proc p) ((k.fork curproc kstack pgdir).proc p) := by
  have halloc := k.allocproc_arrives kstack p
  have hticks := k.allocproc_ticks kstack
  unfold fork
  split
  · next k' hk' => rwa [hk'] at halloc
  · next np k' hk' =>
    rw [hk'] at halloc hticks
    have hembryo : (k'.proc np).state = .embryo := by
      have h : (k.allocproc kstack).1 = some np := by rw [hk']
      simpa only [hk'] using allocproc_embryo h
    split
    · obtain ⟨q, hq⟩ : ∃ q, q = { k'.proc np with parent := some curproc, state := .runnable } := ⟨_, rfl⟩
      have hchild : Remain k.ticks 0 k' (k'.setProc np q) :=
        .setProc (hq ▸ .of_ti rfl fun _ => by rw [hembryo]; decide)
      simp only [← hq]
      split
      · have hcode : Level.rr.code ≠ Level.fcfs.code := by decide
        have hmoved := remain_changeQueue (k'.setProc np q) ((k'.setProc np q).proc np).pid hcode
        rw [setProc_ticks, hticks] at hmoved
        exact halloc.remains ((hchild.trans hmoved) p)
      · exact halloc.remains (hchild p)
    · have hdead : Remain k.ticks 0 k' (k'.setProc np { k'.proc np with state := .unused }) :=
        .setProc (.of_ti rfl fun hb => absurd rfl hb)
      exact halloc.remains (hdead p)

theorem Proper.live (hk : k.Proper) (h : (k.cpus c).proc = some p) : (k.proc p).state ≠ .unused := by
  rw [hk.running c p h]
  decide

theorem step_syscall (h : Step k (.syscall c num) k') (hp : (k.cpus c).proc ≠ some p) :
    k'.proc p = k.proc p := by
  cases step_effect h with
  | @syscall _ _ r hr _ _ => exact setProc_of_ne _ _ fun heq => hp (heq ▸ hr)
  | leave hidle => exact hidle.elim
  | quiet hidle => exact hidle.elim

theorem changeQueue_record (k : Kernel) (pid target : Word) (p : Slot) :
    (((k.changeQueue pid target).proc p).ti.enterQueueTime = (k.proc p).ti.enterQueueTime ∨
      ((k.changeQueue pid target).proc p).ti.enterQueueTime = k.ticks) ∧
    ((k.changeQueue pid target).proc p).ti.lastRunTime = (k.proc p).ti.lastRunTime := by
  unfold changeQueue
  split
  · next q _ =>
    by_cases hp : p = q
    · rw [hp, setProc_self]
      exact ⟨.inr rfl, rfl⟩
    · rw [setProc_of_ne _ _ hp]
      exact ⟨.inl rfl, rfl⟩
  · exact ⟨.inl rfl, rfl⟩

/-- `syscall` counts a call of the process itself in the words after its counters, and
`change_queue` moves it where its caller says; every other step leaves the record so. -/
theorem step_arrives (h : Step k e k') (hk : k.Proper) (hsyscall : ∀ c num, e ≠ .syscall c num)
    (hplace : ∀ c pid target, e ≠ .changeQueue c pid target) (p : Slot) :
    Arrives k'.ticks (k.counted e p) (k.proc p) (k'.proc p) := by
  cases e with
  | timer c user => exact .inl (remain_timer hk h p)
  | syscall c num => exact absurd rfl (hsyscall c num)
  | changeQueue c pid target => exact absurd rfl (hplace c pid target)
  | schedule c =>
    simp only [Step, step] at h
    split at h
    · cases h
      exact .inl (k.remain_schedule c p)
    · cases h
  | fork c kstack pgdir =>
    obtain ⟨r, -, h⟩ := Option.bind_eq_some_iff.mp h
    cases h
    rw [fork_ticks]
    exact k.fork_arrives r kstack pgdir p
  | exit c =>
    obtain ⟨r, hr, h⟩ := Option.bind_eq_some_iff.mp h
    exact .inl (remain_exit (hk.live hr) h p)
  | wait c =>
    obtain ⟨r, hr, h⟩ := Option.bind_eq_some_iff.mp h
    cases h
    exact .inl (remain_wait (hk.live hr) p)
  | sleep c chan =>
    obtain ⟨r, hr, h⟩ := Option.bind_eq_some_iff.mp h
    cases h
    exact .inl (remain_leave (hk.live hr) (q := { k.proc r with state := .sleeping, chan := some chan }) rfl p)
  | wakeup chan =>
    cases h
    exact .inl (k.remain_wakeup chan p)
  | kill pid =>
    cases h
    exact .inl (k.remain_kill pid p)
  | setInitialBurstConfidence c pid burst confidence =>
    obtain ⟨-, -, h⟩ := Option.bind_eq_some_iff.mp h
    cases h
    exact .inl (k.remain_setInitialBurstConfidence pid burst confidence p)

theorem step_stamp (h : Step k e k') (hk : k.Proper) (hrest : (k.proc p).state ≠ .running) :
    (k'.proc p).ti.enterQueueTime = (k.proc p).ti.enterQueueTime ∨
      (k'.proc p).ti.enterQueueTime = k'.ticks := by
  by_cases hsyscall : ∃ c num, e = .syscall c num
  · obtain ⟨c, num, rfl⟩ := hsyscall
    rw [step_syscall h fun hp => hrest (hk.running c p hp)]
    exact .inl rfl
  · by_cases hplace : ∃ c pid target, e = .changeQueue c pid target
    · obtain ⟨c, pid, target, rfl⟩ := hplace
      obtain ⟨-, -, h⟩ := Option.bind_eq_some_iff.mp h
      cases h
      rw [changeQueue_ticks]
      exact (k.changeQueue_record pid target p).1
    · push Not at hsyscall hplace
      exact (step_arrives h hk hsyscall hplace p).stamp

theorem countSyscall_lastRunTime (q : Proc) (h : accepted num) :
    (q.countSyscall num).ti.lastRunTime = q.ti.lastRunTime := by
  obtain ⟨hpos, hle⟩ := accepted_iff.mp h
  have hmax : maxSyscalls = 26 := rfl
  have hword : ∀ (w : TimeInfo) (i : Nat), i ≤ 4 → (w.incWord i).lastRunTime = w.lastRunTime := by
    intro w i hi
    unfold TimeInfo.incWord
    split <;> first | rfl | omega
  unfold countSyscall incUsedSyscalls
  split
  · rfl
  · exact hword _ _ (by omega)

theorem step_lastRunTime (h : Step k e k') (hk : k.Proper) (hlive : (k.proc p).state ≠ .unused) :
    (k'.proc p).ti.lastRunTime = (k.proc p).ti.lastRunTime + k.counted e p := by
  by_cases hsyscall : ∃ c num, e = .syscall c num
  · obtain ⟨c, num, rfl⟩ := hsyscall
    rw [counted_eq_zero (by simp), Pi.zero_apply, add_zero]
    cases step_effect h with
    | @syscall _ _ r hr hacc _ =>
      by_cases hp : p = r
      · rw [hp, setProc_self, countSyscall_lastRunTime _ hacc]
      · rw [setProc_of_ne _ _ hp]
    | leave hidle => exact hidle.elim
    | quiet hidle => exact hidle.elim
  · by_cases hplace : ∃ c pid target, e = .changeQueue c pid target
    · obtain ⟨c, pid, target, rfl⟩ := hplace
      obtain ⟨-, -, h⟩ := Option.bind_eq_some_iff.mp h
      cases h
      rw [counted_eq_zero (by simp), Pi.zero_apply, add_zero, (k.changeQueue_record pid target p).2]
    · push Not at hsyscall hplace
      rcases step_arrives h hk hsyscall hplace p with hremains | ⟨hunused, -⟩
      · exact hremains.count
      · exact absurd hunused hlive

/-- While a process lives, its `last_run_time` counts the ticks it is charged. -/
theorem run_lastRunTime (h : Run Step k es k') (hk : k.Proper)
    (hlive : ∀ x ∈ es, (x.1.proc p).state ≠ .unused) :
    (k'.proc p).ti.lastRunTime =
      (k.proc p).ti.lastRunTime + BitVec.ofNat 32 (es.countP fun x => x.1.counts x.2 p) := by
  induction h with
  | nil => simp
  | @cons k e k₁ es k' hstep _ ih =>
    obtain ⟨hhead, htail⟩ := List.forall_mem_cons.mp hlive
    rw [ih ((step_effect hstep).proper hk) htail, step_lastRunTime hstep hk hhead, List.countP_cons,
      BitVec.add_assoc, counted]
    congr 1
    cases k.counts e p <;> simp [BitVec.ofNat_add, BitVec.add_comm]

end Kernel

end Xv6
