import Xv6.Proc.Stamp

namespace Xv6

open Lib

namespace Kernel

variable {k k' : Kernel} {e : Event} {p : Slot} {es : List (Kernel × Event)}

theorem getProcByPid_pid (h : k.getProcByPid pid = some p) : (k.proc p).pid = pid := by
  unfold getProcByPid at h
  have := List.find?_some h
  simpa using this

theorem changeQueue_pid (k : Kernel) (pid target : Word) (p : Slot) :
    ((k.changeQueue pid target).proc p).pid = (k.proc p).pid := by
  unfold changeQueue
  split
  case h_1 q _ =>
    by_cases hp : p = q
    · subst hp
      rw [setProc_self]
    · rw [setProc_of_ne _ _ hp]
  case h_2 => rfl

theorem changeQueue_of_pid_ne (h : (k.proc p).pid ≠ pid) :
    (k.changeQueue pid target).proc p = k.proc p := by
  unfold changeQueue
  split
  case h_1 q hq =>
    apply setProc_of_ne
    rintro rfl
    exact h (getProcByPid_pid hq)
  case h_2 => rfl

theorem agingSlot_pid (k : Kernel) (p q : Slot) : ((k.agingSlot p).proc q).pid = (k.proc q).pid := by
  rcases k.agingSlot_cases p with h | ⟨-, -, l, m, -, -, h⟩
  · rw [h]
  · rw [h, changeQueue_pid]

def PidAlone (k : Kernel) (p : Slot) : Prop := ∀ q, (k.proc q).pid = (k.proc p).pid → q = p

theorem foldl_agingSlot_starved (l : List Slot) (hpid : k.PidAlone p)
    (h : ((l.foldl agingSlot k).proc p).ti.queue ≠ (k.proc p).ti.queue) : k.starved (k.proc p) := by
  induction l generalizing k with
  | nil => exact absurd rfl h
  | cons q l ih =>
    rcases k.agingSlot_cases q with hskip | ⟨-, hstarved, m, n, -, -, hmove⟩
    · rw [List.foldl_cons, hskip] at h
      exact ih hpid h
    · by_cases hq : q = p
      · exact hq ▸ hstarved
      · have hsame : (k.agingSlot q).proc p = k.proc p := by
          rw [hmove]
          exact changeQueue_of_pid_ne fun heq => hq (hpid q heq.symm)
        have halone : (k.agingSlot q).PidAlone p := by
          intro r hr
          rw [agingSlot_pid, agingSlot_pid] at hr
          exact hpid r hr
        have hthere : (k.agingSlot q).starved ((k.agingSlot q).proc p) :=
          ih halone (by rwa [hsame])
        rwa [hsame, starved, agingSlot_ticks] at hthere

theorem wakeup_pid (k : Kernel) (chan : Chan) (p : Slot) :
    ((k.wakeup chan).proc p).pid = (k.proc p).pid := by
  unfold wakeup wakeup1
  simp only
  split <;> rfl

def Promoted (k : Kernel) (p : Slot) : Prop :=
  ((k.clock 0).proc p).ti.queue ≠ (k.proc p).ti.queue

instance (k : Kernel) (p : Slot) : Decidable (k.Promoted p) := inferInstanceAs (Decidable (_ ≠ _))

theorem Promoted.starved (h : k.Promoted p) (hpid : k.PidAlone p) :
    { k with ticks := k.ticks + 1 }.starved (k.proc p) := by
  simp only [Promoted, clock_zero, aging] at h
  generalize hk₁ : { k with ticks := k.ticks + 1 } = k₁ at h ⊢
  have hproc : k.proc = k₁.proc := by rw [← hk₁]
  rw [PidAlone, hproc] at hpid
  rw [hproc] at h ⊢
  have hti : ((k₁.wakeup .ticks).proc p).ti = (k₁.proc p).ti := (wakeup1_nudge k₁.proc .ticks p).ti
  have halone : (k₁.wakeup .ticks).PidAlone p := by
    intro q hq
    rw [wakeup_pid, wakeup_pid] at hq
    exact hpid q hq
  rw [← hti] at h
  have hstarved := foldl_agingSlot_starved _ halone h
  unfold Kernel.starved at hstarved ⊢
  rwa [hti] at hstarved

end Kernel

def lastTicks (n : Nat) (es : List (Kernel × Event)) : List (Kernel × Event) :=
  (es.filter fun x => x.2.isTick).reverse.take n

theorem mem_of_mem_lastTicks (hfs : fs <:+ es)
    (hn : n ≤ fs.countP fun x => x.2.isTick) (he : e ∈ lastTicks n es) :
    e ∈ fs := by
  obtain ⟨gs, rfl⟩ := hfs
  rw [List.countP_eq_length_filter, ← List.length_reverse] at hn
  rw [lastTicks, List.filter_append, List.reverse_append, List.take_append_of_le_length hn] at he
  exact List.mem_of_mem_filter (List.mem_reverse.mp (List.mem_of_mem_take he))

theorem mem_lastTicks
    (htick : e.2.isTick) (hn : (fs.countP fun x => x.2.isTick) < n) :
    e ∈ lastTicks n (gs ++ e :: fs) := by
  rw [List.countP_eq_length_filter] at hn
  have hsplit : ((gs ++ e :: fs).filter fun x => x.2.isTick).reverse =
      (fs.filter fun x => x.2.isTick).reverse ++ e :: (gs.filter fun x => x.2.isTick).reverse := by
    simp [List.filter_append, htick]
  obtain ⟨m, rfl⟩ := Nat.exists_eq_add_of_lt hn
  rw [lastTicks, hsplit, List.take_append, List.length_reverse, Nat.add_assoc, Nat.add_sub_cancel_left,
    List.take_succ_cons]
  exact List.mem_append_right _ List.mem_cons_self

/-- A process that a tick of the run promotes was not `RUNNING` at any of the last
`STARVATION_BOUNDRY` ticks. -/
def PromotesStarved (es : List (Kernel × Event)) : Prop :=
  ∀ pre k user, pre ++ [(k, .timer 0 user)] <+: es → ∀ p, k.Promoted p →
    ∀ e ∈ lastTicks starvationBoundry (pre ++ [(k, .timer 0 user)]), (e.1.proc p).state ≠ .running

def Dispatches (p : Slot) (e : Kernel × Event) : Prop :=
  ∃ c l, e.1.decided c e.2 = some (.dispatch l p)

/-- At some moment of the run the process is off its CPU, at the tick that its
`enter_queue_time` names, and from then on no scheduler dispatches it. -/
def EnteredIdle (p : Slot) (es : List (Kernel × Event)) : Prop :=
  ∃ k e fs, (k, e) :: fs <:+ es ∧ (k.proc p).state ≠ .running ∧ (k.proc p).ti.enterQueueTime = k.ticks ∧
    ∀ x ∈ (k, e) :: fs, ¬ Dispatches p x

def PromotesIdle (es : List (Kernel × Event)) : Prop :=
  ∀ pre k user, pre ++ [(k, .timer 0 user)] <+: es → ∀ p, k.Promoted p →
    k.PidAlone p ∧ EnteredIdle p (pre ++ [(k, .timer 0 user)])

namespace Kernel

variable {k k' : Kernel} {e : Event} {p : Slot} {es : List (Kernel × Event)}

theorem step_not_running (h : Step k e k') (hrest : (k.proc p).state ≠ .running)
    (hdispatch : ¬ Dispatches p (k, e)) : (k'.proc p).state ≠ .running := by
  cases step_effect h with
  | @schedule c _ =>
    cases hd : k.decision c with
    | refill =>
      rw [schedule_of_refill hd]
      exact hrest
    | dispatch l q =>
      rw [schedule_of_dispatch hd]
      have hne : p ≠ q := by
        rintro rfl
        exact hdispatch ⟨c, l, by rw [decided_schedule, hd]⟩
      have hsame : runProcessOnCpu k.proc q p = k.proc p := Function.update_of_ne hne _ _
      rw [← hsame] at hrest
      exact hrest
  | @charge c user q hq hrun _ =>
    have hrest' : ((k.clock c).proc p).state ≠ .running := fun hp =>
      hrest (((k.quiet_clock c).slot p).running.mp hp)
    have hne : p ≠ q := by
      rintro rfl
      exact hrest' hrun
    rwa [chargeTick_proc_of_ne hne]
  | @syscall c num q _ _ _ =>
    by_cases hp : p = q
    · rw [hp, setProc_self, Proc.countSyscall_state, ← hp]
      exact hrest
    · rwa [setProc_of_ne _ _ hp]
  | changeQueue =>
    exact fun hp => hrest (((k.quiet_changeQueue (V := fun _ => True) _ trivial).slot p).running.mp hp)
  | @leave _ c q k₁ _ _ hquiet _ hleave =>
    by_cases hp : p = q
    · rw [hp]
      exact hleave.state.1
    · exact fun hrun => hrest ((hquiet.slot p).running.mp ((hleave.slot p hp).running.mp hrun))
  | quiet _ hquiet => exact fun hrun => hrest ((hquiet.slot p).running.mp hrun)

/-- The invariant of a process that is not dispatched: its `enter_queue_time` stays, or it names
a tick of the run. -/
theorem run_stamp (h : Run Step k es k') (hk : k.Proper) (hrest : (k.proc p).state ≠ .running)
    (hdispatch : ∀ x ∈ es, ¬ Dispatches p x) :
    (∀ x ∈ es, (x.1.proc p).state ≠ .running) ∧ (k'.proc p).state ≠ .running ∧
      ((k'.proc p).ti.enterQueueTime = (k.proc p).ti.enterQueueTime ∨
        ∃ k₁ fs, fs <:+ es ∧ Run Step k₁ fs k' ∧ (k'.proc p).ti.enterQueueTime = k₁.ticks) := by
  induction h with
  | nil => exact ⟨by simp, hrest, .inl rfl⟩
  | @cons k e k₁ es k' hstep hrun ih =>
    obtain ⟨hhead, htail⟩ := List.forall_mem_cons.mp hdispatch
    have hstamp := step_stamp hstep hk hrest
    obtain ⟨hall, hlast, hnamed⟩ :=
      ih ((step_effect hstep).proper hk) (step_not_running hstep hrest hhead) htail
    refine ⟨List.forall_mem_cons.mpr ⟨hrest, hall⟩, hlast, ?_⟩
    rcases hnamed with hsame | ⟨k₂, fs, hfs, hrun₂, hticks⟩
    · rcases hstamp with hkept | hnow
      · exact .inl (hsame.trans hkept)
      · exact .inr ⟨k₁, es, List.suffix_cons _ _, hrun, hsame.trans hnow⟩
    · exact .inr ⟨k₂, fs, hfs.trans (List.suffix_cons _ _), hrun₂, hticks⟩

end Kernel

theorem not_running_of_stamp (hrun : Run Kernel.Step s fs k) (hlast : Kernel.Step k (.timer 0 user) t)
    (hold : starvationBoundry < (k.ticks + 1 - s.ticks).toNat) (hfs : fs <:+ pre)
    (hidle : ∀ x ∈ fs ++ [(k, .timer 0 user)], (x.1.proc p).state ≠ .running) :
    ∀ e ∈ lastTicks starvationBoundry (pre ++ [(k, .timer 0 user)]), (e.1.proc p).state ≠ .running := by
  have hcount := Kernel.run_ticks (hrun.append (.single hlast))
  have hticks : t.ticks = k.ticks + 1 := by simpa [Event.isTick] using Kernel.step_ticks hlast
  have hmany : starvationBoundry < (fs ++ [(k, Event.timer 0 user)]).countP fun x => x.2.isTick := by
    rw [← hticks, hcount, BitVec.add_comm s.ticks, BitVec.add_sub_cancel, BitVec.toNat_ofNat] at hold
    exact hold.trans_le (Nat.mod_le _ _)
  have hsuffix : fs ++ [(k, .timer 0 user)] <:+ pre ++ [(k, .timer 0 user)] := by
    obtain ⟨gs, rfl⟩ := hfs
    exact ⟨gs, by simp⟩
  exact fun e he => hidle e (mem_of_mem_lastTicks hsuffix hmany.le he)

theorem EnteredIdle.not_running (h : EnteredIdle p (pre ++ [(k, .timer 0 user)])) {s t : Kernel}
    (hs : s.Proper) (hrun : Run Kernel.Step s (pre ++ [(k, .timer 0 user)]) t)
    (hold : starvationBoundry < (k.ticks + 1 - (k.proc p).ti.enterQueueTime).toNat) :
    ∀ e ∈ lastTicks starvationBoundry (pre ++ [(k, .timer 0 user)]), (e.1.proc p).state ≠ .running := by
  obtain ⟨k₀, e₀, es, hsuffix, hrest, henter, hdispatch⟩ := h
  have hproper : k₀.Proper := by
    have hall : Run.Always Kernel.Proper _ t :=
      hrun.always_invariant (C := fun _ _ => True) (fun _ _ _ h _ => (Kernel.step_effect h).proper)
        (fun _ _ => trivial) hs
    exact hall.1 _ (hsuffix.subset List.mem_cons_self)
  have hrun₀ := hrun.of_suffix hsuffix
  rcases List.suffix_concat_iff.mp hsuffix with hnil | ⟨gs, heq, hgs⟩
  · cases hnil
  · rw [heq] at hrun₀ hdispatch
    obtain ⟨k₁, hgo, hlast⟩ := hrun₀.of_append
    cases hlast with
    | cons htick _ =>
      obtain ⟨hall, hend, hnamed⟩ := Kernel.run_stamp hgo hproper hrest fun x hx =>
        hdispatch x (List.mem_append_left _ hx)
      have hidle : ∀ x ∈ gs ++ [(k, .timer 0 user)], (x.1.proc p).state ≠ .running := by
        intro x hx
        rcases List.mem_append.mp hx with hx | hx
        · exact hall x hx
        · rw [List.mem_singleton.mp hx]
          exact hend
      rcases hnamed with hsame | ⟨k₂, fs, hfs, hrun₂, hnow⟩
      · rw [hsame, henter] at hold
        exact not_running_of_stamp hgo htick hold hgs hidle
      · rw [hnow] at hold
        refine not_running_of_stamp hrun₂ htick hold (hfs.trans hgs) fun x hx => hidle x ?_
        exact (List.append_sublist_append_right _).mpr hfs.sublist |>.subset hx

/-- `last_run_time` is the number of ticks charged to a process and says nothing of when it ran;
`enter_queue_time` does, of a process that has not been dispatched since. -/
theorem run_promotesStarved {s t : Kernel} {es : List (Kernel × Event)} (hs : s.Proper)
    (hrun : Run Kernel.Step s es t) :
    (∀ p, (∀ x ∈ es, (x.1.proc p).state ≠ .unused) → (t.proc p).ti.lastRunTime =
      (s.proc p).ti.lastRunTime + BitVec.ofNat 32 (es.countP fun x => x.1.counts x.2 p)) ∧
    (PromotesIdle es → PromotesStarved es) := by
  refine ⟨fun p hlive => Kernel.run_lastRunTime hrun hs hlive, ?_⟩
  intro hidle pre k user hpre p hp
  obtain ⟨hpid, hentered⟩ := hidle pre k user hpre p hp
  obtain ⟨post, rfl⟩ := hpre
  obtain ⟨t₁, hrun₁, -⟩ := hrun.of_append
  have hstarved := hp.starved hpid
  simp only [Kernel.starved, Bool.and_eq_true, decide_eq_true_eq] at hstarved
  exact hentered.not_running hs hrun₁ hstarved.2

/-! Ticks at which nothing happens but that the clock moves. -/

namespace Kernel

variable {k : Kernel} {p : Slot}

structure Still (k : Kernel) : Prop where
  cpu : (k.cpus 0).proc = none
  asleep : ∀ p, ¬ ((k.proc p).state = .sleeping ∧ (k.proc p).chan = some .ticks)
  aging : ∀ p, (k.proc p).state ≠ .runnable ∨ (k.proc p).ti.queue = Level.rr.code

instance (k : Kernel) : Decidable k.Still :=
  decidable_of_iff ((k.cpus 0).proc = none ∧
    (∀ p, ¬ ((k.proc p).state = .sleeping ∧ (k.proc p).chan = some .ticks)) ∧
    ∀ p, (k.proc p).state ≠ .runnable ∨ (k.proc p).ti.queue = Level.rr.code)
    ⟨fun h => ⟨h.1, h.2.1, h.2.2⟩, fun h => ⟨h.1, h.2, h.3⟩⟩

theorem Still.at (h : k.Still) (w : Word) : { k with ticks := w }.Still := ⟨h.cpu, h.asleep, h.aging⟩

theorem Still.foldl_agingSlot (h : k.Still) (l : List Slot) : l.foldl agingSlot k = k := by
  induction l with
  | nil => rfl
  | cons p l ih => rw [List.foldl_cons, agingSlot, if_pos (h.aging p), ih]

theorem Still.wakeup (h : k.Still) : k.wakeup .ticks = k := by
  have hsame : wakeup1 k.proc .ticks = k.proc := by
    funext p
    rw [wakeup1, if_neg (h.asleep p)]
  rw [Kernel.wakeup, hsame]

theorem Still.clock (h : k.Still) : k.clock 0 = { k with ticks := k.ticks + 1 } := by
  rw [clock_zero, (h.at _).wakeup, Kernel.aging, (h.at _).foldl_agingSlot]

theorem Still.not_promoted (h : k.Still) : ¬ k.Promoted p := by
  simp [Promoted, h.clock]

theorem Still.step (h : k.Still) (user : Bool) :
    Step k (.timer 0 user) { k with ticks := k.ticks + 1 } := by
  have hcpu := h.cpu
  simp only [Step, Kernel.step, timer, h.clock, hcpu]

def stillTicks (k : Kernel) (n : Nat) : List (Kernel × Event) :=
  (List.range n).map fun i => ({ k with ticks := k.ticks + BitVec.ofNat 32 i }, .timer 0 false)

theorem Still.run (h : k.Still) (n : Nat) :
    Run Step k (k.stillTicks n) { k with ticks := k.ticks + BitVec.ofNat 32 n } := by
  induction n with
  | zero => simpa [stillTicks] using (Run.nil : Run Step k [] k)
  | succ n ih =>
    have hlast := (h.at (k.ticks + BitVec.ofNat 32 n)).step false
    rw [stillTicks, List.range_succ, List.map_append, BitVec.ofNat_add, ← BitVec.add_assoc]
    exact ih.append (.single hlast)

theorem stillTicks_cons (k : Kernel) (n : Nat) :
    ∃ fs, k.stillTicks (n + 1) = (k, .timer 0 false) :: fs := by
  simp [stillTicks, List.range_succ_eq_map]

theorem mem_stillTicks (h : e ∈ k.stillTicks n) :
    ∃ w, e = ({ k with ticks := w }, .timer 0 false) := by
  obtain ⟨i, -, rfl⟩ := List.mem_map.mp h
  exact ⟨_, rfl⟩

theorem promotesStarved_of_sleeper :
    ∃ k es k', Run Step k es k' ∧ (∃ e ∈ es, e.1.Promoted 0) ∧ PromotesStarved es := by
  obtain ⟨k, hboot, h⟩ := Run.of_exec_any step boot
    [.schedule 0, .schedule 0, .changeQueue 0 1 Level.fcfs.code, .sleep 0 (.addr 0)]
    (fun k : Kernel => decide (k.Still ∧ (k.proc 0).state = .sleeping ∧
      (k.proc 0).ti.enterQueueTime = k.ticks) &&
      (step { k with ticks := k.ticks + 800 } (.wakeup (.addr 0))).any fun k₁ : Kernel =>
        decide (k₁.Promoted 0 ∧ (∀ p, k₁.Promoted p → p = 0) ∧
          ∀ q, (k₁.proc q).pid = (k₁.proc 0).pid → q = 0) && (step k₁ (.timer 0 false)).isSome)
    (by decide +kernel)
  simp only [Bool.and_eq_true, decide_eq_true_eq, Option.any_eq_true] at h
  obtain ⟨⟨hstill, hasleep, henter⟩, k₁, hwake, ⟨hprom, honly, hpid⟩, hstep⟩ := h
  obtain ⟨k₂, hlast⟩ := Option.isSome_iff_exists.mp hstep
  obtain ⟨es, hes⟩ : ∃ es : List (Kernel × Event),
      es = k.stillTicks 800 ++ [({ k with ticks := k.ticks + 800 }, .wakeup (.addr 0))] := ⟨_, rfl⟩
  have hrun : Run Step k (es ++ [(k₁, .timer 0 false)]) k₂ := by
    rw [hes]
    exact ((hstill.run 800).append (.single hwake)).append (.single hlast)
  have hidle : ∀ x ∈ es, (∀ c, x.2 ≠ .schedule c) ∧ ∀ p, ¬ x.1.Promoted p := by
    intro x hx
    rw [hes] at hx
    rcases List.mem_append.mp hx with hx | hx
    · obtain ⟨w, rfl⟩ := mem_stillTicks hx
      exact ⟨fun c => by simp, fun p => (hstill.at w).not_promoted⟩
    · rw [List.mem_singleton.mp hx]
      exact ⟨fun c => by simp, fun p => (hstill.at _).not_promoted⟩
  have hk : k.Proper := hboot.invariant_of_step (fun _ _ _ h => (step_effect h).proper) boot_proper
  refine ⟨k, _, k₂, hrun, ⟨_, List.mem_append_right _ (List.mem_singleton_self _), hprom⟩,
    (run_promotesStarved hk hrun).2 ?_⟩
  intro pre k' user hpre p hp
  rcases List.prefix_concat_iff.mp hpre with heq | hpre
  · obtain ⟨hinit, htick⟩ := List.append_inj' heq (by simp)
    cases htick
    obtain rfl := honly p hp
    obtain ⟨fs, hfs⟩ : ∃ fs, es = (k, .timer 0 false) :: fs := by
      obtain ⟨fs, hfs⟩ := k.stillTicks_cons 799
      exact ⟨_, by rw [hes, hfs, List.cons_append]⟩
    have hsleeps : ∀ x ∈ es ++ [(k₁, .timer 0 false)], ¬ Dispatches 0 x := by
      rintro x hx ⟨c, l, hd⟩
      have hx : x.2 ≠ .schedule c := by
        rcases List.mem_append.mp hx with hx | hx
        · exact (hidle x hx).1 c
        · rw [List.mem_singleton.mp hx]
          exact fun h => by cases h
      exact hx (decided_eq_some hd).1
    refine ⟨hpid, k, .timer 0 false, fs ++ [(k₁, .timer 0 false)], ?_, by simp [hasleep], henter, ?_⟩
    · rw [hinit, hfs, List.cons_append]
    · rwa [hfs, List.cons_append] at hsleeps
  · have hmem := hpre.subset (List.mem_append_right _ (List.mem_singleton_self _))
    exact absurd hp ((hidle _ hmem).2 p)

theorem not_promotesStarved
     (htick : e.2.isTick) (hrunning : (e.1.proc p).state = .running)
    (hfew : (fs.countP fun x => x.2.isTick) + 1 < starvationBoundry) (hprom : k.Promoted p) :
    ¬ PromotesStarved (gs ++ e :: (fs ++ [(k, .timer 0 user)])) := by
  intro h
  have hend : gs ++ e :: (fs ++ [(k, .timer 0 user)]) = (gs ++ e :: fs) ++ [(k, .timer 0 user)] := by
    simp
  have hlast := h (gs ++ e :: fs) k user (by rw [hend]) p hprom e
  rw [← hend] at hlast
  refine hlast (mem_lastTicks htick ?_) hrunning
  simpa [List.countP_append, Event.isTick] using hfew

theorem promotesStarved_fails_of_runner :
    ∃ es k, Run Step boot es k ∧ ¬ PromotesStarved es := by
  let slice : List Event := .replicate 6 (.timer 1 true)
  obtain ⟨k, hrun, h⟩ := Run.of_exec_any step boot
    [.schedule 1, .schedule 1, .changeQueue 1 1 Level.fcfs.code]
    (fun k : Kernel => decide (k.Still ∧ (k.proc 0).state = .running) &&
      (exec step { k with ticks := k.ticks + BitVec.ofNat 32 809 + 1 } slice).any
        fun k₁ : Kernel => decide (k₁.Promoted 0) && (step k₁ (.timer 0 false)).isSome)
    (by decide +kernel)
  simp only [Bool.and_eq_true, decide_eq_true_eq, Option.any_eq_true] at h
  obtain ⟨⟨hstill, hrunning⟩, k₁, hslice, hprom, hstep⟩ := h
  obtain ⟨k₂, hlast⟩ := Option.isSome_iff_exists.mp hstep
  have htick := (hstill.at (k.ticks + BitVec.ofNat 32 809)).step false
  have hrun₁ := (hrun.append (hstill.run 809)).append
    (.cons htick ((Run.of_exec hslice).append (.single hlast)))
  refine ⟨_, k₂, hrun₁, ?_⟩
  apply not_promotesStarved (p := 0)
  · rfl
  · exact hrunning
  · have hnone : ((trace step { k with ticks := k.ticks + BitVec.ofNat 32 809 + 1 } slice).countP
        fun x => x.2.isTick) = 0 := by
      refine List.countP_eq_zero.mpr fun x hx => ?_
      rw [List.eq_of_mem_replicate (mem_trace hx)]
      decide
    rw [hnone]
    decide
  · exact hprom

end Kernel

end Xv6
