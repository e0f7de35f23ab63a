import Xv6.Proc.ExitWait
import Xv6.Proc.Starvation

namespace Xv6

open Function Lib

def Aging.slot : Aging → Option Slot
  | .testSjf p _ | .testFcfs p _ | .readPid p _ _ | .locate p _ _ _ | .store p _ _ _ => some p
  | _ => none

def Aging.stores : Aging → Option (Slot × Option Slot × Level)
  | .store p _ q target => some (p, q, target)
  | _ => none

def OneUp (queue : Word) (target : Level) : Prop :=
  queue = Level.sjf.code ∧ target = .rr ∨ queue = Level.fcfs.code ∧ target = .sjf

instance (queue : Word) (target : Level) : Decidable (OneUp queue target) :=
  inferInstanceAs (Decidable (_ ∨ _))

namespace Kernel

structure Steady (p : Slot) (k k' : Kernel) : Prop where
  ticks : k'.ticks = k.ticks
  queue : (k'.proc p).ti.queue = (k.proc p).ti.queue

theorem steady_update (hticks : k'.ticks = k.ticks)
    (hproc : k'.proc = update k.proc q x) (h : q = p → x.ti.queue = (k.proc q).ti.queue) :
    Steady p k k' := by
  refine ⟨hticks, ?_⟩
  rw [hproc]
  by_cases hq : p = q
  · subst hq
    rw [update_self, h rfl]
  · rw [update_of_ne hq]

theorem steady_wakeup (k : Kernel) (chan : Chan) : Steady p k (k.wakeup chan) :=
  ⟨rfl, by rw [wakeup, (wakeup1_nudge k.proc chan p).ti]⟩

theorem steady_exit (h : k.exit c q = some k') : Steady p k k' := by
  have hnudge : Nudge (k.proc p) ((k.wakeupParent q).reparent q p) :=
    (k.wakeupParent_nudge q p).trans ((k.wakeupParent q).reparent_nudge q p)
  refine ⟨exit_ticks h, ?_⟩
  rw [exit_proc h]
  split <;> rw [← hnudge.ti]

theorem steady_sleep (k : Kernel) (c : Fin ncpu) (q : Slot) (chan : Chan) :
    Steady p k (k.sleep c q chan) :=
  steady_update rfl rfl fun _ => rfl

theorem steady_wait (k : Kernel) (c : Fin ncpu) (q : Slot) : Steady p k (k.wait c q) := by
  rw [wait_eq]
  split
  · exact steady_update rfl rfl fun _ => rfl
  · split
    · exact k.steady_sleep c q _
    · exact ⟨rfl, rfl⟩

theorem steady_kill (k : Kernel) (pid : Word) : Steady p k (k.kill pid) := by
  unfold kill
  split
  · exact steady_update rfl rfl fun _ => rfl
  · exact ⟨rfl, rfl⟩

theorem steady_setInitialBurstConfidence (k : Kernel) (pid burst confidence : Word) :
    Steady p k (k.setInitialBurstConfidence pid burst confidence) := by
  unfold setInitialBurstConfidence
  split
  · exact steady_update rfl rfl fun _ => rfl
  · exact ⟨rfl, rfl⟩

theorem steady_schedule (k : Kernel) (c : Fin ncpu) : Steady p k (k.schedule c) := by
  cases hd : k.decision c with
  | refill =>
    rw [schedule_of_refill hd]
    exact ⟨rfl, rfl⟩
  | dispatch l q =>
    rw [schedule_of_dispatch hd]
    exact steady_update rfl rfl fun _ => rfl

theorem steady_chargeTick (k : Kernel) (c : Fin ncpu) (q : Slot) : Steady p k (k.chargeTick c q) := by
  refine ⟨k.chargeTick_ticks c q, ?_⟩
  by_cases hq : p = q
  · subst hq
    unfold chargeTick
    simp only
    split <;> simp [yield, leaveCpu, setProc, setCpu]
  · unfold chargeTick
    simp only
    split <;> simp [yield, leaveCpu, setProc, setCpu, hq]

theorem steady_timerRest (h : k.timerRest c user = some k') : Steady p k k' := by
  unfold timerRest at h
  split at h
  · cases h
    exact ⟨rfl, rfl⟩
  · split_ifs at h
    · exact steady_exit h
    · cases h
      exact k.steady_chargeTick c _
    · cases h
      exact ⟨rfl, rfl⟩

end Kernel

namespace Smp

/-- The step ends the process in the slot or stores in its queue: `wait` reaps it, a `change_queue`
has located it, or it makes the call whose counter is the queue. -/
def Disturbs (e : Smp × Act) (p : Slot) : Prop :=
  (∃ r, waits e = some (r, p)) ∨
    (∃ c r target, e.2 = .changeQueue c ∧ e.1.At c r (.located (some p) target)) ∨
      ∃ c, e.2 = .syscall c 27 ∧ e.1.current c = some p

/-- Nothing disturbs the process the pass is at, and its slot is the first with its pid. -/
def Undisturbed (e : Smp × Act) : Prop :=
  ∀ p, e.1.aging.slot = some p → ¬ Disturbs e p ∧
    ∀ q, (e.1.kernel.proc q).pid = (e.1.kernel.proc p).pid → p ≤ q

def AgingSafe (e : Smp × Act) : Prop :=
  ∀ p seen q target, e.2 = .age → e.1.aging = .store p seen q target →
    q = some p ∧ (e.1.kernel.proc p).pid = seen.pid ∧
      seen.state = .runnable ∧ e.1.kernel.starved seen ∧
      OneUp (e.1.kernel.proc p).ti.queue target

structure Found (k : Kernel) (p : Slot) (seen : Proc) : Prop where
  live : (k.proc p).state.Live
  pid : (k.proc p).pid = seen.pid
  runnable : seen.state = .runnable
  starved : k.starved seen

def Sound (k : Kernel) : Aging → Prop
  | .testSjf p seen | .testFcfs p seen => Found k p seen
  | .readPid p seen target => Found k p seen ∧ OneUp (k.proc p).ti.queue target
  | .locate p seen pid target =>
    Found k p seen ∧ OneUp (k.proc p).ti.queue target ∧ pid = seen.pid
  | .store p seen q target =>
    Found k p seen ∧ OneUp (k.proc p).ti.queue target ∧ q = some p
  | _ => True

theorem Sound.keep (h : Sound k x)
    (hlive : ∀ p, x.slot = some p → (k.proc p).state.Live → (k'.proc p).state.Live)
    (hpid : ∀ p, x.slot = some p → (k.proc p).state.Live → (k'.proc p).pid = (k.proc p).pid)
    (hsteady : ∀ p, x.slot = some p → (k.proc p).state.Live → k.Steady p k') : Sound k' x := by
  have hfound : ∀ p seen, x.slot = some p → Found k p seen →
      Found k' p seen ∧ (k'.proc p).ti.queue = (k.proc p).ti.queue := by
    intro p seen hp hf
    have hst := hsteady p hp hf.live
    have hstarved : k'.starved seen = k.starved seen := by rw [Kernel.starved, hst.ticks, Kernel.starved]
    exact ⟨⟨hlive p hp hf.live, (hpid p hp hf.live).trans hf.pid, hf.runnable, hstarved ▸ hf.starved⟩,
      hst.queue⟩
  cases x with
  | testSjf p seen => exact (hfound p seen rfl h).1
  | testFcfs p seen => exact (hfound p seen rfl h).1
  | readPid p seen target =>
    obtain ⟨hf, hqueue⟩ := hfound p seen rfl h.1
    exact ⟨hf, hqueue ▸ h.2⟩
  | locate p seen pid target =>
    obtain ⟨hf, hqueue⟩ := hfound p seen rfl h.1
    exact ⟨hf, hqueue ▸ h.2.1, h.2.2⟩
  | store p seen q target =>
    obtain ⟨hf, hqueue⟩ := hfound p seen rfl h.1
    exact ⟨hf, hqueue ▸ h.2.1, h.2.2⟩
  | idle => trivial
  | scan p => trivial
  | rest => trivial

theorem Change.live (h : Change s a t) (hs : s.Placed) (hp : (s.kernel.proc p).state.Live)
    (hno : ∀ r, waits (s, a) ≠ some (r, p)) :
    (t.kernel.proc p).state.Live ∧ (t.kernel.proc p).pid = (s.kernel.proc p).pid := by
  have hupdate : ∀ {q : Slot} {x : Proc}, t.kernel.proc = update s.kernel.proc q x →
      (q = p → x.state.Live ∧ x.pid = (s.kernel.proc p).pid) →
      (t.kernel.proc p).state.Live ∧ (t.kernel.proc p).pid = (s.kernel.proc p).pid := by
    intro q x hproc hx
    rw [hproc]
    by_cases hq : p = q
    · subst hq
      rw [update_self]
      exact hx rfl
    · rw [update_of_ne hq]
      exact ⟨hp, rfl⟩
  have hembryo : ∀ {r np : Slot}, (s.ctl r).child = some np → np ≠ p := by
    rintro r np hr rfl
    exact hp.2 (hs.embryo r np hr)
  cases h with
  | pass _ hcalm _ => exact ⟨(SameLife.of_wake (hcalm p).state).live.mpr hp, (hcalm p).pid⟩
  | dispatch c q _ _ _ _ hproc _ =>
    exact hupdate hproc fun hq => ⟨by simp [ProcState.Live], by rw [hq]⟩
  | yield c q ti _ hproc _ => exact hupdate hproc fun hq => ⟨by simp [ProcState.Live], by rw [hq]⟩
  | sleep c q chan _ _ hproc _ _ =>
    exact hupdate hproc fun hq => ⟨by simp [ProcState.Live], by rw [hq]⟩
  | exit c q _ _ hexit _ =>
    refine ⟨?_, hexit.pid p⟩
    by_cases hq : p = q
    · rw [hq, hexit.zombie]
      simp [ProcState.Live]
    · exact (SameLife.of_wake (hexit.state p hq)).live.mpr hp
  | reap c r q hat hreaped ht =>
    subst ht
    refine hupdate rfl fun hq => absurd ?_ (hno r)
    simp [waits, hat.1, hreaped, hq]
  | take c r np _ hunused hkernel _ =>
    refine hupdate (q := np) (by rw [hkernel]; rfl) fun hq => absurd ?_ hp.1
    rw [← hq, hunused]
  | free r np hchild hkernel _ =>
    exact hupdate (q := np) (by rw [hkernel]; rfl) fun hq => absurd hq (hembryo hchild)
  | setParent c r np hat hkernel _ =>
    exact hupdate (q := np) (by rw [hkernel]; rfl) fun hq => absurd hq (hembryo (by rw [hat.2]; rfl))
  | setRunnable c r np x hat hkernel _ _ =>
    exact hupdate (q := np) (by rw [hkernel]; rfl) fun hq => absurd hq (hembryo (by rw [hat.2]; rfl))

theorem Did.steady (h : Did s a t) (hs : s.Placed) (hp : (s.kernel.proc p).state.Live)
    (hno : ¬ Disturbs (s, a) p) (hage : a ≠ .age) (htick : a ≠ .tick) : s.kernel.Steady p t.kernel := by
  have hembryo : ∀ {r np : Slot}, (s.ctl r).child = some np → np ≠ p := by
    rintro r np hr rfl
    exact hp.2 (hs.embryo r np hr)
  cases h with
  | schedule => exact s.kernel.steady_schedule _
  | tick => exact absurd rfl htick
  | age => exact absurd rfl hage
  | timer _ _ hk => exact Kernel.steady_timerRest hk
  | @syscall c num r hat hnum =>
    refine Kernel.steady_update rfl rfl fun hr => ?_
    rw [Proc.countSyscall_queue _ hnum, if_neg]
    rintro rfl
    exact hno (.inr (.inr ⟨c, rfl, hr ▸ hat.1⟩))
  | allocproc _ htake =>
    rw [setCtl, (Kernel.takeSlot_eq_some htake).2]
    exact Kernel.steady_update rfl rfl fun _ => rfl
  | kstack hat =>
    exact Kernel.steady_update rfl rfl fun hq => absurd hq (hembryo (by rw [hat.2]; rfl))
  | noKstack => exact Kernel.steady_update rfl rfl fun _ => rfl
  | copyuvm => exact Kernel.steady_update rfl rfl fun _ => rfl
  | noCopyuvm => exact Kernel.steady_update rfl rfl fun _ => rfl
  | runnable => exact Kernel.steady_update rfl rfl fun _ => rfl
  | exit _ hk => exact Kernel.steady_exit hk
  | wait => exact s.kernel.steady_wait _ _
  | sleep => exact s.kernel.steady_sleep _ _ _
  | wakeup => exact s.kernel.steady_wakeup _
  | kill => exact s.kernel.steady_kill _
  | fault => exact Kernel.steady_update rfl rfl fun _ => rfl
  | @changeQueue c r q target hat =>
    cases q with
    | none => exact ⟨rfl, rfl⟩
    | some q =>
      refine Kernel.steady_update rfl rfl fun hq => absurd (.inr (.inl ⟨c, r, target, rfl, ?_⟩)) hno
      rwa [← hq]
  | setInitialBurstConfidence => exact s.kernel.steady_setInitialBurstConfidence _ _ _
  | _ => exact ⟨rfl, rfl⟩

theorem Did.aging_eq (h : Did s a t) (hage : a ≠ .age) (hp : t.aging.slot = some p) :
    t.aging = s.aging ∧ a ≠ .tick := by
  cases h with
  | tick => cases hp
  | age => exact absurd rfl hage
  | @timer c user k hrest =>
    simp only at hp ⊢
    split_ifs at hp ⊢ with hc
    · cases hp
    · exact ⟨rfl, by simp⟩
  | _ => exact ⟨rfl, by simp⟩

end Smp

theorem Kernel.getProcByPid_of_first {k : Kernel} {p : Slot}
    (h : ∀ q, (k.proc q).pid = (k.proc p).pid → p ≤ q) : k.getProcByPid (k.proc p).pid = some p := by
  refine getProcByPid_eq_some_iff.mpr ⟨rfl, fun q hq hpid => ?_⟩
  exact absurd (h q hpid) (not_le.mpr hq)

namespace Smp

theorem Sound.next {k k' : Kernel} {x y : Aging} (h : Sound k x) (hnext : x.next k = some (k', y))
    (hfirst : ∀ p, x.slot = some p → ∀ q, (k.proc q).pid = (k.proc p).pid → p ≤ q) : Sound k' y := by
  cases x with
  | idle => cases hnext
  | rest => cases hnext
  | scan p =>
    simp only [Aging.next] at hnext
    split at hnext
    case h_1 q hq =>
      cases hnext
      have hstarving := List.find?_some hq
      simp only [Kernel.starving, Bool.and_eq_true, beq_iff_eq] at hstarving
      obtain ⟨-, ⟨hrunnable, -⟩, hstarved⟩ := hstarving
      exact ⟨by simp [hrunnable, ProcState.Live], rfl, hrunnable, hstarved⟩
    case h_2 =>
      cases hnext
      trivial
  | testSjf p seen =>
    simp only [Aging.next] at hnext
    split at hnext
    case isTrue hsjf =>
      cases hnext
      exact ⟨h, .inl ⟨hsjf, rfl⟩⟩
    case isFalse =>
      cases hnext
      exact h
  | testFcfs p seen =>
    simp only [Aging.next] at hnext
    split at hnext
    case isTrue hfcfs =>
      cases hnext
      exact ⟨h, .inr ⟨hfcfs, rfl⟩⟩
    case isFalse =>
      cases hnext
      trivial
  | readPid p seen target =>
    cases hnext
    exact ⟨h.1, h.2, h.1.pid⟩
  | locate p seen pid target =>
    cases hnext
    obtain ⟨hfound, hup, hpid⟩ := h
    refine ⟨hfound, hup, ?_⟩
    rw [hpid, ← hfound.pid]
    exact Kernel.getProcByPid_of_first (hfirst p rfl)
  | store p seen q target =>
    cases hnext
    trivial

theorem Step.sound (h : Step s a t) (hs : s.Placed) (hok : Undisturbed (s, a))
    (hsound : Sound s.kernel s.aging) : Sound t.kernel t.aging := by
  by_cases hage : a = .age
  · subst hage
    cases h.did with
    | age hnext => exact hsound.next hnext fun p hp => (hok p hp).2
  · cases hslot : t.aging.slot with
    | none => cases hx : t.aging <;> simp_all [Aging.slot, Sound]
    | some p =>
      obtain ⟨heq, htick⟩ := h.did.aging_eq hage hslot
      rw [heq]
      have hno : ∀ p, s.aging.slot = some p → ¬ Disturbs (s, a) p := fun p hp => (hok p hp).1
      refine hsound.keep (fun p hp hlive => ?_) (fun p hp hlive => ?_) fun p hp hlive =>
        h.did.steady hs hlive (hno p hp) hage htick
      · exact (h.did.change.live hs hlive fun r hr => hno p hp (.inl ⟨r, hr⟩)).1
      · exact (h.did.change.live hs hlive fun r hr => hno p hp (.inl ⟨r, hr⟩)).2

theorem agingSafe_of_undisturbed (h : Run Step boot es t) (hok : ∀ e ∈ es, Undisturbed e) :
    ∀ e ∈ es, AgingSafe e := by
  have hinv : Run.Always (fun s => s.Placed ∧ Sound s.kernel s.aging) es t :=
    h.always_invariant (C := fun s a => Undisturbed (s, a))
      (fun _ _ _ h hok hs => ⟨h.did.change.placed hs.1, h.sound hs.1 hok hs.2⟩) hok
      ⟨boot_placed, trivial⟩
  intro e he p seen q target _ hstore
  have hsound := (hinv.1 e he).2
  rw [hstore] at hsound
  obtain ⟨hfound, hup, hq⟩ := hsound
  exact ⟨hq, hfound.pid, hfound.runnable, hfound.starved, hup⟩

theorem next_scan_of_still (h : k.Still) (p : Nat) : (Aging.scan p).next k = some (k, .rest) := by
  have hnone : (List.finRange nproc).find? (fun q => decide (p ≤ q.val) && k.starving q) = none := by
    rw [List.find?_eq_none]
    intro q _
    rcases h.aging q with hq | hq <;> simp [Kernel.starving, hq]
  simp only [Aging.next, hnone]

theorem still_tick (hs : s.kernel.Still) (hidle : s.aging = .idle) :
    ∃ es, Run Step s es { s with kernel := { s.kernel with ticks := s.kernel.ticks + 1 } } ∧
      ∀ e ∈ es, e.1.aging.slot = none := by
  obtain ⟨k, hk⟩ : ∃ k, { s.kernel with ticks := s.kernel.ticks + 1 } = k := ⟨_, rfl⟩
  have hstill : k.Still := hk ▸ hs.at _
  have hcpu := hstill.cpu
  have htick : Step s .tick { s with kernel := k, aging := .scan 0 } := by
    simp only [Step, step, hidle, hk, hstill.wakeup, if_true]
  have hage : Step { s with kernel := k, aging := .scan 0 } .age { s with kernel := k, aging := .rest } := by
    simp only [Step, step, next_scan_of_still hstill, Option.map_some]
  have htimer : Step { s with kernel := k, aging := .rest } (.timer 0 false) { s with kernel := k } := by
    simp [Step, step, UserClear, Kernel.timerRest, hcpu, hidle]
  rw [hk]
  refine ⟨_, .cons htick (.cons hage (.single htimer)), fun e he => ?_⟩
  simp only [List.mem_cons, List.not_mem_nil, or_false] at he
  rcases he with rfl | rfl | rfl
  · rw [hidle]
    rfl
  · rfl
  · rfl

def later (s : Smp) (n : Nat) : Smp :=
  { s with kernel := { s.kernel with ticks := s.kernel.ticks + BitVec.ofNat 32 n } }

theorem still_run (hs : s.kernel.Still) (hidle : s.aging = .idle) (n : Nat) :
    ∃ es, Run Step s es (s.later n) ∧ ∀ e ∈ es, e.1.aging.slot = none := by
  induction n with
  | zero => exact ⟨[], by simpa [later] using (Run.nil : Run Step s [] s), by simp⟩
  | succ n ih =>
    obtain ⟨es, hrun, hes⟩ := ih
    obtain ⟨fs, hlast, hfs⟩ := still_tick (s := s.later n) (hs.at _) hidle
    refine ⟨es ++ fs, ?_, fun e he => ?_⟩
    · rw [later, BitVec.ofNat_add, ← BitVec.add_assoc]
      exact hrun.append hlast
    · exact (List.mem_append.mp he).elim (hes e) (hfs e)

theorem undisturbed_of_alone
    (h : e.1.aging.slot = none ∨ e.2 = .age ∧ e.1.aging.slot = some 0) : Undisturbed e := by
  intro p hp
  rcases h with h | ⟨hage, h⟩
  · rw [h] at hp
    cases hp
  · rw [h] at hp
    cases hp
    exact ⟨by simp [Disturbs, waits, hage], fun q _ => Fin.zero_le q⟩

theorem agingSafe_of_runner :
    ∃ es t, Run Step boot es t ∧ (∀ e ∈ es, Undisturbed e) ∧ (∀ e ∈ es, AgingSafe e) ∧
      ∃ e ∈ es, e.2 = .age ∧ e.1.aging.stores = some (0, some 0, .sjf) := by
  let calls : List Act := [.schedule 1, .schedule 1, .getProcByPid 1 1 Level.fcfs.code, .changeQueue 1]
  let pass : List Act := .replicate 6 (.timer 1 true) ++ .tick :: .replicate 5 .age
  let alone (e : Smp × Act) : Bool :=
    decide (e.1.aging.slot = none ∨ e.2 = .age ∧ e.1.aging.slot = some 0)
  obtain ⟨s, hrun, h⟩ := Run.of_exec_any step boot calls
    (fun s => decide (s.kernel.Still ∧ s.aging = .idle) && (trace step boot calls).all alone &&
      (trace step (s.later 810) pass).all alone && (exec step (s.later 810) pass).any fun t =>
        alone (t, .age) && decide (t.aging.stores = some (0, some 0, .sjf)) && (step t .age).isSome)
    (by decide +kernel)
  simp only [Bool.and_eq_true, decide_eq_true_eq, Option.any_eq_true, List.all_eq_true] at h
  obtain ⟨⟨⟨⟨hstill, hidle⟩, hcalls⟩, hpass⟩, t, hexec, ⟨hage, hstores⟩, hlast⟩ := h
  obtain ⟨u, hu⟩ := Option.isSome_iff_exists.mp hlast
  obtain ⟨fs, hticks, hfs⟩ := still_run hstill hidle 810
  have hall := ((hrun.append hticks).append (Run.of_exec hexec)).append (.single hu)
  have hok : ∀ e ∈ trace step boot calls ++ fs ++ trace step (s.later 810) pass ++ [(t, .age)], Undisturbed e := by
    intro e he
    apply undisturbed_of_alone
    simp only [List.mem_append, List.mem_singleton] at he
    rcases he with ((he | he) | he) | rfl
    · exact of_decide_eq_true (hcalls e he)
    · exact .inl (hfs e he)
    · exact of_decide_eq_true (hpass e he)
    · exact of_decide_eq_true hage
  exact ⟨_, u, hall, hok, agingSafe_of_undisturbed hall hok,
    ⟨_, List.mem_append_right _ (List.mem_singleton_self _), rfl, hstores⟩⟩

theorem aging_lowers : ∃ es t, Run Step boot es t ∧ ∃ e ∈ es, ¬ AgingSafe e := by
  let calls : List Act := [.schedule 1, .schedule 1, .allocproc 1, .kstack 1 true, .copyuvm 1 true,
    .runnable 1, .getProcByPid 1 2 Level.rr.code, .changeQueue 1, .schedule 2, .schedule 2,
    .getProcByPid 1 1 Level.fcfs.code, .changeQueue 1]
  let pass : List Act := .replicate 6 (.timer 1 true) ++ .tick :: .replicate 4 .age ++
    [.getProcByPid 2 1 Level.rr.code, .changeQueue 2, .age]
  obtain ⟨s, hrun, h⟩ := Run.of_exec_any step boot calls
    (fun s => decide (s.kernel.Still ∧ s.aging = .idle) &&
      (exec step (s.later 810) pass).any fun t : Smp =>
        decide (t.aging.stores = some (0, some 0, .sjf) ∧ (t.kernel.proc 0).ti.queue = Level.rr.code) &&
          (step t .age).isSome)
    (by decide +kernel)
  simp only [Bool.and_eq_true, decide_eq_true_eq, Option.any_eq_true] at h
  obtain ⟨⟨hstill, hidle⟩, t, hexec, ⟨hstores, hqueue⟩, hlast⟩ := h
  obtain ⟨u, hu⟩ := Option.isSome_iff_exists.mp hlast
  obtain ⟨fs, hticks, -⟩ := still_run hstill hidle 810
  refine ⟨_, u, ((hrun.append hticks).append (Run.of_exec hexec)).append (.single hu),
    ⟨_, List.mem_append_right _ (List.mem_singleton_self _), fun hsafe => ?_⟩⟩
  cases haging : t.aging with
  | store p seen q target =>
    obtain ⟨-, -, -, -, hup⟩ := hsafe p seen q target rfl haging
    rw [haging] at hstores
    cases hstores
    rw [hqueue] at hup
    exact absurd hup (by decide)
  | _ =>
    rw [haging] at hstores
    cases hstores

end Smp

end Xv6
