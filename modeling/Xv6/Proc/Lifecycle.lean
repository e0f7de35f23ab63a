import Xv6.Proc.Sections

namespace Xv6

open Function Lib

structure Calm (hit : Prop) (a b : Proc) : Prop where
  pid : b.pid = a.pid
  parent : b.parent = a.parent
  chan : b.chan = a.chan
  state : b.state = a.state ∨ a.state = .sleeping ∧ b.state = .runnable
  killed : b.killed = a.killed ∨ hit

namespace Calm

variable {hit : Prop}

theorem refl (a : Proc) : Calm hit a a := ⟨rfl, rfl, rfl, .inl rfl, .inl rfl⟩

theorem trans (h : Calm hit a b) (h' : Calm hit b c) : Calm hit a c where
  pid := h'.pid.trans h.pid
  parent := h'.parent.trans h.parent
  chan := h'.chan.trans h.chan
  state := by
    rcases h'.state with heq | ⟨hb, hc⟩
    · rw [heq]
      exact h.state
    · rcases h.state with heq | ⟨-, hb'⟩
      · exact .inr ⟨heq ▸ hb, hc⟩
      · rw [hb'] at hb
        cases hb
  killed := by
    rcases h'.killed with heq | hhit
    · rw [heq]
      exact h.killed
    · exact .inr hhit

theorem mono (h : Calm hit a b) (hhit : hit → hit') : Calm hit' a b :=
  ⟨h.pid, h.parent, h.chan, h.state, h.killed.imp_right hhit⟩

theorem state_iff (h : Calm hit a b) (hs : x ≠ .sleeping) (hr : x ≠ .runnable) :
    b.state = x ↔ a.state = x := by
  rcases h.state with heq | ⟨ha, hb⟩
  · rw [heq]
  · rw [ha, hb]
    exact ⟨fun h => absurd h.symm hr, fun h => absurd h.symm hs⟩

theorem sleeping (h : Calm hit a b) (hb : b.state = .sleeping) : a.state = .sleeping := by
  rcases h.state with heq | ⟨ha, -⟩
  · rwa [← heq]
  · exact ha

end Calm

theorem wakeup1_calm (t : Table) (chan : Chan) (p : Slot) :
    Calm hit (t p) (wakeup1 t chan p) := by
  unfold wakeup1
  split
  case isTrue h => exact ⟨rfl, rfl, rfl, .inr ⟨h.1, rfl⟩, .inl rfl⟩
  case isFalse => exact .refl _

theorem wakeup1_awake (h : (wakeup1 t chan p).state = .sleeping) :
    (wakeup1 t chan p).chan ≠ some chan := by
  unfold wakeup1 at h ⊢
  split at h
  case isTrue => cases h
  case isFalse hno =>
    rw [if_neg hno]
    exact fun hchan => hno ⟨h, hchan⟩

theorem Proc.countSyscall_calm (p : Proc) (num : Word) : Calm hit p (p.countSyscall num) := by
  unfold Proc.countSyscall Proc.incUsedSyscalls
  split <;> exact ⟨rfl, rfl, rfl, .inl rfl, .inl rfl⟩

def Ctl.child : Ctl → Option Slot
  | .allocated np | .stacked np | .copied np => some np
  | _ => none

def Ctl.Keeps (x y : Ctl) : Prop := y.child = x.child ∧ ∀ np, y = .copied np ↔ x = .copied np

theorem Ctl.Keeps.refl (x : Ctl) : x.Keeps x := ⟨rfl, fun _ => .rfl⟩

namespace Kernel

variable {k k' : Kernel} {c : Fin ncpu} {p q : Slot}

def SameCpus (k k' : Kernel) : Prop := ∀ c, (k'.cpus c).proc = (k.cpus c).proc

theorem SameCpus.of_eq (h : k'.cpus = k.cpus) : k.SameCpus k' := fun c => by rw [h]

structure Leaves (c : Fin ncpu) (p : Slot) (k k' : Kernel) : Prop where
  here : (k.cpus c).proc = some p
  gone : (k'.cpus c).proc = none
  cpus : ∀ d, d ≠ c → (k'.cpus d).proc = (k.cpus d).proc

theorem leaves_leaveCpu (h : (k.cpus c).proc = some p) (hcpus : k.SameCpus k') :
    Leaves c p k (k'.leaveCpu c) where
  here := h
  gone := by simp [leaveCpu]
  cpus d hd := by simp [leaveCpu, setCpu_of_ne _ _ hd, hcpus d]

structure Exits (k : Kernel) (p : Slot) (k' : Kernel) : Prop where
  not_init : k.initproc ≠ some p
  zombie : (k'.proc p).state = .zombie
  pid : ∀ q, (k'.proc q).pid = (k.proc q).pid
  chan : ∀ q, (k'.proc q).chan = (k.proc q).chan
  killed : ∀ q, (k'.proc q).killed = (k.proc q).killed
  parent : ∀ q, (k'.proc q).parent =
    if (k.proc q).parent = some p then k.initproc else (k.proc q).parent
  state : ∀ q, q ≠ p → (k'.proc q).state = (k.proc q).state ∨
    (k.proc q).state = .sleeping ∧ (k'.proc q).state = .runnable
  wakesParent : ∀ r, (k.proc p).parent = some r → ∀ q, (k'.proc q).state = .sleeping →
    (k'.proc q).chan ≠ some (.proc r)
  wakesInit : ∀ i q, k.initproc = some i → (k.proc q).parent = some p → (k.proc q).state = .zombie →
    ∀ r, (k'.proc r).state = .sleeping → (k'.proc r).chan ≠ some (.proc i)

theorem calm_setProc (hit : Slot → Prop) (h : Calm (hit p) (k.proc p) x) (q : Slot) :
    Calm (hit q) (k.proc q) ((k.setProc p x).proc q) := by
  by_cases hq : q = p
  · subst hq
    rwa [setProc_self]
  · rw [setProc_of_ne _ _ hq]
    exact .refl _

theorem calm_setProc_ti (k : Kernel) (p q : Slot) (ti : TimeInfo) :
    Calm hit (k.proc q) ((k.setProc p { k.proc p with ti := ti }).proc q) := by
  have hself : Calm hit (k.proc p) { k.proc p with ti := ti } := ⟨rfl, rfl, rfl, .inl rfl, .inl rfl⟩
  exact calm_setProc (fun _ => hit) hself q

theorem storeQueue_cpus (k : Kernel) (p : Option Slot) (target : Word) :
    (k.storeQueue p target).cpus = k.cpus := by
  cases p <;> rfl

theorem storeQueue_calm (k : Kernel) (p : Option Slot) (target : Word) (q : Slot) :
    Calm False (k.proc q) ((k.storeQueue p target).proc q) := by
  cases p with
  | none => exact .refl _
  | some p => exact k.calm_setProc_ti p q _

theorem setInitialBurstConfidence_cpus (k : Kernel) (pid burst confidence : Word) :
    (k.setInitialBurstConfidence pid burst confidence).cpus = k.cpus := by
  unfold setInitialBurstConfidence
  split <;> rfl

theorem setInitialBurstConfidence_calm (k : Kernel) (pid burst confidence : Word) (q : Slot) :
    Calm False (k.proc q) ((k.setInitialBurstConfidence pid burst confidence).proc q) := by
  unfold setInitialBurstConfidence
  split
  · exact k.calm_setProc_ti _ q _
  · exact .refl _

theorem getProcByPid_eq_some_iff :
    k.getProcByPid pid = some p ↔ (k.proc p).pid = pid ∧ ∀ q < p, (k.proc q).pid ≠ pid := by
  rw [getProcByPid, find?_finRange_eq_some_iff]
  simp

theorem takeSlot_eq_some (h : k.takeSlot = some (np, k')) :
    (k.proc np).state = .unused ∧ k' = { k with nextpid := k.nextpid + 1 }.setProc np
      { (k.proc np).clearUsedSyscalls with state := .embryo, pid := k.nextpid } := by
  obtain ⟨p, hp, heq⟩ := Option.map_eq_some_iff.mp h
  cases heq
  have := List.find?_some hp
  exact ⟨by simpa using this, rfl⟩

theorem wakeupParent_calm (k : Kernel) (p q : Slot) :
    Calm hit (k.proc q) ((k.wakeupParent p).proc q) := by
  unfold wakeupParent
  split
  · exact wakeup1_calm k.proc _ q
  · exact .refl _

theorem wakeupParent_awake (h : (k.proc p).parent = some r)
    (hq : ((k.wakeupParent p).proc q).state = .sleeping) :
    ((k.wakeupParent p).proc q).chan ≠ some (.proc r) := by
  simp only [wakeupParent, h] at hq ⊢
  exact wakeup1_awake hq

theorem wakeupParent_initproc (k : Kernel) (p : Slot) : (k.wakeupParent p).initproc = k.initproc := by
  unfold wakeupParent
  split <;> rfl

theorem reparent_calm (k : Kernel) (p q : Slot) :
    Calm hit (k.giveToInit p q) (k.reparent p q) := by
  cases hinit : k.initproc with
  | none =>
    simp only [reparent, hinit]
    exact .refl _
  | some i =>
    simp only [reparent, hinit]
    split
    · exact wakeup1_calm _ _ q
    · exact .refl _

theorem reparent_awake (hinit : k.initproc = some i) (hparent : (k.proc q).parent = some p)
    (hzombie : (k.proc q).state = .zombie) (hr : (k.reparent p r).state = .sleeping) :
    (k.reparent p r).chan ≠ some (.proc i) := by
  have hex : ∃ q, (k.proc q).parent = some p ∧ (k.proc q).state = .zombie := ⟨q, hparent, hzombie⟩
  simp only [reparent, hinit, if_pos hex] at hr ⊢
  exact wakeup1_awake hr

theorem giveToInit_parent (k : Kernel) (p q : Slot) :
    (k.giveToInit p q).parent = if (k.proc q).parent = some p then k.initproc else (k.proc q).parent := by
  unfold giveToInit
  split <;> rfl

theorem giveToInit_rest (k : Kernel) (p q : Slot) :
    { k.giveToInit p q with parent := (k.proc q).parent } = k.proc q := by
  unfold giveToInit
  split <;> rfl

theorem exit_eq (h : k.exit c p = some k') :
    k.initproc ≠ some p ∧
      k' = ({ k with proc := (k.wakeupParent p).reparent p }.setProc p
        { (k.wakeupParent p).reparent p p with state := .zombie }).leaveCpu c := by
  unfold exit at h
  split at h
  case isTrue => cases h
  case isFalse hinit =>
    cases h
    exact ⟨hinit, rfl⟩

theorem exit_proc (h : k.exit c p = some k') (q : Slot) :
    k'.proc q = if q = p then { (k.wakeupParent p).reparent p q with state := .zombie }
      else (k.wakeupParent p).reparent p q := by
  obtain ⟨-, rfl⟩ := exit_eq h
  by_cases hq : q = p
  · subst hq
    simp [leaveCpu]
  · simp [leaveCpu, setProc, hq]

theorem reparent_wakeupParent (k : Kernel) (p q : Slot) :
    Calm False { k.proc q with
      parent := if (k.proc q).parent = some p then k.initproc else (k.proc q).parent }
      ((k.wakeupParent p).reparent p q) := by
  have hwake : Calm False (k.proc q) ((k.wakeupParent p).proc q) := k.wakeupParent_calm p q
  have hparent := (k.wakeupParent p).giveToInit_parent p q
  have hrest := (k.wakeupParent p).giveToInit_rest p q
  rw [wakeupParent_initproc, hwake.parent] at hparent
  have hgive : Calm False { k.proc q with
      parent := if (k.proc q).parent = some p then k.initproc else (k.proc q).parent }
      ((k.wakeupParent p).giveToInit p q) := by
    rw [← hrest] at hwake
    exact ⟨hwake.pid, hparent, hwake.chan, hwake.state, hwake.killed⟩
  exact hgive.trans ((k.wakeupParent p).reparent_calm p q)

theorem exit_exits (h : k.exit c p = some k') : Exits k p k' := by
  have htable := k.reparent_wakeupParent p
  have hself : (k'.proc p).state = .zombie := by rw [exit_proc h, if_pos rfl]
  have hfields : ∀ q, (k'.proc q).pid = (k.proc q).pid ∧ (k'.proc q).chan = (k.proc q).chan ∧
      (k'.proc q).killed = (k.proc q).killed ∧ (k'.proc q).parent =
        if (k.proc q).parent = some p then k.initproc else (k.proc q).parent := by
    intro q
    have hq := htable q
    rw [exit_proc h]
    split <;> exact ⟨hq.pid, hq.chan, by simpa using hq.killed, hq.parent⟩
  have hother : ∀ q, q ≠ p → k'.proc q = (k.wakeupParent p).reparent p q := by
    intro q hq
    rw [exit_proc h, if_neg hq]
  have hasleep : ∀ q, (k'.proc q).state = .sleeping → q ≠ p := by
    rintro q hq rfl
    rw [hself] at hq
    cases hq
  exact {
    not_init := (exit_eq h).1
    zombie := hself
    pid := fun q => (hfields q).1
    chan := fun q => (hfields q).2.1
    killed := fun q => (hfields q).2.2.1
    parent := fun q => (hfields q).2.2.2
    state := fun q hq => by
      rw [hother q hq]
      exact (htable q).state
    wakesParent := fun r hr q hq => by
      have heq := hother q (hasleep q hq)
      rw [heq] at hq ⊢
      have hlate : Calm False _ _ := (k.wakeupParent p).reparent_calm p q
      have hrest := (k.wakeupParent p).giveToInit_rest p q
      have hstate : ((k.wakeupParent p).proc q).state = .sleeping := by
        rw [← hrest]
        exact hlate.sleeping hq
      have hchan := wakeupParent_awake hr hstate
      rw [← hrest] at hchan
      rwa [hlate.chan]
    wakesInit := fun i q hi hparent hzombie r hr => by
      have heq := hother r (hasleep r hr)
      rw [heq] at hr ⊢
      have hwake : Calm False (k.proc q) ((k.wakeupParent p).proc q) := k.wakeupParent_calm p q
      refine reparent_awake (q := q) ?_ ?_ ?_ hr
      · rw [wakeupParent_initproc, hi]
      · rw [hwake.parent, hparent]
      · exact (hwake.state_iff (by simp) (by simp)).mpr hzombie }

def reaped (k : Kernel) (p : Slot) : Option Slot :=
  (List.finRange nproc).find? fun q => (k.proc q).parent == some p && (k.proc q).state == .zombie

theorem reaped_eq_some (h : k.reaped p = some q) :
    (k.proc q).parent = some p ∧ (k.proc q).state = .zombie := by
  unfold reaped at h
  have := List.find?_some h
  simpa using this

theorem reaped_eq_none (h : k.reaped p = none) (q : Slot) (hq : (k.proc q).parent = some p) :
    (k.proc q).state ≠ .zombie := by
  unfold reaped at h
  have := List.find?_eq_none.mp h q (List.mem_finRange q)
  simpa [hq] using this

def reap (x : Proc) : Proc := { x with pid := 0, parent := none, killed := false, state := .unused }

theorem wait_eq (k : Kernel) (c : Fin ncpu) (p : Slot) :
    k.wait c p = match k.reaped p with
      | some q => k.setProc q (reap (k.proc q))
      | none => if ((List.finRange nproc).any fun q => (k.proc q).parent == some p) &&
          !(k.proc p).killed then k.sleep c p (.proc p) else k := rfl

end Kernel

namespace Smp

def Hit (s : Smp) (a : Act) (q : Slot) : Prop :=
  (∃ pid, a = .kill pid ∧ s.kernel.getProcByPid pid = some q) ∨
    ∃ c, (s.kernel.cpus c).proc = some q

def Exiting (s : Smp) (a : Act) (c : Fin ncpu) (p : Slot) : Prop :=
  a = .exit c ∧ s.current c = some p ∨
    a = .timer c true ∧ (s.kernel.cpus c).proc = some p ∧ (s.kernel.proc p).killed

inductive Change (s : Smp) : Act → Smp → Prop
  | pass {a t} : s.kernel.SameCpus t.kernel →
      (∀ q, Calm (s.Hit a q) (s.kernel.proc q) (t.kernel.proc q)) →
      (∀ p, (s.ctl p).Keeps (t.ctl p)) → Change s a t
  | dispatch {a t} (c p) : (s.kernel.cpus c).proc = none → (s.kernel.proc p).state = .runnable →
      (t.kernel.cpus c).proc = some p →
      (∀ d, d ≠ c → (t.kernel.cpus d).proc = (s.kernel.cpus d).proc) →
      t.kernel.proc = runProcessOnCpu s.kernel.proc p → t.ctl = s.ctl → Change s a t
  | yield {a t} (c p ti) : s.kernel.Leaves c p t.kernel →
      t.kernel.proc = update s.kernel.proc p
        { s.kernel.proc p with state := .runnable, ti := ti } →
      t.ctl = s.ctl → Change s a t
  | sleep {a t} (c p chan) : s.ctl p = .clear → s.kernel.Leaves c p t.kernel →
      t.kernel.proc = update s.kernel.proc p
        { s.kernel.proc p with state := .sleeping, chan := some chan } →
      (∀ r, chan = .proc r → r = p ∧
        ∀ q, (s.kernel.proc q).parent = some p → (s.kernel.proc q).state ≠ .zombie) →
      t.ctl = s.ctl → Change s a t
  | exit {a t} (c p) : s.ctl p = .clear → s.kernel.Leaves c p t.kernel →
      s.kernel.Exits p t.kernel → t.ctl = s.ctl → s.Exiting a c p → Change s a t
  | reap {t} (c p q) : s.At c p .clear → s.kernel.reaped p = some q →
      t = { s with kernel := s.kernel.setProc q (Kernel.reap (s.kernel.proc q)) } →
      Change s (.wait c) t
  | take {t} (c p np) : s.At c p .clear → (s.kernel.proc np).state = .unused →
      t.kernel = { s.kernel with nextpid := s.kernel.nextpid + 1 }.setProc np
        { (s.kernel.proc np).clearUsedSyscalls with state := .embryo, pid := s.kernel.nextpid } →
      t.ctl = update s.ctl p (.allocated np) → Change s (.allocproc c) t
  | free {a t} (p np) : (s.ctl p).child = some np → t.kernel = s.kernel.freeSlot np →
      t.ctl = update s.ctl p .clear → s.ctl p ≠ .copied np → Change s a t
  | setParent {a t} (c p np) : s.At c p (.stacked np) → t.kernel = s.kernel.setParent np p →
      t.ctl = update s.ctl p (.copied np) → Change s a t
  | setRunnable {t} (c p np x) : s.At c p (.copied np) → t.kernel = s.kernel.setRunnable np → x.child = none →
      t.ctl = update s.ctl p x → Change s (.runnable c) t

variable {s t : Smp} {a : Act} {c : Fin ncpu} {p q : Slot}

theorem current_proc (h : s.current c = some p) : (s.kernel.cpus c).proc = some p := by
  unfold current at h
  split at h
  · cases h
  · exact h

theorem Change.pass_ctl (hcpus : t.kernel.cpus = s.kernel.cpus)
    (hcalm : ∀ q, Calm (s.Hit a q) (s.kernel.proc q) (t.kernel.proc q)) (hctl : t.ctl = s.ctl) :
    Change s a t :=
  .pass (.of_eq hcpus) hcalm fun p => by
    rw [hctl]
    exact .refl _

theorem keeps_update (h : (s.ctl p).Keeps x) (q : Slot) :
    (s.ctl q).Keeps (update s.ctl p x q) := by
  by_cases hq : q = p
  · subst hq
    rwa [update_self]
  · rw [update_of_ne hq]
    exact .refl _

theorem schedule_change (hproc : (s.kernel.cpus c).proc = none) :
    Change s a { s with kernel := s.kernel.schedule c } := by
  cases hd : s.kernel.decision c with
  | refill =>
    rw [Kernel.schedule_of_refill hd]
    refine .pass (fun d => ?_) (fun q => .refl _) (fun p => .refl _)
    by_cases hdc : d = c
    · subst hdc
      simp [refill]
    · simp [Kernel.setCpu_of_ne _ _ hdc]
  | dispatch l p =>
    have hrunnable := (Proc.candidate_iff.mp (Kernel.decision_candidate hd)).1
    rw [Kernel.schedule_of_dispatch hd]
    refine .dispatch c p hproc hrunnable ?_ (fun d hdc => ?_) rfl rfl
    · simp
    · simp [Kernel.setCpu_of_ne _ _ hdc]

theorem next_quiet {k k' : Kernel} {x y : Aging} (h : x.next k = some (k', y)) :
    k'.cpus = k.cpus ∧ ∀ q, Calm False (k.proc q) (k'.proc q) := by
  have hsame : k.cpus = k.cpus ∧ ∀ q, Calm False (k.proc q) (k.proc q) := ⟨rfl, fun q => .refl _⟩
  cases x with
  | idle => cases h
  | rest => cases h
  | scan p =>
    simp only [Aging.next] at h
    split at h <;> cases h <;> exact hsame
  | testSjf p seen =>
    simp only [Aging.next] at h
    split at h <;> cases h <;> exact hsame
  | testFcfs p seen =>
    simp only [Aging.next] at h
    split at h <;> cases h <;> exact hsame
  | readPid p seen target => cases h; exact hsame
  | locate p seen pid target => cases h; exact hsame
  | store p seen q target =>
    cases h
    exact ⟨k.storeQueue_cpus q _, k.storeQueue_calm q _⟩

theorem chargeTick_change (hp : (s.kernel.cpus c).proc = some p)
    (hk : s.kernel.chargeTick c p = k) : Change s a { s with kernel := k, aging := x } := by
  subst hk
  have hcpus : s.kernel.SameCpus
      (s.kernel.setCpu c ((s.kernel.cpus c).updateRemainTimes (s.kernel.proc p).ti.queue)) := by
    intro d
    by_cases hd : d = c
    · subst hd
      rw [Kernel.setCpu_self, Kernel.updateRemainTimes_proc]
    · rw [Kernel.setCpu_of_ne _ _ hd]
  unfold Kernel.chargeTick
  simp only
  split
  · refine .yield c p { (s.kernel.proc p).ti with ticksUsed := 0 }
      (Kernel.leaves_leaveCpu hp hcpus) ?_ rfl
    simp [Kernel.yield, Kernel.leaveCpu, Kernel.setProc, Kernel.setCpu]
  · exact .pass hcpus (fun q => s.kernel.calm_setProc_ti p q _) fun p => .refl _

theorem exit_change (hp : (s.kernel.cpus c).proc = some p)
    (hctl : s.ctl p = .clear) (h : s.kernel.exit c p = some k) (hexiting : s.Exiting a c p) :
    Change s a { s with kernel := k, aging := x } := by
  refine .exit c p hctl ?_ (Kernel.exit_exits h) rfl hexiting
  obtain ⟨-, rfl⟩ := Kernel.exit_eq h
  exact Kernel.leaves_leaveCpu hp fun d => rfl

theorem timerRest_change (hclear : s.UserClear c user)
    (h : s.kernel.timerRest c user = some k) :
    Change s (.timer c user) { s with kernel := k, aging := x } := by
  have hsame : Change s (.timer c user) { s with aging := x } := .pass_ctl rfl (fun q => .refl _) rfl
  unfold Kernel.timerRest at h
  split at h
  case h_1 =>
    cases h
    exact hsame
  case h_2 p hp =>
    split at h
    case isTrue hkill =>
      simp only [Bool.and_eq_true] at hkill
      exact exit_change hp (hclear hkill.2 p hp) h (.inr ⟨by rw [hkill.2], hp, hkill.1⟩)
    case isFalse =>
      split at h
      · cases h
        exact chargeTick_change hp rfl
      · cases h
        exact hsame

theorem sleep_change (hp : (s.kernel.cpus c).proc = some p) (hctl : s.ctl p = .clear)
    (hchan : ∀ r, chan = .proc r → r = p ∧
      ∀ q, (s.kernel.proc q).parent = some p → (s.kernel.proc q).state ≠ .zombie) :
    Change s a { s with kernel := s.kernel.sleep c p chan } :=
  .sleep c p chan hctl (Kernel.leaves_leaveCpu hp fun _ => rfl) rfl hchan rfl

theorem wait_change (hat : s.At c p .clear) :
    Change s (.wait c) { s with kernel := s.kernel.wait c p } := by
  rw [Kernel.wait_eq]
  cases hreaped : s.kernel.reaped p with
  | some q => exact .reap c p q hat hreaped rfl
  | none =>
    simp only
    split
    · refine sleep_change (current_proc hat.1) hat.2 fun r hr => ?_
      cases hr
      exact ⟨rfl, Kernel.reaped_eq_none hreaped⟩
    · exact .pass_ctl rfl (fun q => .refl _) rfl

theorem kill_change (pid : Word) : Change s (.kill pid) { s with kernel := s.kernel.kill pid } := by
  unfold Kernel.kill
  split
  case h_1 q hq =>
    refine .pass_ctl rfl (Kernel.calm_setProc _ ⟨rfl, rfl, rfl, ?_, .inr (.inl ⟨pid, rfl, hq⟩)⟩) rfl
    by_cases hs : (s.kernel.proc q).state = .sleeping
    · exact .inr ⟨hs, if_pos hs⟩
    · exact .inl (if_neg hs)
  case h_2 => exact .pass_ctl rfl (fun q => .refl _) rfl

theorem Did.change (h : Did s a t) : Change s a t := by
  cases h with
  | schedule hproc _ => exact schedule_change hproc
  | tick _ => exact .pass_ctl rfl (fun q => wakeup1_calm _ _ q) rfl
  | age hnext =>
    obtain ⟨hcpus, hcalm⟩ := next_quiet hnext
    exact .pass_ctl hcpus (fun q => (hcalm q).mono False.elim) rfl
  | timer _ hclear hk => exact timerRest_change hclear hk
  | syscall hat _ _ => exact .pass_ctl rfl (Kernel.calm_setProc _ (Proc.countSyscall_calm _ _)) rfl
  | allocproc hat htake =>
    obtain ⟨hunused, hk⟩ := Kernel.takeSlot_eq_some htake
    exact .take _ _ _ hat hunused hk rfl
  | full _ _ => exact .pass_ctl rfl (fun q => .refl _) rfl
  | kstack hat =>
    refine .pass (fun _ => rfl) (fun q => s.kernel.calm_setProc_ti _ q _) (keeps_update ?_)
    rw [hat.2]
    exact ⟨rfl, fun np => by simp⟩
  | noKstack hat => exact .free _ _ (by rw [hat.2]; rfl) rfl rfl (by simp [hat.2])
  | copyuvm hat => exact .setParent _ _ _ hat rfl rfl
  | noCopyuvm hat => exact .free _ _ (by rw [hat.2]; rfl) rfl rfl (by simp [hat.2])
  | runnable hat =>
    refine .setRunnable _ _ _ _ hat rfl ?_ rfl
    split <;> rfl
  | exit hat hk => exact exit_change (current_proc hat.1) hat.2 hk (.inl ⟨rfl, hat.1⟩)
  | wait hat => exact wait_change hat
  | sleep hat hchan =>
    refine sleep_change (current_proc hat.1) hat.2 fun r hr => ?_
    subst hr
    exact absurd trivial hchan
  | wakeup => exact .pass_ctl rfl (fun q => wakeup1_calm _ _ q) rfl
  | kill => exact kill_change _
  | fault hat =>
    refine .pass_ctl rfl (Kernel.calm_setProc _ ⟨rfl, rfl, rfl, .inl rfl, .inr ?_⟩) rfl
    exact .inr ⟨_, current_proc hat.1⟩
  | getProcByPid hp hctl =>
    refine .pass (fun _ => rfl) (fun q => .refl _) (keeps_update ?_)
    rcases hctl with hctl | hctl <;> rw [hctl] <;> exact ⟨rfl, fun np => by simp⟩
  | changeQueue hat =>
    refine .pass (.of_eq (Kernel.storeQueue_cpus _ _ _)) (fun q => (Kernel.storeQueue_calm _ _ _ q).mono False.elim)
      (keeps_update ?_)
    rw [hat.2]
    exact ⟨rfl, fun np => by simp⟩
  | setInitialBurstConfidence hat =>
    refine .pass_ctl ?_ (fun q => ?_) rfl
    · exact Kernel.setInitialBurstConfidence_cpus _ _ _ _
    · exact (Kernel.setInitialBurstConfidence_calm _ _ _ _ q).mono False.elim

end Smp

end Xv6
