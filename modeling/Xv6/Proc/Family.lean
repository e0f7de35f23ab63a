import Xv6.Proc.OneCpu

namespace Xv6

open Function Lib

namespace ProcState

def Live (x : ProcState) : Prop := x ≠ .unused ∧ x ≠ .embryo

def Alive (x : ProcState) : Prop := x ≠ .unused ∧ x ≠ .embryo ∧ x ≠ .zombie

instance : DecidablePred Live := fun x => inferInstanceAs (Decidable (x ≠ .unused ∧ x ≠ .embryo))

theorem Alive.live {x : ProcState} (h : x.Alive) : x.Live := ⟨h.1, h.2.1⟩

end ProcState

structure SameLife (x y : ProcState) : Prop where
  live : y.Live ↔ x.Live
  zombie : y = .zombie ↔ x = .zombie

namespace SameLife

theorem alive (h : SameLife x y) : y.Alive ↔ x.Alive := by
  have halive : ∀ x : ProcState, x.Alive ↔ x.Live ∧ x ≠ .zombie := fun x => and_assoc.symm
  rw [halive, halive, h.live, ne_eq, h.zombie]

theorem of_wake (h : y = x ∨ x = .sleeping ∧ y = .runnable) : SameLife x y := by
  rcases h with rfl | ⟨rfl, rfl⟩
  · exact ⟨.rfl, .rfl⟩
  · exact ⟨by decide, by decide⟩

theorem of_alive (hx : x.Alive) (hy : y.Alive) : SameLife x y :=
  ⟨⟨fun _ => hx.live, fun _ => hy.live⟩, ⟨fun h => absurd h hy.2.2, fun h => absurd h hx.2.2⟩⟩

end SameLife

namespace Kernel

structure SameIds (k k' : Kernel) : Prop where
  initproc : k'.initproc = k.initproc
  nextpid : k'.nextpid = k.nextpid

theorem sameIds_storeQueue (k : Kernel) (p : Option Slot) (target : Word) :
    SameIds k (k.storeQueue p target) := by
  cases p <;> exact ⟨rfl, rfl⟩

theorem sameIds_kill (k : Kernel) (pid : Word) : SameIds k (k.kill pid) := by
  unfold kill
  split <;> exact ⟨rfl, rfl⟩

theorem sameIds_setInitialBurstConfidence (k : Kernel) (pid burst confidence : Word) :
    SameIds k (k.setInitialBurstConfidence pid burst confidence) := by
  unfold setInitialBurstConfidence
  split <;> exact ⟨rfl, rfl⟩

theorem sameIds_wait (k : Kernel) (c : Fin ncpu) (p : Slot) : SameIds k (k.wait c p) := by
  rw [wait_eq]
  cases k.reaped p with
  | some q => exact ⟨rfl, rfl⟩
  | none =>
    simp only
    split <;> exact ⟨rfl, rfl⟩

theorem sameIds_exit (h : k.exit c p = some k') : SameIds k k' := by
  rw [(exit_eq h).2]
  exact ⟨rfl, rfl⟩

theorem sameIds_timerRest (h : k.timerRest c user = some k') :
    SameIds k k' := by
  unfold timerRest at h
  split at h
  · cases h
    exact ⟨rfl, rfl⟩
  · split_ifs at h
    · exact sameIds_exit h
    · cases h
      unfold chargeTick
      simp only
      split <;> exact ⟨rfl, rfl⟩
    · cases h
      exact ⟨rfl, rfl⟩

end Kernel

theorem sameIds_next {k k' : Kernel} {x y : Aging} (h : x.next k = some (k', y)) : k.SameIds k' := by
  cases x with
  | idle => cases h
  | rest => cases h
  | store p seen q target => cases h; exact k.sameIds_storeQueue q _
  | readPid p seen target => cases h; exact ⟨rfl, rfl⟩
  | locate p seen pid target => cases h; exact ⟨rfl, rfl⟩
  | _ =>
    simp only [Aging.next] at h
    split at h <;> cases h <;> exact ⟨rfl, rfl⟩

namespace Smp

structure Family (s : Smp) : Prop where
  init : ∃ i, s.kernel.initproc = some i ∧ (s.kernel.proc i).state.Alive ∧
    (s.kernel.proc i).parent = none ∧ (s.kernel.proc i).pid = 1
  parent : ∀ q, s.kernel.initproc ≠ some q → (s.kernel.proc q).state.Live →
    ∃ r, (s.kernel.proc q).parent = some r ∧ (s.kernel.proc r).state.Alive
  forking : ∀ p np, (s.ctl p).child = some np → (s.kernel.proc p).state.Alive
  copied : ∀ p np, s.ctl p = .copied np → (s.kernel.proc np).parent = some p
  other : ∀ q, (s.kernel.proc q).parent ≠ some q
  asleep : ∀ p q, (s.kernel.proc p).state = .sleeping → (s.kernel.proc p).chan = some (.proc p) →
    (s.kernel.proc q).parent = some p → (s.kernel.proc q).state ≠ .zombie

variable {s t : Smp} {a : Act} {c : Fin ncpu} {p q : Slot}

theorem Family.keep (hs : s.Family) (hinit : t.kernel.initproc = s.kernel.initproc)
    (hparent : ∀ q, (t.kernel.proc q).parent = (s.kernel.proc q).parent)
    (hpid : ∀ q, (t.kernel.proc q).pid = (s.kernel.proc q).pid)
    (hlife : ∀ q, SameLife (s.kernel.proc q).state (t.kernel.proc q).state)
    (hsleep : ∀ p, (t.kernel.proc p).state = .sleeping → (t.kernel.proc p).chan = some (.proc p) →
      ∀ q, (s.kernel.proc q).parent = some p → (s.kernel.proc q).state ≠ .zombie)
    (hctl : ∀ p, (s.ctl p).Keeps (t.ctl p)) : t.Family where
  init := by
    obtain ⟨i, hi, halive, hnone, hone⟩ := hs.init
    exact ⟨i, hinit.trans hi, (hlife i).alive.mpr halive, (hparent i).trans hnone, (hpid i).trans hone⟩
  parent q hq hlive := by
    rw [hinit] at hq
    obtain ⟨r, hr, halive⟩ := hs.parent q hq ((hlife q).live.mp hlive)
    exact ⟨r, (hparent q).trans hr, (hlife r).alive.mpr halive⟩
  forking p np hp := by
    rw [(hctl p).1] at hp
    exact (hlife p).alive.mpr (hs.forking p np hp)
  copied p np hp := (hparent np).trans (hs.copied p np (((hctl p).2 np).mp hp))
  other q := by
    rw [hparent]
    exact hs.other q
  asleep p q hp hchan hq := by
    rw [hparent] at hq
    rw [ne_eq, (hlife q).zombie]
    exact hsleep p hp hchan q hq

theorem Family.pass (hs : s.Family) (hinit : t.kernel.initproc = s.kernel.initproc)
    (hcalm : ∀ q, Calm (s.Hit a q) (s.kernel.proc q) (t.kernel.proc q))
    (hctl : ∀ p, (s.ctl p).Keeps (t.ctl p)) : t.Family := by
  refine hs.keep hinit (fun q => (hcalm q).parent) (fun q => (hcalm q).pid)
    (fun q => .of_wake (hcalm q).state) (fun p hp hchan q hq => ?_) hctl
  rw [(hcalm p).chan] at hchan
  exact hs.asleep p q ((hcalm p).sleeping hp) hchan hq

theorem Family.update (hs : s.Family) (hinit : t.kernel.initproc = s.kernel.initproc)
    (hproc : t.kernel.proc = update s.kernel.proc p x)
    (hparent : x.parent = (s.kernel.proc p).parent) (hpid : x.pid = (s.kernel.proc p).pid)
    (hold : (s.kernel.proc p).state.Alive) (hnew : x.state.Alive)
    (hsleep : x.state = .sleeping → x.chan = some (.proc p) →
      ∀ q, (s.kernel.proc q).parent = some p → (s.kernel.proc q).state ≠ .zombie)
    (hctl : t.ctl = s.ctl) : t.Family := by
  have hself : t.kernel.proc p = x := by rw [hproc, update_self]
  have hother : ∀ q, q ≠ p → t.kernel.proc q = s.kernel.proc q := by
    intro q hq
    rw [hproc, update_of_ne hq]
  refine hs.keep hinit (fun q => ?_) (fun q => ?_) (fun q => ?_) (fun r hr hchan => ?_) fun q => ?_
  · by_cases hq : q = p
    · rw [hq, hself, hparent]
    · rw [hother q hq]
  · by_cases hq : q = p
    · rw [hq, hself, hpid]
    · rw [hother q hq]
  · by_cases hq : q = p
    · rw [hq, hself]
      exact .of_alive hold hnew
    · rw [hother q hq]
      exact ⟨.rfl, .rfl⟩
  · by_cases hrp : r = p
    · rw [hrp, hself] at hr hchan
      rw [hrp]
      exact hsleep hr hchan
    · rw [hother r hrp] at hr hchan
      exact fun q => hs.asleep r q hr hchan
  · rw [hctl]
    exact .refl _

theorem Family.exit (hs : s.Family) (hinit : t.kernel.initproc = s.kernel.initproc)
    (hclear : s.ctl p = .clear) (hrun : (s.kernel.proc p).state = .running)
    (hexit : s.kernel.Exits p t.kernel) (hctl : t.ctl = s.ctl) : t.Family := by
  obtain ⟨i, hi, halive, hnone, hone⟩ := hs.init
  have hip : i ≠ p := by
    rintro rfl
    exact hexit.not_init hi
  have hlife : ∀ q, q ≠ p → SameLife (s.kernel.proc q).state (t.kernel.proc q).state := fun q hq =>
    .of_wake (hexit.state q hq)
  have halive' : ∀ r, r ≠ p → (s.kernel.proc r).state.Alive → (t.kernel.proc r).state.Alive :=
    fun r hr => (hlife r hr).alive.mpr
  exact {
    init := by
      refine ⟨i, hinit.trans hi, halive' i hip halive, ?_, (hexit.pid i).trans hone⟩
      rw [hexit.parent, hnone]
      simp
    parent := fun q hq hlive => by
      rw [hinit] at hq
      have hlive' : (s.kernel.proc q).state.Live := by
        by_cases hqp : q = p
        · rw [hqp, hrun]
          decide
        · exact (hlife q hqp).live.mp hlive
      obtain ⟨r, hr, hralive⟩ := hs.parent q hq hlive'
      rw [hexit.parent, hr]
      by_cases hrp : r = p
      · rw [hrp, if_pos rfl]
        exact ⟨i, hi, halive' i hip halive⟩
      · rw [if_neg (fun h => hrp (Option.some.inj h))]
        exact ⟨r, rfl, halive' r hrp hralive⟩
    forking := fun q np hq => by
      rw [hctl] at hq
      have hqp : q ≠ p := by
        rintro rfl
        rw [hclear] at hq
        cases hq
      exact halive' q hqp (hs.forking q np hq)
    copied := fun q np hq => by
      rw [hctl] at hq
      have hqp : q ≠ p := by
        rintro rfl
        rw [hclear] at hq
        cases hq
      rw [hexit.parent, hs.copied q np hq, if_neg (fun h => hqp (Option.some.inj h))]
    other := fun q => by
      rw [hexit.parent]
      split
      case isTrue hq =>
        rw [hi]
        rintro h
        cases h
        rw [hnone] at hq
        cases hq
      case isFalse => exact hs.other q
    asleep := fun r q hr hchan hq hzombie => by
      have hrp : r ≠ p := by
        rintro rfl
        rw [hexit.zombie] at hr
        cases hr
      rw [hexit.parent] at hq
      by_cases hqp : q = p
      · subst hqp
        rw [if_neg (hs.other q)] at hq
        exact hexit.wakesParent r hq r hr hchan
      · have hzombie' := (hlife q hqp).zombie.mp hzombie
        split at hq
        case isTrue hchild =>
          -- a zombie handed over: `initproc` was woken
          rw [hi] at hq
          cases hq
          exact hexit.wakesInit i q hi hchild hzombie' i hr hchan
        case isFalse =>
          have hasleep : (s.kernel.proc r).state = .sleeping := by
            rcases hexit.state r hrp with heq | ⟨hs, -⟩
            · rw [← heq, hr]
            · exact hs
          rw [hexit.chan] at hchan
          exact hs.asleep r q hasleep hchan hq hzombie' }

theorem Family.setProc (hs : s.Family)
    (hinit : t.kernel.initproc = s.kernel.initproc)
    (hproc : t.kernel.proc = Function.update s.kernel.proc np x)
    (hnp : ¬ (s.kernel.proc np).state.Alive) (hx : x.state ≠ .zombie ∧ x.state ≠ .sleeping)
    (hother : x.parent ≠ some np)
    (hlive : x.state.Live → ∃ r, x.parent = some r ∧ (s.kernel.proc r).state.Alive)
    (hchild : ∀ n, y.child = some n → (s.kernel.proc p).state.Alive)
    (hcopied : ∀ n, y = .copied n → n = np ∧ x.parent = some p)
    (hforks : ∀ q, q ≠ p → s.ctl q ≠ .copied np)
    (hctl : t.ctl = Function.update s.ctl p y) : t.Family := by
  have hself : t.kernel.proc np = x := by rw [hproc, update_self]
  have hrest : ∀ q, q ≠ np → t.kernel.proc q = s.kernel.proc q := by
    intro q hq
    rw [hproc, update_of_ne hq]
  have hliving : ∀ r, (s.kernel.proc r).state.Alive → t.kernel.proc r = s.kernel.proc r := by
    intro r hr
    refine hrest r ?_
    rintro rfl
    exact hnp hr
  have halive : ∀ r, (s.kernel.proc r).state.Alive → (t.kernel.proc r).state.Alive := by
    intro r hr
    rwa [hliving r hr]
  exact {
    init := by
      obtain ⟨i, hi, hialive, hnone, hone⟩ := hs.init
      rw [hinit]
      refine ⟨i, hi, halive i hialive, ?_, ?_⟩ <;> rwa [hliving i hialive]
    parent := fun q hq hqlive => by
      rw [hinit] at hq
      by_cases hqnp : q = np
      · rw [hqnp, hself] at hqlive ⊢
        obtain ⟨r, hr, hralive⟩ := hlive hqlive
        exact ⟨r, hr, halive r hralive⟩
      · rw [hrest q hqnp] at hqlive ⊢
        obtain ⟨r, hr, hralive⟩ := hs.parent q hq hqlive
        exact ⟨r, hr, halive r hralive⟩
    forking := fun q n hq => by
      rw [hctl] at hq
      by_cases hqp : q = p
      · rw [hqp, update_self] at hq
        rw [hqp]
        exact halive p (hchild n hq)
      · rw [update_of_ne hqp] at hq
        exact halive q (hs.forking q n hq)
    copied := fun q n hq => by
      rw [hctl] at hq
      by_cases hqp : q = p
      · rw [hqp, update_self] at hq
        obtain ⟨rfl, hparent⟩ := hcopied n hq
        rw [hself, hqp, hparent]
      · rw [update_of_ne hqp] at hq
        have hn : n ≠ np := by
          rintro rfl
          exact hforks q hqp hq
        rw [hrest n hn]
        exact hs.copied q n hq
    other := fun q => by
      by_cases hqnp : q = np
      · rw [hqnp, hself]
        exact hother
      · rw [hrest q hqnp]
        exact hs.other q
    asleep := fun r q hr hchan hq => by
      have hrnp : r ≠ np := by
        rintro rfl
        rw [hself] at hr
        exact hx.2 hr
      rw [hrest r hrnp] at hr hchan
      by_cases hqnp : q = np
      · rw [hqnp, hself]
        exact hx.1
      · rw [hrest q hqnp] at hq ⊢
        exact hs.asleep r q hr hchan hq }

theorem Did.sameIds (h : Did s a t) :
    s.kernel.SameIds t.kernel ∨
      (∃ c, a = .allocproc c) ∧ t.kernel.initproc = s.kernel.initproc ∧
        t.kernel.nextpid = s.kernel.nextpid + 1 := by
  cases h with
  | allocproc _ htake =>
    rw [setCtl, (Kernel.takeSlot_eq_some htake).2]
    exact .inr ⟨⟨_, rfl⟩, rfl, rfl⟩
  | age hnext => exact .inl (sameIds_next hnext)
  | timer _ _ hk => exact .inl (Kernel.sameIds_timerRest hk)
  | exit _ hk => exact .inl (Kernel.sameIds_exit hk)
  | wait _ => exact .inl (Kernel.sameIds_wait _ _ _)
  | kill => exact .inl (Kernel.sameIds_kill _ _)
  | changeQueue _ => exact .inl (Kernel.sameIds_storeQueue _ _ _)
  | setInitialBurstConfidence _ => exact .inl (Kernel.sameIds_setInitialBurstConfidence _ _ _ _)
  | _ => exact .inl ⟨rfl, rfl⟩

theorem Did.initproc (h : Did s a t) : t.kernel.initproc = s.kernel.initproc := by
  rcases h.sameIds with h | ⟨-, h, -⟩
  · exact h.initproc
  · exact h

theorem Step.family (h : Step s a t) (hplaced : s.Placed) (hs : s.Family) : t.Family := by
  have hinit := h.did.initproc
  cases h.did.change with
  | pass _ hcalm hctl => exact hs.pass hinit hcalm hctl
  | dispatch c p _ hp _ _ hproc hctl =>
    exact hs.update hinit hproc rfl rfl (by simp [hp, ProcState.Alive]) (by simp [ProcState.Alive])
      (by simp) hctl
  | yield c p ti hleave hproc hctl =>
    have hrun := hplaced.running c p hleave.here
    exact hs.update hinit hproc rfl rfl (by simp [hrun, ProcState.Alive]) (by simp [ProcState.Alive])
      (by simp) hctl
  | sleep c p chan _ hleave hproc hchan hctl =>
    have hrun := hplaced.running c p hleave.here
    refine hs.update hinit hproc rfl rfl (by simp [hrun, ProcState.Alive])
      (by simp [ProcState.Alive]) (fun _ hself => ?_) hctl
    exact (hchan p (Option.some.inj hself)).2
  | exit c p hclear hleave hexit hctl =>
    exact hs.exit hinit hclear (hplaced.running c p hleave.here) hexit hctl
  | reap c p q hat hreaped ht =>
    obtain ⟨-, hzombie⟩ := Kernel.reaped_eq_some hreaped
    subst ht
    refine hs.setProc (p := p) (y := .clear) hinit rfl (by simp [hzombie, ProcState.Alive])
      (by simp [Kernel.reap]) (by simp [Kernel.reap]) (by simp [Kernel.reap, ProcState.Live])
      (by simp [Ctl.child]) (by simp) (fun r _ hr => ?_) ?_
    · have hembryo := hplaced.embryo r q (by rw [hr]; rfl)
      rw [hzombie] at hembryo
      cases hembryo
    · rw [← hat.2, update_eq_self]
  | take c p np hat hunused hkernel hctl =>
    have hrun := hplaced.running c p (current_proc hat.1)
    have hproc : t.kernel.proc = update s.kernel.proc np
        { (s.kernel.proc np).clearUsedSyscalls with state := .embryo, pid := s.kernel.nextpid } := by
      rw [hkernel]
      rfl
    refine hs.setProc hinit hproc (by simp [hunused, ProcState.Alive]) (by simp)
      (hs.other np) (by simp [ProcState.Live]) (fun _ _ => by simp [hrun, ProcState.Alive]) (by simp)
      (fun r _ hr => ?_) hctl
    have hembryo := hplaced.embryo r np (by rw [hr]; rfl)
    rw [hunused] at hembryo
    cases hembryo
  | free p np hchild hkernel hctl =>
    have hembryo := hplaced.embryo p np hchild
    have hproc : t.kernel.proc = update s.kernel.proc np
        { s.kernel.proc np with state := .unused } := by
      rw [hkernel]
      rfl
    refine hs.setProc hinit hproc (by simp [hembryo, ProcState.Alive]) (by simp)
      (hs.other np) (by simp [ProcState.Live]) (by simp [Ctl.child]) (by simp)
      (fun r hrp hr => ?_) hctl
    exact hrp (hplaced.own r p np (by rw [hr]; rfl) hchild)
  | setParent c p np hat hkernel hctl =>
    have hchild : (s.ctl p).child = some np := by rw [hat.2]; rfl
    have hembryo := hplaced.embryo p np hchild
    have hrun := hplaced.running c p (current_proc hat.1)
    have hne : p ≠ np := by
      rintro rfl
      rw [hrun] at hembryo
      cases hembryo
    have hproc : t.kernel.proc = update s.kernel.proc np
        { s.kernel.proc np with parent := some p } := by
      rw [hkernel]
      rfl
    refine hs.setProc hinit hproc (by simp [hembryo, ProcState.Alive])
      (by simp [hembryo]) (by simpa using hne) (by simp [hembryo, ProcState.Live])
      (fun _ _ => by simp [hrun, ProcState.Alive]) (fun n hn => ?_) (fun r hrp hr => ?_) hctl
    · cases hn
      exact ⟨rfl, rfl⟩
    · exact hrp (hplaced.own r p np (by rw [hr]; rfl) hchild)
  | setRunnable c p np x hat hkernel hx hctl =>
    have hchild : (s.ctl p).child = some np := by rw [hat.2]; rfl
    have hembryo := hplaced.embryo p np hchild
    have hrun := hplaced.running c p (current_proc hat.1)
    have hproc : t.kernel.proc = update s.kernel.proc np
        { s.kernel.proc np with state := .runnable } := by
      rw [hkernel]
      rfl
    refine hs.setProc hinit hproc (by simp [hembryo, ProcState.Alive]) (by simp)
      (hs.other np) (fun _ => ⟨p, hs.copied p np hat.2, by simp [hrun, ProcState.Alive]⟩)
      (by simp [hx]) (fun n hn => ?_) (fun r hrp hr => ?_) hctl
    · rw [hn] at hx
      cases hx
    · exact hrp (hplaced.own r p np (by rw [hr]; rfl) hchild)

theorem boot_proc : ∀ p, p ≠ 0 → Kernel.boot.proc p = .zero := by decide +kernel

theorem boot_init : Kernel.boot.initproc = some 0 ∧ (Kernel.boot.proc 0).state = .runnable ∧
    (Kernel.boot.proc 0).parent = none ∧ (Kernel.boot.proc 0).pid = 1 := by decide +kernel

theorem boot_family : boot.Family where
  init := by
    obtain ⟨hinit, hstate, hparent, hpid⟩ := boot_init
    exact ⟨0, hinit, by simp [boot, hstate, ProcState.Alive], hparent, hpid⟩
  parent q hq hlive := by
    have hne : q ≠ 0 := by
      rintro rfl
      exact hq boot_init.1
    rw [boot, boot_proc q hne] at hlive
    exact absurd rfl hlive.1
  forking p np hp := by cases hp
  copied p np hp := by cases hp
  other q hq := by
    by_cases hne : q = 0
    · rw [hne, boot, boot_init.2.2.1] at hq
      cases hq
    · rw [boot, boot_proc q hne] at hq
      cases hq
  asleep p q hp := by
    by_cases hne : p = 0
    · rw [hne, boot, boot_init.2.1] at hp
      cases hp
    · rw [boot, boot_proc p hne] at hp
      cases hp

theorem always_family (h : Run Step boot es t) : Run.Always Family es t := by
  have hboth : Run.Always (fun s => s.Placed ∧ s.Family) es t :=
    h.always_invariant (C := fun _ _ => True)
      (fun _ _ _ h _ hs => ⟨h.did.change.placed hs.1, h.family hs.1 hs.2⟩) (fun _ _ => trivial)
      ⟨boot_placed, boot_family⟩
  exact ⟨fun e he => (hboth.1 e he).2, hboth.2.2⟩

end Smp

end Xv6
