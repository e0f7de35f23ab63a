import Xv6.Proc.Lifecycle

namespace Xv6

open Function Lib

namespace Smp

structure Placed (s : Smp) : Prop where
  running : ∀ c p, (s.kernel.cpus c).proc = some p → (s.kernel.proc p).state = .running
  alone : ∀ c d p, (s.kernel.cpus c).proc = some p → (s.kernel.cpus d).proc = some p → c = d
  placed : ∀ p, (s.kernel.proc p).state = .running → ∃ c, (s.kernel.cpus c).proc = some p
  embryo : ∀ p np, (s.ctl p).child = some np → (s.kernel.proc np).state = .embryo
  own : ∀ p q np, (s.ctl p).child = some np → (s.ctl q).child = some np → p = q

variable {s t : Smp} {a : Act} {c : Fin ncpu} {p q : Slot}

theorem Placed.pass (hs : s.Placed) (hcpus : s.kernel.SameCpus t.kernel)
    (hcalm : ∀ q, Calm (s.Hit a q) (s.kernel.proc q) (t.kernel.proc q))
    (hctl : ∀ p, (s.ctl p).Keeps (t.ctl p)) : t.Placed where
  running c p hp := by
    rw [hcpus c] at hp
    exact ((hcalm p).state_iff (by simp) (by simp)).mpr (hs.running c p hp)
  alone c d p hc hd := by
    rw [hcpus] at hc hd
    exact hs.alone c d p hc hd
  placed p hp := by
    obtain ⟨c, hc⟩ := hs.placed p (((hcalm p).state_iff (by simp) (by simp)).mp hp)
    exact ⟨c, (hcpus c).trans hc⟩
  embryo p np hp := by
    rw [(hctl p).1] at hp
    exact ((hcalm np).state_iff (by simp) (by simp)).mpr (hs.embryo p np hp)
  own p q np hp hq := by
    rw [(hctl _).1] at hp hq
    exact hs.own p q np hp hq

theorem Placed.dispatch (hs : s.Placed) (hnone : (s.kernel.cpus c).proc = none)
    (hp : (s.kernel.proc p).state = .runnable) (hc : (t.kernel.cpus c).proc = some p)
    (hcpus : ∀ d, d ≠ c → (t.kernel.cpus d).proc = (s.kernel.cpus d).proc)
    (hproc : t.kernel.proc = runProcessOnCpu s.kernel.proc p) (hctl : t.ctl = s.ctl) : t.Placed := by
  have hself : (t.kernel.proc p).state = .running := by simp [hproc, runProcessOnCpu]
  have hother : ∀ q, q ≠ p → t.kernel.proc q = s.kernel.proc q := by
    intro q hq
    rw [hproc, runProcessOnCpu, update_of_ne hq]
  have hfree : ∀ d q, (s.kernel.cpus d).proc = some q → q ≠ p := by
    rintro d q hq rfl
    rw [hs.running d q hq] at hp
    cases hp
  exact {
    running := fun d q hq => by
      by_cases hd : d = c
      · subst hd
        rw [hc] at hq
        cases hq
        exact hself
      · rw [hcpus d hd] at hq
        rw [hother q (hfree d q hq)]
        exact hs.running d q hq
    alone := fun d e q hd he => by
      by_cases hdc : d = c <;> by_cases hec : e = c
      · rw [hdc, hec]
      · subst hdc
        rw [hc] at hd
        cases hd
        rw [hcpus e hec] at he
        exact absurd rfl (hfree e p he)
      · subst hec
        rw [hc] at he
        cases he
        rw [hcpus d hdc] at hd
        exact absurd rfl (hfree d p hd)
      · rw [hcpus d hdc] at hd
        rw [hcpus e hec] at he
        exact hs.alone d e q hd he
    placed := fun q hq => by
      by_cases hqp : q = p
      · exact ⟨c, hqp ▸ hc⟩
      · rw [hother q hqp] at hq
        obtain ⟨d, hd⟩ := hs.placed q hq
        have hdc : d ≠ c := by
          rintro rfl
          rw [hnone] at hd
          cases hd
        exact ⟨d, (hcpus d hdc).trans hd⟩
    embryo := fun q np hnp => by
      rw [hctl] at hnp
      have hembryo := hs.embryo q np hnp
      have hne : np ≠ p := by
        rintro rfl
        rw [hp] at hembryo
        cases hembryo
      rw [hother np hne]
      exact hembryo
    own := by
      rw [hctl]
      exact hs.own }

theorem Placed.leave (hs : s.Placed) (hleave : s.kernel.Leaves c p t.kernel)
    (hself : (t.kernel.proc p).state ≠ .running)
    (hother : ∀ q, q ≠ p → (t.kernel.proc q).state = (s.kernel.proc q).state ∨
      (s.kernel.proc q).state = .sleeping ∧ (t.kernel.proc q).state = .runnable)
    (hctl : t.ctl = s.ctl) : t.Placed := by
  have hstate : ∀ q x, q ≠ p → x ≠ .sleeping → x ≠ .runnable →
      ((t.kernel.proc q).state = x ↔ (s.kernel.proc q).state = x) := by
    intro q x hq hsleep hrun
    rcases hother q hq with heq | ⟨hq, hq'⟩
    · rw [heq]
    · rw [hq, hq']
      exact ⟨fun h => absurd h.symm hrun, fun h => absurd h.symm hsleep⟩
  have hcpu : ∀ d q, (t.kernel.cpus d).proc = some q → d ≠ c ∧ (s.kernel.cpus d).proc = some q := by
    intro d q hq
    have hd : d ≠ c := by
      rintro rfl
      rw [hleave.gone] at hq
      cases hq
    exact ⟨hd, (hleave.cpus d hd).symm.trans hq⟩
  exact {
    running := fun d q hq => by
      obtain ⟨hd, hq⟩ := hcpu d q hq
      have hqp : q ≠ p := by
        rintro rfl
        exact hd (hs.alone d c q hq hleave.here)
      exact (hstate q _ hqp (by simp) (by simp)).mpr (hs.running d q hq)
    alone := fun d e q hd he => hs.alone d e q (hcpu d q hd).2 (hcpu e q he).2
    placed := fun q hq => by
      have hqp : q ≠ p := by
        rintro rfl
        exact hself hq
      obtain ⟨d, hd⟩ := hs.placed q ((hstate q _ hqp (by simp) (by simp)).mp hq)
      have hdc : d ≠ c := by
        rintro rfl
        rw [hleave.here] at hd
        exact hqp (Option.some.inj hd).symm
      exact ⟨d, (hleave.cpus d hdc).trans hd⟩
    embryo := fun q np hnp => by
      rw [hctl] at hnp
      have hembryo := hs.embryo q np hnp
      have hne : np ≠ p := by
        rintro rfl
        rw [hs.running c np hleave.here] at hembryo
        cases hembryo
      exact (hstate np _ hne (by simp) (by simp)).mpr hembryo
    own := by
      rw [hctl]
      exact hs.own }

theorem Placed.setProc {np : Slot} {x : Proc} {y : Ctl} {k : Kernel} (hs : s.Placed)
    (hkproc : k.proc = s.kernel.proc) (hkcpus : k.cpus = s.kernel.cpus)
    (hnp : (s.kernel.proc np).state ≠ .running) (hx : x.state ≠ .running)
    (hothers : ∀ q, q ≠ p → (s.ctl q).child ≠ some np)
    (hy : y.child = none ∨ y.child = some np ∧ x.state = .embryo)
    (hkernel : t.kernel = k.setProc np x) (hctl : t.ctl = update s.ctl p y) : t.Placed := by
  have hcpus : t.kernel.cpus = s.kernel.cpus := by rw [hkernel, Kernel.setProc_cpus, hkcpus]
  have hself : t.kernel.proc np = x := by rw [hkernel, Kernel.setProc_self]
  have hother : ∀ q, q ≠ np → t.kernel.proc q = s.kernel.proc q := by
    intro q hq
    rw [hkernel, Kernel.setProc_of_ne _ _ hq, hkproc]
  have hrun : ∀ q, (t.kernel.proc q).state = .running ↔ (s.kernel.proc q).state = .running := by
    intro q
    by_cases hq : q = np
    · rw [hq, hself]
      exact ⟨fun h => absurd h hx, fun h => absurd h hnp⟩
    · rw [hother q hq]
  exact {
    running := fun c q hq => by
      rw [hcpus] at hq
      exact (hrun q).mpr (hs.running c q hq)
    alone := fun c d q => by
      rw [hcpus]
      exact hs.alone c d q
    placed := fun q hq => by
      rw [hcpus]
      exact hs.placed q ((hrun q).mp hq)
    embryo := fun q nq hnq => by
      rw [hctl] at hnq
      by_cases hq : q = p
      · subst hq
        rw [update_self] at hnq
        rcases hy with hy | ⟨hy, hembryo⟩
        · rw [hy] at hnq
          cases hnq
        · rw [hy] at hnq
          cases hnq
          rw [hself]
          exact hembryo
      · rw [update_of_ne hq] at hnq
        have hne : nq ≠ np := by
          rintro rfl
          exact hothers q hq hnq
        rw [hother nq hne]
        exact hs.embryo q nq hnq
    own := fun q r nq hq hr => by
      have hchild : ∀ q nq, (t.ctl q).child = some nq → q = p ∧ nq = np ∨ (s.ctl q).child = some nq ∧ nq ≠ np ∧ q ≠ p := by
        intro q nq hnq
        rw [hctl] at hnq
        by_cases hq : q = p
        · subst hq
          rw [update_self] at hnq
          rcases hy with hy | ⟨hy, -⟩
          · rw [hy] at hnq
            cases hnq
          · rw [hy] at hnq
            exact .inl ⟨rfl, (Option.some.inj hnq).symm⟩
        · rw [update_of_ne hq] at hnq
          exact .inr ⟨hnq, by rintro rfl; exact hothers q hq hnq, hq⟩
      rcases hchild q nq hq with ⟨rfl, hnq⟩ | ⟨hq, hnq, -⟩ <;>
        rcases hchild r nq hr with ⟨rfl, hnq'⟩ | ⟨hr, hnq', -⟩
      · rfl
      · exact absurd hnq hnq'
      · exact absurd hnq' hnq
      · exact hs.own q r nq hq hr }

theorem Change.placed (h : Change s a t) (hs : s.Placed) : t.Placed := by
  cases h with
  | pass hcpus hcalm hctl => exact hs.pass hcpus hcalm hctl
  | dispatch c p hnone hp hc hcpus hproc hctl => exact hs.dispatch hnone hp hc hcpus hproc hctl
  | yield c p ti hleave hproc hctl =>
    refine hs.leave hleave ?_ (fun q hq => .inl ?_) hctl
    · simp [hproc]
    · simp [hproc, hq]
  | sleep c p chan _ hleave hproc _ hctl =>
    refine hs.leave hleave ?_ (fun q hq => .inl ?_) hctl
    · simp [hproc]
    · simp [hproc, hq]
  | exit c p _ hleave hexit hctl =>
    refine hs.leave hleave ?_ hexit.state hctl
    rw [hexit.zombie]
    simp
  | reap c p q hat hreaped ht =>
    obtain ⟨-, hzombie⟩ := Kernel.reaped_eq_some hreaped
    have hno : ∀ r, (s.ctl r).child ≠ some q := by
      intro r hr
      rw [hs.embryo r q hr] at hzombie
      cases hzombie
    refine hs.setProc (p := p) (x := Kernel.reap (s.kernel.proc q)) (y := .clear) rfl rfl
      (by simp [hzombie]) (by simp [Kernel.reap]) (fun r _ => hno r) (.inl rfl) (by rw [ht]) ?_
    rw [ht, ← hat.2, update_eq_self]
  | take c p np _ hunused hkernel hctl =>
    have hno : ∀ r, (s.ctl r).child ≠ some np := by
      intro r hr
      rw [hs.embryo r np hr] at hunused
      cases hunused
    exact hs.setProc (k := { s.kernel with nextpid := s.kernel.nextpid + 1 }) rfl rfl
      (by simp [hunused]) (by simp) (fun r _ => hno r) (.inr ⟨rfl, rfl⟩) hkernel hctl
  | free p np hchild hkernel hctl =>
    have hembryo := hs.embryo p np hchild
    exact hs.setProc rfl rfl (by simp [hembryo]) (by simp)
      (fun q hq hq' => hq (hs.own q p np hq' hchild)) (.inl rfl) hkernel hctl
  | setParent c p np hat hkernel hctl =>
    have hchild : (s.ctl p).child = some np := by rw [hat.2]; rfl
    have hembryo := hs.embryo p np hchild
    exact hs.setProc (x := { s.kernel.proc np with parent := some p }) rfl rfl (by simp [hembryo])
      (by simp [hembryo]) (fun q hq hq' => hq (hs.own q p np hq' hchild)) (.inr ⟨rfl, hembryo⟩)
      hkernel hctl
  | setRunnable c p np x hat hkernel hx hctl =>
    have hchild : (s.ctl p).child = some np := by rw [hat.2]; rfl
    have hembryo := hs.embryo p np hchild
    exact hs.setProc rfl rfl (by simp [hembryo]) (by simp)
      (fun q hq hq' => hq (hs.own q p np hq' hchild)) (.inl hx) hkernel hctl

theorem boot_placed : boot.Placed where
  running := Kernel.boot_proper.running
  alone := Kernel.boot_proper.alone
  placed p hp := by
    have := (Kernel.zero.quiet_userinit.slot p).running.mp hp
    cases this
  embryo p np hp := by cases hp
  own p q np hp := by cases hp

end Smp

def Kernel.OneCpuEach (k : Kernel) : Prop :=
  (∀ p, (k.proc p).state = .running ↔ ∃! c, (k.cpus c).proc = some p) ∧
    (∀ c p, (k.cpus c).proc = some p → (k.proc p).state = .running) ∧
    ∀ c d p, (k.cpus c).proc = some p → (k.cpus d).proc = some p → c = d

namespace Smp

variable {s t : Smp}

theorem Placed.oneCpuEach (hs : s.Placed) : s.kernel.OneCpuEach := by
  refine ⟨fun p => ⟨fun hp => ?_, fun ⟨c, hc, _⟩ => hs.running c p hc⟩, hs.running, hs.alone⟩
  obtain ⟨c, hc⟩ := hs.placed p hp
  exact ⟨c, hc, fun d hd => hs.alone d c p hd hc⟩

theorem oneCpuEach_always {es : List (Smp × Act)} (h : Run Step boot es t) :
    Run.Always (fun s => s.kernel.OneCpuEach) es t := by
  have hplaced : Run.Always Placed es t :=
    h.always_invariant (C := fun _ _ => True) (fun _ _ _ h _ hs => h.did.change.placed hs)
      (fun _ _ => trivial) boot_placed
  exact ⟨fun e he => (hplaced.1 e he).oneCpuEach, hplaced.2.oneCpuEach⟩

theorem oneCpuEach_of_fork :
    let es := trace step boot [.schedule 1, .schedule 1, .allocproc 1, .kstack 1 true, .copyuvm 1 true,
      .runnable 1, .getProcByPid 1 2 Level.rr.code, .changeQueue 1, .schedule 2, .schedule 2]
    ∃ s, Run Step boot es s ∧ Run.Always (fun s => s.kernel.OneCpuEach) es s := by
  intro es
  obtain ⟨s, hrun, -⟩ := Run.of_exec_any step boot [.schedule 1, .schedule 1, .allocproc 1,
    .kstack 1 true, .copyuvm 1 true, .runnable 1, .getProcByPid 1 2 Level.rr.code, .changeQueue 1,
    .schedule 2, .schedule 2]
    (fun s => (s.kernel.cpus 2).proc == some 1) (by decide +kernel)
  exact ⟨s, hrun, oneCpuEach_always hrun⟩

end Smp

end Xv6
