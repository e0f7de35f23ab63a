import Xv6.Lib.Select
import Xv6.Proc.Starvation

namespace Xv6

open Lib

namespace Proc

def queued (p : Proc) : Bool := p.state != .unused && p.ti.queue == Level.fcfs.code

theorem queued_iff {p : Proc} : p.queued ↔ p.state ≠ .unused ∧ p.ti.queue = Level.fcfs.code := by
  simp [queued]

theorem queued_of_candidate {p : Proc} (h : p.candidate .fcfs) : p.queued := by
  obtain ⟨hstate, hqueue⟩ := candidate_iff.mp h
  exact queued_iff.mpr ⟨by rw [hstate]; decide, hqueue⟩

theorem Remains.queued (h : Remains now n a b) (hb : b.queued) :
    a.queued ∧ b.ti.enterQueueTime = a.ti.enterQueueTime := by
  obtain ⟨hstate, hqueue⟩ := queued_iff.mp hb
  rcases h.place with ⟨heq, hstamp, hlive⟩ | ⟨hne, -⟩
  · rw [heq] at hqueue
    exact ⟨queued_iff.mpr ⟨hlive hstate, hqueue⟩, hstamp⟩
  · exact absurd hqueue hne

end Proc

namespace Kernel

open Proc

variable {k k' : Kernel} {c : Fin ncpu} {p r : Slot} {e : Event}

/-- Two of the calls counted past the end of `used_syscalls` touch the queue or its stamp: 31
(`reentrantlock_test`) the stamp, and 27 (`set_initial_burst_confidence`) the queue, which
takes a process from the second queue to the last. -/
def StampSafe (k : Kernel) : Event → Prop
  | .syscall c num => ∀ p, (k.cpus c).proc = some p →
      (num = 31 → (k.proc p).ti.queue ≠ Level.fcfs.code) ∧ (num = 27 → (k.proc p).ti.queue ≠ Level.sjf.code)
  | _ => True

theorem stampSafe_of_ne (h : ∀ c num, e ≠ .syscall c num) : k.StampSafe e := by
  cases e with
  | syscall c num => exact absurd rfl (h c num)
  | _ => trivial

theorem countSyscall_enterQueueTime (q : Proc) (h : accepted num) :
    (q.countSyscall num).ti.enterQueueTime =
      if num = 31 then q.ti.enterQueueTime + 1 else q.ti.enterQueueTime := by
  obtain ⟨hpos, hle⟩ := accepted_iff.mp h
  have hmax : maxSyscalls = 26 := rfl
  have heq : num = 31 ↔ num.toNat = 31 := BitVec.toNat_inj.symm
  have hword : ∀ (w : TimeInfo) (i : Nat), (w.incWord i).enterQueueTime =
      if i = 4 then w.enterQueueTime + 1 else w.enterQueueTime := by
    intro w i
    unfold TimeInfo.incWord
    split <;> simp_all
  simp only [heq]
  unfold countSyscall incUsedSyscalls
  split
  case isTrue => rw [if_neg (by omega)]
  case isFalse =>
    rw [hword]
    congr 1
    exact propext (by omega)

theorem queued_countSyscall {num : Word} {q : Proc} (hacc : accepted num)
    (h31 : num = 31 → q.ti.queue ≠ Level.fcfs.code) (h27 : num = 27 → q.ti.queue ≠ Level.sjf.code)
    (hb : (q.countSyscall num).queued) :
    q.queued ∧ (q.countSyscall num).ti.enterQueueTime = q.ti.enterQueueTime := by
  obtain ⟨hlive, hqueue⟩ := queued_iff.mp hb
  rw [countSyscall_state] at hlive
  rw [countSyscall_queue _ hacc] at hqueue
  by_cases hnum : num = 27
  · rw [if_pos hnum] at hqueue
    refine absurd ?_ (h27 hnum)
    have hcode : Level.fcfs.code = Level.sjf.code + 1 := rfl
    rw [hcode] at hqueue
    exact add_right_cancel hqueue
  · rw [if_neg hnum] at hqueue
    refine ⟨queued_iff.mpr ⟨hlive, hqueue⟩, ?_⟩
    rw [countSyscall_enterQueueTime _ hacc, if_neg fun h => h31 h hqueue]

def placed (k : Kernel) (e : Event) (p : Slot) : Bool :=
  match e with
  | .changeQueue _ pid _ => k.getProcByPid pid == some p
  | _ => false

def joins (k : Kernel) (e : Event) (k' : Kernel) (p : Slot) : Bool :=
  (k'.proc p).queued && (!(k.proc p).queued || k.placed e p)

theorem joins_of_kept (he : k.placed e p = false)
    (h : (k.proc p).queued ∧ (k'.proc p).ti.enterQueueTime = (k.proc p).ti.enterQueueTime) :
    if k.joins e k' p then (k'.proc p).ti.enterQueueTime = k'.ticks
    else (k.proc p).queued ∧ (k'.proc p).ti.enterQueueTime = (k.proc p).ti.enterQueueTime := by
  rwa [if_neg (by simp [joins, he, h.1])]

theorem joins_of_arrives (he : k.placed e p = false) (hq : (k'.proc p).queued)
    (h : Arrives k'.ticks n (k.proc p) (k'.proc p)) :
    if k.joins e k' p then (k'.proc p).ti.enterQueueTime = k'.ticks
    else (k.proc p).queued ∧ (k'.proc p).ti.enterQueueTime = (k.proc p).ti.enterQueueTime := by
  rcases h with h | ⟨hunused, hnow⟩
  · exact joins_of_kept he (h.queued hq)
  · have hout : ¬ (k.proc p).queued := fun ha => (queued_iff.mp ha).1 hunused
    rw [if_pos (by simpa [joins, he, hq] using hout)]
    exact hnow

theorem step_stamps (h : Step k e k') (hk : k.Proper) (hsafe : k.StampSafe e) (hq : (k'.proc p).queued) :
    if k.joins e k' p then (k'.proc p).ti.enterQueueTime = k'.ticks
    else (k.proc p).queued ∧ (k'.proc p).ti.enterQueueTime = (k.proc p).ti.enterQueueTime := by
  by_cases hplace : ∃ c pid target, e = .changeQueue c pid target
  · obtain ⟨c, pid, target, rfl⟩ := hplace
    obtain ⟨-, -, h⟩ := Option.bind_eq_some_iff.mp h
    cases h
    rw [changeQueue_ticks]
    by_cases hfind : k.getProcByPid pid = some p
    · rw [if_pos (by simp [joins, placed, hq, hfind]), changeQueue, hfind]
      simp only [setProc_self]
    · have hsame : (k.changeQueue pid target).proc p = k.proc p := by
        unfold changeQueue
        split
        · next q hfound => exact setProc_of_ne _ _ fun heq => hfind (heq ▸ hfound)
        · rfl
      rw [hsame] at hq ⊢
      rw [if_neg (by simp [joins, placed, hq, hfind])]
      exact ⟨hq, rfl⟩
  · push Not at hplace
    have he : k.placed e p = false := by
      unfold placed
      split
      · next c pid target => exact absurd rfl (hplace c pid target)
      · rfl
    by_cases hsyscall : ∃ c num, e = .syscall c num
    · obtain ⟨c, num, rfl⟩ := hsyscall
      refine joins_of_kept he ?_
      cases step_effect h with
      | @syscall _ _ r hr hacc _ =>
        obtain ⟨h31, h27⟩ := hsafe _ hr
        by_cases hp : p = r
        · rw [hp, setProc_self] at hq ⊢
          exact queued_countSyscall hacc h31 h27 hq
        · rw [setProc_of_ne _ _ hp] at hq ⊢
          exact ⟨hq, rfl⟩
      | leave hidle => exact hidle.elim
      | quiet hidle => exact hidle.elim
    · push Not at hsyscall
      exact joins_of_arrives he hq (step_arrives h hk hsyscall hplace p)

end Kernel

/-- A kernel with a clock that counts on past the last word, and for every slot the tick at
which its process came to the last queue. -/
structure Timed where
  kernel : Kernel
  now : Nat
  entered : Slot → Nat

namespace Timed

open Kernel Proc

def boot : Timed := ⟨Kernel.boot, 0, fun _ => 0⟩

def step (s : Timed) (e : Event) : Option Timed :=
  (s.kernel.step e).map fun k' =>
    let now := s.now + if e.isTick then 1 else 0
    ⟨k', now, fun p => if s.kernel.joins e k' p then now else s.entered p⟩

def Step (s : Timed) (e : Event) (t : Timed) : Prop := s.step e = some t

structure Stamped (s : Timed) : Prop where
  proper : s.kernel.Proper
  ticks : s.kernel.ticks = BitVec.ofNat 32 s.now
  stamp : ∀ p, (s.kernel.proc p).queued → (s.kernel.proc p).ti.enterQueueTime = BitVec.ofNat 32 (s.entered p)

variable {s t : Timed} {e : Event} {es : List (Timed × Event)}

theorem stamped_boot : boot.Stamped := by
  refine ⟨boot_proper, rfl, ?_⟩
  decide +kernel

theorem Stamped.step (h : s.Stamped) (hstep : Step s e t) (hsafe : s.kernel.StampSafe e) : t.Stamped := by
  obtain ⟨k', hk', rfl⟩ := Option.map_eq_some_iff.mp hstep
  have hticks : k'.ticks = BitVec.ofNat 32 (s.now + if e.isTick then 1 else 0) := by
    rw [step_ticks hk', h.ticks, BitVec.ofNat_add]
    split <;> rfl
  refine ⟨(step_effect hk').proper h.proper, hticks, fun p hp => ?_⟩
  have hstamp := step_stamps hk' h.proper hsafe hp
  simp only
  split
  · next hjoins =>
    rw [if_pos hjoins] at hstamp
    rw [hstamp, hticks]
  · next hjoins =>
    rw [if_neg hjoins] at hstamp
    rw [hstamp.2, h.stamp p hstamp.1]

theorem stamped_of_run (h : Run Step boot es s) (hsafe : ∀ e ∈ es, e.1.kernel.StampSafe e.2) : s.Stamped :=
  h.invariant (C := fun s e => s.kernel.StampSafe e) (fun _ _ _ hstep hsafe hs => hs.step hstep hsafe) hsafe
    stamped_boot

def ServesFirst (s : Timed) : Prop :=
  (firstComeFirstService s.kernel.proc = none ↔ ∀ p, ¬(s.kernel.proc p).candidate .fcfs) ∧
    ∀ q, firstComeFirstService s.kernel.proc = some q →
      FirstMin (fun p => (s.kernel.proc p).candidate .fcfs) s.entered q

/-- The moments at which the clock, read as a signed number, is negative again are the odd
multiples of `2 ^ 31`; this counts those up to tick `n`. -/
def signChanges (n : Nat) : Nat := (n + 2 ^ 31) / 2 ^ 32

def OneSign (s : Timed) : Prop :=
  ∀ p q, (s.kernel.proc p).candidate .fcfs → (s.kernel.proc q).candidate .fcfs →
    signChanges (s.entered p) = signChanges (s.entered q)

theorem toInt_ofNat_eq (n : Nat) : (BitVec.ofNat 32 n).toInt = n - 2 ^ 32 * (signChanges n : Int) := by
  rw [BitVec.toInt_eq_toNat_cond, BitVec.toNat_ofNat, signChanges]
  split <;> omega

theorem firstMin_of_firstComeFirstService {t : Table} {q : Slot} (h : firstComeFirstService t = some q) :
    FirstMin (fun p => (t p).candidate .fcfs) (fun p => (t p).ti.enterQueueTime.toInt) q := by
  have hmin : FirstMin (fun p => p ∈ List.finRange nproc ∧ (t p).candidate .fcfs)
      (fun p => (t p).ti.enterQueueTime.toInt) q := firstMin_of_select (List.sortedLT_finRange nproc).pairwise h
  simpa only [List.mem_finRange, true_and] using hmin

theorem firstComeFirstService_eq_none_iff {t : Table} :
    firstComeFirstService t = none ↔ ∀ p, ¬(t p).candidate .fcfs := by
  rw [firstComeFirstService, select_eq_none_iff]
  simp only [List.mem_finRange, forall_const]

theorem Stamped.signed (h : s.Stamped) {p : Slot} (hp : (s.kernel.proc p).candidate .fcfs) :
    (s.kernel.proc p).ti.enterQueueTime.toInt = s.entered p - 2 ^ 32 * (signChanges (s.entered p) : Int) := by
  rw [h.stamp p (queued_of_candidate hp), toInt_ofNat_eq]

theorem servesFirst_iff_oneSign (h : Run Step boot es s) (hsafe : ∀ e ∈ es, e.1.kernel.StampSafe e.2)
    (hnear : ∀ p q, (s.kernel.proc p).queued → (s.kernel.proc q).queued → s.entered p ≤ s.entered q + 2 ^ 31) :
    ServesFirst s ↔ OneSign s := by
  have hstamped := stamped_of_run h hsafe
  constructor
  · rintro ⟨hnone, hfirst⟩
    -- a process that came before the change is overtaken by every one that came after it
    have hle : ∀ p q, (s.kernel.proc p).candidate .fcfs → (s.kernel.proc q).candidate .fcfs →
        signChanges (s.entered q) ≤ signChanges (s.entered p) := by
      intro p q hp hq
      cases hres : firstComeFirstService s.kernel.proc with
      | none => exact absurd hp (hnone.mp hres p)
      | some r =>
        have hreal := (hfirst r hres).least p hp
        have hr := (hfirst r hres).mem
        have hword := (firstMin_of_firstComeFirstService hres).least q hq
        have hdist := hnear q r (queued_of_candidate hq) (queued_of_candidate hr)
        rw [hstamped.signed hq, hstamped.signed hr] at hword
        have hmono : signChanges (s.entered r) ≤ signChanges (s.entered p) :=
          Nat.div_le_div_right (Nat.add_le_add_right hreal _)
        omega
    exact fun p q hp hq => le_antisymm (hle q p hq hp) (hle p q hp hq)
  · intro hone
    refine ⟨firstComeFirstService_eq_none_iff, fun q hq => ?_⟩
    obtain ⟨hmem, hleast, hfirst⟩ := firstMin_of_firstComeFirstService hq
    refine ⟨hmem, fun p hp => ?_, fun p hp hlt => ?_⟩
    · have hle := hleast p hp
      rw [hstamped.signed hp, hstamped.signed hmem, hone p q hp hmem] at hle
      omega
    · have hltw := hfirst p hp hlt
      rw [hstamped.signed hp, hstamped.signed hmem, hone p q hp hmem] at hltw
      omega

def forks : List Event :=
  [.schedule 0, .schedule 0, .fork 0 true true, .fork 0 true true, .timer 0 true, .fork 0 true true]

instance decidableOneSign (s : Timed) : Decidable s.OneSign := by
  unfold OneSign
  infer_instance

theorem servesFirst_of_forks : ∃ s, Run Step boot (trace step boot forks) s ∧
    (s.kernel.proc 2).candidate .fcfs ∧ (s.kernel.proc 3).candidate .fcfs ∧ ServesFirst s := by
  obtain ⟨s, hrun, hs⟩ := Run.of_exec_any step boot forks (fun s => decide (s.OneSign ∧
    (∀ p q, (s.kernel.proc p).queued → (s.kernel.proc q).queued → s.entered p ≤ s.entered q + 2 ^ 31) ∧
      (s.kernel.proc 2).candidate .fcfs ∧ (s.kernel.proc 3).candidate .fcfs)) (by decide +kernel)
  obtain ⟨hone, hnear, hthird, hfourth⟩ := of_decide_eq_true hs
  refine ⟨s, hrun, hthird, hfourth, (servesFirst_iff_oneSign hrun (fun e he => ?_) hnear).mpr hone⟩
  refine stampSafe_of_ne fun c num heq => ?_
  have := mem_trace he
  simp [heq, forks] at this

def later (s : Timed) (n : Nat) : Timed :=
  ⟨{ s.kernel with ticks := s.kernel.ticks + BitVec.ofNat 32 n }, s.now + n, s.entered⟩

theorem later_later (s : Timed) (m n : Nat) : (s.later m).later n = s.later (m + n) := by
  simp only [later, BitVec.ofNat_add, BitVec.add_assoc, Nat.add_assoc]

theorem step_still (h : s.kernel.Still) : Step s (.timer 0 false) (s.later 1) := by
  have hnone : ∀ p, s.kernel.joins (.timer 0 false) { s.kernel with ticks := s.kernel.ticks + 1 } p = false := by
    intro p
    simp [joins, placed]
  unfold Step step
  rw [h.step false, Option.map_some]
  simp only [hnone, Bool.false_eq_true, if_false]
  rfl

theorem run_still (h : s.kernel.Still) (n : Nat) :
    ∃ es, Run Step s es (s.later n) ∧ ∀ e ∈ es, e.2 = .timer 0 false := by
  induction n with
  | zero => exact ⟨[], by simpa [later] using (Run.nil : Run Step s [] s), by simp⟩
  | succ n ih =>
    obtain ⟨es, hrun, htimer⟩ := ih
    have hlast : Step (s.later n) (.timer 0 false) (s.later (n + 1)) :=
      s.later_later n 1 ▸ step_still (h.at (s.kernel.ticks + BitVec.ofNat 32 n))
    have hone : Run Step (s.later n) [(s.later n, .timer 0 false)] (s.later (n + 1)) := Run.single hlast
    refine ⟨es ++ [(s.later n, .timer 0 false)], hrun.append hone, ?_⟩
    intro e he
    rcases List.mem_append.mp he with he | he
    · exact htimer e he
    · rw [List.mem_singleton.mp he]

def secondHalf : List Event := .wakeup (.addr 0) :: .schedule 0 :: forks.drop 2

theorem not_servesFirst_of_sign : ∃ es s, Run Step boot es s ∧ (∀ e ∈ es, e.1.kernel.StampSafe e.2) ∧
    (∀ p q, (s.kernel.proc p).queued → (s.kernel.proc q).queued → s.entered p ≤ s.entered q + 2 ^ 31) ∧
      (s.kernel.proc 2).candidate .fcfs ∧ s.entered 2 = 2 ^ 31 - 1 ∧ s.entered 3 = 2 ^ 31 ∧
        firstComeFirstService s.kernel.proc = some 3 ∧ ¬ServesFirst s := by
  obtain ⟨s, hrun, hs⟩ := Run.of_exec_any step boot [.schedule 0, .schedule 0, .sleep 0 (.addr 0)]
    (fun s : Timed => decide s.kernel.Still && (exec step (s.later (2 ^ 31 - 1)) secondHalf).any
      fun t : Timed => decide ((∀ p q, (t.kernel.proc p).queued → (t.kernel.proc q).queued → t.entered p ≤ t.entered q + 2 ^ 31) ∧
        (t.kernel.proc 2).candidate .fcfs ∧ t.entered 2 = 2 ^ 31 - 1 ∧ t.entered 3 = 2 ^ 31 ∧
          firstComeFirstService t.kernel.proc = some 3)) (by decide +kernel)
  simp only [Bool.and_eq_true, decide_eq_true_eq, Option.any_eq_true] at hs
  obtain ⟨hstill, t, ht, hnear, hthird, hearly, hlate, hchosen⟩ := hs
  obtain ⟨es, hes, htimer⟩ := run_still hstill (2 ^ 31 - 1)
  refine ⟨_, t, (hrun.append hes).append (Run.of_exec ht), ?_, hnear, hthird, hearly, hlate, hchosen, fun hserves => ?_⟩
  · intro e he
    have hplain : ∀ c num, e.2 ≠ .syscall c num := by
      intro c num heq
      rcases List.mem_append.mp he with he | he
      · rcases List.mem_append.mp he with he | he
        · have := mem_trace he
          simp [heq] at this
        · have := htimer e he
          rw [heq] at this
          cases this
      · have := mem_trace he
        simp [heq, secondHalf, forks] at this
    exact stampSafe_of_ne hplain
  · have hle := (hserves.2 3 hchosen).least 2 hthird
    rw [hearly, hlate] at hle
    exact absurd hle (by decide)

end Timed

end Xv6
