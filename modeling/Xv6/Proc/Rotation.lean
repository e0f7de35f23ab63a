import Xv6.Proc.Invariant

namespace Xv6

open Lib

def nextAfter (t : Table) (last : Slot) : Option Slot :=
  firstFrom (fun q => (t q).candidate .rr) (last + 1)

def AloneIfReady (t : Table) (last : Slot) : Prop :=
  (t last).candidate .rr → ∀ q, (t q).candidate .rr → q = last

instance (t : Table) (last : Slot) : Decidable (AloneIfReady t last) :=
  inferInstanceAs (Decidable (_ → ∀ q, _ → q = last))

theorem roundRobin_eq_nextAfter_iff (t : Table) (last : Slot) :
    roundRobin t last = nextAfter t last ↔ AloneIfReady t last := by
  rw [roundRobin_eq_firstFrom]
  exact firstFrom_eq_firstFrom_succ_iff _ _

theorem roundRobin_self (h : (t last).candidate .rr) : roundRobin t last = some last := by
  rw [roundRobin_eq_firstFrom]
  exact firstFrom_self h

namespace Kernel

variable {k k' : Kernel} {e : Event} {c : Fin ncpu} {p q : Slot} {es : List (Kernel × Event)}

theorem updateRemainTimes_lastExecutedProc (x : Cpu) (w : Word) :
    (x.updateRemainTimes w).lastExecutedProc = x.lastExecutedProc := by
  unfold Cpu.updateRemainTimes
  split
  case h_1 l _ => cases l <;> rfl
  case h_2 => rfl

theorem lastExecutedProc_setCpu
    (h : x.lastExecutedProc = (k.cpus d).lastExecutedProc) :
    ((k.setCpu d x).cpus c).lastExecutedProc = (k.cpus c).lastExecutedProc := by
  by_cases hc : c = d
  · subst hc
    rw [setCpu_self, h]
  · rw [setCpu_of_ne _ _ hc]

@[simp] theorem lastExecutedProc_leaveCpu (k : Kernel) (d : Fin ncpu) :
    ((k.leaveCpu d).cpus c).lastExecutedProc = (k.cpus c).lastExecutedProc :=
  lastExecutedProc_setCpu rfl

theorem chargeTick_lastExecutedProc (k : Kernel) (d : Fin ncpu) (p : Slot) :
    ((k.chargeTick d p).cpus c).lastExecutedProc = (k.cpus c).lastExecutedProc := by
  unfold chargeTick
  have hx := updateRemainTimes_lastExecutedProc (k.cpus d) (k.proc p).ti.queue
  simp only
  split
  · rw [yield, lastExecutedProc_leaveCpu]
    exact lastExecutedProc_setCpu hx
  · exact lastExecutedProc_setCpu hx

def rrDispatched (k : Kernel) (c : Fin ncpu) (e : Event) : Option Slot :=
  match k.decided c e with
  | some (.dispatch .rr p) => some p
  | _ => none

theorem rrDispatched_eq_some (h : k.rrDispatched c e = some p) :
    e = .schedule c ∧ k.decision c = .dispatch .rr p := by
  unfold rrDispatched at h
  split at h
  case h_1 hd => cases h; exact decided_eq_some hd
  case h_2 => cases h

theorem schedule_lastExecutedProc (k : Kernel) (c d : Fin ncpu) :
    ((k.schedule d).cpus c).lastExecutedProc =
      (k.rrDispatched c (.schedule d)).getD (k.cpus c).lastExecutedProc := by
  by_cases hc : d = c
  · subst hc
    cases hd : k.decision d with
    | refill =>
      rw [schedule_of_refill hd, setCpu_self]
      simp [rrDispatched, hd, refill]
    | dispatch l p =>
      rw [schedule_of_dispatch hd, setCpu_self]
      cases l <;> simp [rrDispatched, hd]
  · have hother : (k.schedule d).cpus c = k.cpus c := setCpu_of_ne _ _ (Ne.symm hc)
    rw [hother]
    simp [rrDispatched, decided, hc]

theorem Idle.rrDispatched (h : k.Idle e) : k.rrDispatched c e = none := by
  cases e with
  | schedule _ => exact h.elim
  | _ => rfl

theorem Effect.lastExecutedProc (h : Effect k e k') (c : Fin ncpu) :
    (k'.cpus c).lastExecutedProc = (k.rrDispatched c e).getD (k.cpus c).lastExecutedProc := by
  cases h with
  | schedule _ => exact k.schedule_lastExecutedProc c _
  | charge _ _ _ =>
    rw [chargeTick_lastExecutedProc, (k.quiet_clock _).cpus]
    rfl
  | syscall _ _ _ => rfl
  | changeQueue =>
    rw [(k.quiet_changeQueue (V := fun _ => True) _ trivial).cpus]
    rfl
  | @leave _ d p k₁ _ hidle hquiet _ hleave =>
    have hcpus : k'.cpus = (k₁.leaveCpu d).cpus := hleave.cpus
    rw [hcpus, lastExecutedProc_leaveCpu, hquiet.cpus, hidle.rrDispatched, Option.getD_none]
  | quiet hidle hquiet => rw [hquiet.cpus, hidle.rrDispatched, Option.getD_none]

def RotationSafe (c : Fin ncpu) (k : Kernel) (e : Event) : Prop :=
  e = .schedule c → 0 < (k.cpus c).rrRemainTime → AloneIfReady k.proc (k.cpus c).lastExecutedProc

instance (c : Fin ncpu) (k : Kernel) (e : Event) : Decidable (RotationSafe c k e) :=
  inferInstanceAs (Decidable (_ → _ → _))

def WaitsAt (c : Fin ncpu) (q : Slot) (e : Kernel × Event) : Prop :=
  e.2 = .schedule c → (e.1.proc q).candidate .rr

def DispatchesRr (c : Fin ncpu) (p : Slot) (e : Kernel × Event) : Prop :=
  e.1.rrDispatched c e.2 = some p

def rrDispatches (c : Fin ncpu) (es : List (Kernel × Event)) : Nat :=
  es.countP fun e => (e.1.rrDispatched c e.2).isSome

structure KeepsTurn (c : Fin ncpu) (q : Slot) (k : Kernel) (e : Event) : Prop where
  safe : RotationSafe c k e
  waits : WaitsAt c q (k, e)
  pending : ¬ DispatchesRr c q (k, e)

def NotYet (c : Fin ncpu) (p q : Slot) (k : Kernel) : Prop :=
  ((k.cpus c).lastExecutedProc - p).val < (q - p).val

theorem dispatchesRr_firstFrom (hsafe : RotationSafe c k e) (h : DispatchesRr c p (k, e)) :
    firstFrom (fun r => (k.proc r).candidate .rr) ((k.cpus c).lastExecutedProc + 1) = some p := by
  obtain ⟨he, hd⟩ := rrDispatched_eq_some h
  obtain ⟨hready, hchoose, -⟩ := decision_eq_dispatch_iff.mp hd
  exact ((roundRobin_eq_nextAfter_iff _ _).mpr (hsafe he hready.1)).symm.trans hchoose

theorem step_turn (h : Step k e k') (hturn : KeepsTurn c q k e) (hk : NotYet c p q k) :
    NotYet c p q k' ∧
      ((k.cpus c).lastExecutedProc - p).val + rrDispatches c [(k, e)] ≤
        ((k'.cpus c).lastExecutedProc - p).val := by
  unfold NotYet at hk ⊢
  rw [(step_effect h).lastExecutedProc c]
  cases hr : k.rrDispatched c e with
  | none => simpa [rrDispatches, hr] using hk
  | some r =>
    have hne : r ≠ q := by
      rintro rfl
      exact hturn.pending hr
    have hval : (r - p).val ≠ (q - p).val := fun heq => hne (sub_left_injective (Fin.ext heq))
    obtain ⟨hlt, hle⟩ := firstFrom_succ_between (hturn.waits (rrDispatched_eq_some hr).1) hk
      (dispatchesRr_firstFrom hturn.safe hr)
    have hone : rrDispatches c [(k, e)] = 1 := by simp [rrDispatches, hr]
    simp only [Option.getD_some, hone]
    omega

theorem run_turn (h : Run Step k es k') (hturn : ∀ e ∈ es, KeepsTurn c q e.1 e.2)
    (hk : NotYet c p q k) :
    NotYet c p q k' ∧
      ((k.cpus c).lastExecutedProc - p).val + rrDispatches c es ≤
        ((k'.cpus c).lastExecutedProc - p).val := by
  induction h with
  | nil => exact ⟨hk, le_rfl⟩
  | @cons k e k₁ es k' hstep _ ih =>
    obtain ⟨hhead, htail⟩ := List.forall_mem_cons.mp hturn
    obtain ⟨hk₁, hle⟩ := step_turn hstep hhead hk
    obtain ⟨hk', hle'⟩ := ih htail hk₁
    have hcount : rrDispatches c ((k, e) :: es) = rrDispatches c [(k, e)] + rrDispatches c es := by
      rw [rrDispatches, ← List.singleton_append, List.countP_append]
      rfl
    exact ⟨hk', by omega⟩

theorem step_rrDispatched (h : Step k e k') (hd : k.rrDispatched c e = some p) :
    (k'.cpus c).lastExecutedProc = p := by
  rw [(step_effect h).lastExecutedProc c, hd, Option.getD_some]

theorem notYet_of_last (hk : (k.cpus c).lastExecutedProc = p) (hqp : q ≠ p) : NotYet c p q k := by
  rw [NotYet, hk, sub_self]
  exact Nat.pos_of_ne_zero fun h0 => hqp (sub_eq_zero.mp (Fin.ext h0))

/-- A process that waits for its turn sees each other process of the queue taken once at most. -/
theorem run_turn_bound (h : Run Step k es k')
    (hturn : ∀ e ∈ es, KeepsTurn c q e.1 e.2) (hq : (k.cpus c).lastExecutedProc ≠ q) :
    rrDispatches c es < nproc := by
  obtain ⟨hk', hle⟩ := run_turn h hturn (notYet_of_last rfl hq.symm)
  have hlt := (q - (k.cpus c).lastExecutedProc).isLt
  unfold NotYet at hk'
  omega

theorem run_turn_bound_three : ∃ k es k', Run Step k es k' ∧ rrDispatches 0 es < nproc ∧ rrDispatches 0 es = 1 := by
  obtain ⟨k, hrun, hk⟩ := Run.of_exec_any step boot
    [.schedule 0, .schedule 0, .fork 0 true true, .fork 0 true true, .changeQueue 0 3 Level.rr.code, .sleep 0 .ticks]
    (fun k => decide ((k.cpus 0).lastExecutedProc ≠ 2 ∧ RotationSafe 0 k (.schedule 0) ∧ (k.proc 2).candidate .rr ∧
      k.rrDispatched 0 (.schedule 0) = some 1) && (step k (.schedule 0)).isSome) (by decide +kernel)
  simp only [Bool.and_eq_true, decide_eq_true_eq] at hk
  obtain ⟨⟨hlast, hsafe, hwait, hone⟩, hstep⟩ := hk
  obtain ⟨k', hstep⟩ := Option.isSome_iff_exists.mp hstep
  have hturn : ∀ e ∈ [(k, Event.schedule 0)], KeepsTurn 0 2 e.1 e.2 := by
    simpa using ⟨hsafe, fun _ => hwait, by simp [DispatchesRr, hone]⟩
  exact ⟨k, _, k', .single hstep, run_turn_bound (.single hstep) hturn hlast, by simp [rrDispatches, hone]⟩

/-- Two consecutive turns of `p`, at `a` and at `b`, with `p` and `q` both `RUNNABLE` at every
decision after the first of them. -/
structure BothWait (c : Fin ncpu) (p q : Slot) (a : Kernel × Event) (mid : List (Kernel × Event))
    (b : Kernel × Event) : Prop where
  first : DispatchesRr c p a
  again : DispatchesRr c p b
  next : ∀ e ∈ mid, ¬ DispatchesRr c p e
  distinct : q ≠ p
  waits : ∀ e ∈ mid ++ [b], WaitsAt c p e ∧ WaitsAt c q e

def Rotates (c : Fin ncpu) (es : List (Kernel × Event)) : Prop :=
  ∀ before a mid b after p q, es = before ++ a :: (mid ++ b :: after) → BothWait c p q a mid b →
    ∃ e ∈ mid, DispatchesRr c q e

theorem dispatchesRr_last (hlast : (k.cpus c).lastExecutedProc = p) (hwait : WaitsAt c p (k, e))
    (h : DispatchesRr c q (k, e)) : q = p := by
  obtain ⟨he, hd⟩ := rrDispatched_eq_some h
  have hchoose : roundRobin k.proc (k.cpus c).lastExecutedProc = some q :=
    (decision_eq_dispatch_iff.mp hd).2.1
  rw [hlast, roundRobin_self (hwait he)] at hchoose
  exact (Option.some.inj hchoose).symm

theorem run_dispatchesRr_last (h : Run Step k es k')
    (hlast : (k.cpus c).lastExecutedProc = p) (hwait : ∀ e ∈ es, WaitsAt c p e) :
    ∀ e ∈ es, ∀ q, DispatchesRr c q e → q = p := by
  have hstep : ∀ s l t, Step s l t → WaitsAt c p (s, l) →
      (s.cpus c).lastExecutedProc = p → (t.cpus c).lastExecutedProc = p := by
    intro s l t hst hw hs
    rw [(step_effect hst).lastExecutedProc c]
    cases hr : s.rrDispatched c l with
    | none => exact hs
    | some r => exact dispatchesRr_last hs hw hr
  have hinv := h.always_invariant hstep hwait hlast
  exact fun e he q hq => dispatchesRr_last (hinv.1 e he) (hwait e he) hq

theorem BothWait.passed_over (hboth : BothWait c p q a mid b)
    (h : Run Step k (before ++ a :: (mid ++ b :: after)) k') : ∀ e ∈ mid, ¬ DispatchesRr c q e := by
  obtain ⟨k₁, -, hrest⟩ := h.of_append
  cases hrest with
  | cons hstep hrest =>
    obtain ⟨k₂, hmid, -⟩ := hrest.of_append
    have hlast := step_rrDispatched hstep hboth.first
    have hwait : ∀ e ∈ mid, WaitsAt c p e := fun e he =>
      (hboth.waits e (List.mem_append_left _ he)).1
    intro e he hq
    exact hboth.distinct (run_dispatchesRr_last hmid hlast hwait e he q hq)

theorem exists_bothWait : ∃ k before a mid b,
    Run Step boot (before ++ a :: (mid ++ [b])) k ∧ BothWait 0 0 1 a mid b := by
  let slice : List Event := .fork 0 true true :: .replicate 6 (.timer 0 true)
  obtain ⟨k₁, hrun₁, h₁⟩ := Run.of_exec_any step boot [.schedule 0]
    (fun k : Kernel => decide (k.rrDispatched 0 (.schedule 0) = some 0) &&
      (step k (.schedule 0)).any fun k : Kernel => (exec step k slice).any fun k : Kernel =>
        decide (k.rrDispatched 0 (.schedule 0) = some 0) && (k.proc 0).candidate .rr &&
          (k.proc 1).candidate .rr && (step k (.schedule 0)).isSome) (by decide +kernel)
  simp only [Bool.and_eq_true, decide_eq_true_eq, Option.any_eq_true] at h₁
  obtain ⟨ha, k₂, hstep₂, k₃, hk₃, ⟨⟨hb, h0⟩, h1⟩, h₄⟩ := h₁
  obtain ⟨k₄, hstep₄⟩ := Option.isSome_iff_exists.mp h₄
  have hmid : ∀ e ∈ trace step k₂ slice, e.2 ≠ .schedule 0 := by
    intro e he h
    have hmem := mem_trace he
    rw [h] at hmem
    simp [slice] at hmem
  refine ⟨k₄, _, (k₁, .schedule 0), trace step k₂ slice, (k₃, .schedule 0),
    hrun₁.append (.cons hstep₂ ((Run.of_exec hk₃).append (.single hstep₄))), ?_⟩
  refine ⟨ha, hb, fun e he hd => hmid e he (rrDispatched_eq_some hd).1, by decide, fun e he => ?_⟩
  rcases List.mem_append.mp he with he | he
  · exact ⟨fun h => absurd h (hmid e he), fun h => absurd h (hmid e he)⟩
  · rw [List.mem_singleton.mp he]
    exact ⟨fun _ => h0, fun _ => h1⟩

/-- The scan follows the rule of rotation at a decision exactly when the last process is
alone or not ready.  Over a run the rule is broken each time its premise is met. -/
theorem roundRobin_rotation (c : Fin ncpu) :
    (∀ t last, roundRobin t last = nextAfter t last ↔ AloneIfReady t last) ∧
    ∀ k es k', Run Step k es k' →
      (Rotates c es ↔ ∀ before a mid b after p q, es = before ++ a :: (mid ++ b :: after) →
        ¬ BothWait c p q a mid b) := by
  refine ⟨roundRobin_eq_nextAfter_iff, fun k es k' hrun => ⟨?_, ?_⟩⟩
  · rintro hrot before a mid b after p q rfl hboth
    obtain ⟨e, he, hq⟩ := hrot before a mid b after p q rfl hboth
    exact hboth.passed_over hrun e he hq
  · intro hnever before a mid b after p q hes hboth
    exact absurd hboth (hnever before a mid b after p q hes)

theorem roundRobin_rotation_after_fork :
    ∃ es k, Run Step boot es k ∧ ¬ Rotates 0 es := by
  obtain ⟨k, before, a, mid, b, hrun, hboth⟩ := exists_bothWait
  refine ⟨_, k, hrun, fun hrot => ?_⟩
  exact ((roundRobin_rotation 0).2 _ _ _ hrun).mp hrot before a mid b [] 0 1 rfl hboth

theorem rotation_fails_after_fork : ∃ es k before a mid b,
    Run Step boot es k ∧ es = before ++ a :: (mid ++ [b]) ∧ BothWait 0 0 1 a mid b ∧
    ∀ e ∈ mid, ¬ DispatchesRr 0 1 e := by
  obtain ⟨k, before, a, mid, b, hrun, hboth⟩ := exists_bothWait
  exact ⟨_, k, before, a, mid, b, hrun, rfl, hboth, hboth.passed_over hrun⟩

end Kernel

end Xv6
