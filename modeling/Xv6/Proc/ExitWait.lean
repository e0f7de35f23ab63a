import Xv6.Lib.Count
import Xv6.Proc.Family

namespace Xv6

open Function Lib

def ProcState.Held (building : Bool) : ProcState → Prop
  | .unused => False
  | .embryo => building = true
  | _ => True

instance (building : Bool) : DecidablePred (ProcState.Held building)
  | .unused => .isFalse id
  | .embryo => inferInstanceAs (Decidable (building = true))
  | .sleeping | .runnable | .running | .zombie => .isTrue trivial

namespace Smp

def taken (e : Smp × Act) : Option Word :=
  match e.2 with
  | .allocproc _ => e.1.kernel.takeSlot.map fun _ => e.1.kernel.nextpid
  | _ => none

def forked (e : Smp × Act) : Option Word :=
  match e.2 with
  | .runnable c => do
    let p ← e.1.current c
    match e.1.ctl p with
    | .copied np => some (e.1.kernel.proc np).pid
    | _ => none
  | _ => none

def waits (e : Smp × Act) : Option (Slot × Slot) :=
  match e.2 with
  | .wait c => do
    let p ← e.1.current c
    let q ← e.1.kernel.reaped p
    some (p, q)
  | _ => none

def waited (e : Smp × Act) : Option Word := (waits e).map fun r => (e.1.kernel.proc r.2).pid

def times (f : Smp × Act → Option Word) (x : Word) (es : List (Smp × Act)) : Nat :=
  es.countP fun e => f e == some x

def born (building : Bool) (e : Smp × Act) : Option Word := bif building then taken e else forked e

def holders (b : Bool) (s : Smp) (x : Word) : Int :=
  count (fun r : Proc => r.state.Held b ∧ r.pid = x) s.kernel.proc

theorem held_of_wake {x y : ProcState} (h : y = x ∨ x = .sleeping ∧ y = .runnable) :
    y.Held b ↔ x.Held b := by
  rcases h with rfl | ⟨rfl, rfl⟩ <;> exact .rfl

theorem holders_of_keep (hheld : ∀ q, (t.kernel.proc q).state.Held b ↔ (s.kernel.proc q).state.Held b)
    (hpid : ∀ q, (t.kernel.proc q).pid = (s.kernel.proc q).pid) : holders b t x = holders b s x :=
  count_congr fun q => by rw [hheld q, hpid q]

theorem holders_of_update (hproc : t.kernel.proc = update s.kernel.proc p r) :
    holders b t x = holders b s x -
      (if (s.kernel.proc p).state.Held b ∧ (s.kernel.proc p).pid = x then 1 else 0) +
      if r.state.Held b ∧ r.pid = x then 1 else 0 := by
  rw [holders, hproc, count_update]
  rfl

theorem holders_of_update_le (hproc : t.kernel.proc = update s.kernel.proc p r)
    (hheld : r.state.Held b → (s.kernel.proc p).state.Held b ∧ r.pid = (s.kernel.proc p).pid) :
    holders b t x ≤ holders b s x := by
  rw [holders_of_update hproc]
  by_cases hr : r.state.Held b ∧ r.pid = x
  · obtain ⟨hold, hpid⟩ := hheld hr.1
    rw [if_pos hr, if_pos ⟨hold, hpid ▸ hr.2⟩]
    omega
  · rw [if_neg hr]
    split <;> omega

theorem taken_of_unused (h : (s.kernel.proc p).state = .unused) :
    taken (s, .allocproc c) = some s.kernel.nextpid := by
  have hsome : ((List.finRange nproc).find? fun p => (s.kernel.proc p).state == .unused).isSome := by
    rw [List.find?_isSome]
    exact ⟨p, List.mem_finRange p, by simp [h]⟩
  obtain ⟨q, hq⟩ := Option.isSome_iff_exists.mp hsome
  simp [taken, Kernel.takeSlot, hq]

theorem forked_of_at (hat : s.At c p (.copied np)) :
    forked (s, .runnable c) = some (s.kernel.proc np).pid := by
  simp [forked, hat.1, hat.2]

theorem waited_of_reaped (hp : s.current c = some p) (hq : s.kernel.reaped p = some q) :
    waited (s, .wait c) = some (s.kernel.proc q).pid := by
  simp [waited, waits, hp, hq]

theorem waits_parent (h : waits e = some (p, q)) :
    (e.1.kernel.proc q).parent = some p := by
  unfold waits at h
  split at h
  · obtain ⟨p', -, h⟩ := Option.bind_eq_some_iff.mp h
    obtain ⟨q', hq, h⟩ := Option.bind_eq_some_iff.mp h
    cases h
    exact (Kernel.reaped_eq_some hq).1
  · cases h

theorem Change.holders_le (h : Change s a t) (hs : s.Placed) (hw : waited (s, a) = none) :
    holders b t x ≤ holders b s x + if born b (s, a) = some x then 1 else 0 := by
  have hkept : holders b t x ≤ holders b s x →
      holders b t x ≤ holders b s x + if born b (s, a) = some x then 1 else 0 := by
    intro h
    split <;> omega
  cases h with
  | pass _ hcalm _ =>
    exact hkept (holders_of_keep (fun q => held_of_wake (hcalm q).state) fun q => (hcalm q).pid).le
  | dispatch c p _ hp _ _ hproc _ =>
    exact hkept (holders_of_update_le hproc fun _ => ⟨by rw [hp]; trivial, rfl⟩)
  | yield c p ti hleave hproc _ =>
    have hrun := hs.running c p hleave.here
    exact hkept (holders_of_update_le hproc fun _ => ⟨by rw [hrun]; trivial, rfl⟩)
  | sleep c p chan _ hleave hproc _ _ =>
    have hrun := hs.running c p hleave.here
    exact hkept (holders_of_update_le hproc fun _ => ⟨by rw [hrun]; trivial, rfl⟩)
  | exit c p _ hleave hexit _ =>
    have hrun := hs.running c p hleave.here
    refine hkept (holders_of_keep (fun q => ?_) hexit.pid).le
    by_cases hq : q = p
    · rw [hq, hexit.zombie, hrun]
      exact .rfl
    · exact held_of_wake (hexit.state q hq)
  | reap c p q hat hreaped _ =>
    rw [waited_of_reaped hat.1 hreaped] at hw
    cases hw
  | take c p np _ hunused hkernel _ =>
    have hproc : t.kernel.proc = update s.kernel.proc np
        { (s.kernel.proc np).clearUsedSyscalls with state := .embryo, pid := s.kernel.nextpid } := by
      rw [hkernel]
      rfl
    rw [holders_of_update hproc, hunused, born, taken_of_unused hunused]
    cases b <;> simp [ProcState.Held, forked]
  | free p np hchild hkernel _ =>
    have hproc : t.kernel.proc = update s.kernel.proc np
        { s.kernel.proc np with state := .unused } := by
      rw [hkernel]
      rfl
    exact hkept (holders_of_update_le hproc (False.elim ·))
  | setParent c p np _ hkernel _ =>
    have hproc : t.kernel.proc = update s.kernel.proc np
        { s.kernel.proc np with parent := some p } := by
      rw [hkernel]
      rfl
    exact hkept (holders_of_update_le hproc fun h => ⟨h, rfl⟩)
  | setRunnable c p np y hat hkernel _ _ =>
    have hembryo := hs.embryo p np (by rw [hat.2]; rfl)
    have hproc : t.kernel.proc = update s.kernel.proc np
        { s.kernel.proc np with state := .runnable } := by
      rw [hkernel]
      rfl
    rw [holders_of_update hproc, hembryo, born, forked_of_at hat]
    cases b <;> simp [ProcState.Held, taken]

theorem holders_step (h : Step s a t) (hs : s.Placed) :
    holders b t x + (if waited (s, a) = some x then 1 else 0) ≤
      holders b s x + if born b (s, a) = some x then 1 else 0 := by
  have hnone : waited (s, a) = none → holders b t x + (if waited (s, a) = some x then 1 else 0) ≤
      holders b s x + if born b (s, a) = some x then 1 else 0 := by
    intro hw
    have hle := h.did.change.holders_le (b := b) (x := x) hs hw
    rwa [hw, if_neg (by simp), Int.add_zero]
  cases h.did with
  | @wait c p hat =>
    cases hreaped : s.kernel.reaped p with
    | none => exact hnone (by simp [waited, waits, hat.1, hreaped])
    | some q =>
      obtain ⟨-, hzombie⟩ := Kernel.reaped_eq_some hreaped
      have hproc : (s.kernel.wait c p).proc =
          update s.kernel.proc q (Kernel.reap (s.kernel.proc q)) := by
        rw [Kernel.wait_eq, hreaped]
        rfl
      rw [holders_of_update hproc, waited_of_reaped hat.1 hreaped]
      cases b <;> simp [hzombie, Kernel.reap, ProcState.Held, born, taken, forked]
  | _ => exact hnone rfl

theorem times_cons (f : Smp × Act → Option Word) (e : Smp × Act) :
    times f x (e :: es) = times f x es + if f e = some x then 1 else 0 := by
  simp [times, List.countP_cons]

theorem holders_run (h : Run Step s es t) (hs : s.Placed) :
    holders b t x + times waited x es ≤ holders b s x + times (born b) x es := by
  induction h with
  | nil => simp [times]
  | cons h _ ih =>
    have hstep := holders_step (b := b) (x := x) h hs
    have hrest := ih (h.did.change.placed hs)
    rw [times_cons, times_cons]
    push_cast
    omega

theorem boot_holders (b : Bool) (x : Word) : holders b boot x ≤ if x = 1 then 1 else 0 := by
  have hnone : count (fun r : Proc => r.state.Held b ∧ r.pid = x) (fun _ : Slot => Proc.zero) = 0 := by
    simp [count, Proc.zero, ProcState.Held]
  have hproc : Kernel.boot.proc = update (fun _ => Proc.zero) 0 (Kernel.boot.proc 0) := by
    funext p
    by_cases hp : p = 0
    · rw [hp, update_self]
    · rw [update_of_ne hp, boot_proc p hp]
  obtain ⟨-, hstate, -, hpid⟩ := boot_init
  have hzero : ¬ Proc.zero.state.Held b := id
  rw [holders, boot, hproc, count_update, hnone, hstate, hpid, if_neg fun h => hzero h.1]
  simp [ProcState.Held, eq_comm (a := x)]

theorem waited_le_born (h : Run Step boot es t) (x : Word) :
    times waited x es ≤ times (born b) x es := by
  have hrun := holders_run (b := b) (x := x) h boot_placed
  have hboot := boot_holders b x
  have hfamily := (always_family h).2
  have hinit : (if x = 1 then 1 else 0) ≤ holders b t x := by
    by_cases hx : x = 1
    · obtain ⟨i, -, halive, -, hpid⟩ := hfamily.init
      rw [if_pos hx, hx]
      have hheld : (t.kernel.proc i).state.Held b := by
        cases hstate : (t.kernel.proc i).state <;> simp_all [ProcState.Alive, ProcState.Held]
      exact count_pos (i := i) ⟨hheld, hpid⟩
    · rw [if_neg hx]
      exact count_nonneg
  omega

def allocated (es : List (Smp × Act)) : Nat := es.countP fun e => (taken e).isSome

theorem allocated_cons (e : Smp × Act) :
    allocated (e :: es) = allocated es + if (taken e).isSome then 1 else 0 := by
  simp [allocated, List.countP_cons]

theorem taken_eq (h : taken e = some y) : y = e.1.kernel.nextpid := by
  unfold taken at h
  split at h
  · obtain ⟨-, -, heq⟩ := Option.map_eq_some_iff.mp h
    exact heq.symm
  · cases h

theorem Step.nextpid (h : Step s a t) :
    t.kernel.nextpid = s.kernel.nextpid + if (taken (s, a)).isSome then 1 else 0 := by
  have hsame := h.did.sameIds
  cases h.did with
  | allocproc _ htake =>
    rw [setCtl, (Kernel.takeSlot_eq_some htake).2]
    simp [taken, htake, Kernel.setProc]
  | full _ htake => simp [taken, htake]
  | _ =>
    rcases hsame with hsame | ⟨⟨c, hc⟩, -⟩
    · simpa [taken] using hsame.nextpid
    · cases hc

theorem taken_le (h : Run Step s es t) (hes : allocated es ≤ 2 ^ 32) (x : Word) :
    times taken x es ≤ if (x - s.kernel.nextpid).toNat < allocated es then 1 else 0 := by
  induction h with
  | nil => simp [times]
  | @cons s a t es u h hrun ih =>
    have hnext := h.nextpid
    rw [allocated_cons] at hes ⊢
    rw [times_cons]
    cases htaken : taken (s, a) with
    | none =>
      rw [htaken] at hes hnext
      rw [show t.kernel.nextpid = s.kernel.nextpid by simpa using hnext] at ih
      simpa using ih hes
    | some y =>
      obtain rfl := taken_eq htaken
      rw [htaken] at hes hnext
      simp only [Option.isSome_some, if_true] at hes hnext ⊢
      rw [hnext] at ih
      have hrest := ih (by omega)
      simp only [Option.some.injEq]
      by_cases hx : s.kernel.nextpid = x
      · have hlast : (x - (s.kernel.nextpid + 1)).toNat = 2 ^ 32 - 1 := by
          subst hx
          bv_omega
        rw [hlast, if_neg (by omega)] at hrest
        rw [if_pos hx, if_pos (by subst hx; simp)]
        omega
      · have hsucc : (x - s.kernel.nextpid).toNat = (x - (s.kernel.nextpid + 1)).toNat + 1 := by
          bv_omega
        rw [if_neg hx, hsucc]
        simpa using hrest

theorem taken_le_one (h : Run Step s es t) (hes : allocated es ≤ 2 ^ 32) (x : Word) :
    times taken x es ≤ 1 := by
  have hle := taken_le h hes x
  split at hle <;> omega

end Smp

namespace Kernel

def HaveParents (k : Kernel) : Prop :=
  ∀ q, k.initproc ≠ some q → (k.proc q).state.Live →
    ∃ r, (k.proc q).parent = some r ∧ (k.proc r).state.Alive

def NoneMissed (k : Kernel) : Prop :=
  ∀ p q, (k.proc p).state = .sleeping → (k.proc p).chan = some (.proc p) →
    (k.proc q).parent = some p → (k.proc q).state ≠ .zombie

end Kernel

namespace Smp

theorem exit_wait_protocol (h : Run Step boot es t) :
    Run.Always (fun s => s.kernel.HaveParents ∧ s.kernel.NoneMissed) es t ∧
      (∀ x, times waited x es ≤ times forked x es) ∧
      (allocated es ≤ 2 ^ 32 → ∀ x, times waited x es ≤ 1) ∧
      ∀ e ∈ es, ∀ p q, waits e = some (p, q) → (e.1.kernel.proc q).parent = some p := by
  obtain ⟨hes, ht⟩ := always_family h
  refine ⟨⟨fun e he => ⟨(hes e he).parent, (hes e he).asleep⟩, ht.parent, ht.asleep⟩, ?_, ?_, ?_⟩
  · exact waited_le_born (b := false) h
  · exact fun hfew x => (waited_le_born (b := true) h x).trans (taken_le_one h hfew x)
  · exact fun e _ p q => waits_parent

theorem exit_wait_of_fork :
    let es := trace step boot [.schedule 1, .schedule 1, .allocproc 1, .kstack 1 true, .copyuvm 1 true,
      .runnable 1, .getProcByPid 1 2 Level.rr.code, .changeQueue 1, .schedule 2, .schedule 2,
      .wait 1, .exit 2, .schedule 1, .wait 1]
    ∃ s, Run Step boot es s ∧
      Run.Always (fun s => s.kernel.HaveParents ∧ s.kernel.NoneMissed) es s ∧ times waited 2 es = 1 := by
  intro es
  obtain ⟨s, hrun, -⟩ := Run.of_exec_any step boot [.schedule 1, .schedule 1, .allocproc 1,
    .kstack 1 true, .copyuvm 1 true, .runnable 1, .getProcByPid 1 2 Level.rr.code, .changeQueue 1,
    .schedule 2, .schedule 2, .wait 1, .exit 2, .schedule 1, .wait 1]
    (fun s => (s.kernel.proc 1).state == .unused) (by decide +kernel)
  exact ⟨s, hrun, (exit_wait_protocol hrun).1, by decide +kernel⟩

end Smp

end Xv6
