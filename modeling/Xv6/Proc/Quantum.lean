import Xv6.Proc.TimeSlice

namespace Xv6

open Lib

namespace Event

def ticks (c : Fin ncpu) : Event → Bool
  | .timer d _ => d == c
  | _ => false

def recounts (c : Fin ncpu) : Event → Bool
  | .syscall d num => d == c && num == 28
  | _ => false

theorem ticks_iff {c : Fin ncpu} {e : Event} : e.ticks c ↔ ∃ user, e = .timer c user := by
  cases e with
  | timer d user => simp [ticks]
  | _ => simp [ticks]

end Event

namespace Kernel

theorem changeQueue_killed (k : Kernel) (pid target : Word) (p : Slot) :
    ((k.changeQueue pid target).proc p).killed = (k.proc p).killed := by
  unfold changeQueue
  split
  case h_1 q _ =>
    by_cases hp : p = q
    · subst hp
      rw [setProc_self]
    · rw [setProc_of_ne _ _ hp]
  case h_2 => rfl

theorem foldl_agingSlot_killed (k : Kernel) (l : List Slot) (p : Slot) :
    ((l.foldl agingSlot k).proc p).killed = (k.proc p).killed := by
  induction l generalizing k with
  | nil => rfl
  | cons q l ih =>
    rw [List.foldl_cons, ih]
    unfold agingSlot
    simp only
    split_ifs
    · rfl
    · exact changeQueue_killed ..
    · exact changeQueue_killed ..
    · rfl
    · rfl

theorem clock_killed (k : Kernel) (c : Fin ncpu) (p : Slot) : ((k.clock c).proc p).killed = (k.proc p).killed := by
  unfold clock
  split
  · rw [aging, foldl_agingSlot_killed]
    simp only [wakeup, wakeup1]
    split <;> rfl
  · rfl

structure Stays (c : Fin ncpu) (p : Slot) (k : Kernel) (e : Event) : Prop where
  here : (k.cpus c).proc = some p
  alive : e = .timer c true → (k.proc p).killed = false

def yields (k : Kernel) (c : Fin ncpu) (p : Slot) (user : Bool) : Bool :=
  (k.timer c user).any fun k' => (k'.cpus c).proc == none && (k'.proc p).state == .runnable

theorem Stays.timer (h : Stays c p k (.timer c user)) (hk : k.Proper) :
    k.timer c user = some ((k.clock c).chargeTick c p) := by
  have hquiet := k.quiet_clock c
  have hp : ((k.clock c).cpus c).proc = some p := by rw [hquiet.cpus, h.here]
  have hrun := (hquiet.proper hk).running c p hp
  have halive : (((k.clock c).proc p).killed && user) = false := by
    cases user with
    | false => rw [Bool.and_false]
    | true => rw [Bool.and_true, clock_killed, h.alive rfl]
  unfold Kernel.timer
  simp only [hp, halive, hrun, Bool.false_eq_true, if_false, if_true]

theorem Stays.ticksUsed_clock (h : Stays c p k e) (hk : k.Proper) :
    ((k.clock c).proc p).ti.ticksUsed = (k.proc p).ti.ticksUsed :=
  SlotStep.ticksUsed_of_running ((k.quiet_clock c).slot p) (hk.running c p h.here)

theorem Stays.yields_iff (h : Stays c p k (.timer c user)) (hk : k.Proper) :
    k.yields c p user ↔ sliceTicks ≤ (k.proc p).ti.ticksUsed.toInt := by
  rw [yields, h.timer hk, Option.any_some, ← h.ticksUsed_clock hk]
  have hp : ((k.clock c).cpus c).proc = some p := by rw [(k.quiet_clock c).cpus, h.here]
  unfold chargeTick
  simp only
  split
  case isTrue hle =>
    refine iff_of_true ?_ hle
    simp [yield, leaveCpu]
  case isFalse hlt =>
    rw [setProc_cpus, setCpu_self, updateRemainTimes_proc, hp]
    exact iff_of_false (by simp) hlt

theorem Stays.tick (h : Stays c p k (.timer c user)) (hk : k.Proper) (hstep : Step k (.timer c user) k')
    (hp : (k'.cpus c).proc = some p) :
    (k.proc p).ti.ticksUsed.toInt < sliceTicks ∧
      (k'.proc p).ti.ticksUsed.toInt = (k.proc p).ti.ticksUsed.toInt + 1 := by
  have heq : (k.clock c).chargeTick c p = k' := Option.some.inj ((h.timer hk).symm.trans hstep)
  have hclock : ((k.clock c).cpus c).proc = some p := by rw [(k.quiet_clock c).cpus, h.here]
  have hsome := slice_of_proc hp
  rcases chargeTick_slice hclock with hnone | ⟨hlt, hmore⟩
  · rw [heq, hsome] at hnone
    cases hnone
  · rw [heq, hsome, h.ticksUsed_clock hk] at hmore
    exact ⟨h.ticksUsed_clock hk ▸ hlt, Option.some.inj hmore⟩

theorem Stays.other (h : Stays c p k e) (hk : k.Proper) (hstep : Step k e k') (hp : (k'.cpus c).proc = some p)
    (he : e.ticks c = false) :
    (k'.proc p).ti.ticksUsed.toInt = (k.proc p).ti.ticksUsed.toInt + if e.recounts c then 1 else 0 := by
  have halone : ∀ {k : Kernel} {d r}, k.Proper → (k.cpus c).proc = some p → (k.cpus d).proc = some r → d ≠ c →
      p ≠ r := by
    intro k d r hk hp hr hd heq
    exact hd (hk.alone d c r hr (heq ▸ hp))
  have hsame : (k'.proc p).ti.ticksUsed = (k.proc p).ti.ticksUsed → e.recounts c = false →
      (k'.proc p).ti.ticksUsed.toInt = (k.proc p).ti.ticksUsed.toInt + if e.recounts c then 1 else 0 := by
    intro heq hno
    rw [heq, hno, if_neg Bool.false_ne_true, add_zero]
  have hrun := hk.running c p h.here
  cases step_effect hstep with
  | schedule _ => exact hsame (by rw [schedule_ti]) rfl
  | @charge d user r hr _ _ =>
    have hd : d ≠ c := fun heq => by simp [Event.ticks, heq] at he
    have hquiet := k.quiet_clock d
    have hne := halone (hquiet.proper hk) (by rw [hquiet.cpus, h.here]) hr hd
    refine hsame ?_ rfl
    rw [chargeTick_proc_of_ne hne, SlotStep.ticksUsed_of_running (hquiet.slot p) hrun]
  | @syscall d num r hr hacc hword =>
    by_cases hd : d = c
    · subst hd
      obtain rfl : p = r := Option.some.inj (h.here.symm.trans hr)
      rw [setProc_self, Proc.countSyscall_ticksUsed _ hacc]
      by_cases h28 : num = 28
      · subst h28
        have hmax : (k.proc p).ti.ticksUsed ≠ BitVec.intMax 32 := hword
        rw [if_pos rfl, toInt_add_one hmax]
        simp [Event.recounts]
      · have hno : Event.recounts d (.syscall d num) = false := by
          rw [Event.recounts, beq_self_eq_true, Bool.true_and, beq_eq_false_iff_ne]
          exact h28
        rw [if_neg h28, hno, if_neg Bool.false_ne_true, add_zero]
    · refine hsame ?_ (by simp [Event.recounts, hd])
      rw [setProc_of_ne _ _ (halone hk h.here hr hd)]
  | changeQueue =>
    exact hsame (SlotStep.ticksUsed_of_running
      ((k.quiet_changeQueue (V := fun _ => True) _ trivial).slot p) hrun) rfl
  | @leave _ d r k₁ _ hidle hquiet hr hleave =>
    have hd : d ≠ c := by
      rintro rfl
      rw [hleave.cpus, Function.update_self] at hp
      cases hp
    have hhere : (k₁.cpus c).proc = some p := by rw [hquiet.cpus, h.here]
    have hproper := hquiet.proper hk
    refine hsame ?_ (by cases e with
      | syscall _ _ => exact hidle.elim
      | _ => rfl)
    rw [SlotStep.ticksUsed_of_running (hleave.slot p (halone hproper hhere hr hd)) (hproper.running c p hhere),
      SlotStep.ticksUsed_of_running (hquiet.slot p) hrun]
  | quiet hidle hquiet =>
    refine hsame (SlotStep.ticksUsed_of_running (hquiet.slot p) hrun) (by cases e with
      | syscall _ _ => exact hidle.elim
      | _ => rfl)

def ticksOn (c : Fin ncpu) (es : List (Kernel × Event)) : Nat := es.countP fun e => e.2.ticks c

def queueCalls (c : Fin ncpu) (es : List (Kernel × Event)) : Nat := es.countP fun e => e.2.recounts c

theorem start_here (hrun : Run Step k es k') (hstays : ∀ e ∈ es, Stays c p e.1 e.2)
    (hp : (k'.cpus c).proc = some p) : (k.cpus c).proc = some p := by
  cases hrun with
  | nil => exact hp
  | cons _ _ => exact (hstays _ List.mem_cons_self).here

theorem run_ticksUsed (hrun : Run Step k es k') (hk : k.Proper) (hstays : ∀ e ∈ es, Stays c p e.1 e.2)
    (hp : (k'.cpus c).proc = some p) :
    (k'.proc p).ti.ticksUsed.toInt = (k.proc p).ti.ticksUsed.toInt + ticksOn c es + queueCalls c es := by
  induction hrun with
  | nil => simp [ticksOn, queueCalls]
  | @cons k e k₁ es k' hstep hrest ih =>
    obtain ⟨hhead, htail⟩ := List.forall_mem_cons.mp hstays
    have hhere := start_here hrest htail hp
    have hone : (k₁.proc p).ti.ticksUsed.toInt = (k.proc p).ti.ticksUsed.toInt +
        (if e.ticks c then 1 else 0) + if e.recounts c then 1 else 0 := by
      cases he : e.ticks c with
      | false => rw [hhead.other hk hstep hhere he, if_neg Bool.false_ne_true, add_zero]
      | true =>
        cases e with
        | timer d user =>
          obtain rfl : d = c := by simpa [Event.ticks] using he
          rw [(hhead.tick hk hstep hhere).2, if_pos rfl, show Event.recounts d (.timer d user) = false from rfl,
            if_neg Bool.false_ne_true, add_zero]
        | _ => cases he
    rw [ih ((step_effect hstep).proper hk) htail hp, hone]
    simp only [ticksOn, queueCalls, List.countP_cons, Nat.cast_add, Nat.cast_ite, Nat.cast_one, Nat.cast_zero]
    omega

def YieldsAtQuantum (c : Fin ncpu) (p : Slot) (es : List (Kernel × Event)) : Prop :=
  ∀ es₁ k user es₂, es = es₁ ++ (k, .timer c user) :: es₂ →
    (k.yields c p user ↔ ticksOn c es₁ + 1 = quantum / sysTick)

theorem not_yields_of_stays
    (hrun : Run Step k (es₁ ++ (k', .timer c user) :: (es₂ ++ e' :: es)) k'') (hk : k.Proper)
    (hstays : ∀ e ∈ es₁ ++ (k', .timer c user) :: (es₂ ++ e' :: es), Stays c p e.1 e.2) : ¬k'.yields c p user := by
  obtain ⟨k₁, hbefore, hafter⟩ := hrun.of_append
  have hproper : k₁.Proper := hbefore.invariant_of_step (fun _ _ _ h => (step_effect h).proper) hk
  cases hafter with
  | @cons _ _ k₂ _ _ hstep hrest =>
    obtain ⟨hhead, htail⟩ := List.forall_mem_cons.mp fun e he => hstays e (List.mem_append_right es₁ he)
    have hhere : (k₂.cpus c).proc = some p := by
      obtain ⟨k₃, hmid, hlast⟩ := hrest.of_append
      have hlater := fun e he => htail e (List.mem_append_left (e' :: es) he)
      refine start_here hmid hlater ?_
      cases hlast
      exact (htail _ (List.mem_append_right _ List.mem_cons_self)).here
    rw [hhead.yields_iff hproper]
    exact Int.not_le.mpr (hhead.tick hproper hstep hhere).1

/-- With `used` ticks used at the dispatch, what the calls of `change_queue` have to add: not
too much before the fifth tick and enough at it. -/
def OnTime (c : Fin ncpu) (used : Int) (es : List (Kernel × Event)) : Prop :=
  ∀ es₁ k user es₂, es = es₁ ++ (k, .timer c user) :: es₂ →
    (ticksOn c es₁ < 4 → used + queueCalls c es₁ ≤ 4 - ticksOn c es₁) ∧
      (ticksOn c es₁ = 4 → 1 ≤ used + queueCalls c es₁)

theorem yields_iff_of_split (hrun : Run Step k (es₁ ++ (k', .timer c user) :: es₂) k'')
    (hk : k.Proper) (hstays : ∀ e ∈ es₁ ++ (k', .timer c user) :: es₂, Stays c p e.1 e.2) :
    k'.yields c p user ↔ 5 ≤ (k.proc p).ti.ticksUsed.toInt + ticksOn c es₁ + queueCalls c es₁ := by
  obtain ⟨k₁, hbefore, hafter⟩ := hrun.of_append
  obtain rfl : k₁ = k' := by
    cases hafter
    rfl
  have hhere := hstays (k₁, .timer c user) (List.mem_append_right _ List.mem_cons_self)
  have hproper : k₁.Proper := hbefore.invariant_of_step (fun _ _ _ h => (step_effect h).proper) hk
  rw [hhere.yields_iff hproper, run_ticksUsed hbefore hk (fun e he => hstays e (List.mem_append_left _ he)) hhere.here]
  rfl

theorem yieldsAtQuantum_iff_onTime {es₀ : List (Kernel × Event)} {k₀ : Kernel} {l : Level}
    (h₀ : Run Step boot es₀ k₀) (hd : k₀.decided c (.schedule c) = some (.dispatch l p))
    (hstep : Step k₀ (.schedule c) k) (hrun : Run Step k es k') (hstays : ∀ e ∈ es, Stays c p e.1 e.2) :
    YieldsAtQuantum c p es ↔ OnTime c (k₀.proc p).ti.ticksUsed.toInt es := by
  have hproper : k.Proper :=
    (h₀.append (.single hstep)).invariant_of_step (fun _ _ _ h => (step_effect h).proper) boot_proper
  have hused : (k.proc p).ti = (k₀.proc p).ti := by rw [step_decided hstep hd, schedule_ti]
  have hquantum : quantum / sysTick = 5 := rfl
  have htick : ∀ es₁ k₁ user es₂, es = es₁ ++ (k₁, .timer c user) :: es₂ →
      (k₁.yields c p user ↔
        5 ≤ (k₀.proc p).ti.ticksUsed.toInt + ticksOn c es₁ + queueCalls c es₁) := by
    rintro es₁ k₁ user es₂ rfl
    rw [yields_iff_of_split hrun hproper hstays, hused]
  refine ⟨fun hright es₁ k₁ user es₂ hes => ?_, fun hon es₁ k₁ user es₂ hes => ?_⟩
  · have hiff := (htick es₁ k₁ user es₂ hes).symm.trans (hright es₁ k₁ user es₂ hes)
    rw [hquantum] at hiff
    omega
  · obtain ⟨hearly, hfifth⟩ := hon es₁ k₁ user es₂ hes
    rw [htick es₁ k₁ user es₂ hes, hquantum]
    refine ⟨fun hle => ?_, fun heq => by omega⟩
    rcases Nat.lt_trichotomy (ticksOn c es₁) 4 with hlt | heq | hgt
    · have := hearly hlt
      omega
    · rw [heq]
    · obtain ⟨es₃, ⟨k₂, e₂⟩, es₄, rfl, he₂, hfour⟩ := exists_split_of_lt_countP hgt
      obtain ⟨user', rfl⟩ := Event.ticks_iff.mp he₂
      rw [List.append_assoc, List.cons_append] at hes
      have hyields := (htick es₃ k₂ user' _ hes).mpr (by
        have := (hon es₃ k₂ user' _ hes).2 hfour
        have hfour : ticksOn c es₃ = 4 := hfour
        omega)
      exact absurd hyields (not_yields_of_stays (hes ▸ hrun) hproper (hes ▸ hstays))

theorem onTime_iff {used : Int} : OnTime c used es ↔ ∀ i : Fin es.length, es[i].2.ticks c →
    (ticksOn c (es.take i) < 4 → used + queueCalls c (es.take i) ≤ 4 - ticksOn c (es.take i)) ∧
      (ticksOn c (es.take i) = 4 → 1 ≤ used + queueCalls c (es.take i)) := by
  refine ⟨fun hon i htick => ?_, ?_⟩
  · obtain ⟨user, huser⟩ := Event.ticks_iff.mp htick
    refine hon _ es[i].1 user (es.drop (i + 1)) ?_
    rw [← huser]
    exact ((congrArg _ (List.getElem_cons_drop i.isLt)).trans (List.take_append_drop i es)).symm
  · rintro hall es₁ k user es₂ rfl
    have hlt : es₁.length < (es₁ ++ (k, Event.timer c user) :: es₂).length := by simp
    have hat := hall ⟨es₁.length, hlt⟩
    simp only [Fin.getElem_fin, List.getElem_append_right le_rfl, Nat.sub_self, List.getElem_cons_zero,
      List.take_left] at hat
    exact hat (Event.ticks_iff.mpr ⟨user, rfl⟩)

instance decidableOnTime {used : Int} : Decidable (OnTime c used es) := decidable_of_iff _ onTime_iff.symm

instance decidableStays : Decidable (Stays c p k e) :=
  decidable_of_iff ((k.cpus c).proc = some p ∧ (e = .timer c true → (k.proc p).killed = false))
    ⟨fun h => ⟨h.1, h.2⟩, fun h => ⟨h.here, h.alive⟩⟩

def nap : List Event := [.schedule 0, .schedule 0, .timer 0 true, .sleep 0 .ticks, .wakeup .ticks]

def fiveTicks : List Event := .replicate 5 (.timer 0 true)

theorem yieldsAtQuantum_of_nap : ∃ k₀ k k', Run Step boot (trace step boot nap) k₀ ∧
    k₀.decided 0 (.schedule 0) = some (.dispatch .rr 0) ∧ Step k₀ (.schedule 0) k ∧
      Run Step k (trace step k fiveTicks) k' ∧ YieldsAtQuantum 0 0 (trace step k fiveTicks) := by
  obtain ⟨k₀, hk₀, h⟩ := (Option.any_eq_true _ _).mp
    (show (exec step boot nap).any (fun k₀ => decide (k₀.decided 0 (.schedule 0) = some (.dispatch .rr 0)) &&
      (step k₀ (.schedule 0)).any fun k => (exec step k fiveTicks).isSome &&
        decide (∀ e ∈ trace step k fiveTicks, Stays 0 0 e.1 e.2) &&
          decide (OnTime 0 (k₀.proc 0).ti.ticksUsed.toInt (trace step k fiveTicks))) by decide +kernel)
  simp only [Bool.and_eq_true, decide_eq_true_eq, Option.any_eq_true] at h
  obtain ⟨hd, k, hk, ⟨hsome, hstays⟩, hon⟩ := h
  obtain ⟨k', hk'⟩ := Option.isSome_iff_exists.mp hsome
  exact ⟨k₀, k, k', Run.of_exec hk₀, hd, hk, Run.of_exec hk',
    (yieldsAtQuantum_iff_onTime (Run.of_exec hk₀) hd hk (Run.of_exec hk') hstays).mpr hon⟩

theorem not_yieldsAtQuantum_of_fresh : ∃ k₀ k k', Run Step boot (trace step boot [.schedule 0]) k₀ ∧
    k₀.decided 0 (.schedule 0) = some (.dispatch .rr 0) ∧ (k₀.proc 0).ti.ticksUsed = 0 ∧ Step k₀ (.schedule 0) k ∧
      Run Step k (trace step k fiveTicks) k' ∧ (∀ e ∈ trace step k fiveTicks, Stays 0 0 e.1 e.2) ∧
        (k'.cpus 0).proc = some 0 ∧ k'.yields 0 0 true ∧ ¬YieldsAtQuantum 0 0 (trace step k fiveTicks) := by
  obtain ⟨k₀, hk₀, h⟩ := (Option.any_eq_true _ _).mp
    (show (exec step boot [.schedule 0]).any (fun k₀ => decide (k₀.decided 0 (.schedule 0) = some (.dispatch .rr 0)) &&
      decide ((k₀.proc 0).ti.ticksUsed = 0) && (step k₀ (.schedule 0)).any fun k =>
        (exec step k fiveTicks).any (fun k' => decide ((k'.cpus 0).proc = some 0) && k'.yields 0 0 true) &&
          decide (∀ e ∈ trace step k fiveTicks, Stays 0 0 e.1 e.2) &&
            ((trace step k fiveTicks)[4]?.any fun e => decide (e.2 = .timer 0 true) && !e.1.yields 0 0 true) &&
              decide (ticksOn 0 ((trace step k fiveTicks).take 4) = 4)) by decide +kernel)
  simp only [Bool.and_eq_true, decide_eq_true_eq, Option.any_eq_true, Bool.not_eq_true'] at h
  obtain ⟨⟨hd, hused⟩, k, hk, ⟨⟨⟨k', hk', hhere, hyields⟩, hstays⟩, ⟨k₄, e₄⟩, hfour, rfl, hno⟩, hticks⟩ := h
  refine ⟨k₀, k, k', Run.of_exec hk₀, hd, hused, hk, Run.of_exec hk', hstays, hhere, hyields, fun hright => ?_⟩
  obtain ⟨hlt, hget⟩ := List.getElem?_eq_some_iff.mp hfour
  have hsplit := ((congrArg _ (List.getElem_cons_drop hlt)).trans (List.take_append_drop 4 _)).symm
  rw [hget] at hsplit
  have hyes := (hright _ k₄ true _ hsplit).mpr (by rw [hticks]; rfl)
  rw [hno] at hyes
  cases hyes

end Kernel

end Xv6
