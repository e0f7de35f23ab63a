import Mathlib.Order.WellFounded
import Xv6.Lib.Select
import Xv6.Proc.Scheduler

namespace Xv6

open Function Lib

variable {t : Table} {ticks : Word} {f p q : Slot}

def confident (t : Table) (ticks : Word) (p : Slot) : Bool :=
  decide ((createRandomNumber ticks 100 : Int) < (t p).ti.confidence.toInt)

def burst (t : Table) (p : Slot) : Int := (t p).ti.burstTime.toInt

theorem shortestJobFirst_eq_none_iff : shortestJobFirst t ticks = none ↔ ∀ p, ¬(t p).candidate .sjf := by
  rw [shortestJobFirst, select_eq_none_iff]
  simp only [List.mem_finRange, forall_const]

theorem shortestJobFirst_firstMin (ticks : Word) (hf : (t f).candidate .sjf) (hfirst : ∀ p < f, ¬(t p).candidate .sjf) :
    ∃ q, shortestJobFirst t ticks = some q ∧
      FirstMin (fun p => p = f ∨ (t p).candidate .sjf ∧ confident t ticks p) (burst t) q := by
  have hfind : (List.finRange nproc).find? (fun p => (t p).candidate .sjf) = some f :=
    find?_finRange_eq_some_iff.mpr ⟨hf, hfirst⟩
  obtain ⟨q, hq, hmin⟩ : ∃ q, shortestJobFirst t ticks = some q ∧
      FirstMin (fun p => p = f ∨ p ∈ List.finRange nproc ∧ (t p).candidate .sjf ∧ confident t ticks p) (burst t) q :=
    select_firstMin (List.sortedLT_finRange nproc).pairwise hfind
  refine ⟨q, hq, ?_⟩
  simpa only [List.mem_finRange, true_and] using hmin

theorem shortestJobFirst_returns (t : Table) (ticks : Word) :
    (shortestJobFirst t ticks = none ↔ ∀ p, ¬(t p).candidate .sjf) ∧
      ∀ f, (t f).candidate .sjf → (∀ p < f, ¬(t p).candidate .sjf) → ∃ q, shortestJobFirst t ticks = some q ∧
        FirstMin (fun p => p = f ∨ (t p).candidate .sjf ∧ ((ticks.toNat % 100 : Nat) : Int) < (t p).ti.confidence.toInt)
          (fun p => (t p).ti.burstTime.toInt) q := by
  refine ⟨shortestJobFirst_eq_none_iff, fun f hf hfirst => ?_⟩
  obtain ⟨q, hq, hmin⟩ := shortestJobFirst_firstMin ticks hf hfirst
  have hpool : (fun p => p = f ∨ (t p).candidate .sjf ∧ confident t ticks p) = fun p =>
      p = f ∨ (t p).candidate .sjf ∧ ((ticks.toNat % 100 : Nat) : Int) < (t p).ti.confidence.toInt := by
    funext p
    rw [confident, decide_eq_true_eq, createRandomNumber]
  exact ⟨q, hq, hpool ▸ hmin⟩

def twoJobs (confidence : Word) : Table := fun p =>
  if p = 0 then { Proc.zero with pid := 1, state := .runnable, ti := { TimeInfo.zero with queue := 1, burstTime := 2 } }
  else if p = 1 then
    { Proc.zero with
      pid := 2, state := .runnable, ti := { TimeInfo.zero with queue := 1, burstTime := 1, confidence := confidence } }
  else .zero

theorem shortestJobFirst_returns_first : ∃ q, shortestJobFirst (twoJobs 0) 0 = some q ∧ q = 0 := by
  obtain ⟨q, hq, hmin⟩ := (shortestJobFirst_returns (twoJobs 0) 0).2 0 (by decide) (by decide)
  refine ⟨q, hq, ?_⟩
  rcases hmin.mem with heq | hpass
  · exact heq
  · have hnone : ∀ p, ¬((twoJobs 0 p).candidate .sjf ∧
        (((0 : Word).toNat % 100 : Nat) : Int) < (twoJobs 0 p).ti.confidence.toInt) := by decide
    exact absurd hpass (hnone q)

def OrderFree (t : Table) (ticks : Word) : Prop :=
  ∀ σ : Equiv.Perm Slot, (shortestJobFirst (t ∘ σ) ticks).map σ = shortestJobFirst t ticks

def ShortestPasses (t : Table) (ticks : Word) : Prop :=
  ∀ p, (t p).candidate .sjf → (∀ q, (t q).candidate .sjf → burst t p ≤ burst t q) →
    confident t ticks p ∨ ∀ q, (t q).candidate .sjf → q = p

theorem exists_first (h : (t p).candidate .sjf) :
    ∃ f, (t f).candidate .sjf ∧ ∀ q < f, ¬(t q).candidate .sjf := by
  obtain ⟨f, hf⟩ : ∃ f, (List.finRange nproc).find? (fun q => (t q).candidate .sjf) = some f :=
    Option.isSome_iff_exists.mp (List.find?_isSome.mpr ⟨p, List.mem_finRange p, h⟩)
  exact ⟨f, find?_finRange_eq_some_iff.mp hf⟩

theorem shortestJobFirst_of_confident
    (hdiff : ∀ p q, (t p).candidate .sjf → (t q).candidate .sjf → burst t p = burst t q → p = q)
    (hp : (t p).candidate .sjf) (hleast : ∀ q, (t q).candidate .sjf → burst t p ≤ burst t q)
    (hpass : confident t ticks p ∨ ∀ q, (t q).candidate .sjf → q = p) : shortestJobFirst t ticks = some p := by
  obtain ⟨f, hf, hfirst⟩ := exists_first hp
  obtain ⟨q, hq, hmin⟩ := shortestJobFirst_firstMin ticks hf hfirst
  have hcand : (t q).candidate .sjf := by
    rcases hmin.mem with rfl | h
    · exact hf
    · exact h.1
  rw [hq]
  rcases hpass with hconf | honly
  · have hle := hmin.least p (.inr ⟨hp, hconf⟩)
    exact congrArg some (hdiff q p hcand hp (le_antisymm hle (hleast q hcand)))
  · exact congrArg some (honly q hcand)

theorem orderFree_of_shortestPasses
    (hdiff : ∀ p q, (t p).candidate .sjf → (t q).candidate .sjf → burst t p = burst t q → p = q)
    (h : ShortestPasses t ticks) : OrderFree t ticks := by
  intro σ
  by_cases hnone : ∀ p, ¬(t p).candidate .sjf
  · have hmoved : shortestJobFirst (t ∘ σ) ticks = none := shortestJobFirst_eq_none_iff.mpr fun p => hnone (σ p)
    rw [shortestJobFirst_eq_none_iff.mpr hnone, hmoved, Option.map_none]
  · obtain ⟨r, hr⟩ : ∃ r, (t r).candidate .sjf := by simpa using hnone
    obtain ⟨p, hp, hmin⟩ := (Finset.univ.filter fun p => (t p).candidate .sjf).exists_min_image (burst t)
      ⟨r, by simpa using hr⟩
    simp only [Finset.mem_filter, Finset.mem_univ, true_and] at hp hmin
    have hpass := h p hp hmin
    rw [shortestJobFirst_of_confident hdiff hp hmin hpass]
    have hback : σ (σ.symm p) = p := σ.apply_symm_apply p
    have hmoved : shortestJobFirst (t ∘ σ) ticks = some (σ.symm p) := by
      refine shortestJobFirst_of_confident (fun q r hq hr heq => σ.injective (hdiff _ _ hq hr heq)) ?_ ?_ ?_
      · rwa [comp_apply, hback]
      · intro q hq
        rw [burst, comp_apply, hback]
        exact hmin _ hq
      · refine hpass.imp (fun hconf => ?_) fun honly q hq => ?_
        · rwa [confident, comp_apply, hback]
        · exact (σ.eq_symm_apply).mpr (honly _ hq)
    rw [hmoved, Option.map_some, hback]

theorem shortestJobFirst_swap (ticks : Word) (hp : (t p).candidate .sjf) :
    ∃ q, (shortestJobFirst (t ∘ Equiv.swap 0 p) ticks).map (Equiv.swap 0 p) = some q ∧
      (q = p ∨ (t q).candidate .sjf ∧ confident t ticks q) ∧ burst t q ≤ burst t p := by
  have hzero : ((t ∘ Equiv.swap 0 p) 0).candidate .sjf := by rwa [comp_apply, Equiv.swap_apply_left]
  obtain ⟨q, hq, hmin⟩ := shortestJobFirst_firstMin ticks hzero fun q hq => absurd hq (Fin.not_lt_zero q)
  refine ⟨Equiv.swap 0 p q, by rw [hq, Option.map_some], ?_, ?_⟩
  · refine hmin.mem.imp (fun h => ?_) fun h => h
    rw [h, Equiv.swap_apply_left]
  · have hle := hmin.least 0 (.inl rfl)
    rwa [burst, burst, comp_apply, comp_apply, Equiv.swap_apply_left] at hle

theorem orderFree_iff_shortestPasses (t : Table) (ticks : Word)
    (hdiff : ∀ p q, (t p).candidate .sjf → (t q).candidate .sjf → burst t p = burst t q → p = q) :
    OrderFree t ticks ↔ ShortestPasses t ticks := by
  refine ⟨fun hfree p hp hleast => ?_, orderFree_of_shortestPasses hdiff⟩
  by_contra hno
  obtain ⟨hconf, hother⟩ := not_or.mp hno
  obtain ⟨r, hr, hne⟩ : ∃ r, (t r).candidate .sjf ∧ r ≠ p := by simpa using hother
  obtain ⟨q, hq, hmem, hle⟩ := shortestJobFirst_swap ticks hp
  obtain ⟨q', hq', hmem', -⟩ := shortestJobFirst_swap ticks hr
  have hqp : q = p := by
    rcases hmem with heq | ⟨hcand, -⟩
    · exact heq
    · exact hdiff q p hcand hp (le_antisymm hle (hleast q hcand))
  have heq : q = q' := Option.some.inj (hq.symm.trans ((hfree _).trans ((hfree _).symm.trans hq')))
  rcases hmem' with hr' | ⟨-, hpass⟩
  · exact hne (hr'.symm.trans (heq.symm.trans hqp))
  · exact hconf (hqp ▸ heq ▸ hpass)

theorem orderFree_of_confidence : OrderFree (twoJobs 1) 0 := by
  refine (orderFree_iff_shortestPasses (twoJobs 1) 0 (by decide)).mpr ?_
  unfold ShortestPasses
  decide

theorem twoJobs_order_matters : (∀ p q, (twoJobs 0 p).candidate .sjf → (twoJobs 0 q).candidate .sjf →
      burst (twoJobs 0) p = burst (twoJobs 0) q → p = q) ∧
    (shortestJobFirst (twoJobs 0) 0).map (fun p => (twoJobs 0 p).pid) = some 1 ∧
      (shortestJobFirst (twoJobs 0 ∘ Equiv.swap 0 1) 0).map (fun p => ((twoJobs 0 ∘ Equiv.swap 0 1) p).pid) = some 2 := by
  refine ⟨by decide, by decide, by decide⟩

end Xv6
