import Xv6.Lib.Interleave
import Xv6.Lib.Monitor

/-! `acquire`, `release` and `holding` of `spinlock.c` on any number of CPUs.  A step is one access
to the lock; interrupts are off in these functions, so a CPU is in one of them at a time. -/

namespace Xv6

open Function Lib

structure Spinlock (C : Type) where
  locked : Bool
  cpu : Option C

namespace Spinlock

inductive Call
  | acquire | release | holding
  deriving DecidableEq

/-- The next access of a CPU.  `mine` says whether it had the lock when it made the call, and the
call of a test is the one that `holding` is made in. -/
inductive Pc
  | out | held
  | testLocked (call : Call) (mine : Bool)
  | testCpu (call : Call) (mine : Bool)
  | xchg (mine : Bool) | setCpu
  | clearCpu | unlock
  | answer (mine r : Bool)
  | panicked (call : Call) (mine : Bool)
  deriving DecidableEq

variable {C : Type} [DecidableEq C]

def tested (mine r : Bool) : Call → Pc
  | .acquire => if r then .panicked .acquire mine else .xchg mine
  | .release => if r then .clearCpu else .panicked .release mine
  | .holding => .answer mine r

def go (c : C) (a : Option Call) (lk : Spinlock C) : Pc → Option (Spinlock C × Pc)
  | .out => a.map fun call => (lk, .testLocked call false)
  | .held => a.map fun call => (lk, .testLocked call true)
  | .testLocked call mine => some (lk, if lk.locked then .testCpu call mine else tested mine false call)
  | .testCpu call mine => some (lk, tested mine (lk.cpu = some c) call)
  | .xchg mine => some ({ lk with locked := true }, if lk.locked then .xchg mine else .setCpu)
  | .setCpu => some ({ lk with cpu := some c }, .held)
  | .clearCpu => some ({ lk with cpu := none }, .unlock)
  | .unlock => some ({ lk with locked := false }, .out)
  | .answer mine _ => some (lk, if mine then .held else .out)
  | .panicked _ _ => none

namespace Pc

def Owns : Pc → Prop
  | held | setCpu | clearCpu | unlock => True
  | testLocked _ mine | testCpu _ mine | xchg mine | answer mine _ | panicked _ mine => mine = true
  | out => False

def Named : Pc → Prop
  | setCpu | unlock => False
  | pc => pc.Owns

/-- `holding` is right, and `acquire` and `release` panic where they are misused and only there. -/
def Exact : Pc → Prop
  | xchg mine => mine = false
  | answer mine r => r = mine
  | panicked call mine => call = .acquire ∧ mine = true ∨ call = .release ∧ mine = false
  | _ => True

theorem Named.owns {pc : Pc} (h : pc.Named) : pc.Owns := by
  cases pc <;> first | exact h | exact h.elim

end Pc

structure Safe (s : Conf C (Spinlock C) Pc) : Prop where
  owner : ∃ o, Monitor.HeldBy o Pc.Owns s.loc ∧ s.shared.locked = o.isSome
  cpu : Monitor.HeldBy s.shared.cpu Pc.Named s.loc
  exact : ∀ c, (s.loc c).Exact

variable {s t : Conf C (Spinlock C) Pc} {lk : Spinlock C} {loc : C → Pc} {c : C} {l : Pc}

theorem exact_update (h : ∀ d, (loc d).Exact) (hl : l.Exact) (d : C) : (update loc c l d).Exact := by
  by_cases hd : d = c
  · simpa [hd] using hl
  · simpa [hd] using h d

theorem Safe.move (h : Safe ⟨lk, loc⟩) (howns : l.Owns ↔ (loc c).Owns) (hnamed : l.Named ↔ (loc c).Named)
    (hl : l.Exact) : Safe ⟨lk, update loc c l⟩ := by
  obtain ⟨o, ho, hlocked⟩ := h.owner
  exact ⟨⟨o, ho.keep howns, hlocked⟩, h.cpu.keep hnamed, exact_update h.exact hl⟩

theorem Safe.tested (h : Safe ⟨lk, loc⟩) (hpc : loc c = .testLocked call mine ∨ loc c = .testCpu call mine)
    (hr : r = mine) : Safe ⟨lk, update loc c (tested mine r call)⟩ := by
  subst hr
  refine h.move ?_ ?_ ?_ <;> rcases hpc with hpc | hpc <;> cases call <;> cases r <;>
    simp [hpc, Spinlock.tested, Pc.Owns, Pc.Named, Pc.Exact]

theorem Safe.step (h : Safe s) (hstep : Conf.Step go s e t) : Safe t := by
  obtain ⟨l, hgo, hloc⟩ := Conf.step_cases hstep
  obtain ⟨lk, loc⟩ := s
  obtain ⟨lk', loc'⟩ := t
  obtain ⟨c, a⟩ := e
  simp only at hgo hloc
  subst hloc
  obtain ⟨o, ho, hlocked⟩ : ∃ o, Monitor.HeldBy o Pc.Owns loc ∧ lk.locked = o.isSome := h.owner
  have hcpu : Monitor.HeldBy lk.cpu Pc.Named loc := h.cpu
  have hexact : (loc c).Exact := h.exact c
  generalize hpc : loc c = pc at hgo hexact
  cases pc with
  | out | held =>
    obtain ⟨call, -, ⟨⟩⟩ := Option.map_eq_some_iff.mp hgo
    refine h.move ?_ ?_ trivial <;> simp [hpc, Pc.Owns, Pc.Named]
  | testLocked call mine =>
    cases hgo
    split
    · refine h.move ?_ ?_ trivial <;> simp [hpc, Pc.Owns, Pc.Named]
    · next hfree =>
      refine h.tested (.inl hpc) ?_
      cases mine with
      | false => rfl
      | true => simp [hlocked, (ho c).mpr (by rw [hpc]; rfl)] at hfree
  | testCpu call mine =>
    cases hgo
    refine h.tested (.inr hpc) ?_
    cases mine <;> simp [hcpu c, hpc, Pc.Named, Pc.Owns]
  | xchg mine =>
    cases hgo
    subst hexact
    by_cases hl : lk.locked = true
    · have hlk : { lk with locked := true } = lk := by rw [← hl]
      rw [hlk, if_pos hl]
      exact h.move (by rw [hpc]) (by rw [hpc]) rfl
    · have hnone : o = none := by simpa [hlocked] using hl
      rw [if_neg hl]
      exact ⟨⟨some c, ho.take hnone trivial, rfl⟩, hcpu.keep (by simp [hpc, Pc.Named, Pc.Owns]),
        exact_update h.exact trivial⟩
  | setCpu =>
    cases hgo
    -- whoever is named would own the lock
    have hnone : lk.cpu = none := by
      by_contra hsome
      obtain ⟨d, hd⟩ := Option.ne_none_iff_exists'.mp hsome
      have hnamed := (hcpu d).mp hd
      have hdc : d = c := ho.unique hnamed.owns (by rw [hpc]; trivial)
      simp [hdc, hpc, Pc.Named] at hnamed
    exact ⟨⟨o, ho.keep (by rw [hpc]; exact .rfl), hlocked⟩, hcpu.take hnone trivial, exact_update h.exact trivial⟩
  | clearCpu =>
    cases hgo
    exact ⟨⟨o, ho.keep (by rw [hpc]; exact .rfl), hlocked⟩, hcpu.give (by rw [hpc]; trivial) id,
      exact_update h.exact trivial⟩
  | unlock =>
    cases hgo
    exact ⟨⟨none, ho.give (by rw [hpc]; trivial) id, rfl⟩, hcpu.keep (by rw [hpc]; exact .rfl),
      exact_update h.exact trivial⟩
  | answer mine r =>
    cases hgo
    refine h.move ?_ ?_ ?_ <;> cases mine <;> simp [hpc, Pc.Owns, Pc.Named, Pc.Exact]
  | panicked call mine => cases hgo

def init : Conf C (Spinlock C) Pc := ⟨⟨false, none⟩, fun _ => .out⟩

omit [DecidableEq C] in
theorem safe_init : Safe (init : Conf C (Spinlock C) Pc) :=
  ⟨⟨none, fun _ => iff_of_false nofun id, rfl⟩, fun _ => iff_of_false nofun id, fun _ => trivial⟩

/-- One CPU at most has the lock, `lk->cpu` names it, `holding` is right about it, and only a CPU
that has the lock panics in `acquire`, or one that has not in `release`. -/
theorem spinlock_safe {es : List (Conf C (Spinlock C) Pc × (C × Option Call))} (h : Run (Conf.Step go) init es s) :
    Run.Always Safe es s :=
  h.always_invariant (C := fun _ _ => True) (fun _ _ _ hstep _ hs => hs.step hstep) (fun _ _ => trivial) safe_init

theorem spinlock_safe_two :
    let ls : List (Fin 2 × Option Call) := (0, some .acquire) :: .replicate 3 (0, none) ++
      (1, some .acquire) :: .replicate 3 (1, none) ++ (0, some .acquire) :: .replicate 2 (0, none)
    let es := trace (Conf.step go) init ls
    ∃ s, Run (Conf.Step go) init es s ∧ s.loc 1 = .xchg false ∧ s.loc 0 = .panicked .acquire true ∧
      Run.Always Safe es s := by
  intro ls es
  obtain ⟨s, hrun, hs⟩ := Run.of_exec_any (Conf.step go) init ls
    (fun s => decide (s.loc 1 = .xchg false ∧ s.loc 0 = .panicked .acquire true)) (by decide +kernel)
  obtain ⟨hspins, hpanics⟩ := of_decide_eq_true hs
  exact ⟨s, hrun, hspins, hpanics, spinlock_safe hrun⟩

end Spinlock

end Xv6
