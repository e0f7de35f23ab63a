import Xv6.Lib.Run
import Mathlib.Logic.Function.Basic

universe u v w x

namespace Xv6.Lib

open Function

variable {P : Type u} {Sh : Type v} {Lo : Type w} {A : Type x}

structure Conf (P : Type u) (Sh : Type v) (Lo : Type w) where
  shared : Sh
  loc : P → Lo

namespace Conf

variable [DecidableEq P] {go : P → A → Sh → Lo → Option (Sh × Lo)} {s t : Conf P Sh Lo}

def step (go : P → A → Sh → Lo → Option (Sh × Lo)) (s : Conf P Sh Lo) (e : P × A) :
    Option (Conf P Sh Lo) :=
  (go e.1 e.2 s.shared (s.loc e.1)).map fun r => ⟨r.1, update s.loc e.1 r.2⟩

def Step (go : P → A → Sh → Lo → Option (Sh × Lo)) (s : Conf P Sh Lo) (e : P × A)
    (t : Conf P Sh Lo) : Prop :=
  s.step go e = some t

theorem step_cases (h : Step go s e t) :
    ∃ l, go e.1 e.2 s.shared (s.loc e.1) = some (t.shared, l) ∧ t.loc = update s.loc e.1 l := by
  simp only [Step, step, Option.map_eq_some_iff] at h
  obtain ⟨⟨sh, l⟩, hgo, rfl⟩ := h
  exact ⟨l, hgo, rfl⟩

def Each (I : P → Sh → Lo → Prop) (s : Conf P Sh Lo) : Prop := ∀ p, I p s.shared (s.loc p)

section Rule

variable {I : P → Sh → Lo → Prop} {C : P → A → Sh → Lo → Prop}
  (hown : ∀ p a sh sh' l l', go p a sh l = some (sh', l') → C p a sh l → I p sh l → I p sh' l')
  (hother : ∀ p q a sh sh' l l' m, q ≠ p → go p a sh l = some (sh', l') → C p a sh l → I p sh l → I q sh m → I q sh' m)

include hown hother in
theorem Each.step (h : Step go s e t) (hc : C e.1 e.2 s.shared (s.loc e.1))
    (hs : Each I s) : Each I t := by
  obtain ⟨l, hgo, hloc⟩ := step_cases h
  intro q
  rw [hloc]
  by_cases hq : q = e.1
  · rw [hq, update_self]
    exact hown _ _ _ _ _ _ hgo hc (hs e.1)
  · rw [update_of_ne hq]
    exact hother _ _ _ _ _ _ _ _ hq hgo hc (hs e.1) (hs q)

include hown hother in
theorem Each.always (h : Run (Step go) s es t)
    (hc : ∀ e ∈ es, C e.2.1 e.2.2 e.1.shared (e.1.loc e.2.1)) (hs : Each I s) :
    Run.Always (Each I) es t :=
  h.always_invariant (C := fun s e => C e.1 e.2 s.shared (s.loc e.1))
    (fun _ _ _ h hc hs => Each.step hown hother h hc hs) hc hs

end Rule

/-- A step of process `p`, as it sees it. -/
def Solo (go : P → A → Sh → Lo → Option (Sh × Lo)) (p : P) (x : Sh × Lo) (a : A) (y : Sh × Lo) : Prop :=
  go p a x.1 x.2 = some y

omit [DecidableEq P] in
theorem Solo.head (h : go p a sh l = some y) (h' : Reaches (Solo go p) y z) : Reaches (Solo go p) (sh, l) z :=
  Reaches.head (l := a) h h'

omit [DecidableEq P] in
theorem Solo.last (h : go p a sh l = some y) : Reaches (Solo go p) (sh, l) y :=
  Solo.head h (.refl y)

theorem reaches_of_solo (s : Conf P Sh Lo) (h : Reaches (Solo go p) (s.shared, s.loc p) y) :
    Reaches (Step go) s ⟨y.1, update s.loc p y.2⟩ := by
  obtain ⟨es, hrun⟩ := h
  obtain ⟨x, hx⟩ : ∃ x, x = (s.shared, s.loc p) := ⟨_, rfl⟩
  rw [← hx] at hrun
  induction hrun generalizing s with
  | nil =>
    rw [hx, update_eq_self]
    exact .refl s
  | @cons x a z es y h _ ih =>
    have hstep : Step go s (p, a) ⟨z.1, update s.loc p z.2⟩ := by
      rw [hx] at h
      have hgo : go p a s.shared (s.loc p) = some z := h
      rw [Step, step, hgo]
      rfl
    have hrest := ih ⟨z.1, update s.loc p z.2⟩ (by simp only [update_self])
    simp only [update_idem] at hrest
    exact .head hstep hrest

end Conf

end Xv6.Lib
