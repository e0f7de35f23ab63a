import Mathlib.Logic.Basic

universe u v

namespace Xv6.Lib

variable {P : Type u} {B : Type v}

/-- Over the owners in `S`: what they name lies in the area, is not free and is named once;
and whatever is free lies in the area. -/
structure Owns (null : B) (A F : B → Prop) (num : P → B) (S : P → Prop) : Prop where
  inArea : ∀ p, S p → num p ≠ null → A (num p)
  once : ∀ p q, S p → S q → num p ≠ null → num p = num q → p = q
  used : ∀ p, S p → num p ≠ null → ¬F (num p)
  free : ∀ b, F b → A b

namespace Owns

theorem congr_free (h : Owns null A F num S) (hfree : ∀ b, F' b ↔ F b) :
    Owns null A F' num S where
  inArea := h.inArea
  once := h.once
  used := fun p hp hnum hf => h.used p hp hnum ((hfree _).mp hf)
  free := fun b hb => h.free b ((hfree b).mp hb)

theorem shrink (h : Owns null A F num S) (hnum : ∀ p, T p → num' p ≠ null → S p ∧ num' p = num p) :
    Owns null A F num' T where
  inArea := fun p hp hne => by
    obtain ⟨hS, heq⟩ := hnum p hp hne
    rw [heq] at hne ⊢
    exact h.inArea p hS hne
  once := fun p q hp hq hne heq => by
    obtain ⟨hSp, hp⟩ := hnum p hp hne
    obtain ⟨hSq, hq⟩ := hnum q hq (heq ▸ hne)
    rw [hp] at hne
    exact h.once p q hSp hSq hne (hp ▸ hq ▸ heq)
  used := fun p hp hne => by
    obtain ⟨hS, heq⟩ := hnum p hp hne
    rw [heq] at hne ⊢
    exact h.used p hS hne
  free := h.free

theorem take (h : Owns null A F num S) (hb : F b) (hfree : ∀ c, F' c ↔ F c ∧ c ≠ b) :
    Owns null A F' num S ∧ ∀ p, S p → num p ≠ null → num p ≠ b := by
  refine ⟨⟨h.inArea, h.once, ?_, ?_⟩, ?_⟩
  · exact fun p hp hne hf => h.used p hp hne ((hfree _).mp hf).1
  · exact fun c hc => h.free c ((hfree c).mp hc).1
  · rintro p hp hne rfl
    exact h.used p hp hne hb

theorem give (h : Owns null A F num S) (hb : A b) (hused : ¬F b)
    (hnew : ∀ p, S p → num p ≠ null → num p ≠ b) (hr : num' r = b)
    (hnum : ∀ p, S p → p ≠ r → num' p ≠ null → num' p = num p) : Owns null A F num' S where
  inArea := fun p hp hne => by
    by_cases hpp : p = r
    · rwa [hpp, hr]
    · have heq := hnum p hp hpp hne
      rw [heq] at hne ⊢
      exact h.inArea p hp hne
  once := fun p q hp hq hne heq => by
    by_cases hpp : p = r <;> by_cases hqq : q = r
    · rw [hpp, hqq]
    · have hq' := hnum q hq hqq (heq ▸ hne)
      rw [heq] at hne
      rw [hpp, hr, hq'] at heq
      exact absurd heq.symm (hnew q hq (hq' ▸ hne))
    · have hp' := hnum p hp hpp hne
      rw [hqq, hr, hp'] at heq
      exact absurd heq (hnew p hp (hp' ▸ hne))
    · have hp' := hnum p hp hpp hne
      have hq' := hnum q hq hqq (heq ▸ hne)
      exact h.once p q hp hq (hp' ▸ hne) (hp' ▸ hq' ▸ heq)
  used := fun p hp hne => by
    by_cases hpp : p = r
    · rwa [hpp, hr]
    · have heq := hnum p hp hpp hne
      rw [heq] at hne ⊢
      exact h.used p hp hne
  free := h.free

theorem release (h : Owns null A F num S) {r : P} (hr : S r) (hne : num r ≠ null)
    (hfree : ∀ c, F' c ↔ F c ∨ c = num r) (hS : ∀ p, T p → S p ∧ p ≠ r) :
    Owns null A F' num T where
  inArea := fun p hp => h.inArea p (hS p hp).1
  once := fun p q hp hq => h.once p q (hS p hp).1 (hS q hq).1
  used := fun p hp hpne hf => by
    obtain ⟨hSp, hpp⟩ := hS p hp
    rcases (hfree _).mp hf with hf | hf
    · exact h.used p hSp hpne hf
    · exact hpp (h.once p r hSp hr hpne hf)
  free := fun c hc => by
    rcases (hfree c).mp hc with hc | rfl
    · exact h.free c hc
    · exact h.inArea r hr hne

end Owns

end Xv6.Lib
