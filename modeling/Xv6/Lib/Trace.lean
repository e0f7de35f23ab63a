import Xv6.Lib.Prog

namespace Xv6.Lib.Prog

variable {σ τ ε α β : Type}

def onState (y : Prog σ ε α) : Prog (σ × τ) ε α := fun p => (y p.1).map fun r => (r.1, r.2, p.2)

def record (b : β) : Prog (σ × List β) ε Unit := fun p => .ok (⟨⟩, p.1, b :: p.2)

def Erases (x : Prog (σ × τ) ε α) (y : Prog σ ε α) : Prop := ∀ s l, (x (s, l)).map (fun r => (r.1, r.2.1)) = y s

namespace Erases

theorem onState : Erases (τ := τ) (onState y) y := by
  intro s l
  change ((y s).map _).map _ = y s
  cases y s <;> rfl

theorem pure : Erases (σ := σ) (τ := τ) (ε := ε) (Pure.pure a) (Pure.pure a) := fun _ _ => rfl

theorem throw : Erases (MonadExcept.throw e : Prog (σ × τ) ε α) (MonadExcept.throw e : Prog σ ε α) :=
  fun _ _ => rfl

theorem bind (hx : Erases x y) (hf : ∀ a, Erases (f a) (g a)) : Erases (x >>= f) (y >>= g) := by
  intro s l
  have hxs := hx s l
  cases h : x (s, l) with
  | error e =>
    rw [h] at hxs
    rw [bind_error h, bind_error hxs.symm]
    rfl
  | ok r =>
    rw [h] at hxs
    rw [bind_ok h, bind_ok hxs.symm]
    exact hf r.1 r.2.1 r.2.2

theorem record {b : β} {x : Prog (σ × List β) ε α} (hx : Erases x y) :
    Erases (Prog.record b >>= fun _ => x) y := fun s l => hx s (b :: l)

theorem ite [Decidable c] (hx : Erases x y) (hx' : Erases x' y') :
    Erases (if c then x else x') (if c then y else y') := by
  split
  · exact hx
  · exact hx'

theorem finishes (h : Erases x y) (hy : Finishes E y s Q) : Finishes E x (s, l) fun a p => Q a p.1 := by
  have hs := h s l
  unfold Finishes at hy ⊢
  cases hx : x (s, l) with
  | error e =>
    rw [hx] at hs
    rw [← hs] at hy
    exact hy
  | ok r =>
    rw [hx] at hs
    rw [← hs] at hy
    exact hy

end Erases

namespace Finishes

theorem onState (hy : Finishes E y s Q) (hf : ∀ a t, Q a t → Finishes E (f a) (t, l) R) :
    Finishes E (Prog.onState y >>= f) (s, l) R := by
  have hon : Finishes E (Prog.onState y) (s, l) fun a p => Q a p.1 ∧ p.2 = l := by
    unfold Finishes Prog.onState at *
    cases h : y s with
    | error e =>
      rw [h] at hy
      exact hy
    | ok r =>
      rw [h] at hy
      exact ⟨hy, rfl⟩
  refine hon.bind ?_
  rintro a ⟨t, _⟩ ⟨ht, rfl⟩
  exact hf a t ht

theorem record {b : β} {l : List β} {f : Unit → Prog (σ × List β) ε α} {Q : α → σ × List β → Prop}
    (h : Finishes E (f ⟨⟩) (s, b :: l) Q) : Finishes E (Prog.record b >>= f) (s, l) Q := h

end Finishes

end Xv6.Lib.Prog
