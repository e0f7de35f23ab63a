import Xv6.Lib.Prog
import Mathlib.Algebra.Order.Group.Multiset
import Mathlib.Algebra.BigOperators.Group.Finset.Basic

namespace Xv6.Lib

open Function

theorem sum_update_add [Fintype ι] [DecidableEq ι] [AddCommMonoid M] (w : ι → α → M)
    (f : ι → α) (i : ι) (x : α) :
    ∑ j, w j (update f i x j) + w i (f i) = ∑ j, w j (f j) + w i x := by
  have hrest : ∑ j ∈ Finset.univ.erase i, w j (update f i x j) =
      ∑ j ∈ Finset.univ.erase i, w j (f j) := by
    refine Finset.sum_congr rfl fun j hj => ?_
    rw [update_of_ne (Finset.ne_of_mem_erase hj)]
  rw [← Finset.sum_erase_add _ _ (Finset.mem_univ i),
    ← Finset.sum_erase_add _ (fun j => w j (f j)) (Finset.mem_univ i), hrest, update_self,
    add_right_comm]

namespace Prog

variable {σ ε α β U : Type}

def Balances (pool : σ → Multiset U) (x : Prog σ ε α) (i : Multiset U) (o : α → Multiset U) : Prop :=
  ∀ s a t, x s = .ok (a, t) → pool t + o a = pool s + i

def Bounded (pool : σ → Multiset U) (x : Prog σ ε α) (i : Multiset U) (o : α → Multiset U) : Prop :=
  ∀ s a t, x s = .ok (a, t) → pool t + o a ≤ pool s + i

def Returns (x : Prog σ ε α) (Q : α → Prop) : Prop := ∀ s a t, x s = .ok (a, t) → Q a

namespace Balances

theorem pure (h : i = o a) : Balances (ε := ε) pool (Pure.pure a) i o := by
  rintro s b t hx
  cases hx
  rw [h]

theorem throw : Balances pool (MonadExcept.throw e : Prog σ ε α) i o := by
  rintro s a t h
  cases h

theorem bind (hx : Balances pool x i o) (hf : ∀ a, Balances pool (f a) (o a) o') :
    Balances pool (x >>= f) i o' := by
  rintro s b t h
  obtain ⟨a, u, ha, hb⟩ := of_bind_ok h
  rw [hf a u b t hb, hx s a u ha]

theorem bind_returns (hx : Balances pool x i o) (hQ : Returns x Q)
    (hf : ∀ a, Q a → Balances pool (f a) (o a) o') : Balances pool (x >>= f) i o' := by
  rintro s b t h
  obtain ⟨a, u, ha, hb⟩ := of_bind_ok h
  rw [hf a (hQ s a u ha) u b t hb, hx s a u ha]

theorem frame (r : Multiset U) (hx : Balances pool x i o) :
    Balances pool x (i + r) fun a => o a + r := by
  rintro s a t h
  rw [← add_assoc, hx s a t h, add_assoc]

theorem conseq (hx : Balances pool x i o) (hi : j = i) (ho : ∀ a, o₁ a = o a) :
    Balances pool x j o₁ := by
  rintro s a t h
  rw [hi, ho, hx s a t h]

theorem ite [Decidable c] (hx : c → Balances pool x i o)
    (hy : ¬c → Balances pool y i o) : Balances pool (if c then x else y) i o := by
  split
  case isTrue h => exact hx h
  case isFalse h => exact hy h

end Balances

theorem Balances.finishes (hx : Balances pool x i o)
    (h : Finishes E x s P) : Finishes E x s fun a t => P a t ∧ pool t + o a = pool s + i := by
  unfold Finishes at *
  cases hxs : x s with
  | error e => rwa [hxs] at h
  | ok r =>
    rw [hxs] at h
    exact ⟨h, hx s r.1 r.2 hxs⟩

theorem Balances.bounded (hx : Balances pool x i o) : Bounded pool x i o :=
  fun s a t h => (hx s a t h).le

namespace Bounded

theorem pure (h : i = o a) : Bounded (ε := ε) pool (Pure.pure a) i o := (Balances.pure h).bounded

theorem throw : Bounded pool (MonadExcept.throw e : Prog σ ε α) i o := Balances.throw.bounded

theorem bind (hx : Bounded pool x i o) (hf : ∀ a, Bounded pool (f a) (o a) o') :
    Bounded pool (x >>= f) i o' := by
  rintro s b t h
  obtain ⟨a, u, ha, hb⟩ := of_bind_ok h
  exact (hf a u b t hb).trans (hx s a u ha)

theorem ite [Decidable c] (hx : c → Bounded pool x i o)
    (hy : ¬c → Bounded pool y i o) : Bounded pool (if c then x else y) i o := by
  split
  case isTrue h => exact hx h
  case isFalse h => exact hy h

end Bounded

namespace Returns

theorem pure (h : Q a) : Returns (σ := σ) (ε := ε) (Pure.pure a) Q := by
  rintro s b t hx
  cases hx
  exact h

theorem throw : Returns (MonadExcept.throw e : Prog σ ε α) Q := by
  rintro s a t h
  cases h

theorem any : Returns x fun _ => True := fun _ _ _ _ => trivial

theorem bind (hx : Returns x Q) (hf : ∀ a, Q a → Returns (f a) R) : Returns (x >>= f) R := by
  rintro s b t h
  obtain ⟨a, u, ha, hb⟩ := of_bind_ok h
  exact hf a (hx s a u ha) u b t hb

theorem mono (hx : Returns x Q) (hQ : ∀ a, Q a → Q' a) : Returns x Q' :=
  fun s a t h => hQ a (hx s a t h)

theorem ite [Decidable c] (hx : c → Returns x Q) (hy : ¬c → Returns y Q) :
    Returns (if c then x else y) Q := by
  split
  case isTrue h => exact hx h
  case isFalse h => exact hy h

theorem finishes (hx : Returns x Q) (h : Finishes E x s P) :
    Finishes E x s fun a t => P a t ∧ Q a := by
  unfold Finishes at *
  cases hxs : x s with
  | error e => rwa [hxs] at h
  | ok r =>
    rw [hxs] at h
    exact ⟨h, hx s r.1 r.2 hxs⟩

end Returns

end Prog

end Xv6.Lib
