import Mathlib.Data.ZMod.Basic
import Mathlib.Tactic.Abel

namespace Xv6.Lib

variable {n : Nat} [NeZero n]

def scan (P : Fin n → Bool) : Nat → Fin n → Option (Fin n)
  | 0, _ => none
  | k + 1, p => if P p then some p else scan P k (p + 1)

def firstFrom (P : Fin n → Bool) (p : Fin n) : Option (Fin n) := scan P n p

theorem ofNat_add_ofNat (a b : Nat) : Fin.ofNat n a + Fin.ofNat n b = Fin.ofNat n (a + b) := by
  apply Fin.ext
  simp [Fin.val_add, Fin.ofNat]

theorem one_eq_ofNat : (1 : Fin n) = Fin.ofNat n 1 := rfl

theorem scan_eq_some_iff :
    scan P k p = some q ↔
      ∃ d < k, q = p + Fin.ofNat n d ∧ P q ∧ ∀ e < d, ¬ P (p + Fin.ofNat n e) := by
  induction k generalizing p with
  | zero => simp [scan]
  | succ k ih =>
    have hshift : ∀ d, p + 1 + Fin.ofNat n d = p + Fin.ofNat n (d + 1) := by
      intro d
      rw [add_assoc, one_eq_ofNat, ofNat_add_ofNat, Nat.add_comm]
    simp only [scan]
    split
    case isTrue hp =>
      constructor
      · intro h
        cases h
        exact ⟨0, by omega, by simp [Fin.ofNat], hp, by simp⟩
      · rintro ⟨d, -, rfl, -, hmin⟩
        cases d with
        | zero => simp [Fin.ofNat]
        | succ d => exact absurd hp (by simpa [Fin.ofNat] using hmin 0 (by omega))
    case isFalse hp =>
      rw [ih]
      constructor
      · rintro ⟨d, hd, rfl, hq, hmin⟩
        refine ⟨d + 1, by omega, hshift d, hq, ?_⟩
        intro e he
        cases e with
        | zero => simpa [Fin.ofNat] using hp
        | succ e => rw [← hshift]; exact hmin e (by omega)
      · rintro ⟨d, hd, rfl, hq, hmin⟩
        cases d with
        | zero => exact absurd (by simpa [Fin.ofNat] using hq) hp
        | succ d =>
          refine ⟨d, by omega, (hshift d).symm, hq, ?_⟩
          intro e he
          rw [hshift]
          exact hmin (e + 1) (by omega)

theorem add_ofNat_sub (p q : Fin n) : p + Fin.ofNat n (q - p).val = q := by
  have h : Fin.ofNat n (q - p).val = q - p := by
    apply Fin.ext
    simp [Fin.ofNat, Nat.mod_eq_of_lt (q - p).isLt]
  rw [h]
  abel

theorem sub_of_eq_add_ofNat (hd : d < n)
    (h : q = p + Fin.ofNat n d) : (q - p).val = d := by
  rw [h, add_sub_cancel_left]
  simp [Fin.ofNat, Nat.mod_eq_of_lt hd]

theorem firstFrom_eq_some_iff {P : Fin n → Bool} {p q : Fin n} :
    firstFrom P p = some q ↔ P q ∧ ∀ r, P r → (q - p).val ≤ (r - p).val := by
  rw [firstFrom, scan_eq_some_iff]
  constructor
  · rintro ⟨d, hd, hq, hPq, hmin⟩
    refine ⟨hPq, fun r hr => ?_⟩
    rw [sub_of_eq_add_ofNat hd hq]
    by_contra hlt
    apply hmin (r - p).val (by omega)
    rwa [add_ofNat_sub]
  · rintro ⟨hPq, hmin⟩
    refine ⟨(q - p).val, (q - p).isLt, (add_ofNat_sub p q).symm, hPq, ?_⟩
    intro e he hPe
    have hen : e < n := he.trans (q - p).isLt
    have hle := hmin _ hPe
    rw [sub_of_eq_add_ofNat hen rfl] at hle
    omega

theorem firstFrom_eq_none_iff {P : Fin n → Bool} {p : Fin n} :
    firstFrom P p = none ↔ ∀ q, ¬ P q := by
  constructor
  · intro h q hq
    have hwf := WellFounded.has_min (measure fun r : Fin n => (r - p).val).wf {r | P r} ⟨q, hq⟩
    obtain ⟨r, hr, hmin⟩ := hwf
    have hr' : firstFrom P p = some r :=
      firstFrom_eq_some_iff.mpr ⟨hr, fun x hx => Nat.le_of_not_lt (hmin x hx)⟩
    simp [hr'] at h
  · intro h
    cases hres : firstFrom P p with
    | none => rfl
    | some q => exact absurd (firstFrom_eq_some_iff.mp hres).1 (h q)

theorem firstFrom_mem {P : Fin n → Bool} {p q : Fin n} (h : firstFrom P p = some q) : P q :=
  (firstFrom_eq_some_iff.mp h).1

theorem scan_eq_firstFrom (P : Fin n → Bool) (p : Fin n) {k : Nat} (hk : n ≤ k) :
    scan P k p = firstFrom P p := by
  cases hres : firstFrom P p with
  | some q =>
    obtain ⟨d, hd, hq⟩ := scan_eq_some_iff.mp hres
    exact scan_eq_some_iff.mpr ⟨d, by omega, hq⟩
  | none =>
    cases hk' : scan P k p with
    | none => rfl
    | some q =>
      obtain ⟨d, -, -, hPq, -⟩ := scan_eq_some_iff.mp hk'
      exact absurd hPq (firstFrom_eq_none_iff.mp hres q)

theorem firstFrom_self {P : Fin n → Bool} {p : Fin n} (h : P p) : firstFrom P p = some p :=
  firstFrom_eq_some_iff.mpr ⟨h, by simp⟩

theorem val_sub_succ {p q : Fin n} (h : q ≠ p) : (q - (p + 1)).val + 1 = (q - p).val := by
  have hne : q - p ≠ 0 := sub_ne_zero.mpr h
  have hpos : 0 < (q - p).val := Nat.pos_of_ne_zero fun h0 => hne (Fin.ext h0)
  have hlt := (q - p).isLt
  have hq : q = p + 1 + Fin.ofNat n ((q - p).val - 1) := by
    rw [add_assoc, one_eq_ofNat, ofNat_add_ofNat, show 1 + ((q - p).val - 1) = (q - p).val by omega,
      add_ofNat_sub]
  rw [sub_of_eq_add_ofNat (by omega) hq]
  omega

theorem val_sub_succ_self (p : Fin n) : (p - (p + 1)).val = n - 1 := by
  have hn : 0 < n := Nat.pos_of_neZero n
  apply sub_of_eq_add_ofNat (by omega)
  rw [add_assoc, one_eq_ofNat, ofNat_add_ofNat, show 1 + (n - 1) = n by omega]
  simp [Fin.ofNat]

theorem firstFrom_eq_firstFrom_succ_iff (P : Fin n → Bool) (p : Fin n) :
    firstFrom P p = firstFrom P (p + 1) ↔ (P p → ∀ q, P q → q = p) := by
  constructor
  · intro h hp q hq
    rw [firstFrom_self hp] at h
    have hle := (firstFrom_eq_some_iff.mp h.symm).2 q hq
    rw [val_sub_succ_self] at hle
    by_contra hne
    have := val_sub_succ hne
    have := (q - p).isLt
    omega
  · intro h
    cases hres : firstFrom P p with
    | none =>
      rw [firstFrom_eq_none_iff] at hres
      exact (firstFrom_eq_none_iff.mpr hres).symm
    | some q =>
      obtain ⟨hq, hmin⟩ := firstFrom_eq_some_iff.mp hres
      refine (firstFrom_eq_some_iff.mpr ⟨hq, fun r hr => ?_⟩).symm
      by_cases hp : P p
      · rw [h hp q hq, h hp r hr]
      · have hqp : q ≠ p := fun e => hp (e ▸ hq)
        have hrp : r ≠ p := fun e => hp (e ▸ hr)
        have := hmin r hr
        have := val_sub_succ hqp
        have := val_sub_succ hrp
        omega

theorem firstFrom_succ_between {P : Fin n → Bool} {p q l r : Fin n} (hq : P q)
    (hlt : (l - p).val < (q - p).val) (h : firstFrom P (l + 1) = some r) :
    (l - p).val < (r - p).val ∧ (r - p).val ≤ (q - p).val := by
  have hql : q ≠ l := by rintro rfl; omega
  have hdist : (q - l).val = (q - p).val - (l - p).val := by
    apply sub_of_eq_add_ofNat (by omega)
    have hl : p + Fin.ofNat n (l - p).val = l := add_ofNat_sub p l
    calc
      q = p + Fin.ofNat n (q - p).val := (add_ofNat_sub p q).symm
      _ = p + Fin.ofNat n ((l - p).val + ((q - p).val - (l - p).val)) := by congr 2; omega
      _ = l + Fin.ofNat n ((q - p).val - (l - p).val) := by
        rw [← ofNat_add_ofNat, ← add_assoc, hl]
  have hmin := (firstFrom_eq_some_iff.mp h).2 q hq
  have hqs := val_sub_succ hql
  have hrl : r ≠ l := by
    rintro rfl
    rw [val_sub_succ_self] at hmin
    have := (q - r).isLt
    omega
  have hrs := val_sub_succ hrl
  have hrp : (r - p).val = (l - p).val + (r - l).val := by
    apply sub_of_eq_add_ofNat (by have := (q - p).isLt; omega)
    rw [← ofNat_add_ofNat, ← add_assoc, add_ofNat_sub, add_ofNat_sub]
  omega

section Select

variable {α : Type*} (cand : α → Bool) (better : α → α → Bool)

def selectStep (current : Option α) (p : α) : Option α :=
  if cand p then
    let c := current.getD p
    if better p c then some p else some c
  else current

def select (l : List α) : Option α := l.foldl (selectStep cand better) none

variable {cand better}

theorem selectStep_mem (h : selectStep cand better current p = some q) :
    current = some q ∨ (q = p ∧ cand q) := by
  unfold selectStep at h
  split at h
  case isTrue hp =>
    cases current with
    | none => right; simp at h; exact ⟨h.symm, h ▸ hp⟩
    | some c =>
      simp only [Option.getD_some] at h
      split at h
      · cases h; exact .inr ⟨rfl, hp⟩
      · exact .inl h
  case isFalse => exact .inl h

theorem foldl_select_isSome {l : List α} {c : α} :
    (l.foldl (selectStep cand better) (some c)).isSome := by
  induction l generalizing c with
  | nil => rfl
  | cons p l ih =>
    simp only [List.foldl_cons, selectStep, Option.getD_some]
    split
    · split <;> exact ih
    · exact ih

theorem foldl_select_mem {l : List α} {current : Option α} {q : α}
    (h : l.foldl (selectStep cand better) current = some q) :
    current = some q ∨ (q ∈ l ∧ cand q) := by
  induction l generalizing current with
  | nil => exact .inl h
  | cons p l ih =>
    rcases ih h with hp | ⟨hl, hq⟩
    · rcases selectStep_mem hp with hc | ⟨rfl, hq⟩
      · exact .inl hc
      · exact .inr ⟨List.mem_cons_self, hq⟩
    · exact .inr ⟨List.mem_cons_of_mem p hl, hq⟩

theorem select_mem {l : List α} {q : α} (h : select cand better l = some q) : q ∈ l ∧ cand q := by
  rcases foldl_select_mem h with h | h
  · cases h
  · exact h

theorem select_eq_none_iff : select cand better l = none ↔ ∀ p ∈ l, ¬ cand p := by
  constructor
  · intro h p hp hcand
    induction l with
    | nil => cases hp
    | cons r l ih =>
      by_cases hr : cand r
      · have hsome : selectStep cand better none r = some r := by simp [selectStep, hr]
        rw [select, List.foldl_cons, hsome] at h
        have hdef : (l.foldl (selectStep cand better) (some r)).isSome := foldl_select_isSome
        simp [h] at hdef
      · have hnone : selectStep cand better none r = none := by simp [selectStep, hr]
        rw [select, List.foldl_cons, hnone] at h
        rcases List.mem_cons.mp hp with rfl | hp
        · exact hr hcand
        · exact ih h hp
  · intro h
    cases hres : select cand better l with
    | none => rfl
    | some q => exact absurd (select_mem hres).2 (h q (select_mem hres).1)

end Select

theorem find?_finRange_eq_some_iff :
    (List.finRange m).find? P = some p ↔ P p ∧ ∀ q < p, ¬ P q := by
  rw [List.find?_eq_some_iff_getElem]
  refine and_congr_right fun _ => ?_
  constructor
  · rintro ⟨i, hi, rfl, h⟩ q hq
    have := h q (by simpa [Fin.lt_def] using hq)
    simpa using this
  · intro h
    refine ⟨p, by simp, by simp, fun j hj => ?_⟩
    have := h ⟨j, by omega⟩ hj
    simpa using this

end Xv6.Lib
