import Xv6.Lib.Overwrite
import Mathlib.Data.List.Basic

namespace Xv6.Lib.Slots

variable {K V : Type} [DecidableEq K] {l l' : List (Option (K × V))} {k : K} {v : V} {m n : Nat}

def find (k : K) : List (Option (K × V)) → Option (Nat × V)
  | [] => none
  | none :: l => (find k l).map fun r => (r.1 + 1, r.2)
  | some e :: l => if e.1 = k then some (0, e.2) else (find k l).map fun r => (r.1 + 1, r.2)

def firstFree (l : List (Option (K × V))) : Nat := l.findIdx Option.isNone

def put (l : List (Option (K × V))) (n : Nat) (e : Option (K × V)) : List (Option (K × V)) :=
  overwrite l n 1 fun _ => e

def Distinct (l : List (Option (K × V))) : Prop :=
  ∀ (m n : Nat) (k : K) (v w : V), l[m]? = some (some (k, v)) → l[n]? = some (some (k, w)) → m = n

omit [DecidableEq K] in
theorem getElem?_put (hn : n ≤ l.length) :
    (put l n e)[m]? = if m = n then some e else l[m]? := by
  rw [put, getElem?_overwrite hn]
  exact if_congr (by omega) rfl rfl

theorem find_eq_some_iff :
    find k l = some (n, v) ↔ l[n]? = some (some (k, v)) ∧ ∀ m < n, ∀ w, l[m]? ≠ some (some (k, w)) := by
  have hskip : ∀ {e : Option (K × V)} {l : List (Option (K × V))}, (∀ w, e ≠ some (k, w)) →
      (∀ n v, find k l = some (n, v) ↔ l[n]? = some (some (k, v)) ∧ ∀ m < n, ∀ w, l[m]? ≠ some (some (k, w))) →
      ∀ n v, (find k l).map (fun r => (r.1 + 1, r.2)) = some (n, v) ↔
        (e :: l)[n]? = some (some (k, v)) ∧ ∀ m < n, ∀ w, (e :: l)[m]? ≠ some (some (k, w)) := by
    intro e l he ih n v
    cases n with
    | zero =>
      refine iff_of_false (fun h => ?_) fun h => he v (Option.some.inj h.1)
      obtain ⟨r, -, hr⟩ := Option.map_eq_some_iff.mp h
      cases hr
    | succ n =>
      have hmap : (find k l).map (fun r => (r.1 + 1, r.2)) = some (n + 1, v) ↔ find k l = some (n, v) := by
        cases find k l with
        | none => exact iff_of_false (by rintro ⟨⟩) (by rintro ⟨⟩)
        | some r => simp [Prod.ext_iff]
      rw [hmap, ih, List.getElem?_cons_succ]
      refine and_congr_right fun _ => ⟨fun h m hm w => ?_, fun h m hm w => h (m + 1) (by omega) w⟩
      cases m with
      | zero => exact fun heq => he w (Option.some.inj heq)
      | succ m => exact h m (by omega) w
  induction l generalizing n v with
  | nil => simp [find]
  | cons e l ih =>
    cases e with
    | none => exact hskip (by rintro w ⟨⟩) (fun _ _ => ih) n v
    | some e =>
      obtain ⟨a, b⟩ := e
      rw [find]
      split
      · next hk =>
        obtain rfl : a = k := hk
        constructor
        · intro h
          cases h
          exact ⟨rfl, fun m hm => absurd hm (Nat.not_lt_zero m)⟩
        · rintro ⟨hn, hmin⟩
          cases n with
          | zero =>
            cases hn
            rfl
          | succ n => exact absurd rfl (hmin 0 (Nat.succ_pos n) b)
      · next hk =>
        refine hskip (fun w heq => hk ?_) (fun _ _ => ih) n v
        cases heq
        rfl

theorem find_eq_none_iff : find k l = none ↔ ∀ (n : Nat) (v : V), l[n]? ≠ some (some (k, v)) := by
  induction l with
  | nil => simp [find]
  | cons e l ih =>
    have hcons : (∀ (n : Nat) (v : V), (e :: l)[n]? ≠ some (some (k, v))) ↔
        (∀ v, e ≠ some (k, v)) ∧ ∀ (n : Nat) (v : V), l[n]? ≠ some (some (k, v)) := by
      constructor
      · intro h
        exact ⟨fun v heq => h 0 v (congrArg some heq), fun n v => h (n + 1) v⟩
      · rintro ⟨he, hl⟩ n v
        cases n with
        | zero => exact fun heq => he v (Option.some.inj heq)
        | succ n => exact hl n v
    rw [hcons, ← ih]
    cases e with
    | none => simp [find]
    | some e =>
      rw [find]
      split
      · next hk => exact iff_of_false (by rintro ⟨⟩) fun h => h.1 e.2 (by rw [← hk])
      · next hk =>
        rw [Option.map_eq_none_iff, and_iff_right]
        rintro v heq
        cases heq
        exact hk rfl

theorem find_congr (h : ∀ (m : Nat) (v : V), l'[m]? = some (some (k, v)) ↔ l[m]? = some (some (k, v))) : find k l' = find k l := by
  cases hl : find k l with
  | none =>
    rw [find_eq_none_iff] at hl ⊢
    exact fun n v heq => hl n v ((h n v).mp heq)
  | some r =>
    obtain ⟨n, v⟩ := r
    rw [find_eq_some_iff] at hl ⊢
    exact ⟨(h n v).mpr hl.1, fun m hm w heq => hl.2 m hm w ((h m w).mp heq)⟩

omit [DecidableEq K] in
theorem firstFree_le : firstFree l ≤ l.length := List.findIdx_le_length

omit [DecidableEq K] in
theorem not_live_firstFree (e : K × V) : l[firstFree l]? ≠ some (some e) := by
  intro heq
  obtain ⟨hlt, hget⟩ := List.getElem?_eq_some_iff.mp heq
  have hnone : (l[firstFree l]).isNone = true := List.findIdx_getElem (w := hlt)
  rw [hget] at hnone
  cases hnone

section put

variable (hn : n ≤ l.length) (hfree : ∀ e, l[n]? ≠ some (some e))

include hn

theorem find_put_self (hk : find k l = none) : find k (put l n (some (k, v))) = some (n, v) := by
  rw [find_eq_none_iff] at hk
  rw [find_eq_some_iff]
  refine ⟨by rw [getElem?_put hn, if_pos rfl], fun m hm w => ?_⟩
  rw [getElem?_put hn, if_neg (Nat.ne_of_lt hm)]
  exact hk m w

include hfree in
theorem find_put_of_ne (hne : k' ≠ k) : find k' (put l n (some (k, v))) = find k' l := by
  refine find_congr fun m w => ?_
  rw [getElem?_put hn]
  split
  · next hm =>
    rw [hm]
    refine iff_of_false (fun heq => ?_) (hfree (k', w))
    cases heq
    exact hne rfl
  · rfl

theorem distinct_put (hl : Distinct l) (hk : find k l = none) : Distinct (put l n (some (k, v))) := by
  rw [find_eq_none_iff] at hk
  intro a b j x y ha hb
  rw [getElem?_put hn] at ha hb
  by_cases han : a = n
  · by_cases hbn : b = n
    · rw [han, hbn]
    · rw [if_pos han] at ha
      rw [if_neg hbn] at hb
      cases ha
      exact absurd hb (hk b y)
  · rw [if_neg han] at ha
    by_cases hbn : b = n
    · rw [if_pos hbn] at hb
      cases hb
      exact absurd ha (hk a x)
    · rw [if_neg hbn] at hb
      exact hl a b j x y ha hb

end put

section clear

variable (hl : Distinct l) (hk : l[n]? = some (some (k, v)))

include hl hk

theorem find_clear_self : find k (put l n none) = none := by
  have hn : n ≤ l.length := Nat.le_of_lt (List.getElem?_eq_some_iff.mp hk).1
  rw [find_eq_none_iff]
  intro m w heq
  rw [getElem?_put hn] at heq
  split at heq
  · cases heq
  · next hm => exact hm (hl m n k w v heq hk)

omit hl in
theorem find_clear_of_ne (hne : k' ≠ k) : find k' (put l n none) = find k' l := by
  have hn : n ≤ l.length := Nat.le_of_lt (List.getElem?_eq_some_iff.mp hk).1
  refine find_congr fun m w => ?_
  rw [getElem?_put hn]
  split
  · next hm =>
    refine iff_of_false (by rintro ⟨⟩) fun heq => ?_
    rw [hm, hk] at heq
    cases heq
    exact hne rfl
  · rfl

omit [DecidableEq K] in
theorem distinct_clear : Distinct (put l n none) := by
  have hn : n ≤ l.length := Nat.le_of_lt (List.getElem?_eq_some_iff.mp hk).1
  intro a b j x y ha hb
  rw [getElem?_put hn] at ha hb
  split at ha
  · cases ha
  · split at hb
    · cases hb
    · exact hl a b j x y ha hb

end clear

end Xv6.Lib.Slots
