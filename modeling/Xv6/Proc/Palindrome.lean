import Mathlib.Data.List.Palindrome
import Mathlib.Data.List.TakeWhile
import Xv6.Proc.Table

namespace Xv6.Palindrome

abbrev Text := List Byte

def store (s : Text) (i : Nat) (c : Byte) : Option Text :=
  if i < s.length then some (s.set i c) else none

def lastDigit (num : Int) : Byte := .ofInt 8 (num.tmod 10 + 48)

def zeroDigit (num : Int) (num_str : Text) : Option (Nat × Text) :=
  if num = 0 then (1, ·) <$> store num_str 0 (lastDigit num) else some (0, num_str)

def digits : Nat → Int → Nat → Text → Option (Nat × Text)
  | 0, _, _, _ => none
  | fuel + 1, num, number_of_digits, num_str =>
    if num > 0 then do
      let num_str ← store num_str number_of_digits (lastDigit num)
      digits fuel (num.tdiv 10) (number_of_digits + 1) num_str
    else some (number_of_digits, num_str)

def fill (num_str : Text) (number_of_digits : Nat) : Nat → Nat → Text → Option Text
  | 0, _, palindrome_str => some palindrome_str
  | rounds + 1, i, palindrome_str => do
    let palindrome_str ← store palindrome_str i (← num_str[number_of_digits - i - 1]?)
    let palindrome_str ← store palindrome_str (number_of_digits + i) (← num_str[i]?)
    fill num_str number_of_digits rounds (i + 1) palindrome_str

structure Reply where
  ret : Int
  printed : Option (Int × Text)
  deriving DecidableEq

/-- The arrays hold whatever is on the stack; `none` is a load or a store outside of them. -/
def create_palindrome (num_str palindrome_str : Text) (num : Int) : Option Reply := do
  let (number_of_digits, num_str) ← zeroDigit num num_str
  let (number_of_digits, num_str) ← digits (num.toNat + 1) num number_of_digits num_str
  let num_str ← store num_str number_of_digits 0
  let palindrome_str ← fill num_str number_of_digits number_of_digits 0 palindrome_str
  let palindrome_str ← store palindrome_str (2 * number_of_digits) 0
  some ⟨0, some (num, palindrome_str.takeWhile (· != 0))⟩

def sys_create_palindrome (num_str palindrome_str : Text) (ecx : Word) : Option Reply :=
  if ecx.toInt < 0 then some ⟨-1, none⟩ else create_palindrome num_str palindrome_str ecx.toInt

def numeral (n : Nat) : Text := (Nat.toDigits 10 n).map fun c => .ofNat 8 c.toNat

def lowFirst (n : Nat) : Text := if n = 0 then [] else (numeral n).reverse

theorem lastDigit_ofNat (n : Nat) : lastDigit n = .ofNat 8 (n % 10).digitChar.toNat := by
  have hdigit : ∀ d < 10, BitVec.ofInt 8 ((d : Nat) + 48 : Int) = .ofNat 8 d.digitChar.toNat := by
    decide
  exact hdigit (n % 10) (n.mod_lt (by decide))

theorem lowFirst_of_pos (hn : 0 < n) : lowFirst n = lastDigit n :: lowFirst (n / 10) := by
  rw [lastDigit_ofNat, lowFirst, lowFirst, if_neg hn.ne', numeral, Nat.toDigits_eq_if (by decide)]
  by_cases hlt : n < 10
  · rw [if_pos hlt, if_pos (by omega), Nat.mod_eq_of_lt hlt]
    rfl
  · rw [if_neg hlt, if_neg (by omega)]
    simp [numeral]

theorem numeral_ne_zero (h : c ∈ numeral n) : c ≠ 0 := by
  induction n using Nat.strong_induction_on with
  | _ n ih =>
    have hdigit : ∀ d < 10, BitVec.ofNat 8 (Nat.digitChar d).toNat ≠ 0 := by decide
    rw [numeral, Nat.toDigits_eq_if (by decide)] at h
    split at h
    case isTrue hlt =>
      rw [List.map_singleton, List.mem_singleton] at h
      exact h ▸ hdigit n hlt
    case isFalse hle =>
      rw [List.map_append, List.mem_append, List.map_singleton, List.mem_singleton] at h
      obtain h | rfl := h
      · exact ih _ (by omega) h
      · exact hdigit _ (n.mod_lt (by decide))

theorem store_append (done rest : Text) (c d : Byte) :
    store (done ++ d :: rest) done.length c = some (done ++ c :: rest) := by
  simp [store]

theorem digits_eq (hn : n < 10 ^ k) (hk : k ≤ rest.length) (hfuel : n < fuel) :
    digits fuel n done.length (done ++ rest) =
      some ((done ++ lowFirst n).length, done ++ lowFirst n ++ rest.drop (lowFirst n).length) := by
  induction fuel generalizing n k done rest with
  | zero => omega
  | succ fuel ih =>
    rw [digits]
    split
    case isTrue hpos =>
      have hpos : 0 < n := by omega
      obtain _ | k := k
      · omega
      obtain _ | ⟨d, rest⟩ := rest
      · simp at hk
      have hnext := @ih (n / 10) k (done ++ [lastDigit n]) rest (by omega) (by simpa using hk) (by omega)
      have hlen : (done ++ [lastDigit n]).length = done.length + 1 := by simp
      rw [hlen, List.append_assoc, List.singleton_append] at hnext
      rw [store_append, lowFirst_of_pos hpos]
      simpa using hnext
    case isFalse hzero =>
      obtain rfl : n = 0 := by omega
      simp [lowFirst]

theorem lookup_set (s : Text) (hi : i < s.length) :
    (s.set i c)[j]? = if j = i then some c else s[j]? := by
  simp only [List.getElem?_set, eq_comm, hi]
  split
  case isTrue hij => simp
  case isFalse => rfl

theorem fill_eq (hi : i + rounds = n) (hs : n ≤ s.length) (hp : 2 * n ≤ p.length) :
    ∃ q, fill s n rounds i p = some q ∧ q.length = p.length ∧
      ∀ j, q[j]? = if i ≤ j ∧ j < n then s[n - j - 1]?
        else if n + i ≤ j ∧ j < 2 * n then s[j - n]? else p[j]? := by
  induction rounds generalizing i p with
  | zero =>
    refine ⟨p, rfl, rfl, fun j => ?_⟩
    rw [if_neg (by omega), if_neg (by omega)]
  | succ rounds ih =>
    obtain ⟨a, ha⟩ : ∃ a, s[n - i - 1]? = some a :=
      ⟨_, List.getElem?_eq_getElem (by omega)⟩
    obtain ⟨b, hb⟩ : ∃ b, s[i]? = some b :=
      ⟨_, List.getElem?_eq_getElem (by omega)⟩
    obtain ⟨q, hq, hlen, hget⟩ :=
      @ih (i + 1) ((p.set i a).set (n + i) b) (by omega) (by simpa using hp)
    refine ⟨q, ?_, by simpa using hlen, fun j => ?_⟩
    · have hlo : store p i a = some (p.set i a) := if_pos (by omega)
      have hhi : store (p.set i a) (n + i) b = some ((p.set i a).set (n + i) b) :=
        if_pos (by rw [List.length_set]; omega)
      simp [fill, ha, hb, hlo, hhi, hq]
    · rw [hget, lookup_set _ (by rw [List.length_set]; omega), lookup_set _ (by omega)]
      by_cases hji : j = i
      · rw [if_neg (by omega), if_neg (by omega), if_neg (by omega), if_pos hji, if_pos (by omega), hji, ha]
      · by_cases hjn : j = n + i
        · rw [if_neg (by omega), if_neg (by omega), if_pos hjn, if_neg (by omega), if_pos (by omega),
            hjn, Nat.add_sub_cancel_left, hb]
        · rw [if_neg hjn, if_neg hji]
          have hlo : i + 1 ≤ j ↔ i ≤ j := by omega
          have hhi : n + (i + 1) ≤ j ↔ n + i ≤ j := by omega
          simp only [hlo, hhi]

theorem fill_store (hp : 2 * ds.length < p.length) (hds : ∀ c ∈ ds, c ≠ 0) :
    ∃ q r, fill (ds ++ rest) ds.length ds.length 0 p = some q ∧ store q (2 * ds.length) 0 = some r ∧
      r.takeWhile (· != 0) = ds.reverse ++ ds := by
  obtain ⟨q, hq, hlen, hget⟩ := @fill_eq 0 _ _ (ds ++ rest) p (Nat.zero_add ds.length) (by simp) hp.le
  refine ⟨q, q.set (2 * ds.length) 0, hq, if_pos (by omega), ?_⟩
  have htake : q.take (2 * ds.length) = ds.reverse ++ ds := by
    apply List.ext_getElem?
    intro j
    rw [List.getElem?_take, hget, List.getElem?_append]
    grind
  rw [List.set_eq_take_append_cons_drop, if_pos (by omega), htake,
    List.takeWhile_append_of_pos (by grind), List.takeWhile_cons_of_neg (by decide), List.append_nil]

theorem zeroDigit_eq (n : Nat) (hs : s.length = 128) : ∃ done rest,
    zeroDigit n s = some (done.length, done ++ rest) ∧ done ++ lowFirst n = (numeral n).reverse ∧
      127 ≤ rest.length ∧ done.length + rest.length = 128 := by
  obtain _ | ⟨d, s⟩ := s
  · cases hs
  obtain rfl | hpos := n.eq_zero_or_pos
  · exact ⟨[48], s, rfl, rfl, by simpa using hs.ge, by simpa [Nat.add_comm] using hs⟩
  · exact ⟨[], d :: s, if_neg (by omega), if_neg hpos.ne', by omega, by simpa using hs⟩

theorem length_numeral_le (hn : n < 10 ^ 10) : (numeral n).length ≤ 10 := by
  rw [numeral, List.length_map]
  exact (Nat.length_toDigits_le_iff (by decide) (by decide)).2 hn

theorem digits_numeral {n : Nat} (hn : n < 10 ^ 10) (hs : s.length = 128) : ∃ m t d rest,
    zeroDigit n s = some (m, t) ∧
    digits (n + 1) n m t = some ((numeral n).length, (numeral n).reverse ++ d :: rest) := by
  obtain ⟨done, rest, hzero, hall, hrest, hlen⟩ := zeroDigit_eq n hs
  have hten := length_numeral_le hn
  have hdigits := @digits_eq n 10 _ done rest hn (by omega) n.lt_succ_self
  have hmore : (lowFirst n).length < rest.length := by
    have := congrArg List.length hall
    rw [List.length_append, List.length_reverse] at this
    omega
  obtain ⟨d, rest', hd⟩ := List.exists_cons_of_length_pos (List.length_drop ▸ Nat.sub_pos_of_lt hmore)
  rw [hall, List.length_reverse, hd] at hdigits
  exact ⟨_, _, d, rest', hzero, hdigits⟩

theorem create_palindrome_numeral (ecx : Word) (hnum : 0 ≤ ecx.toInt) (num_str palindrome_str : Text)
    (hs : num_str.length = 128) (hp : palindrome_str.length = 256) :
    ∃ str, sys_create_palindrome num_str palindrome_str ecx = some ⟨0, some (ecx.toInt, str)⟩ ∧
      str = numeral ecx.toInt.toNat ++ (numeral ecx.toInt.toNat).reverse ∧ str.Palindrome ∧
      str.length = 2 * (numeral ecx.toInt.toNat).length := by
  obtain ⟨n, hn⟩ := Int.eq_ofNat_of_zero_le hnum
  have hlt : n < 10 ^ 10 := by
    have := BitVec.toInt_lt (x := ecx)
    omega
  obtain ⟨m, t, d, rest, hzero, hdigits⟩ := digits_numeral hlt hs
  have hten := length_numeral_le hlt
  obtain ⟨q, r, hq, hr, hstr⟩ := @fill_store (numeral n).reverse (0 :: rest) palindrome_str
    (by rw [List.length_reverse]; omega) fun c hc => numeral_ne_zero (List.mem_reverse.1 hc)
  rw [List.length_reverse] at hq hr
  have hend := store_append (numeral n).reverse rest 0 d
  rw [List.length_reverse] at hend
  rw [List.reverse_reverse] at hstr
  rw [sys_create_palindrome, if_neg (by omega), hn]
  refine ⟨_, ?_, rfl, .append_reverse _, by simp [two_mul]⟩
  simp only [create_palindrome, hzero, Int.toNat_natCast, Option.bind_eq_bind, Option.bind_some,
    hdigits, hend, hq, hr, hstr]

theorem create_palindrome_numeral_120 : ∃ str,
    sys_create_palindrome (List.replicate 128 7) (List.replicate 256 7) 120 = some ⟨0, some (120, str)⟩ ∧
      str = [49, 50, 48, 48, 50, 49] := by
  obtain ⟨str, hstr, hnumeral, -⟩ := create_palindrome_numeral 120 (by decide) (List.replicate 128 7)
    (List.replicate 256 7) List.length_replicate List.length_replicate
  exact ⟨str, hstr, hnumeral.trans (by decide)⟩

end Xv6.Palindrome
