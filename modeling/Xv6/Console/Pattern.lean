import Xv6.Console.Command

namespace Xv6.NON

variable {α : Type} {r q n o a : Nat} {neg : Bool}

def Digits (b : Nat → Byte) (lo hi : Nat) : Prop := ∀ k, lo ≤ k → k < hi → isCInNumbers (b k)

structure Second (b : Nat → Byte) (s q : Nat) : Prop where
  lt : s + 1 < q
  digits : Digits b s (q - 1)
  equals : b (q - 1) = ch '='

structure Expression (b : Nat → Byte) (r q a o : Nat) (neg : Bool) : Prop where
  start : r ≤ a
  lt : a < o
  first : Digits b a o
  maximal : r < a → ¬ isCInNumbers (b (a - 1))
  operator : isCInOperations (b o)
  minus : neg → b (o + 1) = ch '-'
  second : Second b (o + 1 + neg.toNat) q

theorem not_number_of_operation (h : isCInOperations c) : ¬ isCInNumbers c := by
  revert c
  decide +kernel

theorem not_number_minus : ¬ isCInNumbers (ch '-') := by decide

theorem Digits.succ (h : Digits b r n) (hn : isCInNumbers (b n)) : Digits b r (n + 1) := by
  intro k hlo hk
  obtain rfl | hlt := Nat.eq_or_lt_of_le (Nat.le_of_lt_succ hk)
  · exact hn
  · exact h k hlo hlt

theorem digits_or_stop (b : Nat → Byte) (r n : Nat) :
    Digits b r n ∨ ∃ m, r ≤ m ∧ m < n ∧ ¬ isCInNumbers (b m) ∧ Digits b (m + 1) n := by
  induction n with
  | zero => exact .inl fun k _ hk => absurd hk (Nat.not_lt_zero k)
  | succ n ih =>
    by_cases hr : r ≤ n
    · by_cases hn : isCInNumbers (b n)
      · rcases ih with hd | ⟨m, hrm, hm, hstop, hd⟩
        · exact .inl (hd.succ hn)
        · exact .inr ⟨m, hrm, Nat.lt_succ_of_lt hm, hstop, hd.succ hn⟩
      · exact .inr ⟨n, hr, Nat.lt_succ_self n, hn, fun k hlo hk => by omega⟩
    · exact .inl fun k hlo hk => by omega

def operatorAt (b : Nat → Byte) (m : Nat) : Option (Option (Nat × Bool)) :=
  if isCInOperations (b m) then
    match m with
    | 0 => none
    | m + 1 =>
      if isCInOperations (b m) then
        if b (m + 1) = ch '-' then some (some (m, true)) else some none
      else some (some (m + 1, false))
  else some none

def scanBack (b : Nat → Byte) (r : Nat) (stop : Nat → Option α) (before : α) : Nat → Option α
  | 0 => none
  | n + 1 =>
    if r ≤ n then if isCInNumbers (b n) then scanBack b r stop before n else stop n
    else some before

def scanOp (b : Nat → Byte) (r : Nat) : Nat → Option (Option (Nat × Bool)) :=
  scanBack b r (operatorAt b) none

def scanStart (b : Nat → Byte) (r : Nat) : Nat → Option (Nat × Option Bool) :=
  scanBack b r (fun m => some (m + 1, some (b m == ch '-'))) (r, none)

structure Match where
  start : Nat
  op : Nat
  neg : Bool
  sign : Option Bool

def searchFirst (b : Nat → Byte) (r : Nat) (neg : Bool) : Nat → Option (Option Match)
  | 0 => none
  | o + 1 =>
    if isCInNumbers (b o) then
      (scanStart b r o).map fun (start, sign) => some ⟨start, o + 1, neg, sign⟩
    else some none

def search (b : Nat → Byte) (r : Nat) : Nat → Option (Option Match)
  | 0 => none
  | 1 => if b 0 = ch '=' then none else some none
  | q + 2 =>
    if b (q + 1) = ch '=' ∧ isCInNumbers (b q) then
      match scanOp b r q with
      | none => none
      | some none => some none
      | some (some (o, neg)) => searchFirst b r neg o
    else some none

section

theorem scanBack_of_digits (h : Digits b r n) :
    scanBack b r stop before n = if min n r = 0 then none else some before := by
  induction n with
  | zero => simp [scanBack]
  | succ n ih =>
    rw [scanBack]
    by_cases hr : r ≤ n
    · rw [if_pos hr, if_pos (h n hr (Nat.lt_succ_self n)), ih fun k hlo hk => h k hlo (by omega),
        Nat.min_eq_right hr, Nat.min_eq_right (by omega)]
    · rw [if_neg hr, if_neg (by omega)]

theorem scanBack_of_stop (hr : r ≤ m) (hm : m < n) (hstop : ¬ isCInNumbers (b m))
    (h : Digits b (m + 1) n) : scanBack b r stop before n = stop m := by
  induction n with
  | zero => omega
  | succ n ih =>
    rw [scanBack, if_pos (by omega)]
    rcases Nat.eq_or_lt_of_le (Nat.le_of_lt_succ hm) with rfl | hlt
    · rw [if_neg hstop]
    · rw [if_pos (h n hlt (Nat.lt_succ_self n))]
      exact ih hlt fun k hlo hk => h k hlo (by omega)

end

namespace Second

theorem two_le (h : Second b m q) : ∃ q', q = q' + 2 ∧ m ≤ q' ∧ b (q' + 1) = ch '=' ∧ isCInNumbers (b q') ∧
    Digits b m (q' + 1) := by
  have hlt := h.lt
  obtain ⟨q', rfl⟩ : ∃ q', q = q' + 2 := ⟨q - 2, by omega⟩
  exact ⟨q', rfl, by omega, h.equals, h.digits q' (by omega) (by omega), h.digits⟩

end Second

theorem operatorAt_of_digit (hop : isCInOperations (b (o + 1))) (hdigit : isCInNumbers (b o)) :
    operatorAt b (o + 1) = some (some (o + 1, false)) := by
  have hnot : ¬ isCInOperations (b o) := fun h => not_number_of_operation h hdigit
  simp [operatorAt, hop, hnot]

theorem operatorAt_of_minus (hop : isCInOperations (b o)) (hminus : b (o + 1) = ch '-') :
    operatorAt b (o + 1) = some (some (o, true)) := by
  have hoper : isCInOperations (ch '-') := by decide
  simp [operatorAt, hop, hminus, hoper]

theorem Expression.scanOp_eq (h : Expression b r (q + 2) a o neg) :
    scanOp b r q = some (some (o, neg)) := by
  have hstart := h.start
  have hlt := h.lt
  have hend := h.second.lt
  obtain ⟨o, rfl⟩ : ∃ o', o = o' + 1 := ⟨o - 1, by omega⟩
  have hdigits := h.second.digits
  have hdigit := h.first o (by omega) (Nat.lt_succ_self o)
  cases neg with
  | false =>
    refine (scanBack_of_stop (m := o + 1) (by omega) ?_ (not_number_of_operation h.operator)
      fun k hlo hk => hdigits k hlo (by omega)).trans (operatorAt_of_digit h.operator hdigit)
    simp only [Bool.toNat_false] at hend
    omega
  | true =>
    have hminus := h.minus rfl
    refine (scanBack_of_stop (m := o + 2) (by omega) ?_ (hminus ▸ not_number_minus)
      fun k hlo hk => hdigits k hlo (by omega)).trans (operatorAt_of_minus h.operator hminus)
    simp only [Bool.toNat_true] at hend
    omega

theorem Expression.search_eq (h : Expression b r q a o neg) :
    search b r q = if r < a then some (some ⟨a, o, neg, some (b (a - 1) == ch '-')⟩)
      else if r = 0 then none else some (some ⟨a, o, neg, none⟩) := by
  have hstart := h.start
  have hlt := h.lt
  obtain ⟨q, rfl, hle, hequals, hlast, -⟩ := h.second.two_le
  rw [search, if_pos ⟨hequals, hlast⟩, h.scanOp_eq]
  obtain ⟨o, rfl⟩ : ∃ o', o = o' + 1 := ⟨o - 1, by omega⟩
  have hdigits : Digits b a o := fun k hlo hk => h.first k hlo (by omega)
  simp only [searchFirst, if_pos (h.first o (by omega) (Nat.lt_succ_self o)), scanStart]
  by_cases hra : r < a
  · obtain ⟨m, rfl⟩ : ∃ m, a = m + 1 := ⟨a - 1, by omega⟩
    rw [if_pos hra, scanBack_of_stop (Nat.le_of_lt_succ hra) (by omega) (h.maximal hra) hdigits]
    rfl
  · obtain rfl : a = r := by omega
    rw [if_neg hra, scanBack_of_digits hdigits, Nat.min_eq_right (by omega)]
    split
    · rfl
    · rfl

theorem Expression.unique (h : Expression b r q a o neg)
    (h' : Expression b r q a' o' neg') : a = a' ∧ o = o' ∧ neg = neg' := by
  obtain ⟨q, rfl, -⟩ := h.second.two_le
  have hop := h.scanOp_eq.symm.trans h'.scanOp_eq
  simp only [Option.some.injEq, Prod.mk.injEq] at hop
  obtain ⟨rfl, rfl⟩ := hop
  have hstart := h.start
  have hstart' := h'.start
  refine ⟨?_, rfl, rfl⟩
  by_contra hne
  obtain hlt | hlt := Nat.lt_or_gt_of_ne hne
  · have hend := h'.lt
    exact h'.maximal (by omega) (h.first (a' - 1) (by omega) (by omega))
  · have hend := h.lt
    exact h.maximal (by omega) (h'.first (a - 1) (by omega) (by omega))

theorem exists_expression (neg : Bool) (hr : r ≤ o) (hdigit : isCInNumbers (b o)) (hop : isCInOperations (b (o + 1)))
    (hminus : neg → b (o + 2) = ch '-') (hsecond : Second b (o + 2 + neg.toNat) q) :
    ∃ a, Expression b r q a (o + 1) neg := by
  rcases digits_or_stop b r (o + 1) with hd | ⟨m, hrm, hm, hstop, hd⟩
  · exact ⟨r, Nat.le_refl r, Nat.lt_succ_of_le hr, hd, fun h => absurd h (Nat.lt_irrefl r), hop, hminus, hsecond⟩
  · have hne : m ≠ o := fun heq => hstop (heq ▸ hdigit)
    exact ⟨m + 1, by omega, by omega, hd, fun _ => hstop, hop, hminus, hsecond⟩

theorem searchFirst_eq_none_iff :
    searchFirst b r neg o = some none ↔ 0 < o ∧ ¬ isCInNumbers (b (o - 1)) := by
  cases o with
  | zero => simp [searchFirst]
  | succ o =>
    rw [searchFirst, Nat.add_sub_cancel]
    by_cases hdigit : isCInNumbers (b o)
    · simp [hdigit]
    · simp [hdigit]

/-- What has to hold where the search gets to the start of the line, by what the line up to the `?`
is: nothing, `=`, a number and `=`, with an operator before it, with an operator and a minus, or an
expression.  The line is not at the start of the buffer, the bytes before it do not go on with an
expression, and `sign_n1` is not set from before. -/
structure Confined (b : Nat → Byte) (r q : Nat) (sign : Bool) : Prop where
  nothing : q = r → 0 < r ∧ (b (r - 1) = ch '=' → 2 ≤ r ∧ (isCInNumbers (b (r - 2)) → 3 ≤ r))
  equals : q = r + 1 → b r = ch '=' → 0 < r ∧ (isCInNumbers (b (r - 1)) → 2 ≤ r)
  number : Second b r q → 0 < r
  operator : isCInOperations (b r) → Second b (r + 1) q →
    0 < r ∧ ¬ isCInNumbers (b (r - 1)) ∧
      (b r = ch '-' → isCInOperations (b (r - 1)) → 2 ≤ r ∧ ¬ isCInNumbers (b (r - 2)))
  minus : isCInOperations (b r) → b (r + 1) = ch '-' → Second b (r + 2) q →
    0 < r ∧ ¬ isCInNumbers (b (r - 1))
  whole : ∀ o neg, Expression b r q r o neg → 0 < r ∧ sign = false

theorem Expression.confined_iff (h : Expression b r q a o neg) :
    Confined b r q sign ↔ (a = r → 0 < r ∧ sign = false) := by
  have hstart := h.start
  have hlt := h.lt
  have hend := h.second.lt
  have hop := not_number_of_operation h.operator
  constructor
  · rintro hconf rfl
    exact hconf.whole o neg h
  · intro hcond
    refine ⟨fun heq => by omega, fun heq => by omega, fun hs => ?_, fun _ hs => ?_, fun hfirst hminus hs => ?_,
      fun o' neg' h' => hcond (h.unique h').1⟩
    · exact absurd (hs.digits o (by omega) (by omega)) hop
    · exact absurd (hs.digits o (by omega) (by omega)) hop
    · by_cases hnext : o = r + 1
      · exact absurd (h.first r (by omega) (by omega)) (not_number_of_operation hfirst)
      · exact absurd (hs.digits o (by omega) (by omega)) hop

theorem search_of_stop (hr : r ≤ m) (hstop : ¬ isCInNumbers (b m)) (h : Second b (m + 1) q) :
    search b r q = some none ↔ (isCInOperations (b m) → 0 < m ∧ ¬ isCInNumbers (b (m - 1)) ∧
      (b m = ch '-' → isCInOperations (b (m - 1)) → 2 ≤ m ∧ ¬ isCInNumbers (b (m - 2)))) := by
  obtain ⟨q, rfl, hle, hequals, hlast, hdigits⟩ := h.two_le
  have hscan : scanOp b r q = operatorAt b m :=
    scanBack_of_stop hr hle hstop fun k hlo hk => hdigits k hlo (by omega)
  rw [search, if_pos ⟨hequals, hlast⟩, hscan]
  by_cases hop : isCInOperations (b m)
  case neg => simp [operatorAt, hop]
  cases m with
  | zero => simp [operatorAt, hop]
  | succ m =>
    by_cases hbefore : isCInOperations (b m)
    · have hnot := not_number_of_operation hbefore
      by_cases hminus : b (m + 1) = ch '-'
      · rw [operatorAt_of_minus hbefore hminus]
        simp only [searchFirst_eq_none_iff, Nat.add_sub_cancel]
        refine ⟨fun hfirst _ => ⟨Nat.succ_pos m, hnot, fun _ _ => ⟨by omega, hfirst.2⟩⟩, fun h => ?_⟩
        obtain ⟨hlt, hdigit⟩ := (h hop).2.2 hminus hbefore
        exact ⟨by omega, hdigit⟩
      · simp [operatorAt, hop, hbefore, hminus, hnot]
    · simp [operatorAt, hop, hbefore, searchFirst_eq_none_iff]

theorem confined_of_stop (hnone : ∀ a o neg, ¬ Expression b r q a o neg) (hr : r ≤ m)
    (hstop : ¬ isCInNumbers (b m)) (h : Second b (m + 1) q) :
    Confined b r q sign ↔ (isCInOperations (b m) → 0 < m ∧ ¬ isCInNumbers (b (m - 1)) ∧
      (b m = ch '-' → isCInOperations (b (m - 1)) → 2 ≤ m ∧ ¬ isCInNumbers (b (m - 2)))) := by
  have hlt := h.lt
  have hdigits := h.digits
  have hlate : ∀ s, Second b s q → m < s := fun s hs => by
    by_contra hle
    exact hstop (hs.digits m (by omega) (by omega))
  constructor
  · intro hconf hop
    obtain rfl | hrm := Nat.eq_or_lt_of_le hr
    · exact hconf.operator hop h
    obtain ⟨m, rfl⟩ : ∃ m', m = m' + 1 := ⟨m - 1, by omega⟩
    simp only [Nat.add_sub_cancel]
    refine ⟨Nat.succ_pos m, fun hdigit => ?_, fun hminus hbefore => ?_⟩
    · obtain ⟨a, ha⟩ := exists_expression (r := r) (b := b) false (Nat.le_of_lt_succ hrm) hdigit hop nofun h
      exact hnone a _ _ ha
    · obtain rfl | hrm := Nat.eq_or_lt_of_le (Nat.le_of_lt_succ hrm)
      · obtain ⟨hpos, hdigit⟩ := hconf.minus hbefore hminus h
        exact ⟨by omega, hdigit⟩
      · obtain ⟨m, rfl⟩ : ∃ m', m = m' + 1 := ⟨m - 1, by omega⟩
        refine ⟨by omega, fun hdigit => ?_⟩
        obtain ⟨a, ha⟩ := exists_expression (r := r) (b := b) true (Nat.le_of_lt_succ hrm) hdigit hbefore
          (fun _ => hminus) h
        exact hnone a _ _ ha
  · intro hcond
    refine ⟨fun heq => by omega, fun heq => by omega, fun hs => ?_, fun hop hs => ?_,
      fun hop hminus hs => ?_, fun o neg he => absurd he (hnone r o neg)⟩
    · have := hlate r hs
      omega
    · obtain rfl : m = r := by
        have := hlate _ hs
        omega
      exact hcond hop
    · have hle := hlate _ hs
      obtain rfl | rfl : m = r ∨ m = r + 1 := by omega
      · exact absurd (hminus ▸ hdigits (m + 1) (Nat.le_refl _) (by omega)) not_number_minus
      · obtain ⟨hpos, hdigit⟩ := (hcond (hminus ▸ by decide)).2.2 hminus hop
        exact ⟨by omega, hdigit⟩

theorem Confined.of_not_second (hnone : ∀ a o neg, ¬ Expression b r (q + 2) a o neg)
    (h : ¬(b (q + 1) = ch '=' ∧ isCInNumbers (b q))) : Confined b r (q + 2) sign := by
  have hsecond : ∀ s, ¬ Second b s (q + 2) := fun s hs => by
    have hlt := hs.lt
    exact h ⟨hs.equals, hs.digits q (by omega) (by omega)⟩
  refine ⟨?_, ?_, fun hs => absurd hs (hsecond r), fun _ hs => absurd hs (hsecond _),
    fun _ _ hs => absurd hs (hsecond _), fun o neg he => absurd he (hnone r o neg)⟩
  · rintro rfl
    exact ⟨Nat.succ_pos _, fun hequals => ⟨Nat.le_add_left 2 q, fun hdigit => absurd ⟨hequals, hdigit⟩ h⟩⟩
  · intro heq hequals
    obtain rfl : r = q + 1 := by omega
    exact ⟨Nat.succ_pos _, fun hdigit => absurd ⟨hequals, hdigit⟩ h⟩

theorem confined_of_digits (hr : r ≤ q + 2)
    (hnone : ∀ a o neg, ¬ Expression b r (q + 2) a o neg) (hequals : b (q + 1) = ch '=')
    (hdigit : isCInNumbers (b q)) (hdigits : Digits b r q) :
    Confined b r (q + 2) sign ↔ 0 < q ∧ 0 < r := by
  have hall := hdigits.succ hdigit
  constructor
  · intro hconf
    have hpos : 0 < r := by
      by_contra hzero
      obtain rfl : r = 0 := by omega
      exact Nat.lt_irrefl 0 (hconf.number ⟨by omega, hall, hequals⟩)
    refine ⟨Nat.pos_of_ne_zero ?_, hpos⟩
    rintro rfl
    obtain rfl | rfl : r = 1 ∨ r = 2 := by omega
    · exact absurd ((hconf.equals rfl hequals).2 hdigit) (by decide)
    · exact absurd (((hconf.nothing rfl).2 hequals).2 hdigit) (by decide)
  · rintro ⟨hq, hpos⟩
    refine ⟨fun heq => ⟨hpos, fun _ => ⟨by omega, fun _ => by omega⟩⟩,
      fun heq _ => ⟨hpos, fun _ => by omega⟩, fun _ => hpos, fun hop hs => ?_, fun hop _ hs => ?_,
      fun o neg he => absurd he (hnone r o neg)⟩
    · have hlt := hs.lt
      exact absurd (hall r (Nat.le_refl r) (by omega)) (not_number_of_operation hop)
    · have hlt := hs.lt
      exact absurd (hall r (Nat.le_refl r) (by omega)) (not_number_of_operation hop)

theorem search_eq_none_iff (hr : r ≤ q) (hnone : ∀ a o neg, ¬ Expression b r q a o neg) :
    search b r q = some none ↔ Confined b r q sign := by
  match q with
  | 0 =>
    obtain rfl : r = 0 := by omega
    exact ⟨nofun, fun hconf => absurd (hconf.nothing rfl).1 (Nat.lt_irrefl 0)⟩
  | 1 =>
    rw [search]
    have hsecond : ∀ s, ¬ Second b s 1 := fun s hs => by
      have hlt := hs.lt
      omega
    by_cases hequals : b 0 = ch '='
    · rw [if_pos hequals]
      refine ⟨nofun, fun hconf => ?_⟩
      obtain rfl | rfl : r = 0 ∨ r = 1 := by omega
      · exact absurd (hconf.equals rfl hequals).1 (Nat.lt_irrefl 0)
      · exact absurd ((hconf.nothing rfl).2 hequals).1 (by decide)
    · rw [if_neg hequals]
      refine ⟨fun _ => ⟨?_, ?_, fun hs => absurd hs (hsecond r), fun _ hs => absurd hs (hsecond _),
        fun _ _ hs => absurd hs (hsecond _), fun o neg he => absurd he (hnone r o neg)⟩, fun _ => rfl⟩
      · rintro rfl
        exact ⟨Nat.one_pos, fun h => absurd h hequals⟩
      · intro heq h
        obtain rfl : r = 0 := by omega
        exact absurd h hequals
  | q + 2 =>
    by_cases h : b (q + 1) = ch '=' ∧ isCInNumbers (b q)
    case neg =>
      rw [search, if_neg h]
      exact ⟨fun _ => .of_not_second hnone h, fun _ => rfl⟩
    obtain ⟨hequals, hdigit⟩ := h
    rcases digits_or_stop b r q with hd | ⟨m, hrm, hm, hstop, hd⟩
    · rw [confined_of_digits hr hnone hequals hdigit hd, search, if_pos ⟨hequals, hdigit⟩, scanOp,
        scanBack_of_digits hd]
      by_cases hzero : min q r = 0
      · rw [if_pos hzero]
        exact ⟨nofun, fun hpos => by omega⟩
      · rw [if_neg hzero]
        exact ⟨fun _ => by omega, fun _ => rfl⟩
    · have hs : Second b (m + 1) (q + 2) := ⟨by omega, hd.succ hdigit, hequals⟩
      rw [search_of_stop hrm hstop hs, confined_of_stop hnone hrm hstop hs]

section

variable {x : Input} {non : NON}

theorem peek_before (h : n ≤ inputBuf) :
    peek x.buf (BitVec.ofNat 32 n - 1) = if n = 0 then none else some (x.byteAt (n - 1)) := by
  have hle : n ≤ 128 := h
  cases n with
  | zero => rfl
  | succ n =>
    have hword : BitVec.ofNat 32 (n + 1) - 1 = BitVec.ofNat 32 n := by bv_omega
    have hval : (BitVec.ofNat 32 n).toNat = n := by
      rw [BitVec.toNat_ofNat]
      omega
    rw [hword, Input.peek_eq (show _ < 128 by omega), hval]
    rfl

theorem le_before {r : Word} (h : n ≤ inputBuf) :
    r ≤ BitVec.ofNat 32 n - 1 ↔ n = 0 ∨ r.toNat ≤ n - 1 := by
  have hle : n ≤ 128 := h
  show r.toNat ≤ (BitVec.ofNat 32 n - 1).toNat ↔ _
  bv_omega

theorem findOpFrom_scan (hn : n ≤ inputBuf) (hf : n < f) :
    findOpFrom x last non f (BitVec.ofNat 32 n - 1) =
      (scanOp x.byteAt x.r.toNat n).map (Option.map fun (o, neg) => { non with
        op := BitVec.ofNat 32 o
        sN2 := BitVec.ofNat 32 (o + 1 + neg.toNat)
        eN2 := last
        signN2 := neg }) := by
  have hle : n ≤ 128 := hn
  induction f generalizing n with
  | zero => omega
  | succ f ih =>
    rw [findOpFrom, peek_before hn]
    cases n with
    | zero =>
      rw [if_pos ((le_before hn).mpr (.inl rfl))]
      rfl
    | succ n =>
      have hword : BitVec.ofNat 32 (n + 1) - 1 = BitVec.ofNat 32 n := by bv_omega
      have hpeek := peek_before (x := x) (show n ≤ 128 by omega)
      rw [scanOp, scanBack, hword, hpeek]
      simp only [Option.bind_eq_bind, Nat.add_sub_cancel, Nat.succ_ne_zero, if_false, Option.bind_some]
      by_cases hr : x.r.toNat ≤ n
      · have hr' : x.r ≤ BitVec.ofNat 32 n := hword ▸ (le_before hn).mpr (.inr hr)
        rw [if_pos hr', if_pos hr]
        by_cases hdigit : isCInNumbers (x.byteAt n)
        · rw [if_pos hdigit, if_pos hdigit, ih (by omega) (by omega) (by omega)]
          rfl
        · rw [if_neg hdigit, if_neg hdigit]
          by_cases hop : isCInOperations (x.byteAt n)
          case neg => simp [operatorAt, hop]
          cases n with
          | zero => simp [operatorAt, hop]
          | succ m =>
            have hpred : BitVec.ofNat 32 (m + 1) - 1 = BitVec.ofNat 32 m := by bv_omega
            have hsucc : BitVec.ofNat 32 (m + 1) + 1 = BitVec.ofNat 32 (m + 1 + 1) := by bv_omega
            rw [if_pos hop, hpred, hsucc]
            simp only [Nat.succ_ne_zero, if_false, Option.bind_some, Nat.add_sub_cancel]
            by_cases hbefore : isCInOperations (x.byteAt m)
            · rw [if_pos hbefore]
              by_cases hminus : x.byteAt (m + 1) = ch '-'
              · rw [if_pos hminus, operatorAt_of_minus hbefore hminus]
                rfl
              · simp [operatorAt, hop, hbefore, hminus]
            · simp [operatorAt, hop, hbefore]
      · have hr' : ¬ x.r ≤ BitVec.ofNat 32 n := fun h =>
          hr (((le_before hn).mp (hword ▸ h)).resolve_left (Nat.succ_ne_zero n))
        rw [if_neg hr', if_neg hr]
        rfl

theorem findStartFrom_scan (hn : n ≤ inputBuf) (hf : n < f) :
    findStartFrom x non f (BitVec.ofNat 32 n - 1) =
      (scanStart x.byteAt x.r.toNat n).map fun (start, sign) => { non with
        signN1 := sign.getD non.signN1
        sN1 := BitVec.ofNat 32 start
        eN1 := non.op - 1 } := by
  have hle : n ≤ 128 := hn
  induction f generalizing n with
  | zero => omega
  | succ f ih =>
    rw [findStartFrom, peek_before hn]
    cases n with
    | zero =>
      rw [if_pos ((le_before hn).mpr (.inl rfl))]
      rfl
    | succ n =>
      have hword : BitVec.ofNat 32 (n + 1) - 1 = BitVec.ofNat 32 n := by bv_omega
      rw [scanStart, scanBack, hword]
      simp only [Option.bind_eq_bind, Nat.add_sub_cancel, Nat.succ_ne_zero, if_false, Option.bind_some]
      by_cases hr : x.r.toNat ≤ n
      · have hr' : x.r ≤ BitVec.ofNat 32 n := hword ▸ (le_before hn).mpr (.inr hr)
        rw [if_pos hr', if_pos hr]
        by_cases hdigit : isCInNumbers (x.byteAt n)
        · rw [if_pos hdigit, if_pos hdigit, ih (by omega) (by omega) (by omega)]
          rfl
        · have hsucc : BitVec.ofNat 32 n + 1 = BitVec.ofNat 32 (n + 1) := by bv_omega
          rw [if_neg hdigit, if_neg hdigit, hsucc]
          rfl
      · have hr' : ¬ x.r ≤ BitVec.ofNat 32 n := fun h =>
          hr (((le_before hn).mp (hword ▸ h)).resolve_left (Nat.succ_ne_zero n))
        rw [if_neg hr', if_neg hr]
        simp

def Match.record (found : Match) (non : NON) (q : Nat) : NON where
  signN1 := found.sign.getD non.signN1
  signN2 := found.neg
  sN1 := BitVec.ofNat 32 found.start
  eN1 := BitVec.ofNat 32 found.op - 1
  sN2 := BitVec.ofNat 32 (found.op + 1 + found.neg.toNat)
  eN2 := BitVec.ofNat 32 (q - 2)
  op := BitVec.ofNat 32 found.op

def Agrees (non : NON) (q : Nat) : Option (Option Match) → Option (Bool × NON) → Prop
  | none, out => out = none
  | some none, out => ∃ left, out = some (false, left)
  | some (some found), out => out = some (true, found.record non q)

theorem operatorAt_le (h : operatorAt b m = some (some (o, neg))) : o ≤ m := by
  cases m with
  | zero =>
    simp only [operatorAt] at h
    split at h <;> cases h
  | succ m =>
    simp only [operatorAt] at h
    split at h
    · split at h
      · split at h
        · cases h
          exact Nat.le_succ _
        · cases h
      · cases h
        exact Nat.le_refl _
    · cases h

theorem scanOp_lt (h : scanOp b r n = some (some (o, neg))) : o < n := by
  induction n with
  | zero => cases h
  | succ n ih =>
    rw [scanOp, scanBack] at h
    split at h
    · split at h
      · exact Nat.lt_succ_of_lt (ih h)
      · exact Nat.lt_succ_of_le (operatorAt_le h)
    · cases h

theorem checkFirst_agrees (ho : o < inputBuf) (non : NON) (q : Nat) :
    Agrees non q (searchFirst x.byteAt x.r.toNat neg o) (checkFirst x { non with
      op := BitVec.ofNat 32 o
      sN2 := BitVec.ofNat 32 (o + 1 + neg.toNat)
      eN2 := BitVec.ofNat 32 (q - 2)
      signN2 := neg }) := by
  have hlt : o < 128 := ho
  simp only [checkFirst, peek_before (show o ≤ 128 by omega)]
  cases o with
  | zero => exact rfl
  | succ o =>
    simp only [searchFirst, Nat.succ_ne_zero, if_false, Option.bind_eq_bind, Option.bind_some,
      Nat.add_sub_cancel]
    by_cases hdigit : isCInNumbers (x.byteAt o)
    · have h2 : BitVec.ofNat 32 (o + 1) - 2 = BitVec.ofNat 32 o - 1 := by bv_omega
      rw [if_pos hdigit, if_neg (not_not_intro hdigit), h2,
        findStartFrom_scan (show o ≤ 128 by omega) (show o < 129 by omega)]
      cases scanStart x.byteAt x.r.toNat o with
      | none => exact rfl
      | some found => exact rfl
    · rw [if_neg hdigit, if_pos hdigit]
      exact ⟨_, rfl⟩

theorem checkNONPattern_agrees (hcur : (x.e - lefts).toNat = q + 1) (hq : q < inputBuf) (non : NON) :
    Agrees non q (search x.byteAt x.r.toNat q) (checkNONPattern x lefts non) := by
  have hlt : q < 128 := hq
  have h2 : x.e - lefts - 2 = BitVec.ofNat 32 q - 1 := by bv_omega
  unfold checkNONPattern
  rw [h2, peek_before (show q ≤ 128 by omega)]
  match q with
  | 0 => exact rfl
  | 1 =>
    have h3 : x.e - lefts - 3 = BitVec.ofNat 32 0 - 1 := by bv_omega
    rw [h3, peek_before (show 0 ≤ 128 by omega), search]
    by_cases hequals : x.byteAt 0 = ch '='
    · simp [hequals, Agrees]
    · simp [hequals, Agrees]
  | q + 2 =>
    have h3 : x.e - lefts - 3 = BitVec.ofNat 32 (q + 1) - 1 := by bv_omega
    have h4 : x.e - lefts - 4 = BitVec.ofNat 32 q - 1 := by bv_omega
    rw [h3, h4, peek_before (show q + 1 ≤ 128 by omega), search,
      findOpFrom_scan (show q ≤ 128 by omega) (show q < 129 by omega)]
    simp only [Nat.succ_ne_zero, if_false, Option.bind_eq_bind, Option.bind_some, Nat.add_sub_cancel,
      show q + 2 - 1 = q + 1 from rfl]
    by_cases hequals : x.byteAt (q + 1) = ch '='
    case neg =>
      rw [if_neg fun h => hequals h.1]
      exact ⟨non, if_pos hequals⟩
    by_cases hdigit : isCInNumbers (x.byteAt q)
    case neg =>
      rw [if_neg fun h => hdigit h.2]
      exact ⟨non, by simp [hequals, hdigit]⟩
    have hlast : BitVec.ofNat 32 (q + 1) - 1 = BitVec.ofNat 32 q := by bv_omega
    rw [if_pos ⟨hequals, hdigit⟩, if_neg (not_not_intro hequals), if_neg (not_not_intro hdigit), hlast]
    cases hscan : scanOp x.byteAt x.r.toNat q with
    | none => exact rfl
    | some result =>
      cases result with
      | none => exact ⟨non, rfl⟩
      | some found =>
        have hop := scanOp_lt hscan
        exact checkFirst_agrees (show _ < 128 by omega) non (q + 2)

structure Delimits (b : Nat → Byte) (r q a o : Nat) (neg : Bool) (non : NON) : Prop where
  sN1 : non.sN1.toNat = a
  eN1 : non.eN1.toNat + 1 = o
  op : non.op.toNat = o
  sN2 : non.sN2.toNat = o + 1 + neg.toNat
  eN2 : non.eN2.toNat + 2 = q
  signN2 : non.signN2 = neg
  signN1 : non.signN1 = true ↔ r < a ∧ b (a - 1) = ch '-'

def Recognises (x : Input) (lefts : Word) (q : Nat) (non : NON) : Prop :=
  ∃ answer found, checkNONPattern x lefts non = some (answer, found) ∧
    (answer = true ↔ ∃ a o neg, Expression x.byteAt x.r.toNat q a o neg) ∧
    ∀ a o neg, Expression x.byteAt x.r.toNat q a o neg →
      Delimits x.byteAt x.r.toNat q a o neg found

theorem Expression.delimits (h : Expression x.byteAt x.r.toNat q a o neg) (hq : q < inputBuf)
    (hsign : sign.getD non.signN1 = true ↔ x.r.toNat < a ∧ x.byteAt (a - 1) = ch '-') :
    Delimits x.byteAt x.r.toNat q a o neg (Match.record ⟨a, o, neg, sign⟩ non q) := by
  have hlt := h.lt
  have hend := h.second.lt
  have hq' : q < 128 := hq
  have hword : ∀ k, k < 128 → (BitVec.ofNat 32 k).toNat = k := fun k hk => by
    rw [BitVec.toNat_ofNat]
    omega
  refine ⟨hword a (by omega), ?_, hword o (by omega), hword (o + 1 + neg.toNat) (by omega), ?_,
    rfl, hsign⟩
  · show (BitVec.ofNat 32 o - 1).toNat + 1 = o
    bv_omega
  · show (BitVec.ofNat 32 (q - 2)).toNat + 2 = q
    rw [hword _ (by omega)]
    omega

theorem recognises_iff_confined (x : Input) (lefts : Word) (non : NON) {q : Nat}
    (hcur : (x.e - lefts).toNat = q + 1) (hq : q < inputBuf) (hr : x.r.toNat ≤ q) :
    Recognises x lefts q non ↔ Confined x.byteAt x.r.toNat q non.signN1 := by
  have hagrees := checkNONPattern_agrees hcur hq non
  by_cases hsome : ∃ a o neg, Expression x.byteAt x.r.toNat q a o neg
  · obtain ⟨a, o, neg, h⟩ := hsome
    have hstart := h.start
    rw [h.confined_iff]
    rw [h.search_eq] at hagrees
    have hrecognises : ∀ {sign : Option Bool},
        checkNONPattern x lefts non = some (true, Match.record ⟨a, o, neg, sign⟩ non q) →
        (sign.getD non.signN1 = true ↔ x.r.toNat < a ∧ x.byteAt (a - 1) = ch '-') →
        Recognises x lefts q non := fun hcheck hsign =>
      ⟨true, _, hcheck, ⟨fun _ => ⟨a, o, neg, h⟩, fun _ => rfl⟩, fun a' o' neg' h' => by
        obtain ⟨rfl, rfl, rfl⟩ := h.unique h'
        exact h.delimits hq hsign⟩
    by_cases hra : x.r.toNat < a
    · rw [if_pos hra] at hagrees
      exact ⟨fun _ heq => by omega, fun _ => hrecognises hagrees (by simp [hra])⟩
    · obtain rfl : a = x.r.toNat := by omega
      rw [if_neg hra] at hagrees
      by_cases hzero : x.r.toNat = 0
      · rw [if_pos hzero] at hagrees
        refine ⟨fun ⟨answer, found, hcheck, _⟩ => ?_, fun hcond => absurd (hcond rfl).1 (by omega)⟩
        cases hagrees.symm.trans hcheck
      · rw [if_neg hzero] at hagrees
        constructor
        · rintro ⟨answer, found, hcheck, -, hparts⟩ -
          cases hagrees.symm.trans hcheck
          have hsign := (hparts _ _ _ h).signN1
          exact ⟨by omega, by simpa [Match.record] using hsign⟩
        · intro hcond
          exact hrecognises hagrees (by simp [(hcond rfl).2])
  · have hnone : ∀ a o neg, ¬ Expression x.byteAt x.r.toNat q a o neg := fun a o neg h =>
      hsome ⟨a, o, neg, h⟩
    rw [← search_eq_none_iff hr hnone]
    constructor
    · rintro ⟨answer, found, hcheck, hiff, -⟩
      have hfalse : answer = false := Bool.eq_false_iff.mpr fun htrue => hsome (hiff.mp htrue)
      rw [hcheck, hfalse] at hagrees
      cases hsearch : search x.byteAt x.r.toNat q with
      | none =>
        rw [hsearch] at hagrees
        cases hagrees
      | some result =>
        rw [hsearch] at hagrees
        cases result with
        | none => rfl
        | some found => cases hagrees
    · intro hsearch
      rw [hsearch] at hagrees
      obtain ⟨left, hcheck⟩ := hagrees
      exact ⟨false, left, hcheck, by simp [hnone], fun a o neg h => absurd h (hnone a o neg)⟩

end

def pending (r : Nat) (bs : List Byte) : Input where
  __ := Input.zero
  buf := fun j => (List.replicate r (ch '\n') ++ bs).getD j.val 0
  r := BitVec.ofNat 32 r
  w := BitVec.ofNat 32 r
  e := BitVec.ofNat 32 (r + bs.length)

theorem recognises_of_after :
    Recognises (pending 0 ("n1+2=?".toList.map ch)) 0 5 { zero with signN1 := true } := by
  have h : Expression (pending 0 ("n1+2=?".toList.map ch)).byteAt 0 5 1 2 false := by
    refine ⟨by decide, by decide, fun k hlo hk => ?_, fun _ => by decide, by decide, nofun, by decide,
      fun k hlo hk => ?_, by decide⟩
    · obtain rfl : k = 1 := by omega
      decide
    · obtain rfl : k = 3 := by simp only [Bool.toNat_false] at hlo; omega
      decide
  exact (recognises_iff_confined _ 0 _ (by decide) (by decide) (by decide)).mpr
    (h.confined_iff.mpr fun heq => absurd heq (by decide))

theorem not_recognises_of_sign :
    checkNONPattern (pending 1 ("5+3=?".toList.map ch)) 0 { zero with signN1 := true } =
      some (true, ⟨true, false, 1, 1, 3, 3, 2⟩) ∧
    ¬ Recognises (pending 1 ("5+3=?".toList.map ch)) 0 5 { zero with signN1 := true } := by
  have hcheck : checkNONPattern (pending 1 ("5+3=?".toList.map ch)) 0 { zero with signN1 := true } =
      some (true, ⟨true, false, 1, 1, 3, 3, 2⟩) := by decide +kernel
  refine ⟨hcheck, fun ⟨answer, found, hsame, _, hparts⟩ => ?_⟩
  have h : Expression (pending 1 ("5+3=?".toList.map ch)).byteAt 1 5 1 2 false := by
    refine ⟨by decide, by decide, fun k hlo hk => ?_, fun hlt => absurd hlt (by decide), by decide, nofun,
      by decide, fun k hlo hk => ?_, by decide⟩
    · obtain rfl : k = 1 := by omega
      decide
    · obtain rfl : k = 3 := by simp only [Bool.toNat_false] at hlo; omega
      decide
  cases hcheck.symm.trans hsame
  exact absurd ((hparts _ _ _ h).signN1.mp rfl).1 (by decide)

end Xv6.NON
