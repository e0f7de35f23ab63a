import Xv6.Console.Input

namespace Xv6

open Function

theorem peek_of_lt (h : i.toNat < inputBuf) :
    peek a i = some (a ⟨i.toNat, h⟩) := dif_pos h

theorem poke_of_lt (h : i.toNat < inputBuf) :
    poke a i c = some (update a ⟨i.toNat, h⟩ c) := dif_pos h

theorem place_of_lt (h : i.toNat < inputBuf) : place i = ⟨i.toNat, h⟩ :=
  Fin.ext (Nat.mod_eq_of_lt h)

def opened (lo hi : Nat) (a : Fin inputBuf → Byte) : Fin inputBuf → Byte := fun j =>
  if lo < j.val ∧ j.val ≤ hi then a ⟨j.val - 1, by omega⟩ else a j

def closed (lo hi : Nat) (a : Fin inputBuf → Byte) : Fin inputBuf → Byte := fun j =>
  if h : j.val + 1 < inputBuf then
    if lo ≤ j.val ∧ j.val < hi then a ⟨j.val + 1, h⟩ else a j
  else a j

theorem opened_of_le (a : Fin inputBuf → Byte) (h : j.val ≤ lo) :
    opened lo hi a j = a j := if_neg (by omega)

theorem closed_of_lt (a : Fin inputBuf → Byte) (h : j.val < lo) :
    closed lo hi a j = a j := by
  unfold closed
  split
  · exact if_neg (by omega)
  · rfl

theorem opened_succ (a : Fin inputBuf → Byte) (hlo : lo ≤ j.val)
    (hk : k.val = j.val + 1) (hhi : k.val ≤ hi) : opened lo hi a k = a j := by
  have hmoved : lo < k.val ∧ k.val ≤ hi := by omega
  rw [opened, if_pos hmoved]
  exact congrArg a (Fin.ext (by simp [hk]))

theorem opened_of_eq (a : Fin inputBuf → Byte) : opened lo lo a = a := by
  funext j
  exact if_neg (by omega)

theorem opened_update (a : Fin inputBuf → Byte) (hlo : lo < i.val)
    (hk : k.val + 1 = i.val) : opened lo k.val (update a i (a k)) = opened lo i.val a := by
  funext j
  rcases Nat.lt_trichotomy j.val i.val with hlt | heq | hgt
  · have hj : j ≠ i := Fin.ne_of_val_ne (by omega)
    by_cases hm : lo < j.val
    · have hne : (⟨j.val - 1, by omega⟩ : Fin inputBuf) ≠ i := Fin.ne_of_val_ne (by simp; omega)
      have h₁ : lo < j.val ∧ j.val ≤ k.val := by omega
      have h₂ : lo < j.val ∧ j.val ≤ i.val := by omega
      simp only [opened, if_pos h₁, if_pos h₂, update_of_ne hne]
    · rw [opened_of_le _ (by omega), opened_of_le _ (by omega), update_of_ne hj]
  · obtain rfl : j = i := Fin.ext heq
    have h₁ : ¬(lo < j.val ∧ j.val ≤ k.val) := by omega
    rw [opened_succ (j := k) a (by omega) hk.symm (Nat.le_refl _)]
    simp only [opened, if_neg h₁, update_self]
  · have hj : j ≠ i := Fin.ne_of_val_ne (by omega)
    have h₁ : ¬(lo < j.val ∧ j.val ≤ k.val) := by omega
    have h₂ : ¬(lo < j.val ∧ j.val ≤ i.val) := by omega
    simp only [opened, if_neg h₁, if_neg h₂, update_of_ne hj]

theorem closed_of_eq (a : Fin inputBuf → Byte) : closed hi hi a = a := by
  funext j
  unfold closed
  split
  · exact if_neg (by omega)
  · rfl

theorem closed_update (a : Fin inputBuf → Byte) (hhi : i.val < hi)
    (hk : k.val = i.val + 1) : closed k.val hi (update a i (a k)) = closed i.val hi a := by
  funext j
  unfold closed
  split
  · rename_i hj
    have hne : i.val < j.val + 1 → (⟨j.val + 1, hj⟩ : Fin inputBuf) ≠ i := by
      intro h heq
      have := congrArg Fin.val heq
      simp only at this
      omega
    by_cases heq : j = i
    · subst heq
      have hk' : (⟨j.val + 1, hj⟩ : Fin inputBuf) = k := Fin.ext hk.symm
      rw [if_neg (by omega), if_pos (by omega), update_self, hk']
    · have hval : j.val ≠ i.val := fun h => heq (Fin.ext h)
      by_cases hm : i.val ≤ j.val ∧ j.val < hi
      · rw [if_pos (by omega), if_pos hm, update_of_ne (hne (by omega))]
      · rw [if_neg (by omega), if_neg hm, update_of_ne heq]
  · rename_i hj
    exact update_of_ne (Fin.ne_of_val_ne (by omega)) _ _

namespace Input

theorem move_eq {x : Input} {i j : Word} (hi : i.toNat < inputBuf) (hj : j.toNat < inputBuf) :
    x.move i j = some { x with
      buf := update x.buf ⟨i.toNat, hi⟩ (x.buf ⟨j.toNat, hj⟩)
      bufCopy := update x.bufCopy ⟨i.toNat, hi⟩ (x.bufCopy ⟨j.toNat, hj⟩) } := by
  simp only [move, peek_of_lt hj, poke_of_lt hi, Option.bind_eq_bind, Option.bind_some]

theorem move_e {x y : Input} {i j : Word} (h : x.move i j = some y) : y.e = x.e := by
  simp only [move, Option.bind_eq_bind, Option.bind_eq_some_iff, Option.some.injEq] at h
  obtain ⟨_, _, _, _, _, _, _, _, rfl⟩ := h
  rfl

theorem shiftRightFrom_e {stop i : Word} {n : Nat} {x y : Input}
    (h : shiftRightFrom stop n i x = some y) : y.e = x.e := by
  induction n generalizing i x with
  | zero => cases h
  | succ n ih =>
    rw [shiftRightFrom] at h
    split at h
    · obtain ⟨z, hz, hrest⟩ := Option.bind_eq_some_iff.mp h
      rw [ih hrest, move_e hz]
    · cases h
      rfl

theorem shiftRightFrom_eq {stop i : Word} {n : Nat} {x : Input} (hstop : stop.toNat ≤ i.toNat)
    (hi : i.toNat < inputBuf) (hn : i.toNat - stop.toNat < n) :
    shiftRightFrom stop n i x = some { x with
      buf := opened stop.toNat i.toNat x.buf
      bufCopy := opened stop.toNat i.toNat x.bufCopy } := by
  induction n generalizing i x with
  | zero => omega
  | succ n ih =>
    rw [shiftRightFrom]
    by_cases hlt : stop < i
    · have hlt' : stop.toNat < i.toNat := hlt
      have hpred : (i - 1).toNat + 1 = i.toNat := by bv_omega
      have hp : (i - 1).toNat < inputBuf := by omega
      rw [if_pos hlt, move_eq hi hp]
      simp only [Option.bind_eq_bind, Option.bind_some]
      rw [ih (by omega) hp (by omega)]
      have hmove : ∀ a, opened stop.toNat (i - 1).toNat (update a ⟨i.toNat, hi⟩
          (a ⟨(i - 1).toNat, hp⟩)) = opened stop.toNat i.toNat a :=
        fun a => opened_update (i := ⟨i.toNat, hi⟩) (k := ⟨(i - 1).toNat, hp⟩) a hlt' hpred
      simp only [hmove]
    · have heq : i.toNat = stop.toNat := by
        have : ¬ stop.toNat < i.toNat := hlt
        omega
      rw [if_neg hlt, heq, opened_of_eq, opened_of_eq]

theorem shiftLeftFrom_eq {i : Word} {n : Nat} {x : Input} (hi : i.toNat ≤ x.e.toNat)
    (he : x.e.toNat < inputBuf) (hn : x.e.toNat - i.toNat < n) :
    shiftLeftFrom n i x = some { x with
      buf := closed i.toNat x.e.toNat x.buf
      bufCopy := closed i.toNat x.e.toNat x.bufCopy } := by
  induction n generalizing i x with
  | zero => omega
  | succ n ih =>
    rw [shiftLeftFrom]
    by_cases hlt : i < x.e
    · have hlt' : i.toNat < x.e.toNat := hlt
      have hsucc : (i + 1).toNat = i.toNat + 1 := by bv_omega
      have hp : i.toNat < inputBuf := by omega
      have hq : (i + 1).toNat < inputBuf := by omega
      rw [if_pos hlt, move_eq hp hq]
      simp only [Option.bind_eq_bind, Option.bind_some]
      refine (ih ?_ ?_ ?_).trans ?_
      · exact hsucc.trans_le hlt'
      · exact he
      · show x.e.toNat - (i + 1).toNat < n
        omega
      have hmove : ∀ a, closed (i + 1).toNat x.e.toNat (update a ⟨i.toNat, hp⟩
          (a ⟨(i + 1).toNat, hq⟩)) = closed i.toNat x.e.toNat a :=
        fun a => closed_update (i := ⟨i.toNat, hp⟩) (k := ⟨(i + 1).toNat, hq⟩) a hlt' hsucc
      simp only [hmove]
    · have heq : i.toNat = x.e.toNat := by
        have : ¬ i.toNat < x.e.toNat := hlt
        omega
      rw [if_neg hlt, heq, closed_of_eq, closed_of_eq]

theorem shiftRight_e {x y : Input} {lefts : Word} (h : x.shiftRight lefts = some y) : y.e = x.e :=
  shiftRightFrom_e h

theorem shiftRight_eq {x : Input} {lefts : Word} (hl : lefts.toNat ≤ x.e.toNat)
    (he : x.e.toNat < 127) :
    x.shiftRight lefts = some { x with
      buf := opened (x.e - lefts).toNat (x.e + 1).toNat x.buf
      bufCopy := opened (x.e - lefts).toNat (x.e + 1).toNat x.bufCopy } := by
  have hcursor : (x.e - lefts).toNat = x.e.toNat - lefts.toNat := BitVec.toNat_sub_of_le hl
  have hsucc : (x.e + 1).toNat = x.e.toNat + 1 := by bv_omega
  exact shiftRightFrom_eq (by omega) (show _ < 128 by omega) (show _ < 129 by omega)

theorem shiftLeft_eq {x : Input} {lefts : Word} (hl : lefts.toNat ≤ x.e.toNat)
    (he : x.e.toNat < inputBuf) :
    x.shiftLeft lefts = some { x with
      buf := closed (x.e - lefts).toNat x.e.toNat x.buf
      bufCopy := closed (x.e - lefts).toNat x.e.toNat x.bufCopy } := by
  have hcursor : (x.e - lefts).toNat = x.e.toNat - lefts.toNat := BitVec.toNat_sub_of_le hl
  have hlt : x.e.toNat < 128 := he
  exact shiftLeftFrom_eq (by omega) he (show _ < 129 by omega)

theorem clearBufCopyFrom_eq (he : x.e.toNat ≤ inputBuf)
    (hn : x.e.toNat - i.toNat < n) :
    ∃ bufCopy, clearBufCopyFrom n i x = some { x with bufCopy } := by
  induction n generalizing i x with
  | zero => omega
  | succ n ih =>
    rw [clearBufCopyFrom]
    by_cases hlt : i < x.e
    · have hlt' : i.toNat < x.e.toNat := hlt
      have hsucc : (i + 1).toNat = i.toNat + 1 := by bv_omega
      rw [if_pos hlt, poke_of_lt (by omega)]
      simp only [Option.bind_eq_bind, Option.bind_some]
      exact ih he (by simp only; omega)
    · exact ⟨x.bufCopy, if_neg hlt⟩

structure LastMark (x : Input) (i last : Word) : Prop where
  le : last.toNat ≤ i.toNat
  marked : ∃ h : last.toNat < inputBuf, x.bufCopy ⟨last.toNat, h⟩ = ch '1'
  greatest : ∀ j : Fin inputBuf, j.val ≤ i.toNat → x.bufCopy j = ch '1' → j.val ≤ last.toNat

theorem getLastIndexCopyFrom_lastMark {x : Input} {junk i : Word} {n : Nat} {j : Fin inputBuf}
    (hr : x.r.toNat ≤ j.val) (hj : j.val ≤ i.toNat) (hmark : x.bufCopy j = ch '1')
    (hi : i.toNat < inputBuf) (hn : i.toNat - j.val < n) :
    ∃ last, x.getLastIndexCopyFrom junk n i = some last ∧ x.LastMark i last := by
  induction n generalizing i with
  | zero => omega
  | succ n ih =>
    have hle : x.r ≤ i := Nat.le_trans hr hj
    rw [getLastIndexCopyFrom, if_pos hle, peek_of_lt hi]
    simp only [Option.bind_eq_bind, Option.bind_some]
    split
    · rename_i hhere
      exact ⟨i, rfl, Nat.le_refl _, ⟨hi, hhere⟩, fun k hk _ => hk⟩
    · rename_i hother
      have hne : ∀ k : Fin inputBuf, x.bufCopy k = ch '1' → k.val ≠ i.toNat := by
        intro k hk heq
        apply hother
        rw [show (⟨i.toNat, hi⟩ : Fin inputBuf) = k from Fin.ext heq.symm, hk]
      have hnej := hne j hmark
      have hpred : (i - 1).toNat + 1 = i.toNat := by bv_omega
      obtain ⟨last, hlast, hmarked⟩ := ih (i := i - 1) (by omega) (by omega) (by omega)
      refine ⟨last, hlast, by have := hmarked.le; omega, hmarked.marked, fun k hk hkmark => ?_⟩
      have hnek := hne k hkmark
      exact hmarked.greatest k (by omega) hkmark

theorem getLastIndexCopy_lastMark {x : Input} {j : Fin inputBuf} (junk : Word)
    (hr : x.r.toNat ≤ j.val) (hj : j.val ≤ x.e.toNat) (hmark : x.bufCopy j = ch '1')
    (he : x.e.toNat < inputBuf) :
    ∃ last, x.getLastIndexCopy junk = some last ∧ x.LastMark x.e last := by
  have hsmall : x.e.toNat < 128 := he
  exact getLastIndexCopyFrom_lastMark hr hj hmark he (show _ < 129 by omega)

theorem isCommandHistoryFrom_isSome {x : Input} (junk : Nat → Byte) {i : Word} {n j : Nat}
    (he : (x.e - 1).toNat ≤ inputBuf) (hn : (x.e - 1).toNat - i.toNat < n) :
    ∃ found, x.isCommandHistoryFrom junk n i j = some found := by
  induction n generalizing i j with
  | zero => omega
  | succ n ih =>
    rw [isCommandHistoryFrom]
    by_cases hlt : i < x.e - 1
    · have hlt' : i.toNat < (x.e - 1).toNat := hlt
      have hsucc : (i + 1).toNat = i.toNat + 1 := by bv_omega
      rw [if_pos hlt, peek_of_lt (by omega)]
      simp only [Option.bind_eq_bind, Option.bind_some]
      split
      · exact ⟨false, rfl⟩
      · exact ih (by omega)
    · exact ⟨true, if_neg hlt⟩

end Input

namespace NON

theorem numberFrom_isSome (a : Fin inputBuf → Byte) (last i num : Word)
    (hlast : last.toNat < inputBuf) (hn : last.toNat + 1 - i.toNat < n) :
    ∃ value, numberFrom a last n i num = some value := by
  induction n generalizing i num with
  | zero => omega
  | succ n ih =>
    rw [numberFrom]
    by_cases hle : i ≤ last
    · have hle' : i.toNat ≤ last.toNat := hle
      have hsmall : last.toNat < 128 := hlast
      have hsucc : (i + 1).toNat = i.toNat + 1 := by bv_omega
      rw [if_pos hle, peek_of_lt (by omega)]
      simp only [Option.bind_eq_bind, Option.bind_some]
      exact ih _ _ (by omega)
    · exact ⟨num, if_neg hle⟩

def Part (c : Byte) : Prop := isCInNumbers c ∨ isCInOperations c

instance (c : Byte) : Decidable (Part c) := inferInstanceAs (Decidable (_ ∨ _))

structure OpAt (x : Input) (non found : NON) (last : Word) (j i : Nat) : Prop where
  right : j < found.op.toNat
  left : found.op.toNat ≤ i
  parts : ∀ k : Fin inputBuf, found.op.toNat ≤ k.val → k.val ≤ i → Part (x.buf k)
  eN2 : found.eN2 = last
  signN1 : found.signN1 = non.signN1

theorem findOpFrom_eq (last : Word) (non : NON)
    (hstop : ¬ Part (x.buf j)) (hj : j.val ≤ i.toNat) (hi : i.toNat < inputBuf)
    (hn : i.toNat - j.val < n) :
    findOpFrom x last non n i = some none ∨
    ∃ found, findOpFrom x last non n i = some (some found) ∧ OpAt x non found last j.val i.toNat := by
  induction n generalizing i with
  | zero => omega
  | succ n ih =>
    have hpart : ∀ {k : Word} (hk : k.toNat < inputBuf), Part (x.buf ⟨k.toNat, hk⟩) → k.toNat ≠ j.val := by
      intro k hk hp heq
      exact hstop (by rwa [show (⟨k.toNat, hk⟩ : Fin inputBuf) = j from Fin.ext heq] at hp)
    rw [findOpFrom]
    by_cases hle : x.r ≤ i
    case neg => exact .inl (if_neg hle)
    rw [if_pos hle, peek_of_lt hi]
    simp only [Option.bind_eq_bind, Option.bind_some]
    by_cases hnum : isCInNumbers (x.buf ⟨i.toNat, hi⟩)
    · have hne := hpart hi (.inl hnum)
      have hpred : (i - 1).toNat + 1 = i.toNat := by bv_omega
      rw [if_pos hnum]
      rcases ih (i := i - 1) (by omega) (by omega) (by omega) with hnone | ⟨found, hsome, hop⟩
      · exact .inl hnone
      · refine .inr ⟨found, hsome, hop.right, by have := hop.left; omega, ?_, hop.eN2, hop.signN1⟩
        intro k hk hki
        rcases Nat.eq_or_lt_of_le hki with heq | hlt
        · rw [show k = ⟨i.toNat, hi⟩ from Fin.ext heq]
          exact .inl hnum
        · exact hop.parts k hk (by omega)
    · rw [if_neg hnum]
      by_cases hoper : isCInOperations (x.buf ⟨i.toNat, hi⟩)
      case neg => exact .inl (if_neg hoper)
      have hne := hpart hi (.inr hoper)
      have hpred : (i - 1).toNat + 1 = i.toNat := by bv_omega
      have hp : (i - 1).toNat < inputBuf := by omega
      rw [if_pos hoper, peek_of_lt hp]
      simp only [Option.bind_some]
      by_cases htwo : isCInOperations (x.buf ⟨(i - 1).toNat, hp⟩)
      · have hne' := hpart hp (.inr htwo)
        rw [if_pos htwo]
        split
        · refine .inr ⟨_, rfl, by simp only; omega, by simp only; omega, ?_, rfl, rfl⟩
          intro k hk hki
          rcases Nat.eq_or_lt_of_le hki with heq | hlt
          · rw [show k = ⟨i.toNat, hi⟩ from Fin.ext heq]
            exact .inr hoper
          · simp only at hk
            rw [show k = ⟨(i - 1).toNat, hp⟩ from Fin.ext (by simp only; omega)]
            exact .inr htwo
        · exact .inl rfl
      · rw [if_neg htwo]
        refine .inr ⟨_, rfl, by simp only; omega, Nat.le_refl _, ?_, rfl, rfl⟩
        intro k hk hki
        rw [show k = ⟨i.toNat, hi⟩ from Fin.ext (Nat.le_antisymm hki hk)]
        exact .inr hoper

inductive StartAt (x : Input) (non found : NON) (i : Nat) : Prop
  | behind (k : Fin inputBuf) : x.r.toNat ≤ k.val → k.val ≤ i → found.sN1.toNat = k.val + 1 →
      (found.signN1 → x.buf k = ch '-') →
      (∀ m : Fin inputBuf, k.val < m.val → m.val ≤ i → isCInNumbers (x.buf m)) → StartAt x non found i
  | whole : found.sN1 = x.r → found.signN1 = non.signN1 →
      (∀ m : Fin inputBuf, x.r.toNat ≤ m.val → m.val ≤ i → isCInNumbers (x.buf m)) →
      StartAt x non found i

theorem findStartFrom_eq (non : NON)
    (hstop : ¬ isCInNumbers (x.buf j)) (hj : j.val ≤ i.toNat) (hi : i.toNat < inputBuf)
    (hn : i.toNat - j.val < n) :
    ∃ found, findStartFrom x non n i = some found ∧ StartAt x non found i.toNat ∧
      found.op = non.op ∧ found.eN1 = non.op - 1 ∧ found.sN2 = non.sN2 ∧ found.eN2 = non.eN2 := by
  induction n generalizing i with
  | zero => omega
  | succ n ih =>
    rw [findStartFrom]
    by_cases hle : x.r ≤ i
    · rw [if_pos hle, peek_of_lt hi]
      simp only [Option.bind_eq_bind, Option.bind_some]
      by_cases hnum : isCInNumbers (x.buf ⟨i.toNat, hi⟩)
      · have hne : i.toNat ≠ j.val := by
          intro heq
          exact hstop (by rwa [show (⟨i.toNat, hi⟩ : Fin inputBuf) = j from Fin.ext heq] at hnum)
        have hpred : (i - 1).toNat + 1 = i.toNat := by bv_omega
        have hlast : ∀ m : Fin inputBuf, m.val ≤ i.toNat → (m.val ≤ (i - 1).toNat → isCInNumbers (x.buf m)) →
            isCInNumbers (x.buf m) := by
          intro m hm hrest
          rcases Nat.eq_or_lt_of_le hm with heq | hlt
          · rwa [show m = ⟨i.toNat, hi⟩ from Fin.ext heq]
          · exact hrest (by omega)
        rw [if_pos hnum]
        obtain ⟨found, hfound, hstart, hrest⟩ := ih (i := i - 1) (by omega) (by omega) (by omega)
        refine ⟨found, hfound, ?_, hrest⟩
        cases hstart with
        | behind k hr hk hs hsign hdigits =>
          exact .behind k hr (by omega) hs hsign fun m hm hmi => hlast m hmi (hdigits m hm)
        | whole hs hsign hdigits => exact .whole hs hsign fun m hm hmi => hlast m hmi (hdigits m hm)
      · rw [if_neg hnum]
        refine ⟨_, rfl, .behind ⟨i.toNat, hi⟩ hle (Nat.le_refl _) ?_ ?_ ?_, rfl, rfl, rfl, rfl⟩
        · have : i.toNat < 128 := hi
          show (i + 1).toNat = i.toNat + 1
          bv_omega
        · intro h
          exact eq_of_beq h
        · intro m hm hmi
          simp only at hm
          omega
    · refine ⟨_, if_neg hle, .whole rfl rfl ?_, rfl, rfl, rfl, rfl⟩
      intro m hm hmi
      exact absurd (Nat.le_trans hm hmi) hle

end NON

end Xv6
