import Xv6.Console.Edit

namespace Xv6

def Ends (c : Byte) : Prop := c = ch '\n' ∨ c = ctrl 'D'

theorem Ends.not_part (h : Ends c) : ¬ NON.Part c := by
  rcases h with rfl | rfl <;> exact not_or.mpr ⟨by decide, by decide⟩

theorem Ends.ne_equals (h : Ends c) : c ≠ ch '=' := by
  rcases h with rfl | rfl <;> decide

namespace NON

def first (non : NON) : Word := if non.signN1 then non.sN1 - 1 else non.sN1

/-- An expression before the `?` at `cur`.  It does not reach back into the committed part of the
line, except that the byte before the line counts as its sign if the last expression had one. -/
structure Found (x : Input) (non : NON) (cur : Nat) : Prop where
  eN1 : non.eN1.toNat < inputBuf
  eN2 : non.eN2.toNat + 2 = cur
  op : non.op.toNat < inputBuf
  first_le : non.first.toNat ≤ cur
  le_first : x.w.toNat ≤ non.first.toNat + 1
  unread : x.r.toNat < x.w.toNat → x.w.toNat ≤ non.first.toNat

theorem first_of_sN1 {non : NON} {k : Nat} (h : non.sN1.toNat = k + 1) :
    non.first.toNat = if non.signN1 then k else k + 1 := by
  unfold first
  split
  · bv_omega
  · exact h

variable {x : Input} {non found : NON} {cur j : Nat} {last : Word}

theorem OpAt.part (h : OpAt x non found last j (cur - 3))
    (hdigit : ∀ k : Fin inputBuf, k.val + 1 = found.op.toNat → isCInNumbers (x.buf k))
    (hlast : ∀ k : Fin inputBuf, k.val + 2 = cur → isCInNumbers (x.buf k))
    (hk : found.op.toNat ≤ k.val + 1) (hk' : k.val + 2 ≤ cur) : Part (x.buf k) := by
  by_cases hbefore : k.val + 1 = found.op.toNat
  · exact .inl (hdigit k hbefore)
  by_cases hend : k.val + 2 = cur
  · exact .inl (hlast k hend)
  · exact h.parts k (by omega) (by omega)

theorem le_of_text
    (htext : ∀ k : Fin inputBuf, lo ≤ k.val → k.val < cur → Part (x.buf k) ∨ x.buf k = ch '=')
    (hended : ∀ k : Fin inputBuf, k.val + 1 = x.w.toNat → Ends (x.buf k)) (hw : x.w.toNat ≤ cur)
    (hcur : cur < inputBuf) : x.w.toNat ≤ lo := by
  by_contra hlt
  have hends := hended ⟨x.w.toNat - 1, by omega⟩ (by simp only; omega)
  rcases htext ⟨x.w.toNat - 1, by omega⟩ (by simp only; omega) (by simp only; omega) with
    hpart | hequals
  · exact hends.not_part hpart
  · exact hends.ne_equals hequals

theorem StartAt.bounds (hstart : StartAt x non found (found.op.toNat - 2))
    (htext : ∀ k : Fin inputBuf, found.op.toNat ≤ k.val + 1 → k.val < cur →
      Part (x.buf k) ∨ x.buf k = ch '=')
    (hj : ∃ k : Fin inputBuf, k.val + 2 ≤ found.op.toNat ∧ ¬ Part (x.buf k))
    (hop : found.op.toNat ≤ cur) (hcur : cur < inputBuf) (hr : x.r.toNat ≤ x.w.toNat)
    (hw : x.w.toNat ≤ cur)
    (hended : x.r.toNat < x.w.toNat → ∀ k : Fin inputBuf, k.val + 1 = x.w.toNat → Ends (x.buf k)) :
    found.first.toNat ≤ cur ∧ x.w.toNat ≤ found.first.toNat + 1 ∧
      (x.r.toNat < x.w.toNat → x.w.toNat ≤ found.first.toNat) := by
  obtain ⟨j, hjop, hpart⟩ := hj
  cases hstart with
  | behind k hrk hk hs hsign hdigits =>
    have htext' : ∀ m : Fin inputBuf, k.val < m.val → m.val < cur →
        Part (x.buf m) ∨ x.buf m = ch '=' := by
      intro m hm hmcur
      by_cases hmop : found.op.toNat ≤ m.val + 1
      · exact htext m hmop hmcur
      · exact .inl (.inl (hdigits m hm (by omega)))
    rw [first_of_sN1 hs]
    cases hneg : found.signN1 with
    | false =>
      simp only [Bool.false_eq_true, if_false]
      have hcommitted : x.r.toNat < x.w.toNat → x.w.toNat ≤ k.val + 1 := fun hlt =>
        le_of_text htext' (hended hlt) hw hcur
      exact ⟨by omega, by omega, hcommitted⟩
    | true =>
      simp only [if_true]
      have htext'' : ∀ m : Fin inputBuf, k.val ≤ m.val → m.val < cur →
          Part (x.buf m) ∨ x.buf m = ch '=' := by
        intro m hm hmcur
        rcases Nat.eq_or_lt_of_le hm with heq | hlt
        · rw [← show k = m from Fin.ext heq, hsign hneg]
          exact .inl (.inr (by decide))
        · exact htext' m hlt hmcur
      have hcommitted : x.r.toNat < x.w.toNat → x.w.toNat ≤ k.val := fun hlt =>
        le_of_text htext'' (hended hlt) hw hcur
      exact ⟨by omega, by omega, hcommitted⟩
  | whole hs hsign hdigits =>
    have htext' : ∀ m : Fin inputBuf, x.r.toNat ≤ m.val → m.val < cur →
        Part (x.buf m) ∨ x.buf m = ch '=' := by
      intro m hm hmcur
      by_cases hmop : found.op.toNat ≤ m.val + 1
      · exact htext m hmop hmcur
      · exact .inl (.inl (hdigits m hm (by omega)))
    have hnone : ¬ x.r.toNat < x.w.toNat := fun hlt =>
      Nat.not_le_of_lt hlt (le_of_text htext' (hended hlt) hw hcur)
    -- The byte that stopped the search lies before the read index, so the line is not at the
    -- very start of the buffer and the sign that counts too much is a byte of it.
    have hpos : 0 < x.r.toNat := by
      by_contra hzero
      exact hpart (.inl (hdigits j (by omega) (by omega)))
    have hfirst : found.first.toNat = x.r.toNat ∨ found.first.toNat + 1 = x.r.toNat := by
      unfold first
      rw [hs]
      split
      · exact .inr (by bv_omega)
      · exact .inl rfl
    exact ⟨by omega, by omega, fun hlt => absurd hlt hnone⟩

theorem Found.values (h : Found x found cur) (hcur : cur < 127) :
    ∃ op num1 num2, found.values x = some (op, num1, num2) := by
  have h1 : found.eN1.toNat < 128 := h.eN1
  have h2 := h.eN2
  obtain ⟨num1, hnum1⟩ := numberFrom_isSome x.buf found.eN1 found.sN1 0
    (n := Input.rounds) h.eN1 (show _ < 129 by omega)
  obtain ⟨num2, hnum2⟩ := numberFrom_isSome x.buf found.eN2 found.sN2 0
    (n := Input.rounds) (show _ < 128 by omega) (show _ < 129 by omega)
  unfold NON.values
  rw [hnum1, hnum2, peek_of_lt h.op]
  exact ⟨_, _, _, rfl⟩

variable (hcur : cur < 127) (hr : x.r.toNat ≤ x.w.toNat) (hw : x.w.toNat ≤ cur)
  (hended : x.r.toNat < x.w.toNat → ∀ k : Fin inputBuf, k.val + 1 = x.w.toNat → Ends (x.buf k))

include hcur hr hw hended

theorem checkFirst_eq {j : Fin inputBuf} (hop : OpAt x non found last j.val (cur - 3))
    (hlast : last.toNat + 2 = cur) (hpart : ¬ Part (x.buf j)) (hthree : 3 ≤ cur)
    (hdigit : ∀ k : Fin inputBuf, k.val + 2 = cur → isCInNumbers (x.buf k))
    (hequals : ∀ k : Fin inputBuf, k.val + 1 = cur → x.buf k = ch '=') :
    ∃ answer result, checkFirst x found = some (answer, result) ∧
      (answer → Found x result cur) := by
  have hleft := hop.left
  have hright := hop.right
  have hpred : (found.op - 1).toNat + 1 = found.op.toNat := by bv_omega
  have hlt : (found.op - 1).toNat < 128 := by omega
  unfold checkFirst
  rw [peek_of_lt hlt]
  simp only [Option.bind_eq_bind, Option.bind_some]
  by_cases hbefore : isCInNumbers (x.buf ⟨(found.op - 1).toNat, hlt⟩)
  case neg => exact ⟨false, found, if_pos hbefore, by simp⟩
  have hjop : j.val + 2 ≤ found.op.toNat := by
    by_contra hge
    apply hpart
    rw [show j = ⟨(found.op - 1).toNat, hlt⟩ from Fin.ext (by simp only; omega)]
    exact .inl hbefore
  have hpred2 : (found.op - 2).toNat = found.op.toNat - 2 := by bv_omega
  obtain ⟨result, hresult, hstart, hsameOp, heN1, -, heN2⟩ := findStartFrom_eq found
    (x := x) (n := Input.rounds) (i := found.op - 2) (j := j) (fun h => hpart (.inl h))
    (by omega) (show _ < 128 by omega) (show _ < 129 by omega)
  rw [if_neg (not_not.mpr hbefore), hresult]
  refine ⟨true, result, rfl, fun _ => ?_⟩
  rw [hpred2, ← hsameOp] at hstart
  have htext : ∀ k : Fin inputBuf, result.op.toNat ≤ k.val + 1 → k.val < cur →
      Part (x.buf k) ∨ x.buf k = ch '=' := by
    intro k hk hkcur
    rw [hsameOp] at hk
    by_cases hend : k.val + 1 = cur
    · exact .inr (hequals k hend)
    · refine .inl (hop.part ?_ hdigit hk (by omega))
      intro m hm
      rwa [show m = ⟨(found.op - 1).toNat, hlt⟩ from Fin.ext (by simp only; omega)]
  obtain ⟨hle, hge, hunread⟩ := hstart.bounds htext ⟨j, by rw [hsameOp]; exact hjop, hpart⟩
    (by rw [hsameOp]; omega) (show _ < 128 by omega) hr hw hended
  refine ⟨by rw [heN1]; exact hlt, by rw [heN2, hop.eN2]; exact hlast, ?_, hle, hge, hunread⟩
  rw [hsameOp]
  show _ < 128
  omega

theorem checkNONPattern_eq {lefts : Word} (non : NON) (hcursor : (x.e - lefts).toNat = cur + 1)
    (hpos : 0 < cur)
    (hstop : ∀ k : Fin inputBuf, k.val + 1 = cur → x.buf k = ch '=' →
      ∃ j : Fin inputBuf, j.val + 1 < cur ∧ ¬ Part (x.buf j)) :
    ∃ answer found, checkNONPattern x lefts non = some (answer, found) ∧
      (answer → Found x found cur) := by
  have h2 : (x.e - lefts - 2).toNat = cur - 1 := by bv_omega
  have hlt2 : (x.e - lefts - 2).toNat < 128 := by omega
  unfold checkNONPattern
  rw [peek_of_lt hlt2]
  simp only [Option.bind_eq_bind, Option.bind_some]
  by_cases hequals : x.buf ⟨(x.e - lefts - 2).toNat, hlt2⟩ = ch '='
  case neg => exact ⟨false, non, if_pos hequals, by simp⟩
  obtain ⟨j, hj, hpart⟩ := hstop _ (by simp only; omega) hequals
  have h3 : (x.e - lefts - 3).toNat = cur - 2 := by bv_omega
  have hlt3 : (x.e - lefts - 3).toNat < 128 := by omega
  rw [if_neg (not_not.mpr hequals), peek_of_lt hlt3]
  simp only [Option.bind_some]
  by_cases hdigit : isCInNumbers (x.buf ⟨(x.e - lefts - 3).toNat, hlt3⟩)
  case neg => exact ⟨false, non, if_pos hdigit, by simp⟩
  have hj' : j.val + 2 < cur := by
    by_contra hge
    apply hpart
    rw [show j = ⟨(x.e - lefts - 3).toNat, hlt3⟩ from Fin.ext (by simp only; omega)]
    exact .inl hdigit
  have h4 : (x.e - lefts - 4).toNat = cur - 3 := by bv_omega
  rw [if_neg (not_not.mpr hdigit)]
  rcases findOpFrom_eq (x.e - lefts - 3) non (n := Input.rounds) hpart
      (i := x.e - lefts - 4) (by omega) (show _ < 128 by omega) (show _ < 129 by omega) with
    hnone | ⟨found, hfound, hop⟩
  · exact ⟨false, non, by rw [hnone]; rfl, by simp⟩
  rw [hfound]
  rw [h4] at hop
  refine checkFirst_eq hcur hr hw hended hop (by omega) hpart (by omega) ?_ ?_
  · intro k hk
    rwa [show k = ⟨(x.e - lefts - 3).toNat, hlt3⟩ from Fin.ext (by simp only; omega)]
  · intro k hk
    rwa [show k = ⟨(x.e - lefts - 2).toNat, hlt2⟩ from Fin.ext (by simp only; omega)]

end NON

end Xv6
