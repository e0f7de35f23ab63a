import Mathlib.Data.List.GetD
import Xv6.Console.Recall

namespace Xv6

open Lib

def historyText : List Byte := "history".toList.map ch

theorem histByte_of_lt (h : j < 7) :
    Input.histByte junk j = historyText.getD j 0 := by
  have hlen : j < historyText.length := h
  exact (List.getD_eq_getElem _ _ hlen).trans (List.getD_eq_getElem _ _ hlen).symm

theorem histByte_of_le (h : 7 ≤ j) : Input.histByte junk j = junk j :=
  List.getD_eq_default _ _ h

namespace Input

variable {x : Input} {junk : Nat → Byte} {n j : Nat} {i : Word}

def text (x : Input) : List Byte := slice x.byteAt x.w.toNat (x.e.toNat - 1)

theorem peek_eq (h : i.toNat < inputBuf) : peek x.buf i = some (x.byteAt i.toNat) := by
  rw [peek, dif_pos h, byteAt_of_lt h]

/-! The loop, by what it meets: a byte that differs, or none up to the end of the line or of the
array. -/

theorem isCommandHistoryFrom_of_differs (hpos : 0 < x.e.toNat) (hfuel : inputBuf < i.toNat + n)
    (hend : i.toNat + k < x.e.toNat - 1) (hin : i.toNat + k < inputBuf)
    (hne : x.byteAt (i.toNat + k) ≠ histByte junk (j + k)) :
    x.isCommandHistoryFrom junk n i j = some false := by
  have hpred : (x.e - 1).toNat = x.e.toNat - 1 := by bv_omega
  induction n generalizing i j k with
  | zero => omega
  | succ n ih =>
    have hlt : i < x.e - 1 := show i.toNat < (x.e - 1).toNat by omega
    rw [isCommandHistoryFrom, if_pos hlt, peek_eq (by omega)]
    simp only [Option.bind_eq_bind, Option.bind_some]
    by_cases hhere : x.byteAt i.toNat = histByte junk j
    · obtain ⟨k, rfl⟩ : ∃ k', k = k' + 1 := by
        refine Nat.exists_eq_succ_of_ne_zero fun hzero => hne ?_
        subst hzero
        exact hhere
      have hsucc : (i + 1).toNat = i.toNat + 1 := by
        have := x.e.isLt
        bv_omega
      rw [if_neg (not_not_intro hhere)]
      refine ih (k := k) (by omega) (by omega) (by omega) ?_
      rwa [hsucc, Nat.add_assoc, Nat.add_assoc, Nat.add_comm 1 k]
    · rw [if_pos hhere]

theorem isCommandHistoryFrom_of_matches (hpos : 0 < x.e.toNat) (hfuel : inputBuf < i.toNat + n)
    (hn : 0 < n)
    (h : ∀ k, i.toNat + k < x.e.toNat - 1 → i.toNat + k < inputBuf →
      x.byteAt (i.toNat + k) = histByte junk (j + k)) :
    x.isCommandHistoryFrom junk n i j =
      if x.e.toNat - 1 ≤ max inputBuf i.toNat then some true else none := by
  have hpred : (x.e - 1).toNat = x.e.toNat - 1 := by bv_omega
  induction n generalizing i j with
  | zero => omega
  | succ n ih =>
    rw [isCommandHistoryFrom]
    by_cases hlt : i.toNat < x.e.toNat - 1
    · have hlt' : i < x.e - 1 := show i.toNat < (x.e - 1).toNat by omega
      rw [if_pos hlt']
      by_cases hin : i.toNat < inputBuf
      · have hsucc : (i + 1).toNat = i.toNat + 1 := by
          have := x.e.isLt
          bv_omega
        rw [peek_eq hin]
        simp only [Option.bind_eq_bind, Option.bind_some]
        have hhere : x.byteAt i.toNat = histByte junk j := h 0 hlt hin
        rw [if_neg (not_not_intro hhere), ih (by omega) (by omega), hsucc]
        · rw [Nat.max_eq_left hin, Nat.max_eq_left (Nat.le_of_lt hin)]
        · intro k hend hbuf
          rw [hsucc] at hend hbuf ⊢
          have hnext := h (k + 1) (by omega) (by omega)
          rwa [Nat.add_assoc, Nat.add_assoc, Nat.add_comm 1 k]
      · rw [peek, dif_neg hin, if_neg (by omega)]
        rfl
    · have hlt' : ¬ i < x.e - 1 := fun hlt' => hlt (hpred ▸ hlt')
      rw [if_neg hlt', if_pos (by omega)]

def Differs (x : Input) : Prop :=
  ∃ j < 7, x.r.toNat + j < x.e.toNat - 1 ∧ x.r.toNat + j < inputBuf ∧
    x.byteAt (x.r.toNat + j) ≠ historyText.getD j 0

instance (x : Input) : Decidable x.Differs := inferInstanceAs (Decidable (∃ j < 7, _))

def Recognises (x : Input) : Prop :=
  ∀ junk, x.isCommandHistory junk = some (decide (x.text = historyText))

theorem isCommandHistory_of_differs (hpos : 0 < x.e.toNat) (h : x.Differs) (junk : Nat → Byte) :
    x.isCommandHistory junk = some false := by
  obtain ⟨j, hj, hend, hin, hne⟩ := h
  refine isCommandHistoryFrom_of_differs (k := j) hpos (Nat.lt_add_left _ (by decide)) hend hin ?_
  rwa [Nat.zero_add, histByte_of_lt hj]

theorem isCommandHistory_of_not_differs (hpos : 0 < x.e.toNat) (h : ¬ x.Differs) :
    x.isCommandHistory (fun j => x.byteAt (x.r.toNat + j)) =
      if x.e.toNat - 1 ≤ max inputBuf x.r.toNat then some true else none := by
  refine isCommandHistoryFrom_of_matches hpos (Nat.lt_add_left _ (by decide)) (by decide) ?_
  intro k hend hin
  rw [Nat.zero_add]
  by_cases hk : k < 7
  · rw [histByte_of_lt hk]
    by_contra hne
    exact h ⟨k, hk, hend, hin, hne⟩
  · rw [histByte_of_le (by omega)]

theorem isCommandHistory_of_longer (hpos : 0 < x.e.toNat) (hend : x.r.toNat + 7 < x.e.toNat - 1)
    (hin : x.r.toNat + 7 < inputBuf) :
    x.isCommandHistory (fun j => x.byteAt (x.r.toNat + j) + 1) = some false := by
  refine isCommandHistoryFrom_of_differs (k := 7) hpos (Nat.lt_add_left _ (by decide)) hend hin ?_
  rw [histByte_of_le (by omega)]
  exact fun h => absurd h (by simp)

theorem recognises_iff (x : Input) (hr : x.r.toNat ≤ x.w.toNat) (hw : x.w.toNat < x.e.toNat) :
    x.Recognises ↔ (x.r = x.w ∧ x.text = historyText ∧ x.r.toNat + 7 ≤ inputBuf) ∨
      (x.text ≠ historyText ∧ x.Differs) := by
  have hpos : 0 < x.e.toNat := by omega
  have hlen : x.text = historyText → x.e.toNat - 1 - x.w.toNat = 7 := fun htext => by
    have hlength := congrArg List.length htext
    rwa [text, length_slice] at hlength
  constructor
  · intro h
    by_cases hdiff : x.Differs
    · have hfalse := (isCommandHistory_of_differs hpos hdiff fun _ => 0).symm.trans (h _)
      exact .inr ⟨of_decide_eq_false (Option.some.inj hfalse).symm, hdiff⟩
    · have htrue := (isCommandHistory_of_not_differs hpos hdiff).symm.trans (h _)
      split at htrue
      · rename_i hin
        have htext : x.text = historyText := of_decide_eq_true (Option.some.inj htrue).symm
        have hseven := hlen htext
        have hshort : ¬ x.r.toNat + 7 < x.e.toNat - 1 := fun hlong => by
          have hfalse := (isCommandHistory_of_longer hpos hlong (by omega)).symm.trans (h _)
          exact of_decide_eq_false (Option.some.inj hfalse).symm htext
        exact .inl ⟨BitVec.eq_of_toNat_eq (by omega), htext, by omega⟩
      · cases htrue
  · rintro (⟨hread, htext, hin⟩ | ⟨htext, hdiff⟩) junk
    · have hseven := hlen htext
      have hread' : x.r.toNat = x.w.toNat := congrArg BitVec.toNat hread
      rw [decide_eq_true htext]
      refine (isCommandHistoryFrom_of_matches hpos (Nat.lt_add_left _ (by decide)) (by decide) ?_).trans
        (if_pos (by omega))
      intro k hend _
      rw [Nat.zero_add, histByte_of_lt (by omega), ← htext, hread]
      have hk : k < x.text.length := by
        rw [text, length_slice]
        omega
      rw [List.getD_eq_getElem _ _ hk]
      simp [text, slice]
    · rw [decide_eq_false htext]
      exact isCommandHistory_of_differs hpos hdiff junk

def entered (bs : List Byte) : Input where
  __ := zero
  buf := fun j => (bs ++ [ch '\n']).getD j.val 0
  e := BitVec.ofNat 32 (bs.length + 1)

theorem recognises_history : (entered historyText).Recognises :=
  (recognises_iff (entered historyText) (by decide) (by decide)).mpr
    (.inl ⟨rfl, by decide, by decide⟩)

theorem isCommandHistory_empty :
    (entered []).isCommandHistory (fun _ => 0) = some true ∧ (entered []).text = [] := by
  decide

end Input

end Xv6
