import Xv6.Console.Edit

namespace Xv6.Console

open Function

variable {s t u : Console} {c : Byte} {k n : Nat} {junk : Junk} {i temp : Word}

def stored (s : Console) (c : Byte) : Input :=
  { s.input with
    buf := update s.input.buf (place s.cursor) c
    bufCopy := update s.input.bufCopy (place s.cursor) 0 }

inductive Round (junk : Junk) (n : Nat) (i temp : Word) (s t : Console) : Prop
  | done : ¬ i.slt temp → t = s → Round junk n i temp s t
  | outside : i.slt temp → inputBuf ≤ i.toNat → t = s.fault → Round junk n i temp s t
  | unmarked : i.slt temp → pasteFrom junk n (i + 1) temp s = some t → Round junk n i temp s t
  | lost (hi : i.toNat < inputBuf) (u : Console) : i.slt temp →
      s.input.bufCopy ⟨i.toNat, hi⟩ = ch '1' →
      s.consputc (.char (s.input.buf ⟨i.toNat, hi⟩)) = some u →
      (u.stored (s.input.buf ⟨i.toNat, hi⟩)).getLastIndexCopy junk.ret = none → t = u.fault →
      Round junk n i temp s t
  | pasted (hi : i.toNat < inputBuf) (u : Console) (i' temp' : Word) : i.slt temp →
      s.input.bufCopy ⟨i.toNat, hi⟩ = ch '1' →
      s.consputc (.char (s.input.buf ⟨i.toNat, hi⟩)) = some u →
      i' = i + 1 ∨ i' = i + 2 → temp' = temp ∨ temp' = temp + 1 →
      pasteFrom junk n i' temp' { u with input :=
        { u.stored (s.input.buf ⟨i.toNat, hi⟩) with e := u.input.e + 1 } } = some t →
      Round junk n i temp s t

theorem pasteFrom_succ (h : pasteFrom junk (n + 1) i temp s = some t) :
    Round junk n i temp s t := by
  rw [pasteFrom] at h
  by_cases hlt : i.slt temp
  case neg =>
    rw [if_neg hlt] at h
    exact .done hlt (Option.some.inj h).symm
  rw [if_pos hlt] at h
  by_cases hi : i.toNat < inputBuf
  case neg =>
    rw [peek, dif_neg hi] at h
    exact .outside hlt (Nat.le_of_not_lt hi) (Option.some.inj h).symm
  rw [peek_of_lt hi, peek_of_lt hi] at h
  simp only at h
  by_cases hmark : s.input.bufCopy ⟨i.toNat, hi⟩ = ch '1'
  case neg =>
    rw [if_neg hmark] at h
    exact .unmarked hlt h
  rw [if_pos hmark] at h
  obtain ⟨u, hu, hrest⟩ := Option.bind_eq_some_iff.mp h
  cases hlast : (u.stored (s.input.buf ⟨i.toNat, hi⟩)).getLastIndexCopy junk.ret with
  | none =>
    have hfault := hlast
    simp only [stored] at hfault
    simp only [hfault] at hrest
    exact .lost hi u hlt hmark hu hlast (Option.some.inj hrest).symm
  | some last =>
    simp only [stored] at hlast
    simp only [hlast] at hrest
    refine .pasted hi u _ _ hlt hmark hu ?_ ?_ hrest
    · split
      · exact .inr (by rw [BitVec.add_assoc]; rfl)
      · exact .inl rfl
    · split
      · exact .inr rfl
      · exact .inl rfl

theorem pasteFrom_e_le (hn : s.input.e.toNat + n < 2 ^ 32)
    (h : pasteFrom junk n i temp s = some t) : s.input.e.toNat ≤ t.input.e.toNat := by
  induction n generalizing s i temp with
  | zero =>
    cases h
    exact Nat.le_refl _
  | succ n ih =>
    cases pasteFrom_succ h with
    | done _ ht => rw [ht]
    | outside _ _ ht =>
      rw [ht]
      exact Nat.le_refl _
    | unmarked _ hrest => exact ih (by omega) hrest
    | lost _ u _ _ hu _ ht =>
      rw [ht, ← consputc_char_e hu]
      exact Nat.le_refl _
    | pasted _ u _ _ _ _ hu _ _ hrest =>
      have hsame := consputc_char_e hu
      have hsucc : (s.input.e + 1).toNat = s.input.e.toNat + 1 := by bv_omega
      rw [hsame] at hrest
      have hle := ih (by simp only; omega) hrest
      simp only at hle
      omega

theorem exists_mark (hl : s.lefts.toNat ≤ s.input.e.toNat) (he : s.input.e.toNat < 127)
    (hi : i.toNat < inputBuf) (hie : i.toNat < s.input.e.toNat)
    (hmark : s.input.bufCopy ⟨i.toNat, hi⟩ = ch '1') (h : s.consputc (.char c) = some u) :
    ∃ j : Fin inputBuf, i.toNat ≤ j.val ∧ j.val ≤ u.input.e.toNat ∧
      (u.stored c).bufCopy j = ch '1' := by
  obtain ⟨screen, rfl⟩ := consputc_char h
  have hcursor := cursor_toNat hl
  by_cases hc : c = ch '\n'
  · have hplace := place_of_lt (i := s.input.e) (show _ < 128 by omega)
    refine ⟨⟨i.toNat, hi⟩, Nat.le_refl _, ?_, ?_⟩
    · rw [echo, if_pos hc]
      exact Nat.le_of_lt hie
    · rw [echo, if_pos hc]
      show update s.input.bufCopy (place (s.input.e - 0#32)) 0 _ = _
      rw [BitVec.sub_zero, hplace, update_of_ne (Fin.ne_of_val_ne (by simp only; omega)),
        hmark]
  · have hplace := place_of_lt (i := s.cursor) (show _ < 128 by omega)
    have hsucc : (s.input.e + 1).toNat = s.input.e.toNat + 1 := by bv_omega
    rw [echo_eq hl he hc]
    by_cases hbefore : i.toNat < s.cursor.toNat
    · refine ⟨⟨i.toNat, hi⟩, Nat.le_refl _, Nat.le_of_lt hie, ?_⟩
      show update (opened s.cursor.toNat (s.input.e + 1).toNat s.input.bufCopy)
        (place s.cursor) 0 _ = _
      rw [hplace, update_of_ne (Fin.ne_of_val_ne (by simp only; omega)),
        opened_of_le _ (by simp only; omega), hmark]
    · have hk : i.toNat + 1 < 128 := by omega
      refine ⟨⟨i.toNat + 1, hk⟩, Nat.le_succ _, hie, ?_⟩
      show update (opened s.cursor.toNat (s.input.e + 1).toNat s.input.bufCopy)
        (place s.cursor) 0 _ = _
      rw [hplace, update_of_ne (Fin.ne_of_val_ne (by simp only; omega)),
        opened_succ (j := ⟨i.toNat, hi⟩) _ (by simp only; omega) rfl (by simp only; omega), hmark]

theorem slt_iff_of_small {a b : Word} (ha : a.toNat < 1000) (hb : b.toNat < 1000) :
    a.slt b ↔ a.toNat < b.toNat := by
  rw [BitVec.slt_iff_toInt_lt, BitVec.toInt_eq_toNat_of_lt (by omega),
    BitVec.toInt_eq_toNat_of_lt (by omega)]
  omega

theorem Edit.store (hedit : Edit k s t) (he : t.input.e.toNat < 127) :
    Edit k s { t with input := { t.stored c with e := t.input.e + 1 } } := by
  have hcur := hedit.cursor
  have hcursor := cursor_toNat (s := t) (by omega)
  have hplace := place_of_lt (i := t.cursor) (show _ < 128 by omega)
  have hsucc : (t.input.e + 1).toNat = t.input.e.toNat + 1 := by bv_omega
  refine ⟨hedit.r, hedit.w, hedit.history, hedit.oob, ?_, by simp only; omega⟩
  intro j hj
  show update t.input.buf (place t.cursor) c j = _
  rw [hplace, update_of_ne (Fin.ne_of_val_ne (by simp only; omega)), hedit.text j hj]

theorem Edit.pasteFrom (hi : i.toNat ≤ 128) (hn : 128 < i.toNat + n)
    (hr : s.input.r.toNat ≤ i.toNat) (htemp : temp.toNat ≤ s.input.e.toNat)
    (hcursor : k + s.lefts.toNat ≤ s.input.e.toNat) (he : s.input.e.toNat < 128)
    (hend : t.input.e.toNat < 127) (hsmall : n < 1000)
    (h : Console.pasteFrom junk n i temp s = some t) : Edit k s t := by
  induction n generalizing s i temp with
  | zero => omega
  | succ n ih =>
    have he' : s.input.e.toNat < 127 := by
      have := pasteFrom_e_le (by omega) h
      omega
    have hlt := slt_iff_of_small (a := i) (b := temp) (by omega) (by omega)
    cases pasteFrom_succ h with
    | done _ ht =>
      subst ht
      exact .refl hcursor
    | outside hslt hout _ =>
      have hslt' := hlt.mp hslt
      have : 128 ≤ i.toNat := hout
      omega
    | unmarked hslt hrest =>
      have hslt' := hlt.mp hslt
      have hsucc : (i + 1).toNat = i.toNat + 1 := by bv_omega
      exact ih (by omega) (by omega) (by omega) htemp hcursor he (by omega) hrest
    | lost hlt128 u hslt hmark hu hnone _ =>
      have hslt' := hlt.mp hslt
      obtain ⟨hedit, -⟩ := Edit.put hcursor he' hu
      have hsame := consputc_char_e hu
      obtain ⟨j, hij, hj, hfound⟩ := exists_mark (by omega) he' hlt128 (by omega) hmark hu
      have hread : u.input.r.toNat ≤ j.val := by
        rw [hedit.r]
        omega
      have hin : u.input.e.toNat < 128 := by
        rw [hsame]
        exact he
      obtain ⟨last, hlast, -⟩ := Input.getLastIndexCopy_lastMark (x := u.stored _) junk.ret hread
        hj hfound hin
      rw [hnone] at hlast
      cases hlast
    | pasted hlt128 u i' temp' hslt hmark hu hi' htemp' hrest =>
      have hslt' := hlt.mp hslt
      obtain ⟨hedit, -⟩ := Edit.put hcursor he' hu
      have hsame := consputc_char_e hu
      have hstore := hedit.store (c := s.input.buf ⟨i.toNat, hlt128⟩) (by rw [hsame]; exact he')
      have hsucc : (s.input.e + 1).toNat = s.input.e.toNat + 1 := by bv_omega
      rw [hsame] at hrest hstore
      have hnext : i.toNat + 1 ≤ i'.toNat ∧ i'.toNat ≤ i.toNat + 2 := by
        rcases hi' with rfl | rfl <;> bv_omega
      have hbound : temp'.toNat ≤ temp.toNat + 1 := by
        rcases htemp' with rfl | rfl <;> bv_omega
      have hread : s.input.r.toNat ≤ i'.toNat := by omega
      rw [← hstore.r] at hread
      refine hstore.trans (ih ?_ ?_ hread ?_ hstore.cursor ?_ (by omega) hrest)
      · omega
      · omega
      · simp only
        omega
      · simp only
        omega

end Xv6.Console
