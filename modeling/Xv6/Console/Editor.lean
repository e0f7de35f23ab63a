import Xv6.Console.Bounds
import Xv6.Lib.Zipper

namespace Xv6

open Lib

structure Editor extends Zipper Byte where
  lines : List (List Byte)

namespace Editor

def empty : Editor := ⟨.empty, []⟩

def press (z : Editor) (c : Byte) : Editor :=
  match Console.Key.of c with
  | .kill => { z with toZipper := .empty }
  | .backspace => { z with toZipper := z.delete }
  | .left => { z with toZipper := z.moveLeft }
  | .right => { z with toZipper := z.moveRight }
  | _ =>
    if c = ch '\n' ∨ c = ch '\r' then ⟨.empty, z.lines ++ [z.left ++ z.right ++ [ch '\n']]⟩
    else { z with toZipper := z.insert c }

def OneLine (z : Editor) : Prop := ∀ c ∈ z.left ++ z.right, c ≠ ch '\n'

theorem OneLine.delete {z : Editor} (h : z.OneLine) : OneLine { z with toZipper := z.delete } := by
  intro d hd
  rcases List.mem_append.mp hd with hd | hd
  · exact h d (List.mem_append_left _ (List.dropLast_subset _ hd))
  · exact h d (List.mem_append_right _ hd)

theorem OneLine.press {z : Editor} (h : z.OneLine) (c : Byte) : (z.press c).OneLine := by
  unfold Editor.press
  split
  · intro d hd
    cases hd
  · exact h.delete
  · intro d hd
    exact h d (Zipper.moveLeft_all (z := z.toZipper) ▸ hd)
  · intro d hd
    exact h d (Zipper.moveRight_all (z := z.toZipper) ▸ hd)
  · split
    · intro d hd
      cases hd
    · rename_i hc
      intro d hd
      simp only [Zipper.insert, List.append_assoc, List.mem_append, List.mem_singleton] at hd
      rcases hd with hd | rfl | hd
      · exact h d (List.mem_append_left _ hd)
      · exact fun hnewline => hc (.inl hnewline)
      · exact h d (List.mem_append_right _ hd)

end Editor

namespace Console

variable {s t u : Console} {c : Byte} {k n start : Nat} {z : Editor} {junk : Junk} {fp : Arith}

/-- The keys of a line editor: all but `^D`, `^F`, `^P`, `^S`, the two that go through the history,
and `?`. -/
def Edits (c : Byte) : Prop :=
  c ∉ [0, ctrl 'D', ctrl 'F', ctrl 'P', ctrl 'S', 0xe2, 0xe3, ch '?']

instance (c : Byte) : Decidable (Edits c) := inferInstanceAs (Decidable (¬ _))

theorem Edits.key (hc : Edits c) : Key.of c = .kill ∨ Key.of c = .backspace ∨ Key.of c = .left ∨
    Key.of c = .right ∨ Key.of c = .other := by
  simp only [Edits, List.mem_cons, List.not_mem_nil, not_or, or_false] at hc
  obtain ⟨-, -, -, hlist, hcopy, hup, hdown, -⟩ := hc
  unfold Key.of
  rw [if_neg hlist, if_neg hcopy, if_neg hup, if_neg hdown]
  split_ifs <;> simp

structure Shows (start : Nat) (s : Console) (z : Editor) : Prop where
  inRange : s.oob = false
  read : s.input.r.toNat ≤ s.input.w.toNat
  start_le : start ≤ s.input.w.toNat
  line : z.In s.input.byteAt s.input.w.toNat s.cursor.toNat s.input.e.toNat
  lines : slice s.input.byteAt start s.input.w.toNat = z.lines.flatten

theorem slt_zero (h : i.toNat < 2 ^ 31) : (0 : Word).slt i ↔ 0 < i.toNat := by
  rw [BitVec.slt_iff_toInt_lt, BitVec.toInt_eq_toNat_of_lt (x := i) (by omega)]
  exact Int.natCast_pos

theorem insert_right (hl : s.lefts.toNat ≤ s.input.e.toNat) (he : s.input.e.toNat < 127)
    (hc : c ≠ ch '\n') (h : s.insert c = some t) (hi : s.cursor.toNat ≤ i)
    (hi' : i < s.input.e.toNat) : t.input.byteAt (i + 1) = s.input.byteAt i := by
  have hcursor := cursor_toNat hl
  obtain ⟨u, hu, rfl⟩ := Option.map_eq_some_iff.mp h
  obtain ⟨screen, rfl⟩ := consputc_char hu
  rw [Input.byteAt_of_lt (show _ < 128 by omega), Input.byteAt_of_lt (show _ < 128 by omega)]
  have hsucc : (s.input.e + 1).toNat = s.input.e.toNat + 1 := by bv_omega
  simp only [echo_eq hl he hc, cursor]
  have hplace := place_of_lt (i := s.cursor) (show _ < 128 by omega)
  rw [Function.update_of_ne]
  · exact opened_succ _ hi rfl (by simp only; omega)
  · change _ ≠ place s.cursor
    rw [hplace]
    exact Fin.ne_of_val_ne (by simp only; omega)

theorem backspace_right (hl : s.lefts.toNat < s.input.e.toNat) (he : s.input.e.toNat < 127)
    (h : s.consputc .backspace = some t) (hi : s.cursor.toNat ≤ i)
    (hi' : i < s.input.e.toNat) : t.input.byteAt (i - 1) = s.input.byteAt i := by
  have hcursor := cursor_toNat (Nat.le_of_lt hl)
  have hbehind := behind_toNat hl
  have hpred : (s.input.e - 1).toNat + 1 = s.input.e.toNat := by bv_omega
  obtain ⟨screen, rfl⟩ := consputc_backspace h
  rw [Input.byteAt_of_lt (show _ < 128 by omega), Input.byteAt_of_lt (show _ < 128 by omega)]
  rw [erase_eq hl (by omega)]
  have hplace := place_of_lt (i := s.behind) (show _ < 128 by omega)
  have hin : i - 1 + 1 < 128 := by omega
  have hmoved : s.behind.toNat ≤ i - 1 ∧ i - 1 < (s.input.e - 1).toNat := by omega
  simp only [closed, dif_pos hin, if_pos hmoved]
  have hval : i - 1 + 1 = i := by omega
  have hne : (⟨i - 1 + 1, hin⟩ : Fin inputBuf) ≠ place s.behind := by
    rw [hplace]
    exact Fin.ne_of_val_ne (show i - 1 + 1 ≠ s.behind.toNat by omega)
  rw [Function.update_of_ne hne]
  exact congrArg s.input.buf (Fin.ext hval)

theorem killLineFrom_e (hlefts : s.lefts = 0) (hw : s.input.w.toNat ≤ s.input.e.toNat)
    (he : s.input.e.toNat < 127) (hn : s.input.e.toNat - s.input.w.toNat ≤ n)
    (hline : ∀ i, s.input.w.toNat ≤ i → i < s.input.e.toNat → s.input.byteAt i ≠ ch '\n')
    (h : killLineFrom n s = some t) : t.input.e = s.input.w := by
  induction n generalizing s with
  | zero =>
    cases h
    exact BitVec.eq_of_toNat_eq (by omega)
  | succ n ih =>
    rw [killLineFrom] at h
    by_cases hdone : s.input.e = s.input.w
    · rw [if_neg fun hguard => hguard.1 hdone] at h
      cases h
      exact hdone
    · have hlt : s.input.w.toNat < s.input.e.toNat :=
        Nat.lt_of_le_of_ne hw fun heq => hdone (BitVec.eq_of_toNat_eq heq.symm)
      have hpred : (s.input.e - 1).toNat + 1 = s.input.e.toNat := by bv_omega
      have hlast : s.input.buf (place (s.input.e - 1)) ≠ ch '\n' :=
        hline (s.input.e - 1).toNat (by omega) (by omega)
      rw [if_pos ⟨hdone, hlast⟩] at h
      obtain ⟨u, hu, hrest⟩ := Option.bind_eq_some_iff.mp h
      obtain ⟨hedit, hlen, hsame⟩ := Edit.backspace (k := s.input.e.toNat - 1)
        (by rw [hlefts]; show _ + 0 < _; omega) (by omega) hu
      rw [← hedit.w]
      refine ih (hsame.trans hlefts) (by rw [hedit.w]; omega) (by omega)
        (by rw [hedit.w]; omega) (fun i hlo hhi => ?_) hrest
      rw [hedit.byteAt (show _ ≤ 128 by omega) (by omega)]
      exact hline i (by rw [← hedit.w]; exact hlo) (by omega)

theorem insert_newline :
    s.insert (ch '\n') = insert { s with lefts := 0 } (ch '\n') := by
  simp only [insert, consputc, cgaputc, if_true]

namespace Shows

theorem of_empty (hoob : s.oob = false) (hread : s.input.r.toNat ≤ s.input.w.toNat)
    (hempty : s.input.e = s.input.w) (hlefts : s.lefts = 0) : Shows s.input.w.toNat s .empty := by
  have hcursor : s.cursor = s.input.w := by
    rw [cursor, hlefts, hempty]
    exact BitVec.sub_zero _
  refine ⟨hoob, hread, Nat.le_refl _, ?_, slice_self⟩
  rw [hcursor, hempty]
  exact .empty

theorem lefts_le (h : Shows start s z) : s.lefts.toNat ≤ s.input.e.toNat := by
  have hle := h.line.le_hi
  unfold cursor at hle
  bv_omega

theorem cursor_le (h : Shows start s z) :
    s.input.w.toNat + s.lefts.toNat ≤ s.input.e.toNat := by
  have hle := h.lefts_le
  have hlo := h.line.lo_le
  rw [cursor_toNat hle] at hlo
  omega

theorem cursor_add (h : Shows start s z) : s.cursor.toNat + s.lefts.toNat = s.input.e.toNat := by
  have hle := h.lefts_le
  rw [cursor_toNat hle]
  omega

theorem line_start (h : Shows start s z) (hstart : ¬ s.input.w < s.cursor) :
    z.In s.input.byteAt s.input.w.toNat s.input.w.toNat s.input.e.toNat := by
  have hle : s.cursor.toNat ≤ s.input.w.toNat := Nat.le_of_not_lt hstart
  have hline := h.line
  rwa [Nat.le_antisymm hle hline.lo_le] at hline

theorem room (h : Shows start s z) (he : s.input.e.toNat < 127) :
    s.input.e - s.input.r < (inputBuf : Word) := by
  have hw := h.line.lo_le.trans h.line.le_hi
  have hr := h.read
  show s.input.e - s.input.r < 128#32
  bv_omega

theorem edit (h : Shows start s z) (he : s.input.w.toNat ≤ inputBuf)
    (hedit : Edit s.input.w.toNat s t)
    (hline : z'.In t.input.byteAt t.input.w.toNat t.cursor.toNat t.input.e.toNat) :
    Shows start t { z with toZipper := z' } where
  inRange := hedit.oob.trans h.inRange
  read := by rw [hedit.r, hedit.w]; exact h.read
  start_le := by rw [hedit.w]; exact h.start_le
  line := hline
  lines := by
    rw [hedit.w, ← h.lines]
    exact slice_congr fun i _ hi => hedit.byteAt he hi

theorem insert (h : Shows start s z) (he : s.input.e.toNat < 127)
    (hc : c = ch '\n' → s.lefts = 0) (hins : s.insert c = some t) :
    Shows start t { z with toZipper := z.insert c } := by
  have hcursor := h.cursor_add
  have hw := h.line.lo_le
  have hends := insert_e hins
  have hlefts : t.lefts = s.lefts := by
    by_cases hnewline : c = ch '\n'
    · rw [hc hnewline]
      exact insert_newline_lefts (hnewline ▸ hins)
    · exact insert_lefts hnewline hins
  have hsucc : t.input.e.toNat = s.input.e.toNat + 1 := by
    rw [hends]
    bv_omega
  have hcur : t.cursor.toNat = s.cursor.toNat + 1 := by
    rw [cursor_toNat (by rw [hlefts]; omega), hlefts]
    omega
  obtain ⟨hfront, -⟩ := Edit.insert (k := s.cursor.toNat) (by omega) he hins
  obtain ⟨hedit, -⟩ := Edit.insert (k := s.input.w.toNat) (by omega) he hins
  refine h.edit (show _ ≤ 128 by omega) hedit ?_
  rw [hedit.w, hcur, hsucc]
  refine h.line.insert (fun i hi => hfront.byteAt (show _ ≤ 128 by omega) hi) ?_ fun i hlo hhi => ?_
  · rw [Input.byteAt_of_lt (show _ < 128 by omega)]
    exact insert_buf h.lefts_le he hins (by simp only [hlefts]; omega)
  · have hnewline : c ≠ ch '\n' := by
      rintro hnewline
      rw [hc hnewline] at hcursor
      have hzero : s.cursor.toNat = s.input.e.toNat := hcursor
      omega
    exact insert_right h.lefts_le he hnewline hins hlo hhi

theorem backspace (h : Shows start s z) (he : s.input.e.toNat < 127) (hlt : s.input.w < s.cursor)
    (hback : s.consputc .backspace = some t) : Shows start t { z with toZipper := z.delete } := by
  have hcursor := h.cursor_add
  have hlt' : s.input.w.toNat < s.cursor.toNat := hlt
  obtain ⟨cur, hcur⟩ : ∃ cur, s.cursor.toNat = cur + 1 := ⟨s.cursor.toNat - 1, by omega⟩
  obtain ⟨hedit, -⟩ := Edit.backspace (k := s.input.w.toNat) (by omega) (by omega) hback
  obtain ⟨hfront, hpred, hlefts⟩ := Edit.backspace (k := cur) (by omega) (by omega) hback
  have hcur' : t.cursor.toNat = cur := by
    rw [cursor_toNat (by rw [hlefts]; omega), hlefts]
    omega
  have hline := h.line
  rw [hcur, ← hpred] at hline
  refine h.edit (show _ ≤ 128 by omega) hedit ?_
  rw [hedit.w, hcur']
  refine hline.delete (by omega) (fun i hi => hfront.byteAt (show _ ≤ 128 by omega) hi) ?_
  intro i hlo hhi
  exact backspace_right (by omega) he hback (i := i + 1) (by omega) (by omega)

theorem move {z' : Zipper Byte} {lefts : Word} {right : Bool} (h : Shows start s z)
    (hline : z'.In s.input.byteAt s.input.w.toNat (s.input.e - lefts).toNat s.input.e.toNat) :
    Shows start { s.updateCursor right with lefts } { z with toZipper := z' } where
  inRange := h.inRange
  read := h.read
  start_le := h.start_le
  line := hline
  lines := h.lines

theorem home (h : Shows start s z) (screen : Screen) :
    Shows start { s with lefts := 0, screen } { z with toZipper := ⟨z.left ++ z.right, []⟩ } := by
  have hcursor : cursor { s with lefts := 0, screen } = s.input.e := BitVec.sub_zero _
  refine ⟨h.inRange, h.read, h.start_le, ?_, h.lines⟩
  rw [hcursor]
  exact ⟨h.line.lo_le.trans h.line.le_hi, Nat.le_refl _, h.line.all, slice_self⟩

theorem killLineFrom (h : Shows start s z) (hone : z.OneLine) (hlefts : s.lefts = 0) (he : s.input.e.toNat < 127)
    (hn : s.input.e.toNat - s.input.w.toNat ≤ n) (hkill : Console.killLineFrom n s = some t) :
    Shows start t { z with toZipper := .empty } := by
  have hw := h.line.lo_le.trans h.line.le_hi
  have hline : ∀ i, s.input.w.toNat ≤ i → i < s.input.e.toNat → s.input.byteAt i ≠ ch '\n' := by
    intro i hlo hhi
    refine hone _ ?_
    rw [← h.line.all]
    exact List.mem_map_of_mem (List.mem_range'_1.mpr ⟨hlo, by omega⟩)
  obtain ⟨hedit, -⟩ := Edit.killLineFrom hlefts hw he hkill
  have hsame := killLineFrom_e hlefts hw he hn hline hkill
  have hcursor := hedit.cursor
  rw [hsame] at hcursor
  have hcur : t.cursor.toNat = s.input.w.toNat := by
    rw [cursor_toNat (by rw [hsame]; omega), hsame]
    omega
  refine h.edit (show _ ≤ 128 by omega) hedit ?_
  rw [hedit.w, hcur, hsame]
  exact .empty

theorem killLine (h : Shows start s z) (hone : z.OneLine) (he : s.input.e.toNat < 127)
    (hkill : s.killLine = some t) :
    Shows start t { z with toZipper := .empty } := by
  have hw := h.line.lo_le.trans h.line.le_hi
  have hfuel : s.input.e.toNat - s.input.w.toNat ≤ (s.input.e - s.input.w).toNat := by bv_omega
  exact (h.home _).killLineFrom (by simpa [Editor.OneLine] using hone) rfl he hfuel hkill

theorem commit (h : Shows start s z) (hlefts : s.lefts = 0) (hpos : 0 < s.input.e.toNat)
    (he : s.input.e.toNat < 127) (hcommit : s.commit junk = some t) :
    Shows start t ⟨.empty, z.lines ++ [z.left ++ z.right]⟩ := by
  have hw := h.line.lo_le.trans h.line.le_hi
  have hsame := commit_e hcommit
  obtain ⟨u, hu, rfl⟩ := Option.map_eq_some_iff.mp hcommit
  obtain ⟨hprint, -⟩ := Edit.historyCommand
    (s := { s with input := { s.input with flagCopy := false } }) (k := s.input.e.toNat) hpos
    (by simp only [hlefts]; exact Nat.le_refl _) he hu
  simp only at hsame
  have hcursor := hprint.cursor
  rw [hsame] at hcursor
  have hle : u.lefts.toNat ≤ s.input.e.toNat := by omega
  have hcur : (s.input.e - u.lefts).toNat = s.input.e.toNat := by
    rw [BitVec.toNat_sub_of_le hle]
    omega
  have htext : ∀ i < s.input.e.toNat, u.input.byteAt i = s.input.byteAt i := fun i hi =>
    hprint.byteAt (show _ ≤ 128 by omega) hi
  refine ⟨hprint.oob.trans h.inRange, ?_, ?_, ?_, ?_⟩
  · simp only [hsame, hprint.r]
    exact h.read.trans hw
  · simp only [hsame]
    exact h.start_le.trans hw
  · simp only [Console.cursor, hsame, hcur]
    exact .empty
  · simp only [hsame]
    change slice u.input.byteAt _ _ = _
    rw [slice_congr fun i _ => htext i, ← slice_append h.start_le hw, h.lines, h.line.all,
      List.flatten_append, List.flatten_singleton]

theorem defaultKey_insert (h : Shows start s z) (he : s.input.e.toNat < 127) (hc : Edits c)
    (henter : ¬(c = ch '\n' ∨ c = ch '\r')) (hdef : s.defaultKey fp c junk = some t) :
    s.insert c = some t := by
  have hw := h.line.lo_le.trans h.line.le_hi
  have hr := h.read
  have hroom := h.room he
  simp only [Edits, List.mem_cons, List.not_mem_nil, not_or, or_false] at hc
  obtain ⟨hzero, heof, hpaste, -, -, -, -, hask⟩ := hc
  unfold Console.defaultKey at hdef
  rw [if_pos ⟨hzero, hroom⟩] at hdef
  have hsame : (if c = ch '\r' then ch '\n' else c) = c := if_neg fun h => henter (.inr h)
  simp only [hsame, if_neg hpaste] at hdef
  rw [typeKey_eq hask] at hdef
  obtain ⟨u, hu, hrest⟩ := Option.bind_eq_some_iff.mp hdef
  have hends := insert_e hu
  obtain ⟨hedit, -⟩ := Edit.insert (k := s.input.w.toNat) h.cursor_le he hu
  have hfits : ¬ (c = ch '\n' ∨ c = ctrl 'D' ∨ u.input.e = u.input.r + (inputBuf : Word)) := by
    rintro (hnewline | hdone | hfull)
    · exact henter (.inl hnewline)
    · exact heof hdone
    · rw [hends, hedit.r] at hfull
      change s.input.e + 1 = s.input.r + 128#32 at hfull
      bv_omega
  rw [if_neg hfits] at hrest
  rw [hu, hrest]

theorem defaultKey (h : Shows start s z) (he : s.input.e.toNat < 127) (hc : Edits c)
    (hkey : Key.of c = .other) (hdef : s.defaultKey fp c junk = some t)
    (hbelow : t.input.e.toNat < 127) : Shows start t (z.press c) := by
  simp only [Editor.press, hkey]
  by_cases henter : c = ch '\n' ∨ c = ch '\r'
  · have hzero : c ≠ 0 := by
      rcases henter with rfl | rfl
      · decide
      · decide
    have hnewline : (if c = ch '\r' then ch '\n' else c) = ch '\n' := by
      rcases henter with rfl | rfl
      · rfl
      · rfl
    unfold Console.defaultKey at hdef
    rw [if_pos ⟨hzero, h.room he⟩] at hdef
    simp only [hnewline, true_or, if_true] at hdef
    rw [if_neg (by decide), typeKey_eq (by decide), insert_newline] at hdef
    obtain ⟨u, hu, hcommit⟩ := Option.bind_eq_some_iff.mp hdef
    rw [commit_e hcommit] at hbelow
    have hends := insert_e hu
    have hpos : 0 < u.input.e.toNat := by
      rw [hends]
      show 0 < (s.input.e + 1).toNat
      bv_omega
    rw [if_pos henter]
    have hline := ((h.home s.screen).insert he (fun _ => rfl) hu).commit
      (insert_newline_lefts hu) hpos hbelow hcommit
    simpa [Zipper.insert] using hline
  · rw [if_neg henter]
    exact h.insert he (fun hnewline => absurd (.inl hnewline) henter)
      (h.defaultKey_insert he hc henter hdef)

theorem consoleintr (h : Shows start s z) (hone : z.OneLine) (he : s.input.e.toNat < 127)
    (hc : Edits c) (hkey : s.consoleintr fp c junk = some t) (hbelow : t.input.e.toNat < 127) :
    Shows start t (z.press c) := by
  have hcursor := h.cursor_add
  have hlo := h.line.lo_le
  unfold Console.consoleintr at hkey
  rcases hc.key with hof | hof | hof | hof | hof
  · simp only [hof] at hkey
    simp only [Editor.press, hof]
    exact h.killLine hone he hkey
  · simp only [hof] at hkey
    simp only [Editor.press, hof]
    split at hkey
    · exact h.backspace he ‹_› hkey
    · rename_i hstart
      cases hkey
      rw [(h.line_start hstart).delete_start]
      exact h
  · simp only [hof] at hkey
    simp only [Editor.press, hof]
    split at hkey
    · rename_i hlt
      have hlt' : s.input.w.toNat < s.cursor.toNat := hlt
      have hpred : (s.input.e - (s.lefts + 1)).toNat + 1 = s.cursor.toNat := by
        unfold cursor at hcursor hlt' ⊢
        bv_omega
      cases hkey
      have hline := h.line
      rw [← hpred] at hline
      exact h.move (hline.moveLeft (by omega))
    · rename_i hstart
      cases hkey
      rw [(h.line_start hstart).moveLeft_start]
      exact h
  · simp only [hof] at hkey
    simp only [Editor.press, hof]
    have hsigned := slt_zero (i := s.lefts) (by omega)
    split at hkey
    · rename_i hlt
      have hlt' : 0 < s.lefts.toNat := hsigned.mp hlt
      have hsucc : (s.input.e - (s.lefts - 1)).toNat = s.cursor.toNat + 1 := by
        unfold cursor at hcursor ⊢
        bv_omega
      cases hkey
      have hline := h.line.moveRight (by omega)
      rw [← hsucc] at hline
      exact h.move hline
    · rename_i hend
      have hend' : ¬ 0 < s.lefts.toNat := fun hlt => hend (hsigned.mpr hlt)
      cases hkey
      have hline := h.line
      rw [show s.cursor.toNat = s.input.e.toNat by omega] at hline
      rw [hline.moveRight_end]
      exact h
  · simp only [hof] at hkey
    exact h.defaultKey he hc hof hkey hbelow

end Shows

theorem settle_some (h : pos ≤ 25 * 80) :
    ∃ t, s.settle pos = some t ∧ t.screen.pos < 25 * 80 := by
  unfold settle
  rw [if_neg (by omega)]
  refine ⟨_, rfl, ?_⟩
  simp only
  split <;> simp only <;> omega

theorem consputc_some (h : s.screen.pos < 25 * 80) (g : Glyph) :
    ∃ t, s.consputc g = some t ∧ t.screen.pos < 25 * 80 := by
  cases g with
  | backspace => exact settle_some (by simp only; omega)
  | char c =>
    simp only [consputc, cgaputc]
    split
    · exact settle_some (by omega)
    · exact settle_some (by omega)

theorem consolewrite_some (h : s.screen.pos < 25 * 80) (bs : List Byte) :
    ∃ t, s.consolewrite bs = some t ∧ t.screen.pos < 25 * 80 := by
  induction bs generalizing s with
  | nil => exact ⟨s, rfl, h⟩
  | cons c bs ih =>
    obtain ⟨u, hu, hpos⟩ := consputc_some h (.char c)
    obtain ⟨t, ht, hpos'⟩ := ih hpos
    exact ⟨t, by simpa [consolewrite, hu] using ht, hpos'⟩

theorem printHistory_some (h : s.screen.pos < 25 * 80) (junk : Junk) :
    ∃ t, s.printHistory junk = some t := by
  unfold printHistory
  generalize List.range s.history.count.toNat = entries
  induction entries generalizing s with
  | nil => exact ⟨s, rfl⟩
  | cons i entries ih =>
    obtain ⟨u, hu, hpos⟩ := consolewrite_some h
      (formatted (junk.args i) (lineText (s.history.entry i) (junk.tail i)) 0)
    obtain ⟨t, ht⟩ := ih hpos
    exact ⟨t, by simpa [cprintf, hu] using ht⟩

theorem insert_some (h : s.screen.pos < 25 * 80) (c : Byte) :
    ∃ t, s.insert c = some t ∧ t.screen.pos < 25 * 80 := by
  obtain ⟨u, hu, hpos⟩ := consputc_some h (.char c)
  rw [insert, hu]
  exact ⟨_, rfl, hpos⟩

theorem commit_some (h : s.screen.pos < 25 * 80) (junk : Junk) : ∃ t, s.commit junk = some t := by
  unfold commit historyCommand
  split
  · exact ⟨_, rfl⟩
  · split
    · obtain ⟨u, hu⟩ := printHistory_some
        (s := { s with input := { s.input with flagCopy := false } }) h junk
      exact ⟨_, by rw [hu]; rfl⟩
    · exact ⟨_, rfl⟩

theorem killLineFrom_some (h : s.screen.pos < 25 * 80) (n : Nat) :
    ∃ t, killLineFrom n s = some t := by
  induction n generalizing s with
  | zero => exact ⟨s, rfl⟩
  | succ n ih =>
    rw [killLineFrom]
    split
    · obtain ⟨u, hu, hpos⟩ := consputc_some h .backspace
      rw [hu]
      exact ih hpos
    · exact ⟨s, rfl⟩

theorem consoleintr_some (hc : Edits c) (hpos : s.screen.pos + s.lefts.toNat < 25 * 80) (fp : Arith)
    (junk : Junk) : ∃ t, s.consoleintr fp c junk = some t := by
  have hpos' : s.screen.pos < 25 * 80 := by omega
  unfold consoleintr
  rcases hc.key with hof | hof | hof | hof | hof
  · simp only [hof]
    exact killLineFrom_some (by simp only; omega) _
  · simp only [hof]
    split
    · obtain ⟨t, ht, -⟩ := consputc_some hpos' .backspace
      exact ⟨t, ht⟩
    · exact ⟨s, rfl⟩
  · simp only [hof]
    split <;> exact ⟨_, rfl⟩
  · simp only [hof]
    split <;> exact ⟨_, rfl⟩
  · simp only [hof]
    simp only [Edits, List.mem_cons, List.not_mem_nil, not_or, or_false] at hc
    obtain ⟨-, -, hpaste, -, -, -, -, hask⟩ := hc
    unfold defaultKey
    split
    · obtain ⟨c', hc'⟩ : ∃ c', c' = if c = ch '\r' then ch '\n' else c := ⟨_, rfl⟩
      simp only [← hc']
      have hplain : c' ≠ ctrl 'F' ∧ c' ≠ ch '?' := by
        rw [hc']
        split
        · decide
        · exact ⟨hpaste, hask⟩
      rw [if_neg hplain.1, typeKey_eq hplain.2]
      obtain ⟨u, hu, hposu⟩ := insert_some hpos' c'
      rw [hu, Option.bind_some]
      split
      · exact commit_some hposu junk
      · exact ⟨u, rfl⟩
    · exact ⟨s, rfl⟩

def Pressed (fp : Arith) (s : Console) (k : Byte × Junk) (t : Console) : Prop :=
  Step fp s (.key k.1 k.2) t

def edited (es : List (Console × Byte × Junk)) (z : Editor) : Editor :=
  es.foldl (fun z e => z.press e.2.1) z

theorem Shows.run {es : List (Console × Byte × Junk)} (hrun : Run (Pressed fp) s es t)
    (h : Shows start s z) (hone : z.OneLine) (hkeys : ∀ e ∈ es, Edits e.2.1)
    (hshort : Run.Always Short es t) : Shows start t (edited es z) := by
  induction hrun generalizing z with
  | nil => exact h
  | @cons s k u es t hstep hrest ih =>
    obtain ⟨hkey, hkeys⟩ := List.forall_mem_cons.mp hkeys
    have hs : s.Short := hshort.start (.cons hstep hrest)
    have hu : u.Short := hshort.tail.start hrest
    exact ih (h.consoleintr hone hs hkey hstep hu) (hone.press k.1) hkeys hshort.tail

theorem editor_refines_zipper {es : List (Console × Byte × Junk)} (hoob : s.oob = false)
    (hread : s.input.r.toNat ≤ s.input.w.toNat) (hempty : s.input.e = s.input.w)
    (hlefts : s.lefts = 0) (hrun : Run (Pressed fp) s es t) (hkeys : ∀ e ∈ es, Edits e.2.1)
    (hshort : Run.Always Short es t) :
    Shows s.input.w.toNat t (edited es .empty) ∧
    ∀ c junk, Edits c → t.screen.pos + t.lefts.toNat < 25 * 80 →
      ∃ u, t.consoleintr fp c junk = some u := by
  have hstart : Shows s.input.w.toNat s .empty := .of_empty hoob hread hempty hlefts
  exact ⟨.run hrun hstart (fun c hc => by cases hc) hkeys hshort,
    fun c junk hc hpos => consoleintr_some hc hpos fp junk⟩

def typing : List (Byte × Junk) :=
  [ch 'a', ch 'b', 0xe4, ch 'c', ch '\r', ch 'd'].map fun c =>
    (c, ⟨0, fun _ => 0, fun _ => ⟨fun _ => 0, fun _ => []⟩, fun _ => []⟩)

theorem editor_refines_zipper_typing :
    ∃ es s, Run (Pressed sums) dark es s ∧
      Shows 0 s ⟨⟨[ch 'd'], []⟩, [[ch 'a', ch 'c', ch 'b', ch '\n']]⟩ := by
  obtain ⟨s, hrun, hs⟩ := Run.of_exec_any (fun s k => s.next sums (.key k.1 k.2)) dark typing
    (fun s => s.Short) (by decide +kernel)
  have hshort : Run.Always Short (trace (fun s k => s.next sums (.key k.1 k.2)) dark typing) s :=
    ⟨by decide +kernel, of_decide_eq_true hs⟩
  obtain ⟨hshows, -⟩ := editor_refines_zipper rfl (Nat.le_refl _) rfl rfl hrun (by decide +kernel)
    hshort
  exact ⟨_, s, hrun, hshows⟩

end Console

end Xv6
