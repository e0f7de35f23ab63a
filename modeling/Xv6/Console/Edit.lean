import Xv6.Console.Handler
import Xv6.Console.Loops

namespace Xv6

open Function

def Input.byteAt (x : Input) (i : Nat) : Byte := x.buf (Fin.ofNat inputBuf i)

theorem Input.byteAt_of_lt {x : Input} {i : Nat} (h : i < inputBuf) : x.byteAt i = x.buf ⟨i, h⟩ :=
  congrArg x.buf (Fin.ext (Nat.mod_eq_of_lt h))

namespace Console

variable {s t u : Console} {c : Byte} {k n : Nat}

theorem settle_eq (h : s.settle pos = some t) : ∃ screen, t = { s with screen } := by
  unfold settle at h
  split at h
  · cases h
  · exact ⟨_, (Option.some.inj h).symm⟩

def echo (s : Console) (c : Byte) : Console :=
  if c = ch '\n' then { s with lefts := 0 } else s.onInput (·.shiftRight s.lefts)

def behind (s : Console) : Word := s.input.e - 1 - s.lefts

def erase (s : Console) : Console :=
  let p := place s.behind
  let x := { s.input with
    e := s.input.e - 1
    buf := update s.input.buf p 0
    bufCopy := update s.input.bufCopy p 0 }
  { s with input := x }.onInput (·.shiftLeft s.lefts)

theorem consputc_char (h : s.consputc (.char c) = some t) : ∃ screen, t = { s.echo c with screen } := by
  simp only [consputc, cgaputc] at h
  unfold echo
  split at h
  · rename_i hc
    rw [if_pos hc]
    exact settle_eq h
  · rename_i hc
    rw [if_neg hc]
    obtain ⟨screen, rfl⟩ := settle_eq h
    exact ⟨screen, rfl⟩

theorem consputc_backspace (h : s.consputc .backspace = some t) :
    ∃ screen, t = { s.erase with screen } := by
  obtain ⟨screen, rfl⟩ := settle_eq h
  exact ⟨screen, rfl⟩

@[simp] theorem onInput_lefts (f : Input → Option Input) : (s.onInput f).lefts = s.lefts := by
  unfold onInput
  cases f s.input <;> rfl

@[simp] theorem onInput_history (f : Input → Option Input) :
    (s.onInput f).history = s.history := by
  unfold onInput
  cases f s.input <;> rfl

theorem onInput_of_some (h : f s.input = some x) :
    s.onInput f = { s with input := x } := by
  unfold onInput
  rw [h]

theorem onInput_e (h : ∀ y, f s.input = some y → y.e = s.input.e) :
    (s.onInput f).input.e = s.input.e := by
  unfold onInput
  cases hf : f s.input with
  | none => rfl
  | some y => exact h y hf

theorem echo_e : (s.echo c).input.e = s.input.e := by
  unfold echo
  split
  · rfl
  · exact onInput_e fun y h => Input.shiftRight_e h

theorem consputc_char_e (h : s.consputc (.char c) = some t) : t.input.e = s.input.e := by
  obtain ⟨screen, rfl⟩ := consputc_char h
  exact echo_e

theorem recallEntry_eq (h : ((s.history.entry s.history.index).e - 1).toNat < inputBuf) :
    s.recallEntry = { s with input :=
      { s.history.entry s.history.index with
        e := (s.history.entry s.history.index).e - 1
        buf := update (s.history.entry s.history.index).buf ⟨_, h⟩ 0 } } := by
  unfold recallEntry
  rw [onInput_of_some]
  simp only [poke_of_lt h]
  rfl

theorem cursor_toNat (h : s.lefts.toNat ≤ s.input.e.toNat) :
    s.cursor.toNat = s.input.e.toNat - s.lefts.toNat := BitVec.toNat_sub_of_le h

theorem echo_eq (hl : s.lefts.toNat ≤ s.input.e.toNat) (he : s.input.e.toNat < 127)
    (hc : c ≠ ch '\n') :
    s.echo c = { s with input := { s.input with
      buf := opened s.cursor.toNat (s.input.e + 1).toNat s.input.buf
      bufCopy := opened s.cursor.toNat (s.input.e + 1).toNat s.input.bufCopy } } := by
  rw [echo, if_neg hc]
  exact onInput_of_some (Input.shiftRight_eq hl he)

theorem behind_toNat (h : s.lefts.toNat < s.input.e.toNat) :
    s.behind.toNat = s.input.e.toNat - 1 - s.lefts.toNat := by
  unfold behind
  bv_omega

theorem erase_eq (hl : s.lefts.toNat < s.input.e.toNat) (he : s.input.e.toNat ≤ 128) :
    s.erase = { s with input := { s.input with
      e := s.input.e - 1
      buf := closed s.behind.toNat (s.input.e - 1).toNat
        (update s.input.buf (place s.behind) 0)
      bufCopy := closed s.behind.toNat (s.input.e - 1).toNat
        (update s.input.bufCopy (place s.behind) 0) } } := by
  have hpred : (s.input.e - 1).toNat + 1 = s.input.e.toNat := by bv_omega
  have hle : s.lefts.toNat ≤ (s.input.e - 1).toNat := by omega
  have hlt : (s.input.e - 1).toNat < 128 := by omega
  obtain ⟨x, hx⟩ : ∃ x : Input, x = { s.input with
    e := s.input.e - 1
    buf := update s.input.buf (place s.behind) 0
    bufCopy := update s.input.bufCopy (place s.behind) 0 } := ⟨_, rfl⟩
  have hle' : s.lefts.toNat ≤ x.e.toNat := by
    rw [hx]
    exact hle
  have hshift := Input.shiftLeft_eq hle' (by rw [hx]; exact hlt)
  have herase : s.erase = onInput { s with input := x } (·.shiftLeft s.lefts) := by
    rw [hx]
    rfl
  rw [herase, onInput_of_some hshift]
  simp only [hx]
  rfl

structure Edit (k : Nat) (s t : Console) : Prop where
  r : t.input.r = s.input.r
  w : t.input.w = s.input.w
  history : t.history = s.history
  oob : t.oob = s.oob
  text : ∀ j : Fin inputBuf, j.val < k → t.input.buf j = s.input.buf j
  cursor : k + t.lefts.toNat ≤ t.input.e.toNat

namespace Edit

theorem refl (h : k + s.lefts.toNat ≤ s.input.e.toNat) : Edit k s s :=
  ⟨rfl, rfl, rfl, rfl, fun _ _ => rfl, h⟩

theorem trans (h : Edit k s t) (h' : Edit k t u) : Edit k s u where
  r := h'.r.trans h.r
  w := h'.w.trans h.w
  history := h'.history.trans h.history
  oob := h'.oob.trans h.oob
  text j hj := (h'.text j hj).trans (h.text j hj)
  cursor := h'.cursor

theorem put (hcursor : k + s.lefts.toNat ≤ s.input.e.toNat) (he : s.input.e.toNat < 127)
    (h : s.consputc (.char c) = some t) : Edit k s t ∧ t.lefts.toNat ≤ s.lefts.toNat := by
  obtain ⟨screen, rfl⟩ := consputc_char h
  by_cases hc : c = ch '\n'
  · simp only [echo, if_pos hc]
    exact ⟨⟨rfl, rfl, rfl, rfl, fun _ _ => rfl, by simp; omega⟩, by simp⟩
  · have hle := cursor_toNat (s := s) (by omega)
    simp only [echo_eq (by omega) he hc]
    exact ⟨⟨rfl, rfl, rfl, rfl, fun j hj => opened_of_le _ (by omega), hcursor⟩, Nat.le_refl _⟩

theorem backspace (hcursor : k + s.lefts.toNat < s.input.e.toNat) (he : s.input.e.toNat ≤ 128)
    (h : s.consputc .backspace = some t) :
    Edit k s t ∧ t.input.e.toNat + 1 = s.input.e.toNat ∧ t.lefts = s.lefts := by
  obtain ⟨screen, rfl⟩ := consputc_backspace h
  have hpred : (s.input.e - 1).toNat + 1 = s.input.e.toNat := by bv_omega
  have hbehind := behind_toNat (s := s) (by omega)
  have hplace := place_of_lt (i := s.behind) (show _ < 128 by omega)
  rw [erase_eq (s := s) (by omega) he]
  refine ⟨⟨rfl, rfl, rfl, rfl, ?_, by simp only; omega⟩, hpred, rfl⟩
  intro j hj
  simp only
  rw [closed_of_lt _ (by omega), update_of_ne]
  rw [hplace]
  exact Fin.ne_of_val_ne (by simp only; omega)

theorem backspaces (hcursor : k + n + s.lefts.toNat ≤ s.input.e.toNat) (he : s.input.e.toNat ≤ 128)
    (h : Console.backspaces n s = some t) :
    Edit k s t ∧ t.input.e.toNat + n = s.input.e.toNat ∧ t.lefts = s.lefts := by
  induction n generalizing s with
  | zero =>
    cases h
    exact ⟨.refl hcursor, rfl, rfl⟩
  | succ n ih =>
    obtain ⟨u, hu, hrest⟩ := Option.bind_eq_some_iff.mp h
    obtain ⟨hedit, hpred, hlefts⟩ := backspace (k := k) (by omega) he hu
    obtain ⟨hedits, hpreds, hsame⟩ := ih (by rw [hlefts]; omega) (by omega) hrest
    exact ⟨hedit.trans hedits, by omega, hsame.trans hlefts⟩

theorem insert (hcursor : k + s.lefts.toNat ≤ s.input.e.toNat) (he : s.input.e.toNat < 127)
    (h : s.insert c = some t) :
    Edit k s t ∧ t.input.e = s.input.e + 1 ∧ k + 1 + t.lefts.toNat ≤ t.input.e.toNat ∧
      t.lefts.toNat ≤ s.lefts.toNat := by
  obtain ⟨u, hu, rfl⟩ := Option.map_eq_some_iff.mp h
  have hsame := consputc_char_e hu
  obtain ⟨hedit, hlefts⟩ := put hcursor he hu
  have hcur := hedit.cursor
  have hsucc : (u.input.e + 1).toNat = u.input.e.toNat + 1 := by
    rw [hsame]
    bv_omega
  have hplace := cursor_toNat (s := u) (by omega)
  have hin : u.cursor.toNat < 128 := by
    rw [hplace, hsame]
    omega
  refine ⟨⟨hedit.r, hedit.w, hedit.history, hedit.oob, ?_, by simp only; omega⟩, ?_, by simp only; omega, hlefts⟩
  · intro j hj
    simp only
    rw [update_of_ne, hedit.text j hj]
    rw [place_of_lt hin]
    exact Fin.ne_of_val_ne (by simp only; omega)
  · simp only [hsame]

theorem consolewrite (hcursor : k + s.lefts.toNat ≤ s.input.e.toNat)
    (he : s.input.e.toNat < 127) (h : s.consolewrite bs = some t) :
    Edit k s t ∧ t.input.e = s.input.e ∧ t.lefts.toNat ≤ s.lefts.toNat := by
  induction bs generalizing s with
  | nil =>
    cases h
    exact ⟨.refl hcursor, rfl, Nat.le_refl _⟩
  | cons c bs ih =>
    obtain ⟨u, hu, hrest⟩ := Option.bind_eq_some_iff.mp (by simpa [Console.consolewrite] using h)
    obtain ⟨hedit, hlefts⟩ := put hcursor he hu
    have hsame := consputc_char_e hu
    obtain ⟨hedits, hsames, hles⟩ := ih hedit.cursor (by rw [hsame]; exact he) hrest
    exact ⟨hedit.trans hedits, hsames.trans hsame, hles.trans hlefts⟩

theorem insertAll (hcursor : k + s.lefts.toNat ≤ s.input.e.toNat)
    (he : s.input.e.toNat + bs.length ≤ 127) (h : s.insertAll bs = some t) :
    Edit k s t ∧ k + bs.length + t.lefts.toNat ≤ t.input.e.toNat := by
  induction bs generalizing s k with
  | nil =>
    cases h
    exact ⟨.refl hcursor, hcursor⟩
  | cons c bs ih =>
    rw [List.length_cons] at he
    obtain ⟨u, hu, hrest⟩ := Option.bind_eq_some_iff.mp (by simpa [Console.insertAll] using h)
    obtain ⟨hedit, hsucc, hcur, -⟩ := insert hcursor (by omega) hu
    have he' : u.input.e.toNat + bs.length ≤ 127 := by
      rw [hsucc]
      bv_omega
    obtain ⟨-, hend⟩ := ih hcur he' hrest
    obtain ⟨hedits, -⟩ := ih hedit.cursor he' hrest
    exact ⟨hedit.trans hedits, by rw [List.length_cons]; omega⟩

theorem killLineFrom (hlefts : s.lefts = 0) (hw : s.input.w.toNat ≤ s.input.e.toNat)
    (he : s.input.e.toNat < 127) (h : Console.killLineFrom n s = some t) :
    Edit s.input.w.toNat s t ∧ t.input.e.toNat ≤ s.input.e.toNat := by
  have hcursor : s.input.w.toNat + s.lefts.toNat ≤ s.input.e.toNat := by
    rw [hlefts]
    exact hw
  induction n generalizing s with
  | zero =>
    cases h
    exact ⟨.refl hcursor, Nat.le_refl _⟩
  | succ n ih =>
    rw [Console.killLineFrom] at h
    split at h
    · rename_i hne
      have hlt : s.input.w.toNat < s.input.e.toNat :=
        Nat.lt_of_le_of_ne hw fun heq => hne.1 (BitVec.eq_of_toNat_eq heq.symm)
      obtain ⟨u, hu, hrest⟩ := Option.bind_eq_some_iff.mp h
      obtain ⟨hedit, hpred, hsame⟩ := backspace (k := s.input.w.toNat)
        (by rw [hlefts]; exact hlt) (by omega) hu
      obtain ⟨hedits, hle⟩ := ih (hsame.trans hlefts) (by rw [hedit.w]; omega) (by omega) hrest
        (by rw [hedit.w]; exact hedit.cursor)
      rw [hedit.w] at hedits
      exact ⟨hedit.trans hedits, by omega⟩
    · cases h
      exact ⟨.refl hcursor, Nat.le_refl _⟩

theorem eraseLineFrom (hlefts : s.lefts = 0) (hi : i.toNat ≤ s.input.e.toNat)
    (hw : s.input.w.toNat ≤ s.input.e.toNat) (he : s.input.e.toNat < 127)
    (hn : i.toNat - s.input.w.toNat < n) (h : Console.eraseLineFrom n i s = some t) :
    Edit s.input.w.toNat s t ∧ t.lefts = 0 := by
  have hcursor : s.input.w.toNat + s.lefts.toNat ≤ s.input.e.toNat := by
    rw [hlefts]
    exact hw
  induction n generalizing s i with
  | zero => omega
  | succ n ih =>
    rw [Console.eraseLineFrom] at h
    by_cases hlt : s.input.w < i
    · have hlt' : s.input.w.toNat < i.toNat := hlt
      have hpred : (i - 1).toNat + 1 = i.toNat := by bv_omega
      rw [if_pos hlt, peek_of_lt (show _ < 128 by omega)] at h
      obtain ⟨u, hu, hrest⟩ := Option.bind_eq_some_iff.mp h
      split at hu
      · obtain ⟨hedit, hpred', hsame⟩ := backspace (k := s.input.w.toNat)
          (by rw [hlefts]; show _ + 0 < _; omega) (by omega) hu
        obtain ⟨hedits, hzero⟩ := ih (hsame.trans hlefts) (by omega) (by rw [hedit.w]; omega)
          (by omega) (by rw [hedit.w]; omega) hrest (by rw [hedit.w]; exact hedit.cursor)
        rw [hedit.w] at hedits
        exact ⟨hedit.trans hedits, hzero⟩
      · cases hu
        exact ih hlefts (by omega) hw he (by omega) hrest hcursor
    · rw [if_neg hlt] at h
      cases h
      exact ⟨.refl hcursor, hlefts⟩

theorem showLineFrom (hcursor : k + s.lefts.toNat ≤ s.input.e.toNat)
    (he : s.input.e.toNat < 127) (hn : s.input.e.toNat - i.toNat < n)
    (h : Console.showLineFrom n i s = some t) : Edit k s t ∧ t.input.e = s.input.e := by
  induction n generalizing s i with
  | zero => omega
  | succ n ih =>
    rw [Console.showLineFrom] at h
    by_cases hlt : i < s.input.e
    · have hlt' : i.toNat < s.input.e.toNat := hlt
      have hsucc : (i + 1).toNat = i.toNat + 1 := by bv_omega
      rw [if_pos hlt, peek_of_lt (show _ < 128 by omega)] at h
      obtain ⟨u, hu, hrest⟩ := Option.bind_eq_some_iff.mp h
      obtain ⟨hedit, -⟩ := put hcursor he hu
      have hsame := consputc_char_e hu
      obtain ⟨hedits, hsames⟩ := ih hedit.cursor (by rw [hsame]; exact he)
        (by rw [hsame]; omega) hrest
      exact ⟨hedit.trans hedits, hsames.trans hsame⟩
    · rw [if_neg hlt] at h
      cases h
      exact ⟨.refl hcursor, rfl⟩

theorem printHistory (hcursor : k + s.lefts.toNat ≤ s.input.e.toNat)
    (he : s.input.e.toNat < 127) (h : s.printHistory junk = some t) : Edit k s t := by
  unfold Console.printHistory at h
  generalize List.range s.history.count.toNat = entries at h
  induction entries generalizing s with
  | nil =>
    cases h
    exact .refl hcursor
  | cons i entries ih =>
    obtain ⟨u, hu, hrest⟩ := Option.bind_eq_some_iff.mp (by simpa using h)
    obtain ⟨hedit, hsame, -⟩ := consolewrite hcursor he hu
    exact hedit.trans (ih hedit.cursor (by rw [hsame]; exact he) hrest)

theorem byteAt (h : Edit k s t) (hk : k ≤ inputBuf) {i : Nat} (hi : i < k) :
    t.input.byteAt i = s.input.byteAt i := by
  rw [Input.byteAt_of_lt (hi.trans_le hk), Input.byteAt_of_lt (hi.trans_le hk)]
  exact h.text _ hi

end Edit

theorem insert_lefts (hc : c ≠ ch '\n') (h : s.insert c = some t) : t.lefts = s.lefts := by
  obtain ⟨u, hu, rfl⟩ := Option.map_eq_some_iff.mp h
  obtain ⟨screen, rfl⟩ := consputc_char hu
  simp only [echo, if_neg hc, onInput_lefts]

theorem insert_newline_lefts (h : s.insert (ch '\n') = some t) : t.lefts = 0 := by
  obtain ⟨u, hu, rfl⟩ := Option.map_eq_some_iff.mp h
  obtain ⟨screen, rfl⟩ := consputc_char hu
  simp only [echo, if_true]

theorem insert_buf (hl : s.lefts.toNat ≤ s.input.e.toNat) (he : s.input.e.toNat < 127)
    (h : s.insert c = some t) {j : Fin inputBuf}
    (hj : j.val + 1 + t.lefts.toNat = t.input.e.toNat) : t.input.buf j = c := by
  obtain ⟨u, hu, rfl⟩ := Option.map_eq_some_iff.mp h
  obtain ⟨hedit, hlefts⟩ := Edit.put (k := 0) (by omega) he hu
  have hsame := consputc_char_e hu
  have hcur := hedit.cursor
  have hcursor := cursor_toNat (s := u) (by omega)
  have hsucc : (u.input.e + 1).toNat = u.input.e.toNat + 1 := by
    rw [hsame]
    bv_omega
  simp only at hj
  have hplace := place_of_lt (i := u.cursor) (show _ < 128 by rw [hcursor, hsame]; omega)
  simp only
  rw [show j = place u.cursor from Fin.ext (by rw [hplace]; simp only; omega), update_self]

theorem insert_e (h : s.insert c = some t) : t.input.e = s.input.e + 1 := by
  obtain ⟨u, hu, rfl⟩ := Option.map_eq_some_iff.mp h
  simp only [consputc_char_e hu]

theorem insertAll_e (h : s.insertAll bs = some t) :
    t.input.e = s.input.e + BitVec.ofNat 32 bs.length := by
  induction bs generalizing s with
  | nil =>
    cases h
    simp
  | cons c bs ih =>
    obtain ⟨u, hu, hrest⟩ := Option.bind_eq_some_iff.mp (by simpa [Console.insertAll] using h)
    rw [ih hrest, insert_e hu, List.length_cons, BitVec.ofNat_add]
    rw [BitVec.add_assoc, BitVec.add_comm 1]
    rfl

theorem consolewrite_e (h : s.consolewrite bs = some t) :
    t.input.e = s.input.e := by
  induction bs generalizing s with
  | nil =>
    cases h
    rfl
  | cons c bs ih =>
    obtain ⟨u, hu, hrest⟩ := Option.bind_eq_some_iff.mp (by simpa [Console.consolewrite] using h)
    rw [ih hrest, consputc_char_e hu]

theorem printHistory_e (h : s.printHistory junk = some t) :
    t.input.e = s.input.e := by
  unfold Console.printHistory at h
  generalize List.range s.history.count.toNat = entries at h
  induction entries generalizing s with
  | nil =>
    cases h
    rfl
  | cons i entries ih =>
    obtain ⟨u, hu, hrest⟩ := Option.bind_eq_some_iff.mp (by simpa using h)
    rw [ih hrest, consolewrite_e hu]

theorem Edit.historyCommand (hpos : 0 < s.input.e.toNat)
    (hcursor : k + s.lefts.toNat ≤ s.input.e.toNat) (he : s.input.e.toNat < 127)
    (h : s.historyCommand junk = some t) : Edit k s t ∧ t.input.e = s.input.e := by
  have hpred : (s.input.e - 1).toNat + 1 = s.input.e.toNat := by bv_omega
  obtain ⟨found, hfound⟩ := Input.isCommandHistoryFrom_isSome junk.behind (x := s.input)
    (i := s.input.r) (j := 0) (n := Input.rounds) (show _ ≤ 128 by omega) (show _ < 129 by omega)
  have hfound' : s.input.isCommandHistory junk.behind = some found := hfound
  unfold Console.historyCommand at h
  rw [hfound'] at h
  simp only at h
  split at h
  · exact ⟨Edit.printHistory hcursor he h, printHistory_e h⟩
  · cases h
    exact ⟨.refl hcursor, rfl⟩

theorem commit_e (h : s.commit junk = some t) : t.input.e = s.input.e := by
  obtain ⟨u, hu, rfl⟩ := Option.map_eq_some_iff.mp h
  unfold historyCommand at hu
  split at hu
  · cases hu
    rfl
  · split at hu
    · have hsame := printHistory_e hu
      exact hsame
    · cases hu
      rfl

end Console

end Xv6
