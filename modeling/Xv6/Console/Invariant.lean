import Xv6.Console.Expression
import Xv6.Console.Paste

namespace Xv6

open Function Lib

structure Input.Ok (x : Input) : Prop where
  read : x.r.toNat ≤ x.w.toNat
  write : x.w.toNat ≤ x.e.toNat
  below : x.e.toNat < 127
  ended : x.r.toNat < x.w.toNat → ∀ j : Fin inputBuf, j.val + 1 = x.w.toNat → Ends (x.buf j)

theorem Input.ok_zero : Input.zero.Ok :=
  ⟨by decide, by decide, by decide, fun h => absurd h (by decide)⟩

namespace History

structure Ok (h : History) : Prop where
  count_nonneg : 0 ≤ h.count
  count_le : h.count ≤ 10
  last : h.last = h.count - 1
  index_le : h.index ≤ h.count
  index_nonneg : 0 < h.count → 0 ≤ h.index
  entries : ∀ i : Int, 0 ≤ i → i < h.count →
    (h.entry i).Ok ∧ (h.entry i).w.toNat < (h.entry i).e.toNat

theorem ok_zero : zero.Ok :=
  ⟨by decide, by decide, by decide, by decide, by decide, fun i h h' => absurd h' (Int.not_lt.mpr h)⟩

theorem slot_val {i : Int} (h : i < 10) : (Fin.ofNat 10 i.toNat).val = i.toNat :=
  Nat.mod_eq_of_lt (by omega)

variable {h : History} {x : Input}

theorem record_of_room (hlt : h.count < 10) : h.record x = { h with
    count := h.count + 1
    last := h.last + 1
    index := h.last + 2
    hist := update h.hist (Fin.ofNat 10 (h.last + 1).toNat) x } := by
  have hne : h.count ≠ 10 := by omega
  simp [History.record, hne, hlt]

theorem record_of_full (hfull : h.count = 10) : h.record x = { h with
    index := 10
    hist := update (fun i => if i.val < 9 then h.hist (i + 1) else h.hist i)
      (Fin.ofNat 10 h.last.toNat) x } := by
  simp [History.record, shiftLeftPreviousHistories, hfull]

theorem entry_record (hok : h.Ok) {i : Int} (hi : 0 ≤ i) (hlt : i < (h.record x).count) :
    (h.record x).entry i =
      if i + 1 = (h.record x).count then x else h.entry (if h.count = 10 then i + 1 else i) := by
  have hlast := hok.last
  have hle := hok.count_le
  have hcount := hok.count_nonneg
  by_cases hfull : h.count = 10
  · rw [record_of_full hfull] at hlt ⊢
    simp only at hlt ⊢
    have hval := slot_val (i := i) (by omega)
    have hval' := slot_val (i := h.last) (by omega)
    by_cases hnew : i = h.last
    · rw [if_pos (by omega)]
      simp only [entry, hnew, update_self]
    · have hne : Fin.ofNat 10 i.toNat ≠ Fin.ofNat 10 h.last.toNat :=
        Fin.ne_of_val_ne (by rw [hval, hval']; omega)
      have hnext : Fin.ofNat 10 i.toNat + 1 = Fin.ofNat 10 (i + 1).toNat := by
        apply Fin.ext
        rw [slot_val (by omega), Fin.val_add, hval]
        simp only [Fin.val_one]
        omega
      rw [if_neg (by omega), if_pos hfull]
      simp only [entry, update_of_ne hne]
      rw [if_pos (by omega), hnext]
  · rw [record_of_room (by omega)] at hlt ⊢
    simp only at hlt ⊢
    have hval := slot_val (i := i) (by omega)
    have hval' := slot_val (i := h.last + 1) (by omega)
    by_cases hnew : i = h.last + 1
    · rw [if_pos (by omega)]
      simp only [entry, hnew, update_self]
    · have hne : Fin.ofNat 10 i.toNat ≠ Fin.ofNat 10 (h.last + 1).toNat :=
        Fin.ne_of_val_ne (by rw [hval, hval']; omega)
      rw [if_neg (by omega), if_neg hfull]
      simp only [entry, update_of_ne hne]

theorem record_count (hok : h.Ok) : (h.record x).count = min (h.count + 1) 10 := by
  have hle := hok.count_le
  by_cases hfull : h.count = 10
  · rw [record_of_full hfull]
    simp only
    omega
  · rw [record_of_room (by omega)]
    simp only
    omega

theorem Ok.record (hok : h.Ok) (hx : x.Ok) (hlt : x.w.toNat < x.e.toNat) : (h.record x).Ok := by
  have hcount := hok.count_nonneg
  have hle := hok.count_le
  have hlast := hok.last
  have hcount' := record_count (x := x) hok
  have hindex : (h.record x).last = (h.record x).count - 1 ∧
      (h.record x).index = (h.record x).count := by
    by_cases hfull : h.count = 10
    · rw [record_of_full hfull]
      exact ⟨hlast, hfull.symm⟩
    · rw [record_of_room (by omega)]
      simp only
      omega
  refine ⟨by omega, by omega, hindex.1, by omega, fun _ => by omega, fun i hi hi' => ?_⟩
  rw [entry_record hok hi hi']
  split
  · exact ⟨hx, hlt⟩
  · split
    · exact hok.entries _ (by omega) (by omega)
    · exact hok.entries _ hi (by omega)

end History

namespace Console

structure Ok (s : Console) : Prop where
  inRange : s.oob = false
  input : s.input.Ok
  cursor : s.input.w.toNat + s.lefts.toNat ≤ s.input.e.toNat
  history : s.history.Ok

theorem ok_boot (screen : Screen) : (boot screen).Ok where
  inRange := rfl
  input := Input.ok_zero
  cursor := Nat.le_refl _
  history := History.ok_zero

structure Amends (s t : Console) : Prop where
  r : t.input.r = s.input.r
  w : t.input.w = s.input.w
  history : t.history = s.history
  oob : t.oob = s.oob
  unread : ∀ j : Fin inputBuf, s.input.r.toNat ≤ j.val → j.val < s.input.w.toNat →
    t.input.buf j = s.input.buf j
  cursor : s.input.w.toNat + t.lefts.toNat ≤ t.input.e.toNat

structure Commits (c : Byte) (s u t : Console) : Prop where
  amends : Amends s u
  longer : u.input.w.toNat < u.input.e.toNat
  last : ∀ j : Fin inputBuf, j.val + 1 = u.input.e.toNat → u.input.buf j = c
  ends : Ends c
  input : t.input = { u.input with w := u.input.e }
  history : t.history = u.history.record u.input
  lefts : t.lefts = 0
  oob : t.oob = u.oob

structure Recalls (index : Int) (s t : Console) : Prop where
  nonneg : 0 ≤ index
  lt : index < s.history.count
  moved : index ≠ s.history.index
  history : t.history = { s.history with index }
  r : t.input.r = (s.history.entry index).r
  w : t.input.w = (s.history.entry index).w
  e : t.input.e.toNat + 1 = (s.history.entry index).e.toNat
  text : ∀ j : Fin inputBuf, j.val < t.input.e.toNat →
    t.input.buf j = (s.history.entry index).buf j
  lefts : t.lefts = 0
  oob : t.oob = s.oob

def destination (h : History) : Key → Option Int
  | .up => if 0 < h.count ∧ 0 < h.index then some (upIndex h) else none
  | .down => if 0 < h.count ∧ h.index < h.count - 1 then some (downIndex h) else none
  | _ => none

def typed (c : Byte) : Byte := if c = ch '\r' then ch '\n' else c

theorem typed_eq (hb : b ≠ ch '\n') (h : typed c = b) : c = b := by
  unfold typed at h
  split at h
  · exact absurd h.symm hb
  · exact h

inductive Acts (s t : Console) : Event → Prop
  | amends (l : Event) : Amends s t → Acts s t l
  | commits (c : Byte) (junk : Junk) (u : Console) : Key.of c = .other → Commits (typed c) s u t →
      Acts s t (.key c junk)
  | recalls (c : Byte) (junk : Junk) (index : Int) : Key.of c = .up ∨ Key.of c = .down →
      destination s.history (Key.of c) = some index → Recalls index s t → Acts s t (.key c junk)
  | takes (n target : Word) : s.input.r.toNat < s.input.w.toNat →
      t = { s with input := { s.input with r := s.input.r + 1 } } → Acts s t (.read n target)

theorem Edit.amends (h : Edit k s t)
    (hlo : s.input.r.toNat < s.input.w.toNat → s.input.w.toNat ≤ k)
    (hcursor : s.input.w.toNat + t.lefts.toNat ≤ t.input.e.toNat) : Amends s t where
  r := h.r
  w := h.w
  history := h.history
  oob := h.oob
  unread j hr hw := h.text j (by have := hlo (by omega); omega)
  cursor := hcursor

theorem Edit.amends_line (h : Edit s.input.w.toNat s t) : Amends s t :=
  h.amends (fun _ => Nat.le_refl _) h.cursor

namespace Ok

variable {s t u : Console} {c : Byte} {k : Nat}

theorem amends (hs : s.Ok) (h : Amends s t) (hbelow : t.input.e.toNat < 127) : t.Ok where
  inRange := h.oob.trans hs.inRange
  cursor := by rw [h.w]; exact h.cursor
  history := by rw [h.history]; exact hs.history
  input :=
    { read := by rw [h.r, h.w]; exact hs.input.read
      write := by rw [h.w]; have := h.cursor; omega
      below := hbelow
      ended := by
        rw [h.r, h.w]
        intro hlt j hj
        rw [h.unread j (by omega) (by omega)]
        exact hs.input.ended hlt j hj }

theorem commits (hs : s.Ok) (h : Commits c s u t) (hbelow : t.input.e.toNat < 127) : t.Ok := by
  have hinput := h.input
  have hu : u.Ok := hs.amends h.amends (by rw [hinput] at hbelow; exact hbelow)
  refine ⟨h.oob.trans hu.inRange, ?_, ?_, ?_⟩
  · rw [hinput]
    refine ⟨hu.input.read.trans hu.input.write, Nat.le_refl _, hu.input.below, fun _ j hj => ?_⟩
    rw [h.last j hj]
    exact h.ends
  · rw [hinput, h.lefts]
    exact Nat.le_refl _
  · rw [h.history]
    exact hu.history.record hu.input h.longer

theorem recalls (hs : s.Ok) (h : Recalls index s t) : t.Ok := by
  obtain ⟨hentry, hlonger⟩ := hs.history.entries index h.nonneg h.lt
  have hbelow := hentry.below
  have he := h.e
  refine ⟨h.oob.trans hs.inRange, ⟨?_, ?_, by omega, ?_⟩, ?_, ?_⟩
  · rw [h.r, h.w]
    exact hentry.read
  · rw [h.w]
    omega
  · rw [h.r, h.w]
    intro hlt j hj
    rw [h.text j (by omega)]
    exact hentry.ended hlt j hj
  · rw [h.w, h.lefts]
    show _ + 0 ≤ _
    omega
  · rw [h.history]
    exact ⟨hs.history.count_nonneg, hs.history.count_le, hs.history.last, Int.le_of_lt h.lt,
      fun _ => h.nonneg, hs.history.entries⟩

theorem takes (hs : s.Ok) (hlt : s.input.r.toNat < s.input.w.toNat) :
    Ok { s with input := { s.input with r := s.input.r + 1 } } := by
  have hsucc : (s.input.r + 1).toNat = s.input.r.toNat + 1 := by bv_omega
  exact ⟨hs.inRange, ⟨by simp only; omega, hs.input.write, hs.input.below,
    fun _ => hs.input.ended hlt⟩, hs.cursor, hs.history⟩

theorem acts (hs : s.Ok) (h : Acts s t l) (hbelow : t.input.e.toNat < 127) : t.Ok := by
  cases h with
  | amends _ h => exact hs.amends h hbelow
  | commits _ _ _ _ h => exact hs.commits h hbelow
  | recalls _ _ _ _ _ h => exact hs.recalls h
  | takes _ _ hlt ht =>
    rw [ht]
    exact hs.takes hlt

theorem refl (hs : s.Ok) : Amends s s := ⟨rfl, rfl, rfl, rfl, fun _ _ _ => rfl, hs.cursor⟩

theorem consolewrite (hs : s.Ok) (h : s.consolewrite bs = some t) : Amends s t :=
  (Edit.consolewrite hs.cursor hs.input.below h).1.amends_line

theorem backspace (hs : s.Ok) (hlt : s.input.w < s.cursor) (h : s.consputc .backspace = some t) :
    Amends s t := by
  have hcur := hs.cursor
  have hbelow := hs.input.below
  have hcursor := cursor_toNat (s := s) (by omega)
  have hlt' : s.input.w.toNat < s.cursor.toNat := hlt
  exact (Edit.backspace (k := s.input.w.toNat) (by omega) (by omega) h).1.amends_line

theorem move {lefts : Word} {right : Bool}
    (h : s.input.w.toNat + lefts.toNat ≤ s.input.e.toNat) :
    Amends s { s.updateCursor right with lefts } :=
  ⟨rfl, rfl, rfl, rfl, fun _ _ _ => rfl, h⟩

theorem killLine (hs : s.Ok) (h : s.killLine = some t) : Amends s t := by
  have hedit := (Edit.killLineFrom (s := { s with
    lefts := 0
    screen := { s.screen with pos := (s.screen.pos + s.lefts.toNat) % 0x10000 } })
    rfl hs.input.write hs.input.below h).1
  exact ⟨hedit.r, hedit.w, hedit.history, hedit.oob, fun j _ hw => hedit.text j hw, hedit.cursor⟩

theorem recallEntry (hx : s.history.entry s.history.index = x)
    (hpos : 0 < x.e.toNat) (he : x.e.toNat ≤ 128) :
    ∃ buf, (∀ j : Fin inputBuf, j.val + 1 < x.e.toNat → buf j = x.buf j) ∧
      s.recallEntry = { s with input := { x with e := x.e - 1, buf } } := by
  have hpred : (x.e - 1).toNat + 1 = x.e.toNat := by bv_omega
  subst hx
  refine ⟨_, fun j hj => ?_, recallEntry_eq (show _ < 128 by omega)⟩
  exact update_of_ne (Fin.ne_of_val_ne (by simp only; omega)) _ _

theorem moveThroughHistory (hs : s.Ok) (hnonneg : 0 ≤ index)
    (hlt : index < s.history.count) (hmoved : index ≠ s.history.index)
    (h : s.moveThroughHistory index = some t) : Recalls index s t := by
  have hbelow := hs.input.below
  obtain ⟨u, hu, hshow⟩ := Option.bind_eq_some_iff.mp h
  obtain ⟨herase, hlefts⟩ := Edit.eraseLineFrom (s := { s with lefts := 0 }) rfl (Nat.le_refl _)
    hs.input.write hbelow (show _ < 129 by simp only; omega) hu
  have hhistory : u.history = s.history := herase.history
  obtain ⟨hentry, hlonger⟩ := hs.history.entries index hnonneg hlt
  obtain ⟨x, hx⟩ : ∃ x, x = s.history.entry index := ⟨_, rfl⟩
  rw [← hx] at hentry hlonger
  have hin := hentry.below
  have hpred : (x.e - 1).toNat + 1 = x.e.toNat := by bv_omega
  obtain ⟨buf, hbuf, hrecall⟩ := recallEntry (s := { u with history := { u.history with index } })
    (x := x) (by rw [hx, hhistory]; rfl) (by omega) (by omega)
  simp only [hrecall] at hshow
  obtain ⟨hedit, hend⟩ := Edit.showLineFrom (k := (x.e - 1).toNat)
    (by simp only [hlefts]; exact Nat.le_refl _) (by simp only; omega)
    (show _ < 129 by simp only; omega) hshow
  have hcursor := hedit.cursor
  rw [hend] at hcursor
  refine ⟨hnonneg, hlt, hmoved, ?_, ?_, ?_, ?_, ?_, ?_, ?_⟩
  · rw [hedit.history, hhistory]
  · rw [hedit.r, ← hx]
  · rw [hedit.w, ← hx]
  · rw [hend, ← hx]
    exact hpred
  · intro j hj
    rw [hend] at hj
    rw [hedit.text j hj, ← hx]
    exact hbuf j (by simp only at hj; omega)
  · exact BitVec.eq_of_toNat_eq (show _ = 0 by simp only at hcursor; omega)
  · rw [hedit.oob]
    exact herase.oob

theorem historyKey (hs : s.Ok) (hkey : Key.of c = .up ∨ Key.of c = .down)
    (h : s.consoleintr fp c junk = some t) :
    t = s ∨ ∃ index, destination s.history (Key.of c) = some index ∧ Recalls index s t := by
  have hindex := hs.history.index_le
  unfold Console.consoleintr at h
  rcases hkey with hkey | hkey
  · simp only [hkey] at h ⊢
    split at h
    · rename_i hguard
      exact .inr ⟨_, if_pos hguard, hs.moveThroughHistory (by unfold upIndex; omega)
        (by unfold upIndex; omega) (by unfold upIndex; omega) h⟩
    · exact .inl (Option.some.inj h).symm
  · simp only [hkey] at h ⊢
    split at h
    · rename_i hguard
      have hnonneg := hs.history.index_nonneg hguard.1
      have hdown : downIndex s.history = s.history.index + 1 := by
        unfold downIndex
        rw [if_neg (by omega)]
      exact .inr ⟨_, if_pos hguard, hs.moveThroughHistory (by omega) (by omega) (by omega) h⟩
    · exact .inl (Option.some.inj h).symm

theorem copyKey (hs : s.Ok) : Amends s s.copyKey := by
  have hbelow := hs.input.below
  obtain ⟨bufCopy, hclear⟩ := Input.clearBufCopyFrom_eq (i := s.input.r) (x := s.input)
    (n := Input.rounds) (show _ ≤ 128 by omega) (show _ < 129 by omega)
  have hcopy : s.onInput (·.clearBufCopy) = { s with input := { s.input with bufCopy } } :=
    onInput_of_some hclear
  unfold Console.copyKey
  rw [hcopy]
  exact ⟨rfl, rfl, rfl, rfl, fun _ _ _ => rfl, hs.cursor⟩

theorem paste (hs : s.Ok) (h : s.paste junk = some t) (hbelow : t.input.e.toNat < 127) :
    Amends s t := by
  have hin := hs.input.below
  have hr := hs.input.read
  have hw := hs.input.write
  unfold Console.paste at h
  split at h
  · obtain ⟨u, hu, rfl⟩ := Option.map_eq_some_iff.mp h
    have hedit := Edit.pasteFrom (t := u) (k := s.input.w.toNat) (by omega) (show 128 < _ + 129 by omega)
      (Nat.le_refl _) (Nat.le_refl _) hs.cursor (by omega) hbelow (by decide) hu
    exact ⟨hedit.r, hedit.w, hedit.history, hedit.oob, fun j _ hw => hedit.text j hw, hedit.cursor⟩
  · cases h
    exact hs.refl

theorem commit (hs : s.Ok) (hu : s.insert c = some u) (hc : Ends c) (hlefts : u.lefts = 0)
    (h : u.commit junk = some t) (hbelow : t.input.e.toNat < 127) : ∃ v, Commits c s v t := by
  have hcur := hs.cursor
  have hin := hs.input.below
  rw [commit_e h] at hbelow
  obtain ⟨hedit, -, hlonger, -⟩ := Edit.insert hs.cursor hin hu
  have hpos : 0 < u.input.e.toNat := by omega
  obtain ⟨v, hv, rfl⟩ := Option.map_eq_some_iff.mp h
  obtain ⟨hprint, hsame⟩ := Edit.historyCommand (k := u.input.e.toNat)
    (s := { u with input := { u.input with flagCopy := false } }) hpos
    (by simp only [hlefts]; exact Nat.le_refl _) hbelow hv
  have hsame' : v.input.e = u.input.e := hsame
  have hcursor := hprint.cursor
  rw [hsame'] at hcursor
  have hzero : v.lefts.toNat = 0 := by omega
  have hw : v.input.w = s.input.w := hprint.w.trans hedit.w
  have hamends : Amends s v := by
    refine ⟨hprint.r.trans hedit.r, hw, hprint.history.trans hedit.history,
      hprint.oob.trans hedit.oob, fun j _ hj => ?_, ?_⟩
    · exact (hprint.text j (by omega)).trans (hedit.text j hj)
    · rw [hsame', hzero]
      omega
  refine ⟨v, hamends, by rw [hw, hsame']; omega, fun j hj => ?_, hc, rfl, rfl,
    BitVec.eq_of_toNat_eq hzero, rfl⟩
  rw [hsame'] at hj
  refine (hprint.text j (by omega)).trans ?_
  exact insert_buf (by omega) hin hu (by rw [hlefts]; exact hj)

end Ok

theorem typeKey_eq {s : Console} {c : Byte} {fp : Arith} (hc : c ≠ ch '?') :
    s.typeKey fp c = s.insert c := by
  simp only [typeKey, if_neg hc, Option.bind_fun_some]

theorem resultText_length (fp : Arith) (negative : Bool)
    (hprints : 0 < fp.digits integer ∨ fraction ≠ 0) :
    0 < (resultText fp negative integer fraction).length ∧
    (resultText fp negative integer fraction).length ≤ 22 := by
  have hinteger := fp.digits_le integer
  have hfraction := fp.digits_le fraction
  have hsign : (if negative then [ch '-'] else []).length ≤ 1 := by cases negative <;> simp
  simp only [resultText, numeral, List.length_append, List.length_map, List.length_reverse,
    List.length_range]
  by_cases hzero : fraction = 0
  · have hdigits := hprints.resolve_right (not_not.mpr hzero)
    simp only [hzero, ne_eq, not_true_eq_false, if_false, List.length_nil]
    omega
  · simp only [ne_eq, hzero, not_false_eq_true, if_true, List.length_cons, List.length_map,
      List.length_reverse, List.length_range]
    omega

/-- A `?` typed here is not the first byte of the buffer, and behind a `=` the search for the
operands meets a byte that is no part of an expression. -/
def Asks (s : Console) : Prop :=
  ∃ c ∈ peek s.input.buf (s.cursor - 1), c = ch '=' →
    ∃ j : Fin inputBuf, j.val + 1 < s.cursor.toNat ∧ ¬ NON.Part (s.input.buf j)

instance (s : Console) : Decidable s.Asks :=
  inferInstanceAs (Decidable (∃ c ∈ peek s.input.buf (s.cursor - 1), c = ch '=' →
    ∃ j : Fin inputBuf, j.val + 1 < s.cursor.toNat ∧ ¬ NON.Part (s.input.buf j)))

namespace Ok

theorem replacing
    (hedit : ∀ k ≤ cur, Edit k s u) (hfound : NON.Found u.input found cur)
    (hcur : u.input.e.toNat = cur + 1 + u.lefts.toNat) (he : u.input.e.toNat ≤ 127)
    (h : replacingNON fp { u with non := found } (fp.eval op a b) = some t)
    (hbelow : t.input.e.toNat < 127) : Amends s t := by
  obtain ⟨v, hv, hrest⟩ := Option.bind_eq_some_iff.mp h
  have hle := hfound.first_le
  have heN2 := hfound.eN2
  have hcount : ((found.eN2 + 2).toInt - found.first.toInt + 1).toNat = cur + 1 - found.first.toNat := by
    have hsum : (found.eN2 + 2).toNat = cur := by bv_omega
    rw [BitVec.toInt_eq_toNat_of_lt (by omega), BitVec.toInt_eq_toNat_of_lt (by omega), hsum]
    omega
  change Console.backspaces ((found.eN2 + 2).toInt - found.first.toInt + 1).toNat _ = _ at hv
  rw [hcount] at hv
  obtain ⟨hback, hsub, hlefts⟩ := Edit.backspaces (k := found.first.toNat) (by simp only; omega)
    (by simp only; omega) hv
  obtain ⟨hpos, hlen⟩ := resultText_length fp (fp.eval op a b).1 (fp.prints op a b)
  have hend := insertAll_e hrest
  simp only at hsub
  have hroom : v.input.e.toNat + (resultText fp (fp.eval op a b).1 (fp.eval op a b).2.1
      (fp.eval op a b).2.2).length ≤ 127 := by
    rw [hend, BitVec.toNat_add, BitVec.toNat_ofNat] at hbelow
    omega
  obtain ⟨hinsert, hcursor⟩ := Edit.insertAll hback.cursor hroom hrest
  have hback' : Edit found.first.toNat u v :=
    ⟨hback.r, hback.w, hback.history, hback.oob, hback.text, hback.cursor⟩
  have hsu := hedit found.first.toNat hle
  have hall := (hsu.trans hback').trans hinsert
  have hge := hfound.le_first
  have hunread := hfound.unread
  rw [hsu.w] at hge
  rw [hsu.r, hsu.w] at hunread
  exact hall.amends hunread (by omega)

theorem evaluate (hs : s.Ok) (hasks : s.Asks) (hu : s.insert (ch '?') = some u)
    (h : u.evaluate fp = some t) (hbelow : t.input.e.toNat < 127) : Amends s t := by
  have hcur := hs.cursor
  have hin := hs.input.below
  have hcursor := cursor_toNat (s := s) (by omega)
  have hedit : ∀ k ≤ s.cursor.toNat, Edit k s u := fun k hlo =>
    (Edit.insert (by omega) hin hu).1
  have htext := hedit s.cursor.toNat (Nat.le_refl _)
  have hlefts := insert_lefts (by decide) hu
  have hend : u.input.e.toNat = s.cursor.toNat + 1 + u.lefts.toNat := by
    rw [insert_e hu, hlefts]
    bv_omega
  have hcursor' : (u.input.e - u.lefts).toNat = s.cursor.toNat + 1 := by bv_omega
  obtain ⟨c, hpeek, hstop⟩ := hasks
  have hpos : 0 < s.cursor.toNat := by
    by_contra hzero
    have hzero' : s.cursor = 0 := BitVec.eq_of_toNat_eq (Nat.eq_zero_of_not_pos hzero)
    rw [hzero'] at hpeek
    cases hpeek
  have hprev : (s.cursor - 1).toNat + 1 = s.cursor.toNat := by bv_omega
  rw [peek_of_lt (show _ < 128 by omega)] at hpeek
  have hstop' : ∀ k : Fin inputBuf, k.val + 1 = s.cursor.toNat → u.input.buf k = ch '=' →
      ∃ j : Fin inputBuf, j.val + 1 < s.cursor.toNat ∧ ¬ NON.Part (u.input.buf j) := by
    intro k hk hequals
    rw [htext.text k (by omega), show k = ⟨(s.cursor - 1).toNat, by omega⟩ from
      Fin.ext (by simp only; omega), Option.some.inj hpeek] at hequals
    obtain ⟨j, hj, hpart⟩ := hstop hequals
    exact ⟨j, hj, by rwa [htext.text j (by omega)]⟩
  have hended : u.input.r.toNat < u.input.w.toNat →
      ∀ k : Fin inputBuf, k.val + 1 = u.input.w.toNat → Ends (u.input.buf k) := by
    rw [htext.r, htext.w]
    intro hlt k hk
    rw [htext.text k (by omega)]
    exact hs.input.ended hlt k hk
  obtain ⟨answer, found, hcheck, hfound⟩ := NON.checkNONPattern_eq (by omega)
    (by rw [htext.r, htext.w]; exact hs.input.read) (by rw [htext.w]; omega) hended u.non hcursor'
    hpos hstop'
  unfold Console.evaluate at h
  rw [hcheck] at h
  simp only at h
  cases answer with
  | false =>
    cases h
    have hline := (hedit _ (show s.input.w.toNat ≤ _ by omega)).amends_line
    exact ⟨hline.r, hline.w, hline.history, hline.oob, hline.unread, hline.cursor⟩
  | true =>
    obtain ⟨op, num1, num2, hvalues⟩ := (hfound rfl).values (by omega)
    simp only [if_true, gettingNONValues, hvalues] at h
    exact replacing hedit (hfound rfl) hend (by rw [hend, hlefts]; omega) h hbelow

theorem typeKey (hs : s.Ok) (hasks : c = ch '?' → s.Asks) (h : s.typeKey fp c = some t)
    (hbelow : t.input.e.toNat < 127) : Amends s t := by
  obtain ⟨u, hu, hrest⟩ := Option.bind_eq_some_iff.mp h
  split at hrest
  · rename_i hc
    subst hc
    exact hs.evaluate (hasks rfl) hu hrest hbelow
  · cases hrest
    obtain ⟨hedit, -⟩ := Edit.insert hs.cursor hs.input.below hu
    exact hedit.amends_line

theorem defaultKey (hs : s.Ok) (heof : c = ctrl 'D' → s.lefts = 0) (hasks : c = ch '?' → s.Asks)
    (h : s.defaultKey fp c junk = some t) (hbelow : t.input.e.toNat < 127) :
    Amends s t ∨ ∃ u, Commits (typed c) s u t := by
  unfold Console.defaultKey at h
  split at h
  case isFalse =>
    cases h
    exact .inl hs.refl
  change ((if typed c = ctrl 'F' then s.paste junk else s.typeKey fp (typed c)).bind fun s =>
    if typed c = ch '\n' ∨ typed c = ctrl 'D' ∨ s.input.e = s.input.r + inputBuf then s.commit junk
    else some s) = some t at h
  obtain ⟨u, hu, hrest⟩ := Option.bind_eq_some_iff.mp h
  have hsame : u.input.e = t.input.e := by
    split at hrest
    · exact (commit_e hrest).symm
    · cases hrest
      rfl
  have hbelow' : u.input.e.toNat < 127 := by rwa [hsame]
  have hamends : Amends s u := by
    split at hu
    · exact hs.paste hu hbelow'
    · exact hs.typeKey (fun hquestion => hasks (typed_eq (by decide) hquestion)) hu hbelow'
  split at hrest
  case isFalse =>
    cases hrest
    exact .inl hamends
  rename_i hends
  rcases hends with hnewline | heof' | hfull
  · rw [hnewline, if_neg (by decide), typeKey_eq (by decide)] at hu
    rw [hnewline]
    exact .inr (hs.commit hu (.inl rfl) (insert_newline_lefts hu) hrest hbelow)
  · have hlefts := heof (typed_eq (by decide) heof')
    rw [heof', if_neg (by decide), typeKey_eq (by decide)] at hu
    rw [heof']
    exact .inr (hs.commit hu (.inr rfl) ((insert_lefts (by decide) hu).trans hlefts) hrest hbelow)
  · have hok := hs.amends hamends hbelow'
    have hr := hok.input.read
    have hw := hok.input.write
    have hsum : (u.input.r + (inputBuf : Word)).toNat = u.input.r.toNat + 128 := by
      show (u.input.r + 128#32).toNat = _
      bv_omega
    rw [hfull] at hw hbelow'
    omega

theorem consoleintr (hs : s.Ok) (heof : c = ctrl 'D' → s.lefts = 0) (hasks : c = ch '?' → s.Asks)
    (h : s.consoleintr fp c junk = some t) (hbelow : t.input.e.toNat < 127) :
    Acts s t (.key c junk) := by
  have hcur := hs.cursor
  have hin := hs.input.below
  have hcursor := cursor_toNat (s := s) (by omega)
  have hstep := h
  unfold Console.consoleintr at h
  cases hkey : Key.of c with
  | procdump =>
    simp only [hkey, Option.some.injEq] at h
    exact .amends _ (h ▸ hs.refl)
  | kill =>
    simp only [hkey] at h
    exact .amends _ (hs.killLine h)
  | backspace =>
    simp only [hkey] at h
    split at h
    · exact .amends _ (hs.backspace ‹_› h)
    · cases h
      exact .amends _ hs.refl
  | copy =>
    simp only [hkey, Option.some.injEq] at h
    exact .amends _ (h ▸ hs.copyKey)
  | left =>
    simp only [hkey] at h
    split at h
    · rename_i hlt
      have hlt' : s.input.w.toNat < s.cursor.toNat := hlt
      have hsucc : (s.lefts + 1).toNat = s.lefts.toNat + 1 := by bv_omega
      obtain rfl := Option.some.inj h
      exact .amends _ (move (by omega))
    · cases h
      exact .amends _ hs.refl
  | right =>
    simp only [hkey] at h
    split at h
    · rename_i hlt
      have hpos : s.lefts ≠ 0 := by
        intro hzero
        rw [hzero] at hlt
        exact absurd hlt (by decide)
      have hpred : (s.lefts - 1).toNat < s.lefts.toNat := by bv_omega
      obtain rfl := Option.some.inj h
      exact .amends _ (move (by omega))
    · cases h
      exact .amends _ hs.refl
  | up =>
    rcases hs.historyKey (.inl hkey) hstep with rfl | ⟨index, hindex, hrecalls⟩
    · exact .amends _ hs.refl
    · exact .recalls c junk index (.inl hkey) hindex hrecalls
  | down =>
    rcases hs.historyKey (.inr hkey) hstep with rfl | ⟨index, hindex, hrecalls⟩
    · exact .amends _ hs.refl
    · exact .recalls c junk index (.inr hkey) hindex hrecalls
  | other =>
    simp only [hkey] at h
    rcases hs.defaultKey heof hasks h hbelow with hamends | ⟨u, hcommits⟩
    · exact .amends _ hamends
    · exact .commits c junk u hkey hcommits

theorem consoleread (hs : s.Ok)
    (h : s.consoleread n target = some (taken, t)) : Acts s t (.read n target) := by
  have hr := hs.input.read
  unfold Console.consoleread at h
  split at h
  case isFalse => cases h
  rename_i hguard
  have hlt : s.input.r.toNat < s.input.w.toNat :=
    Nat.lt_of_le_of_ne hr fun heq => hguard.2 (BitVec.eq_of_toNat_eq heq)
  simp only at h
  split at h
  · have ht := congrArg Prod.snd (Option.some.inj h)
    simp only at ht
    split at ht
    · exact .amends _ (ht ▸ hs.refl)
    · exact .takes n target hlt ht.symm
  · exact .takes n target hlt (congrArg Prod.snd (Option.some.inj h)).symm

end Ok

/-- What has to hold of the keys typed: `^D` at the end of the line only, and `?` only where the
search for an expression stays inside the buffer. -/
def Careful (s : Console) : Event → Prop
  | .key c _ => (c = ctrl 'D' → s.lefts = 0) ∧ (c = ch '?' → s.Asks)
  | _ => True

instance (s : Console) : (l : Event) → Decidable (s.Careful l)
  | .key _ _ => inferInstanceAs (Decidable (_ ∧ _))
  | .read _ _ | .write _ | .print _ _ => isTrue trivial

variable {s t : Console} {fp : Arith} {screen : Screen} {l : Event} {es : List (Console × Event)}

theorem Step.acts (h : Step fp s l t) (hs : s.Ok) (hcareful : s.Careful l)
    (hbelow : t.input.e.toNat < 127) : Acts s t l := by
  cases l with
  | key c junk => exact hs.consoleintr hcareful.1 hcareful.2 h hbelow
  | read n target =>
    obtain ⟨⟨taken, u⟩, hu, rfl⟩ := Option.map_eq_some_iff.mp h
    exact hs.consoleread hu
  | write bs => exact .amends _ (hs.consolewrite h)
  | print fmt args => exact .amends _ (hs.consolewrite h)

theorem Ok.step (hs : s.Ok) (hcareful : s.Careful l) (h : Step fp s l t)
    (hbelow : t.input.e.toNat < 127) : t.Ok := hs.acts (h.acts hs hcareful hbelow) hbelow

def Short (s : Console) : Prop := s.input.e.toNat < 127

instance (s : Console) : Decidable s.Short := Nat.decLt _ _

theorem always_ok (h : Run (Step fp) (boot screen) es s) (hshort : Run.Always Short es s)
    (hcareful : ∀ e ∈ es, Careful e.1 e.2) : Run.Always Ok es s := by
  have hstep : ∀ s l t, Step fp s l t → (Short s ∧ Careful s l) → (Short s → s.Ok) → Short t → t.Ok :=
    fun s l t h hcond hs hbelow => (hs hcond.1).step hcond.2 h hbelow
  obtain ⟨hes, hlast⟩ := h.always_invariant hstep
    (fun e he => ⟨hshort.1 e he, hcareful e he⟩) (fun _ => ok_boot screen)
  exact ⟨fun e he => hes e he (hshort.1 e he), hlast hshort.2⟩

end Console

end Xv6
