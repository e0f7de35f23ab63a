import Xv6.Console.Editor

namespace Xv6.Console

open Function Lib

variable {s t u : Console} {c : Byte} {n start lo : Nat} {z : Zipper Byte} {ed : Editor}

def Draws (start : Nat) (s : Console) (z : Zipper Byte) : Prop :=
  (z.map cell).In (fun i : Nat => s.screen.crt i) start s.screen.pos
    (s.screen.pos + s.lefts.toNat)

def Blank (s : Console) : Prop :=
  s.screen.crt (s.screen.pos + s.lefts.toNat : Nat) = cell (ch ' ')

theorem settle_of_lt (h : pos < 24 * 80) : s.settle pos = some { s with
    screen := ⟨update s.screen.crt (pos + s.lefts.toInt) (cell (ch ' ')), pos⟩ } := by
  unfold settle
  rw [if_neg (by omega)]
  simp only
  rw [if_neg (by omega)]

theorem insert_screen (hc : c ≠ ch '\n') (hpos : s.screen.pos + 1 < 24 * 80)
    (h : s.insert c = some t) :
    t.screen.pos = s.screen.pos + 1 ∧ t.screen.crt = update
      (update
        (fun i : Int => if s.screen.pos < i ∧ i ≤ s.screen.pos + s.lefts.toInt then
          s.screen.crt (i - 1) else s.screen.crt i) s.screen.pos (cell c))
      ((s.screen.pos + 1 : Nat) + s.lefts.toInt : Int) (cell (ch ' ')) := by
  simp only [insert, consputc, cgaputc, if_neg hc, settle_of_lt hpos, Option.map_some,
    Option.some.injEq] at h
  subst h
  simp only [shiftRightNextChars, onInput_lefts, and_self]

theorem backspace_screen (hpos : s.screen.pos - 1 < 24 * 80) (h : s.consputc .backspace = some t) :
    t.screen.pos = s.screen.pos - 1 ∧ t.screen.crt = update
      (fun i : Int => if s.screen.pos - 1 ≤ i ∧ i < s.screen.pos + s.lefts.toInt then
        s.screen.crt (i + 1) else s.screen.crt i)
      ((s.screen.pos - 1 : Nat) + s.lefts.toInt : Int) (cell (ch ' ')) := by
  simp only [consputc, cgaputc, settle_of_lt hpos, Option.some.injEq] at h
  subst h
  simp only [shiftLeftNextChars, onInput_lefts, and_self]

theorem killLine_eq (h : s.screen.pos + s.lefts.toNat < 0x10000) :
    s.killLine = killLineFrom (s.input.e - s.input.w).toNat
      { s with lefts := 0, screen := ⟨s.screen.crt, s.screen.pos + s.lefts.toNat⟩ } := by
  simp only [killLine, Nat.mod_eq_of_lt h]

namespace Shows

theorem line_empty (h : Shows lo s ed) (heq : s.input.e = s.input.w) : ed.toZipper = .empty := by
  have hall := h.line.all
  rw [heq, slice_self] at hall
  obtain ⟨hleft, hright⟩ := List.append_eq_nil_iff.mp hall.symm
  exact Zipper.ext hleft hright

theorem last_ne (h : Shows lo s ed) (hone : ed.OneLine) (hlt : s.input.w.toNat < s.input.e.toNat) :
    s.input.buf (place (s.input.e - 1)) ≠ ch '\n' := by
  have hpred : (s.input.e - 1).toNat + 1 = s.input.e.toNat := by bv_omega
  refine hone (s.input.byteAt (s.input.e - 1).toNat) ?_
  rw [← h.line.all]
  exact List.mem_map_of_mem (List.mem_range'_1.mpr ⟨by omega, by omega⟩)

end Shows

namespace Draws

theorem insert (h : Draws start s z) (hlefts : s.lefts.toNat < 2 ^ 31) (hc : c ≠ ch '\n')
    (hpos : s.screen.pos + 1 < 24 * 80) (hins : s.insert c = some t) :
    Draws start t (z.insert c) ∧ t.Blank := by
  obtain ⟨hcur, hcrt⟩ := insert_screen hc hpos hins
  rw [BitVec.toInt_eq_toNat_of_lt (by omega)] at hcrt
  unfold Draws Blank
  rw [insert_lefts hc hins, hcur, hcrt, Zipper.map_insert]
  constructor
  · rw [Nat.add_right_comm]
    refine Zipper.In.insert h (fun i hi => ?_) ?_ fun i hlo hhi => ?_
    · rw [update_of_ne (by omega), update_of_ne (by omega), if_neg (by omega)]
    · rw [update_of_ne (by omega), update_self]
    · rw [update_of_ne (by omega), update_of_ne (by omega), if_pos (by omega)]
      simp
  · rw [Int.natCast_add (s.screen.pos + 1), update_self]

theorem backspace (h : Draws start s z) (hlefts : s.lefts.toNat < 2 ^ 31) (hlt : start < s.screen.pos)
    (hpos : s.screen.pos ≤ 24 * 80) (hsame : t.lefts = s.lefts)
    (hback : s.consputc .backspace = some t) : Draws start t z.delete ∧ t.Blank := by
  obtain ⟨hcur, hcrt⟩ := backspace_screen (by omega) hback
  rw [BitVec.toInt_eq_toNat_of_lt (by omega)] at hcrt
  obtain ⟨cur, hsucc⟩ : ∃ cur, s.screen.pos = cur + 1 := ⟨s.screen.pos - 1, by omega⟩
  have hline := h
  unfold Draws at hline
  rw [hsucc, Nat.add_right_comm] at hline
  unfold Draws Blank
  rw [hsame, hcur, hcrt, Zipper.map_delete]
  constructor
  · rw [show s.screen.pos - 1 = cur by omega]
    refine Zipper.In.delete hline (by omega) (fun i hi => ?_) fun i hlo hhi => ?_
    · rw [update_of_ne (by omega), if_neg (by omega)]
    · rw [update_of_ne (by omega), if_pos (by omega)]
      rfl
  · rw [Int.natCast_add (s.screen.pos - 1), update_self]

theorem pos_add (h : Draws start s ed.toZipper) (hshows : Shows lo s ed) :
    s.screen.pos + s.lefts.toNat = start + (s.input.e.toNat - s.input.w.toNat) := by
  have hcells := congrArg List.length (Zipper.In.all h)
  have hbytes := congrArg List.length hshows.line.all
  have hlo := Zipper.In.lo_le h
  simp only [length_slice, Zipper.map, ← List.map_append, List.length_map] at hcells hbytes
  omega

theorem killLineFrom (h : Draws start s ed.toZipper) (hshows : Shows lo s ed) (hone : ed.OneLine)
    (hlefts : s.lefts = 0) (he : s.input.e.toNat < 127) (hpos : s.screen.pos < 24 * 80)
    (hn : s.input.e.toNat - s.input.w.toNat ≤ n) (hkill : Console.killLineFrom n s = some t) :
    Draws start t .empty ∧ (s.input.e ≠ s.input.w ∨ s.Blank → t.Blank) := by
  have hdone : ∀ {s : Console} {ed : Editor}, Draws start s ed.toZipper → Shows lo s ed →
      s.input.e = s.input.w → s = t →
      Draws start t .empty ∧ (s.input.e ≠ s.input.w ∨ s.Blank → t.Blank) := by
    rintro s ed h hshows heq rfl
    exact ⟨hshows.line_empty heq ▸ h, fun hblank => hblank.resolve_left (not_not_intro heq)⟩
  induction n generalizing s ed with
  | zero =>
    have hw := hshows.line.lo_le.trans hshows.line.le_hi
    exact hdone h hshows (BitVec.eq_of_toNat_eq (by omega)) (Option.some.inj hkill)
  | succ n ih =>
    rw [Console.killLineFrom] at hkill
    by_cases heq : s.input.e = s.input.w
    · rw [if_neg fun hguard => hguard.1 heq] at hkill
      exact hdone h hshows heq (Option.some.inj hkill)
    · have hw := hshows.line.lo_le.trans hshows.line.le_hi
      have hlt : s.input.w.toNat < s.input.e.toNat :=
        Nat.lt_of_le_of_ne hw fun hsame => heq (BitVec.eq_of_toNat_eq hsame.symm)
      have hcursor : s.cursor.toNat + 0 = s.input.e.toNat := by
        simpa [hlefts] using hshows.cursor_add
      have hend : s.screen.pos + 0 = start + (s.input.e.toNat - s.input.w.toNat) := by
        simpa [hlefts] using h.pos_add hshows
      rw [if_pos ⟨heq, hshows.last_ne hone hlt⟩] at hkill
      obtain ⟨u, hu, hrest⟩ := Option.bind_eq_some_iff.mp hkill
      obtain ⟨hedit, hpred, hsame⟩ := Edit.backspace (k := s.input.w.toNat)
        (by rw [hlefts]; show _ + 0 < _; omega) (by omega) hu
      have hfront : s.input.w < s.cursor := show s.input.w.toNat < s.cursor.toNat by omega
      obtain ⟨hdraws, hblank⟩ := h.backspace (by rw [hlefts]; decide) (by omega) (by omega) hsame hu
      have hscreen := (backspace_screen (by omega) hu).1
      have hshown := hshows.backspace he hfront hu
      obtain ⟨hempty, hlast⟩ := ih hdraws hshown hone.delete (hsame.trans hlefts) (by omega) (by omega)
        (by rw [hedit.w]; omega) hrest
      exact ⟨hempty, fun _ => hlast (.inr hblank)⟩

theorem move (start : Nat) (s : Console) (z' : Zipper Byte) (lefts : Word) (right : Bool)
    (hend : (s.updateCursor right).screen.pos + lefts.toNat = s.screen.pos + s.lefts.toNat)
    (hline : (z'.map cell).In (fun i : Nat => s.screen.crt i) start
      (s.updateCursor right).screen.pos (s.screen.pos + s.lefts.toNat)) :
    Draws start { s.updateCursor right with lefts } z' ∧
      (s.Blank → Blank { s.updateCursor right with lefts }) := by
  unfold Draws Blank
  simp only
  rw [hend]
  exact ⟨hline, id⟩

end Draws

/-- The keys that leave the line one line: printable characters other than `?`, erasing and moving
the cursor. -/
def Types (c : Byte) : Prop :=
  (0x20 ≤ c ∧ c < 0x7f ∧ c ≠ ch '?') ∨ c ∈ [ctrl 'H', 0x7f, 0xe4, 0xe5, ctrl 'U']

instance (c : Byte) : Decidable (Types c) := inferInstanceAs (Decidable (_ ∨ _))

theorem Types.edits (h : Types c) : Edits c := by
  revert c
  decide +kernel

theorem Types.ne_newline (h : Types c) : ¬(c = ch '\n' ∨ c = ch '\r') := by
  revert c
  decide +kernel

def Alters (s : Console) (c : Byte) : Prop :=
  match Key.of c with
  | .kill => s.input.e ≠ s.input.w
  | .backspace => s.input.w < s.cursor
  | .left | .right => False
  | _ => True

def Fits (start : Nat) (s : Console) : Prop :=
  start + (s.input.e.toNat - s.input.w.toNat) < 24 * 80

instance (start : Nat) (s : Console) : Decidable (s.Fits start) := Nat.decLt _ _

theorem Draws.consoleintr (h : Draws start s ed.toZipper) (hshows : Shows lo s ed) (hone : ed.OneLine)
    (he : s.input.e.toNat < 127) (hfits : s.Fits start) (hc : Types c)
    (hkey : s.consoleintr fp c junk = some t) (hfits' : t.Fits start) :
    Draws start t (ed.press c).toZipper ∧ (s.Alters c ∨ s.Blank → t.Blank) := by
  have hend := h.pos_add hshows
  have hcursor := hshows.cursor_add
  have hle := hshows.cursor_le
  have hlo := Zipper.In.lo_le h
  unfold Fits at hfits hfits'
  unfold Console.consoleintr at hkey
  unfold Alters Editor.press
  rcases hc.edits.key with hof | hof | hof | hof | hof
  · simp only [hof] at hkey ⊢
    rw [killLine_eq (by omega)] at hkey
    obtain ⟨v, hv⟩ : ∃ v : Console, v = { s with
      lefts := 0, screen := ⟨s.screen.crt, s.screen.pos + s.lefts.toNat⟩ } := ⟨_, rfl⟩
    rw [← hv] at hkey
    have hhome : Draws start v ⟨ed.left ++ ed.right, []⟩ := by
      rw [hv]
      exact ⟨hlo.trans (Nat.le_add_right _ _), Nat.le_refl _,
        (Zipper.In.all h).trans List.map_append.symm, slice_self⟩
    have hshown : Shows lo v { ed with toZipper := ⟨ed.left ++ ed.right, []⟩ } := by
      rw [hv]
      exact hshows.home _
    obtain ⟨hdraws, hblank⟩ := Draws.killLineFrom hhome hshown (by simpa [Editor.OneLine] using hone) (by rw [hv])
      (by rw [hv]; exact he) (by rw [hv]; simp only; omega)
      (by rw [hv]; simp only; bv_omega) hkey
    rw [hv] at hblank
    exact ⟨hdraws, hblank⟩
  · simp only [hof] at hkey ⊢
    split at hkey
    · rename_i hlt
      have hlt' : s.input.w.toNat < s.cursor.toNat := hlt
      obtain ⟨-, -, hsame⟩ := Edit.backspace (k := s.input.w.toNat) (by omega) (by omega) hkey
      obtain ⟨hdraws, hblank⟩ := h.backspace (by omega) (by omega) (by omega) hsame hkey
      exact ⟨hdraws, fun _ => hblank⟩
    · rename_i hstart
      cases hkey
      rw [(hshows.line_start hstart).delete_start]
      exact ⟨h, fun hblank => hblank.resolve_left hstart⟩
  · simp only [hof] at hkey ⊢
    split at hkey
    · rename_i hlt
      have hlt' : s.input.w.toNat < s.cursor.toNat := hlt
      have hlefts : (s.lefts + 1).toNat = s.lefts.toNat + 1 := by bv_omega
      obtain ⟨cur, hsucc⟩ : ∃ cur, s.screen.pos = cur + 1 := ⟨s.screen.pos - 1, by omega⟩
      have hpos : (s.updateCursor false).screen.pos = cur := by
        show (s.screen.pos + 0xffff) % 0x10000 = cur
        omega
      cases hkey
      obtain ⟨hdraws, hblank⟩ := Draws.move start s ed.moveLeft (s.lefts + 1) false (by omega) (by
          rw [hpos, Zipper.map_moveLeft]
          refine Zipper.In.moveLeft ?_ (by omega)
          rw [← hsucc]
          exact h)
      exact ⟨hdraws, fun hb => hblank (hb.resolve_left id)⟩
    · rename_i hstart
      cases hkey
      rw [(hshows.line_start hstart).moveLeft_start]
      exact ⟨h, fun hb => hb.resolve_left id⟩
  · simp only [hof] at hkey ⊢
    have hsigned := slt_zero (i := s.lefts) (by omega)
    split at hkey
    · rename_i hlt
      have hlt' : 0 < s.lefts.toNat := hsigned.mp hlt
      have hlefts : (s.lefts - 1).toNat = s.lefts.toNat - 1 := by bv_omega
      have hpos : (s.updateCursor true).screen.pos = s.screen.pos + 1 := by
        show (s.screen.pos + 1) % 0x10000 = _
        omega
      cases hkey
      obtain ⟨hdraws, hblank⟩ := Draws.move start s ed.moveRight (s.lefts - 1) true (by omega) (by
          rw [hpos, Zipper.map_moveRight]
          exact Zipper.In.moveRight h (by omega))
      exact ⟨hdraws, fun hb => hblank (hb.resolve_left id)⟩
    · rename_i hend'
      have hzero : ¬ 0 < s.lefts.toNat := fun hlt => hend' (hsigned.mpr hlt)
      cases hkey
      have hline := hshows.line
      rw [show s.cursor.toNat = s.input.e.toNat by omega] at hline
      rw [hline.moveRight_end]
      exact ⟨h, fun hb => hb.resolve_left id⟩
  · simp only [hof] at hkey ⊢
    have hins := hshows.defaultKey_insert he hc.edits hc.ne_newline hkey
    have hends : t.input.e.toNat = s.input.e.toNat + 1 := by
      rw [insert_e hins]
      bv_omega
    obtain ⟨hedit, -⟩ := Edit.insert (k := s.input.w.toNat) hle he hins
    rw [hedit.w, hends] at hfits'
    rw [if_neg hc.ne_newline]
    obtain ⟨hdraws, hblank⟩ := h.insert (by omega) (fun hnewline => hc.ne_newline (.inl hnewline))
      (by omega) hins
    exact ⟨hdraws, fun _ => hblank⟩

theorem Draws.run (hrun : Run (Pressed fp) s es t)
    (h : Draws start s ed.toZipper) (hshows : Shows lo s ed) (hone : ed.OneLine)
    (hkeys : ∀ e ∈ es, Types e.2.1) (hshort : Run.Always Short es t)
    (hfits : Run.Always (Fits start) es t) :
    Draws start t (edited es ed).toZipper ∧
      ((∃ e ∈ es, e.1.Alters e.2.1) ∨ s.Blank → t.Blank) := by
  induction hrun generalizing ed with
  | nil => exact ⟨h, fun hb => hb.resolve_left fun ⟨e, he, _⟩ => by cases he⟩
  | @cons s k u es t hstep hrest ih =>
    obtain ⟨hkey, hkeys⟩ := List.forall_mem_cons.mp hkeys
    have hs : s.Short := hshort.start (.cons hstep hrest)
    have hu : u.Short := hshort.tail.start hrest
    obtain ⟨hdraws, hblank⟩ := h.consoleintr hshows hone hs (hfits.start (.cons hstep hrest)) hkey
      hstep (hfits.tail.start hrest)
    obtain ⟨hlast, hblanks⟩ := ih hdraws (hshows.consoleintr hone hs hkey.edits hstep hu)
      (hone.press k.1) hkeys hshort.tail hfits.tail
    refine ⟨hlast, ?_⟩
    rintro (⟨e, he, halters⟩ | hb)
    · rcases List.mem_cons.mp he with rfl | he
      · exact hblanks (.inr (hblank (.inl halters)))
      · exact hblanks (.inl ⟨e, he, halters⟩)
    · exact hblanks (.inr (hblank (.inr hb)))

structure InStep (start : Nat) (s : Console) : Prop where
  cells : ∀ j < (s.input.e - s.input.w).toNat,
    s.screen.crt (start + j : Nat) = cell (s.input.byteAt (s.input.w.toNat + j))
  pos : s.screen.pos + s.lefts.toNat = start + (s.input.e - s.input.w).toNat

theorem Draws.inStep (h : Draws start s ed.toZipper) (hshows : Shows lo s ed) : InStep start s := by
  have hw := hshows.line.lo_le.trans hshows.line.le_hi
  have hlen : (s.input.e - s.input.w).toNat = s.input.e.toNat - s.input.w.toNat := by bv_omega
  have hend := h.pos_add hshows
  have hcells := Zipper.In.all h
  have hmap : slice (fun i : Nat => s.screen.crt i) start (s.screen.pos + s.lefts.toNat) =
      (slice s.input.byteAt s.input.w.toNat s.input.e.toNat).map cell := by
    rw [hshows.line.all, hcells]
    exact List.map_append.symm
  refine ⟨fun j hj => ?_, by rw [hlen]; exact hend⟩
  have hget := congrArg (fun l => l[j]?) hmap
  have hj' : j < s.input.e.toNat - s.input.w.toNat := by omega
  have hj'' : j < s.screen.pos + s.lefts.toNat - start := by omega
  simpa [slice, hj', hj''] using hget

theorem screen_shows_buffer {es : List (Console × Byte × Junk)} (hoob : s.oob = false)
    (hread : s.input.r.toNat ≤ s.input.w.toNat) (hempty : s.input.e = s.input.w)
    (hlefts : s.lefts = 0) (hrun : Run (Pressed fp) s es t) (hkeys : ∀ e ∈ es, Types e.2.1)
    (hshort : Run.Always Short es t) (hfits : Run.Always (Fits s.screen.pos) es t) :
    InStep s.screen.pos t ∧
    ((∃ e ∈ es, e.1.Alters e.2.1) →
      t.screen.crt (s.screen.pos + (t.input.e - t.input.w).toNat : Nat) = cell (ch ' ')) ∧
    ∀ k, Types k.1 → ∃ u, Pressed fp t k u := by
  obtain ⟨hshows, hnext⟩ := editor_refines_zipper hoob hread hempty hlefts hrun
    (fun e he => (hkeys e he).edits) hshort
  have hstart : Shows s.input.w.toNat s .empty := .of_empty hoob hread hempty hlefts
  have hdrawn : Draws s.screen.pos s Editor.empty.toZipper := by
    unfold Draws
    rw [hlefts]
    exact .empty
  obtain ⟨hdraws, hblank⟩ := hdrawn.run hrun hstart (fun c hc => by cases hc) hkeys hshort hfits
  have hstep := hdraws.inStep hshows
  have hlast := hfits.2
  refine ⟨hstep, fun halters => ?_, fun k hk => hnext k.1 k.2 hk.edits ?_⟩
  · rw [← hstep.pos]
    exact hblank (.inl halters)
  · rw [hdraws.pos_add hshows]
    exact Nat.lt_trans hlast (by decide)

def retyping : List (Byte × Junk) :=
  [ch 'a', ch 'b', 0xe4, ch 'c', ctrl 'H'].map fun c =>
    (c, ⟨0, fun _ => 0, fun _ => ⟨fun _ => 0, fun _ => []⟩, fun _ => []⟩)

theorem screen_shows_buffer_retyping :
    ∃ es s, Run (Pressed sums) dark es s ∧ InStep 0 s ∧ es.length = 5 := by
  obtain ⟨s, hrun, hs⟩ := Run.of_exec_any (fun s k => s.next sums (.key k.1 k.2)) dark retyping
    (fun s => s.Short ∧ s.Fits 0) (by decide +kernel)
  obtain ⟨hlast, hfit⟩ := of_decide_eq_true hs
  have hshort : Run.Always Short (trace (fun s k => s.next sums (.key k.1 k.2)) dark retyping) s :=
    ⟨by decide +kernel, hlast⟩
  have hfits : Run.Always (Fits 0) (trace (fun s k => s.next sums (.key k.1 k.2)) dark retyping) s :=
    ⟨by decide +kernel, hfit⟩
  obtain ⟨hstep, -⟩ := screen_shows_buffer rfl (Nat.le_refl _) rfl rfl hrun (by decide +kernel)
    hshort hfits
  exact ⟨_, s, hrun, hstep, by decide +kernel⟩

end Xv6.Console
