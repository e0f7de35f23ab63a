import Xv6.Console.Bounds

namespace Xv6

namespace Input

variable {x : Input} {lefts : Word}

theorem shiftRight_idle (h : x.e.toNat < lefts.toNat ∨ x.e = -1) : x.shiftRight lefts = some x := by
  have hstop : ¬ x.e - lefts < x.e + 1 := by
    rcases h with h | h
    · bv_omega
    · rw [h]
      exact BitVec.not_lt_zero
  exact if_neg hstop

theorem shiftRight_outside (hl : lefts.toNat ≤ x.e.toNat) (he : x.e ≠ -1) (h : 127 ≤ x.e.toNat) :
    x.shiftRight lefts = none := by
  have hsucc : (x.e + 1).toNat = x.e.toNat + 1 := by bv_omega
  have hstop : x.e - lefts < x.e + 1 := by bv_omega
  have hout : ∀ (a : Fin inputBuf → Byte) c, poke a (x.e + 1) c = none := fun a c =>
    dif_neg (show ¬ _ < 128 by omega)
  have hmove : x.move (x.e + 1) (x.e + 1 - 1) = none := by
    unfold move
    simp only [hout]
    cases peek x.buf (x.e + 1 - 1) <;> rfl
  refine (if_pos hstop).trans ?_
  rw [hmove]
  rfl

end Input

namespace Console

open Lib

variable {s t : Console} {c : Byte} {bs : List Byte}

def echoAll (s : Console) (bs : List Byte) : Console := bs.foldl echo s

theorem echo_screen (screen : Screen) : echo { s with screen } c = { s.echo c with screen } := by
  unfold echo
  split
  · rfl
  · unfold onInput
    simp only
    cases s.input.shiftRight s.lefts <;> rfl

theorem echoAll_screen (screen : Screen) :
    echoAll { s with screen } bs = { s.echoAll bs with screen } := by
  induction bs generalizing s with
  | nil => rfl
  | cons c bs ih =>
    simp only [echoAll, List.foldl_cons, echo_screen]
    exact ih

theorem consolewrite_eq (h : s.consolewrite bs = some t) :
    ∃ screen, t = { s.echoAll bs with screen } := by
  induction bs generalizing s with
  | nil =>
    obtain rfl := Option.some.inj h
    exact ⟨_, rfl⟩
  | cons c bs ih =>
    obtain ⟨u, hu, hrest⟩ := Option.bind_eq_some_iff.mp (by simpa [consolewrite] using h)
    obtain ⟨screen, rfl⟩ := consputc_char hu
    obtain ⟨screen', rfl⟩ := ih hrest
    exact ⟨screen', by rw [echoAll_screen]; rfl⟩

def Calm (s : Console) (bs : List Byte) : Prop := s.lefts = 0 ∨ ch '\n' ∉ bs

theorem echo_lefts (hc : c ≠ ch '\n') : (s.echo c).lefts = s.lefts := by
  rw [echo, if_neg hc, onInput_lefts]

theorem Calm.cons (h : s.Calm (c :: bs)) :
    (s.echo c).Calm bs ∧ (s.echo c).lefts = s.lefts ∧ (c = ch '\n' → s.echo c = s) := by
  by_cases hc : c = ch '\n'
  · have hzero : s.lefts = 0 := h.resolve_right fun hnot => hnot (hc ▸ List.mem_cons_self)
    have hsame : s.echo c = s := by
      rw [echo, if_pos hc, ← hzero]
    rw [hsame]
    exact ⟨.inl hzero, rfl, fun _ => rfl⟩
  · have hlefts := echo_lefts (s := s) hc
    refine ⟨h.imp (fun hzero => hlefts.trans hzero) fun hnot hmem => ?_, hlefts, fun h => absurd h hc⟩
    exact hnot (List.mem_cons_of_mem c hmem)

theorem echoAll_lefts_of_zero (h : s.lefts = 0) : (s.echoAll bs).lefts = 0 := by
  induction bs generalizing s with
  | nil => exact h
  | cons c bs ih =>
    have hcalm : s.Calm (c :: bs) := .inl h
    exact ih (hcalm.cons.2.1.trans h)

theorem echoAll_lefts_of_newline (h : ch '\n' ∈ bs) : (s.echoAll bs).lefts = 0 := by
  induction bs generalizing s with
  | nil => cases h
  | cons c bs ih =>
    by_cases hc : c = ch '\n'
    · refine echoAll_lefts_of_zero (s := s.echo c) ?_
      rw [echo, if_pos hc]
    · exact ih ((List.mem_cons.mp h).resolve_left (Ne.symm hc))

theorem echoAll_of_idle (hcalm : s.Calm bs)
    (h : (∀ c ∈ bs, c = ch '\n') ∨ s.input.shiftRight s.lefts = some s.input) :
    s.echoAll bs = s := by
  induction bs with
  | nil => rfl
  | cons c bs ih =>
    obtain ⟨hrest, -, hnewline⟩ := hcalm.cons
    have hsame : s.echo c = s := by
      by_cases hc : c = ch '\n'
      · exact hnewline hc
      · have hidle := h.resolve_left fun hall => hc (hall c List.mem_cons_self)
        rw [echo, if_neg hc]
        exact onInput_of_some hidle
    rw [hsame] at hrest
    change echoAll (s.echo c) bs = s
    rw [hsame]
    exact ih hrest (h.imp_left fun hall c hc => hall c (List.mem_cons_of_mem _ hc))

theorem echo_oob (h : s.oob = true) : (s.echo c).oob = true := by
  unfold echo
  split
  · exact h
  · unfold onInput
    split
    · exact h
    · rfl

theorem echoAll_oob (h : s.oob = true) : (s.echoAll bs).oob = true := by
  induction bs generalizing s with
  | nil => exact h
  | cons c bs ih => exact ih (echo_oob h)

theorem echoAll_outside (hcalm : s.Calm bs) (h : s.input.shiftRight s.lefts = none)
    (hsome : ∃ c ∈ bs, c ≠ ch '\n') : (s.echoAll bs).oob = true := by
  induction bs with
  | nil =>
    obtain ⟨c, hc, -⟩ := hsome
    cases hc
  | cons c bs ih =>
    obtain ⟨hrest, -, hnewline⟩ := hcalm.cons
    by_cases hc : c = ch '\n'
    · obtain ⟨d, hd, hne⟩ := hsome
      rw [hnewline hc] at hrest
      change (echoAll (s.echo c) bs).oob = true
      rw [hnewline hc]
      refine ih hrest ⟨d, (List.mem_cons.mp hd).resolve_left fun heq => hne (heq.trans hc), hne⟩
    · refine echoAll_oob (s := s.echo c) ?_
      rw [echo, if_neg hc, onInput, h]
      rfl

def source (s : Console) (n i : Nat) : Nat := min i (max s.cursor.toNat (i - n))

structure Moved (n : Nat) (s t : Console) : Prop where
  r : t.input.r = s.input.r
  w : t.input.w = s.input.w
  e : t.input.e = s.input.e
  lefts : t.lefts = s.lefts
  oob : t.oob = s.oob
  text : ∀ i ≤ s.input.e.toNat, t.input.byteAt i = s.input.byteAt (s.source n i)

namespace Moved

theorem zero (s : Console) : Moved 0 s s := by
  refine ⟨rfl, rfl, rfl, rfl, rfl, fun i _ => congrArg s.input.byteAt ?_⟩
  unfold source
  omega

theorem trans (h : Moved m s t) (h' : Moved n t u) :
    Moved (n + m) s u := by
  have hcursor : t.cursor = s.cursor := by rw [cursor, cursor, h.e, h.lefts]
  refine ⟨h'.r.trans h.r, h'.w.trans h.w, h'.e.trans h.e, h'.lefts.trans h.lefts,
    h'.oob.trans h.oob, fun i hi => ?_⟩
  have hle : t.source n i ≤ i := Nat.min_le_left _ _
  rw [h'.text i (by rw [h.e]; exact hi), h.text _ (by omega)]
  refine congrArg s.input.byteAt ?_
  unfold source
  rw [hcursor]
  omega

theorem newline (h : s.lefts = 0) (hc : c = ch '\n') : Moved 1 s (s.echo c) := by
  have hsame : s.echo c = s := by
    rw [echo, if_pos hc, ← h]
  have hcursor : s.cursor = s.input.e := by
    rw [cursor, h]
    exact BitVec.sub_zero _
  rw [hsame]
  refine ⟨rfl, rfl, rfl, rfl, rfl, fun i hi => congrArg s.input.byteAt ?_⟩
  unfold source
  rw [hcursor]
  omega

theorem echo (hl : s.lefts.toNat ≤ s.input.e.toNat) (he : s.input.e.toNat < 127)
    (hc : c ≠ ch '\n') : Moved 1 s (s.echo c) := by
  have hcursor := cursor_toNat hl
  have hsucc : (s.input.e + 1).toNat = s.input.e.toNat + 1 := by bv_omega
  rw [echo_eq hl he hc]
  refine ⟨rfl, rfl, rfl, rfl, rfl, fun i hi => ?_⟩
  rw [Input.byteAt_of_lt (show _ < 128 by omega)]
  by_cases hlt : s.cursor.toNat < i
  · have hsource : s.source 1 i = i - 1 := by
      unfold source
      omega
    rw [hsource, Input.byteAt_of_lt (show _ < 128 by omega)]
    exact opened_succ _ (by simp only; omega) (by simp only; omega) (by simp only; omega)
  · have hsource : s.source 1 i = i := by
      unfold source
      omega
    rw [hsource, Input.byteAt_of_lt (show _ < 128 by omega)]
    exact opened_of_le _ (by simp only; omega)

theorem echoAll (hcalm : s.Calm bs) (hl : s.lefts.toNat ≤ s.input.e.toNat)
    (he : s.input.e.toNat < 127) : Moved bs.length s (s.echoAll bs) := by
  induction bs generalizing s with
  | nil => exact zero s
  | cons c bs ih =>
    obtain ⟨hrest, -⟩ := hcalm.cons
    have hhead : Moved 1 s (s.echo c) := by
      by_cases hc : c = ch '\n'
      · exact newline (hcalm.resolve_right fun hnot => hnot (hc ▸ List.mem_cons_self)) hc
      · exact echo hl he hc
    exact hhead.trans (ih hrest (by rw [hhead.lefts, hhead.e]; exact hl)
      (by rw [hhead.e]; exact he))

end Moved

structure Undisturbed (s t : Console) : Prop where
  r : t.input.r = s.input.r
  w : t.input.w = s.input.w
  e : t.input.e = s.input.e
  lefts : t.lefts = s.lefts
  text : ∀ i, s.input.r.toNat ≤ i → i < s.input.e.toNat → t.input.byteAt i = s.input.byteAt i
  oob : t.oob = s.oob

theorem undisturbed_screen {screen : Screen} :
    Undisturbed s { t with screen } ↔ Undisturbed s t :=
  ⟨fun h => ⟨h.r, h.w, h.e, h.lefts, h.text, h.oob⟩, fun h => ⟨h.r, h.w, h.e, h.lefts, h.text, h.oob⟩⟩

/-- A newline is put with the cursor at the end of the line only.  For any other character the line
has room, and the bytes not read yet are the ones that replace them; or the loop that moves them
does not start, on newlines alone and with counters that have gone around. -/
def Steady (s : Console) (bs : List Byte) : Prop :=
  s.Calm bs ∧
  ((∀ c ∈ bs, c = ch '\n') ∨ s.input.e.toNat < s.lefts.toNat ∨ s.input.e = -1 ∨
    s.input.e.toNat < 127 ∧ ∀ i, s.input.r.toNat ≤ i → i < s.input.e.toNat →
      s.input.byteAt (s.source bs.length i) = s.input.byteAt i)

theorem undisturbed_echoAll_iff (hs : s.oob = false) :
    Undisturbed s (s.echoAll bs) ↔ s.Steady bs := by
  by_cases hcalm : s.Calm bs
  case neg =>
    obtain ⟨hzero, hmem⟩ := not_or.mp hcalm
    have hlefts := echoAll_lefts_of_newline (s := s) (not_not.mp hmem)
    exact ⟨fun h => absurd (h.lefts.symm.trans hlefts) hzero, fun h => absurd h.1 hcalm⟩
  have hself : Undisturbed s s := ⟨rfl, rfl, rfl, rfl, fun _ _ _ => rfl, rfl⟩
  by_cases hnewlines : ∀ c ∈ bs, c = ch '\n'
  case pos =>
    rw [echoAll_of_idle hcalm (.inl hnewlines)]
    exact ⟨fun _ => ⟨hcalm, .inl hnewlines⟩, fun _ => hself⟩
  by_cases hidle : s.input.e.toNat < s.lefts.toNat ∨ s.input.e = -1
  case pos =>
    rw [echoAll_of_idle hcalm (.inr (Input.shiftRight_idle hidle))]
    exact ⟨fun _ => ⟨hcalm, .inr (hidle.imp_right .inl)⟩, fun _ => hself⟩
  obtain ⟨hl, hmax⟩ := not_or.mp hidle
  by_cases he : s.input.e.toNat < 127
  · have hmoved := Moved.echoAll hcalm (Nat.le_of_not_lt hl) he
    constructor
    · intro h
      refine ⟨hcalm, .inr (.inr (.inr ⟨he, fun i hlo hhi => ?_⟩))⟩
      exact (hmoved.text i (Nat.le_of_lt hhi)).symm.trans (h.text i hlo hhi)
    · rintro ⟨-, hall⟩
      obtain ⟨-, hbytes⟩ := ((hall.resolve_left hnewlines).resolve_left hl).resolve_left hmax
      refine ⟨hmoved.r, hmoved.w, hmoved.e, hmoved.lefts, fun i hlo hhi => ?_, hmoved.oob⟩
      exact (hmoved.text i (Nat.le_of_lt hhi)).trans (hbytes i hlo hhi)
  · have hnone := Input.shiftRight_outside (Nat.le_of_not_lt hl) hmax (Nat.le_of_not_lt he)
    have hsome : ∃ c ∈ bs, c ≠ ch '\n' := by
      simpa using hnewlines
    have hout := echoAll_outside hcalm hnone hsome
    constructor
    · intro h
      rw [h.oob, hs] at hout
      cases hout
    · rintro ⟨-, hall⟩
      exact absurd (((hall.resolve_left hnewlines).resolve_left hl).resolve_left hmax).1 he

theorem undisturbed_iff_steady (hs : s.oob = false) :
    (∀ bs t, s.consolewrite bs = some t → (Undisturbed s t ↔ s.Steady bs)) ∧
    ∀ fmt args t, s.cprintf fmt args = some t →
      (Undisturbed s t ↔ s.Steady (formatted args fmt 0)) := by
  have hwrite : ∀ bs t, s.consolewrite bs = some t → (Undisturbed s t ↔ s.Steady bs) := by
    intro bs t h
    obtain ⟨screen, rfl⟩ := consolewrite_eq h
    rw [undisturbed_screen]
    exact undisturbed_echoAll_iff hs
  exact ⟨hwrite, fun fmt args => hwrite _⟩

theorem steady_of_end (hlefts : s.lefts = 0) (he : s.input.e.toNat < 127) : s.Steady bs := by
  have hcursor : s.cursor = s.input.e := by
    rw [cursor, hlefts]
    exact BitVec.sub_zero _
  refine ⟨.inl hlefts, .inr (.inr (.inr ⟨he, fun i _ hi => congrArg s.input.byteAt ?_⟩))⟩
  unfold source
  rw [hcursor]
  omega

theorem undisturbed_of_typed :
    ∃ es s t, Run (Step sums) dark es s ∧ s.consolewrite [ch 'o', ch 'k', ch '\n'] = some t ∧
      Undisturbed s t ∧ es.map Prod.snd = [press (ch 'a'), press (ch 'b')] := by
  obtain ⟨s, hrun, hs⟩ := Run.of_exec_any (next sums) dark [press (ch 'a'), press (ch 'b')]
    (fun s => s.oob = false ∧ s.lefts = 0 ∧ s.Short ∧
      (s.consolewrite [ch 'o', ch 'k', ch '\n']).isSome) (by decide +kernel)
  obtain ⟨hoob, hlefts, hshort, hsome⟩ := of_decide_eq_true hs
  obtain ⟨t, ht⟩ := Option.isSome_iff_exists.mp hsome
  exact ⟨_, s, t, hrun, ht,
    ((undisturbed_iff_steady hoob).1 _ t ht).mpr (steady_of_end hlefts hshort), rfl⟩

theorem disturbed_of_moved :
    ∃ es s t, Run (Step sums) dark es s ∧ s.consolewrite [ch 'x'] = some t ∧ ¬ Undisturbed s t ∧
      t.input.byteAt 1 = ch 'a' ∧
      es.map Prod.snd = [press (ch 'a'), press (ch 'b'), press 0xe4, press 0xe4] := by
  obtain ⟨s, hrun, hs⟩ := Run.of_exec_any (next sums) dark
    [press (ch 'a'), press (ch 'b'), press 0xe4, press 0xe4]
    (fun s => s.input.r = 0 ∧ s.input.e = 2 ∧ s.input.byteAt 1 = ch 'b' ∧
      (s.consolewrite [ch 'x']).any fun t => t.input.byteAt 1 = ch 'a') (by decide +kernel)
  obtain ⟨hr, he, hbyte, hany⟩ := of_decide_eq_true hs
  obtain ⟨t, ht, hmoved⟩ := (Option.any_eq_true _ _).mp hany
  have hmoved' := of_decide_eq_true hmoved
  refine ⟨_, s, t, hrun, ht, fun h => ?_, hmoved', rfl⟩
  have hsame := h.text 1 (by rw [hr]; decide) (by rw [he]; decide)
  rw [hmoved', hbyte] at hsame
  exact absurd hsame (by decide)

end Console

end Xv6
