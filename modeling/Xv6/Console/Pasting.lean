import Xv6.Console.Editor

namespace Xv6

open Function Lib

abbrev Item := Byte × Bool

def marks (l : List Item) : List Byte := (l.filter Prod.snd).map Prod.fst

@[simp] theorem marks_nil : marks [] = [] := rfl

@[simp] theorem marks_append (l l' : List Item) : marks (l ++ l') = marks l ++ marks l' := by
  simp [marks]

@[simp] theorem marks_cons_true (c : Byte) (l : List Item) :
    marks ((c, true) :: l) = c :: marks l := by
  simp [marks]

@[simp] theorem marks_cons_false (c : Byte) (l : List Item) :
    marks ((c, false) :: l) = marks l := by
  simp [marks]

theorem marks_eq_nil_iff : marks l = [] ↔ ∀ c ∈ l, c.2 = false := by
  simp [marks]

def unmarked (bs : List Byte) : List Item := bs.map fun c => (c, false)

section Opens

theorem marks_slice_eq_nil_iff :
    marks (slice a lo hi) = [] ↔ ∀ i, lo ≤ i → i < hi → (a i).2 = false := by
  rw [marks_eq_nil_iff]
  constructor
  · intro h i hlo hlt
    exact h (a i) (List.mem_map.mpr ⟨i, List.mem_range'_1.mpr ⟨hlo, by omega⟩, rfl⟩)
  · intro h c hc
    obtain ⟨i, hi', rfl⟩ := List.mem_map.mp hc
    obtain ⟨hlo, hlt⟩ := List.mem_range'_1.mp hi'
    exact h i hlo (by omega)

theorem marks_slice_of_opens (h : Opens a b cur hi (c, false)) (hlt : i < temp) (htemp : temp ≤ hi)
    (hmark : (a i).2 = true) (hright : marks (slice a cur hi) ≠ [] → cur ≤ temp) :
    marks (slice b (if cur ≤ i then i + 2 else i + 1)
      (if marks (slice a cur hi) = [] then temp else temp + 1)) = marks (slice a (i + 1) temp) := by
  by_cases hcur : cur ≤ i
  · have hsome : marks (slice a cur hi) ≠ [] := by
      intro hnone
      rw [marks_slice_eq_nil_iff.mp hnone i hcur (by omega)] at hmark
      cases hmark
    rw [if_pos hcur, if_neg hsome, h.slice_behind (by omega) htemp]
  · rw [if_neg hcur]
    by_cases hnone : marks (slice a cur hi) = []
    · rw [if_pos hnone]
      by_cases hend : temp ≤ cur
      · rw [h.slice_before hend]
      · obtain ⟨m, rfl⟩ : ∃ m, temp = m + 1 := ⟨temp - 1, by omega⟩
        have hrest : ∀ m ≤ hi, marks (slice a cur m) = [] := by
          intro m hm
          exact marks_slice_eq_nil_iff.mpr fun j hlo hj =>
            marks_slice_eq_nil_iff.mp hnone j hlo (by omega)
        have hbefore : i + 1 ≤ cur := by omega
        have hbehind : cur ≤ m + 1 := by omega
        rw [h.slice_across hbefore (by omega) (by omega), ← slice_append hbefore hbehind,
          marks_append, marks_append, marks_cons_false, hrest m (by omega), hrest (m + 1) htemp]
    · rw [if_neg hnone, h.slice_across (by omega) (hright hnone) htemp, marks_append,
        marks_cons_false, ← marks_append, slice_append (by omega) (hright hnone)]

end Opens

def Input.itemAt (x : Input) (i : Nat) : Item :=
  (x.byteAt i, x.bufCopy (Fin.ofNat inputBuf i) == ch '1')

theorem Input.itemAt_of_lt {x : Input} {i : Nat} (h : i < inputBuf) :
    x.itemAt i = (x.buf ⟨i, h⟩, x.bufCopy ⟨i, h⟩ == ch '1') := by
  have hplace : Fin.ofNat inputBuf i = ⟨i, h⟩ := Fin.ext (Nat.mod_eq_of_lt h)
  rw [itemAt, byteAt_of_lt h, hplace]

namespace Console

variable {s t u : Console} {c : Byte} {k n : Nat} {junk : Junk} {i temp : Word} {z : Zipper Item} {fp : Arith}

def Marked (s : Console) (z : Zipper Item) : Prop :=
  z.In s.input.itemAt s.input.r.toNat s.cursor.toNat s.input.e.toNat

instance decidableMarked (s : Console) (z : Zipper Item) : Decidable (s.Marked z) :=
  decidable_of_iff (s.input.r.toNat ≤ s.cursor.toNat ∧ s.cursor.toNat ≤ s.input.e.toNat ∧
      slice s.input.itemAt s.input.r.toNat s.cursor.toNat = z.left ∧
      slice s.input.itemAt s.cursor.toNat s.input.e.toNat = z.right)
    ⟨fun ⟨hlo, hhi, hleft, hright⟩ => ⟨hlo, hhi, hleft, hright⟩,
      fun h => ⟨h.lo_le, h.le_hi, h.left, h.right⟩⟩

structure Pasted (s t : Console) (z : Zipper Item) : Prop where
  line : t.Marked z
  r : t.input.r = s.input.r
  w : t.input.w = s.input.w
  lefts : t.lefts = s.lefts
  oob : t.oob = s.oob

structure Pastes (s t : Console) (c : Byte) : Prop where
  items : Opens s.input.itemAt t.input.itemAt s.cursor.toNat s.input.e.toNat (c, false)
  e : t.input.e = s.input.e + 1
  r : t.input.r = s.input.r
  w : t.input.w = s.input.w
  lefts : t.lefts = s.lefts
  oob : t.oob = s.oob
  pos : t.screen.pos < 25 * 80

theorem Marked.lefts_le (h : s.Marked z) : s.lefts.toNat ≤ s.input.e.toNat := by
  have hle := h.le_hi
  unfold cursor at hle
  bv_omega

theorem Pastes.e_succ (h : Pastes s t c) (he : s.input.e.toNat < 127) :
    t.input.e.toNat = s.input.e.toNat + 1 := by
  rw [h.e]
  bv_omega

theorem Pastes.cursor_succ (h : Pastes s t c) (he : s.input.e.toNat < 127)
    (hl : s.lefts.toNat ≤ s.input.e.toNat) : t.cursor.toNat = s.cursor.toNat + 1 := by
  have hlen := h.e_succ he
  rw [cursor_toNat hl, cursor_toNat (by rw [hlen, h.lefts]; omega), hlen, h.lefts]
  omega

theorem Pastes.marked (h : Pastes s t c) (he : s.input.e.toNat < 127) (hz : s.Marked z) :
    t.Marked (z.insert (c, false)) := by
  unfold Marked
  rw [h.r, h.cursor_succ he hz.lefts_le, h.e_succ he]
  exact Zipper.In.insert hz h.items.left h.items.new h.items.right

section

variable (hl : s.lefts.toNat ≤ s.input.e.toNat) (he : s.input.e.toNat < 127) (hc : c ≠ ch '\n')

include hl he hc

theorem opens_stored (h : s.consputc (.char c) = some u) :
    Opens s.input.itemAt (u.stored c).itemAt s.cursor.toNat s.input.e.toNat (c, false) := by
  have hcursor := cursor_toNat hl
  have hplace := place_of_lt (i := s.cursor) (show _ < 128 by omega)
  have hsucc : (s.input.e + 1).toNat = s.input.e.toNat + 1 := by bv_omega
  obtain ⟨screen, rfl⟩ := consputc_char h
  rw [echo_eq hl he hc]
  refine ⟨fun j hj => ?_, ?_, fun j hlo hj => ?_⟩
  · have hlt : j < 128 := by omega
    have hne : (⟨j, hlt⟩ : Fin inputBuf) ≠ place s.cursor := by
      rw [hplace]
      exact Fin.ne_of_val_ne (by simp only; omega)
    rw [Input.itemAt_of_lt hlt, Input.itemAt_of_lt hlt]
    simp only [stored, cursor] at hne ⊢
    rw [update_of_ne hne, update_of_ne hne, opened_of_le _ (Nat.le_of_lt hj),
      opened_of_le _ (Nat.le_of_lt hj)]
  · rw [Input.itemAt_of_lt (show _ < 128 by omega), ← hplace]
    simp only [stored, cursor, update_self]
    rfl
  · have hlt : j + 1 < 128 := by omega
    have hne : (⟨j + 1, hlt⟩ : Fin inputBuf) ≠ place s.cursor := by
      rw [hplace]
      exact Fin.ne_of_val_ne (by simp only; omega)
    rw [Input.itemAt_of_lt hlt, Input.itemAt_of_lt (show j < 128 by omega)]
    simp only [stored, cursor] at hne ⊢
    have hmoved : ∀ a, opened (s.input.e - s.lefts).toNat (s.input.e + 1).toNat a ⟨j + 1, hlt⟩ =
        a ⟨j, show j < 128 by omega⟩ := fun a => opened_succ a hlo rfl (by simp only; omega)
    rw [update_of_ne hne, update_of_ne hne, hmoved, hmoved]

theorem pastes_stored (h : s.consputc (.char c) = some u) (hpos : u.screen.pos < 25 * 80) :
    Pastes s { u with input := { u.stored c with e := u.input.e + 1 } } c := by
  have hitems := opens_stored hl he hc h
  have hsame := consputc_char_e h
  obtain ⟨hedit, -⟩ := Edit.put (k := 0) (by omega) he h
  refine ⟨hitems, by rw [hsame], hedit.r, hedit.w, ?_, hedit.oob, hpos⟩
  obtain ⟨screen, rfl⟩ := consputc_char h
  simp only [echo_eq hl he hc]

end

theorem pasteFrom_of_unmarked (hlt : i.slt temp) (hi : i.toNat < inputBuf)
    (hmark : (s.input.itemAt i.toNat).2 = false) :
    pasteFrom junk (n + 1) i temp s = pasteFrom junk n (i + 1) temp s := by
  rw [Input.itemAt_of_lt hi] at hmark
  rw [pasteFrom, if_pos hlt, peek_of_lt hi, peek_of_lt hi]
  exact if_neg (by simpa using hmark)

theorem behind_lt_iff {x : Input} {cur last : Word}
    (hitems : Opens s.input.itemAt x.itemAt cur.toNat s.input.e.toNat (c, false))
    (he : x.e = s.input.e) (hin : s.input.e.toNat < 127) (hlast : x.LastMark x.e last) :
    cur - 1 < last ↔ 0 < cur.toNat ∧ marks (slice s.input.itemAt cur.toNat s.input.e.toNat) ≠ [] := by
  have hle := hlast.le
  obtain ⟨hlt, hmark⟩ := hlast.marked
  rw [he] at hle
  have hitem : (x.itemAt last.toNat).2 = true := by
    rw [Input.itemAt_of_lt hlt]
    simpa using hmark
  have hcur : cur - 1 < last ↔ 0 < cur.toNat ∧ cur.toNat ≤ last.toNat := by
    bv_omega
  rw [hcur, and_congr_right_iff]
  intro _
  constructor
  · intro hbehind hnone
    have hne : cur.toNat ≠ last.toNat := by
      intro heq
      rw [← heq, hitems.new] at hitem
      cases hitem
    obtain ⟨j, hj⟩ : ∃ j, last.toNat = j + 1 := ⟨last.toNat - 1, by omega⟩
    rw [hj, hitems.right j (by omega) (by omega),
      marks_slice_eq_nil_iff.mp hnone j (by omega) (by omega)] at hitem
    cases hitem
  · intro hsome
    by_contra hbefore
    refine hsome (marks_slice_eq_nil_iff.mpr fun j hlo hj => ?_)
    rw [← hitems.right j hlo hj, Input.itemAt_of_lt (show _ < 128 by omega)]
    refine beq_false_of_ne fun hfound => ?_
    have hle' := hlast.greatest ⟨j + 1, show _ < 128 by omega⟩ (by rw [he]; exact hj) hfound
    simp only at hle'
    omega

theorem pasteFrom_of_marked (hz : s.Marked z) (he : s.input.e.toNat < 127)
    (hpos : s.screen.pos < 25 * 80) (hr : s.input.r.toNat ≤ i.toNat)
    (hlt : i.toNat < temp.toNat) (htemp : temp.toNat ≤ s.input.e.toNat)
    (hmark : s.input.itemAt i.toNat = (c, true)) (hc : c ≠ ch '\n') :
    ∃ t, Pastes s t c ∧ pasteFrom junk (n + 1) i temp s =
      pasteFrom junk n ((if s.cursor - 1 < i then i + 1 else i) + 1)
        (if 0 < s.cursor.toNat ∧ marks z.right ≠ [] then temp + 1 else temp) t := by
  have hl := hz.lefts_le
  have hi : i.toNat < inputBuf := show _ < 128 by omega
  have hslt := (slt_iff_of_small (a := i) (b := temp) (by omega) (by omega)).mpr hlt
  rw [Input.itemAt_of_lt hi, Prod.mk.injEq] at hmark
  obtain ⟨rfl, hmark⟩ := hmark
  have hmark' : s.input.bufCopy ⟨i.toNat, hi⟩ = ch '1' := by simpa using hmark
  obtain ⟨u, hu, hupos⟩ := consputc_some hpos (.char (s.input.buf ⟨i.toNat, hi⟩))
  have hpastes := pastes_stored hl he hc hu hupos
  have hsame := consputc_char_e hu
  have hcursor : u.cursor = s.cursor := by
    unfold cursor
    rw [hsame, hpastes.lefts]
  obtain ⟨j, hij, hj, hfound⟩ := exists_mark hl he hi (by omega) hmark' hu
  have hread : (u.stored (s.input.buf ⟨i.toNat, hi⟩)).r.toNat ≤ j.val := by
    have hr' := hpastes.r
    simp only at hr'
    rw [hr']
    omega
  obtain ⟨last, hlast, hgreatest⟩ := Input.getLastIndexCopy_lastMark junk.ret hread hj hfound
    (by show u.input.e.toNat < 128; rw [hsame]; omega)
  have hmoves := behind_lt_iff (opens_stored hl he hc hu) hsame he hgreatest
  rw [hz.right] at hmoves
  refine ⟨_, hpastes, ?_⟩
  rw [pasteFrom, if_pos hslt, peek_of_lt hi, peek_of_lt hi]
  simp only [if_pos hmark', hu, Option.bind_some]
  simp only [stored, hcursor] at hlast
  simp only [stored, hcursor, hlast, hmoves]

theorem pasteFrom_of_marked_behind (hz : s.Marked z) (hcur : 0 < s.cursor.toNat)
    (he : s.input.e.toNat < 127) (hpos : s.screen.pos < 25 * 80) (hr : s.input.r.toNat ≤ i.toNat)
    (hlt : i.toNat < temp.toNat) (htemp : temp.toNat ≤ s.input.e.toNat)
    (hmark : s.input.itemAt i.toNat = (c, true)) (hc : c ≠ ch '\n') :
    ∃ t i' temp', Pastes s t c ∧ pasteFrom junk (n + 1) i temp s = pasteFrom junk n i' temp' t ∧
      i'.toNat = (if s.cursor.toNat ≤ i.toNat then i.toNat + 2 else i.toNat + 1) ∧
      temp'.toNat = if marks z.right = [] then temp.toNat else temp.toNat + 1 := by
  obtain ⟨t, ht, hround⟩ := pasteFrom_of_marked hz he hpos hr hlt htemp hmark hc
  have hcursor := cursor_toNat hz.lefts_le
  refine ⟨t, _, _, ht, hround, ?_, ?_⟩
  · split_ifs <;> bv_omega
  · simp only [hcur, true_and, ne_eq, ite_not]
    split_ifs
    · rfl
    · bv_omega

theorem Pasted.refl (h : s.Marked z) : Pasted s s z := ⟨h, rfl, rfl, rfl, rfl⟩

theorem Pastes.trans (h : Pastes s u c) (h' : Pasted u t y) : Pasted s t y :=
  ⟨h'.line, h'.r.trans h.r, h'.w.trans h.w, h'.lefts.trans h.lefts, h'.oob.trans h.oob⟩

theorem pasteFrom_of_le (h : temp.toNat ≤ i.toNat) (hi : i.toNat < 1000) :
    pasteFrom junk (n + 1) i temp s = some s := by
  have hslt := slt_iff_of_small (a := i) (b := temp) hi (by omega)
  rw [pasteFrom, if_neg fun hlt => Nat.not_lt.mpr h (hslt.mp hlt)]

theorem pasteFrom_pasted (hz : s.Marked z) (hcur : 0 < s.cursor.toNat)
    (hpos : s.screen.pos < 25 * 80) (hi : i.toNat ≤ 128) (hn : 128 < i.toNat + n)
    (hr : s.input.r.toNat ≤ i.toNat) (htemp : temp.toNat ≤ s.input.e.toNat)
    (hright : marks z.right ≠ [] → s.cursor.toNat ≤ temp.toNat)
    (hfit : s.input.e.toNat + (marks (slice s.input.itemAt i.toNat temp.toNat)).length < 128)
    (hline : ch '\n' ∉ marks (slice s.input.itemAt i.toNat temp.toNat)) :
    ∃ t, pasteFrom junk n i temp s = some t ∧
      Pasted s t ⟨z.left ++ unmarked (marks (slice s.input.itemAt i.toNat temp.toNat)), z.right⟩ := by
  induction n generalizing s i temp z with
  | zero => omega
  | succ n ih =>
    by_cases hlt : i.toNat < temp.toNat
    case neg =>
      refine ⟨s, pasteFrom_of_le (Nat.le_of_not_lt hlt) (by omega), ?_⟩
      rw [slice_of_le (Nat.le_of_not_lt hlt)]
      simpa [unmarked] using Pasted.refl hz
    have hslt := (slt_iff_of_small (a := i) (b := temp) (by omega) (by omega)).mpr hlt
    have hone : (i + 1).toNat = i.toNat + 1 := by bv_omega
    rw [slice_cons hlt] at hfit hline ⊢
    obtain ⟨⟨c, marked⟩, hitem⟩ : ∃ item, s.input.itemAt i.toNat = item := ⟨_, rfl⟩
    rw [hitem] at hfit hline ⊢
    cases marked with
    | false =>
      rw [marks_cons_false, ← hone] at hfit hline ⊢
      rw [pasteFrom_of_unmarked hslt (show _ < 128 by omega) (by rw [hitem])]
      exact ih hz hcur hpos (by omega) (by omega) (by omega) htemp hright hfit hline
    | true =>
      rw [marks_cons_true] at hfit hline ⊢
      rw [List.length_cons] at hfit
      rw [List.mem_cons, not_or] at hline
      have he : s.input.e.toNat < 127 := by omega
      obtain ⟨u, i', temp', hu, hround, hnext, hend⟩ := pasteFrom_of_marked_behind hz hcur he hpos hr
        hlt htemp hitem (Ne.symm hline.1)
      have hrest := marks_slice_of_opens hu.items hlt htemp (by rw [hitem]) (by rwa [hz.right])
      rw [hz.right, ← hnext, ← hend] at hrest
      have hcursor := hu.cursor_succ he hz.lefts_le
      have hlen := hu.e_succ he
      have hbounds : i.toNat + 1 ≤ i'.toNat ∧ i'.toNat ≤ i.toNat + 2 := by
        rw [hnext]
        split_ifs <;> omega
      have hgrows : temp'.toNat ≤ temp.toNat + 1 ∧
          (marks z.right ≠ [] → temp'.toNat = temp.toNat + 1) := by
        rw [hend]
        exact ⟨by split_ifs <;> omega, fun hsome => if_neg hsome⟩
      have hright' : marks (z.insert (c, false)).right ≠ [] → u.cursor.toNat ≤ temp'.toNat := by
        intro hsome
        rw [hgrows.2 hsome, hcursor]
        exact Nat.succ_le_succ (hright hsome)
      obtain ⟨t, ht, hp⟩ := ih (i := i') (hu.marked he hz) (by omega) hu.pos (by omega) (by omega)
        (by rw [hu.r]; omega) (by omega) hright' (by rw [hrest]; omega) (by rw [hrest]; exact hline.2)
      rw [hrest] at hp
      refine ⟨t, hround.trans ht, hu.trans ?_⟩
      simpa [Zipper.insert, unmarked] using hp

/-- What is pasted with the cursor at the start of the buffer.  Neither correction is made for the
first character, which the loop therefore meets again, and the last one of the line is missed. -/
def startText (l : List Item) : List Byte := (marks l).take 1 ++ marks l.dropLast

theorem pasteFrom_start (hz : s.Marked z) (hcur : s.cursor.toNat = 0)
    (hpos : s.screen.pos < 25 * 80) (hi : i.toNat ≤ 128) (hn : 128 < i.toNat + n)
    (hbefore : marks (slice s.input.itemAt 0 i.toNat) = [])
    (hfit : s.input.e.toNat + (startText z.right).length < 128)
    (hline : ch '\n' ∉ startText z.right) :
    ∃ t, pasteFrom junk n i s.input.e s = some t ∧ Pasted s t ⟨unmarked (startText z.right), z.right⟩ := by
  have hleft : z.left = [] := by
    rw [← hz.left, hcur, slice_of_le (Nat.zero_le _)]
  have hall : slice s.input.itemAt 0 s.input.e.toNat = z.right := by
    rw [← hz.right, hcur]
  have hr : s.input.r.toNat = 0 := Nat.le_zero.mp (hcur ▸ hz.lo_le)
  induction n generalizing i with
  | zero => omega
  | succ n ih =>
    by_cases hlt : i.toNat < s.input.e.toNat
    case neg =>
      have hnone : marks z.right = [] := by
        rw [← hall, marks_slice_eq_nil_iff]
        exact fun j hlo hj => marks_slice_eq_nil_iff.mp hbefore j hlo (by omega)
      have hnone' : marks z.right.dropLast = [] :=
        marks_eq_nil_iff.mpr fun c hc => marks_eq_nil_iff.mp hnone c (List.dropLast_subset _ hc)
      refine ⟨s, pasteFrom_of_le (Nat.le_of_not_lt hlt) (by omega), ?_⟩
      have hsame : (⟨unmarked (startText z.right), z.right⟩ : Zipper Item) = z :=
        Zipper.ext (by rw [startText, hnone, hnone', hleft]; rfl) rfl
      rw [hsame]
      exact .refl hz
    have hslt := (slt_iff_of_small (a := i) (b := s.input.e) (by omega) (by omega)).mpr hlt
    have hone : (i + 1).toNat = i.toNat + 1 := by bv_omega
    obtain ⟨⟨c, marked⟩, hitem⟩ : ∃ item, s.input.itemAt i.toNat = item := ⟨_, rfl⟩
    cases marked with
    | false =>
      rw [pasteFrom_of_unmarked hslt (show _ < 128 by omega) (by rw [hitem])]
      refine ih (by omega) (by omega) ?_
      rw [hone, slice_succ (Nat.zero_le _), marks_append, hbefore, hitem]
      rfl
    | true =>
      obtain ⟨m, hm⟩ : ∃ m, s.input.e.toNat = m + 1 := ⟨s.input.e.toNat - 1, by omega⟩
      have hfirst : (marks z.right).take 1 = [c] := by
        rw [← hall, ← slice_append (Nat.zero_le _) (Nat.le_of_lt hlt), slice_cons hlt, hitem,
          marks_append, hbefore, marks_cons_true]
        rfl
      have hrest : marks z.right.dropLast = marks (slice s.input.itemAt i.toNat m) := by
        rw [← hall, hm, slice_succ (Nat.zero_le _), List.dropLast_concat,
          ← slice_append (Nat.zero_le _) (show i.toNat ≤ m by omega), marks_append, hbefore]
        rfl
      rw [startText, hfirst, hrest] at hfit hline ⊢
      simp only [List.singleton_append, List.length_cons, List.mem_cons, not_or] at hfit hline ⊢
      have he : s.input.e.toNat < 127 := by omega
      obtain ⟨u, hu, hround⟩ := pasteFrom_of_marked hz he hpos (by omega) hlt
        (Nat.le_refl _) hitem (Ne.symm hline.1)
      have hwraps : ¬ s.cursor - 1 < i := by bv_omega
      rw [if_neg hwraps, if_neg fun h => by omega] at hround
      have hcursor := hu.cursor_succ he hz.lefts_le
      have hlen := hu.e_succ he
      have hmoved : slice u.input.itemAt (i + 1).toNat s.input.e.toNat =
          slice s.input.itemAt i.toNat m := by
        rw [hone, hm]
        exact hu.items.slice_behind (by omega) (by omega)
      have hbehind : marks (z.insert (c, false)).right ≠ [] → u.cursor.toNat ≤ s.input.e.toNat :=
        fun _ => by omega
      obtain ⟨t, ht, hp⟩ := pasteFrom_pasted (n := n) (i := i + 1) (hu.marked he hz) (by omega) hu.pos
        (by omega) (by omega) (by rw [hu.r]; omega) (by omega) hbehind (by rw [hmoved]; omega)
        (by rw [hmoved]; exact hline.2)
      rw [hmoved] at hp
      refine ⟨t, hround.trans ht, hu.trans ?_⟩
      simpa [Zipper.insert, unmarked, hleft] using hp

/-! The key. -/

def pastedText (s : Console) (z : Zipper Item) : List Byte :=
  if 0 < s.cursor.toNat then marks (z.left ++ z.right) else startText z.right

theorem length_startText_le (l : List Item) : (startText l).length ≤ (marks l).length + 1 := by
  have hle : (marks l.dropLast).length ≤ (marks l).length :=
    (((List.dropLast_sublist l).filter _).map _).length_le
  rw [startText, List.length_append, List.length_take]
  omega

theorem startText_subset (l : List Item) : startText l ⊆ marks l :=
  List.append_subset.mpr ⟨List.take_subset _ _,
    (((List.dropLast_sublist l).filter _).map _).subset⟩

theorem length_pastedText_le (s : Console) (z : Zipper Item) :
    (pastedText s z).length ≤ (marks (z.left ++ z.right)).length + 1 := by
  have hlen := length_startText_le z.right
  rw [marks_append, List.length_append]
  unfold pastedText
  split
  · rw [marks_append, List.length_append]
    omega
  · omega

theorem length_of_marked (hz : s.Marked z) :
    s.input.r.toNat + z.left.length + z.right.length = s.input.e.toNat := by
  have hlo := hz.lo_le
  have hhi := hz.le_hi
  rw [← hz.left, ← hz.right, length_slice, length_slice]
  omega

theorem paste_pasted (junk : Junk) (hz : s.Marked z) (hflag : s.input.flagCopy = true)
    (hpos : s.screen.pos < 25 * 80)
    (hfit : s.input.e.toNat + (marks (z.left ++ z.right)).length < 127)
    (hline : ch '\n' ∉ marks (z.left ++ z.right)) :
    ∃ t, s.paste junk = some t ∧ Pasted s t ⟨z.left ++ unmarked (pastedText s z), z.right⟩ := by
  have hall := hz.all
  have hlo := hz.lo_le
  have hhi := hz.le_hi
  have hloop : ∃ t, pasteFrom junk Input.rounds s.input.r s.input.e s = some t ∧
      Pasted s t ⟨z.left ++ unmarked (pastedText s z), z.right⟩ := by
    unfold pastedText
    split
    · rename_i hcur
      rw [← hall] at hfit hline ⊢
      exact pasteFrom_pasted hz hcur hpos (by omega) (show 128 < _ + 129 by omega) (Nat.le_refl _)
        (Nat.le_refl _) (fun _ => hhi) (by omega) hline
    · have hcur : s.cursor.toNat = 0 := by omega
      have hleft : z.left = [] := by rw [← hz.left, slice_of_le (by omega)]
      rw [hleft, List.nil_append] at hfit hline ⊢
      have hlen := length_startText_le z.right
      refine pasteFrom_start hz hcur hpos (by omega) (show 128 < _ + 129 by omega) ?_ (by omega)
        fun hmem => hline (startText_subset _ hmem)
      rw [slice_of_le (by omega)]
      rfl
  obtain ⟨t, ht, hp⟩ := hloop
  rw [paste, if_pos hflag, ht]
  exact ⟨_, rfl, hp.line, hp.r, hp.w, hp.lefts, hp.oob⟩

theorem consoleintr_paste (fp : Arith) (junk : Junk) (hz : s.Marked z)
    (hflag : s.input.flagCopy = true) (hpos : s.screen.pos < 25 * 80)
    (hfit : s.input.e.toNat + (marks (z.left ++ z.right)).length < 127)
    (hline : ch '\n' ∉ marks (z.left ++ z.right)) :
    ∃ t, s.consoleintr fp (ctrl 'F') junk = some t ∧
      Pasted s t ⟨z.left ++ unmarked (pastedText s z), z.right⟩ := by
  obtain ⟨t, ht, hp⟩ := paste_pasted junk hz hflag hpos hfit hline
  have hlen := length_of_marked hz
  have hroom : s.input.e - s.input.r < (inputBuf : Word) := by
    show s.input.e - s.input.r < 128#32
    bv_omega
  have hmore := length_pastedText_le s z
  have hlen' := length_of_marked hp.line
  simp only [List.length_append, unmarked, List.length_map, hp.r] at hlen'
  have hfull : t.input.e ≠ t.input.r + (inputBuf : Word) := by
    rw [hp.r]
    show _ ≠ s.input.r + 128#32
    bv_omega
  refine ⟨t, ?_, hp⟩
  show s.defaultKey fp (ctrl 'F') junk = some t
  have hplain : (if ctrl 'F' = ch '\r' then ch '\n' else ctrl 'F') = ctrl 'F' := by decide
  have hends : ¬ (ctrl 'F' = ch '\n' ∨ ctrl 'F' = ctrl 'D' ∨ t.input.e = t.input.r + (inputBuf : Word)) := by
    simp only [hfull, or_false]
    decide
  unfold defaultKey
  rw [if_pos ⟨by decide, hroom⟩]
  simp only [hplain, if_true, ht, Option.bind_some, if_neg hends]

theorem cons_eq_concat_iff (a d : Byte) (bs : List Byte) :
    a :: bs = bs ++ [d] ↔ d = a ∧ ∀ b ∈ bs, b = a := by
  induction bs generalizing a with
  | nil => simp [eq_comm]
  | cons b bs ih =>
    rw [List.cons_append, List.cons.injEq, ih]
    constructor
    · rintro ⟨rfl, rfl, hall⟩
      exact ⟨rfl, by simpa using hall⟩
    · rintro ⟨rfl, hall⟩
      rw [List.forall_mem_cons] at hall
      obtain ⟨rfl, hall⟩ := hall
      exact ⟨rfl, rfl, hall⟩

def Repeats (l : List Item) : Prop :=
  ∃ c, l.getLast? = some (c, true) ∧ ∀ d ∈ marks l, d = c

theorem startText_eq_iff (l : List Item) : startText l = marks l ↔ marks l = [] ∨ Repeats l := by
  rcases List.eq_nil_or_concat l with rfl | ⟨l, ⟨c, marked⟩, rfl⟩
  · simp [startText]
  · rw [startText, Repeats, List.concat_eq_append, List.dropLast_concat, List.getLast?_concat, marks_append]
    cases marked with
    | false =>
      rw [marks_cons_false, marks_nil, List.append_nil]
      cases hmarks : marks l with
      | nil => simp
      | cons a bs =>
        simp
    | true =>
      rw [marks_cons_true, marks_nil]
      cases hmarks : marks l with
      | nil => simp
      | cons a bs =>
        have h := cons_eq_concat_iff a c (a :: bs)
        simp only [List.cons_append, List.take_succ_cons, List.take_zero, List.nil_append] at h ⊢
        rw [h]
        constructor
        · rintro ⟨rfl, hall⟩
          refine .inr ⟨c, rfl, fun d hd => ?_⟩
          have hmem : d ∈ (c :: bs) ++ [c] := hd
          rcases List.mem_append.mp hmem with hd | hd
          · exact hall d hd
          · exact List.mem_singleton.mp hd
        · rintro (hnone | ⟨d, hd, hall⟩)
          · cases hnone
          · cases hd
            have ha := hall a (List.mem_cons_self ..)
            subst ha
            exact ⟨rfl, fun b hb => hall b (List.mem_append_left [a] hb)⟩

theorem Marked.unique (hz : s.Marked z) (hy : s.Marked y) : z = y :=
  Zipper.ext (hz.left.symm.trans hy.left) (hz.right.symm.trans hy.right)

theorem unmarked_injective : Injective unmarked :=
  List.map_injective_iff.mpr fun _ _ h => congrArg Prod.fst h

theorem pastes_marked_iff (fp : Arith) (junk : Junk) (hz : s.Marked z)
    (hflag : s.input.flagCopy = true) (hpos : s.screen.pos < 25 * 80)
    (hfit : s.input.e.toNat + (marks (z.left ++ z.right)).length < inputBuf - 1)
    (hline : ch '\n' ∉ marks (z.left ++ z.right)) :
    (∃ t, s.consoleintr fp (ctrl 'F') junk = some t ∧
      Pasted s t ⟨z.left ++ unmarked (marks (z.left ++ z.right)), z.right⟩) ↔
    0 < s.cursor.toNat ∨ marks (z.left ++ z.right) = [] ∨ Repeats (z.left ++ z.right) := by
  obtain ⟨t, ht, hp⟩ := consoleintr_paste fp junk hz hflag hpos hfit hline
  have hpasted : (∃ t, s.consoleintr fp (ctrl 'F') junk = some t ∧
      Pasted s t ⟨z.left ++ unmarked (marks (z.left ++ z.right)), z.right⟩) ↔
      pastedText s z = marks (z.left ++ z.right) := by
    constructor
    · rintro ⟨t', ht', hp'⟩
      cases ht.symm.trans ht'
      have hsame := congrArg Zipper.left (hp.line.unique hp'.line)
      exact unmarked_injective (List.append_cancel_left hsame)
    · intro htext
      rw [htext] at hp
      exact ⟨t, ht, hp⟩
  rw [hpasted, pastedText]
  by_cases hcur : 0 < s.cursor.toNat
  · rw [if_pos hcur]
    exact iff_of_true rfl (.inl hcur)
  · have hleft : z.left = [] := by rw [← hz.left, slice_of_le (by omega)]
    rw [if_neg hcur, hleft, List.nil_append, startText_eq_iff, or_iff_right hcur]

def marking (n : Nat) : List Event :=
  [press (ctrl 'S'), press (ch 'a'), press (ch 'b')] ++ List.replicate n (press 0xe4)

theorem pastes_marked_between : ∃ s t, Run (Step sums) dark (trace (next sums) dark (marking 1)) s ∧
    Step sums s (press (ctrl 'F')) t ∧
    Pasted s t ⟨[(ch 'a', true), (ch 'a', false), (ch 'b', false)], [(ch 'b', true)]⟩ := by
  obtain ⟨s, hrun, hs⟩ := Run.of_exec_any (next sums) dark (marking 1)
    (fun s => s.Marked ⟨[(ch 'a', true)], [(ch 'b', true)]⟩ ∧ s.input.flagCopy = true ∧
      s.screen.pos < 25 * 80 ∧ s.input.e.toNat = 2 ∧ 0 < s.cursor.toNat) (by decide +kernel)
  obtain ⟨hz, hflag, hpos, hlen, hcur⟩ := of_decide_eq_true hs
  obtain ⟨t, ht, hp⟩ := (pastes_marked_iff sums _ hz hflag hpos (by rw [hlen]; decide)
    (by decide)).mpr (.inl hcur)
  exact ⟨s, t, hrun, ht, hp⟩

theorem pastes_first_twice : ∃ s t, Run (Step sums) dark (trace (next sums) dark (marking 2)) s ∧
    s.Marked ⟨[], [(ch 'a', true), (ch 'b', true)]⟩ ∧ Step sums s (press (ctrl 'F')) t ∧
    t.Marked ⟨[(ch 'a', false), (ch 'a', false)], [(ch 'a', true), (ch 'b', true)]⟩ ∧
    ¬ Pasted s t ⟨[(ch 'a', false), (ch 'b', false)], [(ch 'a', true), (ch 'b', true)]⟩ := by
  obtain ⟨s, hrun, hs⟩ := Run.of_exec_any (next sums) dark (marking 2)
    (fun s => s.Marked ⟨[], [(ch 'a', true), (ch 'b', true)]⟩ ∧
      (s.next sums (press (ctrl 'F'))).any fun t =>
        t.Marked ⟨[(ch 'a', false), (ch 'a', false)], [(ch 'a', true), (ch 'b', true)]⟩)
    (by decide +kernel)
  obtain ⟨hz, hany⟩ := of_decide_eq_true hs
  obtain ⟨t, ht, hmarked⟩ := (Option.any_eq_true _ _).mp hany
  have hline := of_decide_eq_true hmarked
  refine ⟨s, t, hrun, hz, ht, hline, fun hp => ?_⟩
  exact absurd (congrArg Zipper.left (hline.unique hp.line)) (by decide)

end Console

end Xv6
