import Mathlib.Data.List.TakeWhile
import Xv6.Console.Recall

namespace Xv6

open Lib

namespace Console

def argsRead : List Byte → Nat
  | [] | [_] => 0
  | c :: d :: fmt =>
    if c ≠ ch '%' then argsRead (d :: fmt)
    else if d = ch 'd' ∨ d = ch 'x' ∨ d = ch 'p' ∨ d = ch 's' then argsRead fmt + 1
    else argsRead fmt

def squeezed : List Byte → List Byte
  | [] => []
  | [c] => if c = ch '%' then [] else [c]
  | c :: d :: fmt =>
    if c ≠ ch '%' then c :: squeezed (d :: fmt)
    else if d = ch '%' then ch '%' :: squeezed fmt
    else ch '%' :: d :: squeezed fmt

/-- A format that is put as it is: after a `%` comes a byte that `cprintf` does not know. -/
def Verbatim : List Byte → Prop
  | [] => True
  | [c] => c ≠ ch '%'
  | c :: d :: fmt =>
    if c ≠ ch '%' then Verbatim (d :: fmt)
    else d ∉ [ch 'd', ch 'x', ch 'p', ch 's', ch '%'] ∧ Verbatim fmt

instance decidableVerbatim : (l : List Byte) → Decidable (Verbatim l)
  | [] => isTrue trivial
  | [_] => inferInstanceAs (Decidable (_ ≠ _))
  | c :: d :: fmt =>
    have := decidableVerbatim (d :: fmt)
    have := decidableVerbatim fmt
    inferInstanceAs (Decidable (if c ≠ ch '%' then Verbatim (d :: fmt)
      else d ∉ [ch 'd', ch 'x', ch 'p', ch 's', ch '%'] ∧ Verbatim fmt))

theorem formatted_eq_squeezed (h : argsRead l = 0) : formatted args l k = squeezed l := by
  fun_induction argsRead l with
  | case1 => rfl
  | case2 c => rfl
  | case3 c d fmt hc ih =>
    rw [formatted, squeezed, if_pos hc, if_pos hc, ih h]
  | case4 => cases h
  | case5 c d fmt hc hd ih =>
    simp only [not_or] at hd
    obtain ⟨hd, hx, hp, hs⟩ := hd
    rw [formatted, squeezed, if_neg hc, if_neg hc, if_neg hd, if_neg (not_or.mpr ⟨hx, hp⟩), if_neg hs, ih h]

theorem squeezed_sublist (l : List Byte) : (squeezed l).Sublist l := by
  fun_induction squeezed l with
  | case1 => exact .slnil
  | case2 => exact List.nil_sublist _
  | case3 => exact .refl _
  | case4 c d fmt hc ih => exact ih.cons_cons c
  | case5 c fmt hc ih => exact (ih.cons_cons _).cons c
  | case6 c d fmt hc hd ih =>
    rw [not_not] at hc
    rw [hc]
    exact (ih.cons_cons d).cons_cons _

theorem verbatim_iff : Verbatim l ↔ argsRead l = 0 ∧ (squeezed l).length = l.length := by
  fun_induction squeezed l with
  | case1 => simp [Verbatim, argsRead]
  | case2 => simp [Verbatim]
  | case3 c hc => simp [Verbatim, argsRead, hc]
  | case4 c d fmt hc ih => simp [Verbatim, argsRead, hc, ih]
  | case5 c fmt hc ih =>
    have hle := (squeezed_sublist fmt).length_le
    simp only [Verbatim, if_neg hc, List.length_cons]
    simp
    omega
  | case6 c d fmt hc hd ih =>
    rw [Verbatim, if_neg hc, argsRead, if_neg hc, ih]
    by_cases hread : d = ch 'd' ∨ d = ch 'x' ∨ d = ch 'p' ∨ d = ch 's'
    · rw [if_pos hread]
      simp only [List.mem_cons, List.not_mem_nil, or_false]
      exact ⟨fun h => absurd hread (by tauto), fun h => absurd h.1 (Nat.succ_ne_zero _)⟩
    · rw [if_neg hread]
      simp only [List.mem_cons, List.not_mem_nil, or_false, List.length_cons, Nat.add_right_cancel_iff]
      exact ⟨fun h => h.2, fun h => ⟨by tauto, h⟩⟩

theorem Verbatim.squeezed (h : Verbatim l) : squeezed l = l :=
  (squeezed_sublist l).eq_of_length (verbatim_iff.mp h).2

theorem countP_squeezed (l : List Byte) :
    (squeezed l).countP (· ≠ ch '%') = l.countP (· ≠ ch '%') := by
  fun_induction squeezed l with
  | case1 => rfl
  | case2 => simp
  | case3 c hc => rfl
  | case4 c d fmt hc ih => rw [List.countP_cons, List.countP_cons, ih]
  | case5 c fmt hc ih => simp_all
  | case6 c d fmt hc hd ih => simp_all

/-! A format can be cut after a byte other than `%`. -/

theorem argsRead_append (hc : c ≠ ch '%') (b : List Byte) :
    ∀ a, argsRead (a ++ c :: b) = argsRead (a ++ [c]) + argsRead b
  | [] => by
    cases b with
    | nil => rfl
    | cons d b => simp [argsRead, hc]
  | [d] => by
    have hnil := argsRead_append hc b []
    simp only [List.nil_append, List.cons_append] at hnil ⊢
    rw [argsRead, argsRead]
    split
    · exact hnil
    · split
      · exact Nat.add_comm _ 1
      · exact (Nat.zero_add _).symm
  | d :: e :: a => by
    have htail := argsRead_append hc b (e :: a)
    have hrest := argsRead_append hc b a
    simp only [List.cons_append] at htail ⊢
    rw [argsRead, argsRead]
    split
    · exact htail
    · split
      · rw [hrest, Nat.add_right_comm]
      · exact hrest

theorem squeezed_append (hc : c ≠ ch '%') (b : List Byte) :
    ∀ a, squeezed (a ++ c :: b) = squeezed (a ++ [c]) ++ squeezed b
  | [] => by
    cases b with
    | nil => simp [squeezed]
    | cons d b => simp [squeezed, hc]
  | [d] => by
    have hnil := squeezed_append hc b []
    simp only [List.nil_append, List.cons_append] at hnil ⊢
    rw [squeezed, squeezed]
    split
    · rw [hnil]
      rfl
    · rfl
  | d :: e :: a => by
    have htail := squeezed_append hc b (e :: a)
    have hrest := squeezed_append hc b a
    simp only [List.cons_append] at htail ⊢
    rw [squeezed, squeezed]
    split
    · rw [htail]
      rfl
    · split
      · rw [hrest]
        rfl
      · rw [hrest]
        rfl

end Console

theorem Ends.ne_percent (h : Ends c) : c ≠ ch '%' := by
  rcases h with rfl | rfl
  · decide
  · decide

namespace Input

open Console

variable {x : Input}

/-- A stored line that is listed as it is: it was committed with nothing unread before it, has no
zero byte and no `%` that `cprintf` takes for more than itself, and a zero byte comes after it; a
last `%` before that is dropped. -/
structure Listed (x : Input) : Prop where
  read : x.r = x.w
  filled : ∀ c ∈ x.line, c ≠ 0
  verbatim : Verbatim x.line
  ended : x.byteAt x.e.toNat = 0 ∨ x.byteAt x.e.toNat = ch '%' ∧ x.byteAt (x.e.toNat + 1) = 0

instance (x : Input) : Decidable x.Listed :=
  decidable_of_iff (x.r = x.w ∧ (∀ c ∈ x.line, c ≠ 0) ∧ Verbatim x.line ∧
    (x.byteAt x.e.toNat = 0 ∨ x.byteAt x.e.toNat = ch '%' ∧ x.byteAt (x.e.toNat + 1) = 0))
    ⟨fun ⟨hread, hfilled, hverbatim, hended⟩ => ⟨hread, hfilled, hverbatim, hended⟩,
      fun ⟨hread, hfilled, hverbatim, hended⟩ => ⟨hread, hfilled, hverbatim, hended⟩⟩

theorem map_buf (x : Input) : (List.finRange inputBuf).map x.buf = slice x.byteAt 0 inputBuf := by
  refine List.ext_getElem (by simp) fun i hi _ => ?_
  have hlt : i < inputBuf := by simpa using hi
  simp [slice, byteAt_of_lt hlt]

def behind (x : Input) (tail : List Byte) : List Byte :=
  slice x.byteAt x.e.toNat inputBuf ++ ((List.finRange inputBuf).map x.bufCopy ++ tail)

theorem lineText_eq (hr : x.r.toNat ≤ x.w.toNat) (hw : x.w.toNat ≤ x.e.toNat)
    (he : x.e.toNat ≤ inputBuf) (tail : List Byte) :
    lineText x tail = (slice x.byteAt x.r.toNat x.w.toNat ++ (x.line ++ x.behind tail)).takeWhile (· ≠ 0) := by
  have hsplit : slice x.byteAt 0 inputBuf = slice x.byteAt 0 x.r.toNat ++
      (slice x.byteAt x.r.toNat x.w.toNat ++ (x.line ++ slice x.byteAt x.e.toNat inputBuf)) := by
    rw [line, slice_append hw he, slice_append hr (hw.trans he), slice_append (Nat.zero_le _) (hr.trans (hw.trans he))]
  rw [lineText, map_buf, hsplit, behind]
  simp only [List.append_assoc]
  rw [List.drop_left' (by simp)]

theorem lineText_filled (h : c ∈ lineText x tail) : c ≠ 0 := by
  unfold lineText at h
  simpa using List.mem_takeWhile_imp h

theorem takeWhile_filled {l rest : List Byte} (h : ∀ c ∈ l, c ≠ 0) :
    (l ++ rest).takeWhile (· ≠ 0) = l ++ rest.takeWhile (· ≠ 0) :=
  List.takeWhile_append_of_pos fun c hc => decide_eq_true (h c hc)

theorem behind_eq (he : x.e.toNat + 1 < inputBuf) (tail : List Byte) : ∃ rest,
    x.behind tail = x.byteAt x.e.toNat :: x.byteAt (x.e.toNat + 1) :: rest := by
  rw [behind, slice_cons (by omega), slice_cons he]
  exact ⟨_, rfl⟩

theorem Listed.lineText (h : x.Listed) (hw : x.w.toNat ≤ x.e.toNat) (he : x.e.toNat + 1 < inputBuf)
    (tail : List Byte) :
    lineText x tail = x.line ∨ lineText x tail = x.line ++ [ch '%'] := by
  have hread : x.r.toNat = x.w.toNat := congrArg BitVec.toNat h.read
  obtain ⟨rest, hrest⟩ := behind_eq he tail
  rw [lineText_eq (by omega) hw (by omega), hread, slice_self, List.nil_append, takeWhile_filled h.filled,
    hrest]
  rcases h.ended with hzero | ⟨hpercent, hzero⟩
  · left
    simp [hzero]
  · right
    rw [hpercent, hzero]
    rfl

/-- `cprintf` puts the line and nothing else, whatever it finds in the argument words and behind
the arrays, and reads none of these words. -/
def Faithful (x : Input) : Prop :=
  ∀ args tail, formatted args (lineText x tail) 0 = x.line ∧ argsRead (lineText x tail) = 0

structure Stored (x : Input) : Prop where
  ok : x.Ok
  longer : x.w.toNat < x.e.toNat
  last : Ends (x.byteAt (x.e.toNat - 1))
  unread : ∀ c ∈ slice x.byteAt x.r.toNat x.w.toNat, c ≠ 0

theorem Stored.line_eq (h : x.Stored) : ∃ body c, x.line = body ++ [c] ∧ Ends c := by
  have hlt := h.longer
  obtain ⟨e, he⟩ : ∃ e, x.e.toNat = e + 1 := ⟨x.e.toNat - 1, by omega⟩
  refine ⟨slice x.byteAt x.w.toNat e, x.byteAt e, ?_, ?_⟩
  · rw [line, he, slice_succ (by omega)]
  · have hlast := h.last
    rwa [he, Nat.add_sub_cancel] at hlast

theorem Listed.faithful (h : x.Listed) (hx : x.Stored) : x.Faithful := by
  intro args tail
  obtain ⟨body, c, hline, hends⟩ := hx.line_eq
  have hbelow := hx.ok.below
  obtain ⟨hread, -⟩ := verbatim_iff.mp h.verbatim
  have hput := h.verbatim.squeezed
  rcases h.lineText hx.ok.write (show _ < 128 by omega) tail with htext | htext
  · rw [htext, formatted_eq_squeezed hread]
    exact ⟨hput, hread⟩
  · have hargs : argsRead (x.line ++ [ch '%']) = 0 := by
      rw [hline] at hread ⊢
      rw [List.append_assoc, List.singleton_append, argsRead_append hends.ne_percent, hread]
      rfl
    rw [htext, formatted_eq_squeezed hargs]
    refine ⟨?_, hargs⟩
    rw [hline] at hput ⊢
    rw [List.append_assoc, List.singleton_append, squeezed_append hends.ne_percent, hput]
    exact List.append_nil _

theorem Faithful.listed (h : x.Faithful) (hx : x.Stored) : x.Listed := by
  obtain ⟨body, c, hline, hends⟩ := hx.line_eq
  have hr := hx.ok.read
  have hw := hx.ok.write
  have hbelow := hx.ok.below
  obtain ⟨hput, hargs⟩ := h ⟨fun _ => 0, fun _ => []⟩ []
  rw [formatted_eq_squeezed hargs] at hput
  have hfilled : ∀ d ∈ x.line, d ≠ 0 := fun d hd => by
    rw [← hput] at hd
    exact lineText_filled ((squeezed_sublist _).mem hd)
  obtain ⟨after, hafter⟩ : ∃ after, after = (x.behind []).takeWhile (· ≠ 0) := ⟨_, rfl⟩
  have htext : lineText x [] = slice x.byteAt x.r.toNat x.w.toNat ++ (x.line ++ after) := by
    rw [lineText_eq hr hw (show _ ≤ 128 by omega), takeWhile_filled hx.unread,
      takeWhile_filled hfilled, hafter]
  rw [htext] at hput hargs
  have hcount := countP_squeezed (slice x.byteAt x.r.toNat x.w.toNat ++ (x.line ++ after))
  rw [hput, List.countP_append, List.countP_append] at hcount
  have hread : x.r = x.w := by
    by_contra hne
    have hlt : x.r.toNat < x.w.toNat :=
      Nat.lt_of_le_of_ne hr fun heq => hne (BitVec.eq_of_toNat_eq heq)
    obtain ⟨w, hsucc⟩ : ∃ w, x.w.toNat = w + 1 := ⟨x.w.toNat - 1, by omega⟩
    have hended : Ends (x.byteAt w) := by
      rw [byteAt_of_lt (show _ < 128 by omega)]
      exact hx.ok.ended hlt _ hsucc.symm
    rw [hsucc, slice_succ (by omega), List.countP_append, List.countP_singleton,
      if_pos (decide_eq_true hended.ne_percent)] at hcount
    omega
  have hread' : x.r.toNat = x.w.toNat := congrArg BitVec.toNat hread
  rw [hread', slice_self, List.nil_append] at hput hargs
  have hpercents : ∀ d ∈ after, d = ch '%' := by
    have hnone : after.countP (· ≠ ch '%') = 0 := by omega
    simpa [List.countP_eq_zero] using hnone
  have hcut : x.line ++ after = body ++ c :: after := by rw [hline, List.append_assoc]; rfl
  rw [hcut, squeezed_append hends.ne_percent, ← hline] at hput
  rw [hcut, argsRead_append hends.ne_percent, ← hline] at hargs
  have hnothing : squeezed after = [] := by
    by_contra hne
    obtain ⟨l, d, hd⟩ := (List.eq_nil_or_concat (squeezed after)).resolve_left hne
    have hmem : d ∈ squeezed after := by simp [hd]
    rw [hd, hline, List.concat_eq_append, ← List.append_assoc] at hput
    obtain ⟨-, hlast⟩ := List.append_inj' hput rfl
    rw [List.singleton_inj.mp hlast] at hmem
    exact hends.ne_percent (hpercents c ((squeezed_sublist _).mem hmem))
  rw [hnothing, List.append_nil] at hput
  refine ⟨hread, hfilled, verbatim_iff.mpr ⟨by omega, by rw [hput]⟩, ?_⟩
  obtain ⟨rest, hrest⟩ := behind_eq (x := x) (show _ < 128 by omega) []
  rw [hrest, List.takeWhile_cons] at hafter
  by_cases hzero : x.byteAt x.e.toNat = 0
  · exact .inl hzero
  · right
    rw [if_pos (decide_eq_true hzero), List.takeWhile_cons] at hafter
    have hfirst := hpercents (x.byteAt x.e.toNat) (by simp [hafter])
    by_contra hnot
    have hnext : x.byteAt (x.e.toNat + 1) ≠ 0 := fun hzero' => hnot ⟨hfirst, hzero'⟩
    rw [if_pos (decide_eq_true hnext), hfirst] at hafter
    rw [hafter, squeezed, if_neg (not_not_intro rfl)] at hnothing
    split at hnothing <;> cases hnothing

theorem faithful_iff_listed (hx : x.Stored) : x.Faithful ↔ x.Listed :=
  ⟨fun h => h.listed hx, fun h => h.faithful hx⟩

end Input

namespace History

def listing (h : History) (junk : Junk) : List Byte :=
  (List.range h.count.toNat).flatMap fun i : Nat =>
    Console.formatted (junk.args i) (Console.lineText (h.entry i) (junk.tail i)) 0

def Faithful (h : History) : Prop := ∀ i : Nat, i < h.count.toNat → (h.entry i).Faithful

def Listed (h : History) : Prop := ∀ i : Nat, i < h.count.toNat → (h.entry i).Listed

instance (h : History) : Decidable h.Listed := Nat.decidableBallLT _ _

def Stored (h : History) : Prop := ∀ i : Nat, i < h.count.toNat → (h.entry i).Stored

variable {h : History} {x : Input}

theorem Stored.faithful_iff (hs : h.Stored) : h.Faithful ↔ h.Listed :=
  forall_congr' fun i => forall_congr' fun hi => Input.faithful_iff_listed (hs i hi)

theorem Stored.record (hs : h.Stored) (hok : h.Ok) (hx : x.Stored) : (h.record x).Stored := by
  have hcount := record_count (x := x) hok
  have hle := hok.count_le
  intro i hi
  rw [entry_record hok (by omega) (by omega)]
  split
  · exact hx
  · split
    · exact hs (i + 1) (by omega)
    · exact hs i (by omega)

theorem Listed.of_record (hl : (h.record x).Listed) (hok : h.Ok) : x.Listed := by
  have hcount := record_count (x := x) hok
  have hle := hok.count_le
  have hnonneg := hok.count_nonneg
  have hlast := hl ((h.record x).count.toNat - 1) (by omega)
  rwa [entry_record hok (by omega) (by omega), if_pos (by omega)] at hlast

end History

namespace Console

variable {s t u : Console} {fp : Arith} {screen : Screen} {l : Event} {es : List (Console × Event)}
  {junk : Junk}

theorem consputc_char_history (h : s.consputc (.char c) = some t) :
    t.history = s.history := by
  obtain ⟨screen, rfl⟩ := consputc_char h
  unfold echo
  split
  · rfl
  · exact onInput_history _

theorem consolewrite_history (h : s.consolewrite bs = some t) :
    t.history = s.history := by
  induction bs generalizing s with
  | nil =>
    cases h
    rfl
  | cons c bs ih =>
    obtain ⟨u, hu, hrest⟩ := Option.bind_eq_some_iff.mp (by simpa [consolewrite] using h)
    rw [ih hrest, consputc_char_history hu]

theorem printHistory_eq (s : Console) (junk : Junk) :
    s.printHistory junk = s.consolewrite (s.history.listing junk) := by
  unfold printHistory History.listing
  generalize List.range s.history.count.toNat = entries
  induction entries generalizing s with
  | nil => rfl
  | cons i entries ih =>
    rw [List.foldlM_cons, List.flatMap_cons, consolewrite, List.foldlM_append]
    change (s.consolewrite _).bind _ = (s.consolewrite _).bind _
    refine Option.bind_congr fun u hu => ?_
    rw [ih u, consolewrite_history hu]
    rfl

structure Keeps (s : Console) : Prop where
  ok : s.Ok
  stored : s.history.Stored
  unread : ∀ c ∈ slice s.input.byteAt s.input.r.toNat s.input.w.toNat, c ≠ 0

theorem keeps_boot : (boot screen).Keeps where
  ok := ok_boot screen
  stored i hi := absurd hi (Nat.not_lt_zero i)
  unread c hc := by cases hc

namespace Keeps

theorem unread_of_amends (hs : s.Keeps) (h : Amends s u) :
    ∀ c ∈ slice u.input.byteAt u.input.r.toNat u.input.w.toNat, c ≠ 0 := by
  have hw := hs.ok.input.write
  have hbelow := hs.ok.input.below
  have hsame : slice u.input.byteAt u.input.r.toNat u.input.w.toNat =
      slice s.input.byteAt s.input.r.toNat s.input.w.toNat := by
    rw [h.r, h.w]
    refine slice_congr fun i hlo hhi => ?_
    rw [Input.byteAt_of_lt (show _ < 128 by omega), Input.byteAt_of_lt (show _ < 128 by omega)]
    exact h.unread _ hlo hhi
  rw [hsame]
  exact hs.unread

theorem line_stored (hs : s.Keeps) (h : Commits c s u t) (hbelow : u.input.e.toNat < 127) :
    u.input.Stored where
  ok := (hs.ok.amends h.amends hbelow).input
  longer := h.longer
  last := by
    have hlonger := h.longer
    rw [Input.byteAt_of_lt (show _ < 128 by omega), h.last _ (by simp only; omega)]
    exact h.ends
  unread := hs.unread_of_amends h.amends

theorem history_stored (hs : s.Keeps) (h : Acts s t l) (hbelow : t.input.e.toNat < 127) :
    t.history.Stored := by
  cases h with
  | amends _ h => exact h.history ▸ hs.stored
  | commits c junk u _ h =>
    rw [h.input] at hbelow
    rw [h.history, h.amends.history]
    exact hs.stored.record hs.ok.history (hs.line_stored h hbelow)
  | recalls _ _ _ _ _ h =>
    rw [h.history]
    exact hs.stored
  | takes _ _ _ ht =>
    rw [ht]
    exact hs.stored

theorem acts (hs : s.Keeps) (h : Acts s t l) (hbelow : t.input.e.toNat < 127)
    (hl : t.history.Listed) : t.Keeps := by
  refine ⟨hs.ok.acts h hbelow, hs.history_stored h hbelow, ?_⟩
  cases h with
  | amends _ h => exact hs.unread_of_amends h
  | commits c junk u _ h =>
    have hu := hs.unread_of_amends h.amends
    rw [h.history, h.amends.history] at hl
    have hline := (hl.of_record hs.ok.history).filled
    rw [h.input] at hbelow ⊢
    have hok := hs.ok.amends h.amends hbelow
    change ∀ c ∈ slice u.input.byteAt u.input.r.toNat u.input.e.toNat, c ≠ 0
    rw [← slice_append hok.input.read hok.input.write]
    exact fun c hc => (List.mem_append.mp hc).elim (hu c) (hline c)
  | recalls _ _ index _ _ h =>
    have hnonneg := h.nonneg
    have hentry := hl index.toNat (by rw [h.history]; have := h.lt; simp only; omega)
    rw [Int.toNat_of_nonneg hnonneg] at hentry
    have hsame : t.history.entry index = s.history.entry index := by
      rw [h.history]
      rfl
    rw [h.r, h.w, ← hsame, hentry.read, slice_self]
    exact fun c hc => by cases hc
  | takes _ _ hlt ht =>
    have hsucc : (s.input.r + 1).toNat = s.input.r.toNat + 1 := by bv_omega
    rw [ht]
    change ∀ c ∈ slice s.input.byteAt (s.input.r + 1).toNat s.input.w.toNat, c ≠ 0
    have hunread := hs.unread
    rw [slice_cons hlt, ← hsucc] at hunread
    exact fun c hc => hunread c (List.mem_cons_of_mem _ hc)

theorem always_iff (hrun : Run (Step fp) s es t) (hs : s.Keeps) (hshort : Run.Always Short es t)
    (hcareful : ∀ e ∈ es, Careful e.1 e.2) :
    Run.Always (fun s => s.history.Faithful) es t ↔ Run.Always (fun s => s.history.Listed) es t := by
  induction hrun with
  | nil => exact and_congr (by simp) hs.stored.faithful_iff
  | @cons s l u es t hstep hrest ih =>
    obtain ⟨hkey, hkeys⟩ := List.forall_mem_cons.mp hcareful
    have hu : u.Short := hshort.tail.start hrest
    have hacts := hstep.acts hs.ok hkey hu
    have hnext := (hs.history_stored hacts hu).faithful_iff
    rw [Run.always_cons, Run.always_cons, hs.stored.faithful_iff]
    refine and_congr_right fun _ => ?_
    have hiff : u.history.Listed → _ := fun hl => ih (hs.acts hacts hu hl) hshort.tail hkeys
    exact ⟨fun h => (hiff (hnext.mp (h.start hrest))).mp h, fun h => (hiff (h.start hrest)).mpr h⟩

end Keeps

theorem listing_faithful_iff (h : Run (Step fp) (boot screen) es s) (hshort : Run.Always Short es s)
    (hcareful : ∀ e ∈ es, Careful e.1 e.2) :
    (∀ junk, s.printHistory junk = s.consolewrite (s.history.listing junk)) ∧
    (Run.Always (fun s => s.history.Faithful) es s ↔ Run.Always (fun s => s.history.Listed) es s) :=
  ⟨printHistory_eq s, keeps_boot.always_iff h hshort hcareful⟩

def listed : List Event :=
  ("50% off".toList.map fun c => press (ch c)) ++ [press (ch '\r')] ++
    List.replicate 8 (.read 9 9) ++ [press (ch 'a'), press (ch 'b'), press 0xe4, press (ctrl 'H'), press (ch '\r')]

theorem listing_faithful_of_listed : ∃ s, Run (Step sums) dark (trace (next sums) dark listed) s ∧
    Run.Always (fun s => s.history.Faithful) (trace (next sums) dark listed) s ∧
    s.history.count = 2 := by
  obtain ⟨s, hrun, hs⟩ := Run.of_exec_any (next sums) dark listed
    (fun s => s.Short ∧ s.history.Listed ∧ s.history.count = 2) (by decide +kernel)
  obtain ⟨hlast, hlisted, hcount⟩ := of_decide_eq_true hs
  have hshort : Run.Always Short (trace (next sums) dark listed) s := ⟨by decide +kernel, hlast⟩
  have hall : Run.Always (fun s => s.history.Listed) (trace (next sums) dark listed) s :=
    ⟨by decide +kernel, hlisted⟩
  obtain ⟨-, hiff⟩ := listing_faithful_iff hrun hshort (by decide +kernel)
  exact ⟨s, hrun, hiff.mpr hall, hcount⟩

theorem listing_of_conversion : ∃ es s, Run (Step sums) dark es s ∧ s.oob = false ∧
    s.history.texts = [[ch '%', ch 'd', ch '\n']] ∧
    s.history.listing ⟨0, fun _ => 0, fun _ => ⟨fun _ => 5, fun _ => []⟩, fun _ => []⟩ =
      [ch '5', ch '\n'] ∧
    es.map Prod.snd = [press (ch '%'), press (ch 'd'), press (ch '\r')] := by
  obtain ⟨s, hrun, hs⟩ := Run.of_exec_any (next sums) dark
    [press (ch '%'), press (ch 'd'), press (ch '\r')]
    (fun s => s.oob = false ∧ s.history.texts = [[ch '%', ch 'd', ch '\n']] ∧
      s.history.listing ⟨0, fun _ => 0, fun _ => ⟨fun _ => 5, fun _ => []⟩, fun _ => []⟩ =
        [ch '5', ch '\n']) (by decide +kernel)
  obtain ⟨hoob, htexts, hlisting⟩ := of_decide_eq_true hs
  exact ⟨_, s, hrun, hoob, htexts, hlisting, rfl⟩

end Console

end Xv6
