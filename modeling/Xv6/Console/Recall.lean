import Xv6.Console.Bounds
import Xv6.Lib.Zipper

namespace Xv6

open Lib

def Input.line (x : Input) : List Byte := slice x.byteAt x.w.toNat x.e.toNat

def History.texts (h : History) : List (List Byte) :=
  (List.range h.count.toNat).map fun i : Nat => (h.entry i).line

namespace History

variable {h : History} {x : Input}

@[simp] theorem length_texts : h.texts.length = h.count.toNat := by
  simp [texts]

theorem texts_record (hok : h.Ok) :
    (h.record x).texts = (h.texts ++ [x.line]).drop (h.count.toNat + 1 - 10) := by
  have hcount := hok.count_nonneg
  have hle := hok.count_le
  have hcount' := record_count (x := x) hok
  apply List.ext_getElem
  · simp only [length_texts, List.length_drop, List.length_append, List.length_singleton]
    omega
  intro i hi _
  rw [length_texts] at hi
  have hentry := entry_record (x := x) hok (i := i) (by omega) (by omega)
  rw [List.getElem_drop, List.getElem_append]
  simp only [texts, List.getElem_map, List.getElem_range, List.length_map, List.length_range]
  rw [hentry]
  by_cases hnew : (i : Int) + 1 = (h.record x).count
  · rw [if_pos hnew, dif_neg (by omega)]
    simp
  · rw [if_neg hnew, dif_pos (by omega)]
    congr 2
    split <;> omega

end History

namespace Console

variable {s t u : Console} {c : Byte} {junk : Junk} {fp : Arith} {screen : Screen} {l : Event}
  {es : List (Console × Event)}

def entered (fp : Arith) (s : Console) : Event → List (List Byte)
  | .key c junk =>
    match Key.of c, s.consoleintr fp c junk with
    | .other, some t =>
      if t.input.w = s.input.w then []
      else [slice t.input.byteAt s.input.w.toNat t.input.w.toNat]
    | _, _ => []
  | _ => []

def lines (fp : Arith) (es : List (Console × Event)) : List (List Byte) :=
  es.flatMap fun e => e.1.entered fp e.2

theorem entered_of_amends (h : Step fp s l t) (hamends : Amends s t) : s.entered fp l = [] := by
  cases l with
  | key c junk =>
    have hstep : s.consoleintr fp c junk = some t := h
    cases hkey : Key.of c <;> simp [entered, hstep, hkey, hamends.w]
  | read | write | print => rfl

theorem entered_of_commits (h : Step fp s (.key c junk) t) (hkey : Key.of c = .other)
    (hcommits : Commits (typed c) s u t) : s.entered fp (.key c junk) = [u.input.line] := by
  have hstep : s.consoleintr fp c junk = some t := h
  have hw := hcommits.amends.w
  have hlonger := hcommits.longer
  have hinput := hcommits.input
  have hmoved : t.input.w ≠ s.input.w := by
    rw [hinput, ← hw]
    intro heq
    exact absurd (congrArg BitVec.toNat heq) (Nat.ne_of_gt hlonger)
  simp only [entered, hstep, hkey, if_neg hmoved]
  rw [hinput, ← hw]
  rfl

theorem entered_of_recall (hkey : Key.of c = .up ∨ Key.of c = .down) :
    s.entered fp (.key c junk) = [] := by
  rcases hkey with hkey | hkey <;> simp [entered, hkey]

theorem line_of_commits (h : Commits c s u t) (hbelow : u.input.e.toNat < 127) :
    ∃ body, u.input.line = body ++ [c] := by
  obtain ⟨e, he⟩ : ∃ e, u.input.e.toNat = e + 1 := ⟨u.input.e.toNat - 1, by have := h.longer; omega⟩
  have hlonger := h.longer
  refine ⟨slice u.input.byteAt u.input.w.toNat e, ?_⟩
  rw [Input.line, he, slice_succ (by omega), Input.byteAt_of_lt (show _ < 128 by omega),
    h.last _ he.symm]

structure Recorded (ls : List (List Byte)) (h : History) : Prop where
  ok : h.Ok
  texts : h.texts = ls.drop (ls.length - 10)

namespace Recorded

variable {ls : List (List Byte)} {h : History} {x : Input}

theorem count (hrec : Recorded ls h) : h.count = min (ls.length : Int) 10 := by
  have hlen := congrArg List.length hrec.texts
  have hnonneg := hrec.ok.count_nonneg
  rw [History.length_texts, List.length_drop] at hlen
  omega

theorem record (hrec : Recorded ls h) (hx : x.Ok) (hlt : x.w.toNat < x.e.toNat) :
    Recorded (ls ++ [x.line]) (h.record x) := by
  have hcount := hrec.count
  refine ⟨hrec.ok.record hx hlt, ?_⟩
  rw [History.texts_record hrec.ok, hrec.texts, ← List.drop_append_of_le_length (Nat.sub_le _ _),
    List.drop_drop, List.length_append, List.length_singleton]
  congr 1
  omega

end Recorded

/-- Lines are committed with Enter only, and `?` only where the search for an expression stays
inside the buffer. -/
def Entering (s : Console) : Event → Prop
  | .key c _ => c ≠ ctrl 'D' ∧ (c = ch '?' → s.Asks)
  | _ => True

instance (s : Console) : (l : Event) → Decidable (s.Entering l)
  | .key _ _ => inferInstanceAs (Decidable (_ ∧ _))
  | .read _ _ | .write _ | .print _ _ => isTrue trivial

theorem Entering.careful (h : s.Entering l) : s.Careful l := by
  cases l with
  | key c junk => exact ⟨fun heof => absurd heof h.1, h.2⟩
  | read | write | print => trivial

structure Session (ls : List (List Byte)) (s : Console) : Prop where
  ok : s.Ok
  history : Recorded ls s.history
  newline : ∀ l ∈ ls, ∃ body, l = body ++ [ch '\n']

theorem session_boot : Session [] (boot screen) :=
  ⟨ok_boot screen, ⟨History.ok_zero, rfl⟩, fun l hl => by cases hl⟩

theorem Session.step (hs : Session ls s) (hkeys : s.Entering l)
    (h : Step fp s l t) (hbelow : t.Short) : Session (ls ++ s.entered fp l) t := by
  have hacts := h.acts hs.ok hkeys.careful hbelow
  have hok := hs.ok.acts hacts hbelow
  cases hacts with
  | amends _ hamends =>
    rw [entered_of_amends h hamends, List.append_nil]
    exact ⟨hok, hamends.history ▸ hs.history, hs.newline⟩
  | commits c junk u hkey hcommits =>
    have hinput := hcommits.input
    have hbelow' : u.input.e.toNat < 127 := by
      have : t.input.e.toNat < 127 := hbelow
      rwa [hinput] at this
    have hu := hs.ok.amends hcommits.amends hbelow'
    rw [entered_of_commits h hkey hcommits]
    refine ⟨hok, ?_, fun l hl => ?_⟩
    · rw [hcommits.history]
      rw [hcommits.amends.history]
      exact hs.history.record hu.input hcommits.longer
    · rcases List.mem_append.mp hl with hl | hl
      · exact hs.newline l hl
      · obtain rfl := List.mem_singleton.mp hl
        have hnewline : typed c = ch '\n' :=
          hcommits.ends.resolve_right fun heof => hkeys.1 (typed_eq (by decide) heof)
        rw [← hnewline]
        exact line_of_commits hcommits hbelow'
  | recalls c junk index hkey _ hrecalls =>
    rw [entered_of_recall hkey, List.append_nil]
    refine ⟨hok, ⟨hok.history, ?_⟩, hs.newline⟩
    rw [hrecalls.history]
    exact hs.history.texts
  | takes n target _ ht =>
    rw [show s.entered fp (.read n target) = [] from rfl, List.append_nil]
    refine ⟨hok, ?_, hs.newline⟩
    rw [ht]
    exact hs.history

theorem Session.run (hrun : Run (Step fp) s es t) (hs : Session ls s)
    (hshort : Run.Always Short es t) (hkeys : ∀ e ∈ es, Entering e.1 e.2) :
    Session (ls ++ lines fp es) t := by
  induction hrun generalizing ls with
  | nil =>
    rw [lines, List.flatMap_nil, List.append_nil]
    exact hs
  | @cons s l u es t hstep hrest ih =>
    obtain ⟨hkey, hkeys⟩ := List.forall_mem_cons.mp hkeys
    have hu : u.Short := hshort.tail.start hrest
    have hrun := ih (hs.step hkey hstep hu) hshort.tail hkeys
    rw [lines, List.flatMap_cons, ← List.append_assoc]
    exact hrun

theorem Recalls.line (h : Recalls index s t) (hs : s.Ok) :
    t.input.line = (t.history.entry index).line.dropLast := by
  obtain ⟨hentry, hlonger⟩ := hs.history.entries index h.nonneg h.lt
  have hbelow := hentry.below
  have he := h.e
  have hsame : t.history.entry index = s.history.entry index := by
    rw [h.history]
    rfl
  rw [hsame, Input.line, Input.line, ← he, slice_succ (by omega), List.dropLast_concat, h.w]
  refine slice_congr fun i _ hi => ?_
  rw [Input.byteAt_of_lt (show _ < 128 by omega), Input.byteAt_of_lt (show _ < 128 by omega)]
  exact h.text _ hi

theorem Session.recall (hs : Session ls s)
    (hkey : Key.of c = .up ∨ Key.of c = .down) (h : s.consoleintr fp c junk = some t)
    (hmoved : t.history.index ≠ s.history.index) :
    (t.history.entry t.history.index).line = t.input.line ++ [ch '\n'] := by
  rcases hs.ok.historyKey hkey h with rfl | ⟨index, -, hrecalls⟩
  · exact absurd rfl hmoved
  have hindex : t.history.index = index := by rw [hrecalls.history]
  have hentry : t.history.entry index = s.history.entry index := by
    rw [hrecalls.history]
    rfl
  have hnonneg := hrecalls.nonneg
  have hlt := hrecalls.lt
  have hmem : (s.history.entry index).line ∈ s.history.texts := by
    refine List.mem_map.mpr ⟨index.toNat, List.mem_range.mpr (by omega), ?_⟩
    rw [Int.toNat_of_nonneg hnonneg]
  rw [hs.history.texts] at hmem
  obtain ⟨body, hbody⟩ := hs.newline _ (List.mem_of_mem_drop hmem)
  rw [hrecalls.line hs.ok, hindex, hentry, hbody, List.dropLast_concat]

theorem history_of_session (h : Run (Step fp) (boot screen) es s)
    (hshort : Run.Always Short es s) (hkeys : ∀ e ∈ es, Entering e.1 e.2) :
    s.history.count = min ((lines fp es).length : Int) 10 ∧
    s.history.texts = (lines fp es).drop ((lines fp es).length - 10) ∧
    (0 < s.history.count → 0 ≤ s.history.index ∧ s.history.index ≤ s.history.count) ∧
    ∀ c junk t, Key.of c = .up ∨ Key.of c = .down → s.consoleintr fp c junk = some t →
      t.history.index ≠ s.history.index →
      (t.history.entry t.history.index).line = t.input.line ++ [ch '\n'] := by
  have hs := Session.run h session_boot hshort hkeys
  rw [List.nil_append] at hs
  exact ⟨hs.history.count, hs.history.texts,
    fun hpos => ⟨hs.ok.history.index_nonneg hpos, hs.ok.history.index_le⟩,
    fun c junk t hkey hstep hmoved => hs.recall hkey hstep hmoved⟩

def recalling : List Event :=
  [press (ch 'a'), press (ch '\r'), press (ch 'b'), press (ch '\r'), press 0xe2, press 0xe2,
    press (ch 'c'), press (ch '\r')]

theorem history_of_recalling :
    ∃ s, Run (Step sums) dark (trace (next sums) dark recalling) s ∧ s.history.count = 3 ∧
      s.history.texts =
        [[ch 'a', ch '\n'], [ch 'b', ch '\n'], [ch 'a', ch 'c', ch '\n']] := by
  obtain ⟨s, hrun, hs⟩ := Run.of_exec_any (next sums) dark recalling (fun s => s.Short)
    (by decide +kernel)
  have hshort : Run.Always Short (trace (next sums) dark recalling) s :=
    ⟨by decide +kernel, of_decide_eq_true hs⟩
  obtain ⟨hcount, htexts, -⟩ := history_of_session hrun hshort (by decide +kernel)
  have hlines : lines sums (trace (next sums) dark recalling) =
      [[ch 'a', ch '\n'], [ch 'b', ch '\n'], [ch 'a', ch 'c', ch '\n']] := by decide +kernel
  rw [hlines] at hcount htexts
  exact ⟨s, hrun, hcount, htexts⟩

end Console

end Xv6
