import Xv6.Console.Recall

namespace Xv6.Console

open Lib

variable {s t u : Console} {c : Byte} {junk : Junk} {fp : Arith} {screen : Screen} {l : Event}
  {es : List (Console × Event)} {n target : Word}

def readable (bs : List Byte) : List Byte := bs.filter (· ≠ ctrl 'D')

def Taken.bytes : Taken → List Byte
  | .byte c => [c]
  | .eof => []

def taken (s : Console) : Event → List Byte
  | .read n target => ((s.consoleread n target).map fun p => p.1.bytes).getD []
  | _ => []

def delivered (es : List (Console × Event)) : List Byte := es.flatMap fun e => e.1.taken e.2

def committed (fp : Arith) (es : List (Console × Event)) : List Byte :=
  readable (lines fp es).flatten

def waiting (s : Console) : List Byte :=
  readable (slice s.input.byteAt s.input.r.toNat s.input.w.toNat)

/-- A key that goes through the history finds everything read, and leads to a line that was
committed when everything had been. -/
def Settled (s : Console) : Event → Prop
  | .key c _ => ∀ index ∈ destination s.history (Key.of c),
      s.input.r = s.input.w ∧ (s.history.entry index).r = (s.history.entry index).w
  | _ => True

instance (s : Console) : (l : Event) → Decidable (s.Settled l)
  | .key _ _ => inferInstanceAs (Decidable (∀ index ∈ _, _))
  | .read _ _ | .write _ | .print _ _ => isTrue trivial

theorem readable_append (as bs : List Byte) : readable (as ++ bs) = readable as ++ readable bs :=
  List.filter_append as bs

theorem waiting_of_read (h : s.input.r = s.input.w) : s.waiting = [] := by
  rw [waiting, h, slice_self]
  rfl

theorem waiting_of_amends (h : Amends s t) (hbelow : s.input.w.toNat < 127) :
    t.waiting = s.waiting := by
  rw [waiting, waiting, h.r, h.w]
  refine congrArg readable (slice_congr fun i hlo hhi => ?_)
  rw [Input.byteAt_of_lt (show _ < 128 by omega), Input.byteAt_of_lt (show _ < 128 by omega)]
  exact h.unread _ hlo hhi

theorem waiting_of_commits (h : Commits c s u t) (hs : s.Ok) :
    t.waiting = s.waiting ++ readable u.input.line := by
  have hr := hs.input.read
  have hw := hs.input.write
  have hin := hs.input.below
  have hlonger := h.longer
  rw [← waiting_of_amends h.amends (by omega), waiting, waiting, h.input, ← readable_append]
  refine congrArg readable (slice_append ?_ (Nat.le_of_lt hlonger)).symm
  rw [h.amends.r, h.amends.w]
  exact hr

theorem waiting_of_takes (hlt : s.input.r.toNat < s.input.w.toNat)
    (ht : t = { s with input := { s.input with r := s.input.r + 1 } }) :
    s.waiting = readable [s.input.buf (place s.input.r)] ++ t.waiting := by
  have hsucc : (s.input.r + 1).toNat = s.input.r.toNat + 1 := by bv_omega
  rw [waiting, slice_cons hlt, ← List.singleton_append, readable_append, ht, waiting]
  simp only [hsucc]
  rfl

theorem waiting_of_consoleread (h : s.consoleread n target = some (got, t))
    (hs : s.Ok) : s.waiting = got.bytes ++ t.waiting := by
  have hr := hs.input.read
  unfold consoleread at h
  split at h
  case isFalse => cases h
  rename_i hguard
  have hlt : s.input.r.toNat < s.input.w.toNat :=
    Nat.lt_of_le_of_ne hr fun heq => hguard.2 (BitVec.eq_of_toNat_eq heq)
  simp only at h
  split at h
  · rename_i heof
    obtain ⟨rfl, ht⟩ := Prod.mk.inj (Option.some.inj h)
    split at ht
    · rw [ht]
      rfl
    · rw [waiting_of_takes hlt ht.symm, heof]
      rfl
  · rename_i hbyte
    obtain ⟨rfl, ht⟩ := Prod.mk.inj (Option.some.inj h)
    rw [waiting_of_takes hlt ht.symm, readable, List.filter_cons_of_pos (by simpa using hbyte)]
    rfl

theorem conserved (h : Step fp s l t) (hs : s.Ok) (hcareful : s.Careful l) (hsettled : s.Settled l)
    (hbelow : t.Short) :
    s.waiting ++ readable (s.entered fp l).flatten = s.taken l ++ t.waiting := by
  have hw := hs.input.write
  have hin := hs.input.below
  cases l with
  | read n target =>
    obtain ⟨⟨got, u⟩, hread, rfl⟩ := Option.map_eq_some_iff.mp h
    have htaken : s.taken (.read n target) = got.bytes := by rw [taken, hread]; rfl
    rw [htaken, waiting_of_consoleread hread hs]
    exact List.append_nil _
  | write bs =>
    cases h.acts hs hcareful hbelow with
    | amends _ hamends =>
      rw [waiting_of_amends hamends (by omega)]
      exact List.append_nil _
  | print fmt args =>
    cases h.acts hs hcareful hbelow with
    | amends _ hamends =>
      rw [waiting_of_amends hamends (by omega)]
      exact List.append_nil _
  | key c junk =>
    cases h.acts hs hcareful hbelow with
    | amends _ hamends =>
      rw [entered_of_amends h hamends, waiting_of_amends hamends (by omega)]
      exact List.append_nil _
    | commits _ _ u hkey hcommits =>
      rw [entered_of_commits h hkey hcommits, waiting_of_commits hcommits hs,
        List.flatten_singleton]
      rfl
    | recalls _ _ index hkey hindex hrecalls =>
      obtain ⟨hread, hentry⟩ := hsettled index hindex
      have hread' : t.input.r = t.input.w := by rw [hrecalls.r, hrecalls.w, hentry]
      rw [entered_of_recall hkey, waiting_of_read hread, waiting_of_read hread']
      rfl

theorem conserved_run (hrun : Run (Step fp) s es t) (hs : s.Ok) (hshort : Run.Always Short es t)
    (hcareful : ∀ e ∈ es, Careful e.1 e.2) (hsettled : ∀ e ∈ es, Settled e.1 e.2) :
    s.waiting ++ committed fp es = delivered es ++ t.waiting := by
  induction hrun with
  | nil => exact List.append_nil _
  | @cons s l u es t hstep hrest ih =>
    obtain ⟨hcare, hcareful⟩ := List.forall_mem_cons.mp hcareful
    obtain ⟨hsettle, hsettled⟩ := List.forall_mem_cons.mp hsettled
    have hu : u.Short := hshort.tail.start hrest
    have hrest' := ih (hs.step hcare hstep hu) hshort.tail hcareful hsettled
    have hhead := conserved hstep hs hcare hsettle hu
    calc
      s.waiting ++ committed fp ((s, l) :: es)
          = (s.waiting ++ readable (s.entered fp l).flatten) ++ committed fp es := by
        rw [committed, lines, List.flatMap_cons, List.flatten_append, readable_append,
          List.append_assoc]
        rfl
      _ = s.taken l ++ (u.waiting ++ committed fp es) := by rw [hhead, List.append_assoc]
      _ = delivered ((s, l) :: es) ++ t.waiting := by
        rw [hrest', ← List.append_assoc]
        rfl

theorem delivered_of_settled (h : Run (Step fp) (boot screen) es s)
    (hshort : Run.Always Short es s) (hcareful : ∀ e ∈ es, Careful e.1 e.2)
    (hsettled : ∀ e ∈ es, Settled e.1 e.2) : delivered es <+: committed fp es :=
  ⟨s.waiting, (conserved_run h (ok_boot screen) hshort hcareful hsettled).symm⟩

def reading : List Event :=
  [press (ch 'a'), press (ch '\r'), .read 9 9, .read 8 9, press (ch 'b'), press (ch '\r'),
    .read 9 9, .read 8 9, press 0xe2, press (ch '\r'), .read 9 9]

theorem delivered_of_reading :
    ∃ s, Run (Step sums) dark (trace (next sums) dark reading) s ∧
      delivered (trace (next sums) dark reading) <+:
        committed sums (trace (next sums) dark reading) := by
  obtain ⟨s, hrun, hs⟩ := Run.of_exec_any (next sums) dark reading (fun s => s.Short)
    (by decide +kernel)
  have hshort : Run.Always Short (trace (next sums) dark reading) s :=
    ⟨by decide +kernel, of_decide_eq_true hs⟩
  exact ⟨s, hrun, delivered_of_settled hrun hshort (by decide +kernel) (by decide +kernel)⟩

def typeAhead : List Event :=
  [press (ch 'a'), press (ch '\r'), press (ch 'b'), press (ch '\r'), .read 9 9, .read 8 9,
    .read 9 9, .read 8 9, press 0xe2, .read 9 9]

theorem redelivered_of_typeAhead :
    ∃ s, Run (Step sums) dark (trace (next sums) dark typeAhead) s ∧
      Run.Always (fun s => s.Short ∧ s.oob = false) (trace (next sums) dark typeAhead) s ∧
      ¬ delivered (trace (next sums) dark typeAhead) <+:
        committed sums (trace (next sums) dark typeAhead) ∧
      delivered (trace (next sums) dark typeAhead) =
        [ch 'a', ch '\n', ch 'b', ch '\n', ch 'a'] := by
  obtain ⟨s, hrun, hs⟩ := Run.of_exec_any (next sums) dark typeAhead
    (fun s => s.Short ∧ s.oob = false) (by decide +kernel)
  exact ⟨s, hrun, ⟨by decide +kernel, of_decide_eq_true hs⟩, by decide +kernel, by decide +kernel⟩

end Xv6.Console
