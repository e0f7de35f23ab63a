import Xv6.Console.Invariant

namespace Xv6.Console

open Lib

variable {s : Console} {fp : Arith} {screen : Screen} {es : List (Console × Event)}

def InOrder (s : Console) : Prop :=
  s.input.w - s.input.r ≤ s.input.e - s.input.r ∧ s.input.e - s.input.r ≤ inputBuf ∧
  0 ≤ s.lefts.toInt ∧ s.lefts ≤ s.input.e - s.input.w

instance (s : Console) : Decidable s.InOrder := inferInstanceAs (Decidable (_ ∧ _ ∧ _ ∧ _))

theorem Ok.inOrder (hs : s.Ok) : s.InOrder := by
  have hr := hs.input.read
  have hw := hs.input.write
  have hin := hs.input.below
  have hcur := hs.cursor
  have her : (s.input.e - s.input.r).toNat = s.input.e.toNat - s.input.r.toNat := by bv_omega
  have hwr : (s.input.w - s.input.r).toNat = s.input.w.toNat - s.input.r.toNat := by bv_omega
  have hew : (s.input.e - s.input.w).toNat = s.input.e.toNat - s.input.w.toNat := by bv_omega
  refine ⟨?_, ?_, ?_, ?_⟩
  · show (s.input.w - s.input.r).toNat ≤ (s.input.e - s.input.r).toNat
    omega
  · show (s.input.e - s.input.r).toNat ≤ 128
    omega
  · rw [BitVec.toInt_eq_toNat_of_lt (by omega)]
    omega
  · show s.lefts.toNat ≤ (s.input.e - s.input.w).toNat
    omega

theorem inOrder_of_careful (h : Run (Step fp) (boot screen) es s) (hshort : Run.Always Short es s)
    (hcareful : ∀ e ∈ es, Careful e.1 e.2) : Run.Always InOrder es s := by
  obtain ⟨hes, hlast⟩ := always_ok h hshort hcareful
  exact ⟨fun e he => (hes e he).inOrder, hlast.inOrder⟩

def sums : Arith where
  eval _ a b := (false, a + b, 0)
  digits _ := 1
  digits_le _ := by decide
  prints _ _ _ := .inl Nat.one_pos

def press (c : Byte) : Event :=
  .key c ⟨0, fun _ => 0, fun _ => ⟨fun _ => 0, fun _ => []⟩, fun _ => []⟩

def dark : Console := boot ⟨fun _ => 0, 0⟩

def summing : List Event :=
  ("n1+2=?".toList.map fun c => press (ch c)) ++
    [press 0xe4, press (ch '\r'), .read 4 4, press 0xe2]

theorem inOrder_of_summing :
    ∃ s, Run (Step sums) dark (trace (next sums) dark summing) s ∧
      Run.Always InOrder (trace (next sums) dark summing) s := by
  obtain ⟨s, hrun, hs⟩ := Run.of_exec_any (next sums) dark summing (fun s => s.Short)
    (by decide +kernel)
  have hshort : Run.Always Short (trace (next sums) dark summing) s :=
    ⟨by decide +kernel, of_decide_eq_true hs⟩
  exact ⟨s, hrun, inOrder_of_careful hrun hshort (by decide +kernel)⟩

theorem not_inOrder_of_eof :
    ∃ es s, Run (Step sums) dark es s ∧ ¬ s.InOrder ∧ s.oob = false ∧
      es.map Prod.snd = [press (ch 'a'), press (ch 'b'), press 0xe4, press (ctrl 'D')] := by
  obtain ⟨s, hrun, hs⟩ := Run.of_exec_any (next sums) dark
    [press (ch 'a'), press (ch 'b'), press 0xe4, press (ctrl 'D')]
    (fun s => ¬ s.InOrder ∧ s.oob = false) (by decide +kernel)
  obtain ⟨horder, hoob⟩ := of_decide_eq_true hs
  exact ⟨_, s, hrun, horder, hoob, rfl⟩

theorem inRange_of_careful (h : Run (Step fp) (boot screen) es s) (hshort : Run.Always Short es s)
    (hcareful : ∀ e ∈ es, Careful e.1 e.2) : Run.Always (fun s => s.oob = false) es s := by
  obtain ⟨hes, hlast⟩ := always_ok h hshort hcareful
  exact ⟨fun e he => (hes e he).inRange, hlast.inRange⟩

def copying : List Event :=
  [press (ctrl 'S'), press (ch 'a'), press (ch 'b'), press 0xe4, press (ctrl 'F'),
    .write [ch 'o', ch 'k'], press (ch '\n')]

theorem inRange_of_copying :
    ∃ s, Run (Step sums) dark (trace (next sums) dark copying) s ∧
      Run.Always (fun s => s.oob = false) (trace (next sums) dark copying) s := by
  obtain ⟨s, hrun, hs⟩ := Run.of_exec_any (next sums) dark copying (fun s => s.Short)
    (by decide +kernel)
  have hshort : Run.Always Short (trace (next sums) dark copying) s :=
    ⟨by decide +kernel, of_decide_eq_true hs⟩
  exact ⟨s, hrun, inRange_of_careful hrun hshort (by decide +kernel)⟩

theorem outOfRange_of_question :
    ∃ es s, Run (Step sums) dark es s ∧ s.oob = true ∧ es.map Prod.snd = [press (ch '?')] := by
  obtain ⟨s, hrun, hs⟩ := Run.of_exec_any (next sums) dark [press (ch '?')] (fun s => s.oob)
    (by decide +kernel)
  exact ⟨_, s, hrun, hs, rfl⟩

end Xv6.Console
