import Xv6.Lib.Prog
import Mathlib.Algebra.Order.Ring.Int
import Mathlib.Data.List.Infix

namespace Xv6.Cli

open Lib Prog

/-- `FL_IF` of the flags register, with `ncli` and `intena` of the CPU. -/
structure State where
  enabled : Bool
  ncli : Int
  intena : Bool
  deriving DecidableEq

/-- An `int` that overflows has no value. -/
inductive Stop
  | panic (s : String)
  | overflow
  deriving DecidableEq

abbrev M (α : Type) := Prog State Stop α

def int (i : Int) : M Int := if -2 ^ 31 ≤ i ∧ i < 2 ^ 31 then return i else throw .overflow

def pushcli : M Unit := do
  let s ← get
  let ncli ← int (s.ncli + 1)
  set { enabled := false, ncli, intena := if s.ncli = 0 then s.enabled else s.intena : State }

def popcli : M Unit := do
  let s ← get
  if s.enabled then throw (.panic "popcli - interruptible")
  else
    let ncli ← int (s.ncli - 1)
    if ncli < 0 then throw (.panic "popcli")
    else set { s with ncli, enabled := ncli = 0 && s.intena }

inductive Call
  | pushcli
  | popcli
  deriving DecidableEq

def Call.run : Call → M Unit
  | pushcli => Cli.pushcli
  | popcli => Cli.popcli

def run (cs : List Call) : M Unit := cs.forM Call.run

def holding : List Call := [.pushcli, .popcli]

def acquire : List Call := .pushcli :: holding

def release : List Call := holding ++ [.popcli]

def depth (cs : List Call) : Int := cs.count .pushcli - cs.count .popcli

def Matched (cs : List Call) : Prop := ∀ pre, pre <+: cs → 0 ≤ depth pre

@[simp] theorem depth_nil : depth [] = 0 := rfl

theorem depth_append (cs : List Call) (c : Call) :
    depth (cs ++ [c]) = depth cs + if c = .pushcli then 1 else -1 := by
  cases c <;> simp [depth] <;> omega

structure At (flag : Bool) (d : Int) (s : State) : Prop where
  ncli : s.ncli = d
  small : d < 2 ^ 31
  enabled : s.enabled = (decide (d = 0) && flag)
  intena : 0 < d → s.intena = flag

theorem int_eq_ok (h : -2 ^ 31 ≤ i ∧ i < 2 ^ 31) : int i s = .ok (i, s) := by
  rw [int, if_pos h]
  rfl

theorem int_eq_error (h : ¬ i < 2 ^ 31) : int i s = .error .overflow := by
  rw [int, if_neg fun hi => h hi.2]
  rfl

theorem pushcli_at (h : At flag d s) (hd : 0 ≤ d) :
    Finishes (fun e => e = .overflow ∧ d = 2 ^ 31 - 1) pushcli s fun _ => At flag (d + 1) := by
  obtain ⟨rfl, hsmall, henabled, hintena⟩ := h
  refine .get ?_
  by_cases hlarge : s.ncli + 1 < 2 ^ 31
  · refine .run (int_eq_ok ⟨by omega, hlarge⟩) (.put ⟨rfl, hlarge, ?_, fun _ => ?_⟩)
    · rw [decide_eq_false (by omega), Bool.false_and]
    · by_cases hzero : s.ncli = 0
      · simp [hzero, henabled]
      · simpa [hzero] using hintena (by omega)
  · exact .fail (int_eq_error hlarge) ⟨rfl, by omega⟩

theorem popcli_at (h : At flag d s) (hd : 0 < d) :
    Finishes (fun _ => False) popcli s fun _ => At flag (d - 1) := by
  obtain ⟨rfl, hsmall, henabled, hintena⟩ := h
  have hoff : s.enabled = false := by rw [henabled, decide_eq_false (by omega), Bool.false_and]
  refine .get ?_
  rw [if_neg (by simp [hoff])]
  refine .run (int_eq_ok ⟨by omega, by omega⟩) ?_
  rw [if_neg (by omega)]
  refine .put ⟨rfl, by omega, ?_, fun _ => hintena hd⟩
  rw [hintena hd]

structure Nested (s₀ : State) (cs : List Call) (s : State) : Prop where
  ncli : s.ncli = depth cs
  disabled : 0 < s.ncli → s.enabled = false
  restored : ∀ pre mid t, cs = pre ++ .pushcli :: mid → depth pre = 0 → s.ncli = 0 →
    run pre s₀ = .ok ((), t) → s.enabled = t.enabled

def TooDeep (cs : List Call) (e : Stop) : Prop :=
  e = .overflow ∧ ∃ pre, pre ++ [.pushcli] <+: cs ∧ depth pre = 2 ^ 31 - 1

theorem run_at (hcs : Matched cs) (h : s.ncli = 0) :
    Finishes (TooDeep cs) (run cs) s fun _ => At s.enabled (depth cs) := by
  have hstep (c : Call) (l : List Call) (t : State)
      (ht : ∃ pre, pre ++ c :: l = cs ∧ At s.enabled (depth pre) t) :
      Finishes (TooDeep cs) c.run t fun _ u => ∃ pre, pre ++ l = cs ∧ At s.enabled (depth pre) u := by
    obtain ⟨pre, rfl, hat⟩ := ht
    have hsplit : pre ++ c :: l = pre ++ [c] ++ l := by simp
    have hnext : pre ++ [c] <+: pre ++ c :: l := ⟨l, hsplit.symm⟩
    have hafter := hcs _ hnext
    rw [depth_append] at hafter
    have hend : Finishes (TooDeep (pre ++ c :: l)) c.run t fun _ => At s.enabled (depth (pre ++ [c])) := by
      rw [depth_append]
      cases c with
      | pushcli => exact (pushcli_at hat (hcs pre ⟨_, rfl⟩)).weaken fun e he => ⟨he.1, pre, hnext, he.2⟩
      | popcli => exact (popcli_at hat (by simp at hafter; omega)).weaken fun _ he => he.elim
    exact hend.mono fun _ u hu => ⟨pre ++ [c], hsplit.symm, hu⟩
  have hstart : ∃ pre, pre ++ cs = cs ∧ At s.enabled (depth pre) s :=
    ⟨[], rfl, h, by decide, by simp, fun h0 => absurd h0 (by simp)⟩
  refine (Finishes.forM (I := fun l t => ∃ pre, pre ++ l = cs ∧ At s.enabled (depth pre) t) hstep cs
    hstart).mono ?_
  rintro _ t ⟨pre, hpre, hat⟩
  rw [List.append_nil] at hpre
  rwa [← hpre]

theorem cli_nested (cs : List Call) (hcs : Matched cs) (s₀ : State) (h : s₀.ncli = 0) :
    Finishes (TooDeep cs) (run cs) s₀ fun _ => Nested s₀ cs := by
  refine (run_at hcs h).mono fun _ s hs => ⟨hs.ncli, fun hpos => ?_, ?_⟩
  · rw [hs.ncli] at hpos
    rw [hs.enabled, decide_eq_false (by omega), Bool.false_and]
  · rintro pre mid t rfl hpre hzero hrun
    have hpart : Matched pre := fun l hl => hcs l (hl.trans ⟨_, rfl⟩)
    have ht := (run_at hpart h).of_ok hrun
    rw [hs.ncli] at hzero
    rw [hs.enabled, ht.enabled, hzero, hpre]

instance (cs : List Call) : Decidable (Matched cs) :=
  decidable_of_iff (∀ pre ∈ cs.inits, 0 ≤ depth pre) (by simp [Matched])

theorem cli_nested_overlapping : ∃ s,
    run (acquire ++ acquire ++ release ++ release) ⟨true, 0, false⟩ = .ok ((), s) ∧
      Nested ⟨true, 0, false⟩ (acquire ++ acquire ++ release ++ release) s ∧ s.enabled := by
  obtain ⟨_, s, hrun, henabled⟩ := exists_of_ok_any (x := run (acquire ++ acquire ++ release ++ release))
    (s := ⟨true, 0, false⟩) (p := fun r => r.2.enabled) (by decide +kernel)
  exact ⟨s, hrun, (cli_nested _ (by decide +kernel) _ rfl).of_ok hrun, henabled⟩

end Xv6.Cli
