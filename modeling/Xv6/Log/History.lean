import Xv6.Log.Redo

namespace Xv6.Log

open Disk Lib

variable {A : Area} {T : Transaction A} {old new : Word → Block} {s t : Redo}
  {es : List (Redo × Redo.Event)} {tail : Nat}

namespace Transaction

def empty (T : Transaction A) : Transaction A where
  blocks := []
  nodup := .nil
  home := by simp
  length_lt := Nat.lt_of_le_of_lt (Nat.zero_le _) T.length_lt
  length_le := Nat.zero_le _

def apply (T : Transaction A) (new old : Word → Block) (b : Word) : Block :=
  if T.blocks.contains b then new b else old b

theorem apply_eq : T.apply new old b = if b ∈ T.blocks then new b else old b := by simp [apply]

def Commits (T : Transaction A) (es : List (Redo × Redo.Event)) : Prop :=
  T.blocks.length < (es.takeWhile fun e => e.2 = .write).length

instance : Decidable (T.Commits es) := inferInstanceAs (Decidable (_ < _))

theorem Inv.done (h : T.Inv old new s) (hdone : s.phase = .done) :
    (s.disk A.start).word 0 = 0 ∧ T.Others old s.disk ∧ (T.Homes old s.disk ∨ T.Homes new s.disk) := by
  cases h.stage with
  | logging _ phase | installing _ phase | erasing phase => rw [phase] at hdone; cases hdone
  | quiet _ _ head homes => exact ⟨head, h.others, homes⟩

theorem Inv.crash_logging (h : T.Inv old new s) (hphase : s.phase = .writeLog tail) :
    T.empty.Inv old new (Redo.recoverFromLog A s.disk) := by
  cases h.stage with
  | logging _ _ _ head homes _ =>
    refine ⟨fun b _ hb => ?_, .quiet (.inl rfl) (readHead_of_zero head) head (.inl fun b hb => nomatch hb)⟩
    by_cases hmem : b ∈ T.blocks
    · exact homes b hmem
    · exact h.others b hmem hb
  | installing _ phase | erasing phase => rw [phase] at hphase; cases hphase
  | quiet phase => rcases phase with phase | phase | phase <;> rw [phase] at hphase <;> cases hphase

theorem Inv.committed (h : T.Inv old new s) (hphase : s.phase = .installTrans 0) (hlh : s.lh = T.blocks) :
    T.Inv (T.apply new old) new s := by
  refine ⟨fun b hb hout => ?_, ?_⟩
  · rw [h.others b hb hout, apply_eq, if_neg hb]
  · cases h.stage with
    | logging _ phase | erasing phase => rw [phase] at hphase; cases hphase
    | installing tail phase lh head copied homes => exact .installing tail phase lh head copied homes
    | quiet phase lh head =>
      refine .quiet phase lh head (.inr fun b hb => ?_)
      rw [← hlh, lh] at hb
      cases hb

theorem installed (h : Run (Redo.Step A new) s es t) (hs : T.Inv (T.apply new old) new s)
    (hdone : t.phase = .done) :
    (t.disk A.start).word 0 = 0 ∧ ∀ b, ¬A.Covers b → t.disk b = T.apply new old b := by
  have ht : T.Inv (T.apply new old) new t := h.invariant_of_step (fun _ _ _ hstep hs => hs.step hstep) hs
  obtain ⟨head, others, homes⟩ := ht.done hdone
  refine ⟨head, fun b hb => ?_⟩
  by_cases hmem : b ∈ T.blocks
  · rcases homes with homes | homes
    · exact homes b hmem
    · rw [homes b hmem, apply_eq, if_pos hmem]
  · exact others b hmem hb

theorem unchanged (h : Run (Redo.Step A new) s es t) (hs : T.empty.Inv old new s) (hdone : t.phase = .done) :
    (t.disk A.start).word 0 = 0 ∧ ∀ b, ¬A.Covers b → t.disk b = old b := by
  have happly : T.empty.apply new old = old := rfl
  exact happly ▸ installed h (happly.symm ▸ hs) hdone

theorem logged (h : Run (Redo.Step A new) s es t) (hs : T.Inv old new s) (hphase : s.phase = .writeLog tail)
    (hlh : s.lh = T.blocks) (htail : tail ≤ T.blocks.length) (hdone : t.phase = .done) :
    (t.disk A.start).word 0 = 0 ∧ ∀ b, ¬A.Covers b → t.disk b =
      if T.blocks.length < tail + (es.takeWhile fun e => e.2 = .write).length then T.apply new old b else old b := by
  induction h generalizing tail with
  | nil =>
    rw [hphase] at hdone
    cases hdone
  | @cons s e s₁ es t hstep hrest ih =>
    cases e with
    | crash =>
      cases hstep
      obtain ⟨head, hsame⟩ := unchanged hrest (hs.crash_logging hphase) hdone
      exact ⟨head, fun b hb => by rw [hsame b hb, if_neg (by simpa using htail)]⟩
    | write =>
      have hs₁ := hs.step hstep
      simp only [Redo.Step, Redo.event, Redo.next, hphase, hlh] at hstep
      rw [List.takeWhile_cons_of_pos (by simp), List.length_cons, ← Nat.add_assoc, Nat.add_right_comm]
      by_cases hlt : tail < T.blocks.length
      · rw [List.getElem?_eq_getElem hlt] at hstep
        cases hstep
        exact ih hs₁ rfl hlh hlt hdone
      · rw [List.getElem?_eq_none (Nat.le_of_not_lt hlt)] at hstep
        cases hstep
        obtain ⟨head, hnew⟩ := installed hrest (hs₁.committed rfl hlh) hdone
        exact ⟨head, fun b hb => by rw [hnew b hb, if_pos (by omega)]⟩

theorem commit_point (hhead : (old A.start).word 0 = 0)
    (h : Run (Redo.Step A new) (Redo.commit old T.blocks) es t) (hdone : t.phase = .done) :
    (t.disk A.start).word 0 = 0 ∧ ∀ b, ¬A.Covers b →
      t.disk b = if T.Commits es then T.apply new old b else old b := by
  by_cases hpos : 0 < T.blocks.length
  · have hlogged := logged h (T.inv_commit hhead) (if_pos hpos) rfl (Nat.zero_le _) hdone
    simp only [Nat.zero_add] at hlogged
    exact hlogged
  · have hnil : T.blocks = T.empty.blocks := List.eq_nil_of_length_eq_zero (Nat.eq_zero_of_not_pos hpos)
    rw [hnil] at h
    obtain ⟨head, hsame⟩ := unchanged h (T.empty.inv_commit hhead) hdone
    exact ⟨head, fun b hb => by simp [hsame b hb, apply, hnil, empty]⟩

end Transaction

/-- A transaction with the contents of its blocks, and the block writes and crashes until the
disk is quiet again. -/
structure Attempt (A : Area) where
  T : Transaction A
  new : Word → Block
  es : List (Redo × Redo.Event)

inductive History (A : Area) : (Word → Block) → List (Attempt A) → (Word → Block) → Prop
  | nil {disk} : History A disk [] disk
  | cons {disk x t xs disk'} : Run (Redo.Step A x.new) (Redo.commit disk x.T.blocks) x.es t → t.phase = .done →
      History A t.disk xs disk' → History A disk (x :: xs) disk'

/-- Every block outside the log has the contents that the last transaction to commit it gave it. -/
theorem history_committed {disk disk' : Word → Block} {xs : List (Attempt A)} (h : History A disk xs disk')
    (hhead : (disk A.start).word 0 = 0) (b : Word) (hb : ¬A.Covers b) :
    disk' b = xs.foldl (fun c x => if x.T.Commits x.es ∧ b ∈ x.T.blocks then x.new b else c) (disk b) := by
  induction h with
  | nil => rfl
  | @cons disk x t xs disk' hrun hdone _ ih =>
    obtain ⟨head, hdisk⟩ := Transaction.commit_point hhead hrun hdone
    rw [ih head, hdisk b hb, List.foldl_cons, ite_and, Transaction.apply_eq]

theorem history_committed_cut_twice :
    let new : Word → Block := fun _ _ => 1
    let es := trace (Redo.event ⟨2, logsize⟩ new) (Redo.commit (fun _ => .zero) twoBlocks.blocks) cutTwice
    ∃ disk, History _ (fun _ => .zero) [⟨twoBlocks, new, es⟩] disk ∧ disk 40 = new 40 := by
  intro new es
  obtain ⟨t, hrun, hdone⟩ := Run.of_exec_any (Redo.event ⟨2, logsize⟩ new) (Redo.commit (fun _ => .zero) twoBlocks.blocks)
    cutTwice (fun t => decide (t.phase = .done)) (by decide +kernel)
  have h : History _ (fun _ => .zero) [⟨twoBlocks, new, es⟩] t.disk := .cons hrun (of_decide_eq_true hdone) .nil
  have hcommits : twoBlocks.Commits es ∧ 40 ∈ twoBlocks.blocks := by decide +kernel
  refine ⟨t.disk, h, ?_⟩
  rw [history_committed h rfl 40 (twoBlocks.home 40 hcommits.2), List.foldl_cons, if_pos hcommits, List.foldl_nil]

end Xv6.Log
