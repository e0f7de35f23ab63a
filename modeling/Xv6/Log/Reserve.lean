import Xv6.Log.Group

namespace Xv6.Log

open Disk Lib

namespace Pc

def mine : Pc → List Word
  | inside mine | writing _ mine => mine
  | _ => []

def room (m : Nat) (pc : Pc) : Int := if pc.InCall then m - pc.mine.length else 0

theorem mine_of_not_inCall {pc : Pc} (h : ¬pc.InCall) : pc.mine = [] := by
  cases pc with
  | inside | writing => exact absurd trivial h
  | outside | asleep | woken | commits => rfl

theorem mine_sublist_logged (pc : Pc) : pc.mine.length ≤ pc.logged.length := by
  cases pc with
  | writing b mine => exact (List.sublist_insert b mine).length_le
  | inside | outside | asleep | woken | commits => exact Nat.le_refl _

theorem mine_wakeup (pc : Pc) : pc.wakeup.mine = pc.mine := by cases pc <;> rfl

theorem room_wakeup (pc : Pc) : pc.wakeup.room m = pc.room m := by cases pc <;> rfl

end Pc

namespace Group

variable {P : Type} [DecidableEq P] {A : Area} {s t : Group P} {a : Act P} {m : Nat}

def CallsLog (m : Nat) (s : Group P) : Prop := ∀ p, (s.pc p).logged.length ≤ m

variable [Fintype P]

instance : DecidablePred (CallsLog m : Group P → Prop) := fun s =>
  inferInstanceAs (Decidable (∀ p, (s.pc p).logged.length ≤ m))

def reserved (m : Nat) (s : Group P) : Int := s.redo.lh.length + ∑ p, (s.pc p).room m

structure Reserve (m : Nat) (s : Group P) : Prop extends s.Inv where
  known : ∀ p, (s.pc p).mine ⊆ s.redo.lh
  bound : s.reserved m ≤ 10 + 2 * m

theorem sum_room_goto (p : P) (pc : Pc) :
    ∑ q, ((s.goto p pc).pc q).room m = ∑ q, (s.pc q).room m - (s.pc p).room m + pc.room m :=
  sum_update (Pc.room m) s.pc p pc

theorem reserved_goto (p : P) (pc : Pc) :
    (s.goto p pc).reserved m = s.reserved m - (s.pc p).room m + pc.room m := by
  rw [reserved, sum_room_goto, reserved]
  simp only [goto]
  omega

omit [DecidableEq P] in
theorem reserved_wakeup : s.wakeup.reserved m = s.reserved m := by
  have hsum : ∑ q, (s.wakeup.pc q).room m = ∑ q, (s.pc q).room m :=
    Finset.sum_congr rfl fun q _ => (s.pc q).room_wakeup
  rw [reserved, hsum]
  rfl

omit [DecidableEq P] in
theorem sum_room_le : ∑ q, (s.pc q).room m ≤ m * s.calls := by
  refine sum_le_count fun p => ?_
  rw [Pc.room]
  split <;> omega

omit [DecidableEq P] [Fintype P] in
theorem CallsLog.room_nonneg (h : s.CallsLog m) (p : P) : 0 ≤ (s.pc p).room m := by
  have hmine := (s.pc p).mine_sublist_logged
  have hlogged := h p
  rw [Pc.room]
  split <;> omega

theorem CallsLog.reserved_leave (h : s.CallsLog m) (p : P) {pc : Pc} (hpc : ¬pc.InCall) :
    (s.goto p pc).reserved m ≤ s.reserved m := by
  have hroom := h.room_nonneg p
  rw [reserved_goto, Pc.room, Pc.room, if_neg hpc, ← Pc.room]
  omega

omit [Fintype P] in
theorem known_goto {p : P} {pc : Pc} (h : ∀ q, (s.pc q).mine ⊆ s.redo.lh) (hpc : pc.mine ⊆ s.redo.lh) (q : P) :
    ((s.goto p pc).pc q).mine ⊆ s.redo.lh := by
  rw [goto_pc, Function.update_apply]
  split
  · exact hpc
  · exact h q

omit [DecidableEq P] [Fintype P] in
theorem known_wakeup (h : ∀ q, (s.pc q).mine ⊆ s.redo.lh) (q : P) :
    (s.wakeup.pc q).mine ⊆ s.redo.lh := by
  show (s.pc q).wakeup.mine ⊆ s.redo.lh
  rw [Pc.mine_wakeup]
  exact h q

omit [DecidableEq P] in
theorem reserve_boot {disk cache : Word → Block} : (boot disk cache : Group P).Reserve m where
  toInv := inv_boot
  known := fun _ => List.nil_subset _
  bound := by
    have hsum : ∑ p, ((boot disk cache : Group P).pc p).room m = 0 := Finset.sum_eq_zero fun _ _ => rfl
    rw [reserved, hsum]
    simp only [boot, List.length_nil]
    omega

omit [DecidableEq P] in
theorem Reserve.enter (hs : s.Reserve m) (hm : m ≤ 10) (idle : s.committing = false)
    (room : s.redo.lh.length + (s.outstanding + 1) * 10 ≤ 30) : s.reserved m + m ≤ 10 + 2 * m := by
  have hsum : ∑ q, (s.pc q).room m ≤ m * s.outstanding := by
    rw [hs.outstanding]
    exact sum_room_le
  have hnonneg : 0 ≤ s.outstanding := by
    rw [hs.outstanding]
    exact count_nonneg
  have hdone : s.redo.phase = .done := by
    by_contra hphase
    rw [hs.busy hphase] at idle
    cases idle
  rw [reserved]
  have hcases : s.outstanding = 0 ∨ s.outstanding = 1 ∨ s.outstanding = 2 := by omega
  rcases hcases with hout | hout | hout <;> rw [hout] at hsum room
  · rw [hs.empty hdone hout, List.length_nil]
    omega
  · omega
  · omega

theorem Reserve.logWrite (hs : s.Reserve m)
    (pc : s.pc p = .writing b mine) : (s.logWrite p b mine data).reserved m ≤ s.reserved m := by
  have hknown : mine ⊆ s.redo.lh := by
    have := hs.known p
    rwa [pc] at this
  have hold : (s.pc p).room m = m - mine.length := by rw [pc]; exact if_pos trivial
  have hnew : (Pc.inside (mine.insert b)).room m = m - (mine.insert b).length := if_pos trivial
  have hsum : ∑ q, ((s.logWrite p b mine data).pc q).room m =
      ∑ q, (s.pc q).room m - (m - mine.length) + (m - (mine.insert b).length) := by
    rw [← hold, ← hnew]
    exact sum_room_goto p _
  have hlh : (s.logWrite p b mine data).redo.lh = if b ∈ s.redo.lh then s.redo.lh else s.redo.lh ++ [b] := rfl
  rw [reserved, reserved, hsum, hlh]
  by_cases hb : b ∈ s.redo.lh
  · have hle : mine.length ≤ (mine.insert b).length := (List.sublist_insert b mine).length_le
    rw [if_pos hb]
    omega
  · have hlen : (mine.insert b).length = mine.length + 1 :=
      List.length_insert_of_not_mem fun h => hb (hknown h)
    rw [if_neg hb, List.length_append, List.length_singleton, hlen]
    omega

theorem Reserve.step (hs : s.Reserve m) (hm : m ≤ 10) (hcalls : s.CallsLog m) (h : Step A s a t) :
    t.Reserve m := by
  refine ⟨hs.toInv.step h, ?_, ?_⟩
  · cases h.does with
    | sleep p | kill p | enter p => exact known_goto hs.known (List.nil_subset _)
    | tooBig | outsideOfTrans | committing => exact hs.known
    | test p b mine pc =>
      have hp := hs.known p
      rw [pc] at hp
      exact known_goto hs.known hp
    | logWrite p b mine data pc =>
      have hp := hs.known p
      rw [pc] at hp
      have hsub : s.redo.lh ⊆ (s.logWrite p b mine data).redo.lh := by
        intro c hc
        show c ∈ if b ∈ s.redo.lh then s.redo.lh else s.redo.lh ++ [b]
        split
        · exact hc
        · exact List.mem_append_left _ hc
      have hb : b ∈ (s.logWrite p b mine data).redo.lh := by
        show b ∈ if b ∈ s.redo.lh then s.redo.lh else s.redo.lh ++ [b]
        split
        · assumption
        · exact List.mem_append_right _ (List.mem_singleton_self b)
      refine known_goto (s := { s with redo := _ }) (fun q _ hc => hsub (hs.known q hc)) fun c hc => ?_
      rcases List.mem_insert_iff.mp hc with rfl | hc
      · exact hb
      · exact hsub (hp hc)
    | last p => exact known_goto hs.known (List.nil_subset _)
    | leave p | finish p => exact known_wakeup (known_goto hs.known (List.nil_subset _))
    | write p r pc next =>
      have hbusy : s.committing = true := hs.busy fun hdone => by
        rw [Redo.next, hdone] at next
        cases next
      intro q
      have hq : ¬(s.pc q).InCall := hs.toInv.contained.finished hbusy q
      show (s.pc q).mine ⊆ r.lh
      rw [Pc.mine_of_not_inCall hq]
      exact List.nil_subset _
  · have hbound := hs.bound
    cases h.does with
    | sleep p | kill p | last p => exact (hcalls.reserved_leave p id).trans hbound
    | enter p pc idle room =>
      have hout : (s.pc p).room m = 0 := if_neg pc
      have hin : (Pc.inside []).room m = m := (if_pos trivial).trans (Int.sub_zero _)
      have hgoto : (s.goto p (.inside [])).reserved m = s.reserved m + m := by
        rw [reserved_goto, hout, hin]
        omega
      exact hgoto.le.trans (hs.enter hm idle room)
    | tooBig | outsideOfTrans | committing => exact hbound
    | test p b mine pc =>
      have hroom : (Pc.writing b mine).room m = (s.pc p).room m := by rw [pc]; rfl
      rw [reserved_goto, hroom]
      omega
    | logWrite p b mine data pc => exact (hs.logWrite pc).trans hbound
    | leave p | finish p =>
      have hleave := hcalls.reserved_leave p (show ¬Pc.outside.InCall from id)
      exact (reserved_wakeup.le.trans hleave).trans hbound
    | write p r pc next =>
      obtain ⟨hlh, -⟩ | ⟨-, hlh, -⟩ := lh_of_next next
      · rw [reserved] at hbound ⊢
        rw [hlh]
        exact hbound
      · rw [reserved] at hbound ⊢
        rw [hlh, List.length_nil]
        dsimp only
        omega

theorem length_lh_le (hm : m ≤ 10) {disk cache : Word → Block} {es : List (Group P × Act P)}
    (h : Run (Step A) (boot disk cache) es t) (hcalls : Run.Always (CallsLog m) es t) :
    Run.Always (fun s => s.redo.lh.length ≤ 10 + 2 * m) es t := by
  have hstep : ∀ (s : Group P) a t, Step A s a t → s.CallsLog m → s.Reserve m → t.Reserve m :=
    fun s a t h hcalls hs => hs.step hm hcalls h
  have hlength : ∀ s : Group P, s.Reserve m → s.CallsLog m → s.redo.lh.length ≤ 10 + 2 * m := by
    intro s hs hcalls
    have hbound := hs.bound
    have hsum : 0 ≤ ∑ p, (s.pc p).room m := Finset.sum_nonneg fun p _ => hcalls.room_nonneg p
    rw [reserved] at hbound
    omega
  obtain ⟨hes, hlast⟩ := h.always_invariant hstep hcalls.1 reserve_boot
  exact ⟨fun e he => hlength e.1 (hes e he) (hcalls.1 e he), hlength t hlast hcalls.2⟩

omit [Fintype P] in
theorem panic_ne_tooBig (hsize : A.size = logsize) {disk cache : Word → Block} {es : List (Group P × Act P)}
    (h : Run (Step A) (boot disk cache) es t) (hroom : ∀ e ∈ es, e.1.redo.lh.length ≤ 28) :
    Run.Always (fun s => s.panic ≠ some .tooBig) es t := by
  have hstep : ∀ (s : Group P) a t, Step A s a t → s.redo.lh.length ≤ 28 →
      s.panic ≠ some .tooBig → t.panic ≠ some .tooBig := by
    intro s a t h hlen hs
    cases h.does with
    | tooBig p b mine pc full =>
      rw [hsize] at full
      simp only [logsize] at full
      omega
    | outsideOfTrans | committing => exact nofun
    | sleep | enter | kill | test | logWrite | last | leave | write | finish => exact hs
  exact h.always_invariant hstep hroom nofun

def threeCalls : List (Act (Fin 3)) :=
  [.beginOp 0, .beginOp 1, .beginOp 2] ++
    (List.range 29).flatMap (fun i =>
      [.test (Fin.ofNat 3 (i / 10)) (BitVec.ofNat 32 (100 + i)), .logWrite (Fin.ofNat 3 (i / 10)) .zero]) ++
    [.test 2 129]

theorem exists_tooBig :
    ∃ es t, Run (Step ⟨2, logsize⟩) (boot (fun _ => .zero) fun _ => .zero : Group (Fin 3)) es t ∧
      Run.Always (CallsLog maxopblocks) es t ∧ t.panic = some .tooBig := by
  obtain ⟨t, hrun, ht⟩ := Run.of_exec_any (next ⟨2, logsize⟩) (boot (fun _ => .zero) fun _ => .zero) threeCalls
    (fun t => t.CallsLog maxopblocks ∧ t.panic = some .tooBig) (by decide +kernel)
  obtain ⟨hlast, hpanic⟩ := of_decide_eq_true ht
  exact ⟨_, t, hrun, ⟨by decide +kernel, hlast⟩, hpanic⟩

theorem reservation_suffices_iff (m : Nat) :
    (∀ (P : Type) [Fintype P] [DecidableEq P] (A : Area) (disk cache : Word → Block)
      (es : List (Group P × Act P)) (t : Group P), A.size = logsize → Run (Step A) (boot disk cache) es t →
      Run.Always (CallsLog m) es t → Run.Always (fun s => s.panic ≠ some .tooBig) es t) ↔
      m < maxopblocks := by
  constructor
  · intro h
    by_contra hm
    obtain ⟨es, t, hrun, hcalls, hpanic⟩ := exists_tooBig
    have hmono : ∀ s : Group (Fin 3), s.CallsLog maxopblocks → s.CallsLog m := fun s hs p =>
      (hs p).trans (Nat.le_of_not_lt hm)
    have hnever := h (Fin 3) _ _ _ es t rfl hrun
      ⟨fun e he => hmono e.1 (hcalls.1 e he), hmono t hcalls.2⟩
    exact hnever.2 hpanic
  · intro hm P _ _ A disk cache es t hsize hrun hcalls
    have hm : m < 10 := hm
    obtain ⟨hes, -⟩ := length_lh_le (by omega) hrun hcalls
    exact panic_ne_tooBig hsize hrun fun e he => (hes e he).trans (by omega)

theorem tooBig_of_three_calls :
    ∃ es t, Run (Step ⟨2, logsize⟩) (boot (fun _ => .zero) fun _ => .zero : Group (Fin 3)) es t ∧
      Run.Always (CallsLog maxopblocks) es t ∧ ¬Run.Always (fun s => s.panic ≠ some .tooBig) es t := by
  obtain ⟨es, t, hrun, hcalls, hpanic⟩ := exists_tooBig
  exact ⟨es, t, hrun, hcalls, fun h => h.2 hpanic⟩

end Group

end Xv6.Log
