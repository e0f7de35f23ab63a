import Xv6.Disk.Block
import Xv6.Lib.Run

/-! The redo log on the disk: `write_log`, `write_head`, `install_trans` and
`recover_from_log` as a machine that makes one block write a step and can lose power before
any of them. -/

namespace Xv6.Log

open Function Disk Lib

abbrev logsize : Nat := 30

abbrev maxopblocks : Nat := 10

structure Area where
  start : Word
  size : Nat

namespace Area

variable (A : Area)

/-- The block `log.start + tail + 1` holds the copy of the `tail`-th logged block. -/
def slot (tail : Nat) : Word := A.start + BitVec.ofNat 32 (tail + 1)

def Covers (b : Word) : Prop := ∃ k < A.size, b = A.start + BitVec.ofNat 32 k

end Area

/-! The header block is a `struct logheader`: the word `n`, then `block[0 .. n)`. -/

def readHead (hb : Block) : List Word :=
  (List.range (hb.word 0).toInt.toNat).map fun i => hb.word (Fin.ofNat 128 (i + 1))

def writeHead (hb : Block) (lh : List Word) : Block :=
  (hb.setWord 0 (BitVec.ofNat 32 lh.length)).setWords 1 lh

inductive Phase
  | writeLog (tail : Nat)
  | installTrans (tail : Nat)
  | eraseHead
  | done
  deriving DecidableEq

structure Redo where
  disk : Word → Block
  lh : List Word
  phase : Phase

namespace Redo

variable (A : Area) (cache : Word → Block)

def commit (disk : Word → Block) (lh : List Word) : Redo where
  disk := disk
  lh := lh
  phase := if 0 < lh.length then .writeLog 0 else .done

def recoverFromLog (disk : Word → Block) : Redo where
  disk := disk
  lh := readHead (disk A.start)
  phase := .installTrans 0

def bwrite (s : Redo) (b : Word) (data : Block) (phase : Phase) : Redo :=
  { s with disk := update s.disk b data, phase := phase }

@[simp] theorem bwrite_disk (s : Redo) (b : Word) (data : Block) (phase : Phase) :
    (s.bwrite b data phase).disk = update s.disk b data := rfl

/-- One block write of `commit` or `recover_from_log`.  `cache b` is what the buffer cache
holds for a block of the transaction; log blocks and the header are read as they were last
written. -/
def next (s : Redo) : Option Redo :=
  match s.phase with
  | .writeLog tail =>
    match s.lh[tail]? with
    | some b => some (s.bwrite (A.slot tail) (cache b) (.writeLog (tail + 1)))
    -- write_head: from here on the transaction is committed
    | none => some (s.bwrite A.start (writeHead (s.disk A.start) s.lh) (.installTrans 0))
  | .installTrans tail =>
    match s.lh[tail]? with
    | some b => some (s.bwrite b (s.disk (A.slot tail)) (.installTrans (tail + 1)))
    -- no write: log.lh.n = 0
    | none => some { s with lh := [], phase := .eraseHead }
  | .eraseHead => some (s.bwrite A.start (writeHead (s.disk A.start) s.lh) .done)
  | .done => none

inductive Event
  | write
  | crash
  deriving DecidableEq

/-- A crash loses everything but the disk, and the next boot recovers from the log. -/
def event (s : Redo) : Event → Option Redo
  | .write => s.next A cache
  | .crash => some (recoverFromLog A s.disk)

def Step (s : Redo) (e : Event) (t : Redo) : Prop := s.event A cache e = some t

end Redo

theorem word_zero_writeHead (h : lh.length ≤ 127) :
    (writeHead hb lh).word 0 = BitVec.ofNat 32 lh.length := by
  rw [writeHead, Block.word_setWords (by omega)]
  exact Block.word_setWord_self _ _ _

theorem toInt_ofNat_toNat (h : n ≤ 127) : (BitVec.ofNat 32 n).toInt.toNat = n := by
  rw [BitVec.toInt_eq_toNat_of_lt] <;> rw [BitVec.toNat_ofNat] <;> omega

theorem readHead_writeHead (h : lh.length ≤ 127) :
    readHead (writeHead hb lh) = lh := by
  rw [readHead, word_zero_writeHead h, toInt_ofNat_toNat h]
  refine List.ext_getElem (by simp) fun i hi hi' => ?_
  have hj : (Fin.ofNat 128 (i + 1)).val = i + 1 := Nat.mod_eq_of_lt (by omega)
  rw [List.getElem_map, List.getElem_range, writeHead, Block.word_setWords (by omega), hj,
    if_pos (by omega), Nat.add_sub_cancel, List.getElem?_eq_getElem hi', Option.getD_some]

theorem readHead_of_zero (h : hb.word 0 = 0) : readHead hb = [] := by
  rw [readHead, h]
  rfl

structure Transaction (A : Area) where
  blocks : List Word
  nodup : blocks.Nodup
  home : ∀ b ∈ blocks, ¬A.Covers b
  length_lt : blocks.length < A.size
  length_le : blocks.length ≤ logsize

namespace Transaction

variable (T : Transaction A)

theorem covers_slot (h : tail < T.blocks.length) : A.Covers (A.slot tail) :=
  ⟨tail + 1, by have := T.length_lt; omega, rfl⟩

include T in
theorem covers_start : A.Covers A.start :=
  ⟨0, by have := T.length_lt; omega, by simp⟩

theorem slot_ne_start (h : tail < T.blocks.length) : A.slot tail ≠ A.start := by
  have hle : T.blocks.length ≤ 30 := T.length_le
  intro heq
  have hnat := congrArg BitVec.toNat heq
  simp only [Area.slot, BitVec.toNat_add, BitVec.toNat_ofNat] at hnat
  omega

theorem slot_inj (hi : i < T.blocks.length) (hj : j < T.blocks.length)
    (h : A.slot i = A.slot j) : i = j := by
  have hle : T.blocks.length ≤ 30 := T.length_le
  have hnat := congrArg BitVec.toNat h
  simp only [Area.slot, BitVec.toNat_add, BitVec.toNat_ofNat] at hnat
  omega

def Copied (new disk : Word → Block) (tail : Nat) : Prop :=
  ∀ i (h : i < T.blocks.length), i < tail → disk (A.slot i) = new T.blocks[i]

def Homes (content disk : Word → Block) : Prop := ∀ b ∈ T.blocks, disk b = content b

def Others (old disk : Word → Block) : Prop := ∀ b ∉ T.blocks, ¬A.Covers b → disk b = old b

inductive Stage (old new : Word → Block) (s : Redo) : Prop
  | logging (tail : Nat) (phase : s.phase = .writeLog tail) (lh : s.lh = T.blocks)
      (head : (s.disk A.start).word 0 = 0) (homes : T.Homes old s.disk)
      (copied : T.Copied new s.disk tail)
  | installing (tail : Nat) (phase : s.phase = .installTrans tail) (lh : s.lh = T.blocks)
      (head : readHead (s.disk A.start) = T.blocks)
      (copied : T.Copied new s.disk T.blocks.length)
      (homes : ∀ i (h : i < T.blocks.length), i < tail → s.disk T.blocks[i] = new T.blocks[i])
  | erasing (phase : s.phase = .eraseHead) (lh : s.lh = [])
      (head : readHead (s.disk A.start) = T.blocks)
      (copied : T.Copied new s.disk T.blocks.length) (homes : T.Homes new s.disk)
  | quiet (phase : s.phase = .installTrans 0 ∨ s.phase = .eraseHead ∨ s.phase = .done)
      (lh : s.lh = []) (head : (s.disk A.start).word 0 = 0)
      (homes : T.Homes old s.disk ∨ T.Homes new s.disk)

/-- What holds of a commit of `T`, over contents `old` with new contents `new`, at any
time, also through crashes. -/
structure Inv (old new : Word → Block) (s : Redo) : Prop where
  others : T.Others old s.disk
  stage : T.Stage old new s

section

variable {T}

theorem Others.update (h : T.Others old disk) (hb : b ∈ T.blocks ∨ A.Covers b) :
    T.Others old (update disk b data) := by
  intro c hc hout
  have hne : c ≠ b := by
    rintro rfl
    exact hb.elim hc hout
  rw [update_of_ne hne, h c hc hout]

theorem Homes.update (h : T.Homes old disk) (hb : A.Covers b) :
    T.Homes old (update disk b data) := by
  intro c hc
  have hne : c ≠ b := by
    rintro rfl
    exact T.home c hc hb
  rw [update_of_ne hne, h c hc]

theorem Copied.update_start (h : T.Copied new disk tail) :
    T.Copied new (update disk A.start data) tail := by
  intro i hi htail
  rw [update_of_ne (T.slot_ne_start hi), h i hi htail]

theorem Copied.update_home (h : T.Copied new disk tail) (hb : b ∈ T.blocks) :
    T.Copied new (update disk b data) tail := by
  intro i hi htail
  have hne : A.slot i ≠ b := by
    rintro rfl
    exact T.home _ hb (T.covers_slot hi)
  rw [update_of_ne hne, h i hi htail]

theorem Copied.update_slot (h : T.Copied new disk tail) (htail : tail < T.blocks.length) :
    T.Copied new (update disk (A.slot tail) (new T.blocks[tail])) (tail + 1) := by
  intro i hi hlt
  rcases Nat.lt_succ_iff_lt_or_eq.mp hlt with hlt | rfl
  · rw [update_of_ne fun heq => Nat.ne_of_lt hlt (T.slot_inj hi htail heq), h i hi hlt]
  · rw [update_self]

theorem start_ne_home (hb : b ∈ T.blocks) : A.start ≠ b := by
  rintro rfl
  exact T.home _ hb T.covers_start

end

variable {T}

theorem Inv.crash (h : T.Inv old new s) : T.Inv old new (Redo.recoverFromLog A s.disk) := by
  refine ⟨h.others, ?_⟩
  cases h.stage with
  | logging _ _ _ head homes _ =>
    exact .quiet (.inl rfl) (readHead_of_zero head) head (.inl homes)
  | installing _ _ _ head copied _ =>
    exact .installing 0 rfl head head copied fun i _ hi => absurd hi (Nat.not_lt_zero i)
  | erasing _ _ head copied _ =>
    exact .installing 0 rfl head head copied fun i _ hi => absurd hi (Nat.not_lt_zero i)
  | quiet _ _ head homes => exact .quiet (.inl rfl) (readHead_of_zero head) head homes

theorem Inv.write (h : T.Inv old new s) (ht : s.next A new = some t) : T.Inv old new t := by
  have hle : T.blocks.length ≤ 30 := T.length_le
  cases h.stage with
  | logging tail phase lh head homes copied =>
    rw [Redo.next, phase] at ht
    dsimp only at ht
    rw [lh] at ht
    by_cases htail : tail < T.blocks.length
    · rw [List.getElem?_eq_getElem htail] at ht
      cases ht
      refine ⟨h.others.update (.inr (T.covers_slot htail)), ?_⟩
      refine .logging (tail + 1) rfl lh ?_ (homes.update (T.covers_slot htail)) (copied.update_slot htail)
      rw [Redo.bwrite_disk, update_of_ne (T.slot_ne_start htail).symm, head]
    · rw [List.getElem?_eq_none (by omega)] at ht
      cases ht
      refine ⟨h.others.update (.inr T.covers_start), ?_⟩
      refine .installing 0 rfl lh ?_ ?_ fun i _ hi => absurd hi (Nat.not_lt_zero i)
      · rw [Redo.bwrite_disk, update_self, readHead_writeHead (by omega)]
      · refine Copied.update_start fun i hi _ => copied i hi (by omega)
  | installing tail phase lh head copied homes =>
    rw [Redo.next, phase] at ht
    dsimp only at ht
    rw [lh] at ht
    by_cases htail : tail < T.blocks.length
    · rw [List.getElem?_eq_getElem htail] at ht
      cases ht
      have hmem : T.blocks[tail] ∈ T.blocks := List.getElem_mem htail
      refine ⟨h.others.update (.inl hmem), ?_⟩
      refine .installing (tail + 1) rfl lh ?_ (copied.update_home hmem) fun i hi hlt => ?_
      · rw [Redo.bwrite_disk, update_of_ne (start_ne_home hmem), head]
      · rw [Redo.bwrite_disk, copied tail htail htail]
        rcases Nat.lt_succ_iff_lt_or_eq.mp hlt with hlt | rfl
        · have hne : T.blocks[i] ≠ T.blocks[tail] := fun heq =>
            Nat.ne_of_lt hlt (T.nodup.getElem_inj_iff.mp heq)
          rw [update_of_ne hne, homes i hi hlt]
        · rw [update_self]
    · rw [List.getElem?_eq_none (by omega)] at ht
      cases ht
      refine ⟨h.others, .erasing rfl rfl head copied fun b hb => ?_⟩
      obtain ⟨i, hi, rfl⟩ := List.getElem_of_mem hb
      exact homes i hi (by omega)
  | erasing phase lh head copied homes =>
    rw [Redo.next, phase] at ht
    cases ht
    refine ⟨h.others.update (.inr T.covers_start), ?_⟩
    refine .quiet (.inr (.inr rfl)) lh ?_ (.inr (homes.update T.covers_start))
    rw [Redo.bwrite_disk, update_self, lh, word_zero_writeHead (Nat.zero_le _)]
    rfl
  | quiet phase lh head homes =>
    rcases phase with phase | phase | phase <;> rw [Redo.next, phase] at ht
    · dsimp only at ht
      rw [lh] at ht
      cases ht
      exact ⟨h.others, .quiet (.inr (.inl rfl)) rfl head homes⟩
    · cases ht
      refine ⟨h.others.update (.inr T.covers_start), ?_⟩
      refine .quiet (.inr (.inr rfl)) lh ?_
        (homes.imp (Homes.update · T.covers_start) (Homes.update · T.covers_start))
      rw [Redo.bwrite_disk, update_self, lh, word_zero_writeHead (Nat.zero_le _)]
      rfl
    · cases ht

theorem Inv.step (h : T.Inv old new s) (ht : Redo.Step A new s e t) :
    T.Inv old new t := by
  cases e with
  | write => exact h.write ht
  | crash =>
    cases ht
    exact h.crash

theorem inv_commit (hhead : (old A.start).word 0 = 0) : T.Inv old new (Redo.commit old T.blocks) := by
  refine ⟨fun _ _ _ => rfl, ?_⟩
  by_cases hlen : 0 < T.blocks.length
  · exact .logging 0 (if_pos hlen) rfl hhead (fun _ _ => rfl) fun i _ hi => absurd hi (Nat.not_lt_zero i)
  · have hnil : T.blocks = [] := List.eq_nil_of_length_eq_zero (by omega)
    exact .quiet (.inr (.inr (if_neg hlen))) hnil hhead (.inl fun _ _ => rfl)

end Transaction

theorem crash_atomic {A : Area} (T : Transaction A) (old new : Word → Block)
    (hhead : (old A.start).word 0 = 0) {es : List (Redo × Redo.Event)} {t : Redo}
    (h : Run (Redo.Step A new) (Redo.commit old T.blocks) es t) (hdone : t.phase = .done) :
    ((∀ b ∈ T.blocks, t.disk b = old b) ∨ (∀ b ∈ T.blocks, t.disk b = new b)) ∧
      (∀ b ∉ T.blocks, ¬A.Covers b → t.disk b = old b) ∧ (t.disk A.start).word 0 = 0 := by
  have hinv : T.Inv old new t :=
    h.invariant_of_step (fun _ _ _ hstep hs => hs.step hstep) (T.inv_commit hhead)
  cases hinv.stage with
  | logging _ phase | installing _ phase | erasing phase => rw [phase] at hdone; cases hdone
  | quiet _ _ head homes => exact ⟨homes, hinv.others, head⟩

def twoBlocks : Transaction ⟨2, logsize⟩ where
  blocks := [40, 41]
  nodup := by decide
  home := by
    rintro b hb ⟨k, hk, rfl⟩
    revert k
    simp only [List.mem_cons, List.not_mem_nil, or_false]
    decide
  length_lt := by decide
  length_le := by decide

def cutTwice : List Redo.Event :=
  [.write, .write, .write, .write, .crash, .write, .crash, .write, .write, .write, .write]

theorem crash_atomic_cut_twice :
    ∃ t, Run (Redo.Step ⟨2, logsize⟩ fun _ _ => 1) (Redo.commit (fun _ => .zero) twoBlocks.blocks)
        (trace (Redo.event ⟨2, logsize⟩ fun _ _ => 1) (Redo.commit (fun _ => .zero) twoBlocks.blocks) cutTwice) t ∧
      t.phase = .done ∧
      ((∀ b ∈ twoBlocks.blocks, t.disk b = .zero) ∨ (∀ b ∈ twoBlocks.blocks, t.disk b = fun _ => 1)) ∧
      (∀ b ∉ twoBlocks.blocks, ¬Area.Covers ⟨2, logsize⟩ b → t.disk b = .zero) ∧ (t.disk 2).word 0 = 0 := by
  obtain ⟨t, hrun, hdone⟩ := Run.of_exec_any (Redo.event ⟨2, logsize⟩ fun _ _ => 1)
    (Redo.commit (fun _ => .zero) twoBlocks.blocks) cutTwice (fun t => decide (t.phase = .done))
    (by decide +kernel)
  have hdone : t.phase = .done := of_decide_eq_true hdone
  exact ⟨t, hrun, hdone, crash_atomic twoBlocks (fun _ => .zero) (fun _ _ => 1) (by decide) hrun hdone⟩

end Xv6.Log
