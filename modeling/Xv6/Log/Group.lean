import Xv6.Lib.Count
import Xv6.Log.Redo

/-! `begin_op`, `log_write` and `end_op` by any number of processes, one critical section of
`log.lock` a step, and `commit` by the last of them. -/

namespace Xv6.Log

open Function Disk Lib

/-- Where a process is in a file-system call.  `mine` lists the distinct blocks that the
call has logged so far. -/
inductive Pc
  | outside
  | asleep
  | woken
  | inside (mine : List Word)
  /-- In `log_write`, past the tests that it makes without `log.lock`. -/
  | writing (b : Word) (mine : List Word)
  /-- In `end_op`, with `do_commit` set. -/
  | commits
  deriving DecidableEq

namespace Pc

def InCall : Pc → Prop
  | inside _ | writing _ _ => True
  | _ => False

instance : DecidablePred InCall := fun pc => by
  cases pc <;> unfold InCall <;> infer_instance

def logged : Pc → List Word
  | inside mine => mine
  | writing b mine => mine.insert b
  | _ => []

def wakeup : Pc → Pc
  | asleep => woken
  | pc => pc

end Pc

inductive Panic
  | tooBig
  | outsideOfTrans
  | committing
  deriving DecidableEq

structure Group (P : Type) where
  redo : Redo
  cache : Word → Block
  outstanding : Int
  committing : Bool
  pc : P → Pc
  panic : Option Panic

inductive Act (P : Type)
  | beginOp (p : P)
  | kill (p : P)
  | test (p : P) (b : Word)
  | logWrite (p : P) (data : Block)
  | endOp (p : P)
  | write (p : P)
  | finish (p : P)

namespace Group

variable {P : Type} [DecidableEq P] (A : Area)

def boot (disk cache : Word → Block) : Group P where
  redo := ⟨disk, [], .done⟩
  cache := cache
  outstanding := 0
  committing := false
  pc := fun _ => .outside
  panic := none

def goto (s : Group P) (p : P) (pc : Pc) : Group P := { s with pc := update s.pc p pc }

@[simp] theorem goto_pc (s : Group P) (p : P) (pc : Pc) :
    (s.goto p pc).pc = update s.pc p pc := rfl

def halt (s : Group P) (m : Panic) : Group P := { s with panic := some m }

def wakeup (s : Group P) : Group P := { s with pc := fun q => (s.pc q).wakeup }

def beginOp (s : Group P) (p : P) : Group P :=
  if s.committing then s.goto p .asleep
  else if s.redo.lh.length + (s.outstanding + 1) * maxopblocks > logsize then s.goto p .asleep
  else { s.goto p (.inside []) with outstanding := s.outstanding + 1 }

/-- The tests of `log_write`, which reads `log` without holding its lock. -/
def test (s : Group P) (p : P) (b : Word) (mine : List Word) : Group P :=
  if s.redo.lh.length ≥ logsize ∨ (s.redo.lh.length : Int) ≥ A.size - 1 then s.halt .tooBig
  else if s.outstanding < 1 then s.halt .outsideOfTrans
  else s.goto p (.writing b mine)

def logWrite (s : Group P) (p : P) (b : Word) (mine : List Word) (data : Block) : Group P :=
  { s.goto p (.inside (mine.insert b)) with
    redo := { s.redo with lh := if b ∈ s.redo.lh then s.redo.lh else s.redo.lh ++ [b] }
    cache := update s.cache b data }

def endOp (s : Group P) (p : P) : Group P :=
  if s.committing then { s.halt .committing with outstanding := s.outstanding - 1 }
  else if s.outstanding - 1 = 0 then
    { s.goto p .commits with
      outstanding := s.outstanding - 1
      committing := true
      redo := .commit s.redo.disk s.redo.lh }
  else { (s.goto p .outside).wakeup with outstanding := s.outstanding - 1 }

def finish (s : Group P) (p : P) : Group P :=
  { (s.goto p .outside).wakeup with committing := false }

/-- A process is in a file-system call when it calls `log_write` or `end_op`.  Nothing runs
after a panic. -/
def next (s : Group P) (a : Act P) : Option (Group P) :=
  if s.panic.isSome then none
  else match a with
  | .beginOp p =>
    match s.pc p with
    | .outside | .woken => some (s.beginOp p)
    | _ => none
  | .kill p => if s.pc p = .asleep then some (s.goto p .woken) else none
  | .test p b =>
    match s.pc p with
    | .inside mine => some (s.test A p b mine)
    | _ => none
  | .logWrite p data =>
    match s.pc p with
    | .writing b mine => some (s.logWrite p b mine data)
    | _ => none
  | .endOp p =>
    match s.pc p with
    | .inside _ => some (s.endOp p)
    | _ => none
  | .write p =>
    if s.pc p = .commits then (s.redo.next A s.cache).map fun r => { s with redo := r } else none
  | .finish p =>
    if s.pc p = .commits ∧ s.redo.phase = .done then some (s.finish p) else none

def Step (s : Group P) (a : Act P) (t : Group P) : Prop := s.next A a = some t

variable {A} {s t : Group P} {a : Act P}

inductive Does (A : Area) (s : Group P) : Act P → Group P → Prop
  | sleep (p : P) (pc : ¬(s.pc p).InCall) : Does A s (.beginOp p) (s.goto p .asleep)
  | enter (p : P) (pc : ¬(s.pc p).InCall) (idle : s.committing = false)
      (room : s.redo.lh.length + (s.outstanding + 1) * 10 ≤ 30) :
      Does A s (.beginOp p) { s.goto p (.inside []) with outstanding := s.outstanding + 1 }
  | kill (p : P) (pc : ¬(s.pc p).InCall) : Does A s (.kill p) (s.goto p .woken)
  | tooBig (p : P) (b : Word) (mine : List Word) (pc : s.pc p = .inside mine)
      (full : 30 ≤ s.redo.lh.length ∨ (A.size : Int) - 1 ≤ s.redo.lh.length) :
      Does A s (.test p b) (s.halt .tooBig)
  | outsideOfTrans (p : P) (b : Word) (mine : List Word) (pc : s.pc p = .inside mine)
      (none : s.outstanding < 1) : Does A s (.test p b) (s.halt .outsideOfTrans)
  | test (p : P) (b : Word) (mine : List Word) (pc : s.pc p = .inside mine) :
      Does A s (.test p b) (s.goto p (.writing b mine))
  | logWrite (p : P) (b : Word) (mine : List Word) (data : Block) (pc : s.pc p = .writing b mine) :
      Does A s (.logWrite p data) (s.logWrite p b mine data)
  | committing (p : P) (mine : List Word) (pc : s.pc p = .inside mine) (busy : s.committing = true) :
      Does A s (.endOp p) { s.halt .committing with outstanding := s.outstanding - 1 }
  | last (p : P) (mine : List Word) (pc : s.pc p = .inside mine) (idle : s.committing = false)
      (last : s.outstanding = 1) :
      Does A s (.endOp p)
        { s.goto p .commits with
          outstanding := s.outstanding - 1
          committing := true
          redo := .commit s.redo.disk s.redo.lh }
  | leave (p : P) (mine : List Word) (pc : s.pc p = .inside mine) (idle : s.committing = false)
      (more : s.outstanding ≠ 1) :
      Does A s (.endOp p) { (s.goto p .outside).wakeup with outstanding := s.outstanding - 1 }
  | write (p : P) (r : Redo) (pc : s.pc p = .commits) (next : s.redo.next A s.cache = some r) :
      Does A s (.write p) { s with redo := r }
  | finish (p : P) (pc : s.pc p = .commits) (done : s.redo.phase = .done) :
      Does A s (.finish p) (s.finish p)

theorem Step.does (h : Step A s a t) : Does A s a t := by
  unfold Step next at h
  by_cases hpanic : s.panic.isSome
  · rw [if_pos hpanic] at h
    cases h
  rw [if_neg hpanic] at h
  cases a with
  | beginOp p =>
    have hpc : ¬(s.pc p).InCall ∧ s.beginOp p = t := by
      generalize hpc : s.pc p = pc at h
      cases pc <;> simp_all [Pc.InCall]
    obtain ⟨hpc, rfl⟩ := hpc
    rw [beginOp]
    split
    · exact .sleep p hpc
    · next hidle =>
      split
      · exact .sleep p hpc
      · next hroom => exact .enter p hpc (by simpa using hidle) (by simpa using hroom)
  | kill p =>
    dsimp only at h
    split at h
    · next hpc =>
      cases h
      exact .kill p (by rw [hpc]; exact id)
    · cases h
  | test p b =>
    dsimp only at h
    split at h
    · next mine hpc =>
      cases h
      rw [test]
      split
      · next hfull => exact .tooBig p b mine hpc (by simpa using hfull)
      · split
        · next hnone => exact .outsideOfTrans p b mine hpc hnone
        · exact .test p b mine hpc
    · cases h
  | logWrite p data =>
    dsimp only at h
    split at h
    · next b mine hpc =>
      cases h
      exact .logWrite p b mine data hpc
    · cases h
  | endOp p =>
    dsimp only at h
    split at h
    · next mine hpc =>
      cases h
      rw [endOp]
      split
      · next hbusy => exact .committing p mine hpc hbusy
      · next hidle =>
        split
        · next hlast => exact .last p mine hpc (by simpa using hidle) (by omega)
        · next hmore => exact .leave p mine hpc (by simpa using hidle) (by omega)
    · cases h
  | write p =>
    dsimp only at h
    split at h
    · next hpc =>
      obtain ⟨r, hr, rfl⟩ := Option.map_eq_some_iff.mp h
      exact .write p r hpc hr
    · cases h
  | finish p =>
    dsimp only at h
    split at h
    · next hpc =>
      cases h
      exact .finish p hpc.1 hpc.2
    · cases h

def calls [Fintype P] (s : Group P) : Int := count Pc.InCall s.pc

structure Inv [Fintype P] (s : Group P) : Prop where
  outstanding : s.outstanding = s.calls
  alone : s.committing = true → s.outstanding = 0
  nodup : s.redo.lh.Nodup
  busy : s.redo.phase ≠ .done → s.committing = true
  erased : s.redo.phase = .eraseHead → s.redo.lh = []
  empty : s.redo.phase = .done → s.outstanding = 0 → s.redo.lh = []
  panic : s.panic ≠ some .committing

section

variable [Fintype P]

theorem calls_goto_in {p : P} {pc : Pc} (h : (s.pc p).InCall) (h' : pc.InCall) :
    (s.goto p pc).calls = s.calls := by
  rw [calls, goto, count_update, if_pos h, if_pos h', calls]
  omega

theorem calls_goto_out {p : P} {pc : Pc} (h : ¬(s.pc p).InCall) (h' : ¬pc.InCall) :
    (s.goto p pc).calls = s.calls := by
  rw [calls, goto, count_update, if_neg h, if_neg h', calls]
  omega

theorem calls_enter {p : P} {pc : Pc} (h : ¬(s.pc p).InCall) (h' : pc.InCall) :
    (s.goto p pc).calls = s.calls + 1 := by
  rw [calls, goto, count_update, if_neg h, if_pos h', calls]
  omega

theorem calls_leave {p : P} {pc : Pc} (h : (s.pc p).InCall) (h' : ¬pc.InCall) :
    (s.goto p pc).calls = s.calls - 1 := by
  rw [calls, goto, count_update, if_pos h, if_neg h', calls]
  omega

omit [DecidableEq P] in
theorem calls_wakeup : s.wakeup.calls = s.calls := by
  refine count_congr fun p => ?_
  show (s.pc p).wakeup.InCall ↔ (s.pc p).InCall
  cases s.pc p <;> exact Iff.rfl

omit [DecidableEq P] in
theorem calls_pos (h : (s.pc p).InCall) : 0 < s.calls := count_pos h

omit [DecidableEq P] in
theorem Inv.idle (hs : s.Inv) (h : (s.pc p).InCall) :
    s.committing = false ∧ s.redo.phase = .done := by
  have hpos := calls_pos h
  have hout := hs.outstanding
  have hidle : s.committing = false := by
    by_contra hbusy
    have := hs.alone (by simpa using hbusy)
    omega
  refine ⟨hidle, ?_⟩
  by_contra hphase
  have := hs.busy hphase
  rw [hidle] at this
  cases this

omit [DecidableEq P] in
theorem inv_boot {disk cache : Word → Block} : (boot disk cache : Group P).Inv where
  outstanding := by
    rw [calls, count_eq_sum]
    exact (Finset.sum_eq_zero fun p _ => if_neg (show ¬Pc.outside.InCall from id)).symm
  alone := fun h => by cases h
  nodup := List.nodup_nil
  busy := fun h => absurd rfl h
  erased := fun _ => rfl
  empty := fun _ _ => rfl
  panic := nofun

theorem lh_of_next {cache : Word → Block} {r r' : Redo} (h : r.next A cache = some r') :
    r'.lh = r.lh ∧ r'.phase ≠ .eraseHead ∧ (r'.phase = .done → r.phase = .eraseHead) ∨
      (∃ tail, r.phase = .installTrans tail ∧ r.lh.length ≤ tail) ∧ r'.lh = [] ∧ r'.phase = .eraseHead := by
  unfold Redo.next at h
  split at h
  · next tail hphase =>
    split at h <;> cases h <;> exact .inl ⟨rfl, nofun, nofun⟩
  · next tail hphase =>
    split at h
    · cases h
      exact .inl ⟨rfl, nofun, nofun⟩
    · next hnone =>
      cases h
      exact .inr ⟨⟨tail, hphase, List.getElem?_eq_none_iff.mp hnone⟩, rfl, rfl⟩
  · next hphase =>
    cases h
    exact .inl ⟨rfl, nofun, fun _ => hphase⟩
  · cases h

theorem Inv.step (hs : s.Inv) (h : Step A s a t) : t.Inv := by
  have hout := hs.outstanding
  have hnonneg : 0 ≤ s.calls := count_nonneg
  cases h.does with
  | sleep p pc | kill p pc => exact { hs with outstanding := by rw [calls_goto_out pc id]; exact hout }
  | enter p pc idle room =>
    have henter : (s.goto p (.inside [])).calls = s.calls + 1 := calls_enter pc trivial
    exact {
      outstanding := (congrArg (· + 1) hout).trans henter.symm
      alone := fun hbusy => by rw [show s.committing = true from hbusy] at idle; cases idle
      nodup := hs.nodup
      busy := hs.busy
      erased := hs.erased
      empty := fun _ hzero => by
        have : s.outstanding + 1 = 0 := hzero
        omega
      panic := hs.panic }
  | tooBig | outsideOfTrans => exact { hs with panic := nofun }
  | test p b mine pc =>
    have hpc : (s.pc p).InCall := by rw [pc]; trivial
    have hstay : (s.goto p (.writing b mine)).calls = s.calls := calls_goto_in hpc trivial
    exact { hs with outstanding := hout.trans hstay.symm }
  | logWrite p b mine data pc =>
    have hpc : (s.pc p).InCall := by rw [pc]; trivial
    have hpos := calls_pos hpc
    have hstay : (s.goto p (.inside (mine.insert b))).calls = s.calls := calls_goto_in hpc trivial
    obtain ⟨-, hdone⟩ := hs.idle hpc
    exact {
      outstanding := hout.trans hstay.symm
      alone := hs.alone
      nodup := by
        show (if b ∈ s.redo.lh then s.redo.lh else s.redo.lh ++ [b]).Nodup
        split
        · exact hs.nodup
        · next hnew => exact List.nodup_append.mpr ⟨hs.nodup, List.nodup_singleton b, by
            intro x hx y hy
            rw [List.mem_singleton.mp hy]
            rintro rfl
            exact hnew hx⟩
      busy := hs.busy
      erased := fun herase => by
        have : s.redo.phase = .eraseHead := herase
        rw [hdone] at this
        cases this
      empty := fun _ hzero => by
        have : s.outstanding = 0 := hzero
        omega
      panic := hs.panic }
  | committing p mine pc busy =>
    obtain ⟨hidle, -⟩ := hs.idle (p := p) (by rw [pc]; trivial)
    rw [hidle] at busy
    cases busy
  | last p mine pc idle last =>
    have hpc : (s.pc p).InCall := by rw [pc]; trivial
    have hleave : (s.goto p .commits).calls = s.calls - 1 := calls_leave hpc id
    exact {
      outstanding := (congrArg (· - 1) hout).trans hleave.symm
      alone := fun _ => show s.outstanding - 1 = 0 by omega
      nodup := hs.nodup
      busy := fun _ => rfl
      erased := fun herase => by
        simp only [Redo.commit] at herase
        split at herase <;> cases herase
      empty := fun hdone _ => by
        simp only [Redo.commit] at hdone ⊢
        split at hdone
        · cases hdone
        · exact List.eq_nil_of_length_eq_zero (by omega)
      panic := hs.panic }
  | leave p mine pc idle more =>
    have hpc : (s.pc p).InCall := by rw [pc]; trivial
    have hleave : (s.goto p .outside).wakeup.calls = s.calls - 1 := by
      rw [calls_wakeup, calls_leave hpc id]
    exact {
      outstanding := (congrArg (· - 1) hout).trans hleave.symm
      alone := fun hbusy => by rw [show s.committing = true from hbusy] at idle; cases idle
      nodup := hs.nodup
      busy := hs.busy
      erased := hs.erased
      empty := fun _ hzero => by
        have : s.outstanding - 1 = 0 := hzero
        omega
      panic := hs.panic }
  | write p r pc next =>
    have hbusy : s.committing = true := hs.busy fun hdone => by
      rw [Redo.next, hdone] at next
      cases next
    obtain ⟨hlh, herase, hdone⟩ | ⟨-, hlh, hphase⟩ := lh_of_next next
    · exact {
        outstanding := hout
        alone := hs.alone
        nodup := by rw [hlh]; exact hs.nodup
        busy := fun _ => hbusy
        erased := fun h => absurd h herase
        empty := fun h _ => by rw [hlh]; exact hs.erased (hdone h)
        panic := hs.panic }
    · exact {
        outstanding := hout
        alone := hs.alone
        nodup := by rw [hlh]; exact List.nodup_nil
        busy := fun _ => hbusy
        erased := fun _ => hlh
        empty := fun _ _ => hlh
        panic := hs.panic }
  | finish p pc done =>
    have hleave : (s.goto p .outside).wakeup.calls = s.calls := by
      rw [calls_wakeup, calls_goto_out (by rw [pc]; exact id) id]
    exact {
      outstanding := hout.trans hleave.symm
      alone := fun h => by cases h
      nodup := hs.nodup
      busy := fun h => absurd done h
      erased := hs.erased
      empty := hs.empty
      panic := hs.panic }

theorem always_inv {disk cache : Word → Block} {es : List (Group P × Act P)}
    (h : Run (Step A) (boot disk cache) es t) : Run.Always Inv es t := by
  have hstep : ∀ (s : Group P) a t, Step A s a t → True → s.Inv → t.Inv := fun s a t h _ hs => hs.step h
  exact h.always_invariant hstep (fun _ _ => trivial) inv_boot

theorem Inv.lh_of_committing (hs : s.Inv) (hbusy : s.committing = true) (h : Step A s a t) :
    t.redo.lh = s.redo.lh ∨
      (∃ tail, s.redo.phase = .installTrans tail ∧ s.redo.lh.length ≤ tail) ∧ t.redo.lh = [] := by
  have hnone : ∀ p, ¬(s.pc p).InCall := fun p hp => by
    rw [(hs.idle hp).1] at hbusy
    cases hbusy
  cases h.does with
  | sleep | kill | tooBig | outsideOfTrans | test | committing | leave | finish => exact .inl rfl
  | enter p pc idle =>
    rw [hbusy] at idle
    cases idle
  | logWrite p b mine data pc => exact absurd (show (s.pc p).InCall by rw [pc]; trivial) (hnone p)
  | last p mine pc => exact .inl rfl
  | write p r pc next =>
    obtain ⟨hlh, -⟩ | ⟨hdone, hlh, -⟩ := lh_of_next next
    · exact .inl hlh
    · exact .inr ⟨hdone, hlh⟩

structure Contained (s : Group P) : Prop where
  finished : s.committing = true → ∀ p, ¬(s.pc p).InCall
  nodup : s.redo.lh.Nodup
  outstanding : s.outstanding = s.calls
  panic : s.panic ≠ some .committing

omit [DecidableEq P] in
theorem Inv.contained (hs : s.Inv) : s.Contained where
  finished := fun hbusy p hp => by
    rw [(hs.idle hp).1] at hbusy
    cases hbusy
  nodup := hs.nodup
  outstanding := hs.outstanding
  panic := hs.panic

theorem commit_contains_finished_calls {disk cache : Word → Block} {es : List (Group P × Act P)}
    (h : Run (Step A) (boot disk cache) es t) :
    Run.Always Contained es t ∧
      ∀ e ∈ es, e.1.committing = true → ∀ t, Step A e.1 e.2 t →
        t.redo.lh = e.1.redo.lh ∨
          (∃ tail, e.1.redo.phase = .installTrans tail ∧ e.1.redo.lh.length ≤ tail) ∧ t.redo.lh = [] := by
  obtain ⟨hes, hlast⟩ := always_inv h
  exact ⟨⟨fun e he => (hes e he).contained, hlast.contained⟩,
    fun e he hbusy t ht => (hes e he).lh_of_committing hbusy ht⟩

scoped instance neZero_three : NeZero 3 := ⟨by decide⟩

def sharing : List (Act (Fin 3)) :=
  [.beginOp 0, .beginOp 1, .test 0 40, .logWrite 0 (fun _ => 1), .test 1 40, .endOp 0,
    .logWrite 1 (fun _ => 2), .endOp 1, .beginOp 2, .write 1, .write 1, .write 1, .write 1, .write 1,
    .finish 1, .beginOp 2]

theorem commit_contains_sharing :
    ∃ es t, Run (Step ⟨2, logsize⟩) (boot (fun _ => .zero) fun _ => .zero : Group (Fin 3)) es t ∧
      es.map Prod.snd = sharing ∧ t.pc 2 = .inside [] ∧ Run.Always Contained es t := by
  obtain ⟨t, hrun, ht⟩ := Run.of_exec_any (next ⟨2, logsize⟩) (boot (fun _ => .zero) fun _ => .zero) sharing
    (fun t => t.pc 2 = .inside []) (by decide +kernel)
  exact ⟨_, t, hrun, rfl, of_decide_eq_true ht, (commit_contains_finished_calls hrun).1⟩

end

end Group

end Xv6.Log
