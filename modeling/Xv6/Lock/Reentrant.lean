import Xv6.Lib.Interleave
import Xv6.Proc.Table

/-! The reentrant lock of `proc.c`, statement by statement.  Any number of processes call
`acquirereentrantlock` and `releasereentrantlock`; a process that holds the inner spin lock has
interrupts off and stays on its CPU, so the lock's holder is a process here. -/

namespace Xv6

open Lib

variable {P : Type}

structure Reentrantlock (P : Type) where
  lock : Option P
  owner : Option P
  recursion : Int
  deriving DecidableEq

namespace Reentrantlock

inductive Pc
  | out
  | acqTest | acqInc | acqLock | acqOwner | acqRec
  | relTest | relDec | relZero | relUnlock | relClear
  | panicked (msg : String)
  deriving DecidableEq

/-- Where a process is, how often it has returned from `acquirereentrantlock` and how often it
has entered `releasereentrantlock`. -/
structure Thread where
  pc : Pc
  returned : Nat
  entered : Nat
  deriving DecidableEq

inductive Act
  | acquire
  | release
  | go
  deriving DecidableEq

/-- The next statement of process `p`.  The spin lock is taken and released in one step; a
process that finds it taken by another spins. -/
def next [DecidableEq P] (p : P) (r : Reentrantlock P) (t : Thread) :
    Option (Reentrantlock P × Thread) :=
  match t.pc with
  | .out | .panicked _ => none
  | .acqTest => some (r, { t with pc := if r.owner = some p then .acqInc else .acqLock })
  | .acqInc =>
    some ({ r with recursion := r.recursion + 1 }, { t with pc := .out, returned := t.returned + 1 })
  | .acqLock =>
    match r.lock with
    | none => some ({ r with lock := some p }, { t with pc := .acqOwner })
    | some q => if q = p then some (r, { t with pc := .panicked "acquire" }) else none
  | .acqOwner => some ({ r with owner := some p }, { t with pc := .acqRec })
  | .acqRec => some ({ r with recursion := 1 }, { t with pc := .out, returned := t.returned + 1 })
  | .relTest =>
    some (r, { t with pc := if r.owner = some p then .relDec else .panicked "reentrant release" })
  | .relDec => some ({ r with recursion := r.recursion - 1 }, { t with pc := .relZero })
  | .relZero => some (r, { t with pc := if r.recursion = 0 then .relUnlock else .out })
  | .relUnlock =>
    if r.lock = some p then some ({ r with lock := none }, { t with pc := .relClear })
    else some (r, { t with pc := .panicked "release" })
  | .relClear => some ({ r with owner := none }, { t with pc := .out })

/-- One step of process `p`: a call, or the next statement of the call it is in.  It calls
`releasereentrantlock` only to match an acquire of its own. -/
def go [DecidableEq P] (p : P) (a : Act) (r : Reentrantlock P) (t : Thread) :
    Option (Reentrantlock P × Thread) :=
  match a with
  | .acquire => if t.pc = .out then some (r, { t with pc := .acqTest }) else none
  | .release =>
    if t.pc = .out ∧ t.entered < t.returned then
      some (r, { t with pc := .relTest, entered := t.entered + 1 })
    else none
  | .go => next p r t

def init (P : Type) : Conf P (Reentrantlock P) Thread := ⟨⟨none, none, 0⟩, fun _ => ⟨.out, 0, 0⟩⟩

namespace Thread

def Inside (t : Thread) : Prop := t.entered < t.returned

def depth (t : Thread) : Nat := t.returned - t.entered

def pending (t : Thread) : Nat := if t.pc = .relTest ∨ t.pc = .relDec then 1 else 0

end Thread

def Mine (p : P) (r : Reentrantlock P) (n : Nat) : Prop :=
  r.lock = some p ∧ r.owner = some p ∧ r.recursion = n

def NotMine (p : P) (r : Reentrantlock P) : Prop := r.lock ≠ some p ∧ r.owner ≠ some p

def Finds (p : P) (r : Reentrantlock P) (n : Nat) : Pc → Prop
  | .out | .acqTest => (n = 0 → NotMine p r) ∧ (n ≠ 0 → Mine p r n)
  | .acqInc => n ≠ 0 ∧ Mine p r n
  | .acqLock => n = 0 ∧ NotMine p r
  | .acqOwner => n = 0 ∧ r.lock = some p ∧ r.owner ≠ some p
  | .acqRec | .relUnlock => n = 0 ∧ r.lock = some p ∧ r.owner = some p
  | .relTest | .relDec => Mine p r (n + 1)
  | .relZero => Mine p r n
  -- `owner` is stale from here on: it may be `p` still, or another process by now
  | .relClear => n = 0 ∧ r.lock ≠ some p
  | .panicked _ => False

def View (p : P) (r : Reentrantlock P) (t : Thread) : Prop :=
  t.entered ≤ t.returned ∧ Finds p r t.depth t.pc

/-- The condition on a step: a release that resets `owner` does not erase another process. -/
def ClearsOwn (p : P) (a : Act) (r : Reentrantlock P) (t : Thread) : Prop :=
  a = .go → t.pc = .relClear → r.owner = some p ∨ r.owner = none

structure Safe (s : Conf P (Reentrantlock P) Thread) : Prop where
  owner : ∀ p, (s.loc p).Inside → s.shared.owner = some p
  recursion : ∀ p, (s.loc p).Inside →
    s.shared.recursion = (s.loc p).returned - (s.loc p).entered + (s.loc p).pending
  alone : ∀ p q, (s.loc p).Inside → (s.loc q).Inside → p = q
  nested : ∀ p, (s.loc p).Inside → (s.loc p).pc ≠ .acqLock
  alive : ∀ p msg, (s.loc p).pc ≠ .panicked msg

variable {p q : P} {a : Act} {r r' : Reentrantlock P} {t t' : Thread} {n : Nat} {pc : Pc}

theorem init_view (p : P) : View p (init P).shared ((init P).loc p) := by
  simp [View, Finds, init, Thread.depth, NotMine]

theorem Finds.frame (h : Finds q r n pc) (hlock : r'.lock = some q ↔ r.lock = some q)
    (howner : r'.owner = some q → r.owner = some q)
    (hkeep : r.lock = some q → r.owner = some q → r'.owner = some q)
    (hrec : r.lock = some q → r'.recursion = r.recursion) : Finds q r' n pc := by
  have hmine : ∀ n, Mine q r n → Mine q r' n := fun n hm =>
    ⟨hlock.mpr hm.1, hkeep hm.1 hm.2.1, (hrec hm.1).trans hm.2.2⟩
  have hnot : NotMine q r → NotMine q r' := fun hm =>
    ⟨fun hl => hm.1 (hlock.mp hl), fun ho => hm.2 (howner ho)⟩
  cases pc with
  | out | acqTest => exact ⟨fun hn => hnot (h.1 hn), fun hn => hmine n (h.2 hn)⟩
  | acqInc => exact ⟨h.1, hmine n h.2⟩
  | acqLock => exact ⟨h.1, hnot h.2⟩
  | acqOwner => exact ⟨h.1, hlock.mpr h.2.1, fun ho => h.2.2 (howner ho)⟩
  | acqRec | relUnlock => exact ⟨h.1, hlock.mpr h.2.1, hkeep h.2.1 h.2.2⟩
  | relTest | relDec | relZero => exact hmine _ h
  | relClear => exact ⟨h.1, fun hl => h.2 (hlock.mp hl)⟩
  | panicked msg => exact h

theorem View.inside (h : View p r t) (hin : t.Inside) :
    Mine p r (t.depth + t.pending) ∧ t.pc ≠ .acqLock := by
  obtain ⟨pc, returned, entered⟩ := t
  obtain ⟨-, h⟩ := h
  have hd : returned - entered ≠ 0 := Nat.sub_ne_zero_of_lt hin
  cases pc with
  | out | acqTest => exact ⟨h.2 hd, by simp⟩
  | acqInc => exact ⟨h.2, by simp⟩
  | acqLock | acqOwner | acqRec | relUnlock | relClear => exact absurd h.1 hd
  | relTest | relDec | relZero => exact ⟨h, by simp⟩
  | panicked msg => exact h.elim

theorem View.alive (h : View p r t) (msg : String) : t.pc ≠ .panicked msg := by
  intro hpc
  obtain ⟨-, h⟩ := h
  rw [hpc] at h
  exact h

theorem safe_of_view {s : Conf P (Reentrantlock P) Thread}
    (h : ∀ p, View p s.shared (s.loc p)) : Safe s where
  owner p hin := ((h p).inside hin).1.2.1
  recursion p hin := by
    rw [((h p).inside hin).1.2.2, Thread.depth]
    have hlt : (s.loc p).entered < (s.loc p).returned := hin
    omega
  alone p q hp hq := by
    have hlock := ((h p).inside hp).1.1
    rw [((h q).inside hq).1.1] at hlock
    exact (Option.some.inj hlock).symm
  nested p hin := ((h p).inside hin).2
  alive p msg := (h p).alive msg

variable [DecidableEq P]

theorem next_own (h : View p r t) (hgo : next p r t = some (r', t')) : View p r' t' := by
  obtain ⟨pc, returned, entered⟩ := t
  obtain ⟨hle, h⟩ := h
  have hle : entered ≤ returned := hle
  cases pc with
  | out | panicked msg => cases hgo
  | acqTest =>
    cases hgo
    refine ⟨hle, ?_⟩
    by_cases hd : returned - entered = 0
    · simp only [(h.1 hd).2, if_false]
      exact ⟨hd, h.1 hd⟩
    · simp only [(h.2 hd).2.1, if_pos]
      exact ⟨hd, h.2 hd⟩
  | acqInc =>
    cases hgo
    obtain ⟨hn, hlock, howner, hrec⟩ := h
    have hd : returned + 1 - entered = returned - entered + 1 := by omega
    refine ⟨by simp only; omega, fun h0 => ?_, fun _ => ⟨hlock, howner, ?_⟩⟩
    · simp only [Thread.depth, hd] at h0
      omega
    · simp only [Thread.depth, hd, hrec]
      push_cast
      rfl
  | acqLock =>
    obtain ⟨hd, hlock, howner⟩ := h
    simp only [next] at hgo
    split at hgo
    case h_1 =>
      cases hgo
      exact ⟨hle, hd, rfl, howner⟩
    case h_2 q hq =>
      split at hgo
      case isTrue heq => exact absurd (heq ▸ hq) hlock
      case isFalse => cases hgo
  | acqOwner =>
    cases hgo
    obtain ⟨hd, hlock, -⟩ := h
    exact ⟨hle, hd, hlock, rfl⟩
  | acqRec =>
    cases hgo
    obtain ⟨hd, hlock, howner⟩ := h
    simp only [Thread.depth] at hd
    have hone : returned + 1 - entered = 1 := by omega
    refine ⟨by simp only; omega, fun h0 => ?_, fun _ => ⟨hlock, howner, ?_⟩⟩
    · simp only [Thread.depth, hone] at h0
      cases h0
    · simp only [Thread.depth, hone, Nat.cast_one]
  | relTest =>
    cases hgo
    refine ⟨hle, ?_⟩
    simp only [h.2.1, if_pos]
    exact h
  | relDec =>
    cases hgo
    obtain ⟨hlock, howner, hrec⟩ := h
    refine ⟨hle, hlock, howner, ?_⟩
    simp only [hrec, Thread.depth]
    push_cast
    omega
  | relZero =>
    cases hgo
    refine ⟨hle, ?_⟩
    obtain ⟨hlock, howner, hrec⟩ := h
    by_cases hd : returned - entered = 0
    · simp only [Thread.depth, hd, Nat.cast_zero] at hrec
      simp only [hrec, if_pos]
      exact ⟨hd, hlock, howner⟩
    · have hne : r.recursion ≠ 0 := by
        rw [hrec]
        exact Nat.cast_ne_zero.mpr hd
      simp only [hne, if_false]
      exact ⟨fun h0 => absurd h0 hd, fun _ => ⟨hlock, howner, hrec⟩⟩
  | relUnlock =>
    obtain ⟨hd, hlock, -⟩ := h
    simp only [next, hlock, if_pos] at hgo
    cases hgo
    exact ⟨hle, hd, by simp⟩
  | relClear =>
    cases hgo
    obtain ⟨hd, hlock⟩ := h
    exact ⟨hle, fun _ => ⟨hlock, by simp⟩, fun hne => absurd hd hne⟩

theorem go_own (h : View p r t) (hgo : go p a r t = some (r', t')) : View p r' t' := by
  cases a with
  | acquire =>
    simp only [go] at hgo
    split at hgo
    case isTrue hpc =>
      cases hgo
      obtain ⟨hle, h⟩ := h
      rw [hpc] at h
      exact ⟨hle, h⟩
    case isFalse => cases hgo
  | release =>
    simp only [go] at hgo
    split at hgo
    case isTrue hout =>
      cases hgo
      obtain ⟨hpc, hlt⟩ := hout
      obtain ⟨-, h⟩ := h
      rw [hpc] at h
      have hd : t.returned - (t.entered + 1) + 1 = t.depth := by
        rw [Thread.depth]
        omega
      refine ⟨hlt, ?_⟩
      simp only [Finds, Thread.depth, hd]
      exact h.2 (Nat.sub_ne_zero_of_lt hlt)
    case isFalse => cases hgo
  | go => exact next_own h hgo

theorem next_other (hqp : q ≠ p) (hp : View p r t) (hq : Finds q r n pc)
    (hgo : next p r t = some (r', t')) (hc : ClearsOwn p .go r t) : Finds q r' n pc := by
  have hpq : ∀ {x : Option P}, x = some p → x ≠ some q := fun hx hy =>
    hqp (Option.some.inj (hy.symm.trans hx))
  obtain ⟨pc, returned, entered⟩ := t
  obtain ⟨-, hp⟩ := hp
  cases pc with
  | out | panicked msg => cases hgo
  | acqTest | relTest | relZero => cases hgo; exact hq
  | acqInc =>
    cases hgo
    have hne := hpq hp.2.1
    exact hq.frame .rfl id (fun _ => id) fun hl => absurd hl hne
  | acqLock =>
    simp only [next] at hgo
    split at hgo
    case h_1 hnone =>
      cases hgo
      refine hq.frame ?_ id (fun _ => id) fun _ => rfl
      exact iff_of_false (hpq rfl) (by simp [hnone])
    case h_2 =>
      split at hgo
      · cases hgo; exact hq
      · cases hgo
  | acqOwner =>
    cases hgo
    have hne := hpq hp.2.1
    exact hq.frame .rfl (fun ho => absurd ho (hpq rfl)) (fun hl => absurd hl hne) fun _ => rfl
  | acqRec =>
    cases hgo
    have hne := hpq hp.2.1
    exact hq.frame .rfl id (fun _ => id) fun hl => absurd hl hne
  | relDec =>
    cases hgo
    have hne := hpq hp.1
    exact hq.frame .rfl id (fun _ => id) fun hl => absurd hl hne
  | relUnlock =>
    have hlock := hp.2.1
    simp only [next, hlock, if_pos] at hgo
    cases hgo
    exact hq.frame (iff_of_false (by simp) (hpq hlock)) id (fun _ => id) fun _ => rfl
  | relClear =>
    cases hgo
    refine hq.frame .rfl (fun ho => by cases ho) (fun _ ho => ?_) fun _ => rfl
    rcases hc rfl rfl with howner | hnone
    · exact absurd ho (hpq howner)
    · simp [hnone] at ho

theorem go_other (hqp : q ≠ p) (hgo : go p a r t = some (r', t'))
    (hc : ClearsOwn p a r t) (hp : View p r t) (hq : View q r m) : View q r' m := by
  cases a with
  | acquire | release =>
    simp only [go] at hgo
    split at hgo
    · cases hgo; exact hq
    · cases hgo
  | go => exact ⟨hq.1, next_other hqp hp hq.2 hgo hc⟩

theorem go_recursion_le (hgo : go p a r t = some (r', t')) : r'.recursion.natAbs ≤ r.recursion.natAbs + 1 := by
  cases a with
  | acquire | release =>
    simp only [go] at hgo
    split at hgo
    · cases hgo; exact Nat.le_succ _
    · cases hgo
  | go =>
    obtain ⟨pc, returned, entered⟩ := t
    cases pc with
    | out | panicked msg => cases hgo
    | acqTest | acqOwner | relTest | relZero | relClear => cases hgo; exact Nat.le_succ _
    | acqInc | acqRec | relDec => cases hgo; simp only; omega
    | acqLock =>
      simp only [go, next] at hgo
      split at hgo
      · cases hgo; exact Nat.le_succ _
      · split at hgo <;> cases hgo
        exact Nat.le_succ _
    | relUnlock =>
      simp only [go, next] at hgo
      split at hgo <;> cases hgo <;> exact Nat.le_succ _

/-- `recursion` is an `int`, which cannot overflow in a run of fewer than 2^31 steps. -/
theorem recursion_le_length {s s' : Conf P (Reentrantlock P) Thread} (h : Run (Conf.Step go) s es s') :
    s'.shared.recursion.natAbs ≤ s.shared.recursion.natAbs + es.length := by
  induction h with
  | nil => exact Nat.le_refl _
  | cons h _ ih =>
    obtain ⟨l, hgo, -⟩ := Conf.step_cases h
    have hone := go_recursion_le hgo
    rw [List.length_cons]
    omega

theorem safe_always {s : Conf P (Reentrantlock P) Thread}
    {es : List (Conf P (Reentrantlock P) Thread × (P × Act))}
    (h : Run (Conf.Step go) (init P) es s)
    (hc : ∀ e ∈ es, ClearsOwn e.2.1 e.2.2 e.1.shared (e.1.loc e.2.1)) :
    Run.Always Safe es s := by
  have hview := Conf.Each.always (I := View) (C := ClearsOwn)
    (fun _ _ _ _ _ _ hgo _ hv => go_own hv hgo)
    (fun _ _ _ _ _ _ _ _ hqp hgo hc hp hq => go_other hqp hgo hc hp hq) h hc init_view
  exact ⟨fun e he => safe_of_view (hview.1 e he), safe_of_view hview.2⟩

def acquireFirst (p : P) : List (P × Act) := (p, .acquire) :: .replicate 4 (p, .go)

def acquireNested (p : P) : List (P × Act) := (p, .acquire) :: .replicate 2 (p, .go)

def releaseNested (p : P) : List (P × Act) := (p, .release) :: .replicate 3 (p, .go)

def releaseUpToUnlock (p : P) : List (P × Act) := (p, .release) :: .replicate 4 (p, .go)

instance (p : P) (a : Act) (r : Reentrantlock P) (t : Thread) : Decidable (ClearsOwn p a r t) :=
  inferInstanceAs (Decidable (_ → _ → _))

theorem safe_always_nested :
    let es := trace (Conf.step go) (init Slot) (acquireFirst 0 ++ acquireNested 0 ++ releaseNested 0 ++
      releaseUpToUnlock 0 ++ [(0, .go)] ++ acquireFirst 1)
    ∃ s, Run (Conf.Step go) (init Slot) es s ∧ Run.Always Safe es s := by
  intro es
  obtain ⟨s, hrun, -⟩ := Run.of_exec_any (Conf.step go) (init Slot) (acquireFirst 0 ++
    acquireNested 0 ++ releaseNested 0 ++ releaseUpToUnlock 0 ++ [(0, .go)] ++ acquireFirst 1)
    (fun _ => true) (by decide +kernel)
  exact ⟨s, hrun, safe_always hrun (by decide +kernel)⟩

theorem safe_fails_after_unlock :
    ∃ s, Run (Conf.Step go) (init Slot) (trace (Conf.step go) (init Slot)
      (acquireFirst 0 ++ releaseUpToUnlock 0 ++ acquireFirst 1 ++ [(0, .go)])) s ∧ ¬ Safe s := by
  obtain ⟨s, hrun, hs⟩ := Run.of_exec_any (Conf.step go) (init Slot)
    (acquireFirst 0 ++ releaseUpToUnlock 0 ++ acquireFirst 1 ++ [(0, .go)])
    (fun s => decide ((s.loc 1).entered < (s.loc 1).returned ∧ s.shared.owner = none))
    (by decide +kernel)
  obtain ⟨hin, hnone⟩ := of_decide_eq_true hs
  refine ⟨s, hrun, fun h => ?_⟩
  have howner := h.owner 1 hin
  rw [hnone] at howner
  cases howner

end Reentrantlock

end Xv6
