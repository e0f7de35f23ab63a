import Xv6.Lib.Run
import Mathlib.Logic.Function.Basic

/-! Processes that work on shared data under one spin lock and wait on channels inside it.
`sleep` takes the lock of the process table before it gives up the lock of the data, so that
`wakeup` and `kill`, which need the former, cannot fall between. -/

namespace Xv6.Lib

open Function

inductive Stmt (D L K : Type)
  | acquire (l : L)
  | act (d : D) (l : L)
  | wakeup (c : K) (l : L)
  | sleep (c : K) (l : L)
  /-- A last store may come with the release. -/
  | release (d : D) (l : L)

/-- The code of the processes: the calls that begin at a position, and the statement there.
A statement may depend on the data and on whether the process has been killed. -/
structure Code (P D L K A : Type) where
  call : P → A → D → L → Option L
  stmt : P → Bool → D → L → Option (Stmt D L K)

inductive Status (K : Type)
  | out
  | holds
  /-- In `sleep`, with both locks. -/
  | entering (c : K)
  /-- In `sleep`, with the lock of the process table alone and not yet marked sleeping. -/
  | leaving (c : K)
  | asleep (c : K)
  /-- Runnable again, in `sleep`, and in need of the lock of the data. -/
  | woken
  deriving DecidableEq

namespace Status

variable {K : Type}

def Locks : Status K → Prop
  | holds | entering _ => True
  | _ => False

def LocksTable : Status K → Prop
  | entering _ | leaving _ => True
  | _ => False

def Waits (c : K) : Status K → Prop
  | leaving d | asleep d => d = c
  | _ => False

def InSleep : Status K → Prop
  | out | holds => False
  | _ => True

def kill : Status K → Status K
  | asleep _ => woken
  | x => x

variable [DecidableEq K]

instance (c : K) : DecidablePred (Waits c)
  | leaving d | asleep d => inferInstanceAs (Decidable (d = c))
  | out | holds | entering _ | woken => inferInstanceAs (Decidable False)

def wakeup (c : K) (x : Status K) : Status K := if x = .asleep c then .woken else x

theorem wakeup_iff {B : Status K → Prop} {c : K} (hB : B .woken ↔ B (.asleep c)) (x : Status K) :
    B (x.wakeup c) ↔ B x := by
  by_cases hx : x = .asleep c
  · rw [wakeup, if_pos hx, hx, hB]
  · rw [wakeup, if_neg hx]

omit [DecidableEq K] in
theorem kill_iff {B : Status K → Prop} (hB : ∀ c, B .woken ↔ B (.asleep c)) (x : Status K) :
    B x.kill ↔ B x := by
  cases x with
  | asleep c => exact hB c
  | out | holds | entering | leaving | woken => exact .rfl

theorem waits_of_wakeup {c d : K} {x : Status K} (h : (x.wakeup c).Waits d) :
    x.Waits d ∧ x ≠ .asleep c := by
  by_cases hx : x = .asleep c
  · rw [wakeup, if_pos hx] at h
    exact h.elim
  · rw [wakeup, if_neg hx] at h
    exact ⟨h, hx⟩

omit [DecidableEq K] in
theorem waits_of_kill {d : K} {x : Status K} (h : x.kill.Waits d) : x.Waits d := by
  cases x with
  | asleep c => exact h.elim
  | out | holds | entering | leaving | woken => exact h

end Status

structure Monitor (P D L K : Type) where
  lk : Option P
  ptable : Option P
  data : D
  pc : P → L
  status : P → Status K
  killed : P → Bool

namespace Monitor

variable {P D L K A : Type} [DecidableEq P]

inductive Act (P A : Type)
  | call (p : P) (a : A)
  | go (p : P)
  | kill (p : P)

def init (d : D) (l : L) : Monitor P D L K :=
  ⟨none, none, d, fun _ => l, fun _ => .out, fun _ => false⟩

def goto (m : Monitor P D L K) (p : P) (l : L) (x : Status K) : Monitor P D L K :=
  { m with pc := update m.pc p l, status := update m.status p x }

def kill (m : Monitor P D L K) (p : P) : Monitor P D L K :=
  { m with
    status := update m.status p (m.status p).kill
    killed := update m.killed p true }

variable [DecidableEq K]

def wakeup (m : Monitor P D L K) (c : K) (p : P) (l : L) : Monitor P D L K :=
  { m with pc := update m.pc p l, status := fun q => (m.status q).wakeup c }

def exec (m : Monitor P D L K) (p : P) : Stmt D L K → Option (Monitor P D L K)
  | .acquire _ => none
  | .act d l => some { m.goto p l .holds with data := d }
  | .wakeup c l => if m.ptable = none then some (m.wakeup c p l) else none
  | .sleep c l => if m.ptable = none then some { m.goto p l (.entering c) with ptable := some p } else none
  | .release d l => some { m.goto p l .out with data := d, lk := none }

/-- A process that finds a lock taken spins, which is no step. -/
def next (C : Code P D L K A) (m : Monitor P D L K) : Act P A → Option (Monitor P D L K)
  | .call p a =>
    match m.status p with
    | .out => (C.call p a m.data (m.pc p)).map fun l => m.goto p l .out
    | _ => none
  | .go p =>
    match m.status p with
    | .out =>
      match C.stmt p (m.killed p) m.data (m.pc p) with
      | some (.acquire l) => if m.lk = none then some { m.goto p l .holds with lk := some p } else none
      | _ => none
    | .holds => (C.stmt p (m.killed p) m.data (m.pc p)).bind (m.exec p)
    | .entering c => some { m.goto p (m.pc p) (.leaving c) with lk := none }
    | .leaving c => some { m.goto p (m.pc p) (.asleep c) with ptable := none }
    | .asleep _ => none
    | .woken => if m.lk = none then some { m.goto p (m.pc p) .holds with lk := some p } else none
  | .kill p => if m.ptable = none then some (m.kill p) else none

def Step (C : Code P D L K A) (m : Monitor P D L K) (a : Act P A) (n : Monitor P D L K) : Prop :=
  m.next C a = some n

inductive Does (C : Code P D L K A) (m : Monitor P D L K) : Act P A → Monitor P D L K → Prop
  | call (p : P) (a : A) (l : L) (status : m.status p = .out)
      (call : C.call p a m.data (m.pc p) = some l) : Does C m (.call p a) (m.goto p l .out)
  | acquire (p : P) (l : L) (status : m.status p = .out) (free : m.lk = none)
      (stmt : C.stmt p (m.killed p) m.data (m.pc p) = some (.acquire l)) :
      Does C m (.go p) { m.goto p l .holds with lk := some p }
  | act (p : P) (d : D) (l : L) (status : m.status p = .holds)
      (stmt : C.stmt p (m.killed p) m.data (m.pc p) = some (.act d l)) :
      Does C m (.go p) { m.goto p l .holds with data := d }
  | wakeup (p : P) (c : K) (l : L) (status : m.status p = .holds) (free : m.ptable = none)
      (stmt : C.stmt p (m.killed p) m.data (m.pc p) = some (.wakeup c l)) :
      Does C m (.go p) (m.wakeup c p l)
  | sleep (p : P) (c : K) (l : L) (status : m.status p = .holds) (free : m.ptable = none)
      (stmt : C.stmt p (m.killed p) m.data (m.pc p) = some (.sleep c l)) :
      Does C m (.go p) { m.goto p l (.entering c) with ptable := some p }
  | release (p : P) (d : D) (l : L) (status : m.status p = .holds)
      (stmt : C.stmt p (m.killed p) m.data (m.pc p) = some (.release d l)) :
      Does C m (.go p) { m.goto p l .out with data := d, lk := none }
  | enter (p : P) (c : K) (status : m.status p = .entering c) :
      Does C m (.go p) { m.goto p (m.pc p) (.leaving c) with lk := none }
  | leave (p : P) (c : K) (status : m.status p = .leaving c) :
      Does C m (.go p) { m.goto p (m.pc p) (.asleep c) with ptable := none }
  | resume (p : P) (status : m.status p = .woken) (free : m.lk = none) :
      Does C m (.go p) { m.goto p (m.pc p) .holds with lk := some p }
  | kill (p : P) (free : m.ptable = none) : Does C m (.kill p) (m.kill p)

variable {C : Code P D L K A} {m n : Monitor P D L K} {a : Act P A} {p q : P} {c : K}

theorem exec_does (hstatus : m.status p = .holds)
    (hstmt : C.stmt p (m.killed p) m.data (m.pc p) = some x) (h : m.exec p x = some n) :
    Does C m (.go p) n := by
  cases x with
  | acquire l => cases h
  | act d l =>
    cases h
    exact .act p d l hstatus hstmt
  | wakeup c l =>
    obtain ⟨hfree, ⟨⟩⟩ := Option.ite_none_right_eq_some.mp h
    exact .wakeup p c l hstatus hfree hstmt
  | sleep c l =>
    obtain ⟨hfree, ⟨⟩⟩ := Option.ite_none_right_eq_some.mp h
    exact .sleep p c l hstatus hfree hstmt
  | release d l =>
    cases h
    exact .release p d l hstatus hstmt

theorem Step.does (h : Step C m a n) : Does C m a n := by
  cases a with
  | call p a =>
    simp only [Step, next] at h
    split at h
    case h_1 hstatus =>
      obtain ⟨l, hl, rfl⟩ := Option.map_eq_some_iff.mp h
      exact .call p a l hstatus hl
    case h_2 => cases h
  | go p =>
    simp only [Step, next] at h
    split at h
    case h_1 hstatus =>
      split at h
      case h_1 l hstmt =>
        obtain ⟨hfree, ⟨⟩⟩ := Option.ite_none_right_eq_some.mp h
        exact .acquire p l hstatus hfree hstmt
      case h_2 => cases h
    case h_2 hstatus =>
      obtain ⟨x, hstmt, hx⟩ := Option.bind_eq_some_iff.mp h
      exact exec_does hstatus hstmt hx
    case h_3 c hstatus =>
      cases h
      exact .enter p c hstatus
    case h_4 c hstatus =>
      cases h
      exact .leave p c hstatus
    case h_5 => cases h
    case h_6 hstatus =>
      obtain ⟨hfree, ⟨⟩⟩ := Option.ite_none_right_eq_some.mp h
      exact .resume p hstatus hfree
  | kill p =>
    obtain ⟨hfree, ⟨⟩⟩ := Option.ite_none_right_eq_some.mp h
    exact .kill p hfree

section HeldBy

variable {X : Type} {h : Option P} {B : X → Prop} {f : P → X} {x : X}

def HeldBy (h : Option P) (B : X → Prop) (f : P → X) : Prop := ∀ q, h = some q ↔ B (f q)

omit [DecidableEq P] [DecidableEq K]

theorem HeldBy.unique (hf : HeldBy h B f) (hp : B (f p)) (hq : B (f q)) : p = q := by
  have hp := (hf p).mpr hp
  rw [(hf q).mpr hq] at hp
  exact (Option.some.inj hp).symm

theorem HeldBy.free (hf : HeldBy none B f) : ¬B (f p) := fun hp => nomatch (hf p).mpr hp

theorem HeldBy.congr (hf : HeldBy h B f) (hg : ∀ q, B (g q) ↔ B (f q)) : HeldBy h B g :=
  fun q => (hf q).trans (hg q).symm

variable [DecidableEq P]

theorem HeldBy.keep (hf : HeldBy h B f) (hx : B x ↔ B (f p)) : HeldBy h B (update f p x) := by
  refine hf.congr fun q => ?_
  by_cases hq : q = p
  · rwa [hq, update_self]
  · rw [update_of_ne hq]

theorem HeldBy.take (hf : HeldBy h B f) (hfree : h = none) (hx : B x) :
    HeldBy (some p) B (update f p x) := by
  intro q
  by_cases hq : q = p
  · rw [hq, update_self]
    exact iff_of_true rfl hx
  · rw [update_of_ne hq]
    subst hfree
    exact iff_of_false (fun h => hq (Option.some.inj h).symm) hf.free

theorem HeldBy.give (hf : HeldBy h B f) (hp : B (f p)) (hx : ¬B x) :
    HeldBy none B (update f p x) := by
  intro q
  by_cases hq : q = p
  · rw [hq, update_self]
    exact iff_of_false nofun hx
  · rw [update_of_ne hq]
    exact iff_of_false nofun fun h => hq (hf.unique h hp)

end HeldBy

omit [DecidableEq K] in
theorem status_kill_iff {B : Status K → Prop} (hB : ∀ c, B .woken ↔ B (.asleep c)) :
    B ((m.kill p).status q) ↔ B (m.status q) := by
  by_cases hqp : q = p
  · subst hqp
    simp only [kill, update_self]
    exact Status.kill_iff hB _
  · simp only [kill, update_of_ne hqp]

omit [DecidableEq K] in
theorem waits_of_kill (h : ((m.kill p).status q).Waits c) : (m.status q).Waits c := by
  by_cases hqp : q = p
  · subst hqp
    simp only [kill, update_self] at h
    exact Status.waits_of_kill h
  · simpa only [kill, update_of_ne hqp] using h

structure Locked (m : Monitor P D L K) : Prop where
  lk : HeldBy m.lk Status.Locks m.status
  ptable : HeldBy m.ptable Status.LocksTable m.status

omit [DecidableEq P] [DecidableEq K] in
theorem Locked.init (d : D) (l : L) : Locked (init d l : Monitor P D L K) where
  lk _ := iff_of_false nofun id
  ptable _ := iff_of_false nofun id

omit [DecidableEq P] [DecidableEq K] in
theorem Locked.holder (h : Locked m) (hp : m.status p = .holds) (hq : (m.status q).Locks) : q = p :=
  h.lk.unique hq (by rw [hp]; trivial)

theorem Locked.step (h : Locked m) (hstep : Does C m a n) : Locked n := by
  obtain ⟨hlk, hptable⟩ := h
  cases hstep with
  | call p a l hs _ => exact ⟨hlk.keep (by rw [hs]), hptable.keep (by rw [hs])⟩
  | acquire p l hs hfree _ => exact ⟨hlk.take hfree trivial, hptable.keep (by rw [hs]; exact .rfl)⟩
  | act p d l hs _ => exact ⟨hlk.keep (by rw [hs]), hptable.keep (by rw [hs])⟩
  | wakeup p c l hs _ _ =>
    exact ⟨hlk.congr fun q => Status.wakeup_iff .rfl _, hptable.congr fun q => Status.wakeup_iff .rfl _⟩
  | sleep p c l hs hfree _ => exact ⟨hlk.keep (by rw [hs]; exact .rfl), hptable.take hfree trivial⟩
  | release p d l hs _ =>
    exact ⟨hlk.give (p := p) (by rw [hs]; trivial) id, hptable.keep (by rw [hs]; exact .rfl)⟩
  | enter p c hs =>
    exact ⟨hlk.give (p := p) (by rw [hs]; trivial) id, hptable.keep (by rw [hs]; exact .rfl)⟩
  | leave p c hs =>
    exact ⟨hlk.keep (by rw [hs]; exact .rfl), hptable.give (p := p) (by rw [hs]; trivial) id⟩
  | resume p hs hfree => exact ⟨hlk.take hfree trivial, hptable.keep (by rw [hs]; exact .rfl)⟩
  | kill p _ =>
    exact ⟨hlk.keep (Status.kill_iff (fun _ => .rfl) _), hptable.keep (Status.kill_iff (fun _ => .rfl) _)⟩

section Verified

variable {J : Option P → D → (P → L) → Prop}

def Resumes (J : Option P → D → (P → L) → Prop) (p : P) (l : L) : Prop :=
  ∀ d pc, J none d pc → pc p = l → J (some p) d pc

/-- `J` says what holds before each statement, with the process that has the lock and runs. -/
structure Verified (C : Code P D L K A) (J : Option P → D → (P → L) → Prop) : Prop where
  call : ∀ {h p a d pc l}, h ≠ some p → J h d pc → C.call p a d (pc p) = some l →
    J h d (update pc p l)
  acquire : ∀ {p k d pc l}, J none d pc → C.stmt p k d (pc p) = some (.acquire l) →
    J (some p) d (update pc p l)
  act : ∀ {p k d pc d' l}, J (some p) d pc → C.stmt p k d (pc p) = some (.act d' l) →
    J (some p) d' (update pc p l)
  wakeup : ∀ {p k d pc c l}, J (some p) d pc → C.stmt p k d (pc p) = some (.wakeup c l) →
    J (some p) d (update pc p l)
  sleep : ∀ {p k d pc c l}, J (some p) d pc → C.stmt p k d (pc p) = some (.sleep c l) →
    J none d (update pc p l) ∧ Resumes J p l
  release : ∀ {p k d pc d' l}, J (some p) d pc → C.stmt p k d (pc p) = some (.release d' l) →
    J none d' (update pc p l)

structure Sound (J : Option P → D → (P → L) → Prop) (m : Monitor P D L K) : Prop where
  locked : Locked m
  inv : ∃ h, HeldBy h (· = .holds) m.status ∧ J h m.data m.pc
  sleeper : ∀ p, (m.status p).InSleep → Resumes J p (m.pc p)

omit [DecidableEq P] [DecidableEq K] in
theorem Sound.init (h : J none d fun _ => l) : Sound J (init d l : Monitor P D L K) where
  locked := .init d l
  inv := ⟨none, fun _ => iff_of_false nofun nofun, h⟩
  sleeper _ := False.elim

omit [DecidableEq P] [DecidableEq K] in
theorem Sound.holder (h : Sound J m) (hp : m.status p = .holds) : J (some p) m.data m.pc := by
  obtain ⟨r, hr, hinv⟩ := h.inv
  rwa [(hr p).mpr hp] at hinv

omit [DecidableEq P] [DecidableEq K] in
theorem Sound.free (h : Sound J m) (hfree : m.lk = none) :
    HeldBy none (· = .holds) m.status ∧ J none m.data m.pc := by
  obtain ⟨r, hr, hinv⟩ := h.inv
  cases r with
  | none => exact ⟨hr, hinv⟩
  | some p =>
    have hlk := (h.locked.lk p).mpr (by rw [(hr p).mp rfl]; trivial)
    rw [hfree] at hlk
    cases hlk

omit [DecidableEq K] in
theorem Sound.moved (h : Sound J m) (hx : x.InSleep → Resumes J p l) (q : P)
    (hq : (update m.status p x q).InSleep) : Resumes J q (update m.pc p l q) := by
  by_cases hqp : q = p
  · subst hqp
    rw [update_self] at hq ⊢
    exact hx hq
  · rw [update_of_ne hqp] at hq ⊢
    exact h.sleeper q hq

theorem Sound.step (hC : Verified C J) (h : Sound J m) (hstep : Does C m a n) : Sound J n := by
  have hlocked := h.locked.step hstep
  cases hstep with
  | call p a l hs hcall =>
    obtain ⟨r, hr, hinv⟩ := h.inv
    have hne : r ≠ some p := fun heq => by
      have hp := (hr p).mp heq
      rw [hs] at hp
      cases hp
    exact ⟨hlocked, ⟨r, hr.keep (by rw [hs]), hC.call hne hinv hcall⟩, h.moved False.elim⟩
  | acquire p l hs hfree hstmt =>
    obtain ⟨hr, hinv⟩ := h.free hfree
    exact ⟨hlocked, ⟨some p, hr.take rfl rfl, hC.acquire hinv hstmt⟩, h.moved False.elim⟩
  | act p d l hs hstmt =>
    obtain ⟨r, hr, -⟩ := h.inv
    have hp := (hr p).mpr hs
    exact ⟨hlocked, ⟨some p, hp ▸ hr.keep (by rw [hs]), hC.act (h.holder hs) hstmt⟩, h.moved False.elim⟩
  | wakeup p c l hs _ hstmt =>
    obtain ⟨r, hr, -⟩ := h.inv
    have hp := (hr p).mpr hs
    refine ⟨hlocked, ⟨some p, ?_, hC.wakeup (h.holder hs) hstmt⟩, fun q hq => ?_⟩
    · exact hp ▸ hr.congr fun q => Status.wakeup_iff (B := (· = .holds)) (iff_of_false nofun nofun) _
    · have hin : (m.status q).InSleep := (Status.wakeup_iff .rfl _).mp hq
      have hqp : q ≠ p := by
        rintro rfl
        rw [hs] at hin
        exact hin
      simpa only [wakeup, update_of_ne hqp] using h.sleeper q hin
  | sleep p c l hs _ hstmt =>
    obtain ⟨r, hr, -⟩ := h.inv
    obtain ⟨hinv, hresumes⟩ := hC.sleep (h.holder hs) hstmt
    exact ⟨hlocked, ⟨none, hr.give hs nofun, hinv⟩, h.moved fun _ => hresumes⟩
  | release p d l hs hstmt =>
    obtain ⟨r, hr, -⟩ := h.inv
    exact ⟨hlocked, ⟨none, hr.give hs nofun, hC.release (h.holder hs) hstmt⟩, h.moved False.elim⟩
  | enter p c hs =>
    obtain ⟨r, hr, hinv⟩ := h.inv
    refine ⟨hlocked, ⟨r, hr.keep (by rw [hs]; exact iff_of_false nofun nofun), ?_⟩, h.moved fun _ => ?_⟩
    · simpa only [goto, update_eq_self] using hinv
    · exact h.sleeper p (by rw [hs]; trivial)
  | leave p c hs =>
    obtain ⟨r, hr, hinv⟩ := h.inv
    refine ⟨hlocked, ⟨r, hr.keep (by rw [hs]; exact iff_of_false nofun nofun), ?_⟩, h.moved fun _ => ?_⟩
    · simpa only [goto, update_eq_self] using hinv
    · exact h.sleeper p (by rw [hs]; trivial)
  | resume p hs hfree =>
    obtain ⟨hr, hinv⟩ := h.free hfree
    refine ⟨hlocked, ⟨some p, hr.take rfl rfl, ?_⟩, h.moved False.elim⟩
    simpa only [goto, update_eq_self] using h.sleeper p (by rw [hs]; trivial) m.data m.pc hinv rfl
  | kill p _ =>
    obtain ⟨r, hr, hinv⟩ := h.inv
    refine ⟨hlocked, ⟨r, hr.congr fun q => ?_, hinv⟩, fun q hq => h.sleeper q ?_⟩
    · exact status_kill_iff (B := (· = .holds)) fun _ => iff_of_false nofun nofun
    · exact (status_kill_iff fun _ => .rfl).mp hq

theorem Sound.always (hC : Verified C J) (hm : Sound J m)
    (h : Run (Step C) m es n) : Run.Always (Sound J) es n :=
  h.always_invariant (C := fun _ _ => True) (fun _ _ _ hstep _ hm => hm.step hC hstep.does)
    (fun _ _ => trivial) hm

end Verified

section Wakes

variable {J : Option P → D → (P → L) → Prop} {ready : K → D → Prop} {owes : L → K → Prop}

/-- `ready c` says that nobody should be waiting on `c`; at the positions that owe a wakeup the
code has yet to call it. -/
structure Wakes (C : Code P D L K A) (J : Option P → D → (P → L) → Prop) (ready : K → D → Prop)
    (owes : L → K → Prop) : Prop where
  act : ∀ {p k d pc d' l c}, J (some p) d pc → C.stmt p k d (pc p) = some (.act d' l) → ready c d' →
    (ready c d → owes (pc p) c) → owes l c
  wakeup : ∀ {p k d l c l' c'}, C.stmt p k d l = some (.wakeup c l') → c' ≠ c → owes l c' → owes l' c'
  sleep : ∀ {p k d pc c l}, J (some p) d pc → C.stmt p k d (pc p) = some (.sleep c l) → ¬ready c d
  release : ∀ {p k d l d' l' c}, C.stmt p k d l = some (.release d' l') → ready c d' → ready c d

def Settled (C : Code P D L K A) (ready : K → D → Prop) (owes : L → K → Prop) (m : Monitor P D L K) :
    Act P A → Prop
  | .go p => m.status p = .holds →
    (∃ l, (∃ c, C.stmt p (m.killed p) m.data (m.pc p) = some (.sleep c l)) ∨
      ∃ d, C.stmt p (m.killed p) m.data (m.pc p) = some (.release d l)) →
    ∀ c, owes (m.pc p) c → ready c m.data → ∀ q, ¬(m.status q).Waits c
  | _ => True

structure NoLost (ready : K → D → Prop) (owes : L → K → Prop) (m : Monitor P D L K) : Prop where
  waiting : ∀ q c, (m.status q).Waits c → ready c m.data → ∃ p, m.status p = .holds ∧ owes (m.pc p) c
  entering : ∀ p c, m.status p = .entering c → ¬ready c m.data

omit [DecidableEq P] [DecidableEq K] in
theorem NoLost.init (d : D) (l : L) : NoLost ready owes (init d l : Monitor P D L K) where
  waiting _ _ := False.elim
  entering _ _ := nofun

omit [DecidableEq P] [DecidableEq K] in
theorem NoLost.free (h : NoLost ready owes m) (hm : Locked m) (hfree : m.lk = none)
    (hq : (m.status q).Waits c) : ¬ready c m.data := by
  intro hready
  obtain ⟨p, hp, -⟩ := h.waiting q c hq hready
  have hlk := (hm.lk p).mpr (by rw [hp]; trivial)
  rw [hfree] at hlk
  cases hlk

omit [DecidableEq P] [DecidableEq K] in
theorem NoLost.owed (h : NoLost ready owes m) (hm : Locked m) (hp : m.status p = .holds)
    (hq : (m.status q).Waits c) (hready : ready c m.data) : owes (m.pc p) c := by
  obtain ⟨r, hr, howes⟩ := h.waiting q c hq hready
  have hrp : r = p := hm.holder hp (by rw [hr]; trivial)
  rwa [hrp] at howes

omit [DecidableEq K] in
theorem NoLost.goto {lk ptable : Option P} {killed : P → Bool} {d : D} {l : L} {x : Status K}
    (h : NoLost ready owes m) (hm : Locked m)
    (hd : d = m.data ∨ m.status p = .holds) (hself : ∀ c, x.Waits c → (m.status p).Waits c ∨ ¬ready c d)
    (hentering : ∀ c, x = .entering c → ¬ready c d)
    (hwaiting : ∀ q c, (m.status q).Waits c → ready c d →
      ∃ r, update m.status p x r = .holds ∧ owes (update m.pc p l r) c) :
    NoLost ready owes
      ⟨lk, ptable, d, update m.pc p l, update m.status p x, killed⟩ := by
  refine ⟨fun q c hq hready => ?_, fun q c hq => ?_⟩
  · by_cases hqp : q = p
    · subst hqp
      simp only [update_self] at hq
      rcases hself c hq with hq | hnot
      · exact hwaiting q c hq hready
      · exact absurd hready hnot
    · simp only [update_of_ne hqp] at hq
      exact hwaiting q c hq hready
  · by_cases hqp : q = p
    · subst hqp
      simp only [update_self] at hq
      exact hentering c hq
    · simp only [update_of_ne hqp] at hq
      rcases hd with rfl | hp
      · exact h.entering q c hq
      · exact absurd (hm.holder hp (by rw [hq]; trivial)) hqp

omit [DecidableEq K] in
theorem NoLost.others (h : NoLost ready owes m) (hp : m.status p ≠ .holds)
    (hq : (m.status q).Waits c) (hready : ready c m.data) :
    ∃ r, update m.status p x r = .holds ∧ owes (update m.pc p l r) c := by
  obtain ⟨r, hr, howes⟩ := h.waiting q c hq hready
  have hrp : r ≠ p := by
    rintro rfl
    exact hp hr
  exact ⟨r, by rwa [update_of_ne hrp], by rwa [update_of_ne hrp]⟩

theorem NoLost.step (hC : Wakes C J ready owes) (h : NoLost ready owes m) (hm : Sound J m)
    (hstep : Does C m a n) (hsettled : Settled C ready owes m a) : NoLost ready owes n := by
  have hlocked := hm.locked
  cases hstep with
  | call p a l hs _ =>
    exact h.goto hlocked (.inl rfl) (fun c hx => hx.elim) (fun _ => nofun)
      fun q c hq hready => h.others (by rw [hs]; nofun) hq hready
  | acquire p l hs hfree _ =>
    exact h.goto hlocked (.inl rfl) (fun c hx => hx.elim) (fun _ => nofun)
      fun q c hq hready => absurd hready (h.free hlocked hfree hq)
  | act p d l hs hstmt =>
    refine h.goto hlocked (.inr hs) (fun c hx => hx.elim) (fun _ => nofun) fun q c hq hready => ?_
    refine ⟨p, update_self .., ?_⟩
    rw [update_self]
    exact hC.act (hm.holder hs) hstmt hready fun hready => h.owed hlocked hs hq hready
  | wakeup p c l hs hfree hstmt =>
    refine ⟨fun q c' hq hready => ?_, fun q c' hq => ?_⟩
    · obtain ⟨hwaits, hne⟩ := Status.waits_of_wakeup hq
      -- nobody is between the two locks, so whoever still waits is asleep on another channel
      have hc : c' ≠ c := by
        rintro rfl
        cases hstatus : m.status q with
        | leaving d => exact absurd ((hlocked.ptable q).mpr (by rw [hstatus]; trivial)) (by rw [hfree]; nofun)
        | asleep d =>
          rw [hstatus] at hwaits
          exact hne (by rw [hstatus, show d = c' from hwaits])
        | out | holds | entering | woken =>
          rw [hstatus] at hwaits
          exact hwaits
      refine ⟨p, ?_, ?_⟩
      · exact (Status.wakeup_iff (B := (· = .holds)) (iff_of_false nofun nofun) _).mpr hs
      · simp only [wakeup, update_self]
        exact hC.wakeup hstmt hc (h.owed hlocked hs hwaits hready)
    · have hq : m.status q = .entering c' :=
        (Status.wakeup_iff (B := (· = .entering c')) (iff_of_false nofun nofun) _).mp hq
      exact h.entering q c' hq
  | sleep p c l hs _ hstmt =>
    refine h.goto hlocked (.inl rfl) (fun c hx => hx.elim) ?_ fun q c' hq hready => ?_
    · rintro _ ⟨⟩
      exact hC.sleep (hm.holder hs) hstmt
    · exact absurd hq (hsettled hs ⟨l, .inl ⟨c, hstmt⟩⟩ c' (h.owed hlocked hs hq hready) hready q)
  | release p d l hs hstmt =>
    refine h.goto hlocked (.inr hs) (fun c hx => hx.elim) (fun _ => nofun) fun q c hq hready => ?_
    have hready := hC.release hstmt hready
    exact absurd hq (hsettled hs ⟨l, .inr ⟨d, hstmt⟩⟩ c (h.owed hlocked hs hq hready) hready q)
  | enter p c hs =>
    refine h.goto hlocked (.inl rfl) ?_ (fun _ => nofun) fun q c' hq hready => ?_
    · rintro _ rfl
      exact .inr (h.entering p c hs)
    · exact h.others (by rw [hs]; nofun) hq hready
  | leave p c hs =>
    refine h.goto hlocked (.inl rfl) ?_ (fun _ => nofun) fun q c' hq hready => ?_
    · rintro _ rfl
      exact .inl (by rw [hs]; rfl)
    · exact h.others (by rw [hs]; nofun) hq hready
  | resume p hs hfree =>
    exact h.goto hlocked (.inl rfl) (fun c hx => hx.elim) (fun _ => nofun)
      fun q c hq hready => absurd hready (h.free hlocked hfree hq)
  | kill p _ =>
    refine ⟨fun q c hq hready => ?_, fun q c hq => ?_⟩
    · obtain ⟨r, hr, howes⟩ := h.waiting q c (waits_of_kill hq) hready
      exact ⟨r, (status_kill_iff (B := (· = .holds)) fun _ => iff_of_false nofun nofun).mpr hr, howes⟩
    · exact h.entering q c ((status_kill_iff (B := (· = .entering c)) fun _ => iff_of_false nofun nofun).mp hq)

theorem NoLost.always (hV : Verified C J)
    (hC : Wakes C J ready owes) (hm : Sound J m) (hn : NoLost ready owes m) (h : Run (Step C) m es n)
    (hsettled : ∀ e ∈ es, Settled C ready owes e.1 e.2) :
    Run.Always (fun m => Sound J m ∧ NoLost ready owes m) es n :=
  h.always_invariant (C := Settled C ready owes)
    (fun _ _ _ hstep hs hm => ⟨hm.1.step hV hstep.does, hm.2.step hC hm.1 hstep.does hs⟩) hsettled ⟨hm, hn⟩

end Wakes

end Monitor

end Xv6.Lib
