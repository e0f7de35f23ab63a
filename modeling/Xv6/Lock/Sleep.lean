import Xv6.Lib.Monitor
import Xv6.Proc.Table

/-! The sleep lock of `sleeplock.c`, statement by statement.  `lk->lk` is the lock of the
monitor, and the processes that wait in `acquiresleep` sleep on its one channel. -/

namespace Xv6

open Function Lib

structure Sleeplock where
  locked : Bool
  pid : Word
  deriving DecidableEq

namespace Sleeplock

def init : Sleeplock := ⟨false, 0⟩

/-- The statement a process is about to execute.  A process may call `acquiresleep` and
`holdingsleep` both with and without the lock, which `mine` says. -/
inductive Pc
  | out
  | acqLk (mine : Bool) | acqTest (mine : Bool) | acqLocked | acqPid | acqUnlk
  | held
  | relLk | relLocked | relPid | relWakeup | relUnlk
  | holdLk (mine : Bool) | holdTest (mine : Bool) | holdUnlk (mine r : Bool)
  deriving DecidableEq

inductive Call
  | acquiresleep | releasesleep | holdingsleep
  deriving DecidableEq

variable {P : Type}

/-- Only a process that has the lock calls `releasesleep`. -/
def call : Call → Pc → Option Pc
  | .acquiresleep, .out => some (.acqLk false)
  | .acquiresleep, .held => some (.acqLk true)
  | .releasesleep, .held => some .relLk
  | .holdingsleep, .out => some (.holdLk false)
  | .holdingsleep, .held => some (.holdLk true)
  | _, _ => none

def stmt (pid : P → Word) (p : P) (lk : Sleeplock) : Pc → Option (Stmt Sleeplock Pc Unit)
  | .out | .held => none
  | .acqLk mine => some (.acquire (.acqTest mine))
  | .acqTest mine => some (if lk.locked then .sleep () (.acqTest mine) else .act lk .acqLocked)
  | .acqLocked => some (.act { lk with locked := true } .acqPid)
  | .acqPid => some (.act { lk with pid := pid p } .acqUnlk)
  | .acqUnlk => some (.release lk .held)
  | .relLk => some (.acquire .relLocked)
  | .relLocked => some (.act { lk with locked := false } .relPid)
  | .relPid => some (.act { lk with pid := 0 } .relWakeup)
  | .relWakeup => some (.wakeup () .relUnlk)
  | .relUnlk => some (.release lk .out)
  | .holdLk mine => some (.acquire (.holdTest mine))
  | .holdTest mine => some (.act lk (.holdUnlk mine (lk.locked && lk.pid == pid p)))
  | .holdUnlk mine _ => some (.release lk (if mine then .held else .out))

def code (pid : P → Word) : Code P Sleeplock Pc Unit Call where
  call _ a _ pc := call a pc
  stmt p _ lk pc := stmt pid p lk pc

namespace Pc

def Holds : Pc → Prop
  | held | relLk => True
  | acqLk mine | acqTest mine | holdLk mine | holdTest mine | holdUnlk mine _ => mine = true
  | _ => False

def Locks : Pc → Prop
  | acqPid | acqUnlk | relLocked => True
  | pc => pc.Holds

def Named : Pc → Prop
  | acqUnlk | relLocked | relPid => True
  | pc => pc.Holds

def Inside : Pc → Prop
  | acqLocked | acqPid | acqUnlk | relLocked | relPid | relWakeup | relUnlk | holdTest _ | holdUnlk _ _ => True
  | _ => False

theorem Holds.locks {pc : Pc} (h : pc.Holds) : pc.Locks := by
  cases pc <;> first | exact h | exact h.elim

theorem Holds.named {pc : Pc} (h : pc.Holds) : pc.Named := by
  cases pc <;> first | exact h | exact h.elim

theorem Named.holds {pc : Pc} (h : pc.Named) (hin : ¬pc.Inside) : pc.Holds := by
  cases pc <;> first | exact h | exact absurd trivial hin

end Pc

structure Inv (pid : P → Word) (h : Option P) (lk : Sleeplock) (pc : P → Pc) : Prop where
  inside : ∀ p, (pc p).Inside → h = some p
  locked : ∃ o, Monitor.HeldBy o Pc.Locks pc ∧ lk.locked = o.isSome
  pid : ∃ o, Monitor.HeldBy o Pc.Named pc ∧ lk.pid = o.elim 0 pid
  cleared : ∀ p, pc p = .acqLocked ∨ pc p = .relPid → lk.locked = false

variable [DecidableEq P] {pid : P → Word} {p q : P} {h r : Option P} {lk : Sleeplock} {pc : P → Pc} {l : Pc}

omit [DecidableEq P] in
theorem init_inv : Inv pid none init (fun _ : P => .out) where
  inside _ := False.elim
  locked := ⟨none, fun _ => iff_of_false nofun id, rfl⟩
  pid := ⟨none, fun _ => iff_of_false nofun id, rfl⟩
  cleared _ hp := by rcases hp with hp | hp <;> cases hp

namespace Inv

theorem inside_update (hinv : Inv pid h lk pc) (hh : h = none ∨ h = some p) (hl : l.Inside → r = some p) :
    ∀ q, (update pc p l q).Inside → r = some q := by
  intro q hq
  by_cases hqp : q = p
  · subst hqp
    rw [update_self] at hq
    exact hl hq
  · rw [update_of_ne hqp] at hq
    have hq := hinv.inside q hq
    rcases hh with rfl | rfl
    · cases hq
    · exact absurd (Option.some.inj hq).symm hqp

theorem cleared_update (hinv : Inv pid h lk pc) {lk' : Sleeplock} (hh : h = none ∨ h = some p)
    (hl : l = .acqLocked ∨ l = .relPid → lk'.locked = false) :
    ∀ q, update pc p l q = .acqLocked ∨ update pc p l q = .relPid → lk'.locked = false := by
  intro q hq
  by_cases hqp : q = p
  · subst hqp
    rw [update_self] at hq
    exact hl hq
  · rw [update_of_ne hqp] at hq
    have hin : (pc q).Inside := by
      rcases hq with hq | hq <;>
      · rw [hq]
        trivial
    have hq := hinv.inside q hin
    rcases hh with rfl | rfl
    · cases hq
    · exact absurd (Option.some.inj hq).symm hqp

theorem move (hinv : Inv pid h lk pc) (hh : h = none ∨ h = some p) (hl : l.Inside → r = some p)
    (hlocks : l.Locks ↔ (pc p).Locks) (hnamed : l.Named ↔ (pc p).Named)
    (hc : l = .acqLocked ∨ l = .relPid → lk.locked = false) : Inv pid r lk (update pc p l) := by
  obtain ⟨o, ho, hlocked⟩ := hinv.locked
  obtain ⟨n, hn, hpid⟩ := hinv.pid
  exact ⟨hinv.inside_update hh hl, ⟨o, ho.keep hlocks, hlocked⟩, ⟨n, hn.keep hnamed, hpid⟩,
    hinv.cleared_update hh hc⟩

theorem call (hinv : Inv pid h lk pc) (hin : ¬l.Inside) (hlocks : l.Locks ↔ (pc p).Locks)
    (hnamed : l.Named ↔ (pc p).Named) : Inv pid h lk (update pc p l) := by
  obtain ⟨o, ho, hlocked⟩ := hinv.locked
  obtain ⟨n, hn, hpid⟩ := hinv.pid
  refine ⟨fun q hq => ?_, ⟨o, ho.keep hlocks, hlocked⟩, ⟨n, hn.keep hnamed, hpid⟩, fun q hq => ?_⟩
  · by_cases hqp : q = p
    · subst hqp
      rw [update_self] at hq
      exact absurd hq hin
    · rw [update_of_ne hqp] at hq
      exact hinv.inside q hq
  · by_cases hqp : q = p
    · subst hqp
      rw [update_self] at hq
      rcases hq with rfl | rfl <;> exact absurd trivial hin
    · rw [update_of_ne hqp] at hq
      exact hinv.cleared q hq

end Inv

theorem acquire_inv (hinv : Inv pid none lk pc)
    (hstmt : (code pid).stmt p k lk (pc p) = some (.acquire l)) :
    Inv pid (some p) lk (update pc p l) := by
  cases hpc : pc p with
  | acqLk mine | relLk | holdLk mine =>
    rw [hpc] at hstmt
    cases hstmt
    exact hinv.move (.inl rfl) (fun _ => rfl) (by rw [hpc]; exact .rfl) (by rw [hpc]; exact .rfl) (by simp)
  | acqTest mine =>
    simp only [hpc, code, stmt] at hstmt
    split at hstmt <;> cases hstmt
  | out | held | acqLocked | acqPid | acqUnlk | relLocked | relPid | relWakeup | relUnlk | holdTest mine
  | holdUnlk mine r =>
    rw [hpc] at hstmt
    cases hstmt

theorem act_inv {k : Bool} {lk' : Sleeplock} (hinv : Inv pid (some p) lk pc)
    (hstmt : (code pid).stmt p k lk (pc p) = some (.act lk' l)) :
    Inv pid (some p) lk' (update pc p l) := by
  obtain ⟨o, ho, hlocked⟩ := hinv.locked
  obtain ⟨n, hn, hpid⟩ := hinv.pid
  cases hpc : pc p with
  | acqTest mine =>
    simp only [hpc, code, stmt] at hstmt
    split at hstmt
    · cases hstmt
    next hfree =>
    cases hstmt
    have hfree : lk.locked = false := by simpa using hfree
    have ho' : ¬(pc p).Locks := fun hp => by
      rw [(ho p).mpr hp, hfree] at hlocked
      cases hlocked
    have hn' : ¬(pc p).Named := fun hp => by
      rw [hpc] at hp ho'
      exact ho' hp
    exact hinv.move (.inr rfl) (fun _ => rfl) (iff_of_false id ho') (iff_of_false id hn') fun _ => hfree
  | acqLocked =>
    rw [hpc] at hstmt
    cases hstmt
    have hnone : o = none := by
      rw [hinv.cleared p (.inl hpc)] at hlocked
      cases o with
      | none => rfl
      | some q => cases hlocked
    refine ⟨hinv.inside_update (.inr rfl) fun _ => rfl, ⟨some p, ho.take hnone trivial, rfl⟩,
      ⟨n, hn.keep (by rw [hpc]; exact .rfl), hpid⟩, hinv.cleared_update (.inr rfl) (by simp)⟩
  | acqPid =>
    rw [hpc] at hstmt
    cases hstmt
    have hnone : n = none := by
      by_contra hsome
      obtain ⟨q, hq⟩ := Option.ne_none_iff_exists'.mp hsome
      have hnamed := (hn q).mp hq
      have hqp : q ≠ p := by
        rintro rfl
        rw [hpc] at hnamed
        exact hnamed
      have hin : ¬(pc q).Inside := fun hin => hqp (Option.some.inj (hinv.inside q hin)).symm
      exact hqp (ho.unique (hnamed.holds hin).locks (by rw [hpc]; trivial))
    exact ⟨hinv.inside_update (.inr rfl) fun _ => rfl, ⟨o, ho.keep (by rw [hpc]; exact .rfl), hlocked⟩,
      ⟨some p, hn.take hnone trivial, rfl⟩, hinv.cleared_update (.inr rfl) (by simp)⟩
  | relLocked =>
    rw [hpc] at hstmt
    cases hstmt
    exact ⟨hinv.inside_update (.inr rfl) fun _ => rfl, ⟨none, ho.give (by rw [hpc]; trivial) id, rfl⟩,
      ⟨n, hn.keep (by rw [hpc]; exact .rfl), hpid⟩, hinv.cleared_update (.inr rfl) fun _ => rfl⟩
  | relPid =>
    rw [hpc] at hstmt
    cases hstmt
    exact ⟨hinv.inside_update (.inr rfl) fun _ => rfl, ⟨o, ho.keep (by rw [hpc]; exact .rfl), hlocked⟩,
      ⟨none, hn.give (by rw [hpc]; trivial) id, rfl⟩, hinv.cleared_update (.inr rfl) (by simp)⟩
  | holdTest mine =>
    rw [hpc] at hstmt
    cases hstmt
    exact hinv.move (.inr rfl) (fun _ => rfl) (by rw [hpc]; exact .rfl) (by rw [hpc]; exact .rfl) (by simp)
  | out | held | acqLk mine | acqUnlk | relLk | relWakeup | relUnlk | holdLk mine | holdUnlk mine r =>
    rw [hpc] at hstmt
    cases hstmt

omit [DecidableEq P] in
theorem release_cases {k : Bool} {lk' : Sleeplock} {pc : Pc}
    (hstmt : (code pid).stmt p k lk pc = some (.release lk' l)) :
    lk' = lk ∧ (pc = .acqUnlk ∧ l = .held ∨ pc = .relUnlk ∧ l = .out ∨
      ∃ mine r, pc = .holdUnlk mine r ∧ l = if mine then .held else .out) := by
  cases pc with
  | acqUnlk =>
    cases hstmt
    exact ⟨rfl, .inl ⟨rfl, rfl⟩⟩
  | relUnlk =>
    cases hstmt
    exact ⟨rfl, .inr (.inl ⟨rfl, rfl⟩)⟩
  | holdUnlk mine r =>
    cases hstmt
    exact ⟨rfl, .inr (.inr ⟨mine, r, rfl, rfl⟩)⟩
  | acqTest mine =>
    simp only [code, stmt] at hstmt
    split at hstmt <;> cases hstmt
  | out | held | acqLk mine | acqLocked | acqPid | relLk | relLocked | relPid | relWakeup | holdLk mine
  | holdTest mine => cases hstmt

omit [DecidableEq P] in
theorem sleep_cases {k : Bool} {c : Unit} {pc : Pc} (hstmt : (code pid).stmt p k lk pc = some (.sleep c l)) :
    lk.locked = true ∧ ∃ mine, pc = .acqTest mine ∧ l = .acqTest mine := by
  cases pc with
  | acqTest mine =>
    simp only [code, stmt] at hstmt
    split at hstmt
    next hlocked =>
      cases hstmt
      exact ⟨hlocked, mine, rfl, rfl⟩
    next => cases hstmt
  | out | held | acqLk mine | acqLocked | acqPid | acqUnlk | relLk | relLocked | relPid | relWakeup | relUnlk
  | holdLk mine | holdTest mine | holdUnlk mine r => cases hstmt

omit [DecidableEq P] in
theorem wakeup_cases {k : Bool} {c : Unit} {pc : Pc}
    (hstmt : (code pid).stmt p k lk pc = some (.wakeup c l)) : pc = .relWakeup ∧ l = .relUnlk := by
  cases pc with
  | acqTest mine =>
    simp only [code, stmt] at hstmt
    split at hstmt <;> cases hstmt
  | relWakeup =>
    cases hstmt
    exact ⟨rfl, rfl⟩
  | out | held | acqLk mine | acqLocked | acqPid | acqUnlk | relLk | relLocked | relPid | relUnlk
  | holdLk mine | holdTest mine | holdUnlk mine r => cases hstmt

theorem release_inv {k : Bool} {lk' : Sleeplock} (hinv : Inv pid (some p) lk pc)
    (hstmt : (code pid).stmt p k lk (pc p) = some (.release lk' l)) :
    Inv pid none lk' (update pc p l) := by
  obtain ⟨rfl, ⟨hpc, rfl⟩ | ⟨hpc, rfl⟩ | ⟨mine, r, hpc, rfl⟩⟩ := release_cases hstmt
  · exact hinv.move (.inr rfl) False.elim (by rw [hpc]; exact .rfl) (by rw [hpc]; exact .rfl) (by simp)
  · exact hinv.move (.inr rfl) False.elim (by rw [hpc]; exact .rfl) (by rw [hpc]; exact .rfl) (by simp)
  · refine hinv.move (.inr rfl) ?_ ?_ ?_ ?_ <;> cases mine <;>
      simp [hpc, Pc.Inside, Pc.Locks, Pc.Named, Pc.Holds]

theorem call_inv (hinv : Inv pid h lk pc) (hcall : call a (pc p) = some l) :
    Inv pid h lk (update pc p l) := by
  cases hpc : pc p with
  | out =>
    rw [hpc] at hcall
    cases a with
    | acquiresleep | holdingsleep =>
      cases hcall
      refine hinv.call id ?_ ?_ <;> simp [hpc, Pc.Locks, Pc.Named, Pc.Holds]
    | releasesleep => cases hcall
  | held =>
    rw [hpc] at hcall
    cases a with
    | acquiresleep | holdingsleep | releasesleep =>
      cases hcall
      refine hinv.call id ?_ ?_ <;> simp [hpc, Pc.Locks, Pc.Named, Pc.Holds]
  | acqLk mine | acqTest mine | acqLocked | acqPid | acqUnlk | relLk | relLocked | relPid | relWakeup | relUnlk
  | holdLk mine | holdTest mine | holdUnlk mine r =>
    rw [hpc] at hcall
    cases a <;> cases hcall

theorem code_verified : Monitor.Verified (code pid) (Inv pid) where
  call _ hinv hcall := call_inv hinv hcall
  acquire := acquire_inv
  act := act_inv
  wakeup {p k d pc c l} hinv hstmt := by
    obtain ⟨hpc, rfl⟩ := wakeup_cases hstmt
    exact hinv.move (.inr rfl) (fun _ => rfl) (by rw [hpc]; exact .rfl) (by rw [hpc]; exact .rfl) (by simp)
  sleep {p k d pc c l} hinv hstmt := by
    obtain ⟨-, mine, hpc, rfl⟩ := sleep_cases hstmt
    refine ⟨hinv.move (.inr rfl) False.elim (by rw [hpc]) (by rw [hpc]) (by simp), fun d pc hinv _ => ?_⟩
    exact ⟨fun q hq => (nomatch hinv.inside q hq), hinv.locked, hinv.pid, hinv.cleared⟩
  release := release_inv

def ready (_ : Unit) (lk : Sleeplock) : Prop := lk.locked = false

def owes (pc : Pc) (_ : Unit) : Prop := pc = .relPid ∨ pc = .relWakeup

omit [DecidableEq P] in
theorem code_wakes : Monitor.Wakes (code pid) (Inv pid) ready owes where
  act {p k d pc d' l c} hinv hstmt hready howes := by
    cases hpc : pc p with
    | acqTest mine =>
      simp only [hpc, code, stmt] at hstmt
      split at hstmt
      · cases hstmt
      · cases hstmt
        rw [hpc] at howes
        exact absurd (howes hready) (by simp [owes])
    | acqLocked =>
      rw [hpc] at hstmt
      cases hstmt
      cases hready
    | relLocked =>
      rw [hpc] at hstmt
      cases hstmt
      exact .inl rfl
    | relPid =>
      rw [hpc] at hstmt
      cases hstmt
      exact .inr rfl
    | acqPid | holdTest mine =>
      rw [hpc] at hstmt howes
      cases hstmt
      exact absurd (howes hready) (by simp [owes])
    | out | held | acqLk mine | acqUnlk | relLk | relWakeup | relUnlk | holdLk mine | holdUnlk mine r =>
      rw [hpc] at hstmt
      cases hstmt
  wakeup _ hne := absurd rfl hne
  sleep {p k d pc c l} hinv hstmt hready := by
    obtain ⟨hlocked, -⟩ := sleep_cases hstmt
    exact absurd (hlocked.symm.trans hready) nofun
  release {p k d l d' l' c} hstmt hready := by
    obtain ⟨rfl, -⟩ := release_cases hstmt
    exact hready

omit [DecidableEq P] in
theorem settled (m : Monitor P Sleeplock Pc Unit) (a : Monitor.Act P Call) :
    Monitor.Settled (code pid) ready owes m a := by
  cases a with
  | go p =>
    rintro - ⟨l, ⟨c, hstmt⟩ | ⟨d, hstmt⟩⟩ c howes
    · obtain ⟨-, mine, hpc, -⟩ := sleep_cases hstmt
      simp [owes, hpc] at howes
    · obtain ⟨-, ⟨hpc, -⟩ | ⟨hpc, -⟩ | ⟨mine, r, hpc, -⟩⟩ := release_cases hstmt <;> simp [owes, hpc] at howes
  | call | kill => trivial

/-- What the lock promises.  The fields that assume `lk->lk` free are about the states between
its critical sections; `exact` is about a process whose pid is its own. -/
structure Safe (pid : P → Word) (m : Monitor P Sleeplock Pc Unit) : Prop where
  alone : ∀ p q, (m.pc p).Holds → (m.pc q).Holds → p = q
  named : ∀ p, (m.pc p).Holds → m.data.pid = pid p
  unnamed : m.lk = none → (∀ p, ¬(m.pc p).Holds) → m.data.pid = 0
  exact : m.lk = none → ∀ p, pid p ≠ 0 → (∀ q, pid q = pid p → q = p) →
    (m.data.pid = pid p ↔ (m.pc p).Holds)
  awake : m.lk = none → m.data.locked = false → ∀ p, m.status p ≠ .asleep ()

omit [DecidableEq P] in
theorem safe_of_sound {m : Monitor P Sleeplock Pc Unit} (hm : Monitor.Sound (Inv pid) m)
    (hn : Monitor.NoLost ready owes m) : Safe pid m := by
  obtain ⟨h, hh, hinv⟩ := hm.inv
  obtain ⟨o, ho, -⟩ := hinv.locked
  obtain ⟨n, hnamed, hpid⟩ := hinv.pid
  have hheld : m.lk = none → ∀ p, n = some p → (m.pc p).Holds := fun hfree p hp =>
    ((hnamed p).mp hp).holds fun hin => nomatch (hm.free hfree).2.inside p hin
  have hown : ∀ p, (m.pc p).Holds → m.data.pid = pid p := fun p hp => by
    rw [hpid, (hnamed p).mpr hp.named]
    rfl
  refine ⟨fun p q hp hq => ho.unique hp.locks hq.locks, hown, fun hfree hout => ?_,
    fun hfree p hpos honly => ⟨fun hp => ?_, hown p⟩, fun hfree hlocked p hp => ?_⟩
  · cases n with
    | none => exact hpid
    | some p => exact absurd (hheld hfree p rfl) (hout p)
  · cases n with
    | none => exact absurd (hp.symm.trans hpid) hpos
    | some q => exact honly q (hpid.symm.trans hp) ▸ hheld hfree q rfl
  · exact hn.free hm.locked hfree (by rw [hp]; rfl : (m.status p).Waits ()) hlocked

theorem sleeplock_safe {m : Monitor P Sleeplock Pc Unit}
    {es : List (Monitor P Sleeplock Pc Unit × Monitor.Act P Call)}
    (h : Run (Monitor.Step (code pid)) (.init init .out) es m) : Run.Always (Safe pid) es m := by
  obtain ⟨hes, hm⟩ := Monitor.NoLost.always code_verified code_wakes (.init init_inv) (.init _ _) h
    fun e _ => settled e.1 e.2
  exact ⟨fun e he => safe_of_sound (hes e he).1 (hes e he).2, safe_of_sound hm.1 hm.2⟩

def acquires (p : P) : List (Monitor.Act P Call) := .call p .acquiresleep :: .replicate 5 (.go p)

def sleeps (p : P) : List (Monitor.Act P Call) := .call p .acquiresleep :: .replicate 4 (.go p)

def wakes (p : P) : List (Monitor.Act P Call) := .replicate 5 (.go p)

def releases (p : P) : List (Monitor.Act P Call) := .call p .releasesleep :: .replicate 5 (.go p)

theorem sleeplock_safe_killed :
    let pid : Slot → Word := fun p => BitVec.ofNat 32 (p + 1)
    let ls := acquires 0 ++ sleeps 1 ++ [.kill 1] ++ .replicate 4 (.go 1) ++ releases 0 ++ wakes 1
    let es := trace (Monitor.next (code pid)) (.init init .out) ls
    ∃ m, Run (Monitor.Step (code pid)) (.init init .out) es m ∧ (m.pc 1).Holds ∧ Run.Always (Safe pid) es m := by
  intro pid ls es
  obtain ⟨m, hrun, hm⟩ := Run.of_exec_any (Monitor.next (code pid)) (.init init .out) ls
    (fun m => decide (m.pc 1 = .held)) (by decide +kernel)
  have hheld : m.pc 1 = .held := of_decide_eq_true hm
  exact ⟨m, hrun, by rw [hheld]; trivial, sleeplock_safe hrun⟩

end Sleeplock

end Xv6
