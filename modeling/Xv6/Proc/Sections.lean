import Xv6.Proc.Invariant

/-! The kernel at the grain of its critical sections.  `fork` and `change_queue` hold
`ptable.lock` more than once and let go of it in between, and so does the aging pass of a timer
trap; here the pieces are steps of their own, between which other CPUs may take theirs. -/

namespace Xv6

open Lib

/-- How far a process has got in `fork` or `change_queue`, between two critical sections. -/
inductive Ctl
  | clear
  /-- `fork`, with the slot `allocproc` has taken. -/
  | allocated (np : Slot)
  /-- `fork`, with a kernel stack in the new slot. -/
  | stacked (np : Slot)
  /-- `fork`, with the parent's memory and files in the new slot. -/
  | copied (np : Slot)
  /-- `fork`, about to call `change_queue`. -/
  | queueing (pid targetQueue : Word)
  /-- `change_queue`, with what `get_proc_by_pid` returned. -/
  | located (p : Option Slot) (targetQueue : Word)
  deriving DecidableEq

/-- How far the aging pass of CPU 0 has got.  `seen` is the record of the slot as the scan found
it; the code does not keep it and no step reads it. -/
inductive Aging
  | idle
  | scan (p : Nat)
  | testSjf (p : Slot) (seen : Proc)
  | testFcfs (p : Slot) (seen : Proc)
  | readPid (p : Slot) (seen : Proc) (target : Level)
  | locate (p : Slot) (seen : Proc) (pid : Word) (target : Level)
  | store (p : Slot) (seen : Proc) (q : Option Slot) (target : Level)
  | rest
  deriving DecidableEq

namespace Kernel

def takeSlot (k : Kernel) : Option (Slot × Kernel) :=
  ((List.finRange nproc).find? fun p => (k.proc p).state == .unused).map fun p =>
    (p, { k with nextpid := k.nextpid + 1 }.setProc p
      { (k.proc p).clearUsedSyscalls with state := .embryo, pid := k.nextpid })

def initSlot (k : Kernel) (np : Slot) : Kernel :=
  k.setProc np { k.proc np with ti := TimeInfo.init k.ticks }

def freeSlot (k : Kernel) (np : Slot) : Kernel :=
  k.setProc np { k.proc np with state := .unused }

def setParent (k : Kernel) (np curproc : Slot) : Kernel :=
  k.setProc np { k.proc np with parent := some curproc }

def setRunnable (k : Kernel) (np : Slot) : Kernel :=
  k.setProc np { k.proc np with state := .runnable }

/-- The critical section of `change_queue`; the pointer may be null. -/
def storeQueue (k : Kernel) (p : Option Slot) (targetQueue : Word) : Kernel :=
  match p with
  | some p =>
    k.setProc p { k.proc p with
      ti := { (k.proc p).ti with queue := targetQueue, enterQueueTime := k.ticks } }
  | none => k

def starving (k : Kernel) (p : Slot) : Bool :=
  (k.proc p).state == .runnable && (k.proc p).ti.queue != Level.rr.code && k.starved (k.proc p)

def timerRest (k : Kernel) (c : Fin ncpu) (user : Bool) : Option Kernel :=
  match (k.cpus c).proc with
  | none => some k
  | some p =>
    if (k.proc p).killed && user then k.exit c p
    else if (k.proc p).state = .running then some (k.chargeTick c p)
    else some k

end Kernel

def Aging.next (k : Kernel) : Aging → Option (Kernel × Aging)
  | idle | rest => none
  | scan p =>
    match (List.finRange nproc).find? fun q => decide (p ≤ q.val) && k.starving q with
    | some q => some (k, testSjf q (k.proc q))
    | none => some (k, rest)
  | testSjf p seen =>
    if (k.proc p).ti.queue = Level.sjf.code then some (k, readPid p seen .rr)
    else some (k, testFcfs p seen)
  | testFcfs p seen =>
    if (k.proc p).ti.queue = Level.fcfs.code then some (k, readPid p seen .sjf)
    else some (k, scan (p + 1))
  | readPid p seen target => some (k, locate p seen (k.proc p).pid target)
  | locate p seen pid target => some (k, store p seen (k.getProcByPid pid) target)
  | store p _ q target => some (k.storeQueue q target.code, scan (p + 1))

structure Smp where
  kernel : Kernel
  ctl : Slot → Ctl
  aging : Aging
  deriving DecidableEq

inductive Act
  | schedule (c : Fin ncpu)
  | tick
  | age
  | timer (c : Fin ncpu) (user : Bool)
  | syscall (c : Fin ncpu) (num : Word)
  | allocproc (c : Fin ncpu)
  | kstack (c : Fin ncpu) (ok : Bool)
  | copyuvm (c : Fin ncpu) (ok : Bool)
  | runnable (c : Fin ncpu)
  | exit (c : Fin ncpu)
  | wait (c : Fin ncpu)
  | sleep (c : Fin ncpu) (chan : Chan)
  | wakeup (chan : Chan)
  | kill (pid : Word)
  /-- A fault in user space, for which `trap` kills the process. -/
  | fault (c : Fin ncpu)
  | getProcByPid (c : Fin ncpu) (pid targetQueue : Word)
  | changeQueue (c : Fin ncpu)
  | setInitialBurstConfidence (c : Fin ncpu) (pid burst confidence : Word)
  deriving DecidableEq, Repr

namespace Smp

/-- The process executing on CPU `c`.  While CPU 0 is in the aging pass of a trap, the process
it interrupted is not. -/
def current (s : Smp) (c : Fin ncpu) : Option Slot :=
  if c = 0 ∧ s.aging ≠ .idle then none else (s.kernel.cpus c).proc

def setCtl (s : Smp) (p : Slot) (x : Ctl) : Smp := { s with ctl := Function.update s.ctl p x }

def At (s : Smp) (c : Fin ncpu) (p : Slot) (x : Ctl) : Prop := s.current c = some p ∧ s.ctl p = x

def IsProc : Chan → Prop
  | .proc _ => True
  | _ => False

instance : DecidablePred IsProc
  | .proc _ => .isTrue trivial
  | .ticks => .isFalse id
  | .addr _ => .isFalse id

def UserClear (s : Smp) (c : Fin ncpu) (user : Bool) : Prop :=
  user = true → ∀ p, (s.kernel.cpus c).proc = some p → s.ctl p = .clear

instance (s : Smp) (c : Fin ncpu) (user : Bool) : Decidable (s.UserClear c user) :=
  inferInstanceAs (Decidable (_ → _))

/-- One step.  `none` is a step that cannot be taken.  Only `wait` sleeps on the address of a
process. -/
def step (s : Smp) : Act → Option Smp
  | .schedule c =>
    if (s.kernel.cpus c).proc = none ∧ (c = 0 → s.aging = .idle) then
      some { s with kernel := s.kernel.schedule c }
    else none
  | .tick =>
    if s.aging = .idle then
      some { s with
        kernel := { s.kernel with ticks := s.kernel.ticks + 1 }.wakeup .ticks
        aging := .scan 0 }
    else none
  | .age => (s.aging.next s.kernel).map fun r => { s with kernel := r.1, aging := r.2 }
  | .timer c user =>
    if (c = 0 → s.aging = .rest) ∧ s.UserClear c user then
      (s.kernel.timerRest c user).map fun k =>
        { s with kernel := k, aging := if c = 0 then .idle else s.aging }
    else none
  | .syscall c num => do
    let p ← s.current c
    if s.ctl p = .clear ∧ accepted num ∧
        (s.kernel.proc p).word (num.toNat - 1) ≠ BitVec.intMax 32 then
      some { s with kernel := s.kernel.setProc p ((s.kernel.proc p).countSyscall num) }
    else none
  | .allocproc c => do
    let p ← s.current c
    if s.ctl p = .clear then
      match s.kernel.takeSlot with
      | some (np, k) => some ({ s with kernel := k }.setCtl p (.allocated np))
      | none => some s
    else none
  | .kstack c ok => do
    let p ← s.current c
    match s.ctl p with
    | .allocated np =>
      if ok then some ({ s with kernel := s.kernel.initSlot np }.setCtl p (.stacked np))
      else some ({ s with kernel := s.kernel.freeSlot np }.setCtl p .clear)
    | _ => none
  | .copyuvm c ok => do
    let p ← s.current c
    match s.ctl p with
    | .stacked np =>
      if ok then some ({ s with kernel := s.kernel.setParent np p }.setCtl p (.copied np))
      else some ({ s with kernel := s.kernel.freeSlot np }.setCtl p .clear)
    | _ => none
  | .runnable c => do
    let p ← s.current c
    match s.ctl p with
    | .copied np =>
      let pid := (s.kernel.proc np).pid
      some ({ s with kernel := s.kernel.setRunnable np }.setCtl p
        (if pid = 2 then .queueing pid Level.rr.code else .clear))
    | _ => none
  | .exit c => do
    let p ← s.current c
    if s.ctl p = .clear then (s.kernel.exit c p).map fun k => { s with kernel := k } else none
  | .wait c => do
    let p ← s.current c
    if s.ctl p = .clear then some { s with kernel := s.kernel.wait c p } else none
  | .sleep c chan => do
    let p ← s.current c
    if s.ctl p = .clear ∧ ¬ IsProc chan then some { s with kernel := s.kernel.sleep c p chan }
    else none
  | .wakeup chan => some { s with kernel := s.kernel.wakeup chan }
  | .kill pid => some { s with kernel := s.kernel.kill pid }
  | .fault c => do
    let p ← s.current c
    if s.ctl p = .clear then
      some { s with kernel := s.kernel.setProc p { s.kernel.proc p with killed := true } }
    else none
  | .getProcByPid c pid target => do
    let p ← s.current c
    if s.ctl p = .clear ∨ s.ctl p = .queueing pid target then
      some (s.setCtl p (.located (s.kernel.getProcByPid pid) target))
    else none
  | .changeQueue c => do
    let p ← s.current c
    match s.ctl p with
    | .located q target => some ({ s with kernel := s.kernel.storeQueue q target }.setCtl p .clear)
    | _ => none
  | .setInitialBurstConfidence c pid burst confidence => do
    let p ← s.current c
    if s.ctl p = .clear then
      some { s with kernel := s.kernel.setInitialBurstConfidence pid burst confidence }
    else none

def Step (s : Smp) (a : Act) (t : Smp) : Prop := s.step a = some t

def boot : Smp := ⟨.boot, fun _ => .clear, .idle⟩

inductive Did (s : Smp) : Act → Smp → Prop
  | schedule {c} : (s.kernel.cpus c).proc = none → (c = 0 → s.aging = .idle) →
      Did s (.schedule c) { s with kernel := s.kernel.schedule c }
  | tick : s.aging = .idle →
      Did s .tick { s with
        kernel := { s.kernel with ticks := s.kernel.ticks + 1 }.wakeup .ticks
        aging := .scan 0 }
  | age {k x} : s.aging.next s.kernel = some (k, x) → Did s .age { s with kernel := k, aging := x }
  | timer {c user k} : (c = 0 → s.aging = .rest) → s.UserClear c user →
      s.kernel.timerRest c user = some k →
      Did s (.timer c user) { s with kernel := k, aging := if c = 0 then .idle else s.aging }
  | syscall {c num p} : s.At c p .clear → accepted num →
      (s.kernel.proc p).word (num.toNat - 1) ≠ BitVec.intMax 32 →
      Did s (.syscall c num)
        { s with kernel := s.kernel.setProc p ((s.kernel.proc p).countSyscall num) }
  | allocproc {c p np k} : s.At c p .clear → s.kernel.takeSlot = some (np, k) →
      Did s (.allocproc c) ({ s with kernel := k }.setCtl p (.allocated np))
  | full {c p} : s.At c p .clear → s.kernel.takeSlot = none → Did s (.allocproc c) s
  | kstack {c p np} : s.At c p (.allocated np) →
      Did s (.kstack c true) ({ s with kernel := s.kernel.initSlot np }.setCtl p (.stacked np))
  | noKstack {c p np} : s.At c p (.allocated np) →
      Did s (.kstack c false) ({ s with kernel := s.kernel.freeSlot np }.setCtl p .clear)
  | copyuvm {c p np} : s.At c p (.stacked np) →
      Did s (.copyuvm c true) ({ s with kernel := s.kernel.setParent np p }.setCtl p (.copied np))
  | noCopyuvm {c p np} : s.At c p (.stacked np) →
      Did s (.copyuvm c false) ({ s with kernel := s.kernel.freeSlot np }.setCtl p .clear)
  | runnable {c p np} : s.At c p (.copied np) →
      Did s (.runnable c) ({ s with kernel := s.kernel.setRunnable np }.setCtl p
        (if (s.kernel.proc np).pid = 2 then .queueing (s.kernel.proc np).pid Level.rr.code
        else .clear))
  | exit {c p k} : s.At c p .clear → s.kernel.exit c p = some k →
      Did s (.exit c) { s with kernel := k }
  | wait {c p} : s.At c p .clear → Did s (.wait c) { s with kernel := s.kernel.wait c p }
  | sleep {c p chan} : s.At c p .clear → ¬ IsProc chan →
      Did s (.sleep c chan) { s with kernel := s.kernel.sleep c p chan }
  | wakeup {chan} : Did s (.wakeup chan) { s with kernel := s.kernel.wakeup chan }
  | kill {pid} : Did s (.kill pid) { s with kernel := s.kernel.kill pid }
  | fault {c p} : s.At c p .clear →
      Did s (.fault c) { s with kernel := s.kernel.setProc p { s.kernel.proc p with killed := true } }
  | getProcByPid {c p pid target} : s.current c = some p →
      s.ctl p = .clear ∨ s.ctl p = .queueing pid target →
      Did s (.getProcByPid c pid target)
        (s.setCtl p (.located (s.kernel.getProcByPid pid) target))
  | changeQueue {c p q target} : s.At c p (.located q target) →
      Did s (.changeQueue c) ({ s with kernel := s.kernel.storeQueue q target }.setCtl p .clear)
  | setInitialBurstConfidence {c p pid burst confidence} : s.At c p .clear →
      Did s (.setInitialBurstConfidence c pid burst confidence)
        { s with kernel := s.kernel.setInitialBurstConfidence pid burst confidence }

theorem Step.did (h : Step s a t) : Did s a t := by
  unfold Step at h
  cases a with
  | schedule c =>
    simp only [step] at h
    split_ifs at h with hc
    cases h
    exact .schedule hc.1 hc.2
  | tick =>
    simp only [step] at h
    split_ifs at h with hidle
    cases h
    exact .tick hidle
  | age =>
    obtain ⟨⟨k, x⟩, hnext, rfl⟩ := Option.map_eq_some_iff.mp h
    exact .age hnext
  | timer c user =>
    simp only [step] at h
    split at h
    case isTrue hc =>
      obtain ⟨k, hk, rfl⟩ := Option.map_eq_some_iff.mp h
      exact .timer hc.1 hc.2 hk
    case isFalse => cases h
  | syscall c num =>
    obtain ⟨p, hp, h⟩ := Option.bind_eq_some_iff.mp h
    split_ifs at h with hc
    cases h
    exact .syscall ⟨hp, hc.1⟩ hc.2.1 hc.2.2
  | allocproc c =>
    obtain ⟨p, hp, h⟩ := Option.bind_eq_some_iff.mp h
    split_ifs at h with hc
    cases htake : s.kernel.takeSlot with
    | none =>
      rw [htake] at h
      cases h
      exact .full ⟨hp, hc⟩ htake
    | some r =>
      rw [htake] at h
      cases h
      exact .allocproc ⟨hp, hc⟩ htake
  | kstack c ok =>
    obtain ⟨p, hp, h⟩ := Option.bind_eq_some_iff.mp h
    split at h
    case h_1 np hctl =>
      cases ok with
      | true => cases h; exact .kstack ⟨hp, hctl⟩
      | false => cases h; exact .noKstack ⟨hp, hctl⟩
    case h_2 => cases h
  | copyuvm c ok =>
    obtain ⟨p, hp, h⟩ := Option.bind_eq_some_iff.mp h
    split at h
    case h_1 np hctl =>
      cases ok with
      | true => cases h; exact .copyuvm ⟨hp, hctl⟩
      | false => cases h; exact .noCopyuvm ⟨hp, hctl⟩
    case h_2 => cases h
  | runnable c =>
    obtain ⟨p, hp, h⟩ := Option.bind_eq_some_iff.mp h
    split at h
    case h_1 np hctl => cases h; exact .runnable ⟨hp, hctl⟩
    case h_2 => cases h
  | exit c =>
    obtain ⟨p, hp, h⟩ := Option.bind_eq_some_iff.mp h
    split_ifs at h with hc
    obtain ⟨k, hk, rfl⟩ := Option.map_eq_some_iff.mp h
    exact .exit ⟨hp, hc⟩ hk
  | wait c =>
    obtain ⟨p, hp, h⟩ := Option.bind_eq_some_iff.mp h
    split_ifs at h with hc
    cases h
    exact .wait ⟨hp, hc⟩
  | sleep c chan =>
    obtain ⟨p, hp, h⟩ := Option.bind_eq_some_iff.mp h
    split_ifs at h with hc
    cases h
    exact .sleep ⟨hp, hc.1⟩ hc.2
  | wakeup chan => cases h; exact .wakeup
  | kill pid => cases h; exact .kill
  | fault c =>
    obtain ⟨p, hp, h⟩ := Option.bind_eq_some_iff.mp h
    split_ifs at h with hc
    cases h
    exact .fault ⟨hp, hc⟩
  | getProcByPid c pid target =>
    obtain ⟨p, hp, h⟩ := Option.bind_eq_some_iff.mp h
    split_ifs at h with hc
    cases h
    exact .getProcByPid hp hc
  | changeQueue c =>
    obtain ⟨p, hp, h⟩ := Option.bind_eq_some_iff.mp h
    split at h
    case h_1 q target hctl => cases h; exact .changeQueue ⟨hp, hctl⟩
    case h_2 => cases h
  | setInitialBurstConfidence c pid burst confidence =>
    obtain ⟨p, hp, h⟩ := Option.bind_eq_some_iff.mp h
    split_ifs at h with hc
    cases h
    exact .setInitialBurstConfidence ⟨hp, hc⟩

theorem Did.step (h : Did s a t) : Step s a t := by
  unfold Step
  cases h with
  | schedule hproc hidle => rw [Smp.step, if_pos ⟨hproc, hidle⟩]
  | tick hidle => rw [Smp.step, if_pos hidle]
  | age hnext => rw [Smp.step, hnext, Option.map_some]
  | timer hrest hclear hk => rw [Smp.step, if_pos ⟨hrest, hclear⟩, hk, Option.map_some]
  | syscall hat hacc hword =>
    rw [Smp.step, hat.1, Option.bind_eq_bind, Option.bind_some, if_pos ⟨hat.2, hacc, hword⟩]
  | allocproc hat htake =>
    rw [Smp.step, hat.1, Option.bind_eq_bind, Option.bind_some, if_pos hat.2, htake]
  | full hat htake => rw [Smp.step, hat.1, Option.bind_eq_bind, Option.bind_some, if_pos hat.2, htake]
  | kstack hat => simp [Smp.step, hat.1, hat.2]
  | noKstack hat => simp [Smp.step, hat.1, hat.2]
  | copyuvm hat => simp [Smp.step, hat.1, hat.2]
  | noCopyuvm hat => simp [Smp.step, hat.1, hat.2]
  | runnable hat => simp [Smp.step, hat.1, hat.2]
  | exit hat hk => simp [Smp.step, hat.1, hat.2, hk]
  | wait hat => simp [Smp.step, hat.1, hat.2]
  | sleep hat hchan => simp [Smp.step, hat.1, hat.2, hchan]
  | wakeup => rfl
  | kill => rfl
  | fault hat => simp [Smp.step, hat.1, hat.2]
  | getProcByPid hp hctl => rw [Smp.step, hp, Option.bind_eq_bind, Option.bind_some, if_pos hctl]
  | changeQueue hat => simp [Smp.step, hat.1, hat.2]
  | setInitialBurstConfidence hat => simp [Smp.step, hat.1, hat.2]

end Smp

/-! The steps of the coarser model are runs of this one. -/

namespace Kernel

variable {k : Kernel}

theorem timer_eq_timerRest (k : Kernel) (c : Fin ncpu) (user : Bool) :
    k.timer c user = (k.clock c).timerRest c user := rfl

theorem setProc_setProc (k : Kernel) (p : Slot) (x y : Proc) :
    (k.setProc p x).setProc p y = k.setProc p y := by
  simp [setProc]

theorem allocproc_eq_takeSlot (k : Kernel) (kstack : Bool) :
    k.allocproc kstack = match k.takeSlot with
      | none => (none, k)
      | some (np, k') => if kstack then (some np, k'.initSlot np) else (none, k'.freeSlot np) := by
  unfold allocproc takeSlot
  split
  case h_1 hnone => rw [hnone, Option.map_none]
  case h_2 p hp =>
    rw [hp, Option.map_some]
    cases kstack
    · simp only [freeSlot, Bool.false_eq_true, if_false, setProc_setProc, setProc_self]
    · simp only [initSlot, if_true, setProc_setProc, setProc_self]
      rfl

theorem setRunnable_setParent (k : Kernel) (np p : Slot) :
    (k.setParent np p).setRunnable np =
      k.setProc np { k.proc np with parent := some p, state := .runnable } := by
  simp only [setParent, setRunnable, setProc_setProc, setProc_self]

theorem starving_iff :
    k.starving p ↔ ¬ ((k.proc p).state ≠ .runnable ∨ (k.proc p).ti.queue = Level.rr.code) ∧
      k.starved (k.proc p) := by
  simp [starving]

theorem agingSlot_of_not_starving (h : ¬ k.starving p) : k.agingSlot p = k := by
  rw [starving_iff, not_and] at h
  unfold agingSlot
  simp only
  split
  · rfl
  · rename_i hcand
    rw [if_neg (h hcand)]

theorem agingSlot_of_starving (h : k.starving p) :
    k.agingSlot p =
      if (k.proc p).ti.queue = Level.sjf.code then k.changeQueue (k.proc p).pid Level.rr.code
      else if (k.proc p).ti.queue = Level.fcfs.code then k.changeQueue (k.proc p).pid Level.sjf.code
      else k := by
  rw [starving_iff] at h
  simp only [agingSlot]
  rw [if_neg h.1, if_pos h.2]

end Kernel

namespace Smp

def settled (k : Kernel) : Smp := ⟨k, fun _ => .clear, .idle⟩

def ageing (k : Kernel) (x : Aging) : Smp := ⟨k, fun _ => .clear, x⟩

variable {k k' : Kernel}

theorem ageing_step (h : x.next k = some (k', y)) : Step (ageing k x) .age (ageing k' y) := by
  simp [Step, step, ageing, h]

theorem next_scan_of_not_starving (h : ¬ k.starving p) :
    (Aging.scan p).next k = (Aging.scan (p + 1)).next k := by
  have hsame : (fun q : Slot => decide (p.val ≤ q.val) && k.starving q) =
      fun q => decide (p.val + 1 ≤ q.val) && k.starving q := by
    funext q
    rcases Nat.lt_trichotomy p.val q.val with hlt | heq | hgt
    · simp [hlt.le, Nat.succ_le_of_lt hlt]
    · obtain rfl : p = q := Fin.ext heq
      simp [h]
    · simp [not_le.mpr hgt, not_le.mpr (Nat.lt_succ_of_lt hgt)]
  simp only [Aging.next, hsame]

theorem finRange_split (p : Fin n) :
    List.finRange n = (List.finRange n).take p ++ p :: (List.finRange n).drop (p + 1) := by
  conv_lhs => rw [← List.take_append_drop p.val (List.finRange n)]
  rw [List.drop_eq_getElem_cons (by simp)]
  simp

theorem next_scan_of_starving (h : k.starving p) :
    (Aging.scan p).next k = some (k, .testSjf p (k.proc p)) := by
  have hfind : (List.finRange nproc).find? (fun q => decide (p.val ≤ q.val) && k.starving q) = some p := by
    rw [List.find?_eq_some_iff_append]
    refine ⟨by simp [h], _, _, finRange_split p, fun q hq => ?_⟩
    obtain ⟨i, hi, rfl⟩ := List.mem_take_iff_getElem.mp hq
    have hlt : i < p.val := by
      have := hi
      simp at this
      omega
    simp [not_le.mpr hlt]
  simp only [Aging.next, hfind]

theorem reaches_agingSlot (h : k.starving p) :
    Reaches Step (ageing k (.testSjf p (k.proc p))) (ageing (k.agingSlot p) (.scan (p + 1))) := by
  have hmove : ∀ l : Level, Reaches Step (ageing k (.readPid p (k.proc p) l))
      (ageing (k.changeQueue (k.proc p).pid l.code) (.scan (p + 1))) := fun l =>
    .head (ageing_step rfl) (.head (ageing_step rfl) (.single (ageing_step rfl)))
  rw [Kernel.agingSlot_of_starving h]
  split_ifs with hsjf hfcfs
  · exact .head (ageing_step (if_pos hsjf)) (hmove .rr)
  · exact .head (ageing_step (if_neg hsjf)) (.head (ageing_step (if_pos hfcfs)) (hmove .sjf))
  · exact .head (ageing_step (if_neg hsjf)) (.single (ageing_step (if_neg hfcfs)))

theorem reaches_aging (n p : Nat) (hp : p + n = nproc) (k : Kernel) :
    ∃ t, (Aging.scan p).next k = some t ∧
      Reaches Step (ageing t.1 t.2)
        (ageing (((List.finRange nproc).drop p).foldl Kernel.agingSlot k) .rest) := by
  induction n generalizing p k with
  | zero =>
    have hnone : (List.finRange nproc).find? (fun q => decide (p ≤ q.val) && k.starving q) = none := by
      rw [List.find?_eq_none]
      intro q _
      have := q.isLt
      simp
      omega
    refine ⟨(k, .rest), by simp [Aging.next, hnone], ?_⟩
    rw [List.drop_eq_nil_of_le (by simp; omega)]
    exact .refl _
  | succ n ih =>
    obtain ⟨slot, rfl⟩ : ∃ slot : Slot, slot.val = p := ⟨⟨p, by omega⟩, rfl⟩
    have hdrop : (List.finRange nproc).drop slot.val = slot :: (List.finRange nproc).drop (slot + 1) := by
      rw [List.drop_eq_getElem_cons (by simp)]
      simp
    rw [hdrop, List.foldl_cons]
    by_cases h : k.starving slot
    · obtain ⟨t, ht, hrest⟩ := ih (slot + 1) (by omega) (k.agingSlot slot)
      exact ⟨_, next_scan_of_starving h, (reaches_agingSlot h).trans (.head (ageing_step ht) hrest)⟩
    · obtain ⟨t, ht, hrest⟩ := ih (slot + 1) (by omega) k
      rw [Kernel.agingSlot_of_not_starving h, next_scan_of_not_starving h]
      exact ⟨t, ht, hrest⟩

theorem timerRest_step (hx : c = 0 → x = .rest)
    (h : k.timerRest c user = some k') :
    Step (ageing k x) (.timer c user) (ageing k' (if c = 0 then .idle else x)) := by
  have hclear : (ageing k x).UserClear c user := fun _ _ _ => rfl
  rw [Step, step, if_pos ⟨hx, hclear⟩]
  simp [ageing, h]

theorem reaches_timer (h : k.timer c user = some k') :
    Reaches Step (settled k) (settled k') := by
  rw [Kernel.timer_eq_timerRest] at h
  by_cases hc : c = 0
  · subst hc
    simp only [Kernel.clock_zero, Kernel.aging] at h
    obtain ⟨t, ht, hpass⟩ := reaches_aging nproc 0 rfl
      ({ k with ticks := k.ticks + 1 }.wakeup .ticks)
    have htick : Step (settled k) .tick
        (ageing ({ k with ticks := k.ticks + 1 }.wakeup .ticks) (.scan 0)) := rfl
    have hrest := timerRest_step (x := .rest) (fun _ => rfl) h
    exact .head htick (.head (ageing_step ht) (hpass.trans (.single hrest)))
  · have hclock : k.clock c = k := if_neg hc
    rw [hclock] at h
    have hrest := timerRest_step (x := .idle) (fun h => absurd h hc) h
    rw [if_neg hc] at hrest
    exact .single hrest

def inCall (k : Kernel) (p : Slot) (x : Ctl) : Smp := (settled k).setCtl p x

theorem inCall_clear (k : Kernel) (p : Slot) : inCall k p .clear = settled k := by
  simp [inCall, setCtl, settled]

theorem inCall_at (hp : (k.cpus c).proc = some p) (x : Ctl) :
    (inCall k p x).At c p x := by
  simp [At, current, inCall, setCtl, settled, hp]

theorem inCall_step {p : Slot} {x y : Ctl} {a : Act}
    (h : Did (inCall k p x) a ({ inCall k p x with kernel := k' }.setCtl p y)) :
    Step (inCall k p x) a (inCall k' p y) := by
  have hend : { inCall k p x with kernel := k' }.setCtl p y = inCall k' p y := by
    simp [inCall, setCtl, settled]
  rw [← hend]
  exact h.step

theorem reaches_changeQueue {c : Fin ncpu} {p : Slot} (hp : (k.cpus c).proc = some p) (pid target : Word)
    {x : Ctl} (hx : x = .clear ∨ x = .queueing pid target) :
    Reaches Step (inCall k p x) (settled (k.changeQueue pid target)) := by
  have hat := inCall_at hp x
  have hfind : Step (inCall k p x) (.getProcByPid c pid target)
      (inCall k p (.located (k.getProcByPid pid) target)) :=
    inCall_step (.getProcByPid hat.1 (by rwa [hat.2]))
  have hstore := inCall_step (.changeQueue (inCall_at hp (.located (k.getProcByPid pid) target)))
  rw [inCall_clear] at hstore
  exact .head hfind (.single hstore)

theorem takeSlot_cpus (h : k.takeSlot = some (np, k')) : k'.cpus = k.cpus := by
  obtain ⟨p, -, heq⟩ := Option.map_eq_some_iff.mp h
  cases heq
  rfl

theorem reaches_setRunnable (hp : (k.cpus c).proc = some p) (np : Slot) :
    Reaches Step (inCall k p (.copied np))
      (settled (if (k.proc np).pid = 2 then
        (k.setRunnable np).changeQueue (k.proc np).pid Level.rr.code else k.setRunnable np)) := by
  have hrun : Step (inCall k p (.copied np)) (.runnable c) (inCall (k.setRunnable np) p
      (if (k.proc np).pid = 2 then .queueing (k.proc np).pid Level.rr.code else .clear)) :=
    inCall_step (.runnable (inCall_at hp (.copied np)))
  have hp' : ((k.setRunnable np).cpus c).proc = some p := hp
  refine .head hrun ?_
  by_cases htwo : (k.proc np).pid = 2
  · rw [if_pos htwo, if_pos htwo]
    exact reaches_changeQueue hp' _ _ (.inr rfl)
  · rw [if_neg htwo, if_neg htwo, inCall_clear]
    exact .refl _

theorem reaches_fork (hp : (k.cpus c).proc = some p) (kstack pgdir : Bool) :
    Reaches Step (settled k) (settled (k.fork p kstack pgdir)) := by
  unfold Kernel.fork
  rw [Kernel.allocproc_eq_takeSlot, ← inCall_clear k p]
  cases htake : k.takeSlot with
  | none =>
    simp only [inCall_clear]
    exact .refl _
  | some r =>
    obtain ⟨np, k₁⟩ := r
    have hp₁ : (k₁.cpus c).proc = some p := by rw [takeSlot_cpus htake, hp]
    refine .head (inCall_step (.allocproc (inCall_at hp .clear) htake)) ?_
    cases kstack with
    | false =>
      have hfree : Step (inCall k₁ p (.allocated np)) (.kstack c false) (inCall (k₁.freeSlot np) p .clear) :=
        inCall_step (.noKstack (inCall_at hp₁ (.allocated np)))
      rw [inCall_clear] at hfree
      exact .single hfree
    | true =>
      have hp₂ : ((k₁.initSlot np).cpus c).proc = some p := hp₁
      have hstack : Step (inCall k₁ p (.allocated np)) (.kstack c true)
          (inCall (k₁.initSlot np) p (.stacked np)) :=
        inCall_step (.kstack (inCall_at hp₁ (.allocated np)))
      refine .head hstack ?_
      simp only [if_true]
      cases pgdir with
      | false =>
        have hfree : Step (inCall (k₁.initSlot np) p (.stacked np)) (.copyuvm c false)
            (inCall ((k₁.initSlot np).freeSlot np) p .clear) :=
          inCall_step (.noCopyuvm (inCall_at hp₂ (.stacked np)))
        rw [inCall_clear] at hfree
        exact .single hfree
      | true =>
        have hp₃ : (((k₁.initSlot np).setParent np p).cpus c).proc = some p := hp₁
        have hcopy : Step (inCall (k₁.initSlot np) p (.stacked np)) (.copyuvm c true)
            (inCall ((k₁.initSlot np).setParent np p) p (.copied np)) :=
          inCall_step (.copyuvm (inCall_at hp₂ (.stacked np)))
        have hend := reaches_setRunnable hp₃ np
        have hpid : (((k₁.initSlot np).setParent np p).proc np).pid =
            ((((k₁.initSlot np).setParent np p).setRunnable np).proc np).pid := by
          simp [Kernel.setRunnable]
        rw [hpid, Kernel.setRunnable_setParent] at hend
        exact .head hcopy hend

theorem reaches_of_step (h : Kernel.Step k e k')
    (hchan : ∀ c chan, e = .sleep c chan → ¬ IsProc chan) : Reaches Step (settled k) (settled k') := by
  have hat : ∀ {c p}, (k.cpus c).proc = some p → (settled k).At c p .clear := by
    intro c p hp
    rw [← inCall_clear k p]
    exact inCall_at hp .clear
  cases e with
  | timer c user => exact reaches_timer h
  | schedule c =>
    simp only [Kernel.Step, Kernel.step] at h
    split_ifs at h with hc
    cases h
    exact .single (Did.schedule hc fun _ => rfl).step
  | syscall c num =>
    obtain ⟨p, hp, h⟩ := Option.bind_eq_some_iff.mp h
    simp only at h
    split at h
    case isTrue hcond =>
      simp only [Bool.and_eq_true, bne_iff_ne] at hcond
      cases h
      exact .single (Did.syscall (hat hp) hcond.1 hcond.2).step
    case isFalse => cases h
  | fork c kstack pgdir =>
    obtain ⟨p, hp, h⟩ := Option.bind_eq_some_iff.mp h
    cases h
    exact reaches_fork hp kstack pgdir
  | exit c =>
    obtain ⟨p, hp, h⟩ := Option.bind_eq_some_iff.mp h
    exact .single (Did.exit (hat hp) h).step
  | wait c =>
    obtain ⟨p, hp, h⟩ := Option.bind_eq_some_iff.mp h
    cases h
    exact .single (Did.wait (hat hp)).step
  | sleep c chan =>
    obtain ⟨p, hp, h⟩ := Option.bind_eq_some_iff.mp h
    cases h
    exact .single (Did.sleep (hat hp) (hchan c chan rfl)).step
  | wakeup chan => cases h; exact .single Did.wakeup.step
  | kill pid => cases h; exact .single Did.kill.step
  | changeQueue c pid target =>
    obtain ⟨p, hp, h⟩ := Option.bind_eq_some_iff.mp h
    cases h
    rw [← inCall_clear k p]
    exact reaches_changeQueue hp pid target (.inl rfl)
  | setInitialBurstConfidence c pid burst confidence =>
    obtain ⟨p, hp, h⟩ := Option.bind_eq_some_iff.mp h
    cases h
    exact .single (Did.setInitialBurstConfidence (hat hp)).step

/-- What was proved of all runs of this model holds of the runs of the coarser one. -/
theorem reaches_of_run (h : Run Kernel.Step k es k')
    (hchan : ∀ e ∈ es, ∀ c chan, e.2 = .sleep c chan → ¬ IsProc chan) :
    Reaches Step (settled k) (settled k') := by
  induction h with
  | nil => exact .refl _
  | cons hstep _ ih =>
    obtain ⟨hhead, htail⟩ := List.forall_mem_cons.mp hchan
    exact (reaches_of_step hstep hhead).trans (ih htail)

theorem reaches_of_run_fork :
    let es := trace Kernel.step .boot [.schedule 0, .schedule 0, .fork 0 true true, .timer 0 true, .wait 0]
    ∃ k, Run Kernel.Step .boot es k ∧ Reaches Step (settled .boot) (settled k) := by
  intro es
  obtain ⟨k, hrun, -⟩ := Run.of_exec_any Kernel.step .boot
    [.schedule 0, .schedule 0, .fork 0 true true, .timer 0 true, .wait 0] (fun _ => true) (by decide +kernel)
  refine ⟨k, hrun, reaches_of_run hrun fun e he c chan h => ?_⟩
  have hmem := mem_trace he
  rw [h] at hmem
  simp at hmem

end Smp

end Xv6
