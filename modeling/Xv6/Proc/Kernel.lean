import Xv6.Proc.Syscall
import Xv6.Proc.Scheduler

/-! The process side of the kernel as a state machine.  An event is one critical section of
`ptable.lock`, one timer trap or one call; what a process does between two of them is not
seen by the scheduler. -/

namespace Xv6

structure Kernel where
  proc : Table
  nextpid : Word
  ticks : Word
  initproc : Option Slot
  cpus : Fin ncpu → Cpu
  deriving DecidableEq

def Cpu.zero : Cpu := ⟨none, 0, 0, 0, Fin.last 63⟩

def Level.ofCode (w : Word) : Option Level :=
  if w = Level.rr.code then some .rr
  else if w = Level.sjf.code then some .sjf
  else if w = Level.fcfs.code then some .fcfs
  else none

def Cpu.charge (c : Cpu) : Level → Cpu
  | .rr => { c with rrRemainTime := c.rrRemainTime - 1 }
  | .sjf => { c with sjfRemainTime := c.sjfRemainTime - 1 }
  | .fcfs => { c with fcfsRemainTime := c.fcfsRemainTime - 1 }

def Cpu.updateRemainTimes (c : Cpu) (queue : Word) : Cpu :=
  match Level.ofCode queue with
  | some l => c.charge l
  | none => c

def TimeInfo.init (ticks : Word) : TimeInfo where
  queue := Level.fcfs.code
  ticksUsed := 0
  burstTime := defaultBurstTime
  creationTime := ticks
  enterQueueTime := ticks
  lastRunTime := 0
  confidence := defaultConfidence

def wakeup1 (t : Table) (chan : Chan) : Table := fun p =>
  if (t p).state = .sleeping ∧ (t p).chan = some chan then { t p with state := .runnable } else t p

namespace Kernel

def setProc (k : Kernel) (p : Slot) (q : Proc) : Kernel :=
  { k with proc := Function.update k.proc p q }

def setCpu (k : Kernel) (c : Fin ncpu) (x : Cpu) : Kernel :=
  { k with cpus := Function.update k.cpus c x }

@[simp] theorem setProc_self (k : Kernel) (p : Slot) (q : Proc) : (k.setProc p q).proc p = q := by
  simp [setProc]

theorem setProc_of_ne (k : Kernel) (q : Proc) (h : r ≠ p) :
    (k.setProc p q).proc r = k.proc r := by
  simp [setProc, h]

@[simp] theorem setProc_cpus (k : Kernel) (p : Slot) (q : Proc) : (k.setProc p q).cpus = k.cpus := rfl

@[simp] theorem setCpu_proc (k : Kernel) (c : Fin ncpu) (x : Cpu) : (k.setCpu c x).proc = k.proc := rfl

@[simp] theorem setCpu_self (k : Kernel) (c : Fin ncpu) (x : Cpu) : (k.setCpu c x).cpus c = x := by
  simp [setCpu]

theorem setCpu_of_ne (k : Kernel) (x : Cpu) (h : d ≠ c) :
    (k.setCpu c x).cpus d = k.cpus d := by
  simp [setCpu, h]

def leaveCpu (k : Kernel) (c : Fin ncpu) : Kernel :=
  k.setCpu c { k.cpus c with proc := none }

def getProcByPid (k : Kernel) (pid : Word) : Option Slot :=
  (List.finRange nproc).find? fun p => (k.proc p).pid == pid

/-- A pid that no slot carries is not refused: the stores then go through a null pointer,
to page zero of the caller's own memory, and the table stays as it is. -/
def changeQueue (k : Kernel) (pid targetQueue : Word) : Kernel :=
  match k.getProcByPid pid with
  | some p =>
    k.setProc p { k.proc p with
      ti := { (k.proc p).ti with queue := targetQueue, enterQueueTime := k.ticks } }
  | none => k

def setInitialBurstConfidence (k : Kernel) (pid burst confidence : Word) : Kernel :=
  match k.getProcByPid pid with
  | some p =>
    k.setProc p { k.proc p with
      ti := { (k.proc p).ti with burstTime := burst, confidence := confidence } }
  | none => k

/-- `kstack` says whether `kalloc` finds a page.  A failure leaves the slot unused, with the
new pid still in it. -/
def allocproc (k : Kernel) (kstack : Bool) : Option Slot × Kernel :=
  match (List.finRange nproc).find? fun p => (k.proc p).state == .unused with
  | none => (none, k)
  | some p =>
    let q := { (k.proc p).clearUsedSyscalls with pid := k.nextpid }
    let k' := { k with nextpid := k.nextpid + 1 }
    if kstack then (some p, k'.setProc p { q with state := .embryo, ti := TimeInfo.init k.ticks })
    else (none, k'.setProc p { q with state := .unused })

def userinit (k : Kernel) : Kernel :=
  match k.allocproc true with
  | (some p, k') =>
    let k' := { k'.setProc p { k'.proc p with state := .runnable } with initproc := some p }
    k'.changeQueue (k'.proc p).pid Level.rr.code
  | (none, k') => k'

/-- `pgdir` says whether `copyuvm` succeeds. -/
def fork (k : Kernel) (curproc : Slot) (kstack pgdir : Bool) : Kernel :=
  match k.allocproc kstack with
  | (none, k') => k'
  | (some np, k') =>
    if pgdir then
      let k' := k'.setProc np { k'.proc np with parent := some curproc, state := .runnable }
      let pid := (k'.proc np).pid
      if pid = 2 then k'.changeQueue pid Level.rr.code else k'
    else k'.setProc np { k'.proc np with state := .unused }

def giveToInit (k : Kernel) (curproc : Slot) : Table := fun q =>
  if (k.proc q).parent = some curproc then { k.proc q with parent := k.initproc } else k.proc q

def reparent (k : Kernel) (curproc : Slot) : Table :=
  match k.initproc with
  | some i =>
    if ∃ q, (k.proc q).parent = some curproc ∧ (k.proc q).state = .zombie then
      wakeup1 (k.giveToInit curproc) (.proc i)
    else k.giveToInit curproc
  | none => k.giveToInit curproc

def wakeupParent (k : Kernel) (curproc : Slot) : Kernel :=
  match (k.proc curproc).parent with
  | some q => { k with proc := wakeup1 k.proc (.proc q) }
  | none => k

def exit (k : Kernel) (c : Fin ncpu) (p : Slot) : Option Kernel :=
  if k.initproc = some p then none
  else
    let t := (k.wakeupParent p).reparent p
    some (({ k with proc := t }.setProc p { t p with state := .zombie }).leaveCpu c)

def sleep (k : Kernel) (c : Fin ncpu) (p : Slot) (chan : Chan) : Kernel :=
  (k.setProc p { k.proc p with state := .sleeping, chan := some chan }).leaveCpu c

def wakeup (k : Kernel) (chan : Chan) : Kernel := { k with proc := wakeup1 k.proc chan }

/-- One pass of the loop of `wait`: reap a zombie child, give up, or sleep. -/
def wait (k : Kernel) (c : Fin ncpu) (p : Slot) : Kernel :=
  let child (q : Slot) : Bool := (k.proc q).parent == some p
  match (List.finRange nproc).find? fun q => child q && (k.proc q).state == .zombie with
  | some q => k.setProc q { k.proc q with pid := 0, parent := none, killed := false, state := .unused }
  | none =>
    if (List.finRange nproc).any child && !(k.proc p).killed then k.sleep c p (.proc p) else k

def kill (k : Kernel) (pid : Word) : Kernel :=
  match k.getProcByPid pid with
  | some p =>
    k.setProc p { k.proc p with
      killed := true
      state := if (k.proc p).state = .sleeping then .runnable else (k.proc p).state }
  | none => k

def starved (k : Kernel) (p : Proc) : Bool :=
  decide (starvationBoundry < (k.ticks - p.ti.lastRunTime).toNat) &&
    decide (starvationBoundry < (k.ticks - p.ti.enterQueueTime).toNat)

def agingSlot (k : Kernel) (p : Slot) : Kernel :=
  let q := k.proc p
  if q.state ≠ .runnable ∨ q.ti.queue = Level.rr.code then k
  else if k.starved q then
    if q.ti.queue = Level.sjf.code then k.changeQueue q.pid Level.rr.code
    else if q.ti.queue = Level.fcfs.code then k.changeQueue q.pid Level.sjf.code
    else k
  else k

def aging (k : Kernel) : Kernel := (List.finRange nproc).foldl agingSlot k

def clock (k : Kernel) (c : Fin ncpu) : Kernel :=
  if c = 0 then ({ k with ticks := k.ticks + 1 }.wakeup .ticks).aging else k

def yield (k : Kernel) (c : Fin ncpu) (p : Slot) : Kernel :=
  (k.setProc p { k.proc p with state := .runnable }).leaveCpu c

/-- The tick is charged to the queue the process is in now; the slice of the process ends
when `ticks_used` has reached the quantum. -/
def chargeTick (k : Kernel) (c : Fin ncpu) (p : Slot) : Kernel :=
  let q := k.proc p
  let k := k.setCpu c ((k.cpus c).updateRemainTimes q.ti.queue)
  if ((quantum / sysTick : Nat) : Int) ≤ q.ti.ticksUsed.toInt then
    (k.setProc p { q with ti := { q.ti with ticksUsed := 0 } }).yield c p
  else
    k.setProc p { q with
      ti := { q.ti with ticksUsed := q.ti.ticksUsed + 1, lastRunTime := q.ti.lastRunTime + 1 } }

/-- A timer interrupt on CPU `c`, taken from user space when `user` is set. -/
def timer (k : Kernel) (c : Fin ncpu) (user : Bool) : Option Kernel :=
  let k := k.clock c
  match (k.cpus c).proc with
  | none => some k
  | some p =>
    if (k.proc p).killed && user then k.exit c p
    else if (k.proc p).state = .running then some (k.chargeTick c p)
    else some k

def schedule (k : Kernel) (c : Fin ncpu) : Kernel :=
  let r := schedulerIter k.proc k.ticks (k.cpus c)
  { k with proc := r.1 }.setCpu c r.2

def decision (k : Kernel) (c : Fin ncpu) : Decision := Xv6.decision k.proc k.ticks (k.cpus c)

end Kernel

inductive Event
  | schedule (c : Fin ncpu)
  | timer (c : Fin ncpu) (user : Bool)
  | syscall (c : Fin ncpu) (num : Word)
  | fork (c : Fin ncpu) (kstack pgdir : Bool)
  | exit (c : Fin ncpu)
  | wait (c : Fin ncpu)
  | sleep (c : Fin ncpu) (chan : Chan)
  | wakeup (chan : Chan)
  | kill (pid : Word)
  | changeQueue (c : Fin ncpu) (pid targetQueue : Word)
  | setInitialBurstConfidence (c : Fin ncpu) (pid burst confidence : Word)
  deriving DecidableEq, Repr

def Proc.word (p : Proc) (i : Nat) : Word :=
  if h : i < maxSyscalls then p.usedSyscalls ⟨i, h⟩
  else
    [p.ti.queue, p.ti.ticksUsed, p.ti.burstTime, p.ti.creationTime, p.ti.enterQueueTime,
      p.ti.lastRunTime, p.ti.confidence].getD (i - maxSyscalls) 0

namespace Kernel

/-- One step.  `none` is a step the kernel cannot take: the scheduler runs on a CPU only
when no process does, a call needs a process to make it, `exit` of `initproc` panics, and
the `int` increment of `syscall` has no meaning at the largest `int`. -/
def step (k : Kernel) : Event → Option Kernel
  | .schedule c => if (k.cpus c).proc = none then some (k.schedule c) else none
  | .timer c user => k.timer c user
  | .syscall c num => do
    let p ← (k.cpus c).proc
    let word := (k.proc p).word (num.toNat - 1)
    if accepted num && word != BitVec.intMax 32 then
      some (k.setProc p ((k.proc p).countSyscall num))
    else none
  | .fork c kstack pgdir => do
    let p ← (k.cpus c).proc
    some (k.fork p kstack pgdir)
  | .exit c => do
    let p ← (k.cpus c).proc
    k.exit c p
  | .wait c => do
    let p ← (k.cpus c).proc
    some (k.wait c p)
  | .sleep c chan => do
    let p ← (k.cpus c).proc
    some (k.sleep c p chan)
  | .wakeup chan => some (k.wakeup chan)
  | .kill pid => some (k.kill pid)
  | .changeQueue c pid targetQueue => do
    let _ ← (k.cpus c).proc
    some (k.changeQueue pid targetQueue)
  | .setInitialBurstConfidence c pid burst confidence => do
    let _ ← (k.cpus c).proc
    some (k.setInitialBurstConfidence pid burst confidence)

def Step (k : Kernel) (e : Event) (k' : Kernel) : Prop := k.step e = some k'

def chargedTo (k : Kernel) (c : Fin ncpu) : Event → Option Level
  | .timer d user =>
    if d = c then
      let k := k.clock c
      match (k.cpus c).proc with
      | none => none
      | some p =>
        if (k.proc p).killed && user then none
        else if (k.proc p).state = .running then Level.ofCode (k.proc p).ti.queue
        else none
    else none
  | _ => none

def decided (k : Kernel) (c : Fin ncpu) : Event → Option Decision
  | .schedule d => if d = c then some (k.decision c) else none
  | _ => none

def zero : Kernel := ⟨fun _ => .zero, 1, 0, none, fun _ => .zero⟩

def boot : Kernel := zero.userinit

end Kernel

end Xv6
