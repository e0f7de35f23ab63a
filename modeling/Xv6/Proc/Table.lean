import Mathlib.Data.BitVec
import Mathlib.Data.Fintype.Pi

/-! The process table of `proc.h`, with the parameters of `param.h` that scheduling uses.
Pointers into `ptable.proc` are slot numbers, a null pointer is `none`. -/

namespace Xv6

/-- A 32-bit machine word: `int` and `uint` alike, told apart by the comparisons made. -/
abbrev Word := BitVec 32

abbrev Byte := BitVec 8

abbrev nproc : Nat := 64
abbrev ncpu : Nat := 8
abbrev maxSyscalls : Nat := 26

/-! A numeral for an index rests on its table not being empty.  The instances have a name, so
that two modules that write the same index write the same term. -/

instance neZero_nproc : NeZero nproc := ⟨by decide⟩
instance neZero_ncpu : NeZero ncpu := ⟨by decide⟩
instance neZero_two : NeZero 2 := ⟨by decide⟩
instance neZero_ten : NeZero 10 := ⟨by decide⟩
instance neZero_thirteen : NeZero 13 := ⟨by decide⟩
instance neZero_fifty : NeZero 50 := ⟨by decide⟩
instance neZero_oneTwentyEight : NeZero 128 := ⟨by decide⟩
instance neZero_fiveTwelve : NeZero 512 := ⟨by decide⟩
instance neZero_kilo : NeZero 1024 := ⟨by decide⟩
instance lawfulBEq_byte : LawfulBEq Byte := inferInstance

def sysTick : Nat := 10
def quantum : Nat := 50
def timeSliceUnit : Nat := 100
def rrWeight : Nat := 3
def sjfWeight : Nat := 2
def fcfsWeight : Nat := 1
def starvationBoundry : Nat := 800
def defaultBurstTime : Word := 2
def defaultConfidence : Word := 50

abbrev Slot := Fin nproc

inductive ProcState
  | unused | embryo | sleeping | runnable | running | zombie
  deriving DecidableEq, Repr

inductive Level
  | rr | sjf | fcfs
  deriving DecidableEq, Repr

namespace Level

def code : Level → Word
  | rr => 0
  | sjf => 1
  | fcfs => 2

theorem code_injective : Function.Injective code := by
  intro l m h
  cases l <;> cases m <;> first | rfl | (exact absurd h (by decide))

@[simp] theorem code_inj {l m : Level} : l.code = m.code ↔ l = m := code_injective.eq_iff

/-- The ticks `scheduler` hands the queue when it refills the counters. -/
def budget : Level → Int
  | rr => (rrWeight * timeSliceUnit / sysTick : Nat)
  | sjf => (sjfWeight * timeSliceUnit / sysTick : Nat)
  | fcfs => (fcfsWeight * timeSliceUnit / sysTick : Nat)

end Level

structure TimeInfo where
  queue : Word
  ticksUsed : Word
  burstTime : Word
  creationTime : Word
  enterQueueTime : Word
  lastRunTime : Word
  confidence : Word
  deriving DecidableEq, Repr

/-- Sleep channels are addresses; only the ones this model names are told apart. -/
inductive Chan
  | ticks
  | proc (p : Slot)
  | addr (a : Word)
  deriving DecidableEq, Repr

structure Proc where
  state : ProcState
  pid : Word
  parent : Option Slot
  chan : Option Chan
  killed : Bool
  usedSyscalls : Fin maxSyscalls → Word
  ti : TimeInfo
  deriving DecidableEq

abbrev Table := Slot → Proc

def TimeInfo.zero : TimeInfo := ⟨0, 0, 0, 0, 0, 0, 0⟩

def Proc.zero : Proc := ⟨.unused, 0, none, none, false, fun _ => 0, .zero⟩

/-- The per-CPU fields scheduling uses, with the local variable of `scheduler` that names
the last process it took from the round-robin queue. -/
structure Cpu where
  proc : Option Slot
  rrRemainTime : Int
  sjfRemainTime : Int
  fcfsRemainTime : Int
  lastExecutedProc : Slot
  deriving DecidableEq, Repr

namespace Cpu

def remainTime (c : Cpu) : Level → Int
  | .rr => c.rrRemainTime
  | .sjf => c.sjfRemainTime
  | .fcfs => c.fcfsRemainTime

end Cpu

namespace Proc

def candidate (l : Level) (p : Proc) : Bool :=
  p.state == .runnable && p.ti.queue == l.code

theorem candidate_iff {l : Level} {p : Proc} :
    p.candidate l ↔ p.state = .runnable ∧ p.ti.queue = l.code := by
  simp [candidate]

theorem candidate_level_unique {l m : Level} {p : Proc} (hl : p.candidate l) (hm : p.candidate m) :
    l = m := by
  rw [candidate_iff] at hl hm
  exact Level.code_injective (hl.2.symm.trans hm.2)

end Proc

end Xv6
