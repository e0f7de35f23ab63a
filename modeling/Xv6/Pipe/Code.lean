import Xv6.Lib.Monitor
import Xv6.Proc.Table

/-! `pipewrite`, `piperead` and `pipeclose` of `pipe.c`, statement by statement, by any number of
processes.  `p->lock` is the lock of the monitor; the channels are `&p->nread` and `&p->nwrite`. -/

namespace Xv6

open Lib

/-- `struct pipe`.  `stored` and `delivered` are not part of the kernel: they list the bytes that
`pipewrite` has put into the buffer and that `piperead` has taken out. -/
structure Pipe where
  data : Fin 512 → Byte
  nread : Word
  nwrite : Word
  readopen : Bool
  writeopen : Bool
  freed : Bool
  stored : List Byte
  delivered : List Byte

namespace Pipe

def init (data : Fin 512 → Byte) : Pipe := ⟨data, 0, 0, true, true, false, [], []⟩

inductive Chan
  | nread | nwrite
  deriving DecidableEq

/-- A call of `pipewrite`.  `fresh` says that it has stored bytes since it last woke the readers. -/
structure Write where
  addr : Nat → Byte
  n : Int
  i : Nat
  fresh : Bool

structure Read where
  n : Int
  got : List Byte

inductive WritePc
  | lock | test | full | check | wake | sleep | store | wakeup | unlock (v : Int)
  deriving DecidableEq

inductive ReadPc
  | lock | empty | killed | sleep | test | none | copy | wakeup | unlock (v : Int)
  deriving DecidableEq

inductive ClosePc
  | lock | flag | wakeup | test | unlock (free : Bool)
  deriving DecidableEq

/-- The statement a process is about to execute, with the variables of the call it is in.  At an
`unlock` the call is about to return the value. -/
inductive Pc
  | out
  | write (s : WritePc) (w : Write)
  | read (s : ReadPc) (r : Read)
  | close (s : ClosePc) (writable : Bool)

inductive Call
  | pipewrite (addr : Nat → Byte) (n : Int)
  | piperead (n : Int)
  | pipeclose (writable : Bool)

def Full (d : Pipe) : Prop := d.nwrite = d.nread + 512

instance (d : Pipe) : Decidable d.Full := inferInstanceAs (Decidable (_ = _))

def Empty (d : Pipe) : Prop := d.nread = d.nwrite

instance (d : Pipe) : Decidable d.Empty := inferInstanceAs (Decidable (_ = _))

def store (d : Pipe) (b : Byte) : Pipe :=
  { d with
    data := Function.update d.data (Fin.ofNat 512 d.nwrite.toNat) b
    nwrite := d.nwrite + 1
    stored := d.stored ++ [b] }

def front (d : Pipe) : Byte := d.data (Fin.ofNat 512 d.nread.toNat)

def copy (d : Pipe) : Pipe := { d with nread := d.nread + 1, delivered := d.delivered ++ [d.front] }

def shut (d : Pipe) (writable : Bool) : Pipe :=
  if writable then { d with writeopen := false } else { d with readopen := false }

def pipewrite (killed : Bool) (d : Pipe) (w : Write) : WritePc → Stmt Pipe Pc Chan
  | .lock => .acquire (.write .test w)
  | .test => .act d (if w.i < w.n then .write .full w else .write .wakeup w)
  | .full => .act d (if d.Full then .write .check w else .write .store w)
  | .check => .act d (if d.readopen = false ∨ killed then .write (.unlock (-1)) w else .write .wake w)
  | .wake => .wakeup .nread (.write .sleep { w with fresh := false })
  | .sleep => .sleep .nwrite (.write .full w)
  | .store => .act (d.store (w.addr w.i)) (.write .test { w with i := w.i + 1, fresh := true })
  | .wakeup => .wakeup .nread (.write (.unlock w.n) { w with fresh := false })
  | .unlock _ => .release d .out

def piperead (killed : Bool) (d : Pipe) (r : Read) : ReadPc → Stmt Pipe Pc Chan
  | .lock => .acquire (.read .empty r)
  | .empty => .act d (if d.Empty ∧ d.writeopen = true then .read .killed r else .read .test r)
  | .killed => .act d (if killed then .read (.unlock (-1)) r else .read .sleep r)
  | .sleep => .sleep .nread (.read .empty r)
  | .test => .act d (if r.got.length < r.n then .read .none r else .read .wakeup r)
  | .none => .act d (if d.Empty then .read .wakeup r else .read .copy r)
  | .copy => .act d.copy (.read .test { r with got := r.got ++ [d.front] })
  | .wakeup => .wakeup .nwrite (.read (.unlock r.got.length) r)
  | .unlock _ => .release d .out

def pipeclose (d : Pipe) (writable : Bool) : ClosePc → Stmt Pipe Pc Chan
  | .lock => .acquire (.close .flag writable)
  | .flag => .act (d.shut writable) (.close .wakeup writable)
  | .wakeup => .wakeup (if writable then .nread else .nwrite) (.close .test writable)
  | .test => .act d (.close (.unlock (d.readopen = false ∧ d.writeopen = false)) writable)
  -- `kfree` comes right after the release
  | .unlock free => .release { d with freed := free } .out

/-- A pipe is used through open files, which keep it allocated. -/
def code {P : Type} : Code P Pipe Pc Chan Call where
  call _ a d pc :=
    match a, pc with
    | .pipewrite addr n, .out => if d.freed then none else some (.write .lock ⟨addr, n, 0, false⟩)
    | .piperead n, .out => if d.freed then none else some (.read .lock ⟨n, []⟩)
    | .pipeclose writable, .out => if d.freed then none else some (.close .lock writable)
    | _, _ => none
  stmt _ killed d pc :=
    if d.freed then none
    else match pc with
    | .out => none
    | .write s w => some (pipewrite killed d w s)
    | .read s r => some (piperead killed d r s)
    | .close s writable => some (pipeclose d writable s)

variable {P : Type}

theorem stmt_cases (h : (code : Code P Pipe Pc Chan Call).stmt p killed d pc = some x) :
    (∃ s w, pc = .write s w ∧ pipewrite killed d w s = x) ∨
      (∃ s r, pc = .read s r ∧ piperead killed d r s = x) ∨
      ∃ s w, pc = .close s w ∧ pipeclose d w s = x := by
  simp only [code, Option.ite_none_left_eq_some] at h
  obtain ⟨-, h⟩ := h
  cases pc with
  | out => cases h
  | write s w => exact .inl ⟨s, w, rfl, Option.some.inj h⟩
  | read s r => exact .inr (.inl ⟨s, r, rfl, Option.some.inj h⟩)
  | close s w => exact .inr (.inr ⟨s, w, rfl, Option.some.inj h⟩)

end Pipe

end Xv6
