import Xv6.Vm.Page
import Xv6.Fs.File

/-! The kernel's own records of memory and open files, and the system calls that change them, each
as one step: `fork`, `exec`, `sbrk`, `open`, `pipe`, `dup`, `close`, `exit` and `wait`.  Inodes and
scheduling are left out. -/

namespace Xv6.Vm

open Function Lib
open Fs (FileType nofile nfile toNat_lt_nofile)

/-- `pipe` is the page of the pipe, and only meant for a file of type `FD_PIPE`. -/
structure File where
  type : FileType
  ref : Int
  readable : Bool
  writable : Bool
  pipe : Page

/-- A pipe that is allocated, without its contents. -/
structure Pipe where
  page : Page
  readopen : Bool
  writeopen : Bool
  deriving DecidableEq

structure Files where
  kmem : Kmem
  file : Fin nfile → File
  pipes : List Pipe

inductive Halt
  | mem (e : Stop)
  | panic (msg : String)
  deriving DecidableEq

abbrev F (α : Type) := Prog Files Halt α

variable {α : Type}

def onKmem (x : K α) : F α := fun s =>
  match x s.kmem with
  | .ok (a, k) => .ok (a, { s with kmem := k })
  | .error e => .error (.mem e)

def setFile (f : Fin nfile) (x : File) : F Unit :=
  modify fun s => { s with file := update s.file f x }

def filealloc : F (Option (Fin nfile)) := do
  let s ← get
  match (List.finRange nfile).find? fun f => (s.file f).ref = 0 with
  | none => return none
  | some f =>
    setFile f { s.file f with ref := 1 }
    return some f

def filedup (f : Fin nfile) : F Unit := do
  let s ← get
  if (s.file f).ref < 1 then throw (.panic "filedup")
  else setFile f { s.file f with ref := (s.file f).ref + 1 }

variable (L : Layout)

def pipeclose (p : Page) (writable : Bool) : F Unit := do
  let s ← get
  match s.pipes.find? fun q => q.page = p with
  | none => throw (.mem .stray)
  | some q =>
    let q' := if writable then { q with writeopen := false } else { q with readopen := false }
    if q'.readopen = false ∧ q'.writeopen = false then
      set { s with pipes := s.pipes.erase q }
      onKmem (kfree L p)
    else set { s with pipes := q' :: s.pipes.erase q }

/-- What `iput` does to the inode of a closed file is left out. -/
def fileclose (f : Fin nfile) : F Unit := do
  let s ← get
  let ff := s.file f
  if ff.ref < 1 then throw (.panic "fileclose")
  else if 0 < ff.ref - 1 then setFile f { ff with ref := ff.ref - 1 }
  else
    setFile f { ff with ref := 0, type := .fdNone }
    if ff.type = .fdPipe then pipeclose L ff.pipe ff.writable
    else return ()

def setPipe (f0 f1 : Fin nfile) (p : Page) : F Unit := do
  modify fun s => { s with pipes := ⟨p, true, true⟩ :: s.pipes }
  let s ← get
  setFile f0 { s.file f0 with type := .fdPipe, readable := true, writable := false, pipe := p }
  let s ← get
  setFile f1 { s.file f1 with type := .fdPipe, readable := false, writable := true, pipe := p }

def pipealloc : F (Option (Fin nfile × Fin nfile)) := do
  match ← filealloc with
  | none => return none
  | some f0 =>
    match ← filealloc with
    | none =>
      fileclose L f0
      return none
    | some f1 =>
      match ← onKmem kalloc with
      | none =>
        fileclose L f0
        fileclose L f1
        return none
      | some p =>
        setPipe f0 f1 p
        return some (f0, f1)

structure Task where
  state : ProcState
  pid : Word
  parent : Option Slot
  kstack : Option Page
  pgdir : Option Pgdir
  sz : Word
  ofile : Fin nofile → Option (Fin nfile)

/-- `apstacks` are the stacks of the other processors. -/
structure System where
  files : Files
  proc : Slot → Task
  nextpid : Word
  kpgdir : Option Pgdir
  apstacks : List (Option Page)
  initproc : Option Slot

abbrev S (α : Type) := Prog System Halt α

def onFiles (x : F α) : S α := fun s =>
  match x s.files with
  | .ok (a, fs) => .ok (a, { s with files := fs })
  | .error e => .error e

def setProc (p : Slot) (t : Task) : S Unit :=
  modify fun s => { s with proc := update s.proc p t }

def setOfile (p : Slot) (fd : Fin nofile) (f : Option (Fin nfile)) : S Unit := do
  let s ← get
  setProc p { s.proc p with ofile := update (s.proc p).ofile fd f }

def allocproc : S (Option Slot) := do
  let s ← get
  match (List.finRange nproc).find? fun p => (s.proc p).state = .unused with
  | none => return none
  | some p =>
    set { s with
      proc := update s.proc p { s.proc p with state := .embryo, pid := s.nextpid }
      nextpid := s.nextpid + 1 }
    let kstack ← onFiles (onKmem kalloc)
    let s ← get
    if kstack.isSome then
      setProc p { s.proc p with kstack := kstack }
      return some p
    else
      setProc p { s.proc p with kstack := kstack, state := .unused }
      return none

def dupFiles (p np : Slot) : List (Fin nofile) → S Unit
  | [] => return ()
  | fd :: fds => do
    let s ← get
    match (s.proc p).ofile fd with
    | none => dupFiles p np fds
    | some f =>
      onFiles (filedup f)
      setOfile np fd (some f)
      dupFiles p np fds

/-- A null page directory is not followed: each caller says how the kernel stops. -/
def withPgdir (d : Option Pgdir) (e : Stop) (x : Pgdir → K α) : S α :=
  match d with
  | none => throw (.mem e)
  | some d => onFiles (onKmem (x d))

def fork (p : Slot) : S Word := do
  match ← allocproc with
  | none => return -1
  | some np =>
    let s ← get
    match ← withPgdir (s.proc p).pgdir .fault fun d => copyuvm L d (s.proc p).sz with
    | none =>
      onFiles (onKmem (kfree L ((s.proc np).kstack.getD 0)))
      setProc np { s.proc np with pgdir := none, kstack := none, state := .unused }
      return -1
    | some d =>
      setProc np { s.proc np with pgdir := some d, sz := (s.proc p).sz, parent := some p }
      dupFiles p np (List.finRange nofile)
      let s ← get
      setProc np { s.proc np with state := .runnable }
      return (s.proc np).pid

def closeFiles (p : Slot) : List (Fin nofile) → S Unit
  | [] => return ()
  | fd :: fds => do
    let s ← get
    match (s.proc p).ofile fd with
    | none => closeFiles p fds
    | some f =>
      onFiles (fileclose L f)
      setOfile p fd none
      closeFiles p fds

def exit (p : Slot) : S Unit := do
  let s ← get
  if s.initproc = some p then throw (.panic "init exiting")
  else
    closeFiles L p (List.finRange nofile)
    modify fun s => { s with
      proc := fun q => if (s.proc q).parent = some p then { s.proc q with parent := s.initproc } else s.proc q }
    let s ← get
    setProc p { s.proc p with state := .zombie }

/-- A process that has to wait for its children makes no step here. -/
def wait (p : Slot) : S Word := do
  let s ← get
  match (List.finRange nproc).find? fun q => (s.proc q).parent = some p ∧ (s.proc q).state = .zombie with
  | none => return -1
  | some q =>
    onFiles (onKmem (kfree L ((s.proc q).kstack.getD 0)))
    withPgdir (s.proc q).pgdir (.panic "freevm: no pgdir") (freevm L)
    setProc q { s.proc q with kstack := none, pid := 0, parent := none, state := .unused }
    return (s.proc q).pid

def growproc (p : Slot) (n : Word) : S Int := do
  let s ← get
  let sz := (s.proc p).sz
  if 0 < n.toInt then
    let (d, sz) ← withPgdir (s.proc p).pgdir .fault fun d => allocuvm L d sz (sz + n)
    if sz = 0 then
      setProc p { s.proc p with pgdir := some d }
      return -1
    else
      setProc p { s.proc p with pgdir := some d, sz := sz }
      return 0
  else if n.toInt < 0 then
    let d ← withPgdir (s.proc p).pgdir .fault fun d => deallocuvm L d sz (sz + n)
    -- the result of `deallocuvm`
    let sz := if sz ≤ sz + n then sz else sz + n
    if sz = 0 then
      setProc p { s.proc p with pgdir := some d }
      return -1
    else
      setProc p { s.proc p with pgdir := some d, sz := sz }
      return 0
  else return 0

def sysSbrk (p : Slot) (n : Word) : S Int := do
  let s ← get
  if (← growproc L p n) < 0 then return -1
  else return (s.proc p).sz.toInt

/-- `exec` with the checks of `sys_exec`.  `img` is `none` if there is no such file; `args` are the
lengths of the strings, which have to be in the memory of the process, and `word` is what that
memory has at address 0. -/
def exec (p : Slot) (word : Word) (img : Option Image) (args : List Nat) : S Int := do
  let s ← get
  let t := s.proc p
  if 32 ≤ args.length ∨ args.any fun n => t.sz.toNat < n + 1 then return -1
  else
    match img with
    | none => return -1
    | some img =>
      let word0 := if (t.pgdir.bind fun d => (d.entry 0).join).isSome then some word else none
      match ← onFiles (onKmem (loadImage L word0 img args)) with
      | none => return -1
      | some (d, sz) =>
        setProc p { t with pgdir := some d, sz := sz }
        withPgdir t.pgdir (.panic "freevm: no pgdir") (freevm L)
        return 0

def argfd (p : Slot) (fd : Int) : S (Option (Fin nofile × Fin nfile)) := do
  let s ← get
  if h : 0 ≤ fd ∧ fd < nofile then
    return ((s.proc p).ofile ⟨fd.toNat, toNat_lt_nofile h⟩).map fun f => (⟨fd.toNat, toNat_lt_nofile h⟩, f)
  else return none

def fdalloc (p : Slot) (f : Fin nfile) : S (Option (Fin nofile)) := do
  let s ← get
  match (List.finRange nofile).find? fun fd => (s.proc p).ofile fd = none with
  | none => return none
  | some fd =>
    setOfile p fd (some f)
    return some fd

def sysDup (p : Slot) (fd : Int) : S Int := do
  match ← argfd p fd with
  | none => return -1
  | some (_, f) =>
    match ← fdalloc p f with
    | none => return -1
    | some fd =>
      onFiles (filedup f)
      return fd.val

def sysClose (p : Slot) (fd : Int) : S Int := do
  match ← argfd p fd with
  | none => return -1
  | some (fd, f) =>
    setOfile p fd none
    onFiles (fileclose L f)
    return 0

/-- `found` says that the path leads to an inode that may be opened. -/
def sysOpen (p : Slot) (found readable writable : Bool) : S Int := do
  if found = false then return -1
  else
    match ← onFiles filealloc with
    | none => return -1
    | some f =>
      match ← fdalloc p f with
      | none =>
        onFiles (fileclose L f)
        return -1
      | some fd =>
        let s ← get
        onFiles (setFile f { s.files.file f with type := .fdInode, readable := readable, writable := writable })
        return fd.val

/-- `valid` says that the array for the descriptors is in the memory of the process. -/
def sysPipe (p : Slot) (valid : Bool) : S Int := do
  if valid = false then return -1
  else
    match ← onFiles (pipealloc L) with
    | none => return -1
    | some (rf, wf) =>
      match ← fdalloc p rf with
      | none =>
        onFiles (fileclose L rf)
        onFiles (fileclose L wf)
        return -1
      | some fd0 =>
        match ← fdalloc p wf with
        | none =>
          setOfile p fd0 none
          onFiles (fileclose L rf)
          onFiles (fileclose L wf)
          return -1
        | some _ => return 0

/-- `userinit`, with `inituvm` for a program of less than a page. -/
def userinit : S Unit := do
  match ← allocproc with
  | none => throw (.mem .fault)
  | some p =>
    modify fun s => { s with initproc := some p }
    match ← onFiles (onKmem (setupkvm L)) with
    | none => throw (.panic "userinit: out of memory?")
    | some d =>
      match ← onFiles (onKmem kalloc) with
      | none => throw (.mem .fault)
      | some mem =>
        let (d, _) ← onFiles (onKmem (mappages 0 d 0 ⟨mem, true, true⟩))
        let s ← get
        setProc p { s.proc p with pgdir := some d, sz := 4096, state := .runnable }

def startothers : Nat → K (List (Option Page))
  | 0 => return []
  | n + 1 => do
    let stack ← kalloc
    let rest ← startothers n
    return stack :: rest

def boot (aps : Nat) : S Unit := do
  onFiles (onKmem (freerange L (List.range' L.endPg (1024 - L.endPg))))
  let d ← onFiles (onKmem (setupkvm L))
  modify fun s => { s with kpgdir := d }
  let apstacks ← onFiles (onKmem (startothers aps))
  modify fun s => { s with apstacks := apstacks }
  onFiles (onKmem (freerange L (List.range' 1024 (phystop - 1024))))
  userinit L

def System.zero : System where
  files := ⟨⟨[], false⟩, fun _ => ⟨.fdNone, 0, false, false, 0⟩, []⟩
  proc _ := ⟨.unused, 0, none, none, none, 0, fun _ => none⟩
  nextpid := 1
  kpgdir := none
  apstacks := []
  initproc := none

inductive Call
  | fork
  | exec (word : Word) (img : Option Image) (args : List Nat)
  | sbrk (n : Word)
  | open (found readable writable : Bool)
  | pipe (valid : Bool)
  | dup (fd : Int)
  | close (fd : Int)
  | exit
  | wait

def Call.run (p : Slot) : Call → S Unit
  | fork => discard (Vm.fork L p)
  | exec word img args => discard (Vm.exec L p word img args)
  | sbrk n => discard (sysSbrk L p n)
  | .open found readable writable => discard (sysOpen L p found readable writable)
  | pipe valid => discard (sysPipe L p valid)
  | dup fd => discard (sysDup p fd)
  | close fd => discard (sysClose L p fd)
  | exit => Vm.exit L p
  | wait => discard (Vm.wait L p)

def Task.Active (t : Task) : Prop := t.state ≠ .unused ∧ t.state ≠ .embryo ∧ t.state ≠ .zombie

instance (t : Task) : Decidable t.Active := inferInstanceAs (Decidable (_ ∧ _))

/-- A call that stops the kernel leads to no state. -/
def Step (s : System) (c : Slot × Call) (t : System) : Prop :=
  (s.proc c.1).Active ∧ c.2.run L c.1 s = .ok ((), t)

end Xv6.Vm
