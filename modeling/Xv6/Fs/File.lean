import Xv6.Fs.Sysfile
import Xv6.Proc.Table

namespace Xv6.Fs

open Function Lib Prog

abbrev nofile : Nat := 16
abbrev nfile : Nat := 100

inductive FileType
  | fdNone | fdPipe | fdInode
  deriving DecidableEq, Repr

structure File (n : Nat) where
  type : FileType
  ref : Int
  readable : Bool
  writable : Bool
  ip : Fin n
  off : Nat

/-- The part of a process that file system calls use, once it is set up. -/
structure Task (n : Nat) where
  parent : Option Slot
  ofile : Fin nofile → Option (Fin nfile)
  cwd : Fin n

structure Ctx (n : Nat) where
  fs : State n
  file : Fin nfile → File n
  task : Task n

abbrev C (n : Nat) (α : Type) := Prog (Ctx n) (Stop n) α

variable {n : Nat} {α : Type}

def onFs (x : M n α) : C n α := fun c => (x c.fs).map fun r => (r.1, { c with fs := r.2 })

def setFile (f : Fin nfile) (x : File n) : C n Unit :=
  modify fun c => { c with file := update c.file f x }

def setOfile (fd : Fin nofile) (f : Option (Fin nfile)) : C n Unit :=
  modify fun c => { c with task := { c.task with ofile := update c.task.ofile fd f } }

def setCwd (ip : Fin n) : C n Unit :=
  modify fun c => { c with task := { c.task with cwd := ip } }

def filealloc : C n (Option (Fin nfile)) := do
  let c ← get
  match (List.finRange nfile).find? fun f => (c.file f).ref = 0 with
  | none => return none
  | some f =>
    setFile f { c.file f with ref := 1 }
    return some f

def filedup (f : Fin nfile) : C n (Fin nfile) := do
  let c ← get
  if (c.file f).ref < 1 then throw (.panic "filedup")
  else
    setFile f { c.file f with ref := (c.file f).ref + 1 }
    return f

/-- What `pipeclose` does to the pipe of a closed file is left out. -/
def fileclose (f : Fin nfile) : C n Unit := do
  let c ← get
  let ff := c.file f
  if ff.ref < 1 then throw (.panic "fileclose")
  else if 0 < ff.ref - 1 then setFile f { ff with ref := ff.ref - 1 }
  else
    setFile f { ff with ref := 0, type := .fdNone }
    if ff.type = .fdInode then onFs (iput ff.ip)
    else return ()

theorem toNat_lt_nofile {fd : Int} (h : 0 ≤ fd ∧ fd < nofile) : fd.toNat < nofile := by omega

def argfd (fd : Int) : C n (Option (Fin nofile × Fin nfile)) := do
  let c ← get
  if h : 0 ≤ fd ∧ fd < nofile then
    return (c.task.ofile ⟨fd.toNat, toNat_lt_nofile h⟩).map fun f => (⟨fd.toNat, toNat_lt_nofile h⟩, f)
  else return none

def fdalloc (f : Fin nfile) : C n (Option (Fin nofile)) := do
  let c ← get
  match (List.finRange nofile).find? fun fd => c.task.ofile fd = none with
  | none => return none
  | some fd =>
    setOfile fd (some f)
    return some fd

def sysDup (fd : Int) : C n Int := do
  match ← argfd fd with
  | none => return -1
  | some (_, f) =>
    match ← fdalloc f with
    | none => return -1
    | some fd =>
      let _ ← filedup f
      return fd.val

def sysClose (fd : Int) : C n Int := do
  match ← argfd fd with
  | none => return -1
  | some (fd, f) =>
    setOfile fd none
    fileclose f
    return 0

def setPipe (f : Fin nfile) (readable writable : Bool) : C n Unit := do
  let c ← get
  setFile f { c.file f with type := .fdPipe, readable := readable, writable := writable }

/-- `mem`: there is a page for the buffer. -/
def pipealloc (mem : Bool) : C n (Option (Fin nfile × Fin nfile)) := do
  match ← filealloc with
  | none => return none
  | some rf =>
    match ← filealloc with
    | none =>
      fileclose rf
      return none
    | some wf =>
      if mem = false then
        fileclose rf
        fileclose wf
        return none
      else
        setPipe rf true false
        setPipe wf false true
        return some (rf, wf)

def sysPipe (mem : Bool) : C n Int := do
  match ← pipealloc mem with
  | none => return -1
  | some (rf, wf) =>
    match ← fdalloc rf with
    | none =>
      fileclose rf
      fileclose wf
      return -1
    | some fd0 =>
      match ← fdalloc wf with
      | none =>
        setOfile fd0 none
        fileclose rf
        fileclose wf
        return -1
      | some _ => return 0

def dupFiles : List (Fin nofile) → C n Unit
  | [] => return ()
  | fd :: fds => do
    let c ← get
    match c.task.ofile fd with
    | none => dupFiles fds
    | some f =>
      let _ ← filedup f
      dupFiles fds

def closeFiles : List (Fin nofile) → C n Unit
  | [] => return ()
  | fd :: fds => do
    let c ← get
    match c.task.ofile fd with
    | none => closeFiles fds
    | some f =>
      fileclose f
      setOfile fd none
      closeFiles fds

def forkTask (parent : Slot) : C n (Task n) := do
  dupFiles (List.finRange nofile)
  let c ← get
  let cwd ← onFs (idup c.task.cwd)
  return { parent := some parent, ofile := c.task.ofile, cwd := cwd }

def exitTask : C n Unit := do
  closeFiles (List.finRange nofile)
  let c ← get
  onFs (iput c.task.cwd)

/-- A slot of the process table.  `fork` fills in descriptors and directory before it lets the
process run, and `exit` gives them up before it leaves a zombie. -/
inductive ProcSlot (n : Nat)
  | unused
  | zombie (parent : Option Slot)
  | live (task : Task n)

namespace ProcSlot

def parent : ProcSlot n → Option Slot
  | unused => none
  | zombie parent => parent
  | live task => task.parent

def setParent (q : Option Slot) : ProcSlot n → ProcSlot n
  | unused => unused
  | zombie _ => zombie q
  | live task => live { task with parent := q }

def isUnused : ProcSlot n → Bool
  | unused => true
  | _ => false

def isZombie : ProcSlot n → Bool
  | zombie _ => true
  | _ => false

end ProcSlot

structure Sys (n : Nat) where
  fs : State n
  file : Fin nfile → File n
  proc : Slot → ProcSlot n

def initproc : Slot := 0

def Sys.ctx (σ : Sys n) (task : Task n) : Ctx n := ⟨σ.fs, σ.file, task⟩

namespace Sys

/-- `mem`: there are pages for the stack and the memory of the new process. -/
def fork (σ : Sys n) (p : Slot) (task : Task n) (mem : Bool) : Option (Sys n) :=
  match (List.finRange nproc).find? fun q => (σ.proc q).isUnused with
  | none => some σ
  | some q =>
    if mem = false then some σ
    else
      match forkTask p (σ.ctx task) with
      | .error _ => none
      | .ok (child, c) => some ⟨c.fs, c.file, update σ.proc q (.live child)⟩

def exit (σ : Sys n) (p : Slot) (task : Task n) : Option (Sys n) :=
  if p = initproc then none
  else
    match exitTask (σ.ctx task) with
    | .error _ => none
    | .ok (_, c) =>
      some ⟨c.fs, c.file, update
        (fun q => if (σ.proc q).parent = some p then (σ.proc q).setParent (some initproc) else σ.proc q)
        p (.zombie task.parent)⟩

/-- No step while there are children and none has exited. -/
def wait (σ : Sys n) (p : Slot) : Option (Sys n) :=
  match (List.finRange nproc).find? fun q => (σ.proc q).parent = some p ∧ (σ.proc q).isZombie with
  | some q => some { σ with proc := update σ.proc q .unused }
  | none => if ∃ q, (σ.proc q).parent = some p then none else some σ

end Sys

inductive FileCall
  | openFile (path : Str) (omode : Omode)
  | close (fd : Int)
  | dup (fd : Int)
  | link (old new : Str)
  | unlink (path : Str)
  | mkdir (path : Str)
  | mknod (path : Str) (major minor : BitVec 16)
  | chdir (path : Str)
  | exec (path : Str) (loads starts : Bool)
  | pipe (mem : Bool)
  | moveFile (srcFile destDir : Str)

inductive Call
  | file (c : FileCall)
  | fork (mem : Bool)
  | exit
  | wait

variable [NeZero n]

def sysOpen (path : Str) (omode : Omode) : C n Int := do
  let c ← get
  match ← onFs (openInode c.task.cwd path omode) with
  | none => return -1
  | some ip =>
    match ← filealloc with
    | none =>
      onFs (iunlockput ip)
      return -1
    | some f =>
      match ← fdalloc f with
      | none =>
        fileclose f
        onFs (iunlockput ip)
        return -1
      | some fd =>
        onFs (iunlock ip)
        let c ← get
        setFile f { c.file f with
          type := .fdInode
          ip := ip
          off := 0
          readable := omode &&& oWronly = 0
          writable := omode &&& oWronly ≠ 0 ∨ omode &&& oRdwr ≠ 0 }
        return fd.val

def sysChdir (path : Str) : C n Int := do
  let c ← get
  match ← onFs (namei c.task.cwd path) with
  | none => return -1
  | some ip =>
    onFs (ilock ip)
    let c ← get
    if (c.fs.node ip).isDir = false then
      onFs (iunlockput ip)
      return -1
    else
      onFs (iunlock ip)
      onFs (iput c.task.cwd)
      setCwd ip
      return 0

def fromCwd (x : Fin n → M n Int) : C n Int := do
  let c ← get
  onFs (x c.task.cwd)

def FileCall.run : FileCall → C n Int
  | openFile path omode => sysOpen path omode
  | close fd => sysClose fd
  | dup fd => sysDup fd
  | link old new => fromCwd fun cwd => sysLink cwd old new
  | unlink path => fromCwd fun cwd => sysUnlink cwd path
  | mkdir path => fromCwd fun cwd => sysMkdir cwd path
  | mknod path major minor => fromCwd fun cwd => sysMknod cwd path major minor
  | chdir path => sysChdir path
  | exec path loads starts => fromCwd fun cwd => Fs.exec cwd path loads starts
  | pipe mem => sysPipe mem
  | moveFile srcFile destDir => fromCwd fun cwd => sysMoveFile cwd srcFile destDir

namespace Sys

def call (σ : Sys n) (p : Slot) (task : Task n) (c : FileCall) : Option (Sys n) :=
  match c.run (σ.ctx task) with
  | .error _ => none
  | .ok (_, c) => some ⟨c.fs, c.file, update σ.proc p (.live c.task)⟩

/-- A call that runs to its end.  A panic or a wait for a lock that the call holds itself leaves
no step. -/
def step (σ : Sys n) (l : Slot × Call) : Option (Sys n) :=
  match σ.proc l.1 with
  | .live task =>
    match l.2 with
    | .file c => σ.call l.1 task c
    | .fork mem => σ.fork l.1 task mem
    | .exit => σ.exit l.1 task
    | .wait => σ.wait l.1
  | _ => none

end Sys

end Xv6.Fs
