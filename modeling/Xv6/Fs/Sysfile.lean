import Xv6.Fs.MoveFile

/-! The calls of `sysfile.c` that work on inodes alone, and `exec` as far as it does.  Fetching
the arguments and `begin_op`/`end_op` are left out: a call runs to its end before the next one. -/

namespace Xv6.Fs

open Lib Prog

variable {n : Nat}

inductive InodeType
  | dir | file | dev
  deriving DecidableEq, Repr

def InodeType.node : InodeType → Node n
  | dir => .dir []
  | file => .file []
  | dev => .dev 0 0

theorem InodeType.node_ne_free {type : InodeType} : (type.node : Node n) ≠ .free := by
  cases type <;> exact nofun

theorem InodeType.entries_node {type : InodeType} : (type.node : Node n).entries = [] := by
  cases type <;> rfl

def Node.isFile : Node n → Bool
  | .file _ => true
  | _ => false

def Node.setDevice (major minor : BitVec 16) : Node n → Node n
  | .dev _ _ => .dev major minor
  | x => x

theorem Node.entries_setDevice {major minor : BitVec 16} {x : Node n} :
    (x.setDevice major minor).entries = x.entries := by
  cases x <;> rfl

theorem Node.setDevice_ne_free {major minor : BitVec 16} {x : Node n} (h : x ≠ .free) :
    x.setDevice major minor ≠ .free := by
  cases x <;> simp_all [Node.setDevice]

def addNlink (ip : Fin n) (k : Int) : M n Unit :=
  modify fun s => { s with toStore := s.setNlink ip (s.nlink ip + k) }

def initInode (ip : Fin n) (major minor : BitVec 16) : M n Unit :=
  modify fun s => { s with toStore := (s.setNode ip ((s.node ip).setDevice major minor)).setNlink ip 1 }

variable [NeZero n]

def ialloc (type : InodeType) : M n (Fin n) := do
  let s ← get
  match (List.finRange n).find? fun i => i ≠ 0 ∧ s.node i = .free with
  | none => panics "ialloc: no inodes"
  | some inum =>
    set { s with toStore := (s.setNode inum type.node).setNlink inum 0 }
    iget inum

def dot : Str := [46]
def dotdot : Str := [46, 46]

def sysLink (cwd : Fin n) (old new : Str) : M n Int := do
  match ← namei cwd old with
  | none => return -1
  | some ip =>
    ilock ip
    let s ← get
    if (s.node ip).isDir then
      iunlockput ip
      return -1
    else
      addNlink ip 1
      iunlock ip
      match ← nameiparent cwd new with
      | none =>
        ilock ip
        addNlink ip (-1)
        iunlockput ip
        return -1
      | some (dp, name) =>
        ilock dp
        if (← dirlink dp name ip) < 0 then
          iunlockput dp
          ilock ip
          addNlink ip (-1)
          iunlockput ip
          return -1
        else
          iunlockput dp
          iput ip
          return 0

def isdirempty (entries : List (Dirent n)) : Bool := (entries.drop 2).all fun de => de.inum = 0

def sysUnlink (cwd : Fin n) (path : Str) : M n Int := do
  match ← nameiparent cwd path with
  | none => return -1
  | some (dp, name) =>
    ilock dp
    if namecmp name dot = 0 ∨ namecmp name dotdot = 0 then
      iunlockput dp
      return -1
    else
      match ← dirlookup dp name with
      | none =>
        iunlockput dp
        return -1
      | some (off, ip) =>
        ilock ip
        let s ← get
        if s.nlink ip < 1 then panics "unlink: nlink < 1"
        else if (s.node ip).isDir ∧ isdirempty (s.node ip).entries = false then
          iunlockput ip
          iunlockput dp
          return -1
        else if (← writeDirent dp off ⟨0, []⟩) ≠ 1 then panics "unlink: writei"
        else
          (if (s.node ip).isDir then addNlink dp (-1) else pure ())
          iunlockput dp
          addNlink ip (-1)
          iunlockput ip
          return 0

def createDots (type : InodeType) (ip dp : Fin n) : M n Unit := do
  if type = .dir then
    addNlink dp 1
    if (← dirlink ip dot ip) < 0 then panics "create dots"
    else if (← dirlink ip dotdot dp) < 0 then panics "create dots"
    else return ()
  else return ()

/-- The inode is returned locked. -/
def create (cwd : Fin n) (path : Str) (type : InodeType) (major minor : BitVec 16) :
    M n (Option (Fin n)) := do
  match ← nameiparent cwd path with
  | none => return none
  | some (dp, name) =>
    ilock dp
    match ← dirlookup dp name with
    | some (_, ip) =>
      iunlockput dp
      ilock ip
      let s ← get
      if type = .file ∧ (s.node ip).isFile then return some ip
      else
        iunlockput ip
        return none
    | none =>
      let ip ← ialloc type
      ilock ip
      initInode ip major minor
      createDots type ip dp
      if (← dirlink dp name ip) < 0 then panics "create: dirlink"
      else
        iunlockput dp
        return some ip

def makeNode (cwd : Fin n) (path : Str) (type : InodeType) (major minor : BitVec 16) : M n Int := do
  match ← create cwd path type major minor with
  | none => return -1
  | some ip =>
    iunlockput ip
    return 0

def sysMkdir (cwd : Fin n) (path : Str) : M n Int := makeNode cwd path .dir 0 0

def sysMknod (cwd : Fin n) (path : Str) (major minor : BitVec 16) : M n Int :=
  makeNode cwd path .dev major minor

abbrev Omode := BitVec 32

def oRdonly : Omode := 0x000
def oWronly : Omode := 0x001
def oRdwr : Omode := 0x002
def oCreate : Omode := 0x200

def openInode (cwd : Fin n) (path : Str) (omode : Omode) : M n (Option (Fin n)) := do
  if omode &&& oCreate ≠ 0 then create cwd path .file 0 0
  else
    match ← namei cwd path with
    | none => return none
    | some ip =>
      ilock ip
      let s ← get
      if (s.node ip).isDir ∧ omode ≠ oRdonly then
        iunlockput ip
        return none
      else return some ip

/-- `loads`: the program can be read from the file and put in memory; `starts`: so can its
stack and arguments. -/
def exec (cwd : Fin n) (path : Str) (loads starts : Bool) : M n Int := do
  match ← namei cwd path with
  | none => return -1
  | some ip =>
    ilock ip
    if loads = false then
      iunlockput ip
      return -1
    else
      iunlockput ip
      if starts = false then return -1
      else return 0

end Xv6.Fs
