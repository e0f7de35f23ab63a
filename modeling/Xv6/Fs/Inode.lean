import Mathlib.Algebra.Group.Pi.Lemmas
import Mathlib.Algebra.Order.Ring.Int
import Mathlib.Data.Fintype.Card
import Xv6.Lib.Prog
import Xv6.Fs.Name

/-! Inodes, their cache and directories.  The cache is write-through, so an inode on disk and
its copy in memory are one node here; what is left of a cache entry is its reference count, its
sleep lock and its `valid` flag.  An operation that cannot go on ends in a `Stop`. -/

namespace Xv6.Fs

open Function Lib

def ninode : Nat := 50
def bsize : Nat := 512
def ndirect : Nat := 12
def nindirect : Nat := bsize / 4
def direntSize : Nat := 16
def direntsPerBlock : Nat := bsize / direntSize
def maxDirents : Nat := (ndirect + nindirect) * direntsPerBlock

/-- An entry with inode number zero is free. -/
structure Dirent (n : Nat) where
  inum : Fin n
  name : Str
  deriving DecidableEq

inductive Node (n : Nat)
  | free
  | dir (entries : List (Dirent n))
  | file (data : List UInt8)
  | dev (major minor : BitVec 16)
  deriving DecidableEq

/-- All but the `valid` flags. -/
@[ext] structure Store (n : Nat) where
  node : Fin n → Node n
  nlink : Fin n → Int
  freeBlocks : Nat
  ref : Fin n → Int
  locked : Fin n → Bool

structure State (n : Nat) extends Store n where
  valid : Fin n → Bool

/-- A panic, or a wait for a sleep lock that the waiting process holds itself. -/
inductive Stop (n : Nat)
  | panic (msg : String)
  | ilockHeld (i : Fin n)
  | iputHeld (i : Fin n)
  deriving DecidableEq

abbrev M (n : Nat) (α : Type) := Prog (State n) (Stop n) α

variable {n : Nat}

namespace Store

def addRef (v : Store n) (i : Fin n) (k : Int) : Store n := { v with ref := v.ref + Pi.single i k }

def setLocked (v : Store n) (i : Fin n) (b : Bool) : Store n :=
  { v with locked := update v.locked i b }

def setNode (v : Store n) (i : Fin n) (x : Node n) : Store n :=
  { v with node := update v.node i x }

def setNlink (v : Store n) (i : Fin n) (k : Int) : Store n :=
  { v with nlink := update v.nlink i k }

def cached (v : Store n) : Nat := (Finset.univ.filter fun i => 0 < v.ref i).card

def HasSlot (v : Store n) (i : Fin n) : Prop := 0 < v.ref i ∨ v.cached < ninode

instance (v : Store n) (i : Fin n) : Decidable (v.HasSlot i) := inferInstanceAs (Decidable (_ ∨ _))

end Store

def panics {α : Type} (msg : String) : M n α := throw (.panic msg)

def blocks (size : Nat) : Nat :=
  let b := (size + bsize - 1) / bsize
  if ndirect < b then b + 1 else b

def Node.blocks : Node n → Nat
  | .dir entries => Fs.blocks (direntSize * entries.length)
  | .file data => Fs.blocks data.length
  | _ => 0

def Node.isDir : Node n → Bool
  | .dir _ => true
  | _ => false

def Node.entries : Node n → List (Dirent n)
  | .dir entries => entries
  | _ => []

def iget (i : Fin n) : M n (Fin n) := do
  let s ← get
  if 0 < s.ref i then
    set { s with toStore := s.addRef i 1 }
  else if s.cached < ninode then
    set { s with ref := update s.ref i 1, valid := update s.valid i false }
  else panics "iget: no inodes"
  return i

def idup (i : Fin n) : M n (Fin n) := do
  let s ← get
  set { s with toStore := s.addRef i 1 }
  return i

def ilock (i : Fin n) : M n Unit := do
  let s ← get
  if s.ref i < 1 then panics "ilock"
  else if s.locked i then throw (.ilockHeld i)
  else if s.valid i = false ∧ s.node i = .free then panics "ilock: no type"
  else set { s with toStore := s.setLocked i true, valid := update s.valid i true }

def iunlock (i : Fin n) : M n Unit := do
  let s ← get
  if s.locked i = false ∨ s.ref i < 1 then panics "iunlock"
  else set { s with toStore := s.setLocked i false }

def iput (i : Fin n) : M n Unit := do
  let s ← get
  if s.locked i then throw (.iputHeld i)
  else if s.valid i ∧ s.nlink i = 0 ∧ s.ref i = 1 then
    set { s with
      toStore := { (s.setNode i .free).addRef i (-1) with
        freeBlocks := s.freeBlocks + (s.node i).blocks }
      valid := update s.valid i false }
  else set { s with toStore := s.addRef i (-1) }

def iunlockput (i : Fin n) : M n Unit := do
  iunlock i
  iput i

variable [NeZero n]

def findEntry (name : Str) : List (Dirent n) → Option (Nat × Fin n)
  | [] => none
  | e :: es =>
    if e.inum ≠ 0 ∧ namecmp name e.name = 0 then some (0, e.inum)
    else (findEntry name es).map fun r => (r.1 + 1, r.2)

def dirlookup (dp : Fin n) (name : Str) : M n (Option (Nat × Fin n)) := do
  let s ← get
  match s.node dp with
  | .dir entries =>
    match findEntry name entries with
    | none => return none
    | some (off, inum) =>
      let ip ← iget inum
      return some (off, ip)
  | _ => panics "dirlookup not DIR"

def freeEntry : List (Dirent n) → Nat
  | [] => 0
  | e :: es => if e.inum = 0 then 0 else freeEntry es + 1

/-- The blocks `bmap` has to allocate for a new entry at the end: the block it starts, and the
indirect block before the first block behind it. -/
def newBlocks (entries : List (Dirent n)) (off : Nat) : Nat :=
  if off = entries.length ∧ off % direntsPerBlock = 0 then
    if off / direntsPerBlock = ndirect then 2 else 1
  else 0

def putEntry (entries : List (Dirent n)) (off : Nat) (de : Dirent n) : List (Dirent n) :=
  if off < entries.length then entries.set off de else entries ++ [de]

/-- `writei` of one directory entry, counted in entries: one, or minus one. -/
def writeDirent (dp : Fin n) (off : Nat) (de : Dirent n) : M n Int := do
  let s ← get
  match s.node dp with
  | .dir entries =>
    if entries.length < off ∨ maxDirents < off + 1 then return -1
    else if s.freeBlocks < newBlocks entries off then panics "balloc: out of blocks"
    else
      set { s with
        toStore := { s.setNode dp (.dir (putEntry entries off de)) with
          freeBlocks := s.freeBlocks - newBlocks entries off } }
      return 1
  | _ => return -1

def dirlink (dp : Fin n) (name : Str) (inum : Fin n) : M n Int := do
  match ← dirlookup dp name with
  | some (_, ip) =>
    iput ip
    return -1
  | none =>
    let s ← get
    match s.node dp with
    | .dir entries =>
      if (← writeDirent dp (freeEntry entries) ⟨inum, strncpy name dirsiz⟩) ≠ 1 then panics "dirlink"
      else return 0
    | _ => panics "dirlookup not DIR"

end Xv6.Fs
