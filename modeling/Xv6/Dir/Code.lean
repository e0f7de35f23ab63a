import Xv6.Disk.Bytes
import Xv6.Fs.Name

/-! Directories as the kernel reads and writes them: `dirlookup` and `dirlink` over `readi` and
`writei`, with the entries of the inode cache that `iget` and `iput` work on. -/

namespace Xv6.Dir

open Function Lib Disk Fs

variable {sb : Superblock}

abbrev ninode : Nat := 50

/-- An entry of the inode cache; the copy of the inode is in the store.  `locked` says that the
process itself holds the sleep lock. -/
structure Cached where
  inum : Word
  ref : Nat
  locked : Bool

structure State (sb : Superblock) where
  store : Disk.Store sb
  cache : Fin ninode → Cached

inductive Stop
  | disk (e : Panic)
  | igetNoInodes
  | iputHeld (k : Fin ninode)
  | dirlookupNotDir
  | dirlookupRead
  | dirlinkRead
  | dirlink
  deriving DecidableEq

abbrev M (sb : Superblock) (α : Type) := Prog (State sb) Stop α

def onStore {α : Type} (x : Disk.M sb α) : M sb α := fun s =>
  match x s.store with
  | .ok (a, t) => .ok (a, { s with store := t })
  | .error e => .error (.disk e)

def inodeOf (inum : Word) : Option (Fin sb.ninodes) :=
  if h : inum.toNat < sb.ninodes then some ⟨inum.toNat, h⟩ else none

def forget (s : Disk.Store sb) : Option (Fin sb.ninodes) → Disk.Store sb
  | some i => { s with icache := update s.icache i none }
  | none => s

namespace State

def Caches (s : State sb) (inum : Word) (k : Fin ninode) : Prop := 0 < (s.cache k).ref ∧ (s.cache k).inum = inum

instance (s : State sb) (inum : Word) (k : Fin ninode) : Decidable (s.Caches inum k) :=
  inferInstanceAs (Decidable (_ ∧ _))

def setRef (s : State sb) (k : Fin ninode) (n : Nat) : State sb :=
  { s with cache := update s.cache k { s.cache k with ref := n } }

end State

def iget (inum : Word) : M sb (Fin ninode) := do
  let s ← get
  match (List.finRange ninode).find? fun k => s.Caches inum k with
  | some k =>
    set (s.setRef k ((s.cache k).ref + 1))
    return k
  | none =>
    match (List.finRange ninode).find? fun k => (s.cache k).ref = 0 with
    | some k =>
      set ({ store := forget s.store (inodeOf inum)
             cache := update s.cache k ⟨inum, 1, (s.cache k).locked⟩ } : State sb)
      return k
    | none => throw .igetNoInodes

def free (i : Fin sb.ninodes) : Disk.M sb Unit := do
  itrunc i
  let s ← get
  set (s.setInode i { s.inode i with typeMajor := (s.inode i).typeMajor &&& 0xffff0000 })
  iupdate i
  let s ← get
  set (forget s (some i))

def State.last (s : State sb) (k : Fin ninode) : Option (Fin sb.ninodes) :=
  (inodeOf (s.cache k).inum).filter fun i =>
    (s.store.icache i).isSome ∧ (s.store.inode i).minorNlink.extractLsb' 16 16 = 0 ∧ (s.cache k).ref = 1

def iput (k : Fin ninode) : M sb Unit := do
  let s ← get
  if (s.cache k).locked then throw (.iputHeld k)
  else do
    match s.last k with
    | some i => onStore (free i)
    | none => pure ()
    let s ← get
    set (s.setRef k ((s.cache k).ref - 1))

structure Dirent where
  inum : BitVec 16
  name : Str

namespace Dirent

def ofBytes (bytes : List Byte) : Dirent :=
  ⟨bytes.getD 1 0 ++ bytes.getD 0 0, (bytes.drop 2).map UInt8.ofBitVec⟩

def byte (de : Dirent) (k : Nat) : Byte :=
  if k = 0 then de.inum.extractLsb' 0 8
  else if k = 1 then de.inum.extractLsb' 8 8
  else (de.name.getD (k - 2) 0).toBitVec

end Dirent

def strncpy : Nat → Str → Str
  | 0, _ => []
  | n + 1, t => if t.headD 0 = 0 then List.replicate (n + 1) 0 else t.headD 0 :: strncpy n t.tail

def readEntry (i : Fin sb.ninodes) (off : Word) (e : Stop) : M sb Dirent := do
  match ← onStore (readi i off 16) with
  | some bytes => if bytes.length = 16 then return Dirent.ofBytes bytes else throw e
  | none => throw e

def lookupLoop (i : Fin sb.ninodes) (name : Str) : Nat → Word → M sb (Option (Fin ninode × Word))
  | 0, _ => return none
  | fuel + 1, off => do
    let s ← get
    if off < (s.store.inode i).size then do
      let de ← readEntry i off .dirlookupRead
      if de.inum = 0 then lookupLoop i name fuel (off + 16)
      else if namecmp name de.name = 0 then do
        let k ← iget (de.inum.setWidth 32)
        return some (k, off)
      else lookupLoop i name fuel (off + 16)
    else return none

def dirlookup (i : Fin sb.ninodes) (name : Str) : M sb (Option (Fin ninode × Word)) := do
  let s ← get
  if (s.store.inode i).type ≠ 1 then throw .dirlookupNotDir
  else lookupLoop i name ((s.store.inode i).size.toNat + 1) 0

def freeLoop (i : Fin sb.ninodes) : Nat → Word → M sb Word
  | 0, off => return off
  | fuel + 1, off => do
    let s ← get
    if off < (s.store.inode i).size then do
      let de ← readEntry i off .dirlinkRead
      if de.inum = 0 then return off else freeLoop i fuel (off + 16)
    else return off

def writeEntry (i : Fin sb.ninodes) (off : Word) (de : Dirent) : M sb (Option Word) :=
  onStore (writei i de.byte off 16)

/-- `de.inum` is a `ushort`, the number that is linked a `uint`. -/
def dirlink (i : Fin sb.ninodes) (name : Str) (inum : Word) : M sb Int := do
  match ← dirlookup i name with
  | some (k, _) =>
    iput k
    return -1
  | none =>
    let s ← get
    let off ← freeLoop i ((s.store.inode i).size.toNat + 1) 0
    if (← writeEntry i off ⟨inum.setWidth 16, strncpy dirsiz name⟩) = some 16 then return 0
    else throw .dirlink

def clearEntry (i : Fin sb.ninodes) (off : Word) : M sb (Option Word) :=
  writeEntry i off ⟨0, List.replicate dirsiz 0⟩

end Xv6.Dir
