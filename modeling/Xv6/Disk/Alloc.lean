import Xv6.Disk.Layout
import Xv6.Lib.Prog

namespace Xv6.Disk

open Function Lib

/-- The disk and the inodes of which the cache has a valid copy. -/
structure Store (sb : Superblock) where
  disk : Word → Block
  icache : Fin sb.ninodes → Option Inode

inductive Panic
  | noType
  | outOfBlocks
  | freeingFreeBlock
  | outOfRange
  deriving DecidableEq

abbrev M (sb : Superblock) (α : Type) := Prog (Store sb) Panic α

namespace Store

def inode (s : Store sb) (i : Fin sb.ninodes) : Inode := (s.icache i).getD (sb.dinode s.disk i)

def setInode (s : Store sb) (i : Fin sb.ninodes) (ip : Inode) : Store sb :=
  { s with icache := update s.icache i (some ip) }

@[simp] theorem setInode_icache (s : Store sb) (i : Fin sb.ninodes) (ip : Inode) :
    (s.setInode i ip).icache = update s.icache i (some ip) := rfl

def setAddr (s : Store sb) (i : Fin sb.ninodes) (k : Fin 13) (b : Word) : Store sb :=
  s.setInode i { s.inode i with addrs := update (s.inode i).addrs k b }

def setBlock (s : Store sb) (b : Word) (data : Block) : Store sb :=
  { s with disk := update s.disk b data }

@[simp] theorem setBlock_disk (s : Store sb) (b : Word) (data : Block) :
    (s.setBlock b data).disk = update s.disk b data := rfl

end Store

/-- The two loops together look at the bits of all blocks below `sb.size` in order. -/
def balloc : M sb Word := do
  let s ← get
  match (List.range sb.size).find? fun b => !sb.bit s.disk b with
  | some b =>
    set { s with disk := update (sb.setBit s.disk b true) (BitVec.ofNat 32 b) .zero }
    return BitVec.ofNat 32 b
  | none => throw .outOfBlocks

def bfree (b : Word) : M sb Unit := do
  let s ← get
  if sb.bit s.disk b.toNat then set { s with disk := sb.setBit s.disk b.toNat false }
  else throw .freeingFreeBlock

def ilock (i : Fin sb.ninodes) : M sb Unit := do
  let s ← get
  match s.icache i with
  | some _ => return ()
  | none => if (s.inode i).type = 0 then throw .noType else set (s.setInode i (s.inode i))

def iupdate (i : Fin sb.ninodes) : M sb Unit := do
  let s ← get
  set { s with disk := sb.setDinode s.disk i (s.inode i) }

def loadAddr (i : Fin sb.ninodes) (k : Fin 13) : M sb Word := do
  let s ← get
  if (s.inode i).addrs k = 0 then do
    let addr ← balloc
    let s ← get
    set (s.setAddr i k addr)
    return addr
  else return (s.inode i).addrs k

def loadEntry (b : Word) (j : Fin 128) : M sb Word := do
  let s ← get
  if (s.disk b).word j = 0 then do
    let addr ← balloc
    let s ← get
    set (s.setBlock b ((s.disk b).setWord j addr))
    return addr
  else return (s.disk b).word j

def bmap (i : Fin sb.ninodes) (bn : Nat) : M sb Word :=
  if h : bn < 12 then loadAddr i ⟨bn, by omega⟩
  else if h : bn - 12 < 128 then do
    let b ← loadAddr i 12
    loadEntry b ⟨bn - 12, h⟩
  else throw .outOfRange

def freeAddr (i : Fin sb.ninodes) (k : Fin 13) : M sb Unit := do
  let s ← get
  if (s.inode i).addrs k = 0 then return ()
  else do
    bfree ((s.inode i).addrs k)
    let s ← get
    set (s.setAddr i k 0)

def freeEntry (b : Word) (j : Fin 128) : M sb Unit := do
  let s ← get
  if (s.disk b).word j = 0 then return () else bfree ((s.disk b).word j)

def freeIndirect (i : Fin sb.ninodes) : M sb Unit := do
  let s ← get
  if (s.inode i).addrs 12 = 0 then return ()
  else do
    (List.finRange 128).forM (freeEntry ((s.inode i).addrs 12))
    freeAddr i 12

def itrunc (i : Fin sb.ninodes) : M sb Unit := do
  (List.finRange 12).forM fun k => freeAddr i k.castSucc
  freeIndirect i
  let s ← get
  set (s.setInode i { s.inode i with size := 0 })
  iupdate i

def readLoop (i : Fin sb.ninodes) : Nat → Nat → Nat → M sb (List Byte)
  | 0, _, _ => return []
  | fuel + 1, off, n =>
    if n = 0 then return []
    else do
      let b ← bmap i (off / 512)
      let s ← get
      let rest ← readLoop i fuel (off + min n (512 - off % 512)) (n - min n (512 - off % 512))
      return (((List.ofFn (s.disk b)).drop (off % 512)).take (min n (512 - off % 512)) ++ rest)

/-- `none` is the result -1.  The contents of a device are not on the disk. -/
def readi (i : Fin sb.ninodes) (off n : Word) : M sb (Option (List Byte)) := do
  let s ← get
  if (s.inode i).type = 3 ∨ (s.inode i).size < off ∨ off + n < off then return none
  else do
    let n := if (s.inode i).size < off + n then (s.inode i).size - off else n
    let bytes ← readLoop i n.toNat off.toNat n.toNat
    return some bytes

def splice (data : Block) (start m : Nat) (src : Nat → Byte) : Block := fun j =>
  if start ≤ j.val ∧ j.val < start + m then src (j.val - start) else data j

def writeLoop (i : Fin sb.ninodes) : Nat → (Nat → Byte) → Nat → Nat → M sb Unit
  | 0, _, _, _ => return ()
  | fuel + 1, src, off, n =>
    if n = 0 then return ()
    else do
      let b ← bmap i (off / 512)
      let s ← get
      set (s.setBlock b (splice (s.disk b) (off % 512) (min n (512 - off % 512)) src))
      writeLoop i fuel (fun k => src (k + min n (512 - off % 512))) (off + min n (512 - off % 512))
        (n - min n (512 - off % 512))

def writei (i : Fin sb.ninodes) (src : Nat → Byte) (off n : Word) : M sb (Option Word) := do
  let s ← get
  if (s.inode i).type = 3 ∨ (s.inode i).size < off ∨ off + n < off ∨ 140 * 512 < off + n then return none
  else do
    writeLoop i n.toNat src off.toNat n.toNat
    let s ← get
    if 0 < n ∧ (s.inode i).size < off + n then do
      set (s.setInode i { s.inode i with size := off + n })
      iupdate i
      return some n
    else return some n

/-- A call on an inode, which the caller has locked, or the end of the last reference to
one, after which the next `ilock` reads it from the disk again. -/
inductive Call (sb : Superblock)
  | readi (i : Fin sb.ninodes) (off n : Word)
  | writei (i : Fin sb.ninodes) (src : Nat → Byte) (off n : Word)
  | itrunc (i : Fin sb.ninodes)
  | forget (i : Fin sb.ninodes)

def Call.run : Call sb → M sb Unit
  | .readi i off n => do
    ilock i
    let _ ← Disk.readi i off n
  | .writei i src off n => do
    ilock i
    let _ ← Disk.writei i src off n
  | .itrunc i => do
    ilock i
    Disk.itrunc i
  | .forget i => do
    let s ← get
    set { s with icache := update s.icache i none }

def Step (s : Store sb) (c : Call sb) (t : Store sb) : Prop := c.run s = .ok ((), t)

end Xv6.Disk
