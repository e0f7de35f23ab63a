import Xv6.Disk.Alloc

namespace Xv6.Mkfs

open Function Disk Lib

/-- The super block that `main` computes: `FSSIZE` is 1000, `NINODES` is 200 and `LOGSIZE` is 30. -/
def sb : Superblock := ⟨1000, 941, 200, 32, 58, by decide, by decide, by decide⟩

def nmeta : Nat := 59

structure Image where
  disk : Word → Block
  freeinode : Word
  freeblock : Word

inductive Stop
  | failure
  | abort
  deriving DecidableEq

abbrev M (α : Type) := Prog Image Stop α

/-- The sector at offset `sec * BSIZE`, a product of `uint`s. -/
def sector (sec : Word) : Word := sec * 512 / 512

def rsect (sec : Word) : M Block := do
  let s ← get
  if 1000 ≤ sector sec then throw .failure else return s.disk (sector sec)

/-- What is written lies inside the image: it has been read before. -/
def wsect (sec : Word) (b : Block) : M Unit :=
  modify fun s => { s with disk := update s.disk (sector sec) b }

def dinodeAt (b : Block) (k : Nat) : Inode where
  typeMajor := b.word (Fin.ofNat 128 (16 * k + 0))
  minorNlink := b.word (Fin.ofNat 128 (16 * k + 1))
  size := b.word (Fin.ofNat 128 (16 * k + 2))
  addrs := fun m => b.word (Fin.ofNat 128 (16 * k + (3 + m)))

def iblock (inum : Word) : Word := inum / 8 + 32

def winode (inum : Word) (ip : Inode) : M Unit := do
  let buf ← rsect (iblock inum)
  wsect (iblock inum) (buf.setWords (16 * (inum.toNat % 8)) ip.words)

def rinode (inum : Word) : M Inode := do
  let buf ← rsect (iblock inum)
  return dinodeAt buf (inum.toNat % 8)

inductive Kind
  | dir
  | file

def Kind.type : Kind → Word
  | dir => 1
  | file => 2

/-- A `struct dinode` with `nlink` 1 in the upper half of its second word. -/
def newInode (type : Kind) : Inode := ⟨type.type, 0x10000, 0, fun _ => 0⟩

def ialloc (type : Kind) : M Word := do
  let s ← get
  set { s with freeinode := s.freeinode + 1 }
  winode s.freeinode (newInode type)
  return s.freeinode

def bump : M Word := do
  let s ← get
  set { s with freeblock := s.freeblock + 1 }
  return s.freeblock

def fillAddr (din : Inode) (k : Fin 13) : M Inode :=
  if din.addrs k = 0 then do
    let b ← bump
    return { din with addrs := update din.addrs k b }
  else return din

def fillEntry (b : Word) (j : Fin 128) : M Word := do
  let indirect ← rsect b
  if indirect.word j = 0 then do
    let x ← bump
    wsect b (indirect.setWord j x)
    return x
  else return indirect.word j

theorem direct_lt (h : fbn < 12) : fbn < 13 := by omega

theorem indirect_lt (h : fbn < 140) (hd : ¬ fbn < 12) : fbn - 12 < 128 := by omega

def findBlock (din : Inode) (fbn : Nat) (h : fbn < 140) : M (Inode × Word) :=
  if hd : fbn < 12 then do
    let din ← fillAddr din ⟨fbn, direct_lt hd⟩
    return (din, din.addrs ⟨fbn, direct_lt hd⟩)
  else do
    let din ← fillAddr din 12
    let x ← fillEntry (din.addrs 12) ⟨fbn - 12, indirect_lt h hd⟩
    return (din, x)

def appendLoop : Nat → Inode → Word → List Byte → M (Inode × Word)
  | 0, din, off, _ => return (din, off)
  | fuel + 1, din, off, p =>
    if p = [] then return (din, off)
    else if h : off.toNat / 512 < 140 then do
      let (din, x) ← findBlock din (off.toNat / 512) h
      let buf ← rsect x
      wsect x (splice buf (off.toNat % 512) (min p.length (512 - off.toNat % 512)) fun k => p.getD k 0)
      appendLoop fuel din (off + BitVec.ofNat 32 (min p.length (512 - off.toNat % 512)))
        (p.drop (min p.length (512 - off.toNat % 512)))
    else throw .abort

def iappend (inum : Word) (p : List Byte) : M Unit := do
  let din ← rinode inum
  let (din, off) ← appendLoop p.length din din.size p
  winode inum { din with size := off }

def bitmap (used : Nat) : Block :=
  (List.range used).foldl
    (fun buf i => update buf (Fin.ofNat 512 (i / 8)) (buf (Fin.ofNat 512 (i / 8)) ||| 1#8 <<< (i % 8))) .zero

def balloc (used : Word) : M Unit :=
  if 4096 ≤ used.toInt then throw .abort else wsect 58 (bitmap used.toInt.toNat)

def dirent (inum : Word) (name : List Byte) : List Byte :=
  [inum.extractLsb' 0 8, inum.extractLsb' 8 8] ++ (name ++ List.replicate 14 0).take 14

/-- An argument of `mkfs`: the name, and, if there is such a file, what the calls of `read` give. -/
structure File where
  name : List Byte
  reads : Option (List (List Byte))

def File.target (f : File) : List Byte := if f.name.head? = some 95 then f.name.tail else f.name

def addFile (rootino : Word) (f : File) : M Unit :=
  -- '/' is 47
  if 47 ∈ f.name then throw .abort
  else
    match f.reads with
    | none => throw .failure
    | some reads => do
      let inum ← ialloc .file
      iappend rootino (dirent inum f.target)
      reads.forM (iappend inum)

def fixRoot (rootino : Word) : M Unit := do
  let din ← rinode rootino
  winode rootino { din with size := (din.size / 512 + 1) * 512 }

def blank : Image where
  disk := update (fun _ => .zero) 1 (Block.zero.setWords 0 [1000, 941, 200, 30, 2, 32, 58])
  freeinode := 1
  freeblock := 59

/-- `main`, from the allocation of the root directory on. -/
def main (files : List File) : M Unit := do
  let rootino ← ialloc .dir
  if rootino ≠ 1 then throw .abort
  else do
    iappend rootino (dirent rootino [46])
    iappend rootino (dirent rootino [46, 46])
    files.forM (addFile rootino)
    fixRoot rootino
    let s ← get
    balloc s.freeblock

end Xv6.Mkfs
