import Xv6.Paging.Code

namespace Xv6.Paging

open Vm (Page Layout pgroundup)

def readi (file : List Byte) (off n : Word) : Option (List Byte) :=
  if file.length < off.toNat ∨ off + n < off then none else some ((file.drop off.toNat).take n.toNat)

def readAll (file : List Byte) (off n : Word) : Option (List Byte) :=
  (readi file off n).filter fun bs => bs.length = n.toNat

def wordAt (bs : List Byte) (k : Nat) : Word :=
  bs.getD (k + 3) 0 ++ bs.getD (k + 2) 0 ++ bs.getD (k + 1) 0 ++ bs.getD k 0

def shortAt (bs : List Byte) (k : Nat) : BitVec 16 := bs.getD (k + 1) 0 ++ bs.getD k 0

structure Elfhdr where
  magic : Word
  entry : Word
  phoff : Word
  phnum : Nat

structure Proghdr where
  type : Word
  off : Word
  vaddr : Word
  filesz : Word
  memsz : Word

def elfhdr (bs : List Byte) : Elfhdr := ⟨wordAt bs 0, wordAt bs 24, wordAt bs 28, (shortAt bs 44).toNat⟩

def proghdr (bs : List Byte) : Proghdr := ⟨wordAt bs 0, wordAt bs 4, wordAt bs 8, wordAt bs 16, wordAt bs 20⟩

def loaduvmLoop (pgdir : Page) (a : Word) (file : List Byte) (offset sz : Word) : Nat → Word → M Bool
  | 0, _ => throw .hang
  | fuel + 1, i =>
    if i < sz then do
      match ← walkpgdir pgdir (a + i) false with
      | none => panics "loaduvm: address should exist"
      | some (t, j) =>
        let pte ← load t j
        let n := if sz - i < 4096 then sz - i else 4096
        match readi file (offset + i) n with
        | none => return false
        | some bs =>
          memmove (frame pte) 0 bs.length fun k => bs.getD k 0
          if bs.length = n.toNat then loaduvmLoop pgdir a file offset sz fuel (i + 4096) else return false
    else return true

def loaduvm (pgdir : Page) (a : Word) (file : List Byte) (offset sz : Word) : M Bool :=
  if a.toNat % 4096 ≠ 0 then panics "loaduvm: addr must be page aligned"
  else loaduvmLoop pgdir a file offset sz manyPages 0

variable (L : Layout)

def loadSegments (file : List Byte) (pgdir : Page) : Nat → Word → Word → M (Option Word)
  | 0, _, sz => return some sz
  | i + 1, off, sz =>
    match readAll file off 32 with
    | none => return none
    | some bs =>
      let ph := proghdr bs
      if ph.type ≠ 1 then loadSegments file pgdir i (off + 32) sz
      else if ph.memsz < ph.filesz then return none
      else if ph.vaddr + ph.memsz < ph.vaddr then return none
      else do
        let sz ← allocuvm L pgdir sz (ph.vaddr + ph.memsz)
        if sz = 0 then return none
        else if ph.vaddr.toNat % 4096 ≠ 0 then return none
        else if ← loaduvm pgdir ph.vaddr file ph.off ph.filesz then loadSegments file pgdir i (off + 32) sz
        else return none

section arguments

variable (null : M Word) (pgdir : Page)

def pushArgs : Word → List Word → List (List Byte) → M (Option (Word × List Word))
  | sp, ustack, [] => return some (sp, ustack)
  | sp, ustack, s :: argv =>
    if 32 ≤ ustack.length then return none
    else do
      let len := BitVec.ofNat 32 (s.length + 1)
      let sp := (sp - len) &&& ~~~3
      if ← copyout null pgdir sp (fun k => s.getD k 0) len then pushArgs sp (ustack ++ [sp]) argv
      else return none

def bytesOf (ws : List Word) (k : Nat) : Byte := (ws.getD (k / 4) 0).extractLsb' (8 * (k % 4)) 8

def pushStack (sz : Word) (argv : List (List Byte)) : M (Option Word) := do
  match ← pushArgs null pgdir sz [] argv with
  | none => return none
  | some (sp, ustack) =>
    let argc := BitVec.ofNat 32 ustack.length
    let frame := 0xFFFFFFFF :: argc :: (sp - (argc + 1) * 4) :: (ustack ++ [0])
    let sp := sp - (3 + argc + 1) * 4
    if ← copyout null pgdir sp (bytesOf frame) ((3 + argc + 1) * 4) then return some sp
    else return none

end arguments

@[irreducible] def addStack (null : M Word) (pgdir : Page) (sz : Word) (argv : List (List Byte)) :
    M (Option (Word × Word)) := do
  let sz := pgroundup sz
  let sz ← allocuvm L pgdir sz (sz + 8192)
  if sz = 0 then return none
  else
    clearpteu pgdir (sz - 8192)
    let sp ← pushStack null pgdir sz argv
    return sp.map (sz, ·)

def loadImage (null : M Word) (pgdir : Page) (file : List Byte) (elf : Elfhdr) (argv : List (List Byte)) :
    M (Option (Word × Word)) := do
  match ← loadSegments L file pgdir elf.phnum elf.phoff 0 with
  | none => return none
  | some sz => addStack L null pgdir sz argv

/-- What a null pointer points to while the process runs: the word at its address 0. -/
def readNull (pgdir : Page) : M Word := do
  match ← walkpgdir pgdir 0 false with
  | none => throw .null
  | some (t, i) =>
    let pte ← load t i
    if present pte then load (frame pte) 0 else throw .null

def lastElem : List Byte → List Byte → List Byte
  | last, [] => last
  | last, c :: s => lastElem (if c = 47 then s else last) s

/-- `file` is the contents of the file that `path` names, `null` what the kernel reads through a null
pointer.  The trap frame is the last 19 words of the kernel stack. -/
def execNull (null : M Word) (p : Proc) (path : List Byte) (file : Option (List Byte))
    (argv : List (List Byte)) : M (Proc × Int) := do
  match file with
  | none => return (p, -1)
  | some file =>
    match readAll file 0 52 with
    | none => return (p, -1)
    | some bs =>
      let elf := elfhdr bs
      if elf.magic ≠ 0x464C457F then return (p, -1)
      else
        match ← setupkvm L with
        | none => return (p, -1)
        | some pgdir =>
          match ← loadImage L null pgdir file elf argv with
          | none =>
            freevm L pgdir
            return (p, -1)
          | some (sz, sp) =>
            store p.kstack 1019 elf.entry
            store p.kstack 1022 sp
            freevm L p.pgdir
            return ({ p with pgdir := pgdir, sz := sz, name := (lastElem path path).take 15 }, 0)

def exec (p : Proc) (path : List Byte) (file : Option (List Byte)) (argv : List (List Byte)) : M (Proc × Int) :=
  execNull L (readNull p.pgdir) p path file argv

end Xv6.Paging
