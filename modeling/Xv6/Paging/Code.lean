import Xv6.Vm.Page

/-! Physical memory word by word: `kalloc.c` with its list of free pages in the pages themselves,
and the functions of `vm.c` on page directories and page tables that are pages of this memory. -/

namespace Xv6.Paging

open Function Lib
open Vm (Page Layout phystop kernbase pgroundup)

/-- `kmem.freelist` and the physical memory, by page and word.  What is above `PHYSTOP` is no
memory. -/
structure Mem where
  freelist : Word
  word : Page → Fin 1024 → Word

/-- `hang` is a loop without an end, `null` the use of a null pointer where nothing is mapped. -/
inductive Stop
  | panic (msg : String)
  | fault
  | null
  | hang
  deriving DecidableEq

abbrev M (α : Type) := Prog Mem Stop α

def panics {α : Type} (msg : String) : M α := throw (.panic msg)

/-! ## Addresses and entries -/

def addr (p : Page) : Word := BitVec.ofNat 32 (4096 * p)
def p2v (p : Page) : Word := addr p + 0x80000000

def pdx (va : Word) : Fin 1024 := Fin.ofNat 1024 (va >>> 22).toNat
def ptx (va : Word) : Fin 1024 := Fin.ofNat 1024 (va >>> 12).toNat
def pgaddr (d : Nat) : Word := BitVec.ofNat 32 (d <<< 22)

def pgrounddown (a : Word) : Word := a &&& ~~~4095

def present (pte : Word) : Bool := pte.getLsbD 0
def user (pte : Word) : Bool := pte.getLsbD 2
def pteFlags (pte : Word) : Word := pte &&& 0xFFF

def frame (pte : Word) : Page := (pte >>> 12).toNat

namespace Mem

def setPage (m : Mem) (p : Page) (ws : Fin 1024 → Word) : Mem :=
  { m with word := update m.word p ws }

def setWord (m : Mem) (p : Page) (i : Fin 1024) (w : Word) : Mem :=
  m.setPage p (update (m.word p) i w)

end Mem

def byteOf (ws : Fin 1024 → Word) (k : Fin 4096) : Byte :=
  (ws ⟨k.val / 4, by omega⟩).extractLsb' (8 * (k.val % 4)) 8

def ofBytes (b : Fin 4096 → Byte) (i : Fin 1024) : Word :=
  b ⟨4 * i + 3, by omega⟩ ++ b ⟨4 * i + 2, by omega⟩ ++ b ⟨4 * i + 1, by omega⟩ ++ b ⟨4 * i, by omega⟩

def readPage (p : Page) : M (Fin 1024 → Word) := do
  let m ← get
  if p < phystop then return m.word p else throw .fault

def writePage (p : Page) (ws : Fin 1024 → Word) : M Unit := do
  let m ← get
  if p < phystop then set (m.setPage p ws) else throw .fault

def load (p : Page) (i : Fin 1024) : M Word := do
  let ws ← readPage p
  return ws i

def store (p : Page) (i : Fin 1024) (w : Word) : M Unit := do
  let ws ← readPage p
  writePage p (update ws i w)

def memmove (p : Page) (off n : Nat) (src : Nat → Byte) : M Unit := do
  let ws ← readPage p
  writePage p (ofBytes fun k => if off ≤ k.val ∧ k.val < off + n then src (k.val - off) else byteOf ws k)

def runPage (v : Word) : M Page :=
  if 0x80000000 ≤ v ∧ v.toNat % 4096 = 0 then return (v.toNat - 0x80000000) / 4096 else throw .fault

def kalloc : M (Option Page) := do
  let m ← get
  if m.freelist = 0 then return none
  else
    let r ← runPage m.freelist
    let next ← load r 0
    set { m with freelist := next }
    return some r

def walkpgdir (pgdir : Page) (va : Word) (alloc : Bool) : M (Option (Page × Fin 1024)) := do
  let pde ← load pgdir (pdx va)
  if present pde then return some (frame pde, ptx va)
  else if alloc then
    match ← kalloc with
    | none => return none
    | some pgtab =>
      writePage pgtab fun _ => 0
      store pgdir (pdx va) (addr pgtab ||| 7)
      return some (pgtab, ptx va)
  else return none

/-- The number of pages, which no loop over pages that ends exceeds. -/
abbrev manyPages : Nat := 1048577

def mappagesLoop (pgdir : Page) (last perm : Word) : Nat → Word → Word → M Bool
  | 0, _, _ => throw .hang
  | fuel + 1, a, pa => do
    match ← walkpgdir pgdir a true with
    | none => return false
    | some (t, i) =>
      let pte ← load t i
      if present pte then panics "remap"
      else
        store t i (pa ||| perm ||| 1)
        if a = last then return true
        else mappagesLoop pgdir last perm fuel (a + 4096) (pa + 4096)

def mappages (pgdir : Page) (va size pa perm : Word) : M Bool :=
  mappagesLoop pgdir (pgrounddown (va + size - 1)) perm manyPages (pgrounddown va) pa

structure Kmap where
  virt : Word
  physStart : Word
  physEnd : Word
  perm : Word

variable (L : Layout)

def kfree (v : Page) : M Unit := do
  if v < L.endPg ∨ phystop ≤ v then panics "kfree"
  else
    let m ← get
    writePage v fun i => if i = 0 then m.freelist else 0x01010101
    modify fun m => { m with freelist := p2v v }

def kmap : List Kmap :=
  [⟨0x80000000, 0, 0x100000, 2⟩,
    ⟨0x80100000, 0x100000, addr L.dataPg, 0⟩,
    ⟨p2v L.dataPg, addr L.dataPg, 0xE000000, 2⟩,
    ⟨0xFE000000, 0xFE000000, 0, 2⟩]

def deallocLoop (pgdir : Page) (oldsz : Word) : Nat → Word → M Unit
  | 0, _ => throw .hang
  | fuel + 1, a =>
    if a < oldsz then do
      match ← walkpgdir pgdir a false with
      | none => deallocLoop pgdir oldsz fuel (pgaddr (pdx a + 1 : Nat) - 4096 + 4096)
      | some (t, i) =>
        let pte ← load t i
        if present pte then
          if frame pte = 0 then panics "kfree"
          else
            kfree L (frame pte)
            store t i 0
            deallocLoop pgdir oldsz fuel (a + 4096)
        else deallocLoop pgdir oldsz fuel (a + 4096)
    else return ()

def deallocuvm (pgdir : Page) (oldsz newsz : Word) : M Word :=
  if oldsz ≤ newsz then return oldsz
  else do
    deallocLoop L pgdir oldsz manyPages (pgroundup newsz)
    return newsz

def freeTables (pgdir : Page) : List (Fin 1024) → M Unit
  | [] => return ()
  | i :: is => do
    let pde ← load pgdir i
    if present pde then
      kfree L (frame pde)
      freeTables pgdir is
    else freeTables pgdir is

def freevm (pgdir : Page) : M Unit := do
  discard (deallocuvm L pgdir 0x80000000 0)
  freeTables L pgdir (List.finRange 1024)
  kfree L pgdir

def mapKernel (pgdir : Page) : List Kmap → M (Option Page)
  | [] => return some pgdir
  | k :: ks => do
    if ← mappages pgdir k.virt (k.physEnd - k.physStart) k.physStart k.perm then mapKernel pgdir ks
    else
      freevm L pgdir
      return none

def setupkvm : M (Option Page) := do
  match ← kalloc with
  | none => return none
  | some pgdir =>
    writePage pgdir fun _ => 0
    if 0xFE000000 < p2v phystop then panics "PHYSTOP too high"
    else mapKernel L pgdir (kmap L)

def allocLoop (pgdir : Page) (oldsz newsz : Word) : Nat → Word → M Word
  | 0, _ => throw .hang
  | fuel + 1, a =>
    if a < newsz then do
      match ← kalloc with
      | none =>
        discard (deallocuvm L pgdir newsz oldsz)
        return 0
      | some mem =>
        writePage mem fun _ => 0
        if ← mappages pgdir a 4096 (addr mem) 6 then allocLoop pgdir oldsz newsz fuel (a + 4096)
        else
          discard (deallocuvm L pgdir newsz oldsz)
          kfree L mem
          return 0
    else return newsz

def allocuvm (pgdir : Page) (oldsz newsz : Word) : M Word :=
  if 0x80000000 ≤ newsz then return 0
  else if newsz < oldsz then return oldsz
  else allocLoop L pgdir oldsz newsz manyPages (pgroundup oldsz)

def copyLoop (pgdir : Page) (sz : Word) (d : Page) : Nat → Word → M (Option Page)
  | 0, _ => throw .hang
  | fuel + 1, i =>
    if i < sz then do
      match ← walkpgdir pgdir i false with
      | none => panics "copyuvm: pte should exist"
      | some (t, j) =>
        let pte ← load t j
        if present pte then
          match ← kalloc with
          | none =>
            freevm L d
            return none
          | some mem =>
            let ws ← readPage (frame pte)
            writePage mem ws
            if ← mappages d i 4096 (addr mem) (pteFlags pte) then copyLoop pgdir sz d fuel (i + 4096)
            else
              kfree L mem
              freevm L d
              return none
        else panics "copyuvm: page not present"
    else return some d

def copyuvm (pgdir : Page) (sz : Word) : M (Option Page) := do
  match ← setupkvm L with
  | none => return none
  | some d => copyLoop L pgdir sz d manyPages 0

def clearpteu (pgdir : Page) (uva : Word) : M Unit := do
  match ← walkpgdir pgdir uva false with
  | none => panics "clearpteu"
  | some (t, i) =>
    let pte ← load t i
    store t i (pte &&& ~~~4)

/-- What `growproc` and `exec` use of a process.  Its trap frame is at the end of the kernel stack. -/
structure Proc where
  pgdir : Page
  sz : Word
  kstack : Page
  name : List Byte
  deriving DecidableEq

def growproc (p : Proc) (n : Word) : M (Proc × Int) := do
  if 0 < n.toInt then
    let sz ← allocuvm L p.pgdir p.sz (p.sz + n)
    if sz = 0 then return (p, -1)
    else return ({ p with sz := sz }, 0)
  else if n.toInt < 0 then
    let sz ← deallocuvm L p.pgdir p.sz (p.sz + n)
    if sz = 0 then return (p, -1)
    else return ({ p with sz := sz }, 0)
  else return (p, 0)

/-! ## `copyout` -/

section copyout

-- How a null pointer to an entry is read.
variable (null : M Word)

def uva2ka (pgdir : Page) (uva : Word) : M (Option Page) := do
  let pte ← (do
    match ← walkpgdir pgdir uva false with
    | none => null
    | some (t, i) => load t i)
  return if present pte && user pte && p2v (frame pte) != 0 then some (frame pte) else none

def copyoutLoop (pgdir : Page) : Nat → Word → (Nat → Byte) → Word → M Bool
  | 0, _, _, _ => throw .hang
  | fuel + 1, va, buf, len =>
    if len = 0 then return true
    else do
      let va0 := pgrounddown va
      match ← uva2ka null pgdir va0 with
      | none => return false
      | some pa0 =>
        let n := if len < 4096 - (va - va0) then len else 4096 - (va - va0)
        memmove pa0 (va - va0).toNat n.toNat buf
        copyoutLoop pgdir fuel (va0 + 4096) (fun k => buf (k + n.toNat)) (len - n)

def copyout (pgdir : Page) (va : Word) (p : Nat → Byte) (len : Word) : M Bool :=
  copyoutLoop null pgdir (len.toNat + 1) va p len

end copyout

end Xv6.Paging
