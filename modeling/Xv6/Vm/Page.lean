import Xv6.Lib.Prog
import Xv6.Proc.Table

/-! Physical pages and page tables: `kalloc.c` and the functions of `vm.c` and `exec.c` that
allocate and free them.  Addresses of pages are page numbers; a page directory has a value of its
own, since only one process refers to it. -/

namespace Xv6.Vm

open Lib

abbrev Page := Nat

/-- `PHYSTOP` and `KERNBASE`, in pages. -/
abbrev phystop : Nat := 57344
abbrev kernbase : Nat := 524288

/-- Where the linker puts `data` and `end`, as physical page numbers.  The kernel begins at
`EXTMEM` and leaves room below 4 megabytes for the page table and the stacks that are set up
before the rest of the memory is free. -/
structure Layout where
  dataPg : Nat
  endPg : Nat
  lt_data : 256 < dataPg
  data_le : dataPg ≤ endPg
  end_le : endPg ≤ 952

structure Pte where
  frame : Nat
  writable : Bool
  user : Bool

structure PageTable where
  page : Page
  pte : Fin 1024 → Option Pte

structure Pgdir where
  page : Page
  pde : Fin 1024 → Option PageTable

/-- The kernel stops: a panic, a page fault, or an access through an address that nothing has set
up, after which anything may happen. -/
inductive Stop
  | panic (msg : String)
  | fault
  | stray
  deriving DecidableEq

/-- `kmem.freelist`.  The links are in the free pages themselves; `cut` says that the one in the
last page is not null but has been overwritten. -/
structure Kmem where
  freelist : List Page
  cut : Bool

abbrev K (α : Type) := Prog Kmem Stop α

def panics {α : Type} (msg : String) : K α := throw (.panic msg)

def kalloc : K (Option Page) := do
  let s ← get
  match s.freelist with
  | [] => if s.cut then throw .stray else return none
  | r :: rest =>
    set { s with freelist := rest }
    return some r

def pdx (a : Nat) : Fin 1024 := Fin.ofNat 1024 (a / 1024)

def ptx (a : Nat) : Fin 1024 := Fin.ofNat 1024 a

namespace Pgdir

/-- The entry for page `a`, if the page table with it exists: `walkpgdir` without `alloc`. -/
def entry (d : Pgdir) (a : Nat) : Option (Option Pte) := (d.pde (pdx a)).map fun t => t.pte (ptx a)

def setTable (d : Pgdir) (i : Fin 1024) (t : PageTable) : Pgdir :=
  { d with pde := Function.update d.pde i (some t) }

def setEntry (d : Pgdir) (a : Nat) (e : Option Pte) : Pgdir :=
  match d.pde (pdx a) with
  | none => d
  | some t => d.setTable (pdx a) { t with pte := Function.update t.pte (ptx a) e }

end Pgdir

def walkpgdir (d : Pgdir) (a : Nat) : K (Option Pgdir) :=
  match d.pde (pdx a) with
  | some _ => return some d
  | none => do
    match ← kalloc with
    | none => return none
    | some pgtab => return some (d.setTable (pdx a) ⟨pgtab, fun _ => none⟩)

def mappage (d : Pgdir) (a : Nat) (e : Pte) : K (Pgdir × Bool) := do
  match ← walkpgdir d a with
  | none => return (d, false)
  | some d =>
    if (d.entry a).join.isSome then panics "remap"
    else return (d.setEntry a (some e), true)

def mappages : Nat → Pgdir → Nat → Pte → K (Pgdir × Bool)
  | 0, d, a, e => mappage d a e
  | n + 1, d, a, e => do
    let (d, ok) ← mappage d a e
    if ok then mappages n d (a + 1) { e with frame := e.frame + 1 }
    else return (d, false)

def pgroundup (sz : Word) : Word := (sz + 4095) &&& ~~~4095

def pagesBelow (a : Nat) (sz : Word) : List Nat := List.range' a ((sz.toNat + 4095) / 4096 - a)

structure Kmap where
  virt : Nat
  phys : Nat
  size : Nat
  writable : Bool

variable (L : Layout)

/-- `V2P(end)` is rounded up to a page. -/
def kfree (v : Page) : K Unit :=
  if v < L.endPg ∨ phystop ≤ v then panics "kfree"
  else modify fun s => { s with freelist := v :: s.freelist }

def freerange (vs : List Page) : K Unit := vs.forM (kfree L)

def kmap : List Kmap :=
  [⟨kernbase, 0, 256, true⟩, ⟨kernbase + 256, 256, L.dataPg - 256, false⟩,
    ⟨kernbase + L.dataPg, L.dataPg, phystop - L.dataPg, true⟩, ⟨1040384, 1040384, 8192, true⟩]

/-- The loop of `deallocuvm`, at most `fuel` turns of it, over the pages below `hi`.  A missing
page table is jumped over. -/
def deallocLoop (hi : Nat) : Nat → Nat → Pgdir → K Pgdir
  | 0, _, d => return d
  | fuel + 1, a, d =>
    if a < hi then
      match d.entry a with
      | none => deallocLoop hi fuel ((a / 1024 + 1) * 1024) d
      | some none => deallocLoop hi fuel (a + 1) d
      | some (some e) =>
        if e.frame = 0 then panics "kfree"
        else do
          kfree L e.frame
          deallocLoop hi fuel (a + 1) (d.setEntry a none)
    else return d

/-- The new size, which is the result, is left to the callers. -/
def deallocuvm (d : Pgdir) (oldsz newsz : Word) : K Pgdir :=
  if oldsz ≤ newsz then return d
  else
    let a := (pgroundup newsz).toNat / 4096
    deallocLoop L ((oldsz.toNat + 4095) / 4096) ((oldsz.toNat + 4095) / 4096 - a) a d

def freeTables (d : Pgdir) : List (Fin 1024) → K Unit
  | [] => return ()
  | i :: is => do
    match d.pde i with
    | none => freeTables d is
    | some t =>
      kfree L t.page
      freeTables d is

def freevm (d : Pgdir) : K Unit := do
  let d ← deallocuvm L d 0x80000000 0
  freeTables L d (List.finRange 1024)
  kfree L d.page

def mapKernel : List Kmap → Pgdir → K (Option Pgdir)
  | [], d => return some d
  | k :: ks, d => do
    let (d, ok) ← mappages (k.size - 1) d k.virt ⟨k.phys, k.writable, false⟩
    if ok then mapKernel ks d
    else do
      freevm L d
      return none

def setupkvm : K (Option Pgdir) := do
  match ← kalloc with
  | none => return none
  | some pgdir => mapKernel L (kmap L) ⟨pgdir, fun _ => none⟩

def allocLoop (oldsz newsz : Word) : List Nat → Pgdir → K (Pgdir × Word)
  | [], d => return (d, newsz)
  | a :: as, d => do
    match ← kalloc with
    | none =>
      let d ← deallocuvm L d newsz oldsz
      return (d, 0)
    | some mem =>
      let (d, ok) ← mappages 0 d a ⟨mem, true, true⟩
      if ok then allocLoop oldsz newsz as d
      else do
        let d ← deallocuvm L d newsz oldsz
        kfree L mem
        return (d, 0)

def allocuvm (d : Pgdir) (oldsz newsz : Word) : K (Pgdir × Word) :=
  if 0x80000000 ≤ newsz then return (d, 0)
  else if newsz < oldsz then return (d, oldsz)
  else allocLoop L oldsz newsz (pagesBelow ((pgroundup oldsz).toNat / 4096) newsz) d

def copyLoop (pgdir : Pgdir) : List Nat → Pgdir → K (Option Pgdir)
  | [], d => return some d
  | i :: is, d =>
    match pgdir.entry i with
    | none => panics "copyuvm: pte should exist"
    | some none => panics "copyuvm: page not present"
    | some (some e) => do
      match ← kalloc with
      | none =>
        freevm L d
        return none
      | some mem =>
        let (d, ok) ← mappages 0 d i { e with frame := mem }
        if ok then copyLoop pgdir is d
        else do
          kfree L mem
          freevm L d
          return none

def copyuvm (pgdir : Pgdir) (sz : Word) : K (Option Pgdir) := do
  match ← setupkvm L with
  | none => return none
  | some d => copyLoop L pgdir (pagesBelow 0 sz) d

/-- A program header.  `reads i` says that page `i` of the segment can be read from the file. -/
structure ProgHdr where
  load : Bool
  vaddr : Word
  memsz : Word
  filesz : Word
  reads : Nat → Bool

/-- The file as `exec` reads it: whether it has a valid header, and the program headers that can
be read (`none` is one that cannot). -/
structure Image where
  header : Bool
  phdrs : List (Option ProgHdr)

def loadLoop (d : Pgdir) (ph : ProgHdr) : List Nat → K Bool
  | [] => return true
  | i :: is =>
    if (d.entry (ph.vaddr.toNat / 4096 + i)).isNone then panics "loaduvm: address should exist"
    else if ph.reads i then loadLoop d ph is
    else return false

def loaduvm (d : Pgdir) (ph : ProgHdr) : K Bool := loadLoop d ph (pagesBelow 0 ph.filesz)

def clearpteu (d : Pgdir) (a : Nat) : K Pgdir :=
  match d.entry a with
  | none => panics "clearpteu"
  | some e => return d.setEntry a (e.map fun e => { e with user := false })

/-- What an address that `uva2ka` returns is in: a page of the process, or the page that a word
names which is no entry of its page table. -/
inductive Target
  | own (frame : Page)
  | stray (frame : Page)

section copyout

-- The word at address 0 of the calling process, if that page is there.  `uva2ka` takes it for the
-- entry when there is no page table for its address, so that the pointer to the entry is null.
variable (word0 : Option Word)

def uva2ka (d : Pgdir) (a : Nat) : K (Option Target) :=
  match d.entry a with
  | none =>
    match word0 with
    | none => throw .fault
    | some w => return if w.getLsbD 0 && w.getLsbD 2 then some (.stray (w >>> 12).toNat) else none
  | some none => return none
  | some (some e) => return if e.user then some (.own e.frame) else none

/-- A copy of `n` bytes to offset `off`, the last of them 0 and no other.  At the start of a free
page it overwrites the link, unless it is only the 0, which the low byte of a link already is. -/
def memmove (off n : Nat) : Target → K Unit
  | .own _ => return ()
  | .stray f => do
    let s ← get
    if f ∈ s.freelist then
      if off = 0 ∧ 1 < n then
        set { freelist := s.freelist.takeWhile (· ≠ f) ++ [f], cut := true : Kmem }
      else return ()
    else throw .stray

def copyoutLoop (d : Pgdir) : Nat → Word → Word → K Bool
  | 0, _, _ => return true
  | fuel + 1, va, len =>
    if len = 0 then return true
    else do
      match ← uva2ka word0 d (va.toNat / 4096) with
      | none => return false
      | some pa0 =>
        let va0 := va &&& ~~~4095
        let n := if len < 4096 - (va - va0) then len else 4096 - (va - va0)
        memmove (va - va0).toNat n.toNat pa0
        copyoutLoop d fuel (va0 + 4096) (len - n)

def copyout (d : Pgdir) (va len : Word) : K Bool := copyoutLoop word0 d len.toNat va len

/-- The loop over `argv`, given by the lengths of the strings; `none` stands for `goto bad`. -/
def pushArgs (d : Pgdir) : Nat → Word → List Nat → K (Option Word)
  | _, sp, [] => return some sp
  | argc, sp, n :: args =>
    if 32 ≤ argc then return none
    else do
      let sp := (sp - BitVec.ofNat 32 (n + 1)) &&& ~~~3
      if ← copyout word0 d sp (BitVec.ofNat 32 (n + 1)) then pushArgs d (argc + 1) sp args
      else return none

def setupStack (d : Pgdir) (sz : Word) (args : List Nat) : K (Pgdir × Option Word) := do
  let (d, sz) ← allocuvm L d (pgroundup sz) (pgroundup sz + 8192)
  if sz = 0 then return (d, none)
  else do
    let d ← clearpteu d ((sz - 8192).toNat / 4096)
    match ← pushArgs word0 d 0 sz args with
    | none => return (d, none)
    | some sp =>
      let len := BitVec.ofNat 32 ((3 + args.length + 1) * 4)
      if ← copyout word0 d (sp - len) len then return (d, some sz)
      else return (d, none)

end copyout

def loadSegment (d : Pgdir) (sz : Word) : Option ProgHdr → K (Pgdir × Option Word)
  | none => return (d, none)
  | some ph =>
    if ph.load = false then return (d, some sz)
    else if ph.memsz < ph.filesz then return (d, none)
    else if ph.vaddr + ph.memsz < ph.vaddr then return (d, none)
    else do
      let (d, sz) ← allocuvm L d sz (ph.vaddr + ph.memsz)
      if sz = 0 then return (d, none)
      else if ph.vaddr.toNat % 4096 ≠ 0 then return (d, none)
      else do
        if ← loaduvm d ph then return (d, some sz)
        else return (d, none)

def loadSegments : List (Option ProgHdr) → Pgdir → Word → K (Pgdir × Option Word)
  | [], d, sz => return (d, some sz)
  | ph :: phs, d, sz => do
    match ← loadSegment L d sz ph with
    | (d, none) => return (d, none)
    | (d, some sz) => loadSegments phs d sz

def loadImage (word0 : Option Word) (img : Image) (args : List Nat) : K (Option (Pgdir × Word)) :=
  if img.header = false then return none
  else do
    match ← setupkvm L with
    | none => return none
    | some d =>
      match ← loadSegments L img.phdrs d 0 with
      | (d, none) =>
        freevm L d
        return none
      | (d, some sz) =>
        match ← setupStack L word0 d sz args with
        | (d, none) =>
          freevm L d
          return none
        | (d, some sz) => return some (d, sz)

end Xv6.Vm
