import Xv6.Lib.Prog
import Xv6.Proc.Table

namespace Xv6.Umalloc

open Function Lib Prog

structure Header where
  ptr : Nat
  size : Nat
  deriving DecidableEq

structure Heap where
  freep : Nat
  hdr : Nat → Header
  sz : Nat
  /-- The pages below are mapped. -/
  top : Nat

inductive Stop
  | fault
  | fuel

abbrev M (α : Type) := Prog Heap Stop α

def load (a : Nat) : M Header := do
  let s ← get
  if a + 8 ≤ s.top then return s.hdr a else throw .fault

def Heap.setPtr (a v : Nat) (s : Heap) : Heap := { s with hdr := update s.hdr a { s.hdr a with ptr := v } }

def Heap.setSize (a v : Nat) (s : Heap) : Heap := { s with hdr := update s.hdr a { s.hdr a with size := v } }

def setPtr (a v : Nat) : M Unit := do
  let _ ← load a
  modify (Heap.setPtr a v)

def setSize (a v : Nat) : M Unit := do
  let _ ← load a
  modify (Heap.setSize a v)

def setFreep (p : Nat) : M Unit := modify fun s => { s with freep := p }

def plus (p n : Nat) : Nat := (p + 8 * n) % 2 ^ 32

def turns : Nat := 2 ^ 32

def findPrev (bp : Nat) : Nat → Nat → M Nat
  | 0, _ => throw .fuel
  | fuel + 1, p => do
    let h ← load p
    if bp > p ∧ bp < h.ptr then return p
    else if p ≥ h.ptr ∧ (bp > p ∨ bp < h.ptr) then return p
    else findPrev bp fuel h.ptr

/-- `x` gets `y` as its successor, or is joined with it: `if(x + x->s.size == y){..} else x->s.ptr = y;` -/
def linkTo (x y : Nat) : M Unit := do
  if plus x (← load x).size = y then
    setSize x (((← load x).size + (← load y).size) % 2 ^ 32)
    setPtr x (← load y).ptr
  else setPtr x y

def free (ap : Nat) : M Unit := do
  let bp := (ap + (2 ^ 32 - 8)) % 2 ^ 32
  let p ← findPrev bp turns (← get).freep
  linkTo bp (← load p).ptr
  linkTo p bp
  setFreep p

def pgroundup (a : Nat) : Nat := (a + 4095) % 2 ^ 32 / 4096 * 4096

abbrev kernbase : Nat := 0x80000000

/-- The size that `allocuvm` returns, where `avail` says that there is memory for its pages. -/
def allocuvm (avail : Bool) (oldsz newsz : Nat) : Nat :=
  if newsz ≥ kernbase then 0
  else if newsz < oldsz then oldsz
  else if pgroundup oldsz < newsz ∧ avail = false then 0
  else newsz

def deallocuvm (oldsz newsz : Nat) : Nat := if newsz ≥ oldsz then oldsz else newsz

def growproc (avail : Bool) (n : Word) : M Bool := do
  let s ← get
  let newsz := (s.sz + n.toNat) % 2 ^ 32
  if n.toInt > 0 then
    let sz := allocuvm avail s.sz newsz
    if sz = 0 then return false
    else
      set { s with sz := sz, top := max s.top (pgroundup sz) }
      return true
  else if n.toInt < 0 then
    let sz := deallocuvm s.sz newsz
    -- the pages are gone even if the new size is 0
    let s := if newsz < s.sz then { s with top := pgroundup newsz } else s
    if sz = 0 then
      set s
      return false
    else
      set { s with sz := sz }
      return true
  else return true

def sbrk (avail : Bool) (n : Word) : M (Option Nat) := do
  let addr := (← get).sz
  if ← growproc avail n then return some addr else return none

/-- 0 is the null pointer. -/
def morecore (avail : Bool) (nu : Nat) : M Nat := do
  let nu := if nu < 4096 then 4096 else nu
  match ← sbrk avail (.ofNat 32 (nu * 8)) with
  | none => return 0
  | some hp =>
    setSize hp nu
    free (plus hp 1)
    return (← get).freep

def takeFrom (nunits prevp p : Nat) : M Nat := do
  let h ← load p
  if h.size = nunits then
    setPtr prevp h.ptr
    setFreep prevp
    return plus p 1
  else
    setSize p (h.size - nunits)
    let p := plus p (h.size - nunits)
    setSize p nunits
    setFreep prevp
    return plus p 1

def mallocLoop (avail : Bool) (nunits : Nat) : Nat → Nat → Nat → M Nat
  | 0, _, _ => throw .fuel
  | fuel + 1, prevp, p => do
    if (← load p).size ≥ nunits then takeFrom nunits prevp p
    else if p = (← get).freep then
      let p ← morecore avail nunits
      if p = 0 then return 0 else mallocLoop avail nunits fuel p (← load p).ptr
    else mallocLoop avail nunits fuel p (← load p).ptr

def nunits (nbytes : Nat) : Nat := (nbytes + 8 - 1) % 2 ^ 32 / 8 + 1

def initFree (base : Nat) : M Unit := do
  if (← get).freep = 0 then
    setPtr base base
    setFreep base
    setSize base 0

def malloc (base : Nat) (avail : Bool) (nbytes : Nat) : M Nat := do
  initFree base
  let prevp := (← get).freep
  mallocLoop avail (nunits nbytes) turns prevp (← load prevp).ptr

end Xv6.Umalloc
