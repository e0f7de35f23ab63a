import Xv6.Proc.Table

/-! `struct Input` of `console.c`, and the functions that only look at the line being typed or
move bytes inside it.  Counters are reduced modulo `INPUT_BUF` at some accesses and used as they
are at others; an access outside the arrays gives `none`. -/

namespace Xv6

abbrev inputBuf : Nat := 128

def ch (c : Char) : Byte := BitVec.ofNat 8 c.toNat

def ctrl (c : Char) : Byte := ch c - ch '@'

/-- `a[i]`.  A negative `int` is a large word, outside like every other one. -/
def peek (a : Fin inputBuf → Byte) (i : Word) : Option Byte :=
  if h : i.toNat < inputBuf then some (a ⟨i.toNat, h⟩) else none

def poke (a : Fin inputBuf → Byte) (i : Word) (c : Byte) : Option (Fin inputBuf → Byte) :=
  if h : i.toNat < inputBuf then some (Function.update a ⟨i.toNat, h⟩ c) else none

def place (i : Word) : Fin inputBuf := ⟨i.toNat % inputBuf, Nat.mod_lt _ (by decide)⟩

structure Input where
  buf : Fin inputBuf → Byte
  bufCopy : Fin inputBuf → Byte
  r : Word
  w : Word
  e : Word
  flagCopy : Bool
  flagPaste : Bool

namespace Input

def zero : Input where
  buf := fun _ => 0
  bufCopy := fun _ => 0
  r := 0
  w := 0
  e := 0
  flagCopy := false
  flagPaste := false

def move (x : Input) (i j : Word) : Option Input := do
  let buf ← poke x.buf i (← peek x.buf j)
  let bufCopy ← poke x.bufCopy i (← peek x.bufCopy j)
  some { x with buf, bufCopy }

/-! The loops below end by themselves or run into an access outside the arrays, within
`INPUT_BUF` rounds.  They compare an `int` with a `uint`, that is, as `uint`s. -/

abbrev rounds : Nat := inputBuf + 1

def shiftLeftFrom : Nat → Word → Input → Option Input
  | 0, _, _ => none
  | n + 1, i, x =>
    if i < x.e then do shiftLeftFrom n (i + 1) (← x.move i (i + 1)) else some x

def shiftLeft (x : Input) (lefts : Word) : Option Input := shiftLeftFrom rounds (x.e - lefts) x

def shiftRightFrom (stop : Word) : Nat → Word → Input → Option Input
  | 0, _, _ => none
  | n + 1, i, x =>
    if stop < i then do shiftRightFrom stop n (i - 1) (← x.move i (i - 1)) else some x

def shiftRight (x : Input) (lefts : Word) : Option Input :=
  shiftRightFrom (x.e - lefts) rounds (x.e + 1) x

def clearBufCopyFrom : Nat → Word → Input → Option Input
  | 0, _, _ => none
  | n + 1, i, x =>
    if i < x.e then do
      let bufCopy ← poke x.bufCopy i 0
      clearBufCopyFrom n (i + 1) { x with bufCopy }
    else some x

def clearBufCopy (x : Input) : Option Input := clearBufCopyFrom rounds x.r x

/-- `junk` is what the caller finds when the loop ends without a `return`. -/
def getLastIndexCopyFrom (x : Input) (junk : Word) : Nat → Word → Option Word
  | 0, _ => none
  | n + 1, i =>
    if x.r ≤ i then do
      if (← peek x.bufCopy i) = ch '1' then some i else getLastIndexCopyFrom x junk n (i - 1)
    else some junk

def getLastIndexCopy (x : Input) (junk : Word) : Option Word :=
  x.getLastIndexCopyFrom junk rounds x.e

/-- `hist[j]`.  `junk` is what lies behind the array. -/
def histByte (junk : Nat → Byte) (j : Nat) : Byte :=
  ("history".toList.map ch).getD j (junk j)

def isCommandHistoryFrom (x : Input) (junk : Nat → Byte) : Nat → Word → Nat → Option Bool
  | 0, _, _ => none
  | n + 1, i, j =>
    if i < x.e - 1 then do
      if (← peek x.buf i) ≠ histByte junk j then some false
      else isCommandHistoryFrom x junk n (i + 1) (j + 1)
    else some true

def isCommandHistory (x : Input) (junk : Nat → Byte) : Option Bool :=
  x.isCommandHistoryFrom junk rounds x.r 0

end Input

def isCInNumbers (c : Byte) : Bool := "0123456789".toList.any (c == ch ·)

def isCInOperations (c : Byte) : Bool := "+-*/".toList.any (c == ch ·)

structure NON where
  signN1 : Bool
  signN2 : Bool
  sN1 : Word
  eN1 : Word
  sN2 : Word
  eN2 : Word
  op : Word
  deriving DecidableEq

namespace NON

def zero : NON := ⟨false, false, 0, 0, 0, 0, 0⟩

/-- The first loop of `check_NON_pattern`: back over the digits of the second number to the
operator.  `some none` is `return 0`, there or after the loop. -/
def findOpFrom (x : Input) (last : Word) (non : NON) : Nat → Word → Option (Option NON)
  | 0, _ => none
  | n + 1, i =>
    if x.r ≤ i then do
      let c ← peek x.buf i
      if isCInNumbers c then findOpFrom x last non n (i - 1)
      else if isCInOperations c then do
        if isCInOperations (← peek x.buf (i - 1)) then
          if c = ch '-' then
            some (some { non with op := i - 1, sN2 := i + 1, eN2 := last, signN2 := true })
          else some none
        else some (some { non with op := i, sN2 := i + 1, eN2 := last, signN2 := false })
      else some none
    else some none

/-- The second loop: back over the digits of the first number.  The sign is left as it was when
the digits go back to the read index. -/
def findStartFrom (x : Input) (non : NON) : Nat → Word → Option NON
  | 0, _ => none
  | n + 1, i =>
    if x.r ≤ i then do
      let c ← peek x.buf i
      if isCInNumbers c then findStartFrom x non n (i - 1)
      else some { non with signN1 := c == ch '-', sN1 := i + 1, eN1 := non.op - 1 }
    else some { non with sN1 := x.r, eN1 := non.op - 1 }

def checkFirst (x : Input) (non : NON) : Option (Bool × NON) := do
  if ¬ isCInNumbers (← peek x.buf (non.op - 1)) then some (false, non)
  else do
    let non ← findStartFrom x non Input.rounds (non.op - 2)
    some (true, non)

def checkNONPattern (x : Input) (lefts : Word) (non : NON) : Option (Bool × NON) := do
  if (← peek x.buf (x.e - lefts - 2)) ≠ ch '=' then some (false, non)
  else if ¬ isCInNumbers (← peek x.buf (x.e - lefts - 3)) then some (false, non)
  else
    match ← findOpFrom x (x.e - lefts - 3) non Input.rounds (x.e - lefts - 4) with
    | none => some (false, non)
    | some non => checkFirst x non

def numberFrom (a : Fin inputBuf → Byte) (last : Word) : Nat → Word → Word → Option Word
  | 0, _, _ => none
  | n + 1, i, num =>
    if i ≤ last then do
      let c ← peek a i
      numberFrom a last n (i + 1) (num * 10 + (c.signExtend 32 - 48))
    else some num

def values (x : Input) (non : NON) : Option (Byte × Word × Word) := do
  let num1 ← numberFrom x.buf non.eN1 Input.rounds non.sN1 0
  let num2 ← numberFrom x.buf non.eN2 Input.rounds non.sN2 0
  let op ← peek x.buf non.op
  some (op, if non.signN1 then -num1 else num1, if non.signN2 then -num2 else num2)

end NON

end Xv6
