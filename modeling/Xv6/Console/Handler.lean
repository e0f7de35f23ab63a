import Xv6.Console.Input
import Xv6.Lib.Run

/-! The console of `console.c`: echoing and printing, the keys `consoleintr` handles, one pass of
the loop of `consoleread`.  `none` is a kernel that has panicked and does not return.  The first
access outside `buf` or `buf_copy` sets `oob` and has no other effect here; in C it corrupts what
lies beside the arrays, so a state with `oob` set says nothing about the kernel. -/

namespace Xv6

open Function Lib

structure History where
  hist : Fin 10 → Input
  index : Int
  count : Int
  last : Int

namespace History

def zero : History := ⟨fun _ => Input.zero, -1, 0, -1⟩

def entry (h : History) (i : Int) : Input := h.hist (Fin.ofNat 10 i.toNat)

def shiftLeftPreviousHistories (h : History) : History :=
  { h with hist := fun i => if i.val < 9 then h.hist (i + 1) else h.hist i }

def record (h : History) (x : Input) : History :=
  let h := if h.count = 10 then h.shiftLeftPreviousHistories else h
  let h :=
    if h.count < 10 then { h with count := h.count + 1, last := h.last + 1, index := h.last + 2 }
    else { h with index := 10 }
  { h with hist := update h.hist (Fin.ofNat 10 h.last.toNat) x }

end History

structure Screen where
  crt : Int → BitVec 16
  pos : Nat

structure Console where
  input : Input
  lefts : Word
  history : History
  non : NON
  screen : Screen
  oob : Bool

inductive Glyph
  | backspace
  | char (c : Byte)

/-- The argument words of a call of `cprintf`, and the strings they point to. -/
structure Args where
  arg : Nat → Word
  string : Word → List Byte

/-- What a key can find where nothing was put: a return value, the bytes behind the `hist` of
`is_command_history`, and for each entry of the history the argument words of the call of
`cprintf` that lists it and the bytes behind its arrays. -/
structure Junk where
  ret : Word
  behind : Nat → Byte
  args : Nat → Args
  tail : Nat → List Byte

/-- The floating point arithmetic of `getting_NON_values`, `replacing_NON` and
`print_NON_result`. -/
structure Arith where
  /-- Whether the result is negative, its integer part and its fraction digit. -/
  eval : Byte → Word → Word → Bool × Word × Word
  digits : Word → Nat
  digits_le : ∀ a, digits a ≤ 10
  /-- Only a negative `int` has no digits; a result is converted to one when it is too large
  for the type, and is then off by more than a tenth. -/
  prints : ∀ op a b, 0 < digits (eval op a b).2.1 ∨ (eval op a b).2.2 ≠ 0

namespace Console

def boot (screen : Screen) : Console where
  input := .zero
  lefts := 0
  history := .zero
  non := .zero
  screen := screen
  oob := false

def cursor (s : Console) : Word := s.input.e - s.lefts

def fault (s : Console) : Console := { s with oob := true }

def onInput (s : Console) (f : Input → Option Input) : Console :=
  match f s.input with
  | some x => { s with input := x }
  | none => s.fault

def cell (c : Byte) : BitVec 16 := c.zeroExtend 16 ||| 0x0700

def shiftLeftNextChars (s : Console) (pos : Nat) : Console :=
  let crt := fun i : Int =>
    if pos - 1 ≤ i ∧ i < pos + s.lefts.toInt then s.screen.crt (i + 1) else s.screen.crt i
  { s.onInput (·.shiftLeft s.lefts) with screen := ⟨crt, s.screen.pos⟩ }

def shiftRightNextChars (s : Console) (pos : Nat) : Console :=
  let crt := fun i : Int =>
    if pos < i ∧ i ≤ pos + s.lefts.toInt then s.screen.crt (i - 1) else s.screen.crt i
  { s.onInput (·.shiftRight s.lefts) with screen := ⟨crt, s.screen.pos⟩ }

def settle (s : Console) (pos : Nat) : Option Console :=
  if 25 * 80 < pos then none
  else
    let crt := s.screen.crt
    let scrolled :=
      if 24 ≤ pos / 80 then
        let crt := fun i : Int => if 0 ≤ i ∧ i < 23 * 80 then crt (i + 80) else crt i
        (⟨fun i => if (pos - 80 : Nat) ≤ i ∧ i < 24 * 80 then 0 else crt i, pos - 80⟩ : Screen)
      else ⟨crt, pos⟩
    let crt := update scrolled.crt (scrolled.pos + s.lefts.toInt) (cell (ch ' '))
    some { s with screen := ⟨crt, scrolled.pos⟩ }

def cgaputc (s : Console) : Glyph → Option Console
  | .backspace => (s.shiftLeftNextChars s.screen.pos).settle (s.screen.pos - 1)
  | .char c =>
    let pos := s.screen.pos
    if c = ch '\n' then { s with lefts := 0 }.settle (pos + (80 - pos % 80))
    else
      let s := s.shiftRightNextChars pos
      { s with screen := ⟨update s.screen.crt pos (cell c), pos⟩ }.settle (pos + 1)

def consputc (s : Console) : Glyph → Option Console
  | .backspace =>
    let x := { s.input with e := s.input.e - 1 }
    let p := place (x.e - s.lefts)
    { s with input :=
        { x with buf := update x.buf p 0, bufCopy := update x.bufCopy p 0 } }.cgaputc
      .backspace
  | .char c => s.cgaputc (.char c)

def consolewrite (s : Console) (bs : List Byte) : Option Console :=
  bs.foldlM (fun s c => s.consputc (.char c)) s

def printint (xx : Word) (base : Nat) (sign : Bool) : List Byte :=
  if sign ∧ xx.toInt < 0 then ch '-' :: (Nat.toDigits base (-xx).toNat).map ch
  else (Nat.toDigits base xx.toNat).map ch

def formatted (args : Args) : List Byte → Nat → List Byte
  | [], _ => []
  | [c], _ => if c = ch '%' then [] else [c]
  | c :: d :: fmt, k =>
    if c ≠ ch '%' then c :: formatted args (d :: fmt) k
    else if d = ch 'd' then printint (args.arg k) 10 true ++ formatted args fmt (k + 1)
    else if d = ch 'x' ∨ d = ch 'p' then
      printint (args.arg k) 16 false ++ formatted args fmt (k + 1)
    else if d = ch 's' then
      (if args.arg k = 0 then "(null)".toList.map ch else args.string (args.arg k)) ++
        formatted args fmt (k + 1)
    else if d = ch '%' then ch '%' :: formatted args fmt k
    else ch '%' :: d :: formatted args fmt k

def cprintf (s : Console) (fmt : List Byte) (args : Args) : Option Console :=
  s.consolewrite (formatted args fmt 0)

/-- The string at `&buf[r]`.  It goes on in `buf_copy` and beyond where `buf` has no end. -/
def lineText (x : Input) (tail : List Byte) : List Byte :=
  (((List.finRange inputBuf).map x.buf ++ (List.finRange inputBuf).map x.bufCopy ++
    tail).drop x.r.toNat).takeWhile (· ≠ 0)

def printHistory (s : Console) (junk : Junk) : Option Console :=
  (List.range s.history.count.toNat).foldlM
    (fun s (i : Nat) => s.cprintf (lineText (s.history.entry i) (junk.tail i)) (junk.args i)) s

def backspaces : Nat → Console → Option Console
  | 0, s => some s
  | n + 1, s => (s.consputc .backspace).bind (backspaces n)

def insert (s : Console) (c : Byte) : Option Console :=
  (s.consputc (.char c)).map fun s =>
    let p := place s.cursor
    let x := s.input
    let bufCopy := if x.flagPaste then update x.bufCopy p (ch '1') else x.bufCopy
    { s with input := { x with buf := update x.buf p c, bufCopy, e := x.e + 1 } }

def insertAll (s : Console) (bs : List Byte) : Option Console := bs.foldlM insert s

def updateCursor (s : Console) (move : Bool) : Console :=
  let pos := if move then s.screen.pos + 1 else s.screen.pos + 0xffff
  { s with screen := { s.screen with pos := pos % 0x10000 } }

def killLineFrom : Nat → Console → Option Console
  | 0, s => some s
  | n + 1, s =>
    if s.input.e ≠ s.input.w ∧ s.input.buf (place (s.input.e - 1)) ≠ ch '\n' then
      (s.consputc .backspace).bind (killLineFrom n)
    else some s

def killLine (s : Console) : Option Console :=
  let pos := (s.screen.pos + s.lefts.toNat) % 0x10000
  killLineFrom (s.input.e - s.input.w).toNat
    { s with lefts := 0, screen := { s.screen with pos } }

def eraseLineFrom : Nat → Word → Console → Option Console
  | 0, _, s => some s.fault
  | n + 1, i, s =>
    if s.input.w < i then
      match peek s.input.buf (i - 1) with
      | none => some s.fault
      | some c =>
        (if c ≠ ch '\n' then s.consputc .backspace else some s).bind (eraseLineFrom n (i - 1))
    else some s

def recallEntry (s : Console) : Console :=
  let x := s.history.entry s.history.index
  { s with input := { x with e := x.e - 1 } }.onInput fun x => do
    let buf ← poke x.buf x.e 0
    some { x with buf }

def showLineFrom : Nat → Word → Console → Option Console
  | 0, _, s => some s.fault
  | n + 1, i, s =>
    if i < s.input.e then
      match peek s.input.buf i with
      | none => some s.fault
      | some c => (s.consputc (.char c)).bind (showLineFrom n (i + 1))
    else some s

def moveThroughHistory (s : Console) (index : Int) : Option Console :=
  (eraseLineFrom Input.rounds s.input.e { s with lefts := 0 }).bind fun s =>
    let s := { s with history := { s.history with index } }.recallEntry
    showLineFrom Input.rounds s.input.r s

def upIndex (h : History) : Int := h.index - 1

def downIndex (h : History) : Int := (if h.index = -1 then h.index + 1 else h.index) + 1

def copyKey (s : Console) : Console :=
  let s := s.onInput (·.clearBufCopy)
  { s with input := { s.input with flagCopy := true, flagPaste := true } }

def pasteFrom (junk : Junk) : Nat → Word → Word → Console → Option Console
  | 0, _, _, s => some s.fault
  | n + 1, i, temp, s =>
    if i.slt temp then
      match peek s.input.bufCopy i, peek s.input.buf i with
      | some mark, some tempChar =>
        if mark = ch '1' then
          (s.consputc (.char tempChar)).bind fun s =>
            let p := place s.cursor
            let x := { s.input with
              buf := update s.input.buf p tempChar
              bufCopy := update s.input.bufCopy p 0 }
            let next := if s.cursor - 1 < i then i + 1 else i
            match x.getLastIndexCopy junk.ret with
            | none => some s.fault
            | some last =>
              let temp := if s.cursor - 1 < last then temp + 1 else temp
              pasteFrom junk n (next + 1) temp { s with input := { x with e := x.e + 1 } }
        else pasteFrom junk n (i + 1) temp s
      | _, _ => some s.fault
    else some s

def paste (s : Console) (junk : Junk) : Option Console :=
  if s.input.flagCopy then
    (pasteFrom junk Input.rounds s.input.r s.input.e s).map fun s =>
      { s with input := { s.input with flagPaste := false } }
  else some s

def numeral (fp : Arith) (result : Word) : List Byte :=
  (List.range (fp.digits result)).reverse.map fun i =>
    BitVec.ofInt 8 ((result.toInt.tdiv (10 ^ i)).tmod 10 + 48)

def resultText (fp : Arith) (negative : Bool) (integer fraction : Word) : List Byte :=
  (if negative then [ch '-'] else []) ++ numeral fp integer ++
    if fraction ≠ 0 then ch '.' :: numeral fp fraction else []

def replacingNON (fp : Arith) (s : Console) (result : Bool × Word × Word) : Option Console :=
  let i := if s.non.signN1 then s.non.sN1 - 1 else s.non.sN1
  (backspaces ((s.non.eN2 + 2).toInt - i.toInt + 1).toNat s).bind fun s =>
    s.insertAll (resultText fp result.1 result.2.1 result.2.2)

def gettingNONValues (fp : Arith) (s : Console) : Option Console :=
  match s.non.values s.input with
  | none => some s.fault
  | some (op, num1, num2) => s.replacingNON fp (fp.eval op num1 num2)

def evaluate (fp : Arith) (s : Console) : Option Console :=
  match NON.checkNONPattern s.input s.lefts s.non with
  | none => some s.fault
  | some (found, non) =>
    let s := { s with non }
    if found then s.gettingNONValues fp else some s

def historyCommand (s : Console) (junk : Junk) : Option Console :=
  match s.input.isCommandHistory junk.behind with
  | none => some s.fault
  | some found => if found then s.printHistory junk else some s

def commit (s : Console) (junk : Junk) : Option Console :=
  (historyCommand { s with input := { s.input with flagCopy := false } } junk).map fun s =>
    { s with history := s.history.record s.input, input := { s.input with w := s.input.e } }

def typeKey (fp : Arith) (s : Console) (c : Byte) : Option Console :=
  (s.insert c).bind fun s => if c = ch '?' then s.evaluate fp else some s

def defaultKey (fp : Arith) (s : Console) (c : Byte) (junk : Junk) : Option Console :=
  if c ≠ 0 ∧ s.input.e - s.input.r < inputBuf then
    let c := if c = ch '\r' then ch '\n' else c
    (if c = ctrl 'F' then s.paste junk else s.typeKey fp c).bind fun s =>
      if c = ch '\n' ∨ c = ctrl 'D' ∨ s.input.e = s.input.r + inputBuf then s.commit junk
      else some s
  else some s

inductive Key
  | procdump | kill | backspace | copy | left | right | up | down | other

def Key.of (c : Byte) : Key :=
  if c = ctrl 'P' then .procdump
  else if c = ctrl 'U' then .kill
  else if c = ctrl 'H' ∨ c = 0x7f then .backspace
  else if c = ctrl 'S' then .copy
  else if c = 0xe4 then .left
  else if c = 0xe5 then .right
  else if c = 0xe2 then .up
  else if c = 0xe3 then .down
  else .other

/-- One round of the loop of `consoleintr`.  The listing of `^P` is printed later. -/
def consoleintr (fp : Arith) (s : Console) (c : Byte) (junk : Junk) : Option Console :=
  match Key.of c with
  | .procdump => some s
  | .kill => s.killLine
  | .backspace => if s.input.w < s.cursor then s.consputc .backspace else some s
  | .copy => some s.copyKey
  | .left =>
    if s.input.w < s.cursor then some { s.updateCursor false with lefts := s.lefts + 1 }
    else some s
  | .right =>
    if (0 : Word).slt s.lefts then some { s.updateCursor true with lefts := s.lefts - 1 }
    else some s
  | .up =>
    if 0 < s.history.count ∧ 0 < s.history.index then s.moveThroughHistory (upIndex s.history)
    else some s
  | .down =>
    if 0 < s.history.count ∧ s.history.index < s.history.count - 1 then
      s.moveThroughHistory (downIndex s.history)
    else some s
  | .other => s.defaultKey fp c junk

inductive Taken
  | byte (c : Byte)
  | eof

/-- A pass with `n` bytes still to read of `target`; `none` if there is none to make or the
reader goes to sleep. -/
def consoleread (s : Console) (n target : Word) : Option (Taken × Console) :=
  if (0 : Word).slt n ∧ s.input.r ≠ s.input.w then
    let c := s.input.buf (place s.input.r)
    let taken := { s with input := { s.input with r := s.input.r + 1 } }
    -- A `^D` after other bytes is left for the next call.
    if c = ctrl 'D' then some (.eof, if n < target then s else taken)
    else some (.byte c, taken)
  else none

inductive Event
  | key (c : Byte) (junk : Junk)
  | read (n target : Word)
  | write (bs : List Byte)
  | print (fmt : List Byte) (args : Args)

def next (fp : Arith) (s : Console) : Event → Option Console
  | .key c junk => s.consoleintr fp c junk
  | .read n target => (s.consoleread n target).map Prod.snd
  | .write bs => s.consolewrite bs
  | .print fmt args => s.cprintf fmt args

def Step (fp : Arith) (s : Console) (l : Event) (t : Console) : Prop := s.next fp l = some t

end Console

end Xv6
