import Xv6.Proc.Table
import Xv6.Lib.Prog

/-! The parser of `sh.c`.  The line does not change while it is parsed; pointers into it are offsets,
and pointers to commands count the calls of `malloc`, which is taken to succeed. -/

namespace Xv6.Shell

open Lib

/-- What `parsecmd` allocates.  A null pointer is `none`; `MAXARGS` is 10. -/
inductive Node
  | exec (argv eargv : Fin 10 → Option Nat)
  | redir (cmd file efile mode fd : Nat)
  | pipe (left right : Nat)
  | list (left right : Nat)
  | back (cmd : Nat)

structure State where
  ps : Nat
  heap : List Node

/-- A panic, a write through a null pointer, or a bound on the depth of calls that was too low. -/
inductive Stop
  | panic (s : String)
  | fault
  | fuel
  deriving DecidableEq

abbrev M (α : Type) := Prog State Stop α

def whitespace (c : Byte) : Bool := c ∈ ([32, 9, 13, 10, 11] : List Byte)

def symbols (c : Byte) : Bool := c ∈ ([60, 124, 62, 38, 59, 40, 41] : List Byte)

def plain (c : Byte) : Bool := !whitespace c && !symbols c

def oRdonly : Nat := 0x000

def oWronly : Nat := 0x001

def oCreate : Nat := 0x200

def malloc (n : Node) : M Nat := do
  let st ← get
  set { st with heap := st.heap ++ [n] }
  return st.heap.length

def execcmd : M Nat := malloc (.exec (fun _ => none) fun _ => none)

def redircmd (subcmd file efile mode fd : Nat) : M Nat := malloc (.redir subcmd file efile mode fd)

def pipecmd (left right : Nat) : M Nat := malloc (.pipe left right)

def listcmd (left right : Nat) : M Nat := malloc (.list left right)

def backcmd (subcmd : Nat) : M Nat := malloc (.back subcmd)

def Node.setArg (argc : Fin 10) (q eq : Option Nat) : Node → Node
  | .exec argv eargv => .exec (Function.update argv argc q) (Function.update eargv argc eq)
  | n => n

def setArg (cmd : Nat) (argc : Fin 10) (q eq : Option Nat) : M Unit :=
  modify fun st => { st with heap := st.heap.modify cmd (Node.setArg argc q eq) }

section Parsing

variable (line : List Byte)

def skipLoop (p : Byte → Bool) : Nat → Nat → Nat
  | 0, s => s
  | fuel + 1, s => if s < line.length ∧ p (line.getD s 0) then skipLoop p fuel (s + 1) else s

def skip (p : Byte → Bool) (s : Nat) : Nat := skipLoop line p (line.length - s) s

/-- The value of the token at `s`, and its end.  The values of `>>` and of a word are `+` and `a`. -/
def token (s : Nat) : Byte × Nat :=
  let c := line.getD s 0
  if c = 0 then (0, s)
  -- the cases '|', '(', ')', ';', '&' and '<'
  else if c ∈ ([124, 40, 41, 59, 38, 60] : List Byte) then (c, s + 1)
  else if c = 62 then
    if line.getD (s + 1) 0 = 62 then (43, s + 2) else (62, s + 1)
  else (97, skip line plain s)

def gettoken : M (Byte × Nat × Nat) := do
  let st ← get
  let q := skip line whitespace st.ps
  let (ret, eq) := token line q
  set { st with ps := skip line whitespace eq }
  return (ret, q, eq)

def peek (toks : List Byte) : M Bool := do
  let st ← get
  let s := skip line whitespace st.ps
  set { st with ps := s }
  return line.getD s 0 ≠ 0 ∧ line.getD s 0 ∈ toks

def addRedir (tok : Byte) (cmd q eq : Nat) : M Nat :=
  if tok = 60 then redircmd cmd q eq oRdonly 0
  else if tok = 62 then redircmd cmd q eq (oWronly ||| oCreate) 1
  else if tok = 43 then redircmd cmd q eq (oWronly ||| oCreate) 1
  else return cmd

def redirsLoop : Nat → Nat → M Nat
  | 0, _ => throw .fuel
  | fuel + 1, cmd => do
    if ← peek line [60, 62] then
      let (tok, _, _) ← gettoken line
      let (file, q, eq) ← gettoken line
      if file ≠ 97 then throw (.panic "missing file for redirection")
      else do
        let cmd ← addRedir tok cmd q eq
        redirsLoop fuel cmd
    else return cmd

def parseredirs (cmd : Nat) : M Nat := redirsLoop line (line.length + 1) cmd

def argsLoop : Nat → Nat → Nat → Fin 10 → M Nat
  | 0, _, _, _ => throw .fuel
  | fuel + 1, cmd, ret, argc => do
    if ← peek line [124, 41, 38, 59] then
      setArg cmd argc none none
      return ret
    else
      let (tok, q, eq) ← gettoken line
      if tok = 0 then
        setArg cmd argc none none
        return ret
      else if tok ≠ 97 then throw (.panic "syntax")
      else
        setArg cmd argc (some q) (some eq)
        if h : argc.val + 1 < 10 then
          let ret ← parseredirs line ret
          argsLoop fuel cmd ret ⟨argc + 1, h⟩
        else throw (.panic "too many args")

def backLoop : Nat → Nat → M Nat
  | 0, _ => throw .fuel
  | fuel + 1, cmd => do
    if ← peek line [38] then
      let _ ← gettoken line
      let cmd ← backcmd cmd
      backLoop fuel cmd
    else return cmd

mutual

def parseline : Nat → M Nat
  | 0 => throw .fuel
  | fuel + 1 => do
    let cmd ← parsepipe fuel
    let cmd ← backLoop line (line.length + 1) cmd
    if ← peek line [59] then
      let _ ← gettoken line
      let right ← parseline fuel
      listcmd cmd right
    else return cmd

def parsepipe : Nat → M Nat
  | 0 => throw .fuel
  | fuel + 1 => do
    let cmd ← parseexec fuel
    if ← peek line [124] then
      let _ ← gettoken line
      let right ← parsepipe fuel
      pipecmd cmd right
    else return cmd

def parseexec : Nat → M Nat
  | 0 => throw .fuel
  | fuel + 1 => do
    if ← peek line [40] then parseblock fuel
    else
      let cmd ← execcmd
      let ret ← parseredirs line cmd
      argsLoop line (line.length + 1) cmd ret 0

def parseblock : Nat → M Nat
  | 0 => throw .fuel
  | fuel + 1 => do
    if ← peek line [40] then
      let _ ← gettoken line
      let cmd ← parseline fuel
      if ← peek line [41] then
        let _ ← gettoken line
        parseredirs line cmd
      else throw (.panic "syntax - missing )")
    else throw (.panic "parseblock")

end

end Parsing

def nulArg (eargv : Fin 10 → Option Nat) (i : Fin 10) : Prog (List Byte) Stop Unit :=
  match eargv i with
  | some eq => modify fun buf => buf.set eq 0
  | none => throw .fault

def nulArgs (argv eargv : Fin 10 → Option Nat) : Prog (List Byte) Stop Unit :=
  ((List.finRange 10).takeWhile fun i => (argv i).isSome).forM (nulArg eargv)

def nulterminate (heap : List Node) : Nat → Nat → Prog (List Byte) Stop Unit
  | 0, _ => throw .fuel
  | fuel + 1, cmd =>
    match heap[cmd]? with
    | none => return
    | some (.exec argv eargv) => nulArgs argv eargv
    | some (.redir sub _ efile _ _) => do
      nulterminate heap fuel sub
      modify fun buf => buf.set efile 0
    | some (.pipe left right) => do
      nulterminate heap fuel left
      nulterminate heap fuel right
    | some (.list left right) => do
      nulterminate heap fuel left
      nulterminate heap fuel right
    | some (.back sub) => nulterminate heap fuel sub

/-- The line is parsed with room for `fuel` nested calls. -/
def parse (line : List Byte) (fuel : Nat) : M Nat := do
  let cmd ← parseline line fuel
  let _ ← peek line []
  let st ← get
  if st.ps ≠ line.length then throw (.panic "syntax") else return cmd

/-- The command, the heap, and the line with its `NUL` after the call -/
def parsecmd (line : List Byte) (fuel : Nat) : Except Stop (Nat × List Node × List Byte) := do
  let (cmd, st) ← parse line fuel ⟨0, []⟩
  let ((), buf) ← nulterminate st.heap st.heap.length cmd (line ++ [0])
  return (cmd, st.heap, buf)

end Xv6.Shell
