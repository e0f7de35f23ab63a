import Xv6.Shell.Code
import Mathlib.Data.List.DropRight

namespace Xv6.Shell

abbrev Text := List Byte

inductive Op
  | bar
  | lparen
  | rparen
  | semi
  | amp
  | lt
  | gt
  | append
  deriving DecidableEq

inductive Token
  | op (o : Op)
  | word (w : Text)
  deriving DecidableEq

def Op.single (c : Byte) : Option Op :=
  if c = 124 then some .bar
  else if c = 40 then some .lparen
  else if c = 41 then some .rparen
  else if c = 59 then some .semi
  else if c = 38 then some .amp
  else if c = 60 then some .lt
  else none

/-- The longest token comes first: `>>` is one operator, and a word goes on up to white space or a
symbol. -/
def tokens (s : List Byte) : List Token :=
  match _h : s.dropWhile whitespace with
  | [] => []
  | c :: s' =>
    if c = 62 then
      if s'.head? = some 62 then .op .append :: tokens s'.tail else .op .gt :: tokens s'
    else
      match Op.single c with
      | some o => .op o :: tokens s'
      | none => .word (c :: s'.takeWhile plain) :: tokens (s'.dropWhile plain)
termination_by s.length
decreasing_by
  all_goals
    have hlen := List.length_dropWhile_le whitespace s
    rw [_h, List.length_cons] at hlen
  · have := s'.length_tail
    omega
  · omega
  · omega
  · have := List.length_dropWhile_le plain s'
    omega

inductive RedirOp
  | input
  | output
  | append

def RedirOp.op : RedirOp → Op
  | input => .lt
  | output => .gt
  | append => .append

structure Redir where
  op : RedirOp
  file : Text

inductive Part
  | line
  | pipe
  | exec

/-- The derivations from a part of the grammar

* `line ::= pipe '&'* (';' line)?`
* `pipe ::= exec ('|' pipe)?`
* `exec ::= '(' line ')' redir* | redir* (word redir*)*` -/
inductive Deriv : Part → Type
  | line (p : Deriv .pipe) (amps : Nat) : Deriv .line
  | lines (p : Deriv .pipe) (amps : Nat) (l : Deriv .line) : Deriv .line
  | pipe (e : Deriv .exec) : Deriv .pipe
  | pipes (e : Deriv .exec) (p : Deriv .pipe) : Deriv .pipe
  | block (l : Deriv .line) (rs : List Redir) : Deriv .exec
  | exec (rs : List Redir) (args : List (Text × List Redir)) : Deriv .exec

def Redir.yield (r : Redir) : List Token := [.op r.op.op, .word r.file]

def redirsYield (rs : List Redir) : List Token := rs.flatMap Redir.yield

def argsYield (args : List (Text × List Redir)) : List Token :=
  args.flatMap fun a => .word a.1 :: redirsYield a.2

def Deriv.yield {x : Part} : Deriv x → List Token
  | line p amps => p.yield ++ List.replicate amps (.op .amp)
  | lines p amps l => p.yield ++ (List.replicate amps (.op .amp) ++ .op .semi :: l.yield)
  | pipe e => e.yield
  | pipes e p => e.yield ++ .op .bar :: p.yield
  | block l rs => .op .lparen :: (l.yield ++ .op .rparen :: redirsYield rs)
  | exec rs args => redirsYield rs ++ argsYield args

def Deriv.Short {x : Part} : Deriv x → Prop
  | line p _ => p.Short
  | lines p _ l => p.Short ∧ l.Short
  | pipe e => e.Short
  | pipes e p => e.Short ∧ p.Short
  | block l _ => l.Short
  | exec _ args => args.length < 10

inductive Cmd
  | exec (args : List Text)
  | redir (c : Cmd) (file : Text) (mode fd : Nat)
  | pipe (left right : Cmd)
  | list (left right : Cmd)
  | back (c : Cmd)

def RedirOp.mode : RedirOp → Nat
  | input => oRdonly
  | output => oWronly ||| oCreate
  | append => oWronly ||| oCreate

def RedirOp.fd : RedirOp → Nat
  | input => 0
  | output => 1
  | append => 1

def Cmd.wrap (c : Cmd) (rs : List Redir) : Cmd := rs.foldl (fun c r => .redir c r.file r.op.mode r.op.fd) c

def Cmd.backs (c : Cmd) : Nat → Cmd
  | 0 => c
  | n + 1 => c.back.backs n

/-- The command that a derivation stands for.  All redirections of a simple command apply to it,
wherever they stand among its words. -/
def Deriv.denote {x : Part} : Deriv x → Cmd
  | line p amps => p.denote.backs amps
  | lines p amps l => .list (p.denote.backs amps) l.denote
  | pipe e => e.denote
  | pipes e p => .pipe e.denote p.denote
  | block l rs => l.denote.wrap rs
  | exec rs args => (Cmd.exec (args.map Prod.fst)).wrap (rs ++ args.flatMap Prod.snd)

end Xv6.Shell
