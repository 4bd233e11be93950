/-
The shell's parser (`sh.c`).

The line is in memory, from s up to the NUL at es, and is not changed until `nulterminate` writes the ends of the strings
into it. A string of a command is a pair of pointers, to its first byte and to the byte after its last. The constructors
always get their memory. `parseexec` fills the arguments of an EXEC node that redirections have been put around already:
`addArg`. The functions have fuel, which is not the code's: `Err.fuel` says that it has run out.
-/
import Xv6.Core.Bytes

namespace Xv6.Sh

open Xv6.Bytes

def ch (c : Char) : Byte := BitVec.ofNat 8 c.toNat

def chars (s : String) : List Byte := s.toList.map ch

def MAXARGS : ℕ := 10

def O_RDONLY : ℕ := 0x000

def O_WRONLY : ℕ := 0x001

def O_CREATE : ℕ := 0x200

/-! ## Commands -/

/-- the tree of a command, with strings of type ω -/
inductive Cmd (ω : Type) where
  | exec (argv : List ω)
  | redir (cmd : Cmd ω) (file : ω) (mode fd : ℕ)
  | pipe (left right : Cmd ω)
  | list (left right : Cmd ω)
  | back (cmd : Cmd ω)
deriving DecidableEq

/-- q and eq -/
abbrev Ptrs := ℕ × ℕ

/-- cmd->argv[argc] = q; cmd->eargv[argc] = eq, on the EXEC node below the redirections -/
def Cmd.addArg {ω : Type} (w : ω) : Cmd ω → Cmd ω
  | .exec argv => .exec (argv ++ [w])
  | .redir cmd file mode fd => .redir (cmd.addArg w) file mode fd
  | cmd => cmd

/-! ## Tokens -/

def whitespace : List Byte := chars " \t\r\n\x0b"

def symbols : List Byte := chars "<|>&;()"

def strchr (s : List Byte) (c : Byte) : Bool := s.contains c

section

variable (mem : ℕ → Byte) (es : ℕ)

/-- while(s < es && p(*s)) s++; it runs at most es - s times -/
def advance (p : Byte → Bool) : ℕ → ℕ → ℕ
  | 0, s => s
  | k + 1, s => if s < es ∧ p (mem s) then advance p k (s + 1) else s

/-- skip white space -/
def skip (s : ℕ) : ℕ := advance mem es (strchr whitespace) (es - s) s

/-- the end of a word -/
def wordEnd (s : ℕ) : ℕ := advance mem es (fun c => !strchr whitespace c && !strchr symbols c) (es - s) s

/-- the value of `gettoken`, and what it leaves in *q, *eq and *ps -/
structure Got where
  tok : Byte
  q : ℕ
  eq : ℕ
  ps : ℕ

def gettoken (ps : ℕ) : Got :=
  let q := skip mem es ps
  let c := mem q
  if c = 0 then ⟨c, q, q, skip mem es q⟩
  else if c = ch '|' ∨ c = ch '(' ∨ c = ch ')' ∨ c = ch ';' ∨ c = ch '&' ∨ c = ch '<' then
    ⟨c, q, q + 1, skip mem es (q + 1)⟩
  else if c = ch '>' then
    if mem (q + 1) = ch '>' then ⟨ch '+', q, q + 2, skip mem es (q + 2)⟩ else ⟨c, q, q + 1, skip mem es (q + 1)⟩
  else
    let eq := wordEnd mem es q
    ⟨ch 'a', q, eq, skip mem es eq⟩

/-- the value of `peek`, and what it leaves in *ps -/
def peek (ps : ℕ) (toks : List Byte) : Bool × ℕ :=
  let s := skip mem es ps
  (mem s != 0 && strchr toks (mem s), s)

/-! ## The parser -/

inductive Err where
  | panic (msg : String)
  | fuel
deriving DecidableEq

/-- redircmd, as tok says -/
def redircmd (cmd : Cmd Ptrs) (tok : Byte) (file : Ptrs) : Cmd Ptrs :=
  if tok = ch '<' then .redir cmd file O_RDONLY 0
  else if tok = ch '>' then .redir cmd file (O_WRONLY ||| O_CREATE) 1
  else if tok = ch '+' then .redir cmd file (O_WRONLY ||| O_CREATE) 1
  else cmd

def parseredirs : ℕ → Cmd Ptrs → ℕ → Except Err (Cmd Ptrs × ℕ)
  | 0, _, _ => .error .fuel
  | k + 1, cmd, s =>
    let p := peek mem es s (chars "<>")
    if !p.1 then .ok (cmd, p.2)
    else
      let g := gettoken mem es p.2
      let f := gettoken mem es g.ps
      if f.tok ≠ ch 'a' then .error (.panic "missing file for redirection")
      else parseredirs k (redircmd cmd g.tok (f.q, f.eq)) f.ps

/-- the loop of `parseexec` -/
def execLoop : ℕ → Cmd Ptrs → ℕ → ℕ → Except Err (Cmd Ptrs × ℕ)
  | 0, _, _, _ => .error .fuel
  | k + 1, ret, argc, s =>
    let p := peek mem es s (chars "|)&;")
    if p.1 then .ok (ret, p.2)
    else
      let g := gettoken mem es p.2
      if g.tok = 0 then .ok (ret, g.ps)
      else if g.tok ≠ ch 'a' then .error (.panic "syntax")
      else
        let ret := ret.addArg (g.q, g.eq)
        if MAXARGS ≤ argc + 1 then .error (.panic "too many args")
        else do
          let r ← parseredirs mem es k ret g.ps
          execLoop k r.1 (argc + 1) r.2

/-- the loop of `parseline` -/
def backLoop : ℕ → Cmd Ptrs → ℕ → Except Err (Cmd Ptrs × ℕ)
  | 0, _, _ => .error .fuel
  | k + 1, cmd, s =>
    let p := peek mem es s (chars "&")
    if p.1 then backLoop k (.back cmd) (gettoken mem es p.2).ps else .ok (cmd, p.2)

mutual

def parseline : ℕ → ℕ → Except Err (Cmd Ptrs × ℕ)
  | 0, _ => .error .fuel
  | k + 1, s => do
    let c ← parsepipe k s
    let b ← backLoop mem es k c.1 c.2
    let p := peek mem es b.2 (chars ";")
    if p.1 then
      let r ← parseline k (gettoken mem es p.2).ps
      return (.list b.1 r.1, r.2)
    else return (b.1, p.2)

def parsepipe : ℕ → ℕ → Except Err (Cmd Ptrs × ℕ)
  | 0, _ => .error .fuel
  | k + 1, s => do
    let c ← parseexec k s
    let p := peek mem es c.2 (chars "|")
    if p.1 then
      let r ← parsepipe k (gettoken mem es p.2).ps
      return (.pipe c.1 r.1, r.2)
    else return (c.1, p.2)

def parseexec : ℕ → ℕ → Except Err (Cmd Ptrs × ℕ)
  | 0, _ => .error .fuel
  | k + 1, s => do
    let p := peek mem es s (chars "(")
    if p.1 then parseblock k p.2
    else
      let r ← parseredirs mem es k (.exec []) p.2
      execLoop mem es k r.1 0 r.2

def parseblock : ℕ → ℕ → Except Err (Cmd Ptrs × ℕ)
  | 0, _ => .error .fuel
  | k + 1, s => do
    let p := peek mem es s (chars "(")
    if !p.1 then throw (.panic "parseblock")
    let c ← parseline k (gettoken mem es p.2).ps
    let p := peek mem es c.2 (chars ")")
    if !p.1 then throw (.panic "syntax - missing )")
    parseredirs mem es k c.1 (gettoken mem es p.2).ps

end

end

/-- *p = 0 -/
def poke (mem : ℕ → Byte) (p : ℕ) : ℕ → Byte := Function.update mem p 0

def nulterminate (mem : ℕ → Byte) : Cmd Ptrs → (ℕ → Byte)
  | .exec argv => argv.foldl (fun mem w => poke mem w.2) mem
  | .redir cmd file _ _ => poke (nulterminate mem cmd) file.2
  | .pipe left right => nulterminate (nulterminate mem left) right
  | .list left right => nulterminate (nulterminate mem left) right
  | .back cmd => nulterminate mem cmd

/-- the place of the NUL -/
def strend (mem : ℕ → Byte) : ℕ → ℕ → Except Err ℕ
  | 0, _ => .error .fuel
  | k + 1, s => if mem s = 0 then .ok s else strend mem k (s + 1)

/-- the command, and the memory with the strings terminated -/
def parsecmd (fuel : ℕ) (mem : ℕ → Byte) (s : ℕ) : Except Err (Cmd Ptrs × (ℕ → Byte)) := do
  let es ← strend mem fuel s
  let r ← parseline mem es fuel s
  let p := peek mem es r.2 (chars "")
  if p.2 ≠ es then throw (.panic "syntax")  -- leftovers
  return (r.1, nulterminate mem r.1)

end Xv6.Sh
