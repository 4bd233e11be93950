/-
The console's input (`console.c`): `consoleintr` puts the bytes that are typed into a ring, `consoleread` takes them out.

Both work under `input.lock`, so what either does between taking the lock and giving it up is one step: `consoleintr` on
all the bytes that `getc` has for it, and `consoleread` from its call, or from the moment it has been woken, until it
sleeps or returns. A sleeping reader may be woken at any time. ^Z reboots the machine. The echo is left out.

The run of the readers does not depend on what keeps the bytes, which is a parameter (`Discipline`). `copied` and `reads`
are a record that no step reads: the bytes that were copied out, in this order, and the calls that have returned.
-/
import Xv6.Core.Bytes
import Xv6.Core.Machine

namespace Xv6.Console

open Xv6.Bytes

/-- Control-x -/
def ctrl (x : Char) : Byte := BitVec.ofNat 8 (x.toNat - '@'.toNat)

def newline : Byte := 10

def INPUT_BUF : ℕ := 128

/-! ## The ring -/

structure Input where
  buf : ℕ → Byte
  r : BitVec 32
  w : BitVec 32
  e : BitVec 32

/-- input.buf[i % INPUT_BUF] -/
def Input.cell (s : Input) (i : BitVec 32) : Byte := s.buf (i.toNat % INPUT_BUF)

/-- the loop of ^U; it runs at most e - w times -/
def killLoop : ℕ → Input → Input
  | 0, s => s
  | k + 1, s => if s.e ≠ s.w ∧ s.cell (s.e - 1) ≠ newline then killLoop k { s with e := s.e - 1 } else s

/-- the byte is stored and, at the end of a line or of the ring, the line is handed over -/
def put (s : Input) (c : Byte) : Input :=
  let s := { s with buf := Function.update s.buf (s.e.toNat % INPUT_BUF) c, e := s.e + 1 }
  if c = newline ∨ c = ctrl 'D' ∨ s.e = s.r + BitVec.ofNat 32 INPUT_BUF then { s with w := s.e } else s

/-- a round of `consoleintr`; none: reboot -/
def key (s : Input) (c : Byte) : Option Input :=
  if c = ctrl 'Z' then none
  else if c = ctrl 'P' then some s
  else if c = ctrl 'U' then some (killLoop (s.e - s.w).toNat s)
  else if c = ctrl 'H' ∨ c = 0x7f then some (if s.e ≠ s.w then { s with e := s.e - 1 } else s)
  else if c ≠ 0 ∧ (s.e - s.r).toNat < INPUT_BUF then some (put s (if c = 13 then newline else c))
  else some s

def consoleintr (s : Input) (cs : List Byte) : Option Input := cs.foldlM key s

/-- how the loop of `consoleread` is left: it sleeps with n bytes to go, or returns -/
inductive Exit where
  | sleep (n : ℕ)
  | ret (x : ℤ)
deriving DecidableEq

/-- the loop of `consoleread` with n bytes to go, and the bytes it copies out -/
def readLoop (killed : Bool) (target : ℕ) : ℕ → Input → Input × List Byte × Exit
  | 0, s => (s, [], .ret target)
  | n + 1, s =>
    if s.r = s.w then (s, [], if killed then .ret (-1) else .sleep (n + 1))
    else
      let c := s.cell s.r
      let t := { s with r := s.r + 1 }
      if c = ctrl 'D' then
        -- ^D stays for the next call, which then gets nothing
        (if n + 1 < target then { t with r := t.r - 1 } else t, [], .ret (target - (n + 1)))
      else if c = newline then (t, [c], .ret (target - n))
      else
        let x := readLoop killed target n t
        (x.1, c :: x.2.1, x.2.2)

/-! ## Runs -/

/-- where a reader is: asleep in `consoleread`, with the bytes it was asked for, those to go, and what it has copied out -/
inductive Pc where
  | out
  | asleep (target n : ℕ) (dst : List Byte)

/-- a call that has returned -/
structure Read (ι : Type) where
  who : ι
  target : ℕ
  dst : List Byte
  ret : ℤ

structure St (β ι : Type) where
  store : β
  pc : ι → Pc
  killed : ι → Bool
  copied : List Byte
  reads : List (Read ι)

inductive Act (ι : Type) where
  | intr (cs : List Byte)
  | read (p : ι) (n : ℤ)
  | wake (p : ι)
  | kill (p : ι)

/-- what keeps the bytes between the two -/
structure Discipline (β : Type) where
  intr : β → List Byte → Option β
  read : Bool → ℕ → ℕ → β → β × List Byte × Exit

def console : Discipline Input := ⟨consoleintr, readLoop⟩

section

variable {β ι : Type} [DecidableEq ι]

/-- the reader p leaves its loop; dst: what it had copied out before -/
def St.leave (s : St β ι) (p : ι) (target : ℕ) (dst : List Byte) (x : β × List Byte × Exit) : St β ι :=
  match x.2.2 with
  | .sleep n => { s with
      store := x.1, copied := s.copied ++ x.2.1, pc := Function.update s.pc p (.asleep target n (dst ++ x.2.1)) }
  | .ret v => { s with
      store := x.1, copied := s.copied ++ x.2.1, pc := Function.update s.pc p .out
      reads := s.reads ++ [⟨p, target, dst ++ x.2.1, v⟩] }

/-- a call for n ≤ 0 bytes returns 0 at once, as one for none does -/
def Discipline.step (D : Discipline β) (s : St β ι) : Act ι → Option (St β ι)
  | .intr cs => (D.intr s.store cs).map fun b => { s with store := b }
  | .read p n =>
    match s.pc p with
    | .out => some (s.leave p n.toNat [] (D.read (s.killed p) n.toNat n.toNat s.store))
    | .asleep _ _ _ => none
  | .wake p =>
    match s.pc p with
    | .out => none
    | .asleep target n dst => some (s.leave p target dst (D.read (s.killed p) target n s.store))
  | .kill p => some { s with killed := Function.update s.killed p true }

def Discipline.run (D : Discipline β) (as : List (Act ι)) (s : St β ι) : Option (St β ι) := as.foldlM D.step s

/-- nobody reads, and nothing is recorded -/
def start (b : β) : St β ι := ⟨b, fun _ => .out, fun _ => false, [], []⟩

end

end Xv6.Console
