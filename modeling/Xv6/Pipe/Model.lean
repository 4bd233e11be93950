/-
Pipes (`pipe.c`): `pipewrite`, `piperead` and `pipeclose` on one pipe, run by any number of processes.

A step is one iteration of a loop, one lock operation, one `wakeup` or one `kill`, so a run is any interleaving of
those. `sleep(chan, &p->lock)` takes its steps one by one: it takes `ptable.lock`, gives up `p->lock`, and only then is
the process SLEEPING and `ptable.lock` free again. `wakeup` and `kill` need `ptable.lock` for one step. A process that
has been woken is on its way to take `p->lock` again.

What `fileclose` guarantees is in the calls: an end is closed once, and only when no process is inside a call on that
end (each of them holds a reference to the end's `struct file`).

History variables: `accepted` and `delivered` are the bytes stored by `pipewrite` and copied out by `piperead`, in
order; `freed` counts the `kfree` calls on the pipe's page.
-/
import Xv6.Core.Bytes
import Xv6.Core.Machine
import Xv6.Core.Lock

namespace Xv6.Pipes

open Xv6.Bytes

def PIPESIZE : ℕ := 512

structure Pipe where
  data : ℕ → Byte
  /-- number of bytes read -/
  nread : BitVec 32
  /-- number of bytes written -/
  nwrite : BitVec 32
  /-- read fd is still open -/
  readopen : Bool
  /-- write fd is still open -/
  writeopen : Bool

/-- p->nwrite == p->nread + PIPESIZE -/
def Pipe.Full (p : Pipe) : Prop := p.nwrite = p.nread + BitVec.ofNat 32 PIPESIZE

/-- p->nread == p->nwrite -/
def Pipe.Empty (p : Pipe) : Prop := p.nread = p.nwrite

instance (p : Pipe) : Decidable p.Full := inferInstanceAs (Decidable (_ = _))

instance (p : Pipe) : Decidable p.Empty := inferInstanceAs (Decidable (_ = _))

/-- p->data[p->nwrite++ % PIPESIZE] = b -/
def Pipe.store (p : Pipe) (b : Byte) : Pipe :=
  { p with data := Function.update p.data (p.nwrite.toNat % PIPESIZE) b, nwrite := p.nwrite + 1 }

/-- p->data[p->nread % PIPESIZE] -/
def Pipe.front (p : Pipe) : Byte := p.data (p.nread.toNat % PIPESIZE)

/-- p->nread++ -/
def Pipe.advance (p : Pipe) : Pipe := { p with nread := p.nread + 1 }

/-- readopen or writeopen -/
def Pipe.isopen (p : Pipe) : (writable : Bool) → Bool
  | true => p.writeopen
  | false => p.readopen

def Pipe.close (p : Pipe) : (writable : Bool) → Pipe
  | true => { p with writeopen := false }
  | false => { p with readopen := false }

/-! ## Processes -/

/-- the channels &p->nread and &p->nwrite -/
inductive Chan where
  | nread
  | nwrite
deriving DecidableEq, Repr

/-- the calls that may sleep -/
inductive Op where
  /-- `pipewrite`: the bytes addr[i], .., addr[n-1] still to be stored, and n -/
  | write (src : List Byte) (n : ℤ)
  /-- `piperead` -/
  | read (n : ℤ)
deriving DecidableEq, Repr

/-- the end of the pipe that a call goes through -/
def Op.writable : Op → Bool
  | .write _ _ => true
  | .read _ => false

/-- the channel a call sleeps on -/
def Op.chan : Op → Chan
  | .write _ _ => .nwrite
  | .read _ => .nread

/-- the channel a call wakes at its end -/
def Op.wakes : Op → Chan
  | .write _ _ => .nread
  | .read _ => .nwrite

/-- the channel `pipeclose` wakes -/
def closeChan : (writable : Bool) → Chan
  | true => .nread
  | false => .nwrite

/-- addr[0], .., addr[n-1] are n bytes -/
def Op.proper : Op → Bool
  | .write src n => src.length = n.toNat
  | .read _ => true

/-- where a process is -/
inductive Pc where
  | idle
  /-- about to take p->lock: at the start of a call, or on the way out of `sleep` -/
  | acquire (c : Op)
  /-- holds p->lock, at the head of its loop -/
  | loop (c : Op)
  /-- `pipewrite` on a full pipe, about to wakeup(&p->nread) -/
  | full (src : List Byte) (n : ℤ)
  /-- in `sleep`, about to take ptable.lock -/
  | sleep (c : Op)
  /-- in `sleep`, about to release p->lock -/
  | letGo (c : Op)
  /-- in `sleep`, about to become SLEEPING and enter the scheduler, which releases ptable.lock -/
  | switch (c : Op)
  /-- SLEEPING on the call's channel -/
  | asleep (c : Op)
  /-- `piperead`, with i bytes copied -/
  | copy (n : ℤ) (i : ℕ)
  /-- about to do the last wakeup of a call -/
  | signal (c : Op) (ret : ℤ)
  /-- about to release p->lock and to return -/
  | leave (c : Op) (ret : ℤ)
  /-- `pipeclose`, about to take p->lock -/
  | closeAcquire (writable : Bool)
  /-- about to clear readopen or writeopen -/
  | closeFlag (writable : Bool)
  /-- about to wakeup(&p->nread) or wakeup(&p->nwrite) -/
  | closeWake (writable : Bool)
  /-- about to test both flags and to release p->lock -/
  | closeTest
  /-- about to kfree the page -/
  | kfree
deriving DecidableEq, Repr

/-- between acquire(&p->lock) and release(&p->lock) -/
def Pc.locked : Pc → Bool
  | .loop _ | .full _ _ | .sleep _ | .letGo _ | .copy _ _ | .signal _ _ | .leave _ _ => true
  | .closeFlag _ | .closeWake _ | .closeTest => true
  | _ => false

/-- holds ptable.lock between two steps -/
def Pc.ptable : Pc → Bool
  | .letGo _ | .switch _ => true
  | _ => false

/-- the end whose struct file the process uses -/
def Pc.uses : Pc → Option Bool
  | .acquire c | .loop c | .sleep c | .letGo c | .switch c | .asleep c | .signal c _ | .leave c _ => some c.writable
  | .full _ _ => some true
  | .copy _ _ => some false
  | _ => none

structure St (P : Type) where
  pipe : Pipe
  lock : Option P
  ptable : Option P
  pc : P → Pc
  killed : P → Bool
  /-- the struct file of the end (true: the write end) is still open -/
  file : Bool → Bool
  freed : ℕ
  accepted : List Byte
  delivered : List Byte

inductive Act (P : Type) where
  /-- `pipewrite` or `piperead` is called -/
  | call (p : P) (c : Op)
  /-- `pipeclose` is called -/
  | close (p : P) (writable : Bool)
  | kill (p : P)
  /-- the next step of p's call -/
  | move (p : P)
deriving DecidableEq, Repr

section

variable {P : Type} [DecidableEq P]

/-- a pipe made by `pipealloc` -/
def Init (s : St P) : Prop :=
  s.pipe.nread = 0 ∧ s.pipe.nwrite = 0 ∧ s.pipe.readopen = true ∧ s.pipe.writeopen = true ∧
    s.lock = none ∧ s.ptable = none ∧ (∀ p, s.pc p = .idle) ∧ (∀ w, s.file w = true) ∧
    s.freed = 0 ∧ s.accepted = [] ∧ s.delivered = []

def St.goto (s : St P) (p : P) (pc : Pc) : St P := { s with pc := Function.update s.pc p pc }

def wake (chan : Chan) : Pc → Pc
  | .asleep c => if c.chan = chan then .acquire c else .asleep c
  | pc => pc

/-- `wakeup(chan)` -/
def St.wakeup (s : St P) (chan : Chan) : St P := { s with pc := fun q => wake chan (s.pc q) }

/-- what `kill` does to a SLEEPING process -/
def rouse : Pc → Pc
  | .asleep c => .acquire c
  | pc => pc

/-- one step of a call; none if the process is asleep or waits for a lock -/
def move (s : St P) (p : P) : Option (St P) :=
  match s.pc p with
  | .idle => none
  | .acquire c => if s.lock = none then some ({ s with lock := some p }.goto p (.loop c)) else none
  | .loop (.write [] n) => some (s.goto p (.signal (.write [] n) n))
  | .loop (.write (b :: src) n) =>
    if s.pipe.Full then
      if s.pipe.readopen = false ∨ s.killed p = true then some (s.goto p (.leave (.write (b :: src) n) (-1)))
      else some (s.goto p (.full (b :: src) n))
    else some ({ s with pipe := s.pipe.store b, accepted := s.accepted ++ [b] }.goto p (.loop (.write src n)))
  | .full src n => if s.ptable = none then some ((s.wakeup .nread).goto p (.sleep (.write src n))) else none
  | .sleep c => if s.ptable = none then some ({ s with ptable := some p }.goto p (.letGo c)) else none
  | .letGo c => some ({ s with lock := none }.goto p (.switch c))
  | .switch c => some ({ s with ptable := none }.goto p (.asleep c))
  | .asleep _ => none
  | .loop (.read n) =>
    if s.pipe.Empty ∧ s.pipe.writeopen = true then
      if s.killed p = true then some (s.goto p (.leave (.read n) (-1))) else some (s.goto p (.sleep (.read n)))
    else some (s.goto p (.copy n 0))
  | .copy n i =>
    if (i : ℤ) < n then
      if s.pipe.Empty then some (s.goto p (.signal (.read n) i))
      else some ({ s with pipe := s.pipe.advance, delivered := s.delivered ++ [s.pipe.front] }.goto p (.copy n (i + 1)))
    else some (s.goto p (.signal (.read n) i))
  | .signal c ret => if s.ptable = none then some ((s.wakeup c.wakes).goto p (.leave c ret)) else none
  | .leave _ _ => some ({ s with lock := none }.goto p .idle)
  | .closeAcquire w => if s.lock = none then some ({ s with lock := some p }.goto p (.closeFlag w)) else none
  | .closeFlag w => some ({ s with pipe := s.pipe.close w }.goto p (.closeWake w))
  | .closeWake w =>
    if s.ptable = none then some ((s.wakeup (closeChan w)).goto p .closeTest) else none
  | .closeTest =>
    if s.pipe.readopen = false ∧ s.pipe.writeopen = false then some ({ s with lock := none }.goto p .kfree)
    else some ({ s with lock := none }.goto p .idle)
  | .kfree => some ({ s with freed := s.freed + 1 }.goto p .idle)

variable [Fintype P]

def step (s : St P) : Act P → Option (St P)
  | .call p c =>
    if s.pc p = .idle ∧ s.file c.writable = true ∧ c.proper = true then
      some (s.goto p (.acquire c))
    else none
  | .close p w =>
    if s.pc p = .idle ∧ s.file w = true ∧ ∀ q, (s.pc q).uses ≠ some w then
      some ({ s with file := Function.update s.file w false }.goto p (.closeAcquire w))
    else none
  | .kill p =>
    if s.ptable = none then
      some ({ s with killed := Function.update s.killed p true }.goto p (rouse (s.pc p)))
    else none
  | .move p => move s p

/-- all interleavings of the calls on one pipe -/
def machine (P : Type) [DecidableEq P] [Fintype P] : Machine (St P) (Act P) := .ofStep Init step

/-! ## What a step does -/

/-- a step of a locked section that changes nothing but the program counter -/
inductive Inside (s : St P) (p : P) : Pc → Prop where
  | stored {n : ℤ} (hpc : s.pc p = .loop (.write [] n)) : Inside s p (.signal (.write [] n) n)
  | refused {b : Byte} {src : List Byte} {n : ℤ} (hpc : s.pc p = .loop (.write (b :: src) n)) (hfull : s.pipe.Full)
      (hstop : s.pipe.readopen = false ∨ s.killed p = true) : Inside s p (.leave (.write (b :: src) n) (-1))
  | full {b : Byte} {src : List Byte} {n : ℤ} (hpc : s.pc p = .loop (.write (b :: src) n)) (hfull : s.pipe.Full)
      (hread : s.pipe.readopen = true) : Inside s p (.full (b :: src) n)
  | killed {n : ℤ} (hpc : s.pc p = .loop (.read n)) : Inside s p (.leave (.read n) (-1))
  | empty {n : ℤ} (hpc : s.pc p = .loop (.read n)) (hempty : s.pipe.Empty) (hwrite : s.pipe.writeopen = true) :
      Inside s p (.sleep (.read n))
  | copy {n : ℤ} (hpc : s.pc p = .loop (.read n)) (hsome : s.pipe.Empty → s.pipe.writeopen = false) :
      Inside s p (.copy n 0)
  | copied {n : ℤ} {i : ℕ} (hpc : s.pc p = .copy n i) (hdone : (i : ℤ) < n → s.pipe.Empty) :
      Inside s p (.signal (.read n) i)

/-- a `wakeup` step: where it is, its channel, and what follows -/
inductive Wakes : Pc → Chan → Pc → Prop where
  | full (src : List Byte) (n : ℤ) : Wakes (.full src n) .nread (.sleep (.write src n))
  | signal (c : Op) (ret : ℤ) : Wakes (.signal c ret) c.wakes (.leave c ret)
  | close (w : Bool) : Wakes (.closeWake w) (closeChan w) .closeTest

/-- all that a step can do -/
inductive Step (s : St P) : Act P → St P → Prop where
  | call {p : P} {c : Op} (hpc : s.pc p = .idle) (hfile : s.file c.writable = true) :
      Step s (.call p c) (s.goto p (.acquire c))
  | close {p : P} {w : Bool} (hpc : s.pc p = .idle) (hfile : s.file w = true) (huse : ∀ q, (s.pc q).uses ≠ some w) :
      Step s (.close p w) ({ s with file := Function.update s.file w false }.goto p (.closeAcquire w))
  | kill {p : P} : Step s (.kill p) ({ s with killed := Function.update s.killed p true }.goto p (rouse (s.pc p)))
  | acquire {p : P} {c : Op} (hpc : s.pc p = .acquire c) (hfree : s.lock = none) :
      Step s (.move p) ({ s with lock := some p }.goto p (.loop c))
  | closeAcquire {p : P} {w : Bool} (hpc : s.pc p = .closeAcquire w) (hfree : s.lock = none) :
      Step s (.move p) ({ s with lock := some p }.goto p (.closeFlag w))
  | inside {p : P} {x : Pc} (hin : Inside s p x) : Step s (.move p) (s.goto p x)
  | wakeup {p : P} {chan : Chan} {x : Pc} (hwake : Wakes (s.pc p) chan x) (hfree : s.ptable = none) :
      Step s (.move p) ((s.wakeup chan).goto p x)
  | store {p : P} {b : Byte} {src : List Byte} {n : ℤ} (hpc : s.pc p = .loop (.write (b :: src) n))
      (hroom : ¬ s.pipe.Full) :
      Step s (.move p)
        ({ s with pipe := s.pipe.store b, accepted := s.accepted ++ [b] }.goto p (.loop (.write src n)))
  | advance {p : P} {n : ℤ} {i : ℕ} (hpc : s.pc p = .copy n i) (hsome : ¬ s.pipe.Empty) :
      Step s (.move p)
        ({ s with pipe := s.pipe.advance, delivered := s.delivered ++ [s.pipe.front] }.goto p (.copy n (i + 1)))
  | sleep {p : P} {c : Op} (hpc : s.pc p = .sleep c) (hfree : s.ptable = none) :
      Step s (.move p) ({ s with ptable := some p }.goto p (.letGo c))
  | letGo {p : P} {c : Op} (hpc : s.pc p = .letGo c) : Step s (.move p) ({ s with lock := none }.goto p (.switch c))
  | switch {p : P} {c : Op} (hpc : s.pc p = .switch c) : Step s (.move p) ({ s with ptable := none }.goto p (.asleep c))
  | leave {p : P} {c : Op} {ret : ℤ} (hpc : s.pc p = .leave c ret) :
      Step s (.move p) ({ s with lock := none }.goto p .idle)
  | closeFlag {p : P} {w : Bool} (hpc : s.pc p = .closeFlag w) :
      Step s (.move p) ({ s with pipe := s.pipe.close w }.goto p (.closeWake w))
  | closeLast {p : P} (hpc : s.pc p = .closeTest) (hread : s.pipe.readopen = false) (hwrite : s.pipe.writeopen = false) :
      Step s (.move p) ({ s with lock := none }.goto p .kfree)
  | closeFirst {p : P} (hpc : s.pc p = .closeTest) (hopen : s.pipe.readopen = true ∨ s.pipe.writeopen = true) :
      Step s (.move p) ({ s with lock := none }.goto p .idle)
  | kfree {p : P} (hpc : s.pc p = .kfree) : Step s (.move p) ({ s with freed := s.freed + 1 }.goto p .idle)

omit [Fintype P] in
theorem move_cases {s t : St P} {p : P} (h : move s p = some t) : Step s (.move p) t := by
  unfold move at h
  split at h
  case h_1 => cases h
  case h_2 c hpc =>
    split_ifs at h with hfree
    exact Option.some.inj h ▸ .acquire hpc hfree
  case h_3 n hpc => exact Option.some.inj h ▸ .inside (.stored hpc)
  case h_4 b src n hpc =>
    split_ifs at h with hfull hstop
    · exact Option.some.inj h ▸ .inside (.refused hpc hfull hstop)
    · exact Option.some.inj h ▸ .inside (.full hpc hfull (by simpa using (not_or.1 hstop).1))
    · exact Option.some.inj h ▸ .store hpc hfull
  case h_5 src n hpc =>
    split_ifs at h with hfree
    exact Option.some.inj h ▸ .wakeup (hpc ▸ .full src n) hfree
  case h_6 c hpc =>
    split_ifs at h with hfree
    exact Option.some.inj h ▸ .sleep hpc hfree
  case h_7 c hpc => exact Option.some.inj h ▸ .letGo hpc
  case h_8 c hpc => exact Option.some.inj h ▸ .switch hpc
  case h_9 => cases h
  case h_10 n hpc =>
    split_ifs at h with hwait hkilled
    · exact Option.some.inj h ▸ .inside (.killed hpc)
    · exact Option.some.inj h ▸ .inside (.empty hpc hwait.1 hwait.2)
    · exact Option.some.inj h ▸ .inside (.copy hpc fun he => by simpa using not_and.1 hwait he)
  case h_11 n i hpc =>
    split_ifs at h with hlt hempty
    · exact Option.some.inj h ▸ .inside (.copied hpc fun _ => hempty)
    · exact Option.some.inj h ▸ .advance hpc hempty
    · exact Option.some.inj h ▸ .inside (.copied hpc fun hc => absurd hc hlt)
  case h_12 c ret hpc =>
    split_ifs at h with hfree
    exact Option.some.inj h ▸ .wakeup (hpc ▸ .signal c ret) hfree
  case h_13 c ret hpc => exact Option.some.inj h ▸ .leave hpc
  case h_14 w hpc =>
    split_ifs at h with hfree
    exact Option.some.inj h ▸ .closeAcquire hpc hfree
  case h_15 w hpc => exact Option.some.inj h ▸ .closeFlag hpc
  case h_16 w hpc =>
    split_ifs at h with hfree
    exact Option.some.inj h ▸ .wakeup (hpc ▸ .close w) hfree
  case h_17 hpc =>
    split_ifs at h with hboth
    · exact Option.some.inj h ▸ .closeLast hpc hboth.1 hboth.2
    · refine Option.some.inj h ▸ .closeFirst hpc ?_
      by_contra hc
      rw [not_or, Bool.not_eq_true, Bool.not_eq_true] at hc
      exact hboth hc
  case h_18 hpc => exact Option.some.inj h ▸ .kfree hpc

theorem step_cases {s t : St P} {a : Act P} (h : step s a = some t) : Step s a t := by
  cases a with
  | call p c =>
    rw [step] at h
    split_ifs at h with hok
    exact Option.some.inj h ▸ .call hok.1 hok.2.1
  | close p w =>
    rw [step] at h
    split_ifs at h with hok
    exact Option.some.inj h ▸ .close hok.1 hok.2.1 hok.2.2
  | kill p =>
    rw [step] at h
    split_ifs at h
    exact Option.some.inj h ▸ .kill
  | move p => exact move_cases h

end

end Xv6.Pipes
