/-
Processes, CPUs and `ptable.lock` (`proc.c`, `spinlock.c`, the timer branch of `trap.c`).

n slots of the process table, any number of CPUs. A thread is the kernel thread of a process or the scheduler loop of
a CPU; `cur c` is the process whose thread CPU c executes, none while it executes its scheduler. A step is one lock
operation, or a stretch of code inside a critical section of `ptable.lock`; the stores that `fork` makes without the
lock are steps of their own. `sched()` switches to the CPU's scheduler and leaves `ptable.lock` held by that CPU, and
the scheduler switches to a process with the lock held, so the lock changes hands between threads without being
released. A run is any interleaving of the CPUs.

A thread executes its own code (`pc`) or, on top of it, an interrupt handler (`trap`). Handlers run while their CPU
has interrupts enabled (`ncli = 0`); they may take spinlocks, call `wakeup`, and the timer's may `yield`. Kernel code
outside `proc.c` is `code`: it may take and release any spinlock but `ptable.lock`, and call the functions of `proc.c`.

Steps that end in a panic (`sched` with a second lock held, `release` of a lock not held) are not possible.

History variables: `created` counts the successful calls of `allocproc`, `reaped` lists the pids `wait` has returned,
with the process it returned them to.
-/
import Mathlib.Tactic
import Xv6.Core.Machine

namespace Xv6.Proc

inductive ProcState where
  | UNUSED
  | EMBRYO
  | SLEEPING
  | RUNNABLE
  | RUNNING
  | ZOMBIE
deriving DecidableEq, Repr

/-- spinlocks -/
inductive Lock where
  | ptable
  | other (l : ℕ)
deriving DecidableEq, Repr

/-- addresses to sleep on: `wait` uses the address of its own slot -/
inductive Chan (n : ℕ) where
  | proc (p : Fin n)
  | other (a : ℕ)
deriving DecidableEq, Repr

/-- `struct proc` -/
structure Slot (n : ℕ) where
  state : ProcState
  pid : BitVec 32
  parent : Option (Fin n)
  chan : Option (Chan n)
  killed : Bool
deriving DecidableEq, Repr

/-- the steps of `wakeup` -/
inductive Stage where
  | acquire
  | wake
  | release
deriving DecidableEq, Repr

/-- where a thread is -/
inductive Pc (n : ℕ) where
  /-- any code outside `proc.c` -/
  | code
  /-- `sleep(chan, lk)`: about to acquire ptable.lock -/
  | sleep (chan : Chan n) (l : ℕ)
  /-- about to release lk -/
  | letGo (chan : Chan n) (l : ℕ)
  /-- about to set chan and state and to enter the scheduler -/
  | toSleep (chan : Chan n) (l : ℕ)
  /-- in `sched`, called by `sleep` -/
  | asleep (chan : Chan n) (l : ℕ)
  /-- chan cleared, about to release ptable.lock -/
  | tidy (l : ℕ)
  /-- about to acquire lk again -/
  | reacquire (l : ℕ)
  /-- `sleep` has returned -/
  | slept (l : ℕ)
  /-- `wakeup(chan)`, called by code or by an interrupt handler -/
  | wakeup (chan : Chan n) (k : Stage) (handler : Bool)
  /-- `kill(pid)` -/
  | kill (pid : BitVec 32)
  | kill1 (pid : BitVec 32)
  /-- about to release ptable.lock and to return r -/
  | killDone (r : ℤ)
  /-- `fork`: about to acquire ptable.lock in `allocproc` -/
  | fork
  | alloc
  /-- no UNUSED slot -/
  | allocFail
  /-- slot np is EMBRYO; about to release ptable.lock -/
  | allocated (np : Fin n)
  /-- about to kalloc the kernel stack -/
  | kstack (np : Fin n)
  | copyuvm (np : Fin n)
  /-- about to store np->parent -/
  | adopt (np : Fin n)
  /-- about to store np->state = RUNNABLE -/
  | start (np : Fin n)
  /-- `exit`: about to acquire ptable.lock -/
  | exit
  /-- about to wakeup1(proc->parent) -/
  | exit1
  /-- in the loop that passes the children to init, at slot i -/
  | pass (i : ℕ)
  /-- ZOMBIE, or no process -/
  | dead
  /-- `wait`: about to acquire ptable.lock -/
  | wait
  /-- about to scan the table -/
  | scanKids
  /-- in `sched`, called by `sleep(proc, &ptable.lock)` -/
  | waitAsleep
  /-- about to release ptable.lock and to return -/
  | waitDone
  /-- a new process, before the release of ptable.lock in `forkret` -/
  | forkret
  /-- an interrupt handler -/
  | handler
  /-- `yield`: about to acquire ptable.lock -/
  | yield
  /-- about to set RUNNABLE and to enter the scheduler -/
  | giveUp
  /-- in `sched`, called by `yield` -/
  | yielded
  /-- `scheduler`: about to acquire ptable.lock -/
  | idle
  /-- at slot i -/
  | scan (i : ℕ)
  /-- about to release ptable.lock -/
  | scanned
  /-- has switched to p -/
  | ran (p : Fin n)
deriving DecidableEq, Repr

/-- acquire(&ptable.lock), and what follows it -/
def Pc.enter {n : ℕ} : Pc n → Option (Pc n)
  | .sleep chan l => some (.letGo chan l)
  | .wakeup chan .acquire h => some (.wakeup chan .wake h)
  | .kill pid => some (.kill1 pid)
  | .fork => some .alloc
  | .exit => some .exit1
  | .wait => some .scanKids
  | .yield => some .giveUp
  | .idle => some (.scan 0)
  | _ => none

/-- release(&ptable.lock), and what follows it -/
def Pc.leave {n : ℕ} : Pc n → Option (Pc n)
  | .tidy l => some (.reacquire l)
  | .wakeup _ .release h => some (if h then .handler else .code)
  | .killDone _ => some .code
  | .allocFail => some .code
  | .allocated np => some (.kstack np)
  | .waitDone => some .code
  | .forkret => some .code
  | .yielded => some .handler
  | .scanned => some .idle
  | _ => none

/-- kernel threads: one per process and one scheduler per CPU -/
inductive Thread (n : ℕ) (C : Type) where
  | proc (p : Fin n)
  | sched (c : C)
deriving DecidableEq

structure St (n : ℕ) (C : Type) where
  slot : Fin n → Slot n
  nextpid : BitVec 32
  /-- the CPU that holds a spinlock -/
  holder : Lock → Option C
  ncli : C → ℕ
  cur : C → Option (Fin n)
  pc : Thread n C → Pc n
  /-- the interrupt handler on top of a thread -/
  trap : Thread n C → Option (Pc n)
  created : ℕ
  reaped : List (BitVec 32 × Fin n)

inductive Act (n : ℕ) (C : Type) where
  /-- code on CPU c calls a function of `proc.c` -/
  | call (c : C) (x : Pc n)
  /-- the next step of the thread on c -/
  | move (c : C)
  /-- `allocproc` takes slot np -/
  | take (c : C) (np : Fin n)
  /-- `allocproc` finds no slot -/
  | full (c : C)
  /-- the next allocation of `fork` succeeds or fails -/
  | kalloc (c : C) (ok : Bool)
  /-- a user-mode fault -/
  | fault (c : C)
  /-- code or a handler takes or releases a spinlock -/
  | acquire (c : C) (l : ℕ)
  | release (c : C) (l : ℕ)
  | interrupt (c : C)
  /-- a handler calls `wakeup(a)` -/
  | handle (c : C) (a : ℕ)
  /-- a handler returns -/
  | iret (c : C)
  /-- the timer's handler calls `yield` -/
  | tick (c : C)
deriving DecidableEq

section

variable {n : ℕ} {C : Type} [DecidableEq C]

/-! ## Parts of the state -/

/-- the thread a CPU executes -/
def St.thread (s : St n C) (c : C) : Thread n C :=
  match s.cur c with
  | some p => .proc p
  | none => .sched c

/-- where a thread is, its interrupt handler first -/
def St.top (s : St n C) (t : Thread n C) : Pc n := (s.trap t).getD (s.pc t)

def St.goto (s : St n C) (t : Thread n C) (x : Pc n) : St n C :=
  if (s.trap t).isSome then { s with trap := Function.update s.trap t (some x) }
  else { s with pc := Function.update s.pc t x }

def St.modify (s : St n C) (p : Fin n) (f : Slot n → Slot n) : St n C :=
  { s with slot := Function.update s.slot p (f (s.slot p)) }

/-- CPU c has taken a spinlock -/
def St.hold (s : St n C) (c : C) (l : Lock) : St n C :=
  { s with holder := Function.update s.holder l (some c), ncli := Function.update s.ncli c (s.ncli c + 1) }

/-- CPU c has released a spinlock -/
def St.drop (s : St n C) (c : C) (l : Lock) : St n C :=
  { s with holder := Function.update s.holder l none, ncli := Function.update s.ncli c (s.ncli c - 1) }

def St.acquire (s : St n C) (c : C) (l : Lock) : Option (St n C) := if s.holder l = none then some (s.hold c l) else none

def St.release (s : St n C) (c : C) (l : Lock) : Option (St n C) := if s.holder l = some c then some (s.drop c l) else none

/-- CPU c switches to a process, or to its scheduler -/
def St.swtch (s : St n C) (c : C) (p : Option (Fin n)) : St n C := { s with cur := Function.update s.cur c p }

/-- process p has changed its state and calls `sched()` -/
def St.sched (s : St n C) (c : C) (p : Fin n) (f : Slot n → Slot n) (x : Pc n) : Option (St n C) :=
  if s.ncli c = 1 then some (((s.modify p f).goto (.proc p) x).swtch c none) else none

/-- `wakeup1(chan)` on one slot -/
def Slot.wake (chan : Chan n) (x : Slot n) : Slot n :=
  if x.state = .SLEEPING ∧ x.chan = some chan then { x with state := .RUNNABLE } else x

def St.wakeup1 (s : St n C) (chan : Chan n) : St n C := { s with slot := fun q => (s.slot q).wake chan }

/-- what `kill` does to the slot it finds -/
def Slot.kill (x : Slot n) : Slot n :=
  { x with killed := true, state := if x.state = .SLEEPING then .RUNNABLE else x.state }

/-- the first slot with the pid -/
def St.find (s : St n C) (pid : BitVec 32) : Option (Fin n) := (List.finRange n).find? fun q => (s.slot q).pid = pid

/-- the first ZOMBIE child -/
def St.zombie (s : St n C) (p : Fin n) : Option (Fin n) :=
  (List.finRange n).find? fun q => (s.slot q).parent = some p ∧ (s.slot q).state = .ZOMBIE

/-- `wait` frees slot q and returns its pid to p -/
def St.reap (s : St n C) (p q : Fin n) : St n C :=
  { s.modify q fun x => { x with pid := 0, parent := none, killed := false, state := .UNUSED } with
    reaped := s.reaped ++ [((s.slot q).pid, p)] }

/-- an EMBRYO is given up -/
def St.abort (s : St n C) (np : Fin n) : St n C :=
  { s.modify np fun x => { x with state := .UNUSED } with pc := Function.update s.pc (.proc np) .dead }

/-- `allocproc` marks slot np -/
def St.embryo (s : St n C) (np : Fin n) : St n C :=
  { s.modify np fun x => { x with state := .EMBRYO, pid := s.nextpid } with
    nextpid := s.nextpid + 1
    pc := Function.update s.pc (.proc np) .forkret
    created := s.created + 1 }

/-! ## Steps -/

/-- the calls of `proc.c` that process p can make on CPU c: `sleep` with lk held, and no exit of init -/
def St.mayCall (initproc : Fin n) (s : St n C) (c : C) (p : Fin n) : Pc n → Bool
  | .sleep (.other _) l => s.holder (.other l) = some c
  | .wakeup (.other _) .acquire false => true
  | .kill _ | .fork | .wait => true
  | .exit => p ≠ initproc
  | _ => false

/-- the steps of a process other than taking and releasing ptable.lock -/
def procMove (initproc : Fin n) (s : St n C) (c : C) (p : Fin n) : Pc n → Option (St n C)
  | .letGo chan l => (s.release c (.other l)).map (·.goto (.proc p) (.toSleep chan l))
  | .toSleep chan l =>
    s.sched c p (fun x => { x with chan := some chan, state := .SLEEPING }) (.asleep chan l)
  | .asleep _ l => some ((s.modify p fun x => { x with chan := none }).goto (.proc p) (.tidy l))
  | .reacquire l => (s.acquire c (.other l)).map (·.goto (.proc p) (.slept l))
  | .slept _ => some (s.goto (.proc p) .code)
  | .wakeup chan .wake h => some ((s.wakeup1 chan).goto (.proc p) (.wakeup chan .release h))
  | .kill1 pid =>
    match s.find pid with
    | some q => some ((s.modify q Slot.kill).goto (.proc p) (.killDone 0))
    | none => some (s.goto (.proc p) (.killDone (-1)))
  | .adopt np => some ((s.modify np fun x => { x with parent := some p }).goto (.proc p) (.start np))
  | .start np => some ((s.modify np fun x => { x with state := .RUNNABLE }).goto (.proc p) .code)
  | .exit1 =>
    match (s.slot p).parent with
    | some q => some ((s.wakeup1 (.proc q)).goto (.proc p) (.pass 0))
    | none => some (s.goto (.proc p) (.pass 0))
  | .pass i =>
    if h : i < n then
      if (s.slot ⟨i, h⟩).parent = some p then
        let s' := (s.modify ⟨i, h⟩ fun x => { x with parent := some initproc }).goto (.proc p) (.pass (i + 1))
        if (s.slot ⟨i, h⟩).state = .ZOMBIE then some (s'.wakeup1 (.proc initproc)) else some s'
      else some (s.goto (.proc p) (.pass (i + 1)))
    else s.sched c p (fun x => { x with state := .ZOMBIE }) .dead
  | .scanKids =>
    match s.zombie p with
    | some q => some ((s.reap p q).goto (.proc p) .waitDone)
    | none =>
      if (∀ q, (s.slot q).parent ≠ some p) ∨ (s.slot p).killed = true then some (s.goto (.proc p) .waitDone)
      else s.sched c p (fun x => { x with chan := some (.proc p), state := .SLEEPING }) .waitAsleep
  | .waitAsleep => some ((s.modify p fun x => { x with chan := none }).goto (.proc p) .scanKids)
  | .giveUp => s.sched c p (fun x => { x with state := .RUNNABLE }) .yielded
  | _ => none

/-- the steps of a scheduler other than taking and releasing ptable.lock -/
def schedMove (s : St n C) (c : C) : Pc n → Option (St n C)
  | .scan i =>
    if h : i < n then
      if (s.slot ⟨i, h⟩).state = .RUNNABLE then
        some (((s.modify ⟨i, h⟩ fun x => { x with state := .RUNNING }).goto (.sched c) (.ran ⟨i, h⟩)).swtch c (some ⟨i, h⟩))
      else some (s.goto (.sched c) (.scan (i + 1)))
    else some (s.goto (.sched c) .scanned)
  | .ran p => some (s.goto (.sched c) (.scan (p + 1)))
  | .wakeup chan .wake h => some ((s.wakeup1 chan).goto (.sched c) (.wakeup chan .release h))
  | _ => none

/-- the next step of the thread on CPU c -/
def move (initproc : Fin n) (s : St n C) (c : C) : Option (St n C) :=
  match (s.top (s.thread c)).enter, (s.top (s.thread c)).leave with
  | some x, _ => (s.acquire c .ptable).map (·.goto (s.thread c) x)
  | none, some x => (s.release c .ptable).map (·.goto (s.thread c) x)
  | none, none =>
    match s.cur c with
    | some p => procMove initproc s c p (s.top (.proc p))
    | none => schedMove s c (s.top (.sched c))

def step (initproc : Fin n) (s : St n C) : Act n C → Option (St n C)
  | .call c x =>
    match s.cur c with
    | some p =>
      if s.top (.proc p) = .code ∧ s.mayCall initproc c p x = true then some (s.goto (.proc p) x) else none
    | none => none
  | .move c => move initproc s c
  | .take c np =>
    match s.cur c with
    | some p =>
      if s.top (.proc p) = .alloc ∧ (s.slot np).state = .UNUSED then some ((s.embryo np).goto (.proc p) (.allocated np))
      else none
    | none => none
  | .full c =>
    match s.cur c with
    | some p => if s.top (.proc p) = .alloc then some (s.goto (.proc p) .allocFail) else none
    | none => none
  | .kalloc c ok =>
    match s.cur c with
    | some p =>
      match s.top (.proc p) with
      | .kstack np => some (if ok then s.goto (.proc p) (.copyuvm np) else (s.abort np).goto (.proc p) .code)
      | .copyuvm np => some (if ok then s.goto (.proc p) (.adopt np) else (s.abort np).goto (.proc p) .code)
      | _ => none
    | none => none
  | .fault c =>
    match s.cur c with
    | some p => if s.top (.proc p) = .code then some (s.modify p fun x => { x with killed := true }) else none
    | none => none
  | .acquire c l =>
    if s.top (s.thread c) = .code ∨ s.top (s.thread c) = .handler then s.acquire c (.other l) else none
  | .release c l =>
    if s.top (s.thread c) = .code ∨ s.top (s.thread c) = .handler then s.release c (.other l) else none
  | .interrupt c =>
    if s.trap (s.thread c) = none ∧ s.ncli c = 0 then
      some { s with trap := Function.update s.trap (s.thread c) (some .handler) }
    else none
  | .handle c a =>
    if s.top (s.thread c) = .handler then some (s.goto (s.thread c) (.wakeup (.other a) .acquire true)) else none
  | .iret c =>
    if s.top (s.thread c) = .handler ∧ s.ncli c = 0 then some { s with trap := Function.update s.trap (s.thread c) none }
    else none
  | .tick c =>
    match s.cur c with
    | some p => if s.top (.proc p) = .handler ∧ s.ncli c = 0 then some (s.goto (.proc p) .yield) else none
    | none => none

/-- after `userinit`: init is RUNNABLE with pid 1, every CPU is about to enter its scheduler -/
def Init (initproc : Fin n) (s : St n C) : Prop :=
  s.slot initproc = ⟨.RUNNABLE, 1, none, none, false⟩ ∧
    (∀ p, p ≠ initproc → s.slot p = ⟨.UNUSED, 0, none, none, false⟩) ∧
    s.nextpid = 2 ∧ (∀ l, s.holder l = none) ∧ (∀ c, s.ncli c = 0) ∧ (∀ c, s.cur c = none) ∧
    s.pc (.proc initproc) = .forkret ∧ (∀ p, p ≠ initproc → s.pc (.proc p) = .dead) ∧ (∀ c, s.pc (.sched c) = .idle) ∧
    (∀ t, s.trap t = none) ∧ s.created = 1 ∧ s.reaped = []

/-- all interleavings of the CPUs -/
def machine (initproc : Fin n) (C : Type) [DecidableEq C] : Machine (St n C) (Act n C) :=
  .ofStep (Init initproc) (step initproc)

/-! ## What a step does -/

/-- all that a step can do -/
inductive Step (initproc : Fin n) (s : St n C) : Act n C → St n C → Prop where
  | call {c : C} {p : Fin n} {x : Pc n} (hcur : s.cur c = some p) (htop : s.top (.proc p) = .code)
      (hcall : s.mayCall initproc c p x = true) : Step initproc s (.call c x) (s.goto (.proc p) x)
  | enter {c : C} {x : Pc n} (hx : (s.top (s.thread c)).enter = some x) (hfree : s.holder .ptable = none) :
      Step initproc s (.move c) ((s.hold c .ptable).goto (s.thread c) x)
  | leave {c : C} {x : Pc n} (hx : (s.top (s.thread c)).leave = some x) (hheld : s.holder .ptable = some c) :
      Step initproc s (.move c) ((s.drop c .ptable).goto (s.thread c) x)
  | letGo {c : C} {p : Fin n} {chan : Chan n} {l : ℕ} (hcur : s.cur c = some p) (htop : s.top (.proc p) = .letGo chan l)
      (hheld : s.holder (.other l) = some c) :
      Step initproc s (.move c) ((s.drop c (.other l)).goto (.proc p) (.toSleep chan l))
  | toSleep {c : C} {p : Fin n} {chan : Chan n} {l : ℕ} (hcur : s.cur c = some p)
      (htop : s.top (.proc p) = .toSleep chan l) :
      Step initproc s (.move c) (((s.modify p fun x => { x with chan := some chan, state := .SLEEPING }).goto (.proc p)
        (.asleep chan l)).swtch c none)
  | asleep {c : C} {p : Fin n} {chan : Chan n} {l : ℕ} (hcur : s.cur c = some p) (htop : s.top (.proc p) = .asleep chan l) :
      Step initproc s (.move c) ((s.modify p fun x => { x with chan := none }).goto (.proc p) (.tidy l))
  | reacquire {c : C} {p : Fin n} {l : ℕ} (hcur : s.cur c = some p) (htop : s.top (.proc p) = .reacquire l)
      (hfree : s.holder (.other l) = none) :
      Step initproc s (.move c) ((s.hold c (.other l)).goto (.proc p) (.slept l))
  | slept {c : C} {p : Fin n} {l : ℕ} (hcur : s.cur c = some p) (htop : s.top (.proc p) = .slept l) :
      Step initproc s (.move c) (s.goto (.proc p) .code)
  | wake {c : C} {chan : Chan n} {h : Bool} (htop : s.top (s.thread c) = .wakeup chan .wake h) :
      Step initproc s (.move c) ((s.wakeup1 chan).goto (s.thread c) (.wakeup chan .release h))
  | kill {c : C} {p q : Fin n} {pid : BitVec 32} (hcur : s.cur c = some p) (htop : s.top (.proc p) = .kill1 pid)
      (hpid : (s.slot q).pid = pid) : Step initproc s (.move c) ((s.modify q Slot.kill).goto (.proc p) (.killDone 0))
  | killNone {c : C} {p : Fin n} {pid : BitVec 32} (hcur : s.cur c = some p) (htop : s.top (.proc p) = .kill1 pid)
      (hnone : ∀ q, (s.slot q).pid ≠ pid) : Step initproc s (.move c) (s.goto (.proc p) (.killDone (-1)))
  | take {c : C} {p np : Fin n} (hcur : s.cur c = some p) (htop : s.top (.proc p) = .alloc)
      (hunused : (s.slot np).state = .UNUSED) :
      Step initproc s (.take c np) ((s.embryo np).goto (.proc p) (.allocated np))
  | full {c : C} {p : Fin n} (hcur : s.cur c = some p) (htop : s.top (.proc p) = .alloc) :
      Step initproc s (.full c) (s.goto (.proc p) .allocFail)
  | kstack {c : C} {p np : Fin n} (hcur : s.cur c = some p) (htop : s.top (.proc p) = .kstack np) :
      Step initproc s (.kalloc c true) (s.goto (.proc p) (.copyuvm np))
  | copyuvm {c : C} {p np : Fin n} (hcur : s.cur c = some p) (htop : s.top (.proc p) = .copyuvm np) :
      Step initproc s (.kalloc c true) (s.goto (.proc p) (.adopt np))
  | abort {c : C} {p np : Fin n} (hcur : s.cur c = some p)
      (htop : s.top (.proc p) = .kstack np ∨ s.top (.proc p) = .copyuvm np) :
      Step initproc s (.kalloc c false) ((s.abort np).goto (.proc p) .code)
  | adopt {c : C} {p np : Fin n} (hcur : s.cur c = some p) (htop : s.top (.proc p) = .adopt np) :
      Step initproc s (.move c) ((s.modify np fun x => { x with parent := some p }).goto (.proc p) (.start np))
  | start {c : C} {p np : Fin n} (hcur : s.cur c = some p) (htop : s.top (.proc p) = .start np) :
      Step initproc s (.move c) ((s.modify np fun x => { x with state := .RUNNABLE }).goto (.proc p) .code)
  | exit1 {c : C} {p q : Fin n} (hcur : s.cur c = some p) (htop : s.top (.proc p) = .exit1)
      (hparent : (s.slot p).parent = some q) :
      Step initproc s (.move c) ((s.wakeup1 (.proc q)).goto (.proc p) (.pass 0))
  | exitOrphan {c : C} {p : Fin n} (hcur : s.cur c = some p) (htop : s.top (.proc p) = .exit1)
      (hparent : (s.slot p).parent = none) : Step initproc s (.move c) (s.goto (.proc p) (.pass 0))
  | passOther {c : C} {p q : Fin n} (hcur : s.cur c = some p) (htop : s.top (.proc p) = .pass q)
      (hparent : (s.slot q).parent ≠ some p) : Step initproc s (.move c) (s.goto (.proc p) (.pass (q + 1)))
  | passChild {c : C} {p q : Fin n} (hcur : s.cur c = some p) (htop : s.top (.proc p) = .pass q)
      (hparent : (s.slot q).parent = some p) (hstate : (s.slot q).state ≠ .ZOMBIE) :
      Step initproc s (.move c)
        ((s.modify q fun x => { x with parent := some initproc }).goto (.proc p) (.pass (q + 1)))
  | passZombie {c : C} {p q : Fin n} (hcur : s.cur c = some p) (htop : s.top (.proc p) = .pass q)
      (hparent : (s.slot q).parent = some p) (hstate : (s.slot q).state = .ZOMBIE) :
      Step initproc s (.move c)
        (((s.modify q fun x => { x with parent := some initproc }).goto (.proc p) (.pass (q + 1))).wakeup1 (.proc initproc))
  | zombie {c : C} {p : Fin n} {i : ℕ} (hcur : s.cur c = some p) (htop : s.top (.proc p) = .pass i) (hi : n ≤ i) :
      Step initproc s (.move c)
        (((s.modify p fun x => { x with state := .ZOMBIE }).goto (.proc p) .dead).swtch c none)
  | reap {c : C} {p q : Fin n} (hcur : s.cur c = some p) (htop : s.top (.proc p) = .scanKids)
      (hparent : (s.slot q).parent = some p) (hstate : (s.slot q).state = .ZOMBIE) :
      Step initproc s (.move c) ((s.reap p q).goto (.proc p) .waitDone)
  | waitFail {c : C} {p : Fin n} (hcur : s.cur c = some p) (htop : s.top (.proc p) = .scanKids) :
      Step initproc s (.move c) (s.goto (.proc p) .waitDone)
  | waitSleep {c : C} {p : Fin n} (hcur : s.cur c = some p) (htop : s.top (.proc p) = .scanKids)
      (hnone : ∀ q, (s.slot q).parent = some p → (s.slot q).state ≠ .ZOMBIE) :
      Step initproc s (.move c)
        (((s.modify p fun x => { x with chan := some (.proc p), state := .SLEEPING }).goto (.proc p) .waitAsleep).swtch c none)
  | waitAsleep {c : C} {p : Fin n} (hcur : s.cur c = some p) (htop : s.top (.proc p) = .waitAsleep) :
      Step initproc s (.move c) ((s.modify p fun x => { x with chan := none }).goto (.proc p) .scanKids)
  | giveUp {c : C} {p : Fin n} (hcur : s.cur c = some p) (htop : s.top (.proc p) = .giveUp) :
      Step initproc s (.move c)
        (((s.modify p fun x => { x with state := .RUNNABLE }).goto (.proc p) .yielded).swtch c none)
  | scanRun {c : C} {p : Fin n} (hcur : s.cur c = none) (htop : s.top (.sched c) = .scan p)
      (hstate : (s.slot p).state = .RUNNABLE) :
      Step initproc s (.move c)
        (((s.modify p fun x => { x with state := .RUNNING }).goto (.sched c) (.ran p)).swtch c (some p))
  | scanSkip {c : C} {i : ℕ} (hcur : s.cur c = none) (htop : s.top (.sched c) = .scan i) :
      Step initproc s (.move c) (s.goto (.sched c) (.scan (i + 1)))
  | scanEnd {c : C} {i : ℕ} (hcur : s.cur c = none) (htop : s.top (.sched c) = .scan i) :
      Step initproc s (.move c) (s.goto (.sched c) .scanned)
  | ran {c : C} {p : Fin n} (hcur : s.cur c = none) (htop : s.top (.sched c) = .ran p) :
      Step initproc s (.move c) (s.goto (.sched c) (.scan (p + 1)))
  | fault {c : C} {p : Fin n} (hcur : s.cur c = some p) (htop : s.top (.proc p) = .code) :
      Step initproc s (.fault c) (s.modify p fun x => { x with killed := true })
  | acquire {c : C} {l : ℕ} (htop : s.top (s.thread c) = .code ∨ s.top (s.thread c) = .handler)
      (hfree : s.holder (.other l) = none) : Step initproc s (.acquire c l) (s.hold c (.other l))
  | release {c : C} {l : ℕ} (htop : s.top (s.thread c) = .code ∨ s.top (s.thread c) = .handler)
      (hheld : s.holder (.other l) = some c) : Step initproc s (.release c l) (s.drop c (.other l))
  | interrupt {c : C} (htrap : s.trap (s.thread c) = none) (hncli : s.ncli c = 0) :
      Step initproc s (.interrupt c) { s with trap := Function.update s.trap (s.thread c) (some .handler) }
  | handle {c : C} {a : ℕ} (htop : s.top (s.thread c) = .handler) :
      Step initproc s (.handle c a) (s.goto (s.thread c) (.wakeup (.other a) .acquire true))
  | iret {c : C} (htop : s.top (s.thread c) = .handler) :
      Step initproc s (.iret c) { s with trap := Function.update s.trap (s.thread c) none }
  | tick {c : C} {p : Fin n} (hcur : s.cur c = some p) (htop : s.top (.proc p) = .handler) :
      Step initproc s (.tick c) (s.goto (.proc p) .yield)

variable {initproc : Fin n} {s t : St n C} {c : C} {p : Fin n}

theorem St.acquire_eq {l : Lock} (h : s.acquire c l = some t) : s.holder l = none ∧ t = s.hold c l := by
  rw [St.acquire] at h
  split_ifs at h with hfree
  exact ⟨hfree, (Option.some.inj h).symm⟩

theorem St.release_eq {l : Lock} (h : s.release c l = some t) : s.holder l = some c ∧ t = s.drop c l := by
  rw [St.release] at h
  split_ifs at h with hheld
  exact ⟨hheld, (Option.some.inj h).symm⟩

theorem St.sched_eq {f : Slot n → Slot n} {x : Pc n} (h : s.sched c p f x = some t) :
    t = ((s.modify p f).goto (.proc p) x).swtch c none := by
  rw [St.sched] at h
  split_ifs at h
  exact (Option.some.inj h).symm

theorem procMove_cases {x : Pc n} (hcur : s.cur c = some p) (htop : s.top (.proc p) = x)
    (h : procMove initproc s c p x = some t) : Step initproc s (.move c) t := by
  have hthread : s.thread c = .proc p := by rw [St.thread, hcur]
  cases x with
  | letGo chan l =>
    obtain ⟨u, hu, rfl⟩ := Option.map_eq_some_iff.1 h
    obtain ⟨hheld, rfl⟩ := St.release_eq hu
    exact .letGo hcur htop hheld
  | toSleep chan l => exact St.sched_eq h ▸ .toSleep hcur htop
  | asleep chan l => exact Option.some.inj h ▸ .asleep hcur htop
  | reacquire l =>
    obtain ⟨u, hu, rfl⟩ := Option.map_eq_some_iff.1 h
    obtain ⟨hfree, rfl⟩ := St.acquire_eq hu
    exact .reacquire hcur htop hfree
  | slept l => exact Option.some.inj h ▸ .slept hcur htop
  | wakeup chan k handler =>
    cases k with
    | wake =>
      rw [← hthread] at htop
      rw [procMove, ← hthread] at h
      exact Option.some.inj h ▸ .wake htop
    | acquire | release => cases h
  | kill1 pid =>
    rw [procMove] at h
    split at h
    · rename_i q hq
      have hpid := List.find?_some hq
      exact Option.some.inj h ▸ .kill hcur htop (of_decide_eq_true hpid)
    · rename_i hnone
      have hpid := List.find?_eq_none.1 hnone
      exact Option.some.inj h ▸ .killNone hcur htop fun q => by simpa using hpid q (List.mem_finRange q)
  | adopt np => exact Option.some.inj h ▸ .adopt hcur htop
  | start np => exact Option.some.inj h ▸ .start hcur htop
  | exit1 =>
    rw [procMove] at h
    split at h
    · rename_i q hq
      exact Option.some.inj h ▸ .exit1 hcur htop hq
    · rename_i hq
      exact Option.some.inj h ▸ .exitOrphan hcur htop hq
  | pass i =>
    rw [procMove] at h
    split_ifs at h with hi hparent hstate
    · exact Option.some.inj h ▸ .passZombie (q := ⟨i, hi⟩) hcur htop hparent hstate
    · exact Option.some.inj h ▸ .passChild (q := ⟨i, hi⟩) hcur htop hparent hstate
    · exact Option.some.inj h ▸ .passOther (q := ⟨i, hi⟩) hcur htop hparent
    · exact St.sched_eq h ▸ .zombie hcur htop (not_lt.1 hi)
  | scanKids =>
    rw [procMove] at h
    split at h
    · rename_i q hq
      have hchild := List.find?_some hq
      obtain ⟨hparent, hstate⟩ := of_decide_eq_true hchild
      exact Option.some.inj h ▸ .reap hcur htop hparent hstate
    · rename_i hnone
      split_ifs at h
      · exact Option.some.inj h ▸ .waitFail hcur htop
      · refine St.sched_eq h ▸ .waitSleep hcur htop fun q hparent hstate => ?_
        have := List.find?_eq_none.1 hnone q (List.mem_finRange q)
        exact this (decide_eq_true ⟨hparent, hstate⟩)
  | waitAsleep => exact Option.some.inj h ▸ .waitAsleep hcur htop
  | giveUp => exact St.sched_eq h ▸ .giveUp hcur htop
  | _ => cases h

theorem schedMove_cases {x : Pc n} (hcur : s.cur c = none) (htop : s.top (.sched c) = x)
    (h : schedMove s c x = some t) : Step initproc s (.move c) t := by
  have hthread : s.thread c = .sched c := by rw [St.thread, hcur]
  cases x with
  | scan i =>
    rw [schedMove] at h
    split_ifs at h with hi hstate
    · exact Option.some.inj h ▸ .scanRun (p := ⟨i, hi⟩) hcur htop hstate
    · exact Option.some.inj h ▸ .scanSkip hcur htop
    · exact Option.some.inj h ▸ .scanEnd hcur htop
  | ran p => exact Option.some.inj h ▸ .ran hcur htop
  | wakeup chan k handler =>
    cases k with
    | wake =>
      rw [← hthread] at htop
      rw [schedMove, ← hthread] at h
      exact Option.some.inj h ▸ .wake htop
    | acquire | release => cases h
  | _ => cases h

theorem move_cases (h : move initproc s c = some t) : Step initproc s (.move c) t := by
  unfold move at h
  split at h
  · rename_i x hx
    obtain ⟨u, hu, rfl⟩ := Option.map_eq_some_iff.1 h
    obtain ⟨hfree, rfl⟩ := St.acquire_eq hu
    exact .enter hx hfree
  · rename_i x _ hx
    obtain ⟨u, hu, rfl⟩ := Option.map_eq_some_iff.1 h
    obtain ⟨hheld, rfl⟩ := St.release_eq hu
    exact .leave hx hheld
  · split at h
    · rename_i p hcur
      exact procMove_cases hcur rfl h
    · rename_i hcur
      exact schedMove_cases hcur rfl h

theorem step_cases {a : Act n C} (h : step initproc s a = some t) : Step initproc s a t := by
  cases a with
  | call c x =>
    rw [step] at h
    split at h
    · rename_i p hcur
      split_ifs at h with hok
      exact Option.some.inj h ▸ .call hcur hok.1 hok.2
    · cases h
  | move c => exact move_cases h
  | take c np =>
    rw [step] at h
    split at h
    · rename_i p hcur
      split_ifs at h with hok
      exact Option.some.inj h ▸ .take hcur hok.1 hok.2
    · cases h
  | full c =>
    rw [step] at h
    split at h
    · rename_i p hcur
      split_ifs at h with htop
      exact Option.some.inj h ▸ .full hcur htop
    · cases h
  | kalloc c ok =>
    rw [step] at h
    split at h
    · rename_i p hcur
      split at h
      · rename_i np htop
        cases ok with
        | true => exact Option.some.inj h ▸ .kstack hcur htop
        | false => exact Option.some.inj h ▸ .abort hcur (.inl htop)
      · rename_i np htop
        cases ok with
        | true => exact Option.some.inj h ▸ .copyuvm hcur htop
        | false => exact Option.some.inj h ▸ .abort hcur (.inr htop)
      · cases h
    · cases h
  | fault c =>
    rw [step] at h
    split at h
    · rename_i p hcur
      split_ifs at h with htop
      exact Option.some.inj h ▸ .fault hcur htop
    · cases h
  | acquire c l =>
    rw [step] at h
    split_ifs at h with htop
    obtain ⟨hfree, rfl⟩ := St.acquire_eq h
    exact .acquire htop hfree
  | release c l =>
    rw [step] at h
    split_ifs at h with htop
    obtain ⟨hheld, rfl⟩ := St.release_eq h
    exact .release htop hheld
  | interrupt c =>
    rw [step] at h
    split_ifs at h with hok
    exact Option.some.inj h ▸ .interrupt hok.1 hok.2
  | handle c a =>
    rw [step] at h
    split_ifs at h with htop
    exact Option.some.inj h ▸ .handle htop
  | iret c =>
    rw [step] at h
    split_ifs at h with hok
    exact Option.some.inj h ▸ .iret hok.1
  | tick c =>
    rw [step] at h
    split at h
    · rename_i p hcur
      split_ifs at h with hok
      exact Option.some.inj h ▸ .tick hcur hok.1
    · cases h

end

end Xv6.Proc
