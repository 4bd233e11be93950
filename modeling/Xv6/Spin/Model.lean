/-
Spinlocks and interrupts (`spinlock.c`, with `sched`, `yield`, `sleep`, `exit`, `forkret` and `scheduler` of `proc.c`).

A function is the list of the instructions that touch a lock, the interrupt flag or one of the counters of its CPU, in
the order in which the code executes them. A thread is the kernel thread of a process or the scheduler of a CPU; it has
the rest of the function it is in (`todo`; empty in other code), the local variables that the functions keep, and
the code under its interrupt handlers (`frames`). A step executes one instruction on one CPU, delivers or ends an
interrupt, or lets code outside these functions call one of them. A run is any interleaving of the CPUs.

An interrupt is delivered only while IF is set, and clears it. Code calls `release` and `sleep` on locks it holds, ends a
handler and sets IF on the way from and to user mode with no lock held. The only functions that use `pushcli` and
`popcli` are `acquire`, `release` and `switchuvm`. A check that fails, and would panic, has no step.

`held`, `grab` and `left` are history: the locks of a CPU that name it in cpu, the one that it has locked and that does
not name it, and the intena of the CPU when a process entered `sched`.
-/
import Xv6.Proc.Model

namespace Xv6.Spin

open Function (update)
open Xv6.Proc (Lock ProcState Thread)

/-- the instructions of the functions below -/
inductive Instr (n : ℕ) where
  /-- eflags = readeflags() -/
  | readeflags
  | cli
  /-- the rest of `pushcli`: intena if ncli is 0, and ncli += 1 -/
  | count
  /-- `acquire` panics if the CPU holds the lock -/
  | notHolding (l : Lock)
  /-- xchg(&lk->locked, 1) -/
  | xchg (l : Lock)
  /-- lk->cpu = cpu -/
  | setCpu (l : Lock)
  /-- `release` panics if the CPU does not hold the lock -/
  | holding (l : Lock)
  /-- lk->cpu = 0 -/
  | clearCpu (l : Lock)
  /-- lk->locked = 0 -/
  | unlock (l : Lock)
  /-- `popcli` panics if IF is set -/
  | interruptible
  /-- `popcli`: --ncli, and panics if it is negative -/
  | uncount
  /-- `popcli`: sti if ncli is 0 and intena is set -/
  | restore
  | sti
  /-- proc->state = st -/
  | setState (st : ProcState)
  /-- `sched`: its four checks, and intena = cpu->intena -/
  | schedCheck
  /-- `sched`: swtch(&proc->context, cpu->scheduler) -/
  | swtch
  /-- `sched`: cpu->intena = intena -/
  | setIntena
  /-- `scheduler`: the next turn of its outer loop -/
  | loop
  /-- `scheduler`: the search for a RUNNABLE process -/
  | scan
  /-- `scheduler`: p->state = RUNNING and swtch(&cpu->scheduler, p->context) -/
  | run (p : Fin n)
  /-- panic("zombie exit") -/
  | zombieExit
deriving DecidableEq, Repr

/-! ## The functions -/

section

variable {n : ℕ}

def pushcli : List (Instr n) := [.readeflags, .cli, .count]

def popcli : List (Instr n) := [.interruptible, .uncount, .restore]

def acquire (l : Lock) : List (Instr n) := pushcli ++ [.notHolding l, .xchg l, .setCpu l]

def release (l : Lock) : List (Instr n) := [.holding l, .clearCpu l, .unlock l] ++ popcli

def switchuvm : List (Instr n) := pushcli ++ popcli

def sched : List (Instr n) := [.schedCheck, .swtch, .setIntena]

def yield : List (Instr n) := acquire .ptable ++ .setState .RUNNABLE :: (sched ++ release .ptable)

/-- `sleep(chan, lk)` for a lock other than ptable.lock -/
def sleep (l : Lock) : List (Instr n) :=
  acquire .ptable ++ (release l ++ .setState .SLEEPING :: (sched ++ (release .ptable ++ acquire l)))

/-- `sleep(proc, &ptable.lock)`, in `wait` -/
def waitSleep : List (Instr n) := .setState .SLEEPING :: sched

/-- the end of `exit` -/
def exit : List (Instr n) := acquire .ptable ++ .setState .ZOMBIE :: (sched ++ [.zombieExit])

def forkret : List (Instr n) := release .ptable

/-- `scheduler`: a turn of the outer loop, up to the search -/
def round : List (Instr n) := .sti :: (acquire .ptable ++ [.scan])

/-- `scheduler`: switching to p, and the search after p has switched back -/
def dispatch (p : Fin n) : List (Instr n) := switchuvm ++ [.run p, .scan]

/-- `scheduler`: after the search -/
def roundEnd : List (Instr n) := release .ptable ++ [.loop]

end

/-! ## The state -/

/-- a kernel thread -/
structure Thr (n : ℕ) where
  todo : List (Instr n)
  /-- the local variable of `pushcli` -/
  eflags : Bool
  /-- the local variable of `sched` -/
  intena : Bool
  /-- what handlers have interrupted: the rest of its function, and its eflags -/
  frames : List (List (Instr n) × Bool)

structure St (n : ℕ) (C : Type) where
  /-- lk->locked, with the CPU that has set it -/
  locked : Lock → Option C
  /-- lk->cpu -/
  lcpu : Lock → Option C
  /-- the interrupt flag -/
  IF : C → Bool
  ncli : C → ℤ
  intena : C → Bool
  /-- the process that a CPU executes; none: its scheduler -/
  on : C → Option (Fin n)
  thr : Thread n C → Thr n
  state : Fin n → ProcState
  held : C → List Lock
  grab : C → Option Lock
  left : Fin n → Bool

/-- what code can call -/
inductive Fn where
  | acquire (l : Lock)
  | release (l : Lock)
  | switchuvm
  | yield
  | sleep (l : Lock)
  | waitSleep
  | exit
deriving DecidableEq, Repr

def Fn.body {n : ℕ} : Fn → List (Instr n)
  | .acquire l => Spin.acquire l
  | .release l => Spin.release l
  | .switchuvm => Spin.switchuvm
  | .yield => Spin.yield
  | .sleep l => Spin.sleep l
  | .waitSleep => Spin.waitSleep
  | .exit => Spin.exit

inductive Act (n : ℕ) (C : Type) where
  /-- the thread on c executes an instruction -/
  | exec (c : C)
  | interrupt (c : C)
  | iret (c : C)
  /-- IF changes between user mode and kernel code -/
  | flag (c : C) (b : Bool)
  | call (c : C) (f : Fn)
  /-- `wakeup1` or `kill` makes p RUNNABLE -/
  | wake (c : C) (p : Fin n)
  /-- `wait` frees the slot of p -/
  | reap (c : C) (p : Fin n)
  /-- `fork` or `userinit` makes a process in slot p -/
  | start (p : Fin n)
  /-- the scheduler finds p RUNNABLE -/
  | dispatch (c : C) (p : Fin n)
  /-- the scheduler finds no RUNNABLE process any more -/
  | done (c : C)

section

variable {n : ℕ} {C : Type} [DecidableEq C]

/-- the thread a CPU executes -/
def St.thread (s : St n C) (c : C) : Thread n C :=
  match s.on c with
  | some p => .proc p
  | none => .sched c

def St.todo (s : St n C) (t : Thread n C) : List (Instr n) := (s.thr t).todo

/-- `holding(lk)` on CPU c -/
def St.Holding (s : St n C) (c : C) (l : Lock) : Prop := s.locked l ≠ none ∧ s.lcpu l = some c

instance (s : St n C) (c : C) (l : Lock) : Decidable (s.Holding c l) := by unfold St.Holding; infer_instance

/-- the thread t goes on with τ -/
def St.goto (s : St n C) (t : Thread n C) (τ : List (Instr n)) : St n C :=
  { s with thr := update s.thr t { s.thr t with todo := τ } }

/-! ## Steps -/

/-- CPU c executes an instruction of thread t and goes on with τ -/
def exec (s : St n C) (c : C) (t : Thread n C) (τ : List (Instr n)) : Instr n → Option (St n C)
  | .readeflags => some { s with thr := update s.thr t { s.thr t with todo := τ, eflags := s.IF c } }
  | .cli => some { s.goto t τ with IF := update s.IF c false }
  | .count =>
    some { s.goto t τ with
      intena := if s.ncli c = 0 then update s.intena c (s.thr t).eflags else s.intena
      ncli := update s.ncli c (s.ncli c + 1) }
  | .notHolding l => if s.Holding c l then none else some (s.goto t τ)
  | .xchg l =>
    -- the loop goes on while another CPU has set it
    if s.locked l = none then
      some { s.goto t τ with
        locked := update s.locked l (some c), grab := update s.grab c (some l) }
    else none
  | .setCpu l =>
    some { s.goto t τ with
      lcpu := update s.lcpu l (some c), held := update s.held c (l :: s.held c)
      grab := update s.grab c none }
  | .holding l => if s.Holding c l then some (s.goto t τ) else none
  | .clearCpu l =>
    some { s.goto t τ with
      lcpu := update s.lcpu l none, held := update s.held c ((s.held c).erase l)
      grab := update s.grab c (some l) }
  | .unlock l =>
    some { s.goto t τ with locked := update s.locked l none, grab := update s.grab c none }
  | .interruptible => if s.IF c = true then none else some (s.goto t τ)
  | .uncount =>
    if s.ncli c - 1 < 0 then none else some { s.goto t τ with ncli := update s.ncli c (s.ncli c - 1) }
  | .restore =>
    if s.ncli c = 0 ∧ s.intena c = true then some { s.goto t τ with IF := update s.IF c true }
    else some (s.goto t τ)
  | .sti => some { s.goto t τ with IF := update s.IF c true }
  | .setState st =>
    match s.on c with
    | some p => some { s.goto t τ with state := update s.state p st }
    | none => none
  | .schedCheck =>
    match s.on c with
    | some p =>
      if s.Holding c .ptable ∧ s.ncli c = 1 ∧ s.state p ≠ .RUNNING ∧ s.IF c = false then
        some { s with
          thr := update s.thr t { s.thr t with todo := τ, intena := s.intena c }
          left := update s.left p (s.intena c) }
      else none
    | none => none
  | .swtch =>
    match s.on c with
    | some _ => some { s.goto t τ with on := update s.on c none }
    | none => none
  | .setIntena => some { s.goto t τ with intena := update s.intena c (s.thr t).intena }
  | .loop => some (s.goto t round)
  | .scan => none
  | .run p =>
    some { s.goto t τ with state := update s.state p .RUNNING, on := update s.on c (some p) }
  | .zombieExit => none

/-- the code on c may call f: a handler on top of the scheduler only takes and releases locks -/
def St.mayCall (s : St n C) (c : C) : Fn → Bool
  | .acquire _ => true
  | .release l => s.Holding c l
  | .switchuvm | .yield | .exit => (s.on c).isSome
  | .sleep l => (s.on c).isSome ∧ l ≠ .ptable ∧ s.Holding c l
  | .waitSleep => (s.on c).isSome ∧ s.Holding c .ptable

def step (s : St n C) : Act n C → Option (St n C)
  | .exec c =>
    match s.todo (s.thread c) with
    | [] => none
    | i :: τ => exec s c (s.thread c) τ i
  | .interrupt c =>
    if s.IF c = true then
      let x := s.thr (s.thread c)
      some { s with
        thr := update s.thr (s.thread c) { x with todo := [], frames := (x.todo, x.eflags) :: x.frames }
        IF := update s.IF c false }
    else none
  | .iret c =>
    match s.thr (s.thread c) with
    | ⟨[], _, intena, (τ, eflags) :: frames⟩ =>
      if s.held c = [] then
        some { s with
          thr := update s.thr (s.thread c) ⟨τ, eflags, intena, frames⟩, IF := update s.IF c true }
      else none
    | _ => none
  | .flag c b =>
    if (s.on c).isSome ∧ s.todo (s.thread c) = [] ∧ s.held c = [] then
      some { s with IF := update s.IF c b }
    else none
  | .call c f =>
    if s.todo (s.thread c) = [] ∧ s.mayCall c f = true then some (s.goto (s.thread c) f.body) else none
  | .wake c p =>
    if s.todo (s.thread c) = [] ∧ s.Holding c .ptable ∧ s.state p = .SLEEPING then
      some { s with state := update s.state p .RUNNABLE }
    else none
  | .reap c p =>
    if s.todo (s.thread c) = [] ∧ s.Holding c .ptable ∧ s.state p = .ZOMBIE then
      some { s with state := update s.state p .UNUSED }
    else none
  | .start p =>
    if s.state p = .UNUSED then
      some { s with
        state := update s.state p .RUNNABLE
        thr := update s.thr (.proc p) ⟨forkret, false, false, []⟩ }
    else none
  | .dispatch c p =>
    if s.on c = none ∧ s.todo (s.thread c) = [.scan] ∧ s.state p = .RUNNABLE then some (s.goto (s.thread c) (dispatch p))
    else none
  | .done c =>
    if s.on c = none ∧ s.todo (s.thread c) = [.scan] then some (s.goto (s.thread c) roundEnd) else none

/-- no process, no lock taken; every CPU is about to enter its scheduler -/
def Init (s : St n C) : Prop :=
  (∀ l, s.locked l = none) ∧ (∀ l, s.lcpu l = none) ∧ (∀ c, s.IF c = false) ∧ (∀ c, s.ncli c = 0) ∧ (∀ c, s.on c = none) ∧
    (∀ c, s.todo (.sched c) = [.loop]) ∧ (∀ p, s.todo (.proc p) = []) ∧ (∀ t, (s.thr t).frames = []) ∧
    (∀ p, s.state p = .UNUSED) ∧ (∀ c, s.held c = []) ∧ ∀ c, s.grab c = none

/-- all interleavings of the CPUs -/
def machine (n : ℕ) (C : Type) [DecidableEq C] : Machine (St n C) (Act n C) := .ofStep Init step

end

end Xv6.Spin
