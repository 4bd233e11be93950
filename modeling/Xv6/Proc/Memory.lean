/-
The memory that CPUs run on: kernel stacks and page tables.

`Mem` adds to the process table the pages behind it: kstack and pgdir of every slot, the stack and the page table (cr3)
that every CPU is using, and what every process is doing with page tables outside `proc.c` (`Work`). The steps of
`proc.c` are those of the model of the table. A switch is taken apart: the scheduler loads cr3 and then switches stacks;
a process that has changed its state in `sched` is still on its stack, `swtch` leaves the stack, and only `switchkvm`
leaves the page table. So are the functions that free pages: `wait` on a ZOMBIE, `exec` on the old or the new page table,
`copyuvm` and `fork` on what they have built. A page table is the page that cr3 would hold.
- `MStep`, `Mem.step_cases`: all that a step can do.
-/
import Xv6.Core.Own
import Xv6.Proc.Pids

namespace Xv6.Proc

open Function

/-- physical pages -/
abbrev Page := ℕ

/-- who called `freevm` -/
inductive Caller (n : ℕ) where
  | exec
  | copyuvm
  /-- `wait`, for the ZOMBIE q -/
  | wait (q : Fin n)
deriving DecidableEq, Repr

/-- what a process is doing with page tables -/
inductive Work (n : ℕ) where
  | idle
  /-- `copyuvm` fills d -/
  | copy (d : Page)
  /-- `exec` fills d -/
  | load (d : Page)
  /-- `exec` has stored proc->pgdir; about to call `switchuvm` -/
  | commit (old : Page)
  /-- in `freevm(d)` -/
  | freevm (d : Page) (k : Caller n)
  /-- `copyuvm` has returned 0 -/
  | failed
  /-- `wait` has freed the stack and the page table of q -/
  | emptied (q : Fin n)
deriving DecidableEq, Repr

/-- how far a CPU is in a switch between its scheduler and a process -/
inductive Switch (n : ℕ) where
  | ready
  /-- the scheduler has called `switchuvm(p)` -/
  | picked (p : Fin n)
  /-- p has changed its state and is in `sched`, before `swtch` -/
  | leaving (p : Fin n)
  /-- the scheduler is back from `swtch`, before `switchkvm` -/
  | back (p : Fin n)
deriving DecidableEq, Repr

structure Mem (n : ℕ) (C : Type) where
  proc : St n C
  free : Page → Bool
  kstack : Fin n → Option Page
  pgdir : Fin n → Option Page
  /-- history: the page table that was built for a slot and that nobody has begun to free -/
  own : Fin n → Option Page
  work : Fin n → Work n
  /-- the kernel stack a CPU is on; none: the scheduler's -/
  rsp : C → Option Page
  /-- none: kpml4 -/
  cr3 : C → Option Page
  switch : C → Switch n

inductive MAct (n : ℕ) (C : Type) where
  /-- a step of the table that moves no page and switches no stack -/
  | run (a : Act n C)
  /-- `scheduler`: switchuvm(p) -/
  | pick (c : C)
  /-- `scheduler`: p->state = RUNNING and swtch -/
  | enter (c : C)
  /-- `sleep`, `exit`, `wait` or `yield` changes the state of its process and calls `sched` -/
  | leave (c : C)
  /-- `sched`: swtch -/
  | swtch (c : C)
  /-- `scheduler`: switchkvm -/
  | switchkvm (c : C)
  /-- kalloc returns d: the kernel stack in `allocproc`, or `setupkvm` in `copyuvm` or in `exec` -/
  | kalloc (c : C) (d : Page)
  /-- kalloc returns 0 in `allocproc` or in `copyuvm`'s `setupkvm` -/
  | nomem (c : C)
  /-- `copyuvm` returns its page table -/
  | copied (c : C)
  /-- `copyuvm` or `exec` goes to bad -/
  | bad (c : C)
  /-- `fork` gives up after `copyuvm` -/
  | unfork (c : C)
  /-- `exec`: proc->pgdir = pgdir -/
  | commit (c : C)
  /-- `exec` or `growproc`: switchuvm(proc) -/
  | switchuvm (c : C)
  /-- `wait` finds a ZOMBIE and frees its stack -/
  | reap (c : C)
  /-- `freevm` returns -/
  | freed (c : C)
  /-- `wait` resets the slot -/
  | reset (c : C)

section

variable {n : ℕ} {C : Type} [DecidableEq C]

/-! ## Steps -/

/-- CPU c executes process p, and is not in a switch -/
def Mem.On (s : Mem n C) (c : C) (p : Fin n) : Prop := s.switch c = .ready ∧ s.proc.cur c = some p

/-- a process does this while it works on page tables, or it is not working on any -/
def Mem.plain (s : Mem n C) (a : Act n C) : Bool :=
  match s.proc.cur a.cpu with
  | none => true
  | some p =>
    match a with
    | .kalloc _ _ => false
    | .call _ (.sleep _ _) | .call _ (.wakeup _ _ _) => true
    | .call _ _ | .fault _ => s.work p = .idle
    | .move _ => s.proc.top (.proc p) ≠ .scanKids ∨ s.work p = .idle ∧ s.proc.zombie p = none
    | _ => true

/-- the steps of the process p on CPU c that are about pages -/
def Mem.procStep (initproc : Fin n) (s : Mem n C) (c : C) (p : Fin n) (x : Pc n) (w : Work n) : MAct n C → Option (Mem n C)
  | .leave _ =>
    (step initproc s.proc (.move c)).bind fun t =>
      if s.plain (.move c) = true ∧ t.cur c = none then
        some { s with proc := t, switch := update s.switch c (.leaving p) }
      else none
  | .kalloc _ d =>
    if s.free d = true then
      match x, w with
      | .kstack np, _ =>
        (step initproc s.proc (.kalloc c true)).map fun t =>
          { s with
            proc := t, free := update s.free d false, kstack := update s.kstack np (some d) }
      | .copyuvm _, .idle =>
        some { s with free := update s.free d false, work := update s.work p (.copy d) }
      | .code, .idle => some { s with free := update s.free d false, work := update s.work p (.load d) }
      | _, _ => none
    else none
  | .nomem _ =>
    match x, w with
    | .kstack np, _ =>
      (step initproc s.proc (.kalloc c false)).map fun t =>
        { s with proc := t, kstack := update s.kstack np none }
    | .copyuvm _, .idle => some { s with work := update s.work p .failed }
    | _, _ => none
  | .copied _ =>
    match x, w with
    | .copyuvm np, .copy d =>
      (step initproc s.proc (.kalloc c true)).map fun t =>
        { s with
          proc := t, pgdir := update s.pgdir np (some d), own := update s.own np (some d)
          work := update s.work p .idle }
    | _, _ => none
  | .bad _ =>
    match x, w with
    | .copyuvm _, .copy d => some { s with work := update s.work p (.freevm d .copyuvm) }
    | .code, .load d => some { s with work := update s.work p (.freevm d .exec) }
    | _, _ => none
  | .unfork _ =>
    match x, w with
    | .copyuvm np, .failed =>
      (s.kstack np).bind fun k =>
        (step initproc s.proc (.kalloc c false)).map fun t =>
          { s with
            proc := t, free := update s.free k true, kstack := update s.kstack np none
            pgdir := update s.pgdir np none, work := update s.work p .idle }
    | _, _ => none
  | .commit _ =>
    match x, w with
    | .code, .load d =>
      (s.pgdir p).map fun old =>
        { s with
          pgdir := update s.pgdir p (some d), own := update s.own p (some d)
          work := update s.work p (.commit old) }
    | _, _ => none
  | .switchuvm _ =>
    match x, w with
    | .code, .idle => (s.pgdir p).map fun d => { s with cr3 := update s.cr3 c (some d) }
    | .code, .commit old =>
      (s.pgdir p).map fun d =>
        { s with cr3 := update s.cr3 c (some d), work := update s.work p (.freevm old .exec) }
    | _, _ => none
  | .reap _ =>
    match x, w with
    | .scanKids, .idle =>
      (s.proc.zombie p).bind fun q => (s.kstack q).bind fun k => (s.pgdir q).map fun d =>
        { s with
          free := update s.free k true, kstack := update s.kstack q none
          own := update s.own q none, work := update s.work p (.freevm d (.wait q)) }
    | _, _ => none
  | .freed _ =>
    match x, w with
    | .code, .freevm d .exec =>
      some { s with free := update s.free d true, work := update s.work p .idle }
    | .copyuvm _, .freevm d .copyuvm =>
      some { s with free := update s.free d true, work := update s.work p .failed }
    | .scanKids, .freevm d (.wait q) =>
      some { s with free := update s.free d true, work := update s.work p (.emptied q) }
    | _, _ => none
  | .reset _ =>
    match x, w with
    | .scanKids, .emptied _ =>
      (step initproc s.proc (.move c)).map fun t => { s with proc := t, work := update s.work p .idle }
    | _, _ => none
  | _ => none

/-- the steps of the scheduler of CPU c that switch -/
def Mem.schedStep (initproc : Fin n) (s : Mem n C) (c : C) : MAct n C → Option (Mem n C)
  | .pick _ =>
    match s.switch c, s.proc.top (.sched c) with
    | .ready, .scan i =>
      if h : i < n then
        if (s.proc.slot ⟨i, h⟩).state = .RUNNABLE then
          (s.pgdir ⟨i, h⟩).map fun d =>
            { s with cr3 := update s.cr3 c (some d), switch := update s.switch c (.picked ⟨i, h⟩) }
        else none
      else none
    | _, _ => none
  | .enter _ =>
    match s.switch c with
    | .picked p =>
      (step initproc s.proc (.move c)).bind fun t =>
        if t.cur c = some p then
          some { s with
            proc := t, rsp := update s.rsp c (s.kstack p), switch := update s.switch c .ready }
        else none
    | _ => none
  | .swtch _ =>
    match s.switch c with
    | .leaving p => some { s with rsp := update s.rsp c none, switch := update s.switch c (.back p) }
    | _ => none
  | .switchkvm _ =>
    match s.switch c with
    | .back _ => some { s with cr3 := update s.cr3 c none, switch := update s.switch c .ready }
    | _ => none
  | _ => none

def MAct.cpu : MAct n C → C
  | .run a => a.cpu
  | .pick c | .enter c | .leave c | .swtch c | .switchkvm c | .kalloc c _ | .nomem c | .copied c | .bad c | .unfork c
  | .commit c | .switchuvm c | .reap c | .freed c | .reset c => c

def Mem.step (initproc : Fin n) (s : Mem n C) (a : MAct n C) : Option (Mem n C) :=
  match a with
  | .run a =>
    if s.switch a.cpu = .ready ∧ s.plain a = true then
      (Proc.step initproc s.proc a).bind fun t =>
        if t.cur a.cpu = s.proc.cur a.cpu then some { s with proc := t } else none
    else none
  | a =>
    match s.proc.cur a.cpu with
    | some p =>
      if s.switch a.cpu = .ready then s.procStep initproc a.cpu p (s.proc.top (.proc p)) (s.work p) a else none
    | none => s.schedStep initproc a.cpu a

/-- after `userinit`: init has a stack and a page table, and every CPU is on its own stack with kpml4 -/
def Mem.Init (initproc : Fin n) (s : Mem n C) : Prop :=
  Proc.Init initproc s.proc ∧
    (∃ k d, k ≠ d ∧ s.kstack initproc = some k ∧ s.pgdir initproc = some d ∧ s.own initproc = some d ∧
      s.free k = false ∧ s.free d = false) ∧
    (∀ p, p ≠ initproc → s.kstack p = none ∧ s.pgdir p = none ∧ s.own p = none) ∧
    (∀ p, s.work p = .idle) ∧ (∀ c, s.rsp c = none) ∧ (∀ c, s.cr3 c = none) ∧ ∀ c, s.switch c = .ready

def Mem.machine (initproc : Fin n) (C : Type) [DecidableEq C] : Machine (Mem n C) (MAct n C) :=
  .ofStep (Mem.Init initproc) (Mem.step initproc)

/-! ## What a step does -/

/-- all that a step can do -/
inductive MStep (initproc : Fin n) (s : Mem n C) : MAct n C → Mem n C → Prop where
  | run {a : Act n C} {t : St n C} (hready : s.switch a.cpu = .ready) (hplain : s.plain a = true)
      (hstep : Step initproc s.proc a t) (hcur : t.cur a.cpu = s.proc.cur a.cpu) : MStep initproc s (.run a) { s with proc := t }
  | pick {c : C} {p : Fin n} {d : Page} (hcur : s.proc.cur c = none) (hready : s.switch c = .ready)
      (htop : s.proc.top (.sched c) = .scan p) (hstate : (s.proc.slot p).state = .RUNNABLE) (hd : s.pgdir p = some d) :
      MStep initproc s (.pick c)
        { s with cr3 := update s.cr3 c (some d), switch := update s.switch c (.picked p) }
  | enter {c : C} {p : Fin n} {t : St n C} (hcur : s.proc.cur c = none) (hswitch : s.switch c = .picked p)
      (hstep : Step initproc s.proc (.move c) t) (hnew : t.cur c = some p) :
      MStep initproc s (.enter c)
        { s with proc := t, rsp := update s.rsp c (s.kstack p), switch := update s.switch c .ready }
  | leave {c : C} {p : Fin n} {t : St n C} (hon : s.On c p) (hplain : s.plain (.move c) = true)
      (hstep : Step initproc s.proc (.move c) t) (hnew : t.cur c = none) :
      MStep initproc s (.leave c) { s with proc := t, switch := update s.switch c (.leaving p) }
  | swtch {c : C} {p : Fin n} (hcur : s.proc.cur c = none) (hswitch : s.switch c = .leaving p) :
      MStep initproc s (.swtch c)
        { s with rsp := update s.rsp c none, switch := update s.switch c (.back p) }
  | switchkvm {c : C} {p : Fin n} (hcur : s.proc.cur c = none) (hswitch : s.switch c = .back p) :
      MStep initproc s (.switchkvm c)
        { s with cr3 := update s.cr3 c none, switch := update s.switch c .ready }
  | kstack {c : C} {p np : Fin n} {d : Page} {t : St n C} (hon : s.On c p) (htop : s.proc.top (.proc p) = .kstack np)
      (hfree : s.free d = true) (hstep : Step initproc s.proc (.kalloc c true) t) :
      MStep initproc s (.kalloc c d)
        { s with proc := t, free := update s.free d false, kstack := update s.kstack np (some d) }
  /-- `setupkvm` in `copyuvm` or in `exec` -/
  | setupkvm {c : C} {p : Fin n} {d : Page} {w : Work n} (hon : s.On c p) (hfree : s.free d = true)
      (hwork : s.work p = .idle) (hw : w = .copy d ∨ w = .load d) :
      MStep initproc s (.kalloc c d)
        { s with free := update s.free d false, work := update s.work p w }
  | nostack {c : C} {p np : Fin n} {t : St n C} (hon : s.On c p) (htop : s.proc.top (.proc p) = .kstack np)
      (hstep : Step initproc s.proc (.kalloc c false) t) :
      MStep initproc s (.nomem c) { s with proc := t, kstack := update s.kstack np none }
  | notable {c : C} {p : Fin n} (hon : s.On c p) (hwork : s.work p = .idle) :
      MStep initproc s (.nomem c) { s with work := update s.work p .failed }
  | copied {c : C} {p np : Fin n} {d : Page} {t : St n C} (hon : s.On c p) (htop : s.proc.top (.proc p) = .copyuvm np)
      (hwork : s.work p = .copy d) (hstep : Step initproc s.proc (.kalloc c true) t) :
      MStep initproc s (.copied c)
        { s with
          proc := t, pgdir := update s.pgdir np (some d), own := update s.own np (some d)
          work := update s.work p .idle }
  | bad {c : C} {p : Fin n} {d : Page} {k : Caller n} (hon : s.On c p) (hwork : s.work p = .copy d ∨ s.work p = .load d)
      (hk : ∀ q, k ≠ .wait q) : MStep initproc s (.bad c) { s with work := update s.work p (.freevm d k) }
  | unfork {c : C} {p np : Fin n} {k : Page} {t : St n C} (hon : s.On c p) (htop : s.proc.top (.proc p) = .copyuvm np)
      (hwork : s.work p = .failed) (hk : s.kstack np = some k) (hstep : Step initproc s.proc (.kalloc c false) t) :
      MStep initproc s (.unfork c)
        { s with
          proc := t, free := update s.free k true, kstack := update s.kstack np none
          pgdir := update s.pgdir np none, work := update s.work p .idle }
  | commit {c : C} {p : Fin n} {d old : Page} (hon : s.On c p) (hwork : s.work p = .load d) (hold : s.pgdir p = some old) :
      MStep initproc s (.commit c)
        { s with
          pgdir := update s.pgdir p (some d), own := update s.own p (some d)
          work := update s.work p (.commit old) }
  | grow {c : C} {p : Fin n} {d : Page} (hon : s.On c p) (hd : s.pgdir p = some d) (hwork : s.work p = .idle) :
      MStep initproc s (.switchuvm c) { s with cr3 := update s.cr3 c (some d) }
  | switchuvm {c : C} {p : Fin n} {d old : Page} (hon : s.On c p) (hd : s.pgdir p = some d) (hwork : s.work p = .commit old) :
      MStep initproc s (.switchuvm c)
        { s with cr3 := update s.cr3 c (some d), work := update s.work p (.freevm old .exec) }
  | reap {c : C} {p q : Fin n} {k d : Page} (hon : s.On c p) (htop : s.proc.top (.proc p) = .scanKids)
      (hwork : s.work p = .idle) (hq : s.proc.zombie p = some q) (hk : s.kstack q = some k) (hd : s.pgdir q = some d) :
      MStep initproc s (.reap c)
        { s with
          free := update s.free k true, kstack := update s.kstack q none
          own := update s.own q none, work := update s.work p (.freevm d (.wait q)) }
  | freed {c : C} {p : Fin n} {d : Page} {k : Caller n} {w : Work n} (hon : s.On c p) (hwork : s.work p = .freevm d k)
      (hw : (∀ q, k ≠ .wait q) ∧ (w = .idle ∨ w = .failed) ∨ ∃ q, k = .wait q ∧ w = .emptied q) :
      MStep initproc s (.freed c)
        { s with free := update s.free d true, work := update s.work p w }
  | reset {c : C} {p q : Fin n} {t : St n C} (hon : s.On c p) (htop : s.proc.top (.proc p) = .scanKids)
      (hwork : s.work p = .emptied q) (hstep : Proc.step initproc s.proc (.move c) = some t) :
      MStep initproc s (.reset c) { s with proc := t, work := update s.work p .idle }

variable {initproc : Fin n} {s t : Mem n C} {c : C} {p : Fin n}

theorem procStep_cases {x : Pc n} {w : Work n} {a : MAct n C} (hon : s.On a.cpu p) (htop : s.proc.top (.proc p) = x)
    (hwork : s.work p = w) (h : s.procStep initproc a.cpu p x w a = some t) : MStep initproc s a t := by
  cases a with
  | leave c =>
    obtain ⟨u, hu, h⟩ := Option.bind_eq_some_iff.1 h
    split_ifs at h with hnew
    exact Option.some.inj h ▸ .leave hon hnew.1 (step_cases hu) hnew.2
  | kalloc c d =>
    simp only [Mem.procStep] at h
    split_ifs at h with hfree
    split at h
    · obtain ⟨u, hu, rfl⟩ := Option.map_eq_some_iff.1 h
      exact .kstack hon htop hfree (step_cases hu)
    · exact Option.some.inj h ▸ .setupkvm hon hfree hwork (.inl rfl)
    · exact Option.some.inj h ▸ .setupkvm hon hfree hwork (.inr rfl)
    · cases h
  | nomem c =>
    simp only [Mem.procStep] at h
    split at h
    · obtain ⟨u, hu, rfl⟩ := Option.map_eq_some_iff.1 h
      exact .nostack hon htop (step_cases hu)
    · exact Option.some.inj h ▸ .notable hon hwork
    · cases h
  | copied c =>
    simp only [Mem.procStep] at h
    split at h
    · obtain ⟨u, hu, rfl⟩ := Option.map_eq_some_iff.1 h
      exact .copied hon htop hwork (step_cases hu)
    · cases h
  | bad c =>
    simp only [Mem.procStep] at h
    split at h
    · exact Option.some.inj h ▸ .bad hon (.inl hwork) nofun
    · exact Option.some.inj h ▸ .bad hon (.inr hwork) nofun
    · cases h
  | unfork c =>
    simp only [Mem.procStep] at h
    split at h
    · obtain ⟨k, hk, h⟩ := Option.bind_eq_some_iff.1 h
      obtain ⟨u, hu, rfl⟩ := Option.map_eq_some_iff.1 h
      exact .unfork hon htop hwork hk (step_cases hu)
    · cases h
  | commit c =>
    simp only [Mem.procStep] at h
    split at h
    · obtain ⟨old, hold, rfl⟩ := Option.map_eq_some_iff.1 h
      exact .commit hon hwork hold
    · cases h
  | switchuvm c =>
    simp only [Mem.procStep] at h
    split at h
    · obtain ⟨d, hd, rfl⟩ := Option.map_eq_some_iff.1 h
      exact .grow hon hd hwork
    · obtain ⟨d, hd, rfl⟩ := Option.map_eq_some_iff.1 h
      exact .switchuvm hon hd hwork
    · cases h
  | reap c =>
    simp only [Mem.procStep] at h
    split at h
    · obtain ⟨q, hq, h⟩ := Option.bind_eq_some_iff.1 h
      obtain ⟨k, hk, h⟩ := Option.bind_eq_some_iff.1 h
      obtain ⟨d, hd, rfl⟩ := Option.map_eq_some_iff.1 h
      exact .reap hon htop hwork hq hk hd
    · cases h
  | freed c =>
    simp only [Mem.procStep] at h
    split at h
    · exact Option.some.inj h ▸ .freed hon hwork (.inl ⟨nofun, .inl rfl⟩)
    · exact Option.some.inj h ▸ .freed hon hwork (.inl ⟨nofun, .inr rfl⟩)
    · exact Option.some.inj h ▸ .freed hon hwork (.inr ⟨_, rfl, rfl⟩)
    · cases h
  | reset c =>
    simp only [Mem.procStep] at h
    split at h
    · obtain ⟨u, hu, rfl⟩ := Option.map_eq_some_iff.1 h
      exact .reset hon htop hwork hu
    · cases h
  | run | pick | enter | swtch | switchkvm => cases h

theorem schedStep_cases {a : MAct n C} (hcur : s.proc.cur a.cpu = none) (h : s.schedStep initproc a.cpu a = some t) :
    MStep initproc s a t := by
  cases a with
  | pick c =>
    simp only [Mem.schedStep] at h
    split at h
    · rename_i i hready htop
      split_ifs at h with hi hstate
      obtain ⟨d, hd, rfl⟩ := Option.map_eq_some_iff.1 h
      exact .pick (p := ⟨i, hi⟩) hcur hready htop hstate hd
    · cases h
  | enter c =>
    simp only [Mem.schedStep] at h
    split at h
    · rename_i p hswitch
      obtain ⟨u, hu, h⟩ := Option.bind_eq_some_iff.1 h
      split_ifs at h with hnew
      exact Option.some.inj h ▸ .enter hcur hswitch (step_cases hu) hnew
    · cases h
  | swtch c =>
    simp only [Mem.schedStep] at h
    split at h
    · rename_i p hswitch
      exact Option.some.inj h ▸ .swtch hcur hswitch
    · cases h
  | switchkvm c =>
    simp only [Mem.schedStep] at h
    split at h
    · rename_i p hswitch
      exact Option.some.inj h ▸ .switchkvm hcur hswitch
    · cases h
  | _ => cases h

theorem Mem.step_cases {a : MAct n C} (h : s.step initproc a = some t) : MStep initproc s a t := by
  unfold Mem.step at h
  split at h
  · split_ifs at h with hready
    obtain ⟨u, hu, h⟩ := Option.bind_eq_some_iff.1 h
    split_ifs at h with hcur
    exact Option.some.inj h ▸ .run hready.1 hready.2 (Proc.step_cases hu) hcur
  · split at h
    · rename_i p hcur
      split_ifs at h with hready
      exact procStep_cases ⟨hready, hcur⟩ rfl rfl h
    · rename_i hcur
      exact schedStep_cases hcur h

end

end Xv6.Proc
