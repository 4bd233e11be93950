/-
The scheduler of one CPU and its `hlt` (`scheduler` of `proc.c`, with `pushcli` and `popcli`).

A step is a piece of the loop between two places where something from outside can come in: the state of the table entry
that the scan looks at, the CPU as the process leaves it that was switched to, an interrupt. A process comes back through
the checks of `sched`, with any intena. An interrupt is delivered while IF is set; its handlers use `pushcli` and `popcli`
in pairs, and can leave any intena. A check that fails, and would panic, has no step.

`seen` is history: the states that the scan has found so far, so that its length is the index of the next entry.

`pushcli`, `popcli`, `acquire`, `release` and `switchuvm` are here functions of the CPU. Where the instructions of
`Xv6.Spin` are executed without an interrupt, they do the same to it (`pushcli_leaves` and those after it).

A pass that has switched to a process skips fewer than NPROC entries after it, and a pass that has not leaves the intena
that `acquire` has stored with interrupts on. So `skipped > NPROC` holds only after a pass of the second kind.
- `halts_awake`: at every `hlt` of every run, IF is set, ncli is 0, and the scan before it has found no RUNNABLE process.
-/
import Xv6.Param
import Xv6.Spin.Model

namespace Xv6.Halt

open Xv6.Proc (ProcState)

/-! ## The model -/

structure Cpu where
  /-- the interrupt flag -/
  IF : Bool
  ncli : ℤ
  intena : Bool
  /-- holding(&ptable.lock) -/
  holding : Bool
deriving DecidableEq, Repr

def pushcli (c : Cpu) : Cpu :=
  { c with IF := false, intena := if c.ncli = 0 then c.IF else c.intena, ncli := c.ncli + 1 }

def popcli (c : Cpu) : Option Cpu :=
  if c.IF then none
  else if c.ncli - 1 < 0 then none
  else if c.ncli - 1 = 0 ∧ c.intena then some { c with ncli := c.ncli - 1, IF := true }
  else some { c with ncli := c.ncli - 1 }

/-- acquire(&ptable.lock), when it gets the lock -/
def acquire (c : Cpu) : Option Cpu :=
  if (pushcli c).holding then none else some { pushcli c with holding := true }

/-- release(&ptable.lock) -/
def release (c : Cpu) : Option Cpu := if c.holding then popcli { c with holding := false } else none

def switchuvm (c : Cpu) : Option Cpu := popcli (pushcli c)

/-- where the loop is -/
inductive Pc where
  /-- before `sti` -/
  | top
  /-- before `acquire` -/
  | enabled
  /-- before the next entry of the table -/
  | scan
  /-- in the process of the last entry seen -/
  | away
  /-- before `hlt` -/
  | hlt
deriving DecidableEq, Repr

structure St where
  pc : Pc
  cpu : Cpu
  skipped : ℕ
  seen : List ProcState
deriving DecidableEq, Repr

inductive Ev where
  | sti
  | acquire
  /-- the scan finds an entry in the state st -/
  | look (st : ProcState)
  /-- the process gives up the CPU as it is in c -/
  | back (c : Cpu)
  | release
  | hlt
  /-- an interrupt, whose handlers leave this intena -/
  | interrupt (intena : Bool)
deriving DecidableEq, Repr

/-- the checks of `sched` on the CPU -/
def schedOk (c : Cpu) : Bool := c.holding && c.ncli = 1 && !c.IF

def step (s : St) : Ev → Option St
  | .sti => if s.pc = .top then some { s with pc := .enabled, cpu.IF := true } else none
  | .acquire =>
    if s.pc = .enabled then (acquire s.cpu).map fun c => { s with pc := .scan, cpu := c, seen := [] } else none
  | .look st =>
    if s.pc = .scan ∧ s.seen.length < NPROC then
      if st ≠ .RUNNABLE then some { s with skipped := s.skipped + 1, seen := s.seen ++ [st] }
      else (switchuvm s.cpu).map fun c => { pc := .away, cpu := c, skipped := 0, seen := s.seen ++ [st] }
    else none
  | .back c => if s.pc = .away ∧ schedOk c then some { s with pc := .scan, cpu := c } else none
  | .release =>
    if s.pc = .scan ∧ s.seen.length = NPROC then
      (release s.cpu).map fun c => { s with pc := if s.skipped > NPROC then .hlt else .top, cpu := c }
    else none
  | .hlt => if s.pc = .hlt then some { s with pc := .top, skipped := 0 } else none
  | .interrupt intena => if s.pc ≠ .away ∧ s.cpu.IF then some { s with cpu.intena := intena } else none

/-- a CPU starts the loop with no lock held -/
def Init (s : St) : Prop := s.pc = .top ∧ s.cpu.ncli = 0 ∧ s.cpu.holding = false ∧ s.skipped = 0

def machine : Machine St Ev := .ofStep Init step

/-! ## The instructions of these functions -/

section

variable {n : ℕ} {C : Type} [DecidableEq C] {s u : Spin.St n C} {c : C} {i : Spin.Instr n} {τ f g : List (Spin.Instr n)}

/-- CPU c as these functions see it -/
def view (s : Spin.St n C) (c : C) : Cpu := ⟨s.IF c, s.ncli c, s.intena c, decide (s.Holding c .ptable)⟩

/-- CPU c executes the instructions f, which come next, without an interrupt -/
def runs (c : C) (f : List (Spin.Instr n)) (s : Spin.St n C) : Option (Spin.St n C) :=
  f.foldlM (fun s _ => Spin.step s (.exec c)) s

/-- the thread on c goes on with τ and the CPU is as v says, or both have stopped -/
def Leaves (c : C) (τ : List (Spin.Instr n)) : Option (Spin.St n C) → Option Cpu → Prop :=
  Option.Rel fun t v => view t c = v ∧ t.todo (t.thread c) = τ

theorem runs_cons (h : s.todo (s.thread c) = i :: τ) :
    runs c (i :: f) s = (Spin.exec s c (s.thread c) τ i).bind (runs c f) := by
  simp only [runs, List.foldlM_cons, Spin.step, h]
  rfl

theorem runs_append : runs c (f ++ g) s = (runs c f s).bind (runs c g) := List.foldlM_append ..

theorem Leaves.bind {r : Option (Spin.St n C)} {v : Option Cpu} {F : Cpu → Option Cpu} (h : Leaves c f r v)
    (hF : ∀ t, t.todo (t.thread c) = f → Leaves c τ (runs c g t) (F (view t c))) :
    Leaves c τ (r.bind (runs c g)) (v.bind F) := by
  cases h with
  | none => exact .none
  | some h =>
    rw [← h.1]
    exact hF _ h.2

theorem pushcli_leaves (h : s.todo (s.thread c) = Spin.pushcli ++ τ) :
    Leaves c τ (runs c Spin.pushcli s) (some (pushcli (view s c))) := by
  rw [Spin.pushcli, runs_cons h]
  by_cases hncli : s.ncli c = 0 <;>
    simp [Leaves, runs, Spin.step, Spin.exec, Spin.St.todo, Spin.St.thread, Spin.St.goto, pushcli, view, Spin.St.Holding,
      hncli]

theorem popcli_leaves (h : s.todo (s.thread c) = Spin.popcli ++ τ) :
    Leaves c τ (runs c Spin.popcli s) (popcli (view s c)) := by
  rw [Spin.popcli, runs_cons h]
  cases hIF : s.IF c with
  | true => simp [Leaves, Spin.exec, popcli, view, hIF]
  | false =>
    by_cases hncli : s.ncli c < 1
    · simp [Leaves, runs, Spin.step, Spin.exec, Spin.St.todo, Spin.St.thread, Spin.St.goto, popcli, view, hIF, hncli]
    by_cases hzero : s.ncli c - 1 = 0 <;> cases hintena : s.intena c <;>
      simp [Leaves, runs, Spin.step, Spin.exec, Spin.St.todo, Spin.St.thread, Spin.St.goto, popcli, view, Spin.St.Holding,
        hIF, hncli, hzero, hintena]

/-- no other CPU has the lock -/
theorem acquire_leaves (h : s.todo (s.thread c) = Spin.acquire .ptable ++ τ)
    (hfree : s.locked .ptable = none ∨ s.Holding c .ptable) :
    Leaves c τ (runs c (Spin.acquire .ptable) s) (acquire (view s c)) := by
  rw [Spin.acquire, Spin.pushcli, List.cons_append, runs_cons h]
  rcases hfree with hfree | ⟨hlocked, hcpu⟩
  · by_cases hncli : s.ncli c = 0 <;>
      simp [Leaves, runs, Spin.step, Spin.exec, Spin.St.todo, Spin.St.thread, Spin.St.goto, acquire, pushcli, view,
        Spin.St.Holding, hfree, hncli]
  · simp [Leaves, runs, Spin.step, Spin.exec, Spin.St.todo, Spin.St.thread, Spin.St.goto, acquire, pushcli, view,
      Spin.St.Holding, hlocked, hcpu]

theorem release_leaves (h : s.todo (s.thread c) = Spin.release .ptable ++ τ) :
    Leaves c τ (runs c (Spin.release .ptable) s) (release (view s c)) := by
  rw [Spin.release, List.append_assoc] at h
  rw [Spin.release, runs_append]
  have hdrop : Leaves c (Spin.popcli ++ τ) (runs c [.holding .ptable, .clearCpu .ptable, .unlock .ptable] s)
      (if (view s c).holding then some { view s c with holding := false } else none) := by
    rw [runs_cons h]
    by_cases hold : s.Holding c .ptable
    · simp [Leaves, runs, Spin.step, Spin.exec, Spin.St.todo, Spin.St.thread, Spin.St.goto, view, hold]
      simp [Spin.St.Holding]
    · simp [Leaves, Spin.exec, view, hold]
  have heq : release (view s c) =
      (if (view s c).holding then some { view s c with holding := false } else none).bind popcli := by
    rw [release]
    split_ifs <;> rfl
  rw [heq]
  exact hdrop.bind fun t ht => popcli_leaves ht

theorem switchuvm_leaves (h : s.todo (s.thread c) = Spin.switchuvm ++ τ) :
    Leaves c τ (runs c Spin.switchuvm s) (switchuvm (view s c)) := by
  rw [Spin.switchuvm, List.append_assoc] at h
  rw [Spin.switchuvm, runs_append]
  exact (pushcli_leaves h).bind fun t ht => popcli_leaves ht

/-- a process that has come through the checks of `sched` leaves a CPU that `schedOk` accepts -/
theorem schedOk_of_schedCheck (h : Spin.exec s c (s.thread c) τ .schedCheck = some u) : schedOk (view u c) = true := by
  simp only [Spin.exec] at h
  split at h
  · split_ifs at h with hok
    cases h
    simp [schedOk, view, hok.2.1, hok.2.2.2]
    exact hok.1
  · cases h

end

/-! ## What holds at each place -/

/-- outside the lock -/
structure Outside (c : Cpu) : Prop where
  ncli : c.ncli = 0
  holding : c.holding = false

/-- while the lock is held -/
structure Inside (c : Cpu) : Prop where
  ncli : c.ncli = 1
  holding : c.holding = true
  disabled : c.IF = false

/-- what the scan has left so far in intena and in skipped -/
structure Scanned (s : St) : Prop where
  length : s.seen.length ≤ NPROC
  idle : .RUNNABLE ∉ s.seen → s.cpu.intena = true ∧ s.skipped ≤ NPROC + s.seen.length
  busy : .RUNNABLE ∈ s.seen → s.skipped < s.seen.length

/-- a scan of the whole table that has found nothing to run -/
structure Idle (s : St) : Prop where
  length : s.seen.length = NPROC
  none : ∀ st ∈ s.seen, st ≠ .RUNNABLE

def Inv (s : St) : Prop :=
  match s.pc with
  | .top => Outside s.cpu ∧ s.skipped ≤ NPROC
  | .enabled => Outside s.cpu ∧ s.skipped ≤ NPROC ∧ s.cpu.IF = true
  | .scan => Inside s.cpu ∧ Scanned s
  | .away => s.seen.length ≤ NPROC ∧ .RUNNABLE ∈ s.seen ∧ s.skipped = 0
  | .hlt => Outside s.cpu ∧ s.cpu.IF = true ∧ Idle s

/-! ## One step -/

theorem Outside.acquire {c c' : Cpu} (h : Outside c) (hIF : c.IF = true) (hc : Halt.acquire c = some c') :
    Inside c' ∧ c'.intena = true := by
  rw [Halt.acquire, if_neg (by simp [pushcli, h.holding])] at hc
  cases hc
  refine ⟨⟨?_, rfl, rfl⟩, ?_⟩
  · exact congrArg (· + 1) h.ncli
  · simp [pushcli, h.ncli, hIF]

/-- the last `popcli` restores interrupts if intena is set -/
theorem Inside.release {c c' : Cpu} (h : Inside c) (hc : Halt.release c = some c') : Outside c' ∧ c'.IF = c.intena := by
  obtain ⟨hncli, hholding, hIF⟩ := h
  rw [Halt.release, if_pos hholding] at hc
  cases hintena : c.intena with
  | true | false =>
    simp [popcli, hncli, hIF, hintena] at hc
    subst hc
    exact ⟨⟨rfl, rfl⟩, rfl⟩

theorem Scanned.look {s : St} {st : ProcState} (h : Scanned s) (hlt : s.seen.length < NPROC) (hst : st ≠ .RUNNABLE) :
    Scanned { s with skipped := s.skipped + 1, seen := s.seen ++ [st] } := by
  have hmem : .RUNNABLE ∈ s.seen ++ [st] ↔ .RUNNABLE ∈ s.seen := by simp [Ne.symm hst]
  refine ⟨by simpa using hlt, fun hno => ?_, fun hyes => ?_⟩
  · obtain ⟨hintena, hskipped⟩ := h.idle (mt hmem.2 hno)
    refine ⟨hintena, ?_⟩
    rw [List.length_append, ← Nat.add_assoc]
    exact Nat.succ_le_succ hskipped
  · simpa using Nat.succ_lt_succ (h.busy (hmem.1 hyes))

/-- a whole scan that skips more than NPROC entries has found nothing, and has left intena alone -/
theorem Scanned.idle_of_skipped {s : St} (h : Scanned s) (hlen : s.seen.length = NPROC) (hskipped : s.skipped > NPROC) :
    Idle s ∧ s.cpu.intena = true := by
  have hno : .RUNNABLE ∉ s.seen := fun hyes => by
    have := h.busy hyes
    omega
  exact ⟨⟨hlen, fun st hst heq => hno (heq ▸ hst)⟩, (h.idle hno).1⟩

theorem Inv.step {s t : St} {e : Ev} (h : Inv s) (hstep : Halt.step s e = some t) : Inv t := by
  obtain ⟨pc, c, skipped, seen⟩ := s
  cases e with
  | sti =>
    obtain ⟨hpc, rfl⟩ : pc = .top ∧ _ := by simpa [Halt.step] using hstep
    subst hpc
    exact ⟨⟨h.1.ncli, h.1.holding⟩, h.2, rfl⟩
  | acquire =>
    simp only [Halt.step] at hstep
    split_ifs at hstep with hpc
    obtain rfl : pc = .enabled := hpc
    obtain ⟨c', hc', rfl⟩ := Option.map_eq_some_iff.1 hstep
    obtain ⟨hin, hintena⟩ := h.1.acquire h.2.2 hc'
    exact ⟨hin, Nat.zero_le _, fun _ => ⟨hintena, h.2.1⟩, fun hmem => absurd hmem List.not_mem_nil⟩
  | look st =>
    simp only [Halt.step] at hstep
    split_ifs at hstep with hpc hst
    · obtain rfl : pc = .scan := hpc.1
      cases hstep
      exact ⟨h.1, h.2.look hpc.2 hst⟩
    · obtain rfl : st = .RUNNABLE := not_not.1 hst
      obtain ⟨c', -, rfl⟩ := Option.map_eq_some_iff.1 hstep
      refine ⟨?_, by simp, rfl⟩
      simpa using hpc.2
  | back c' =>
    simp only [Halt.step] at hstep
    split_ifs at hstep with hpc
    obtain rfl : pc = .away := hpc.1
    cases hstep
    obtain ⟨hlen, hmem, hskipped⟩ := h
    have hok : (c'.holding = true ∧ c'.ncli = 1) ∧ c'.IF = false := by simpa [schedOk] using hpc.2
    refine ⟨⟨hok.1.2, hok.1.1, hok.2⟩, hlen, fun hno => absurd hmem hno, fun _ => ?_⟩
    exact hskipped.symm ▸ List.length_pos_of_mem hmem
  | release =>
    simp only [Halt.step] at hstep
    split_ifs at hstep with hpc hskipped
    · obtain rfl : pc = .scan := hpc.1
      obtain ⟨c', hc', rfl⟩ := Option.map_eq_some_iff.1 hstep
      obtain ⟨hout, hIF⟩ := h.1.release hc'
      obtain ⟨hidle, hintena⟩ := h.2.idle_of_skipped hpc.2 hskipped
      exact ⟨hout, hIF.trans hintena, hidle.length, hidle.none⟩
    · obtain rfl : pc = .scan := hpc.1
      obtain ⟨c', hc', rfl⟩ := Option.map_eq_some_iff.1 hstep
      exact ⟨(h.1.release hc').1, not_lt.1 hskipped⟩
  | hlt =>
    obtain ⟨hpc, rfl⟩ : pc = .hlt ∧ _ := by simpa [Halt.step] using hstep
    subst hpc
    exact ⟨h.1, Nat.zero_le _⟩
  | interrupt intena =>
    simp only [Halt.step] at hstep
    split_ifs at hstep with hpc
    cases hstep
    obtain ⟨haway, hIF⟩ : pc ≠ .away ∧ c.IF = true := hpc
    cases pc with
    | top | enabled => exact ⟨⟨h.1.ncli, h.1.holding⟩, h.2⟩
    | scan => exact absurd (hIF.symm.trans h.1.disabled) Bool.noConfusion
    | away => exact absurd rfl haway
    | hlt => exact ⟨⟨h.1.ncli, h.1.holding⟩, h.2.1, h.2.2.length, h.2.2.none⟩

/-! ## Every run -/

/-- **The scheduler never halts a CPU deaf.** -/
theorem halts_awake {s : St} (h : machine.Reach s) (hpc : s.pc = .hlt) :
    s.cpu.IF = true ∧ s.cpu.ncli = 0 ∧ s.seen.length = NPROC ∧ ∀ st ∈ s.seen, st ≠ .RUNNABLE := by
  have hinv : Inv s := by
    refine h.invariant (fun s h0 => ?_) fun s e t hs hnext => hs.step hnext
    obtain ⟨hpc, hncli, hholding, hskipped⟩ := h0
    simp only [Inv, hpc]
    exact ⟨⟨hncli, hholding⟩, hskipped ▸ Nat.zero_le _⟩
  simp only [Inv, hpc] at hinv
  obtain ⟨hout, hIF, hidle⟩ := hinv
  exact ⟨hIF, hout.ncli, hidle.length, hidle.none⟩

/-- a pass over a table with one process, which leaves intena clear, and two over a table with none -/
def quiet : List Ev :=
  [.sti, .acquire, .look .RUNNABLE, .back ⟨false, 1, false, true⟩] ++ List.replicate 63 (.look .SLEEPING) ++
  [.release, .sti, .acquire] ++ List.replicate 64 (.look .SLEEPING) ++ [.release]

/-- the scheduler halts after them -/
theorem halts_awake_quiet : ∃ s, machine.Reach s ∧ s.pc = .hlt ∧
    s.cpu.IF = true ∧ s.cpu.ncli = 0 ∧ s.seen.length = NPROC ∧ ∀ st ∈ s.seen, st ≠ .RUNNABLE := by
  have hinit : machine.Reach ⟨.top, ⟨false, 0, false, false⟩, 0, []⟩ := .init ⟨rfl, rfl, rfl, rfl⟩
  obtain ⟨s, hs, hpc⟩ : ∃ s, quiet.foldlM step ⟨.top, ⟨false, 0, false, false⟩, 0, []⟩ = some s ∧ s.pc = .hlt :=
    ⟨⟨.hlt, ⟨true, 0, true, false⟩, 127, List.replicate 64 .SLEEPING⟩, by decide +kernel, rfl⟩
  have hreach := hinit.foldlM quiet hs
  exact ⟨s, hreach, hpc, halts_awake hreach hpc⟩

end Xv6.Halt
