/-
The process table (`proc.c`), over whole runs.

- `process_table`: in every reachable state with fewer than 2^31 - 1 creations of processes, pids are different, parents
  are alive, nobody asleep in `wait` has a ZOMBIE child, and a pid is returned by one `wait` only, to its parent;
- `running_once`: a process runs on one CPU at most, and one CPU at most is inside a critical section.
-/
import Xv6.Proc.Family
import Xv6.Proc.Pids

namespace Xv6.Proc

variable {n : ℕ} {C : Type} [DecidableEq C] {initproc : Fin n} {s u : St n C} {a : Act n C}

theorem Family.of_reach (h : (machine initproc C).Reach s) : Threads s ∧ Family initproc s :=
  h.invariant (I := fun s => Threads s ∧ Family initproc s) (fun _ h0 => ⟨Threads.init h0, Family.of_init h0⟩)
    fun _ _ _ hs hstep => ⟨hs.1.step (step_cases hstep), hs.2.step hs.1 (step_cases hstep)⟩

theorem Pids.of_reach (h : (machine initproc C).Reach s) (hsmall : s.created < 2 ^ 31 - 1) : Pids s := by
  induction h with
  | init h0 => exact Pids.init h0
  | step a hreach hnext ih =>
    have hstep := step_cases hnext
    refine (ih ?_).step (Threads.of_reach hreach) hstep hsmall
    rcases hstep.counters with ⟨-, -, hc⟩ | ⟨-, -, hc⟩ <;> omega

/-- **Process table.** In every run in which init does not exit and fewer than 2^31 - 1 slots are taken: processes in
use have different pids; every process but init that has been started has a parent in use that is not ZOMBIE; a process
asleep in `wait` has no ZOMBIE child; no pid is returned twice, and `wait` returns the pid of a child of its caller. -/
theorem process_table (h : (machine initproc C).Reach s) (hsmall : s.created < 2 ^ 31 - 1) :
    (∀ p q, (s.slot p).state ≠ .UNUSED → (s.slot q).state ≠ .UNUSED → p ≠ q → (s.slot p).pid ≠ (s.slot q).pid) ∧
    (∀ p, p ≠ initproc → (s.slot p).state ≠ .UNUSED → (s.slot p).state ≠ .EMBRYO →
      ∃ q, (s.slot p).parent = some q ∧ (s.slot q).state ≠ .UNUSED ∧ (s.slot q).state ≠ .ZOMBIE) ∧
    (∀ p q, (s.slot p).state = .SLEEPING → s.top (.proc p) = .waitAsleep → (s.slot q).parent = some p →
      (s.slot q).state ≠ .ZOMBIE) ∧
    (s.reaped.map Prod.fst).Nodup ∧
    ∀ a u, step initproc s a = some u → u.reaped = s.reaped ∨
      ∃ p q, u.reaped = s.reaped ++ [((s.slot q).pid, p)] ∧ s.cur a.cpu = some p ∧ s.top (.proc p) = .scanKids ∧
        (s.slot q).parent = some p ∧ (s.slot q).state = .ZOMBIE := by
  have hfamily := (Family.of_reach h).2
  have hpids := Pids.of_reach h hsmall
  refine ⟨fun p q hp hq hne heq => hne (hpids.distinct p q hp hq heq), fun p hinit hu he => ?_,
    fun p q hsleep htop hq => hfamily.wait p q ⟨hsleep, htop⟩ hq, hpids.once, fun a u hstep => ?_⟩
  · obtain ⟨q, hq⟩ := Option.ne_none_iff_exists'.1 (hfamily.parent p hinit hu he)
    obtain ⟨⟨halive, -, hzombie⟩, -⟩ := hfamily.alive p q hq
    exact ⟨q, hq, halive, hzombie⟩
  · rcases (step_cases hstep).reaped with hsame | ⟨p, q, heq, hcur, htop, hq, hzombie, -⟩
    · exact .inl hsame
    · exact .inr ⟨p, q, heq, hcur, htop, hq, hzombie⟩

/-- **One CPU for a process.** A process is RUNNING exactly while one CPU runs it. The holder of ptable.lock is the CPU whose
thread is inside a critical section, also when the lock was taken before a switch, and there is at most one. -/
theorem running_once (h : (machine initproc C).Reach s) :
    (∀ p, (s.slot p).state = .RUNNING ↔ ∃! c, s.cur c = some p) ∧
    (∀ c, s.holder .ptable = some c ↔ (s.top (s.thread c)).crit = true) ∧
    ∀ c c', (s.top (s.thread c)).crit = true → (s.top (s.thread c')).crit = true → c = c' := by
  have ht := Threads.of_reach h
  refine ⟨fun p => (ht.sched.running p).trans ⟨?_, ExistsUnique.exists⟩, ht.locks.lock, fun c c' => ht.alone⟩
  rintro ⟨c, hc⟩
  exact ⟨c, hc, fun c' hc' => ht.sched.uniq c' c p hc' hc⟩

/-- init forks on CPU c and waits; the child, in slot np, runs on CPU d and exits -/
def childRun {n : ℕ} {C : Type} (c d : C) (np : Fin n) : List (Act n C) :=
  [.move c, .move c, .move c, .call c .fork, .move c, .take c np, .move c, .kalloc c true, .kalloc c true, .move c, .move c,
    .move d, .move d, .move d, .move d, .call c .wait, .move c, .move c, .move c, .move c, .move c, .move c, .call d .exit,
    .move d, .move d, .move d, .move d, .move d]

theorem childRun_zombie : ((childRun 0 1 1).foldlM (step 0) (booted (n := 2) (Fin 2) 0)).map
    (fun s => ((s.slot 1).state, (s.slot 0).state, s.created)) = some (.ZOMBIE, .RUNNABLE, 2) := by decide +kernel

theorem process_table_child : ∃ s : St 2 (Fin 2), (machine 0 (Fin 2)).Reach s ∧ s.created < 2 ^ 31 - 1 ∧
    (s.slot 1).state = .ZOMBIE ∧
    ∃ q, (s.slot 1).parent = some q ∧ (s.slot q).state ≠ .UNUSED ∧ (s.slot q).state ≠ .ZOMBIE := by
  obtain ⟨s, hrun, heq⟩ := Option.map_eq_some_iff.1 childRun_zombie
  have hreach : (machine 0 (Fin 2)).Reach s := Machine.Reach.foldlM _ (.init booted_init) hrun
  have hzombie : (s.slot 1).state = .ZOMBIE := congrArg Prod.fst heq
  have hcreated : s.created = 2 := congrArg (fun x => x.2.2) heq
  have hsmall : s.created < 2 ^ 31 - 1 := by omega
  refine ⟨s, hreach, hsmall, hzombie, (process_table hreach hsmall).2.1 1 (by decide) ?_ ?_⟩ <;> rw [hzombie] <;>
    exact ProcState.noConfusion

theorem running_once_child : ∃ s : St 2 (Fin 2), (s.slot 0).state = .RUNNING ∧ (s.slot 1).state = .RUNNING ∧
    (∃! c, s.cur c = some 0) ∧ ∃! c, s.cur c = some 1 := by
  have hrun : (((childRun 0 1 1).take 15).foldlM (step 0) (booted (n := 2) (Fin 2) 0)).map
      (fun s => ((s.slot 0).state, (s.slot 1).state)) = some (.RUNNING, .RUNNING) := by decide +kernel
  obtain ⟨s, hs, hstate⟩ := Option.map_eq_some_iff.1 hrun
  obtain ⟨hparent, hchild⟩ := Prod.mk.inj hstate
  have honce := (running_once (Machine.Reach.foldlM _ (.init booted_init) hs)).1
  exact ⟨s, hparent, hchild, (honce 0).1 hparent, (honce 1).1 hchild⟩

end Xv6.Proc
