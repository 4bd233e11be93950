/-
Parents and children (`fork`, `exit`, `wait`).

Every process but init has a parent that is alive, also while `exit` passes its children to init and while `fork`,
without `ptable.lock`, stores the parent and the state of a new process; and a process asleep in `wait` has no ZOMBIE
child, because `exit` wakes the parent in the critical section in which it becomes ZOMBIE.
- `Family.step`: every step keeps this.
-/
import Xv6.Proc.Sleep

namespace Xv6.Proc

variable {n : ℕ} {C : Type} {initproc : Fin n} {s u : St n C} {a : Act n C} {c c' : C} {p q : Fin n} {t : Thread n C}
  {x y : Pc n}

/-- has been started and is not dead -/
def Slot.Alive (x : Slot n) : Prop := x.state ≠ .UNUSED ∧ x.state ≠ .EMBRYO ∧ x.state ≠ .ZOMBIE

/-- asleep in `wait` -/
def InWait (s : St n C) (p : Fin n) : Prop := (s.slot p).state = .SLEEPING ∧ s.top (.proc p) = .waitAsleep

/-- inside `exit` -/
def Pc.exits : Pc n → Bool
  | .exit | .exit1 | .pass _ => true
  | _ => false

structure Family (initproc : Fin n) (s : St n C) : Prop where
  init : (s.slot initproc).Alive ∧ (s.slot initproc).parent = none
  unused : ∀ p, (s.slot p).state = .UNUSED → (s.slot p).parent = none
  embryo : ∀ p q, (s.slot p).state = .EMBRYO → (s.slot p).parent = some q → s.pc (.proc q) = .start p
  parent : ∀ p, p ≠ initproc → (s.slot p).state ≠ .UNUSED → (s.slot p).state ≠ .EMBRYO → (s.slot p).parent ≠ none
  alive : ∀ p q, (s.slot p).parent = some q → (s.slot q).Alive ∧ p ≠ q
  starting : ∀ p np, s.pc (.proc p) = .start np → (s.slot np).parent = some p
  exits : ∀ p, (s.pc (.proc p)).exits = true → p ≠ initproc
  /-- `exit` has passed the slots before i -/
  passed : ∀ p i, s.pc (.proc p) = .pass i → ∀ q : Fin n, q < i → (s.slot q).parent ≠ some p
  /-- `exit` has woken the parent -/
  woken : ∀ p i q, s.pc (.proc p) = .pass i → (s.slot p).parent = some q → ¬ InWait s q
  wait : ∀ p q, InWait s p → (s.slot q).parent = some p → (s.slot q).state ≠ .ZOMBIE

/-! ## What a step changes -/

section

variable [DecidableEq C]

/-- a new parent is the process that forks, or init -/
theorem Step.parent (hstep : Step initproc s a u) (hparent : (u.slot p).parent = some q) :
    (s.slot p).parent = some q ∨ a = .move a.cpu ∧
      (s.cur a.cpu = some q ∧ s.top (.proc q) = .adopt p ∨
        q = initproc ∧ ∃ q', s.cur a.cpu = some q' ∧ s.top (.proc q') = .pass p ∧ (s.slot p).parent = some q') := by
  generalize hy : u.slot p = y at hparent
  have hedit := hstep.edit p
  rw [hy] at hedit
  cases hedit with
  | adopt ha hcur htop =>
    cases hparent
    exact .inr ⟨ha, .inl ⟨hcur, htop⟩⟩
  | pass ha hcur htop hold =>
    cases hparent
    exact .inr ⟨ha, .inr ⟨rfl, _, hcur, htop, hold⟩⟩
  | reap => cases hparent
  | wake => exact .inl ((Slot.wake_parent ..).symm.trans hparent)
  | _ => exact .inl hparent

/-- a parent is lost to `fork`, to init or with the slot -/
theorem Step.parent_kept (hstep : Step initproc s a u) (hparent : (s.slot p).parent = some q) :
    (u.slot p).parent = some q ∨ (∃ q', s.cur a.cpu = some q' ∧ s.top (.proc q') = .adopt p) ∨
      (s.cur a.cpu = some q ∧ s.top (.proc q) = .pass p ∧ (u.slot p).parent = some initproc) ∨
      (s.slot p).state = .ZOMBIE ∧ (u.slot p).state = .UNUSED := by
  generalize hy : u.slot p = y
  have hedit := hstep.edit p
  rw [hy] at hedit
  cases hedit with
  | adopt _ hcur htop => exact .inr (.inl ⟨_, hcur, htop⟩)
  | pass _ hcur htop hold =>
    cases hold.symm.trans hparent
    exact .inr (.inr (.inl ⟨hcur, htop, rfl⟩))
  | reap _ _ _ hstate => exact .inr (.inr (.inr ⟨hstate, rfl⟩))
  | wake => exact .inl ((Slot.wake_parent ..).trans hparent)
  | _ => exact .inl hparent

/-- a process dies at the end of `exit` -/
theorem Step.alive (h : Threads s) (hstep : Step initproc s a u) (halive : (s.slot p).Alive) :
    (u.slot p).Alive ∨ s.cur a.cpu = some p ∧ ∃ i, n ≤ i ∧ s.top (.proc p) = .pass i := by
  obtain ⟨hunused, hembryo, hzombie⟩ := halive
  have hforks : ∀ {t x}, s.top t = x → x.forks ≠ some p := fun htop hx =>
    hembryo (h.sched.embryo _ p (h.sched.pc_of_forks (htop ▸ hx)))
  generalize hy : u.slot p = y
  have hedit := hstep.edit p
  rw [hy] at hedit
  cases hedit with
  | same | adopt | pass | tidy | fault => exact .inl ⟨hunused, hembryo, hzombie⟩
  | sleep | wait | start | giveUp | run =>
    exact .inl ⟨ProcState.noConfusion, ProcState.noConfusion, ProcState.noConfusion⟩
  | wake =>
    exact .inl ⟨(Slot.wake_state _ _ rfl).not.2 hunused, (Slot.wake_state _ _ rfl).not.2 hembryo,
      (Slot.wake_state _ _ rfl).not.2 hzombie⟩
  | kill =>
    exact .inl ⟨(Slot.kill_state _ rfl).not.2 hunused, (Slot.kill_state _ rfl).not.2 hembryo,
      (Slot.kill_state _ rfl).not.2 hzombie⟩
  | zombie hcur htop hi => exact .inr ⟨hcur, _, hi, htop⟩
  | embryo _ _ _ hstate => exact (hunused hstate).elim
  | abort hcur htop => rcases htop with htop | htop <;> exact (hforks htop rfl).elim
  | reap _ _ _ hstate => exact (hzombie hstate).elim

/-- how a slot gets to a state that is not one of waiting for a CPU or a wakeup -/
theorem Step.state {st : ProcState} (hstep : Step initproc s a u) (hu : (u.slot p).state = st) (hst : st.lasts = true)
    (hrun : st ≠ .RUNNING) : (s.slot p).state = st ∨
      st = .UNUSED ∧ ((u.slot p).parent = none ∨
        ∃ q, s.cur a.cpu = some q ∧ (s.top (.proc q) = .kstack p ∨ s.top (.proc q) = .copyuvm p)) ∨
      st = .EMBRYO ∧ (s.slot p).state = .UNUSED ∧ (u.slot p).parent = (s.slot p).parent ∨
      st = .ZOMBIE ∧ s.cur a.cpu = some p ∧ ∃ i, s.top (.proc p) = .pass i := by
  generalize hy : u.slot p = y at hu
  have hedit := hstep.edit p
  rw [hy] at hedit
  cases hedit with
  | same | adopt | pass | tidy | fault => exact .inl hu
  | wake => exact .inl ((Slot.wake_state _ _ hst).1 hu)
  | kill => exact .inl ((Slot.kill_state _ hst).1 hu)
  | abort hcur htop => exact .inr (.inl ⟨hu.symm, .inr ⟨_, hcur, htop⟩⟩)
  | reap => exact .inr (.inl ⟨hu.symm, .inl rfl⟩)
  | embryo _ _ _ hunused => exact .inr (.inr (.inl ⟨hu.symm, hunused, rfl⟩))
  | zombie hcur htop => exact .inr (.inr (.inr ⟨hu.symm, hcur, _, htop⟩))
  | sleep | wait | start | giveUp => cases hu; cases hst
  | run => exact (hrun hu.symm).elim

/-- a slot becomes UNUSED when `fork` fails or when it is freed -/
theorem Step.unused (hstep : Step initproc s a u) (hu : (u.slot p).state = .UNUSED) :
    (s.slot p).state = .UNUSED ∨ (u.slot p).parent = none ∨
      ∃ q, s.cur a.cpu = some q ∧ (s.top (.proc q) = .kstack p ∨ s.top (.proc q) = .copyuvm p) := by
  simpa using hstep.state hu rfl ProcState.noConfusion

/-- a slot becomes EMBRYO when it was UNUSED -/
theorem Step.embryo (hstep : Step initproc s a u) (hu : (u.slot p).state = .EMBRYO) :
    (s.slot p).state = .EMBRYO ∨ (s.slot p).state = .UNUSED ∧ (u.slot p).parent = (s.slot p).parent := by
  simpa using hstep.state hu rfl ProcState.noConfusion

/-- a process is started by its parent -/
theorem Step.started (h : Threads s) (hstep : Step initproc s a u) (hunused : (u.slot p).state ≠ .UNUSED)
    (hembryo : (u.slot p).state ≠ .EMBRYO) :
    (s.slot p).state ≠ .UNUSED ∧ (s.slot p).state ≠ .EMBRYO ∨ ∃ q, s.cur a.cpu = some q ∧ s.top (.proc q) = .start p := by
  generalize hy : u.slot p = y at hunused hembryo
  have hedit := hstep.edit p
  rw [hy] at hedit
  cases hedit with
  | same | adopt | pass => exact .inl ⟨hunused, hembryo⟩
  | sleep hcur | wait hcur | tidy hcur | zombie hcur | giveUp hcur | fault hcur =>
    rw [h.sched.running_of_cur hcur]
    exact .inl ⟨ProcState.noConfusion, ProcState.noConfusion⟩
  | run hstate | reap _ _ _ hstate =>
    rw [hstate]
    exact .inl ⟨ProcState.noConfusion, ProcState.noConfusion⟩
  | wake =>
    exact .inl ⟨(Slot.wake_state _ _ rfl).not.1 hunused, (Slot.wake_state _ _ rfl).not.1 hembryo⟩
  | kill =>
    exact .inl ⟨(Slot.kill_state _ rfl).not.1 hunused, (Slot.kill_state _ rfl).not.1 hembryo⟩
  | start hcur htop => exact .inr ⟨_, hcur, htop⟩
  | embryo => exact (hembryo rfl).elim
  | abort => exact (hunused rfl).elim

/-- a process becomes ZOMBIE at the end of `exit` -/
theorem Step.zombies (hstep : Step initproc s a u) (hu : (u.slot p).state = .ZOMBIE) :
    (s.slot p).state = .ZOMBIE ∨ s.cur a.cpu = some p ∧ ∃ i, s.top (.proc p) = .pass i := by
  simpa using hstep.state hu rfl ProcState.noConfusion

/-! ## Points of the code -/

omit [DecidableEq C] in
/-- no handler runs on top of a critical section -/
theorem Sched.top_of_crit (h : Sched s) (hcrit : (s.pc t).crit = true) : s.top t = s.pc t := by
  cases htrap : s.trap t with
  | none => rw [St.top, htrap, Option.getD_none]
  | some x =>
    rw [(h.trapped t x htrap).2] at hcrit
    cases hcrit

omit [DecidableEq C] in
/-- the last part of `exit` runs on a CPU, with the lock -/
theorem Threads.passing (h : Threads s) {i : ℕ} (hpc : s.pc (.proc p) = .pass i) :
    s.top (.proc p) = .pass i ∧ ∃ c, s.cur c = some p := by
  have htop : s.top (.proc p) = .pass i := (h.sched.top_of_crit (by rw [hpc]; rfl)).trans hpc
  exact ⟨htop, h.sched.on_cpu (by rw [htop]; rfl) (by rw [htop]; nofun)⟩

/-- where a process goes below its handlers -/
theorem Step.pc (h : Threads s) (hstep : Step initproc s a u) (p : Fin n) : u.pc (.proc p) = s.pc (.proc p) ∨
      (s.cur a.cpu = some p ∧ u.trap (s.thread a.cpu) = none ∧ Hop initproc s a u (s.pc (.proc p)) (u.pc (.proc p))) ∨
      (s.pc (.proc p) = .forkret ∨ s.pc (.proc p) = .dead) ∧ (u.pc (.proc p) = .forkret ∨ u.pc (.proc p) = .dead) := by
  by_cases ht : .proc p = s.thread a.cpu
  · rcases hstep.pc_hop h with ⟨hsame, -⟩ | ⟨htrap, hhop⟩
    · exact .inl (ht ▸ hsame)
    · rw [← ht] at hhop
      exact .inr (.inl ⟨cur_of_thread ht.symm, htrap, hhop⟩)
  · obtain ⟨hpc | ⟨np, hnp, hstate, hnew⟩, -⟩ := hstep.pc_other ht
    · exact .inl hpc
    · cases hnp
      refine .inr (.inr ⟨?_, hnew⟩)
      have hpark := h.sched.parked p
      rcases hstate with hstate | hforks
      · rw [Parked, hstate] at hpark
        exact .inr (h.sched.pc_of_top hpark rfl)
      · rw [Parked, h.sched.embryo _ p (h.sched.pc_of_forks hforks)] at hpark
        exact .inl (h.sched.pc_of_top hpark rfl)

/-- a process goes to sleep in `wait` when it has no ZOMBIE child -/
theorem Step.inWait (h : Threads s) (hstep : Step initproc s a u) (hwait : InWait u p) :
    InWait s p ∨ s.cur a.cpu = some p ∧ s.top (.proc p) = .scanKids ∧
      ∀ q, (s.slot q).parent = some p → (s.slot q).state ≠ .ZOMBIE := by
  obtain ⟨hsleep, htop⟩ := hwait
  by_cases ht : .proc p = s.thread a.cpu
  · have hcur := cur_of_thread ht.symm
    have hhop := hstep.hop
    rw [← ht, htop] at hhop
    generalize hx : s.top (.proc p) = x at hhop
    cases hhop with
    | stay hx => rcases hx with hx | hx <;> cases hx
    | waitSleep hcur' hnone =>
      cases hcur.symm.trans hcur'
      exact .inr ⟨hcur, rfl, hnone⟩
    | call _ hcall => cases hcall
    | iret hy =>
      have := h.sched.under hx
      rw [ht, ← hy] at this
      cases this
  · rcases hstep.top_other h ht with heq | ⟨np, -, -, hnew | hnew⟩
    · have hpark := (h.step hstep).sched.parked p
      rw [Parked, hsleep] at hpark
      obtain ⟨chan, hchan, -⟩ := hpark
      rcases hstep.sleeping hsleep hchan with ⟨hold, -⟩ | ⟨hcur, -⟩
      · exact .inl ⟨hold, heq ▸ htop⟩
      · exact (ht (thread_of_cur hcur).symm).elim
    · rw [hnew] at htop
      cases htop
    · rw [hnew] at htop
      cases htop

omit [DecidableEq C] in
/-- a process asleep in `wait` sleeps on its own slot -/
theorem Woken.not_inWait (h : Threads s) (hwoken : Woken s (.proc p)) : ¬ InWait s p := by
  rintro ⟨hsleep, htop⟩
  have hpark := h.sched.parked p
  rw [Parked, hsleep] at hpark
  obtain ⟨chan, hchan, ⟨l, hx⟩ | ⟨-, rfl⟩⟩ := hpark
  · rw [htop] at hx
    cases hx
  · exact hwoken p hsleep hchan

/-! ## The invariant -/

namespace Family

omit [DecidableEq C] in
/-- init never exits -/
theorem not_init (hinv : Family initproc s) (h : Threads s) (htop : s.top (.proc p) = x) (hx : x.exits = true)
    (htrap : x.isTrap = false) : p ≠ initproc :=
  hinv.exits p (by rw [h.sched.pc_of_top htop htrap, hx])

omit [DecidableEq C] in
/-- the slot that a `fork` fills has no parent yet -/
theorem no_parent (hinv : Family initproc s) (h : Threads s) {np : Fin n} (htop : s.top (.proc p) = x)
    (hforks : x.forks = some np) (hx : x ≠ .start np) : (s.slot np).parent = none := by
  have hpc := h.sched.pc_of_top htop (Pc.isTrap_of_forks hforks)
  cases hq : (s.slot np).parent with
  | none => rfl
  | some q =>
    have hembryo := h.sched.embryo (.proc p) np (by rw [hpc, hforks])
    have hstart := hinv.embryo np q hembryo hq
    cases Thread.proc.inj (h.sched.forker (.proc p) (.proc q) np (by rw [hpc, hforks]) (by rw [hstart]; rfl))
    exact (hx (hpc.symm.trans hstart)).elim

section

variable (hinv : Family initproc s) (h : Threads s) (hstep : Step initproc s a u)

include hinv h hstep

theorem step_init : (u.slot initproc).Alive ∧ (u.slot initproc).parent = none := by
  refine ⟨?_, ?_⟩
  · rcases hstep.alive h hinv.init.1 with halive | ⟨-, i, -, htop⟩
    · exact halive
    · exact (hinv.not_init h htop rfl rfl rfl).elim
  · cases hq : (u.slot initproc).parent with
    | none => rfl
    | some q =>
      rcases hstep.parent hq with hold | ⟨-, ⟨-, htop⟩ | ⟨-, q', -, -, hold⟩⟩
      · exact (Option.some_ne_none _ (hold.symm.trans hinv.init.2)).elim
      · have := h.sched.embryo (.proc q) initproc (h.sched.pc_of_forks (by rw [htop]; rfl))
        exact (hinv.init.1.2.1 this).elim
      · exact (Option.some_ne_none _ (hold.symm.trans hinv.init.2)).elim

theorem step_unused (hu : (u.slot p).state = .UNUSED) : (u.slot p).parent = none := by
  rcases hstep.unused hu with hold | hnone | ⟨q', hcur, htop⟩
  · cases hq : (u.slot p).parent with
    | none => rfl
    | some q =>
      have hnone := hinv.unused p hold
      rcases hstep.parent hq with hsame | ⟨-, ⟨-, htop⟩ | ⟨-, q', -, -, hsame⟩⟩
      · exact (Option.some_ne_none _ (hsame.symm.trans hnone)).elim
      · have := h.sched.embryo (.proc q) p (h.sched.pc_of_forks (by rw [htop]; rfl))
        rw [hold] at this
        cases this
      · exact (Option.some_ne_none _ (hsame.symm.trans hnone)).elim
  · exact hnone
  · -- `fork` fails before it stores the parent
    have hnone : (s.slot p).parent = none := by
      rcases htop with htop | htop <;> exact hinv.no_parent h htop rfl nofun
    cases hq : (u.slot p).parent with
    | none => rfl
    | some q =>
      rcases hstep.parent hq with hsame | ⟨-, ⟨hcur', htop'⟩ | ⟨-, q', -, -, hsame⟩⟩
      · exact (Option.some_ne_none _ (hsame.symm.trans hnone)).elim
      · cases hcur.symm.trans hcur'
        rcases htop with htop | htop <;> cases htop.symm.trans htop'
      · exact (Option.some_ne_none _ (hsame.symm.trans hnone)).elim

theorem step_embryo (hu : (u.slot p).state = .EMBRYO) (hq : (u.slot p).parent = some q) : u.pc (.proc q) = .start p := by
  rcases hstep.embryo hu with hold | ⟨hold, hsame⟩
  · rcases hstep.parent hq with hparent | ⟨ha, ⟨hcur, htop⟩ | ⟨-, q', -, htop, hparent⟩⟩
    · -- the parent goes on only with the store that ends EMBRYO
      have hpc := hinv.embryo p q hold hparent
      rcases hstep.pc h q with heq | ⟨-, hnone, hhop⟩ | ⟨hold' | hold', -⟩
      · rw [heq, hpc]
      · rw [hpc] at hhop
        generalize u.pc (.proc q) = y at hhop
        cases hhop with
        | stay hx | abort hx => rcases hx with hx | hx <;> cases hx
        | start hslot =>
          rw [hu] at hslot
          cases hslot
        | interrupt _ htrap => exact (htrap hnone).elim
      · cases hpc.symm.trans hold'
      · cases hpc.symm.trans hold'
    · have hpc := h.sched.pc_of_top htop rfl
      have htrap := h.sched.own (t := .proc q) (by rw [htop]; rfl)
      have hhop := hstep.pc_hop h
      rw [thread_of_cur hcur, hpc] at hhop
      rcases hhop with ⟨-, hcalm⟩ | ⟨hnone, hhop⟩
      · exact (hcalm htrap _ ha).elim
      · generalize u.pc (.proc q) = y at hhop
        cases hhop with
        | stay hx | abort hx => rcases hx with hx | hx <;> cases hx
        | adopt => rfl
        | interrupt hno => exact (hno _ ha).elim
    · have := hinv.embryo p q' hold hparent
      rw [h.sched.pc_of_top htop rfl] at this
      cases this
  · rw [hq, hinv.unused p hold] at hsame
    cases hsame

theorem step_parent (hinit : p ≠ initproc)
    (hunused : (u.slot p).state ≠ .UNUSED) (hembryo : (u.slot p).state ≠ .EMBRYO) : (u.slot p).parent ≠ none := by
  -- the process has a parent in s: it had been started, or its parent is at the store that starts it
  have hold : ∃ q, (s.slot p).parent = some q ∧ ∀ q', s.cur a.cpu = some q' → s.top (.proc q') ≠ .adopt p := by
    rcases hstep.started h hunused hembryo with ⟨hu, he⟩ | ⟨q, hcur, htop⟩
    · obtain ⟨q, hq⟩ := Option.ne_none_iff_exists'.1 (hinv.parent p hinit hu he)
      exact ⟨q, hq, fun q' _ htop => he (h.sched.embryo (.proc q') p (h.sched.pc_of_forks (by rw [htop]; rfl)))⟩
    · refine ⟨q, hinv.starting q p (h.sched.pc_of_top htop rfl), fun q' hcur' htop' => ?_⟩
      cases hcur.symm.trans hcur'
      cases htop.symm.trans htop'
  obtain ⟨q, hq, hadopt⟩ := hold
  rcases hstep.parent_kept hq with hsame | ⟨q', hcur, htop⟩ | ⟨-, -, hnew⟩ | ⟨-, hgone⟩
  · rw [hsame]
    nofun
  · exact (hadopt q' hcur htop).elim
  · rw [hnew]
    nofun
  · exact (hunused hgone).elim

theorem step_alive (hq : (u.slot p).parent = some q) : (u.slot q).Alive ∧ p ≠ q := by
  rcases hstep.parent hq with hold | ⟨-, ⟨hcur, htop⟩ | ⟨rfl, q', -, -, hold⟩⟩
  · obtain ⟨halive, hne⟩ := hinv.alive p q hold
    refine ⟨?_, hne⟩
    rcases hstep.alive h halive with hnew | ⟨-, i, hi, htop⟩
    · exact hnew
    · exact (hinv.passed q i (h.sched.pc_of_top htop rfl) p (p.isLt.trans_le hi) hold).elim
  · have hrun := h.sched.running_of_cur hcur
    refine ⟨?_, ?_⟩
    · have halive : (s.slot q).Alive := by
        rw [Slot.Alive, hrun]
        exact ⟨ProcState.noConfusion, ProcState.noConfusion, ProcState.noConfusion⟩
      rcases hstep.alive h halive with hnew | ⟨-, i, -, htop'⟩
      · exact hnew
      · cases htop.symm.trans htop'
    · rintro rfl
      have := h.sched.embryo (.proc p) p (h.sched.pc_of_forks (by rw [htop]; rfl))
      rw [hrun] at this
      cases this
  · refine ⟨(hinv.step_init h hstep).1, ?_⟩
    rintro rfl
    exact Option.some_ne_none _ (hold.symm.trans hinv.init.2)

/-- the parent of a slot at `start` stays -/
theorem kept_starting {np : Fin n} (hpc : s.pc (.proc p) = .start np) : (u.slot np).parent = some p := by
  rcases hstep.parent_kept (hinv.starting p np hpc) with hsame | ⟨q', -, htop⟩ | ⟨-, htop, -⟩ | ⟨hstate, -⟩
  · exact hsame
  · have hpc' := h.sched.pc_of_top htop rfl
    cases Thread.proc.inj (h.sched.forker (.proc p) (.proc q') np (by rw [hpc]; rfl) (by rw [hpc']; rfl))
    cases hpc.symm.trans hpc'
  · cases hpc.symm.trans (h.sched.pc_of_top htop rfl)
  · have := h.sched.embryo (.proc p) np (by rw [hpc]; rfl)
    rw [hstate] at this
    cases this

theorem step_starting {np : Fin n} (hpc : u.pc (.proc p) = .start np) : (u.slot np).parent = some p := by
  rcases hstep.pc h p with heq | ⟨hcur, -, hhop⟩ | ⟨-, hnew | hnew⟩
  · exact hinv.kept_starting h hstep (heq ▸ hpc)
  · rw [hpc] at hhop
    generalize hx : s.pc (.proc p) = x at hhop
    cases hhop with
    | stay hx => rcases hx with hx | hx <;> cases hx
    | call _ hcall => cases hcall
    | adopt hcur' hparent =>
      cases hcur.symm.trans hcur'
      exact hparent
    | iret hy =>
      rw [thread_of_cur hcur, hx] at hy
      cases hy
  · cases hpc.symm.trans hnew
  · cases hpc.symm.trans hnew

theorem step_exits (hexits : (u.pc (.proc p)).exits = true) : p ≠ initproc := by
  rcases hstep.pc h p with heq | ⟨hcur, -, hhop⟩ | ⟨-, hnew | hnew⟩
  · exact hinv.exits p (heq ▸ hexits)
  · generalize hx : s.pc (.proc p) = x at hhop
    generalize u.pc (.proc p) = y at hhop hexits
    cases hhop with
    | stay hx => rcases hx with rfl | rfl <;> cases hexits
    | exit | exit1 | pass => exact hinv.exits p (by rw [hx]; rfl)
    | call hcur' hcall =>
      cases hcur.symm.trans hcur'
      unfold St.mayCall at hcall
      split at hcall
      case h_6 => exact of_decide_eq_true hcall
      all_goals first | cases hexits | cases hcall
    | iret hy =>
      rw [thread_of_cur hcur, hx] at hy
      rw [hy] at hexits
      cases hexits
    | _ => cases hexits
  · rw [hnew] at hexits
    cases hexits
  · rw [hnew] at hexits
    cases hexits

theorem kept_passed {i : ℕ}
    (hpc : s.pc (.proc p) = .pass i) (hold : (s.slot q).parent ≠ some p) : (u.slot q).parent ≠ some p := by
  intro hq
  rcases hstep.parent hq with hsame | ⟨-, ⟨-, htop⟩ | ⟨hp, -⟩⟩
  · exact hold hsame
  · cases hpc.symm.trans (h.sched.pc_of_top htop rfl)
  · exact hinv.exits p (by rw [hpc]; rfl) hp

theorem step_passed {i : ℕ} (hpc : u.pc (.proc p) = .pass i) (hq : q < i) : (u.slot q).parent ≠ some p := by
  rcases hstep.pc h p with heq | ⟨hcur, -, hhop⟩ | ⟨-, hnew | hnew⟩
  · rw [heq] at hpc
    exact hinv.kept_passed h hstep hpc (hinv.passed p i hpc q hq)
  · rw [hpc] at hhop
    generalize hx : s.pc (.proc p) = x at hhop
    cases hhop with
    | stay hx => rcases hx with hx | hx <;> cases hx
    | call _ hcall => cases hcall
    | exit1 => exact (Nat.not_lt_zero _ hq).elim
    | @pass p' q' j hi hcur' hparent =>
      cases hcur.symm.trans hcur'
      rcases (Nat.lt_succ_iff_lt_or_eq.1 hq) with hlt | heq
      · exact hinv.kept_passed h hstep hx (hinv.passed p j hx q hlt)
      · cases Fin.ext (heq.trans hi)
        rcases hparent with hne | heq'
        · exact hne
        · rw [heq']
          intro hinit
          exact hinv.exits p (by rw [hx]; rfl) (Option.some.inj hinit).symm
    | iret hy =>
      rw [thread_of_cur hcur, hx] at hy
      cases hy
  · cases hpc.symm.trans hnew
  · cases hpc.symm.trans hnew

/-- a parent woken by `exit` does not fall asleep in `wait` before `exit` is done -/
theorem kept_woken {i : ℕ} (hpc : s.pc (.proc p) = .pass i) (hq : (u.slot p).parent = some q) : ¬ InWait u q := by
  obtain ⟨htop, c, hcur⟩ := h.passing hpc
  -- a step inside a critical section is one of p
  have hactor : ∀ {q' x}, s.cur a.cpu = some q' → s.top (.proc q') = x → x.crit = true → q' = p ∧ x = .pass i := by
    intro q' x hcur' htop' hx
    have hc : c = a.cpu := by
      apply h.alone
      · rw [thread_of_cur hcur, htop]
        rfl
      · rw [thread_of_cur hcur', htop', hx]
    rw [hc, hcur'] at hcur
    cases hcur
    exact ⟨rfl, htop'.symm.trans htop⟩
  intro hwait
  rcases hstep.parent hq with hold | ⟨-, ⟨hcur', htop'⟩ | ⟨-, q', hcur', htop', hold⟩⟩
  · rcases hstep.inWait h hwait with hold' | ⟨hcur', htop', -⟩
    · exact hinv.woken p i q hpc hold hold'
    · cases (hactor hcur' htop' rfl).2
  · have := h.sched.embryo (.proc q) p (h.sched.pc_of_forks (by rw [htop']; rfl))
    rw [h.sched.running_of_cur hcur] at this
    cases this
  · obtain ⟨rfl, -⟩ := hactor hcur' htop' rfl
    exact (hinv.alive _ _ hold).2 rfl

theorem step_woken {i : ℕ} (hpc : u.pc (.proc p) = .pass i) (hq : (u.slot p).parent = some q) : ¬ InWait u q := by
  rcases hstep.pc h p with heq | ⟨hcur, -, hhop⟩ | ⟨-, hnew | hnew⟩
  · exact hinv.kept_woken h hstep (heq ▸ hpc) hq
  · rw [hpc] at hhop
    generalize hx : s.pc (.proc p) = x at hhop
    cases hhop with
    | stay hx => rcases hx with hx | hx <;> cases hx
    | call _ hcall => cases hcall
    | exit1 hcur' hwoken =>
      cases hcur.symm.trans hcur'
      refine (hwoken q ?_).not_inWait (h.step hstep)
      have hexit : s.top (.proc p) = .exit1 := (h.sched.top_of_crit (by rw [hx]; rfl)).trans hx
      rcases hstep.parent hq with hold | ⟨-, ⟨hcur'', htop⟩ | ⟨-, q', hcur'', htop, -⟩⟩
      · exact hold
      · cases hcur.symm.trans hcur''
        cases hexit.symm.trans htop
      · cases hcur.symm.trans hcur''
        cases hexit.symm.trans htop
    | pass => exact hinv.kept_woken h hstep hx hq
    | iret hy =>
      rw [thread_of_cur hcur, hx] at hy
      cases hy
  · cases hpc.symm.trans hnew
  · cases hpc.symm.trans hnew

theorem step_wait (hwait : InWait u p) (hq : (u.slot q).parent = some p) : (u.slot q).state ≠ .ZOMBIE := by
  intro hzombie
  have hz := hstep.zombies hzombie
  rcases hstep.parent hq with hold | ⟨ha, ⟨hcur, htop⟩ | ⟨rfl, q', hcur, htop, hold⟩⟩
  · rcases hstep.inWait h hwait with hw | ⟨hcur', htop', hnone⟩ <;> rcases hz with hz | ⟨hcur, i, htop⟩
    · exact hinv.wait p q hw hold hz
    · exact hinv.woken q i p (h.sched.pc_of_top htop rfl) hold hw
    · exact hnone q hold hz
    · cases hcur.symm.trans hcur'
      cases htop.symm.trans htop'
  · rcases hz with hz | ⟨hcur', i, htop'⟩
    · have := h.sched.embryo (.proc p) q (h.sched.pc_of_forks (by rw [htop]; rfl))
      rw [hz] at this
      cases this
    · cases hcur.symm.trans hcur'
      cases htop.symm.trans htop'
  · rcases hz with hz | ⟨hcur', -⟩
    · -- init is woken for the ZOMBIE it is given
      have hhop := hstep.hop
      rw [thread_of_cur hcur, htop] at hhop
      generalize u.top (.proc q') = y at hhop
      cases hhop with
      | stay hx | abort hx => rcases hx with hx | hx <;> cases hx
      | pass hi hcur' _ hwoken =>
        cases hcur.symm.trans hcur'
        cases Fin.ext hi
        exact (hwoken hold hz).not_inWait (h.step hstep) hwait
      | zombie hi => exact hi.not_gt q.isLt
      | interrupt hno => exact hno _ ha
    · cases hcur.symm.trans hcur'
      exact (hinv.alive q q hold).2 rfl

/-- **Parents.** Every step keeps the invariant. -/
theorem step : Family initproc u where
  init := hinv.step_init h hstep
  unused _ hu := hinv.step_unused h hstep hu
  embryo _ _ hu hq := hinv.step_embryo h hstep hu hq
  parent _ hinit hu he := hinv.step_parent h hstep hinit hu he
  alive _ _ hq := hinv.step_alive h hstep hq
  starting _ _ hpc := hinv.step_starting h hstep hpc
  exits _ hexits := hinv.step_exits h hstep hexits
  passed _ _ hpc _ hq := hinv.step_passed h hstep hpc hq
  woken _ _ _ hpc hq := hinv.step_woken h hstep hpc hq
  wait _ _ hwait hq := hinv.step_wait h hstep hwait hq

end

omit [DecidableEq C] in
theorem of_init (h0 : Init initproc s) : Family initproc s := by
  obtain ⟨hinit, hunused, -, -, -, -, hforkret, hdead, -, htrap, -, -⟩ := h0
  have hparent : ∀ p, (s.slot p).parent = none := by
    intro p
    by_cases hp : p = initproc
    · rw [hp, hinit]
    · rw [hunused p hp]
  have hno : ∀ p q, (s.slot p).parent ≠ some q := fun p q hq => Option.some_ne_none q (hq.symm.trans (hparent p))
  have hpc : ∀ p, s.pc (.proc p) = .forkret ∨ s.pc (.proc p) = .dead := by
    intro p
    by_cases hp : p = initproc
    · exact .inl (hp ▸ hforkret)
    · exact .inr (hdead p hp)
  refine ⟨⟨?_, hparent _⟩, fun p _ => hparent p, fun p q _ hq => (hno p q hq).elim, fun p hp hu _ => ?_,
    fun p q hq => (hno p q hq).elim, fun p np hx => ?_, fun p hx => ?_, fun p i hx => ?_, fun p i q hx => ?_,
    fun p q _ hq => (hno q p hq).elim⟩
  · rw [hinit]
    exact ⟨ProcState.noConfusion, ProcState.noConfusion, ProcState.noConfusion⟩
  · rw [hunused p hp] at hu
    exact (hu rfl).elim
  all_goals rcases hpc p with hp | hp <;> rw [hp] at hx <;> cases hx

end Family

end

end Xv6.Proc
