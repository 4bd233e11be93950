/-
`sleep` and `wakeup` (`proc.c`).

A process waits on a channel from the moment it has released lk in `sleep` until it is woken, SLEEPING for most of
that time. It holds `ptable.lock` from before that release until it is SLEEPING, and the lock passes from there to the
scheduler, so a `wakeup` either comes before the release or finds it SLEEPING.
- `no_lost_wakeup`: in every reachable state of any number of processes and CPUs, at the end of `wakeup(chan)` no process
  waits on chan; SLEEPING ends by `wakeup1` on the process's channel or by `kill` only; and `sleep` returns with lk held
  and `ptable.lock` not held.
-/
import Xv6.Proc.Slots

namespace Xv6.Proc

variable {n : ℕ} {C : Type} {initproc : Fin n} {s u : St n C} {a : Act n C} {c c' : C} {p q : Fin n} {x y : Pc n}
  {t t' : Thread n C} {chan : Chan n} {l : ℕ}

/-- past the release of lk in `sleep(chan, lk)`, and not woken yet -/
def Waits (s : St n C) (p : Fin n) (chan : Chan n) : Prop :=
  ((s.slot p).state = .SLEEPING ∧ (s.slot p).chan = some chan) ∨ ∃ l, s.top (.proc p) = .toSleep chan l

/-! ## Sleepers -/

/-- a process that neither stands where it can be switched out nor is dead runs on a CPU -/
theorem Sched.on_cpu (h : Sched s) (hx : (s.top (.proc p)).resumes = false) (hdead : s.top (.proc p) ≠ .dead) :
    ∃ c, s.cur c = some p := by
  rw [← h.running]
  have hp := h.parked p
  unfold Parked at hp
  split at hp
  · rw [hp] at hx
    cases hx
  · rename_i hsleep
    rw [h.resumes_of_sleeping hsleep] at hx
    cases hx
  · rw [hp] at hx
    cases hx
  · exact (hdead hp).elim
  · exact (hdead hp).elim
  · assumption

theorem Threads.toSleep_on_cpu (h : Threads s) (htop : s.top (.proc p) = .toSleep chan l) :
    ∃ c, s.cur c = some p ∧ s.holder .ptable = some c := by
  obtain ⟨c, hc⟩ := h.sched.on_cpu (p := p) (by rw [htop]; rfl) (by rw [htop]; nofun)
  refine ⟨c, hc, (h.locks.lock c).2 ?_⟩
  rw [thread_of_cur hc, htop]
  rfl

section

variable [DecidableEq C]

/-- only `sleep` puts a process to sleep -/
theorem Step.sleeping (hstep : Step initproc s a u) (hsleep : (u.slot p).state = .SLEEPING)
    (hchan : (u.slot p).chan = some chan) :
    ((s.slot p).state = .SLEEPING ∧ (s.slot p).chan = some chan) ∨
      s.cur a.cpu = some p ∧ ((∃ l, s.top (.proc p) = .toSleep chan l) ∨ s.top (.proc p) = .scanKids) := by
  generalize hy : u.slot p = y at hsleep hchan
  have hedit := hstep.edit p
  rw [hy] at hedit
  cases hedit with
  | sleep hcur htop =>
    cases hchan
    exact .inr ⟨hcur, .inl ⟨_, htop⟩⟩
  | wait hcur htop => exact .inr ⟨hcur, .inr htop⟩
  | wake => exact .inl ⟨((Slot.wake_sleeping ..).1 hsleep).1, (Slot.wake_chan ..).symm.trans hchan⟩
  | kill => exact (Slot.kill_sleeping _ hsleep).elim
  | tidy => cases hchan
  | same | adopt | pass | fault => exact .inl ⟨hsleep, hchan⟩
  | embryo | abort | start | zombie | reap | giveUp | run => cases hsleep

section

variable (h : Threads s) (hstep : Step initproc s a u)

include h hstep

/-- **Ends of sleep.** A process leaves SLEEPING by a signal on its channel or by `kill` only. -/
theorem Step.awake (hsleep : (s.slot p).state = .SLEEPING) (hawake : (u.slot p).state ≠ .SLEEPING) :
    (∃ chan, (s.slot p).chan = some chan ∧ Signals initproc s a chan) ∨ Kills s a (s.slot p).pid := by
  have hoff : s.cur a.cpu ≠ some p := by
    intro hcur
    rw [h.sched.running_of_cur hcur] at hsleep
    cases hsleep
  have hforks : ∀ {t x}, s.top t = x → x.forks ≠ some p := by
    intro t x htop hx
    have := h.sched.embryo t p (h.sched.pc_of_forks (htop ▸ hx))
    rw [hsleep] at this
    cases this
  generalize hy : u.slot p = y at hawake
  have hedit := hstep.edit p
  rw [hy] at hedit
  cases hedit with
  | wake hsignal =>
    rw [ne_eq, Slot.wake_sleeping, not_and, not_not] at hawake
    exact .inl ⟨_, hawake hsleep, hsignal⟩
  | kill hkill => exact .inr hkill
  | same | adopt | pass => exact (hawake hsleep).elim
  | sleep hcur | wait hcur | tidy hcur | zombie hcur | giveUp hcur | fault hcur => exact (hoff hcur).elim
  | abort hcur htop => rcases htop with htop | htop <;> exact (hforks htop rfl).elim
  | start hcur htop => exact (hforks htop rfl).elim
  | embryo _ hcur htop hstate | reap hcur htop hparent hstate | run hstate =>
    rw [hsleep] at hstate
    cases hstate

/-! ## Signals -/

/-- only `sleep` goes on to set its channel -/
theorem Step.toSleep_top (htop : u.top (.proc p) = .toSleep chan l) :
    s.top (.proc p) = .toSleep chan l ∨ s.cur a.cpu = some p ∧ s.top (.proc p) = .letGo chan l := by
  by_cases ht : .proc p = s.thread a.cpu
  · have hhop := hstep.hop
    rw [← ht, htop] at hhop
    generalize hx : s.top (.proc p) = x at hhop
    cases hhop with
    | stay hx => rcases hx with hx | hx <;> cases hx
    | letGo => exact .inr ⟨cur_of_thread ht.symm, rfl⟩
    | call _ hcall => cases hcall
    | iret hy =>
      have := h.sched.under hx
      rw [ht, ← hy] at this
      cases this
  · rcases hstep.top_other h ht with heq | ⟨np, -, -, hnew | hnew⟩
    · exact .inl (heq ▸ htop)
    · rw [hnew] at htop
      cases htop
    · rw [hnew] at htop
      cases htop

/-- a process starts to wait inside its critical section -/
theorem Step.waits (hwait : Waits u p chan) :
    Waits s p chan ∨ s.cur a.cpu = some p ∧ ((∃ l, s.top (.proc p) = .letGo chan l) ∨ s.top (.proc p) = .scanKids) := by
  rcases hwait with ⟨hsleep, hchan⟩ | ⟨l, htop⟩
  · rcases hstep.sleeping hsleep hchan with hold | ⟨hcur, ⟨l, htop⟩ | htop⟩
    · exact .inl (.inl hold)
    · exact .inl (.inr ⟨l, htop⟩)
    · exact .inr ⟨hcur, .inr htop⟩
  · rcases hstep.toSleep_top h htop with hold | ⟨hcur, hold⟩
    · exact .inl (.inr ⟨l, hold⟩)
    · exact .inr ⟨hcur, .inl ⟨l, hold⟩⟩

/-- no process is on its way to sleep while another thread is inside a critical section -/
theorem Step.not_toSleep (htop : s.top (s.thread c) = x) (hx : x.crit = true)
    (hsleep : ∀ l, x ≠ .toSleep chan l) (hletGo : ∀ l, x ≠ .letGo chan l) (l : ℕ) : u.top (.proc p) ≠ .toSleep chan l := by
  intro hnew
  have hcrit : (s.top (s.thread c)).crit = true := by rw [htop, hx]
  rcases hstep.toSleep_top h hnew with hold | ⟨hcur, hold⟩
  · obtain ⟨c', hcur, -⟩ := h.toSleep_on_cpu hold
    rw [← thread_of_cur hcur] at hold
    have hcrit' : (s.top (s.thread c')).crit = true := by rw [hold]; rfl
    cases h.alone hcrit hcrit'
    exact hsleep l (htop.symm.trans hold)
  · rw [← thread_of_cur hcur] at hold
    have hcrit' : (s.top (s.thread a.cpu)).crit = true := by rw [hold]; rfl
    rw [← h.alone hcrit hcrit'] at hold
    exact hletGo l (htop.symm.trans hold)

/-- nobody waits on a channel after a signal on it -/
theorem Step.signalled (hsignal : Signals initproc s a chan) (p : Fin n) : ¬ Waits u p chan := by
  obtain ⟨c, rfl, hpoint⟩ := hsignal
  have hhop : Hop initproc s (.move c) u (s.top (s.thread c)) (u.top (s.thread c)) := hstep.hop
  generalize u.top (s.thread c) = y at hhop
  suffices hboth : Woken u chan ∧ ∀ l, u.top (.proc p) ≠ .toSleep chan l by
    rintro (⟨hsleep, hchan⟩ | ⟨l, htop⟩)
    · exact hboth.1 p hsleep hchan
    · exact hboth.2 l htop
  rcases hpoint with ⟨b, htop⟩ | ⟨q, hcur, ⟨_, htop, hparent, rfl⟩ | ⟨q', htop, hparent, hstate, rfl⟩⟩
  · refine ⟨?_, hstep.not_toSleep h htop rfl nofun nofun⟩
    rw [htop] at hhop
    cases hhop with
    | wake _ hwoken => exact hwoken
    | stay hx | abort hx => rcases hx with hx | hx <;> cases hx
    | interrupt ha => exact (ha c rfl).elim
  · rw [← thread_of_cur hcur] at htop
    refine ⟨?_, hstep.not_toSleep h htop rfl nofun nofun⟩
    rw [htop] at hhop
    cases hhop with
    | exit1 hcur' hwoken =>
      cases hcur.symm.trans hcur'
      exact hwoken _ hparent
    | stay hx | abort hx => rcases hx with hx | hx <;> cases hx
    | interrupt ha => exact (ha c rfl).elim
  · rw [← thread_of_cur hcur] at htop
    refine ⟨?_, hstep.not_toSleep h htop rfl nofun nofun⟩
    rw [htop] at hhop
    cases hhop with
    | pass hi hcur' _ hwoken =>
      cases hcur.symm.trans hcur'
      cases Fin.ext hi
      exact hwoken hparent hstate
    | zombie hi => exact (hi.not_gt q'.isLt).elim
    | stay hx | abort hx => rcases hx with hx | hx <;> cases hx
    | interrupt ha => exact (ha c rfl).elim

end

/-! ## Runs -/

/-- what a run keeps beside `Threads` -/
structure SleepInv (s : St n C) : Prop where
  /-- at the end of `wakeup` -/
  woken : ∀ t chan b, s.top t = .wakeup chan .release b → ∀ p, ¬ Waits s p chan
  /-- at the end of `sleep` -/
  slept : ∀ p l, s.top (.proc p) = .slept l → ∃ c, s.cur c = some p ∧ s.holder (.other l) = some c
  /-- lk is held there, so no handler starts -/
  quiet : ∀ p l, s.trap (.proc p) ≠ none → s.pc (.proc p) ≠ .slept l

/-- a critical section of a thread keeps the others out of theirs -/
theorem Step.waits_of_crit (h : Threads s) (hstep : Step initproc s a u) (hcrit : (s.top (s.thread c)).crit = true)
    (hc : c ≠ a.cpu) (hwait : Waits u p chan) : Waits s p chan := by
  rcases hstep.waits h hwait with hold | ⟨hcur, htop⟩
  · exact hold
  · refine (hc (h.alone hcrit ?_)).elim
    rw [thread_of_cur hcur]
    rcases htop with ⟨l, htop⟩ | htop <;> rw [htop] <;> rfl

omit [DecidableEq C] in
/-- a thread in the middle of its code is on a CPU -/
theorem Sched.thread_of_top (h : Sched s) (hx : (s.top t).resumes = false) (hdead : s.top t ≠ .dead)
    (hran : ∀ p, s.top t ≠ .ran p) : ∃ c, s.thread c = t := by
  cases t with
  | proc p =>
    obtain ⟨c, hc⟩ := h.on_cpu hx hdead
    exact ⟨c, thread_of_cur hc⟩
  | sched c =>
    refine ⟨c, thread_of_none ?_⟩
    cases hc : s.cur c with
    | none => rfl
    | some p => exact (hran p (h.ran c p hc)).elim

theorem SleepInv.step_woken (h : Threads s) (hinv : SleepInv s) (hstep : Step initproc s a u) {b : Bool}
    (htop : u.top t = .wakeup chan .release b) (p : Fin n) : ¬ Waits u p chan := by
  by_cases ht : t = s.thread a.cpu
  · have hhop := hstep.hop
    rw [← ht, htop] at hhop
    generalize hx : s.top t = x at hhop
    cases hhop with
    | stay hx => rcases hx with hx | hx <;> cases hx
    | wake hsignal => exact hstep.signalled h hsignal p
    | call _ hcall =>
      have := (Threads.mayCall_crit hcall).1
      cases this
    | iret hy =>
      have := h.sched.under hx
      rw [ht, ← hy] at this
      cases this
  · -- another CPU's step: the lock keeps it from starting to wait
    rcases hstep.top_other h ht with heq | ⟨np, -, -, hnew | hnew⟩
    · rw [heq] at htop
      obtain ⟨c, rfl⟩ := h.sched.thread_of_top (t := t) (by rw [htop]; rfl) (by rw [htop]; nofun) (by rw [htop]; nofun)
      intro hwait
      refine hinv.woken _ chan b htop p (hstep.waits_of_crit h (c := c) (by rw [htop]; rfl) ?_ hwait)
      rintro rfl
      exact ht rfl
    · rw [hnew] at htop
      cases htop
    · rw [hnew] at htop
      cases htop

/-- a process that stays on a CPU stays on the same one -/
theorem Step.same_cpu (h : Threads s) (hstep : Step initproc s a u) (hcur : s.cur a.cpu = some p)
    (hcur' : u.cur c = some p) : c = a.cpu := by
  by_contra hc
  rw [hstep.cur_other hc] at hcur'
  exact hc (h.sched.uniq c a.cpu p hcur' hcur)

theorem SleepInv.step_slept (h : Threads s) (hinv : SleepInv s) (hstep : Step initproc s a u)
    (htop : u.top (.proc p) = .slept l) : ∃ c, u.cur c = some p ∧ u.holder (.other l) = some c := by
  by_cases ht : .proc p = s.thread a.cpu
  · have hhop := hstep.hop
    rw [← ht, htop] at hhop
    generalize hx : s.top (.proc p) = x at hhop
    cases hhop with
    | stay hx => rcases hx with hx | hx <;> cases hx
    | reacquire hheld =>
      obtain ⟨c, hc⟩ := (h.step hstep).sched.on_cpu (p := p) (by rw [htop]; rfl) (by rw [htop]; nofun)
      cases hstep.same_cpu h (cur_of_thread ht.symm) hc
      exact ⟨_, hc, hheld⟩
    | call _ hcall => cases hcall
    | iret hy =>
      refine (hinv.quiet p l ?_ (by rw [ht, ← hy])).elim
      intro hnone
      rw [St.top, hnone, Option.getD_none, ht, ← hy] at hx
      cases hx
  · rcases hstep.top_other h ht with heq | ⟨np, -, -, hnew | hnew⟩
    · obtain ⟨c, hcur, hheld⟩ := hinv.slept p l (heq ▸ htop)
      have hc : c ≠ a.cpu := by
        rintro rfl
        exact ht (thread_of_cur hcur).symm
      exact ⟨c, (hstep.cur_other hc).trans hcur, hstep.holder_other hc hheld⟩
    · rw [hnew] at htop
      cases htop
    · rw [hnew] at htop
      cases htop

theorem SleepInv.step_quiet (h : Threads s) (hinv : SleepInv s) (hstep : Step initproc s a u)
    (htrap : u.trap (.proc p) ≠ none) : u.pc (.proc p) ≠ .slept l := by
  by_cases ht : .proc p = s.thread a.cpu
  · rcases hstep.actor h with ⟨-, hnone⟩ | ⟨hpc, hncli⟩
    · exact (htrap (ht ▸ hnone)).elim
    · rw [← ht] at hpc hncli
      rw [hpc]
      by_cases hold : s.trap (.proc p) = none
      · intro hslept
        have htop : s.top (.proc p) = .slept l := by rw [St.top, hold, Option.getD_none, hslept]
        obtain ⟨c, hcur, hheld⟩ := hinv.slept p l htop
        cases h.sched.uniq c a.cpu p hcur (cur_of_thread ht.symm)
        exact h.unlocked (hncli hold).1 _ hheld
      · exact hinv.quiet p l hold
  · obtain ⟨hpc | ⟨np, -, -, hnew | hnew⟩, htrap'⟩ := hstep.pc_other ht
    · rw [hpc]
      exact hinv.quiet p l (htrap' ▸ htrap)
    · rw [hnew]
      simp
    · rw [hnew]
      simp

theorem SleepInv.step (h : Threads s) (hinv : SleepInv s) (hstep : Step initproc s a u) : SleepInv u :=
  ⟨fun _ _ _ htop => hinv.step_woken h hstep htop, fun _ _ htop => hinv.step_slept h hstep htop,
    fun _ _ htrap => hinv.step_quiet h hstep htrap⟩

omit [DecidableEq C] in
theorem SleepInv.init (h0 : Init initproc s) : SleepInv s := by
  obtain ⟨-, -, -, -, -, -, hforkret, hdead, hidle, htrap, -, -⟩ := h0
  have htop : ∀ t, s.top t = s.pc t := fun t => by rw [St.top, htrap, Option.getD_none]
  have hpc : ∀ t, s.pc t = .forkret ∨ s.pc t = .dead ∨ s.pc t = .idle := by
    intro t
    cases t with
    | proc p =>
      by_cases hp : p = initproc
      · exact .inl (hp ▸ hforkret)
      · exact .inr (.inl (hdead p hp))
    | sched c => exact .inr (.inr (hidle c))
  refine ⟨fun t chan b hx => ?_, fun p l hx => ?_, fun p l hsome => (hsome (htrap _)).elim⟩
  · rw [htop] at hx
    rcases hpc t with hpc | hpc | hpc <;> rw [hpc] at hx <;> cases hx
  · rw [htop] at hx
    rcases hpc (.proc p) with hpc | hpc | hpc <;> rw [hpc] at hx <;> cases hx

theorem SleepInv.of_reach (h : (machine initproc C).Reach s) : Threads s ∧ SleepInv s :=
  h.invariant (I := fun s => Threads s ∧ SleepInv s) (fun _ h0 => ⟨Threads.init h0, SleepInv.init h0⟩)
    fun _ _ _ hs hstep => ⟨hs.1.step (step_cases hstep), hs.2.step hs.1 (step_cases hstep)⟩

/-- **No lost wake-up.** For any number of processes and CPUs and every interleaving: at the end of `wakeup(chan)`, and
after every `wakeup1(chan)` that `exit` runs, no process waits on chan; a process leaves SLEEPING by `wakeup1` on its
channel or by `kill` of its pid only; `sleep` returns with lk held and `ptable.lock` not held, and to `wait`, whose lk
is `ptable.lock`, with `ptable.lock` held. -/
theorem no_lost_wakeup (h : (machine initproc C).Reach s) :
    (∀ c chan b, s.top (s.thread c) = .wakeup chan .release b → ∀ p, ¬ Waits s p chan) ∧
    (∀ a u chan, step initproc s a = some u → Signals initproc s a chan → ∀ p, ¬ Waits u p chan) ∧
    (∀ a u p, step initproc s a = some u → (s.slot p).state = .SLEEPING → (u.slot p).state ≠ .SLEEPING →
      (∃ chan, (s.slot p).chan = some chan ∧ Signals initproc s a chan) ∨ Kills s a (s.slot p).pid) ∧
    (∀ p l, s.top (.proc p) = .slept l →
      ∃ c, s.cur c = some p ∧ s.holder (.other l) = some c ∧ s.holder .ptable ≠ some c) ∧
    ∀ c p, s.cur c = some p → s.top (.proc p) = .waitAsleep ∨ s.top (.proc p) = .scanKids →
      s.holder .ptable = some c := by
  obtain ⟨hthreads, hinv⟩ := SleepInv.of_reach h
  refine ⟨fun c chan b htop => hinv.woken _ chan b htop,
    fun a u chan hstep hsignal => (step_cases hstep).signalled hthreads hsignal,
    fun a u p hstep hsleep hawake => (step_cases hstep).awake hthreads hsleep hawake, fun p l htop => ?_,
    fun c p hcur htop => ?_⟩
  · obtain ⟨c, hcur, hheld⟩ := hinv.slept p l htop
    refine ⟨c, hcur, hheld, (hthreads.locks.lock c).not.2 ?_⟩
    rw [thread_of_cur hcur, htop]
    exact Bool.false_ne_true
  · rw [hthreads.locks.lock, thread_of_cur hcur]
    rcases htop with htop | htop <;> rw [htop] <;> rfl

end

/-- init is about to run for the first time, and the other slots are free -/
def booted {n : ℕ} (C : Type) (initproc : Fin n) : St n C where
  slot p := if p = initproc then ⟨.RUNNABLE, 1, none, none, false⟩ else ⟨.UNUSED, 0, none, none, false⟩
  nextpid := 2
  holder _ := none
  ncli _ := 0
  cur _ := none
  pc
    | .proc p => if p = initproc then .forkret else .dead
    | .sched _ => .idle
  trap _ := none
  created := 1
  reaped := []

theorem booted_init {n : ℕ} {C : Type} {initproc : Fin n} : Init initproc (booted C initproc) := by
  refine ⟨if_pos rfl, fun p hp => if_neg hp, rfl, fun _ => rfl, fun _ => rfl, fun _ => rfl, if_pos rfl, fun p hp => if_neg hp,
    fun _ => rfl, fun _ => rfl, rfl, rfl⟩

/-- on CPU c init sleeps on channel 7 with lock 0; a handler on CPU d, begun before init slept, wakes it, and `sleep`
returns on CPU d -/
def sleepRun {n : ℕ} {C : Type} (c d : C) : List (Act n C) :=
  [.move c, .move c, .move c, .acquire c 0, .call c (.sleep (.other 7) 0), .interrupt d, .handle d 7, .move c, .move c,
    .move c, .move c, .move c, .move c, .move c, .move d, .move d, .move d, .iret d, .move d, .move d, .move d, .move d,
    .move d]

theorem sleepRun_slept : ((sleepRun 0 1).foldlM (step 0) (booted (n := 2) (Fin 2) 0)).map (·.top (.proc 0)) =
    some (.slept 0) := by decide +kernel

theorem no_lost_wakeup_slept : ∃ s : St 2 (Fin 2), (machine 0 (Fin 2)).Reach s ∧ s.top (.proc 0) = .slept 0 ∧
    ∃ c, s.cur c = some 0 ∧ s.holder (.other 0) = some c ∧ s.holder .ptable ≠ some c := by
  obtain ⟨s, hrun, htop⟩ := Option.map_eq_some_iff.1 sleepRun_slept
  have hreach : (machine 0 (Fin 2)).Reach s := Machine.Reach.foldlM _ (.init booted_init) hrun
  exact ⟨s, hreach, htop, (no_lost_wakeup hreach).2.2.2.1 0 0 htop⟩

end Xv6.Proc
