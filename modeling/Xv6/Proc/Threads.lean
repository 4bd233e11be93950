/-
The holder of `ptable.lock`.

`Locks`: the CPU that holds `ptable.lock` is the one whose current thread is inside a critical section, also when that
thread did not take the lock itself but was switched to with the lock held; and a CPU that holds locks has interrupts
off.
- `Threads.step`: every step keeps `Sched` and `Locks`;
- `Threads.of_reach`: both hold in every reachable state;
- `Threads.alone`: at most one CPU is inside a critical section.
-/
import Xv6.Proc.Sched

namespace Xv6.Proc

open Function

variable {n : ℕ} {C : Type} {initproc : Fin n} {s u : St n C} {a : Act n C} {c c' : C} {p q : Fin n} {x y : Pc n}
  {t t' : Thread n C} {l : Lock}

structure Locks (s : St n C) : Prop where
  lock : ∀ c, s.holder .ptable = some c ↔ (s.top (s.thread c)).crit = true
  ncli : ∀ c (S : Finset Lock), (∀ l ∈ S, s.holder l = some c) → S.card ≤ s.ncli c

structure Threads (s : St n C) : Prop where
  sched : Sched s
  locks : Locks s

/-! ## Steps of the invariant -/

theorem Locks.congr (h : Locks s) (hthread : u.thread = s.thread) (hholder : u.holder = s.holder) (hncli : u.ncli = s.ncli)
    (htop : ∀ c, (u.top (s.thread c)).crit = (s.top (s.thread c)).crit) : Locks u := by
  refine ⟨fun c => ?_, by rw [hholder, hncli]; exact h.ncli⟩
  rw [hholder, hthread, htop]
  exact h.lock c

namespace Threads

theorem thread_inj (h : Threads s) (heq : s.thread c = s.thread c') : c = c' := h.sched.thread_inj heq

/-- a CPU with interrupts on holds no lock -/
theorem unlocked (h : Threads s) (hncli : s.ncli c = 0) (l : Lock) : s.holder l ≠ some c := by
  intro hl
  have hcard := h.locks.ncli c {l} fun l' hl' => Finset.mem_singleton.1 hl' ▸ hl
  rw [hncli, Finset.card_singleton] at hcard
  omega

/-- at most one CPU is inside a critical section -/
theorem alone (h : Threads s) (hc : (s.top (s.thread c)).crit = true) (hc' : (s.top (s.thread c')).crit = true) :
    c = c' :=
  Option.some.inj (((h.locks.lock c).2 hc).symm.trans ((h.locks.lock c').2 hc'))

/-- the table matters to `Sched` only -/
theorem of_slots {slot : Fin n → Slot n} (h : Threads s) (hs : Sched { s with slot }) : Threads { s with slot } :=
  ⟨hs, ⟨h.locks.lock, h.locks.ncli⟩⟩

section

variable [DecidableEq C]

section

variable (h : Threads s)

include h

theorem hold_ncli (c' : C) (S : Finset Lock)
    (hS : ∀ l' ∈ S, (s.hold c l).holder l' = some c') : S.card ≤ (s.hold c l).ncli c' := by
  have hold : ∀ l' ∈ S, l' ≠ l → s.holder l' = some c' := by
    intro l' hl' hne
    simpa [St.hold, hne] using hS l' hl'
  by_cases hc : c' = c
  · have hcard := h.locks.ncli c' (S.erase l) fun l' hl' => hold l' (Finset.mem_of_mem_erase hl') (Finset.ne_of_mem_erase hl')
    have := Finset.pred_card_le_card_erase (s := S) (a := l)
    simp only [St.hold, hc, update_self]
    rw [hc] at hcard
    omega
  · have hmem : l ∉ S := by
      intro hl
      have := hS l hl
      simp only [St.hold, update_self, Option.some.injEq] at this
      exact hc this.symm
    simp only [St.hold, ne_eq, hc, not_false_eq_true, update_of_ne]
    exact h.locks.ncli c' S fun l' hl' => hold l' hl' fun heq => hmem (heq ▸ hl')

theorem drop_ncli (hheld : s.holder l = some c) (c' : C) (S : Finset Lock)
    (hS : ∀ l' ∈ S, (s.drop c l).holder l' = some c') : S.card ≤ (s.drop c l).ncli c' := by
  have hmem : l ∉ S := by
    intro hl
    have := hS l hl
    simp [St.drop] at this
  have hold : ∀ l' ∈ S, s.holder l' = some c' := by
    intro l' hl'
    have hne : l' ≠ l := fun heq => hmem (heq ▸ hl')
    simpa [St.drop, hne] using hS l' hl'
  by_cases hc : c' = c
  · have hcard := h.locks.ncli c (insert l S) fun l' hl' => by
      rcases Finset.mem_insert.1 hl' with rfl | hl'
      · exact hheld
      · exact hc ▸ hold l' hl'
    rw [Finset.card_insert_of_notMem hmem] at hcard
    simp only [St.drop, hc, update_self]
    omega
  · simp only [St.drop, ne_eq, hc, not_false_eq_true, update_of_ne]
    exact h.locks.ncli c' S hold

/-- a thread goes on, inside or outside its critical section -/
theorem goto_locks (hcrit : x.crit = (s.top t).crit) : Locks (s.goto t x) := by
  refine h.locks.congr (goto_thread ..) (goto_holder ..) (goto_ncli ..) fun c' => ?_
  by_cases hc : s.thread c' = t
  · rw [hc, top_goto_self, hcrit]
  · rw [top_goto_of_ne _ _ hc]

theorem flow (ht : s.thread c = t) (hflow : (s.top t).Flow x) (hcrit : x.crit = (s.top t).crit) : Threads (s.goto t x) :=
  ⟨h.sched.flow ht hflow, h.goto_locks hcrit⟩

/-- a point outside handlers to one outside `fork` -/
theorem goes (ht : s.thread c = t) (htop : s.top t = y) (hy : y.isTrap = false) (hx : x.forks = none)
    (hcrit : x.crit = y.crit) : Threads (s.goto t x) :=
  h.flow ht (htop ▸ Pc.flow_of hy hx) (htop ▸ hcrit)

theorem hold_other (l : ℕ) : Threads (s.hold c (.other l)) := by
  refine ⟨h.sched.congr rfl rfl rfl rfl, fun c' => ?_, h.hold_ncli⟩
  have hne : Lock.ptable ≠ .other l := Lock.noConfusion
  rw [hold_holder_of_ne s c hne]
  exact h.locks.lock c'

theorem drop_other {l : ℕ} (hheld : s.holder (.other l) = some c) : Threads (s.drop c (.other l)) := by
  refine ⟨h.sched.congr rfl rfl rfl rfl, fun c' => ?_, h.drop_ncli hheld⟩
  have hne : Lock.ptable ≠ .other l := Lock.noConfusion
  rw [drop_holder_of_ne s c hne]
  exact h.locks.lock c'

theorem enter (hx : (s.top (s.thread c)).enter = some x) (hfree : s.holder .ptable = none) :
    Threads ((s.hold c .ptable).goto (s.thread c) x) := by
  have hs : Sched (s.hold c .ptable) := h.sched.congr rfl rfl rfl rfl
  refine ⟨hs.flow (c := c) rfl (Pc.enter_flow hx), fun c' => ?_, by simpa using h.hold_ncli⟩
  rw [goto_holder, goto_thread, hold_thread, hold_holder_self, Option.some.injEq]
  by_cases hc : c' = c
  · rw [hc, top_goto_self]
    exact iff_of_true rfl (Pc.enter_crit hx).2
  · have hne : s.thread c' ≠ s.thread c := fun heq => hc (h.thread_inj heq)
    have hout := (h.locks.lock c').not.1 (by rw [hfree]; nofun)
    rw [top_goto_of_ne _ _ hne, hold_top]
    exact iff_of_false (Ne.symm hc) hout

theorem leave (hx : (s.top (s.thread c)).leave = some x) (hheld : s.holder .ptable = some c) :
    Threads ((s.drop c .ptable).goto (s.thread c) x) := by
  have hs : Sched (s.drop c .ptable) := h.sched.congr rfl rfl rfl rfl
  refine ⟨hs.flow (c := c) rfl (Pc.leave_flow hx), fun c' => ?_, by simpa using h.drop_ncli hheld⟩
  rw [goto_holder, goto_thread, drop_thread, drop_holder_self]
  refine iff_of_false nofun ?_
  by_cases hc : c' = c
  · rw [hc, top_goto_self, (Pc.leave_crit hx).2]
    exact Bool.false_ne_true
  · have hne : s.thread c' ≠ s.thread c := fun heq => hc (h.thread_inj heq)
    rw [top_goto_of_ne _ _ hne, drop_top, ← h.locks.lock c', hheld]
    exact fun heq => hc (Option.some.inj heq).symm

/-- the lock is handed to the scheduler -/
theorem park {f : Slot n → Slot n} (hcur : s.cur c = some p) (hcrit : (s.top (.proc p)).crit = true)
    (hs : Sched ((s.modify p f).swtch c none)) : Threads ((s.modify p f).swtch c none) := by
  refine ⟨hs, fun c' => ?_, h.locks.ncli⟩
  rw [← thread_of_cur hcur] at hcrit
  have hheld := (h.locks.lock c).2 hcrit
  by_cases hc : c' = c
  · have hthread : ((s.modify p f).swtch c none).thread c = .sched c := thread_of_none (update_self ..)
    rw [hc, hthread, swtch_top, modify_top, h.sched.ran c p hcur]
    exact iff_of_true hheld rfl
  · have hthread : ((s.modify p f).swtch c none).thread c' = s.thread c' := by
      simp [St.thread, St.swtch, St.modify, hc]
    rw [hthread]
    exact h.locks.lock c'

/-- the lock is handed to a process -/
theorem dispatch {f : Slot n → Slot n} (hcur : s.cur c = none) (htop : s.top (.sched c) = .ran p)
    (hstate : (s.slot p).state = .RUNNABLE) (hnew : (f (s.slot p)).state = .RUNNING) :
    Threads ((s.modify p f).swtch c (some p)) := by
  refine ⟨h.sched.dispatch hcur htop hstate hnew, fun c' => ?_, h.locks.ncli⟩
  have hheld := (h.locks.lock c).2 (by rw [thread_of_none hcur, htop]; rfl)
  by_cases hc : c' = c
  · have hthread : ((s.modify p f).swtch c (some p)).thread c = .proc p := thread_of_cur (update_self ..)
    have hp := h.sched.parked p
    rw [Parked, hstate] at hp
    rw [hc, hthread]
    exact iff_of_true hheld (Pc.crit_of_resumes hp)
  · have hthread : ((s.modify p f).swtch c (some p)).thread c' = s.thread c' := by
      simp [St.thread, St.swtch, St.modify, hc]
    rw [hthread]
    exact h.locks.lock c'

/-- a slot that no thread executes starts anew -/
theorem reset {np : Fin n} (hrun : (s.slot np).state ≠ .RUNNING)
    (hpc : u.pc = update s.pc (.proc np) x) (htrap : u.trap = s.trap) (hcur : u.cur = s.cur)
    (hholder : u.holder = s.holder) (hncli : u.ncli = s.ncli) (hs : Sched u) : Threads u := by
  refine ⟨hs, h.locks.congr (by funext c; rw [St.thread, St.thread, hcur]) hholder hncli fun c => ?_⟩
  rw [St.top, St.top, htrap, hpc, update_of_ne]
  intro heq
  exact hrun (h.sched.running_of_cur (cur_of_thread heq))

theorem setTrap {o : Option (Pc n)} (ho : ∀ x, o = some x → x.isTrap = true ∧ (s.pc (s.thread c)).crit = false)
    (hcrit : (o.getD (s.pc (s.thread c))).crit = (s.top (s.thread c)).crit) :
    Threads { s with trap := update s.trap (s.thread c) o } := by
  refine ⟨h.sched.setTrap ho, h.locks.congr rfl rfl rfl fun c' => ?_⟩
  by_cases hc : s.thread c' = s.thread c
  · rw [hc, top_trap_self, hcrit]
  · rw [top_trap_of_ne _ _ hc]

theorem interrupt (htrap : s.trap (s.thread c) = none) (hncli : s.ncli c = 0) :
    Threads { s with trap := update s.trap (s.thread c) (some .handler) } := by
  have hout : (s.top (s.thread c)).crit = false :=
    Bool.eq_false_iff.2 ((h.locks.lock c).not.1 (h.unlocked hncli .ptable))
  have hpc : s.top (s.thread c) = s.pc (s.thread c) := by rw [St.top, htrap, Option.getD_none]
  refine h.setTrap (fun x hx => ?_) hout.symm
  rw [← Option.some.inj hx, ← hpc]
  exact ⟨rfl, hout⟩

theorem iret (hhandler : s.top (s.thread c) = .handler) : Threads { s with trap := update s.trap (s.thread c) none } := by
  refine h.setTrap nofun ?_
  rw [hhandler, Option.getD_none]
  exact h.sched.under hhandler

omit [DecidableEq C] in
theorem modify {f : Slot n → Slot n} (hs : Sched (s.modify p f)) : Threads (s.modify p f) := h.of_slots hs

omit [DecidableEq C] in
/-- a process changes its own slot, but not its state -/
theorem modify_running {f : Slot n → Slot n} (hcur : s.cur c = some p)
    (hstate : (f (s.slot p)).state = (s.slot p).state) : Threads (s.modify p f) :=
  h.modify (h.sched.modify_running hcur hstate)

omit [DecidableEq C] in
theorem setParent (q : Fin n) (o : Option (Fin n)) : Threads (s.modify q fun x => { x with parent := o }) :=
  h.modify (h.sched.modify_same rfl fun _ => rfl)

omit [DecidableEq C] in
theorem wakeup1 (chan : Chan n) : Threads (s.wakeup1 chan) := h.of_slots (h.sched.wakeup1 chan)

/-- a process changes its state and calls `sched()` -/
theorem switch {f : Slot n → Slot n} (hcur : s.cur c = some p) (htop : s.top (.proc p) = y)
    (hflow : y.Flow x) (hy : y.crit = true) (hx : x.crit = true) (hstate : (f (s.slot p)).state ≠ .RUNNING)
    (hpark : Parked p (f (s.slot p)) x) (hclear : (f (s.slot p)).state = .RUNNABLE ∨ y.isTrap = false) :
    Threads (((s.modify p f).goto (.proc p) x).swtch c none) := by
  rw [goto_modify]
  have h' := h.flow (thread_of_cur hcur) (htop ▸ hflow) (hx.trans (htop ▸ hy).symm)
  have hcur' : (s.goto (.proc p) x).cur c = some p := by rw [goto_cur, hcur]
  refine h'.park hcur' (by rw [top_goto_self, hx]) (h'.sched.park hcur' ?_ ?_ ?_)
  · rw [goto_slot]
    exact hstate
  · rw [goto_slot, top_goto_self]
    exact hpark
  · rw [goto_slot, trap_goto_none]
    exact hclear.imp_right fun hy => h.sched.own (htop ▸ hy)

/-- `allocproc` takes an UNUSED slot -/
theorem take {np : Fin n} (hcur : s.cur c = some p) (htop : s.top (.proc p) = .alloc)
    (hunused : (s.slot np).state = .UNUSED) : Threads ((s.embryo np).goto (.proc p) (.allocated np)) := by
  have hrun : (s.slot np).state ≠ .RUNNING := by rw [hunused]; exact ProcState.noConfusion
  have hrunnable : (s.slot np).state ≠ .RUNNABLE := by rw [hunused]; exact ProcState.noConfusion
  have hno : ∀ t, (s.pc t).forks ≠ some np := by
    intro t ht
    have := h.sched.embryo t np ht
    rw [hunused] at this
    cases this
  have hs : Sched (s.embryo np) :=
    h.sched.reset (x := .forkret) (y := { s.slot np with state := .EMBRYO, pid := s.nextpid }) hrun hrunnable
      ProcState.noConfusion rfl rfl (fun t ht => (hno t ht).elim) rfl rfl rfl rfl
  have h' : Threads (s.embryo np) := h.reset hrun rfl rfl rfl rfl rfl hs
  have hne : Thread.proc p ≠ Thread.proc (C := C) np := by
    intro heq
    exact hrun (Thread.proc.inj heq ▸ h.sched.running_of_cur hcur)
  have htop' : (s.embryo np).top (.proc p) = .alloc := by
    rw [← htop, St.top, St.top]
    exact congrArg _ (update_of_ne hne ..)
  have hnew : ((s.embryo np).slot np).state = .EMBRYO := by
    rw [St.embryo, modify_slot_self]
  refine ⟨hs.goto (thread_of_cur hcur) (by simp [htop', Pc.isTrap]) fun np' hnp' => ?_, h'.goto_locks (by rw [htop']; rfl)⟩
  cases hnp'
  refine ⟨hnew, fun t ht => ?_⟩
  simp only [St.embryo, update_apply] at ht
  split_ifs at ht
  · cases ht
  · exact (hno t ht).elim

/-- `fork` gives its slot up -/
theorem abort {np : Fin n} (hcur : s.cur c = some p) (hforks : (s.top (.proc p)).forks = some np)
    (hcrit : (s.top (.proc p)).crit = false) : Threads ((s.abort np).goto (.proc p) .code) := by
  have hembryo := h.sched.embryo _ np (h.sched.pc_of_forks hforks)
  have hrun : (s.slot np).state ≠ .RUNNING := by rw [hembryo]; exact ProcState.noConfusion
  have hrunnable : (s.slot np).state ≠ .RUNNABLE := by rw [hembryo]; exact ProcState.noConfusion
  have hne : Thread.proc p ≠ Thread.proc (C := C) np := by
    intro heq
    exact hrun (Thread.proc.inj heq ▸ h.sched.running_of_cur hcur)
  have hflow : (s.top (.proc p)).Flow .code := Pc.flow_of (Pc.isTrap_of_forks hforks) rfl
  have h' := h.flow (thread_of_cur hcur) hflow hcrit.symm
  rw [goto_abort _ _ _ hne]
  refine h'.reset (by rw [goto_slot]; exact hrun) rfl rfl rfl rfl rfl ?_
  exact h'.sched.reset (x := .dead) (y := { (s.goto (.proc p) .code).slot np with state := .UNUSED })
    (by rw [goto_slot]; exact hrun) (by rw [goto_slot]; exact hrunnable) ProcState.noConfusion rfl rfl
    (fun t ht => (h.sched.unforked hforks rfl t ht).elim) rfl rfl rfl rfl

/-- `fork` makes its slot RUNNABLE -/
theorem start {np : Fin n} (hcur : s.cur c = some p) (htop : s.top (.proc p) = .start np) :
    Threads ((s.modify np fun x => { x with state := .RUNNABLE }).goto (.proc p) .code) := by
  have hforks : (s.top (.proc p)).forks = some np := by rw [htop]; rfl
  have hembryo := h.sched.embryo _ np (h.sched.pc_of_forks hforks)
  have h' := h.flow (x := .code) (thread_of_cur hcur) (by rw [htop]; exact Pc.flow_of rfl rfl) (by rw [htop]; rfl)
  rw [goto_modify]
  refine h'.modify (h'.sched.modify ?_ ?_ (fun _ hne => (hne rfl).elim) fun t ht => (h.sched.unforked hforks rfl t ht).elim)
  · rw [goto_slot, hembryo]
    exact iff_of_false ProcState.noConfusion ProcState.noConfusion
  · have hp := h'.sched.parked np
    rw [Parked, goto_slot, hembryo] at hp
    simp only at hp
    rw [hp]
    exact rfl

omit [DecidableEq C] in
/-- `wait` frees the slot of a ZOMBIE -/
theorem reap {q : Fin n} (hstate : (s.slot q).state = .ZOMBIE) : Threads (s.reap p q) := by
  have hp := h.sched.parked q
  rw [Parked, hstate] at hp
  have h' : Threads (s.modify q fun x => { x with pid := 0, parent := none, killed := false, state := .UNUSED }) := by
    refine h.modify (h.sched.modify ?_ hp (fun _ _ => ?_) fun t ht => ?_)
    · rw [hstate]
      exact iff_of_false ProcState.noConfusion ProcState.noConfusion
    · apply h.sched.clear q <;> rw [hstate] <;> exact ProcState.noConfusion
    · have := h.sched.embryo t q ht
      rw [hstate] at this
      cases this
  exact ⟨h'.sched.congr rfl rfl rfl rfl, h'.locks.congr rfl rfl rfl fun _ => rfl⟩

end

/-- a call of `proc.c` starts outside critical sections -/
theorem mayCall_crit (hcall : s.mayCall initproc c p x = true) : x.crit = false ∧ x.forks = none := by
  unfold St.mayCall at hcall
  split at hcall <;> first | exact ⟨rfl, rfl⟩ | cases hcall

theorem call (h : Threads s) (hcur : s.cur c = some p) (htop : s.top (.proc p) = .code)
    (hcall : s.mayCall initproc c p x = true) : Threads (s.goto (.proc p) x) :=
  h.goes (thread_of_cur hcur) htop rfl (mayCall_crit hcall).2 (mayCall_crit hcall).1

/-! ## Runs -/

/-- **Threads and locks.** Every step keeps the invariant. -/
theorem step (h : Threads s) (hstep : Step initproc s a u) : Threads u := by
  cases hstep with
  | call hcur htop hcall => exact h.call hcur htop hcall
  | enter hx hfree => exact h.enter hx hfree
  | leave hx hheld => exact h.leave hx hheld
  | letGo hcur htop hheld => exact (h.drop_other hheld).goes (thread_of_cur hcur) htop rfl rfl rfl
  | toSleep hcur htop =>
    exact h.switch hcur htop (Pc.flow_of rfl rfl) rfl rfl ProcState.noConfusion ⟨_, rfl, .inl ⟨_, rfl⟩⟩ (.inr rfl)
  | asleep hcur htop | waitAsleep hcur htop => exact (h.modify_running hcur rfl).goes (thread_of_cur hcur) htop rfl rfl rfl
  | reacquire hcur htop => exact (h.hold_other _).goes (thread_of_cur hcur) htop rfl rfl rfl
  | slept hcur htop | killNone hcur htop | full hcur htop | exitOrphan hcur htop | passOther hcur htop | waitFail hcur htop =>
    exact h.goes (thread_of_cur hcur) htop rfl rfl rfl
  | wake htop => exact (h.wakeup1 _).flow rfl (Pc.wake_flow htop) (congrArg Pc.crit htop).symm
  | kill hcur htop => exact (h.modify (h.sched.kill _)).goes (thread_of_cur hcur) htop rfl rfl rfl
  | take hcur htop hunused => exact h.take hcur htop hunused
  | kstack hcur htop | copyuvm hcur htop => exact h.flow (thread_of_cur hcur) (htop ▸ ⟨nofun, fun _ => id⟩) (htop ▸ rfl)
  | abort hcur htop => rcases htop with htop | htop <;> exact h.abort hcur (htop ▸ rfl) (htop ▸ rfl)
  | @adopt c p np hcur htop =>
    have h' := h.setParent np (some p)
    exact h'.flow (thread_of_cur hcur) (by rw [modify_top, htop]; exact ⟨nofun, fun _ => id⟩) (by rw [modify_top, htop]; rfl)
  | start hcur htop => exact h.start hcur htop
  | exit1 hcur htop => exact (h.wakeup1 _).goes (thread_of_cur hcur) htop rfl rfl rfl
  | passChild hcur htop => exact (h.setParent _ _).goes (thread_of_cur hcur) htop rfl rfl rfl
  | passZombie hcur htop =>
    apply Threads.wakeup1
    exact (h.setParent _ _).goes (thread_of_cur hcur) htop rfl rfl rfl
  | zombie hcur htop =>
    exact h.switch hcur htop (Pc.flow_of rfl rfl) rfl rfl ProcState.noConfusion rfl (.inr rfl)
  | reap hcur htop hparent hstate => exact (h.reap hstate).goes (thread_of_cur hcur) htop rfl rfl rfl
  | waitSleep hcur htop =>
    exact h.switch hcur htop (Pc.flow_of rfl rfl) rfl rfl ProcState.noConfusion ⟨_, rfl, .inr ⟨rfl, rfl⟩⟩ (.inr rfl)
  | giveUp hcur htop =>
    exact h.switch hcur htop ⟨fun _ => rfl, nofun⟩ rfl rfl ProcState.noConfusion rfl (.inl rfl)
  | @scanRun c p hcur htop hstate =>
    have h' := h.goes (thread_of_none hcur) htop rfl (x := .ran p) rfl rfl
    rw [goto_modify]
    exact h'.dispatch (by rw [goto_cur, hcur]) (top_goto_self ..) (by rw [goto_slot, hstate]) rfl
  | scanSkip hcur htop | scanEnd hcur htop => exact h.goes (thread_of_none hcur) htop rfl rfl rfl
  | ran hcur htop => exact h.goes (thread_of_none hcur) htop rfl rfl rfl
  | fault hcur => exact h.modify_running hcur rfl
  | acquire => exact h.hold_other _
  | release _ hheld => exact h.drop_other hheld
  | interrupt htrap hncli => exact h.interrupt htrap hncli
  | handle htop => exact h.flow rfl (htop ▸ ⟨fun _ => rfl, nofun⟩) (htop ▸ rfl)
  | iret htop => exact h.iret htop
  | tick hcur htop => exact h.flow (thread_of_cur hcur) (htop ▸ ⟨fun _ => rfl, nofun⟩) (htop ▸ rfl)

omit [DecidableEq C] in
theorem init (h0 : Init initproc s) : Threads s := by
  obtain ⟨hinit, hunused, -, hholder, hncli, hcur, hforkret, hdead, hidle, htrap, -, -⟩ := h0
  have htop : ∀ t, s.top t = s.pc t := fun t => by rw [St.top, htrap, Option.getD_none]
  have hno : ∀ t np, (s.pc t).forks ≠ some np := by
    intro t np
    cases t with
    | proc p =>
      by_cases hp : p = initproc
      · rw [hp, hforkret]
        simp [Pc.forks]
      · rw [hdead p hp]
        simp [Pc.forks]
    | sched c =>
      rw [hidle]
      simp [Pc.forks]
  refine ⟨⟨?_, ?_, fun p => ?_, fun p => ?_, ?_, fun p _ _ => htrap _, fun t np ht => (hno t np ht).elim,
    fun t _ np ht => (hno t np ht).elim⟩, fun c => ?_, fun c S hS => ?_⟩
  · intro c c' p hc
    rw [hcur] at hc
    cases hc
  · intro c p hc
    rw [hcur] at hc
    cases hc
  · refine iff_of_false ?_ (by simp [hcur])
    by_cases hp : p = initproc
    · rw [hp, hinit]
      exact ProcState.noConfusion
    · rw [hunused p hp]
      exact ProcState.noConfusion
  · rw [htop]
    by_cases hp : p = initproc
    · rw [hp, hinit, hforkret]
      exact rfl
    · rw [hunused p hp, hdead p hp]
      exact rfl
  · intro t x hx
    rw [htrap] at hx
    cases hx
  · rw [hholder, thread_of_none (hcur c), htop, hidle]
    exact iff_of_false (by simp) (by simp [Pc.crit])
  · have hS' : S = ∅ := Finset.eq_empty_of_forall_notMem fun l hl => by
      have := hS l hl
      rw [hholder] at this
      cases this
    rw [hS', Finset.card_empty]
    exact Nat.zero_le _

theorem of_reach (h : (machine initproc C).Reach s) : Threads s :=
  h.invariant (I := Threads) (fun _ h0 => init h0) fun _ _ _ hs hstep => hs.step (step_cases hstep)

end

end Threads

/-! ## What a step leaves to the other CPUs -/

/-- the CPU that takes a step -/
def Act.cpu : Act n C → C
  | .call c _ | .move c | .take c _ | .full c | .kalloc c _ | .fault c | .acquire c _ | .release c _ | .interrupt c
  | .handle c _ | .iret c | .tick c => c

section

variable [DecidableEq C]

theorem Step.cur_other (h : Step initproc s a u) (hc : c ≠ a.cpu) : u.cur c = s.cur c := by
  cases h with
  | toSleep | zombie | waitSleep | giveUp | scanRun =>
    apply (update_of_ne hc ..).trans
    rw [goto_cur]
    rfl
  | fault | acquire | release | interrupt | iret => rfl
  | passZombie => exact congrFun (goto_cur ..) c
  | _ =>
    rw [goto_cur]
    try rfl

theorem Step.holder_other (h : Step initproc s a u) (hc : c ≠ a.cpu) (hl : s.holder l = some c) : u.holder l = some c := by
  cases h with
  | enter _ hfree | reacquire _ _ hfree =>
    rw [goto_holder, hold_holder_of_ne, hl]
    rintro rfl
    rw [hfree] at hl
    cases hl
  | leave _ hheld | letGo _ _ hheld =>
    rw [goto_holder, drop_holder_of_ne, hl]
    rintro rfl
    rw [hheld] at hl
    exact hc (Option.some.inj hl).symm
  | acquire _ hfree =>
    rw [hold_holder_of_ne, hl]
    rintro rfl
    rw [hfree] at hl
    cases hl
  | release _ hheld =>
    rw [drop_holder_of_ne, hl]
    rintro rfl
    rw [hheld] at hl
    exact hc (Option.some.inj hl).symm
  | toSleep | zombie | waitSleep | giveUp | scanRun | passZombie => exact (congrFun (goto_holder ..) l).trans hl
  | fault | interrupt | iret => exact hl
  | _ =>
    rw [goto_holder]
    exact hl

theorem embryo_pc : (s.embryo p).pc = update s.pc (.proc p) .forkret := rfl

theorem abort_pc : (s.abort p).pc = update s.pc (.proc p) .dead := rfl

theorem goto_other (h : t' ≠ t) : (s.goto t x).pc t' = s.pc t' ∧ (s.goto t x).trap t' = s.trap t' := by
  unfold St.goto
  split_ifs <;> simp [h]

theorem Step.pc_other (h : Step initproc s a u) (ht : t ≠ s.thread a.cpu) :
    (u.pc t = s.pc t ∨
      ∃ np, t = .proc np ∧ ((s.slot np).state = .UNUSED ∨ (s.top (s.thread a.cpu)).forks = some np) ∧
        (u.pc t = .forkret ∨ u.pc t = .dead)) ∧
    u.trap t = s.trap t := by
  cases h with
  | enter | leave | wake | handle => exact (goto_other ht).imp_left .inl
  | interrupt | iret => exact ⟨.inl rfl, update_of_ne ht ..⟩
  | fault | acquire | release => exact ⟨.inl rfl, rfl⟩
  | scanRun hcur | scanSkip hcur | scanEnd hcur | ran hcur =>
    rw [Act.cpu, thread_of_none hcur] at ht
    exact (goto_other ht).imp_left .inl
  | take hcur htop hunused =>
    rw [Act.cpu, thread_of_cur hcur] at ht
    refine (goto_other ht).imp_left fun hpc => ?_
    rw [hpc, embryo_pc, update_apply]
    split_ifs with hnp
    · exact .inr ⟨_, hnp, .inl hunused, .inl rfl⟩
    · exact .inl rfl
  | abort hcur htop =>
    rw [Act.cpu, thread_of_cur hcur] at ht
    refine (goto_other ht).imp_left fun hpc => ?_
    rw [hpc, abort_pc, update_apply]
    split_ifs with hnp
    · refine .inr ⟨_, hnp, .inr ?_, .inr rfl⟩
      rw [Act.cpu, thread_of_cur hcur]
      rcases htop with htop | htop <;> rw [htop] <;> rfl
    · exact .inl rfl
  | call hcur | letGo hcur | toSleep hcur | asleep hcur | reacquire hcur | slept hcur | kill hcur | killNone hcur
  | full hcur | kstack hcur | copyuvm hcur | adopt hcur | start hcur | exit1 hcur | exitOrphan hcur | passOther hcur
  | passChild hcur | passZombie hcur | zombie hcur | reap hcur | waitFail hcur | waitSleep hcur | waitAsleep hcur
  | giveUp hcur | tick hcur =>
    rw [Act.cpu, thread_of_cur hcur] at ht
    exact (goto_other ht).imp_left .inl

/-- a step moves thread t itself, or only a handler on top of it -/
def Acts (s : St n C) (a : Act n C) (u : St n C) (t : Thread n C) : Prop :=
  s.trap t = none ∧ u.trap t = none ∨ u.pc t = s.pc t ∧ (s.trap t = none → s.ncli a.cpu = 0 ∧ ∀ c, a ≠ .move c)

theorem Step.actor (h : Threads s) (hstep : Step initproc s a u) : Acts s a u (s.thread a.cpu) := by
  -- a goto from a state that agrees with s on the thread
  have hgoto : ∀ {w : St n C} {t : Thread n C} {x : Pc n}, s.thread a.cpu = t → u.pc = (w.goto t x).pc →
      u.trap = (w.goto t x).trap → w.pc t = s.pc t → w.trap t = s.trap t → Acts s a u (s.thread a.cpu) := by
    intro w t x ht hpc htrap hwpc hwtrap
    rw [Acts, ht, hpc, htrap, ← hwpc, ← hwtrap]
    exact (goto_pc_or_trap w x).imp_right fun ⟨hsome, hsame⟩ => ⟨hsame, fun hnone => (hsome hnone).elim⟩
  have hstay : u.pc = s.pc → u.trap = s.trap → Acts s a u (s.thread a.cpu) := by
    intro hpc htrap
    rw [Acts, hpc, htrap]
    by_cases hnone : s.trap (s.thread a.cpu) = none
    · exact .inl ⟨hnone, hnone⟩
    · exact .inr ⟨rfl, fun hs => (hnone hs).elim⟩
  cases hstep with
  | enter | leave | wake | handle => exact hgoto rfl rfl rfl rfl rfl
  | interrupt _ hncli => exact .inr ⟨rfl, fun _ => ⟨hncli, nofun⟩⟩
  | @iret c htop =>
    by_cases hnone : s.trap (s.thread c) = none
    · exact .inl ⟨hnone, update_self (f := s.trap) ..⟩
    · exact .inr ⟨rfl, fun hs => (hnone hs).elim⟩
  | fault | acquire | release => exact hstay rfl rfl
  | scanRun hcur | scanSkip hcur | scanEnd hcur | ran hcur => exact hgoto (thread_of_none hcur) rfl rfl rfl rfl
  | call hcur | letGo hcur | toSleep hcur | asleep hcur | reacquire hcur | slept hcur | kill hcur | killNone hcur
  | full hcur | kstack hcur | copyuvm hcur | adopt hcur | start hcur | exit1 hcur | exitOrphan hcur | passOther hcur
  | passChild hcur | passZombie hcur | zombie hcur | reap hcur | waitFail hcur | waitSleep hcur | waitAsleep hcur
  | giveUp hcur | tick hcur => exact hgoto (thread_of_cur hcur) rfl rfl rfl rfl
  | take hcur htop =>
    -- `allocproc` and the failures of `fork` do not run in handlers
    have hown : s.trap (.proc _) = none := h.sched.own (by rw [htop]; rfl)
    rw [Act.cpu, thread_of_cur hcur]
    exact .inl ⟨hown, (trap_goto_none ..).2 hown⟩
  | abort hcur htop =>
    have hown : s.trap (.proc _) = none := h.sched.own (by rcases htop with htop | htop <;> rw [htop] <;> rfl)
    rw [Act.cpu, thread_of_cur hcur]
    exact .inl ⟨hown, (trap_goto_none ..).2 hown⟩

end

end Xv6.Proc
