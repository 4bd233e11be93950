/-
Threads that are switched out, and where they stand.

`Sched` is what the scheduler rests on: a process runs on at most one CPU, a thread that is switched out stands where it
can resume, handlers start outside critical sections, and a new slot is EMBRYO until the `fork` that took it is done.
The lemmas say which changes of a state keep it: a thread on a CPU goes on (`Sched.goto`), slots of the table change
(`Sched.slots`), a process gives up its CPU (`Sched.park`), a scheduler switches to one (`Sched.dispatch`), a slot
starts anew (`Sched.reset`), a handler starts or returns (`Sched.setTrap`).
-/
import Xv6.Proc.Model

namespace Xv6.Proc

open Function

variable {n : ℕ} {C : Type} {initproc : Fin n} {s u : St n C} {a : Act n C} {c c' : C} {p q : Fin n} {x y : Pc n}
  {t t' : Thread n C} {l : Lock}

/-! ## The parts of a state after an update -/

section

variable (s t x c l p)

@[simp] theorem modify_slot_self (f : Slot n → Slot n) : (s.modify p f).slot p = f (s.slot p) := update_self ..

@[simp] theorem modify_slot_of_ne (f : Slot n → Slot n) (h : q ≠ p) : (s.modify p f).slot q = s.slot q :=
  update_of_ne h ..

@[simp] theorem modify_top (f : Slot n → Slot n) : (s.modify p f).top = s.top := rfl

@[simp] theorem modify_trap (f : Slot n → Slot n) : (s.modify p f).trap = s.trap := rfl

variable [DecidableEq C]

@[simp] theorem goto_slot : (s.goto t x).slot = s.slot := by unfold St.goto; split_ifs <;> rfl

@[simp] theorem goto_holder : (s.goto t x).holder = s.holder := by unfold St.goto; split_ifs <;> rfl

@[simp] theorem goto_ncli : (s.goto t x).ncli = s.ncli := by unfold St.goto; split_ifs <;> rfl

@[simp] theorem goto_cur : (s.goto t x).cur = s.cur := by unfold St.goto; split_ifs <;> rfl

@[simp] theorem goto_nextpid : (s.goto t x).nextpid = s.nextpid := by unfold St.goto; split_ifs <;> rfl

@[simp] theorem goto_created : (s.goto t x).created = s.created := by unfold St.goto; split_ifs <;> rfl

@[simp] theorem goto_reaped : (s.goto t x).reaped = s.reaped := by unfold St.goto; split_ifs <;> rfl

@[simp] theorem goto_thread : (s.goto t x).thread = s.thread := by
  funext c
  rw [St.thread, goto_cur]
  rfl

@[simp] theorem top_goto_self : (s.goto t x).top t = x := by
  unfold St.goto
  split_ifs with ht
  · simp [St.top]
  · rw [Option.isSome_iff_ne_none, not_not] at ht
    simp [St.top, ht]

variable {t}

theorem goto_of_some (h : s.trap t = some y) :
    (s.goto t x).pc = s.pc ∧ (s.goto t x).trap = update s.trap t (some x) := by
  simp [St.goto, h]

theorem goto_of_none (h : s.trap t = none) :
    (s.goto t x).pc = update s.pc t x ∧ (s.goto t x).trap = s.trap := by
  simp [St.goto, h]

/-- goto moves the thread itself, or the handler on top of it -/
theorem goto_pc_or_trap : s.trap t = none ∧ (s.goto t x).trap t = none ∨ s.trap t ≠ none ∧ (s.goto t x).pc t = s.pc t := by
  cases hs : s.trap t with
  | none => exact .inl ⟨rfl, by rw [(goto_of_none s x hs).2, hs]⟩
  | some z => exact .inr ⟨nofun, congrFun (goto_of_some s x hs).1 t⟩

@[simp] theorem top_goto_of_ne (h : t' ≠ t) : (s.goto t x).top t' = s.top t' := by
  unfold St.goto
  split_ifs <;> simp [St.top, h]

theorem trap_goto_none : (s.goto t x).trap t' = none ↔ s.trap t' = none := by
  unfold St.goto
  split_ifs with ht
  · by_cases h : t' = t
    · rw [h]
      simpa [Option.isSome_iff_ne_none] using ht
    · simp [h]
  · rfl

@[simp] theorem hold_holder_self : (s.hold c l).holder l = some c := update_self (f := s.holder) ..

@[simp] theorem drop_holder_self : (s.drop c l).holder l = none := update_self (f := s.holder) ..

variable {l} in
@[simp] theorem hold_holder_of_ne {l' : Lock} (h : l' ≠ l) : (s.hold c l).holder l' = s.holder l' :=
  update_of_ne (f := s.holder) h ..

variable {l} in
@[simp] theorem drop_holder_of_ne {l' : Lock} (h : l' ≠ l) : (s.drop c l).holder l' = s.holder l' :=
  update_of_ne (f := s.holder) h ..

@[simp] theorem hold_top : (s.hold c l).top = s.top := rfl

@[simp] theorem drop_top : (s.drop c l).top = s.top := rfl

@[simp] theorem hold_thread : (s.hold c l).thread = s.thread := rfl

@[simp] theorem drop_thread : (s.drop c l).thread = s.thread := rfl

@[simp] theorem swtch_slot (o : Option (Fin n)) : (s.swtch c o).slot = s.slot := rfl

@[simp] theorem swtch_top (o : Option (Fin n)) : (s.swtch c o).top = s.top := rfl

@[simp] theorem swtch_trap (o : Option (Fin n)) : (s.swtch c o).trap = s.trap := rfl

theorem goto_abort (h : t ≠ .proc p) : (s.abort p).goto t x = (s.goto t x).abort p := by
  unfold St.goto St.abort St.modify
  split_ifs
  · rfl
  · simp only [update_comm h]

theorem top_trap_self (o : Option (Pc n)) : St.top { s with trap := update s.trap t o } t = o.getD (s.pc t) := by
  simp [St.top]

theorem top_trap_of_ne (o : Option (Pc n)) (h : t' ≠ t) :
    St.top { s with trap := update s.trap t o } t' = s.top t' := by
  simp [St.top, h]

theorem goto_modify (f : Slot n → Slot n) : (s.modify p f).goto t x = (s.goto t x).modify p f := by
  unfold St.goto St.modify
  split_ifs <;> rfl

end

/-! ## Points of the code -/

/-- holds ptable.lock while it is executed -/
def Pc.crit : Pc n → Bool
  | .letGo _ _ | .toSleep _ _ | .asleep _ _ | .tidy _ => true
  | .wakeup _ .wake _ | .wakeup _ .release _ => true
  | .kill1 _ | .killDone _ | .alloc | .allocFail | .allocated _ => true
  | .exit1 | .pass _ | .dead | .scanKids | .waitAsleep | .waitDone => true
  | .forkret | .giveUp | .yielded | .scan _ | .scanned | .ran _ => true
  | _ => false

/-- the points of an interrupt handler -/
def Pc.isTrap : Pc n → Bool
  | .handler | .wakeup _ _ true | .yield | .giveUp | .yielded => true
  | _ => false

/-- the points at which a RUNNABLE process is switched out -/
def Pc.resumes : Pc n → Bool
  | .asleep _ _ | .waitAsleep | .forkret | .yielded => true
  | _ => false

/-- the slot a `fork` is filling -/
def Pc.forks : Pc n → Option (Fin n)
  | .allocated np | .kstack np | .copyuvm np | .adopt np | .start np => some np
  | _ => none

theorem Pc.crit_of_resumes (h : x.resumes = true) : x.crit = true := by
  cases x <;> first | rfl | cases h

theorem Pc.enter_crit (h : x.enter = some y) : x.crit = false ∧ y.crit = true := by
  cases x with
  | wakeup chan k b => cases k <;> cases h; exact ⟨rfl, rfl⟩
  | sleep | kill | fork | exit | wait | yield | idle => cases h; exact ⟨rfl, rfl⟩
  | _ => cases h

theorem Pc.leave_crit (h : x.leave = some y) : x.crit = true ∧ y.crit = false := by
  cases x with
  | wakeup chan k b =>
    cases k <;> cases h
    cases b <;> exact ⟨rfl, rfl⟩
  | tidy | killDone | allocFail | allocated | waitDone | forkret | yielded | scanned => cases h; exact ⟨rfl, rfl⟩
  | _ => cases h

/-- a thread may go from x to y: handlers stay handlers, and a `fork` keeps its slot -/
def Pc.Flow (x y : Pc n) : Prop := (x.isTrap = true → y.isTrap = true) ∧ ∀ np, y.forks = some np → x.forks = some np

theorem Pc.flow_of (hx : x.isTrap = false) (hy : y.forks = none) : x.Flow y :=
  ⟨fun h => (Bool.false_ne_true (hx.symm.trans h)).elim, fun _ h => (Option.some_ne_none _ (h.symm.trans hy)).elim⟩

theorem Pc.enter_flow (h : x.enter = some y) : x.Flow y := by
  cases x with
  | wakeup chan k b =>
    cases k <;> cases h
    cases b <;> exact ⟨id, nofun⟩
  | sleep | kill | fork | exit | wait | yield | idle => cases h; exact ⟨id, nofun⟩
  | _ => cases h

theorem Pc.leave_flow (h : x.leave = some y) : x.Flow y := by
  cases x with
  | wakeup chan k b =>
    cases k <;> cases h
    cases b
    · exact ⟨id, nofun⟩
    · exact ⟨fun _ => rfl, nofun⟩
  | allocated np => cases h; exact ⟨id, fun _ => id⟩
  | yielded => cases h; exact ⟨fun _ => rfl, nofun⟩
  | tidy | killDone | allocFail | waitDone | forkret | scanned => cases h; exact ⟨id, nofun⟩
  | _ => cases h

theorem Pc.wake_flow {chan : Chan n} {b : Bool} (h : x = .wakeup chan .wake b) : x.Flow (.wakeup chan .release b) := by
  rw [h]
  cases b <;> exact ⟨id, nofun⟩

/-! ## The invariant -/

theorem Pc.isTrap_of_forks (h : x.forks = some p) : x.isTrap = false := by
  cases x <;> first | rfl | cases h

/-- where a process is that no CPU runs -/
def Parked (p : Fin n) (slot : Slot n) (x : Pc n) : Prop :=
  match slot.state with
  | .RUNNABLE => x.resumes = true
  | .SLEEPING => ∃ chan, slot.chan = some chan ∧ ((∃ l, x = .asleep chan l) ∨ x = .waitAsleep ∧ chan = .proc p)
  | .EMBRYO => x = .forkret
  | .UNUSED | .ZOMBIE => x = .dead
  | .RUNNING => True

structure Sched (s : St n C) : Prop where
  uniq : ∀ c c' p, s.cur c = some p → s.cur c' = some p → c = c'
  ran : ∀ c p, s.cur c = some p → s.top (.sched c) = .ran p
  running : ∀ p, (s.slot p).state = .RUNNING ↔ ∃ c, s.cur c = some p
  parked : ∀ p, Parked p (s.slot p) (s.top (.proc p))
  trapped : ∀ t x, s.trap t = some x → x.isTrap = true ∧ (s.pc t).crit = false
  clear : ∀ p, (s.slot p).state ≠ .RUNNING → (s.slot p).state ≠ .RUNNABLE → s.trap (.proc p) = none
  embryo : ∀ t np, (s.pc t).forks = some np → (s.slot np).state = .EMBRYO
  forker : ∀ t t' np, (s.pc t).forks = some np → (s.pc t').forks = some np → t = t'

/-! ## Threads on CPUs -/

theorem thread_of_cur (h : s.cur c = some p) : s.thread c = .proc p := by rw [St.thread, h]

theorem thread_of_none (h : s.cur c = none) : s.thread c = .sched c := by rw [St.thread, h]

theorem cur_of_thread (h : s.thread c = .proc p) : s.cur c = some p := by
  cases hc : s.cur c with
  | some q =>
    rw [thread_of_cur hc] at h
    exact congrArg some (Thread.proc.inj h)
  | none =>
    rw [thread_of_none hc] at h
    cases h

theorem none_of_thread (h : s.thread c = .sched c') : s.cur c = none ∧ c = c' := by
  cases hc : s.cur c with
  | some q =>
    rw [thread_of_cur hc] at h
    cases h
  | none =>
    rw [thread_of_none hc] at h
    exact ⟨rfl, Thread.sched.inj h⟩

namespace Sched

section

variable (h : Sched s)

include h

theorem thread_inj (heq : s.thread c = s.thread c') : c = c' := by
  cases hc : s.cur c with
  | some p =>
    rw [thread_of_cur hc] at heq
    exact h.uniq c c' p hc (cur_of_thread heq.symm)
  | none =>
    rw [thread_of_none hc] at heq
    exact (none_of_thread heq.symm).2.symm

theorem running_of_cur (hcur : s.cur c = some p) : (s.slot p).state = .RUNNING :=
  (h.running p).2 ⟨c, hcur⟩

/-- a point outside handlers is the thread's own -/
theorem own (hx : (s.top t).isTrap = false) : s.trap t = none := by
  cases htrap : s.trap t with
  | none => rfl
  | some x =>
    rw [St.top, htrap, Option.getD_some, (h.trapped t x htrap).1] at hx
    cases hx

theorem pc_of_top (htop : s.top t = x) (hx : x.isTrap = false) : s.pc t = x := by
  have htrap := h.own (htop ▸ hx)
  rwa [St.top, htrap, Option.getD_none] at htop

/-- a handler runs on top of a point outside critical sections -/
theorem under (hx : s.top t = .handler) : (s.pc t).crit = false := by
  cases htrap : s.trap t with
  | none =>
    rw [St.top, htrap, Option.getD_none] at hx
    rw [hx]
    rfl
  | some x => exact (h.trapped t x htrap).2

/-- a `fork` runs outside handlers -/
theorem pc_of_forks (hx : (s.top t).forks = some p) : (s.pc t).forks = some p := by
  have htrap := h.own (Pc.isTrap_of_forks hx)
  rwa [St.top, htrap] at hx

theorem congr (hslot : u.slot = s.slot) (hpc : u.pc = s.pc) (htrap : u.trap = s.trap)
    (hcur : u.cur = s.cur) : Sched u := by
  cases s
  cases u
  cases hslot
  cases hpc
  cases htrap
  cases hcur
  exact ⟨h.uniq, h.ran, h.running, h.parked, h.trapped, h.clear, h.embryo, h.forker⟩

/-! ## Steps of the invariant -/

section

variable [DecidableEq C]

/-- the thread on a CPU goes to x -/
theorem goto (ht : s.thread c = t) (htrap : (s.top t).isTrap = true → x.isTrap = true)
    (hforks : ∀ np, x.forks = some np → (s.slot np).state = .EMBRYO ∧ ∀ t', (s.pc t').forks = some np → t' = t) :
    Sched (s.goto t x) := by
  have hpc : ∀ t' np, ((s.goto t x).pc t').forks = some np → (s.pc t').forks = some np ∨ t' = t ∧ x.forks = some np := by
    intro t' np hp
    cases hsome : s.trap t with
    | some y =>
      rw [(goto_of_some s x hsome).1] at hp
      exact .inl hp
    | none =>
      rw [(goto_of_none s x hsome).1, update_apply] at hp
      split_ifs at hp with htt
      · exact .inr ⟨htt, hp⟩
      · exact .inl hp
  refine ⟨by simpa using h.uniq, fun c' p hcur => ?_, by simpa using h.running, fun p => ?_, fun t' y hy => ?_,
    fun p => ?_, fun t' np hp => ?_, fun t' t'' np hp hq => ?_⟩
  · rw [goto_cur] at hcur
    rw [top_goto_of_ne, h.ran c' p hcur]
    intro hc'
    obtain ⟨hnone, rfl⟩ := none_of_thread (ht.trans hc'.symm)
    rw [hnone] at hcur
    cases hcur
  · rw [goto_slot]
    by_cases hpt : .proc p = t
    · rw [Parked, h.running_of_cur (cur_of_thread (ht.trans hpt.symm))]
      trivial
    · rw [top_goto_of_ne _ _ hpt]
      exact h.parked p
  · cases hsome : s.trap t with
    | some z =>
      have hold := h.trapped t z hsome
      rw [(goto_of_some s x hsome).2, update_apply] at hy
      rw [(goto_of_some s x hsome).1]
      split_ifs at hy with htt
      · rw [← Option.some.inj hy, htt]
        refine ⟨htrap ?_, hold.2⟩
        rw [St.top, hsome]
        exact hold.1
      · exact h.trapped t' y hy
    | none =>
      rw [(goto_of_none s x hsome).2] at hy
      rw [(goto_of_none s x hsome).1, update_of_ne]
      · exact h.trapped t' y hy
      · rintro rfl
        rw [hsome] at hy
        cases hy
  · rw [goto_slot, trap_goto_none]
    exact h.clear p
  · rw [goto_slot]
    rcases hpc t' np hp with hold | ⟨-, hnew⟩
    · exact h.embryo t' np hold
    · exact (hforks np hnew).1
  · rcases hpc t' np hp with hold | ⟨hpt, hnew⟩ <;> rcases hpc t'' np hq with hold' | ⟨hqt, hnew'⟩
    · exact h.forker t' t'' np hold hold'
    · exact ((hforks np hnew').2 t' hold).trans hqt.symm
    · exact hpt.trans ((hforks np hnew).2 t'' hold').symm
    · exact hpt.trans hqt.symm

theorem flow (ht : s.thread c = t) (hflow : (s.top t).Flow x) : Sched (s.goto t x) := by
  refine h.goto ht hflow.1 fun np hnp => ?_
  have hpc := h.pc_of_forks (hflow.2 np hnp)
  exact ⟨h.embryo t np hpc, fun t' ht' => h.forker t' t np ht' hpc⟩

omit [DecidableEq C] in
/-- the table changes, but not which slots are RUNNING -/
theorem slots {slot : Fin n → Slot n} (hrun : ∀ p, (slot p).state = .RUNNING ↔ (s.slot p).state = .RUNNING)
    (hpark : ∀ p, Parked p (slot p) (s.top (.proc p)))
    (hclear : ∀ p, (slot p).state ≠ .RUNNING → (slot p).state ≠ .RUNNABLE → s.trap (.proc p) = none)
    (hforks : ∀ t np, (s.pc t).forks = some np → (slot np).state = .EMBRYO) : Sched { s with slot } :=
  ⟨h.uniq, h.ran, fun p => (hrun p).trans (h.running p), hpark, h.trapped, hclear, hforks, h.forker⟩

omit [DecidableEq C] in
/-- one slot changes -/
theorem modify {f : Slot n → Slot n} (hrun : (f (s.slot p)).state = .RUNNING ↔ (s.slot p).state = .RUNNING)
    (hpark : Parked p (f (s.slot p)) (s.top (.proc p)))
    (hclear : (f (s.slot p)).state ≠ .RUNNING → (f (s.slot p)).state ≠ .RUNNABLE → s.trap (.proc p) = none)
    (hforks : ∀ t, (s.pc t).forks = some p → (f (s.slot p)).state = .EMBRYO) : Sched (s.modify p f) := by
  refine h.slots (fun q => ?_) (fun q => ?_) (fun q => ?_) fun t np ht => ?_
  · by_cases hq : q = p
    · rw [hq, update_self]
      exact hrun
    · rw [update_of_ne hq]
  · by_cases hq : q = p
    · rw [hq, update_self]
      exact hpark
    · rw [update_of_ne hq]
      exact h.parked q
  · by_cases hq : q = p
    · rw [hq, update_self]
      exact hclear
    · rw [update_of_ne hq]
      exact h.clear q
  · by_cases hq : np = p
    · rw [hq, update_self]
      exact hforks t (hq ▸ ht)
    · rw [update_of_ne hq]
      exact h.embryo t np ht

omit [DecidableEq C] in
/-- a slot keeps its state, and its chan if it is SLEEPING -/
theorem modify_same {f : Slot n → Slot n} (hstate : (f (s.slot p)).state = (s.slot p).state)
    (hchan : (s.slot p).state = .SLEEPING → (f (s.slot p)).chan = (s.slot p).chan) : Sched (s.modify p f) := by
  refine h.modify (by rw [hstate]) ?_ (by rw [hstate]; exact h.clear p) (fun t ht => by rw [hstate]; exact h.embryo t p ht)
  have hp := h.parked p
  unfold Parked at hp ⊢
  rw [hstate]
  split <;> rename_i hst <;> rw [hst] at hp
  · exact hp
  · rw [hchan hst]
    exact hp
  all_goals exact hp

omit [DecidableEq C] in
theorem modify_running {f : Slot n → Slot n} (hcur : s.cur c = some p)
    (hstate : (f (s.slot p)).state = (s.slot p).state) : Sched (s.modify p f) := by
  refine h.modify_same hstate fun hsleep => ?_
  rw [h.running_of_cur hcur] at hsleep
  cases hsleep

omit [DecidableEq C] in
theorem resumes_of_sleeping (hstate : (s.slot p).state = .SLEEPING) : (s.top (.proc p)).resumes = true := by
  have hp := h.parked p
  rw [Parked, hstate] at hp
  obtain ⟨chan, -, ⟨l, hx⟩ | ⟨hx, -⟩⟩ := hp <;> rw [hx] <;> rfl

omit [DecidableEq C] in
/-- a SLEEPING slot becomes RUNNABLE -/
theorem modify_wake {f : Slot n → Slot n} (hsleep : (s.slot p).state = .SLEEPING)
    (hstate : (f (s.slot p)).state = .RUNNABLE) : Sched (s.modify p f) := by
  refine h.modify (by rw [hstate, hsleep]; decide) ?_ (fun _ hne => (hne hstate).elim) fun t ht => ?_
  · rw [Parked, hstate]
    exact h.resumes_of_sleeping hsleep
  · have := h.embryo t p ht
    rw [hsleep] at this
    cases this

omit [DecidableEq C] in
theorem kill (q : Fin n) : Sched (s.modify q Slot.kill) := by
  by_cases hsleep : (s.slot q).state = .SLEEPING
  · exact h.modify_wake hsleep (if_pos hsleep)
  · exact h.modify_same (if_neg hsleep) fun hs => (hsleep hs).elim

omit [DecidableEq C] in
theorem wakeup1 (chan : Chan n) : Sched (s.wakeup1 chan) := by
  have hwake : ∀ p, (s.slot p).wake chan = s.slot p ∨
      (s.slot p).state = .SLEEPING ∧ ((s.slot p).wake chan).state = .RUNNABLE := by
    intro p
    unfold Slot.wake
    split_ifs with hp
    · exact .inr ⟨hp.1, rfl⟩
    · exact .inl rfl
  refine h.slots (fun p => ?_) (fun p => ?_) (fun p => ?_) fun t np ht => ?_
  · rcases hwake p with heq | ⟨hs, hr⟩
    · rw [heq]
    · rw [hs, hr]
      decide
  · rcases hwake p with heq | ⟨hs, hr⟩
    · rw [heq]
      exact h.parked p
    · rw [Parked, hr]
      exact h.resumes_of_sleeping hs
  · rcases hwake p with heq | ⟨hs, hr⟩
    · rw [heq]
      exact h.clear p
    · exact fun _ hne => (hne hr).elim
  · have hold := h.embryo t np ht
    rcases hwake np with heq | ⟨hs, -⟩
    · rw [heq]
      exact hold
    · rw [hs] at hold
      cases hold

/-- a process that has changed its state gives its CPU back to the scheduler -/
theorem park {f : Slot n → Slot n} (hcur : s.cur c = some p) (hstate : (f (s.slot p)).state ≠ .RUNNING)
    (hpark : Parked p (f (s.slot p)) (s.top (.proc p)))
    (hclear : (f (s.slot p)).state = .RUNNABLE ∨ s.trap (.proc p) = none) : Sched ((s.modify p f).swtch c none) := by
  have hrun := h.running_of_cur hcur
  have hcur' : ∀ c' q, ((s.modify p f).swtch c none).cur c' = some q ↔ q ≠ p ∧ s.cur c' = some q := by
    intro c' q
    by_cases hc : c' = c
    · simp only [St.swtch, St.modify, hc, update_self, hcur]
      exact ⟨nofun, fun hq => (hq.1 (Option.some.inj hq.2).symm).elim⟩
    · simp only [St.swtch, St.modify, ne_eq, hc, not_false_eq_true, update_of_ne, iff_and_self]
      rintro hq rfl
      exact hc (h.uniq c' c q hq hcur)
  refine ⟨fun c' c'' q hq hq' => ?_, fun c' q hq => ?_, fun q => ?_, fun q => ?_, h.trapped, fun q => ?_,
    fun t np ht => ?_, h.forker⟩
  · exact h.uniq c' c'' q ((hcur' c' q).1 hq).2 ((hcur' c'' q).1 hq').2
  · exact h.ran c' q ((hcur' c' q).1 hq).2
  · simp only [hcur']
    by_cases hq : q = p
    · simp [hq, hstate]
    · simpa [hq] using h.running q
  · by_cases hq : q = p
    · simpa [hq] using hpark
    · simpa [hq] using h.parked q
  · by_cases hq : q = p
    · intro _ hne
      rcases hclear with hclear | hclear
      · simp [hq, hclear] at hne
      · rw [hq]
        exact hclear
    · simpa [hq] using h.clear q
  · have hold := h.embryo t np ht
    have hne : np ≠ p := by
      rintro rfl
      rw [hrun] at hold
      cases hold
    simpa [hne] using hold

/-- a scheduler switches to a RUNNABLE process -/
theorem dispatch {f : Slot n → Slot n} (hcur : s.cur c = none) (htop : s.top (.sched c) = .ran p)
    (hold : (s.slot p).state = .RUNNABLE) (hnew : (f (s.slot p)).state = .RUNNING) :
    Sched ((s.modify p f).swtch c (some p)) := by
  have hoff : ∀ c', s.cur c' ≠ some p := by
    intro c' hc'
    rw [h.running_of_cur hc'] at hold
    cases hold
  have hcur' : ∀ c' q, ((s.modify p f).swtch c (some p)).cur c' = some q ↔ c' = c ∧ q = p ∨ s.cur c' = some q := by
    intro c' q
    by_cases hc : c' = c
    · simp only [St.swtch, hc, update_self, Option.some.injEq, true_and, hcur, reduceCtorEq, or_false]
      exact eq_comm
    · simp [St.swtch, St.modify, hc]
  refine ⟨fun c' c'' q hq hq' => ?_, fun c' q hq => ?_, fun q => ?_, fun q => ?_, h.trapped, fun q => ?_,
    fun t np ht => ?_, h.forker⟩
  · rcases (hcur' c' q).1 hq with ⟨rfl, rfl⟩ | hold' <;> rcases (hcur' c'' q).1 hq' with ⟨rfl, hqp⟩ | hold''
    · rfl
    · exact (hoff _ hold'').elim
    · rw [hqp] at hold'
      exact (hoff _ hold').elim
    · exact h.uniq c' c'' q hold' hold''
  · rcases (hcur' c' q).1 hq with ⟨rfl, rfl⟩ | hq
    · exact htop
    · exact h.ran c' q hq
  · simp only [hcur']
    by_cases hq : q = p
    · simp [hq, hnew]
    · simpa [hq] using h.running q
  · by_cases hq : q = p
    · simp [hq, Parked, hnew]
    · simpa [hq] using h.parked q
  · by_cases hq : q = p
    · simp [hq, hnew]
    · simpa [hq] using h.clear q
  · have hembryo := h.embryo t np ht
    have hne : np ≠ p := by
      rintro rfl
      rw [hold] at hembryo
      cases hembryo
    simpa [hne] using hembryo

/-- a slot that no thread executes starts anew -/
theorem reset {np : Fin n} {y : Slot n} (hrun : (s.slot np).state ≠ .RUNNING)
    (hrunnable : (s.slot np).state ≠ .RUNNABLE) (hnew : y.state ≠ .RUNNING) (hpark : Parked np y x) (hx : x.forks = none)
    (hforks : ∀ t, (s.pc t).forks = some np → y.state = .EMBRYO) (hslot : u.slot = update s.slot np y)
    (hpc : u.pc = update s.pc (.proc np) x) (htrap : u.trap = s.trap) (hcur : u.cur = s.cur) : Sched u := by
  have hclear := h.clear np hrun hrunnable
  have htop : ∀ t, u.top t = if t = .proc np then x else s.top t := by
    intro t
    rw [St.top, htrap, hpc, update_apply]
    split_ifs with ht
    · rw [ht, hclear]
      rfl
    · rfl
  have hpcs : ∀ t np', (u.pc t).forks = some np' → (s.pc t).forks = some np' := by
    intro t np' ht
    rw [hpc, update_apply] at ht
    split_ifs at ht
    · rw [hx] at ht
      cases ht
    · exact ht
  refine ⟨by rw [hcur]; exact h.uniq, fun c q hq => ?_, fun q => ?_, fun q => ?_, fun t z hz => ?_, fun q => ?_,
    fun t np' ht => ?_, fun t t' np' ht ht' => h.forker t t' np' (hpcs t np' ht) (hpcs t' np' ht')⟩
  · rw [htop, if_neg nofun]
    exact h.ran c q (hcur ▸ hq)
  · rw [hslot, hcur, update_apply]
    split_ifs with hq
    · rw [hq, ← h.running]
      exact iff_of_false hnew hrun
    · exact h.running q
  · rw [htop, hslot, update_apply]
    by_cases hq : q = np
    · rw [if_pos hq, if_pos (congrArg _ hq), hq]
      exact hpark
    · rw [if_neg hq, if_neg fun heq => hq (Thread.proc.inj heq)]
      exact h.parked q
  · rw [htrap] at hz
    rw [hpc, update_of_ne]
    · exact h.trapped t z hz
    · rintro rfl
      rw [hclear] at hz
      cases hz
  · rw [hslot, htrap, update_apply]
    split_ifs with hq
    · rw [hq]
      exact fun _ _ => hclear
    · exact h.clear q
  · have hold := hpcs t np' ht
    rw [hslot, update_apply]
    split_ifs with hq
    · exact hforks t (hq ▸ hold)
    · exact h.embryo t np' hold

/-- the `fork` that leaves np was the only one to fill it -/
theorem unforked (htop : (s.top t).forks = some p) (hx : x.forks = none) (t' : Thread n C) :
    ((s.goto t x).pc t').forks ≠ some p := by
  intro ht'
  have hpc := h.pc_of_forks htop
  have htrap := h.own (Pc.isTrap_of_forks htop)
  rw [(goto_of_none s x htrap).1, update_apply] at ht'
  split_ifs at ht' with htt
  · rw [hx] at ht'
    cases ht'
  · exact htt (h.forker t' t p ht' hpc)

/-- an interrupt handler starts or returns on a CPU -/
theorem setTrap {o : Option (Pc n)} (ho : ∀ x, o = some x → x.isTrap = true ∧ (s.pc (s.thread c)).crit = false) :
    Sched { s with trap := update s.trap (s.thread c) o } := by
  refine ⟨h.uniq, fun c' p hcur => ?_, h.running, fun p => ?_, fun t x hx => ?_, fun p hrun hrunnable => ?_, h.embryo,
    h.forker⟩
  · rw [top_trap_of_ne, h.ran c' p hcur]
    intro heq
    obtain ⟨hnone, rfl⟩ := none_of_thread heq.symm
    exact Option.some_ne_none p (hcur.symm.trans hnone)
  · by_cases hp : .proc p = s.thread c
    · rw [Parked, h.running_of_cur (cur_of_thread hp.symm)]
      trivial
    · rw [top_trap_of_ne _ _ hp]
      exact h.parked p
  · simp only [update_apply] at hx
    split_ifs at hx with ht
    · rw [ht]
      exact ho x hx
    · exact h.trapped t x hx
  · simp only [update_apply]
    split_ifs with hp
    · exact (hrun (h.running_of_cur (cur_of_thread hp.symm))).elim
    · exact h.clear p hrun hrunnable

end

end

end Sched

end Xv6.Proc
