/-
What a step does to one slot of the process table, and to the thread that takes it.

`Edit` lists the changes a step can make to a slot, with the point of the code that makes them; `Hop` lists where a
thread can go, with what the step has done there.
- `Step.edit`, `Step.hop`: there are no others;
- `Step.top_other`: the other threads stay where they are, but for a slot that `fork` takes or gives up.
-/
import Xv6.Proc.Threads

namespace Xv6.Proc

variable {n : ℕ} {C : Type} {initproc : Fin n} {s u : St n C} {a : Act n C} {c : C} {p q : Fin n}

/-- a state that waking a process neither ends nor brings about -/
def ProcState.lasts : ProcState → Bool
  | .SLEEPING | .RUNNABLE => false
  | _ => true

section

variable (x : Slot n) (chan : Chan n)

@[simp] theorem Slot.wake_chan : (x.wake chan).chan = x.chan := by unfold Slot.wake; split_ifs <;> rfl

@[simp] theorem Slot.wake_pid : (x.wake chan).pid = x.pid := by unfold Slot.wake; split_ifs <;> rfl

@[simp] theorem Slot.wake_parent : (x.wake chan).parent = x.parent := by unfold Slot.wake; split_ifs <;> rfl

theorem Slot.wake_sleeping : (x.wake chan).state = .SLEEPING ↔ x.state = .SLEEPING ∧ x.chan ≠ some chan := by
  unfold Slot.wake
  split_ifs with h
  · simp [h.2]
  · simp only [not_and] at h
    exact ⟨fun hs => ⟨hs, h hs⟩, And.left⟩

theorem Slot.wake_state {st : ProcState} (hst : st.lasts = true) : (x.wake chan).state = st ↔ x.state = st := by
  unfold Slot.wake
  split_ifs with h
  · refine iff_of_false ?_ ?_ <;> rintro rfl
    · cases hst
    · rw [h.1] at hst
      cases hst
  · rfl

theorem Slot.kill_state {st : ProcState} (hst : st.lasts = true) : x.kill.state = st ↔ x.state = st := by
  unfold Slot.kill
  split_ifs with h
  · refine iff_of_false ?_ ?_ <;> rintro rfl
    · cases hst
    · rw [h] at hst
      cases hst
  · rfl

theorem Slot.kill_sleeping : x.kill.state ≠ .SLEEPING := by
  unfold Slot.kill
  split_ifs with h
  · exact ProcState.noConfusion
  · exact h

end

/-- the step runs `wakeup1(chan)`, in `wakeup` or in `exit` -/
def Signals (initproc : Fin n) (s : St n C) (a : Act n C) (chan : Chan n) : Prop :=
  ∃ c, a = .move c ∧ ((∃ b, s.top (s.thread c) = .wakeup chan .wake b) ∨
    ∃ p, s.cur c = some p ∧
      ((∃ q, s.top (.proc p) = .exit1 ∧ (s.slot p).parent = some q ∧ chan = .proc q) ∨
        ∃ q : Fin n, s.top (.proc p) = .pass q ∧ (s.slot q).parent = some p ∧ (s.slot q).state = .ZOMBIE ∧
          chan = .proc initproc))

/-- the step runs the loop of `kill(pid)` -/
def Kills (s : St n C) (a : Act n C) (pid : BitVec 32) : Prop :=
  ∃ c p, a = .move c ∧ s.cur c = some p ∧ s.top (.proc p) = .kill1 pid

/-- a step can turn slot q into this -/
inductive Edit (initproc : Fin n) (s : St n C) (a : Act n C) (q : Fin n) : Slot n → Prop where
  | same : Edit initproc s a q (s.slot q)
  /-- `sleep` on a channel other than the slot -/
  | sleep {chan : Chan n} {l : ℕ} (hcur : s.cur a.cpu = some q) (htop : s.top (.proc q) = .toSleep chan l) :
      Edit initproc s a q { s.slot q with chan := some chan, state := .SLEEPING }
  /-- `sleep` in `wait` -/
  | wait (hcur : s.cur a.cpu = some q) (htop : s.top (.proc q) = .scanKids)
      (hnone : ∀ p, (s.slot p).parent = some q → (s.slot p).state ≠ .ZOMBIE) :
      Edit initproc s a q { s.slot q with chan := some (.proc q), state := .SLEEPING }
  /-- after `sched` has returned to `sleep` -/
  | tidy (hcur : s.cur a.cpu = some q) : Edit initproc s a q { s.slot q with chan := none }
  | wake {chan : Chan n} (hsignal : Signals initproc s a chan) : Edit initproc s a q ((s.slot q).wake chan)
  | kill (hkill : Kills s a (s.slot q).pid) : Edit initproc s a q (s.slot q).kill
  | embryo {p : Fin n} (ha : a = .take a.cpu q) (hcur : s.cur a.cpu = some p) (htop : s.top (.proc p) = .alloc)
      (hunused : (s.slot q).state = .UNUSED) : Edit initproc s a q { s.slot q with state := .EMBRYO, pid := s.nextpid }
  | abort {p : Fin n} (hcur : s.cur a.cpu = some p) (htop : s.top (.proc p) = .kstack q ∨ s.top (.proc p) = .copyuvm q) :
      Edit initproc s a q { s.slot q with state := .UNUSED }
  | adopt {p : Fin n} (ha : a = .move a.cpu) (hcur : s.cur a.cpu = some p) (htop : s.top (.proc p) = .adopt q) :
      Edit initproc s a q { s.slot q with parent := some p }
  | start {p : Fin n} (hcur : s.cur a.cpu = some p) (htop : s.top (.proc p) = .start q) :
      Edit initproc s a q { s.slot q with state := .RUNNABLE }
  | pass {p : Fin n} (ha : a = .move a.cpu) (hcur : s.cur a.cpu = some p) (htop : s.top (.proc p) = .pass q)
      (hparent : (s.slot q).parent = some p) : Edit initproc s a q { s.slot q with parent := some initproc }
  | zombie {i : ℕ} (hcur : s.cur a.cpu = some q) (htop : s.top (.proc q) = .pass i) (hi : n ≤ i) :
      Edit initproc s a q { s.slot q with state := .ZOMBIE }
  | reap {p : Fin n} (hcur : s.cur a.cpu = some p) (htop : s.top (.proc p) = .scanKids)
      (hparent : (s.slot q).parent = some p) (hstate : (s.slot q).state = .ZOMBIE) :
      Edit initproc s a q { s.slot q with pid := 0, parent := none, killed := false, state := .UNUSED }
  | giveUp (hcur : s.cur a.cpu = some q) : Edit initproc s a q { s.slot q with state := .RUNNABLE }
  | run (hstate : (s.slot q).state = .RUNNABLE) : Edit initproc s a q { s.slot q with state := .RUNNING }
  | fault (hcur : s.cur a.cpu = some q) (ha : a = .fault a.cpu) : Edit initproc s a q { s.slot q with killed := true }

/-- a step that modifies slot p only -/
theorem Edit.of_modify {f : Slot n → Slot n} (hslot : u.slot = (s.modify p f).slot)
    (h : Edit initproc s a p (f (s.slot p))) (q : Fin n) : Edit initproc s a q (u.slot q) := by
  rw [hslot]
  by_cases hq : q = p
  · rw [hq, modify_slot_self]
    exact h
  · rw [modify_slot_of_ne _ _ _ hq]
    exact .same

section

variable (s p q)

theorem embryo_slot [DecidableEq C] :
    (s.embryo p).slot = (s.modify p fun x => { x with state := .EMBRYO, pid := s.nextpid }).slot := rfl

theorem abort_slot [DecidableEq C] : (s.abort p).slot = (s.modify p fun x => { x with state := .UNUSED }).slot := rfl

theorem reap_slot : (s.reap p q).slot =
    (s.modify q fun x => { x with pid := 0, parent := none, killed := false, state := .UNUSED }).slot := rfl

theorem wakeup1_slot (chan : Chan n) : (s.wakeup1 chan).slot q = (s.slot q).wake chan := rfl

end

/-- **The changes of one slot.** -/
theorem Step.edit [DecidableEq C] (h : Step initproc s a u) (q : Fin n) : Edit initproc s a q (u.slot q) := by
  cases h with
  | toSleep hcur htop => exact .of_modify (by rw [swtch_slot, goto_slot]) (.sleep hcur htop) q
  | asleep hcur | waitAsleep hcur => exact .of_modify (by rw [goto_slot]) (.tidy hcur) q
  | wake htop =>
    rw [goto_slot]
    exact .wake ⟨_, rfl, .inl ⟨_, htop⟩⟩
  | kill hcur htop hpid => exact .of_modify (by rw [goto_slot]) (.kill ⟨_, _, rfl, hcur, hpid ▸ htop⟩) q
  | take hcur htop hunused => exact .of_modify (by rw [goto_slot, embryo_slot]) (.embryo rfl hcur htop hunused) q
  | abort hcur htop => exact .of_modify (by rw [goto_slot, abort_slot]) (.abort hcur htop) q
  | adopt hcur htop => exact .of_modify (by rw [goto_slot]) (.adopt rfl hcur htop) q
  | start hcur htop => exact .of_modify (by rw [goto_slot]) (.start hcur htop) q
  | exit1 hcur htop hparent =>
    rw [goto_slot]
    exact .wake ⟨_, rfl, .inr ⟨_, hcur, .inl ⟨_, htop, hparent, rfl⟩⟩⟩
  | passChild hcur htop hparent => exact .of_modify (by rw [goto_slot]) (.pass rfl hcur htop hparent) q
  | @passZombie c p q' hcur htop hparent hstate =>
    rw [wakeup1_slot, goto_slot]
    by_cases hq : q = q'
    · rw [hq, modify_slot_self, Slot.wake, if_neg]
      · exact .pass rfl hcur htop hparent
      · rw [hstate]
        exact fun h => ProcState.noConfusion h.1
    · rw [modify_slot_of_ne _ _ _ hq]
      exact .wake ⟨_, rfl, .inr ⟨_, hcur, .inr ⟨_, htop, hparent, hstate, rfl⟩⟩⟩
  | zombie hcur htop hi => exact .of_modify (by rw [swtch_slot, goto_slot]) (.zombie hcur htop hi) q
  | reap hcur htop hparent hstate => exact .of_modify (by rw [goto_slot, reap_slot]) (.reap hcur htop hparent hstate) q
  | waitSleep hcur htop hnone => exact .of_modify (by rw [swtch_slot, goto_slot]) (.wait hcur htop hnone) q
  | giveUp hcur => exact .of_modify (by rw [swtch_slot, goto_slot]) (.giveUp hcur) q
  | scanRun _ _ hstate => exact .of_modify (by rw [swtch_slot, goto_slot]) (.run hstate) q
  | fault hcur => exact .of_modify rfl (.fault hcur rfl) q
  | acquire | release | interrupt | iret => exact .same
  | _ =>
    rw [goto_slot]
    exact .same

/-- nobody sleeps on a channel -/
def Woken (s : St n C) (chan : Chan n) : Prop := ∀ q, (s.slot q).state = .SLEEPING → (s.slot q).chan ≠ some chan

theorem woken_wakeup1 (s : St n C) (chan : Chan n) : Woken (s.wakeup1 chan) chan := by
  intro q hsleep
  rw [wakeup1_slot, Slot.wake_chan]
  exact ((Slot.wake_sleeping ..).1 hsleep).2

variable [DecidableEq C]

theorem woken_goto (s : St n C) (t : Thread n C) (x : Pc n) (chan : Chan n) : Woken (s.goto t x) chan ↔ Woken s chan := by
  rw [Woken, goto_slot]
  rfl

/-- a step of a thread can lead from x to y -/
inductive Hop (initproc : Fin n) (s : St n C) (a : Act n C) (u : St n C) : Pc n → Pc n → Prop where
  | stay {x : Pc n} (hx : x = .code ∨ x = .handler) : Hop initproc s a u x x
  | call {p : Fin n} {x : Pc n} (hcur : s.cur a.cpu = some p) (hcall : s.mayCall initproc a.cpu p x = true) :
      Hop initproc s a u .code x
  | sleep {chan : Chan n} {l : ℕ} : Hop initproc s a u (.sleep chan l) (.letGo chan l)
  | letGo {chan : Chan n} {l : ℕ} : Hop initproc s a u (.letGo chan l) (.toSleep chan l)
  | toSleep {chan : Chan n} {l : ℕ} : Hop initproc s a u (.toSleep chan l) (.asleep chan l)
  | asleep {chan : Chan n} {l : ℕ} : Hop initproc s a u (.asleep chan l) (.tidy l)
  | tidy {l : ℕ} : Hop initproc s a u (.tidy l) (.reacquire l)
  | reacquire {l : ℕ} (hheld : u.holder (.other l) = some a.cpu) : Hop initproc s a u (.reacquire l) (.slept l)
  | slept {l : ℕ} : Hop initproc s a u (.slept l) .code
  | wakeup {chan : Chan n} {b : Bool} : Hop initproc s a u (.wakeup chan .acquire b) (.wakeup chan .wake b)
  | wake {chan : Chan n} {b : Bool} (hsignal : Signals initproc s a chan) (hwoken : Woken u chan) :
      Hop initproc s a u (.wakeup chan .wake b) (.wakeup chan .release b)
  | woken {chan : Chan n} : Hop initproc s a u (.wakeup chan .release false) .code
  | wokenTrap {chan : Chan n} : Hop initproc s a u (.wakeup chan .release true) .handler
  | kill {pid : BitVec 32} : Hop initproc s a u (.kill pid) (.kill1 pid)
  | kill1 {pid : BitVec 32} {r : ℤ} : Hop initproc s a u (.kill1 pid) (.killDone r)
  | killDone {r : ℤ} : Hop initproc s a u (.killDone r) .code
  | fork : Hop initproc s a u .fork .alloc
  | take {np : Fin n} : Hop initproc s a u .alloc (.allocated np)
  | full : Hop initproc s a u .alloc .allocFail
  | allocFail : Hop initproc s a u .allocFail .code
  | allocated {np : Fin n} : Hop initproc s a u (.allocated np) (.kstack np)
  | kstack {np : Fin n} : Hop initproc s a u (.kstack np) (.copyuvm np)
  | copyuvm {p np : Fin n} (ha : a = .kalloc a.cpu true) (hcur : s.cur a.cpu = some p) :
      Hop initproc s a u (.copyuvm np) (.adopt np)
  | abort {x : Pc n} {np : Fin n} (hx : x = .kstack np ∨ x = .copyuvm np) : Hop initproc s a u x .code
  | adopt {p np : Fin n} (hcur : s.cur a.cpu = some p) (hparent : (u.slot np).parent = some p) :
      Hop initproc s a u (.adopt np) (.start np)
  | start {np : Fin n} (hslot : (u.slot np).state = .RUNNABLE) : Hop initproc s a u (.start np) .code
  | exit : Hop initproc s a u .exit .exit1
  | exit1 {p : Fin n} (hcur : s.cur a.cpu = some p) (hwoken : ∀ q, (s.slot p).parent = some q → Woken u (.proc q)) :
      Hop initproc s a u .exit1 (.pass 0)
  | pass {p q : Fin n} {i : ℕ} (hi : i = q) (hcur : s.cur a.cpu = some p)
      (hparent : (u.slot q).parent ≠ some p ∨ (u.slot q).parent = some initproc)
      (hwoken : (s.slot q).parent = some p → (s.slot q).state = .ZOMBIE → Woken u (.proc initproc)) :
      Hop initproc s a u (.pass i) (.pass (i + 1))
  | zombie {i : ℕ} (hi : n ≤ i) : Hop initproc s a u (.pass i) .dead
  | wait : Hop initproc s a u .wait .scanKids
  | scanKids : Hop initproc s a u .scanKids .waitDone
  | waitDone : Hop initproc s a u .waitDone .code
  | waitSleep {p : Fin n} (hcur : s.cur a.cpu = some p)
      (hnone : ∀ q, (s.slot q).parent = some p → (s.slot q).state ≠ .ZOMBIE) : Hop initproc s a u .scanKids .waitAsleep
  | waitAsleep : Hop initproc s a u .waitAsleep .scanKids
  | forkret : Hop initproc s a u .forkret .code
  | yield : Hop initproc s a u .yield .giveUp
  | giveUp : Hop initproc s a u .giveUp .yielded
  | yielded : Hop initproc s a u .yielded .handler
  | idle : Hop initproc s a u .idle (.scan 0)
  | run {i : ℕ} {p : Fin n} : Hop initproc s a u (.scan i) (.ran p)
  | scan {i j : ℕ} : Hop initproc s a u (.scan i) (.scan j)
  | ran {p : Fin n} {i : ℕ} : Hop initproc s a u (.ran p) (.scan i)
  | scanEnd {i : ℕ} : Hop initproc s a u (.scan i) .scanned
  | scanned : Hop initproc s a u .scanned .idle
  | interrupt {x : Pc n} (ha : ∀ c, a ≠ .move c) (htrap : u.trap (s.thread a.cpu) ≠ none) : Hop initproc s a u x .handler
  | handle {i : ℕ} : Hop initproc s a u .handler (.wakeup (.other i) .acquire true)
  | iret {y : Pc n} (hy : y = s.pc (s.thread a.cpu)) : Hop initproc s a u .handler y
  | tick : Hop initproc s a u .handler .yield

/-- the acting thread's own goto -/
theorem Hop.of_goto {w : St n C} {t : Thread n C} {x y : Pc n} (ht : s.thread a.cpu = t) (hx : s.top t = x)
    (hu : u.top = (w.goto t y).top) (h : Hop initproc s a u x y) :
    Hop initproc s a u (s.top (s.thread a.cpu)) (u.top (s.thread a.cpu)) := by
  rw [hu, ht, top_goto_self, hx]
  exact h

theorem Hop.of_enter {x y : Pc n} (h : x.enter = some y) : Hop initproc s a u x y := by
  cases x with
  | sleep => cases h; exact .sleep
  | wakeup chan k b => cases k <;> cases h; exact .wakeup
  | kill => cases h; exact .kill
  | fork => cases h; exact .fork
  | exit => cases h; exact .exit
  | wait => cases h; exact .wait
  | yield => cases h; exact .yield
  | idle => cases h; exact .idle
  | _ => cases h

theorem Hop.of_leave {x y : Pc n} (h : x.leave = some y) : Hop initproc s a u x y := by
  cases x with
  | tidy => cases h; exact .tidy
  | wakeup chan k b =>
    cases k <;> cases b <;> cases h
    · exact .woken
    · exact .wokenTrap
  | killDone => cases h; exact .killDone
  | allocFail => cases h; exact .allocFail
  | allocated => cases h; exact .allocated
  | waitDone => cases h; exact .waitDone
  | forkret => cases h; exact .forkret
  | yielded => cases h; exact .yielded
  | scanned => cases h; exact .scanned
  | _ => cases h

/-- **The moves of a thread.** -/
theorem Step.hop (h : Step initproc s a u) :
    Hop initproc s a u (s.top (s.thread a.cpu)) (u.top (s.thread a.cpu)) := by
  cases h with
  | call hcur htop hcall => exact .of_goto (thread_of_cur hcur) htop rfl (.call hcur hcall)
  | enter hx => exact .of_goto rfl rfl rfl (.of_enter hx)
  | leave hx => exact .of_goto rfl rfl rfl (.of_leave hx)
  | letGo hcur htop => exact .of_goto (thread_of_cur hcur) htop rfl .letGo
  | toSleep hcur htop => exact .of_goto (thread_of_cur hcur) htop (swtch_top ..) .toSleep
  | asleep hcur htop => exact .of_goto (thread_of_cur hcur) htop rfl .asleep
  | reacquire hcur htop =>
    refine .of_goto (thread_of_cur hcur) htop rfl (.reacquire ?_)
    rw [goto_holder, hold_holder_self]
    rfl
  | slept hcur htop => exact .of_goto (thread_of_cur hcur) htop rfl .slept
  | wake htop =>
    refine .of_goto rfl htop rfl (.wake ⟨_, rfl, .inl ⟨_, htop⟩⟩ ?_)
    rw [woken_goto]
    exact woken_wakeup1 _ _
  | kill hcur htop | killNone hcur htop => exact .of_goto (thread_of_cur hcur) htop rfl .kill1
  | take hcur htop => exact .of_goto (thread_of_cur hcur) htop rfl .take
  | full hcur htop => exact .of_goto (thread_of_cur hcur) htop rfl .full
  | kstack hcur htop => exact .of_goto (thread_of_cur hcur) htop rfl .kstack
  | copyuvm hcur htop => exact .of_goto (thread_of_cur hcur) htop rfl (.copyuvm rfl hcur)
  | abort hcur htop => exact .of_goto (thread_of_cur hcur) rfl rfl (.abort htop)
  | adopt hcur htop =>
    refine .of_goto (thread_of_cur hcur) htop rfl (.adopt hcur ?_)
    rw [goto_slot, modify_slot_self]
  | start hcur htop =>
    refine .of_goto (thread_of_cur hcur) htop rfl (.start ?_)
    rw [goto_slot, modify_slot_self]
  | exit1 hcur htop hparent =>
    refine .of_goto (thread_of_cur hcur) htop rfl (.exit1 hcur fun q hq => ?_)
    rw [hparent] at hq
    cases hq
    rw [woken_goto]
    exact woken_wakeup1 _ _
  | exitOrphan hcur htop hparent =>
    refine .of_goto (thread_of_cur hcur) htop rfl (.exit1 hcur fun q hq => ?_)
    rw [hparent] at hq
    cases hq
  | passOther hcur htop hparent =>
    refine .of_goto (thread_of_cur hcur) htop rfl (.pass rfl hcur (.inl ?_) fun hp => (hparent hp).elim)
    rw [goto_slot]
    exact hparent
  | passChild hcur htop hparent hstate =>
    refine .of_goto (thread_of_cur hcur) htop rfl (.pass rfl hcur (.inr ?_) fun _ hz => (hstate hz).elim)
    rw [goto_slot, modify_slot_self]
  | passZombie hcur htop =>
    refine .of_goto (thread_of_cur hcur) htop rfl (.pass rfl hcur (.inr ?_) fun _ _ => woken_wakeup1 _ _)
    rw [wakeup1_slot, Slot.wake_parent, goto_slot, modify_slot_self]
  | zombie hcur htop hi => exact .of_goto (thread_of_cur hcur) htop (swtch_top ..) (.zombie hi)
  | reap hcur htop | waitFail hcur htop => exact .of_goto (thread_of_cur hcur) htop rfl .scanKids
  | waitSleep hcur htop hnone => exact .of_goto (thread_of_cur hcur) htop (swtch_top ..) (.waitSleep hcur hnone)
  | waitAsleep hcur htop => exact .of_goto (thread_of_cur hcur) htop rfl .waitAsleep
  | giveUp hcur htop => exact .of_goto (thread_of_cur hcur) htop (swtch_top ..) .giveUp
  | scanRun hcur htop => exact .of_goto (thread_of_none hcur) htop (swtch_top ..) .run
  | scanSkip hcur htop => exact .of_goto (thread_of_none hcur) htop rfl .scan
  | scanEnd hcur htop => exact .of_goto (thread_of_none hcur) htop rfl .scanEnd
  | ran hcur htop => exact .of_goto (thread_of_none hcur) htop rfl .ran
  | fault hcur htop => exact .stay (.inl (thread_of_cur hcur ▸ htop))
  | acquire htop | release htop => exact .stay htop
  | interrupt =>
    rw [Act.cpu, top_trap_self]
    refine .interrupt (by simp) fun hnone => ?_
    simp [Act.cpu] at hnone
  | handle htop => exact .of_goto rfl htop rfl .handle
  | iret htop =>
    rw [Act.cpu, top_trap_self, htop]
    exact .iret rfl
  | tick hcur htop => exact .of_goto (thread_of_cur hcur) htop rfl .tick

/-- the moves of a thread below its handlers -/
theorem Step.pc_hop (h : Threads s) (hstep : Step initproc s a u) :
    (u.pc (s.thread a.cpu) = s.pc (s.thread a.cpu) ∧ (s.trap (s.thread a.cpu) = none → ∀ c, a ≠ .move c)) ∨
      u.trap (s.thread a.cpu) = none ∧ Hop initproc s a u (s.pc (s.thread a.cpu)) (u.pc (s.thread a.cpu)) := by
  rcases hstep.actor h with ⟨hold, hnew⟩ | ⟨hsame, hcalm⟩
  · have hhop := hstep.hop
    rw [St.top, St.top, hold, hnew] at hhop
    exact .inr ⟨hnew, hhop⟩
  · exact .inl ⟨hsame, fun hnone => (hcalm hnone).2⟩

theorem Step.top_other {t : Thread n C} (h : Threads s) (hstep : Step initproc s a u) (ht : t ≠ s.thread a.cpu) :
    u.top t = s.top t ∨
      ∃ np, t = .proc np ∧ ((s.slot np).state = .UNUSED ∨ (s.slot np).state = .EMBRYO) ∧
        (u.top t = .forkret ∨ u.top t = .dead) := by
  obtain ⟨hpc | ⟨np, rfl, hold, hnew⟩, htrap⟩ := hstep.pc_other ht
  · exact .inl (by rw [St.top, htrap, hpc]; rfl)
  · have hstate : (s.slot np).state = .UNUSED ∨ (s.slot np).state = .EMBRYO :=
      hold.imp_right fun hforks => h.sched.embryo _ np (h.sched.pc_of_forks hforks)
    have hclear : u.trap (.proc np) = none := by
      rw [htrap]
      apply h.sched.clear <;> rcases hstate with hstate | hstate <;> rw [hstate] <;> exact ProcState.noConfusion
    rw [St.top, hclear]
    exact .inr ⟨np, rfl, hstate, hnew⟩

end Xv6.Proc
