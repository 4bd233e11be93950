/-
Sleep locks (`sleeplock.c`).

Processes of any type P share a `struct sleeplock`; a process is its own pid. A step takes or gives up the spin lock
`lk->lk`, or is what happens to the sleep lock in between; a run is any interleaving. `sleep(lk, &lk->lk)` takes its steps
one by one: it takes `ptable.lock`, gives up `lk->lk`, and only then is the process SLEEPING and `ptable.lock` free again.
`wakeup` and `kill` need `ptable.lock` for one step: `wakeup` wakes every sleeper, `kill` wakes one at any time. A process
that has the lock may release it; any process may ask `holdingsleep`.

- `sleeplock_exclusive`: at most one process has the lock, the one that lk->pid names, lk->locked says whether there is
  one, and a process that has it is told so;
- `sleeplock_live`: nobody sleeps on a lock that is free, so that when a process waits for a lock that nobody has, some
  process can go on.
-/
import Xv6.Core.Lock
import Xv6.Core.Machine

namespace Xv6.Sleeplock

open Function

variable {P : Type}

inductive Call where
  | acquiresleep
  | releasesleep
  | holdingsleep
deriving DecidableEq, Repr

/-- where a process is -/
inductive Pc where
  | idle
  /-- `acquiresleep`: in acquire(&lk->lk) -/
  | acquire
  /-- before the test of lk->locked -/
  | test
  /-- in `sleep`, about to take ptable.lock -/
  | sleep
  /-- in `sleep`, about to release lk->lk -/
  | letGo
  /-- in `sleep`, about to become SLEEPING and enter the scheduler, which releases ptable.lock -/
  | switch
  | asleep
  /-- woken up: `sleep` acquires lk->lk again -/
  | woken
  /-- has set lk->locked and lk->pid -/
  | taken
  | holds
  /-- `releasesleep`: in acquire(&lk->lk) -/
  | release
  | clear
  /-- before wakeup(lk) -/
  | wake
  | cleared
  /-- `holdingsleep`: in acquire(&lk->lk); held: the caller has the lock -/
  | ask (held : Bool)
  | look (held : Bool)
  /-- `holdingsleep` has returned r -/
  | told (held r : Bool)
deriving DecidableEq, Repr

/-- the call of a process that does or does not have the lock -/
def Call.begin : Call → Bool → Option Pc
  | .acquiresleep, false => some .acquire
  | .releasesleep, true => some .release
  | .holdingsleep, held => some (.ask held)
  | _, _ => none

def enter (c : Call) : Pc → Option Pc
  | .idle => c.begin false
  | .holds => c.begin true
  | .told held _ => c.begin held
  | _ => none

/-- acquire(&lk->lk) -/
def acquire : Pc → Option Pc
  | .acquire | .woken => some .test
  | .release => some .clear
  | .ask held => some (.look held)
  | _ => none

/-- release(&lk->lk) at the end of a call; `holdingsleep` has read lk->locked -/
def release (locked : Bool) : Pc → Option Pc
  | .taken => some .holds
  | .cleared => some .idle
  | .look held => some (.told held locked)
  | _ => none

/-- has lk->lk -/
def Pc.spins : Pc → Bool
  | .test | .sleep | .letGo | .taken | .clear | .wake | .cleared | .look _ => true
  | _ => false

/-- holds ptable.lock between two steps -/
def Pc.ptable : Pc → Bool
  | .letGo | .switch => true
  | _ => false

/-- in `sleep`, and nobody has woken it -/
def Pc.sleeps : Pc → Bool
  | .sleep | .letGo | .switch | .asleep => true
  | _ => false

/-- has the sleep lock -/
def Pc.owns : Pc → Bool
  | .taken | .holds | .release | .clear => true
  | .ask held | .look held | .told held _ => held
  | _ => false

/-- in `acquiresleep` -/
def Pc.waits : Pc → Bool
  | .acquire | .test | .sleep | .letGo | .switch | .asleep | .woken => true
  | _ => false

/-- has the lock and was told by `holdingsleep` that it is free -/
def Pc.lies : Pc → Bool
  | .told true false => true
  | _ => false

structure St (P : Type) where
  /-- the holder of lk->lk -/
  lk : Option P
  /-- the holder of ptable.lock, if it keeps it from one step to the next -/
  ptable : Option P
  locked : Bool
  /-- none: 0 -/
  pid : Option P
  pc : P → Pc

inductive Act (P : Type) where
  | call (p : P) (c : Call)
  | acquire (p : P)
  | test (p : P)
  /-- the next step of `sleep` -/
  | sleep (p : P)
  | clear (p : P)
  | wakeup (p : P)
  | release (p : P)
  /-- `kill` wakes a sleeper -/
  | kill (p : P)

/-- the step of a process that is in a call -/
def Act.inner : Act P → Bool
  | .call _ _ | .kill _ => false
  | _ => true

def init : St P := ⟨none, none, false, none, fun _ => .idle⟩

section

variable [DecidableEq P]

def step (s : St P) : Act P → Option (St P)
  | .call p c => (enter c (s.pc p)).map fun x => { s with pc := update s.pc p x }
  | .acquire p =>
    if s.lk = none then (acquire (s.pc p)).map fun x => { s with lk := some p, pc := update s.pc p x } else none
  | .test p =>
    if s.pc p = .test then
      if s.locked then some { s with pc := update s.pc p .sleep }
      else some { s with locked := true, pid := some p, pc := update s.pc p .taken }
    else none
  | .sleep p =>
    match s.pc p with
    | .sleep => if s.ptable = none then some { s with ptable := some p, pc := update s.pc p .letGo } else none
    | .letGo => some { s with lk := none, pc := update s.pc p .switch }
    | .switch => some { s with ptable := none, pc := update s.pc p .asleep }
    | _ => none
  | .clear p =>
    if s.pc p = .clear then some { s with locked := false, pid := none, pc := update s.pc p .wake } else none
  | .wakeup p =>
    if s.pc p = .wake ∧ s.ptable = none then
      some { s with pc := update (fun q => if s.pc q = .asleep then .woken else s.pc q) p .cleared }
    else none
  | .release p => (release s.locked (s.pc p)).map fun x => { s with lk := none, pc := update s.pc p x }
  | .kill p => if s.pc p = .asleep ∧ s.ptable = none then some { s with pc := update s.pc p .woken } else none

def machine (P : Type) [DecidableEq P] : Machine (St P) (Act P) := .ofStep (· = init) step

end

/-! ## The invariant -/

/-- while a process sleeps or is about to, the lock is taken or a wakeup is to come -/
structure Inv (s : St P) : Prop where
  lk : Excl Pc.spins s.pc s.lk
  ptable : Excl Pc.ptable s.pc s.ptable
  owner : Excl Pc.owns s.pc s.pid
  locked : s.locked = s.pid.isSome
  sleeps : ∀ p, (s.pc p).sleeps = true → s.locked = true ∨ ∃ q, s.pc q = .wake
  told : ∀ p, (s.pc p).lies = false

theorem inv_init : Inv (init : St P) where
  lk := Excl.of_free fun _ => rfl
  ptable := Excl.of_free fun _ => rfl
  owner := Excl.of_free fun _ => rfl
  locked := rfl
  sleeps _ hp := by cases hp
  told _ := rfl

variable {s t : St P} {p : P} {x y : Pc} {l l' : Option P}

theorem Inv.locked_of_owns (h : Inv s) (hp : (s.pc p).owns = true) : s.locked = true := by
  rw [h.locked, (h.owner p).1 hp]
  rfl

/-- a process that sleeps during a wakeup is SLEEPING: before that it has lk->lk or ptable.lock -/
theorem Inv.asleep {q : P} (h : Inv s) (hp : s.pc p = .wake) (hfree : s.ptable = none) (hq : (s.pc q).sleeps = true) :
    s.pc q = .asleep := by
  have hptable := (hfree ▸ h.ptable).free q
  cases hpc : s.pc q <;> simp only [hpc, Pc.sleeps, Pc.ptable, reduceCtorEq] at hq hptable
  case sleep =>
    have hqp : q = p := h.lk.unique (by rw [hpc]; rfl) (by rw [hp]; rfl)
    rw [hqp, hp] at hpc
    cases hpc
  case asleep => rfl

/-- from y to x without a change of the sleep lock -/
structure Move (y x : Pc) : Prop where
  owns : x.owns = y.owns
  wake : y ≠ .wake
  sleeps : x.sleeps = true → y.sleeps = true

theorem enter_some {c : Call} (h : enter c y = some x) :
    Move y x ∧ x.spins = y.spins ∧ x.ptable = y.ptable ∧ x.lies = false := by
  cases y <;> simp only [enter, reduceCtorEq] at h
  all_goals
    cases c <;> grind [Call.begin, Pc.spins, Pc.ptable, Pc.sleeps, Pc.owns, Pc.lies, Move]

theorem acquire_some (h : acquire y = some x) : Move y x ∧ x.spins = true ∧ x.ptable = y.ptable ∧ x.lies = false := by
  cases y <;> simp only [acquire, reduceCtorEq] at h
  all_goals grind [Pc.spins, Pc.ptable, Pc.sleeps, Pc.owns, Pc.lies, Move]

theorem release_some {locked : Bool} (h : release locked y = some x) : Move y x ∧ y.spins = true ∧ x.spins = false ∧
    x.ptable = y.ptable ∧ (x.lies = true → y.owns = true ∧ locked = false) := by
  cases y <;> simp only [release, reduceCtorEq] at h
  all_goals grind [Pc.spins, Pc.ptable, Pc.sleeps, Pc.owns, Pc.lies, Move]

section

variable [DecidableEq P]

theorem Inv.told_update (h : Inv s) (hx : x.lies = false) (q : P) : (update s.pc p x q).lies = false :=
  (update_keep Pc.lies (hx.trans (h.told p).symm) q).trans (h.told q)

theorem Inv.goto (h : Inv s) (hl : Excl Pc.spins (update s.pc p x) l) (hl' : Excl Pc.ptable (update s.pc p x) l')
    (hm : Move (s.pc p) x) (hx : x.lies = false) : Inv { s with lk := l, ptable := l', pc := update s.pc p x } where
  lk := hl
  ptable := hl'
  owner := h.owner.keep hm.owns
  locked := h.locked
  sleeps q hq := by
    have hq' : (s.pc q).sleeps = true := by
      rcases eq_or_ne q p with rfl | hqp
      · exact hm.sleeps (by simpa using hq)
      · simpa [hqp] using hq
    obtain hlock | ⟨r, hr⟩ := h.sleeps q hq'
    · exact .inl hlock
    · have hrp : r ≠ p := fun he => hm.wake (he ▸ hr)
      exact .inr ⟨r, by simpa [hrp] using hr⟩
  told := h.told_update hx

theorem Inv.test (h : Inv s) (ht : step s (.test p) = some t) : Inv t := by
  simp only [step] at ht
  split_ifs at ht with hp hlock
  all_goals
    have hspins : (s.pc p).spins = true := by rw [hp]; rfl
    have hptable : (s.pc p).ptable = false := by rw [hp]; rfl
    cases ht
  · exact ⟨h.lk.keep hspins.symm, h.ptable.keep hptable.symm, h.owner.keep (by rw [hp]; rfl), h.locked,
      fun _ _ => .inl hlock, h.told_update rfl⟩
  · have hpid : s.pid = none := by simpa [h.locked] using hlock
    exact ⟨h.lk.keep hspins.symm, h.ptable.keep hptable.symm, (hpid ▸ h.owner).acquire rfl, rfl, fun _ _ => .inl rfl,
      h.told_update rfl⟩

theorem Inv.sleep (h : Inv s) (ht : step s (.sleep p) = some t) : Inv t := by
  simp only [step] at ht
  split at ht
  case h_1 hp =>
    split_ifs at ht with hfree
    cases ht
    exact h.goto (h.lk.keep (by rw [hp]; rfl)) ((hfree ▸ h.ptable).acquire rfl)
      (by rw [hp]; exact ⟨rfl, by decide, fun _ => rfl⟩) rfl
  case h_2 hp =>
    cases ht
    exact h.goto (h.lk.release (by rw [hp]; rfl) rfl) (h.ptable.keep (by rw [hp]; rfl))
      (by rw [hp]; exact ⟨rfl, by decide, fun _ => rfl⟩) rfl
  case h_3 hp =>
    cases ht
    exact h.goto (h.lk.keep (by rw [hp]; rfl)) (h.ptable.release (by rw [hp]; rfl) rfl)
      (by rw [hp]; exact ⟨rfl, by decide, fun _ => rfl⟩) rfl
  case h_4 => cases ht

theorem Inv.clear (h : Inv s) (ht : step s (.clear p) = some t) : Inv t := by
  simp only [step] at ht
  split_ifs at ht with hp
  cases ht
  exact ⟨h.lk.keep (by rw [hp]; rfl), h.ptable.keep (by rw [hp]; rfl), h.owner.release (by rw [hp]; rfl) rfl, rfl,
    fun _ _ => .inr ⟨p, update_self ..⟩, h.told_update rfl⟩

theorem Inv.wakeup (h : Inv s) (ht : step s (.wakeup p) = some t) : Inv t := by
  simp only [step] at ht
  split_ifs at ht with hp
  obtain ⟨hp, hfree⟩ := hp
  cases ht
  -- none of these tells a sleeper from a woken process, or p before from p after
  have hkeep (f : Pc → Bool) (hf : f .woken = f .asleep) (hp : f .cleared = f (s.pc p)) (q : P) :
      f (update (fun q => if s.pc q = .asleep then .woken else s.pc q) p .cleared q) = f (s.pc q) := by
    rw [update_apply]
    split_ifs with hqp hq
    · rw [hqp, hp]
    · rw [hq, hf]
    · rfl
  refine ⟨h.lk.map (hkeep _ rfl (by rw [hp]; rfl)), h.ptable.map (hkeep _ rfl (by rw [hp]; rfl)),
    h.owner.map (hkeep _ rfl (by rw [hp]; rfl)), h.locked, fun q hq => ?_,
    fun q => (hkeep _ rfl (by rw [hp]; rfl) q).trans (h.told q)⟩
  simp only [update_apply] at hq
  split_ifs at hq with hqp hasleep
  · cases hq
  · cases hq
  · exact absurd (h.asleep hp hfree hq) hasleep

theorem Inv.step {a : Act P} (h : Inv s) (ht : step s a = some t) : Inv t := by
  cases a with
  | call p c =>
    obtain ⟨x, hx, rfl⟩ := Option.map_eq_some_iff.1 ht
    obtain ⟨hmove, hspins, hptable, htold⟩ := enter_some hx
    exact h.goto (h.lk.keep hspins) (h.ptable.keep hptable) hmove htold
  | acquire p =>
    simp only [Sleeplock.step] at ht
    split_ifs at ht with hfree
    obtain ⟨x, hx, rfl⟩ := Option.map_eq_some_iff.1 ht
    obtain ⟨hmove, hspins, hptable, htold⟩ := acquire_some hx
    exact h.goto ((hfree ▸ h.lk).acquire hspins) (h.ptable.keep hptable) hmove htold
  | test p => exact h.test ht
  | sleep p => exact h.sleep ht
  | clear p => exact h.clear ht
  | wakeup p => exact h.wakeup ht
  | release p =>
    obtain ⟨x, hx, rfl⟩ := Option.map_eq_some_iff.1 ht
    obtain ⟨hmove, hspins, hxspins, hptable, htold⟩ := release_some hx
    refine h.goto (h.lk.release hspins hxspins) (h.ptable.keep hptable) hmove (Bool.eq_false_iff.2 fun hlies => ?_)
    exact Bool.false_ne_true ((htold hlies).2.symm.trans (h.locked_of_owns (htold hlies).1))
  | kill p =>
    simp only [Sleeplock.step] at ht
    split_ifs at ht with hp
    cases ht
    exact h.goto (h.lk.keep (by rw [hp.1]; rfl)) (h.ptable.keep (by rw [hp.1]; rfl))
      ⟨by rw [hp.1]; rfl, by simp [hp.1], fun hx => by cases hx⟩ rfl

theorem inv_of_reach (h : (machine P).Reach s) : Inv s :=
  h.invariant (fun _ hs => hs ▸ inv_init) fun _ _ _ hi ht => hi.step ht

/-! ## The results -/

/-- **Sleep locks exclude.** -/
theorem sleeplock_exclusive (h : (machine P).Reach s) :
    (∀ p, (s.pc p).owns = true ↔ s.pid = some p) ∧ (s.locked = true ↔ ∃ p, (s.pc p).owns = true) ∧
      ∀ p, s.pc p ≠ .told true false := by
  have hi := inv_of_reach h
  refine ⟨hi.owner, ⟨fun hlock => ?_, fun hp => hi.locked_of_owns hp.choose_spec⟩, fun p hp => ?_⟩
  · obtain ⟨p, hp⟩ := Option.isSome_iff_exists.1 (hi.locked ▸ hlock)
    exact ⟨p, (hi.owner p).2 hp⟩
  · have := hi.told p
    rw [hp] at this
    cases this

/-- the process that has ptable.lock can go on -/
theorem ptable_step (hp : (s.pc p).ptable = true) : ∃ a t, step s a = some t ∧ a.inner = true := by
  cases hpc : s.pc p <;> simp only [hpc, Pc.ptable, reduceCtorEq] at hp
  all_goals exact ⟨.sleep p, _, by simp only [step, hpc]; rfl, rfl⟩

/-- where ptable.lock is free, the process that has lk->lk can go on -/
theorem spins_step (hfree : s.ptable = none) (hp : (s.pc p).spins = true) : ∃ a t, step s a = some t ∧ a.inner = true := by
  cases hpc : s.pc p <;> simp only [hpc, Pc.spins, reduceCtorEq] at hp
  case test =>
    cases hlock : s.locked
    · exact ⟨.test p, _, by simp only [step, if_pos hpc, hlock]; rfl, rfl⟩
    · exact ⟨.test p, _, by simp only [step, if_pos hpc, hlock]; rfl, rfl⟩
  case sleep => exact ⟨.sleep p, _, by simp only [step, hpc]; exact if_pos hfree, rfl⟩
  case letGo => exact ptable_step (by rw [hpc]; rfl)
  case clear => exact ⟨.clear p, _, if_pos hpc, rfl⟩
  case wake => exact ⟨.wakeup p, _, if_pos ⟨hpc, hfree⟩, rfl⟩
  case taken | cleared | look => exact ⟨.release p, _, by simp only [step, hpc, release]; rfl, rfl⟩

/-- **No lost wakeup.** While a process waits for a lock that nobody has, a process in a call can go on. -/
theorem sleeplock_live (h : (machine P).Reach s) (hp : (s.pc p).waits = true) (hfree : ∀ q, (s.pc q).owns = false) :
    ∃ a t, step s a = some t ∧ a.inner = true := by
  have hi := inv_of_reach h
  cases hptable : s.ptable with
  | some q => exact ptable_step ((hi.ptable q).2 hptable)
  | none =>
  cases hlk : s.lk with
  | some q => exact spins_step hptable ((hi.lk q).2 hlk)
  | none =>
    have hspins := (hlk ▸ hi.lk).free
    cases hpc : s.pc p <;> simp only [hpc, Pc.waits, reduceCtorEq] at hp
    case acquire | woken => exact ⟨.acquire p, _, by simp only [step, if_pos hlk, hpc, acquire]; rfl, rfl⟩
    case test | sleep | letGo => exact absurd (hspins p) (by simp [hpc, Pc.spins])
    case switch => exact absurd ((hptable ▸ hi.ptable).free p) (by simp [hpc, Pc.ptable])
    case asleep =>
      obtain hlock | ⟨q, hq⟩ := hi.sleeps p (by rw [hpc]; rfl)
      · obtain ⟨q, hq⟩ := Option.isSome_iff_exists.1 (hi.locked ▸ hlock)
        exact absurd ((hi.owner q).2 hq) (by simp [hfree q])
      · exact absurd (hspins q) (by simp [hq, Pc.spins])

end

/-- p takes the lock, q goes to sleep on it, and p gives it up, up to the wakeup -/
def handover {P : Type} (p q : P) : List (Act P) :=
  [.call p .acquiresleep, .acquire p, .test p, .release p, .call q .acquiresleep, .acquire q, .test q,
    .sleep q, .sleep q, .sleep q, .call p .releasesleep, .acquire p, .clear p]

theorem sleeplock_exclusive_asleep : ∃ s : St (Fin 2), s.pc 0 = .holds ∧ s.pc 1 = .asleep ∧
    (∀ p, (s.pc p).owns = true ↔ s.pid = some p) ∧ (s.locked = true ↔ ∃ p, (s.pc p).owns = true) ∧
      ∀ p, s.pc p ≠ .told true false := by
  have hrun : (((handover (0 : Fin 2) 1).take 10).foldlM step init).map (fun s => (s.pc 0, s.pc 1)) =
      some (.holds, .asleep) := by decide
  obtain ⟨s, hs, hpc⟩ := Option.map_eq_some_iff.1 hrun
  obtain ⟨hzero, hone⟩ := Prod.mk.inj hpc
  exact ⟨s, hzero, hone, sleeplock_exclusive (Machine.Reach.foldlM _ (.init rfl) hs)⟩

theorem sleeplock_live_handover : ∃ s : St (Fin 2), s.pc 1 = .asleep ∧ ∃ a t, step s a = some t ∧ a.inner = true := by
  have hrun : ((handover (0 : Fin 2) 1).foldlM step init).map
      (fun s => decide (s.pc 1 = .asleep ∧ ∀ q, (s.pc q).owns = false)) = some true := by decide
  obtain ⟨s, hs, hpc⟩ := Option.map_eq_some_iff.1 hrun
  obtain ⟨hone, hfree⟩ := of_decide_eq_true hpc
  exact ⟨s, hone, sleeplock_live (Machine.Reach.foldlM _ (.init rfl) hs) (p := 1) (by rw [hone]; rfl) hfree⟩

end Xv6.Sleeplock
