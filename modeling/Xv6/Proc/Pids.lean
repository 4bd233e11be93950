/-
Pids (`allocproc`, `wait`).

Processes that exist have different pids, taken from a counter, and none of them is a pid that `wait` has returned.
- `Pids.step`: every step keeps this, as long as the counter does not overflow.
-/
import Xv6.Proc.Slots

namespace Xv6.Proc

variable {n : ℕ} {C : Type} {initproc : Fin n} {s u : St n C} {a : Act n C} {c c' : C} {p q : Fin n}

section

variable [DecidableEq C]

/-- `allocproc` moves the counter -/
theorem Step.counters (h : Step initproc s a u) :
    (∀ c np, a ≠ .take c np) ∧ u.nextpid = s.nextpid ∧ u.created = s.created ∨
      (∃ np, a = .take a.cpu np) ∧ u.nextpid = s.nextpid + 1 ∧ u.created = s.created + 1 := by
  cases h with
  | take => exact .inr ⟨⟨_, rfl⟩, by rw [goto_nextpid]; rfl, by rw [goto_created]; rfl⟩
  | fault | acquire | release | interrupt | iret => exact .inl ⟨nofun, rfl, rfl⟩
  | toSleep | zombie | waitSleep | giveUp | scanRun | passZombie =>
    exact .inl ⟨nofun, goto_nextpid .., goto_created ..⟩
  | _ =>
    refine .inl ⟨nofun, ?_, ?_⟩
    · rw [goto_nextpid]
      try rfl
    · rw [goto_created]
      try rfl

/-- `wait` returns the pid of a ZOMBIE child -/
theorem Step.reaped (h : Step initproc s a u) :
    u.reaped = s.reaped ∨ ∃ p q, u.reaped = s.reaped ++ [((s.slot q).pid, p)] ∧ s.cur a.cpu = some p ∧
      s.top (.proc p) = .scanKids ∧ (s.slot q).parent = some p ∧ (s.slot q).state = .ZOMBIE ∧
      (u.slot q).state = .UNUSED := by
  cases h with
  | reap hcur htop hparent hstate =>
    refine .inr ⟨_, _, ?_, hcur, htop, hparent, hstate, ?_⟩
    · rw [goto_reaped]
      rfl
    · rw [goto_slot, reap_slot, modify_slot_self]
  | fault | acquire | release | interrupt | iret => exact .inl rfl
  | toSleep | zombie | waitSleep | giveUp | scanRun | passZombie => exact .inl (goto_reaped ..)
  | _ =>
    refine .inl ?_
    rw [goto_reaped]
    try rfl

omit [DecidableEq C] in
/-- a process on a CPU, or a slot that a `fork` fills, is in use -/
theorem Sched.used (h : Sched s) (hp : s.cur c = some p ∨ ∃ t, (s.top t).forks = some p) : (s.slot p).state ≠ .UNUSED := by
  rcases hp with hcur | ⟨t, ht⟩
  · rw [h.running_of_cur hcur]
    exact ProcState.noConfusion
  · rw [h.embryo t p (h.pc_of_forks ht)]
    exact ProcState.noConfusion

/-- a slot in use keeps its pid -/
theorem Step.pid (h : Threads s) (hstep : Step initproc s a u) (hu : (u.slot p).state ≠ .UNUSED) :
    (s.slot p).state ≠ .UNUSED ∧ (u.slot p).pid = (s.slot p).pid ∨ a = .take a.cpu p ∧ (u.slot p).pid = s.nextpid := by
  generalize hy : u.slot p = y at hu
  have hedit := hstep.edit p
  rw [hy] at hedit
  cases hedit with
  | same | adopt | pass => exact .inl ⟨hu, rfl⟩
  | sleep hcur | wait hcur | tidy hcur | zombie hcur | giveUp hcur | fault hcur =>
    exact .inl ⟨h.sched.used (.inl hcur), rfl⟩
  | wake =>
    refine .inl ⟨fun hs => hu ?_, Slot.wake_pid ..⟩
    rw [Slot.wake, if_neg, hs]
    rw [hs]
    exact fun hsleep => ProcState.noConfusion hsleep.1
  | kill =>
    refine .inl ⟨fun hs => hu ?_, rfl⟩
    rw [Slot.kill, hs]
    rfl
  | embryo ha => exact .inr ⟨ha, rfl⟩
  | abort | reap => exact (hu rfl).elim
  | start hcur htop => exact .inl ⟨h.sched.used (c := a.cpu) (.inr ⟨.proc _, by rw [htop]; rfl⟩), rfl⟩
  | run hstate => exact .inl ⟨by rw [hstate]; exact ProcState.noConfusion, rfl⟩

omit [DecidableEq C] in
/-- a pid that `allocproc` has given -/
def Given (s : St n C) (pid : BitVec 32) : Prop := ∃ k, 1 ≤ k ∧ k ≤ s.created ∧ pid = .ofNat 32 k

structure Pids (s : St n C) : Prop where
  nextpid : s.nextpid = .ofNat 32 (s.created + 1)
  given : ∀ p, (s.slot p).state ≠ .UNUSED → Given s (s.slot p).pid
  distinct : ∀ p q, (s.slot p).state ≠ .UNUSED → (s.slot q).state ≠ .UNUSED → (s.slot p).pid = (s.slot q).pid → p = q
  returned : ∀ r ∈ s.reaped, Given s r.1 ∧ ∀ p, (s.slot p).state ≠ .UNUSED → (s.slot p).pid ≠ r.1
  once : (s.reaped.map Prod.fst).Nodup

omit [DecidableEq C] in
theorem Pids.fresh (h : Pids s) (hsmall : s.created + 1 < 2 ^ 31) {pid : BitVec 32} (hpid : Given s pid) :
    pid ≠ s.nextpid := by
  obtain ⟨k, -, hk, rfl⟩ := hpid
  rw [h.nextpid]
  intro heq
  have := congrArg BitVec.toNat heq
  rw [BitVec.toNat_ofNat, BitVec.toNat_ofNat, Nat.mod_eq_of_lt, Nat.mod_eq_of_lt] at this <;> omega

theorem Step.given (hstep : Step initproc s a u) {pid : BitVec 32} (hpid : Given s pid) : Given u pid := by
  obtain ⟨k, hone, hk, heq⟩ := hpid
  refine ⟨k, hone, ?_, heq⟩
  rcases hstep.counters with ⟨-, -, hc⟩ | ⟨-, -, hc⟩ <;> omega

theorem Pids.step (h : Threads s) (hinv : Pids s) (hstep : Step initproc s a u) (hsmall : u.created < 2 ^ 31 - 1) :
    Pids u := by
  have hcreated : s.created ≤ u.created := by
    rcases hstep.counters with ⟨-, -, hc⟩ | ⟨-, -, hc⟩ <;> omega
  -- a slot in use in u keeps its pid, or has just been given the next one
  have hpid := fun p hp => hstep.pid (p := p) h hp
  refine ⟨?_, fun p hp => ?_, fun p q hp hq heq => ?_, fun r hr => ?_, ?_⟩
  · rcases hstep.counters with ⟨-, hn, hc⟩ | ⟨-, hn, hc⟩
    · rw [hn, hc, hinv.nextpid]
    · rw [hn, hc, hinv.nextpid]
      exact (BitVec.ofNat_add (s.created + 1) 1).symm
  · rcases hpid p hp with ⟨hold, hsame⟩ | ⟨ha, hnew⟩
    · rw [hsame]
      exact hstep.given (hinv.given p hold)
    · rcases hstep.counters with ⟨hno, -, -⟩ | ⟨-, -, hc⟩
      · exact (hno _ _ ha).elim
      · exact ⟨s.created + 1, by omega, by omega, hnew.trans hinv.nextpid⟩
  · rcases hpid p hp with ⟨hold, hsame⟩ | ⟨ha, hnew⟩ <;> rcases hpid q hq with ⟨hold', hsame'⟩ | ⟨ha', hnew'⟩
    · rw [hsame, hsame'] at heq
      exact hinv.distinct p q hold hold' heq
    · rw [hsame, hnew'] at heq
      exact (hinv.fresh (by omega) (hinv.given p hold) heq).elim
    · rw [hsame', hnew] at heq
      exact (hinv.fresh (by omega) (hinv.given q hold') heq.symm).elim
    · rw [ha] at ha'
      exact (Act.take.inj ha').2
  · -- a pid of s that no slot of u in use has had is none of theirs
    have hgone : ∀ pid, Given s pid → (∀ p, (u.slot p).state ≠ .UNUSED → (s.slot p).state ≠ .UNUSED → (s.slot p).pid ≠ pid) →
        ∀ p, (u.slot p).state ≠ .UNUSED → (u.slot p).pid ≠ pid := by
      intro pid hgiven hne p hp
      rcases hpid p hp with ⟨hold, hsame⟩ | ⟨-, hnew⟩
      · rw [hsame]
        exact hne p hp hold
      · rw [hnew]
        exact (hinv.fresh (by omega) hgiven).symm
    have hold : ∀ r ∈ s.reaped, Given u r.1 ∧ ∀ p, (u.slot p).state ≠ .UNUSED → (u.slot p).pid ≠ r.1 := fun r hr =>
      ⟨hstep.given (hinv.returned r hr).1,
        hgone r.1 (hinv.returned r hr).1 fun p _ hp => (hinv.returned r hr).2 p hp⟩
    rcases hstep.reaped with heq | ⟨p, q, heq, -, -, -, hzombie, hunused⟩
    · exact hold r (heq ▸ hr)
    · rw [heq, List.mem_append, List.mem_singleton] at hr
      rcases hr with hr | rfl
      · exact hold r hr
      · have hq : (s.slot q).state ≠ .UNUSED := by rw [hzombie]; exact ProcState.noConfusion
        refine ⟨hstep.given (hinv.given q hq), hgone _ (hinv.given q hq) fun p' hp' hold' heq' => hp' ?_⟩
        rw [hinv.distinct p' q hold' hq heq', hunused]
  · rcases hstep.reaped with heq | ⟨p, q, heq, -, -, -, hzombie, -⟩
    · rw [heq]
      exact hinv.once
    · have hq : (s.slot q).state ≠ .UNUSED := by rw [hzombie]; exact ProcState.noConfusion
      rw [heq, List.map_append, List.nodup_append]
      refine ⟨hinv.once, List.nodup_singleton _, fun x hx y hy => ?_⟩
      obtain ⟨r, hr, rfl⟩ := List.mem_map.1 hx
      rw [List.map_singleton, List.mem_singleton] at hy
      rw [hy]
      exact ((hinv.returned r hr).2 q hq).symm

omit [DecidableEq C] in
theorem Pids.init (h0 : Init initproc s) : Pids s := by
  obtain ⟨hinit, hunused, hnext, -, -, -, -, -, -, -, hcreated, hreaped⟩ := h0
  have hused : ∀ p, (s.slot p).state ≠ .UNUSED → p = initproc := by
    intro p hp
    by_contra hne
    exact hp (by rw [hunused p hne])
  refine ⟨?_, fun p hp => ?_, fun p q hp hq _ => (hused p hp).trans (hused q hq).symm, ?_, ?_⟩
  · rw [hnext, hcreated]
    rfl
  · rw [hused p hp, hinit]
    exact ⟨1, le_rfl, by omega, rfl⟩
  · rw [hreaped]
    nofun
  · rw [hreaped]
    exact List.nodup_nil

end

end Xv6.Proc
