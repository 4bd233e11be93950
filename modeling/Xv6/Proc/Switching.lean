/-
CPUs, stacks and page tables across switches.

`Mem.Inv`: every page that is a kernel stack, a page table of a slot or a page table somebody works on has one owner. A
CPU's cr3 holds the page table of the process it runs or is switching from or to, or the old page table of an `exec` that
has not called `switchuvm` yet; and a CPU in a switch holds `ptable.lock`.
- `Mem.Inv.run`: the steps of the table that switch no CPU keep it;
- `Mem.Inv.pick`, `enter`, `leave`, `swtch`, `switchkvm`: so does every stage of a switch.
-/
import Xv6.Proc.Memory

namespace Xv6.Proc

open Function

variable {n : ℕ} {C : Type}

/-! ## Steps of the table -/

/-- a slot that has been started, and not been reset -/
def Slot.Started (x : Slot n) : Prop := x.state ≠ .UNUSED ∧ x.state ≠ .EMBRYO

/-- the slot whose page table `fork` has stored -/
def Pc.filled : Pc n → Option (Fin n)
  | .adopt np | .start np => some np
  | _ => none

theorem Pc.forks_of_filled {x : Pc n} {q : Fin n} (h : x.filled = some q) : x.forks = some q := by
  cases x with
  | adopt | start => exact h
  | _ => cases h

section

variable [DecidableEq C] {initproc : Fin n} {s u : St n C} {a : Act n C} {c : C} {p q r : Fin n}

omit [DecidableEq C] in
theorem Sched.started (h : Sched s) (hcur : s.cur c = some p) : (s.slot p).Started := by
  rw [Slot.Started, h.running_of_cur hcur]
  exact ⟨ProcState.noConfusion, ProcState.noConfusion⟩

omit [DecidableEq C] in
theorem Slot.started_of {x : Slot n} {st : ProcState} (h : x.state = st) (hu : st ≠ .UNUSED) (he : st ≠ .EMBRYO) :
    x.Started := ⟨h ▸ hu, h ▸ he⟩

omit [DecidableEq C] in
theorem zombie_spec (h : s.zombie p = some q) : (s.slot q).parent = some p ∧ (s.slot q).state = .ZOMBIE := by
  have hq := List.find?_some h
  simpa using hq

omit [DecidableEq C] in
theorem zombie_none (h : s.zombie p = none) (hparent : (s.slot q).parent = some p) : (s.slot q).state ≠ .ZOMBIE := by
  have hq := List.find?_eq_none.1 h q (List.mem_finRange q)
  intro hstate
  exact hq (by simp [hparent, hstate])

omit [DecidableEq C] in
/-- the slot that a `fork` fills is an EMBRYO -/
theorem Sched.embryo_of_top {t : Thread n C} (h : Sched s) (hforks : (s.top t).forks = some q) :
    (s.slot q).state = .EMBRYO := h.embryo t q (h.pc_of_forks hforks)

/-- a slot is started by `fork` and reset by `wait` -/
theorem Step.slot_started (h : Threads s) (hstep : Step initproc s a u) (q : Fin n) :
    ((u.slot q).Started ↔ (s.slot q).Started) ∨
    (u.slot q).Started ∧ (∃ p, s.cur a.cpu = some p ∧ s.top (.proc p) = .start q) ∨
    ∃ p, s.cur a.cpu = some p ∧ s.top (.proc p) = .scanKids ∧ (s.slot q).parent = some p ∧ (s.slot q).state = .ZOMBIE := by
  have hedit := hstep.edit q
  generalize u.slot q = y at hedit
  cases hedit with
  | same | tidy | adopt | pass | fault => exact .inl Iff.rfl
  | sleep hcur | wait hcur | zombie hcur | giveUp hcur =>
    exact .inl (iff_of_true (Slot.started_of rfl nofun nofun) (h.sched.started hcur))
  | wake =>
    refine .inl (and_congr (not_congr ?_) (not_congr ?_)) <;> exact Slot.wake_state _ _ rfl
  | kill =>
    refine .inl (and_congr (not_congr ?_) (not_congr ?_)) <;> exact Slot.kill_state _ rfl
  | embryo ha hcur htop hunused => exact .inl (iff_of_false (fun hs => hs.2 rfl) fun hs => hs.1 hunused)
  | @abort p hcur htop =>
    have hembryo : (s.slot q).state = .EMBRYO :=
      h.sched.embryo_of_top (t := .proc p) (by rcases htop with htop | htop <;> rw [htop] <;> rfl)
    exact .inl (iff_of_false (fun hs => hs.1 rfl) fun hs => hs.2 hembryo)
  | start hcur htop => exact .inr (.inl ⟨Slot.started_of rfl nofun nofun, _, hcur, htop⟩)
  | reap hcur htop hparent hstate => exact .inr (.inr ⟨_, hcur, htop, hparent, hstate⟩)
  | run hstate => exact .inl (iff_of_true (Slot.started_of rfl nofun nofun) (Slot.started_of hstate nofun nofun))

/-- the ZOMBIE children of a process stay while another CPU holds ptable.lock -/
theorem Step.zombie_other (h : Threads s) (hstep : Step initproc s a u) (hheld : s.holder .ptable = some c)
    (hc : c ≠ a.cpu) (r : Fin n) : u.zombie r = s.zombie r := by
  have hout : ∀ p, s.cur a.cpu = some p → (s.top (.proc p)).crit = false := by
    intro p hcur
    by_contra hcrit
    rw [← thread_of_cur hcur, Bool.not_eq_false] at hcrit
    exact hc (Option.some.inj (hheld.symm.trans ((h.locks.lock _).2 hcrit)))
  have hslot : ∀ q, (u.slot q).parent = some r ∧ (u.slot q).state = .ZOMBIE ↔
      (s.slot q).parent = some r ∧ (s.slot q).state = .ZOMBIE := by
    intro q
    have hedit := hstep.edit q
    generalize u.slot q = y at hedit
    cases hedit with
    | same | tidy | fault => rfl
    | sleep hcur htop | wait hcur htop | pass _ hcur htop | zombie hcur htop | reap hcur htop =>
      have hcrit := hout _ hcur
      rw [htop] at hcrit
      exact Bool.noConfusion hcrit
    | wake =>
      rw [Slot.wake_parent]
      exact and_congr Iff.rfl (Slot.wake_state _ _ rfl)
    | kill => exact and_congr Iff.rfl (Slot.kill_state _ rfl)
    | embryo ha hcur htop hunused => simp [hunused]
    | @abort p hcur htop =>
      have hembryo : (s.slot q).state = .EMBRYO :=
        h.sched.embryo_of_top (t := .proc p) (by rcases htop with htop | htop <;> rw [htop] <;> rfl)
      simp [hembryo]
    | @adopt p _ hcur htop | @start p hcur htop =>
      have hembryo : (s.slot q).state = .EMBRYO := h.sched.embryo_of_top (t := .proc p) (by rw [htop]; rfl)
      simp [hembryo]
    | giveUp hcur => simp [h.sched.running_of_cur hcur]
    | run hstate => simp [hstate]
  simp only [St.zombie, hslot]

/-- the page table of a new slot is stored when `copyuvm` returns -/
theorem Step.filled (h : Threads s) (hstep : Step initproc s a u) {t : Thread n C} (hq : (u.pc t).filled = some q) :
    (s.pc t).filled = some q ∨
      a = .kalloc a.cpu true ∧ ∃ p, s.cur a.cpu = some p ∧ s.pc (.proc p) = .copyuvm q := by
  by_cases ht : t = s.thread a.cpu
  · rcases hstep.pc_hop h with ⟨hsame, -⟩ | ⟨-, hhop⟩
    · rw [ht, hsame, ← ht] at hq
      exact .inl hq
    · rw [ht] at hq ⊢
      generalize hx : s.pc (s.thread a.cpu) = x at hhop
      generalize u.pc (s.thread a.cpu) = y at hhop hq
      cases hhop with
      | copyuvm ha hcur =>
        rw [thread_of_cur hcur] at hx
        exact .inr ⟨ha, _, hcur, Option.some.inj hq ▸ hx⟩
      | adopt => exact .inl hq
      | stay hy =>
        rcases hy with rfl | rfl <;> cases hq
      | call hcur hcall => cases (Pc.forks_of_filled hq).symm.trans (Threads.mayCall_crit hcall).2
      | iret hy =>
        rw [hy, hx] at hq
        cases hq
      | _ => cases hq
  · rcases (hstep.pc_other ht).1 with hsame | ⟨np, -, -, hnew | hnew⟩
    · rw [hsame] at hq
      exact .inl hq
    · rw [hnew] at hq
      cases hq
    · rw [hnew] at hq
      cases hq

/-- at this point of `wait` a process only goes on -/
theorem Step.of_scanKids (h : Threads s) (hstep : Step initproc s a u) (htop : s.top (s.thread a.cpu) = .scanKids) :
    a = .move a.cpu := by
  cases hstep with
  | @interrupt c htrap hncli =>
    have hcrit : (s.top (s.thread c)).crit = true := congrArg Pc.crit htop
    exact absurd ((h.locks.lock c).2 hcrit) (h.unlocked hncli .ptable)
  | acquire hx | release hx => rcases hx with hx | hx <;> cases htop.symm.trans hx
  | abort hcur hx =>
    rw [← thread_of_cur hcur] at hx
    rcases hx with hx | hx <;> cases htop.symm.trans hx
  | call hcur hx | take hcur hx | full hcur hx | kstack hcur hx | copyuvm hcur hx | fault hcur hx | tick hcur hx =>
    rw [← thread_of_cur hcur] at hx
    cases htop.symm.trans hx
  | handle hx | iret hx => cases htop.symm.trans hx
  | _ => rfl

theorem Step.kalloc_cur {b : Bool} (hstep : Step initproc s (.kalloc c b) u) : u.cur c = s.cur c := by
  cases hstep with
  | kstack | copyuvm => rw [goto_cur]
  | abort =>
    rw [goto_cur]
    rfl

end

/-! ## The invariant -/

/-- the owners of pages -/
inductive Owner (n : ℕ) where
  | stack (p : Fin n)
  | table (p : Fin n)
  | work (p : Fin n)
deriving DecidableEq

/-- the page table that a process works on -/
def Work.page : Work n → Option Page
  | .copy d | .load d | .commit d | .freevm d _ => some d
  | .idle | .failed | .emptied _ => none

/-- the ZOMBIE that `wait` has begun to free -/
def Work.reaps : Work n → Option (Fin n)
  | .freevm _ (.wait q) | .emptied q => some q
  | _ => none

def Mem.owner (s : Mem n C) : Owner n → Option Page
  | .stack p => s.kstack p
  | .table p => s.own p
  | .work p => (s.work p).page

/-- the process that a CPU is switching from or to -/
def Switch.proc : Switch n → Option (Fin n)
  | .ready => none
  | .picked p | .leaving p | .back p => some p

/-- CPU c executes p, or is switching from or to it -/
def Mem.Bound (s : Mem n C) (c : C) (p : Fin n) : Prop := s.proc.cur c = some p ∨ (s.switch c).proc = some p

namespace Mem

structure Inv (s : Mem n C) : Prop where
  threads : Threads s.proc
  owned : Owned s.owner s.free
  switch : ∀ c p, (s.switch c).proc = some p → s.proc.cur c = none ∧ (s.proc.top (.sched c)).crit = true ∧
    (s.proc.slot p).Started ∧ ∀ c', s.proc.cur c' ≠ some p
  rsp : ∀ c d, s.rsp c = some d → ∃ p, s.kstack p = some d ∧ (s.proc.cur c = some p ∨ s.switch c = .leaving p)
  cr3 : ∀ c d, s.cr3 c = some d → ∃ p, (s.own p = some d ∨ s.work p = .commit d) ∧ s.Bound c p
  table : ∀ q, (s.proc.slot q).Started → s.own q = s.pgdir q ∨ ∃ r, (s.work r).reaps = some q
  filled : ∀ t q, (s.proc.pc t).filled = some q → s.own q = s.pgdir q
  reaps : ∀ r q, (s.work r).reaps = some q →
    (∃ c, s.proc.cur c = some r) ∧ s.proc.top (.proc r) = .scanKids ∧ s.proc.zombie r = some q

variable {initproc : Fin n} {s t : Mem n C} {a : Act n C} {c c' : C} {p q r np : Fin n} {d : Page} {w : Work n}
  {u : St n C}

/-- a CPU in a switch holds ptable.lock -/
theorem Inv.switch_held (h : Inv s) (hp : (s.switch c).proc = some p) : s.proc.holder .ptable = some c := by
  obtain ⟨hcur, hcrit, -⟩ := h.switch c p hp
  rw [h.threads.locks.lock, thread_of_none hcur]
  exact hcrit

/-- so does the CPU of a `wait` that frees a ZOMBIE -/
theorem Inv.scan_held (h : Inv s) (hcur : s.proc.cur c = some r) (htop : s.proc.top (.proc r) = .scanKids) :
    s.proc.holder .ptable = some c := by
  rw [h.threads.locks.lock, thread_of_cur hcur, htop]
  rfl

/-- only one process at a time frees ZOMBIEs -/
theorem Inv.reaper (h : Inv s) (hcur : s.proc.cur c = some p) (htop : s.proc.top (.proc p) = .scanKids)
    (hr : (s.work r).reaps = some q) : r = p := by
  obtain ⟨⟨c', hcur'⟩, htop', -⟩ := h.reaps r q hr
  have hc : c' = c := Option.some.inj ((h.scan_held hcur' htop').symm.trans (h.scan_held hcur htop))
  exact Option.some.inj ((hc ▸ hcur').symm.trans hcur)

/-- no CPU is bound to a slot that `fork` fills -/
theorem Inv.unbound_embryo (h : Inv s) (hstate : (s.proc.slot q).state = .EMBRYO) : ¬ s.Bound c q := by
  rintro (hcur | hswitch)
  · exact (h.threads.sched.started hcur).2 hstate
  · exact (h.switch c q hswitch).2.2.1.2 hstate

/-- no CPU is bound to a ZOMBIE that `wait` finds -/
theorem Inv.unbound_zombie (h : Inv s) (hcur : s.proc.cur c = some p) (htop : s.proc.top (.proc p) = .scanKids)
    (hstate : (s.proc.slot q).state = .ZOMBIE) : ¬ s.Bound c' q := by
  rintro (hcur' | hswitch)
  · have hrun := h.threads.sched.running_of_cur hcur'
    rw [hstate] at hrun
    cases hrun
  · -- a CPU that has not left the page table of q holds the lock that `wait` holds
    have hc : c' = c := Option.some.inj ((h.switch_held hswitch).symm.trans (h.scan_held hcur htop))
    have hnone := (h.switch c' q hswitch).1
    rw [hc, hcur] at hnone
    cases hnone

theorem bound_of_rsp (hp : s.proc.cur c = some p ∨ s.switch c = .leaving p) : s.Bound c p :=
  hp.imp_right fun hswitch => congrArg Switch.proc hswitch

/-- a started slot that is not a ZOMBIE has its page table -/
theorem Inv.own_pgdir (h : Inv s) (hstart : (s.proc.slot q).Started) (hstate : (s.proc.slot q).state ≠ .ZOMBIE) :
    s.own q = s.pgdir q := by
  rcases h.table q hstart with hown | ⟨r, hr⟩
  · exact hown
  · exact absurd (zombie_spec (h.reaps r q hr).2.2).2 hstate

theorem Inv.own_running (h : Inv s) (hcur : s.proc.cur c = some p) : s.own p = s.pgdir p := by
  refine h.own_pgdir (h.threads.sched.started hcur) ?_
  rw [h.threads.sched.running_of_cur hcur]
  exact ProcState.noConfusion

/-! ## Steps of the table -/

variable [DecidableEq C]

/-- `wait` frees a ZOMBIE it finds before it goes on -/
def Quiet (s : Mem n C) (a : Act n C) : Prop :=
  ∀ p, s.proc.cur a.cpu = some p → s.proc.top (.proc p) = .scanKids → s.proc.zombie p = none

theorem quiet_of_plain (h : Inv s) (hstep : Step initproc s.proc a u) (hplain : s.plain a = true) : s.Quiet a := by
  intro p hcur htop
  obtain ⟨c, rfl⟩ : ∃ c, a = .move c := ⟨_, hstep.of_scanKids h.threads (by rw [thread_of_cur hcur, htop])⟩
  change s.proc.cur c = some p at hcur
  simp only [Mem.plain, Act.cpu, hcur, htop, ne_eq, not_true, false_or, decide_eq_true_eq] at hplain
  exact hplain.2

/-- the page tables of slots, when the table takes a step -/
theorem Inv.links (h : Inv s) (hstep : Step initproc s.proc a u) (hquiet : s.Quiet a)
    (hfill : ∀ p q, a = .kalloc a.cpu true → s.proc.cur a.cpu = some p → s.proc.pc (.proc p) = .copyuvm q →
      s.own q = s.pgdir q) :
    (∀ q, (u.slot q).Started → s.own q = s.pgdir q ∨ ∃ r, (s.work r).reaps = some q) ∧
    ∀ t q, (u.pc t).filled = some q → s.own q = s.pgdir q := by
  refine ⟨fun q hq => ?_, fun t q hq => ?_⟩
  · rcases hstep.slot_started h.threads q with hiff | ⟨-, p, hcur, htop⟩ | ⟨p, hcur, htop, hparent, hstate⟩
    · exact h.table q (hiff.1 hq)
    · left
      apply h.filled (.proc p)
      have htrap := h.threads.sched.own (t := .proc p) (by rw [htop]; rfl)
      rw [St.top, htrap, Option.getD_none] at htop
      rw [htop]
      rfl
    · exact absurd hstate (zombie_none (hquiet p hcur htop) hparent)
  · rcases hstep.filled h.threads hq with hold | ⟨ha, p, hcur, hpc⟩
    · exact h.filled t q hold
    · exact hfill p q ha hcur hpc

/-- a slot that was started is so after the step -/
theorem started_of_quiet (h : Inv s) (hstep : Step initproc s.proc a u) (hquiet : s.Quiet a)
    (hq : (s.proc.slot q).Started) : (u.slot q).Started := by
  rcases hstep.slot_started h.threads q with hiff | ⟨hnew, -⟩ | ⟨p, hcur, htop, hparent, hstate⟩
  · exact hiff.2 hq
  · exact hnew
  · exact absurd hstate (zombie_none (hquiet p hcur htop) hparent)

/-- a step of the table that switches no CPU -/
theorem Inv.run (h : Inv s) (hstep : Step initproc s.proc a u) (hready : s.switch a.cpu = .ready)
    (hcur : u.cur a.cpu = s.proc.cur a.cpu) (hquiet : s.Quiet a)
    (hfill : ∀ p q, a = .kalloc a.cpu true → s.proc.cur a.cpu = some p → s.proc.pc (.proc p) = .copyuvm q →
      s.own q = s.pgdir q) : Inv { s with proc := u } := by
  have hcurs : u.cur = s.proc.cur := by
    funext c
    by_cases hc : c = a.cpu
    · rw [hc, hcur]
    · exact hstep.cur_other hc
  obtain ⟨htable, hfilled⟩ := h.links hstep hquiet hfill
  refine ⟨h.threads.step hstep, h.owned, fun c p hp => ?_, fun c d hd => ?_, fun c d hd => ?_, htable, hfilled,
    fun r q hr => ?_⟩
  · obtain ⟨hnone, hcrit, hstart, hother⟩ := h.switch c p hp
    have hc : c ≠ a.cpu := by
      rintro rfl
      rw [hready] at hp
      cases hp
    refine ⟨hcurs ▸ hnone, ?_, started_of_quiet h hstep hquiet hstart, hcurs ▸ hother⟩
    have hthread : Thread.sched c ≠ s.proc.thread a.cpu := by
      rw [← thread_of_none hnone]
      exact fun heq => hc (h.threads.thread_inj heq)
    rcases hstep.top_other h.threads hthread with htop | ⟨np, hnp, -⟩
    · simp only [htop, hcrit]
    · cases hnp
  · simpa only [hcurs] using h.rsp c d hd
  · simpa only [Bound, hcurs] using h.cr3 c d hd
  · obtain ⟨⟨c, hr'⟩, htop, hzombie⟩ := h.reaps r q hr
    by_cases hc : c = a.cpu
    · rw [hquiet r (hc ▸ hr') htop] at hzombie
      cases hzombie
    · refine ⟨⟨c, hcurs ▸ hr'⟩, ?_, ?_⟩
      · have hthread : Thread.proc r ≠ s.proc.thread a.cpu := by
          rw [← thread_of_cur hr']
          exact fun heq => hc (h.threads.thread_inj heq)
        rcases hstep.top_other h.threads hthread with hsame | ⟨np, hnp, hstate, -⟩
        · exact hsame.trans htop
        · cases hnp
          rw [h.threads.sched.running_of_cur hr'] at hstate
          rcases hstate with hstate | hstate <;> cases hstate
      · exact (hstep.zombie_other h.threads (h.scan_held hr' htop) hc r).trans hzombie

/-! ## Steps that switch -/

theorem Inv.pick (h : Inv s) (hcur : s.proc.cur c = none) (hready : s.switch c = .ready)
    (htop : s.proc.top (.sched c) = .scan p) (hstate : (s.proc.slot p).state = .RUNNABLE) (hd : s.pgdir p = some d) :
    Inv { s with cr3 := update s.cr3 c (some d), switch := update s.switch c (.picked p) } := by
  have hstart : (s.proc.slot p).Started := Slot.started_of hstate nofun nofun
  have hown : s.own p = some d := by rw [h.own_pgdir hstart (by rw [hstate]; exact nofun), hd]
  refine ⟨h.threads, h.owned, fun c' p' hp => ?_, fun c' e he => ?_, fun c' e he => ?_, h.table, h.filled, h.reaps⟩
  · by_cases hc : c' = c
    · rw [hc] at hp ⊢
      simp only [update_self, Switch.proc, Option.some.injEq] at hp
      rw [← hp]
      refine ⟨hcur, by simp only [htop]; rfl, hstart, fun c' hcur' => ?_⟩
      have hrun := h.threads.sched.running_of_cur hcur'
      rw [hstate] at hrun
      cases hrun
    · simp only [update_of_ne hc] at hp
      exact h.switch c' p' hp
  · obtain ⟨p', hp, hon⟩ := h.rsp c' e he
    refine ⟨p', hp, hon.imp_right fun hleave => ?_⟩
    by_cases hc : c' = c
    · rw [hc, hready] at hleave
      cases hleave
    · simp only [update_of_ne hc, hleave]
  · by_cases hc : c' = c
    · rw [hc] at he ⊢
      simp only [update_self, Option.some.injEq] at he
      exact ⟨p, .inl (he ▸ hown), .inr (by simp only [update_self, Switch.proc])⟩
    · simp only [update_of_ne hc] at he
      obtain ⟨p', hp, hon⟩ := h.cr3 c' e he
      exact ⟨p', hp, by simpa only [Bound, update_of_ne hc] using hon⟩

theorem Inv.enter (h : Inv s) (hswitch : s.switch c = .picked p) (hstep : Step initproc s.proc (.move c) u)
    (hnew : u.cur c = some p) :
    Inv { s with proc := u, rsp := update s.rsp c (s.kstack p), switch := update s.switch c .ready } := by
  have hproc : (s.switch c).proc = some p := by rw [hswitch]; rfl
  obtain ⟨hcur, -⟩ := h.switch c p hproc
  have hquiet : s.Quiet (.move c) := by
    intro p' hcur'
    rw [Act.cpu, hcur] at hcur'
    cases hcur'
  have hother : ∀ c', c' ≠ c → u.cur c' = s.proc.cur c' := fun c' hc => hstep.cur_other hc
  obtain ⟨htable, hfilled⟩ := h.links hstep hquiet (by simp)
  refine ⟨h.threads.step hstep, h.owned, fun c' p' hp => ?_, fun c' e he => ?_, fun c' e he => ?_, htable, hfilled,
    fun r q hr => ?_⟩
  · -- no other CPU is in a switch: this one holds the lock
    by_cases hc : c' = c
    · rw [hc] at hp
      simp only [update_self] at hp
      cases hp
    · simp only [update_of_ne hc] at hp
      exact absurd (Option.some.inj ((h.switch_held hp).symm.trans (h.switch_held hproc))) hc
  · by_cases hc : c' = c
    · rw [hc] at he ⊢
      simp only [update_self] at he
      exact ⟨p, he, .inl hnew⟩
    · simp only [update_of_ne hc] at he
      obtain ⟨p', hp, hon⟩ := h.rsp c' e he
      exact ⟨p', hp, by simpa only [hother c' hc, update_of_ne hc] using hon⟩
  · obtain ⟨p', hp, hon⟩ := h.cr3 c' e he
    refine ⟨p', hp, ?_⟩
    by_cases hc : c' = c
    · rw [hc] at hon ⊢
      rcases hon with hcur' | hpick
      · rw [hcur] at hcur'
        cases hcur'
      · exact .inl (hnew.trans (hproc.symm.trans hpick))
    · simpa only [Bound, hother c' hc, update_of_ne hc] using hon
  · -- nor in a `wait` that frees a ZOMBIE
    obtain ⟨⟨c', hcur'⟩, htop, -⟩ := h.reaps r q hr
    have hc : c' = c := Option.some.inj ((h.scan_held hcur' htop).symm.trans (h.switch_held hproc))
    rw [hc, hcur] at hcur'
    cases hcur'

theorem Inv.leave (h : Inv s) (hon : s.On c p) (hplain : s.plain (.move c) = true)
    (hstep : Step initproc s.proc (.move c) u) (hnew : u.cur c = none) :
    Inv { s with proc := u, switch := update s.switch c (.leaving p) } := by
  obtain ⟨hready, hcur⟩ := hon
  have hquiet : s.Quiet (.move c) := quiet_of_plain h hstep hplain
  have hother : ∀ c', c' ≠ c → u.cur c' = s.proc.cur c' := fun c' hc => hstep.cur_other hc
  have hthreads := h.threads.step hstep
  have hran : u.top (.sched c) = .ran p := by
    have hne : Thread.sched c ≠ s.proc.thread (Act.move (n := n) c).cpu := by
      rw [Act.cpu, thread_of_cur hcur]
      simp
    rcases hstep.top_other h.threads hne with htop | ⟨np, hnp, -⟩
    · rw [htop, h.threads.sched.ran c p hcur]
    · cases hnp
  -- the lock is held by this CPU after the step, so no other CPU held it before
  have hheld : u.holder .ptable = some c := by
    rw [hthreads.locks.lock, thread_of_none hnew, hran]
    rfl
  have halone : ∀ c', s.proc.holder .ptable = some c' → c' = c := by
    intro c' hc'
    by_contra hc
    exact hc (Option.some.inj ((hstep.holder_other hc hc').symm.trans hheld))
  obtain ⟨htable, hfilled⟩ := h.links hstep hquiet (by simp)
  refine ⟨hthreads, h.owned, fun c' p' hp => ?_, fun c' e he => ?_, fun c' e he => ?_, htable, hfilled, fun r q hr => ?_⟩
  · by_cases hc : c' = c
    · rw [hc] at hp ⊢
      simp only [update_self, Switch.proc, Option.some.injEq] at hp
      rw [← hp]
      refine ⟨hnew, by simp only [hran]; rfl, started_of_quiet h hstep hquiet (h.threads.sched.started hcur), fun c'' hc'' => ?_⟩
      by_cases hcc : c'' = c
      · rw [hcc, hnew] at hc''
        cases hc''
      · rw [hother c'' hcc] at hc''
        exact hcc (h.threads.sched.uniq c'' c p hc'' hcur)
    · simp only [update_of_ne hc] at hp
      exact absurd (halone c' (h.switch_held hp)) hc
  · obtain ⟨p', hp, hon⟩ := h.rsp c' e he
    refine ⟨p', hp, ?_⟩
    by_cases hc : c' = c
    · rw [hc] at hon ⊢
      rcases hon with hcur' | hleave
      · right
        rw [hcur, Option.some.injEq] at hcur'
        simp only [update_self, hcur']
      · rw [hready] at hleave
        cases hleave
    · simpa only [hother c' hc, update_of_ne hc] using hon
  · obtain ⟨p', hp, hon⟩ := h.cr3 c' e he
    refine ⟨p', hp, ?_⟩
    by_cases hc : c' = c
    · rw [hc] at hon ⊢
      rcases hon with hcur' | hleave
      · right
        rw [hcur] at hcur'
        simpa only [update_self, Switch.proc] using hcur'
      · rw [hready] at hleave
        cases hleave
    · simpa only [Bound, hother c' hc, update_of_ne hc] using hon
  · obtain ⟨⟨c', hcur'⟩, htop, hzombie⟩ := h.reaps r q hr
    have hc := halone c' (h.scan_held hcur' htop)
    rw [hquiet r (hc ▸ hcur') htop] at hzombie
    cases hzombie

/-- from one stage of a switch to the next, with the stack left -/
theorem Inv.swtch (h : Inv s) (hswitch : s.switch c = .leaving p) :
    Inv { s with rsp := update s.rsp c none, switch := update s.switch c (.back p) } := by
  have hproc : ∀ c', (update s.switch c (.back p) c').proc = (s.switch c').proc := by
    intro c'
    by_cases hc : c' = c
    · rw [hc, update_self, hswitch]
      rfl
    · rw [update_of_ne hc]
  refine ⟨h.threads, h.owned, fun c' p' hp => h.switch c' p' (hproc c' ▸ hp), fun c' e he => ?_, fun c' e he => ?_,
    h.table, h.filled, h.reaps⟩
  · by_cases hc : c' = c
    · rw [hc] at he
      simp only [update_self] at he
      cases he
    · simp only [update_of_ne hc] at he ⊢
      exact h.rsp c' e he
  · simpa only [Bound, hproc] using h.cr3 c' e he

theorem Inv.switchkvm (h : Inv s) (hswitch : s.switch c = .back p) :
    Inv { s with cr3 := update s.cr3 c none, switch := update s.switch c .ready } := by
  refine ⟨h.threads, h.owned, fun c' p' hp => ?_, fun c' e he => ?_, fun c' e he => ?_, h.table, h.filled, h.reaps⟩
  · by_cases hc : c' = c
    · rw [hc] at hp
      simp only [update_self] at hp
      cases hp
    · simp only [update_of_ne hc] at hp
      exact h.switch c' p' hp
  · obtain ⟨p', hp, hon⟩ := h.rsp c' e he
    refine ⟨p', hp, hon.imp_right fun hleave => ?_⟩
    by_cases hc : c' = c
    · rw [hc, hswitch] at hleave
      cases hleave
    · simp only [update_of_ne hc, hleave]
  · by_cases hc : c' = c
    · rw [hc] at he
      simp only [update_self] at he
      cases he
    · simp only [update_of_ne hc] at he
      simpa only [Bound, update_of_ne hc] using h.cr3 c' e he

end Mem

end Xv6.Proc
