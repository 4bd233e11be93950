/-
CPUs, threads and locks: the invariant, and the steps of one thread.

`Inv`: every CPU is in a view from which its thread can go on (`Safe`), and every process that may be switched to can go
on from a CPU that holds ptable.lock alone; a process whose state is no longer RUNNING is in `sched` with the lock held.
- `Inv.goes`: a thread goes on, and only its CPU and its process change;
- `Inv.plain`: so do the instructions of the lock functions;
- `Locks.xchg`, `setCpu`, `clearCpu`, `unlock`: what they do to the locks.
-/
import Xv6.Spin.Safe

namespace Xv6.Spin

open Xv6.Proc (Lock ProcState Thread)
open Function

variable {n : ℕ} {C : Type}

/-! ## The invariant -/

/-- `sched` runs from its checks to the end, after the change of state -/
def Follows (i j : Instr n) : Prop :=
  (j = .schedCheck → ∃ st, i = .setState st) ∧ (j = .swtch → i = .schedCheck) ∧ (j = .setIntena → i = .swtch)

def St.view (s : St n C) (c : C) : View := ⟨s.held c, s.grab c, s.ncli c, s.IF c⟩

/-- the locks and what CPUs know of them -/
structure Locks (s : St n C) : Prop where
  held : ∀ c l, l ∈ s.held c → s.locked l = some c ∧ s.lcpu l = some c
  grab : ∀ c l, s.grab c = some l → s.locked l = some c ∧ l ∉ s.held c
  locked : ∀ l c, s.locked l = some c → l ∈ s.held c ∨ s.grab c = some l
  lcpu : ∀ l c, s.lcpu l = some c → l ∈ s.held c
  nodup : ∀ c, (s.held c).Nodup

/-- code that a handler has interrupted -/
def Frame (f : List (Instr n) × Bool) : Prop := Safe f.1 .open_ ∧ f.1.IsChain Follows ∧ ∀ p, .run p ∉ f.1

structure Inv (s : St n C) : Prop where
  locks : Locks s
  safe : ∀ c, Safe (s.todo (s.thread c)) (s.view c)
  chain : ∀ t, (s.todo t).IsChain Follows
  frames : ∀ t, ∀ f ∈ (s.thr t).frames, Frame f
  sched : ∀ c p, s.on c = some p → Safe (s.todo (.sched c)) .switched
  parked : ∀ p, (∀ c, s.on c ≠ some p) → s.state p = .RUNNABLE ∨ s.state p = .SLEEPING →
    Safe (s.todo (.proc p)) .switched ∧ (s.todo (.proc p)).head? ≠ some .schedCheck
  uniq : ∀ c c' p, s.on c = some p → s.on c' = some p → c = c'
  leaving : ∀ c p, s.on c = some p → s.state p = .RUNNING ∨
    .ptable ∈ s.held c ∧ Leaving (s.todo (.proc p)) ∧ s.state p ≠ .UNUSED
  picked : ∀ t p, .run p ∈ s.todo t → ∃ c, t = .sched c ∧ s.todo t <:+ dispatch p ∧ s.on c = none ∧
    s.state p = .RUNNABLE ∧ .ptable ∈ s.held c
  check : ∀ p, (s.todo (.proc p)).head? = some .schedCheck → s.state p ≠ .RUNNING
  kept : ∀ p, (s.todo (.proc p)).head? = some .swtch ∨ (s.todo (.proc p)).head? = some .setIntena →
    (s.thr (.proc p)).intena = s.left p

variable {s u : St n C} {c c' : C} {p q : Fin n} {l : Lock} {i : Instr n} {τ : List (Instr n)} {x : Thr n}

theorem Locks.congr (h : Locks s) (hheld : u.held = s.held) (hgrab : u.grab = s.grab) (hlocked : u.locked = s.locked)
    (hlcpu : u.lcpu = s.lcpu) : Locks u := by
  refine ⟨?_, ?_, ?_, ?_, ?_⟩
  · rw [hheld, hlocked, hlcpu]
    exact h.held
  · rw [hheld, hlocked, hgrab]
    exact h.grab
  · rw [hheld, hlocked, hgrab]
    exact h.locked
  · rw [hheld, hlcpu]
    exact h.lcpu
  · rw [hheld]
    exact h.nodup

/-- a lock is held by one CPU -/
theorem Locks.alone (h : Locks s) (hl : l ∈ s.held c) (hl' : l ∈ s.held c') : c = c' :=
  Option.some.inj ((h.held c l hl).1.symm.trans (h.held c' l hl').1)

theorem Locks.mem_held (h : Locks s) (hl : s.Holding c l) : l ∈ s.held c := h.lcpu l c hl.2

theorem Locks.holding (h : Locks s) (hl : l ∈ s.held c) : s.Holding c l := by
  obtain ⟨hlocked, hlcpu⟩ := h.held c l hl
  exact ⟨by rw [hlocked]; exact Option.some_ne_none c, hlcpu⟩

theorem thread_of_on (h : s.on c = some p) : s.thread c = .proc p := by rw [St.thread, h]

theorem thread_of_none (h : s.on c = none) : s.thread c = .sched c := by rw [St.thread, h]

theorem on_of_thread (h : s.thread c = .proc p) : s.on c = some p := by
  cases hc : s.on c with
  | some q =>
    rw [thread_of_on hc] at h
    cases h
    rfl
  | none =>
    rw [thread_of_none hc] at h
    cases h

theorem none_of_thread (h : s.thread c = .sched c') : s.on c = none ∧ c = c' := by
  cases hc : s.on c with
  | some q =>
    rw [thread_of_on hc] at h
    cases h
  | none =>
    rw [thread_of_none hc] at h
    cases h
    exact ⟨rfl, rfl⟩

theorem Inv.thread_inj (h : Inv s) (heq : s.thread c = s.thread c') : c = c' := by
  cases hc : s.on c with
  | some p =>
    rw [thread_of_on hc] at heq
    exact h.uniq c c' p hc (on_of_thread heq.symm)
  | none =>
    rw [thread_of_none hc] at heq
    exact (none_of_thread heq.symm).2.symm

/-! ## Steps of one thread -/

variable [DecidableEq C]

/-- **Frame.** The thread on c goes on with its work, and only its CPU and its process change. -/
theorem Inv.goes (h : Inv s) (hlocks : Locks u) (hon : u.on = s.on)
    (hthr : u.thr = update s.thr (s.thread c) x) (hview : ∀ c', c' ≠ c → u.view c' = s.view c')
    (hstate : ∀ p, s.on c ≠ some p → u.state p = s.state p) (hleft : ∀ p, s.on c ≠ some p → u.left p = s.left p)
    (hsafe : Safe x.todo (u.view c)) (hchain : x.todo.IsChain Follows) (hframes : ∀ f ∈ x.frames, Frame f)
    (hpick : ∀ p, .run p ∈ x.todo →
      s.on c = none ∧ x.todo <:+ dispatch p ∧ s.state p = .RUNNABLE ∧ .ptable ∈ u.held c)
    (hproc : ∀ p, s.on c = some p →
      (u.state p = .RUNNING ∨ .ptable ∈ u.held c ∧ Leaving x.todo ∧ u.state p ≠ .UNUSED) ∧
      (x.todo.head? = some .schedCheck → u.state p ≠ .RUNNING) ∧
      (x.todo.head? = some .swtch ∨ x.todo.head? = some .setIntena → x.intena = u.left p)) : Inv u := by
  have hself : u.thr (s.thread c) = x := by rw [hthr, update_self]
  have hother : ∀ t, t ≠ s.thread c → u.thr t = s.thr t := fun t ht => by rw [hthr, update_of_ne ht]
  have htodo : ∀ t, t ≠ s.thread c → u.todo t = s.todo t := fun t ht => congrArg Thr.todo (hother t ht)
  have hthread : u.thread = s.thread := by
    funext c'
    rw [St.thread, St.thread, hon]
  have hheld : ∀ c', c' ≠ c → u.held c' = s.held c' := fun c' hc => congrArg View.held (hview c' hc)
  refine ⟨hlocks, fun c' => ?_, fun t => ?_, fun t => ?_, fun c' p hp => ?_, fun p hp hs => ?_, ?_, fun c' p hp => ?_,
    fun t p hp => ?_, fun p hp => ?_, fun p hp => ?_⟩
  · rw [hthread]
    by_cases hc : c' = c
    · rw [hc, St.todo, hself]
      exact hsafe
    · rw [hview c' hc, htodo _ fun heq => hc (h.thread_inj heq)]
      exact h.safe c'
  · by_cases ht : t = s.thread c
    · rw [ht, St.todo, hself]
      exact hchain
    · rw [htodo t ht]
      exact h.chain t
  · by_cases ht : t = s.thread c
    · rw [ht, hself]
      exact hframes
    · rw [hother t ht]
      exact h.frames t
  · rw [hon] at hp
    rw [htodo]
    · exact h.sched c' p hp
    · intro heq
      obtain ⟨hnone, rfl⟩ := none_of_thread heq.symm
      cases hnone.symm.trans hp
  · rw [hon] at hp
    rw [hstate p (hp c)] at hs
    rw [htodo _ fun heq => hp c (on_of_thread heq.symm)]
    exact h.parked p hp hs
  · rw [hon]
    exact h.uniq
  · rw [hon] at hp
    by_cases hc : c' = c
    · rw [hc] at hp ⊢
      rw [← thread_of_on hp, St.todo, hself]
      exact (hproc p hp).1
    · have hne : s.on c ≠ some p := fun hcp => hc (h.uniq c' c p hp hcp)
      rw [hstate p hne, hheld c' hc, htodo _ fun heq => hne (on_of_thread heq.symm)]
      exact h.leaving c' p hp
  · rw [hon]
    by_cases ht : t = s.thread c
    · rw [ht, St.todo, hself] at hp ⊢
      obtain ⟨hnone, hsuffix, hrunnable, hl⟩ := hpick p hp
      refine ⟨c, thread_of_none hnone, hsuffix, hnone, ?_, hl⟩
      rw [hstate p (by rw [hnone]; exact nofun), hrunnable]
    · rw [htodo t ht] at hp ⊢
      obtain ⟨c', rfl, hsuffix, hnone, hrunnable, hl⟩ := h.picked t p hp
      have hc : c' ≠ c := by
        rintro rfl
        exact ht (thread_of_none hnone).symm
      have hne : s.on c ≠ some p := by
        intro hcp
        rcases h.leaving c p hcp with hrun | ⟨hl', -⟩
        · cases hrunnable.symm.trans hrun
        · exact hc (h.locks.alone hl hl')
      exact ⟨c', rfl, hsuffix, hnone, by rw [hstate p hne, hrunnable], by rw [hheld c' hc]; exact hl⟩
  · by_cases ht : Thread.proc p = s.thread c
    · have hcp := on_of_thread ht.symm
      rw [ht, St.todo, hself] at hp
      exact (hproc p hcp).2.1 hp
    · rw [htodo _ ht] at hp
      rw [hstate p fun hcp => ht (thread_of_on hcp).symm]
      exact h.check p hp
  · by_cases ht : Thread.proc p = s.thread c
    · have hcp := on_of_thread ht.symm
      rw [ht, St.todo, hself] at hp
      rw [ht, hself]
      exact (hproc p hcp).2.2 hp
    · rw [htodo _ ht] at hp
      rw [hother _ ht, hleft p fun hcp => ht (thread_of_on hcp).symm]
      exact h.kept p hp

/-- neither a part of `sched` nor of `scheduler` -/
def Instr.plain : Instr n → Bool
  | .setState _ | .schedCheck | .swtch | .run _ | .loop | .scan | .zombieExit => false
  | _ => true

/-- an instruction of the lock functions, which are no part of a `sched` -/
theorem Inv.plain (h : Inv s) (htodo : s.todo (s.thread c) = i :: τ) (hi : i.plain = true) (hlocks : Locks u)
    (hon : u.on = s.on) (hstate : u.state = s.state) (hleft : u.left = s.left)
    (hthr : u.thr = update s.thr (s.thread c) x) (hx : x.todo = τ)
    (hframes : x.frames = (s.thr (s.thread c)).frames) (hview : ∀ c', c' ≠ c → u.view c' = s.view c')
    (hsafe : Safe τ (u.view c)) (hheld : .ptable ∈ s.held c → .ptable ∉ u.held c → ∃ l, i = .clearCpu l) : Inv u := by
  have hchain := h.chain (s.thread c)
  rw [htodo] at hchain
  have hnext : ∀ j, τ.head? = some j → Follows i j := by
    intro j hj
    cases τ with
    | nil => cases hj
    | cons k κ =>
      cases hj
      exact (List.isChain_cons_cons.1 hchain).1
  refine h.goes hlocks hon hthr hview (fun p _ => by rw [hstate]) (fun p _ => by rw [hleft]) (hx ▸ hsafe)
    (hx ▸ hchain.tail) (hframes ▸ h.frames _) (fun p hp => ?_) (fun p hp => ⟨.inl ?_, fun hj => ?_, fun hj => ?_⟩)
  · rw [hx] at hp ⊢
    have hmem : .run p ∈ s.todo (s.thread c) := by rw [htodo]; exact List.mem_cons_of_mem _ hp
    obtain ⟨c', hc', hsuffix, hnone, hrunnable, hl⟩ := h.picked _ p hmem
    obtain ⟨-, rfl⟩ := none_of_thread hc'
    rw [htodo] at hsuffix
    refine ⟨hnone, (List.suffix_cons i τ).trans hsuffix, hrunnable, ?_⟩
    by_contra hl'
    obtain ⟨l, rfl⟩ := hheld hl hl'
    have := hsuffix.subset List.mem_cons_self
    simp [dispatch, switchuvm, pushcli, popcli] at this
  · rw [hstate]
    rcases h.leaving c p hp with hrun | ⟨-, ⟨κ, hκ | hκ⟩, -⟩
    · exact hrun
    · rw [← thread_of_on hp, htodo] at hκ
      cases hκ
      cases hi
    · rw [← thread_of_on hp, htodo] at hκ
      cases hκ
      cases hi
  · obtain ⟨st, rfl⟩ := (hnext _ (hx ▸ hj)).1 rfl
    cases hi
  · rcases hj with hj | hj
    · cases (hnext _ (hx ▸ hj)).2.1 rfl
      cases hi
    · cases (hnext _ (hx ▸ hj)).2.2 rfl
      cases hi

/-! ## The lock instructions -/

theorem Locks.xchg (h : Locks s) (hfree : s.locked l = none) (hgrab : s.grab c = none)
    (hlocked : u.locked = update s.locked l (some c)) (hg : u.grab = update s.grab c (some l))
    (hheld : u.held = s.held) (hlcpu : u.lcpu = s.lcpu) : Locks u := by
  have hnot : ∀ c', l ∉ s.held c' := fun c' hl => by cases hfree.symm.trans (h.held c' l hl).1
  refine ⟨fun c' l' hl => ?_, fun c' l' hl => ?_, fun l' c' hl => ?_, ?_, ?_⟩
  · rw [hheld] at hl
    have hne : l' ≠ l := fun heq => hnot c' (heq ▸ hl)
    rw [hlocked, update_of_ne hne, hlcpu]
    exact h.held c' l' hl
  · rw [hg] at hl
    rw [hlocked, hheld]
    by_cases hc : c' = c
    · rw [hc, update_self, Option.some.injEq] at hl
      rw [← hl, hc, update_self]
      exact ⟨rfl, hnot c⟩
    · rw [update_of_ne hc] at hl
      have hne : l' ≠ l := by
        rintro rfl
        cases hfree.symm.trans (h.grab c' l' hl).1
      rw [update_of_ne hne]
      exact h.grab c' l' hl
  · rw [hlocked, update_apply] at hl
    rw [hheld, hg]
    split_ifs at hl with hll
    · rw [Option.some.injEq] at hl
      rw [hll, ← hl, update_self]
      exact .inr rfl
    · rcases h.locked l' c' hl with hl' | hl'
      · exact .inl hl'
      · right
        rw [update_of_ne, hl']
        rintro rfl
        cases hgrab.symm.trans hl'
  · rw [hheld, hlcpu]
    exact h.lcpu
  · rw [hheld]
    exact h.nodup

theorem Locks.setCpu (h : Locks s) (hgrab : s.grab c = some l) (hlcpu : u.lcpu = update s.lcpu l (some c))
    (hheld : u.held = update s.held c (l :: s.held c)) (hg : u.grab = update s.grab c none)
    (hlocked : u.locked = s.locked) : Locks u := by
  obtain ⟨hl, hnot⟩ := h.grab c l hgrab
  refine ⟨fun c' l' hl' => ?_, fun c' l' hl' => ?_, fun l' c' hl' => ?_, fun l' c' hl' => ?_, fun c' => ?_⟩
  · rw [hheld] at hl'
    rw [hlocked, hlcpu]
    by_cases hc : c' = c
    · rw [hc, update_self] at hl'
      rw [hc]
      rcases List.mem_cons.1 hl' with rfl | hl'
      · exact ⟨hl, update_self ..⟩
      · have hne : l' ≠ l := fun heq => hnot (heq ▸ hl')
        rw [update_of_ne hne]
        exact h.held c l' hl'
    · rw [update_of_ne hc] at hl'
      have hne : l' ≠ l := by
        rintro rfl
        exact hc (Option.some.inj ((h.held c' l' hl').1.symm.trans hl))
      rw [update_of_ne hne]
      exact h.held c' l' hl'
  · rw [hg, update_apply] at hl'
    split_ifs at hl' with hc
    rw [hlocked, hheld, update_of_ne hc]
    exact h.grab c' l' hl'
  · rw [hlocked] at hl'
    rw [hheld, hg]
    by_cases hc : c' = c
    · rw [hc] at hl' ⊢
      rw [update_self]
      rcases h.locked l' c hl' with hmem | hg'
      · exact .inl (List.mem_cons_of_mem l hmem)
      · cases hgrab.symm.trans hg'
        exact .inl List.mem_cons_self
    · rw [update_of_ne hc, update_of_ne hc]
      exact h.locked l' c' hl'
  · rw [hlcpu, update_apply] at hl'
    rw [hheld, update_apply]
    split_ifs at hl' with hll
    · rw [if_pos (Option.some.inj hl').symm, hll]
      exact List.mem_cons_self
    · have hmem := h.lcpu l' c' hl'
      split_ifs with hc
      · rw [hc] at hmem
        exact List.mem_cons_of_mem l hmem
      · exact hmem
  · rw [hheld, update_apply]
    split_ifs
    · exact List.nodup_cons.2 ⟨hnot, h.nodup c⟩
    · exact h.nodup c'

theorem Locks.clearCpu (h : Locks s) (hl : l ∈ s.held c) (hgrab : s.grab c = none)
    (hlcpu : u.lcpu = update s.lcpu l none) (hheld : u.held = update s.held c ((s.held c).erase l))
    (hg : u.grab = update s.grab c (some l)) (hlocked : u.locked = s.locked) : Locks u := by
  have hsub : ∀ c' l', l' ∈ u.held c' → l' ∈ s.held c' ∧ l' ≠ l := by
    intro c' l' hl'
    rw [hheld] at hl'
    by_cases hc : c' = c
    · rw [hc, update_self, (h.nodup c).mem_erase_iff] at hl'
      rw [hc]
      exact hl'.symm
    · rw [update_of_ne hc] at hl'
      refine ⟨hl', ?_⟩
      rintro rfl
      exact hc (h.alone hl' hl)
  refine ⟨fun c' l' hl' => ?_, fun c' l' hl' => ?_, fun l' c' hl' => ?_, fun l' c' hl' => ?_, fun c' => ?_⟩
  · obtain ⟨hmem, hne⟩ := hsub c' l' hl'
    rw [hlocked, hlcpu, update_of_ne hne]
    exact h.held c' l' hmem
  · rw [hlocked]
    rw [hg, update_apply] at hl'
    split_ifs at hl' with hc
    · cases hl'
      exact ⟨hc ▸ (h.held c l hl).1, fun hmem => (hsub c' l hmem).2 rfl⟩
    · exact ⟨(h.grab c' l' hl').1, fun hmem => (h.grab c' l' hl').2 (hsub c' l' hmem).1⟩
  · rw [hlocked] at hl'
    rw [hheld, hg]
    by_cases hc : c' = c
    · rw [hc] at hl' ⊢
      rw [update_self, update_self]
      by_cases hll : l' = l
      · exact .inr (hll ▸ rfl)
      · rcases h.locked l' c hl' with hmem | hg'
        · exact .inl ((List.mem_erase_of_ne hll).2 hmem)
        · cases hgrab.symm.trans hg'
    · rw [update_of_ne hc, update_of_ne hc]
      exact h.locked l' c' hl'
  · rw [hlcpu, update_apply] at hl'
    split_ifs at hl' with hll
    have hmem := h.lcpu l' c' hl'
    rw [hheld, update_apply]
    split_ifs with hc
    · exact (List.mem_erase_of_ne hll).2 (hc ▸ hmem)
    · exact hmem
  · rw [hheld, update_apply]
    split_ifs
    · exact (h.nodup c).erase l
    · exact h.nodup c'

theorem Locks.unlock (h : Locks s) (hgrab : s.grab c = some l) (hlocked : u.locked = update s.locked l none)
    (hg : u.grab = update s.grab c none) (hheld : u.held = s.held) (hlcpu : u.lcpu = s.lcpu) : Locks u := by
  obtain ⟨hl, hnot⟩ := h.grab c l hgrab
  refine ⟨fun c' l' hl' => ?_, fun c' l' hl' => ?_, fun l' c' hl' => ?_, ?_, ?_⟩
  · rw [hheld] at hl'
    have hne : l' ≠ l := by
      rintro rfl
      have hc := Option.some.inj ((h.held c' l' hl').1.symm.trans hl)
      exact hnot (hc ▸ hl')
    rw [hlocked, update_of_ne hne, hlcpu]
    exact h.held c' l' hl'
  · rw [hg, update_apply] at hl'
    split_ifs at hl' with hc
    have hne : l' ≠ l := by
      rintro rfl
      exact hc (Option.some.inj ((h.grab c' l' hl').1.symm.trans hl))
    rw [hlocked, update_of_ne hne, hheld]
    exact h.grab c' l' hl'
  · rw [hlocked, update_apply] at hl'
    split_ifs at hl' with hll
    rw [hheld, hg]
    rcases h.locked l' c' hl' with hmem | hg'
    · exact .inl hmem
    · right
      rw [update_of_ne, hg']
      rintro rfl
      cases hgrab.symm.trans hg'
      exact hll rfl
  · rw [hheld, hlcpu]
    exact h.lcpu
  · rw [hheld]
    exact h.nodup

end Xv6.Spin
