/-
Interrupt nesting and the hand-over of ptable.lock.

- `Inv.exec`, `Inv.step`: every instruction and every step keep the invariant;
- `interrupt_nesting`: interrupts are off while a lock is held and ncli is at least the number of locks; a switch leaves
  the CPU with ptable.lock and ncli = 1; `sched` returns with the intena it was entered with; no `release` or `popcli`
  panics, and `sched` panics only for a caller that holds another lock.
-/
import Xv6.Spin.Nesting

namespace Xv6.Spin

open Xv6.Proc (Lock ProcState Thread)
open Function (update update_self update_of_ne update_eq_self)

variable {n : ℕ} {C : Type} [DecidableEq C] {s u : St n C} {c c' : C} {p q : Fin n} {l : Lock} {i : Instr n}
  {τ : List (Instr n)} {a : Act n C}

/-! ## Instructions -/

omit [DecidableEq C] in
theorem Inv.safe_head (h : Inv s) (htodo : s.todo (s.thread c) = i :: τ) : Safe (i :: τ) (s.view c) := htodo ▸ h.safe c

/-- an instruction that changes the counters of its CPU only -/
theorem Inv.counters {IF intena : C → Bool} {ncli : C → ℤ} (h : Inv s) (htodo : s.todo (s.thread c) = i :: τ)
    (hi : i.plain = true) (hIF : ∀ c', c' ≠ c → IF c' = s.IF c') (hncli : ∀ c', c' ≠ c → ncli c' = s.ncli c')
    (hsafe : Safe τ ⟨s.held c, s.grab c, ncli c, IF c⟩) :
    Inv { s.goto (s.thread c) τ with IF := IF, intena := intena, ncli := ncli } := by
  refine h.plain htodo hi (h.locks.congr rfl rfl rfl rfl) rfl rfl rfl rfl rfl rfl (fun c' hc => ?_) hsafe
    fun hl hl' => absurd hl hl'
  simp only [St.view, hIF c' hc, hncli c' hc]
  rfl

theorem Inv.goto (h : Inv s) (htodo : s.todo (s.thread c) = i :: τ) (hi : i.plain = true) (hsafe : Safe τ (s.view c)) :
    Inv (s.goto (s.thread c) τ) :=
  h.counters htodo hi (fun _ _ => rfl) (fun _ _ => rfl) hsafe

/-- a process changes its state, about to call `sched` -/
theorem Inv.setState {st : ProcState} (h : Inv s) (htodo : s.todo (s.thread c) = .setState st :: τ) (hp : s.on c = some p) :
    Inv { s.goto (s.thread c) τ with state := update s.state p st } := by
  obtain ⟨-, hunused, hrunning, hl, hleave, hsafe⟩ := h.safe_head htodo
  have hchain := h.chain (s.thread c)
  rw [htodo] at hchain
  have hne : ∀ q, s.on c ≠ some q → q ≠ p := fun q hq heq => hq (heq ▸ hp)
  refine h.goes (c := c) (x := { s.thr (s.thread c) with todo := τ }) (h.locks.congr rfl rfl rfl rfl) rfl rfl
    (fun _ _ => rfl) (fun q hq => update_of_ne (hne q hq) ..) (fun _ _ => rfl) hsafe hchain.tail (h.frames _)
    (fun q hq => ?_) fun q hq => ?_
  · have hmem : .run q ∈ s.todo (s.thread c) := by rw [htodo]; exact List.mem_cons_of_mem _ hq
    obtain ⟨c', hc', -, hnone, -⟩ := h.picked _ q hmem
    obtain ⟨hnone', -⟩ := none_of_thread hc'
    cases hnone'.symm.trans hp
  · cases hp.symm.trans hq
    have hself : update s.state p st p = st := update_self ..
    refine ⟨.inr ⟨hl, hleave, by simp only [hself]; exact hunused⟩, fun _ => by simp only [hself]; exact hrunning,
      fun hj => ?_⟩
    -- what follows are the checks
    obtain ⟨κ, rfl | rfl⟩ := hleave
    · rcases hj with hj | hj <;> cases hj
    · cases ((List.isChain_cons_cons.1 hchain).1.2.1 rfl)

/-- past its checks `sched` has saved the intena of its CPU -/
theorem Inv.schedCheck (h : Inv s) (htodo : s.todo (s.thread c) = .schedCheck :: τ) (hp : s.on c = some p)
    (hncli : s.ncli c = 1) :
    Inv { s with
      thr := update s.thr (s.thread c) { s.thr (s.thread c) with todo := τ, intena := s.intena c }
      left := update s.left p (s.intena c) } := by
  obtain ⟨-, hl, -, hsafe⟩ := h.safe_head htodo
  have hchain := h.chain (s.thread c)
  rw [htodo] at hchain
  have hne : ∀ q, s.on c ≠ some q → q ≠ p := fun q hq heq => hq (heq ▸ hp)
  refine h.goes (c := c) (x := { s.thr (s.thread c) with todo := τ, intena := s.intena c })
    (h.locks.congr rfl rfl rfl rfl) rfl rfl (fun _ _ => rfl) (fun _ _ => rfl)
    (fun q hq => update_of_ne (hne q hq) ..) (hsafe hncli) hchain.tail (h.frames _) (fun q hq => ?_) fun q hq => ?_
  · have hmem : .run q ∈ s.todo (s.thread c) := by rw [htodo]; exact List.mem_cons_of_mem _ hq
    obtain ⟨c', hc', -⟩ := h.picked _ q hmem
    obtain ⟨hnone, -⟩ := none_of_thread hc'
    cases hnone.symm.trans hp
  · cases hp.symm.trans hq
    have hstate : s.state p ≠ .RUNNING := by
      apply h.check p
      rw [← thread_of_on hp, htodo]
      rfl
    rcases h.leaving c p hp with hrun | ⟨-, ⟨κ, hκ | hκ⟩, hunused⟩
    · exact absurd hrun hstate
    · rw [← thread_of_on hp, htodo] at hκ
      cases hκ
      exact ⟨.inr ⟨hl, ⟨κ, .inr rfl⟩, hunused⟩, fun _ => hstate, fun _ => by simp only [update_self]⟩
    · rw [← thread_of_on hp, htodo] at hκ
      cases hκ

/-! ## Switches -/

/-- `sched` switches to the scheduler of its CPU -/
theorem Inv.swtch (h : Inv s) (htodo : s.todo (s.thread c) = .swtch :: τ) (hp : s.on c = some p) :
    Inv { s.goto (s.thread c) τ with on := update s.on c none } := by
  obtain ⟨-, hview, hhead, hsafe⟩ := h.safe_head htodo
  have hchain := h.chain (s.thread c)
  rw [htodo] at hchain
  rw [thread_of_on hp] at htodo ⊢
  set u := { s.goto (.proc p) τ with on := update s.on c none }
  have hself : u.thr (.proc p) = { s.thr (.proc p) with todo := τ } := update_self ..
  have hother : ∀ t, t ≠ .proc p → u.thr t = s.thr t := fun t ht => update_of_ne ht ..
  have htodos : ∀ t, t ≠ .proc p → u.todo t = s.todo t := fun t ht => congrArg Thr.todo (hother t ht)
  have honc : u.on c = none := update_self ..
  have hon : ∀ c', c' ≠ c → u.on c' = s.on c' := fun c' hc => update_of_ne hc ..
  have hof : ∀ c' q, u.on c' = some q → c' ≠ c ∧ s.on c' = some q ∧ q ≠ p := by
    intro c' q hq
    have hc : c' ≠ c := by
      rintro rfl
      cases honc.symm.trans hq
    rw [hon c' hc] at hq
    refine ⟨hc, hq, ?_⟩
    rintro rfl
    exact hc (h.uniq c' c q hq hp)
  refine ⟨h.locks.congr rfl rfl rfl rfl, fun c' => ?_, fun t => ?_, fun t => ?_, fun c' q hq => ?_, fun q hq hstate => ?_,
    fun c' c'' q hq hq' => ?_, fun c' q hq => ?_, fun t q hq => ?_, fun q hq => ?_, fun q hq => ?_⟩
  · by_cases hc : c' = c
    · rw [hc, thread_of_none honc, htodos (.sched c) (by simp)]
      exact hview ▸ h.sched c p hp
    · have hthread : u.thread c' = s.thread c' := by rw [St.thread, St.thread, hon c' hc]
      have hne : s.thread c' ≠ .proc p := fun heq => hc (h.uniq c' c p (on_of_thread heq) hp)
      rw [hthread, htodos _ hne]
      exact h.safe c'
  · by_cases ht : t = .proc p
    · rw [ht, St.todo, hself]
      exact hchain.tail
    · rw [htodos t ht]
      exact h.chain t
  · by_cases ht : t = .proc p
    · rw [ht, hself]
      exact h.frames _
    · rw [hother t ht]
      exact h.frames t
  · obtain ⟨-, hq', -⟩ := hof c' q hq
    rw [htodos (.sched c') (by simp)]
    exact h.sched c' q hq'
  · by_cases hqp : q = p
    · rw [hqp, St.todo, hself]
      exact ⟨hview ▸ hsafe, by rw [hhead]; simp⟩
    · rw [htodos _ (by simpa using hqp)]
      refine h.parked q (fun c' hq' => ?_) hstate
      by_cases hc : c' = c
      · rw [hc, hp] at hq'
        exact hqp (Option.some.inj hq').symm
      · exact hq c' ((hon c' hc).trans hq')
  · exact h.uniq c' c'' q (hof c' q hq).2.1 (hof c'' q hq').2.1
  · obtain ⟨-, hq', hqp⟩ := hof c' q hq
    rw [htodos _ (by simpa using hqp)]
    exact h.leaving c' q hq'
  · by_cases ht : t = .proc p
    · rw [ht, St.todo, hself] at hq
      have hmem : .run q ∈ s.todo (.proc p) := by rw [htodo]; exact List.mem_cons_of_mem _ hq
      obtain ⟨c', hc', -⟩ := h.picked _ q hmem
      cases hc'
    · rw [htodos t ht] at hq ⊢
      obtain ⟨c', rfl, hsuffix, hnone, hrest⟩ := h.picked t q hq
      refine ⟨c', rfl, hsuffix, ?_, hrest⟩
      rw [hon c', hnone]
      rintro rfl
      cases hp.symm.trans hnone
  · by_cases hqp : q = p
    · rw [hqp, St.todo, hself] at hq
      cases hhead.symm.trans hq
    · rw [htodos _ (by simpa using hqp)] at hq
      exact h.check q hq
  · by_cases hqp : q = p
    · rw [hqp, hself]
      exact h.kept p (by rw [htodo]; exact .inl rfl)
    · rw [htodos _ (by simpa using hqp)] at hq
      rw [hother _ (by simpa using hqp)]
      exact h.kept q hq

/-- the scheduler is at its switch -/
theorem tail_of_dispatch (h : (.run p : Instr n) :: τ <:+ dispatch p) : τ = [.scan] := by
  simpa [dispatch, switchuvm, pushcli, popcli, List.suffix_cons_iff] using h

/-- the scheduler switches to p, which no CPU executes -/
theorem Inv.run (h : Inv s) (htodo : s.todo (s.thread c) = .run p :: τ) :
    Inv { s.goto (s.thread c) τ with
      state := update s.state p .RUNNING, on := update s.on c (some p) } := by
  obtain ⟨-, hview, hsafe⟩ := h.safe_head htodo
  obtain ⟨c', hc', hsuffix, hnone, hrunnable, hl⟩ := h.picked (s.thread c) p (by rw [htodo]; exact List.mem_cons_self)
  obtain ⟨-, rfl⟩ := none_of_thread hc'
  have hchain := h.chain (s.thread c)
  rw [htodo] at hchain hsuffix
  have hτ := tail_of_dispatch hsuffix
  have hoff : ∀ c', s.on c' ≠ some p := by
    intro c' hcp
    rcases h.leaving c' p hcp with hrun | ⟨hl', -⟩
    · cases hrunnable.symm.trans hrun
    · cases h.locks.alone hl hl'
      cases hnone.symm.trans hcp
  obtain ⟨hparked, hhead⟩ := h.parked p hoff (.inl hrunnable)
  rw [thread_of_none hnone] at htodo ⊢
  set u := { s.goto (.sched c) τ with
    state := update s.state p .RUNNING, on := update s.on c (some p) }
  have hself : u.thr (.sched c) = { s.thr (.sched c) with todo := τ } := update_self ..
  have hother : ∀ t, t ≠ .sched c → u.thr t = s.thr t := fun t ht => update_of_ne ht ..
  have htodos : ∀ t, t ≠ .sched c → u.todo t = s.todo t := fun t ht => congrArg Thr.todo (hother t ht)
  have hprocs : ∀ q, u.todo (.proc q) = s.todo (.proc q) := fun q => htodos _ nofun
  have honc : u.on c = some p := update_self ..
  have hon : ∀ c', c' ≠ c → u.on c' = s.on c' := fun c' hc => update_of_ne hc ..
  have hstatep : u.state p = .RUNNING := update_self ..
  have hstates : ∀ q, q ≠ p → u.state q = s.state q := fun q hq => update_of_ne hq ..
  have hof : ∀ c' q, u.on c' = some q → c' = c ∧ q = p ∨ c' ≠ c ∧ s.on c' = some q ∧ q ≠ p := by
    intro c' q hq
    by_cases hc : c' = c
    · rw [hc, honc] at hq
      exact .inl ⟨hc, (Option.some.inj hq).symm⟩
    · rw [hon c' hc] at hq
      refine .inr ⟨hc, hq, ?_⟩
      rintro rfl
      exact hoff c' hq
  refine ⟨h.locks.congr rfl rfl rfl rfl, fun c' => ?_, fun t => ?_, fun t => ?_, fun c' q hq => ?_, fun q hq hstate => ?_,
    fun c' c'' q hq hq' => ?_, fun c' q hq => ?_, fun t q hq => ?_, fun q hq => ?_, fun q hq => ?_⟩
  · by_cases hc : c' = c
    · rw [hc, thread_of_on honc, hprocs]
      exact hview ▸ hparked
    · have hthread : u.thread c' = s.thread c' := by rw [St.thread, St.thread, hon c' hc]
      have hne : s.thread c' ≠ .sched c := fun heq => hc (none_of_thread heq).2
      rw [hthread, htodos _ hne]
      exact h.safe c'
  · by_cases ht : t = .sched c
    · rw [ht, St.todo, hself]
      exact hchain.tail
    · rw [htodos t ht]
      exact h.chain t
  · by_cases ht : t = .sched c
    · rw [ht, hself]
      exact h.frames _
    · rw [hother t ht]
      exact h.frames t
  · rcases hof c' q hq with ⟨rfl, -⟩ | ⟨hc, hq', -⟩
    · rw [St.todo, hself]
      exact hview ▸ hsafe
    · rw [htodos _ (by simpa using hc)]
      exact h.sched c' q hq'
  · have hqp : q ≠ p := by
      rintro rfl
      exact hq c honc
    rw [hstates q hqp] at hstate
    rw [hprocs]
    refine h.parked q (fun c' hq' => hq c' ?_) hstate
    rw [hon c', hq']
    rintro rfl
    cases hnone.symm.trans hq'
  · rcases hof c' q hq with ⟨rfl, rfl⟩ | ⟨-, hq₁, hne⟩ <;> rcases hof c'' _ hq' with ⟨rfl, heq⟩ | ⟨-, hq₂, hne'⟩
    · rfl
    · exact absurd rfl hne'
    · exact absurd heq hne
    · exact h.uniq c' c'' q hq₁ hq₂
  · rcases hof c' q hq with ⟨-, rfl⟩ | ⟨-, hq', hqp⟩
    · exact .inl hstatep
    · rw [hstates q hqp, hprocs]
      exact h.leaving c' q hq'
  · by_cases ht : t = .sched c
    · rw [ht, St.todo, hself, hτ] at hq
      simp at hq
    · -- another scheduler with a process in hand would hold the lock too
      rw [htodos t ht] at hq
      obtain ⟨c', rfl, -, -, -, hl'⟩ := h.picked t q hq
      exact absurd (congrArg Thread.sched (h.locks.alone hl' hl)) ht
  · rw [hprocs] at hq
    by_cases hqp : q = p
    · exact absurd (hqp ▸ hq) hhead
    · rw [hstates q hqp]
      exact h.check q hq
  · rw [hprocs] at hq
    rw [hother (.proc q) nofun]
    exact h.kept q hq

/-! ## Steps about a process that no CPU executes -/

/-- the state of p changes, and maybe its thread is made anew -/
theorem Inv.setProc {st : ProcState} {x : Thr n} (h : Inv s) (hoff : ∀ c, s.on c ≠ some p)
    (hold : s.state p ≠ .RUNNABLE) (hst : st ≠ .RUNNING) (hchain : x.todo.IsChain Follows)
    (hframes : ∀ f ∈ x.frames, Frame f) (hrun : ∀ q, .run q ∉ x.todo)
    (hsafe : st = .RUNNABLE ∨ st = .SLEEPING → Safe x.todo .switched ∧ x.todo.head? ≠ some .schedCheck)
    (hkept : x.todo.head? = some .swtch ∨ x.todo.head? = some .setIntena → x.intena = s.left p) :
    Inv { s with state := update s.state p st, thr := update s.thr (.proc p) x } := by
  set u := { s with state := update s.state p st, thr := update s.thr (.proc p) x }
  have hself : u.thr (.proc p) = x := update_self ..
  have hother : ∀ t, t ≠ .proc p → u.thr t = s.thr t := fun t ht => update_of_ne ht ..
  have htodos : ∀ t, t ≠ .proc p → u.todo t = s.todo t := fun t ht => congrArg Thr.todo (hother t ht)
  have hstatep : u.state p = st := update_self ..
  have hstates : ∀ q, q ≠ p → u.state q = s.state q := fun q hq => update_of_ne hq ..
  refine ⟨h.locks.congr rfl rfl rfl rfl, fun c => ?_, fun t => ?_, fun t => ?_, fun c q hq => ?_, fun q hq hstate => ?_,
    h.uniq, fun c q hq => ?_, fun t q hq => ?_, fun q hq => ?_, fun q hq => ?_⟩
  · have hne : s.thread c ≠ .proc p := fun heq => hoff c (on_of_thread heq)
    change Safe (u.todo (s.thread c)) (s.view c)
    rw [htodos _ hne]
    exact h.safe c
  · by_cases ht : t = .proc p
    · rw [ht, St.todo, hself]
      exact hchain
    · rw [htodos t ht]
      exact h.chain t
  · by_cases ht : t = .proc p
    · rw [ht, hself]
      exact hframes
    · rw [hother t ht]
      exact h.frames t
  · rw [htodos (.sched c) (by simp)]
    exact h.sched c q hq
  · by_cases hqp : q = p
    · rw [hqp, hstatep] at hstate
      rw [hqp, St.todo, hself]
      exact hsafe hstate
    · rw [hstates q hqp] at hstate
      rw [htodos _ (by simpa using hqp)]
      exact h.parked q hq hstate
  · have hqp : q ≠ p := by
      rintro rfl
      exact hoff c hq
    rw [hstates q hqp, htodos _ (by simpa using hqp)]
    exact h.leaving c q hq
  · by_cases ht : t = .proc p
    · rw [ht, St.todo, hself] at hq
      exact absurd hq (hrun q)
    · rw [htodos t ht] at hq ⊢
      obtain ⟨c, hc, hsuffix, hnone, hrunnable, hl⟩ := h.picked t q hq
      have hqp : q ≠ p := by
        rintro rfl
        exact hold hrunnable
      exact ⟨c, hc, hsuffix, hnone, by rw [hstates q hqp, hrunnable], hl⟩
  · by_cases hqp : q = p
    · rw [hqp, hstatep]
      exact hst
    · rw [htodos _ (by simpa using hqp)] at hq
      rw [hstates q hqp]
      exact h.check q hq
  · by_cases hqp : q = p
    · rw [hqp, St.todo, hself] at hq
      rw [hqp, hself]
      exact hkept hq
    · rw [htodos _ (by simpa using hqp)] at hq
      rw [hother _ (by simpa using hqp)]
      exact h.kept q hq

omit [DecidableEq C] in
/-- a process in `sched` is out of reach of code on other CPUs -/
theorem Inv.off (h : Inv s) (hcode : s.todo (s.thread c) = []) (hl : s.Holding c .ptable) (hstate : s.state p ≠ .RUNNING)
    (c' : C) : s.on c' ≠ some p := by
  intro hp
  rcases h.leaving c' p hp with hrun | ⟨hl', ⟨κ, hκ⟩, -⟩
  · exact hstate hrun
  · cases h.locks.alone hl' (h.locks.mem_held hl)
    rw [← thread_of_on hp, hcode] at hκ
    rcases hκ with hκ | hκ <;> cases hκ

/-- `wakeup1`, `kill` and `wait` change the state only -/
theorem Inv.restate {st : ProcState} (h : Inv s) (hoff : ∀ c, s.on c ≠ some p) (hold : s.state p ≠ .RUNNABLE)
    (hst : st ≠ .RUNNING) (hsleep : st = .RUNNABLE ∨ st = .SLEEPING → s.state p = .SLEEPING) :
    Inv { s with state := update s.state p st } := by
  have h' := h.setProc (x := s.thr (.proc p)) hoff hold hst (h.chain (.proc p)) (h.frames _) (fun q hq => ?_)
    (fun hs => h.parked p hoff (.inr (hsleep hs))) (h.kept p)
  · rwa [update_eq_self] at h'
  · obtain ⟨c, hc, -⟩ := h.picked (.proc p) q hq
    cases hc

/-! ## Calls -/

/-- a list that a thread can begin with -/
def Begins (τ : List (Instr n)) : Prop :=
  τ.IsChain Follows ∧ τ.head? ≠ some .schedCheck ∧ τ.head? ≠ some .swtch ∧ τ.head? ≠ some .setIntena

theorem Fn.begins (f : Fn) : Begins (n := n) f.body := by
  cases f <;>
    simp [Begins, Fn.body, Spin.acquire, Spin.release, Spin.switchuvm, Spin.yield, Spin.sleep, Spin.waitSleep, Spin.exit,
      Spin.sched, pushcli, popcli, Follows]

theorem Fn.no_run (f : Fn) (p : Fin n) : .run p ∉ f.body := by
  cases f <;>
    simp [Fn.body, Spin.acquire, Spin.release, Spin.switchuvm, Spin.yield, Spin.sleep, Spin.waitSleep, Spin.exit,
      Spin.sched, pushcli, popcli]

theorem round_begins : Begins (n := n) round := by simp [Begins, round, acquire, pushcli, Follows]

theorem dispatch_begins (p : Fin n) : Begins (dispatch p) := by
  simp [Begins, dispatch, switchuvm, pushcli, popcli, Follows]

theorem roundEnd_begins : Begins (n := n) roundEnd := by simp [Begins, roundEnd, release, popcli, Follows]

theorem forkret_begins : Begins (n := n) forkret := by simp [Begins, forkret, release, popcli, Follows]

/-- the code on c is not in the middle of a `sched`, and begins with τ -/
theorem Inv.begin (h : Inv s) (hcode : ¬ Leaving (s.todo (s.thread c))) (hsafe : Safe τ (s.view c)) (hτ : Begins τ)
    (hpick : ∀ p, .run p ∈ τ → s.on c = none ∧ τ <:+ dispatch p ∧ s.state p = .RUNNABLE ∧ .ptable ∈ s.held c) :
    Inv (s.goto (s.thread c) τ) := by
  obtain ⟨hchain, hcheck, hswtch, hintena⟩ := hτ
  refine h.goes (c := c) (x := { s.thr (s.thread c) with todo := τ }) (h.locks.congr rfl rfl rfl rfl) rfl rfl
    (fun _ _ => rfl) (fun _ _ => rfl) (fun _ _ => rfl) hsafe hchain (h.frames _) hpick fun p hp => ?_
  refine ⟨.inl ?_, fun hj => absurd hj hcheck, fun hj => ?_⟩
  · rcases h.leaving c p hp with hrun | ⟨-, hleave, -⟩
    · exact hrun
    · rw [← thread_of_on hp] at hleave
      exact absurd hleave hcode
  · rcases hj with hj | hj
    · exact absurd hj hswtch
    · exact absurd hj hintena

omit [DecidableEq C] in
theorem not_leaving_nil : ¬ Leaving (n := n) [] := by
  rintro ⟨κ, hκ | hκ⟩ <;> cases hκ

theorem not_leaving_scan : ¬ Leaving (n := n) [.scan] := by
  rintro ⟨κ, hκ | hκ⟩ <;> cases hκ

omit [DecidableEq C] in
/-- code outside the functions -/
theorem Inv.calm (h : Inv s) (hcode : s.todo (s.thread c) = []) : (s.view c).Calm := by
  have hsafe := h.safe c
  rwa [hcode] at hsafe

/-- every function may be called where its locks are held -/
theorem Inv.call {f : Fn} (h : Inv s) (hcode : s.todo (s.thread c) = []) (hf : s.mayCall c f = true) :
    Inv (s.goto (s.thread c) f.body) := by
  have hcalm := h.calm hcode
  refine h.begin (by rw [hcode]; exact not_leaving_nil) ?_ f.begins fun p hp => absurd hp (f.no_run p)
  cases f with
  | acquire l => exact safe_acquire_nil hcalm
  | release l =>
    simp only [St.mayCall, decide_eq_true_eq] at hf
    exact safe_release_nil hcalm (h.locks.mem_held hf)
  | switchuvm =>
    have hsafe := safe_switchuvm (n := n) (κ := []) hcalm fun b hb => ⟨hb, rfl, hcalm.2.2⟩
    rwa [List.append_nil] at hsafe
  | yield => exact safe_yield hcalm
  | sleep l =>
    simp only [St.mayCall, decide_eq_true_eq] at hf
    exact safe_sleep hcalm (h.locks.mem_held hf.2.2) hf.2.1
  | waitSleep =>
    simp only [St.mayCall, decide_eq_true_eq] at hf
    exact safe_waitSleep hcalm (h.locks.mem_held hf.2)
  | exit => exact safe_exit hcalm

/-! ## Interrupts -/

omit [DecidableEq C] in
/-- with no lock held a process is RUNNING and no scheduler has one in hand -/
theorem Inv.unlocked (h : Inv s) (hheld : s.held c = []) :
    (∀ p, s.on c = some p → s.state p = .RUNNING) ∧ ∀ p, .run p ∉ s.todo (s.thread c) := by
  refine ⟨fun p hp => ?_, fun p hp => ?_⟩
  · rcases h.leaving c p hp with hrun | ⟨hl, -⟩
    · exact hrun
    · rw [hheld] at hl
      cases hl
  · obtain ⟨c', hc', -, -, -, hl⟩ := h.picked _ p hp
    obtain ⟨-, rfl⟩ := none_of_thread hc'
    rw [hheld] at hl
    cases hl

theorem Inv.interrupt (h : Inv s) (hIF : s.IF c = true) :
    Inv { s with
      thr := update s.thr (s.thread c)
        { s.thr (s.thread c) with
          todo := [], frames := ((s.thr (s.thread c)).todo, (s.thr (s.thread c)).eflags) :: (s.thr (s.thread c)).frames }
      IF := update s.IF c false } := by
  have hsafe := h.safe c
  have hopen : s.view c = .open_ := hsafe.sound.eq_open hIF
  have hheld : s.held c = [] := congrArg View.held hopen
  obtain ⟨hrun, hpick⟩ := h.unlocked hheld
  rw [hopen] at hsafe
  refine h.goes (c := c) (h.locks.congr rfl rfl rfl rfl) rfl rfl (fun c' hc => ?_) (fun _ _ => rfl) (fun _ _ => rfl) ?_
    List.isChain_nil (fun f hf => ?_) nofun fun p hp => ⟨.inl (hrun p hp), nofun, nofun⟩
  · simp only [St.view, update_of_ne hc]
  · simp only [St.view, update_self, hheld]
    exact ⟨nofun, congrArg View.grab hopen, congrArg View.ncli hopen⟩
  · rcases List.mem_cons.1 hf with rfl | hf
    · exact ⟨hsafe, h.chain _, hpick⟩
    · exact h.frames _ f hf

/-- the handler has released its locks; the interrupted code goes on, maybe on another CPU -/
theorem Inv.iret {eflags intena e : Bool} {frames : List (List (Instr n) × Bool)} (h : Inv s)
    (hthr : s.thr (s.thread c) = ⟨[], e, intena, (τ, eflags) :: frames⟩) (hheld : s.held c = []) :
    Inv { s with
      thr := update s.thr (s.thread c) ⟨τ, eflags, intena, frames⟩, IF := update s.IF c true } := by
  have hcalm := h.calm (c := c) (by rw [St.todo, hthr])
  have hframe : ∀ f ∈ (τ, eflags) :: frames, Frame f := by
    have hframes := h.frames (s.thread c)
    rwa [hthr] at hframes
  obtain ⟨hsafe, hchain, hpick⟩ := hframe _ List.mem_cons_self
  have hrun := (h.unlocked hheld).1
  refine h.goes (c := c) (h.locks.congr rfl rfl rfl rfl) rfl rfl (fun c' hc => ?_) (fun _ _ => rfl) (fun _ _ => rfl) ?_
    hchain (fun f hf => hframe f (List.mem_cons_of_mem _ hf)) (fun p hp => absurd hp (hpick p))
    fun p hp => ⟨.inl (hrun p hp), fun hj => ?_, fun hj => ?_⟩
  · simp only [St.view, update_of_ne hc]
  · obtain ⟨-, hgrab, hncli⟩ := hcalm
    simp only [St.view, hheld] at hgrab hncli ⊢
    simp only [update_self, hgrab, hncli]
    exact hsafe
  · -- a thread in `sched` holds a lock
    cases τ with
    | nil => cases hj
    | cons j κ =>
      cases hj
      cases hsafe.2.1
  · cases τ with
    | nil => rcases hj with hj | hj <;> cases hj
    | cons j κ => rcases hj with hj | hj <;> cases hj <;> cases hsafe.2.1

theorem Inv.flag {b : Bool} (h : Inv s) (hcode : s.todo (s.thread c) = []) (hheld : s.held c = []) :
    Inv { s with IF := update s.IF c b } := by
  obtain ⟨-, hgrab, hncli⟩ := h.calm hcode
  have hrun := (h.unlocked hheld).1
  simp only [St.view, hheld] at hgrab hncli
  refine h.goes (c := c) (x := s.thr (s.thread c)) (h.locks.congr rfl rfl rfl rfl) rfl (update_eq_self ..).symm
    (fun c' hc => ?_) (fun _ _ => rfl) (fun _ _ => rfl) ?_ (h.chain _) (h.frames _) (fun p hp => ?_)
    fun p hp => ⟨.inl (hrun p hp), fun hj => ?_, fun hj => ?_⟩
  · simp only [St.view, update_of_ne hc]
  · change Safe (s.todo (s.thread c)) _
    simp only [hcode, St.view, update_self, hheld, hgrab, hncli]
    exact ⟨fun _ => rfl, rfl, rfl⟩
  · exact absurd hp ((h.unlocked hheld).2 p)
  · change (s.todo (s.thread c)).head? = _ at hj
    rw [hcode] at hj
    cases hj
  · change (s.todo (s.thread c)).head? = _ ∨ (s.todo (s.thread c)).head? = _ at hj
    rw [hcode] at hj
    rcases hj with hj | hj <;> cases hj

/-! ## All steps -/

theorem Inv.exec (h : Inv s) (htodo : s.todo (s.thread c) = i :: τ) (hstep : exec s c (s.thread c) τ i = some u) : Inv u := by
  have hsafe := h.safe_head htodo
  cases i with
  | readeflags =>
    cases hstep
    exact h.plain htodo rfl (h.locks.congr rfl rfl rfl rfl) rfl rfl rfl rfl rfl rfl (fun _ _ => rfl) hsafe.2
      fun hl hl' => absurd hl hl'
  | cli =>
    cases hstep
    refine h.counters htodo rfl (fun c' hc => update_of_ne hc ..) (fun _ _ => rfl) ?_
    rw [update_self]
    exact hsafe.2
  | count =>
    cases hstep
    refine h.counters htodo rfl (fun _ _ => rfl) (fun c' hc => update_of_ne hc ..) ?_
    rw [update_self]
    exact hsafe.2.2
  | notHolding l =>
    simp only [Spin.exec] at hstep
    split_ifs at hstep with hl
    cases hstep
    exact h.goto htodo rfl (hsafe.2 fun hmem => hl (h.locks.holding hmem))
  | xchg l =>
    simp only [Spin.exec] at hstep
    split_ifs at hstep with hfree
    cases hstep
    obtain ⟨-, hgrab, hsafe⟩ := hsafe
    refine h.plain htodo rfl (h.locks.xchg hfree hgrab rfl rfl rfl rfl) rfl rfl rfl rfl rfl rfl (fun c' hc => ?_) ?_
      fun hl hl' => absurd hl hl'
    · simp only [St.view, update_of_ne hc]
      rfl
    · simp only [St.view, update_self]
      exact hsafe
  | setCpu l =>
    cases hstep
    obtain ⟨-, hgrab, hsafe⟩ := hsafe
    refine h.plain htodo rfl (h.locks.setCpu hgrab rfl rfl rfl rfl) rfl rfl rfl rfl rfl rfl (fun c' hc => ?_) ?_
      fun hl hl' => ?_
    · simp only [St.view, update_of_ne hc]
      rfl
    · simp only [St.view, update_self]
      exact hsafe
    · simp only [update_self] at hl'
      exact absurd (List.mem_cons_of_mem l hl) hl'
  | holding | interruptible =>
    simp only [Spin.exec] at hstep
    split_ifs at hstep
    cases hstep
    exact h.goto htodo rfl hsafe.2.2
  | clearCpu l =>
    cases hstep
    obtain ⟨-, hl, hgrab, hsafe⟩ := hsafe
    refine h.plain htodo rfl (h.locks.clearCpu hl hgrab rfl rfl rfl rfl) rfl rfl rfl rfl rfl rfl (fun c' hc => ?_) ?_
      fun _ _ => ⟨l, rfl⟩
    · simp only [St.view, update_of_ne hc]
      rfl
    · simp only [St.view, update_self]
      exact hsafe
  | unlock l =>
    cases hstep
    obtain ⟨-, hgrab, hsafe⟩ := hsafe
    refine h.plain htodo rfl (h.locks.unlock hgrab rfl rfl rfl rfl) rfl rfl rfl rfl rfl rfl (fun c' hc => ?_) ?_
      fun hl hl' => absurd hl hl'
    · simp only [St.view, update_of_ne hc]
      rfl
    · simp only [St.view, update_self]
      exact hsafe
  | uncount =>
    simp only [Spin.exec] at hstep
    split_ifs at hstep
    cases hstep
    refine h.counters htodo rfl (fun _ _ => rfl) (fun c' hc => update_of_ne hc ..) ?_
    rw [update_self]
    exact hsafe.2.2
  | restore =>
    simp only [Spin.exec] at hstep
    split_ifs at hstep with hzero
    · cases hstep
      refine h.counters htodo rfl (fun c' hc => update_of_ne hc ..) (fun _ _ => rfl) ?_
      rw [update_self]
      exact hsafe.2.2 hzero.1
    · cases hstep
      exact h.goto htodo rfl hsafe.2.1
  | sti =>
    cases hstep
    refine h.counters htodo rfl (fun c' hc => update_of_ne hc ..) (fun _ _ => rfl) ?_
    rw [update_self]
    exact hsafe.2.2
  | setState st =>
    simp only [Spin.exec] at hstep
    split at hstep
    · rename_i p hp
      cases hstep
      exact h.setState htodo hp
    · cases hstep
  | schedCheck =>
    simp only [Spin.exec] at hstep
    split at hstep
    · rename_i p hp
      split_ifs at hstep with hcheck
      cases hstep
      exact h.schedCheck htodo hp hcheck.2.1
    · cases hstep
  | swtch =>
    simp only [Spin.exec] at hstep
    split at hstep
    · rename_i p hp
      cases hstep
      exact h.swtch htodo hp
    · cases hstep
  | setIntena =>
    cases hstep
    exact h.counters htodo rfl (fun _ _ => rfl) (fun _ _ => rfl) hsafe.2.2
  | loop =>
    cases hstep
    obtain ⟨-, hcalm, hheld⟩ := hsafe
    exact h.begin (by rw [htodo]; rintro ⟨κ, hκ | hκ⟩ <;> cases hκ) (safe_round hcalm hheld) round_begins fun p hp => by
      simp [round, acquire, pushcli] at hp
  | run p =>
    cases hstep
    exact h.run htodo
  | scan | zombieExit => cases hstep

theorem Inv.step (h : Inv s) (hstep : step s a = some u) : Inv u := by
  cases a with
  | exec c =>
    simp only [Spin.step] at hstep
    split at hstep
    · cases hstep
    · rename_i i τ htodo
      exact h.exec htodo hstep
  | interrupt c =>
    simp only [Spin.step] at hstep
    split_ifs at hstep with hIF
    cases hstep
    exact h.interrupt hIF
  | iret c =>
    simp only [Spin.step] at hstep
    split at hstep
    · rename_i hthr
      split_ifs at hstep with hheld
      cases hstep
      exact h.iret hthr hheld
    · cases hstep
  | flag c b =>
    simp only [Spin.step] at hstep
    split_ifs at hstep with hcode
    cases hstep
    exact h.flag hcode.2.1 hcode.2.2
  | call c f =>
    simp only [Spin.step] at hstep
    split_ifs at hstep with hcode
    cases hstep
    exact h.call hcode.1 hcode.2
  | wake c p =>
    simp only [Spin.step] at hstep
    split_ifs at hstep with hcode
    cases hstep
    obtain ⟨hcode, hl, hsleep⟩ := hcode
    exact h.restate (h.off hcode hl (by rw [hsleep]; exact nofun)) (by rw [hsleep]; exact nofun) nofun fun _ => hsleep
  | reap c p =>
    simp only [Spin.step] at hstep
    split_ifs at hstep with hcode
    cases hstep
    obtain ⟨hcode, hl, hzombie⟩ := hcode
    refine h.restate (h.off hcode hl (by rw [hzombie]; exact nofun)) (by rw [hzombie]; exact nofun) nofun fun hst => ?_
    rcases hst with hst | hst <;> cases hst
  | start p =>
    simp only [Spin.step] at hstep
    split_ifs at hstep with hunused
    cases hstep
    refine h.setProc (fun c hp => ?_) (by rw [hunused]; exact nofun) nofun forkret_begins.1 nofun (fun q hq => ?_)
      (fun _ => ⟨safe_forkret, forkret_begins.2.1⟩) fun hj => ?_
    · rcases h.leaving c p hp with hrun | ⟨-, -, hstate⟩
      · cases hunused.symm.trans hrun
      · exact hstate hunused
    · simp [forkret, release, popcli] at hq
    · rcases hj with hj | hj
      · exact absurd hj forkret_begins.2.2.1
      · exact absurd hj forkret_begins.2.2.2
  | dispatch c p =>
    simp only [Spin.step] at hstep
    split_ifs at hstep with hscan
    cases hstep
    obtain ⟨hnone, hscan, hrunnable⟩ := hscan
    have hview : s.view c = .switched := (h.safe_head hscan).2
    refine h.begin (by rw [hscan]; exact not_leaving_scan) (by rw [hview]; exact safe_dispatch p) (dispatch_begins p)
      fun q hq => ?_
    have hq : q = p := by simpa [dispatch, switchuvm, pushcli, popcli] using hq
    have hheld : s.held c = [.ptable] := congrArg View.held hview
    rw [hq, hheld]
    exact ⟨hnone, List.suffix_rfl, hrunnable, List.mem_singleton_self _⟩
  | done c =>
    simp only [Spin.step] at hstep
    split_ifs at hstep with hscan
    cases hstep
    have hview : s.view c = .switched := (h.safe_head hscan.2).2
    refine h.begin (by rw [hscan.2]; exact not_leaving_scan) (by rw [hview]; exact safe_roundEnd) roundEnd_begins
      fun q hq => ?_
    simp [roundEnd, release, popcli] at hq

omit [DecidableEq C] in
theorem Inv.init (h : Init s) : Inv s := by
  obtain ⟨hlocked, hlcpu, hIF, hncli, hon, hsched, hproc, hframes, hstate, hheld, hgrab⟩ := h
  have hnot : ∀ c l, l ∉ s.held c := fun c l => by rw [hheld c]; exact List.not_mem_nil
  have hon' : ∀ c p, s.on c ≠ some p := fun c p => by rw [hon c]; exact nofun
  refine ⟨⟨fun c l hl => absurd hl (hnot c l), fun c l hl => ?_, fun l c hl => ?_, fun l c hl => ?_, fun c => ?_⟩,
    fun c => ?_, fun t => ?_, fun t f hf => ?_, fun c p hp => absurd hp (hon' c p), fun p _ hs => ?_,
    fun c _ p hp => absurd hp (hon' c p), fun c p hp => absurd hp (hon' c p), fun t p hp => ?_, fun p hp => ?_, fun p hp => ?_⟩
  · cases (hgrab c).symm.trans hl
  · cases (hlocked l).symm.trans hl
  · cases (hlcpu l).symm.trans hl
  · rw [hheld c]
    exact List.nodup_nil
  · rw [thread_of_none (hon c), hsched, St.view, hheld, hgrab, hncli, hIF]
    exact ⟨⟨nofun, by decide⟩, ⟨nofun, rfl, rfl⟩, rfl⟩
  · cases t with
    | proc p =>
      rw [hproc]
      exact List.isChain_nil
    | sched c =>
      rw [hsched]
      exact List.isChain_singleton _
  · rw [hframes t] at hf
    cases hf
  · rw [hstate p] at hs
    rcases hs with hs | hs <;> cases hs
  · cases t with
    | proc q =>
      rw [hproc] at hp
      cases hp
    | sched c =>
      rw [hsched, List.mem_singleton] at hp
      cases hp
  · rw [hproc p] at hp
    cases hp
  · rw [hproc p] at hp
    rcases hp with hp | hp <;> cases hp

theorem Inv.of_reach (h : (machine n C).Reach s) : Inv s :=
  h.invariant (I := Inv) (fun _ h0 => Inv.init h0) fun _ _ _ hs hstep => hs.step hstep

/-! ## The theorem -/

omit [DecidableEq C] in
/-- interrupts are off while a lock is held, and ncli counts the locks -/
theorem Inv.counts (h : Inv s) (S : Finset Lock) (hS : ∀ l ∈ S, s.locked l = some c) :
    (S.Nonempty → s.IF c = false) ∧ (S.card : ℤ) ≤ s.ncli c := by
  have hsound := (h.safe c).sound
  refine ⟨fun ⟨l, hl⟩ => ?_, ?_⟩
  · by_contra hIF
    have hopen := hsound.eq_open (Bool.not_eq_false _ ▸ hIF)
    have hheld : s.held c = [] := congrArg View.held hopen
    have hgrab : s.grab c = none := congrArg View.grab hopen
    rcases h.locks.locked l c (hS l hl) with hmem | hg
    · rw [hheld] at hmem
      cases hmem
    · cases hgrab.symm.trans hg
  · have hsub : S ⊆ (s.held c ++ (s.grab c).toList).toFinset := by
      intro l hl
      rw [List.mem_toFinset, List.mem_append, Option.mem_toList]
      exact h.locks.locked l c (hS l hl)
    have hcard := (Finset.card_le_card hsub).trans (List.toFinset_card_le _)
    rw [List.length_append] at hcard
    have hcount : ((s.held c).length : ℤ) + (s.grab c).toList.length ≤ s.ncli c := hsound.2
    omega

/-- the other instructions switch nothing -/
theorem exec_on {t : Thread n C} (h : exec s c t τ i = some u) (hswtch : i ≠ .swtch) (hrun : ∀ p, i ≠ .run p) :
    u.on = s.on := by
  cases i with
  | swtch => exact absurd rfl hswtch
  | run p => exact absurd rfl (hrun p)
  | notHolding | xchg | holding | interruptible | uncount | restore =>
    simp only [exec] at h
    split_ifs at h <;> cases h <;> rfl
  | setState | schedCheck =>
    simp only [exec] at h
    split at h
    · try split_ifs at h
      all_goals cases h; rfl
    · cases h
  | scan | zombieExit => cases h
  | _ =>
    cases h
    rfl

/-- `sched` and `scheduler` switch with ptable.lock as their only lock -/
theorem Inv.switches (h : Inv s) (hstep : Spin.step s a = some u) (hc : u.on c ≠ s.on c) : u.view c = .switched := by
  cases a with
  | exec c' =>
    simp only [Spin.step] at hstep
    split at hstep
    · cases hstep
    · rename_i i τ htodo
      have hsafe := h.safe_head htodo
      have honly : ∀ x, u.on = update s.on c' x → c = c' := by
        intro x hx
        by_contra hne
        rw [hx, update_of_ne hne] at hc
        exact hc rfl
      by_cases hswtch : i = .swtch
      · subst hswtch
        simp only [Spin.exec] at hstep
        split at hstep
        · cases hstep
          cases honly _ rfl
          exact hsafe.2.1
        · cases hstep
      · by_cases hrun : ∃ p, i = .run p
        · obtain ⟨p, rfl⟩ := hrun
          cases hstep
          cases honly _ rfl
          exact hsafe.2.1
        · exact absurd (congrFun (exec_on hstep hswtch fun p hp => hrun ⟨p, hp⟩) c) hc
  | iret c' =>
    simp only [Spin.step] at hstep
    split at hstep
    · split_ifs at hstep
      cases hstep
      exact absurd rfl hc
    · cases hstep
  | _ =>
    simp only [Spin.step] at hstep
    split_ifs at hstep
    cases hstep
    exact absurd rfl hc

/-- the caller of a `sched` that panics holds a second lock -/
theorem Inv.sched_panics (h : Inv s) (hp : s.on c = some p) (hhead : (s.todo (.proc p)).head? = some .schedCheck)
    (hstep : Spin.step s (.exec c) = none) : ∃ l, l ≠ .ptable ∧ s.Holding c l := by
  obtain ⟨τ, hτ⟩ : ∃ τ, s.todo (.proc p) = .schedCheck :: τ := by
    cases hl : s.todo (.proc p) with
    | nil =>
      rw [hl] at hhead
      cases hhead
    | cons j κ =>
      rw [hl] at hhead
      cases hhead
      exact ⟨κ, rfl⟩
  have htodo : s.todo (s.thread c) = .schedCheck :: τ := by rw [thread_of_on hp, hτ]
  obtain ⟨-, hl, hcalm, -⟩ := h.safe_head htodo
  have hIF : s.IF c = false := hcalm.off hl
  have hncli : s.ncli c ≠ 1 := by
    intro hone
    simp only [Spin.step, htodo, Spin.exec, hp] at hstep
    rw [if_pos ⟨h.locks.holding hl, hone, h.check p hhead, hIF⟩] at hstep
    cases hstep
  by_contra hnone
  -- with ptable.lock alone ncli would be 1
  have honly : ∀ l ∈ s.held c, l = .ptable := by
    intro l hmem
    by_contra hne
    exact hnone ⟨l, hne, h.locks.holding hmem⟩
  have hcard : (s.held c).toFinset.card ≤ 1 := by
    refine (Finset.card_le_card (t := {.ptable}) fun l hmem => ?_).trans (by simp)
    rw [List.mem_toFinset] at hmem
    exact Finset.mem_singleton.2 (honly l hmem)
  rw [List.toFinset_card_of_nodup (h.locks.nodup c)] at hcard
  have hpos := List.length_pos_of_mem hl
  have hlen : s.ncli c = ((s.held c).length : ℤ) := hcalm.2.2
  change 0 < (s.held c).length at hpos
  omega

/-- **Interrupt nesting and lock hand-over.** In every interleaving: a CPU that has locked spinlocks has IF = 0, and its
ncli is at least their number; a CPU that has just switched holds ptable.lock with ncli = 1; `sched` returns with the
intena of its entry, on whatever CPU; the checks of `popcli` and `release` do not fail; and those of `sched` fail only
for a caller that holds another lock. -/
theorem interrupt_nesting (h : (machine n C).Reach s) :
    (∀ c (S : Finset Lock), (∀ l ∈ S, s.locked l = some c) →
      (S.Nonempty → s.IF c = false) ∧ (S.card : ℤ) ≤ s.ncli c) ∧
    (∀ a u c, step s a = some u → u.on c ≠ s.on c → u.Holding c .ptable ∧ u.ncli c = 1) ∧
    (∀ c p u, s.on c = some p → (s.todo (.proc p)).head? = some .setIntena → step s (.exec c) = some u →
      u.intena c = s.left p) ∧
    (∀ c, ((s.todo (s.thread c)).head? = some .interruptible → s.IF c = false) ∧
      ((s.todo (s.thread c)).head? = some .uncount → 0 ≤ s.ncli c - 1) ∧
      ∀ l, (s.todo (s.thread c)).head? = some (.holding l) → s.Holding c l) ∧
    ∀ c p, s.on c = some p → (s.todo (.proc p)).head? = some .schedCheck → step s (.exec c) = none →
      ∃ l, l ≠ .ptable ∧ s.Holding c l := by
  have hinv := Inv.of_reach h
  refine ⟨fun c S hS => hinv.counts S hS, fun a u c hstep hc => ?_, fun c p u hp hhead hstep => ?_, fun c => ?_,
    fun c p hp hhead hstep => hinv.sched_panics hp hhead hstep⟩
  · have hview := hinv.switches hstep hc
    have hheld : u.held c = [.ptable] := congrArg View.held hview
    exact ⟨(hinv.step hstep).locks.holding (by rw [hheld]; exact List.mem_singleton_self _), congrArg View.ncli hview⟩
  · have hkept := hinv.kept p (.inr hhead)
    simp only [step, thread_of_on hp] at hstep
    split at hstep
    · cases hstep
    · rename_i i τ htodo
      rw [htodo] at hhead
      cases hhead
      cases hstep
      simp only [Function.update_self, hkept]
  · have hsafe := hinv.safe c
    cases htodo : s.todo (s.thread c) with
    | nil => exact ⟨nofun, nofun, nofun⟩
    | cons i τ =>
      rw [htodo] at hsafe
      refine ⟨fun hi => ?_, fun hi => ?_, fun l hi => ?_⟩
      · cases hi
        exact hsafe.2.1
      · cases hi
        have hncli : 1 ≤ s.ncli c := hsafe.2.1
        omega
      · cases hi
        exact hinv.locks.holding hsafe.2.1

/-- two CPUs before their first round, and no process -/
def booted : St 1 (Fin 2) where
  locked _ := none
  lcpu _ := none
  IF _ := false
  ncli _ := 0
  intena _ := false
  on _ := none
  thr t :=
    match t with
    | .proc _ => ⟨[], false, false, []⟩
    | .sched _ => ⟨[.loop], false, false, []⟩
  state _ := .UNUSED
  held _ := []
  grab _ := none
  left _ := false

theorem booted_init : Init booted :=
  ⟨fun _ => rfl, fun _ => rfl, fun _ => rfl, fun _ => rfl, fun _ => rfl, fun _ => rfl, fun _ => rfl,
    fun t => by cases t <;> rfl, fun _ => rfl, fun _ => rfl, fun _ => rfl⟩

/-- p starts on CPU c, yields, and goes on on CPU d -/
def yieldRun {n : ℕ} {C : Type} (c d : C) (p : Fin n) : List (Act n C) :=
  .start p :: List.replicate 8 (.exec c) ++ .dispatch c p :: List.replicate 13 (.exec c) ++
    .call c .yield :: List.replicate 9 (.exec c) ++ .done c :: List.replicate 6 (.exec c) ++
    List.replicate 8 (.exec d) ++ .dispatch d p :: List.replicate 7 (.exec d)

theorem yieldRun_resumed : ((yieldRun 0 1 0).foldlM step booted).map (fun s =>
    ((s.on 0, s.on 1), ((s.todo (.proc 0)).head?, (step s (.exec 1)).isSome))) =
    some ((none, some 0), (some .setIntena, true)) := by decide +kernel

theorem interrupt_nesting_yield : ∃ s u : St 1 (Fin 2), (machine 1 (Fin 2)).Reach s ∧ s.on 1 = some 0 ∧
    step s (.exec 1) = some u ∧ u.intena 1 = s.left 0 := by
  obtain ⟨s, hrun, heq⟩ := Option.map_eq_some_iff.1 yieldRun_resumed
  have hreach : (machine 1 (Fin 2)).Reach s := Machine.Reach.foldlM _ (.init booted_init) hrun
  have hon : s.on 1 = some 0 := congrArg (fun x => x.1.2) heq
  have hhead : (s.todo (.proc 0)).head? = some .setIntena := congrArg (fun x => x.2.1) heq
  obtain ⟨u, hu⟩ := Option.isSome_iff_exists.1 (congrArg (fun x => x.2.2) heq)
  exact ⟨s, u, hreach, hon, hu, (interrupt_nesting hreach).2.2.1 1 0 u hon hhead hu⟩

end Xv6.Spin
