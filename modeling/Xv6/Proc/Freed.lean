/-
No CPU runs on freed memory.

- `Mem.Inv.step`: the steps that allocate, pass on and free pages keep every page with one owner and every CPU on the
  pages of the process it is bound to;
- `freed_unused`: whenever `wait`, `exec`, `copyuvm` or `fork` frees a stack or a page table, no CPU is on it.
-/
import Xv6.Proc.Switching
import Xv6.Proc.Sleep

namespace Xv6.Proc.Mem

open Function

variable {n : ℕ} {C : Type} {initproc : Fin n} {s t : Mem n C} {a : MAct n C} {c c' : C} {p q r np : Fin n}
  {d e : Page} {w : Work n} {u : St n C}

/-! ## Steps that move pages -/

/-- no work on a ZOMBIE begins or ends -/
theorem reaps_update (hw : w.reaps = (s.work p).reaps) (r : Fin n) :
    (update s.work p w r).reaps = (s.work r).reaps := by
  by_cases hr : r = p
  · rw [hr, update_self, hw]
  · rw [update_of_ne hr]

/-- p goes on with its work, and keeps at most its page -/
theorem Inv.setWork {free : Page → Bool} (h : Inv s) (hreaps : w.reaps = (s.work p).reaps)
    (hcommit : ∀ d, s.work p ≠ .commit d) (howned : Owned (owner { s with work := update s.work p w }) free) :
    Inv { s with free := free, work := update s.work p w } := by
  have hall := reaps_update hreaps
  refine ⟨h.threads, howned, h.switch, h.rsp, fun c e he => ?_, ?_, h.filled, ?_⟩
  · obtain ⟨r, hr, hon⟩ := h.cr3 c e he
    refine ⟨r, hr.imp_right fun hr => ?_, hon⟩
    have hne : r ≠ p := fun heq => hcommit e (heq ▸ hr)
    simpa only [update_of_ne hne] using hr
  · simpa only [hall] using h.table
  · simpa only [hall] using h.reaps

/-- the owners, when the work of p changes -/
theorem owner_work (o : Owner n) :
    owner { s with work := update s.work p w } o = if o = .work p then w.page else s.owner o := by
  cases o with
  | stack q | table q => rfl
  | work q =>
    by_cases hq : q = p
    · simp [owner, hq]
    · simp [owner, hq]

theorem Inv.setupkvm (h : Inv s) (hfree : s.free d = true) (hwork : s.work p = .idle) (hw : w = .copy d ∨ w = .load d) :
    Inv { s with free := update s.free d false, work := update s.work p w } := by
  refine h.setWork ?_ (by rw [hwork]; exact nofun) (h.owned.alloc (o := .work p) hfree fun o e ho => ?_)
  · rw [hwork]
    rcases hw with rfl | rfl <;> rfl
  · rw [owner_work] at ho
    split_ifs at ho with hp
    · left
      rcases hw with rfl | rfl <;> exact ⟨hp, (Option.some.inj ho).symm⟩
    · exact .inr ho

/-- p works on the same page as before, or on none -/
theorem Inv.relabel (h : Inv s) (hreaps : w.reaps = (s.work p).reaps) (hcommit : ∀ d, s.work p ≠ .commit d)
    (hpage : ∀ d, w.page = some d → (s.work p).page = some d) : Inv { s with work := update s.work p w } := by
  refine h.setWork hreaps hcommit (h.owned.mono fun o e ho => ?_)
  rw [owner_work] at ho
  split_ifs at ho with hp
  · rw [hp]
    exact hpage e ho
  · exact ho

/-- `freevm` gives the page table back -/
theorem Inv.freed {k : Caller n} (h : Inv s) (hwork : s.work p = .freevm d k)
    (hw : (∀ q, k ≠ .wait q) ∧ (w = .idle ∨ w = .failed) ∨ ∃ q, k = .wait q ∧ w = .emptied q) :
    Inv { s with free := update s.free d true, work := update s.work p w } := by
  have hpage : w.page = none := by
    rcases hw with ⟨-, rfl | rfl⟩ | ⟨q, -, rfl⟩ <;> rfl
  have hreaps : w.reaps = (s.work p).reaps := by
    rw [hwork]
    rcases hw with ⟨hk, rfl | rfl⟩ | ⟨q, rfl, rfl⟩
    · cases k with
      | wait q => exact absurd rfl (hk q)
      | exec | copyuvm => rfl
    · cases k with
      | wait q => exact absurd rfl (hk q)
      | exec | copyuvm => rfl
    · rfl
  have hold : s.owner (.work p) = some d := by rw [owner, hwork]; rfl
  refine h.setWork hreaps (by rw [hwork]; exact nofun) (h.owned.release hold fun o e ho => ?_)
  rw [owner_work] at ho
  split_ifs at ho with hp
  · rw [hpage] at ho
    cases ho
  · exact ⟨hp, ho⟩

/-- `allocproc` stores a kernel stack, or 0, in a slot that no CPU is bound to -/
theorem Inv.setStack {free : Page → Bool} {o : Option Page} (h : Inv s) (hstate : (s.proc.slot np).state = .EMBRYO)
    (howned : Owned (owner { s with kstack := update s.kstack np o }) free) :
    Inv { s with free := free, kstack := update s.kstack np o } := by
  refine ⟨h.threads, howned, h.switch, fun c e he => ?_, h.cr3, h.table, h.filled, h.reaps⟩
  obtain ⟨r, hr, hon⟩ := h.rsp c e he
  refine ⟨r, ?_, hon⟩
  have hne : r ≠ np := by
    rintro rfl
    exact h.unbound_embryo hstate (bound_of_rsp hon)
  simpa only [update_of_ne hne] using hr

theorem owner_kstack {o : Option Page} (x : Owner n) :
    owner { s with kstack := update s.kstack np o } x = if x = .stack np then o else s.owner x := by
  cases x with
  | table q | work q => rfl
  | stack q =>
    by_cases hq : q = np
    · simp [owner, hq]
    · simp [owner, hq]

/-- a slot and a process exchange their page tables, or forget them -/
theorem owned_trade {free : Page → Bool} {o : Option Page} (h : Owned s.owner free)
    (ho : ∀ d, o = some d → (s.work p).page = some d) (hw : ∀ d, w.page = some d → s.own q = some d) :
    Owned (owner { s with own := update s.own q o, work := update s.work p w }) free := by
  refine h.trade (x := .table q) (y := .work p) (fun d hd => ?_) (fun d hd => ?_) fun x d hx hy hd => ?_
  · simp only [owner, update_self] at hd
    exact ho d hd
  · simp only [owner, update_self] at hd
    exact hw d hd
  · cases x with
    | stack r => exact hd
    | table r =>
      have hr : r ≠ q := fun hr => hx (hr ▸ rfl)
      simpa only [owner, update_of_ne hr] using hd
    | work r =>
      have hr : r ≠ p := fun hr => hy (hr ▸ rfl)
      simpa only [owner, update_of_ne hr] using hd

/-- `copyuvm` passes its page table on to the slot -/
theorem Inv.copied (h : Inv s) (hstate : (s.proc.slot np).state = .EMBRYO) (hwork : s.work p = .copy d) :
    Inv { s with
      pgdir := update s.pgdir np (some d), own := update s.own np (some d)
      work := update s.work p .idle } := by
  have hreaps := reaps_update (s := s) (p := p) (w := .idle) (by rw [hwork]; rfl)
  refine ⟨h.threads, owned_trade h.owned (fun e he => by rw [hwork]; exact he) nofun, h.switch, h.rsp, fun c e he => ?_,
    fun q hq => ?_, fun t q hq => ?_, ?_⟩
  · obtain ⟨r, hr, hon⟩ := h.cr3 c e he
    have hne : r ≠ np := by
      rintro rfl
      exact h.unbound_embryo hstate hon
    refine ⟨r, hr.imp (fun hr => ?_) (fun hr => ?_), hon⟩
    · simpa only [update_of_ne hne] using hr
    · have hrp : r ≠ p := by
        rintro rfl
        cases hwork.symm.trans hr
      simpa only [update_of_ne hrp] using hr
  · have hne : q ≠ np := by
      rintro rfl
      exact hq.2 hstate
    simpa only [update_of_ne hne, hreaps] using h.table q hq
  · by_cases hne : q = np
    · simp only [hne, update_self]
    · simpa only [update_of_ne hne] using h.filled t q hq
  · simpa only [hreaps] using h.reaps

/-- `fork` forgets the page table of a slot that it fills -/
theorem Inv.forget (h : Inv s) (htop : s.proc.top (.proc p) = .copyuvm np) :
    Inv { s with pgdir := update s.pgdir np none } := by
  have hpc := h.threads.sched.pc_of_top htop rfl
  have hforks : (s.proc.pc (.proc p)).forks = some np := by rw [hpc]; rfl
  refine ⟨h.threads, h.owned, h.switch, h.rsp, h.cr3, fun q hq => ?_, fun t q hq => ?_, h.reaps⟩
  · have hne : q ≠ np := by
      rintro rfl
      exact hq.2 (h.threads.sched.embryo _ q hforks)
    simpa only [update_of_ne hne] using h.table q hq
  · have hne : q ≠ np := by
      rintro rfl
      -- only p fills the slot, and it has not come that far
      have ht := h.threads.sched.forker t _ q (Pc.forks_of_filled hq) hforks
      rw [ht, hpc] at hq
      cases hq
    simpa only [update_of_ne hne] using h.filled t q hq

/-- `exec` stores its new page table and keeps the old one -/
theorem Inv.commit {old : Page} (h : Inv s) (hcur : s.proc.cur c = some p) (hwork : s.work p = .load d)
    (hold : s.pgdir p = some old) :
    Inv { s with
      pgdir := update s.pgdir p (some d), own := update s.own p (some d)
      work := update s.work p (.commit old) } := by
  have hown : s.own p = some old := (h.own_running hcur).trans hold
  have hreaps := reaps_update (s := s) (p := p) (w := .commit old) (by rw [hwork]; rfl)
  refine ⟨h.threads, owned_trade h.owned (fun e he => by rw [hwork]; exact he) (fun e he => hown.trans he), h.switch, h.rsp,
    fun c e he => ?_, fun q hq => ?_, fun t q hq => ?_, ?_⟩
  · obtain ⟨r, hr, hon⟩ := h.cr3 c e he
    refine ⟨r, ?_, hon⟩
    by_cases hne : r = p
    · rw [hne] at hr ⊢
      rcases hr with hr | hr
      · rw [hown, Option.some.injEq] at hr
        exact .inr (by simp only [update_self, hr])
      · cases hwork.symm.trans hr
    · simpa only [update_of_ne hne] using hr
  · by_cases hne : q = p
    · exact .inl (by simp only [hne, update_self])
    · simpa only [update_of_ne hne, hreaps] using h.table q hq
  · by_cases hne : q = p
    · simp only [hne, update_self]
    · simpa only [update_of_ne hne] using h.filled t q hq
  · simpa only [hreaps] using h.reaps

section

variable [DecidableEq C]

/-- the running process loads its page table -/
theorem Inv.grow (h : Inv s) (hcur : s.proc.cur c = some p) (hd : s.pgdir p = some d) :
    Inv { s with cr3 := update s.cr3 c (some d) } := by
  refine ⟨h.threads, h.owned, h.switch, h.rsp, fun c' e he => ?_, h.table, h.filled, h.reaps⟩
  by_cases hc : c' = c
  · rw [hc] at he ⊢
    simp only [update_self] at he
    exact ⟨p, .inl (((h.own_running hcur).trans hd).trans he), .inl hcur⟩
  · simp only [update_of_ne hc] at he
    exact h.cr3 c' e he

/-- `exec` leaves its old page table: no other CPU can be on it -/
theorem Inv.switchuvm {old : Page} (h : Inv s) (hcur : s.proc.cur c = some p) (hd : s.pgdir p = some d)
    (hwork : s.work p = .commit old) :
    Inv { s with cr3 := update s.cr3 c (some d), work := update s.work p (.freevm old .exec) } := by
  have hreaps := reaps_update (s := s) (p := p) (w := .freevm old .exec) (by rw [hwork]; rfl)
  refine ⟨h.threads, h.owned.mono fun o e ho => ?_, h.switch, h.rsp, fun c' e he => ?_, ?_, h.filled, ?_⟩
  · cases o with
    | stack q | table q => exact ho
    | work q =>
      by_cases hq : q = p
      · rw [hq] at ho ⊢
        simp only [owner, update_self] at ho
        rw [owner, hwork]
        exact ho
      · simpa only [owner, update_of_ne hq] using ho
  · by_cases hc : c' = c
    · rw [hc] at he ⊢
      simp only [update_self] at he
      exact ⟨p, .inl (((h.own_running hcur).trans hd).trans he), .inl hcur⟩
    · simp only [update_of_ne hc] at he
      obtain ⟨r, hr, hon⟩ := h.cr3 c' e he
      have hne : r ≠ p := by
        rintro rfl
        rcases hon with hcur' | hswitch
        · exact hc (h.threads.sched.uniq c' c r hcur' hcur)
        · exact (h.switch c' r hswitch).2.2.2 c hcur
      exact ⟨r, by simpa only [update_of_ne hne] using hr, hon⟩
  · simpa only [hreaps] using h.table
  · simpa only [hreaps] using h.reaps

omit [DecidableEq C] in
/-- `wait` frees the stack of a ZOMBIE and begins to free its page table -/
theorem Inv.reap {k : Page} (h : Inv s) (hcur : s.proc.cur c = some p) (htop : s.proc.top (.proc p) = .scanKids)
    (hwork : s.work p = .idle) (hq : s.proc.zombie p = some q) (hk : s.kstack q = some k) (hd : s.pgdir q = some d) :
    Inv { s with
      free := update s.free k true, kstack := update s.kstack q none
      own := update s.own q none, work := update s.work p (.freevm d (.wait q)) } := by
  have hzombie := (zombie_spec hq).2
  have hfree : ∀ r q', (s.work r).reaps ≠ some q' := by
    intro r q' hr
    rw [h.reaper hcur htop hr, hwork] at hr
    cases hr
  have hown : s.own q = some d := by
    rcases h.table q (Slot.started_of hzombie nofun nofun) with hown | ⟨r, hr⟩
    · exact hown.trans hd
    · exact absurd hr (hfree r q)
  have hunbound : ∀ c', ¬ s.Bound c' q := fun c' => h.unbound_zombie hcur htop hzombie
  have howned : Owned (owner { s with kstack := update s.kstack q none }) (update s.free k true) := by
    refine h.owned.release (o := .stack q) hk fun o e ho => ?_
    rw [owner_kstack] at ho
    split_ifs at ho with hx
    exact ⟨hx, ho⟩
  have hreaps : ∀ r q', (update s.work p (.freevm d (.wait q)) r).reaps = some q' ↔ r = p ∧ q = q' := by
    intro r q'
    by_cases hr : r = p
    · rw [hr, update_self]
      simp [Work.reaps]
    · rw [update_of_ne hr]
      exact iff_of_false (hfree r q') fun hp => hr hp.1
  refine ⟨h.threads, owned_trade howned nofun fun e he => hown.trans he, h.switch, fun c' e he => ?_, fun c' e he => ?_,
    fun q' hq' => ?_, fun t q' hq' => ?_, fun r q' hr => ?_⟩
  · obtain ⟨r, hr, hon⟩ := h.rsp c' e he
    have hne : r ≠ q := by
      rintro rfl
      exact hunbound c' (bound_of_rsp hon)
    exact ⟨r, by simpa only [update_of_ne hne] using hr, hon⟩
  · obtain ⟨r, hr, hon⟩ := h.cr3 c' e he
    have hne : r ≠ q := by
      rintro rfl
      exact hunbound c' hon
    refine ⟨r, hr.imp (fun hr => ?_) (fun hr => ?_), hon⟩
    · simpa only [update_of_ne hne] using hr
    · have hrp : r ≠ p := by
        rintro rfl
        cases hwork.symm.trans hr
      simpa only [update_of_ne hrp] using hr
  · by_cases hne : q' = q
    · exact .inr ⟨p, (hreaps p q').2 ⟨rfl, hne.symm⟩⟩
    · rcases h.table q' hq' with hown | ⟨r, hr⟩
      · exact .inl (by simpa only [update_of_ne hne] using hown)
      · exact absurd hr (hfree r q')
  · have hne : q' ≠ q := by
      rintro rfl
      have hembryo := h.threads.sched.embryo t q' (Pc.forks_of_filled hq')
      cases hzombie.symm.trans hembryo
    simpa only [update_of_ne hne] using h.filled t q' hq'
  · obtain ⟨rfl, rfl⟩ := (hreaps r q').1 hr
    exact ⟨⟨c, hcur⟩, htop, hq⟩

theorem step_reap {s : St n C} (hcur : s.cur c = some p) (htop : s.top (.proc p) = .scanKids) (hq : s.zombie p = some q)
    (h : Proc.step initproc s (.move c) = some u) : u = (s.reap p q).goto (.proc p) .waitDone := by
  simp only [Proc.step, Proc.move, thread_of_cur hcur, htop, Pc.enter, Pc.leave, hcur, procMove, hq] at h
  exact (Option.some.inj h).symm

/-- `wait` resets the slot of the ZOMBIE -/
theorem Inv.reset (h : Inv s) (hon : s.On c p) (htop : s.proc.top (.proc p) = .scanKids) (hwork : s.work p = .emptied q)
    (hstep : Proc.step initproc s.proc (.move c) = some u) :
    Inv { s with proc := u, work := update s.work p .idle } := by
  obtain ⟨hready, hcur⟩ := hon
  have hreap : (s.work p).reaps = some q := by rw [hwork]; rfl
  have hq := (h.reaps p q hreap).2.2
  have hu := step_reap hcur htop hq hstep
  have hcurs : u.cur = s.proc.cur := by rw [hu, goto_cur]; rfl
  have hslot : ∀ q', q' ≠ q → u.slot q' = s.proc.slot q' := by
    intro q' hne
    rw [hu, goto_slot, reap_slot, modify_slot_of_ne _ _ _ hne]
  have hunused : (u.slot q).state = .UNUSED := by
    rw [hu, goto_slot, reap_slot, modify_slot_self]
  have hstep' := Proc.step_cases hstep
  have hheld := h.scan_held hcur htop
  refine ⟨h.threads.step hstep', h.owned.mono fun o e ho => ?_, fun c' p' hp => ?_, fun c' e he => ?_, fun c' e he => ?_,
    fun q' hq' => ?_, fun t q' hq' => ?_, fun r q' hr => ?_⟩
  · have ho' : owner { s with work := update s.work p .idle } o = some e := ho
    rw [owner_work] at ho'
    split_ifs at ho' with hx
    · cases ho'
    · exact ho'
  · have hc : c' = c := Option.some.inj ((h.switch_held hp).symm.trans hheld)
    rw [hc] at hp
    simp only [hready] at hp
    cases hp
  · simpa only [hcurs] using h.rsp c' e he
  · obtain ⟨r, hr, hon⟩ := h.cr3 c' e he
    refine ⟨r, hr.imp_right fun hr => ?_, by simpa only [Bound, hcurs] using hon⟩
    have hrp : r ≠ p := by
      rintro rfl
      cases hwork.symm.trans hr
    simpa only [update_of_ne hrp] using hr
  · have hne : q' ≠ q := by
      rintro rfl
      exact hq'.1 hunused
    simp only [hslot q' hne] at hq'
    rcases h.table q' hq' with hown | ⟨r, hr⟩
    · exact .inl hown
    · rw [h.reaper hcur htop hr, hreap] at hr
      exact absurd (Option.some.inj hr).symm hne
  · rcases hstep'.filled h.threads hq' with hold | ⟨ha, -⟩
    · exact h.filled t q' hold
    · cases ha
  · by_cases hrp : r = p
    · rw [hrp] at hr
      simp only [update_self] at hr
      cases hr
    · simp only [update_of_ne hrp] at hr
      exact absurd (h.reaper hcur htop hr) hrp

/-! ## All steps -/

omit [DecidableEq C] in
theorem quiet_of_top {b : Bool} {x : Pc n} (hcur : s.proc.cur c = some p) (htop : s.proc.top (.proc p) = x)
    (hx : x ≠ .scanKids) : s.Quiet (.kalloc c b) := by
  intro p' hcur' htop'
  cases hcur.symm.trans hcur'
  exact absurd (htop.symm.trans htop') hx

theorem Inv.step (h : Inv s) (hstep : MStep initproc s a t) : Inv t := by
  cases hstep with
  | @run a u hready hplain hstep hcur =>
    refine h.run hstep hready hcur (quiet_of_plain h hstep hplain) fun p q ha hcur' => ?_
    -- the allocations of `fork` are not among these steps
    obtain ⟨c, rfl⟩ : ∃ c, a = .kalloc c true := ⟨_, ha⟩
    change s.proc.cur c = some p at hcur'
    simp only [Mem.plain, Act.cpu, hcur'] at hplain
    cases hplain
  | pick hcur hready htop hstate hd => exact h.pick hcur hready htop hstate hd
  | enter hcur hswitch hstep hnew => exact h.enter hswitch hstep hnew
  | leave hon hplain hstep hnew => exact h.leave hon hplain hstep hnew
  | swtch hcur hswitch => exact h.swtch hswitch
  | switchkvm hcur hswitch => exact h.switchkvm hswitch
  | @kstack c p np d u hon htop hfree hstep =>
    have hstate : (s.proc.slot np).state = .EMBRYO := h.threads.sched.embryo_of_top (t := .proc p) (by rw [htop]; rfl)
    have h' := h.setStack hstate (o := some d) (h.owned.alloc (o := .stack np) hfree fun o e ho => by
      rw [owner_kstack] at ho
      split_ifs at ho with hx
      · exact .inl ⟨hx, (Option.some.inj ho).symm⟩
      · exact .inr ho)
    refine h'.run hstep hon.1 hstep.kalloc_cur (quiet_of_top hon.2 htop (by simp)) fun p' q' _ hcur' hpc => ?_
    cases hon.2.symm.trans hcur'
    cases (h.threads.sched.pc_of_top htop rfl).symm.trans hpc
  | setupkvm hon hfree hwork hw => exact h.setupkvm hfree hwork hw
  | @nostack c p np u hon htop hstep =>
    have hstate : (s.proc.slot np).state = .EMBRYO := h.threads.sched.embryo_of_top (t := .proc p) (by rw [htop]; rfl)
    have h' := h.setStack hstate (o := none) (h.owned.mono fun o e ho => by
      rw [owner_kstack] at ho
      split_ifs at ho with hx
      exact ho)
    exact h'.run hstep hon.1 hstep.kalloc_cur (quiet_of_top hon.2 htop (by simp)) (by simp)
  | notable hon hwork => exact h.relabel (by rw [hwork]; rfl) (by rw [hwork]; simp) (by simp [Work.page])
  | @copied c p np d u hon htop hwork hstep =>
    have hstate : (s.proc.slot np).state = .EMBRYO := h.threads.sched.embryo_of_top (t := .proc p) (by rw [htop]; rfl)
    refine (h.copied hstate hwork).run hstep hon.1 hstep.kalloc_cur (quiet_of_top hon.2 htop (by simp)) fun p' q' _ hcur' hpc => ?_
    cases hon.2.symm.trans hcur'
    cases (h.threads.sched.pc_of_top htop rfl).symm.trans hpc
    simp only [update_self]
  | @bad c p d k hon hwork hk =>
    refine h.relabel ?_ ?_ fun e he => ?_
    · cases k with
      | wait q => exact absurd rfl (hk q)
      | exec | copyuvm => rcases hwork with hwork | hwork <;> rw [hwork] <;> rfl
    · rcases hwork with hwork | hwork <;> rw [hwork] <;> simp
    · rcases hwork with hwork | hwork <;> rw [hwork] <;> exact he
  | @unfork c p np k u hon htop hwork hk hstep =>
    have hstate : (s.proc.slot np).state = .EMBRYO := h.threads.sched.embryo_of_top (t := .proc p) (by rw [htop]; rfl)
    have h₁ := h.relabel (p := p) (w := .idle) (by rw [hwork]; rfl) (by rw [hwork]; simp) (by simp [Work.page])
    have h₂ := h₁.setStack hstate (o := none) (h₁.owned.release (o := .stack np) hk fun o e ho => by
      rw [owner_kstack] at ho
      split_ifs at ho with hx
      exact ⟨hx, ho⟩)
    exact (h₂.forget htop).run hstep hon.1 hstep.kalloc_cur (quiet_of_top hon.2 htop (by simp)) (by simp)
  | commit hon hwork hold => exact h.commit hon.2 hwork hold
  | grow hon hd hwork => exact h.grow hon.2 hd
  | switchuvm hon hd hwork => exact h.switchuvm hon.2 hd hwork
  | reap hon htop hwork hq hk hd => exact h.reap hon.2 htop hwork hq hk hd
  | freed hon hwork hw => exact h.freed hwork hw
  | reset hon htop hwork hstep => exact h.reset hon htop hwork hstep

omit [DecidableEq C] in
theorem Inv.init (h : s.Init initproc) : Inv s := by
  obtain ⟨hproc, ⟨k, d, hkd, hk, hd, hown, hfk, hfd⟩, hother, hwork, hrsp, hcr3, hswitch⟩ := h
  have howner : ∀ o e, s.owner o = some e → o = .stack initproc ∧ e = k ∨ o = .table initproc ∧ e = d := by
    intro o e ho
    cases o with
    | stack p =>
      by_cases hp : p = initproc
      · rw [hp, owner, hk] at ho
        exact .inl ⟨hp ▸ rfl, (Option.some.inj ho).symm⟩
      · cases (hother p hp).1.symm.trans ho
    | table p =>
      by_cases hp : p = initproc
      · rw [hp, owner, hown] at ho
        exact .inr ⟨hp ▸ rfl, (Option.some.inj ho).symm⟩
      · cases (hother p hp).2.2.symm.trans ho
    | work p =>
      rw [owner, hwork p] at ho
      cases ho
  have heq : ∀ q, s.own q = s.pgdir q := by
    intro q
    by_cases hq : q = initproc
    · rw [hq, hown, hd]
    · rw [(hother q hq).2.2, (hother q hq).2.1]
  refine ⟨Threads.init hproc, ⟨fun o o' e ho ho' => ?_, fun o e ho => ?_⟩, fun c p hp => ?_, fun c e he => ?_,
    fun c e he => ?_, fun q _ => .inl (heq q), fun t q _ => heq q, fun r q hr => ?_⟩
  · rcases howner o e ho with ⟨rfl, rfl⟩ | ⟨rfl, rfl⟩ <;> rcases howner o' _ ho' with ⟨rfl, he⟩ | ⟨rfl, he⟩
    · rfl
    · exact absurd he hkd
    · exact absurd he.symm hkd
    · rfl
  · rcases howner o e ho with ⟨-, rfl⟩ | ⟨-, rfl⟩ <;> assumption
  · rw [hswitch c] at hp
    cases hp
  · cases (hrsp c).symm.trans he
  · cases (hcr3 c).symm.trans he
  · rw [hwork r] at hr
    cases hr

theorem Inv.of_reach (h : (Mem.machine initproc C).Reach s) : Inv s :=
  h.invariant (I := Inv) (fun _ h0 => Inv.init h0) fun _ _ _ hs hstep => hs.step (Mem.step_cases hstep)

omit [DecidableEq C] in
/-- the page table that somebody frees is in no cr3 -/
theorem Inv.freevm_unused {k : Caller n} (h : Inv s) (hwork : s.work p = .freevm d k) (c : C) : s.cr3 c ≠ some d := by
  intro hc
  have hp : s.owner (.work p) = some d := by rw [owner, hwork]; rfl
  obtain ⟨r, hr | hr, -⟩ := h.cr3 c d hc
  · cases h.owned.apart (.table r) _ d hr hp
  · have hrp : s.owner (.work r) = some d := by rw [owner, hr]; rfl
    cases h.owned.apart _ _ d hrp hp
    cases hwork.symm.trans hr

omit [DecidableEq C] in
/-- the stack of a slot that no CPU is bound to -/
theorem Inv.stack_unused (h : Inv s) (hk : s.kstack q = some d) (hq : ¬ s.Bound c q) : s.rsp c ≠ some d ∧ s.cr3 c ≠ some d := by
  constructor
  · intro hc
    obtain ⟨r, hr, hon⟩ := h.rsp c d hc
    cases h.owned.apart (.stack r) (.stack q) d hr hk
    exact hq (bound_of_rsp hon)
  · intro hc
    obtain ⟨r, hr | hr, -⟩ := h.cr3 c d hc
    · cases h.owned.apart (.table r) (.stack q) d hr hk
    · have hr' : s.owner (.work r) = some d := by rw [owner, hr]; rfl
      cases h.owned.apart _ (.stack q) d hr' hk

omit [DecidableEq C] in
/-- a page that becomes free by one store is the page stored -/
theorem eq_of_update {b : Bool} (hold : s.free d = false) (hnew : update s.free e b d = true) : d = e := by
  by_contra hne
  rw [update_of_ne hne, hold] at hnew
  cases hnew

/-- **No CPU runs on freed memory.** In every interleaving, the stack a CPU executes on and the page table in its cr3 are
allocated; while `freevm` frees a page table, no cr3 holds it; and a step that frees a page (`wait` and `fork` a kernel
stack, `freevm` for `wait`, `exec` or `copyuvm` a page table) frees none that is the stack or in the cr3 of a CPU. -/
theorem freed_unused (h : (Mem.machine initproc C).Reach s) :
    (∀ c d, s.rsp c = some d ∨ s.cr3 c = some d → s.free d = false) ∧
    (∀ p d k, s.work p = .freevm d k → ∀ c, s.cr3 c ≠ some d) ∧
    ∀ a t, s.step initproc a = some t → ∀ d, s.free d = false → t.free d = true →
      ∀ c, s.rsp c ≠ some d ∧ s.cr3 c ≠ some d := by
  have hinv := Inv.of_reach h
  refine ⟨fun c d hd => ?_, fun p d k hwork c => hinv.freevm_unused hwork c, fun a t hstep d hold hnew c => ?_⟩
  · rcases hd with hd | hd
    · obtain ⟨p, hp, -⟩ := hinv.rsp c d hd
      exact hinv.owned.live (.stack p) d hp
    · obtain ⟨p, hp | hp, -⟩ := hinv.cr3 c d hd
      · exact hinv.owned.live (.table p) d hp
      · exact hinv.owned.live (.work p) d (by rw [owner, hp]; rfl)
  · cases Mem.step_cases hstep with
    | @unfork c' p np k u hon htop hwork hk hstep =>
      cases eq_of_update hold hnew
      refine hinv.stack_unused hk (hinv.unbound_embryo ?_)
      exact hinv.threads.sched.embryo_of_top (t := .proc p) (by rw [htop]; rfl)
    | reap hon htop hwork hq hk hd =>
      cases eq_of_update hold hnew
      exact hinv.stack_unused hk (hinv.unbound_zombie hon.2 htop (zombie_spec hq).2)
    | @freed c' p e k w hon hwork hw =>
      cases eq_of_update hold hnew
      refine ⟨fun hc => ?_, hinv.freevm_unused hwork c⟩
      obtain ⟨r, hr, -⟩ := hinv.rsp c d hc
      have hp : s.owner (.work p) = some d := by rw [owner, hwork]; rfl
      cases hinv.owned.apart (.stack r) _ d hr hp
    | kstack _ _ hfree | setupkvm _ hfree =>
      cases eq_of_update hold hnew
      cases hold.symm.trans hfree
    | _ => cases hold.symm.trans hnew

end

/-- init has stack 0 and page table 1 -/
def bootedMem {n : ℕ} (C : Type) (initproc : Fin n) : Mem n C where
  proc := booted C initproc
  free d := decide (2 ≤ d)
  kstack p := if p = initproc then some 0 else none
  pgdir p := if p = initproc then some 1 else none
  own p := if p = initproc then some 1 else none
  work _ := .idle
  rsp _ := none
  cr3 _ := none
  switch _ := .ready

theorem bootedMem_init {n : ℕ} {C : Type} {initproc : Fin n} : (bootedMem C initproc).Init initproc := by
  refine ⟨booted_init, ⟨0, 1, by simp [bootedMem]⟩, fun p hp => ?_, fun _ => rfl, fun _ => rfl, fun _ => rfl, fun _ => rfl⟩
  simp [bootedMem, hp]

/-- init forks on CPU c and waits; the child, in slot np, runs on CPU d and exits; init frees its stack and begins to free
its page table -/
def reapRun {n : ℕ} {C : Type} (c d : C) (np : Fin n) : List (MAct n C) :=
  [.run (.move c), .pick c, .enter c, .run (.move c), .run (.call c .fork), .run (.move c), .run (.take c np),
    .run (.move c), .kalloc c 2, .kalloc c 3, .copied c, .run (.move c), .run (.move c), .run (.move d), .run (.move d),
    .pick d, .enter d, .run (.move d), .run (.call c .wait), .run (.move c), .leave c, .swtch c, .switchkvm c,
    .run (.move c), .run (.move c), .run (.move c), .run (.move c), .run (.call d .exit), .run (.move d), .run (.move d),
    .run (.move d), .run (.move d), .leave d, .swtch d, .switchkvm d, .run (.move d), .run (.move d), .run (.move d),
    .run (.move c), .pick c, .enter c, .run (.move c), .reap c]

theorem reapRun_freevm : ((reapRun 0 1 1).foldlM (Mem.step 0) (bootedMem (n := 2) (Fin 2) 0)).map
    (fun s => (s.work 0, (s.free 2, s.cr3 0))) = some (.freevm 3 (.wait 1), (true, some 1)) := by decide +kernel

theorem freed_unused_reap : ∃ s : Mem 2 (Fin 2), (Mem.machine 0 (Fin 2)).Reach s ∧ s.work 0 = .freevm 3 (.wait 1) ∧
    ∀ c, s.cr3 c ≠ some 3 := by
  obtain ⟨s, hrun, heq⟩ := Option.map_eq_some_iff.1 reapRun_freevm
  have hreach : (Mem.machine 0 (Fin 2)).Reach s := Machine.Reach.foldlM _ (.init bootedMem_init) hrun
  have hwork : s.work 0 = .freevm 3 (.wait 1) := congrArg Prod.fst heq
  exact ⟨s, hreach, hwork, (freed_unused hreach).2.1 0 3 _ hwork⟩

end Xv6.Proc.Mem
