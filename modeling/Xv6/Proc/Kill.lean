/-
Who sets `killed`.

`kill` compares the pid of every slot of the table, whatever its state, and nothing clears `killed` or the pid of a slot
but `wait`. The run of `proc.c` is followed together with its history: whether each process has been a target of `kill`
or has faulted since `allocproc` made it, and whether some `kill` has returned 0 with no process in use to name.
- `kill_result`: `kill` returns 0 exactly if a slot of the table, in use or not, has the pid;
- `kill_iff`: as long as `allocproc` takes no slot whose `killed` is set and no `kill` is called with the pid of UNUSED
  slots only, a process is killed only as a target; the first step that breaks either condition breaks this;
- `kill_free_slot`: `kill(0)` finds a free slot and returns 0, and the next child is born killed.
-/
import Xv6.Proc.Pids
import Xv6.Proc.Sleep

namespace Xv6.Proc

variable {n : ℕ} {C : Type}

/-! ## History -/

/-- the pid that a step looks for in the loop of `kill` -/
def St.killing (s : St n C) : Act n C → Option (BitVec 32)
  | .move c =>
    match s.cur c with
    | some p =>
      match s.top (.proc p) with
      | .kill1 pid => some pid
      | _ => none
    | none => none
  | _ => none

/-- the value that the `kill` on the CPU of a step is about to return -/
def St.result (s : St n C) (a : Act n C) : Option ℤ :=
  match s.top (s.thread a.cpu) with
  | .killDone r => some r
  | _ => none

/-- a process in use has the pid -/
def St.names (s : St n C) (pid : BitVec 32) : Prop := ∃ q, (s.slot q).state ≠ .UNUSED ∧ (s.slot q).pid = pid

instance (s : St n C) (pid : BitVec 32) : Decidable (s.names pid) := by unfold St.names; infer_instance

/-- `proc.c` with the history of `killed` -/
structure Hist (n : ℕ) (C : Type) where
  proc : St n C
  /-- since it was created, the process has been named by `kill` or has faulted -/
  target : Fin n → Bool
  /-- a `kill` has returned 0 and no process in use had its pid -/
  wrong : Bool

/-- what a step adds to the history of slot q -/
def Hist.targeted [DecidableEq C] (s : Hist n C) (a : Act n C) (q : Fin n) : Bool :=
  match a with
  | .take _ np => if np = q then false else s.target q
  | .fault c => if s.proc.cur c = some q then true else s.target q
  | _ => if s.proc.killing a = some (s.proc.slot q).pid then true else s.target q

/-- a step from s to t in which `kill` decides to return 0 although no process in use has the pid -/
def St.lies (s : St n C) (a : Act n C) (t : St n C) : Bool :=
  match s.killing a with
  | some pid => decide (t.result a = some 0) && !decide (s.names pid)
  | none => false

variable [DecidableEq C]

def Hist.step (initproc : Fin n) (s : Hist n C) (a : Act n C) : Option (Hist n C) :=
  (Proc.step initproc s.proc a).map fun proc =>
    { proc := proc, target := s.targeted a, wrong := s.wrong || s.proc.lies a proc }

def Hist.Init (initproc : Fin n) (s : Hist n C) : Prop :=
  Proc.Init initproc s.proc ∧ (∀ q, s.target q = false) ∧ s.wrong = false

def Hist.machine (initproc : Fin n) (C : Type) [DecidableEq C] : Machine (Hist n C) (Act n C) :=
  .ofStep (Hist.Init initproc) (Hist.step initproc)

/-- every process in use that is killed has been a target, and no `kill` was wrong -/
def Hist.OnlyTargets (s : Hist n C) : Prop :=
  (∀ q, (s.proc.slot q).state ≠ .UNUSED → (s.proc.slot q).killed = true → s.target q = true) ∧ s.wrong = false

/-- `allocproc` takes no slot with `killed` set, and the pid that `kill` looks for is in no UNUSED slot unless a process in
use has it too -/
def Hist.Clean (s : Hist n C) (a : Act n C) : Prop :=
  (match a with
    | .take _ np => (s.proc.slot np).killed = false
    | _ => True) ∧
  match s.proc.killing a with
  | some pid => (∃ q, (s.proc.slot q).state = .UNUSED ∧ (s.proc.slot q).pid = pid) → s.proc.names pid
  | none => True

instance (s : Hist n C) (a : Act n C) : Decidable (s.Clean a) := by
  unfold Hist.Clean
  refine @instDecidableAnd _ _ ?_ ?_ <;> split <;> infer_instance

/-! ## One step -/

variable {initproc : Fin n} {s t : Hist n C} {a : Act n C} {c : C} {p q : Fin n}

omit [DecidableEq C] in
theorem killing_iff {s : St n C} {pid : BitVec 32} : s.killing a = some pid ↔ Kills s a pid := by
  constructor
  · intro h
    unfold St.killing at h
    split at h
    · split at h
      · rename_i c _ p hcur
        split at h
        · rename_i x htop
          cases h
          exact ⟨c, p, rfl, hcur, htop⟩
        · cases h
      · cases h
    · cases h
  · rintro ⟨c, p, rfl, hcur, htop⟩
    simp only [St.killing, hcur, htop]

/-- **What `kill` returns.** The loop of `kill` ends with 0 if some slot has the pid, whatever the state of the slot, and
with -1 otherwise. -/
theorem kill_result {s t : St n C} {pid : BitVec 32} (h : Kills s a pid) (hstep : Proc.step initproc s a = some t) :
    t.result a = some (if ∃ q, (s.slot q).pid = pid then 0 else -1) := by
  obtain ⟨c, p, rfl, hcur, htop⟩ := h
  have hthread := thread_of_cur hcur
  have hmove : Proc.step initproc s (.move c) = procMove initproc s c p (.kill1 pid) := by
    simp only [Proc.step, move, hthread, htop, Pc.enter, Pc.leave, hcur]
  rw [hmove, procMove] at hstep
  split at hstep
  · rename_i q hq
    have hpid := List.find?_some hq
    have hfound : ∃ q, (s.slot q).pid = pid := ⟨q, of_decide_eq_true hpid⟩
    have hthread' : (s.modify q Slot.kill).thread c = .proc p := hthread
    rw [← Option.some.inj hstep, if_pos hfound]
    simp only [St.result, Act.cpu, goto_thread, hthread', top_goto_self]
  · rename_i hnone
    have hmissed : ¬∃ q, (s.slot q).pid = pid := by simpa [St.find] using hnone
    rw [← Option.some.inj hstep, if_neg hmissed]
    simp only [St.result, Act.cpu, goto_thread, hthread, top_goto_self]

/-- a step meets the condition exactly if `allocproc` takes a slot with `killed` clear and `kill` does not lie -/
theorem Hist.clean_iff {u : St n C} (hstep : Proc.step initproc s.proc a = some u) :
    s.Clean a ↔ (∀ c np, a = .take c np → (s.proc.slot np).killed = false) ∧ s.proc.lies a u = false := by
  refine and_congr ?_ ?_
  · cases a <;> simp
  unfold St.lies
  split
  · rename_i pid hkilling
    rw [kill_result (killing_iff.1 hkilling) hstep]
    constructor
    · intro hfree
      by_cases hnames : s.proc.names pid
      · simp [hnames]
      · -- no slot in use has the pid, so by the condition no slot has it
        have hnone : ¬∃ q, (s.proc.slot q).pid = pid := by
          rintro ⟨q, hq⟩
          by_cases hused : (s.proc.slot q).state = .UNUSED
          · exact hnames (hfree ⟨q, hused, hq⟩)
          · exact hnames ⟨q, hused, hq⟩
        simp [hnone]
    · rintro hlies ⟨q, -, hq⟩
      have hsome : ∃ q, (s.proc.slot q).pid = pid := ⟨q, hq⟩
      simpa [hsome] using hlies
  · simp

theorem Hist.step_cases (h : s.step initproc a = some t) :
    Proc.step initproc s.proc a = some t.proc ∧ t.target = s.targeted a ∧ t.wrong = (s.wrong || s.proc.lies a t.proc) := by
  obtain ⟨u, hu, rfl⟩ := Option.map_eq_some_iff.1 h
  exact ⟨hu, rfl, rfl⟩

/-- but for `allocproc`, a target stays one -/
theorem Hist.targeted_of_target (ha : ∀ c, a ≠ .take c q) (h : s.target q = true) : s.targeted a q = true := by
  unfold Hist.targeted
  split
  · rename_i c np
    have hne : np ≠ q := fun hq => ha c (by rw [hq])
    simp [hne, h]
  · simp [h]
  · simp [h]

theorem Hist.targeted_of_kills (h : Kills s.proc a (s.proc.slot q).pid) : s.targeted a q = true := by
  have hkilling := killing_iff.2 h
  obtain ⟨c, p, rfl, -, -⟩ := h
  simp [Hist.targeted, hkilling]

/-- a slot in use that `allocproc` has not just taken was in use, and its `killed` was set or its process is a target -/
theorem Step.killed {u : St n C} (h : Threads s.proc) (hstep : Step initproc s.proc a u) (ha : ∀ c, a ≠ .take c q)
    (huse : (u.slot q).state ≠ .UNUSED) (hkilled : (u.slot q).killed = true) :
    (s.proc.slot q).state ≠ .UNUSED ∧ ((s.proc.slot q).killed = true ∨ s.targeted a q = true) := by
  have hused : (s.proc.slot q).state ≠ .UNUSED := by
    rcases hstep.pid h huse with ⟨hs, -⟩ | ⟨htake, -⟩
    · exact hs
    · exact absurd htake (ha _)
  refine ⟨hused, ?_⟩
  generalize hy : u.slot q = y at huse hkilled
  have hedit := hstep.edit q
  rw [hy] at hedit
  cases hedit with
  | kill hkill => exact .inr (Hist.targeted_of_kills hkill)
  | fault hcur ha =>
    right
    rw [ha]
    simp [Hist.targeted, hcur]
  | reap => exact absurd rfl huse
  | wake =>
    left
    unfold Slot.wake at hkilled
    split_ifs at hkilled <;> exact hkilled
  | _ => exact .inl hkilled

/-- `allocproc` marks the slot EMBRYO and leaves `killed` as it was -/
theorem Step.take_slot {u : St n C} (hstep : Step initproc s.proc (.take c q) u) :
    (u.slot q).state = .EMBRYO ∧ (u.slot q).killed = (s.proc.slot q).killed := by
  cases hstep with
  | take hcur htop hunused =>
    rw [goto_slot, embryo_slot, modify_slot_self]
    exact ⟨rfl, rfl⟩

/-- a step keeps to targets exactly if it is clean -/
theorem Hist.OnlyTargets.step (hs : s.OnlyTargets) (h : Threads s.proc) (hstep : s.step initproc a = some t) :
    s.Clean a ↔ t.OnlyTargets := by
  obtain ⟨hu, htarget, hwrong⟩ := Hist.step_cases hstep
  rw [hs.2, Bool.false_or] at hwrong
  rw [Hist.clean_iff hu]
  have hproc := Proc.step_cases hu
  constructor
  · rintro ⟨htake, hlies⟩
    refine ⟨fun q huse hkilled => ?_, ?_⟩
    · rw [htarget]
      by_cases ha : ∃ c, a = .take c q
      · -- a slot that is taken has `killed` clear
        obtain ⟨c, rfl⟩ := ha
        have hclear := htake c q rfl
        rw [hproc.take_slot.2, hclear] at hkilled
        exact absurd hkilled Bool.noConfusion
      · have hother : ∀ c, a ≠ .take c q := fun c hc => ha ⟨c, hc⟩
        obtain ⟨hused, hbefore | hnow⟩ := hproc.killed h hother huse hkilled
        · exact Hist.targeted_of_target hother (hs.1 q hused hbefore)
        · exact hnow
    · rw [hwrong, hlies]
  · intro ht
    refine ⟨?_, hwrong ▸ ht.2⟩
    rintro c np rfl
    obtain ⟨hembryo, hkeep⟩ := hproc.take_slot
    by_contra hkilled
    have htargeted := ht.1 np (by rw [hembryo]; exact ProcState.noConfusion) (by simpa [hkeep] using hkilled)
    simp [htarget, Hist.targeted] at htargeted

/-! ## Runs -/

omit [DecidableEq C] in
theorem Hist.OnlyTargets.init (h : s.Init initproc) : s.OnlyTargets := by
  obtain ⟨⟨hinit, hother, -⟩, -, hwrong⟩ := h
  refine ⟨fun q _ hkilled => ?_, hwrong⟩
  by_cases hq : q = initproc
  · rw [hq, hinit] at hkilled
    exact absurd hkilled Bool.noConfusion
  · rw [hother q hq] at hkilled
    exact absurd hkilled Bool.noConfusion

/-- **Killed only as a target.** In every run in which `allocproc` takes no slot with `killed` set and no `kill` looks for a
pid that only UNUSED slots have, a process in use is killed only if `kill` has named its pid or it has faulted since it was
created, and `kill` has returned 0 only for a process in use. A step that breaks one of the two conditions breaks this. -/
theorem kill_iff (h : ((Hist.machine initproc C).restrict Hist.Clean).Reach s) :
    s.OnlyTargets ∧ ∀ a t, s.step initproc a = some t → (s.Clean a ↔ t.OnlyTargets) := by
  have hinv : Threads s.proc ∧ s.OnlyTargets := by
    refine h.invariant (I := fun s : Hist n C => Threads s.proc ∧ s.OnlyTargets)
      (fun s (h0 : s.Init initproc) => ⟨Threads.init h0.1, Hist.OnlyTargets.init h0⟩) fun s a t hs hnext => ?_
    obtain ⟨hclean, hstep⟩ := hnext
    have hproc := Proc.step_cases (Hist.step_cases hstep).1
    exact ⟨hs.1.step hproc, (hs.2.step hs.1 hstep).1 hclean⟩
  exact ⟨hinv.2, fun a t hstep => hinv.2.step hinv.1 hstep⟩

/-! ## A run that meets the condition, and one that does not -/

def bootedHist {n : ℕ} (C : Type) (initproc : Fin n) : Hist n C := ⟨booted C initproc, fun _ => false, false⟩

theorem bootedHist_init {n : ℕ} {C : Type} {initproc : Fin n} : (bootedHist C initproc).Init initproc :=
  ⟨booted_init, fun _ => rfl, rfl⟩

/-- init calls `kill(pid)` on CPU c and forks; slot np is free -/
def killThenFork {n : ℕ} {C : Type} (c : C) (pid : BitVec 32) (np : Fin n) : List (Act n C) :=
  [.move c, .move c, .move c, .call c (.kill pid), .move c, .move c, .move c, .call c .fork, .move c, .take c np, .move c,
    .kalloc c true, .kalloc c true, .move c, .move c]

/-- init kills itself -/
theorem selfKill_run : ((killThenFork 0 1 1).foldlM (fun (s : Hist 2 (Fin 2)) a => if s.Clean a then s.step 0 a else none)
    (bootedHist (Fin 2) 0)).map (fun s => ((s.proc.slot 0).killed, (s.proc.slot 1).state)) = some (true, .RUNNABLE) := by
  decide +kernel

theorem kill_iff_self : ∃ s : Hist 2 (Fin 2), ((Hist.machine 0 (Fin 2)).restrict Hist.Clean).Reach s ∧
    (s.proc.slot 0).killed = true ∧ (s.proc.slot 1).state = .RUNNABLE ∧ s.OnlyTargets := by
  obtain ⟨s, hrun, heq⟩ := Option.map_eq_some_iff.1 selfKill_run
  have hreach : ((Hist.machine 0 (Fin 2)).restrict Hist.Clean).Reach s :=
    Machine.Reach.foldlM_restrict _ (.init bootedHist_init) hrun
  exact ⟨s, hreach, congrArg Prod.fst heq, congrArg Prod.snd heq, (kill_iff hreach).1⟩

theorem freeKill_run : ((killThenFork 0 0 1).foldlM (Hist.step 0) (bootedHist (n := 2) (Fin 2) 0)).map (fun s =>
    ((s.wrong, (s.proc.slot 1).state), ((s.proc.slot 1).killed, s.target 1))) =
    some ((true, .RUNNABLE), (true, false)) := by decide +kernel

/-- **A child born killed.** With one process, `kill(0)` finds a free slot and returns 0. The next `fork` takes the
slot: the child is killed although nobody named it. -/
theorem kill_free_slot : ∃ s : Hist 2 (Fin 2), (Hist.machine 0 (Fin 2)).Reach s ∧ s.wrong = true ∧
    (s.proc.slot 1).state = .RUNNABLE ∧ (s.proc.slot 1).killed = true ∧ s.target 1 = false := by
  obtain ⟨s, hrun, heq⟩ := Option.map_eq_some_iff.1 freeKill_run
  exact ⟨s, Machine.Reach.foldlM _ (.init bootedHist_init) hrun, congrArg (fun x => x.1.1) heq,
    congrArg (fun x => x.1.2) heq, congrArg (fun x => x.2.1) heq, congrArg (fun x => x.2.2) heq⟩

end Xv6.Proc
