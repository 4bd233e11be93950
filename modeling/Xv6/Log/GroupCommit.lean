/-
Concurrent operations on the log (`log.c`): `begin_op`, `log_write` and `end_op` run by any number of processes.

One step is one section under `log.lock`, or one plain access to the log outside it: the two checks at the top of
`log_write` run before the lock is taken, and `commit()` runs without it and stores `log.lh.n = 0` at its end. `sleep`
on `&log` gives up the lock and sleeps in one step, `wakeup(&log)` makes every sleeper runnable, and `kill` may do so
at any time. A run is any sequence of steps of any processes.

History variables: `written p` is the set of blocks `log_write`n by p's current operation, `ended` those of the
operations that ended since the last commit.

Results:
- `step_inv`, `reach_inv`: the invariant `Inv` along every run;
- `group_commit`: `log.outstanding` counts the processes inside an operation, a commit is never concurrent with one and
  writes exactly the blocks of the ended operations, the "log.committing" panic is unreachable, and nobody sleeps in
  `begin_op` on an idle log.
-/
import Xv6.Core.Machine
import Xv6.Log.Commit

namespace Xv6.GroupCommit

open Xv6.Log Function

/-! ## Model -/

/-- where a process is -/
inductive Pc where
  /-- not in an operation -/
  | idle
  /-- in `begin_op`, runnable, about to take the lock and test -/
  | entering
  /-- in `begin_op`, SLEEPING on &log -/
  | asleep
  /-- between `begin_op`'s return and `end_op`'s decrement -/
  | inOp
  /-- in `log_write(b)`, past the unlocked checks -/
  | logging (b : BlockNo)
  /-- in `end_op` with do_commit set, `commit()` not yet past `log.lh.n = 0` -/
  | committing
  /-- in `end_op`, about to clear `log.committing` -/
  | clearing
deriving DecidableEq, Repr

/-- between `begin_op`'s return and `end_op`'s decrement -/
def Pc.inside : Pc → Bool
  | .inOp => true
  | .logging _ => true
  | _ => false

/-- in the commit of `end_op` -/
def Pc.inCommit : Pc → Bool
  | .committing => true
  | .clearing => true
  | _ => false

structure St (P : Type) where
  size : ℤ
  outstanding : ℤ
  committing : Bool
  lh : LogHeader
  pc : P → Pc
  /-- blocks log_written by the current operation of each process -/
  written : P → Finset BlockNo
  /-- blocks log_written by the operations that ended since the last commit -/
  ended : Finset BlockNo

inductive Act (P : Type) where
  | call (p : P)
  | beginOp (p : P)
  | kill (p : P)
  | logCheck (p : P) (b : BlockNo)
  | logAdd (p : P)
  | endOp (p : P)
  | erase (p : P)
  | finish (p : P)
deriving DecidableEq, Repr

/-- the search and the store of `log_write`: `i` is the first index that holds b, or n -/
def addBlock (lh : LogHeader) (b : BlockNo) : Except Fault LogHeader :=
  let i := lh.block.idxOf b
  if i < lh.n then .ok ⟨lh.block.set i b, by rw [List.length_set]; exact lh.fits⟩
  else if h : lh.n < LOGSIZE then .ok ⟨lh.block ++ [b], by rw [List.length_append]; exact h⟩
  else .error .overrun

section Model

variable {P : Type} [DecidableEq P]

/-- after `initlog`: nothing outstanding, nothing logged -/
def init (size : ℤ) : St P := ⟨size, 0, false, .empty, fun _ => .idle, fun _ => ∅, ∅⟩

/-- `wakeup(&log)` -/
def wakeup (pc : P → Pc) (q : P) : Pc := if pc q = .asleep then .entering else pc q

/-- one turn of the loop in `begin_op` -/
def beginOp (s : St P) (p : P) : St P :=
  if s.committing then { s with pc := update s.pc p .asleep }
  else if (s.lh.n : ℤ) + (s.outstanding + 1) * MAXOPBLOCKS > LOGSIZE then
    { s with pc := update s.pc p .asleep }
  else { s with outstanding := s.outstanding + 1, pc := update s.pc p .inOp }

/-- the checks at the top of `log_write`, made without the lock -/
def logCheck (s : St P) (p : P) (b : BlockNo) : Except Fault (St P) :=
  if (s.lh.n : ℤ) ≥ LOGSIZE ∨ (s.lh.n : ℤ) ≥ s.size - 1 then .error (.panic .tooBigTransaction)
  else if s.outstanding < 1 then .error (.panic .logWriteOutsideTrans)
  else .ok { s with pc := update s.pc p (.logging b) }

/-- the locked section of `log_write` -/
def logAdd (s : St P) (p : P) (b : BlockNo) : Except Fault (St P) := do
  let lh ← addBlock s.lh b
  .ok { s with lh := lh, pc := update s.pc p .inOp, written := update s.written p (insert b (s.written p)) }

/-- the first locked section of `end_op` -/
def endOp (s : St P) (p : P) : Except Fault (St P) :=
  let s' := { s with
    outstanding := s.outstanding - 1
    ended := s.ended ∪ s.written p
    written := update s.written p ∅ }
  if s.committing then .error (.panic .logCommitting)
  else if s.outstanding - 1 = 0 then
    .ok { s' with committing := true, pc := update s.pc p .committing }
  else .ok { s' with pc := wakeup (update s.pc p .idle) }

/-- `log.lh.n = 0` at the end of `commit()` -/
def erase (s : St P) (p : P) : St P :=
  { s with lh := .empty, pc := update s.pc p .clearing, ended := ∅ }

/-- the second locked section of `end_op` -/
def finish (s : St P) (p : P) : St P :=
  { s with committing := false, pc := wakeup (update s.pc p .idle) }

/-- one step; none if the process is not at that point of its program -/
def step (s : St P) : Act P → Option (Except Fault (St P))
  | .call p => if s.pc p = .idle then some (.ok { s with pc := update s.pc p .entering }) else none
  | .beginOp p => if s.pc p = .entering then some (.ok (beginOp s p)) else none
  | .kill p => if s.pc p = .asleep then some (.ok { s with pc := update s.pc p .entering }) else none
  | .logCheck p b => if s.pc p = .inOp then some (logCheck s p b) else none
  | .logAdd p =>
    match s.pc p with
    | .logging b => some (logAdd s p b)
    | _ => none
  | .endOp p => if s.pc p = .inOp then some (endOp s p) else none
  | .erase p => if s.pc p = .committing then some (.ok (erase s p)) else none
  | .finish p => if s.pc p = .clearing then some (.ok (finish s p)) else none

/-- a step that does not fault -/
def move (s : St P) (a : Act P) : Option (St P) := (step s a).bind Except.toOption

theorem step_of_move {s s' : St P} {a : Act P} (h : move s a = some s') : step s a = some (.ok s') := by
  obtain ⟨r, hr, h⟩ := Option.bind_eq_some_iff.1 h
  cases r with
  | error e => cases h
  | ok s'' =>
    cases h
    exact hr

def machine (P : Type) [DecidableEq P] (size : ℤ) : Machine (St P) (Act P) := .ofStep (· = init size) move

/-- the states of the runs whose every step meets `allow` -/
abbrev Reach (size : ℤ) (allow : St P → Act P → Prop) : St P → Prop := ((machine P size).restrict allow).Reach

/-- run a schedule whose every step meets `allow`; none if some step is not possible, not allowed or faults -/
abbrev run (allow : St P → Act P → Prop) [∀ s a, Decidable (allow s a)] (s : St P) (as : List (Act P)) : Option (St P) :=
  as.foldlM (fun s a => if allow s a then move s a else none) s

theorem run_reach {size : ℤ} {allow : St P → Act P → Prop} [∀ s a, Decidable (allow s a)] {s s' : St P}
    (as : List (Act P)) (hs : Reach size allow s) (h : run allow s as = some s') : Reach size allow s' :=
  Machine.Reach.foldlM_restrict as hs h

/-- every run -/
abbrev Reachable (size : ℤ) (s : St P) : Prop := Reach size (fun _ _ => True) s

end Model

/-! ## Counting the processes inside an operation -/

section Count

variable {P : Type} [DecidableEq P] [Fintype P]

/-- the processes between `begin_op`'s return and `end_op`'s decrement -/
def insideOps (pc : P → Pc) : Finset P := Finset.univ.filter fun p => (pc p).inside = true

omit [DecidableEq P] in
@[simp] theorem mem_insideOps {pc : P → Pc} {p : P} : p ∈ insideOps pc ↔ (pc p).inside = true := by
  simp [insideOps]

theorem insideOps_update_in (pc : P → Pc) (p : P) (x : Pc) (hx : x.inside = true) :
    insideOps (update pc p x) = insert p (insideOps pc) := by
  ext q
  by_cases hq : q = p
  · subst hq; simp [hx]
  · simp [hq]

theorem insideOps_update_out (pc : P → Pc) (p : P) (x : Pc) (hx : x.inside = false) :
    insideOps (update pc p x) = (insideOps pc).erase p := by
  ext q
  by_cases hq : q = p
  · subst hq; simp [hx]
  · simp [hq]

/-- a step that keeps p inside or keeps it outside does not change the count -/
theorem insideOps_update_same (pc : P → Pc) (p : P) (x : Pc) (hx : x.inside = (pc p).inside) :
    insideOps (update pc p x) = insideOps pc := by
  ext q
  by_cases hq : q = p
  · subst hq; simp [hx]
  · simp [hq]

omit [DecidableEq P] [Fintype P] in
theorem wakeup_inside (pc : P → Pc) (q : P) : (wakeup pc q).inside = (pc q).inside := by
  unfold wakeup
  split_ifs with h
  · rw [h]; rfl
  · rfl

omit [DecidableEq P] [Fintype P] in
theorem wakeup_inCommit (pc : P → Pc) (q : P) : (wakeup pc q).inCommit = (pc q).inCommit := by
  unfold wakeup
  split_ifs with h
  · rw [h]; rfl
  · rfl

omit [DecidableEq P] in
theorem insideOps_wakeup (pc : P → Pc) : insideOps (wakeup pc) = insideOps pc := by
  ext q
  simp [wakeup_inside]

end Count

/-! ## The log header -/

theorem addBlock_block {lh lh' : LogHeader} {b : BlockNo} (h : addBlock lh b = .ok lh') :
    (b ∈ lh.block ∧ lh'.block = lh.block) ∨ (b ∉ lh.block ∧ lh'.block = lh.block ++ [b]) := by
  simp only [addBlock] at h
  split_ifs at h with hi hn
  · have hb : b ∈ lh.block := List.idxOf_lt_length_iff.1 hi
    have hget : lh.block.get ⟨lh.block.idxOf b, hi⟩ = b := List.getElem_idxOf hi
    cases h
    refine Or.inl ⟨hb, ?_⟩
    calc lh.block.set (lh.block.idxOf b) b
        = lh.block.set (lh.block.idxOf b) (lh.block.get ⟨lh.block.idxOf b, hi⟩) := by rw [hget]
      _ = lh.block := List.set_getElem_self hi
  · cases h
    exact Or.inr ⟨fun hb => hi (List.idxOf_lt_length_iff.2 hb), rfl⟩

theorem addBlock_error {lh : LogHeader} {b : BlockNo} {e : Fault} (h : addBlock lh b = .error e) :
    e = .overrun ∧ LOGSIZE ≤ lh.n ∧ b ∉ lh.block := by
  simp only [addBlock] at h
  split_ifs at h with hi hn
  cases h
  exact ⟨rfl, not_lt.1 hn, fun hb => hi (List.idxOf_lt_length_iff.2 hb)⟩

theorem logAdd_error {P : Type} [DecidableEq P] {s : St P} {p : P} {b : BlockNo} {e : Fault}
    (h : logAdd s p b = .error e) : e = .overrun ∧ LOGSIZE ≤ s.lh.n ∧ b ∉ s.lh.block := by
  unfold logAdd at h
  cases hadd : addBlock s.lh b with
  | ok lh => rw [hadd] at h; simp [bind, Except.bind] at h
  | error e' =>
    rw [hadd] at h
    simp only [bind, Except.bind, Except.error.injEq] at h
    rw [← h]
    exact addBlock_error hadd

/-! ## What a step can do -/

section Steps

variable {P : Type} [DecidableEq P]

/-- a step that faults is a failed check of `log_write`, a full header array, or `end_op` during a commit -/
theorem step_error {s : St P} {a : Act P} {e : Fault} (h : step s a = some (.error e)) :
    (∃ p b, a = .logCheck p b ∧ s.pc p = .inOp ∧ logCheck s p b = .error e) ∨
    (∃ p b, a = .logAdd p ∧ s.pc p = .logging b ∧ e = .overrun ∧ LOGSIZE ≤ s.lh.n ∧ b ∉ s.lh.block) ∨
    ∃ p, a = .endOp p ∧ s.pc p = .inOp ∧ e = .panic .logCommitting ∧ s.committing = true := by
  cases a with
  | logCheck p b =>
    simp only [step] at h
    split_ifs at h with hp
    exact Or.inl ⟨p, b, rfl, hp, Option.some.inj h⟩
  | logAdd p =>
    simp only [step] at h
    split at h
    · rename_i b hp
      exact Or.inr (Or.inl ⟨p, b, rfl, hp, logAdd_error (Option.some.inj h)⟩)
    · cases h
  | endOp p =>
    simp only [step] at h
    split_ifs at h with hp
    unfold endOp at h
    split_ifs at h with hc h0
    · cases h
      exact Or.inr (Or.inr ⟨p, rfl, hp, rfl, hc⟩)
    · simp at h
    · simp at h
  | call | beginOp | kill | erase | finish => simp only [step] at h; split_ifs at h; simp at h

theorem logCheck_tooBig (s : St P) (p : P) (b : BlockNo) :
    logCheck s p b = .error (.panic .tooBigTransaction) ↔ (s.lh.n : ℤ) ≥ LOGSIZE ∨ (s.lh.n : ℤ) ≥ s.size - 1 := by
  unfold logCheck
  split_ifs with hbig hout
  · exact ⟨fun _ => hbig, fun _ => rfl⟩
  · exact ⟨fun h => by simp at h, fun h => absurd h hbig⟩
  · exact ⟨fun h => by simp at h, fun h => absurd h hbig⟩

/-- a step that succeeds moves one process inside its phase, or is one of the five sections that change the log -/
theorem step_ok {s s' : St P} {a : Act P} (h : step s a = some (.ok s')) :
    (∃ p x, s' = { s with pc := update s.pc p x } ∧ x.inside = (s.pc p).inside ∧
      x.inCommit = (s.pc p).inCommit ∧ x ≠ .clearing ∧ x ≠ .asleep ∧ ∀ b, x = .logging b → a = .logCheck p b) ∨
    (∃ p, s.pc p = .entering ∧ s' = beginOp s p) ∨
    (∃ p b, s.pc p = .logging b ∧ logAdd s p b = .ok s') ∨
    (∃ p, s.pc p = .inOp ∧ endOp s p = .ok s') ∨
    (∃ p, s.pc p = .committing ∧ s' = erase s p) ∨
    ∃ p, s.pc p = .clearing ∧ s' = finish s p := by
  cases a with
  | call p | kill p =>
    simp only [step] at h
    split_ifs at h with hp
    cases h
    exact Or.inl ⟨p, .entering, rfl, by rw [hp]; rfl, by rw [hp]; rfl, by simp, by simp, by simp⟩
  | beginOp p =>
    simp only [step] at h
    split_ifs at h with hp
    cases h
    exact Or.inr (Or.inl ⟨p, hp, rfl⟩)
  | logCheck p b =>
    simp only [step] at h
    split_ifs at h with hp
    have h' := Option.some.inj h
    unfold logCheck at h'
    split_ifs at h'
    cases h'
    refine Or.inl ⟨p, .logging b, rfl, by rw [hp]; rfl, by rw [hp]; rfl, by simp, by simp, fun c hc => ?_⟩
    cases hc
    rfl
  | logAdd p =>
    simp only [step] at h
    split at h
    · rename_i b hp
      exact Or.inr (Or.inr (Or.inl ⟨p, b, hp, Option.some.inj h⟩))
    · cases h
  | endOp p =>
    simp only [step] at h
    split_ifs at h with hp
    exact Or.inr (Or.inr (Or.inr (Or.inl ⟨p, hp, Option.some.inj h⟩)))
  | erase p =>
    simp only [step] at h
    split_ifs at h with hp
    cases h
    exact Or.inr (Or.inr (Or.inr (Or.inr (Or.inl ⟨p, hp, rfl⟩))))
  | finish p =>
    simp only [step] at h
    split_ifs at h with hp
    cases h
    exact Or.inr (Or.inr (Or.inr (Or.inr (Or.inr ⟨p, hp, rfl⟩))))

theorem logAdd_ok {s s' : St P} {p : P} {b : BlockNo} (h : logAdd s p b = .ok s') :
    ∃ lh, addBlock s.lh b = .ok lh ∧ s' = { s with
      lh := lh, pc := update s.pc p .inOp
      written := update s.written p (insert b (s.written p)) } := by
  unfold logAdd at h
  cases hadd : addBlock s.lh b with
  | error e => rw [hadd] at h; simp [bind, Except.bind] at h
  | ok lh =>
    rw [hadd] at h
    simp only [bind, Except.bind, Except.ok.injEq] at h
    exact ⟨lh, rfl, h.symm⟩

theorem beginOp_size (s : St P) (p : P) : (beginOp s p).size = s.size := by
  unfold beginOp
  split_ifs <;> rfl

theorem endOp_size {s s' : St P} {p : P} (h : endOp s p = .ok s') : s'.size = s.size := by
  unfold endOp at h
  split_ifs at h
  · cases h; rfl
  · cases h; rfl

/-- no step changes `log.size` -/
theorem reach_size {size : ℤ} {allow : St P → Act P → Prop} {s : St P} (hr : Reach size allow s) : s.size = size := by
  refine Machine.Reach.invariant (I := fun s => s.size = size) (fun _ h0 => by rw [h0]; rfl) (fun s a t ih hs => ?_) hr
  rcases step_ok (step_of_move hs.2) with ⟨p, x, rfl, -⟩ | ⟨p, -, rfl⟩ | ⟨p, b, -, h⟩ | ⟨p, -, h⟩ | ⟨p, -, rfl⟩ | ⟨p, -, rfl⟩
  · exact ih
  · rw [beginOp_size]; exact ih
  · obtain ⟨lh, -, rfl⟩ := logAdd_ok h
    exact ih
  · rw [endOp_size h]; exact ih
  · exact ih
  · exact ih

end Steps

/-! ## The invariant -/

section Invariant

variable {P : Type} [DecidableEq P] [Fintype P]

structure Inv (s : St P) : Prop where
  count : s.outstanding = (insideOps s.pc).card
  commits : s.committing = true ↔ ∃ p, (s.pc p).inCommit = true
  one : ∀ p q, (s.pc p).inCommit = true → (s.pc q).inCommit = true → p = q
  quiet : s.committing = true → s.outstanding = 0
  nodup : s.lh.block.Nodup
  blocks : ∀ b, b ∈ s.lh.block ↔ b ∈ s.ended ∨ ∃ p, b ∈ s.written p
  outside : ∀ p, (s.pc p).inside = false → s.written p = ∅
  asleep : ∀ p, s.pc p = .asleep → s.committing = true ∨ 0 < s.outstanding
  /-- an idle log is empty: the operation that brought `outstanding` to 0 has committed -/
  idle : s.committing = false → s.outstanding = 0 → s.lh.block = []
  cleared : ∀ p, s.pc p = .clearing → s.lh.block = []

omit [DecidableEq P] in
theorem inv_init (size : ℤ) : Inv (init size : St P) := by
  constructor <;> simp [init, insideOps, Pc.inside, Pc.inCommit, LogHeader.empty]

omit [DecidableEq P] in
theorem Inv.none_inside {s : St P} (h : Inv s) (h0 : s.outstanding = 0) (p : P) : (s.pc p).inside = false := by
  have hc := h.count
  rw [h0] at hc
  have he : insideOps s.pc = ∅ := Finset.card_eq_zero.1 (by exact_mod_cast hc.symm)
  by_contra hp
  have hm : p ∈ insideOps s.pc := mem_insideOps.2 (by simpa using hp)
  rw [he] at hm
  simp at hm

/-- a process that moves without entering or leaving an operation or a commit -/
theorem Inv.move {s : St P} (h : Inv s) (p : P) (x : Pc) (hin : x.inside = (s.pc p).inside)
    (hcm : x.inCommit = (s.pc p).inCommit) (hcl : x ≠ .clearing)
    (hsl : x = .asleep → s.committing = true ∨ 0 < s.outstanding) :
    Inv { s with pc := update s.pc p x } := by
  have hc : ∀ q, (update s.pc p x q).inCommit = (s.pc q).inCommit := by
    intro q
    by_cases hq : q = p
    · subst hq; simp [hcm]
    · simp [hq]
  refine { h with count := ?_, commits := ?_, one := ?_, outside := ?_, asleep := ?_, cleared := ?_ }
  · simp only [insideOps_update_same s.pc p x hin]; exact h.count
  · simp only [hc]; exact h.commits
  · intro q r hq hr; simp only [hc] at hq hr; exact h.one q r hq hr
  · intro q hq
    by_cases hqp : q = p
    · subst hqp; simp only [update_self, hin] at hq; exact h.outside q hq
    · simp only [update_of_ne hqp] at hq; exact h.outside q hq
  · intro q hq
    by_cases hqp : q = p
    · subst hqp; simp only [update_self] at hq; exact hsl hq
    · simp only [update_of_ne hqp] at hq; exact h.asleep q hq
  · intro q hq
    by_cases hqp : q = p
    · subst hqp; simp only [update_self] at hq; exact absurd hq hcl
    · simp only [update_of_ne hqp] at hq; exact h.cleared q hq

theorem beginOp_inv (s : St P) (p : P) (h : Inv s) (hp : s.pc p = .entering) : Inv (beginOp s p) := by
  unfold beginOp
  split_ifs with hc hfull
  · exact h.move p .asleep (by rw [hp]; rfl) (by rw [hp]; rfl) (by simp) (fun _ => Or.inl hc)
  · refine h.move p .asleep (by rw [hp]; rfl) (by rw [hp]; rfl) (by simp) (fun _ => Or.inr ?_)
    -- with nothing outstanding the log would be empty and would have room
    have hcf : s.committing = false := by simpa using hc
    have hcard : (0 : ℤ) ≤ s.outstanding := by rw [h.count]; exact_mod_cast Nat.zero_le _
    rcases hcard.lt_or_eq with hpos | hzero
    · exact hpos
    · have hnil := h.idle hcf hzero.symm
      simp [LogHeader.n, hnil, ← hzero, MAXOPBLOCKS, LOGSIZE] at hfull
  · have hcf : s.committing = false := by simpa using hc
    have hnot : p ∉ insideOps s.pc := by simp [hp, Pc.inside]
    have hnc : ∀ q, (update s.pc p Pc.inOp q).inCommit = (s.pc q).inCommit := by
      intro q
      by_cases hq : q = p
      · subst hq; simp [hp, Pc.inCommit]
      · simp [hq]
    refine { h with count := ?_, commits := ?_, one := ?_, quiet := ?_, outside := ?_, asleep := ?_, idle := ?_,
                    cleared := ?_ }
    · simp only [insideOps_update_in s.pc p .inOp rfl]
      rw [Finset.card_insert_of_notMem hnot, h.count]
      push_cast
      rfl
    · simp only [hnc]; exact h.commits
    · intro q r hq hr; simp only [hnc] at hq hr; exact h.one q r hq hr
    · intro ht; simp only [hcf] at ht; exact absurd ht (by decide)
    · intro q hq
      by_cases hqp : q = p
      · subst hqp; exact h.outside q (by rw [hp]; rfl)
      · simp only [update_of_ne hqp] at hq; exact h.outside q hq
    · intro q _
      right
      have := h.count
      simp only
      omega
    · intro _ h0
      have := h.count
      simp only at h0
      omega
    · intro q hq
      by_cases hqp : q = p
      · subst hqp; simp at hq
      · simp only [update_of_ne hqp] at hq; exact h.cleared q hq

theorem logAdd_inv (s s' : St P) (p : P) (b : BlockNo) (h : Inv s) (hp : s.pc p = .logging b)
    (hs : logAdd s p b = .ok s') : Inv s' := by
  obtain ⟨lh, hadd, rfl⟩ := logAdd_ok hs
  have hm := h.move p .inOp (by rw [hp]; rfl) (by rw [hp]; rfl) (by simp) (by simp)
  have hmem : ∀ x, x ∈ lh.block ↔ x = b ∨ x ∈ s.lh.block := by
    intro x
    rcases addBlock_block hadd with ⟨hb, he⟩ | ⟨-, he⟩
    · rw [he]
      constructor
      · exact Or.inr
      · rintro (rfl | hx)
        · exact hb
        · exact hx
    · rw [he]; simp [or_comm]
  have hin : (0 : ℤ) < s.outstanding := by
    rw [h.count]
    have : p ∈ insideOps s.pc := by simp [hp, Pc.inside]
    exact_mod_cast Finset.card_pos.2 ⟨p, this⟩
  refine { hm with nodup := ?_, blocks := ?_, outside := ?_, idle := ?_, cleared := ?_ }
  · rcases addBlock_block hadd with ⟨-, he⟩ | ⟨hb, he⟩
    · rw [he]; exact h.nodup
    · rw [he]; exact List.Nodup.append h.nodup (List.nodup_singleton b) (by simpa using hb)
  · intro x
    simp only [hmem, h.blocks x]
    constructor
    · rintro (rfl | he | ⟨q, hq⟩)
      · exact Or.inr ⟨p, by simp⟩
      · exact Or.inl he
      · refine Or.inr ⟨q, ?_⟩
        by_cases hqp : q = p
        · subst hqp; simp [hq]
        · simpa [hqp] using hq
    · rintro (he | ⟨q, hq⟩)
      · exact Or.inr (Or.inl he)
      · by_cases hqp : q = p
        · subst hqp
          simp only [update_self, Finset.mem_insert] at hq
          rcases hq with rfl | hq
          · exact Or.inl rfl
          · exact Or.inr (Or.inr ⟨q, hq⟩)
        · simp only [update_of_ne hqp] at hq
          exact Or.inr (Or.inr ⟨q, hq⟩)
  · intro q hq
    by_cases hqp : q = p
    · subst hqp; simp [Pc.inside] at hq
    · simp only [update_of_ne hqp] at hq ⊢; exact h.outside q hq
  · intro _ h0
    simp only at h0
    omega
  · intro q hq
    -- a commit in progress means nothing outstanding, but p is inside an operation
    have hqp : q ≠ p := by rintro rfl; simp at hq
    simp only [update_of_ne hqp] at hq
    have hcm := h.commits.2 ⟨q, by rw [hq]; rfl⟩
    have := h.quiet hcm
    omega

/-- the operation of p ends: its blocks join the ended ones -/
theorem blocks_ended {s : St P} (h : Inv s) (p : P) (b : BlockNo) :
    b ∈ s.lh.block ↔ b ∈ s.ended ∪ s.written p ∨ ∃ q, b ∈ update s.written p ∅ q := by
  rw [h.blocks b, Finset.mem_union]
  constructor
  · rintro (he | ⟨q, hq⟩)
    · exact Or.inl (Or.inl he)
    · by_cases hqp : q = p
      · subst hqp; exact Or.inl (Or.inr hq)
      · exact Or.inr ⟨q, by simpa [hqp] using hq⟩
  · rintro ((he | he) | ⟨q, hq⟩)
    · exact Or.inl he
    · exact Or.inr ⟨p, he⟩
    · by_cases hqp : q = p
      · subst hqp; simp at hq
      · exact Or.inr ⟨q, by simpa [hqp] using hq⟩

/-- the end of p's operation when it is not the last one, or when it starts the commit -/
theorem endOp_inv (s s' : St P) (p : P) (h : Inv s) (hp : s.pc p = .inOp) (hs : endOp s p = .ok s') : Inv s' := by
  have hin : p ∈ insideOps s.pc := by simp [hp, Pc.inside]
  have hcard : ((insideOps s.pc).erase p).card = (insideOps s.pc).card - 1 := Finset.card_erase_of_mem hin
  have hpos : 0 < (insideOps s.pc).card := Finset.card_pos.2 ⟨p, hin⟩
  have hcount := h.count
  have hwritten : ∀ x : Pc, ∀ q, (update s.pc p x q).inside = false →
      update s.written p ∅ q = ∅ := by
    intro x q hq
    by_cases hqp : q = p
    · subst hqp; simp
    · simp only [update_of_ne hqp] at hq ⊢; exact h.outside q hq
  unfold endOp at hs
  split_ifs at hs with hc h0
  · have hcf : s.committing = false := by simpa using hc
    have hnone : ∀ q, (s.pc q).inCommit = false := by
      intro q
      by_contra hq
      exact absurd (h.commits.2 ⟨q, by simpa using hq⟩) hc
    cases hs
    refine { h with count := ?_, commits := ?_, one := ?_, quiet := ?_, blocks := ?_, outside := ?_, asleep := ?_,
                    idle := ?_, cleared := ?_ }
    · simp only [insideOps_update_out s.pc p .committing rfl]; omega
    · exact ⟨fun _ => ⟨p, by simp [Pc.inCommit]⟩, fun _ => rfl⟩
    · intro q r hq hr
      have hq' : q = p := by
        by_contra hqp
        simp only [update_of_ne hqp] at hq
        rw [hnone q] at hq
        exact absurd hq (by decide)
      have hr' : r = p := by
        by_contra hrp
        simp only [update_of_ne hrp] at hr
        rw [hnone r] at hr
        exact absurd hr (by decide)
      rw [hq', hr']
    · exact fun _ => h0
    · exact blocks_ended h p
    · exact hwritten .committing
    · exact fun _ _ => Or.inl rfl
    · intro hf
      simp at hf
    · intro q hq
      by_cases hqp : q = p
      · subst hqp; simp at hq
      · simp only [update_of_ne hqp] at hq
        have := hnone q
        rw [hq] at this
        exact absurd this (by decide)
  · have hcf : s.committing = false := by simpa using hc
    have hm : ∀ q, (wakeup (update s.pc p .idle) q).inCommit = false := by
      intro q
      rw [wakeup_inCommit]
      by_cases hqp : q = p
      · subst hqp; simp [Pc.inCommit]
      · by_contra hq
        exact absurd (h.commits.2 ⟨q, by simpa [hqp] using hq⟩) hc
    cases hs
    refine { h with count := ?_, commits := ?_, one := ?_, quiet := ?_, blocks := ?_, outside := ?_, asleep := ?_,
                    idle := ?_, cleared := ?_ }
    · simp only [insideOps_wakeup, insideOps_update_out s.pc p .idle rfl]; omega
    · simp only [hcf, hm, Bool.false_eq_true, exists_false]
    · intro q r hq
      simp only [hm] at hq
      exact absurd hq (by decide)
    · intro ht
      simp only [hcf] at ht
      exact absurd ht (by decide)
    · exact blocks_ended h p
    · intro q hq
      simp only [wakeup_inside] at hq
      exact hwritten .idle q hq
    · intro q _
      right
      simp only
      omega
    · intro _ hz
      exact absurd hz h0
    · intro q hq
      have := hm q
      simp only at hq
      rw [hq] at this
      exact absurd this (by decide)

theorem erase_inv (s : St P) (p : P) (h : Inv s) (hp : s.pc p = .committing) : Inv (erase s p) := by
  have hcm : s.committing = true := h.commits.2 ⟨p, by rw [hp]; rfl⟩
  have hout : ∀ q, s.written q = ∅ := fun q => h.outside q (h.none_inside (h.quiet hcm) q)
  have hc : ∀ q, (update s.pc p Pc.clearing q).inCommit = (s.pc q).inCommit := by
    intro q
    by_cases hq : q = p
    · subst hq; simp [hp, Pc.inCommit]
    · simp [hq]
  refine { h with count := ?_, commits := ?_, one := ?_, nodup := ?_, blocks := ?_, outside := ?_, asleep := ?_,
                  idle := ?_, cleared := ?_ }
  · have he : insideOps (update s.pc p Pc.clearing) = insideOps s.pc :=
      insideOps_update_same s.pc p _ (by rw [hp]; rfl)
    simp only [erase, he]
    exact h.count
  · simp only [erase, hc]; exact h.commits
  · intro q r hq hr; simp only [erase, hc] at hq hr; exact h.one q r hq hr
  · exact List.nodup_nil
  · intro b
    simp [erase, LogHeader.empty, hout]
  · exact fun q _ => hout q
  · exact fun _ _ => Or.inl hcm
  · exact fun _ _ => rfl
  · exact fun _ _ => rfl

theorem finish_inv (s : St P) (p : P) (h : Inv s) (hp : s.pc p = .clearing) : Inv (finish s p) := by
  have hcm : s.committing = true := h.commits.2 ⟨p, by rw [hp]; rfl⟩
  have hnil := h.cleared p hp
  -- p was the only committer, so nobody commits any more, and everybody has been woken
  have hnone : ∀ q, (wakeup (update s.pc p .idle) q).inCommit = false ∧
      wakeup (update s.pc p .idle) q ≠ .asleep := by
    intro q
    unfold wakeup
    split_ifs with hq
    · exact ⟨rfl, by simp⟩
    · refine ⟨?_, hq⟩
      by_cases hqp : q = p
      · subst hqp; simp [Pc.inCommit]
      · by_contra hcq
        exact hqp (h.one q p (by simpa [hqp] using hcq) (by rw [hp]; rfl))
  refine { h with count := ?_, commits := ?_, one := ?_, quiet := ?_, outside := ?_, asleep := ?_, idle := ?_,
                  cleared := ?_ }
  · have he : insideOps (update s.pc p Pc.idle) = insideOps s.pc :=
      insideOps_update_same s.pc p _ (by rw [hp]; rfl)
    simp only [finish, insideOps_wakeup, he]
    exact h.count
  · simp [finish, hnone]
  · intro q r hq
    simp only [finish, hnone] at hq
    exact absurd hq (by decide)
  · intro ht
    simp [finish] at ht
  · intro q _
    exact h.outside q (h.none_inside (h.quiet hcm) q)
  · intro q hq
    exact absurd hq (hnone q).2
  · exact fun _ _ => hnil
  · exact fun _ _ => hnil

/-- **Every step keeps the invariant.** -/
theorem step_inv (s s' : St P) (a : Act P) (h : Inv s) (hs : step s a = some (.ok s')) : Inv s' := by
  rcases step_ok hs with ⟨p, x, rfl, hin, hcm, hcl, hsl, -⟩ | ⟨p, hp, rfl⟩ | ⟨p, b, hp, hadd⟩ | ⟨p, hp, hend⟩ |
    ⟨p, hp, rfl⟩ | ⟨p, hp, rfl⟩
  · exact h.move p x hin hcm hcl (fun hx => absurd hx hsl)
  · exact beginOp_inv s p h hp
  · exact logAdd_inv s s' p b h hp hadd
  · exact endOp_inv s s' p h hp hend
  · exact erase_inv s p h hp
  · exact finish_inv s p h hp

theorem reach_inv {size : ℤ} {allow : St P → Act P → Prop} {s : St P} (hr : Reach size allow s) : Inv s := by
  refine Machine.Reach.invariant (I := Inv) ?_ (fun s a t ih hs => ?_) hr
  · rintro _ rfl
    exact inv_init size
  · exact step_inv s t a ih (step_of_move hs.2)

/-- inside an operation no commit is in progress, so `end_op` never finds `log.committing` set -/
theorem no_logCommitting {s : St P} (h : Inv s) (a : Act P) : step s a ≠ some (.error (.panic .logCommitting)) := by
  intro hs
  rcases step_error hs with ⟨p, b, -, -, he⟩ | ⟨p, b, -, -, he, -⟩ | ⟨p, -, hp, -, hc⟩
  · unfold logCheck at he
    split_ifs at he <;> simp at he
  · simp at he
  · have hin := h.none_inside (h.quiet hc) p
    rw [hp] at hin
    exact absurd hin (by decide)

/-- **Group commit takes only whole operations.** In every state of every run of any number of processes:
`log.outstanding` is the number of processes inside an operation; while `log.committing` is set no process is inside
one; when `end_op` sets it, the header lists, without duplicates, exactly the blocks of the operations that ended since
the last commit; the "log.committing" panic is unreachable; and a process asleep in `begin_op` waits for a commit or
for an operation in progress. -/
theorem group_commit (size : ℤ) (s : St P) (hr : Reachable size s) :
    s.outstanding = (insideOps s.pc).card ∧
    (s.committing = true → insideOps s.pc = ∅) ∧
    (∀ p s', step s (.endOp p) = some (.ok s') → s'.committing = true →
      insideOps s'.pc = ∅ ∧ s'.lh.block.Nodup ∧ s'.lh.block.toFinset = s'.ended) ∧
    (∀ a, step s a ≠ some (.error (.panic .logCommitting))) ∧
    ∀ p, s.pc p = .asleep → s.committing = true ∨ 0 < s.outstanding := by
  have h := reach_inv hr
  have hempty : ∀ t : St P, Inv t → t.committing = true → insideOps t.pc = ∅ := by
    intro t ht hc
    ext p
    simp [ht.none_inside (ht.quiet hc) p]
  refine ⟨h.count, hempty s h, fun p s' hs hc => ?_, no_logCommitting h, h.asleep⟩
  have h' := step_inv s s' _ h hs
  refine ⟨hempty s' h' hc, h'.nodup, ?_⟩
  ext b
  have hout : ∀ q, s'.written q = ∅ := fun q => h'.outside q (h'.none_inside (h'.quiet hc) q)
  rw [List.mem_toFinset, h'.blocks b]
  simp [hout]

end Invariant

/-- two operations run together, log one block each, and one of them has ended -/
def twoOps {P : Type} (p q : P) : List (Act P) :=
  [.call p, .call q, .beginOp p, .beginOp q, .logCheck p 7, .logAdd p, .logCheck q 9, .logAdd q, .endOp p]

/-- the last of two operations ends: the commit it starts has the blocks of both, and nobody is inside an operation -/
theorem group_commit_two_ops :
    ∃ s s' : St (Fin 2), Reachable nlog s ∧ step s (.endOp 1) = some (.ok s') ∧ s'.committing = true ∧
      insideOps s'.pc = ∅ ∧ s'.lh.block.toFinset = s'.ended ∧ s'.ended = {7, 9} := by
  have hrun : ((run (fun _ _ => True) (init nlog) (twoOps (0 : Fin 2) 1)).map fun s =>
      decide (s.pc 1 = .inOp ∧ s.committing = false ∧ s.outstanding = 1 ∧ s.ended ∪ s.written 1 = {7, 9})) =
      some true := by
    decide +kernel
  obtain ⟨s, hs, he⟩ := Option.map_eq_some_iff.1 hrun
  obtain ⟨hp, hc, ho, hb⟩ := of_decide_eq_true he
  have hr : Reachable nlog s := run_reach _ (.init rfl) hs
  obtain ⟨s', hs'⟩ : ∃ s', step s (.endOp 1) = some (.ok s') ∧ s'.committing = true ∧ s'.ended = {7, 9} := by
    simp only [step, hp, if_true, endOp, hc, ho]
    exact ⟨_, rfl, rfl, hb⟩
  obtain ⟨h1, h2, h3⟩ := hs'
  obtain ⟨h4, -, h5⟩ := (group_commit nlog s hr).2.2.1 1 s' h1 h2
  exact ⟨s, s', hr, h1, h2, h4, h5, h3⟩

end Xv6.GroupCommit
