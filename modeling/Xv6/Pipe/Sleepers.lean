/-
Who sleeps in a pipe call.

A process waits from the moment it has decided to sleep until it is woken (`Pc.waits`). It waits for a good reason
(`Stuck`), or the holder of `p->lock` is at a point from which it wakes the channel before it gives up the lock
(`Pc.owes`). One path breaks this: `pipewrite` that finds the pipe full returns -1 when its process has been killed,
without a wakeup for the bytes it has stored.
- `calm_step`: every other step keeps the invariant `Calm`;
- `pipe_sleepers`: in runs where no writer is refused while a reader waits, nobody sleeps with work to do; and a writer
  that is refused while a reader waits leaves that reader asleep with the pipe full.
-/
import Xv6.Pipe.Fifo

namespace Xv6.Pipes

open Xv6.Bytes Machine Function

variable {P : Type} {s t : St P} {a : Act P} {p : P} {x y : Pc} {pipe : Pipe} {lock : Option P} {pc : P → Pc}

/-! ## Waiting and owing -/

/-- a call that has decided to sleep and has not been woken -/
def Pc.waits : Pc → Option Op
  | .sleep c | .letGo c | .switch c | .asleep c => some c
  | _ => none

/-- the process calls wakeup(chan) before it gives up p->lock -/
def Pc.owes : Pc → Chan → Bool
  | .loop (.write _ _), chan => chan = .nread
  | .full _ _, chan => chan = .nread
  | .copy _ _, chan => chan = .nwrite
  | .signal c _, chan => c.wakes = chan
  | .closeWake w, chan => closeChan w = chan
  | _, _ => false

theorem owes_rouse (y : Pc) (chan : Chan) : (rouse y).owes chan = y.owes chan := by cases y <;> rfl

/-- everyone who waits is stuck, or the holder of p->lock is about to wake them -/
def Calm (pipe : Pipe) (lock : Option P) (pc : P → Pc) : Prop :=
  ∀ q c, (pc q).waits = some c → Stuck pipe c ∨ ∃ h, lock = some h ∧ (pc h).owes c.chan = true

/-- nobody owes a wakeup -/
theorem Calm.stuck (h : Calm pipe lock pc) (hnone : ∀ p chan, lock = some p → (pc p).owes chan = false) {q : P} {c : Op}
    (hq : (pc q).waits = some c) : Stuck pipe c := by
  rcases h q c hq with hs | ⟨p, hp, howe⟩
  · exact hs
  · rw [hnone p _ hp] at howe
    cases howe

/-- the holder is at a point that owes nothing -/
theorem Calm.stuck_of (h : Calm pipe lock pc) (hexcl : Excl Pc.locked pc lock) (hpc : pc p = y) (hlocked : y.locked = true)
    (howes : ∀ chan, y.owes chan = false) {q : P} {c : Op} (hq : (pc q).waits = some c) : Stuck pipe c := by
  subst hpc
  refine h.stuck (fun r chan hr => ?_) hq
  rw [← Option.some.inj (((hexcl p).1 hlocked).symm.trans hr)]
  exact howes chan

section

variable [DecidableEq P]

/-- a process moves under the same lock and pipe, and goes on owing what it owed -/
theorem Calm.move (h : Calm pipe lock pc) (hmono : ∀ chan, (pc p).owes chan = true → x.owes chan = true)
    (hown : ∀ c, x.waits = some c → Stuck pipe c ∨ (pc p).waits = some c) :
    Calm pipe lock (update pc p x) := by
  have howe : ∀ q chan, (pc q).owes chan = true → (update pc p x q).owes chan = true := fun q chan hq => by
    by_cases hqp : q = p
    · rw [hqp, update_self]
      exact hmono chan (hqp ▸ hq)
    · rwa [update_of_ne hqp]
  have hkeep : ∀ q c, (pc q).waits = some c → Stuck pipe c ∨ ∃ h, lock = some h ∧ (update pc p x h).owes c.chan = true :=
    fun q c hq => (h q c hq).imp_right fun ⟨r, hr, ho⟩ => ⟨r, hr, howe r c.chan ho⟩
  intro q c hq
  by_cases hqp : q = p
  · rw [hqp, update_self] at hq
    exact (hown c hq).elim .inl fun hw => hkeep p c hw
  · rw [update_of_ne hqp] at hq
    exact hkeep q c hq

/-- everyone who waits is stuck after a process has moved -/
theorem calm_of_stuck (hall : ∀ q c, (pc q).waits = some c → Stuck pipe c) (hown : ∀ c, x.waits = some c → Stuck pipe c) :
    Calm pipe lock (update pc p x) := by
  intro q c hq
  by_cases hqp : q = p
  · rw [hqp, update_self] at hq
    exact .inl (hown c hq)
  · rw [update_of_ne hqp] at hq
    exact .inl (hall q c hq)

end

/-! ## The refused writer -/

/-- `pipewrite` is about to return -1 -/
def refused (s : St P) (p : P) : Bool :=
  match s.pc p with
  | .loop (.write (_ :: _) _) => decide s.pipe.Full && (!s.pipe.readopen || s.killed p)
  | _ => false

theorem refused_iff : refused s p = true ↔ ∃ b src n, s.pc p = .loop (.write (b :: src) n) ∧ s.pipe.Full ∧
    (s.pipe.readopen = false ∨ s.killed p = true) := by
  unfold refused
  constructor
  · intro h
    split at h
    · rename_i b src n hpc
      exact ⟨b, src, n, hpc, by simpa using h⟩
    · cases h
  · rintro ⟨b, src, n, hpc, h⟩
    simpa [hpc] using h

/-- in `piperead`, from the decision to sleep until woken -/
def Pc.waitsToRead (pc : Pc) : Bool :=
  match pc.waits with
  | some (.read _) => true
  | _ => false

theorem waitsToRead_iff : x.waitsToRead = true ↔ ∃ n, x.waits = some (.read n) := by
  unfold Pc.waitsToRead
  split
  · rename_i n hx
    exact ⟨fun _ => ⟨n, hx⟩, fun _ => rfl⟩
  · rename_i hx
    exact ⟨fun hc => Bool.noConfusion hc, fun ⟨n, hn⟩ => absurd hn (hx n)⟩

/-- no writer is refused while a reader waits -/
def Allow (s : St P) : Act P → Prop
  | .move p => refused s p = true → ∀ q, (s.pc q).waitsToRead = false
  | _ => True

instance [Fintype P] (s : St P) : (a : Act P) → Decidable (Allow s a)
  | .move p => inferInstanceAs (Decidable (refused s p = true → ∀ q, (s.pc q).waitsToRead = false))
  | .call _ _ | .close _ _ | .kill _ => inferInstanceAs (Decidable True)

/-- nobody waits on the channel of a `wakeup` once it is done -/
theorem Inv.wakeup_waits [DecidableEq P] (h : Inv s) (hlocked : (s.pc p).locked = true) (hfree : s.ptable = none) {chan : Chan}
    {q : P} {c : Op} (hq : q ≠ p) (hw : (wake chan (s.pc q)).waits = some c) : (s.pc q).waits = some c ∧ c.chan ≠ chan := by
  have hunlocked : (s.pc q).locked ≠ true := fun hl => hq (h.lock.unique hl hlocked)
  have hptable : (s.pc q).ptable ≠ true := fun hp => by
    rw [(h.ptable q).1 hp] at hfree
    cases hfree
  cases hy : s.pc q with
  | sleep c' => exact absurd (by rw [hy]; rfl) hunlocked
  | letGo c' => exact absurd (by rw [hy]; rfl) hunlocked
  | switch c' => exact absurd (by rw [hy]; rfl) hptable
  | asleep c' =>
    rw [hy, wake] at hw
    split_ifs at hw with hc
    · cases hw
    · obtain rfl : c' = c := Option.some.inj hw
      exact ⟨rfl, hc⟩
  | _ =>
    rw [hy] at hw
    cases hw

/-- what is owed before a `wakeup` is that `wakeup` -/
theorem Wakes.owes {chan chan' : Chan} (h : Wakes x chan y) (howe : x.owes chan' = true) : chan' = chan := by
  cases h with
  | full src n => exact of_decide_eq_true howe
  | signal c ret => exact (of_decide_eq_true howe).symm
  | close w => exact (of_decide_eq_true howe).symm

/-- a process that goes to sleep after a `wakeup` is stuck -/
theorem Wakes.stuck {chan : Chan} {c : Op} (h : Wakes x chan y) (hknow : x.knows pipe) (hc : y.waits = some c) :
    Stuck pipe c := by
  cases h with
  | full src n =>
    cases hc
    exact hknow
  | signal | close => cases hc

variable [DecidableEq P]

theorem Inside.calm (h : Inside s p x) (hexcl : Excl Pc.locked s.pc s.lock) (hcalm : Calm s.pipe s.lock s.pc)
    (hallow : Allow s (.move p)) : Calm s.pipe s.lock (update s.pc p x) := by
  cases h with
  | stored hpc | copied hpc =>
    refine hcalm.move (fun chan howe => ?_) fun c hc => by cases hc
    rw [hpc] at howe
    exact decide_eq_true (of_decide_eq_true howe).symm
  | @refused b src n hpc hfull hstop =>
    -- the only point where a debt is forgotten
    have hnone := hallow (refused_iff.2 ⟨b, src, n, hpc, hfull, hstop⟩)
    refine calm_of_stuck (fun q c hq => ?_) fun c hc => by cases hc
    cases c with
    | read n => exact absurd (waitsToRead_iff.2 ⟨n, hq⟩) (by rw [hnone q]; exact Bool.noConfusion)
    | write src' n' =>
      rcases hcalm q _ hq with hs | ⟨r, hr, howe⟩
      · exact hs
      · obtain rfl : p = r := Option.some.inj (((hexcl p).1 (by rw [hpc]; rfl)).symm.trans hr)
        rw [hpc] at howe
        cases howe
  | full hpc hfull hread =>
    refine hcalm.move (fun chan howe => ?_) fun c hc => by cases hc
    rw [hpc] at howe
    exact howe
  | killed hpc | copy hpc =>
    refine hcalm.move (fun chan howe => ?_) fun c hc => by cases hc
    rw [hpc] at howe
    cases howe
  | empty hpc hempty hwrite =>
    refine hcalm.move (fun chan howe => ?_) fun c hc => .inl ?_
    · rw [hpc] at howe
      cases howe
    · cases hc
      exact ⟨hempty, hwrite⟩

/-- **Step lemma**: a step keeps calm unless a writer is refused while a reader waits. -/
theorem calm_step (hinv : Inv s) (hcalm : Calm s.pipe s.lock s.pc) (hallow : Allow s a) (hstep : Step s a t) :
    Calm t.pipe t.lock t.pc := by
  have hexcl := hinv.lock
  cases hstep with
  | call hpc | close hpc | kfree hpc =>
    refine hcalm.move (fun chan howe => ?_) fun c hc => by cases hc
    rw [hpc] at howe
    cases howe
  | @kill p =>
    refine hcalm.move (fun chan howe => by rwa [owes_rouse]) fun c hc => .inr ?_
    cases hy : s.pc p <;> rw [hy] at hc <;> first | exact hc | cases hc
  | acquire hpc hfree | closeAcquire hpc hfree =>
    refine calm_of_stuck (fun q c hq => hcalm.stuck (fun r chan hr => ?_) hq) fun c hc => by cases hc
    rw [hfree] at hr
    cases hr
  | inside hin => exact hin.calm hexcl hcalm hallow
  | @wakeup p chan x hwake hfree =>
    have hl := hwake.locked.1
    refine fun q c hq => .inl ?_
    by_cases hqp : q = p
    · have hown : x.waits = some c := by
        rw [hqp] at hq
        simpa [St.goto] using hq
      exact hwake.stuck (hinv.knows p) hown
    · have hw : (wake chan (s.pc q)).waits = some c := by simpa [St.goto, St.wakeup, hqp] using hq
      obtain ⟨hwait, hne⟩ := hinv.wakeup_waits hl hfree hqp hw
      rcases hcalm q c hwait with hs | ⟨r, hr, howe⟩
      · exact hs
      · obtain rfl : p = r := Option.some.inj (((hexcl p).1 hl).symm.trans hr)
        exact absurd (hwake.owes howe) hne
  | @store p b src n hpc hroom =>
    -- nobody waits for room: there is some, and this writer owes nothing to writers
    have hp := (hexcl p).1 (by rw [hpc]; rfl)
    refine fun q c hq => .inr ⟨p, hp, ?_⟩
    obtain ⟨-, hq'⟩ := some_of_update hq rfl
    cases c with
    | read n => rw [goto_self]; rfl
    | write src' n' =>
      rcases hcalm q _ hq' with hs | ⟨r, hr, howe⟩
      · exact absurd hs.1 hroom
      · rw [← Option.some.inj (hp.symm.trans hr), hpc] at howe
        cases howe
  | @advance p n i hpc hsome =>
    have hp := (hexcl p).1 (by rw [hpc]; rfl)
    refine fun q c hq => .inr ⟨p, hp, ?_⟩
    obtain ⟨-, hq'⟩ := some_of_update hq rfl
    cases c with
    | write src' n' => rw [goto_self]; rfl
    | read n =>
      rcases hcalm q _ hq' with hs | ⟨r, hr, howe⟩
      · exact absurd hs.1 hsome
      · rw [← Option.some.inj (hp.symm.trans hr), hpc] at howe
        cases howe
  | sleep hpc | switch hpc =>
    refine hcalm.move (fun chan howe => ?_) fun c hc => .inr ?_
    · rw [hpc] at howe
      cases howe
    · rw [hpc]
      exact hc
  | letGo hpc =>
    have hall := fun q c => hcalm.stuck_of (q := q) (c := c) hexcl hpc rfl fun _ => rfl
    exact calm_of_stuck hall fun c hc => hall _ c (by rw [hpc]; exact hc)
  | leave hpc | closeLast hpc | closeFirst hpc =>
    exact calm_of_stuck (fun q c => hcalm.stuck_of hexcl hpc rfl fun _ => rfl) fun c hc => by cases hc
  | @closeFlag p w hpc =>
    have hp := (hexcl p).1 (by rw [hpc]; rfl)
    refine fun q c hq => ?_
    obtain ⟨-, hq'⟩ := some_of_update hq rfl
    have hs := hcalm.stuck_of hexcl hpc rfl (fun _ => rfl) hq'
    cases w <;> cases c
    · exact .inr ⟨p, hp, by rw [goto_self]; rfl⟩
    · exact .inl hs
    · exact .inl hs
    · exact .inr ⟨p, hp, by rw [goto_self]; rfl⟩

/-! ## All runs -/

/-- with p->lock free, nobody sleeps with work to do: readers on an empty pipe whose write end is open, writers on a full
pipe whose read end is open -/
def Restful (s : St P) : Prop := s.lock = none → ∀ q c, s.pc q = .asleep c → Stuck s.pipe c

omit [DecidableEq P] in
theorem Calm.restful (h : Calm s.pipe s.lock s.pc) : Restful s := fun hlock q c hq => by
  refine h.stuck (fun p chan hp => ?_) (by rw [hq]; rfl)
  rw [hlock] at hp
  cases hp

omit [DecidableEq P] in
theorem Init.calm (h : Init s) : Calm s.pipe s.lock s.pc := fun q c hq => by
  obtain ⟨-, -, -, -, -, -, hpc, -⟩ := h
  rw [hpc q] at hq
  cases hq

theorem Pipe.not_stuck_read (hfull : pipe.Full) (n : ℤ) : ¬ Stuck pipe (.read n) := by
  rintro ⟨hempty, -⟩
  rw [Pipe.Full, ← hempty, BitVec.self_eq_add_right] at hfull
  exact absurd hfull (by decide)

variable [Fintype P]

/-- the two steps of the refused writer -/
theorem refused_moves (h : refused s p = true) : ∃ t, [Act.move p, .move p].foldlM step s = some t ∧
    t.lock = none ∧ t.pipe = s.pipe ∧ t.ptable = s.ptable ∧ ∀ q, q ≠ p → t.pc q = s.pc q := by
  obtain ⟨b, src, n, hpc, hfull, hstop⟩ := refused_iff.1 h
  have hfirst : step s (.move p) = some (s.goto p (.leave (.write (b :: src) n) (-1))) := by
    simp only [step, move, hpc]
    rw [if_pos hfull, if_pos hstop]
  have hsecond : step (s.goto p (.leave (.write (b :: src) n) (-1))) (.move p) =
      some ({ s.goto p (.leave (.write (b :: src) n) (-1)) with lock := none }.goto p .idle) := by
    simp only [step, move, goto_self]
  refine ⟨{ s.goto p (.leave (.write (b :: src) n) (-1)) with lock := none }.goto p .idle, ?_, rfl, rfl, rfl, fun q hq => ?_⟩
  · rw [List.foldlM_cons, hfirst, Option.bind_eq_bind, Option.bind_some, List.foldlM_cons, hsecond]
    rfl
  · rw [goto_of_ne hq]
    exact goto_of_ne hq

/-- **Sleepers of a pipe.** In every run in which no writer is refused while a reader waits, nobody sleeps with work to
do. In any run, a writer that is refused while a reader waits leads, by its own two steps and at most one of the
reader's, to a state with p->lock free and the reader asleep on a full pipe. -/
theorem pipe_sleepers :
    (∀ s : St P, ((machine P).restrict Allow).Reach s → Restful s) ∧
      ∀ (s : St P) (a : Act P), (machine P).Reach s → ¬ Allow s a →
        ∃ as t, (a :: as).foldlM step s = some t ∧ ¬ Restful t := by
  constructor
  · intro s h
    have hcalm : Inv s ∧ Calm s.pipe s.lock s.pc := by
      refine Reach.invariant (M := (machine P).restrict Allow) (I := fun s => Inv s ∧ Calm s.pipe s.lock s.pc)
        (fun s h0 => ⟨Init.inv h0, Init.calm h0⟩) (fun s a t hs hnext => ?_) h
      have hstep := step_cases hnext.2
      exact ⟨inv_step hs.1 hstep, calm_step hs.1 hs.2 hnext.1 hstep⟩
    exact hcalm.2.restful
  · intro s a hreach hallow
    cases a with
    | call | close | kill => exact absurd trivial hallow
    | move p =>
      rw [Allow, Classical.not_imp] at hallow
      obtain ⟨hrefused, hwait⟩ := hallow
      rw [not_forall] at hwait
      obtain ⟨q, hq⟩ := hwait
      obtain ⟨n, hq⟩ := waitsToRead_iff.1 (Bool.eq_true_of_not_eq_false hq)
      obtain ⟨b, src, n', hpc, hfull, -⟩ := refused_iff.1 hrefused
      have hinv := (reach_inv hreach).1
      have hqp : q ≠ p := fun hqp => by
        rw [hqp, hpc] at hq
        cases hq
      have hunlocked : (s.pc q).locked ≠ true := fun hl => hqp (hinv.lock.unique hl (by rw [hpc]; rfl))
      obtain ⟨t, ht, hlock, hpipe, -, hsame⟩ := refused_moves hrefused
      cases hy : s.pc q with
      | sleep c => exact absurd (by rw [hy]; rfl) hunlocked
      | letGo c => exact absurd (by rw [hy]; rfl) hunlocked
      | asleep c =>
        rw [hy] at hq
        cases hq
        refine ⟨[.move p], t, ht, fun hrest => Pipe.not_stuck_read hfull n ?_⟩
        rw [← hpipe]
        exact hrest hlock q _ ((hsame q hqp).trans hy)
      | switch c =>
        rw [hy] at hq
        cases hq
        have hmove : step t (.move q) = some ({ t with ptable := none }.goto q (.asleep (.read n))) := by
          simp only [step, move, hsame q hqp, hy]
        refine ⟨[.move p, .move q], { t with ptable := none }.goto q (.asleep (.read n)), ?_, fun hrest => Pipe.not_stuck_read hfull n ?_⟩
        · rw [show [Act.move p, .move p, .move q] = [Act.move p, .move p] ++ [.move q] from rfl, List.foldlM_append, ht]
          rw [Option.bind_eq_bind, Option.bind_some, List.foldlM_cons, hmove]
          rfl
        · rw [← hpipe]
          exact hrest hlock q _ (goto_self _ q _)
      | _ =>
        rw [hy] at hq
        cases hq

/-- q sleeps in `piperead`, p is killed while it writes more than the pipe holds -/
def killedWriter {P : Type} (p q : P) : List (Act P) :=
  [[.call q (.read 1)], .replicate 5 (.move q), [.call p (.write (.replicate 513 7) 513), .kill p],
    .replicate 515 (.move p)].flatten

/-- The reader is left asleep on a full pipe. -/
theorem reader_left_asleep : ∃ s, (killedWriter 0 1).foldlM step (newPipe (Fin 2)) = some s ∧ s.lock = none ∧
    s.pc 1 = .asleep (.read 1) ∧ s.pipe.Full ∧ ¬ Restful s := by
  have hrun : ((killedWriter 0 1).foldlM step (newPipe (Fin 2))).map
      (fun s => (s.lock, s.pc 1, decide s.pipe.Full)) = some (none, .asleep (.read 1), true) := by decide +kernel
  obtain ⟨s, hs, heq⟩ := Option.map_eq_some_iff.1 hrun
  obtain ⟨hlock, hrest⟩ := Prod.mk.inj heq
  obtain ⟨hpc, hfull⟩ := Prod.mk.inj hrest
  have hfull := of_decide_eq_true hfull
  exact ⟨s, hs, hlock, hpc, hfull, fun hrestful => Pipe.not_stuck_read hfull 1 (hrestful hlock 1 _ hpc)⟩

/-- Process 1 sleeps in `piperead` of an empty pipe, and may. -/
theorem pipe_sleepers_reader : ∃ s, ((machine (Fin 2)).restrict Allow).Reach s ∧ s.pc 1 = .asleep (.read 1) ∧ Restful s := by
  have hrun : ((.call 1 (.read 1) :: List.replicate 5 (.move 1)).foldlM
      (fun s a => if Allow s a then step s a else none) (newPipe (Fin 2))).map (fun s => s.pc 1) =
        some (.asleep (.read 1)) := by decide +kernel
  obtain ⟨s, hs, hpc⟩ := Option.map_eq_some_iff.1 hrun
  have hreach : ((machine (Fin 2)).restrict Allow).Reach s := Reach.foldlM_restrict _ (.init (newPipe_init (Fin 2))) hs
  exact ⟨s, hreach, hpc, pipe_sleepers.1 s hreach⟩

end Xv6.Pipes
