/-
A pipe is a FIFO byte stream.

The counters run freely and wrap at 2^32; the bytes between them form a ring buffer (`Ring.Rep`), and a process inside
the locked section keeps what it has found out about the pipe until it gives up the lock (`Pc.knows`).
- `inv_step`: locks, local knowledge and ring along every step;
- `ends_step`: the flags, the struct files of the two ends and the page;
- `pipe_fifo`: the bytes delivered are a prefix of the bytes accepted, the counters tell how many are left, a read
  returns 0 only at the end of the stream, and the page is freed once, after both ends have been closed.
-/
import Xv6.Core.Ring
import Xv6.Pipe.Model

namespace Xv6.Pipes

open Xv6.Bytes Machine Function

variable {P : Type} {s t : St P} {a : Act P} {p : P} {x : Pc} {pipe : Pipe}

/-! ## Locks and local knowledge -/

/-- why a call goes to sleep -/
def Stuck (pipe : Pipe) : Op → Prop
  | .write _ _ => pipe.Full ∧ pipe.readopen = true
  | .read _ => pipe.Empty ∧ pipe.writeopen = true

/-- the end of the stream -/
def Ended (pipe : Pipe) : Prop := pipe.Empty ∧ pipe.writeopen = false

/-- what a process in a locked section has found out about the pipe -/
def Pc.knows (pipe : Pipe) : Pc → Prop
  | .full src n => Stuck pipe (.write src n)
  | .sleep c | .letGo c => Stuck pipe c
  | .copy _ i => i = 0 → pipe.Empty → pipe.writeopen = false
  | .signal (.read n) ret | .leave (.read n) ret => ret = 0 → 0 < n → Ended pipe
  | _ => True

theorem knows_of_unlocked (hx : x.locked = false) : x.knows pipe := by
  cases x <;> trivial

@[simp] theorem locked_wake (chan : Chan) (x : Pc) : (wake chan x).locked = x.locked := by
  cases x <;> simp only [wake]
  split_ifs <;> rfl

@[simp] theorem ptable_wake (chan : Chan) (x : Pc) : (wake chan x).ptable = x.ptable := by
  cases x <;> simp only [wake]
  split_ifs <;> rfl

@[simp] theorem uses_wake (chan : Chan) (x : Pc) : (wake chan x).uses = x.uses := by
  cases x <;> simp only [wake]
  split_ifs <;> rfl

theorem wake_of_locked (chan : Chan) (hx : x.locked = true) : wake chan x = x := by
  cases x <;> first | rfl | cases hx

@[simp] theorem locked_rouse (x : Pc) : (rouse x).locked = x.locked := by cases x <;> rfl

@[simp] theorem ptable_rouse (x : Pc) : (rouse x).ptable = x.ptable := by cases x <;> rfl

@[simp] theorem uses_rouse (x : Pc) : (rouse x).uses = x.uses := by cases x <;> rfl

theorem knows_rouse (h : x.knows pipe) : (rouse x).knows pipe := by
  cases x <;> exact h

theorem knows_wake (chan : Chan) (h : x.knows pipe) : (wake chan x).knows pipe := by
  cases hx : x.locked with
  | true => rw [wake_of_locked chan hx]; exact h
  | false => exact knows_of_unlocked (by rw [locked_wake, hx])

theorem Wakes.locked {chan : Chan} {y : Pc} (h : Wakes x chan y) :
    x.locked = true ∧ y.locked = true ∧ x.ptable = false ∧ y.ptable = false := by
  cases h <;> exact ⟨rfl, rfl, rfl, rfl⟩

theorem Inside.locked (h : Inside s p x) :
    (s.pc p).locked = true ∧ x.locked = true ∧ (s.pc p).ptable = false ∧ x.ptable = false := by
  cases h with
  | stored hpc | refused hpc | full hpc | killed hpc | empty hpc | copy hpc | copied hpc =>
    rw [hpc]
    exact ⟨rfl, rfl, rfl, rfl⟩

structure Inv (s : St P) : Prop where
  lock : Excl Pc.locked s.pc s.lock
  ptable : Excl Pc.ptable s.pc s.ptable
  knows : ∀ p, (s.pc p).knows s.pipe
  ring : ∃ q, Ring.Rep PIPESIZE s.pipe.data s.pipe.nread s.pipe.nwrite q ∧ s.accepted = s.delivered ++ q

/-- the others are outside the locked section -/
theorem Inv.others (h : Inv s) (hp : (s.pc p).locked = true) (pipe : Pipe) (q : P) (hq : q ≠ p) : (s.pc q).knows pipe := by
  refine knows_of_unlocked (Bool.eq_false_iff.2 fun hl => hq ?_)
  exact h.lock.unique hl hp

theorem Inside.knows (h : Inside s p x) (hknow : (s.pc p).knows s.pipe) : x.knows s.pipe := by
  cases h with
  | full hpc hfull hread => exact ⟨hfull, hread⟩
  | empty hpc hempty hwrite => exact ⟨hempty, hwrite⟩
  | copy hpc hsome => exact fun _ => hsome
  | killed hpc => exact fun hc => by cases hc
  | @copied n i hpc hdone =>
    rw [hpc] at hknow
    intro hret hn
    have hi : i = 0 := Int.ofNat_eq_zero.1 hret
    have hempty := hdone (by rw [hi]; exact hn)
    exact ⟨hempty, hknow hi hempty⟩
  | stored | refused => trivial

theorem Wakes.knows {chan : Chan} {y : Pc} (h : Wakes x chan y) (hknow : x.knows pipe) : y.knows pipe := by
  cases h with
  | full src n => exact hknow
  | signal c ret => cases c <;> exact hknow
  | close w => trivial

variable [DecidableEq P]

@[simp] theorem goto_self (s : St P) (p : P) (x : Pc) : (s.goto p x).pc p = x := by simp [St.goto]

theorem goto_of_ne {q : P} (hq : q ≠ p) : (s.goto p x).pc q = s.pc q := by simp [St.goto, hq]

/-- a fact about every process after one has moved -/
theorem forall_goto {φ : Pc → Prop} (hx : φ x) (h : ∀ q, q ≠ p → φ (s.pc q)) : ∀ q, φ ((s.goto p x).pc q) := fun q => by
  by_cases hq : q = p
  · rw [hq, goto_self]
    exact hx
  · rw [goto_of_ne hq]
    exact h q hq

/-- **Step lemma** for the locks, the local knowledge and the ring. -/
theorem inv_step (h : Inv s) (hstep : Step s a t) : Inv t := by
  obtain ⟨hlock, hptable, hknows, hring⟩ := h
  have hinv : Inv s := ⟨hlock, hptable, hknows, hring⟩
  cases hstep with
  | call hpc | close hpc | kfree hpc =>
    refine ⟨hlock.keep (by rw [hpc]; rfl), hptable.keep (by rw [hpc]; rfl), ?_, hring⟩
    exact forall_goto trivial fun q _ => hknows q
  | @kill p =>
    refine ⟨hlock.keep (locked_rouse _), hptable.keep (ptable_rouse _), ?_, hring⟩
    exact forall_goto (knows_rouse (hknows p)) fun q _ => hknows q
  | acquire hpc hfree | closeAcquire hpc hfree =>
    rw [hfree] at hlock
    refine ⟨hlock.acquire rfl, hptable.keep (by rw [hpc]; rfl), ?_, hring⟩
    exact forall_goto trivial fun q _ => hknows q
  | @inside p x hin =>
    obtain ⟨hl, hxl, hp, hxp⟩ := hin.locked
    refine ⟨hlock.keep (hxl.trans hl.symm), hptable.keep (hxp.trans hp.symm), ?_, hring⟩
    exact forall_goto (hin.knows (hknows p)) fun q _ => hknows q
  | @wakeup p chan x hwake hfree =>
    obtain ⟨hl, hxl, hp, hxp⟩ := hwake.locked
    refine ⟨(hlock.map fun q => locked_wake chan _).keep ?_, (hptable.map fun q => ptable_wake chan _).keep ?_, ?_, hring⟩
    · rw [hxl, locked_wake, hl]
    · rw [hxp, ptable_wake, hp]
    · exact forall_goto (hwake.knows (hknows p)) fun q _ => knows_wake chan (hknows q)
  | @store p b src n hpc hroom =>
    refine ⟨hlock.keep (by rw [hpc]; rfl), hptable.keep (by rw [hpc]; rfl), ?_, ?_⟩
    · exact forall_goto trivial fun q hq => hinv.others (by rw [hpc]; rfl) _ q hq
    · obtain ⟨q, hrep, hacc⟩ := hring
      have hlt : q.length < PIPESIZE :=
        lt_of_le_of_ne hrep.fits fun hlen => hroom ((hrep.full_iff (by decide)).2 hlen)
      refine ⟨q ++ [b], hrep.push (by decide) hlt b, ?_⟩
      exact (congrArg (· ++ [b]) hacc).trans (List.append_assoc _ _ _)
  | @advance p n i hpc hsome =>
    refine ⟨hlock.keep (by rw [hpc]; rfl), hptable.keep (by rw [hpc]; rfl), ?_, ?_⟩
    · exact forall_goto (fun hc => by cases hc) fun q hq => hinv.others (by rw [hpc]; rfl) _ q hq
    · obtain ⟨q, hrep, hacc⟩ := hring
      have hne : q ≠ [] := fun hnil => hsome ((hrep.empty_iff (by decide)).2 hnil)
      obtain ⟨b, q, rfl⟩ := List.exists_cons_of_ne_nil hne
      refine ⟨q, hrep.pop (by decide), ?_⟩
      rw [St.goto, hacc, Pipe.front, hrep.front, List.append_assoc]
      rfl
  | @sleep p c hpc hfree =>
    rw [hfree] at hptable
    refine ⟨hlock.keep (by rw [hpc]; rfl), hptable.acquire rfl, ?_, hring⟩
    have hstuck := hknows p
    rw [hpc] at hstuck
    exact forall_goto hstuck fun q _ => hknows q
  | letGo hpc | leave hpc | closeLast hpc | closeFirst hpc =>
    refine ⟨hlock.release (by rw [hpc]; rfl) rfl, hptable.keep (by rw [hpc]; rfl), ?_, hring⟩
    exact forall_goto trivial fun q _ => hknows q
  | switch hpc =>
    refine ⟨hlock.keep (by rw [hpc]; rfl), hptable.release (by rw [hpc]; rfl) rfl, ?_, hring⟩
    exact forall_goto trivial fun q _ => hknows q
  | @closeFlag p w hpc =>
    refine ⟨hlock.keep (by rw [hpc]; rfl), hptable.keep (by rw [hpc]; rfl), ?_, ?_⟩
    · exact forall_goto trivial fun q hq => hinv.others (by rw [hpc]; rfl) _ q hq
    · cases w <;> exact hring

/-! ## The two ends and the page -/

/-- in `pipeclose`, the flag not yet cleared -/
def Pc.closes : Pc → Option Bool
  | .closeAcquire w | .closeFlag w => some w
  | _ => none

/-- in `pipeclose`, the flag cleared -/
def Pc.closed : Pc → Bool
  | .closeWake _ | .closeTest | .kfree => true
  | _ => false

/-- both ends closed -/
def Pipe.Over (pipe : Pipe) : Prop := pipe.readopen = false ∧ pipe.writeopen = false

theorem Pipe.over_iff : pipe.Over ↔ ∀ w, pipe.isopen w = false :=
  ⟨fun h w => by cases w; exacts [h.1, h.2], fun h => ⟨h false, h true⟩⟩

/-- files, flags and the page, against where the processes are -/
structure Ends (file : Bool → Bool) (pipe : Pipe) (freed : ℕ) (pc : P → Pc) : Prop where
  user : ∀ p w, (pc p).uses = some w → file w = true
  closer : ∀ p w, (pc p).closes = some w → file w = false ∧ ∀ q, (pc q).closes = some w → q = p
  flag : ∀ w, pipe.isopen w = true ↔ file w = true ∨ ∃ p, (pc p).closes = some w
  page : ∀ p, pc p = .kfree → freed = 0 ∧ pipe.Over ∧ ∀ q, q ≠ p → pc q = .idle
  gone : freed ≠ 0 → freed = 1 ∧ pipe.Over ∧ ∀ q, pc q = .idle
  last : pipe.Over → freed = 1 ∨ ∃ p, (pc p).closed = true

section

variable {file : Bool → Bool} {freed : ℕ} {pc : P → Pc} {w : Bool}

section

variable (h : Ends file pipe freed pc)

include h

omit [DecidableEq P] in
/-- the page is there as long as some call is in progress that is not about to free it -/
theorem Ends.alive (hidle : pc p ≠ .idle) (hkfree : pc p ≠ .kfree) : freed = 0 ∧ ∀ q, pc q ≠ .kfree := by
  refine ⟨by_contra fun hf => hidle ((h.gone hf).2.2 p), fun q hq => ?_⟩
  by_cases hqp : p = q
  · exact hkfree (hqp ▸ hq)
  · exact hidle ((h.page q hq).2.2 p hqp)

omit [DecidableEq P] in
theorem Ends.not_over (hfile : file w = true) : ¬ pipe.Over := fun hover => by
  have hflag := Pipe.over_iff.1 hover w
  rw [(h.flag w).2 (.inl hfile)] at hflag
  cases hflag

omit [DecidableEq P] in
theorem Ends.alive_of_file (hfile : file w = true) : freed = 0 ∧ ∀ q, pc q ≠ .kfree :=
  ⟨by_contra fun hf => h.not_over hfile (h.gone hf).2.1, fun q hq => h.not_over hfile (h.page q hq).2.1⟩

omit [DecidableEq P] in
/-- processes move, nothing is closed and the page stays -/
theorem Ends.map {pc' : P → Pc} (huses : ∀ q w, (pc' q).uses = some w → file w = true)
    (hcloses : ∀ q, (pc' q).closes = (pc q).closes) (hclosed : ∀ q, (pc' q).closed = (pc q).closed)
    (hkfree : ∀ q, pc' q = .kfree → pc q = .kfree) (hidle : ∀ q, freed = 0 ∧ (∀ q, pc q ≠ .kfree) ∨ (pc q = .idle → pc' q = .idle)) :
    Ends file pipe freed pc' := by
  refine ⟨huses, fun p w hp => ?_, fun w => ?_, fun p hp => ?_, fun hf => ?_, fun hover => ?_⟩
  · simp only [hcloses] at hp ⊢
    exact h.closer p w hp
  · simp only [hcloses]
    exact h.flag w
  · obtain ⟨hf, hover, hrest⟩ := h.page p (hkfree p hp)
    exact ⟨hf, hover, fun q hq => (hidle q).elim (fun hno => absurd (hkfree p hp) (hno.2 p)) fun hi => hi (hrest q hq)⟩
  · obtain ⟨hone, hover, hrest⟩ := h.gone hf
    exact ⟨hone, hover, fun q => (hidle q).elim (fun hno => absurd hno.1 hf) fun hi => hi (hrest q)⟩
  · simp only [hclosed]
    exact h.last hover

omit h in
theorem not_kfree (hx : x ≠ .kfree) (hkfree : ∀ q, pc q ≠ .kfree) (q : P) : update pc p x q ≠ .kfree := by
  rw [update_apply]
  split_ifs
  · exact hx
  · exact hkfree q

/-- the page is there, and one process moves -/
theorem Ends.goto (halive : freed = 0 ∧ ∀ q, pc q ≠ .kfree) (hx : x ≠ .kfree)
    (huses : ∀ w, x.uses = some w → file w = true) (hcloses : x.closes = (pc p).closes)
    (hclosed : x.closed = (pc p).closed) : Ends file pipe freed (update pc p x) := by
  refine h.map (fun q w hq => ?_) (fun q => ?_) (fun q => ?_) (fun q hq => ?_) fun _ => .inl halive
  all_goals by_cases hqp : q = p
  · rw [hqp, update_self] at hq
    exact huses w hq
  · rw [update_of_ne hqp] at hq
    exact h.user q w hq
  · rw [hqp, update_self, hcloses]
  · rw [update_of_ne hqp]
  · rw [hqp, update_self, hclosed]
  · rw [update_of_ne hqp]
  · rw [hqp, update_self] at hq
    exact absurd hq hx
  · rwa [update_of_ne hqp] at hq

/-- a process inside a call moves -/
theorem Ends.move {y : Pc} (hpc : pc p = y) (hidle : y ≠ .idle) (hkfree : y ≠ .kfree)
    (hx : x ≠ .kfree) (huses : x.uses = y.uses ∨ x.uses = none) (hcloses : x.closes = y.closes)
    (hclosed : x.closed = y.closed) : Ends file pipe freed (update pc p x) := by
  subst hpc
  refine h.goto (h.alive hidle hkfree) hx (fun w hw => ?_) hcloses hclosed
  rcases huses with hu | hu
  · exact h.user p w (hu ▸ hw)
  · rw [hu] at hw
    cases hw

omit [DecidableEq P] in
/-- sleeping processes are woken -/
theorem Ends.wakeup (chan : Chan) : Ends file pipe freed fun q => wake chan (pc q) := by
  refine h.map (fun q w hq => h.user q w (by rwa [uses_wake] at hq)) (fun q => ?_) (fun q => ?_) (fun q hq => ?_) fun q =>
    .inr fun hq => by rw [hq]; rfl
  all_goals generalize pc q = y at *
  · cases y <;> simp only [wake]
    split_ifs <;> rfl
  · cases y <;> simp only [wake]
    split_ifs <;> rfl
  · cases y with
    | asleep c =>
      simp only [wake] at hq
      split_ifs at hq
    | _ => exact hq

end

omit [DecidableEq P] in
theorem Inside.ends (h : Inside s p x) :
    s.pc p ≠ .idle ∧ s.pc p ≠ .kfree ∧ x ≠ .kfree ∧ x.uses = (s.pc p).uses ∧ x.closes = (s.pc p).closes ∧
      x.closed = (s.pc p).closed := by
  cases h with
  | stored hpc | refused hpc | full hpc | killed hpc | empty hpc | copy hpc | copied hpc =>
    rw [hpc]
    exact ⟨Pc.noConfusion, Pc.noConfusion, Pc.noConfusion, rfl, rfl, rfl⟩

theorem Wakes.ends {chan : Chan} {y : Pc} (h : Wakes x chan y) :
    wake chan x = x ∧ x ≠ .idle ∧ x ≠ .kfree ∧ y ≠ .kfree ∧ y.uses = x.uses ∧ y.closes = x.closes ∧ y.closed = x.closed := by
  cases h <;> exact ⟨rfl, Pc.noConfusion, Pc.noConfusion, Pc.noConfusion, rfl, rfl, rfl⟩

section

variable (h : Ends file pipe freed pc)

include h

/-- `fileclose` drops the last reference to an end and calls `pipeclose` -/
theorem Ends.close (hpc : pc p = .idle) (hfile : file w = true) (huse : ∀ q, (pc q).uses ≠ some w) :
    Ends (update file w false) pipe freed (update pc p (.closeAcquire w)) := by
  have hnone : ∀ q, (pc q).closes ≠ some w := fun q hq => by
    rw [(h.closer q w hq).1] at hfile
    cases hfile
  have hcloses : ∀ q v, (update pc p (.closeAcquire w) q).closes = some v ↔
      (q = p ∧ v = w) ∨ (pc q).closes = some v := fun q v => by
    by_cases hq : q = p
    · rw [hq, update_self, hpc]
      simp [Pc.closes, eq_comm]
    · rw [update_of_ne hq]
      simp [hq]
  obtain ⟨hfreed, hkfree⟩ := h.alive_of_file hfile
  refine ⟨fun q v hq => ?_, fun q v hq => ?_, fun v => ?_, fun q hq => ?_, fun hf => absurd hfreed hf,
    fun hover => absurd hover (h.not_over hfile)⟩
  · obtain ⟨-, hq⟩ := some_of_update hq rfl
    rw [update_of_ne fun hvw : v = w => huse q (hvw ▸ hq)]
    exact h.user q v hq
  · rcases (hcloses q v).1 hq with ⟨rfl, rfl⟩ | hq
    · refine ⟨update_self v false file, fun q' hq' => ?_⟩
      exact ((hcloses q' v).1 hq').elim And.left fun hc => absurd hc (hnone q')
    · have hv : v ≠ w := fun hvw => hnone q (hvw ▸ hq)
      refine ⟨(update_of_ne hv false file).trans (h.closer q v hq).1, fun q' hq' => ?_⟩
      exact ((hcloses q' v).1 hq').elim (fun hc => absurd hc.2 hv) ((h.closer q v hq).2 q')
  · simp only [hcloses]
    by_cases hv : v = w
    · subst hv
      exact ⟨fun _ => .inr ⟨p, .inl ⟨rfl, rfl⟩⟩, fun _ => (h.flag v).2 (.inl hfile)⟩
    · rw [update_of_ne hv, h.flag v]
      exact or_congr Iff.rfl (exists_congr fun q => ⟨.inr, fun hc => hc.resolve_left fun hc => hv hc.2⟩)
  · exact absurd hq (not_kfree Pc.noConfusion hkfree q)

/-- `pipeclose` clears its flag -/
theorem Ends.clear (hpc : pc p = .closeFlag w) :
    Ends file (pipe.close w) freed (update pc p (.closeWake w)) := by
  have hp : (pc p).closes = some w := by rw [hpc]; rfl
  obtain ⟨hfile, honly⟩ := h.closer p w hp
  obtain ⟨hfreed, hkfree⟩ := h.alive (p := p) (by rw [hpc]; exact Pc.noConfusion) (by rw [hpc]; exact Pc.noConfusion)
  have hcloses : ∀ q v, (update pc p (.closeWake w) q).closes = some v ↔ v ≠ w ∧ (pc q).closes = some v := fun q v => by
    by_cases hq : q = p
    · rw [hq, update_self, hp]
      simp [Pc.closes, eq_comm]
    · rw [update_of_ne hq]
      refine ⟨fun hv => ⟨fun hvw => hq (honly q (hvw ▸ hv)), hv⟩, And.right⟩
  have hopen : ∀ v, (pipe.close w).isopen v = true ↔ v ≠ w ∧ pipe.isopen v = true := fun v => by
    cases w <;> cases v <;> simp [Pipe.close, Pipe.isopen]
  refine ⟨fun q v hq => ?_, fun q v hq => ?_, fun v => ?_, fun q hq => ?_, fun hf => absurd hfreed hf, fun _ => .inr ⟨p, ?_⟩⟩
  · exact h.user q v (some_of_update hq rfl).2
  · obtain ⟨hv, hq⟩ := (hcloses q v).1 hq
    exact ⟨(h.closer q v hq).1, fun q' hq' => (h.closer q v hq).2 q' ((hcloses q' v).1 hq').2⟩
  · simp only [hopen, hcloses, h.flag v]
    constructor
    · rintro ⟨hv, hf | ⟨q, hq⟩⟩
      · exact .inl hf
      · exact .inr ⟨q, hv, hq⟩
    · rintro (hf | ⟨q, hv, hq⟩)
      · refine ⟨fun hvw => ?_, .inl hf⟩
        rw [hvw, hfile] at hf
        cases hf
      · exact ⟨hv, .inr ⟨q, hq⟩⟩
  · exact absurd hq (not_kfree Pc.noConfusion hkfree q)
  · rw [update_self]
    rfl

/-- `kill` -/
theorem Ends.rouse (p : P) : Ends file pipe freed (update pc p (rouse (pc p))) := by
  have hsame : ∀ q, update pc p (Pipes.rouse (pc p)) q = pc q ∨
      update pc p (Pipes.rouse (pc p)) q = Pipes.rouse (pc q) := fun q => by
    by_cases hq : q = p
    · exact .inr (by rw [hq, update_self])
    · exact .inl (update_of_ne hq _ _)
  refine h.map (fun q w hq => h.user q w ?_) (fun q => ?_) (fun q => ?_) (fun q hq => ?_) fun q => .inr fun hq => ?_
  all_goals rcases hsame q with he | he
  · rwa [he] at hq
  · rwa [he, uses_rouse] at hq
  · rw [he]
  · rw [he]
    cases pc q <;> rfl
  · rw [he]
  · rw [he]
    cases pc q <;> rfl
  · rwa [he] at hq
  · rw [he] at hq
    cases hy : pc q <;> rw [hy] at hq <;> first | rfl | cases hq
  · rw [he, hq]
  · rw [he, hq]
    rfl

omit [DecidableEq P] in
/-- only the flags matter -/
theorem Ends.congr {pipe' : Pipe} (hread : pipe'.readopen = pipe.readopen)
    (hwrite : pipe'.writeopen = pipe.writeopen) : Ends file pipe' freed pc := by
  have hopen : ∀ w, pipe'.isopen w = pipe.isopen w := fun w => by
    cases w
    · exact hread
    · exact hwrite
  have hover : pipe'.Over ↔ pipe.Over := by rw [Pipe.Over, Pipe.Over, hread, hwrite]
  refine ⟨h.user, h.closer, fun w => by rw [hopen, h.flag w], fun p hp => ?_, fun hf => ?_, fun ho => h.last (hover.1 ho)⟩
  · rw [hover]
    exact h.page p hp
  · rw [hover]
    exact h.gone hf

omit [DecidableEq P] in
/-- with both flags cleared, the process that tests them is the only one left -/
theorem Ends.alone (hlock : ∀ q, (pc q).locked = true → q = p) (hpc : pc p = .closeTest)
    (hover : pipe.Over) (q : P) (hq : q ≠ p) : pc q = .idle := by
  have hfile : ∀ w, file w ≠ true := fun w hw => h.not_over hw hover
  have hkfree := (h.alive (p := p) (by rw [hpc]; exact Pc.noConfusion) (by rw [hpc]; exact Pc.noConfusion)).2 q
  have huser : ∀ w, (pc q).uses ≠ some w := fun w hw => hfile w (h.user q w hw)
  have hcloses : ∀ w, (pc q).closes ≠ some w := fun w hw => by
    have hflag := Pipe.over_iff.1 hover w
    rw [(h.flag w).2 (.inr ⟨q, hw⟩)] at hflag
    cases hflag
  have hunlocked : (pc q).locked ≠ true := fun hl => hq (hlock q hl)
  cases hy : pc q with
  | idle => rfl
  | kfree => exact absurd hy hkfree
  | closeAcquire w | closeFlag w => exact absurd (by rw [hy]; rfl) (hcloses w)
  | closeWake w => exact absurd (by rw [hy]; rfl) hunlocked
  | closeTest => exact absurd (by rw [hy]; rfl) hunlocked
  | full src n => exact absurd (by rw [hy]; rfl) (huser true)
  | copy n i => exact absurd (by rw [hy]; rfl) (huser false)
  | acquire c | loop c | sleep c | letGo c | switch c | asleep c | signal c | leave c =>
    exact absurd (by rw [hy]; rfl) (huser c.writable)

/-- the last process inside `pipeclose` is left alone with the page -/
theorem Ends.finish (hfreed : freed = 0) (hover : pipe.Over)
    (hidle : ∀ q, q ≠ p → pc q = .idle) : Ends file pipe freed (update pc p .kfree) := by
  have hothers : ∀ q, q ≠ p → update pc p .kfree q = .idle := fun q hq =>
    (update_of_ne hq _ _).trans (hidle q hq)
  have hnone : ∀ q w, (update pc p .kfree q).closes ≠ some w := fun q w hw => by
    by_cases hq : q = p
    · rw [hq, update_self] at hw
      cases hw
    · rw [hothers q hq] at hw
      cases hw
  refine ⟨fun q w hw => ?_, fun q w hw => absurd hw (hnone q w), fun w => ?_, fun q hq => ⟨hfreed, hover, fun q' hq' => ?_⟩,
    fun hf => absurd hfreed hf, fun _ => .inr ⟨p, by rw [update_self]; rfl⟩⟩
  · by_cases hq : q = p
    · rw [hq, update_self] at hw
      cases hw
    · rw [hothers q hq] at hw
      cases hw
  · have hflag := Pipe.over_iff.1 hover w
    refine ⟨fun ho => absurd (ho.symm.trans hflag) Bool.noConfusion, fun ho => ?_⟩
    rcases ho with hf | ⟨q, hq⟩
    · exact (h.flag w).2 (.inl hf)
    · exact absurd hq (hnone q w)
  · by_cases hqp : q = p
    · exact hothers q' (hqp ▸ hq')
    · rw [hothers q hqp] at hq
      cases hq

/-- the other end is still open -/
theorem Ends.retire (hpc : pc p = .closeTest) (hx : x = .idle) (hfreed : freed = 0)
    (hkfree : ∀ q, pc q ≠ .kfree) (hover : ¬ pipe.Over) : Ends file pipe freed (update pc p x) := by
  subst hx
  have hcloses : ∀ q, (update pc p .idle q).closes = (pc q).closes := fun q => by
    by_cases hq : q = p
    · rw [hq, update_self, hpc]
      rfl
    · rw [update_of_ne hq]
  refine ⟨fun q w hw => ?_, fun q w hq => ?_, fun w => ?_, fun q hq => ?_, fun hf => absurd hfreed hf,
    fun ho => absurd ho hover⟩
  · exact h.user q w (some_of_update hw rfl).2
  · simp only [hcloses] at hq ⊢
    exact h.closer q w hq
  · simp only [hcloses]
    exact h.flag w
  · exact absurd hq (not_kfree Pc.noConfusion hkfree q)

/-- `kfree` -/
theorem Ends.free (hpc : pc p = .kfree) : Ends file pipe (freed + 1) (update pc p .idle) := by
  obtain ⟨hfreed, hover, hidle⟩ := h.page p hpc
  have hall : ∀ q, update pc p .idle q = .idle := fun q => by
    by_cases hq : q = p
    · rw [hq, update_self]
    · rw [update_of_ne hq, hidle q hq]
  refine ⟨fun q w hw => ?_, fun q w hw => ?_, fun w => ?_, fun q hq => ?_, fun _ => ⟨by rw [hfreed], hover, hall⟩,
    fun _ => .inl (by rw [hfreed])⟩
  · rw [hall] at hw
    cases hw
  · rw [hall] at hw
    cases hw
  · have hflag := Pipe.over_iff.1 hover w
    refine ⟨fun ho => absurd (ho.symm.trans hflag) Bool.noConfusion, fun ho => ?_⟩
    rcases ho with hf | ⟨q, hq⟩
    · exact (h.flag w).2 (.inl hf)
    · rw [hall] at hq
      cases hq
  · rw [hall] at hq
    cases hq

end

end

/-- **Step lemma** for the ends and the page. -/
theorem ends_step (hinv : Inv s) (h : Ends s.file s.pipe s.freed s.pc) (hstep : Step s a t) :
    Ends t.file t.pipe t.freed t.pc := by
  cases hstep with
  | call hpc hfile =>
    refine h.goto (h.alive_of_file hfile) Pc.noConfusion (fun w hw => Option.some.inj hw ▸ hfile) ?_ ?_
    all_goals
      rw [hpc]
      rfl
  | close hpc hfile huse => exact h.close hpc hfile huse
  | @kill p => exact h.rouse p
  | acquire hpc | closeAcquire hpc | sleep hpc | letGo hpc | switch hpc =>
    exact h.move hpc Pc.noConfusion Pc.noConfusion Pc.noConfusion (.inl rfl) rfl rfl
  | inside hin =>
    obtain ⟨hidle, hkfree, hx, huses, hcloses, hclosed⟩ := hin.ends
    exact h.move rfl hidle hkfree hx (.inl huses) hcloses hclosed
  | @wakeup p chan x hwake =>
    obtain ⟨hself, hidle, hkfree, hx, huses, hcloses, hclosed⟩ := hwake.ends
    exact (h.wakeup chan).move hself hidle hkfree hx (.inl huses) hcloses hclosed
  | @store p b src n hpc =>
    have hsame : Ends s.file (s.pipe.store b) s.freed s.pc := h.congr rfl rfl
    exact hsame.move hpc Pc.noConfusion Pc.noConfusion Pc.noConfusion (.inl rfl) rfl rfl
  | @advance p n i hpc =>
    have hsame : Ends s.file s.pipe.advance s.freed s.pc := h.congr rfl rfl
    exact hsame.move hpc Pc.noConfusion Pc.noConfusion Pc.noConfusion (.inl rfl) rfl rfl
  | leave hpc => exact h.move hpc Pc.noConfusion Pc.noConfusion Pc.noConfusion (.inr rfl) rfl rfl
  | closeFlag hpc => exact h.clear hpc
  | @closeLast p hpc hread hwrite =>
    have hlock : ∀ q, (s.pc q).locked = true → q = p := fun q hq => hinv.lock.unique hq (by rw [hpc]; rfl)
    have hidle := h.alone hlock hpc ⟨hread, hwrite⟩
    obtain ⟨hfreed, -⟩ := h.alive (p := p) (by rw [hpc]; exact Pc.noConfusion) (by rw [hpc]; exact Pc.noConfusion)
    exact h.finish hfreed ⟨hread, hwrite⟩ hidle
  | @closeFirst p hpc hopen =>
    obtain ⟨hfreed, hkfree⟩ := h.alive (p := p) (by rw [hpc]; exact Pc.noConfusion) (by rw [hpc]; exact Pc.noConfusion)
    have hover : ¬ s.pipe.Over := fun hover => by
      rw [hover.1, hover.2] at hopen
      rcases hopen with hc | hc <;> cases hc
    exact h.retire hpc rfl hfreed hkfree hover
  | @kfree p hpc => exact h.free hpc

/-! ## All runs -/

omit [DecidableEq P] in
theorem Init.inv (h : Init s) : Inv s := by
  obtain ⟨hr, hw, -, -, hlock, hptable, hpc, -, -, hacc, hdel⟩ := h
  refine ⟨?_, ?_, fun p => by rw [hpc]; trivial, [], ?_, by rw [hacc, hdel]; rfl⟩
  · rw [hlock]
    exact .of_free fun p => by rw [hpc]; rfl
  · rw [hptable]
    exact .of_free fun p => by rw [hpc]; rfl
  · rw [hr, hw]
    exact Ring.Rep.new PIPESIZE _ _

omit [DecidableEq P] in
theorem Init.ends (h : Init s) : Ends s.file s.pipe s.freed s.pc := by
  obtain ⟨-, -, hread, hwrite, -, -, hpc, hfile, hfreed, -, -⟩ := h
  refine ⟨fun p w _ => hfile w, fun p w hp => ?_, fun w => ⟨fun _ => .inl (hfile w), fun _ => ?_⟩, fun p hp => ?_,
    fun hf => absurd hfreed hf, fun hover => ?_⟩
  · rw [hpc] at hp
    cases hp
  · cases w
    · exact hread
    · exact hwrite
  · rw [hpc] at hp
    cases hp
  · rw [hover.1] at hread
    cases hread

variable [Fintype P]

theorem reach_inv (h : (machine P).Reach s) : Inv s ∧ Ends s.file s.pipe s.freed s.pc :=
  h.invariant (I := fun s => Inv s ∧ Ends s.file s.pipe s.freed s.pc) (fun _ h0 => ⟨Init.inv h0, Init.ends h0⟩)
    fun _ _ _ hs hnext => ⟨inv_step hs.1 (step_cases hnext), ends_step hs.1 hs.2 (step_cases hnext)⟩

/-- **A pipe is a FIFO byte stream.** In every state of every run: what was delivered is a prefix of what was accepted;
the difference of the counters is the number of bytes between them, at most PIPESIZE; a `piperead` of n > 0 bytes that is
about to return 0 finds no byte left and the write end closed; and the page is freed at most once, only after both ends
have been closed and every call on the pipe is over, and has been freed when that is so. -/
theorem pipe_fifo (h : (machine P).Reach s) :
    s.delivered <+: s.accepted ∧
      s.delivered.length + (s.pipe.nwrite - s.pipe.nread).toNat = s.accepted.length ∧
      (s.pipe.nwrite - s.pipe.nread).toNat ≤ PIPESIZE ∧
      (∀ p n, s.pc p = .leave (.read n) 0 → 0 < n → s.delivered = s.accepted ∧ s.pipe.writeopen = false) ∧
      s.freed ≤ 1 ∧ (s.freed = 1 ↔ (∀ w, s.file w = false) ∧ ∀ p, s.pc p = .idle) := by
  obtain ⟨hinv, hends⟩ := reach_inv h
  obtain ⟨q, hrep, hacc⟩ := hinv.ring
  have hcount := hrep.size (by decide)
  refine ⟨⟨q, hacc.symm⟩, ?_, hcount ▸ hrep.fits, fun p n hp hn => ?_, ?_, fun hf => ?_, fun ⟨hfile, hidle⟩ => ?_⟩
  · rw [hcount, hacc, List.length_append]
  · have hknow := hinv.knows p
    rw [hp] at hknow
    obtain ⟨hempty, hwrite⟩ := hknow rfl hn
    rw [(hrep.empty_iff (by decide)).1 hempty, List.append_nil] at hacc
    exact ⟨hacc.symm, hwrite⟩
  · by_cases hf : s.freed = 0
    · omega
    · exact (hends.gone hf).1.le
  · obtain ⟨-, hover, hidle⟩ := hends.gone (by omega)
    exact ⟨fun w => Bool.eq_false_iff.2 fun hw => hends.not_over hw hover, hidle⟩
  · have hover : s.pipe.Over := Pipe.over_iff.2 fun w => Bool.eq_false_iff.2 fun hw => by
      rcases (hends.flag w).1 hw with hf | ⟨p, hp⟩
      · rw [hfile w] at hf
        cases hf
      · rw [hidle p] at hp
        cases hp
    rcases hends.last hover with hf | ⟨p, hp⟩
    · exact hf
    · rw [hidle p] at hp
      cases hp

/-- a new pipe -/
def newPipe (P : Type) : St P where
  pipe := ⟨fun _ => 0, 0, 0, true, true⟩
  lock := none
  ptable := none
  pc _ := .idle
  killed _ := false
  file _ := true
  freed := 0
  accepted := []
  delivered := []

theorem newPipe_init (P : Type) : Init (newPipe P) :=
  ⟨rfl, rfl, rfl, rfl, rfl, rfl, fun _ => rfl, fun _ => rfl, rfl, rfl, rfl⟩

/-- p writes two bytes and closes its end, q reads one byte and closes its end -/
def twoBytes {P : Type} (p q : P) : List (Act P) :=
  [[.call p (.write [7, 8] 2)], .replicate 6 (.move p), [.call q (.read 1)], .replicate 6 (.move q),
    [.close p true], .replicate 4 (.move p), [.close q false], .replicate 5 (.move q)].flatten

/-- Of two bytes one is read, and closing both ends frees the page. -/
theorem pipe_fifo_two_bytes : ∃ s, (twoBytes 0 1).foldlM step (newPipe (Fin 2)) = some s ∧
    (s.accepted, s.delivered) = ([7, 8], [7]) ∧ s.delivered <+: s.accepted ∧ s.freed = 1 := by
  have hrun : ((twoBytes 0 1).foldlM step (newPipe (Fin 2))).map (fun s => ((s.accepted, s.delivered), s.file, s.pc)) =
      some (([7, 8], [7]), fun _ => false, fun _ => .idle) := by decide +kernel
  obtain ⟨s, hs, heq⟩ := Option.map_eq_some_iff.1 hrun
  have hreach : (machine (Fin 2)).Reach s := Reach.foldlM _ (.init (newPipe_init (Fin 2))) hs
  obtain ⟨hpre, -, -, -, -, hfreed⟩ := pipe_fifo hreach
  obtain ⟨hbytes, hrest⟩ := Prod.mk.inj heq
  obtain ⟨hfile, hpc⟩ := Prod.mk.inj hrest
  exact ⟨s, hs, hbytes, hpre, hfreed.2 ⟨fun w => congrFun hfile w, fun p => congrFun hpc p⟩⟩

end Xv6.Pipes
