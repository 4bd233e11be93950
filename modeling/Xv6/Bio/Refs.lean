/-
References to buffers.

A process refers to a buffer from the critical section of `bget` that found it to the one of `brelse`; in between it
waits for the sleep lock, holds it, or has just released it. `Refs`: refcnt counts these processes.
- `Refs.step`: every step keeps this;
- `Refs.unused`: a buffer with refcnt 0 is neither locked nor waited for.
-/
import Xv6.Bio.Model
import Xv6.Core.Lock

namespace Xv6.Bio

variable {n : ℕ} {P D : Type} {size : ℕ} {s t : St n P D} {a : Act n P D} {p q : P} {b b' : Fin n} {k : BitVec 32}

theorem St.victim_some (h : s.victim = some b) : (s.buf b).refcnt = 0 ∧ (s.buf b).dirty = false := by
  unfold St.victim at h
  simpa using Dll.find_some h

theorem St.cached_some (h : s.cached ROOTDEV k = some b) : (s.buf b).Holds k := by
  unfold St.cached at h
  simpa [Buf.Holds] using Dll.find_some h

/-- refers to a buffer without holding its lock -/
def Pc.refs : Pc n → Option (Fin n)
  | .lock b _ | .relse b => some b
  | _ => none

/-- runs with the lock of this buffer -/
def Pc.holds : Pc n → Option (Fin n)
  | .check b _ | .read b _ | .got b _ | .write b => some b
  | _ => none

/-- one for each process at a point that refers to b -/
def Pc.count (b : Fin n) (x : Pc n) : ℕ := if x.refs = some b then 1 else 0

theorem Pc.disk_refs {x y : Pc n} (h : x.disk = some (b, y)) : y.refs = x.refs := by
  cases x <;> cases h <;> rfl

theorem Pc.disk_holds {x y : Pc n} (h : x.disk = some (b, y)) (hy : y.holds = some b') : x.holds = some b' := by
  cases x with
  | read => cases h; exact hy
  | write => cases h; cases hy
  | _ => cases h

structure Refs [Fintype P] (s : St n P D) : Prop where
  refcnt : ∀ b, (s.buf b).refcnt = (if s.lock b = none then 0 else 1) + ∑ p, (s.pc p).count b
  holder : ∀ p b, (s.pc p).holds = some b → s.lock b = some p

section

variable [Fintype P] [DecidableEq P]

namespace Refs

omit [DecidableEq P] in
/-- a buffer with refcnt 0 is in nobody's hands -/
theorem unused (h : Refs s) (hb : (s.buf b).refcnt = 0) : s.lock b = none ∧ ∀ p, (s.pc p).refs ≠ some b := by
  have hsum := h.refcnt b
  rw [hb] at hsum
  refine ⟨?_, fun p hp => ?_⟩
  · by_contra hlock
    rw [if_neg hlock] at hsum
    omega
  · have := Finset.single_le_sum (f := fun p => (s.pc p).count b) (fun _ _ => Nat.zero_le _) (Finset.mem_univ p)
    simp only [Pc.count, hp, if_true] at this hsum
    omega

omit [DecidableEq P] in
/-- the buffers that other processes run with -/
theorem holds_ne (h : Refs s) (hq : (s.pc q).holds = some b') (hqp : q ≠ p) (hlock : s.lock b = some p) : b' ≠ b := by
  rintro rfl
  exact hqp (Option.some.inj ((h.holder q b' hq).symm.trans hlock))

/-- one process goes on, and one buffer's refcnt and lock with it -/
theorem update {x : Pc n} (h : Refs s) (hbuf : ∀ b', b' ≠ b → (t.buf b').refcnt = (s.buf b').refcnt)
    (hlock : ∀ b', b' ≠ b → t.lock b' = s.lock b') (hpc : t.pc = Function.update s.pc p x)
    (hcnt : (t.buf b).refcnt + (if s.lock b = none then 0 else 1) + (s.pc p).count b =
      (s.buf b).refcnt + (if t.lock b = none then 0 else 1) + x.count b)
    (hrefs : ∀ b', b' ≠ b → (x.refs = some b' ↔ (s.pc p).refs = some b'))
    (hholds : ∀ b', x.holds = some b' → t.lock b' = some p)
    (hothers : t.lock b = s.lock b ∨ ∀ q, q ≠ p → (s.pc q).holds ≠ some b) : Refs t := by
  refine ⟨fun b' => ?_, fun q b' hq => ?_⟩
  · have hsum := sum_update (Pc.count b') s.pc p x
    have hold := h.refcnt b'
    rw [hpc]
    by_cases hb : b' = b
    · subst hb
      omega
    · have hcount : x.count b' = (s.pc p).count b' := by
        unfold Pc.count
        rw [if_congr (hrefs b' hb) rfl rfl]
      rw [hbuf b' hb, hlock b' hb]
      omega
  · rw [hpc, Function.update_apply] at hq
    split_ifs at hq with hqp
    · rw [hqp]
      exact hholds b' hq
    · have hold := h.holder q b' hq
      by_cases hb : b' = b
      · subst hb
        rcases hothers with heq | hno
        · rw [heq, hold]
        · exact (hno q hqp hq).elim
      · rw [hlock b' hb, hold]

/-- a process goes on without taking or giving a reference or a lock -/
theorem goto {x : Pc n} (h : Refs s) (hbuf : ∀ b, (t.buf b).refcnt = (s.buf b).refcnt) (hlock : t.lock = s.lock)
    (hpc : t.pc = Function.update s.pc p x) (hrefs : x.refs = (s.pc p).refs)
    (hholds : ∀ b, x.holds = some b → s.lock b = some p) : Refs t := by
  refine ⟨fun b => ?_, fun q b hq => ?_⟩
  · have hsum := sum_update (Pc.count b) s.pc p x
    have hcount : x.count b = (s.pc p).count b := by rw [Pc.count, Pc.count, hrefs]
    have hold := h.refcnt b
    rw [hpc, hbuf, hlock]
    omega
  · rw [hpc, Function.update_apply] at hq
    rw [hlock]
    split_ifs at hq with hqp
    · rw [hqp]
      exact hholds b hq
    · exact h.holder q b hq

/-- **References.** Every step keeps the count. -/
theorem step (h : Refs s) (hstep : Step s a t) : Refs t := by
  cases hstep with
  | bread hpc | got hpc => exact h.goto (fun _ => rfl) rfl rfl (by rw [hpc]; rfl) nofun
  | @hit p k b hpc hcached =>
    refine h.update (b := b) (fun b' hb => congrArg _ (Function.update_of_ne hb ..)) (fun _ _ => rfl) rfl ?_ (fun b' hb => ?_)
      nofun (.inl rfl)
    · simp only [Function.update_self, hpc, Pc.count, Pc.refs, reduceCtorEq, if_false, if_true]
      omega
    · simp [hpc, Pc.refs, Ne.symm hb]
  | @recycle p k b hpc hcached hvictim =>
    obtain ⟨hzero, -⟩ := St.victim_some hvictim
    refine h.update (b := b) (fun b' hb => congrArg _ (Function.update_of_ne hb ..)) (fun _ _ => rfl) rfl ?_ (fun b' hb => ?_)
      nofun (.inl rfl)
    · simp [hpc, Pc.count, Pc.refs, hzero, (h.unused hzero).1]
    · simp [hpc, Pc.refs, Ne.symm hb]
  | @lock p k b hpc hfree =>
    refine h.update (b := b) (fun _ _ => rfl) (fun b' hb => Function.update_of_ne hb ..) rfl ?_ (fun b' hb => ?_) ?_
      (.inr fun q _ hq => ?_)
    · simp [hpc, Pc.count, Pc.refs, hfree]
    · simp [hpc, Pc.refs, Ne.symm hb]
    · intro b' hb'
      cases hb'
      exact Function.update_self ..
    · have := h.holder q b hq
      rw [hfree] at this
      cases this
  | valid hpc | invalid hpc =>
    refine h.goto (fun _ => rfl) rfl rfl (by rw [hpc]; rfl) fun b' hb' => ?_
    cases hb'
    exact h.holder _ _ (by rw [hpc]; rfl)
  | fetch hpc | flush hpc =>
    refine h.goto (update_keep Buf.refcnt rfl) rfl rfl (Pc.disk_refs hpc) fun b' hb' => h.holder _ _ ?_
    exact Pc.disk_holds hpc hb'
  | @relse p b links hpc hlinks =>
    refine h.update (b := b) (fun b' hb => congrArg _ (Function.update_of_ne hb ..)) (fun _ _ => rfl) rfl ?_ (fun b' hb => ?_)
      nofun (.inl rfl)
    · have hpos : (s.buf b).refcnt ≠ 0 := fun h0 => (h.unused h0).2 p (by rw [hpc]; rfl)
      simp only [Function.update_self, hpc, Pc.count, Pc.refs, reduceCtorEq, if_false, if_true]
      omega
    · simp [hpc, Pc.refs, Ne.symm hb]
  | modify hpc | logWrite hpc =>
    refine ⟨fun b => ?_, h.holder⟩
    rw [← h.refcnt b]
    exact update_keep Buf.refcnt (by rfl) b
  | bwrite hpc hlock =>
    refine h.goto (update_keep Buf.refcnt rfl) rfl rfl (by rw [hpc]; rfl) fun b' hb' => ?_
    cases hb'
    exact hlock
  | @brelse p b hpc hlock =>
    refine h.update (b := b) (fun _ _ => rfl) (fun b' hb => Function.update_of_ne hb ..) rfl ?_ (fun b' hb => ?_) nofun
      (.inr fun q hqp hq => ?_)
    · simp [hpc, Pc.count, Pc.refs, hlock]
    · simp [hpc, Pc.refs, Ne.symm hb]
    · exact h.holds_ne hq hqp hlock rfl

omit [DecidableEq P] in
theorem init (h0 : Init s) : Refs s := by
  obtain ⟨-, hbuf, hlock, hpc, -, -⟩ := h0
  refine ⟨fun b => ?_, fun p b hp => ?_⟩
  · obtain ⟨d, hd⟩ := hbuf b
    simp [hd, hlock, hpc, Pc.count, Pc.refs]
  · rw [hpc] at hp
    cases hp

end Refs

end

end Xv6.Bio
