/-
Pinned buffers: dirty, and not on the way to the disk.

`log_write` pins a buffer so that it stays in the cache until `commit` writes it. `Pins s ks`: the pinned buffers are
those of the blocks ks, one each.
- `Step.pinned`: only `log_write` pins a buffer, and only `bwrite` ends that;
- `Pins.keep`, `Pins.logWrite`, `Pins.bwrite`: what that does to the blocks pinned;
- `bget_none`: with nothing on the way to the disk, `bget` has no buffer exactly when the blocks pinned and the other
  buffers in use are as many as there are buffers.
-/
import Xv6.Bio.Cache

namespace Xv6.Bio

open Function

variable {n : ℕ} {P D : Type} {size : ℕ} {s t : St n P D} {a : Act n P D} {p q : P} {b b' : Fin n} {k : BitVec 32}
  {x : Pc n} {ks ks' : List (BitVec 32)}

def St.Pinned (s : St n P D) (b : Fin n) : Prop := (s.buf b).dirty = true ∧ ∀ q, s.pc q ≠ .write b

/-- the buffer handed to `log_write` -/
def Act.logs : Act n P D → Option (Fin n)
  | .logWrite _ b => some b
  | _ => none

/-- the buffer handed to `bwrite` -/
def Act.writes : Act n P D → Option (Fin n)
  | .bwrite _ b => some b
  | _ => none

def Act.actor : Act n P D → P
  | .bread p _ | .move p | .modify p _ _ | .logWrite p _ | .bwrite p _ | .brelse p _ => p

section

variable [DecidableEq P]

/-- only the acting process moves -/
theorem Step.pc_other (hstep : Step s a t) (hq : q ≠ a.actor) : t.pc q = s.pc q := by
  cases hstep with
  | modify | logWrite => rfl
  | _ => exact update_of_ne hq ..

/-- a lock is released by `brelse` only -/
theorem Step.lock_held (hstep : Step s a t) (hlock : s.lock b = some p) (ha : a ≠ .brelse p b) : t.lock b = some p := by
  cases hstep with
  | @lock q k b' hpc hfree =>
    have hne : b ≠ b' := by
      intro hb
      rw [hb, hfree] at hlock
      cases hlock
    exact (update_of_ne hne ..).trans hlock
  | @brelse q b' hpc hlock' =>
    have hne : b ≠ b' := by
      intro hb
      subst hb
      cases hlock.symm.trans hlock'
      exact ha rfl
    exact (update_of_ne hne ..).trans hlock
  | _ => exact hlock

/-- a buffer in somebody's hands stays there, with its label, until `brelse` -/
theorem Step.held [Fintype P] (hstep : Step s a t) (hrefs : Refs s) (hlock : s.lock b = some p) (ha : a ≠ .brelse p b) :
    t.lock b = some p ∧ (t.buf b).label = (s.buf b).label := by
  refine ⟨hstep.lock_held hlock ha, hstep.label (.inl (Nat.pos_of_ne_zero fun hzero => ?_))⟩
  exact Option.some_ne_none p (hlock.symm.trans (hrefs.unused hzero).1)

/-- only `bwrite` begins a write -/
theorem Step.write_old (hstep : Step s a t) (ha : ∀ b, a ≠ .bwrite q b) (hq : t.pc q = .write b) : s.pc q = .write b := by
  cases hstep with
  | modify | logWrite => exact hq
  | @bwrite p b' =>
    simp only [update_apply] at hq
    split_ifs at hq with hqp
    · exact (ha b' (by rw [hqp])).elim
    · exact hq
  | @fetch p _ x hpc | @flush p _ x hpc =>
    simp only [update_apply] at hq
    split_ifs at hq with hqp
    · cases hp : s.pc p <;> rw [hp] at hpc <;> cases hpc <;> cases hq
    · exact hq
  | _ =>
    simp only [update_apply] at hq
    split_ifs at hq
    exact hq

/-! ## Pinned buffers -/

/-- a step that marks no buffer and does not concern the writing of one -/
theorem pinned_congr (hdirty : ∀ b, (t.buf b).dirty = (s.buf b).dirty) (hpc : t.pc = update s.pc p x)
    (hold : s.pc p ≠ .write b) (hnew : x ≠ .write b) : t.Pinned b ↔ s.Pinned b := by
  have hpcs : ∀ q, t.pc q ≠ .write b ↔ s.pc q ≠ .write b := by
    intro q
    rw [hpc, update_apply]
    split_ifs with hq
    · rw [hq]
      exact iff_of_true hnew hold
    · rfl
  unfold St.Pinned
  rw [hdirty, forall_congr' hpcs]

/-- **Pins.** `log_write` pins its buffer, `bwrite` unpins it, and nothing else does. -/
theorem Step.pinned [Fintype P] (hstep : Step s a t) (h : Inv s) (b : Fin n) :
    t.Pinned b ↔ (s.Pinned b ∨ a.logs = some b) ∧ a.writes ≠ some b := by
  -- the holder of a buffer is the only one that can be writing it
  have hidle : ∀ {p b}, s.pc p = .idle → s.lock b = some p → ∀ q, s.pc q ≠ .write b := by
    intro p b hpc hlock q hq
    have := h.refs.holder q b (by rw [hq]; rfl)
    rw [hlock] at this
    cases this
    cases hpc.symm.trans hq
  have hplain : a.logs = none → a.writes = none → ((s.Pinned b ∨ a.logs = some b) ∧ a.writes ≠ some b ↔ s.Pinned b) := by
    intro hlogs hwrites
    rw [hlogs, hwrites]
    simp
  cases hstep with
  | bread hpc | valid hpc | invalid hpc | got hpc | lock hpc | brelse hpc =>
    rw [hplain rfl rfl]
    exact pinned_congr (fun _ => rfl) rfl (by rw [hpc]; nofun) nofun
  | hit hpc | relse hpc =>
    rw [hplain rfl rfl]
    exact pinned_congr (update_keep Buf.dirty (by rfl)) rfl (by rw [hpc]; nofun) nofun
  | recycle hpc _ hvictim =>
    rw [hplain rfl rfl]
    exact pinned_congr (update_keep Buf.dirty (St.victim_some hvictim).2.symm) rfl (by rw [hpc]; nofun) nofun
  | @fetch p b₀ x hpc _ hdirty =>
    rw [hplain rfl rfl]
    cases hp : s.pc p <;> rw [hp] at hpc <;> cases hpc
    · exact pinned_congr (update_keep Buf.dirty (by rfl)) rfl (by rw [hp]; nofun) nofun
    · exact (Bool.false_ne_true (hdirty.symm.trans (h.data.writing p b₀ hp))).elim
  | @flush p b₀ x hpc hdirty =>
    rw [hplain rfl rfl]
    cases hp : s.pc p <;> rw [hp] at hpc <;> cases hpc
    · exact (Bool.false_ne_true ((h.data.reading p b₀ _ hp).symm.trans (h.data.dirty b₀ hdirty).2)).elim
    · by_cases hb : b = b₀
      · subst hb
        refine iff_of_false (fun hpin => ?_) fun hpin => hpin.2 p hp
        have := hpin.1
        simp only [update_self] at this
        cases this
      · simp only [St.Pinned, update_of_ne hb]
        refine and_congr_right fun _ => forall_congr' fun q => ?_
        rw [update_apply]
        split_ifs with hq
        · rw [hq, hp]
          exact iff_of_true nofun fun heq => hb (Pc.write.inj heq).symm
        · rfl
  | modify hpc =>
    rw [hplain rfl rfl]
    simp only [St.Pinned]
    rw [update_keep Buf.dirty (by rfl) b]
  | @logWrite p b₀ hpc hlock =>
    by_cases hb : b = b₀
    · subst hb
      refine iff_of_true ⟨?_, hidle hpc hlock⟩ ⟨.inr rfl, nofun⟩
      simp only [update_self]
    · have hlogs : (Act.logWrite p b₀ : Act n P D).logs ≠ some b := fun heq => hb (Option.some.inj heq).symm
      simp only [St.Pinned, update_of_ne hb, hlogs, or_false]
      exact ⟨fun hpin => ⟨hpin, nofun⟩, fun hpin => hpin.1⟩
  | @bwrite p b₀ hpc hlock =>
    by_cases hb : b = b₀
    · subst hb
      refine iff_of_false (fun hpin => hpin.2 p ?_) fun hpin => hpin.2 rfl
      simp only [update_self]
    · have hwrites : (Act.bwrite p b₀ : Act n P D).writes ≠ some b := fun heq => hb (Option.some.inj heq).symm
      have hlogs : (Act.bwrite p b₀ : Act n P D).logs ≠ some b := nofun
      simp only [St.Pinned, update_of_ne hb, hlogs, or_false]
      rw [and_iff_left hwrites]
      refine and_congr_right fun _ => forall_congr' fun q => ?_
      rw [update_apply]
      split_ifs with hq
      · rw [hq, hpc]
        exact iff_of_true (fun heq => hb (Pc.write.inj heq).symm) nofun
      · rfl

/-- the pinned buffers are those of the blocks ks -/
structure Pins (s : St n P D) (ks : List (BitVec 32)) : Prop where
  cached : ∀ k ∈ ks, ∃ b, (s.buf b).Holds k ∧ s.Pinned b
  pinned : ∀ b, s.Pinned b → ∃ k ∈ ks, (s.buf b).Holds k

/-- a pinned buffer keeps its label -/
theorem Step.pinned_holds (hstep : Step s a t) (hb : s.Pinned b) : (t.buf b).Holds k ↔ (s.buf b).Holds k :=
  Buf.holds_congr (hstep.label (.inr hb.1))

theorem Pins.keep [Fintype P] (h : Pins s ks) (hinv : Inv s) (hstep : Step s a t) (hlogs : a.logs = none)
    (hwrites : a.writes = none) : Pins t ks := by
  have hpin : ∀ b, t.Pinned b ↔ s.Pinned b := by
    intro b
    rw [hstep.pinned hinv b, hlogs, hwrites]
    simp
  refine ⟨fun k hk => ?_, fun b hb => ?_⟩
  · obtain ⟨b, hholds, hb⟩ := h.cached k hk
    exact ⟨b, (hstep.pinned_holds hb).2 hholds, (hpin b).2 hb⟩
  · have hb := (hpin b).1 hb
    obtain ⟨k, hk, hholds⟩ := h.pinned b hb
    exact ⟨k, hk, (hstep.pinned_holds hb).2 hholds⟩

theorem Pins.logWrite [Fintype P] (h : Pins s ks) (hinv : Inv s) (hstep : Step s (.logWrite p b) t)
    (hks : ∀ k, k ∈ ks' ↔ k ∈ ks ∨ k = (s.buf b).blockno) : Pins t ks' := by
  have hpin : ∀ b', t.Pinned b' ↔ s.Pinned b' ∨ b = b' := by
    intro b'
    rw [hstep.pinned hinv b']
    simp [Act.logs, Act.writes]
  have hlabel : (t.buf b).Holds (s.buf b).blockno := by
    have hlock : s.lock b = some p := by
      cases hstep
      assumption
    have hb : (t.buf b).label = (s.buf b).label := by
      cases hstep
      exact update_keep Buf.label (by rfl) b
    exact (Buf.holds_congr hb).2 ⟨hinv.labels.dev b p hlock, rfl⟩
  refine ⟨fun k hk => ?_, fun b' hb => ?_⟩
  · rcases (hks k).1 hk with hk | rfl
    · obtain ⟨b', hholds, hb⟩ := h.cached k hk
      exact ⟨b', (hstep.pinned_holds hb).2 hholds, (hpin b').2 (.inl hb)⟩
    · exact ⟨b, hlabel, (hpin b).2 (.inr rfl)⟩
  · rcases (hpin b').1 hb with hb | rfl
    · obtain ⟨k, hk, hholds⟩ := h.pinned b' hb
      exact ⟨k, (hks k).2 (.inl hk), (hstep.pinned_holds hb).2 hholds⟩
    · exact ⟨_, (hks _).2 (.inr rfl), hlabel⟩

theorem Pins.bwrite [Fintype P] (h : Pins s ks) (hinv : Inv s) (hstep : Step s (.bwrite p b) t)
    (hks : ∀ k, k ∈ ks' ↔ k ∈ ks ∧ k ≠ (s.buf b).blockno) : Pins t ks' := by
  have hpin : ∀ b', t.Pinned b' ↔ s.Pinned b' ∧ b ≠ b' := by
    intro b'
    rw [hstep.pinned hinv b']
    simp [Act.logs, Act.writes]
  have hholds₀ : (s.buf b).Holds (s.buf b).blockno := by
    cases hstep with
    | bwrite hpc hlock => exact ⟨hinv.labels.dev b p hlock, rfl⟩
  refine ⟨fun k hk => ?_, fun b' hb => ?_⟩
  · obtain ⟨hk, hne⟩ := (hks k).1 hk
    obtain ⟨b', hholds, hb⟩ := h.cached k hk
    refine ⟨b', (hstep.pinned_holds hb).2 hholds, (hpin b').2 ⟨hb, ?_⟩⟩
    rintro rfl
    exact hne hholds.2.symm
  · obtain ⟨hb, hbb⟩ := (hpin b').1 hb
    obtain ⟨k, hk, hholds⟩ := h.pinned b' hb
    refine ⟨k, (hks k).2 ⟨hk, fun heq => hbb ?_⟩, (hstep.pinned_holds hb).2 hholds⟩
    exact hinv.labels.uniq b b' k (heq ▸ hholds₀) hholds

end

/-! ## Room -/

/-- q holds b, waits for it, or is about to give up its reference to it -/
def St.Uses (s : St n P D) (q : P) (b : Fin n) : Prop := s.lock b = some q ∨ (s.pc q).refs = some b

instance [DecidableEq P] (s : St n P D) (q : P) (b : Fin n) : Decidable (s.Uses q b) := inferInstanceAs (Decidable (_ ∨ _))

theorem Refs.refcnt_pos [Fintype P] (h : Refs s) : (s.buf b).refcnt ≠ 0 ↔ ∃ q, s.Uses q b := by
  refine ⟨fun hb => ?_, fun ⟨q, hq⟩ hb => ?_⟩
  · by_contra hno
    have hno : ∀ q, ¬ s.Uses q b := fun q hq => hno ⟨q, hq⟩
    refine hb ?_
    have hfree : s.lock b = none := Option.eq_none_iff_forall_ne_some.2 fun q hq => hno q (.inl hq)
    have hsum : ∑ q, (s.pc q).count b = 0 := Finset.sum_eq_zero fun q _ => if_neg fun hq => hno q (.inr hq)
    rw [h.refcnt b, if_pos hfree, hsum]
  · obtain ⟨hfree, hrefs⟩ := h.unused hb
    rcases hq with hq | hq
    · exact Option.some_ne_none q (hq.symm.trans hfree)
    · exact hrefs q hq

/-- `bget` has no buffer for k: it is not cached, and no buffer is both free and clean -/
theorem Labels.bget_none (h : Labels s) : s.bget ROOTDEV k = none ↔
    (∀ b, ¬ (s.buf b).Holds k) ∧ ∀ b, (s.buf b).refcnt ≠ 0 ∨ (s.buf b).dirty = true := by
  have hvictim : s.victim = none ↔ ∀ b, (s.buf b).refcnt ≠ 0 ∨ (s.buf b).dirty = true := by
    obtain ⟨l, hring, hall⟩ := h.whole
    rw [St.victim, hring.find_prev (Nat.lt_succ_of_le (Whole.length hring)), List.find?_eq_none]
    simp only [List.mem_reverse, decide_eq_true_eq, not_and_or, Bool.not_eq_false]
    exact ⟨fun hl b => hl b (hall b), fun hl b _ => hl b⟩
  rw [← hvictim, St.bget]
  cases hcached : s.cached ROOTDEV k with
  | some b => exact iff_of_false nofun fun hno => hno.1 b (St.cached_some hcached)
  | none =>
    have hno := h.cached_none hcached
    cases s.victim with
    | some b => exact iff_of_false nofun nofun
    | none => exact iff_of_true rfl ⟨hno, rfl⟩

/-- the buffers in use, other than those of the blocks ks -/
def St.inUse [Fintype P] [DecidableEq P] (s : St n P D) (ks : List (BitVec 32)) : Finset (Fin n) :=
  Finset.univ.filter fun b => (∃ q, s.Uses q b) ∧ ∀ k ∈ ks, ¬ (s.buf b).Holds k

/-- **Room.** While nothing is on its way to the disk, `bget` has no buffer for a block exactly when the block is not
cached and the pinned blocks and the other buffers in use fill the cache. -/
theorem Pins.bget_none [Fintype P] [DecidableEq P] (h : Pins s ks) (hinv : Inv s) (hks : ks.Nodup)
    (hwrites : ∀ q b, s.pc q ≠ .write b) : s.bget ROOTDEV k = none ↔
      (∀ b, ¬ (s.buf b).Holds k) ∧ ks.length + (s.inUse ks).card = n := by
  have hdirty : ∀ b, (s.buf b).dirty = true ↔ ∃ k ∈ ks, (s.buf b).Holds k := by
    intro b
    refine ⟨fun hb => h.pinned b ⟨hb, fun q => hwrites q b⟩, fun ⟨k, hk, hholds⟩ => ?_⟩
    obtain ⟨b', hholds', hb'⟩ := h.cached k hk
    rw [hinv.labels.uniq b b' k hholds hholds']
    exact hb'.1
  -- the pinned buffers, one for each block
  have hcard : (Finset.univ.filter fun b => (s.buf b).dirty = true).card = ks.length := by
    rw [← List.toFinset_card_of_nodup hks]
    refine Finset.card_bij (fun b _ => (s.buf b).blockno) (fun b hb => ?_) (fun b hb b' hb' heq => ?_) fun k hk => ?_
    · obtain ⟨k, hk, -, hno⟩ := (hdirty b).1 (Finset.mem_filter.1 hb).2
      rw [List.mem_toFinset, hno]
      exact hk
    · obtain ⟨k, -, hk⟩ := (hdirty b).1 (Finset.mem_filter.1 hb).2
      obtain ⟨k', -, hk'⟩ := (hdirty b').1 (Finset.mem_filter.1 hb').2
      rw [hk.2, hk'.2] at heq
      exact hinv.labels.uniq b b' k hk (heq ▸ hk')
    · obtain ⟨b, hholds, hb⟩ := h.cached k (List.mem_toFinset.1 hk)
      exact ⟨b, Finset.mem_filter.2 ⟨Finset.mem_univ b, hb.1⟩, hholds.2⟩
  have hdisj : Disjoint (Finset.univ.filter fun b => (s.buf b).dirty = true) (s.inUse ks) := by
    rw [Finset.disjoint_left]
    intro b hb huse
    obtain ⟨k, hk, hholds⟩ := (hdirty b).1 (Finset.mem_filter.1 hb).2
    exact (Finset.mem_filter.1 huse).2.2 k hk hholds
  rw [hinv.labels.bget_none, ← hcard, ← Finset.card_union_of_disjoint hdisj]
  refine and_congr_right fun _ => ?_
  have hfull := Finset.card_eq_iff_eq_univ ((Finset.univ.filter fun b => (s.buf b).dirty = true) ∪ s.inUse ks)
  rw [Fintype.card_fin] at hfull
  rw [hfull, Finset.eq_univ_iff_forall]
  refine forall_congr' fun b => ?_
  rw [Finset.mem_union, Finset.mem_filter, St.inUse, Finset.mem_filter, hinv.refs.refcnt_pos, hdirty]
  simp only [Finset.mem_univ, true_and]
  by_cases hb : ∃ k ∈ ks, (s.buf b).Holds k
  · exact iff_of_true (.inr hb) (.inl hb)
  · have hno : ∀ k ∈ ks, ¬ (s.buf b).Holds k := fun k hk hholds => hb ⟨k, hk, hholds⟩
    rw [or_iff_left hb, or_iff_right hb, and_iff_left hno]

end Xv6.Bio
