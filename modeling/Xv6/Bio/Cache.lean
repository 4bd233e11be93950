/-
The buffer cache as a map from block numbers to contents (`bio.c`).

`Labels`: the links form one circle through all buffers, and no two buffers are labelled with one block of the root
device. `Data`: a buffer that is valid holds what was last stored for its block, and so does the disk unless the
block's buffer is dirty; a dirty buffer is not recycled, so this survives any eviction.
- `buffer_cache`: in every reachable state, the list is well formed, labels are unique, a buffer in use or dirty keeps
  its label, and `bread` returns what was last stored.
-/
import Xv6.Bio.Refs

namespace Xv6.Bio

open Function

variable {n : ℕ} {P D : Type} {size : ℕ} {s t : St n P D} {a : Act n P D} {p q : P} {b b' : Fin n} {k : BitVec 32}
  {x : Pc n}

/-- the block a buffer is for -/
def Buf.label (y : Buf D) : BitVec 32 × BitVec 32 := (y.dev, y.blockno)

theorem Buf.holds_congr {y z : Buf D} (h : y.label = z.label) : y.Holds k ↔ z.Holds k := by
  obtain ⟨hdev, hno⟩ := Prod.ext_iff.1 h
  rw [Buf.Holds, Buf.Holds, show y.dev = z.dev from hdev, show y.blockno = z.blockno from hno]

/-- is in `bread` of block k, with buffer b -/
def Pc.wants : Pc n → Option (Fin n × BitVec 32)
  | .lock b k | .check b k | .read b k | .got b k => some (b, k)
  | _ => none

theorem Pc.disk_wants {x y : Pc n} (h : x.disk = some (b, y)) (hy : y.wants = some (b', k)) : x.wants = some (b', k) := by
  cases x with
  | read => cases h; exact hy
  | write => cases h; cases hy
  | _ => cases h

/-- links through all buffers -/
def Whole (links : Dll.Links (Fin n)) : Prop := ∃ l, Dll.Ring links l ∧ ∀ b, b ∈ l

structure Labels (s : St n P D) : Prop where
  whole : Whole s.links
  uniq : ∀ b b' k, (s.buf b).Holds k → (s.buf b').Holds k → b = b'
  label : ∀ p b k, (s.pc p).wants = some (b, k) → (s.buf b).Holds k
  dev : ∀ b p, s.lock b = some p → (s.buf b).dev = ROOTDEV

/-- a buffer with refcnt 0 is not wanted -/
theorem Refs.wants_ne [Fintype P] (h : Refs s) (hb : (s.buf b).refcnt = 0) (hq : (s.pc q).wants = some (b', k)) : b' ≠ b := by
  rintro rfl
  obtain ⟨hfree, hno⟩ := h.unused hb
  have hholds : (s.pc q).holds ≠ some b' := fun hq => Option.some_ne_none q ((h.holder q b' hq).symm.trans hfree)
  cases hpc : s.pc q <;> rw [hpc] at hq hholds <;> cases hq
  · exact hno q (by rw [hpc]; rfl)
  all_goals exact hholds rfl

/-! ## The list -/

theorem Whole.length {l : List (Fin n)} {links : Dll.Links (Fin n)} (h : Dll.Ring links l) : l.length ≤ n := by
  have := h.nodup.length_le_card
  rwa [Fintype.card_fin] at this

/-- a buffer moves to the front -/
theorem Whole.front {links : Dll.Links (Fin n)} (h : Whole links) (b : Fin n) : Whole ((links.unlink b).insert b) := by
  obtain ⟨l, hring, hall⟩ := h
  obtain ⟨l₁, l₂, rfl⟩ := List.append_of_mem (hall b)
  have hb : b ∉ l₁ ++ l₂ := (List.nodup_middle.1 hring.nodup).notMem
  refine ⟨_, hring.unlink.insert hb, fun b' => ?_⟩
  have := hall b'
  simp only [List.mem_append, List.mem_cons] at this ⊢
  tauto

theorem whole_binit (n : ℕ) : Whole (binit n) := by
  -- after the buffers of l, in this order, have been inserted
  have hfold : ∀ (l done : List (Fin n)) (links : Dll.Links (Fin n)), Dll.Ring links done → (l ++ done).Nodup →
      Dll.Ring (l.foldl Dll.Links.insert links) (l.reverse ++ done) := by
    intro l
    induction l with
    | nil => exact fun done links hring _ => hring
    | cons b l ih =>
      intro done links hring hnodup
      rw [List.foldl_cons, List.reverse_cons, List.append_assoc]
      rw [List.cons_append, List.nodup_cons] at hnodup
      refine ih (b :: done) _ (hring.insert fun hb => hnodup.1 (List.mem_append_right l hb)) ?_
      exact List.nodup_middle.2 (List.nodup_cons.2 hnodup)
  refine ⟨_, hfold (List.finRange n) [] _ (.nil rfl rfl) ?_, fun b => ?_⟩
  · rw [List.append_nil]
    exact List.nodup_finRange n
  · simp

theorem Labels.cached_none (h : Labels s) (hcached : s.cached ROOTDEV k = none) (b : Fin n) : ¬ (s.buf b).Holds k := by
  obtain ⟨l, hring, hall⟩ := h.whole
  rw [St.cached, hring.find_next (Nat.lt_succ_of_le (Whole.length hring)), List.find?_eq_none] at hcached
  simpa [Buf.Holds] using hcached b (hall b)

/-! ## Labels -/

section

variable [DecidableEq P]

/-- a step that changes no label -/
theorem Labels.keep (h : Labels s) (hwhole : Whole t.links)
    (hlabel : ∀ b, (t.buf b).label = (s.buf b).label)
    (hpc : t.pc = update s.pc p x) (hwants : ∀ b k, x.wants = some (b, k) → (s.buf b).Holds k)
    (hlock : ∀ b q, t.lock b = some q → s.lock b = some q ∨ (s.buf b).dev = ROOTDEV) : Labels t := by
  have hholds : ∀ b k, (t.buf b).Holds k ↔ (s.buf b).Holds k := fun b k => Buf.holds_congr (hlabel b)
  refine ⟨hwhole, fun b b' k hb hb' => ?_, fun q b k hq => ?_, fun b q hq => ?_⟩
  · exact h.uniq b b' k ((hholds b k).1 hb) ((hholds b' k).1 hb')
  · rw [hholds]
    rw [hpc, update_apply] at hq
    split_ifs at hq
    · exact hwants b k hq
    · exact h.label q b k hq
  · rw [show (t.buf b).dev = (s.buf b).dev from congrArg Prod.fst (hlabel b)]
    exact (hlock b q hq).elim (h.dev b q) id

theorem Labels.step [Fintype P] (h : Labels s) (hrefs : Refs s) (hstep : Step s a t) : Labels t := by
  have hsame := fun b : Fin n => Eq.refl (s.buf b).label
  cases hstep with
  | bread hpc => exact h.keep h.whole hsame rfl nofun fun _ _ => .inl
  | @hit p k b hpc hcached =>
    refine h.keep h.whole (update_keep Buf.label (by rfl)) rfl (fun b' k' hw => ?_) fun _ _ => .inl
    cases hw
    exact St.cached_some hcached
  | @recycle p k b hpc hcached hvictim =>
    obtain ⟨hzero, -⟩ := St.victim_some hvictim
    obtain ⟨hfree, hno⟩ := hrefs.unused hzero
    have hnew := h.cached_none hcached
    refine ⟨h.whole, fun b₁ b₂ k' h₁ h₂ => ?_, fun q b' k' hq => ?_, fun b' q hq => ?_⟩
    · -- no other buffer has the new label
      simp only [update_apply] at h₁ h₂
      split_ifs at h₁ h₂ with hb₁ hb₂ hb₂
      · exact hb₁.trans hb₂.symm
      · obtain ⟨-, rfl⟩ := h₁
        exact (hnew b₂ h₂).elim
      · obtain ⟨-, rfl⟩ := h₂
        exact (hnew b₁ h₁).elim
      · exact h.uniq b₁ b₂ k' h₁ h₂
    · simp only [update_apply] at hq ⊢
      split_ifs at hq with hqp
      · cases hq
        rw [if_pos rfl]
        exact ⟨rfl, rfl⟩
      · rw [if_neg (hrefs.wants_ne hzero hq)]
        exact h.label q b' k' hq
    · have hb : b' ≠ b := by
        rintro rfl
        exact Option.some_ne_none q (hq.symm.trans hfree)
      simp only [update_of_ne hb]
      exact h.dev b' q hq
  | lock hpc hfree =>
    refine h.keep h.whole hsame rfl (fun b' k' hw => ?_) fun b' q hq => ?_
    · cases hw
      exact h.label _ _ _ (by rw [hpc]; rfl)
    · simp only [update_apply] at hq
      split_ifs at hq with hb
      · rw [hb]
        exact .inr (h.label _ _ _ (by rw [hpc]; rfl)).1
      · exact .inl hq
  | valid hpc | invalid hpc =>
    refine h.keep h.whole hsame rfl (fun b' k' hw => ?_) fun _ _ => .inl
    cases hw
    exact h.label _ _ _ (by rw [hpc]; rfl)
  | fetch hpc | flush hpc =>
    exact h.keep h.whole (update_keep Buf.label (by rfl)) rfl (fun b' k' hw => h.label _ b' k' (Pc.disk_wants hpc hw))
      fun _ _ => .inl
  | got hpc => exact h.keep h.whole hsame rfl nofun fun _ _ => .inl
  | relse hpc hlinks =>
    refine h.keep ?_ (update_keep Buf.label (by rfl)) rfl nofun fun _ _ => .inl
    rcases hlinks with rfl | rfl
    · exact h.whole
    · exact h.whole.front _
  | @modify p b d hpc | @logWrite p b hpc =>
    exact h.keep (x := s.pc p) (p := p) h.whole (update_keep Buf.label (by rfl)) (update_eq_self p s.pc).symm
      (h.label p) fun _ _ => .inl
  | bwrite hpc => exact h.keep h.whole (update_keep Buf.label (by rfl)) rfl nofun fun _ _ => .inl
  | @brelse p b hpc =>
    refine h.keep h.whole hsame rfl nofun fun b' q hq => ?_
    simp only [update_apply] at hq
    split_ifs at hq
    exact .inl hq

/-! ## Contents -/

/-- holds a buffer that it has not yet found valid -/
def Pc.fills : Pc n → Option (Fin n)
  | .check b _ | .read b _ => some b
  | _ => none

structure Data (s : St n P D) : Prop where
  valid : ∀ b p, s.lock b = some p → (s.buf b).valid = true ∨ (s.pc p).fills = some b
  reading : ∀ p b k, s.pc p = .read b k → (s.buf b).valid = false
  writing : ∀ p b, s.pc p = .write b → (s.buf b).dirty = true
  dirty : ∀ b, (s.buf b).dirty = true → (s.buf b).dev = ROOTDEV ∧ (s.buf b).valid = true
  free : ∀ b, s.lock b = none → s.unsaved b = false
  held : ∀ p b, (s.pc p).holds = some b → s.unsaved b = false
  data : ∀ b k, (s.buf b).Holds k → (s.buf b).valid = true → s.unsaved b = false → (s.buf b).data = s.store k
  disk : ∀ k, s.disk k = s.store k ∨ ∃ b, (s.buf b).Holds k ∧ (s.buf b).dirty = true

namespace Data

omit [DecidableEq P] in
/-- a process that is not in `bread` holds valid buffers -/
theorem valid_of_lock (h : Data s) (hfills : (s.pc p).fills = none) (hlock : s.lock b = some p) : (s.buf b).valid = true := by
  refine (h.valid b p hlock).resolve_right fun hb => ?_
  rw [hfills] at hb
  cases hb

/-- a step that changes no buffer but in refcnt, and stores nothing -/
theorem keep (h : Data s) (hbuf : ∀ b, t.buf b = { s.buf b with refcnt := (t.buf b).refcnt })
    (hstore : t.disk = s.disk ∧ t.store = s.store ∧ t.unsaved = s.unsaved) (hpc : t.pc = update s.pc p x)
    (hlock : ∀ b q, t.lock b = some q → q ≠ p → s.lock b = some q)
    (hfree : ∀ b, t.lock b = none → s.unsaved b = false)
    (hfills : ∀ b, t.lock b = some p → (s.buf b).valid = true ∨ x.fills = some b)
    (hread : ∀ b k, x = .read b k → (s.buf b).valid = false) (hwrite : ∀ b, x = .write b → (s.buf b).dirty = true)
    (hheld : ∀ b, x.holds = some b → s.unsaved b = false) : Data t := by
  have hvalid : ∀ b, (t.buf b).valid = (s.buf b).valid := fun b => by rw [hbuf b]
  have hdirty : ∀ b, (t.buf b).dirty = (s.buf b).dirty := fun b => by rw [hbuf b]
  have hdata : ∀ b, (t.buf b).data = (s.buf b).data := fun b => by rw [hbuf b]
  have hdev : ∀ b, (t.buf b).dev = (s.buf b).dev := fun b => by rw [hbuf b]
  have hholds : ∀ b k, (t.buf b).Holds k ↔ (s.buf b).Holds k := fun b k => Buf.holds_congr (by rw [hbuf b]; rfl)
  obtain ⟨hdisk, hst, huns⟩ := hstore
  refine ⟨fun b q hq => ?_, fun q b k hq => ?_, fun q b hq => ?_, fun b hb => ?_, fun b hb => ?_, fun q b hq => ?_,
    fun b k hk hv hu => ?_, fun k => ?_⟩
  · rw [hvalid, hpc, update_apply]
    split_ifs with hqp
    · exact hfills b (hqp ▸ hq)
    · exact h.valid b q (hlock b q hq hqp)
  · rw [hpc, update_apply] at hq
    rw [hvalid]
    split_ifs at hq
    · exact hread b k hq
    · exact h.reading q b k hq
  · rw [hpc, update_apply] at hq
    rw [hdirty]
    split_ifs at hq
    · exact hwrite b hq
    · exact h.writing q b hq
  · rw [hdev, hvalid]
    exact h.dirty b (hdirty b ▸ hb)
  · rw [huns]
    exact hfree b hb
  · rw [hpc, update_apply] at hq
    rw [huns]
    split_ifs at hq
    · exact hheld b hq
    · exact h.held q b hq
  · rw [hdata, hst]
    exact h.data b k ((hholds b k).1 hk) (hvalid b ▸ hv) (huns ▸ hu)
  · rw [hdisk, hst]
    simp only [hholds, hdirty]
    exact h.disk k

/-- a step of `keep` that takes and gives no lock -/
theorem goto (h : Data s) (hbuf : ∀ b, t.buf b = { s.buf b with refcnt := (t.buf b).refcnt })
    (hstore : t.disk = s.disk ∧ t.store = s.store ∧ t.unsaved = s.unsaved) (hpc : t.pc = update s.pc p x)
    (hlock : t.lock = s.lock)
    (hfills : ∀ b, (s.pc p).fills = some b → (s.buf b).valid = true ∨ x.fills = some b)
    (hread : ∀ b k, x = .read b k → (s.buf b).valid = false) (hwrite : ∀ b, x = .write b → (s.buf b).dirty = true)
    (hheld : ∀ b, x.holds = some b → s.unsaved b = false) : Data t := by
  refine h.keep hbuf hstore hpc (fun b q hq _ => ?_) (fun b hb => ?_) (fun b hb => ?_) hread hwrite hheld
  · exact hlock ▸ hq
  · exact h.free b (hlock ▸ hb)
  · exact (h.valid b p (hlock ▸ hb)).elim .inl (hfills b)

/-- `bget` gives a free buffer a new label -/
theorem recycle [Fintype P] (h : Data s) (hrefs : Refs s) (hpc : s.pc p = .bget k) (hvictim : s.victim = some b) :
    Data { s with
      buf := update s.buf b { s.buf b with
        dev := ROOTDEV, blockno := k, valid := false, dirty := false, refcnt := 1 }
      pc := update s.pc p (.lock b k) } := by
  obtain ⟨hzero, hclean⟩ := St.victim_some hvictim
  have hfree := (hrefs.unused hzero).1
  have hne : ∀ b' q, s.lock b' = some q → b' ≠ b := by
    rintro b' q hq rfl
    exact Option.some_ne_none q (hq.symm.trans hfree)
  refine ⟨fun b' q hq => ?_, fun q b' k' hq => ?_, fun q b' hq => ?_, fun b' hb => ?_, h.free, fun q b' hq => ?_,
    fun b' k' hk hv hu => ?_, fun k' => ?_⟩
  · rw [update_keep Pc.fills (by rw [hpc]; rfl) q]
    simp only [update_of_ne (hne b' q hq)]
    exact h.valid b' q hq
  · simp only [update_apply] at hq ⊢
    split_ifs at hq ⊢
    · rfl
    · exact h.reading q b' k' hq
  · simp only [update_apply] at hq
    split_ifs at hq
    simp only [update_of_ne (hne b' q (hrefs.holder q b' (by rw [hq]; rfl)))]
    exact h.writing q b' hq
  · simp only [update_apply] at hb ⊢
    split_ifs at hb ⊢
    exact h.dirty b' hb
  · simp only [update_apply] at hq
    split_ifs at hq
    · cases hq
    · exact h.held q b' hq
  · simp only [update_apply] at hk hv ⊢
    split_ifs at hk hv ⊢
    exact h.data b' k' hk hv hu
  · -- the buffer was clean: what it held is on the disk
    refine (h.disk k').imp_right fun ⟨b', hk, hd⟩ => ⟨b', ?_⟩
    have hb : b' ≠ b := by
      rintro rfl
      exact Bool.false_ne_true (hclean.symm.trans hd)
    simp only [update_of_ne hb]
    exact ⟨hk, hd⟩

omit [DecidableEq P] in
/-- the disk's contents of a block whose buffer is clean -/
theorem disk_clean (h : Data s) (hlabels : Labels s) (hk : (s.buf b).Holds k) (hdirty : (s.buf b).dirty = false) :
    s.disk k = s.store k := by
  refine (h.disk k).resolve_right fun ⟨b', hk', hd⟩ => ?_
  rw [hlabels.uniq b' b k hk' hk, hdirty] at hd
  cases hd

/-- the disk has filled the buffer -/
theorem fetch [Fintype P] (h : Data s) (hlabels : Labels s) (hrefs : Refs s) (hpc : s.pc p = .read b k)
    (hdirty : (s.buf b).dirty = false) : Data { s with
      buf := update s.buf b { s.buf b with data := s.disk (s.buf b).blockno, valid := true }
      pc := update s.pc p (.got b k) } := by
  have hlock := hrefs.holder p b (by rw [hpc]; rfl)
  refine ⟨fun b' q hq => ?_, fun q b' k' hq => ?_, fun q b' hq => ?_, fun b' hb => ?_, h.free, fun q b' hq => ?_,
    fun b' k' hk hv hu => ?_, fun k' => ?_⟩
  · simp only [update_apply]
    split_ifs with hb hqp hqp
    · exact .inl rfl
    · exact .inl rfl
    · refine .inl ((h.valid b' q hq).resolve_right fun hf => hb ?_)
      rw [hqp, hpc] at hf
      exact (Option.some.inj hf).symm
    · exact h.valid b' q hq
  · simp only [update_apply] at hq
    split_ifs at hq with hqp
    simp only [update_of_ne (hrefs.holds_ne (by rw [hq]; rfl) hqp hlock)]
    exact h.reading q b' k' hq
  · simp only [update_apply] at hq
    split_ifs at hq
    exact (update_keep Buf.dirty (by rfl) b').trans (h.writing q b' hq)
  · have hb' := h.dirty b' ((update_keep Buf.dirty (by rfl) b').symm.trans hb)
    refine ⟨(update_keep Buf.dev (by rfl) b').trans hb'.1, ?_⟩
    simp only [update_apply]
    split_ifs
    · rfl
    · exact hb'.2
  · simp only [update_apply] at hq
    split_ifs at hq
    · cases hq
      exact h.held p b (by rw [hpc]; rfl)
    · exact h.held q b' hq
  · simp only [update_apply] at hk hv ⊢
    split_ifs at hk hv ⊢
    · obtain ⟨hdev, rfl⟩ := hk
      exact h.disk_clean hlabels ⟨hdev, rfl⟩ hdirty
    · exact h.data b' k' hk hv hu
  · refine (h.disk k').imp_right fun ⟨b', hk, hd⟩ => ⟨b', ?_, ?_⟩
    · exact (Buf.holds_congr (update_keep Buf.label (by rfl) b')).2 hk
    · exact (update_keep Buf.dirty (by rfl) b').trans hd

/-- the buffer has reached the disk -/
theorem flush [Fintype P] (h : Data s) (hrefs : Refs s) (hpc : s.pc p = .write b) : Data { s with
      buf := update s.buf b { s.buf b with dirty := false, valid := true }
      disk := update s.disk (s.buf b).blockno (s.buf b).data
      pc := update s.pc p .idle } := by
  have hlock := hrefs.holder p b (by rw [hpc]; rfl)
  obtain ⟨hdev, hvalid⟩ := h.dirty b (h.writing p b hpc)
  have hvalid' : ∀ b', (update s.buf b { s.buf b with dirty := false, valid := true } b').valid = (s.buf b').valid :=
    update_keep Buf.valid hvalid.symm
  refine ⟨fun b' q hq => ?_, fun q b' k' hq => ?_, fun q b' hq => ?_, fun b' hb => ?_, h.free, fun q b' hq => ?_,
    fun b' k' hk hv hu => ?_, fun k' => ?_⟩
  · rw [update_keep Pc.fills (by rw [hpc]; rfl) q]
    exact (h.valid b' q hq).imp_left (hvalid' b').trans
  · simp only [update_apply] at hq
    split_ifs at hq
    exact (hvalid' b').trans (h.reading q b' k' hq)
  · simp only [update_apply] at hq
    split_ifs at hq with hqp
    simp only [update_of_ne (hrefs.holds_ne (by rw [hq]; rfl) hqp hlock)]
    exact h.writing q b' hq
  · simp only [update_apply] at hb ⊢
    split_ifs at hb ⊢
    exact h.dirty b' hb
  · simp only [update_apply] at hq
    split_ifs at hq
    · cases hq
    · exact h.held q b' hq
  · have hk' := (Buf.holds_congr (update_keep Buf.label (by rfl) b')).1 hk
    exact (update_keep Buf.data (by rfl) b').trans (h.data b' k' hk' ((hvalid' b').symm.trans hv) hu)
  · by_cases hk' : k' = (s.buf b).blockno
    · subst hk'
      left
      simp only [update_self]
      exact h.data b _ ⟨hdev, rfl⟩ hvalid (h.held p b (by rw [hpc]; rfl))
    · simp only [update_of_ne hk']
      refine (h.disk k').imp_right fun ⟨b', hk, hd⟩ => ⟨b', ?_⟩
      have hb : b' ≠ b := by
        rintro rfl
        exact hk' hk.2.symm
      simp only [update_of_ne hb]
      exact ⟨hk, hd⟩

omit [DecidableEq P] in
theorem modify [Fintype P] (h : Data s) (hrefs : Refs s) (hpc : s.pc p = .idle) (hlock : s.lock b = some p) (d : D) :
    Data { s with
      buf := update s.buf b { s.buf b with data := d }
      unsaved := update s.unsaved b true } := by
  refine ⟨fun b' q hq => ?_, fun q b' k' hq => ?_, fun q b' hq => ?_, fun b' hb => ?_, fun b' hb => ?_, fun q b' hq => ?_,
    fun b' k' hk hv hu => ?_, fun k' => ?_⟩
  · exact (h.valid b' q hq).imp_left (update_keep Buf.valid (by rfl) b').trans
  · exact (update_keep Buf.valid (by rfl) b').trans (h.reading q b' k' hq)
  · exact (update_keep Buf.dirty (by rfl) b').trans (h.writing q b' hq)
  · obtain ⟨hdev, hvalid⟩ := h.dirty b' ((update_keep Buf.dirty (by rfl) b').symm.trans hb)
    exact ⟨(update_keep Buf.dev (by rfl) b').trans hdev, (update_keep Buf.valid (by rfl) b').trans hvalid⟩
  · have hne : b' ≠ b := by
      rintro rfl
      exact Option.some_ne_none p (hlock.symm.trans hb)
    simp only [update_of_ne hne]
    exact h.free b' hb
  · -- p, the holder, is idle
    have hqp : q ≠ p := by
      rintro rfl
      rw [hpc] at hq
      cases hq
    simp only [update_of_ne (hrefs.holds_ne hq hqp hlock)]
    exact h.held q b' hq
  · simp only [update_apply] at hk hv hu ⊢
    split_ifs at hk hv hu ⊢
    exact h.data b' k' hk hv hu
  · refine (h.disk k').imp_right fun ⟨b', hk, hd⟩ => ⟨b', ?_, ?_⟩
    · exact (Buf.holds_congr (update_keep Buf.label (by rfl) b')).2 hk
    · exact (update_keep Buf.dirty (by rfl) b').trans hd

omit [DecidableEq P] in
/-- the buffer's contents become the block's -/
theorem setDirty (h : Data s) (hlabels : Labels s) (hpc : s.pc p = .idle) (hlock : s.lock b = some p) : Data { s with
      buf := update s.buf b { s.buf b with dirty := true }
      store := update s.store (s.buf b).blockno (s.buf b).data
      unsaved := update s.unsaved b false } := by
  have hdev := hlabels.dev b p hlock
  have hclear : ∀ b', s.unsaved b' = false → update s.unsaved b false b' = false := by
    intro b' hb
    rw [update_apply, hb, ite_self]
  refine ⟨fun b' q hq => ?_, fun q b' k' hq => ?_, fun q b' hq => ?_, fun b' hb => ?_, fun b' hb => ?_, fun q b' hq => ?_,
    fun b' k' hk hv hu => ?_, fun k' => ?_⟩
  · exact (h.valid b' q hq).imp_left (update_keep Buf.valid (by rfl) b').trans
  · exact (update_keep Buf.valid (by rfl) b').trans (h.reading q b' k' hq)
  · simp only [update_apply]
    split_ifs
    · rfl
    · exact h.writing q b' hq
  · simp only [update_apply] at hb ⊢
    split_ifs at hb ⊢
    · exact ⟨hdev, h.valid_of_lock (by rw [hpc]; rfl) hlock⟩
    · exact h.dirty b' hb
  · exact hclear b' (h.free b' hb)
  · exact hclear b' (h.held q b' hq)
  · replace hk := (Buf.holds_congr (update_keep Buf.label (by rfl) b')).1 hk
    replace hv := (update_keep Buf.valid (by rfl) b').symm.trans hv
    rw [update_keep Buf.data (by rfl) b']
    by_cases hb : b' = b
    · rw [← hk.2, hb]
      exact (update_self (s.buf b).blockno _ s.store).symm
    · have hne : k' ≠ (s.buf b).blockno := by
        rintro rfl
        exact hb (hlabels.uniq b' b _ hk ⟨hdev, rfl⟩)
      simp only [update_of_ne hb, update_of_ne hne] at hu ⊢
      exact h.data b' k' hk hv hu
  · by_cases hk' : k' = (s.buf b).blockno
    · subst hk'
      refine .inr ⟨b, ?_⟩
      simp only [update_self, and_true]
      exact ⟨hdev, rfl⟩
    · simp only [update_of_ne hk']
      refine (h.disk k').imp_right fun ⟨b', hk, hd⟩ => ⟨b', ?_⟩
      have hb : b' ≠ b := by
        rintro rfl
        exact hk' hk.2.symm
      simp only [update_of_ne hb]
      exact ⟨hk, hd⟩

end Data

theorem Data.step [Fintype P] (h : Data s) (hlabels : Labels s) (hrefs : Refs s) (hstep : Step s a t) : Data t := by
  have hsame : ∀ b, s.buf b = { s.buf b with refcnt := (s.buf b).refcnt } := fun _ => rfl
  have hcnt : ∀ (b : Fin n) (r : ℕ) (b' : Fin n), update s.buf b { s.buf b with refcnt := r } b' =
      { s.buf b' with refcnt := (update s.buf b { s.buf b with refcnt := r } b').refcnt } := by
    intro b r b'
    simp only [update_apply]
    split_ifs with hb
    · rw [hb]
    · rfl
  cases hstep with
  | bread hpc | got hpc => exact h.goto hsame ⟨rfl, rfl, rfl⟩ rfl rfl (by rw [hpc]; nofun) nofun nofun nofun
  | hit hpc | relse hpc => exact h.goto (hcnt _ _) ⟨rfl, rfl, rfl⟩ rfl rfl (by rw [hpc]; nofun) nofun nofun nofun
  | recycle hpc _ hvictim => exact h.recycle hrefs hpc hvictim
  | @lock p k b hpc hfree =>
    refine h.keep hsame ⟨rfl, rfl, rfl⟩ rfl (fun b' q hq hqp => ?_) (fun b' hb => ?_) (fun b' hb => ?_) nofun nofun
      fun b' hb => ?_
    · simp only [update_apply] at hq
      split_ifs at hq
      · exact (hqp (Option.some.inj hq).symm).elim
      · exact hq
    · simp only [update_apply] at hb
      split_ifs at hb
      exact h.free b' hb
    · simp only [update_apply] at hb
      split_ifs at hb with hbb
      · exact .inr (congrArg some hbb.symm)
      · exact .inl (h.valid_of_lock (by rw [hpc]; rfl) hb)
    · cases hb
      exact h.free b hfree
  | valid hpc hvalid =>
    refine h.goto hsame ⟨rfl, rfl, rfl⟩ rfl rfl (fun b' hb => ?_) nofun nofun fun b' hb => ?_
    · rw [hpc] at hb
      cases hb
      exact .inl hvalid
    · cases hb
      exact h.held _ _ (by rw [hpc]; rfl)
  | invalid hpc hvalid =>
    refine h.goto hsame ⟨rfl, rfl, rfl⟩ rfl rfl (fun b' hb => ?_) (fun b' k' hb => ?_) nofun fun b' hb => ?_
    · rw [hpc] at hb
      exact .inr hb
    · cases hb
      exact hvalid
    · cases hb
      exact h.held _ _ (by rw [hpc]; rfl)
  | @fetch p b x hpc _ hdirty =>
    -- `bwrite` has made its buffer dirty
    cases hp : s.pc p <;> rw [hp] at hpc <;> cases hpc
    · exact h.fetch hlabels hrefs hp hdirty
    · exact (Bool.false_ne_true (hdirty.symm.trans (h.writing p b hp))).elim
  | @flush p b x hpc hdirty =>
    -- `bread` has found its buffer not valid
    cases hp : s.pc p <;> rw [hp] at hpc <;> cases hpc
    · exact (Bool.false_ne_true ((h.reading p b _ hp).symm.trans (h.dirty b hdirty).2)).elim
    · exact h.flush hrefs hp
  | modify hpc hlock => exact h.modify hrefs hpc hlock _
  | logWrite hpc hlock => exact h.setDirty hlabels hpc hlock
  | @bwrite p b hpc hlock =>
    refine (h.setDirty hlabels hpc hlock).goto (fun _ => rfl) ⟨rfl, rfl, rfl⟩ rfl rfl (by rw [hpc]; nofun) nofun
      (fun b' hb => ?_) fun b' hb => ?_
    all_goals
      cases hb
      simp only [update_self]
  | @brelse p b hpc hlock hsaved =>
    refine h.keep hsame ⟨rfl, rfl, rfl⟩ rfl (fun b' q hq _ => ?_) (fun b' hb => ?_) (fun b' hb => ?_) nofun nofun nofun
    · simp only [update_apply] at hq
      split_ifs at hq
      exact hq
    · simp only [update_apply] at hb
      split_ifs at hb with hbb
      · rw [hbb]
        exact hsaved
      · exact h.free b' hb
    · simp only [update_apply] at hb
      split_ifs at hb
      exact .inl (h.valid_of_lock (by rw [hpc]; rfl) hb)

end

/-! ## Runs -/

section

variable [Fintype P] [DecidableEq P]

/-- all that is known of the cache -/
structure Inv (s : St n P D) : Prop where
  refs : Refs s
  labels : Labels s
  data : Data s

theorem Inv.step (h : Inv s) (hstep : Step s a t) : Inv t :=
  ⟨h.refs.step hstep, h.labels.step h.refs hstep, h.data.step h.labels h.refs hstep⟩

omit [DecidableEq P] in
theorem Inv.init (h0 : Init s) : Inv s := by
  have hrefs := Refs.init h0
  obtain ⟨hlinks, hbuf, hlock, hpc, hunsaved, hstore⟩ := h0
  have hdev : ∀ b, (s.buf b).dev = 0 := fun b => by
    obtain ⟨d, hd⟩ := hbuf b
    rw [hd]
  have hclean : ∀ b, (s.buf b).dirty = false := fun b => by
    obtain ⟨d, hd⟩ := hbuf b
    rw [hd]
  have hno : ∀ b k, ¬ (s.buf b).Holds k := by
    rintro b k ⟨hb, -⟩
    rw [hdev] at hb
    revert hb
    decide
  refine ⟨hrefs, ⟨?_, fun b _ k hb => (hno b k hb).elim, fun p => ?_, fun b => ?_⟩,
    ⟨fun b => ?_, fun p => ?_, fun p => ?_, fun b => ?_, fun b _ => hunsaved b, fun _ b _ => hunsaved b,
      fun b k hb => (hno b k hb).elim, fun k => .inl (by rw [hstore])⟩⟩
  · rw [hlinks]
    exact whole_binit n
  · rw [hpc]
    nofun
  · rw [hlock]
    nofun
  · rw [hlock]
    nofun
  · rw [hpc]
    nofun
  · rw [hpc]
    nofun
  · rw [hclean]
    nofun

theorem Inv.of_reach (h : (machine n P D size).Reach s) : Inv s :=
  Machine.Reach.invariant (I := Inv) (fun _ h0 => Inv.init h0) (fun _ _ _ hs hstep => hs.step (step_cases hstep)) h

omit [Fintype P] in
/-- a step changes the label of no buffer but one that is free and clean -/
theorem Step.label (hstep : Step s a t) (hb : 0 < (s.buf b).refcnt ∨ (s.buf b).dirty = true) :
    (t.buf b).label = (s.buf b).label := by
  cases hstep with
  | @recycle p k b' hpc hcached hvictim =>
    obtain ⟨hzero, hclean⟩ := St.victim_some hvictim
    have hne : b ≠ b' := by
      rintro rfl
      rcases hb with hb | hb
      · exact hb.ne' hzero
      · exact Bool.false_ne_true (hclean.symm.trans hb)
    exact congrArg Buf.label (update_of_ne hne ..)
  | bread | lock | valid | invalid | got | brelse => rfl
  | hit | fetch | flush | relse | modify | logWrite | bwrite => exact update_keep Buf.label (by rfl) b

/-- **The buffer cache is a block map.** In every run of `bread`, modification, `log_write` or `bwrite`, and `brelse` by
any number of processes: the links are one circle through the head and all buffers; no two buffers have one label; a
buffer in use or dirty keeps its label; and `bread` returns, locked, the buffer of its block with what was last stored
for it. -/
theorem buffer_cache (h : (machine n P D size).Reach s) :
    (∃ l : List (Fin n), l.Nodup ∧ (∀ b, b ∈ l) ∧ (none :: l.map some ++ [none]).IsChain s.links.Adj) ∧
    (∀ b b' k, (s.buf b).Holds k → (s.buf b').Holds k → b = b') ∧
    (∀ a t b, step size s a = some t → 0 < (s.buf b).refcnt ∨ (s.buf b).dirty = true →
      (t.buf b).dev = (s.buf b).dev ∧ (t.buf b).blockno = (s.buf b).blockno) ∧
    (∀ p b k, s.pc p = .got b k → (s.buf b).Holds k ∧ s.lock b = some p ∧ (s.buf b).data = s.store k) := by
  have hinv := Inv.of_reach h
  refine ⟨?_, hinv.labels.uniq, fun a t b hstep hb => ?_, fun p b k hp => ?_⟩
  · obtain ⟨l, hring, hall⟩ := hinv.labels.whole
    exact ⟨l, hring.nodup, hall, hring.chain⟩
  · exact Prod.ext_iff.1 ((step_cases hstep).label hb)
  · have hholds := hinv.labels.label p b k (by rw [hp]; rfl)
    have hlock := hinv.refs.holder p b (by rw [hp]; rfl)
    have hvalid := hinv.data.valid_of_lock (by rw [hp]; rfl) hlock
    exact ⟨hholds, hlock, hinv.data.data b k hholds hvalid (hinv.data.held p b (by rw [hp]; rfl))⟩

end

/-- after `binit`, with a disk of zeros -/
def booted (n : ℕ) (P : Type) : St n P ℕ where
  buf _ := ⟨false, false, 0, 0, 0, 0⟩
  links := binit n
  lock _ := none
  disk _ := 0
  pc _ := .idle
  unsaved _ := false
  store _ := 0

theorem booted_init (n : ℕ) (P : Type) : Init (booted n P) :=
  ⟨rfl, fun _ => ⟨0, rfl⟩, fun _ => rfl, fun _ => rfl, fun _ => rfl, rfl⟩

/-- process 0 writes 7 to block 5 through the only buffer; process 1 reads block 6 through it, and block 5 again -/
def evictRun : List (Act 1 (Fin 2) ℕ) :=
  [[.bread 0 5], .replicate 5 (.move 0), [.modify 0 0 7, .bwrite 0 0, .move 0, .brelse 0 0, .move 0],
    [.bread 1 6], .replicate 5 (.move 1), [.brelse 1 0, .move 1, .bread 1 5], .replicate 4 (.move 1)].flatten

theorem evictRun_got : (evictRun.foldlM (step 10) (booted 1 (Fin 2))).map (fun s => (s.pc 1, s.store 5)) =
    some (.got 0 5, 7) := by decide +kernel

theorem buffer_cache_evicted : ∃ s : St 1 (Fin 2) ℕ, (machine 1 (Fin 2) ℕ 10).Reach s ∧ s.pc 1 = .got 0 5 ∧
    (s.buf 0).data = 7 := by
  obtain ⟨s, hrun, hs⟩ := Option.map_eq_some_iff.1 evictRun_got
  obtain ⟨hpc, hstore⟩ := Prod.ext_iff.1 hs
  have hreach : (machine 1 (Fin 2) ℕ 10).Reach s := Machine.Reach.foldlM evictRun (.init (booted_init 1 (Fin 2))) hrun
  exact ⟨s, hreach, hpc, ((buffer_cache hreach).2.2.2 1 0 5 hpc).2.2.trans hstore⟩

end Xv6.Bio
