/-
Blocks and inodes of the kernel's file system, function by function (`balloc` .. `bmap` of `fs.c`).

`Rep` says that a state stands for the inodes a: the disk does with the inode table the kernel sees (`Vol`), and the
inode cache does with both (`Cached`). Each function has one specification: from a state that stands for some inodes it
returns in one that stands for the inodes it says, or it has run out of something (`Short`), or it stops for a reason in
σ, which the hypotheses of the specification name. "freeing free block" is never among them.
-/
import Xv6.Fs.Cache

namespace Xv6.Fs

open Xv6.Bytes Xv6.Wp Function

/-! ## Stopping -/

/-- a function stops because it has run out of blocks, of cache entries or of room in the log -/
def Short : Fault → St → Prop
  | .panic .outOfBlocks, t => ∀ b < t.sb.size, bit t.sb t.disk b = true
  | .panic .tooBigTransaction, t => LOGSIZE ≤ t.lh.length ∨ t.logsize - 1 ≤ t.lh.length
  | .panic .logWriteOutsideTrans, t => t.out.outstanding < 1
  | .panic .igetNoInodes, t => ∀ k, 0 < (t.icache k).ref
  | _, _ => False

/-- how a function may end other than by returning; σ: what else is not excluded -/
def Stop (σ : Fault → Prop) (e : Fault) (t : St) : Prop := Short e t ∨ σ e

/-! ## States -/

/-- the state s stands for the inodes a, and the kernel sees the inode table m -/
structure RepM (sb : Superblock) (τ : Mode) (m : ℕ → Dinode) (a : ℕ → Node) (g : Ghost) (s : St) : Prop where
  vol : Vol sb τ g.dirty m (view sb s.disk) a
  cached : Cached sb m (view sb s.disk).inode g s.icache
  sb : s.sb = sb
  out : s.out = g.out

/-- the bytes of the inodes as the kernel finds them -/
def contents (sb : Superblock) (m : ℕ → Dinode) (d : Disk) : ℕ → Store :=
  byteOf (own sb m (view sb d).block) (view sb d).block

/-- the bytes of an inode are found through that inode -/
theorem contents_congr {sb : Superblock} {m m' : ℕ → Dinode} {d : Disk} {l : ℕ} (h : m' l = m l) :
    contents sb m' d l = contents sb m d l := by
  funext p
  unfold contents byteOf
  cases hs : slotOf l (p / BSIZE) with
  | none => rfl
  | some y =>
    have hy := slotOf_inum hs
    have hown : own sb m' (view sb d).block y = own sb m (view sb d).block y := by
      have hget : y.get m' (view sb d).block = y.get m (view sb d).block := y.get_congr _ (by rw [hy, h])
      rw [own, own, hget, hy, h]
    simp only [Option.bind_some, hown]

/-- inode i would have the same bytes if it were read from the disk again -/
def Saved (sb : Superblock) (m : ℕ → Dinode) (d : Disk) (i : ℕ) : Prop :=
  contents sb (Function.update m i ((view sb d).inode i)) d = contents sb m d

theorem Saved.update {sb : Superblock} {m : ℕ → Dinode} {d : Disk} {i j : ℕ} (h : Saved sb m d j) (hji : j ≠ i)
    (x : Dinode) : Saved sb (Function.update m i x) d j := by
  unfold Saved at h ⊢
  funext l
  by_cases hl : l = j
  · subst hl
    calc contents sb (Function.update (Function.update m i x) l ((view sb d).inode l)) d l
        = contents sb (Function.update m l ((view sb d).inode l)) d l := contents_congr (by simp)
      _ = contents sb m d l := congrFun h l
      _ = contents sb (Function.update m i x) d l := contents_congr (Function.update_of_ne hji _ _).symm
  · exact contents_congr (Function.update_of_ne hl _ _)

/-- the state s stands for the inodes a -/
def Rep (sb : Superblock) (τ : Mode) (a : ℕ → Node) (g : Ghost) (s : St) : Prop := ∃ m, RepM sb τ m a g s

section

variable {sb : Superblock} {τ : Mode} {σ : Fault → Prop} {m : ℕ → Dinode} {a : ℕ → Node} {g : Ghost} {s : St}
  {k : Fin NINODE} {i : ℕ}

/-- the state has changed outside the inodes only -/
theorem RepM.with_out (h : RepM sb τ m a g s) (o : Outer) (l : List ℕ) :
    RepM sb τ m a { g with out := o } { s with lh := l, out := o } :=
  ⟨h.vol, ⟨h.cached.count, h.cached.names, h.cached.unique, h.cached.locked, h.cached.held, h.cached.range, h.cached.copy,
    h.cached.stored, h.cached.orphan⟩, h.sb, rfl⟩

theorem RepM.rep (h : RepM sb τ m a g s) : Rep sb τ a g s := ⟨m, h⟩

/-- what the kernel sees of an inode it has locked -/
theorem RepM.ino (h : RepM sb τ m a g s) (hl : k ∈ g.locks) (hp : (k, i) ∈ g.pins) :
    (s.icache k).ino = m i ∧ (m i).type ≠ 0 := h.cached.copy k i (h.cached.holds_of_lock hl hp)

theorem RepM.inum (h : RepM sb τ m a g s) (hp : (k, i) ∈ g.pins) : (s.icache k).inum = i := h.cached.names _ hp

theorem RepM.lt (h : RepM sb τ m a g s) (hl : k ∈ g.locks) (hp : (k, i) ∈ g.pins) : i < sb.ninodes :=
  h.cached.range k i (h.cached.holds_of_lock hl hp)

theorem RepM.node (h : RepM sb τ m a g s) (hi : i < sb.ninodes) :
    (a i).type = (m i).type ∧ (a i).nlink = (m i).nlink ∧ (a i).size = (m i).size.toNat := by
  rw [h.vol.node i hi]
  exact ⟨rfl, rfl, rfl⟩

/-! ## Blocks -/

theorem wp_logWrite {b : ℕ} {Q : PUnit → St → Prop} (h : Q ⟨⟩ { s with lh := addLog s.lh b }) :
    wp (logWrite b) Q (Stop σ) s := by
  unfold logWrite
  simp only [wp_bind, wp_get]
  apply wp_ite
  · intro hfull
    exact (wp_throw _ _).2 (Or.inl (by simpa [Short] using hfull))
  intro _
  apply wp_ite
  · intro hout
    exact (wp_throw _ _).2 (Or.inl hout)
  · intro _
    exact (wp_set _ _).2 h

theorem findFree_some {d : Disk} {b : ℕ} (h : findFree sb d = some b) : b < sb.size ∧ bit sb d b = false := by
  unfold findFree at h
  obtain ⟨l, -, hl⟩ := List.exists_of_findSome?_eq_some h
  obtain ⟨bi, hbi, rfl⟩ := Option.map_eq_some_iff.1 hl
  simpa using List.find?_some hbi

theorem findFree_none {d : Disk} (h : findFree sb d = none) : ∀ b < sb.size, bit sb d b = true := by
  intro b hb
  unfold findFree at h
  rw [List.findSome?_eq_none_iff] at h
  have hk : b / BPB ∈ List.range ((sb.size + BPB - 1) / BPB) := by
    rw [List.mem_range]
    simp only [BPB, BSIZE]
    omega
  have hdiv : b / BPB * BPB + b % BPB = b := Nat.div_add_mod' b BPB
  have hnone := Option.map_eq_none_iff.1 (h _ hk)
  have hbit := List.find?_eq_none.1 hnone (b % BPB) (List.mem_range.2 (Nat.mod_lt _ (by decide)))
  rw [hdiv] at hbit
  simpa [hb] using hbit

theorem wp_balloc {Q : ℕ → St → Prop} (hsb : s.sb = sb)
    (h : ∀ b, b < sb.size → bit sb s.disk b = false → Q b { s with
      disk := update (setBit sb s.disk b true) b fun _ => 0
      lh := addLog (addLog s.lh (sb.bblock b)) b }) :
    wp balloc Q (Stop σ) s := by
  subst hsb
  unfold balloc
  simp only [wp_bind, wp_get]
  cases hf : findFree s.sb s.disk with
  | none =>
    exact (wp_throw _ _).2 (Or.inl (findFree_none hf))
  | some b =>
    obtain ⟨hb, hbit⟩ := findFree_some hf
    simp only [wp_bind, wp_set]
    apply wp_logWrite
    unfold bzero
    simp only [wp_bind, wp_modify]
    apply wp_logWrite
    rw [wp_pure]
    exact h b hb hbit

theorem wp_bfree {b : ℕ} {Q : PUnit → St → Prop} (hsb : readsb s.disk = sb) (hbit : bit sb s.disk b = true)
    (h : Q ⟨⟩ { s with sb := sb, disk := setBit sb s.disk b false, lh := addLog s.lh (sb.bblock b) }) :
    wp (bfree b) Q (Stop σ) s := by
  unfold bfree
  simp only [wp_bind, wp_modify, wp_get, hsb]
  rw [if_pos hbit, wp_bind, wp_set]
  exact wp_logWrite h

theorem wp_setInode {f : Inode → Inode} {Q : PUnit → St → Prop} {E : Fault → St → Prop}
    (h : Q ⟨⟩ { s with icache := update s.icache k (f (s.icache k)) }) : wp (setInode k f) Q E s :=
  (wp_modify _ _).2 h

/-! ## References and locks -/

/-- inode i has a reference among P already, or entry k of the cache has just been taken for it -/
def Got (sb : Superblock) (m : ℕ → Dinode) (P : Multiset (Fin NINODE × ℕ)) (k : Fin NINODE) (i : ℕ) (t : St) : Prop :=
  (∃ p ∈ P, p.2 = i) ∨ (t.icache k).valid = false ∧ Saved sb m t.disk i

/-- an inode without a copy has the bytes the disk has for it -/
theorem RepM.saved (h : RepM sb τ m a g s) (hi : ∀ k, ¬(s.icache k).Holds i) : Saved sb m s.disk i := by
  unfold Saved contents
  by_cases hlt : i < sb.ninodes
  · rw [h.cached.stored i hlt hi, update_eq_self]
  · have hown : own sb (update m i ((view sb s.disk).inode i)) (view sb s.disk).block =
        own sb m (view sb s.disk).block := by
      funext y
      by_cases hy : y.inum = i
      · rw [own, own, if_neg fun hc => hlt (hy ▸ hc.1), if_neg fun hc => hlt (hy ▸ hc.1)]
      · exact own_of_ne _ hy
    rw [hown]

/-- **`iget`.** -/
theorem wp_iget (h : RepM sb τ m a g s) :
    wp (iget i) (fun k t => RepM sb τ m a { g with pins := (k, i) ::ₘ g.pins } t ∧ t.disk = s.disk ∧
      Got sb m g.pins k i t) (Stop σ) s := by
  unfold iget
  simp only [wp_bind, wp_get]
  cases hf : (List.finRange NINODE).find? fun k => decide (0 < (s.icache k).ref ∧ (s.icache k).inum = i) with
  | some k =>
    have hk := List.find?_some hf
    simp only [decide_eq_true_eq] at hk
    rw [wp_bind]
    apply wp_setInode
    rw [wp_pure]
    have hpin := h.cached.pinned hk.1
    refine ⟨⟨h.vol, ?_, h.sb, h.out⟩, rfl, Or.inl ⟨_, hpin, hk.2⟩⟩
    have := h.cached.hit hk.1
    rw [hk.2] at this
    exact this
  | none =>
    have hnone : ∀ k, 0 < (s.icache k).ref → (s.icache k).inum ≠ i := by
      intro k hk hki
      have := List.find?_eq_none.1 hf k (List.mem_finRange k)
      simp [hk, hki] at this
    cases he : (List.finRange NINODE).find? fun k => decide ((s.icache k).ref = 0) with
    | none =>
      refine (wp_throw _ _).2 (Or.inl fun k => ?_)
      have := List.find?_eq_none.1 he k (List.mem_finRange k)
      simp only [decide_eq_true_eq] at this
      exact Nat.pos_of_ne_zero this
    | some k =>
      have hk := List.find?_some he
      simp only [decide_eq_true_eq] at hk
      simp only [wp_bind]
      apply wp_setInode
      rw [wp_pure]
      refine ⟨⟨h.vol, h.cached.miss hk hnone, h.sb, h.out⟩, rfl, Or.inr ⟨by simp, ?_⟩⟩
      exact h.saved fun k' hk' => hnone k' hk'.1 hk'.2.2

/-- **`idup`.** -/
theorem wp_idup (h : RepM sb τ m a g s) (hp : (k, i) ∈ g.pins) :
    wp (idup k) (fun k' t => k' = k ∧ RepM sb τ m a { g with pins := (k, i) ::ₘ g.pins } t ∧ t.disk = s.disk)
      (Stop σ) s := by
  unfold idup
  rw [wp_bind]
  apply wp_setInode
  rw [wp_pure]
  refine ⟨rfl, ⟨h.vol, ?_, h.sb, h.out⟩, rfl⟩
  have := h.cached.hit (h.cached.ref_pos hp)
  rw [h.inum hp] at this
  exact this

/-- **`ilock`.** It waits for ever for a lock that is held, and it needs an inode that is allocated. -/
theorem wp_ilock (h : RepM sb τ m a g s) (hp : (k, i) ∈ g.pins) (hi : i < sb.ninodes)
    (hlk : k ∈ g.locks → σ .endless) (hty : (a i).type = 0 → σ (.panic .ilockNoType)) :
    wp (ilock k) (fun _ t => RepM sb τ m a { g with locks := insert k g.locks } t ∧ k ∉ g.locks ∧ t.disk = s.disk)
      (Stop σ) s := by
  have href := h.cached.ref_pos hp
  have hinum := h.inum hp
  unfold ilock
  simp only [wp_bind, wp_get]
  rw [if_neg (by omega)]
  apply wp_ite
  · intro hlocked
    exact (wp_throw _ _).2 (Or.inr (hlk ((h.cached.locked k).1 hlocked)))
  intro hlocked
  have hl : k ∉ g.locks := fun hl => hlocked ((h.cached.locked k).2 hl)
  rw [wp_bind]
  apply wp_setInode
  apply wp_ite
  · intro hv
    rw [wp_pure]
    exact ⟨⟨h.vol, h.cached.lock hp hv, h.sb, h.out⟩, hl, rfl⟩
  intro hv
  rw [wp_bind]
  apply wp_setInode
  have hdn : dinode s.sb s.disk (s.icache k).inum = (view sb s.disk).inode i := by rw [view_inode hi, h.sb, hinum]
  rw [hdn]
  apply wp_ite
  · intro ht
    refine (wp_throw _ _).2 (Or.inr (hty ?_))
    rw [(h.node hi).1, ← ht, (h.vol.lag i hi).same]
  intro ht
  rw [wp_pure]
  refine ⟨⟨h.vol, ?_, h.sb, h.out⟩, hl, rfl⟩
  simp only [update_self, update_idem]
  exact (h.cached.load hp hi (by simpa using hv) ht).2

/-- **`iunlock`.** -/
theorem wp_iunlock (h : RepM sb τ m a g s) (hl : k ∈ g.locks) :
    wp (iunlock k) (fun _ t => RepM sb τ m a { g with locks := g.locks.erase k } t ∧ t.disk = s.disk) (Stop σ) s := by
  have hheld := (h.cached.held k hl).1
  have hlk := (h.cached.locked k).2 hl
  unfold iunlock
  simp only [wp_bind, wp_get]
  rw [if_neg (by simp [hlk]; omega)]
  apply wp_setInode
  exact ⟨⟨h.vol, h.cached.unlock, h.sb, h.out⟩, rfl⟩

/-! ## Inodes and their blocks -/

/-- the disk after `balloc` -/
theorem view_balloc (wf : sb.WF) {d : Disk} {b : ℕ} (hb : b < sb.size) (hb' : sb.nmeta ≤ b) :
    view sb (update (setBit sb d b true) b fun _ => 0) = { view sb d with
      used := update (view sb d).used b true
      block := update (view sb d).block b fun _ => 0 } := by
  rw [view_update wf hb', view_setBit wf hb]

theorem RepM.alloc_addr (wf : sb.WF) (h : RepM sb τ m a g s) (hp : (k, i) ∈ g.pins) (hl : k ∈ g.locks)
    (hd : ∀ j, g.dirty = some j → j = i) {j : Fin (NDIRECT + 1)} (hz : (m i).addrs j = 0) {b : ℕ} (hb : b < sb.size)
    (hbit : bit sb s.disk b = false) (l : List ℕ) :
    let m' := update m i ((m i).setAddr j b)
    let t := { s with
      disk := update (setBit sb s.disk b true) b fun _ => 0
      icache := update s.icache k { s.icache k with ino := (s.icache k).ino.setAddr j b }
      lh := l }
    RepM sb τ m' a { g with dirty := some i } t ∧
      Allocated sb m (view sb s.disk).block (.addr i j) b m' (view sb t.disk).block ∧
      (Saved sb m s.disk i → Saved sb m' t.disk i) := by
  intro m' t
  obtain ⟨hino, ht⟩ := h.ino hl hp
  have hf : (view sb s.disk).used b = false := by rw [view_used hb, hbit]
  have hview : view sb t.disk = _ := view_balloc (d := s.disk) wf hb (h.vol.fresh_block wf hb hf).2.2
  have hnew := h.vol.allocated_addr wf (h.lt hl hp) ht hz hb hf
  refine ⟨⟨?_, ?_, h.sb, h.out⟩, ?_, fun hs => ?_⟩
  · rw [hview]
    exact h.vol.alloc_addr wf hd (h.lt hl hp) ht hz hb hf
  · rw [hview]
    simp only [t, hino]
    refine (h.cached.assign (b := g.newborn) (h.cached.holds_of_lock hl hp) ?_ ?_ ?_).ghost rfl rfl rfl rfl
    · exact ht
    · intro _ _
      rfl
    · intro _ _ hn
      exact hn
  · rw [hview]
    exact hnew
  · unfold Saved contents
    rw [hview, update_idem]
    funext l x
    rw [hnew.grown.bytes, h.vol.stored_addr (h.lt hl hp) hf]
    exact congrFun (congrFun hs l) x

theorem RepM.alloc_entry (wf : sb.WF) (h : RepM sb τ m a g s) (hp : (k, i) ∈ g.pins) (hl : k ∈ g.locks)
    (hd : ∀ j, g.dirty = some j → j = i) (hind : (m i).indirect ≠ 0) {j : Fin NINDIRECT}
    (hz : getLE (s.disk (m i).indirect) (4 * j) 4 = 0) {b : ℕ} (hb : b < sb.size)
    (hbit : bit sb s.disk b = false) (l : List ℕ) :
    let d := update (setBit sb s.disk b true) b fun _ => 0
    let t := { s with disk := update d (m i).indirect (putLE (d (m i).indirect) (4 * j) 4 b), lh := l }
    RepM sb τ m a { g with dirty := some i } t ∧
      Allocated sb m (view sb s.disk).block (.entry i j) b m (view sb t.disk).block ∧
      (¬τ → Saved sb m s.disk i → Saved sb m t.disk i) := by
  intro d t
  obtain ⟨hino, ht⟩ := h.ino hl hp
  have hi := h.lt hl hp
  have hf : (view sb s.disk).used b = false := by rw [view_used hb, hbit]
  have hpm : sb.nmeta ≤ (m i).indirect := (h.vol.map.range _ _ (own_indirect hi ht hind)).1
  have hview : view sb d = _ := view_balloc wf hb (h.vol.fresh_block wf hb hf).2.2
  have hview' : view sb t.disk = { view sb d with
      block := update (view sb d).block (m i).indirect
        (putLE ((view sb d).block (m i).indirect) (4 * j) 4 b) } := by
    rw [view_block hpm]
    exact view_update wf hpm _
  rw [hview] at hview'
  have hz' : getLE ((view sb s.disk).block (m i).indirect) (4 * j) 4 = 0 := by
    rw [view_block hpm]
    exact hz
  have hnew := h.vol.allocated_entry wf hi ht hind hz' hb hf
  refine ⟨⟨?_, ?_, h.sb, h.out⟩, ?_, fun hτ hs => ?_⟩
  · rw [hview']
    exact h.vol.alloc_entry wf hd hi ht hind hz' hb hf
  · rw [hview']
    exact h.cached.ghost rfl rfl rfl rfl
  · rw [hview']
    exact hnew
  · unfold Saved contents
    rw [hview']
    funext l x
    rw [hnew.grown.bytes]
    refine (h.vol.stored_entry wf hτ hi ht hind hz' hb hf l x).trans ?_
    exact congrFun (congrFun hs l) x

/-- the slot x of inode i had no block, and has the block b now -/
structure Mapped (sb : Superblock) (τ : Mode) (m : ℕ → Dinode) (a : ℕ → Node) (g : Ghost) (s : St) (i : ℕ) (x : Slot)
    (b : ℕ) (t : St) (m' : ℕ → Dinode) : Prop where
  was : own sb m (view sb s.disk).block x = none
  rep : RepM sb τ m' a { g with dirty := some i } t
  now : own sb m' (view sb t.disk).block x = some b
  grown : Grown sb m (view sb s.disk).block m' (view sb t.disk).block
  saved : ¬τ → Saved sb m s.disk i → Saved sb m' t.disk i

theorem wp_bmapEntry (wf : sb.WF) (h : RepM sb τ m a g s) (hp : (k, i) ∈ g.pins) (hl : k ∈ g.locks)
    (hd : ∀ j, g.dirty = some j → j = i) (hind : (m i).indirect ≠ 0) (j : Fin NINDIRECT) :
    wp (bmapEntry k j) (fun b t => own sb m (view sb s.disk).block (.entry i j) = some b ∧ t = s ∨
      ∃ m', Mapped sb τ m a g s i (.entry i j) b t m') (Stop σ) s := by
  obtain ⟨hino, ht⟩ := h.ino hl hp
  have hi := h.lt hl hp
  have hpm : sb.nmeta ≤ (m i).indirect := (h.vol.map.range _ _ (own_indirect hi ht hind)).1
  have hget : Slot.get m (view sb s.disk).block (.entry i j) = getLE (s.disk (m i).indirect) (4 * j) 4 := by
    rw [Slot.get, if_neg hind, view_block hpm]
  unfold bmapEntry
  simp only [wp_bind, wp_get, hino]
  apply wp_ite
  · intro hz
    rw [wp_bind]
    apply wp_balloc h.sb
    intro b hb hbit
    rw [wp_bind, wp_modify, wp_bind]
    apply wp_logWrite
    rw [wp_pure]
    obtain ⟨hrep, hnew, hsaved⟩ := h.alloc_entry wf hp hl hd hind hz hb hbit
      (addLog (addLog (addLog s.lh (sb.bblock b)) b) (m i).indirect)
    exact Or.inr ⟨m, hnew.was, hrep, by rw [hnew.own, update_self], hnew.grown, hsaved⟩
  · intro hz
    rw [wp_pure]
    exact Or.inl ⟨own_eq_some.2 ⟨⟨hi, ht⟩, hz, hget⟩, rfl⟩

/-- **`bmap`.** The block of the slot, or a new one. -/
theorem wp_bmap (wf : sb.WF) {bn : ℕ} (h : RepM sb τ m a g s) (hp : (k, i) ∈ g.pins) (hl : k ∈ g.locks)
    (hd : ∀ j, g.dirty = some j → j = i) (hbn : MAXFILE ≤ bn → σ (.panic .bmapRange)) :
    wp (bmap k bn) (fun b t => ∃ x, slotOf i bn = some x ∧
      (own sb m (view sb s.disk).block x = some b ∧ t = s ∨ ∃ m', Mapped sb τ m a g s i x b t m')) (Stop σ) s := by
  obtain ⟨hino, ht⟩ := h.ino hl hp
  have hi := h.lt hl hp
  unfold bmap
  simp only [wp_bind, wp_get]
  by_cases hdir : bn < NDIRECT
  · rw [dif_pos hdir]
    have hs : slotOf i bn = some (.addr i ⟨bn, by omega⟩) := by rw [slotOf, dif_pos hdir]
    rw [hino]
    apply wp_ite
    · intro hz
      rw [wp_bind]
      apply wp_balloc h.sb
      intro b hb hbit
      rw [wp_bind]
      apply wp_setInode
      rw [wp_pure]
      obtain ⟨hrep, hnew, hsaved⟩ := h.alloc_addr wf hp hl hd hz hb hbit (addLog (addLog s.lh (sb.bblock b)) b)
      exact ⟨_, hs, Or.inr ⟨_, hnew.was, hrep, by rw [hnew.own, update_self], hnew.grown, fun _ => hsaved⟩⟩
    · intro hz
      rw [wp_pure]
      refine ⟨_, hs, Or.inl ⟨own_eq_some.2 ⟨⟨hi, ht⟩, ?_, rfl⟩, rfl⟩⟩
      intro h0
      exact hz (BitVec.eq_of_toNat_eq h0)
  rw [dif_neg hdir]
  apply wp_ite
  · intro hrange
    have hs : slotOf i bn = some (.entry i ⟨bn - NDIRECT, hrange⟩) := by rw [slotOf, dif_neg hdir, dif_pos hrange]
    rw [hino]
    apply wp_ite
    · -- a new indirect block first: the entry is then free
      intro hz
      have hz' : (m i).addrs (Fin.last NDIRECT) = 0 := BitVec.eq_of_toNat_eq hz
      rw [wp_bind]
      apply wp_balloc h.sb
      intro b hb hbit
      rw [wp_bind]
      apply wp_setInode
      have hf : (view sb s.disk).used b = false := by rw [view_used hb, hbit]
      obtain ⟨hb0, hb32, -⟩ := h.vol.fresh_block wf hb hf
      obtain ⟨hrep, hnew, hsaved⟩ := h.alloc_addr wf hp hl hd hz' hb hbit (addLog (addLog s.lh (sb.bblock b)) b)
      have hind : (update m i ((m i).setAddr (Fin.last NDIRECT) b) i).indirect = b := by
        simp only [Dinode.indirect, Dinode.setAddr, update_self, BitVec.toNat_ofNat]
        exact Nat.mod_eq_of_lt hb32
      have hnone : own sb m (view sb s.disk).block (.entry i ⟨bn - NDIRECT, hrange⟩) = none := by
        rw [own, if_neg]
        rintro ⟨-, -, h0⟩
        exact h0 (if_pos hz)
      refine wp_imp (wp_bmapEntry wf hrep hp hl ?_ (by rw [hind]; exact hb0) ⟨bn - NDIRECT, hrange⟩) ?_
      · intro j hj
        exact (Option.some.inj hj).symm
      · rintro c t (⟨hc, -⟩ | ⟨m', hc⟩)
        · rw [hnew.own, update_of_ne Slot.noConfusion, hnone] at hc
          cases hc
        · exact ⟨_, hs, Or.inr ⟨m', hnone, hc.rep, hc.now, hnew.grown.trans hc.grown,
            fun hτ hs => hc.saved hτ (hsaved hs)⟩⟩
    · intro hz
      refine wp_imp (wp_bmapEntry wf h hp hl hd hz ⟨bn - NDIRECT, hrange⟩) ?_
      intro b t hb
      exact ⟨_, hs, hb⟩
  · intro hrange
    refine (wp_throw _ _).2 (Or.inr (hbn ?_))
    simp only [MAXFILE]
    omega

theorem wp_iupdate {Q : PUnit → St → Prop} (hinum : (s.icache k).inum = i)
    (h : Q ⟨⟩ { s with disk := setDinode s.sb s.disk i (s.icache k).ino, lh := addLog s.lh (s.sb.iblock i) }) :
    wp (iupdate k) Q (Stop σ) s := by
  subst hinum
  unfold iupdate
  simp only [wp_bind, wp_get, wp_set]
  exact wp_logWrite h

/-- an inode is changed in memory and stored; its slots stay -/
theorem RepM.store (wf : sb.WF) {x : Dinode} (h : RepM sb τ m a g s) (hk : (s.icache k).Holds i)
    (hi : i < sb.ninodes) (hd : ∀ j, g.dirty = some j → j = i) (hn : ∀ j, g.newborn = some j → j = i)
    (haddrs : x.addrs = (m i).addrs) (htype : x.type = (m i).type)
    (hfull : τ → (m i).type ≠ 0 → ∀ bn, bn * BSIZE < x.size.toNat →
      ∃ y b, slotOf i bn = some y ∧ own sb m (view sb s.disk).block y = some b)
    (hents : τ.dirs → (m i).type = Dinode.T_DIR → ∀ p, 16 ∣ p → p + 16 ≤ x.size.toNat →
      getLE (byteOf (own sb m (view sb s.disk).block) (view sb s.disk).block i) p 2 < sb.ninodes) (l : List ℕ) :
    RepM sb τ (update m i x) (update a i (nodeOf x (a i).data))
      { g with dirty := none, newborn := none } { s with
        disk := setDinode sb s.disk i x
        icache := update s.icache k { s.icache k with ino := x }
        lh := l } := by
  have ht : (m i).type ≠ 0 := (h.cached.copy k i hk).2
  refine ⟨?_, ?_, h.sb, h.out⟩
  · rw [view_setDinode wf hi]
    exact h.vol.store hd hi haddrs htype hfull hents
  · rw [view_setDinode wf hi]
    refine (h.cached.assign (b := none) hk (htype ▸ ht) ?_ ?_).ghost rfl rfl rfl rfl
    · intro j hj
      exact update_of_ne hj _ _
    · intro j hj _ hn'
      exact hj (hn j hn')

/-- **A change of an inode followed by `iupdate`.** -/
theorem wp_store (wf : sb.WF) {f : Dinode → Dinode} {Q : PUnit → St → Prop} (h : RepM sb τ m a g s)
    (hp : (k, i) ∈ g.pins) (hl : k ∈ g.locks) (hd : ∀ j, g.dirty = some j → j = i)
    (hn : ∀ j, g.newborn = some j → j = i) (haddrs : (f (m i)).addrs = (m i).addrs)
    (htype : (f (m i)).type = (m i).type)
    (hfull : τ → ∀ bn, bn * BSIZE < (f (m i)).size.toNat →
      ∃ y b, slotOf i bn = some y ∧ own sb m (view sb s.disk).block y = some b)
    (hents : τ.dirs → (m i).type = Dinode.T_DIR → ∀ p, 16 ∣ p → p + 16 ≤ (f (m i)).size.toNat →
      getLE (byteOf (own sb m (view sb s.disk).block) (view sb s.disk).block i) p 2 < sb.ninodes)
    (hQ : ∀ t, RepM sb τ (update m i (f (m i))) (update a i (nodeOf (f (m i)) (a i).data))
      { g with dirty := none, newborn := none } t →
      own sb (update m i (f (m i))) (view sb t.disk).block = own sb m (view sb s.disk).block →
      contents sb (update m i (f (m i))) t.disk = contents sb m s.disk → Q ⟨⟩ t) :
    wp (setInode k fun x => { x with ino := f x.ino }) (fun _ t => wp (iupdate k) Q (Stop σ) t) (Stop σ) s := by
  apply wp_setInode
  apply wp_iupdate (i := i) (by simpa using h.inum hp)
  refine hQ _ ?_ ?_ ?_
  rotate_left
  · dsimp only
    rw [h.sb, view_setDinode wf (h.lt hl hp)]
    exact own_attrs haddrs htype
  · rw [contents, contents]
    dsimp only
    rw [h.sb, view_setDinode wf (h.lt hl hp)]
    dsimp only
    rw [own_attrs haddrs htype]
  have := h.store wf (h.cached.holds_of_lock hl hp) (h.lt hl hp) hd hn haddrs htype (fun hτ _ => hfull hτ) hents
    (addLog s.lh (sb.iblock i))
  rw [← (h.ino hl hp).1] at this ⊢
  simpa only [update_self, h.sb] using this

end

end Xv6.Fs
