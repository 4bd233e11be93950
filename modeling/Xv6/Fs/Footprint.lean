/-
The blocks that the functions of `fs.c` add to a transaction.

`Logged A s t` says that from s to t only blocks in A have been added to the log header, and that nothing above the
inodes has changed. It is followed along a function to the point where it returns and to the point where it stops, so
that it also says how full the log is when `log_write` gives up. `avail` counts the free blocks. What `bmap` takes from
both is said by `wp_bmap_spends`: a block of the free map, the new block and the indirect block.
-/
import Xv6.Fs.Content

namespace Xv6.Fs

open Xv6.Bytes Xv6.Wp Function

/-! ## What a transaction gets -/

/-- from s to t blocks in A have been added to the transaction -/
structure Logged (A : Set ℕ) (s t : St) : Prop where
  blocks : ∃ l, t.lh = s.lh ++ l ∧ l.Nodup ∧ ∀ b ∈ l, b ∉ s.lh ∧ b ∈ A
  sb : t.sb = s.sb
  out : t.out = s.out
  logsize : t.logsize = s.logsize

namespace Logged

variable {A B : Set ℕ} {s t u : St} {b : ℕ}

/-- the transaction is left as it is -/
theorem of_eq (hlh : t.lh = s.lh) (hsb : t.sb = s.sb) (hout : t.out = s.out) (hsize : t.logsize = s.logsize) :
    Logged A s t where
  blocks := ⟨[], by rw [hlh, List.append_nil], List.nodup_nil, fun _ hb => by cases hb⟩
  sb := hsb
  out := hout
  logsize := hsize

theorem refl (A : Set ℕ) (s : St) : Logged A s s := of_eq rfl rfl rfl rfl

theorem mono (h : Logged A s t) (hAB : A ⊆ B) : Logged B s t := by
  obtain ⟨l, hl, hnodup, hmem⟩ := h.blocks
  exact ⟨⟨l, hl, hnodup, fun b hb => ⟨(hmem b hb).1, hAB (hmem b hb).2⟩⟩, h.sb, h.out, h.logsize⟩

theorem trans (h : Logged A s t) (h' : Logged A t u) : Logged A s u := by
  obtain ⟨l, hl, hnodup, hmem⟩ := h.blocks
  obtain ⟨l', hl', hnodup', hmem'⟩ := h'.blocks
  refine ⟨⟨l ++ l', ?_, ?_, ?_⟩, h'.sb.trans h.sb, h'.out.trans h.out, h'.logsize.trans h.logsize⟩
  · rw [hl', hl, List.append_assoc]
  · apply hnodup.append hnodup'
    intro b hb hb'
    apply (hmem' b hb').1
    rw [hl]
    exact List.mem_append_right _ hb
  · intro b hb
    rcases List.mem_append.1 hb with hb | hb
    · exact hmem b hb
    · refine ⟨fun hs => (hmem' b hb).1 ?_, (hmem' b hb).2⟩
      rw [hl]
      exact List.mem_append_left _ hs

/-- **The size of a transaction.** -/
theorem length_le {F : Finset ℕ} (h : Logged A s t) (hA : A ⊆ F) : t.lh.length ≤ s.lh.length + F.card := by
  obtain ⟨l, hl, hnodup, hmem⟩ := h.blocks
  rw [hl, List.length_append, ← List.toFinset_card_of_nodup hnodup]
  apply Nat.add_le_add_left
  apply Finset.card_le_card
  intro b hb
  exact hA (hmem b (List.mem_toFinset.1 hb)).2

theorem addLog (hb : b ∈ A) : Logged A s { s with lh := addLog s.lh b } := by
  unfold Fs.addLog
  split_ifs with hmem
  · exact of_eq rfl rfl rfl rfl
  · refine ⟨⟨[b], rfl, List.nodup_singleton b, ?_⟩, rfl, rfl, rfl⟩
    intro c hc
    obtain rfl := List.mem_singleton.1 hc
    exact ⟨hmem, hb⟩

end Logged

/-- why a function stops that only allocates and logs blocks -/
def Halt (e : Fault) (t : St) : Prop :=
  e = .panic .outOfBlocks ∨
  e = .panic .tooBigTransaction ∧ (LOGSIZE ≤ t.lh.length ∨ t.logsize - 1 ≤ t.lh.length) ∨
  e = .panic .logWriteOutsideTrans ∧ t.out.outstanding < 1

/-- the blocks of the free map -/
def Superblock.maps (sb : Superblock) : Finset ℕ :=
  (Finset.range ((sb.size + BPB - 1) / BPB)).image (· + sb.bmapstart)

theorem Superblock.bblock_mem_maps {sb : Superblock} {b : ℕ} (hb : b < sb.size) : sb.bblock b ∈ sb.maps := by
  apply Finset.mem_image_of_mem
  rw [Finset.mem_range]
  simp only [BPB, BSIZE]
  omega

/-- the blocks of the bytes off, .., off + n - 1 of a file -/
def blocks (off n : ℕ) : Finset ℕ := (Finset.Ico off (off + n)).image (· / BSIZE)

/-- the first round of the loops of `readi` and `writei` is over the first block, and the others are left -/
theorem blocks_split {off n m₁ n₂ : ℕ} (hn : n = m₁ + n₂) (hm : min n (BSIZE - off % BSIZE) = m₁) (h0 : n ≠ 0) :
    blocks off n = insert (off / BSIZE) (blocks (off + m₁) n₂) ∧ off / BSIZE ∉ blocks (off + m₁) n₂ := by
  have hmod := Nat.mod_lt off (show 0 < BSIZE by decide)
  simp only [BSIZE] at hm hmod
  constructor
  · ext bn
    simp only [blocks, Finset.mem_image, Finset.mem_Ico, Finset.mem_insert, BSIZE]
    constructor
    · rintro ⟨p, hp, rfl⟩
      by_cases hlt : p < off + m₁
      · exact Or.inl (by omega)
      · exact Or.inr ⟨p, by omega, rfl⟩
    · rintro (rfl | ⟨p, hp, rfl⟩)
      · exact ⟨off, by omega, rfl⟩
      · exact ⟨p, by omega, rfl⟩
  · simp only [blocks, Finset.mem_image, Finset.mem_Ico, BSIZE, not_exists, not_and]
    intro p hp
    omega

section

variable {A : Set ℕ} {s₀ s : St} {sb : Superblock} {τ : Mode} {m : ℕ → Dinode} {a : ℕ → Node} {g : Ghost}
  {k : Fin NINODE} {i : ℕ}

/-! ## Blocks -/

/-- a function has stopped that has not come to the inode cache -/
structure Halted (A : Set ℕ) (s₀ s : St) (e : Fault) (t : St) : Prop where
  logged : Logged A s₀ t
  halt : Halt e t
  icache : t.icache = s.icache

theorem wp_logWrite_logged (b : ℕ) (h : Logged A s₀ s) :
    wp (logWrite b) (fun _ t => Logged (insert b A) s₀ t ∧ t = { s with lh := addLog s.lh b })
      (fun e t => Halted A s₀ s e t ∧ e ≠ .panic .outOfBlocks) s := by
  unfold logWrite
  simp only [wp_bind, wp_get]
  apply wp_ite
  · intro hfull
    exact (wp_throw _ _).2 ⟨⟨h, Or.inr (Or.inl ⟨rfl, by simpa using hfull⟩), rfl⟩, by simp⟩
  intro _
  apply wp_ite
  · intro hout
    exact (wp_throw _ _).2 ⟨⟨h, Or.inr (Or.inr ⟨rfl, hout⟩), rfl⟩, by simp⟩
  · intro _
    refine (wp_set _ _).2 ⟨?_, rfl⟩
    exact (h.mono (Set.subset_insert b A)).trans (Logged.addLog (Set.mem_insert b A))

/-- a change of the disk or of the inode cache -/
theorem Logged.keep {t : St} (h : Logged A s₀ s) (hlh : t.lh = s.lh) (hsb : t.sb = s.sb) (hout : t.out = s.out)
    (hsize : t.logsize = s.logsize) : Logged A s₀ t := h.trans (of_eq hlh hsb hout hsize)

/-- the free blocks -/
def avail (sb : Superblock) (d : Disk) : ℕ := ((Finset.range sb.size).filter fun b => (view sb d).used b = false).card

theorem avail_congr {d d' : Disk} (h : (view sb d').used = (view sb d).used) : avail sb d' = avail sb d := by
  unfold avail
  rw [h]

/-- a free block is taken -/
theorem avail_take {d d' : Disk} {b : ℕ} (hb : b < sb.size) (hf : (view sb d).used b = false)
    (h : (view sb d').used = update (view sb d).used b true) : avail sb d' + 1 = avail sb d := by
  have hmem : b ∈ (Finset.range sb.size).filter fun b => (view sb d).used b = false := by simp [hb, hf]
  unfold avail
  rw [← Finset.card_erase_add_one hmem]
  congr 2
  ext c
  simp only [h, Finset.mem_filter, Finset.mem_range, Finset.mem_erase]
  by_cases hc : c = b
  · simp [hc]
  · simp [hc]

theorem avail_eq_zero {d : Disk} (h : ∀ b < sb.size, bit sb d b = true) : avail sb d = 0 := by
  unfold avail
  rw [Finset.card_eq_zero, Finset.filter_eq_empty_iff]
  intro b hb
  rw [Finset.mem_range] at hb
  rw [view_used hb, h b hb]
  simp

/-- **`balloc`.** One free block; the transaction gets a block of the free map and the new block. -/
theorem wp_balloc_spends (wf : sb.WF) (h : RepM sb τ m a g s) (hA : ↑sb.maps ⊆ A) (hlog : Logged A s₀ s) :
    wp balloc (fun b t => Logged (insert b A) s₀ t ∧ t.icache = s.icache ∧ b ≠ 0 ∧ b < 2 ^ 32 ∧ sb.nmeta ≤ b ∧
        avail sb t.disk + 1 = avail sb s.disk)
      (fun e t => Halted A s₀ s e t ∧ (e = .panic .outOfBlocks → avail sb s.disk = 0)) s := by
  obtain rfl := h.sb
  unfold balloc
  simp only [wp_bind, wp_get]
  cases hf : findFree s.sb s.disk with
  | none => exact (wp_throw _ _).2 ⟨⟨hlog, Or.inl rfl, rfl⟩, fun _ => avail_eq_zero (findFree_none hf)⟩
  | some b =>
    obtain ⟨hb, hbit⟩ := findFree_some hf
    have hused : (view s.sb s.disk).used b = false := by rw [view_used hb, hbit]
    obtain ⟨hb0, hb32, hbm⟩ := h.vol.fresh_block wf hb hused
    have hmap : s.sb.bblock b ∈ A := hA (Superblock.bblock_mem_maps hb)
    simp only [wp_bind, wp_set]
    refine wp_mono (wp_logWrite_logged _ (hlog.keep rfl rfl rfl rfl)) ?_
      (fun e t he => ⟨⟨he.1.logged, he.1.halt, he.1.icache⟩, fun h => absurd h he.2⟩)
    rintro _ _ ⟨ht, rfl⟩
    rw [Set.insert_eq_of_mem hmap] at ht
    unfold bzero
    simp only [wp_bind, wp_modify]
    refine wp_mono (wp_logWrite_logged _ (ht.keep rfl rfl rfl rfl)) ?_
      (fun e t he => ⟨⟨he.1.logged, he.1.halt, he.1.icache⟩, fun h => absurd h he.2⟩)
    rintro _ _ ⟨hu, rfl⟩
    refine wp_return ⟨hu, rfl, hb0, hb32, hbm, avail_take hb hused ?_⟩
    exact congrArg View.used (view_balloc wf hb hbm)

/-! ## Inode content -/

/-- the slots that `bmap` looks into for block bn of inode i -/
def path (i bn : ℕ) : Finset Slot :=
  if h : bn < NDIRECT then {.addr i ⟨bn, Nat.lt_succ_of_lt h⟩}
  else if h : bn - NDIRECT < NINDIRECT then {.addr i (Fin.last NDIRECT), .entry i ⟨bn - NDIRECT, h⟩}
  else ∅

/-- those of the slots S that have no block -/
def missing (o : Slot → Option ℕ) (S : Finset Slot) : Finset Slot := S.filter fun x => o x = none

/-- a block that is there has its slots filled -/
theorem path_filled {blk : ℕ → Store} {bn b : ℕ} {x y : Slot} (hs : slotOf i bn = some x)
    (ho : own sb m blk x = some b) (hy : y ∈ path i bn) : own sb m blk y ≠ none := by
  unfold slotOf at hs
  unfold path at hy
  by_cases hdir : bn < NDIRECT
  · rw [dif_pos hdir] at hs hy
    cases hs
    obtain rfl := Finset.mem_singleton.1 hy
    rw [ho]
    simp
  · rw [dif_neg hdir] at hs hy
    by_cases hrange : bn - NDIRECT < NINDIRECT
    · rw [dif_pos hrange] at hs hy
      cases hs
      rw [Finset.mem_insert, Finset.mem_singleton] at hy
      obtain rfl | rfl := hy
      · obtain ⟨⟨hi, ht⟩, h0, hget⟩ := own_eq_some.1 ho
        have hind : (m i).indirect ≠ 0 := by
          intro hz
          rw [Slot.get, if_pos hz] at hget
          exact h0 hget.symm
        rw [own_indirect (i := i) hi ht hind]
        simp
      · rw [ho]
        simp
    · rw [dif_neg hrange] at hs
      cases hs

theorem card_missing_of_none {o : Slot → Option ℕ} {x : Slot} (h : o x = none) : (missing o {x}).card = 1 := by
  simp [missing, Finset.filter_singleton, h]

theorem card_missing_of_some {o : Slot → Option ℕ} {x : Slot} {b : ℕ} (h : o x = some b) : (missing o {x}).card = 0 := by
  simp [missing, Finset.filter_singleton, h]

/-- the indirect block of an entry of the inode cache, if it has one -/
def indirects (k : Fin NINODE) (s : St) : Set ℕ := { b | b ≠ 0 ∧ b = (s.icache k).ino.indirect }

theorem indirects_congr {t : St} (h : (t.icache k).ino.indirect = (s.icache k).ino.indirect) :
    indirects k t = indirects k s := by
  unfold indirects
  rw [h]

/-- what `bmap` has done to the transaction and to the free blocks; need: the slots it had to fill -/
structure Spent (A : Set ℕ) (sb : Superblock) (s₀ s : St) (k : Fin NINODE) (need : ℕ) (b : ℕ) (t : St) : Prop where
  logged : Logged (insert b (A ∪ indirects k t)) s₀ t
  mono : indirects k s ⊆ indirects k t
  data : sb.nmeta ≤ b
  avail : avail sb t.disk + need = avail sb s.disk

/-- `bmap` has stopped -/
structure Broke (A : Set ℕ) (sb : Superblock) (s₀ s : St) (k : Fin NINODE) (need : ℕ) (e : Fault) (t : St) : Prop where
  logged : ∃ b, Logged (insert b (A ∪ indirects k t)) s₀ t
  halt : Halt e t
  avail : e = .panic .outOfBlocks → avail sb s.disk < need

theorem Halted.broke {e : Fault} {t : St} {need : ℕ} (h : Halted (A ∪ indirects k s) s₀ s e t)
    (ha : e = .panic .outOfBlocks → Fs.avail sb s.disk < need) : Broke A sb s₀ s k need e t where
  logged := ⟨0, by
    rw [indirects_congr (k := k) (s := s) (by rw [h.icache])]
    exact h.logged.mono (Set.subset_insert _ _)⟩
  halt := h.halt
  avail := ha

theorem wp_bmapEntry_spends (wf : sb.WF) (h : RepM sb τ m a g s) (hp : (k, i) ∈ g.pins) (hl : k ∈ g.locks)
    (hind : (m i).indirect ≠ 0) (j : Fin NINDIRECT) (hA : ↑sb.maps ⊆ A) (hlog : Logged (A ∪ indirects k s) s₀ s) :
    wp (bmapEntry k j) (Spent A sb s₀ s k (missing (own sb m (view sb s.disk).block) {.entry i j}).card)
      (Broke A sb s₀ s k (missing (own sb m (view sb s.disk).block) {.entry i j}).card) s := by
  obtain ⟨hino, ht⟩ := h.ino hl hp
  have hi := h.lt hl hp
  have hpm : sb.nmeta ≤ (m i).indirect := (h.vol.map.range _ _ (own_indirect hi ht hind)).1
  have hget : Slot.get m (view sb s.disk).block (.entry i j) = getLE (s.disk (m i).indirect) (4 * j) 4 := by
    rw [Slot.get, if_neg hind, view_block hpm]
  have hpA : (m i).indirect ∈ A ∪ indirects k s := Or.inr ⟨hind, by rw [hino]⟩
  unfold bmapEntry
  simp only [wp_bind, wp_get, hino]
  apply wp_ite
  · intro hz
    have hnone : own sb m (view sb s.disk).block (.entry i j) = none := by
      rw [own, if_neg]
      rintro ⟨-, -, h0⟩
      exact h0 (hget.trans hz)
    rw [card_missing_of_none hnone, wp_bind]
    refine wp_mono (wp_balloc_spends wf h (hA.trans Set.subset_union_left) hlog) ?_
      (fun e t he => he.1.broke fun h => by have := he.2 h; omega)
    rintro b t ⟨ht, hc, -, -, hbm, hav⟩
    simp only [wp_bind, wp_modify]
    refine wp_mono (wp_logWrite_logged _ (ht.keep rfl rfl rfl rfl)) ?_ ?_
    · rintro _ u ⟨hu, rfl⟩
      rw [Set.insert_eq_of_mem (Set.mem_insert_of_mem _ hpA)] at hu
      have hsame := indirects_congr (k := k) (s := s) (t := { t with
        disk := update t.disk (m i).indirect (putLE (t.disk (m i).indirect) (4 * j) 4 b)
        lh := addLog t.lh (m i).indirect }) (by rw [hc])
      refine wp_return ⟨by rwa [hsame], hsame.ge, hbm, ?_⟩
      rw [← hav, avail_congr]
      dsimp only
      rw [view_update wf hpm]
    · rintro e u ⟨hu, hne⟩
      refine ⟨⟨b, ?_⟩, hu.halt, fun he => absurd he hne⟩
      rw [indirects_congr (k := k) (s := s) (by rw [hu.icache, hc])]
      exact hu.logged
  · intro hz
    have hsome : own sb m (view sb s.disk).block (.entry i j) = some _ := own_eq_some.2 ⟨⟨hi, ht⟩, hz, hget⟩
    rw [card_missing_of_some hsome]
    exact wp_return ⟨hlog.mono (Set.subset_insert _ _), le_rfl, (h.vol.map.range _ _ hsome).1, rfl⟩

/-- **`bmap`.** A free block for each slot it has to fill; the transaction gets the free map, the indirect block and the
block that is returned. -/
theorem wp_bmap_spends (wf : sb.WF) {bn : ℕ} (h : RepM sb τ m a g s) (hp : (k, i) ∈ g.pins) (hl : k ∈ g.locks)
    (hd : ∀ j, g.dirty = some j → j = i) (hbn : bn < MAXFILE) (hA : ↑sb.maps ⊆ A)
    (hlog : Logged (A ∪ indirects k s) s₀ s) :
    wp (bmap k bn) (Spent A sb s₀ s k (missing (own sb m (view sb s.disk).block) (path i bn)).card)
      (Broke A sb s₀ s k (missing (own sb m (view sb s.disk).block) (path i bn)).card) s := by
  obtain ⟨hino, ht⟩ := h.ino hl hp
  have hi := h.lt hl hp
  have hA' : ↑sb.maps ⊆ A ∪ indirects k s := hA.trans Set.subset_union_left
  unfold bmap path
  simp only [wp_bind, wp_get]
  by_cases hdir : bn < NDIRECT
  · rw [dif_pos hdir, dif_pos hdir, hino]
    apply wp_ite
    · intro hz
      have hnone : own sb m (view sb s.disk).block (.addr i ⟨bn, by omega⟩) = none := by
        rw [own, if_neg]
        rintro ⟨-, -, h0⟩
        exact h0 (by rw [Slot.get, hz]; rfl)
      rw [card_missing_of_none hnone, wp_bind]
      refine wp_mono (wp_balloc_spends wf h hA' hlog) ?_ (fun e t he => he.1.broke fun h => by have := he.2 h; omega)
      rintro b t ⟨hlog', hc, -, -, hbm, hav⟩
      rw [wp_bind]
      apply wp_setInode
      rw [wp_pure]
      have hne : Fin.last NDIRECT ≠ ⟨bn, by omega⟩ := by
        intro he
        have := congrArg Fin.val he
        simp at this
        omega
      have hsame : ((t.icache k).ino.setAddr ⟨bn, by omega⟩ b).indirect = (s.icache k).ino.indirect := by
        rw [hc, Dinode.indirect, Dinode.setAddr]
        dsimp only
        rw [update_of_ne hne]
        rfl
      have hind := indirects_congr (k := k) (s := s) (t := { t with
        icache := update t.icache k { t.icache k with ino := (t.icache k).ino.setAddr ⟨bn, by omega⟩ b } })
        (by simpa using hsame)
      exact ⟨by rw [hind]; exact hlog'.keep rfl rfl rfl rfl, hind.ge, hbm, hav⟩
    · intro hz
      have hsome : own sb m (view sb s.disk).block (.addr i ⟨bn, by omega⟩) = some _ :=
        own_eq_some.2 ⟨⟨hi, ht⟩, fun h0 => hz (BitVec.eq_of_toNat_eq h0), rfl⟩
      rw [card_missing_of_some hsome]
      exact wp_return ⟨hlog.mono (Set.subset_insert _ _), le_rfl, (h.vol.map.range _ _ hsome).1, rfl⟩
  have hrange : bn - NDIRECT < NINDIRECT := by simp only [MAXFILE] at hbn; omega
  rw [dif_neg hdir, dif_neg hdir, dif_pos hrange, if_pos hrange, hino]
  apply wp_ite
  · -- both slots are to be filled
    intro hz
    have hz' : (m i).addrs (Fin.last NDIRECT) = 0 := BitVec.eq_of_toNat_eq hz
    have hnone : own sb m (view sb s.disk).block (.addr i (Fin.last NDIRECT)) = none := by
      rw [own, if_neg]
      rintro ⟨-, -, h0⟩
      exact h0 hz
    have hnone' : own sb m (view sb s.disk).block (.entry i ⟨bn - NDIRECT, hrange⟩) = none := by
      rw [own, if_neg]
      rintro ⟨-, -, h0⟩
      exact h0 (if_pos hz)
    have hcard : (missing (own sb m (view sb s.disk).block)
        {.addr i (Fin.last NDIRECT), .entry i ⟨bn - NDIRECT, hrange⟩}).card = 2 := by
      rw [missing, Finset.filter_true_of_mem, Finset.card_pair Slot.noConfusion]
      intro y hy
      rw [Finset.mem_insert, Finset.mem_singleton] at hy
      obtain rfl | rfl := hy
      · exact hnone
      · exact hnone'
    have hempty : indirects k s = ∅ := by
      rw [Set.eq_empty_iff_forall_notMem]
      rintro c ⟨h0, hc⟩
      rw [hino, hz] at hc
      exact h0 hc
    rw [hcard, wp_bind]
    refine wp_mono (wp_and (wp_balloc (σ := fun _ => False) (Q := fun b t => b < sb.size ∧ bit sb s.disk b = false ∧ t = _) h.sb
      fun b hb hbit => ⟨hb, hbit, rfl⟩) (wp_balloc_spends wf h hA' hlog)) ?_
      (fun e t he => he.2.1.broke fun h => by have := he.2.2 h; omega)
    rintro b t ⟨⟨hb, hbit, rfl⟩, hlog', hc, hb0, hb32, hbm, hav⟩
    rw [wp_bind]
    apply wp_setInode
    obtain ⟨hrep, hnew, -⟩ := h.alloc_addr wf hp hl hd hz' hb hbit (addLog (addLog s.lh (sb.bblock b)) b)
    have hind : (update m i ((m i).setAddr (Fin.last NDIRECT) b) i).indirect = b := by
      simp only [Dinode.indirect, Dinode.setAddr, update_self, BitVec.toNat_ofNat]
      exact Nat.mod_eq_of_lt hb32
    dsimp only
    generalize hu : ({ s with
      disk := update (setBit sb s.disk b true) b fun _ => 0
      icache := update s.icache k { s.icache k with ino := (s.icache k).ino.setAddr (Fin.last NDIRECT) b }
      lh := addLog (addLog s.lh (sb.bblock b)) b } : St) = u at hrep hnew ⊢
    have hown : own sb (update m i ((m i).setAddr (Fin.last NDIRECT) b)) (view sb u.disk).block
        (.entry i ⟨bn - NDIRECT, hrange⟩) = none := by
      rw [hnew.own, update_of_ne Slot.noConfusion, hnone']
    have hbu : b ∈ indirects k u := by
      refine ⟨hb0, ?_⟩
      rw [(hrep.ino hl hp).1, hind]
    have hlogu : Logged (A ∪ indirects k u) s₀ u := by
      rw [hempty, Set.union_empty] at hlog'
      subst hu
      refine (hlog'.mono ?_).keep rfl rfl rfl rfl
      exact Set.insert_subset (Or.inr hbu) Set.subset_union_left
    have havu : avail sb u.disk + 1 = avail sb s.disk := by
      subst hu
      exact hav
    refine wp_mono (wp_bmapEntry_spends wf hrep hp hl (by rw [hind]; exact hb0) ⟨bn - NDIRECT, hrange⟩ hA hlogu) ?_ ?_
    · intro c t ht
      have := ht.avail
      rw [card_missing_of_none hown] at this
      exact ⟨ht.logged, by rw [hempty]; exact Set.empty_subset _, ht.data, by omega⟩
    · intro e t ht
      refine ⟨ht.logged, ht.halt, fun he => ?_⟩
      have := ht.avail he
      rw [card_missing_of_none hown] at this
      omega
  · intro hz
    have hcard : missing (own sb m (view sb s.disk).block)
        {.addr i (Fin.last NDIRECT), .entry i ⟨bn - NDIRECT, hrange⟩} =
        missing (own sb m (view sb s.disk).block) {.entry i ⟨bn - NDIRECT, hrange⟩} := by
      rw [missing, Finset.filter_insert, if_neg]
      · rfl
      · rw [own_indirect hi ht hz]
        simp
    rw [hcard]
    exact wp_bmapEntry_spends wf h hp hl hz ⟨bn - NDIRECT, hrange⟩ hA hlog

end

end Xv6.Fs
