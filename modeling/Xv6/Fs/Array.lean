/-
`readi` and `writei` as operations on an array of bytes.

`writei_array`: on an inode without holes, among inodes that share no block with it, with the free blocks it needs and
room in the running transaction, `writei` and `readi` do to the inode what assigning to and reading from a stretch of an
array does. Nothing is asked of the other inodes: they may have holes, and directories may hold anything. The argument
has two parts: what changes (`wp_writei`), and what the loop adds to the transaction and allocates, where it fills holes
(`round_spends`) and where it does not (`round_mapped`).
-/
import Xv6.Fs.Blank
import Xv6.Fs.Footprint

namespace Xv6.Fs

open Xv6.Bytes Xv6.Wp

section

variable {A : Set ℕ} {s₀ s : St} {sb : Superblock} {τ : Mode} {m : ℕ → Dinode} {a : ℕ → Node} {g : Ghost}
  {k : Fin NINODE} {i : ℕ}

/-- the slots of the blocks that hold the bytes off, .., off + n - 1 of inode i -/
def span (i off n : ℕ) : Finset Slot := (blocks off n).biUnion (path i)

/-- blocks in A, the indirect block and at most c others have been added to the transaction -/
def Budget (A : Set ℕ) (s₀ : St) (k : Fin NINODE) (c : ℕ) (t : St) : Prop :=
  ∃ F : Finset ℕ, F.card ≤ c ∧ Logged (A ∪ indirects k t ∪ F) s₀ t

/-- the slots S have been filled, and other slots may have been -/
theorem card_missing_rest {o o' : Slot → Option ℕ} {S T : Finset Slot} (hmono : ∀ x b, o x = some b → o' x = some b)
    (hfill : ∀ x ∈ S, o' x ≠ none) : (missing o' T).card + (missing o S).card ≤ (missing o (S ∪ T)).card := by
  rw [← Finset.card_union_of_disjoint]
  · apply Finset.card_le_card
    intro x hx
    simp only [missing, Finset.mem_union, Finset.mem_filter] at hx ⊢
    rcases hx with ⟨hx, hnone⟩ | ⟨hx, hnone⟩
    · refine ⟨Or.inr hx, ?_⟩
      cases ho : o x with
      | none => rfl
      | some b => rw [hmono x b ho] at hnone; cases hnone
    · exact ⟨Or.inl hx, hnone⟩
  · rw [Finset.disjoint_left]
    intro x hx hx'
    simp only [missing, Finset.mem_filter] at hx hx'
    exact hfill x hx'.1 hx.2

/-- in the loop of `writei` with a budget of c blocks: one is used for each block of the file, and the free blocks are
enough for what is left -/
def Spending (A : Set ℕ) (sb : Superblock) (s₀ : St) (k : Fin NINODE) (i c : ℕ) (m : ℕ → Dinode) (off n : ℕ) (s : St) : Prop :=
  (∃ F : Finset ℕ, F.card + (blocks off n).card ≤ c ∧ Logged (A ∪ indirects k s ∪ F) s₀ s) ∧
    (missing (own sb m (view sb s.disk).block) (span i off n)).card ≤ avail sb s.disk

theorem round_spends (wf : sb.WF) (hA : ↑sb.maps ⊆ A) (c : ℕ) :
    Round sb τ k i (Spending A sb s₀ k i c) fun e t => Budget A s₀ k c t ∧ Halt e t ∧ e ≠ .panic .outOfBlocks := by
  rintro m a g s src off n₁ n₂ h hp hl hd h0 hn₁ hbn ⟨⟨F, hF, hlog⟩, hfree⟩
  obtain ⟨hblocks, hnot⟩ := blocks_split rfl hn₁ h0
  have hspan : span i off (n₁ + n₂) = path i (off / BSIZE) ∪ span i (off + n₁) n₂ := by
    rw [span, hblocks, Finset.biUnion_insert]
    rfl
  have hswap : ∀ t : St, A ∪ indirects k t ∪ F = A ∪ F ∪ indirects k t := fun t => Set.union_right_comm _ _ _
  have hjoin : ∀ (b : ℕ) (t : St), insert b (A ∪ F ∪ indirects k t) = A ∪ indirects k t ∪ ↑(insert b F) := fun b t => by
    rw [Finset.coe_insert, Set.union_insert, hswap]
  rw [hblocks, Finset.card_insert_of_notMem hnot] at hF
  rw [hswap] at hlog
  have hcard : ∀ b, (insert b F).card + (blocks (off + n₁) n₂).card ≤ c := fun b => by
    have := Finset.card_insert_le b F
    omega
  refine wp_mono (wp_bmap_spends wf h hp hl hd hbn (hA.trans Set.subset_union_left) hlog) ?_ ?_
  · intro b t hspent m' d hw
    have hlogt := hspent.logged
    rw [hjoin] at hlogt
    refine wp_mono (wp_logWrite_logged b (hlogt.keep rfl rfl rfl rfl)) ?_ ?_
    · rintro _ _ ⟨hlog', rfl⟩
      rw [Set.insert_eq_of_mem (Set.mem_union_right _ (Finset.mem_coe.2 (Finset.mem_insert_self b F)))] at hlog'
      refine ⟨⟨insert b F, hcard b, hlog'⟩, ?_⟩
      have hmod := Nat.mod_lt off (show 0 < BSIZE by decide)
      obtain ⟨y, x, hs, ho⟩ := hw.full off le_rfl (by omega)
      have hrest := card_missing_rest (S := path i (off / BSIZE)) (T := span i (off + n₁) n₂) hw.mono
        fun x hx => path_filled hs ho hx
      have hav := hspent.avail
      have hsame : avail sb (t.copy b src off n₁).disk = avail sb t.disk := by
        rw [avail_congr]
        rw [St.copy, view_update wf hspent.data]
      rw [hspan] at hfree
      dsimp only at hrest ⊢
      rw [hsame]
      omega
    · rintro e u ⟨hu, hne⟩
      refine ⟨⟨insert b F, by have := hcard b; omega, ?_⟩, hu.halt, hne⟩
      rw [indirects_congr (k := k) (s := t) (by rw [hu.icache]; rfl)]
      exact hu.logged
  · rintro e t hbroke
    obtain ⟨b, hb⟩ := hbroke.logged
    rw [hjoin] at hb
    refine ⟨⟨insert b F, by have := hcard b; omega, hb⟩, hbroke.halt, fun he => ?_⟩
    have := hbroke.avail he
    have hle : (missing (own sb m (view sb s.disk).block) (path i (off / BSIZE))).card ≤
        (missing (own sb m (view sb s.disk).block) (span i off (n₁ + n₂))).card := by
      apply Finset.card_le_card
      rw [hspan]
      exact Finset.filter_subset_filter _ Finset.subset_union_left
    omega

theorem wp_extend_spends {off n c : ℕ} (hb : s.sb.iblock (s.icache k).inum ∈ A) (h : Budget A s₀ k c s) :
    wp (extend k off n) (fun _ t => Budget A s₀ k c t)
      (fun e t => Budget A s₀ k c t ∧ Halt e t ∧ e ≠ .panic .outOfBlocks) s := by
  unfold extend
  simp only [wp_bind, wp_get]
  apply wp_ite
  · intro _
    obtain ⟨F, hF, hlog⟩ := h
    rw [wp_bind]
    apply wp_setInode
    unfold iupdate
    simp only [wp_bind, wp_get, wp_set, Function.update_self]
    have hsame : ∀ t : St, (t.icache k).ino.indirect = (s.icache k).ino.indirect →
        Logged (A ∪ indirects k s ∪ F) s₀ t → Budget A s₀ k c t := by
      intro t ht hlog'
      rw [← indirects_congr ht] at hlog'
      exact ⟨F, hF, hlog'⟩
    refine wp_mono (wp_logWrite_logged _ (hlog.keep rfl rfl rfl rfl)) ?_ ?_
    · rintro _ _ ⟨hlog', rfl⟩
      rw [Set.insert_eq_of_mem (Set.mem_union_left _ (Set.mem_union_left _ hb))] at hlog'
      refine hsame _ ?_ hlog'
      simp [Dinode.indirect]
    · rintro e t ⟨ht, hne⟩
      refine ⟨hsame t ?_ ht.logged, ht.halt, hne⟩
      rw [ht.icache]
      simp [Dinode.indirect]
  · intro _
    exact wp_return h

/-- **What `writei` takes.** -/
theorem wp_writei_spends (wf : sb.WF) (h : RepM sb τ m a g s) (hp : (k, i) ∈ g.pins) (hl : k ∈ g.locks)
    (hd : g.dirty = none) {src : Store} {off n : ℕ} (htype : (m i).type ≠ Dinode.T_DEV)
    (hents : τ.dirs → (a i).type = Dinode.T_DIR → Aligned sb src off n)
    (hfree : off + n ≤ MAXFILE * BSIZE →
      (missing (own sb m (view sb s.disk).block) (span i off n)).card ≤ avail sb s.disk) :
    wp (writei k src off n) (fun _ t => Budget (↑sb.maps ∪ {sb.iblock i}) s k (blocks off n).card t)
      (fun e t => Budget (↑sb.maps ∪ {sb.iblock i}) s k (blocks off n).card t ∧ Halt e t ∧ e ≠ .panic .outOfBlocks) s := by
  obtain ⟨hino, ht⟩ := h.ino hl hp
  have hi := h.lt hl hp
  have hdirty : ∀ j, g.dirty = some j → j = i := fun _ hj => by cases hd.symm.trans hj
  have hnone : Budget (↑sb.maps ∪ {sb.iblock i}) s k (blocks off n).card s := ⟨∅, Nat.zero_le _, .refl _ s⟩
  unfold writei
  simp only [wp_bind, wp_get, hino]
  rw [if_neg htype]
  apply wp_ite
  · intro _
    exact wp_return hnone
  intro _
  apply wp_ite
  · intro _
    exact wp_return hnone
  intro hmax
  rw [not_lt] at hmax
  rw [wp_bind]
  refine wp_mono (wp_writeLoop_rule (σ := fun _ => False) wf (round_spends wf Set.subset_union_left (blocks off n).card) h hp hl
    hdirty n src off n le_rfl hmax hents ⟨⟨∅, by simp, .refl _ s⟩, hfree hmax⟩) ?_ (fun _ _ he => he.2)
  rintro _ t ⟨m', d, hw, ⟨F, hF, hlog⟩, -⟩
  rw [wp_bind]
  refine wp_imp (wp_extend_spends ?_ ⟨F, by omega, hlog⟩) (fun _ u hu => wp_return hu)
  rw [hw.rep.sb, hw.rep.inum hp]
  exact Set.mem_union_right _ rfl

/-- at most c blocks have been added to the transaction -/
def Added (s₀ : St) (c : ℕ) (t : St) : Prop := ∃ F : Finset ℕ, F.card ≤ c ∧ Logged ↑F s₀ t

/-- in the loop of `writei` where every block is mapped: those blocks are added and no others, and the inode stays as it
is -/
def Mapping (sb : Superblock) (s₀ : St) (i c : ℕ) (m : ℕ → Dinode) (off n : ℕ) (s : St) : Prop :=
  (∃ F : Finset ℕ, F.card + (blocks off n).card ≤ c ∧ Logged ↑F s₀ s) ∧ s.icache = s₀.icache ∧
    ∀ bn ∈ blocks off n, ∃ x b, slotOf i bn = some x ∧ own sb m (view sb s.disk).block x = some b

theorem round_mapped (c : ℕ) :
    Round sb τ k i (Mapping sb s₀ i c) fun e t => Added s₀ c t ∧ Halt e t ∧ e ≠ .panic .outOfBlocks := by
  rintro m a g s src off n₁ n₂ h hp hl - h0 hn₁ - ⟨⟨F, hF, hlog⟩, hcache, hmap⟩
  obtain ⟨hblocks, hnot⟩ := blocks_split rfl hn₁ h0
  rw [hblocks, Finset.card_insert_of_notMem hnot] at hF
  rw [hblocks] at hmap
  obtain ⟨x, b, hs, ho⟩ := hmap (off / BSIZE) (Finset.mem_insert_self _ _)
  refine wp_safe (wp_bmap_mapped h hp hl hs ho) ?_
  intro b' t ⟨hb, ht⟩ m' d hw
  rw [hb, ht] at hw ⊢
  refine wp_mono (wp_logWrite_logged b (hlog.keep rfl rfl rfl rfl)) ?_ ?_
  · rintro _ _ ⟨hlog', rfl⟩
    rw [← Finset.coe_insert] at hlog'
    have hcard := Finset.card_insert_le b F
    refine ⟨⟨insert b F, by omega, hlog'⟩, hcache, fun bn hbn => ?_⟩
    obtain ⟨y, c, hy, hc⟩ := hmap bn (Finset.mem_insert_of_mem hbn)
    exact ⟨y, c, hy, hw.mono y c hc⟩
  · rintro e u ⟨hu, hne⟩
    exact ⟨⟨F, by omega, hu.logged⟩, hu.halt, hne⟩

/-- the blocks that a write adds to the transaction: those of the bytes and, where the file gets longer, the bitmap, the
indirect block and the block of the inode -/
def logCount (sb : Superblock) (size off n : ℕ) : ℕ := (blocks off n).card + if off + n ≤ size then 0 else sb.maps.card + 2

theorem wp_writei_added (wf : sb.WF) (h : RepM sb τ m a g s) (hp : (k, i) ∈ g.pins) (hl : k ∈ g.locks)
    (hd : g.dirty = none) {src : Store} {off n : ℕ} (htype : (m i).type ≠ Dinode.T_DEV)
    (hents : τ.dirs → (a i).type = Dinode.T_DIR → Aligned sb src off n) (hfull : HoleFree sb m s.disk i)
    (hfree : off + n ≤ MAXFILE * BSIZE →
      (missing (own sb m (view sb s.disk).block) (span i off n)).card ≤ avail sb s.disk) :
    wp (writei k src off n) (fun _ _ => True)
      (fun e t => Added s (logCount sb (m i).size.toNat off n) t ∧ Halt e t ∧ e ≠ .panic .outOfBlocks) s := by
  by_cases hin : off + n ≤ (m i).size.toNat
  · obtain ⟨hino, -⟩ := h.ino hl hp
    rw [logCount, if_pos hin]
    unfold writei
    simp only [wp_bind, wp_get, hino]
    rw [if_neg htype]
    apply wp_ite
    · exact fun _ => wp_return trivial
    intro _
    apply wp_ite
    · exact fun _ => wp_return trivial
    intro hmax
    rw [wp_bind]
    refine wp_mono (wp_writeLoop_rule (σ := fun _ => False) wf (round_mapped (blocks off n).card) h hp hl
      (fun _ hj => by cases hd.symm.trans hj) n src off n le_rfl (Nat.not_lt.1 hmax) hents
      ⟨⟨∅, by simp, .refl _ s⟩, rfl, fun bn hbn => hfull bn ?_⟩) ?_ (fun _ _ he => he.2)
    · obtain ⟨x, hx, rfl⟩ := Finset.mem_image.1 hbn
      rw [Finset.mem_Ico] at hx
      exact (Nat.div_mul_le_self x BSIZE).trans_lt (by omega)
    · rintro _ t ⟨-, -, -, -, ht, -⟩
      rw [wp_bind]
      unfold extend
      rw [wp_bind, wp_get, ht, hino, if_neg (by omega)]
      exact wp_return (wp_return trivial)
  · rw [logCount, if_neg hin]
    refine wp_mono (wp_writei_spends wf h hp hl hd htype hents hfree) (fun _ _ _ => trivial) ?_
    rintro e t ⟨⟨F, hF, hlog⟩, hhalt⟩
    refine ⟨⟨sb.maps ∪ {sb.iblock i} ∪ {(t.icache k).ino.indirect} ∪ F, ?_, hlog.mono ?_⟩, hhalt⟩
    · have h1 := Finset.card_union_le (sb.maps ∪ {sb.iblock i} ∪ {(t.icache k).ino.indirect}) F
      have h2 := Finset.card_union_le (sb.maps ∪ {sb.iblock i}) {(t.icache k).ino.indirect}
      have h3 := Finset.card_union_le sb.maps {sb.iblock i}
      rw [Finset.card_singleton] at h2 h3
      omega
    · intro b hb
      simp only [Finset.coe_union, Finset.coe_singleton, Set.mem_union, Set.mem_singleton_iff] at hb ⊢
      exact hb.imp_left fun h => h.imp_right And.right

/-! ## The array -/

/-- a transaction is open and has room for c more blocks -/
def Room (s : St) (c : ℕ) : Prop :=
  1 ≤ s.out.outstanding ∧ s.lh.length + c < LOGSIZE ∧ (s.lh.length + c : ℤ) < s.logsize - 1

theorem Room.not_halt {c : ℕ} {e : Fault} {t : St} (h : Room s c) (hadd : Added s c t) (he : e ≠ .panic .outOfBlocks) :
    ¬Halt e t := by
  obtain ⟨F, hF, hlog⟩ := hadd
  have hlen := hlog.length_le subset_rfl
  obtain ⟨h1, h2, h3⟩ := h
  rintro (rfl | ⟨-, hfull⟩ | ⟨-, hout⟩)
  · exact he rfl
  · rw [hlog.logsize] at hfull
    omega
  · rw [hlog.out] at hout
    omega

/-- **`readi` and `writei` are reading from and assigning to a stretch of an array.** The state of the other inodes is
any in which no two share a block. -/
theorem writei_array (wf : sb.WF) (h : RepM sb ⟨False, False⟩ m a g s) (hp : (k, i) ∈ g.pins) (hl : k ∈ g.locks)
    (hd : g.dirty = none) (hn : g.newborn = none) (htype : (m i).type = Dinode.T_FILE ∨ (m i).type = Dinode.T_DIR)
    (hfull : HoleFree sb m s.disk i) (src : Store) (off n : BitVec 32) :
    (off.toNat > (m i).size.toNat ∨ 2 ^ 32 ≤ off.toNat + n.toNat ∨ MAXFILE * BSIZE < off.toNat + n.toNat →
      wp (writei k src off.toNat n.toNat) (fun r t => r = -1 ∧ t = s) (fun _ _ => False) s) ∧
    (¬(off.toNat > (m i).size.toNat ∨ 2 ^ 32 ≤ off.toNat + n.toNat ∨ MAXFILE * BSIZE < off.toNat + n.toNat) →
      (missing (own sb m (view sb s.disk).block) (span i off.toNat n.toNat)).card ≤ avail sb s.disk →
      Room s (logCount sb (m i).size.toNat off.toNat n.toNat) →
      wp (writei k src off.toNat n.toNat) (fun r t => r = n.toNat ∧ ∃ m' a', RepM sb ⟨False, False⟩ m' a' g t ∧
        (m' i).size.toNat = max (m i).size.toNat (off.toNat + n.toNat) ∧
        (∀ j < sb.ninodes, j ≠ i → (m' j).size = (m j).size) ∧
        ∀ j p, contents sb m' t.disk j p =
          if j = i ∧ off.toNat ≤ p ∧ p < off.toNat + n.toNat then src (p - off.toNat) else contents sb m s.disk j p)
        (fun _ _ => False) s) ∧
    wp (readi none k off.toNat n.toNat) (fun r t => t = s ∧ r =
      if off.toNat > (m i).size.toNat ∨ 2 ^ 32 ≤ off.toNat + n.toNat then none
      else some ((List.range (min (off.toNat + n.toNat) (m i).size.toNat - off.toNat)).map fun j =>
        contents sb m s.disk i (off.toNat + j))) (fun _ _ => False) s := by
  have hi := h.lt hl hp
  have hdev : (m i).type ≠ Dinode.T_DEV := by
    obtain ht | ht := htype <;> rw [ht] <;> decide
  obtain ⟨htypea, -, hsize⟩ := h.node hi
  have hwrap : (off.toNat + n.toNat) % 2 ^ 32 < off.toNat ↔ 2 ^ 32 ≤ off.toNat + n.toNat := by
    have := off.isLt
    have := n.isLt
    omega
  have hrefuse : (a i).Refuses off.toNat n.toNat ↔ off.toNat > (m i).size.toNat ∨ 2 ^ 32 ≤ off.toNat + n.toNat ∨
      MAXFILE * BSIZE < off.toNat + n.toNat := by
    rw [Node.Refuses, hsize, hwrap]
  have hpartial : wp (writei k src off.toNat n.toNat) _ _ s :=
    wp_writei (σ := fun _ => False) wf h hp hl hd hn fun hf => hf.elim
  rw [← hrefuse]
  refine ⟨fun hr => ?_, fun hr hfree hroom => ?_, ?_⟩
  · unfold writei
    simp only [wp_bind, wp_get, (h.ino hl hp).1]
    rw [if_neg hdev]
    apply wp_ite
    · intro _
      exact wp_return ⟨rfl, rfl⟩
    intro hok
    rw [if_pos, wp_pure]
    · exact ⟨rfl, rfl⟩
    · rw [Node.Refuses, hsize, ← or_assoc] at hr
      exact hr.resolve_left hok
  · have hadded : wp (writei k src off.toNat n.toNat) _ _ s :=
      wp_writei_added wf h hp hl hd hdev (fun hf => hf.elim) hfull fun _ => hfree
    refine wp_mono (wp_and hpartial hadded) ?_ (fun e t he => hroom.not_halt he.2.1 he.2.2.2 he.2.2.1)
    · rintro r t ⟨⟨htd, -⟩ | ⟨-, hr', -⟩ | ⟨-, -, rfl, m', hrep, hcont, -⟩, -⟩
      · exact absurd (htypea.symm.trans htd) hdev
      · exact absurd hr' hr
      · refine ⟨rfl, m', _, hrep, ?_, ?_, hcont⟩
        · rw [← (hrep.node hi).2.2, Function.update_self, ← hsize]
          rfl
        · intro j hj hji
          apply BitVec.eq_of_toNat_eq
          rw [← (hrep.node hj).2.2, Function.update_of_ne hji, (h.node hj).2.2]
  · refine wp_mono (wp_readi_mapped h hp hl hdev hfull none off.toNat n.toNat) ?_ (fun _ _ he => he)
    rintro r t ⟨rfl, hr⟩
    refine ⟨rfl, ?_⟩
    have hmin : min n.toNat ((m i).size.toNat - off.toNat) = min (off.toNat + n.toNat) (m i).size.toNat - off.toNat := by
      omega
    rw [hr, stretch, hmin]
    simp only [hwrap]

end

/-! ## A small file -/

/-- a transaction is open, and inode 1 is an empty file -/
def begun : St := { smallState 0 0 with out := { (smallState 0 0).out with outstanding := 1 } }

/-- the file is locked: the state in which `writei` is called -/
theorem begun_locked : ∃ s, ilock entry0 begun = .ok ⟨⟩ s ∧ s.disk = begun.disk ∧ (s.lh = [] ∧ s.logsize = 31) ∧
    RepM smallSb ⟨False, False⟩ (view smallSb begun.disk).inode (fun j => nodeOf ((view smallSb begun.disk).inode j) fun _ => 0)
      ⟨{(entry0, 1)}, {entry0}, none, none, False, begun.out⟩ s := by
  have hret : (match ilock entry0 begun with
    | .ok _ s => decide (s.lh = [] ∧ s.logsize = 31)
    | .error _ _ => false) = true := by decide +kernel
  have hrep := (smallState_rep 0 0).with_out begun.out []
  have hlock := wp_ilock (σ := fun _ => True) hrep (k := entry0) (i := 1) (Multiset.mem_singleton_self _) (by decide)
    (fun _ => trivial) fun _ => trivial
  cases hrun : ilock entry0 begun with
  | error e s =>
    rw [hrun] at hret
    cases hret
  | ok _ s =>
    rw [hrun] at hret
    obtain ⟨hs, -, hdisk⟩ := wp_ok hlock hrun
    exact ⟨s, rfl, hdisk, of_decide_eq_true hret, hs⟩

theorem begun_avail : avail smallSb begun.disk = 32 := by decide +kernel

/-- Three bytes are put into it. -/
theorem writei_array_three : ∃ s t, ilock entry0 begun = .ok ⟨⟩ s ∧ writei entry0 (fun _ => 7) 0 3 s = .ok 3 t ∧
    ∃ m', (m' 1).size.toNat = 3 ∧ contents smallSb m' t.disk 1 2 = 7 := by
  obtain ⟨s, hrun, hdisk, ⟨hlh, hsize⟩, hrep⟩ := begun_locked
  have hino : (view smallSb begun.disk).inode 1 = ⟨Dinode.T_FILE, 0, 0, 1, 0, fun _ => 0⟩ := by
    rw [view_inode (by decide)]
    exact smallState_inode 0 0 (by decide)
  have hfull : HoleFree smallSb (view smallSb begun.disk).inode s.disk 1 := by
    intro bn hbn
    rw [hino] at hbn
    exact absurd hbn (Nat.not_lt_zero _)
  have hwrite := (writei_array smallSb_wf hrep (Multiset.mem_singleton_self _) (Finset.mem_singleton_self _) rfl rfl
    (.inl (by rw [hino])) hfull (fun _ => 7) 0 3).2.1
  rw [hino, hdisk] at hwrite
  have hneed : (missing (own smallSb (view smallSb begun.disk).inode (view smallSb begun.disk).block) (span 1 0 3)).card ≤
      avail smallSb begun.disk := by
    rw [begun_avail]
    exact (Finset.card_filter_le _ _).trans (by decide)
  have hroom : Room s (logCount smallSb 0 0 3) := by
    rw [Room, hrep.out, hlh, hsize]
    decide
  obtain ⟨r, t, ht, hr, m', -, -, hsize, -, hbytes⟩ := wp_exists.1 (hwrite (by decide) hneed hroom)
  refine ⟨s, t, hrun, ?_, m', hsize, ?_⟩
  · rw [hr] at ht
    exact ht
  · rw [hbytes]
    exact if_pos ⟨rfl, by decide, by decide⟩

/-- Thirty blocks go into the file, but not into one transaction. -/
theorem writei_too_big : ∃ s t, ilock entry0 begun = .ok ⟨⟩ s ∧ avail smallSb s.disk = 32 ∧
    writei entry0 (fun _ => 7) 0 15360 s = .error (.panic .tooBigTransaction) t := by
  have hret : (match (do ilock entry0; writei entry0 (fun _ => 7) 0 15360 : M ℤ) begun with
    | .error e _ => decide (e = .panic .tooBigTransaction)
    | .ok _ _ => false) = true := by decide +kernel
  obtain ⟨s, hrun, hdisk, -⟩ := begun_locked
  have hbind : (do ilock entry0; writei entry0 (fun _ => 7) 0 15360 : M ℤ) begun = writei entry0 (fun _ => 7) 0 15360 s := by
    change EStateM.bind _ _ _ = _
    rw [EStateM.bind, hrun]
  rw [hbind] at hret
  cases hwrite : writei entry0 (fun _ => 7) 0 15360 s with
  | ok r t =>
    rw [hwrite] at hret
    cases hret
  | error e t =>
    rw [hwrite] at hret
    exact ⟨s, t, hrun, hdisk ▸ begun_avail, by rw [hwrite, of_decide_eq_true hret]⟩

end Xv6.Fs
