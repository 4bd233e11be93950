/-
Reading and writing inodes (`readi`, `writei` of `fs.c`).

An inode is an array of bytes to its users: `stretch` and `Node.write` say what that means. `readi`
and `writei` do that, block by block through `bmap`:
- `wp_readi`: on a tight disk `readi` returns the bytes of the node and changes nothing; on any disk it changes no node;
- `wp_writei`: `writei` refuses what the node refuses, and otherwise changes this node as `Node.write` says and no other.

On a tight disk a block allocated by `writei` is one the file did not reach before, so the file grows and the inode is
stored: `writei` leaves no inode unsaved.
-/
import Xv6.Fs.Iput

namespace Xv6.Fs

open Xv6.Bytes Xv6.Wp Function

/-! ## Nodes as byte arrays -/

/-- the bytes off, .., off + n - 1 of a file of the given size that holds f, as far as they are there; none: refused -/
def stretch (f : Store) (size off n : ℕ) : Option (List Byte) :=
  if off > size ∨ (off + n) % 2 ^ 32 < off then none
  else some ((List.range (min n (size - off))).map fun j => f (off + j))

/-- what `writei` refuses -/
def Node.Refuses (x : Node) (off n : ℕ) : Prop := off > x.size ∨ (off + n) % 2 ^ 32 < off ∨ off + n > MAXFILE * BSIZE

/-- the bytes from off on are replaced -/
def Node.put (x : Node) (src : Store) (off n : ℕ) : Node :=
  { x with data := fun p => if off ≤ p ∧ p < off + n then src (p - off) else x.data p }

/-- the node after a `writei` that is not refused -/
def Node.write (x : Node) (src : Store) (off n : ℕ) : Node := { x.put src off n with size := max x.size (off + n) }

theorem Node.put_zero (x : Node) (src : Store) (off : ℕ) : x.put src off 0 = x := by
  unfold Node.put
  congr 1
  funext p
  exact if_neg (by omega)

theorem Node.put_put (x : Node) (src : Store) (off n₁ n₂ : ℕ) :
    (x.put src off n₁).put (fun p => src (p + n₁)) (off + n₁) n₂ = x.put src off (n₁ + n₂) := by
  unfold Node.put
  congr 1
  funext p
  dsimp only
  by_cases h1 : off ≤ p ∧ p < off + n₁
  · rw [if_neg (by omega), if_pos h1, if_pos (by omega)]
  · by_cases h2 : off + n₁ ≤ p ∧ p < off + n₁ + n₂
    · rw [if_pos h2, if_pos (by omega)]
      congr 1
      omega
    · rw [if_neg h2, if_neg h1, if_neg (by omega)]

/-- every block of inode i below its size is there -/
def HoleFree (sb : Superblock) (m : ℕ → Dinode) (d : Disk) (i : ℕ) : Prop :=
  ∀ bn, bn * BSIZE < (m i).size.toNat → ∃ x b, slotOf i bn = some x ∧ own sb m (view sb d).block x = some b

section

variable {sb : Superblock} {τ : Mode} {σ : Fault → Prop} {m : ℕ → Dinode} {a : ℕ → Node} {g : Ghost} {s : St} {k : Fin NINODE} {i : ℕ}

/-! ## Reading -/

/-- a block that is there is found, and nothing changes -/
theorem wp_bmap_mapped {bn b : ℕ} {x : Slot} (h : RepM sb τ m a g s) (hp : (k, i) ∈ g.pins) (hl : k ∈ g.locks)
    (hs : slotOf i bn = some x) (ho : own sb m (view sb s.disk).block x = some b) :
    wp (bmap k bn) (fun c t => c = b ∧ t = s) (fun _ _ => False) s := by
  obtain ⟨hino, ht⟩ := h.ino hl hp
  have hi := h.lt hl hp
  unfold bmap
  simp only [wp_bind, wp_get]
  unfold slotOf at hs
  by_cases hdir : bn < NDIRECT
  · rw [dif_pos hdir] at hs ⊢
    cases hs
    obtain ⟨-, hb, hget⟩ := own_eq_some.1 ho
    rw [hino, if_neg, wp_pure]
    · exact ⟨hget, rfl⟩
    · intro h0
      rw [Slot.get, h0] at hget
      exact hb hget.symm
  · rw [dif_neg hdir] at hs ⊢
    by_cases hrange : bn - NDIRECT < NINDIRECT
    · rw [dif_pos hrange] at hs
      cases hs
      obtain ⟨-, hb, hget⟩ := own_eq_some.1 ho
      have hind : (m i).indirect ≠ 0 := by
        intro h0
        rw [Slot.get, if_pos h0] at hget
        exact hb hget.symm
      have hpm : sb.nmeta ≤ (m i).indirect := (h.vol.map.range _ _ (own_indirect hi ht hind)).1
      rw [Slot.get, if_neg hind, view_block hpm] at hget
      rw [if_pos hrange, hino, if_neg hind]
      unfold bmapEntry
      simp only [wp_bind, wp_get, hino]
      rw [if_neg (by rw [hget]; exact hb), wp_pure]
      exact ⟨hget, rfl⟩
    · rw [dif_neg hrange] at hs
      cases hs

/-- the bytes of an inode within one block -/
theorem byteOf_block {o : Slot → Option ℕ} {blk : ℕ → Store} {x : Slot} {b off j : ℕ}
    (hs : slotOf i (off / BSIZE) = some x) (ho : o x = some b) (hj : off % BSIZE + j < BSIZE) :
    byteOf o blk i (off + j) = blk b (off % BSIZE + j) := by
  have hdiv := Nat.div_add_mod off BSIZE
  have hq : (off + j) / BSIZE = off / BSIZE := by
    apply Nat.div_eq_of_lt_le
    · rw [mul_comm]
      omega
    · rw [Nat.succ_mul, mul_comm]
      omega
  have hr : (off + j) % BSIZE = off % BSIZE + j := by
    have := Nat.div_add_mod (off + j) BSIZE
    rw [hq] at this
    omega
  rw [byteOf_some (hq ▸ hs) ho, hr]

/-- a block of an inode and then the rest of a stretch -/
theorem bytes_split {o : Slot → Option ℕ} {blk : ℕ → Store} {x : Slot} {b off n m₁ : ℕ}
    (hs : slotOf i (off / BSIZE) = some x) (ho : o x = some b) (hm : min n (BSIZE - off % BSIZE) = m₁) :
    (List.range m₁).map (fun j => blk b (off % BSIZE + j)) ++
      (List.range (n - m₁)).map (fun j => byteOf o blk i (off + m₁ + j)) =
    (List.range n).map fun j => byteOf o blk i (off + j) := by
  have hsplit : List.range n = List.range m₁ ++ (List.range (n - m₁)).map (m₁ + ·) := by
    rw [← List.range_add]
    congr 1
    omega
  rw [hsplit, List.map_append, List.map_map]
  congr 1
  · apply List.map_congr_left
    intro j hj
    have hj' := List.mem_range.1 hj
    exact (byteOf_block hs ho (by omega)).symm
  · apply List.map_congr_left
    intro j _
    rw [Function.comp_apply, add_assoc]

/-- a stretch of an inode that is there in full is read, and nothing changes -/
theorem wp_readLoop_mapped (h : RepM sb τ m a g s) (hp : (k, i) ∈ g.pins) (hl : k ∈ g.locks) (fuel off n : ℕ)
    (hn : n ≤ fuel) (hmap : ∀ bn, off / BSIZE ≤ bn → bn * BSIZE < off + n →
      ∃ x b, slotOf i bn = some x ∧ own sb m (view sb s.disk).block x = some b) :
    wp (readLoop k fuel off n) (fun bytes t => t = s ∧ bytes = (List.range n).map fun j =>
      byteOf (own sb m (view sb s.disk).block) (view sb s.disk).block i (off + j)) (fun _ _ => False) s := by
  induction fuel generalizing off n with
  | zero =>
    obtain rfl : n = 0 := by omega
    exact wp_return ⟨rfl, rfl⟩
  | succ fuel ih =>
    unfold readLoop
    by_cases h0 : n = 0
    · rw [if_pos h0, wp_pure, h0]
      exact ⟨rfl, rfl⟩
    rw [if_neg h0]
    obtain ⟨x, b, hs, ho⟩ := hmap (off / BSIZE) le_rfl (by have := Nat.div_mul_le_self off BSIZE; omega)
    rw [wp_bind]
    refine wp_imp (wp_bmap_mapped h hp hl hs ho) ?_
    rintro _ _ ⟨rfl, rfl⟩
    simp only [wp_bind, wp_get]
    have hmod := Nat.mod_lt off (show 0 < BSIZE by decide)
    generalize hm : min n (BSIZE - off % BSIZE) = m₁
    refine wp_imp (ih (off + m₁) (n - m₁) (by omega) fun bn h1 h2 => hmap bn ?_ (by omega)) ?_
    · exact (Nat.div_le_div_right (Nat.le_add_right _ _)).trans h1
    rintro rest _ ⟨rfl, rfl⟩
    rw [wp_pure]
    refine ⟨rfl, ?_⟩
    rw [← bytes_split hs ho hm, view_block (h.vol.map.range x _ ho).1]

/-- on a disk that is not tight no inode counts as unsaved -/
theorem RepM.clean {d : Option ℕ} (hτ : ¬τ) (h : RepM sb τ m a { g with dirty := d } s) : RepM sb τ m a g s where
  vol := { h.vol with synced := fun h' => absurd h' hτ }
  cached := h.cached.ghost rfl rfl rfl rfl
  sb := h.sb
  out := h.out

/-- from s to t inode i has been read: blocks may have been allocated to it, but no inode has changed in its bytes, and
if it has no holes nothing has happened -/
structure Looked (sb : Superblock) (τ : Mode) (a : ℕ → Node) (g : Ghost) (i : ℕ) (m : ℕ → Dinode) (s : St)
    (m' : ℕ → Dinode) (t : St) : Prop where
  rep : RepM sb τ m' a g t
  bytes : contents sb m' t.disk = contents sb m s.disk
  saved : ¬τ → Saved sb m s.disk i → Saved sb m' t.disk i
  still : HoleFree sb m s.disk i → t = s ∧ m' = m

theorem Looked.refl (h : RepM sb τ m a g s) : Looked sb τ a g i m s m s :=
  ⟨h, rfl, fun _ hs => hs, fun _ => ⟨rfl, rfl⟩⟩

theorem Looked.trans {m' m'' : ℕ → Dinode} {t u : St} (h : Looked sb τ a g i m s m' t)
    (h' : Looked sb τ a g i m' t m'' u) : Looked sb τ a g i m s m'' u where
  rep := h'.rep
  bytes := h'.bytes.trans h.bytes
  saved hτ hs := h'.saved hτ (h.saved hτ hs)
  still hfull := by
    obtain ⟨rfl, rfl⟩ := h.still hfull
    exact h'.still hfull

/-- on a tight disk there are no holes -/
theorem RepM.holeFree (h : RepM sb τ m a g s) (hτ : τ) (hl : k ∈ g.locks) (hp : (k, i) ∈ g.pins) :
    HoleFree sb m s.disk i := h.vol.full hτ i (h.lt hl hp) (h.ino hl hp).2

/-- on a disk that is not tight reading may allocate blocks, which hold the bytes the inode had there -/
theorem wp_readLoop (wf : sb.WF) (hτ : ¬τ) (h : RepM sb τ m a g s) (hp : (k, i) ∈ g.pins) (hl : k ∈ g.locks)
    (hd : g.dirty = none) (fuel off n : ℕ) (hn : n ≤ fuel) (hend : off + n ≤ (m i).size.toNat)
    (hmax : MAXFILE * BSIZE < off + n → σ (.panic .bmapRange)) :
    wp (readLoop k fuel off n) (fun bytes t => (∃ m', Looked sb τ a g i m s m' t) ∧
      bytes = (List.range n).map fun j => contents sb m s.disk i (off + j)) (Stop σ) s := by
  induction fuel generalizing off n s m with
  | zero =>
    obtain rfl : n = 0 := by omega
    exact wp_return ⟨⟨m, .refl h⟩, rfl⟩
  | succ fuel ih =>
    unfold readLoop
    apply wp_ite
    · intro h0
      rw [h0]
      exact wp_return ⟨⟨m, .refl h⟩, rfl⟩
    intro h0
    rw [wp_bind]
    have hbn : MAXFILE ≤ off / BSIZE → σ (.panic .bmapRange) := by
      intro hle
      apply hmax
      have := (Nat.le_div_iff_mul_le (show 0 < BSIZE by decide)).1 hle
      omega
    refine wp_imp (wp_bmap wf h hp hl (by rw [hd]; exact fun _ hc => by cases hc) hbn) ?_
    rintro b t ⟨x, hs, hx⟩
    have hstep : ∃ m', Looked sb τ a g i m s m' t ∧ own sb m' (view sb t.disk).block x = some b := by
      obtain ⟨hx, rfl⟩ | ⟨m', hmap⟩ := hx
      · exact ⟨m, .refl h, hx⟩
      · refine ⟨m', ⟨hmap.rep.clean hτ, funext fun j => funext (hmap.grown.bytes j), hmap.saved, fun hfull => ?_⟩, hmap.now⟩
        -- a block that had to be allocated was a hole
        obtain ⟨y, c, hy, hc⟩ := hfull (off / BSIZE) (by have := Nat.div_mul_le_self off BSIZE; omega)
        obtain rfl := Option.some.inj (hs.symm.trans hy)
        rw [hmap.was] at hc
        cases hc
    obtain ⟨m', hlook, ho⟩ := hstep
    simp only [wp_bind, wp_get]
    have hmod := Nat.mod_lt off (show 0 < BSIZE by decide)
    generalize hm : min n (BSIZE - off % BSIZE) = m₁
    refine wp_imp (ih hlook.rep (off + m₁) (n - m₁) (by omega) ?_ fun hlt => hmax (by omega)) ?_
    · have hi := h.lt hl hp
      rw [← (hlook.rep.node hi).2.2, (h.node hi).2.2]
      omega
    rintro rest u ⟨⟨m'', hu⟩, rfl⟩
    refine wp_return ⟨⟨m'', hlook.trans hu⟩, ?_⟩
    rw [← hlook.bytes]
    unfold contents
    rw [← bytes_split hs ho hm, view_block (hlook.rep.vol.map.range x _ ho).1]

/-- `readi` of an inode without holes -/
theorem wp_readi_mapped (h : RepM sb τ m a g s) (hp : (k, i) ∈ g.pins) (hl : k ∈ g.locks) (htype : (m i).type ≠ Dinode.T_DEV)
    (hfull : HoleFree sb m s.disk i) (tty : Option (List Byte)) (off n : ℕ) :
    wp (readi tty k off n) (fun r t => t = s ∧ r = stretch (contents sb m s.disk i) (m i).size.toNat off n)
      (fun _ _ => False) s := by
  obtain ⟨hino, ht⟩ := h.ino hl hp
  unfold readi
  simp only [wp_bind, wp_get, hino]
  rw [if_neg htype]
  apply wp_ite
  · intro hbad
    exact wp_return ⟨rfl, by rw [stretch, if_pos hbad]⟩
  intro hok
  have hcut : (if off + n > (m i).size.toNat then (m i).size.toNat - off else n) = min n ((m i).size.toNat - off) := by
    split_ifs <;> omega
  rw [hcut, wp_bind]
  refine wp_imp (wp_readLoop_mapped h hp hl _ off _ le_rfl fun bn _ hlt => hfull bn (by omega)) ?_
  rintro bytes _ ⟨rfl, rfl⟩
  exact wp_return ⟨rfl, by rw [stretch, if_neg hok]; rfl⟩

/-- `readi` and `writei` of a device unlock the inode for the call -/
theorem wp_relock {α : Type} {x : M α} {Q : α → St → Prop} (h : RepM sb τ m a g s) (hp : (k, i) ∈ g.pins) (hl : k ∈ g.locks)
    (hx : ∀ t, RepM sb τ m a g t → wp x Q (Stop σ) t) :
    wp (iunlock k >>= fun _ => ilock k >>= fun _ => x) Q (Stop σ) s := by
  have hi := h.lt hl hp
  have ht := (h.ino hl hp).2
  rw [wp_bind]
  refine wp_imp (wp_iunlock h hl) ?_
  rintro _ t ⟨h1, -⟩
  rw [wp_bind]
  refine wp_imp (wp_ilock h1 hp hi (fun hl' => absurd rfl (Finset.ne_of_mem_erase hl'))
    fun h0 => absurd ((h.node hi).1.symm.trans h0) ht) ?_
  rintro _ u ⟨h2, -⟩
  rw [Finset.insert_erase hl] at h2
  exact hx u h2

/-- **`readi`.** No inode changes, and the bytes are those of the inode. -/
theorem wp_readi (wf : sb.WF) (h : RepM sb τ m a g s) (hp : (k, i) ∈ g.pins) (hl : k ∈ g.locks) (hd : g.dirty = none)
    (hmax : MAXFILE * BSIZE < (a i).size → σ (.panic .bmapRange)) (tty : Option (List Byte)) (off n : ℕ) :
    wp (readi tty k off n) (fun r t => (∃ m', RepM sb τ m' a g t) ∧ ((a i).type ≠ Dinode.T_DEV →
      (∃ m', Looked sb τ a g i m s m' t) ∧ r = stretch (contents sb m s.disk i) (a i).size off n)) (Stop σ) s := by
  obtain ⟨hino, ht⟩ := h.ino hl hp
  have hi := h.lt hl hp
  obtain ⟨htype, -, hsize⟩ := h.node hi
  by_cases hfile : (m i).type ≠ Dinode.T_DEV ∧ τ
  · obtain ⟨hdev, hτ⟩ := hfile
    refine wp_safe (wp_readi_mapped h hp hl hdev (h.holeFree hτ hl hp) tty off n) ?_
    rintro r t ⟨rfl, hr⟩
    rw [← hsize] at hr
    exact ⟨⟨m, h⟩, fun _ => ⟨⟨m, .refl h⟩, hr⟩⟩
  unfold readi
  simp only [wp_bind, wp_get, hino]
  apply wp_ite
  · intro hdev
    apply wp_ite
    · intro _
      exact wp_return ⟨⟨m, h⟩, fun hne => absurd (htype.trans hdev) hne⟩
    intro _
    exact wp_relock h hp hl fun t ht => wp_return ⟨⟨m, ht⟩, fun hne => absurd (htype.trans hdev) hne⟩
  intro hdev
  have hτ : ¬τ := fun hτ => hfile ⟨hdev, hτ⟩
  apply wp_ite
  · intro hbad
    refine wp_return ⟨⟨m, h⟩, fun _ => ⟨⟨m, .refl h⟩, ?_⟩⟩
    rw [stretch, hsize, if_pos hbad]
  intro hok
  have hcut : (if off + n > (m i).size.toNat then (m i).size.toNat - off else n) = min n ((a i).size - off) := by
    rw [hsize]
    split_ifs <;> omega
  rw [hcut, wp_bind]
  refine wp_imp (wp_readLoop wf hτ h hp hl hd _ off _ le_rfl (by omega) fun hlt => hmax (by omega)) ?_
  rintro bytes t ⟨⟨m', h'⟩, rfl⟩
  refine wp_return ⟨⟨m', h'.rep⟩, fun _ => ⟨⟨m', h'⟩, ?_⟩⟩
  rw [stretch, hsize, if_neg hok]

/-! ## Writing -/

/-- the 16-byte entries among the first n bytes name inodes of the disk -/
def Entries (sb : Superblock) (src : Store) (n : ℕ) : Prop := ∀ p, 16 ∣ p → p + 16 ≤ n → getLE src p 2 < sb.ninodes

/-- a stretch of a directory, from off on, is given whole entries -/
structure Aligned (sb : Superblock) (src : Store) (off n : ℕ) : Prop where
  off : 16 ∣ off
  len : 16 ∣ n
  entries : Entries sb src n

/-- the first round of the loop of `writei` and the others -/
theorem Aligned.split {src : Store} {off n m₁ n₂ : ℕ} (h : Aligned sb src off n) (hn : n = m₁ + n₂)
    (hm : min n (BSIZE - off % BSIZE) = m₁) :
    Aligned sb src off m₁ ∧ Aligned sb (fun p => src (p + m₁)) (off + m₁) n₂ := by
  obtain ⟨h1, h2, h3⟩ := h
  have hm16 : 16 ∣ m₁ := by
    simp only [BSIZE] at hm
    omega
  refine ⟨⟨h1, hm16, fun p hp hlt => h3 p hp (by omega)⟩, ⟨by omega, by omega, fun p hp hlt => ?_⟩⟩
  have := h3 (p + m₁) (by omega) (by omega)
  have hcomm : p + m₁ + 1 = p + 1 + m₁ := by omega
  simpa only [getLE, hcomm] using this

/-- on a disk that is not tight the bytes of a node are not said -/
theorem Vol.tell {dirty : Option ℕ} {V : View} {f : Store} (h : Vol sb τ dirty m V a) (hf : τ → f = (a i).data) :
    Vol sb τ dirty m V (update a i { a i with data := f }) := by
  refine ⟨h.super, ?_, h.map, h.lag, h.synced, h.full, ?_, h.ents⟩
  · intro j hj
    by_cases hji : j = i
    · subst hji
      rw [update_self, h.node j hj]
      rfl
    · rw [update_of_ne hji]
      exact h.node j hj
  · intro hτ
    rw [hf hτ, update_eq_self]
    exact h.data hτ

/-- bytes copied into one block, as bytes of the whole -/
theorem splice_block {D F src : Store} {off n : ℕ} (hn : off % BSIZE + n ≤ BSIZE)
    (hsame : ∀ p, p / BSIZE = off / BSIZE → F (p % BSIZE) = D p) (p : ℕ) :
    (if p / BSIZE = off / BSIZE then
      if off % BSIZE ≤ p % BSIZE ∧ p % BSIZE < off % BSIZE + n then src (p % BSIZE - off % BSIZE) else F (p % BSIZE)
    else D p) = if off ≤ p ∧ p < off + n then src (p - off) else D p := by
  have hp := Nat.div_add_mod p BSIZE
  have hoff := Nat.div_add_mod off BSIZE
  by_cases hq : p / BSIZE = off / BSIZE
  · rw [if_pos hq, hsame p hq]
    rw [hq] at hp
    have hsub : p % BSIZE - off % BSIZE = p - off := by omega
    rw [hsub]
    refine if_congr ?_ rfl rfl
    omega
  · rw [if_neg hq, if_neg]
    intro hin
    apply hq
    simp only [BSIZE] at hn ⊢
    omega

/-- the entries after a copy: those copied and those outside -/
theorem entry_splice {D src : Store} {off n p : ℕ} (h : Aligned sb src off n) (hp : 16 ∣ p)
    (hD : p < off ∨ off + n ≤ p → getLE D p 2 < sb.ninodes) :
    getLE (fun p => if off ≤ p ∧ p < off + n then src (p - off) else D p) p 2 < sb.ninodes := by
  obtain ⟨hoff, hn, hsrc⟩ := h
  by_cases hin : off ≤ p ∧ p < off + n
  · have hsub : p + 1 - off = p - off + 1 := by omega
    have := hsrc (p - off) (by omega) (by omega)
    simpa only [getLE, if_pos hin, if_pos (show off ≤ p + 1 ∧ p + 1 < off + n by omega), hsub] using this
  · have := hD (by omega)
    simpa only [getLE, if_neg hin, if_neg (show ¬(off ≤ p + 1 ∧ p + 1 < off + n) by omega)] using this

/-- the first n bytes of src are copied into a block that inode i has -/
theorem RepM.copy (wf : sb.WF) {x : Slot} {b off n : ℕ} {src : Store} (h : RepM sb τ m a g s) (hi : i < sb.ninodes)
    (ht : (m i).type ≠ 0) (hs : slotOf i (off / BSIZE) = some x) (ho : own sb m (view sb s.disk).block x = some b)
    (hn : off % BSIZE + n ≤ BSIZE)
    (hents : τ.dirs → (a i).type = Dinode.T_DIR → Aligned sb src off n) (l : List ℕ) :
    let t := { s with
      disk := update s.disk b fun x =>
        if off % BSIZE ≤ x ∧ x < off % BSIZE + n then src (x - off % BSIZE) else s.disk b x
      lh := l }
    RepM sb τ m (update a i ((a i).put src off n)) g t ∧
      own sb m (view sb t.disk).block = own sb m (view sb s.disk).block ∧
      ∀ j p, byteOf (own sb m (view sb t.disk).block) (view sb t.disk).block j p =
        if j = i ∧ off ≤ p ∧ p < off + n then src (p - off)
        else byteOf (own sb m (view sb s.disk).block) (view sb s.disk).block j p := by
  intro t
  have hb := (h.vol.map.range x b ho).1
  have hview : view sb t.disk = _ := view_update wf hb _
  have hapart : ∀ z, own sb m (view sb s.disk).block z = some b → z = x :=
    fun z hz => h.vol.map.owned.apart _ _ _ hz ho
  have hown : own sb m (view sb t.disk).block = own sb m (view sb s.disk).block := by
    rw [hview]
    exact own_block _ fun j hj => slotOf_ne_indirect hs j (hapart _ hj).symm
  have hold : ∀ p, p / BSIZE = off / BSIZE → s.disk b (p % BSIZE) =
      byteOf (own sb m (view sb s.disk).block) (view sb s.disk).block i p := by
    intro p hp
    rw [byteOf_some (hp ▸ hs) ho, view_block hb]
  have hbytes : ∀ j p, byteOf (own sb m (view sb t.disk).block) (view sb t.disk).block j p =
      if j = i ∧ off ≤ p ∧ p < off + n then src (p - off)
      else byteOf (own sb m (view sb s.disk).block) (view sb s.disk).block j p := by
    intro j p
    rw [hown, hview]
    dsimp only
    rw [byteOf_write _ hs ho hapart]
    by_cases hji : j = i
    · subst hji
      simp only [true_and]
      exact splice_block hn hold p
    · rw [if_neg fun hc => hji hc.1, if_neg fun hc => hji hc.1]
  refine ⟨⟨?_, ?_, h.sb, h.out⟩, hown, hbytes⟩
  · have hent : τ.dirs → (m i).type = Dinode.T_DIR → ∀ p, 16 ∣ p → p + 16 ≤ (m i).size.toNat → p / BSIZE = off / BSIZE →
        getLE (t.disk b) (p % BSIZE) 2 < sb.ninodes := by
      intro hdirs htype p hp hsize hq
      have hlt := entry_splice (hents hdirs ((h.node hi).1.trans htype)) hp fun _ => h.vol.ents hdirs i hi htype p hp hsize
      rwa [getLE_byteOf hp fun z hz => ?_] at hlt
      rw [← splice_block hn hold, if_pos (hz.trans hq)]
      simp only [t, update_self]
    have hvol := h.vol.write hs ho hent
    simp only [t, update_self] at hvol
    rw [← view_update wf hb] at hvol
    have hsplice := hvol.tell (i := i) (f := ((a i).put src off n).data) fun hτ => ?_
    · rw [update_self, update_idem] at hsplice
      exact hsplice
    · rw [update_self]
      funext p
      refine (splice_block hn ?_ p).symm
      intro p hp
      rw [hold p hp]
      refine h.vol.data hτ i hi ht p ?_
      by_contra hge
      rw [slotOf, dif_neg, dif_neg] at hs
      · cases hs
      · simp only [MAXFILE, BSIZE, NDIRECT, NINDIRECT] at *
        omega
      · simp only [MAXFILE, BSIZE, NDIRECT, NINDIRECT] at *
        omega
  · rw [hview]
    exact h.cached

/-- from s to t, n bytes of src have been written to inode i from off on; its size has not been set yet -/
structure Written (sb : Superblock) (τ : Mode) (m : ℕ → Dinode) (a : ℕ → Node) (g : Ghost) (s : St) (i : ℕ) (src : Store)
    (off n : ℕ) (m' : ℕ → Dinode) (d : Option ℕ) (t : St) : Prop where
  rep : RepM sb τ m' (Function.update a i ((a i).put src off n)) { g with dirty := d } t
  dirty : d = g.dirty ∨ d = some i ∧ (τ → (a i).size < off + n)
  mono : ∀ x b, own sb m (view sb s.disk).block x = some b → own sb m' (view sb t.disk).block x = some b
  full : ∀ p, off ≤ p → p < off + n →
    ∃ x b, slotOf i (p / BSIZE) = some x ∧ own sb m' (view sb t.disk).block x = some b
  bytes : ∀ j p, byteOf (own sb m' (view sb t.disk).block) (view sb t.disk).block j p =
    if j = i ∧ off ≤ p ∧ p < off + n then src (p - off)
    else byteOf (own sb m (view sb s.disk).block) (view sb s.disk).block j p

namespace Written

variable {m' m'' : ℕ → Dinode} {d d' : Option ℕ} {t u : St} {src : Store} {off n₁ n₂ : ℕ}

theorem zero (h : RepM sb τ m a g s) : Written sb τ m a g s i src off 0 m g.dirty s where
  rep := by
    rw [Node.put_zero, update_eq_self]
    exact h
  dirty := Or.inl rfl
  mono _ _ hx := hx
  full p h1 h2 := absurd h2 (by omega)
  bytes j p := by rw [if_neg (by omega)]

theorem trans (h : Written sb τ m a g s i src off n₁ m' d t)
    (h' : Written sb τ m' (update a i ((a i).put src off n₁)) { g with dirty := d } t i
      (fun p => src (p + n₁)) (off + n₁) n₂ m'' d' u) :
    Written sb τ m a g s i src off (n₁ + n₂) m'' d' u where
  rep := by
    have := h'.rep
    rw [update_self, Node.put_put, update_idem] at this
    exact this
  dirty := by
    obtain hd' | ⟨hd', hlt⟩ := h'.dirty
    · obtain hd | ⟨hd, hlt⟩ := h.dirty
      · exact Or.inl (hd'.trans hd)
      · exact Or.inr ⟨hd'.trans hd, fun hτ => by have := hlt hτ; omega⟩
    · refine Or.inr ⟨hd', fun hτ => ?_⟩
      have := hlt hτ
      rw [update_self] at this
      simpa [Node.put, add_assoc] using this
  mono x b hx := h'.mono x b (h.mono x b hx)
  full p h1 h2 := by
    by_cases hlt : p < off + n₁
    · obtain ⟨x, b, hs, ho⟩ := h.full p h1 hlt
      exact ⟨x, b, hs, h'.mono x b ho⟩
    · exact h'.full p (by omega) (by omega)
  bytes j p := by
    rw [h'.bytes, h.bytes]
    by_cases h1 : j = i ∧ off ≤ p ∧ p < off + n₁
    · rw [if_neg (by omega), if_pos h1, if_pos (by omega)]
    · by_cases h2 : j = i ∧ off + n₁ ≤ p ∧ p < off + n₁ + n₂
      · have hsub : p - (off + n₁) + n₁ = p - off := by omega
        rw [if_pos h2, if_pos (by omega), hsub]
      · rw [if_neg h2, if_neg h1, if_neg (by omega)]

/-- the blocks of the file are there up to what has been written -/
theorem filled {bn : ℕ} (h : Written sb τ m a g s i src off n₁ m' d t) (hfull : HoleFree sb m s.disk i)
    (hoff : off ≤ (m i).size.toNat) (hbn : bn * BSIZE < max (m i).size.toNat (off + n₁)) :
    ∃ x b, slotOf i bn = some x ∧ own sb m' (view sb t.disk).block x = some b := by
  by_cases hlt : bn * BSIZE < (m i).size.toNat
  · obtain ⟨x, b, hs, ho⟩ := hfull bn hlt
    exact ⟨x, b, hs, h.mono x b ho⟩
  · have := h.full (bn * BSIZE) (by omega) (by omega)
    rwa [Nat.mul_div_cancel _ (show 0 < BSIZE by decide)] at this

end Written

/-- one round of the loop of `writei` -/
theorem wp_writeBlock (wf : sb.WF) (h : RepM sb τ m a g s) (hp : (k, i) ∈ g.pins) (hl : k ∈ g.locks)
    (hd : ∀ j, g.dirty = some j → j = i) {src : Store} {off n : ℕ} (h0 : 0 < n) (hn : off % BSIZE + n ≤ BSIZE)
    (hmax : off < MAXFILE * BSIZE) (hents : τ.dirs → (a i).type = Dinode.T_DIR → Aligned sb src off n) :
    wp (bmap k (off / BSIZE)) (fun b t => ∀ l, ∃ m' d, Written sb τ m a g s i src off n m' d { t with
      disk := update t.disk b fun x =>
        if off % BSIZE ≤ x ∧ x < off % BSIZE + n then src (x - off % BSIZE) else t.disk b x
      lh := l }) (Stop σ) s := by
  obtain ⟨hino, ht⟩ := h.ino hl hp
  have hi := h.lt hl hp
  have hbn : off / BSIZE < MAXFILE := Nat.div_lt_of_lt_mul (by rw [mul_comm]; exact hmax)
  refine wp_imp (wp_bmap wf h hp hl hd fun hle => absurd hbn (by omega)) ?_
  rintro b t ⟨x, hs, hx⟩ l
  have hblock : ∀ p, off ≤ p → p < off + n → p / BSIZE = off / BSIZE := by
    intro p h1 h2
    simp only [BSIZE] at hn ⊢
    omega
  obtain ⟨ho, rfl⟩ | ⟨m', hmap⟩ := hx
  · obtain ⟨hrep, hown, hbytes⟩ := h.copy wf hi ht hs ho hn hents l
    refine ⟨m, g.dirty, hrep, Or.inl rfl, ?_, ?_, hbytes⟩
    · intro y c hy
      rw [hown]
      exact hy
    · intro p h1 h2
      rw [hown, hblock p h1 h2]
      exact ⟨x, b, hs, ho⟩
  · have hrep := hmap.rep
    have ht' : (m' i).type ≠ 0 := (hrep.ino hl hp).2
    obtain ⟨hrep, hown, hbytes⟩ := hrep.copy wf hi ht' hs hmap.now hn hents l
    refine ⟨m', some i, hrep, Or.inr ⟨rfl, fun hτ => ?_⟩, ?_, ?_, ?_⟩
    · -- a block that was not there is beyond the end of the file
      by_contra hge
      obtain ⟨y, c, hy, hc⟩ := h.vol.full hτ i hi ht (off / BSIZE) (by
        rw [← (h.node hi).2.2]
        have := Nat.div_mul_le_self off BSIZE
        omega)
      rw [hs] at hy
      cases hy
      rw [hmap.was] at hc
      cases hc
    · intro y c hy
      rw [hown]
      exact hmap.grown.mono y c hy
    · intro p h1 h2
      rw [hown, hblock p h1 h2]
      exact ⟨x, b, hs, hmap.now⟩
    · intro j p
      rw [hbytes, hmap.grown.bytes]

/-- n bytes of src are copied into block b -/
def St.copy (s : St) (b : ℕ) (src : Store) (off n : ℕ) : St :=
  { s with disk := update s.disk b fun x =>
      if off % BSIZE ≤ x ∧ x < off % BSIZE + n then src (x - off % BSIZE) else s.disk b x }

/-- what is known beside the contents, where the loop of `writei` has n bytes from off on left: a round keeps R, or stops
with E -/
def Round (sb : Superblock) (τ : Mode) (k : Fin NINODE) (i : ℕ) (R : (ℕ → Dinode) → ℕ → ℕ → St → Prop)
    (E : Fault → St → Prop) : Prop :=
  ∀ m a g s src off n₁ n₂, RepM sb τ m a g s → (k, i) ∈ g.pins → k ∈ g.locks → (∀ j, g.dirty = some j → j = i) →
    n₁ + n₂ ≠ 0 → min (n₁ + n₂) (BSIZE - off % BSIZE) = n₁ → off / BSIZE < MAXFILE → R m off (n₁ + n₂) s →
    wp (bmap k (off / BSIZE)) (fun b t => ∀ m' d,
      Written sb τ m a g s i src off n₁ m' d { t.copy b src off n₁ with lh := addLog t.lh b } →
        wp (logWrite b) (fun _ u => R m' (off + n₁) n₂ u) E (t.copy b src off n₁)) E s

/-- **The loop rule of `writei`.** -/
theorem wp_writeLoop_rule (wf : sb.WF) {R : (ℕ → Dinode) → ℕ → ℕ → St → Prop} {E : Fault → St → Prop}
    (hround : Round sb τ k i R E) (h : RepM sb τ m a g s) (hp : (k, i) ∈ g.pins) (hl : k ∈ g.locks)
    (hd : ∀ j, g.dirty = some j → j = i) (fuel : ℕ) (src : Store) (off n : ℕ) (hn : n ≤ fuel)
    (hmax : off + n ≤ MAXFILE * BSIZE) (hents : τ.dirs → (a i).type = Dinode.T_DIR → Aligned sb src off n)
    (hR : R m off n s) :
    wp (writeLoop k fuel src off n) (fun _ t => ∃ m' d, Written sb τ m a g s i src off n m' d t ∧ R m' (off + n) 0 t)
      (fun e t => Stop σ e t ∧ E e t) s := by
  induction fuel generalizing src off n s m a g with
  | zero =>
    obtain rfl : n = 0 := by omega
    exact wp_return ⟨m, g.dirty, Written.zero h, hR⟩
  | succ fuel ih =>
    unfold writeLoop
    apply wp_ite
    · rintro rfl
      exact wp_return ⟨m, g.dirty, Written.zero h, hR⟩
    intro h0
    have hmod := Nat.mod_lt off (show 0 < BSIZE by decide)
    obtain ⟨n₁, hn₁⟩ : ∃ n₁, min n (BSIZE - off % BSIZE) = n₁ := ⟨_, rfl⟩
    obtain ⟨n₂, rfl⟩ : ∃ n₂, n = n₁ + n₂ := ⟨n - n₁, by omega⟩
    have hsub : n₁ + n₂ - n₁ = n₂ := by omega
    have hsplit : τ.dirs → (a i).type = Dinode.T_DIR → _ := fun hdirs htype => (hents hdirs htype).split rfl hn₁
    have hbn : off / BSIZE < MAXFILE := Nat.div_lt_of_lt_mul (by rw [mul_comm]; omega)
    simp only [wp_bind, wp_modify, hn₁, hsub]
    refine wp_imp (wp_and (wp_writeBlock wf h hp hl hd (by omega) (by omega) (by omega) fun h1 h2 => (hsplit h1 h2).1)
      (hround m a g s src off n₁ n₂ h hp hl hd h0 hn₁ hbn hR)) ?_
    rintro b t ⟨hw, hr⟩
    obtain ⟨m', d, hw⟩ := hw (addLog t.lh b)
    have hlog : wp (logWrite b) (fun _ u => u = { t.copy b src off n₁ with lh := addLog t.lh b }) (Stop σ)
        (t.copy b src off n₁) := wp_logWrite rfl
    refine wp_imp (wp_and hlog (hr m' d hw)) ?_
    rintro _ u ⟨rfl, hu⟩
    refine wp_imp (ih hw.rep hp hl ?_ _ _ _ (by omega) (by omega) ?_ hu) ?_
    · intro j hj
      obtain hd' | ⟨hd', -⟩ := hw.dirty
      · exact hd j (hd' ▸ hj)
      · exact (Option.some.inj (hd'.symm.trans hj)).symm
    · rw [update_self]
      exact fun h1 h2 => (hsplit h1 h2).2
    · rintro _ u ⟨m'', d', hu, hR⟩
      exact ⟨m'', d', hw.trans hu, by rw [← add_assoc]; exact hR⟩

theorem wp_writeLoop (wf : sb.WF) (h : RepM sb τ m a g s) (hp : (k, i) ∈ g.pins) (hl : k ∈ g.locks)
    (hd : ∀ j, g.dirty = some j → j = i) (fuel : ℕ) (src : Store) (off n : ℕ) (hn : n ≤ fuel)
    (hmax : off + n ≤ MAXFILE * BSIZE) (hents : τ.dirs → (a i).type = Dinode.T_DIR → Aligned sb src off n) :
    wp (writeLoop k fuel src off n) (fun _ t => ∃ m' d, Written sb τ m a g s i src off n m' d t) (Stop σ) s := by
  have hround : Round sb τ k i (fun _ _ _ _ => True) fun _ _ => True :=
    fun _ _ _ _ _ _ _ _ _ _ _ _ _ _ _ _ => wp_mono wp_true (fun _ _ _ _ _ _ => wp_true) fun _ _ _ => trivial
  refine wp_mono (wp_writeLoop_rule wf hround h hp hl hd fuel src off n hn hmax hents trivial) ?_ fun _ _ he => he.1
  rintro _ t ⟨m', d, ht, -⟩
  exact ⟨m', d, ht⟩

/-- from s to t, n bytes of src have been written to inode i from off on -/
def Wrote (sb : Superblock) (τ : Mode) (m : ℕ → Dinode) (a : ℕ → Node) (g : Ghost) (s : St) (i : ℕ) (src : Store)
    (off n : ℕ) (t : St) : Prop :=
  ∃ m', RepM sb τ m' (Function.update a i ((a i).write src off n)) g t ∧
    (∀ j p, contents sb m' t.disk j p =
      if j = i ∧ off ≤ p ∧ p < off + n then src (p - off) else contents sb m s.disk j p) ∧
    (HoleFree sb m s.disk i → HoleFree sb m' t.disk i)

/-- the size is set if the file has grown, and then the inode is stored -/
theorem wp_extend (wf : sb.WF) {m' : ℕ → Dinode} {d : Option ℕ} {t : St} {src : Store} {off n : ℕ}
    (h : Written sb τ m a g s i src off n m' d t) (hs : RepM sb τ m a g s) (hp : (k, i) ∈ g.pins) (hl : k ∈ g.locks)
    (hd : g.dirty = none) (hn : g.newborn = none) (hoff : off ≤ (a i).size) (hmax : off + n ≤ MAXFILE * BSIZE)
    (hents : τ.dirs → (a i).type = Dinode.T_DIR → Aligned sb src off n) :
    wp (extend k (off + n) n) (fun _ u => Wrote sb τ m a g s i src off n u) (Stop σ) t := by
  obtain ⟨hino, ht⟩ := h.rep.ino hl hp
  have hi := hs.lt hl hp
  have hnode := h.rep.vol.node i hi
  obtain ⟨htype, -, hsize⟩ := h.rep.node hi
  rw [update_self] at hnode htype hsize
  change (a i).size = _ at hsize
  have hold := (hs.node hi).2.2
  unfold extend
  simp only [wp_bind, wp_get]
  apply wp_ite
  · rintro ⟨-, hgrow⟩
    rw [hino, ← hsize] at hgrow
    have hnat : (BitVec.ofNat 32 (off + n)).toNat = off + n := by
      rw [BitVec.toNat_ofNat]
      apply Nat.mod_eq_of_lt
      have : MAXFILE * BSIZE < 2 ^ 32 := by decide
      omega
    rw [wp_bind]
    refine wp_store wf (f := fun x => { x with size := BitVec.ofNat 32 (off + n) }) h.rep hp hl ?_
      (fun _ hj => by cases hn.symm.trans hj) rfl rfl ?_ ?_ ?_
    · intro j hj
      obtain hd' | ⟨hd', -⟩ := h.dirty
      · cases hd.symm.trans (hd'.symm.trans hj)
      · exact (Option.some.inj (hd'.symm.trans hj)).symm
    · intro hτ bn hbn
      dsimp only at hbn
      rw [hnat] at hbn
      exact h.filled (hs.holeFree hτ hl hp) (hold ▸ hoff) (by omega)
    · intro hdirs hdir p hp hle
      dsimp only at hle
      rw [hnat] at hle
      have hbytes : byteOf (own sb m' (view sb t.disk).block) (view sb t.disk).block i = fun p =>
          if off ≤ p ∧ p < off + n then src (p - off)
          else byteOf (own sb m (view sb s.disk).block) (view sb s.disk).block i p := by
        funext p
        rw [h.bytes]
        simp only [true_and]
      rw [hbytes]
      have hal := hents hdirs (htype.trans hdir)
      refine entry_splice hal hp fun hout => ?_
      have h16 := hal.off
      exact hs.vol.ents hdirs i hi ((hs.node hi).1.symm.trans (htype.trans hdir)) p hp
        (by rw [← (hs.node hi).2.2]; omega)
    · intro u hu hown hsame
      rw [update_self, update_idem, Ghost.settled hd hn] at hu
      have hwrite : nodeOf { m' i with size := BitVec.ofNat 32 (off + n) } ((a i).put src off n).data =
          (a i).write src off n := by
        have hmax' : max (a i).size (off + n) = off + n := by omega
        rw [Node.write, hmax', hnode]
        simp only [nodeOf, hnat]
      rw [hwrite] at hu
      refine ⟨_, hu, fun j p => ?_, fun hfull bn hbn => ?_⟩
      · rw [hsame]
        exact h.bytes j p
      · rw [hown]
        rw [update_self] at hbn
        dsimp only at hbn
        rw [hnat] at hbn
        exact h.filled hfull (hold ▸ hoff) (by omega)
  · intro hno
    have hsame : (a i).write src off n = (a i).put src off n := by
      have hle : max (a i).size (off + n) = (a i).size := by
        rw [hino, ← hsize] at hno
        omega
      rw [Node.write, hle]
      rfl
    have hfull : HoleFree sb m s.disk i → HoleFree sb m' t.disk i := by
      intro hfull bn hbn
      exact h.filled hfull (hold ▸ hoff) (by omega)
    rw [wp_pure, Wrote, hsame]
    obtain hd' | ⟨-, hlt⟩ := h.dirty
    · subst hd'
      exact ⟨m', h.rep, h.bytes, hfull⟩
    · refine ⟨m', h.rep.clean fun hτ => ?_, h.bytes, hfull⟩
      have := hlt hτ
      rw [hino, ← hsize] at hno
      omega

/-- **`writei`.** A device stays as it is. What the node refuses is refused; anything else changes this node, as
`Node.write` says, and no other. -/
theorem wp_writei (wf : sb.WF) (h : RepM sb τ m a g s) (hp : (k, i) ∈ g.pins) (hl : k ∈ g.locks) (hd : g.dirty = none)
    (hn : g.newborn = none) {src : Store} {off n : ℕ}
    (hents : τ.dirs → (a i).type = Dinode.T_DIR → Aligned sb src off n) :
    wp (writei k src off n) (fun r t =>
      (a i).type = Dinode.T_DEV ∧ Rep sb τ a g t ∨
      (a i).type ≠ Dinode.T_DEV ∧ (a i).Refuses off n ∧ r = -1 ∧ t = s ∨
      (a i).type ≠ Dinode.T_DEV ∧ ¬(a i).Refuses off n ∧ r = n ∧ Wrote sb τ m a g s i src off n t) (Stop σ) s := by
  obtain ⟨hino, ht⟩ := h.ino hl hp
  have hi := h.lt hl hp
  obtain ⟨htype, -, hsize⟩ := h.node hi
  unfold writei
  simp only [wp_bind, wp_get, hino, ← htype, ← hsize]
  apply wp_ite
  · intro hdev
    apply wp_ite
    · intro _
      exact wp_return (Or.inl ⟨hdev, h.rep⟩)
    intro _
    exact wp_relock h hp hl fun t ht => wp_return (Or.inl ⟨hdev, ht.rep⟩)
  intro hdev
  apply wp_ite
  · intro hbad
    refine wp_return (Or.inr (Or.inl ⟨hdev, ?_, rfl, rfl⟩))
    exact hbad.elim Or.inl fun hw => Or.inr (Or.inl hw)
  intro hok
  apply wp_ite
  · intro hbig
    exact wp_return (Or.inr (Or.inl ⟨hdev, Or.inr (Or.inr hbig), rfl, rfl⟩))
  intro hmax
  simp only [not_or, not_lt, gt_iff_lt] at hok hmax
  rw [wp_bind]
  refine wp_imp (wp_writeLoop wf h hp hl (fun _ hj => by cases hd.symm.trans hj) n src off n le_rfl hmax hents) ?_
  rintro _ t ⟨m', d, hw⟩
  rw [wp_bind]
  refine wp_imp (wp_extend wf hw h hp hl hd hn hok.1 hmax hents) ?_
  intro _ u hu
  refine wp_return (Or.inr (Or.inr ⟨hdev, ?_, rfl, hu⟩))
  rintro (h1 | h1 | h1)
  · exact absurd hok.1 (by omega)
  · exact absurd hok.2 (by omega)
  · exact absurd hmax (by omega)

end

end Xv6.Fs
