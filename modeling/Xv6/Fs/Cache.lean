/-
The inode cache against the inodes it caches.

`Ghost` is what is known at a point of a kernel path beside the state: the references that exist (`pins`: an entry and
the inode it stands for, once for each reference), the locked entries, an inode not stored yet as it is in memory, an
inode that has just been allocated, whether every allocated inode has a link or a reference (a disk may come with others
from a crash), and the state above the inodes.

`Cached` says that reference counts count the pins, that no inode has two entries, that a valid entry is a copy of the
inode, that an inode without one is on the disk, and, on a whole disk, that an allocated inode without links is
referenced. What the functions of `fs.c` do to an entry keeps it:
- `Cached.hit`, `Cached.miss`: `iget` finds the entry, or takes an empty one;
- `Cached.lock`, `Cached.load`, `Cached.unlock`: `ilock` and `iunlock`;
- `Cached.assign`: the inode changes in memory;
- `Cached.unpin`, `Cached.evict`: a reference goes, and it was not or was the last one (`Cached.drop`: to an entry that
  was never read in).
-/
import Xv6.Core.Lock
import Xv6.Fs.Model
import Xv6.Fs.Volume

namespace Xv6.Fs

open Function

structure Ghost where
  pins : Multiset (Fin NINODE × ℕ)
  locks : Finset (Fin NINODE)
  dirty : Option ℕ
  newborn : Option ℕ
  whole : Prop
  out : Outer

theorem Ghost.settled {g : Ghost} (hd : g.dirty = none) (hn : g.newborn = none) :
    ({ g with dirty := none, newborn := none } : Ghost) = g := by
  cases g
  simp only at hd hn
  rw [hd, hn]

/-- an entry that is a copy of inode i -/
def Inode.Holds (x : Inode) (i : ℕ) : Prop := 0 < x.ref ∧ x.valid = true ∧ x.inum = i

theorem Inode.not_holds {x : Inode} (hv : x.valid = false) (i : ℕ) : ¬x.Holds i := by
  intro h
  have := h.2.1
  rw [hv] at this
  exact Bool.noConfusion this

/-- the cache c against the inodes m and the stored inodes dn -/
structure Cached (sb : Superblock) (m dn : ℕ → Dinode) (g : Ghost) (c : Fin NINODE → Inode) : Prop where
  count : ∀ k, (c k).ref = g.pins.countP fun p => p.1 = k
  names : ∀ p ∈ g.pins, (c p.1).inum = p.2
  unique : ∀ p ∈ g.pins, ∀ q ∈ g.pins, p.2 = q.2 → p.1 = q.1
  locked : ∀ k, (c k).locked = true ↔ k ∈ g.locks
  held : ∀ k ∈ g.locks, 0 < (c k).ref ∧ (c k).valid = true
  range : ∀ k i, (c k).Holds i → i < sb.ninodes
  copy : ∀ k i, (c k).Holds i → (c k).ino = m i ∧ (m i).type ≠ 0
  stored : ∀ i < sb.ninodes, (∀ k, ¬(c k).Holds i) → dn i = m i
  orphan : g.whole → ∀ i < sb.ninodes, g.newborn ≠ some i → (m i).type ≠ 0 → (m i).nlink = 0 → ∃ k, (c k).Holds i

namespace Cached

variable {sb : Superblock} {m dn : ℕ → Dinode} {g : Ghost} {c : Fin NINODE → Inode} {k : Fin NINODE} {i : ℕ}

theorem ref_pos (h : Cached sb m dn g c) (hp : (k, i) ∈ g.pins) : 0 < (c k).ref := by
  rw [h.count]
  exact Multiset.countP_pos.2 ⟨_, hp, rfl⟩

theorem pinned (h : Cached sb m dn g c) (hk : 0 < (c k).ref) : (k, (c k).inum) ∈ g.pins := by
  rw [h.count] at hk
  obtain ⟨⟨k', i'⟩, hp, rfl⟩ := Multiset.countP_pos.1 hk
  rw [h.names _ hp]
  exact hp

/-- no inode has two entries -/
theorem eq_of_inum (h : Cached sb m dn g c) {k' : Fin NINODE} (hk : 0 < (c k).ref) (hk' : 0 < (c k').ref)
    (hi : (c k).inum = (c k').inum) : k = k' :=
  h.unique _ (h.pinned hk) _ (h.pinned hk') hi

/-- a locked entry is a copy of its inode -/
theorem holds_of_lock (h : Cached sb m dn g c) (hl : k ∈ g.locks) (hp : (k, i) ∈ g.pins) : (c k).Holds i :=
  ⟨(h.held k hl).1, (h.held k hl).2, h.names _ hp⟩

/-- what a change of one entry has to keep -/
theorem of_update {m' dn' : ℕ → Dinode} {g' : Ghost} {x : Inode} (h : Cached sb m dn g c)
    (hcount : ∀ k', (update c k x k').ref = g'.pins.countP fun p => p.1 = k')
    (hnames : ∀ p ∈ g'.pins, (update c k x p.1).inum = p.2)
    (hunique : ∀ p ∈ g'.pins, ∀ q ∈ g'.pins, p.2 = q.2 → p.1 = q.1)
    (hlocks : ∀ k', k' ≠ k → (k' ∈ g'.locks ↔ k' ∈ g.locks)) (hlock : x.locked = true ↔ k ∈ g'.locks)
    (hheld : k ∈ g'.locks → 0 < x.ref ∧ x.valid = true)
    (hcopy : ∀ i, x.Holds i → i < sb.ninodes ∧ x.ino = m' i ∧ (m' i).type ≠ 0)
    (hm : ∀ k' j, k' ≠ k → (c k').Holds j → m' j = m j)
    (hstored : ∀ j < sb.ninodes, (∀ k', ¬(update c k x k').Holds j) → dn' j = m' j)
    (horphan : g'.whole → ∀ j < sb.ninodes, g'.newborn ≠ some j → (m' j).type ≠ 0 → (m' j).nlink = 0 →
      ∃ k', (update c k x k').Holds j) :
    Cached sb m' dn' g' (update c k x) where
  count := hcount
  names := hnames
  unique := hunique
  locked k' := by
    by_cases hk : k' = k
    · subst hk
      rw [update_self]
      exact hlock
    · rw [update_of_ne hk, hlocks k' hk]
      exact h.locked k'
  held k' hl := by
    by_cases hk : k' = k
    · subst hk
      rw [update_self]
      exact hheld hl
    · rw [update_of_ne hk]
      exact h.held k' ((hlocks k' hk).1 hl)
  range k' j hh := by
    by_cases hk : k' = k
    · subst hk
      rw [update_self] at hh
      exact (hcopy j hh).1
    · rw [update_of_ne hk] at hh
      exact h.range k' j hh
  copy k' j hh := by
    by_cases hk : k' = k
    · subst hk
      rw [update_self] at hh ⊢
      exact (hcopy j hh).2
    · rw [update_of_ne hk] at hh ⊢
      rw [hm k' j hk hh]
      exact h.copy k' j hh
  stored := hstored
  orphan := horphan

/-- an entry that holds what it held, or holds nothing and held nothing -/
theorem exists_holds_update {x : Inode} {j : ℕ} (h : ∃ k', (c k').Holds j) (hx : (c k).Holds j → x.Holds j) :
    ∃ k', (update c k x k').Holds j := by
  obtain ⟨k', hk'⟩ := h
  by_cases hk : k' = k
  · subst hk
    exact ⟨k', by rw [update_self]; exact hx hk'⟩
  · exact ⟨k', by rw [update_of_ne hk]; exact hk'⟩

theorem not_holds_update {x : Inode} {j : ℕ} (h : ∀ k', ¬(update c k x k').Holds j) (hx : (c k).Holds j → x.Holds j)
    (k' : Fin NINODE) : ¬(c k').Holds j := fun hk' => not_exists.2 h (exists_holds_update ⟨k', hk'⟩ hx)

section

variable (h : Cached sb m dn g c)

include h

/-- the entry changes in nothing that says which inode it holds -/
theorem keep {g' : Ghost} {x : Inode} (hinum : x.inum = (c k).inum)
    (hvalid : x.valid = (c k).valid) (hino : x.ino = (c k).ino) (hpos : 0 < x.ref ↔ 0 < (c k).ref)
    (hcount : ∀ k', (update c k x k').ref = g'.pins.countP fun p => p.1 = k')
    (hpins : ∀ p ∈ g'.pins, p ∈ g.pins)
    (hlocks : ∀ k', k' ≠ k → (k' ∈ g'.locks ↔ k' ∈ g.locks)) (hlock : x.locked = true ↔ k ∈ g'.locks)
    (hheld : k ∈ g'.locks → 0 < x.ref ∧ x.valid = true) (hnew : g'.newborn = g.newborn)
    (hwhole : g'.whole → g.whole) :
    Cached sb m dn g' (update c k x) := by
  have hholds : ∀ j, x.Holds j ↔ (c k).Holds j := by
    intro j
    unfold Inode.Holds
    rw [hinum, hvalid, hpos]
  refine h.of_update hcount ?_ ?_ hlocks hlock hheld ?_ (fun _ _ _ _ => rfl) ?_ ?_
  · exact fun p hp => (update_keep (fun y : Inode => y.inum) hinum p.1).trans (h.names p (hpins p hp))
  · intro p hp q hq
    exact h.unique p (hpins p hp) q (hpins q hq)
  · intro j hj
    rw [hino]
    exact ⟨h.range k j ((hholds j).1 hj), h.copy k j ((hholds j).1 hj)⟩
  · exact fun j hj hnone => h.stored j hj (not_holds_update hnone (hholds j).2)
  · intro hw j hj hn ht hl
    rw [hnew] at hn
    exact exists_holds_update (h.orphan (hwhole hw) j hj hn ht hl) (hholds j).2

/-- **`iget`, `idup`:** one more reference to an entry in use. -/
theorem hit (hk : 0 < (c k).ref) : Cached sb m dn { g with pins := (k, (c k).inum) ::ₘ g.pins }
      (update c k { c k with ref := (c k).ref + 1 }) := by
  have hmem : ∀ p ∈ (k, (c k).inum) ::ₘ g.pins, p ∈ g.pins := by
    intro p hp
    rcases Multiset.mem_cons.1 hp with rfl | hp
    · exact h.pinned hk
    · exact hp
  refine h.keep rfl rfl rfl ?_ ?_ hmem (fun _ _ => Iff.rfl) (h.locked k) ?_ rfl id
  · exact ⟨fun _ => hk, fun _ => Nat.succ_pos _⟩
  · intro k'
    rw [Multiset.countP_cons]
    by_cases hk' : k' = k
    · subst hk'
      rw [update_self]
      simp [h.count]
    · rw [update_of_ne hk', h.count, if_neg fun he => hk' he.symm]
      simp
  · intro hl
    exact ⟨Nat.succ_pos _, (h.held k hl).2⟩

/-- **`iget`:** an empty entry for an inode that has none. -/
theorem miss (hk : (c k).ref = 0) (hnone : ∀ k', 0 < (c k').ref → (c k').inum ≠ i) :
    Cached sb m dn { g with pins := (k, i) ::ₘ g.pins }
      (update c k { c k with inum := i, ref := 1, valid := false }) := by
  have hlk : k ∉ g.locks := by
    intro hl
    have := (h.held k hl).1
    omega
  have hkpin : ∀ p ∈ g.pins, p.1 ≠ k := by
    intro p hp he
    have hpos : 0 < (c p.1).ref := h.ref_pos (i := p.2) hp
    rw [he] at hpos
    omega
  have hipin : ∀ p ∈ g.pins, p.2 ≠ i := by
    rintro ⟨k', j⟩ hp rfl
    exact hnone k' (h.ref_pos hp) (h.names _ hp)
  have hx : ∀ j, ¬Inode.Holds { c k with inum := i, ref := 1, valid := false } j := Inode.not_holds rfl
  refine h.of_update ?_ ?_ ?_ (fun _ _ => Iff.rfl) ?_ ?_ ?_ (fun _ _ _ _ => rfl) ?_ ?_
  · intro k'
    rw [Multiset.countP_cons]
    by_cases hk' : k' = k
    · subst hk'
      rw [update_self, if_pos rfl, ← h.count, hk]
    · rw [update_of_ne hk', h.count, if_neg fun he => hk' he.symm]
      rfl
  · intro p hp
    rcases Multiset.mem_cons.1 hp with rfl | hp
    · rw [update_self]
    · rw [update_of_ne (hkpin p hp)]
      exact h.names p hp
  · intro p hp q hq hpq
    rcases Multiset.mem_cons.1 hp with rfl | hp <;> rcases Multiset.mem_cons.1 hq with rfl | hq
    · rfl
    · exact absurd hpq.symm (hipin q hq)
    · exact absurd hpq (hipin p hp)
    · exact h.unique p hp q hq hpq
  · exact h.locked k
  · intro hl
    exact absurd hl hlk
  · intro j hj
    exact absurd hj (hx j)
  · refine fun j hj hnone' => h.stored j hj (not_holds_update hnone' fun hc => ?_)
    have := hc.1
    omega
  · intro hw j hj hn ht hl
    refine exists_holds_update (h.orphan hw j hj hn ht hl) fun hc => ?_
    have := hc.1
    omega

/-- **`ilock`:** a valid entry is locked. -/
theorem lock (hp : (k, i) ∈ g.pins) (hv : (c k).valid = true) :
    Cached sb m dn { g with locks := insert k g.locks } (update c k { c k with locked := true }) := by
  refine h.keep rfl rfl rfl Iff.rfl ?_ (fun _ hp => hp) ?_ ?_ ?_ rfl id
  · exact fun k' => (update_keep (fun y : Inode => y.ref) (by rfl) k').trans (h.count k')
  · intro k' hk'
    simp [hk']
  · simp
  · intro _
    exact ⟨h.ref_pos hp, hv⟩

/-- **`iunlock`.** -/
theorem unlock : Cached sb m dn { g with locks := g.locks.erase k } (update c k { c k with locked := false }) := by
  refine h.keep rfl rfl rfl Iff.rfl ?_ (fun _ hp => hp) ?_ ?_ ?_ rfl id
  · exact fun k' => (update_keep (fun y : Inode => y.ref) (by rfl) k').trans (h.count k')
  · intro k' hk'
    simp [hk']
  · simp
  · intro hl
    simp at hl

/-- **`ilock`:** the inode is read from the disk. -/
theorem load (hp : (k, i) ∈ g.pins) (hi : i < sb.ninodes) (hv : (c k).valid = false) (ht : (dn i).type ≠ 0) :
    dn i = m i ∧ Cached sb m dn { g with locks := insert k g.locks }
      (update c k { c k with locked := true, ino := dn i, valid := true }) := by
  have href := h.ref_pos hp
  have hinum := h.names _ hp
  have hsame : dn i = m i := by
    apply h.stored i hi
    intro k' hk'
    have : k = k' := h.eq_of_inum href hk'.1 (hinum.trans hk'.2.2.symm)
    subst this
    exact Inode.not_holds hv i hk'
  refine ⟨hsame, h.of_update ?_ ?_ h.unique ?_ ?_ ?_ ?_ (fun _ _ _ _ => rfl) ?_ ?_⟩
  · exact fun k' => (update_keep (fun y : Inode => y.ref) (by rfl) k').trans (h.count k')
  · exact fun p hp' => (update_keep (fun y : Inode => y.inum) (by rfl) p.1).trans (h.names p hp')
  · intro k' hk'
    simp [hk']
  · simp
  · intro _
    exact ⟨href, rfl⟩
  · intro j hj
    obtain rfl : i = j := hinum.symm.trans hj.2.2
    exact ⟨hi, hsame, hsame ▸ ht⟩
  · exact fun j hj hnone => h.stored j hj (not_holds_update hnone fun hc => absurd hc (Inode.not_holds hv j))
  · intro hw j hj hn ht' hl
    exact exists_holds_update (h.orphan hw j hj hn ht' hl) fun hc => absurd hc (Inode.not_holds hv j)

/-- **Assignment** to the copy of inode i, stored or not. -/
theorem assign {dn' : ℕ → Dinode} {x : Dinode} {b : Option ℕ} (hk : (c k).Holds i)
    (ht : x.type ≠ 0) (hdn : ∀ j, j ≠ i → dn' j = dn j) (hb : ∀ j, j ≠ i → b ≠ some j → g.newborn ≠ some j) :
    Cached sb (update m i x) dn' { g with newborn := b } (update c k { c k with ino := x }) := by
  have hholds : ∀ j, Inode.Holds { c k with ino := x } j ↔ (c k).Holds j := fun _ => Iff.rfl
  refine h.of_update ?_ ?_ h.unique (fun _ _ => Iff.rfl) (h.locked k) (h.held k) ?_ ?_ ?_ ?_
  · exact fun k' => (update_keep (fun y : Inode => y.ref) (by rfl) k').trans (h.count k')
  · exact fun p hp' => (update_keep (fun y : Inode => y.inum) (by rfl) p.1).trans (h.names p hp')
  · intro j hj
    obtain rfl : i = j := hk.2.2.symm.trans hj.2.2
    rw [update_self]
    exact ⟨h.range k i hk, rfl, ht⟩
  · intro k' j hk' hj
    rw [update_of_ne]
    rintro rfl
    exact hk' (h.eq_of_inum hj.1 hk.1 (hj.2.2.trans hk.2.2.symm))
  · intro j hj hnone
    have hji : j ≠ i := by
      rintro rfl
      apply hnone k
      rw [update_self]
      exact (hholds j).2 hk
    rw [update_of_ne hji, hdn j hji]
    exact h.stored j hj (not_holds_update hnone (hholds j).2)
  · intro hw j hj hn ht' hl
    by_cases hji : j = i
    · subst hji
      exact ⟨k, by rw [update_self]; exact (hholds j).2 hk⟩
    · rw [update_of_ne hji] at ht' hl
      exact exists_holds_update (h.orphan hw j hj (hb j hji hn) ht' hl) (hholds j).2

/-- the parts of the ghost state the cache is about -/
theorem ghost {g' : Ghost} (hpins : g'.pins = g.pins) (hlocks : g'.locks = g.locks)
    (hnew : g'.newborn = g.newborn) (hwhole : g'.whole = g.whole) : Cached sb m dn g' c := by
  obtain ⟨pins, locks, dirty, newborn, whole, out⟩ := g'
  subst hpins hlocks hnew hwhole
  exact ⟨h.count, h.names, h.unique, h.locked, h.held, h.range, h.copy, h.stored, h.orphan⟩

/-- what the disk has for an inode with a copy does not matter -/
theorem congr_held {dn' : ℕ → Dinode} (hk : (c k).Holds i) (hdn : ∀ j, j ≠ i → dn' j = dn j) : Cached sb m dn' g c where
  __ := h
  stored j hj hnone := by
    have hji : j ≠ i := by
      rintro rfl
      exact hnone k hk
    rw [hdn j hji]
    exact h.stored j hj hnone

theorem countP_update {P : Multiset (Fin NINODE × ℕ)} (hg : g.pins = (k, i) ::ₘ P)
    {x : Inode} (hx : x.ref = (c k).ref - 1) (k' : Fin NINODE) :
    (update c k x k').ref = P.countP fun p => p.1 = k' := by
  have hcount := h.count k'
  rw [hg, Multiset.countP_cons] at hcount
  by_cases hk' : k' = k
  · subst hk'
    rw [if_pos rfl] at hcount
    rw [update_self, hx]
    omega
  · rw [if_neg fun he => hk' he.symm] at hcount
    rw [update_of_ne hk']
    exact hcount

/-- **`iput`:** not the last reference. -/
theorem unpin {P : Multiset (Fin NINODE × ℕ)} (hg : g.pins = (k, i) ::ₘ P) (href : (c k).ref ≠ 1) :
    Cached sb m dn { g with pins := P } (update c k { c k with ref := (c k).ref - 1 }) := by
  have hpos := h.ref_pos (hg ▸ Multiset.mem_cons_self (k, i) P)
  refine h.keep rfl rfl rfl ?_ (fun k' => h.countP_update hg rfl k') ?_ (fun _ _ => Iff.rfl) (h.locked k) ?_ rfl id
  · show 0 < (c k).ref - 1 ↔ 0 < (c k).ref
    omega
  · intro p hp
    rw [hg]
    exact Multiset.mem_cons_of_mem hp
  · intro hl
    exact ⟨show 0 < (c k).ref - 1 by omega, (h.held k hl).2⟩

/-- **`iput`:** a reference to an entry that was never read in. -/
theorem drop {P : Multiset (Fin NINODE × ℕ)} (hg : g.pins = (k, i) ::ₘ P) (hv : (c k).valid = false) :
    Cached sb m dn { g with pins := P } (update c k { c k with ref := (c k).ref - 1 }) := by
  have hmem : ∀ p ∈ P, p ∈ g.pins := fun p hp => hg ▸ Multiset.mem_cons_of_mem hp
  have hx : ∀ j, ¬Inode.Holds { c k with ref := (c k).ref - 1 } j := Inode.not_holds hv
  have hlk : k ∉ g.locks := by
    intro hl
    have := (h.held k hl).2
    rw [hv] at this
    exact Bool.noConfusion this
  refine h.of_update (fun k' => h.countP_update hg rfl k') ?_ ?_ (fun _ _ => Iff.rfl) (h.locked k) ?_ ?_
    (fun _ _ _ _ => rfl) ?_ ?_
  · exact fun p hp => (update_keep (fun y : Inode => y.inum) (by rfl) p.1).trans (h.names p (hmem p hp))
  · intro p hp q hq
    exact h.unique p (hmem p hp) q (hmem q hq)
  · exact fun hl => absurd hl hlk
  · exact fun j hj => absurd hj (hx j)
  · exact fun j hj hnone => h.stored j hj (not_holds_update hnone fun hc => absurd hc (Inode.not_holds hv j))
  · intro hw j hj hn ht hl
    exact exists_holds_update (h.orphan hw j hj hn ht hl) fun hc => absurd hc (Inode.not_holds hv j)

/-- the last reference: no other pin names the inode -/
theorem last {P : Multiset (Fin NINODE × ℕ)} (hg : g.pins = (k, i) ::ₘ P)
    (href : (c k).ref = 1) : ∀ p ∈ P, p.1 ≠ k ∧ p.2 ≠ i := by
  intro p hp
  have hcount := h.count k
  rw [hg, Multiset.countP_cons, if_pos rfl, href] at hcount
  have hk : p.1 ≠ k := by
    intro he
    have : 0 < P.countP fun q => q.1 = k := Multiset.countP_pos.2 ⟨p, hp, he⟩
    omega
  refine ⟨hk, fun hi => hk ?_⟩
  exact h.unique p (hg ▸ Multiset.mem_cons_of_mem hp) (k, i) (hg ▸ Multiset.mem_cons_self _ _) hi

/-- not the last reference: another pin names the inode -/
theorem not_last {P : Multiset (Fin NINODE × ℕ)} (hg : g.pins = (k, i) ::ₘ P)
    (href : (c k).ref ≠ 1) : ∃ p ∈ P, p.2 = i := by
  have hinum := h.names _ (hg ▸ Multiset.mem_cons_self (k, i) P)
  have hcount := h.count k
  have hpos := h.ref_pos (hg ▸ Multiset.mem_cons_self (k, i) P)
  rw [hg, Multiset.countP_cons, if_pos rfl] at hcount
  have hP : 0 < P.countP fun p => p.1 = k := by omega
  obtain ⟨p, hpP, hpk⟩ := Multiset.countP_pos.1 hP
  have hnames := h.names p (hg ▸ Multiset.mem_cons_of_mem hpP)
  exact ⟨p, hpP, by rw [← hnames, hpk, hinum]⟩

/-- **`iput`:** the last reference; the inode stays as the disk has it. -/
theorem evict {P : Multiset (Fin NINODE × ℕ)} {x : Inode} (hg : g.pins = (k, i) ::ₘ P)
    (href : (c k).ref = 1) (hl : k ∉ g.locks) (hx : x.ref = 0) (hxl : x.locked = (c k).locked)
    (horphan : g.whole → g.newborn ≠ some i → (dn i).type ≠ 0 → (dn i).nlink ≠ 0) :
    Cached sb (update m i (dn i)) dn { g with pins := P } (update c k x) := by
  have hmem : (k, i) ∈ g.pins := hg ▸ Multiset.mem_cons_self _ _
  have hinum := h.names _ hmem
  have hlast := h.last hg href
  have hx0 : ∀ j, ¬x.Holds j := fun j hj => by have := hj.1; omega
  have hother : ∀ k' j, k' ≠ k → (c k').Holds j → j ≠ i := by
    rintro k' j hk' hj rfl
    exact hk' (h.eq_of_inum hj.1 (by omega) (hj.2.2.trans hinum.symm))
  refine h.of_update (fun k' => h.countP_update hg (by omega) k') ?_ ?_ (fun _ _ => Iff.rfl) ?_ ?_ ?_ ?_ ?_ ?_
  · intro p hp
    rw [update_of_ne (hlast p hp).1]
    exact h.names p (hg ▸ Multiset.mem_cons_of_mem hp)
  · intro p hp q hq
    exact h.unique p (hg ▸ Multiset.mem_cons_of_mem hp) q (hg ▸ Multiset.mem_cons_of_mem hq)
  · rw [hxl]
    exact h.locked k
  · exact fun hl' => absurd hl' hl
  · exact fun j hj => absurd hj (hx0 j)
  · intro k' j hk' hj
    exact update_of_ne (hother k' j hk' hj) _ _
  · intro j hj hnone
    by_cases hji : j = i
    · subst hji
      rw [update_self]
    · rw [update_of_ne hji]
      exact h.stored j hj (not_holds_update hnone fun hc => absurd (hc.2.2.symm.trans hinum) hji)
  · intro hw j hj hn ht hl'
    by_cases hji : j = i
    · subst hji
      rw [update_self] at ht hl'
      exact absurd hl' (horphan hw hn ht)
    · rw [update_of_ne hji] at ht hl'
      exact exists_holds_update (h.orphan hw j hj hn ht hl') fun hc => absurd (hc.2.2.symm.trans hinum) hji

end

end Cached

end Xv6.Fs
