/-
A directory as a finite map from names to inode numbers.

`Binds f size b` says that the bytes f of a directory stand for the map b: the live entries have different names, and b
has the inode number of each. Writing an entry for a new name where `dirlink` puts it, and clearing the entry of a name as
`sys_unlink` does, change the map at that name only (`Binds.link`, `Binds.erase`).

A run is any sequence of `dirlink` calls and erasures on a locked directory that `create` has given its entries "." and
"..", which `sys_unlink` never erases.
- `directory_is_map`: in every state of every run, `dirlookup` is the map, `dirlink` refuses exactly the names that it has,
  and `isdirempty` says whether it has others than "." and "..".
-/
import Xv6.Fs.Blank
import Xv6.Fs.Dir

namespace Xv6.Fs

open Xv6.Bytes Xv6.Wp Function

/-! ## Entries -/

/-- f with entry v replaced -/
def putEntry (f : Store) (v : ℕ) (src : Store) : Store := fun p =>
  if DESIZE * v ≤ p ∧ p < DESIZE * v + DESIZE then src (p - DESIZE * v) else f p

theorem entry_putEntry_self (f : Store) (v : ℕ) (src : Store) : entry (putEntry f v src) v = (List.range DESIZE).map src := by
  refine List.map_congr_left fun j hj => ?_
  rw [putEntry, if_pos ⟨Nat.le_add_right _ _, Nat.add_lt_add_left (List.mem_range.1 hj) _⟩, Nat.add_sub_cancel_left]

theorem entry_putEntry_ne (f : Store) {v q : ℕ} (src : Store) (h : q ≠ v) : entry (putEntry f v src) q = entry f q := by
  refine List.map_congr_left fun j hj => if_neg fun hc => h ?_
  have hj := List.mem_range.1 hj
  simp only [DESIZE] at hc hj
  omega

/-- the name and the inode number of an entry that `dirlink` writes -/
theorem entry_dirent {name : List Byte} {inum : ℕ} (hname : IsName name) (hinum : inum < 65536) :
    deInum ((List.range DESIZE).map (dirent name inum)) = inum ∧
      deName ((List.range DESIZE).map (dirent name inum)) = name := by
  have hlen : (strncpy name DIRSIZ).length = 14 := length_strncpy name DIRSIZ
  have hlist : (List.range DESIZE).map (dirent name inum) =
      BitVec.ofNat 8 inum :: BitVec.ofNat 8 (inum / 256) :: strncpy name DIRSIZ := by
    refine List.ext_getElem (by simp [hlen, DESIZE]) fun j h1 h2 => ?_
    rw [List.getElem_map, List.getElem_range, dirent, List.getD_eq_getElem?_getD, List.getElem?_eq_getElem h2]
    rfl
  constructor
  · have hget : deInum ((List.range DESIZE).map (dirent name inum)) = getLE (dirent name inum) 0 2 := by
      rw [hlist]
      rfl
    rw [hget, getLE_dirent, Nat.mod_eq_of_lt hinum]
  · rw [hlist, deName, List.drop_succ_cons, List.drop_succ_cons, List.drop_zero, hname.cstr_strncpy]

theorem deInum_zero : deInum ((List.range DESIZE).map fun _ => (0 : Byte)) = 0 := by decide

/-- entry q is in use -/
def Live (f : Store) (size q : ℕ) : Prop := q < size / DESIZE ∧ deInum (entry f q) ≠ 0

theorem isNamed_iff {f : Store} {q : ℕ} {name : List Byte} (h : IsName name) :
    isNamed name (entry f q) = true ↔ deInum (entry f q) ≠ 0 ∧ deName (entry f q) = name := by
  have hcut : (List.drop 2 (entry f q)).take DIRSIZ = List.drop 2 (entry f q) :=
    List.take_of_length_le (by simp [entry, DESIZE, DIRSIZ])
  rw [isNamed, decide_eq_true_eq, namecmp, strncmp_eq_zero, h.cut, hcut, deName, eq_comm (a := name)]

/-- the bytes f stand for the map b -/
structure Binds (f : Store) (size : ℕ) (b : List Byte → Option ℕ) : Prop where
  whole : DESIZE ∣ size
  apart : ∀ q q', Live f size q → Live f size q' → deName (entry f q) = deName (entry f q') → q = q'
  names : ∀ q, Live f size q → IsName (deName (entry f q))
  map : ∀ name j, b name = some j ↔ ∃ q, Live f size q ∧ deName (entry f q) = name ∧ deInum (entry f q) = j

namespace Binds

variable {f : Store} {size : ℕ} {b : List Byte → Option ℕ} {name : List Byte}

theorem lookup_some (h : Binds f size b) (hname : IsName name) {q : ℕ} (hq : lookup f size name = some q) :
    Live f size q ∧ deName (entry f q) = name ∧ b name = some (deInum (entry f q)) := by
  have hnamed := (isNamed_iff hname).1 (List.find?_some (p := fun q => isNamed name (entry f q)) hq)
  have hlive : Live f size q := ⟨List.mem_range.1 (List.mem_of_find?_eq_some hq), hnamed.1⟩
  exact ⟨hlive, hnamed.2, (h.map _ _).2 ⟨q, hlive, hnamed.2, rfl⟩⟩

theorem lookup_none (h : Binds f size b) (hname : IsName name) (hq : lookup f size name = none) : b name = none := by
  cases hb : b name with
  | none => rfl
  | some j =>
    obtain ⟨q, hlive, hdn, -⟩ := (h.map name j).1 hb
    have hno := List.find?_eq_none.1 hq q (List.mem_range.2 hlive.1)
    exact absurd ((isNamed_iff hname).2 ⟨hlive.2, hdn⟩) hno

/-- the entries after one of them was replaced -/
theorem live_putEntry {v q : ℕ} {src : Store} {size' : ℕ} (hsize : size' / DESIZE = max (size / DESIZE) (v + 1)) (hq : q ≠ v)
    (hv : v ≤ size / DESIZE) : Live (putEntry f v src) size' q ↔ Live f size q := by
  rw [Live, Live, entry_putEntry_ne f src hq, hsize]
  refine and_congr_left fun _ => ?_
  omega

/-- an entry that was not in use, or at the end -/
theorem vacant_not_live (f : Store) (size : ℕ) : ¬Live f size (vacant f size) := by
  intro h
  unfold vacant at h
  cases hf : (List.range (size / DESIZE)).find? fun q => decide (deInum (entry f q) = 0) with
  | none =>
    rw [hf] at h
    exact absurd h.1 (lt_irrefl _)
  | some q =>
    rw [hf] at h
    exact h.2 (of_decide_eq_true (List.find?_some (p := fun q => decide (deInum (entry f q) = 0)) hf))

/-- **A new name.** -/
theorem link (h : Binds f size b) (hname : IsName name) (hnew : b name = none) {inum : ℕ} (h0 : inum ≠ 0)
    (hinum : inum < 65536) : Binds (putEntry f (vacant f size) (dirent name inum))
      (max size (DESIZE * vacant f size + DESIZE)) (update b name (some inum)) := by
  generalize hv : vacant f size = v
  have hle : v ≤ size / DESIZE := hv ▸ vacant_le f size
  have hfree : ¬Live f size v := hv ▸ vacant_not_live f size
  obtain ⟨c, rfl⟩ := h.whole
  have hcount : DESIZE * c / DESIZE = c := Nat.mul_div_cancel_left c (by decide)
  have hsize : max (DESIZE * c) (DESIZE * v + DESIZE) / DESIZE = max (DESIZE * c / DESIZE) (v + 1) := by
    simp only [DESIZE]
    omega
  obtain ⟨hin, hdn⟩ := entry_dirent hname hinum
  rw [← entry_putEntry_self f v] at hin hdn
  have hlive : Live (putEntry f v (dirent name inum)) (max (DESIZE * c) (DESIZE * v + DESIZE)) v := by
    refine ⟨?_, by rw [hin]; exact h0⟩
    rw [hsize]
    exact lt_max_of_lt_right (Nat.lt_succ_self v)
  have hother : ∀ q, q ≠ v → (Live (putEntry f v (dirent name inum)) (max (DESIZE * c) (DESIZE * v + DESIZE)) q ↔
      Live f (DESIZE * c) q) ∧ entry (putEntry f v (dirent name inum)) q = entry f q := fun q hq =>
    ⟨live_putEntry hsize hq hle, entry_putEntry_ne f _ hq⟩
  -- no old entry has the new name
  have habsent : ∀ q, Live f (DESIZE * c) q → deName (entry f q) ≠ name := by
    intro q hq hdn
    rw [(h.map name _).2 ⟨q, hq, hdn, rfl⟩] at hnew
    cases hnew
  refine ⟨?_, ?_, ?_, ?_⟩
  · rcases max_choice (DESIZE * c) (DESIZE * v + DESIZE) with he | he <;> rw [he]
    · exact ⟨c, rfl⟩
    · exact ⟨v + 1, rfl⟩
  · intro q q' hq hq' heq
    by_cases hqv : q = v <;> by_cases hqv' : q' = v
    · rw [hqv, hqv']
    · rw [hqv, hdn, (hother q' hqv').2] at heq
      exact absurd heq.symm (habsent q' ((hother q' hqv').1.1 hq'))
    · rw [hqv', hdn, (hother q hqv).2] at heq
      exact absurd heq (habsent q ((hother q hqv).1.1 hq))
    · rw [(hother q hqv).2, (hother q' hqv').2] at heq
      exact h.apart q q' ((hother q hqv).1.1 hq) ((hother q' hqv').1.1 hq') heq
  · intro q hq
    by_cases hqv : q = v
    · rw [hqv, hdn]
      exact hname
    · rw [(hother q hqv).2]
      exact h.names q ((hother q hqv).1.1 hq)
  · intro name' j
    by_cases hn : name' = name
    · subst hn
      rw [update_self]
      constructor
      · intro hj
        exact ⟨v, hlive, hdn, hin.trans (Option.some.inj hj)⟩
      · rintro ⟨q, hq, hqn, rfl⟩
        by_cases hqv : q = v
        · rw [hqv, hin]
        · rw [(hother q hqv).2] at hqn
          exact absurd hqn (habsent q ((hother q hqv).1.1 hq))
    · rw [update_of_ne hn, h.map]
      constructor
      · rintro ⟨q, hq, hqn, hqj⟩
        have hqv : q ≠ v := fun hc => hfree (hc ▸ hq)
        refine ⟨q, (hother q hqv).1.2 hq, ?_, ?_⟩
        · rw [(hother q hqv).2]; exact hqn
        · rw [(hother q hqv).2]; exact hqj
      · rintro ⟨q, hq, hqn, hqj⟩
        have hqv : q ≠ v := by
          rintro rfl
          exact hn (hqn.symm.trans hdn)
        rw [(hother q hqv).2] at hqn hqj
        exact ⟨q, (hother q hqv).1.1 hq, hqn, hqj⟩

/-- **A name that goes.** -/
theorem erase (h : Binds f size b) {q : ℕ} (hq : Live f size q) :
    Binds (putEntry f q fun _ => 0) size (update b (deName (entry f q)) none) := by
  have hdead : deInum (entry (putEntry f q fun _ => 0) q) = 0 := by
    rw [entry_putEntry_self]
    exact deInum_zero
  have hne : ∀ q', Live (putEntry f q fun _ => 0) size q' → q' ≠ q := by
    rintro q' hq' rfl
    exact hq'.2 hdead
  have hother : ∀ q', q' ≠ q → (Live (putEntry f q fun _ => 0) size q' ↔ Live f size q') ∧
      entry (putEntry f q fun _ => 0) q' = entry f q' := fun q' hq' =>
    ⟨by rw [Live, Live, entry_putEntry_ne f _ hq'], entry_putEntry_ne f _ hq'⟩
  refine ⟨h.whole, ?_, ?_, ?_⟩
  · intro q₁ q₂ h₁ h₂ heq
    rw [(hother q₁ (hne q₁ h₁)).2, (hother q₂ (hne q₂ h₂)).2] at heq
    exact h.apart q₁ q₂ ((hother q₁ (hne q₁ h₁)).1.1 h₁) ((hother q₂ (hne q₂ h₂)).1.1 h₂) heq
  · intro q₁ h₁
    rw [(hother q₁ (hne q₁ h₁)).2]
    exact h.names q₁ ((hother q₁ (hne q₁ h₁)).1.1 h₁)
  · intro name j
    by_cases hn : name = deName (entry f q)
    · subst hn
      rw [update_self]
      constructor
      · intro hj
        cases hj
      · rintro ⟨q₁, h₁, hname, -⟩
        rw [(hother q₁ (hne q₁ h₁)).2] at hname
        exact absurd (h.apart q₁ q ((hother q₁ (hne q₁ h₁)).1.1 h₁) hq hname) (hne q₁ h₁)
    · rw [update_of_ne hn, h.map]
      constructor
      · rintro ⟨q₁, h₁, hname, hj⟩
        have hqq : q₁ ≠ q := by
          rintro rfl
          exact hn hname.symm
        refine ⟨q₁, (hother q₁ hqq).1.2 h₁, ?_, ?_⟩
        · rw [(hother q₁ hqq).2]; exact hname
        · rw [(hother q₁ hqq).2]; exact hj
      · rintro ⟨q₁, h₁, hname, hj⟩
        rw [(hother q₁ (hne q₁ h₁)).2] at hname hj
        exact ⟨q₁, (hother q₁ (hne q₁ h₁)).1.1 h₁, hname, hj⟩

end Binds

/-- entry q is in use and has this name -/
def Named (f : Store) (size q : ℕ) (name : List Byte) : Prop := Live f size q ∧ deName (entry f q) = name

theorem Named.putEntry {f src : Store} {size size' q v : ℕ} {name : List Byte} (h : Named f size q name) (hv : q ≠ v)
    (hsize : size ≤ size') : Named (putEntry f v src) size' q name := by
  have hentry := entry_putEntry_ne f src hv
  refine ⟨⟨h.1.1.trans_le (Nat.div_le_div_right hsize), ?_⟩, ?_⟩
  · rw [hentry]
    exact h.1.2
  · rw [hentry]
    exact h.2

/-- the entry that `dirlink` writes -/
theorem named_dirent {f : Store} {size v inum : ℕ} {name : List Byte} (hname : IsName name) (h0 : inum ≠ 0)
    (hinum : inum < 65536) (hsize : DESIZE * v + DESIZE ≤ size) : Named (putEntry f v (dirent name inum)) size v name := by
  obtain ⟨hin, hdn⟩ := entry_dirent hname hinum
  rw [← entry_putEntry_self f v] at hin hdn
  refine ⟨⟨(Nat.le_div_iff_mul_le (by decide)).2 ?_, ?_⟩, hdn⟩
  · rw [mul_comm]
    exact hsize
  · rw [hin]
    exact h0

/-! ## The code on a locked directory -/

/-- entry k of the cache is locked and is the directory i, which has no holes; the inodes are a and their bytes F -/
structure HeldDir (sb : Superblock) (k : Fin NINODE) (i : ℕ) (a : ℕ → Node) (F : ℕ → Store) (s : St) : Prop where
  rep : ∃ m g, RepM sb ⟨False, False⟩ m a g s ∧ (k, i) ∈ g.pins ∧ k ∈ g.locks ∧ g.dirty = none ∧ g.newborn = none ∧
    HoleFree sb m s.disk i ∧ contents sb m s.disk = F
  type : (a i).type = Dinode.T_DIR
  small : (a i).size ≤ MAXFILE * BSIZE

section

variable {sb : Superblock} {σ : Fault → Prop} {k : Fin NINODE} {i : ℕ} {a : ℕ → Node} {F : ℕ → Store} {s t : St}
  {b : List Byte → Option ℕ} {name : List Byte}

/-- the size is the one the kernel has -/
theorem HeldDir.size (h : HeldDir sb k i a F s) : (s.icache k).ino.size.toNat = (a i).size := by
  obtain ⟨⟨m, g, hrep, hp, hl, -⟩, -⟩ := h
  rw [(hrep.ino hl hp).1]
  exact (hrep.node (hrep.lt hl hp)).2.2.symm

/-- with the same references the counters are the same -/
theorem RepM.refs {τ : Mode} {m m' : ℕ → Dinode} {a' : ℕ → Node} {g : Ghost} (hs : RepM sb τ m a g s)
    (ht : RepM sb τ m' a' g t) (k' : Fin NINODE) : (t.icache k').ref = (s.icache k').ref :=
  (ht.cached.count k').trans (hs.cached.count k').symm

theorem HeldDir.dir (h : HeldDir sb k i a F s) (hwhole : DESIZE ∣ (a i).size) : Dir sb σ (a i) :=
  ⟨h.type, hwhole, fun hc => absurd h.small (Nat.not_le.2 hc)⟩

theorem wp_dirlookup_held (wf : sb.WF) (h : HeldDir sb k i a F s) (hb : Binds (F i) (a i).size b) (hname : IsName name) :
    wp (dirlookup k name) (fun r t => t.disk = s.disk ∧ HeldDir sb k i a F t ∧
      r.map (fun x => (t.icache x.1).inum) = b name ∧
      ∀ x, r = some x → ∃ q, x.2 = DESIZE * q ∧ Live (F i) (a i).size q ∧ deName (entry (F i) q) = name) (Stop σ) s := by
  have hdir : Dir sb σ (a i) := h.dir hb.whole
  obtain ⟨⟨m, g, hrep, hp, hl, hd, hn, hfree, rfl⟩, htype, hmax⟩ := h
  refine wp_imp (wp_dirlookup wf hrep hp hl hd hdir name) ?_
  rintro r t (⟨hnone, rfl, m', hlook⟩ | ⟨q, k', m', hsome, rfl, href⟩)
  · obtain ⟨rfl, rfl⟩ := hlook.still hfree
    refine ⟨rfl, ⟨⟨m', g, hrep, hp, hl, hd, hn, hfree, rfl⟩, htype, hmax⟩, ?_, fun x hx => by cases hx⟩
    exact (hb.lookup_none hname hnone).symm
  · obtain ⟨hdisk, rfl⟩ := href.still hfree
    obtain ⟨hlive, hdn, hj⟩ := hb.lookup_some hname hsome
    refine ⟨hdisk, ⟨⟨m', _, href.rep, Multiset.mem_cons_of_mem hp, hl, hd, hn, ?_, href.bytes⟩, htype, hmax⟩, ?_, ?_⟩
    · rw [hdisk]
      exact hfree
    · rw [hj]
      exact congrArg some (href.rep.inum (Multiset.mem_cons_self _ _))
    · rintro _ ⟨⟩
      exact ⟨q, rfl, hlive, hdn⟩

/-- entry q of directory i is replaced, and nothing else -/
structure Replaced (i : ℕ) (a : ℕ → Node) (F : ℕ → Store) (q : ℕ) (src : Store) (a' : ℕ → Node) (F' : ℕ → Store) : Prop where
  bytes : F' = Function.update F i (putEntry (F i) q src)
  size : (a' i).size = max (a i).size (DESIZE * q + DESIZE)
  others : ∀ j, j ≠ i → a' j = a j

theorem HeldDir.put {m : ℕ → Dinode} {g : Ghost} {src : Store} {q : ℕ}
    (hw : Wrote sb ⟨False, False⟩ m a g s i src (DESIZE * q) DESIZE t) (hp : (k, i) ∈ g.pins) (hl : k ∈ g.locks)
    (hd : g.dirty = none) (hn : g.newborn = none) (hfree : HoleFree sb m s.disk i) (htype : (a i).type = Dinode.T_DIR)
    (hmax : max (a i).size (DESIZE * q + DESIZE) ≤ MAXFILE * BSIZE) :
    ∃ a' F', HeldDir sb k i a' F' t ∧ Replaced i a (contents sb m s.disk) q src a' F' := by
  obtain ⟨m', hrep, hbytes, hstill⟩ := hw
  refine ⟨_, _, ⟨⟨m', g, hrep, hp, hl, hd, hn, hstill hfree, rfl⟩, ?_, ?_⟩, ?_, ?_, ?_⟩
  · rw [update_self]
    exact htype
  · rw [update_self]
    exact hmax
  · funext j p
    rw [hbytes]
    by_cases hj : j = i
    · subst hj
      rw [update_self, putEntry]
      simp only [true_and]
    · rw [update_of_ne hj, if_neg fun hc => hj hc.1]
  · rw [update_self]
    rfl
  · intro j hj
    exact update_of_ne hj _ _

theorem wp_dirlink_held (wf : sb.WF) (h : HeldDir sb k i a F s) (hb : Binds (F i) (a i).size b) (hname : IsName name)
    (inum : ℕ) (hroom : (a i).size < MAXFILE * BSIZE) :
    wp (dirlink k name inum) (fun r t => (∀ k', (t.icache k').ref = (s.icache k').ref) ∧
      (b name ≠ none ∧ r = false ∧ t.disk = s.disk ∧ HeldDir sb k i a F t ∨
      b name = none ∧ r = true ∧ ∃ a' F', HeldDir sb k i a' F' t ∧
        Replaced i a F (vacant (F i) (a i).size) (dirent name inum) a' F')) (Stop σ) s := by
  have hdir : Dir sb σ (a i) := h.dir hb.whole
  obtain ⟨⟨m, g, hrep, hp, hl, hd, hn, hfree, rfl⟩, htype, hmax⟩ := h
  have hle := vacant_le (contents sb m s.disk i) (a i).size
  obtain ⟨c, hc⟩ := hb.whole
  -- a size that is a multiple of the entry size and below the greatest one leaves room for an entry
  have hfits : DESIZE * vacant (contents sb m s.disk i) (a i).size + DESIZE ≤ MAXFILE * BSIZE := by
    have hmod : MAXFILE * BSIZE = DESIZE * 4480 := by decide
    have hcount : (a i).size / DESIZE = c := by rw [hc, Nat.mul_div_cancel_left c (by decide)]
    rw [hcount] at hle
    rw [hmod] at hroom ⊢
    simp only [DESIZE] at *
    omega
  refine wp_imp (wp_dirlink wf hrep hp hl hd hn hdir name inum (fun hf => hf.elim)
    fun hc => absurd hfits (Nat.not_le.2 hc)) ?_
  rintro r t (⟨hsome, rfl, m', ht, hbytes, hstill⟩ | ⟨hnone, rfl, m', u, hlook, hw⟩)
  · obtain ⟨hdisk, rfl⟩ := hstill hfree
    refine ⟨hrep.refs ht, .inl ⟨?_, rfl, hdisk, ⟨m', g, ht, hp, hl, hd, hn, ?_, hbytes⟩, htype, hmax⟩⟩
    · obtain ⟨q, hq⟩ := Option.ne_none_iff_exists'.1 hsome
      rw [(hb.lookup_some hname hq).2.2]
      exact Option.some_ne_none _
    · rw [hdisk]
      exact hfree
  · obtain ⟨rfl, rfl⟩ := hlook.still hfree
    refine ⟨?_, .inr ⟨hb.lookup_none hname hnone, rfl, HeldDir.put hw hp hl hd hn hfree htype (max_le hmax hfits)⟩⟩
    obtain ⟨m'', ht, -⟩ := hw
    exact hrep.refs ht

theorem wp_eraseEntry_held (wf : sb.WF) (h : HeldDir sb k i a F s) (hb : Binds (F i) (a i).size b) (hname : IsName name) :
    wp (eraseEntry k name) (fun r t =>
      b name = none ∧ r = false ∧ HeldDir sb k i a F t ∨
      ∃ q, Live (F i) (a i).size q ∧ deName (entry (F i) q) = name ∧ r = true ∧
        ∃ a' F', HeldDir sb k i a' F' t ∧ (a' i).size = (a i).size ∧ Replaced i a F q (fun _ => 0) a' F') (Stop σ) s := by
  unfold eraseEntry
  rw [wp_bind]
  refine wp_imp (wp_dirlookup_held wf h hb hname) ?_
  rintro r t ⟨-, ht, hr, hx⟩
  cases r with
  | none => exact wp_return (.inl ⟨hr.symm, rfl, ht⟩)
  | some x =>
    obtain ⟨k', off⟩ := x
    obtain ⟨q, rfl, hlive, hdn⟩ := hx _ rfl
    obtain ⟨⟨m, g, hrep, hp, hl, hd, hn, hfree, rfl⟩, htype, hmax⟩ := ht
    have hin : DESIZE * q + DESIZE ≤ (a i).size := by
      have hq := (Nat.le_div_iff_mul_le (show 0 < DESIZE by decide)).1 hlive.1
      simp only [DESIZE] at hq ⊢
      omega
    have hok : ¬(a i).Refuses (DESIZE * q) DESIZE := by
      have hbig : MAXFILE * BSIZE < 2 ^ 32 := by decide
      rw [Node.Refuses, Nat.mod_eq_of_lt (by omega)]
      omega
    have hdev : (a i).type ≠ Dinode.T_DEV := by rw [htype]; decide
    dsimp only
    rw [wp_bind]
    refine wp_imp (wp_writei wf hrep hp hl hd hn (fun hf => hf.elim)) ?_
    rintro r u (⟨hc, -⟩ | ⟨-, hc, -⟩ | ⟨-, -, rfl, hw⟩)
    · exact absurd hc hdev
    · exact absurd hc hok
    · rw [if_neg (by simp)]
      refine wp_return (.inr ⟨q, hlive, hdn, rfl, ?_⟩)
      obtain ⟨a', F', hheld, hput⟩ := HeldDir.put (k := k) hw hp hl hd hn hfree htype (by rw [max_eq_left hin]; exact hmax)
      exact ⟨a', F', hheld, hput.size.trans (max_eq_left hin), hput⟩

theorem wp_isdirempty_held (wf : sb.WF) (h : HeldDir sb k i a F s) (hwhole : DESIZE ∣ (a i).size) :
    wp (isdirempty k) (fun r t => t = s ∧ (r = true ↔ Bare (F i) (a i).size)) (Stop σ) s := by
  have hdir : Dir sb σ (a i) := h.dir hwhole
  obtain ⟨⟨m, g, hrep, hp, hl, hd, -, hfree, rfl⟩, -, -⟩ := h
  refine wp_imp (wp_isdirempty wf hrep hp hl hd hdir) ?_
  rintro r t ⟨⟨m', hlook⟩, hr⟩
  exact ⟨(hlook.still hfree).1, hr⟩

end

/-! ## Runs -/

/-- what may happen to a directory: `dirlink`, the erasure of a name, or something that leaves it as it is -/
inductive DirOp where
  | link (name : List Byte) (inum : ℕ)
  | erase (name : List Byte)
  | elsewhere

/-- the last inode number linked under each name and not erased since -/
abbrev DirMap := List Byte → Option ℕ

/-- **One step.** r is what the call returned. -/
def DirOp.Next (sb : Superblock) (k : Fin NINODE) (i : ℕ) (s : St) (b : DirMap) (t : St) (b' : DirMap) : DirOp → Prop
  | .link name inum => IsName name ∧ 1 ≤ inum ∧ inum ≤ 65535 ∧ (s.icache k).ino.size.toNat < MAXFILE * BSIZE ∧
      ∃ r, dirlink k name inum s = .ok r t ∧ b' = if r then Function.update b name (some inum) else b
  | .erase name => IsName name ∧ name ≠ dot ∧ name ≠ dotdot ∧
      ∃ r, eraseEntry k name s = .ok r t ∧ b' = Function.update b name none
  | .elsewhere => b' = b ∧ ∀ a F, HeldDir sb k i a F s →
      ∃ a' F', HeldDir sb k i a' F' t ∧ F' i = F i ∧ (a' i).size = (a i).size

/-- `create` has linked "." and ".." in a new directory, of which nothing was written -/
structure NewDir (sb : Superblock) (k : Fin NINODE) (i : ℕ) (s : St) (b : DirMap) : Prop where
  inum : 1 ≤ i ∧ i ≤ 65535
  made : ∃ a F s₀ s₁ parent, HeldDir sb k i a F s₀ ∧ (a i).size = 0 ∧ 1 ≤ parent ∧ parent ≤ 65535 ∧
    dirlink k dot i s₀ = .ok true s₁ ∧ dirlink k dotdot parent s₁ = .ok true s ∧
    b = Function.update (Function.update (fun _ => none) dot (some i)) dotdot (some parent)

/-- the runs -/
def directory (sb : Superblock) (k : Fin NINODE) (i : ℕ) : Machine (St × DirMap) DirOp where
  init σ := NewDir sb k i σ.1 σ.2
  next σ op τ := op.Next sb k i σ.1 σ.2 τ.1 τ.2

/-- what holds in a run: the directory stands for the map, and its first two entries are "." and ".." -/
structure DirInv (i : ℕ) (b : DirMap) (a : ℕ → Node) (F : ℕ → Store) : Prop where
  binds : Binds (F i) (a i).size b
  dot : Named (F i) (a i).size 0 dot
  dotdot : Named (F i) (a i).size 1 dotdot

section

variable {sb : Superblock} {k : Fin NINODE} {i : ℕ} {a a' : ℕ → Node} {F F' : ℕ → Store} {s t : St} {b b' : DirMap}
  {name : List Byte}

theorem Replaced.named {src : Store} {q v : ℕ} (h : Replaced i a F v src a' F') (hq : q ≠ v)
    (hn : Named (F i) (a i).size q name) : Named (F' i) (a' i).size q name := by
  rw [h.bytes, update_self]
  exact hn.putEntry hq (h.size ▸ le_max_left _ _)

theorem Replaced.new {v inum : ℕ} (h : Replaced i a F v (dirent name inum) a' F') (hname : IsName name) (h1 : 1 ≤ inum)
    (hinum : inum ≤ 65535) : Named (F' i) (a' i).size v name := by
  rw [h.bytes, update_self]
  exact named_dirent hname (Nat.ne_of_gt h1) (Nat.lt_succ_of_le hinum) (h.size ▸ le_max_right _ _)

theorem Replaced.link {inum : ℕ} (h : Replaced i a F (vacant (F i) (a i).size) (dirent name inum) a' F')
    (hb : Binds (F i) (a i).size b) (hname : IsName name) (hnew : b name = none) (h1 : 1 ≤ inum) (hinum : inum ≤ 65535) :
    Binds (F' i) (a' i).size (update b name (some inum)) := by
  rw [h.bytes, update_self, h.size]
  exact hb.link hname hnew (Nat.ne_of_gt h1) (Nat.lt_succ_of_le hinum)

theorem Replaced.erase {q : ℕ} (h : Replaced i a F q (fun _ => 0) a' F') (hb : Binds (F i) (a i).size b)
    (hsize : (a' i).size = (a i).size) (hq : Live (F i) (a i).size q) :
    Binds (F' i) (a' i).size (update b (deName (entry (F i) q)) none) := by
  rw [h.bytes, update_self, hsize]
  exact hb.erase hq

theorem Replaced.elsewhere {src : Store} {q : ℕ} (h : Replaced i a F q src a' F') (j : ℕ) (hj : j ≠ i) :
    a' j = a j ∧ F' j = F j := by
  refine ⟨h.others j hj, ?_⟩
  rw [h.bytes, update_of_ne hj]

theorem DirInv.link {inum : ℕ} (hinv : DirInv i b a F)
    (h : Replaced i a F (vacant (F i) (a i).size) (dirent name inum) a' F') (hname : IsName name) (hnew : b name = none)
    (h1 : 1 ≤ inum) (hinum : inum ≤ 65535) : DirInv i (update b name (some inum)) a' F' where
  binds := h.link hinv.binds hname hnew h1 hinum
  dot := h.named (fun hc => Binds.vacant_not_live _ _ (hc ▸ hinv.dot.1)) hinv.dot
  dotdot := h.named (fun hc => Binds.vacant_not_live _ _ (hc ▸ hinv.dotdot.1)) hinv.dotdot

theorem DirInv.erase {q : ℕ} (hinv : DirInv i b a F) (h : Replaced i a F q (fun _ => 0) a' F')
    (hsize : (a' i).size = (a i).size) (hq : Named (F i) (a i).size q name) (hdot : name ≠ Fs.dot)
    (hdotdot : name ≠ Fs.dotdot) : DirInv i (update b name none) a' F' where
  binds := by
    obtain ⟨hlive, rfl⟩ := hq
    exact h.erase hinv.binds hsize hlive
  dot := h.named (fun hc => hdot (hq.2.symm.trans (hc ▸ hinv.dot.2))) hinv.dot
  dotdot := h.named (fun hc => hdotdot (hq.2.symm.trans (hc ▸ hinv.dotdot.2))) hinv.dotdot

/-- **One step keeps the invariant.** -/
theorem DirInv.next {op : DirOp} (wf : sb.WF) (hs : HeldDir sb k i a F s) (hinv : DirInv i b a F)
    (h : op.Next sb k i s b t b') : ∃ a' F', HeldDir sb k i a' F' t ∧ DirInv i b' a' F' := by
  cases op with
  | link name inum =>
    obtain ⟨hname, h1, hinum, hroom, r, hrun, rfl⟩ := h
    rw [hs.size] at hroom
    have hspec := wp_ok (wp_dirlink_held (σ := fun _ => False) wf hs hinv.binds hname inum hroom) hrun
    obtain ⟨-, ⟨-, rfl, -, ht⟩ | ⟨hnew, rfl, a', F', ht, hput⟩⟩ := hspec
    · exact ⟨a, F, ht, hinv⟩
    · exact ⟨a', F', ht, hinv.link hput hname hnew h1 hinum⟩
  | erase name =>
    obtain ⟨hname, hdot, hdotdot, r, hrun, rfl⟩ := h
    have hspec := wp_ok (wp_eraseEntry_held (σ := fun _ => False) wf hs hinv.binds hname) hrun
    rcases hspec with ⟨hnone, -, ht⟩ | ⟨q, hlive, hdn, -, a', F', ht, hsize, hput⟩
    · rw [update_eq_self_iff.2 hnone.symm]
      exact ⟨a, F, ht, hinv⟩
    · exact ⟨a', F', ht, hinv.erase hput hsize ⟨hlive, hdn⟩ hdot hdotdot⟩
  | elsewhere =>
    obtain ⟨rfl, h⟩ := h
    obtain ⟨a', F', ht, hbytes, hsize⟩ := h a F hs
    refine ⟨a', F', ht, ?_, ?_, ?_⟩
    · rw [hbytes, hsize]
      exact hinv.binds
    · rw [hbytes, hsize]
      exact hinv.dot
    · rw [hbytes, hsize]
      exact hinv.dotdot

theorem isName_dot : IsName dot := ⟨by decide, by decide, by decide, by decide⟩

theorem isName_dotdot : IsName dotdot := ⟨by decide, by decide, by decide, by decide⟩

/-- an empty directory stands for the empty map -/
theorem Binds.empty (f : Store) : Binds f 0 fun _ => none where
  whole := dvd_zero _
  apart q _ hq := absurd hq.1 (Nat.not_lt_zero q)
  names q hq := absurd hq.1 (Nat.not_lt_zero q)
  map _ _ := ⟨nofun, fun ⟨q, hq, _⟩ => absurd hq.1 (Nat.not_lt_zero q)⟩

/-- with one entry in use the next is free -/
theorem vacant_one {f : Store} (h : Named f DESIZE 0 name) : vacant f DESIZE = 1 := by
  have hle : vacant f DESIZE ≤ 1 := vacant_le f DESIZE
  have hne : vacant f DESIZE ≠ 0 := fun hc => Binds.vacant_not_live f DESIZE (hc ▸ h.1)
  omega

/-- **`create`'s two entries.** -/
theorem NewDir.inv (wf : sb.WF) (h : NewDir sb k i s b) : ∃ a F, HeldDir sb k i a F s ∧ DirInv i b a F := by
  obtain ⟨⟨h1, hi⟩, a, F, s₀, s₁, parent, h₀, hsize, hp1, hparent, hdot, hdotdot, rfl⟩ := h
  have hempty : Binds (F i) (a i).size fun _ => none := hsize ▸ Binds.empty (F i)
  have hspec := wp_ok (wp_dirlink_held (σ := fun _ => False) wf h₀ hempty isName_dot i (hsize ▸ by decide)) hdot
  obtain ⟨-, ⟨hc, -⟩ | ⟨hnew, -, a₁, F₁, hheld, hput⟩⟩ := hspec
  · exact absurd rfl hc
  have hv : vacant (F i) (a i).size = 0 := by
    rw [hsize]
    rfl
  have hsize₁ : (a₁ i).size = DESIZE := by
    rw [hput.size, hv, hsize]
    rfl
  have hbinds := hput.link hempty isName_dot hnew h1 hi
  have hfirst : Named (F₁ i) (a₁ i).size 0 dot := by
    rw [hv] at hput
    exact hput.new isName_dot h1 hi
  have hspec := wp_ok (wp_dirlink_held (σ := fun _ => False) wf hheld hbinds isName_dotdot parent (hsize₁ ▸ by decide)) hdotdot
  obtain ⟨-, ⟨-, hc, -⟩ | ⟨hnew', -, a₂, F₂, hheld₂, hput₂⟩⟩ := hspec
  · cases hc
  have hv₂ : vacant (F₁ i) (a₁ i).size = 1 := by
    rw [hsize₁] at hfirst ⊢
    exact vacant_one hfirst
  refine ⟨a₂, F₂, hheld₂, hput₂.link hbinds isName_dotdot hnew' hp1 hparent, ?_, ?_⟩
  · exact hput₂.named (by rw [hv₂]; exact Nat.zero_ne_one) hfirst
  · rw [hv₂] at hput₂
    exact hput₂.new isName_dotdot hp1 hparent

/-- the entries after the first two are those that are neither "." nor ".." -/
theorem DirInv.bare_iff (hinv : DirInv i b a F) : Bare (F i) (a i).size ↔
    ∀ q, Live (F i) (a i).size q → deName (entry (F i) q) = Fs.dot ∨ deName (entry (F i) q) = Fs.dotdot := by
  constructor
  · intro h q hq
    have h2 : q < 2 := Nat.lt_of_not_le fun hc => hq.2 (h q hc hq.1)
    obtain rfl | rfl : q = 0 ∨ q = 1 := by omega
    · exact .inl hinv.dot.2
    · exact .inr hinv.dotdot.2
  · intro h q h2 hq
    by_contra hne
    rcases h q ⟨hq, hne⟩ with hname | hname
    · have := hinv.binds.apart q 0 ⟨hq, hne⟩ hinv.dot.1 (hname.trans hinv.dot.2.symm)
      omega
    · have := hinv.binds.apart q 1 ⟨hq, hne⟩ hinv.dotdot.1 (hname.trans hinv.dotdot.2.symm)
      omega

/-- **A directory is a finite map.** In every state of a run: the size is a whole number of entries, and no two entries in
use have the same name; `dirlookup` finds what the map has; `dirlink` refuses exactly the names the map has, and then
nothing has changed, and otherwise changes the map at that name and no other inode; the erasure in `sys_unlink` finds
exactly the names the map has, takes the name out of the map and changes no other inode; `isdirempty` says whether the
entries in use are "." and "..". Each call returns, unless it runs out of cache entries, blocks or room in the log. -/
theorem directory_is_map (wf : sb.WF) (h : (directory sb k i).Reach (s, b)) :
    ∃ a F, HeldDir sb k i a F s ∧
      (DESIZE ∣ (a i).size ∧ ∀ q q', Live (F i) (a i).size q → Live (F i) (a i).size q' →
        deName (entry (F i) q) = deName (entry (F i) q') → q = q') ∧
      (∀ name, IsName name → wp (dirlookup k name) (fun r t => t.disk = s.disk ∧ HeldDir sb k i a F t ∧
        r.map (fun x => (t.icache x.1).inum) = b name) (Stop fun _ => False) s) ∧
      (∀ name inum, IsName name → 1 ≤ inum → inum ≤ 65535 → (a i).size < MAXFILE * BSIZE →
        wp (dirlink k name inum) (fun r t => (∀ k', (t.icache k').ref = (s.icache k').ref) ∧
          (b name ≠ none ∧ r = false ∧ t.disk = s.disk ∧ HeldDir sb k i a F t ∨
          b name = none ∧ r = true ∧ ∃ a' F', HeldDir sb k i a' F' t ∧ (∀ j, j ≠ i → a' j = a j ∧ F' j = F j) ∧
            Binds (F' i) (a' i).size (Function.update b name (some inum)))) (Stop fun _ => False) s) ∧
      (∀ name, IsName name → wp (eraseEntry k name) (fun r t => (r = true ↔ b name ≠ none) ∧
        ∃ a' F', HeldDir sb k i a' F' t ∧ (∀ j, j ≠ i → a' j = a j ∧ F' j = F j) ∧
          Binds (F' i) (a' i).size (Function.update b name none)) (Stop fun _ => False) s) ∧
      wp (isdirempty k) (fun r t => t = s ∧ (r = true ↔ ∀ q, Live (F i) (a i).size q →
        deName (entry (F i) q) = dot ∨ deName (entry (F i) q) = dotdot)) (Stop fun _ => False) s := by
  obtain ⟨a, F, hs, hinv⟩ := h.invariant (I := fun σ => ∃ a F, HeldDir sb k i a F σ.1 ∧ DirInv i σ.2 a F)
    (fun _ h0 => NewDir.inv wf h0) fun _ _ _ ⟨_, _, hs, hinv⟩ hnext => DirInv.next wf hs hinv hnext
  refine ⟨a, F, hs, ⟨hinv.binds.whole, hinv.binds.apart⟩, ?_, ?_, ?_, ?_⟩
  · intro name hname
    refine wp_mono (wp_dirlookup_held wf hs hinv.binds hname) ?_ (fun _ _ he => he)
    intro r t ht
    exact ⟨ht.1, ht.2.1, ht.2.2.1⟩
  · intro name inum hname h1 hinum hroom
    refine wp_mono (wp_dirlink_held wf hs hinv.binds hname inum hroom) ?_ (fun _ _ he => he)
    rintro r t ⟨hrefs, hold | ⟨hnew, rfl, a', F', ht, hput⟩⟩
    · exact ⟨hrefs, .inl hold⟩
    · exact ⟨hrefs, .inr ⟨hnew, rfl, a', F', ht, hput.elsewhere, hput.link hinv.binds hname hnew h1 hinum⟩⟩
  · intro name hname
    refine wp_mono (wp_eraseEntry_held wf hs hinv.binds hname) ?_ (fun _ _ he => he)
    rintro r t (⟨hnone, rfl, ht⟩ | ⟨q, hlive, rfl, rfl, a', F', ht, hsize, hput⟩)
    · refine ⟨iff_of_false Bool.noConfusion (not_not.2 hnone), a, F, ht, fun _ _ => ⟨rfl, rfl⟩, ?_⟩
      rw [update_eq_self_iff.2 hnone.symm]
      exact hinv.binds
    · have hsome : b (deName (entry (F i) q)) ≠ none :=
        Option.ne_none_iff_exists'.2 ⟨_, (hinv.binds.map _ _).2 ⟨q, hlive, rfl, rfl⟩⟩
      exact ⟨iff_of_true rfl hsome, a', F', ht, hput.elsewhere,
        hput.erase hinv.binds hsize hlive⟩
  · refine wp_mono (wp_isdirempty_held wf hs hinv.binds.whole) ?_ (fun _ _ he => he)
    intro r t ht
    exact ⟨ht.1, ht.2.trans hinv.bare_iff⟩

end

/-- a transaction is open, and inode 1 is a directory without entries -/
def emptyDir : St := { smallState 0 0 with
  disk := smallDisk emptyDirInode (.fresh 0)
  out := { (smallState 0 0).out with outstanding := 1 } }

theorem emptyDir_locked {s : St} (h : ilock entry0 emptyDir = .ok ⟨⟩ s) : ∃ a F, HeldDir smallSb entry0 1 a F s ∧ (a 1).size = 0 := by
  have hrep : RepM smallSb ⟨False, False⟩ _ _ _ emptyDir :=
    smallDisk_rep rfl rfl (fun _ => rfl) (fun _ => rfl) rfl
  have hino : (view smallSb emptyDir.disk).inode 1 = emptyDirInode := by
    rw [view_inode (by decide)]
    exact smallDisk_inode _ _ (by decide)
  obtain ⟨hs, -, hdisk⟩ := wp_ok (wp_ilock (σ := fun _ => True) hrep (k := entry0) (i := 1) (Multiset.mem_singleton_self _)
    (by decide) (fun _ => trivial) fun _ => trivial) h
  refine ⟨_, _, ⟨⟨_, _, hs, Multiset.mem_singleton_self _, Finset.mem_singleton_self _, rfl, rfl, ?_, rfl⟩, ?_, ?_⟩, ?_⟩
  · intro bn hbn
    rw [hino] at hbn
    exact absurd hbn (Nat.not_lt_zero _)
  · rw [hino]
    rfl
  · rw [hino]
    exact Nat.zero_le _
  · rw [hino]
    rfl

/-- "a" is linked after "." and "..", found, and erased; then it is not found. -/
theorem directory_is_map_a : ∃ s b s' b', (directory smallSb entry0 1).Reach (s, b) ∧
    (directory smallSb entry0 1).Reach (s', b') ∧ b [97] = some 5 ∧
    (∃ x t, dirlookup entry0 [97] s = .ok (some x) t ∧ (t.icache x.1).inum = 5) ∧
    eraseEntry entry0 [97] s = .ok true s' ∧ b' = Function.update b [97] none ∧
    ∃ t, dirlookup entry0 [97] s' = .ok none t := by
  have hwp : wp (do ilock entry0
                    let r₁ ← dirlink entry0 dot 1
                    let r₂ ← dirlink entry0 dotdot 1
                    let n := ((← get).icache entry0).ino.size.toNat
                    let r₃ ← dirlink entry0 [97] 5
                    let s ← get
                    let x ← dirlookup entry0 [97]
                    set s
                    let r₄ ← eraseEntry entry0 [97]
                    let y ← dirlookup entry0 [97]
                    return r₁ && r₂ && r₃ && r₄ && x.isSome && y.isNone && decide (n < MAXFILE * BSIZE) : M Bool)
      (fun r _ => r = true) (fun _ _ => False) emptyDir := wp_of_eval (P := fun r _ => r) (by decide +kernel)
  simp only [wp_bind] at hwp
  obtain ⟨⟨⟩, s₀, h₀, hwp⟩ := wp_exists.1 hwp
  obtain ⟨r₁, s₁, h₁, hwp⟩ := wp_exists.1 hwp
  obtain ⟨r₂, s₂, h₂, hwp⟩ := wp_exists.1 hwp
  obtain ⟨r₃, s₃, h₃, hwp⟩ := wp_exists.1 ((wp_get _).1 hwp)
  obtain ⟨x, t, hx, hwp⟩ := wp_exists.1 ((wp_get _).1 hwp)
  obtain ⟨r₄, s₄, h₄, hwp⟩ := wp_exists.1 ((wp_set _ _).1 hwp)
  obtain ⟨y, u, hy, hwp⟩ := wp_exists.1 hwp
  simp only [wp_pure, Bool.and_eq_true, decide_eq_true_eq] at hwp
  obtain ⟨⟨⟨⟨⟨⟨rfl, rfl⟩, rfl⟩, rfl⟩, hsome⟩, hnone⟩, hroom⟩ := hwp
  obtain ⟨a, F, hheld, hsize⟩ := emptyDir_locked h₀
  have hname : IsName [97] := ⟨by decide, by decide, by decide, by decide⟩
  have hnew : (directory smallSb entry0 1).Reach (s₂, _) :=
    .init ⟨by decide, a, F, s₀, s₁, 1, hheld, hsize, by decide, by decide, h₁, h₂, rfl⟩
  have hlinked : (directory smallSb entry0 1).Reach (s₃, _) := .step (.link [97] 5) hnew
    ⟨hname, by decide, by decide, hroom, true, h₃, rfl⟩
  have herased : (directory smallSb entry0 1).Reach (s₄, _) := .step (.erase [97]) hlinked
    ⟨hname, by decide, by decide, true, h₄, rfl⟩
  refine ⟨s₃, _, s₄, _, hlinked, herased, rfl, ?_, h₄, rfl, u, ?_⟩
  · obtain ⟨_, _, -, -, hlookup, -⟩ := directory_is_map smallSb_wf hlinked
    obtain ⟨-, -, hmap⟩ := wp_ok (hlookup [97] hname) hx
    obtain ⟨y, rfl⟩ := Option.isSome_iff_exists.1 hsome
    exact ⟨y, t, hx, Option.some.inj hmap⟩
  · rw [hy, Option.isNone_iff_eq_none.1 hnone]

end Xv6.Fs
