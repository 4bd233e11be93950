/-
Path names (`skipelem`, `namex`, `namei`, `nameiparent` of `fs.c`).

The components of a path are its maximal runs of bytes other than '/', each cut to DIRSIZ bytes. `resolve` follows a list
of components through the directories, `parentOf` stops before the last one; both are functions of the inodes and of their
bytes. `Graph` is what is asked of a volume: directories have whole entries, and a live entry names an inode that is
allocated and has a link or a reference, so that no walk frees it.
- `elems_eq_components`: taking elements off a path gives its components;
- `wp_namexLoop`: the loop of `namex` follows the components, with one reference in hand;
- `namex_resolves`: `namei` is `resolve` and `nameiparent` is `parentOf`, one reference is added to the inode they return,
  and none to any other.
-/
import Mathlib.Data.List.TakeWhile
import Xv6.Fs.Blank
import Xv6.Fs.Dir

namespace Xv6.Fs

open Xv6.Bytes Xv6.Wp Function

/-! ## Components -/

/-- the maximal runs of bytes other than '/', cut to DIRSIZ bytes -/
def components (path : List Byte) : List (List Byte) :=
  ((path.splitOnP (· == slash)).filter (· ≠ [])).map (·.take DIRSIZ)

theorem components_cons_slash (path : List Byte) : components (slash :: path) = components path := by
  simp [components, List.splitOnP_cons_eq_if_modifyHead]

theorem components_dropWhile (path : List Byte) : components (path.dropWhile (· == slash)) = components path := by
  induction path with
  | nil => rfl
  | cons c path ih =>
    by_cases hc : c = slash
    · rw [hc, components_cons_slash, ← ih]
      rfl
    · rw [List.dropWhile_cons_of_neg (by simpa using hc)]

theorem head?_dropWhile {p : Byte → Bool} {l : List Byte} {c : Byte} (h : (l.dropWhile p).head? = some c) :
    p c = false := by
  have hcond := List.head?_dropWhile_not p l
  rw [h] at hcond
  exact hcond

/-- a path that does not begin with a slash begins with its first component -/
theorem components_of_head {s : List Byte} {c : Byte} (hs : s.head? = some c) (hc : c ≠ slash) :
    s.takeWhile (· != slash) ≠ [] ∧
      components s = (s.takeWhile (· != slash)).take DIRSIZ :: components (s.dropWhile (· != slash)) := by
  obtain ⟨t, rfl⟩ : ∃ t, s = c :: t := ⟨s.tail, (List.cons_head?_tail hs).symm⟩
  generalize hrun : (c :: t).takeWhile (· != slash) = run
  have hne : run ≠ [] := by
    rw [← hrun, List.takeWhile_cons_of_pos (by simpa using hc)]
    exact List.cons_ne_nil _ _
  have hno : ∀ b ∈ run, (b == slash) = false := by
    intro b hb
    have hbyte : (b != slash) = true := List.mem_takeWhile_imp (p := (· != slash)) (l := c :: t) (hrun ▸ hb)
    simpa using hbyte
  have hsplit : c :: t = run ++ (c :: t).dropWhile (· != slash) := by
    rw [← hrun, List.takeWhile_append_dropWhile]
  refine ⟨hne, ?_⟩
  conv_lhs => rw [hsplit]
  cases hrest : (c :: t).dropWhile (· != slash) with
  | nil =>
    rw [List.append_nil, components, List.splitOnP_eq_singleton hno]
    simp [components, hne]
  | cons d rest =>
    obtain rfl : d = slash := by simpa using head?_dropWhile (p := (· != slash)) (l := c :: t) (c := d) (by rw [hrest]; rfl)
    rw [components_cons_slash, components, List.splitOnP_append_cons_of_forall_mem hno _ (by simp)]
    simp [components, hne]

theorem components_eq_nil_iff {s : List Byte} (hs : s.head? ≠ some slash) : components s = [] ↔ s = [] := by
  constructor
  · intro h
    cases s with
    | nil => rfl
    | cons c t =>
      have hc : c ≠ slash := fun hc => hs (congrArg some hc)
      rw [(components_of_head (s := c :: t) rfl hc).2] at h
      cases h
  · rintro rfl
    rfl

theorem head?_dropWhile_slash (l : List Byte) : (l.dropWhile (· == slash)).head? ≠ some slash := by
  intro h
  have hcond := head?_dropWhile h
  simp at hcond

theorem skipelem_none {path : List Byte} (h : skipelem path = none) : components path = [] := by
  unfold skipelem at h
  dsimp only at h
  split_ifs at h with hnil
  rw [← components_dropWhile, hnil]
  rfl

/-- what `skipelem` takes off is the first component -/
theorem skipelem_some {path name rest : List Byte} (h : skipelem path = some (name, rest)) :
    components path = name :: components rest ∧ rest.length < path.length ∧ (rest = [] ↔ components rest = []) := by
  unfold skipelem at h
  dsimp only at h
  split_ifs at h with hnil
  obtain ⟨hname, hrest⟩ := Prod.mk.inj (Option.some.inj h)
  have hhead := head?_dropWhile_slash path
  rw [← components_dropWhile path]
  have hlen : (path.dropWhile (· == slash)).length ≤ path.length := (List.dropWhile_sublist _).length_le
  generalize path.dropWhile (· == slash) = s at *
  obtain ⟨c, t, rfl⟩ := List.exists_cons_of_ne_nil hnil
  obtain ⟨hrun, hcomp⟩ := components_of_head (s := c :: t) rfl fun hc => hhead (congrArg some hc)
  refine ⟨?_, ?_, ?_⟩
  · rw [hcomp, hname, ← hrest, components_dropWhile]
  · have hsplit := congrArg List.length (List.takeWhile_append_dropWhile (p := (· != slash)) (l := c :: t))
    have hpos := List.length_pos_iff.2 hrun
    have hdrop : rest.length ≤ ((c :: t).dropWhile (· != slash)).length := by
      rw [← hrest]
      exact (List.dropWhile_sublist _).length_le
    rw [List.length_append] at hsplit
    omega
  · rw [← hrest]
    exact (components_eq_nil_iff (head?_dropWhile_slash _)).symm

/-- the elements that `skipelem` takes off, one after the other -/
def elems (path : List Byte) : List (List Byte) :=
  match h : skipelem path with
  | none => []
  | some (name, rest) =>
    have := (skipelem_some h).2.1
    name :: elems rest
termination_by path.length

/-- **Taking elements off a path gives its components.** -/
theorem elems_eq_components (path : List Byte) : elems path = components path := by
  induction path using elems.induct with
  | case1 path h =>
    rw [elems]
    split
    · exact (skipelem_none h).symm
    · next h' => rw [h] at h'; cases h'
  | case2 path name rest h hlt ih =>
    rw [elems]
    split
    · next h' => rw [h] at h'; cases h'
    · next h' =>
      obtain ⟨rfl, rfl⟩ := Prod.mk.inj (Option.some.inj (h.symm.trans h'))
      rw [ih, (skipelem_some h).1]

/-! ## Following the components -/

/-- the inode that the entry of a name in directory i names -/
def child (C : ℕ → Store) (a : ℕ → Node) (i : ℕ) (name : List Byte) : Option ℕ :=
  if (a i).type = Dinode.T_DIR then (lookup (C i) (a i).size name).map fun q => deInum (entry (C i) q) else none

/-- the inode that the components lead to from inode i -/
def resolve (C : ℕ → Store) (a : ℕ → Node) (i : ℕ) : List (List Byte) → Option ℕ
  | [] => some i
  | name :: names => (child C a i name).bind fun j => resolve C a j names

/-- the directory that all components but the last lead to, and the last one -/
def parentOf (C : ℕ → Store) (a : ℕ → Node) (i : ℕ) : List (List Byte) → Option (ℕ × List Byte)
  | [] => none
  | [name] => if (a i).type = Dinode.T_DIR then some (i, name) else none
  | name :: names => (child C a i name).bind fun j => parentOf C a j names

/-- the whole path is the parent and then one lookup -/
theorem resolve_eq_parentOf (C : ℕ → Store) (a : ℕ → Node) (i : ℕ) {names : List (List Byte)} (h : names ≠ []) :
    resolve C a i names = (parentOf C a i names).bind fun r => child C a r.1 r.2 := by
  induction names generalizing i with
  | nil => exact absurd rfl h
  | cons name names ih =>
    cases names with
    | nil =>
      simp only [resolve, parentOf, child]
      by_cases hdir : (a i).type = Dinode.T_DIR <;> simp [hdir]
    | cons name' names =>
      rw [resolve, parentOf]
      · cases child C a i name with
        | none => rfl
        | some j => exact ih j (List.cons_ne_nil _ _)
      · exact fun h => List.cons_ne_nil _ _ h

/-- an allocated inode that does not go when one more reference to it goes -/
structure Lasting (sb : Superblock) (a : ℕ → Node) (P : Multiset (Fin NINODE × ℕ)) (i : ℕ) : Prop where
  lt : i < sb.ninodes
  type : (a i).type ≠ 0
  kept : (a i).nlink ≠ 0 ∨ ∃ p ∈ P, p.2 = i

/-- what a walk through the inodes a with the bytes C relies on; P: the references that there are -/
structure Graph (sb : Superblock) (a : ℕ → Node) (C : ℕ → Store) (P : Multiset (Fin NINODE × ℕ)) : Prop where
  dir : ∀ i < sb.ninodes, (a i).type = Dinode.T_DIR → DESIZE ∣ (a i).size ∧ (a i).size ≤ MAXFILE * BSIZE
  live : ∀ i < sb.ninodes, (a i).type = Dinode.T_DIR → ∀ q < (a i).size / DESIZE, deInum (entry (C i) q) ≠ 0 →
    Lasting sb a P (deInum (entry (C i) q))

section

variable {sb : Superblock} {τ : Mode} {σ : Fault → Prop} {m : ℕ → Dinode} {a : ℕ → Node} {g : Ghost} {s : St}
  {k : Fin NINODE} {i : ℕ} {P : Multiset (Fin NINODE × ℕ)}

theorem Lasting.mono {P' : Multiset (Fin NINODE × ℕ)} (h : Lasting sb a P i) (hP : P ⊆ P') : Lasting sb a P' i :=
  ⟨h.lt, h.type, h.kept.imp_right fun ⟨p, hp, hi⟩ => ⟨p, hP hp, hi⟩⟩

/-- `iput` of an inode that stays, and whose bytes are on the disk or kept by another reference -/
theorem wp_iput_lasting (wf : sb.WF) (h : RepM sb τ m a { g with pins := (k, i) ::ₘ P } s) (hlast : Lasting sb a P i)
    (hkept : (∃ p ∈ P, p.2 = i) ∨ Saved sb m s.disk i) (hl : k ∉ g.locks) (hd : g.dirty = none) (hn : g.newborn = none) :
    wp (iput k) (fun _ t => ∃ m', RepM sb τ m' a { g with pins := P } t ∧ contents sb m' t.disk = contents sb m s.disk ∧
      ∀ j, j ≠ i ∨ (∃ p ∈ P, p.2 = i) → Saved sb m s.disk j → Saved sb m' t.disk j) (Stop σ) s := by
  refine wp_imp (wp_iput wf h rfl (fun hl' => absurd hl' hl) hd hn) ?_
  rintro _ t ⟨m', a', hput, hrep, hsame, hdisk⟩
  obtain rfl : a' = a := by
    rcases hput.1 with h0 | ⟨-, h0, hno⟩
    · exact h0
    · obtain h1 | ⟨p, hp, hi⟩ := hlast.kept
      · exact absurd h0 h1
      · exact absurd hi (hno p hp)
  obtain ⟨heq, hsaved⟩ := hdisk rfl
  refine ⟨m', hrep, ?_⟩
  by_cases hpin : ∃ p ∈ P, p.2 = i
  · obtain ⟨-, rfl⟩ := hsame (.inl hpin)
    rw [heq]
    exact ⟨rfl, fun _ _ hs => hs⟩
  · obtain ⟨hbytes, hothers⟩ := hsaved (hkept.resolve_left hpin)
    exact ⟨hbytes, fun j hj => hothers j (hj.resolve_right hpin)⟩

theorem wp_iunlockput_lasting (wf : sb.WF) (h : RepM sb τ m a { g with pins := (k, i) ::ₘ P, locks := {k} } s)
    (hlast : Lasting sb a P i) (hkept : (∃ p ∈ P, p.2 = i) ∨ Saved sb m s.disk i) (hl : g.locks = ∅)
    (hd : g.dirty = none) (hn : g.newborn = none) :
    wp (iunlockput k) (fun _ t => ∃ m', RepM sb τ m' a { g with pins := P } t ∧
      contents sb m' t.disk = contents sb m s.disk ∧
      ∀ j, j ≠ i ∨ (∃ p ∈ P, p.2 = i) → Saved sb m s.disk j → Saved sb m' t.disk j) (Stop σ) s := by
  unfold iunlockput
  rw [wp_bind]
  refine wp_imp (wp_iunlock h (Finset.mem_singleton_self k)) ?_
  rintro _ t ⟨ht, hdisk⟩
  have hempty : ({k} : Finset (Fin NINODE)).erase k = g.locks := by rw [hl, Finset.erase_singleton]
  dsimp only at ht
  rw [hempty] at ht
  rw [← hdisk] at hkept ⊢
  exact wp_iput_lasting wf ht hlast hkept (by rw [hl]; exact Finset.notMem_empty k) hd hn

/-- reading a directory keeps its bytes on the disk -/
theorem Looked.keeps {m' : ℕ → Dinode} {t : St} (h : Looked sb τ a g i m s m' t) (hs : RepM sb τ m a g s)
    (hl : k ∈ g.locks) (hp : (k, i) ∈ g.pins) (hsaved : Saved sb m s.disk i) : Saved sb m' t.disk i := by
  by_cases hτ : τ
  · obtain ⟨rfl, rfl⟩ := h.still (hs.holeFree hτ hl hp)
    exact hsaved
  · exact h.saved hτ hsaved

theorem Referenced.keeps {k' : Fin NINODE} {j : ℕ} {m' : ℕ → Dinode} {t : St} (h : Referenced sb τ a g i m s k' j m' t)
    (hs : RepM sb τ m a g s) (hl : k ∈ g.locks) (hp : (k, i) ∈ g.pins) (hsaved : Saved sb m s.disk i) :
    Saved sb m' t.disk i := by
  by_cases hτ : τ
  · obtain ⟨hdisk, rfl⟩ := h.still (hs.holeFree hτ hl hp)
    rw [hdisk]
    exact hsaved
  · exact h.saved hτ hsaved

/-- where the walk of `namex` is to end -/
def Reaches (parent : Bool) (C : ℕ → Store) (a : ℕ → Node) (i : ℕ) (names : List (List Byte)) (r : Option (ℕ × List Byte)) :
    Prop :=
  if parent then parentOf C a i names = r else resolve C a i names = r.map Prod.fst

theorem Reaches.cons {parent : Bool} {C : ℕ → Store} {j : ℕ} {name : List Byte} {names : List (List Byte)}
    {r : Option (ℕ × List Byte)} (hchild : child C a i name = some j) (hlast : ¬(parent = true ∧ names = []))
    (h : Reaches parent C a j names r) : Reaches parent C a i (name :: names) r := by
  cases parent with
  | false =>
    change resolve C a i (name :: names) = _
    rw [resolve, hchild]
    exact h
  | true =>
    have hne : names ≠ [] := fun h0 => hlast ⟨rfl, h0⟩
    obtain ⟨name', names, rfl⟩ := List.exists_cons_of_ne_nil hne
    change (child C a i name).bind (fun j => parentOf C a j (name' :: names)) = _
    rw [hchild]
    exact h

theorem Reaches.lost {parent : Bool} {C : ℕ → Store} {name : List Byte} {names : List (List Byte)}
    (hchild : child C a i name = none) (hlast : ¬(parent = true ∧ names = [])) :
    Reaches parent C a i (name :: names) none := by
  cases parent with
  | false => exact congrArg (·.bind fun j => resolve C a j names) hchild
  | true =>
    have hne : names ≠ [] := fun h0 => hlast ⟨rfl, h0⟩
    obtain ⟨name', names, rfl⟩ := List.exists_cons_of_ne_nil hne
    exact congrArg (·.bind fun j => parentOf C a j (name' :: names)) hchild

theorem Reaches.not_dir {parent : Bool} {C : ℕ → Store} {name : List Byte} {names : List (List Byte)}
    (hdir : (a i).type ≠ Dinode.T_DIR) : Reaches parent C a i (name :: names) none := by
  have hchild : child C a i name = none := if_neg hdir
  by_cases hlast : parent = true ∧ names = []
  · obtain ⟨rfl, rfl⟩ := hlast
    exact if_neg hdir
  · exact .lost hchild hlast

/-- the references P and the bytes C are as they were, with one more reference for a walk that has found something -/
def Walked (sb : Superblock) (τ : Mode) (a : ℕ → Node) (C : ℕ → Store) (g : Ghost) (P : Multiset (Fin NINODE × ℕ))
    (parent : Bool) (i : ℕ) (names : List (List Byte)) (r : Option (Fin NINODE × List Byte)) (t : St) : Prop :=
  match r with
  | none => Reaches parent C a i names none ∧ ∃ m', RepM sb τ m' a { g with pins := P } t ∧ contents sb m' t.disk = C
  | some (k', name) => ∃ j, Reaches parent C a i names (some (j, name)) ∧ Lasting sb a P j ∧
      ∃ m', RepM sb τ m' a { g with pins := (k', j) ::ₘ P } t ∧ contents sb m' t.disk = C ∧
        ((∃ p ∈ P, p.2 = j) ∨ Saved sb m' t.disk j)

theorem child_eq {C : ℕ → Store} {name : List Byte} (hdir : (a i).type = Dinode.T_DIR) :
    child C a i name = (lookup (C i) (a i).size name).map fun q => deInum (entry (C i) q) := if_pos hdir

theorem lookup_live {f : Store} {size q : ℕ} {name : List Byte} (h : lookup f size name = some q) :
    q < size / DESIZE ∧ deInum (entry f q) ≠ 0 := by
  have hnamed := List.find?_some h
  exact ⟨List.mem_range.1 (List.mem_of_find?_eq_some h), (of_decide_eq_true hnamed).1⟩

/-- **The loop of `namex`.** It has one reference in hand, to an inode that lasts and whose bytes are kept. -/
theorem wp_namexLoop (wf : sb.WF) {C : ℕ → Store} (hG : Graph sb a C P) (hl : g.locks = ∅) (hd : g.dirty = none)
    (hn : g.newborn = none) (parent : Bool) (fuel : ℕ) (path name : List Byte) (hfuel : path.length < fuel)
    (h : RepM sb τ m a { g with pins := (k, i) ::ₘ P } s) (hC : contents sb m s.disk = C) (hlast : Lasting sb a P i)
    (hkept : (∃ p ∈ P, p.2 = i) ∨ Saved sb m s.disk i) :
    wp (namexLoop parent fuel k path name) (fun r t => Walked sb τ a C g P parent i (components path) r t) (Stop σ) s := by
  induction fuel generalizing k i path name m s with
  | zero => exact absurd hfuel (Nat.not_lt_zero _)
  | succ fuel ih =>
    have hnotin : k ∉ g.locks := by rw [hl]; exact Finset.notMem_empty k
    have hpin : (k, i) ∈ (k, i) ::ₘ P := Multiset.mem_cons_self _ _
    unfold namexLoop
    cases hskip : skipelem path with
    | none =>
      rw [skipelem_none hskip]
      dsimp only
      apply wp_ite
      · intro hpar
        rw [wp_bind]
        refine wp_imp (wp_iput_lasting wf h hlast hkept hnotin hd hn) ?_
        rintro _ t ⟨m', ht, hbytes, -⟩
        refine wp_return ⟨?_, m', ht, hbytes.trans hC⟩
        rw [Reaches, if_pos hpar]
        rfl
      · intro hpar
        refine wp_return ⟨i, ?_, hlast, m, h, hC, hkept⟩
        rw [Reaches, if_neg hpar]
        rfl
    | some next =>
      obtain ⟨elem, rest⟩ := next
      obtain ⟨hcomp, hlen, hend⟩ := skipelem_some hskip
      rw [hcomp]
      dsimp only
      rw [wp_bind]
      refine wp_imp (wp_ilock h hpin hlast.lt (fun hl' => absurd hl' hnotin) fun h0 => absurd h0 hlast.type) ?_
      rintro _ s₁ ⟨h₁, -, hdisk₁⟩
      have hlocks : insert k g.locks = {k} := by rw [hl]; rfl
      dsimp only at h₁
      rw [hlocks] at h₁
      rw [← hdisk₁] at hC hkept
      have hk : k ∈ ({k} : Finset (Fin NINODE)) := Finset.mem_singleton_self k
      have htype : ((s₁.icache k).ino).type = (a i).type := by
        rw [(h₁.ino hk hpin).1, (h₁.node hlast.lt).1]
      simp only [wp_bind, wp_get, htype]
      apply wp_ite
      · -- not a directory
        intro hdir
        rw [wp_bind]
        refine wp_imp (wp_iunlockput_lasting wf h₁ hlast hkept hl hd hn) ?_
        rintro _ t ⟨m', ht, hbytes, -⟩
        exact wp_return ⟨.not_dir hdir, m', ht, hbytes.trans hC⟩
      intro hdir
      rw [not_not] at hdir
      apply wp_ite
      · -- stop one level early
        rintro ⟨hpar, rfl⟩
        rw [wp_bind]
        refine wp_imp (wp_iunlock h₁ hk) ?_
        rintro _ t ⟨ht, hdisk⟩
        rw [← hdisk] at hC hkept
        have hempty : ({k} : Finset (Fin NINODE)).erase k = g.locks := by rw [hl, Finset.erase_singleton]
        dsimp only at ht
        rw [hempty] at ht
        refine wp_return ⟨i, ?_, hlast, m, ht, hC, hkept⟩
        rw [Reaches, if_pos hpar, hend.1 rfl]
        exact if_pos hdir
      intro hnot
      have hnot' : ¬(parent = true ∧ components rest = []) := fun hc => hnot ⟨hc.1, hend.2 hc.2⟩
      rw [wp_bind]
      have hDir : Dir sb σ (a i) := by
        obtain ⟨h1, h2⟩ := hG.dir i hlast.lt hdir
        exact ⟨hdir, h1, fun h3 => absurd h2 (Nat.not_le.2 h3)⟩
      refine wp_imp (wp_dirlookup wf h₁ hpin hk hd hDir elem) ?_
      rw [hC]
      rintro r t (⟨hnone, rfl, m', hlook⟩ | ⟨q, k', m', hsome, rfl, href⟩)
      · dsimp only
        rw [wp_bind]
        refine wp_imp (wp_iunlockput_lasting wf hlook.rep hlast
          (hkept.imp_right fun hsv => hlook.keeps h₁ hk hpin hsv) hl hd hn) ?_
        rintro _ u ⟨m'', hu, hbytes, -⟩
        refine wp_return ⟨.lost ?_ hnot', m'', hu, hbytes.trans (hlook.bytes.trans hC)⟩
        rw [child_eq hdir, hnone]
        rfl
      · dsimp only
        obtain ⟨hq, hlive⟩ := lookup_live hsome
        have hnext := hG.live i hlast.lt hdir q hq hlive
        generalize hj : deInum (entry (C i) q) = j at hnext href
        have hrep := href.rep
        have hgot := href.got
        dsimp only at hrep hgot
        rw [Multiset.cons_swap] at hrep
        have hkept' : (∃ p ∈ P, p.2 = i) ∨ Saved sb m' t.disk i :=
          hkept.imp_right fun hsv => href.keeps h₁ hk hpin hsv
        rw [wp_bind]
        refine wp_imp (wp_iunlockput_lasting wf hrep (hlast.mono (Multiset.subset_cons _ _))
          (hkept'.imp_left fun hp => hp.imp fun _ => And.imp_left Multiset.mem_cons_of_mem) hl hd hn) ?_
        rintro _ u ⟨m'', hu, hbytes, hsv⟩
        have hchild : child C a i elem = some j := by rw [child_eq hdir, hsome, Option.map_some, hj]
        refine wp_imp (ih rest elem (by omega) hu (hbytes.trans (href.bytes.trans hC)) hnext ?_) ?_
        · by_cases hji : j = i
          · subst hji
            exact hkept'.imp_right (hsv j (.inr ⟨(k', j), Multiset.mem_cons_self _ _, rfl⟩))
          · rcases hgot with ⟨p, hp, hpj⟩ | ⟨-, hsaved⟩
            · rcases Multiset.mem_cons.1 hp with rfl | hp
              · exact absurd hpj.symm hji
              · exact .inl ⟨p, hp, hpj⟩
            · exact .inr (hsv j (.inl hji) hsaved)
        · intro r v hr
          cases r with
          | none => exact ⟨.cons hchild hnot' hr.1, hr.2⟩
          | some r =>
            obtain ⟨j', hreach, hrest⟩ := hr
            exact ⟨j', .cons hchild hnot' hreach, hrest⟩

/-! ## The functions -/

/-- the inode that a walk starts at; c: the working directory -/
def startOf (c : ℕ) (path : List Byte) : ℕ := if path.head? = some slash then ROOTINO else c

/-- **`namex`.** -/
theorem wp_namex (wf : sb.WF) {C : ℕ → Store} {p : Fin NPROC} {kc : Fin NINODE} {c : ℕ} (h : RepM sb τ m a g s)
    (hC : contents sb m s.disk = C) (hG : Graph sb a C g.pins) (hl : g.locks = ∅) (hd : g.dirty = none)
    (hn : g.newborn = none) (hroot : Lasting sb a g.pins ROOTINO) (hcwd : s.out.cwd p = some kc)
    (hc : (kc, c) ∈ g.pins) (hlast : Lasting sb a g.pins c) (parent : Bool) (path : List Byte) :
    wp (namex p parent path) (fun r t => Walked sb τ a C g g.pins parent (startOf c path) (components path) r t)
      (Stop σ) s := by
  unfold namex startOf
  apply wp_ite
  · intro hslash
    rw [if_pos hslash, wp_bind]
    refine wp_imp (wp_iget h) ?_
    rintro k t ⟨ht, hdisk, hgot⟩
    rw [← hdisk] at hC
    exact wp_namexLoop wf hG hl hd hn parent _ path [] (Nat.lt_succ_self _) ht hC hroot (hgot.imp_right And.right)
  · intro hslash
    rw [if_neg hslash]
    simp only [wp_bind, wp_get, hcwd]
    refine wp_imp (wp_idup h hc) ?_
    rintro _ t ⟨rfl, ht, hdisk⟩
    rw [← hdisk] at hC
    exact wp_namexLoop wf hG hl hd hn parent _ path [] (Nat.lt_succ_self _) ht hC hlast (.inl ⟨_, hc, rfl⟩)

/-- the call has returned an entry for the inode, or nothing; that entry has one more reference, and nothing else has
changed -/
structure Finds (sb : Superblock) (a : ℕ → Node) (m : ℕ → Dinode) (s : St) (target : Option ℕ) (r : Option (Fin NINODE))
    (t : St) : Prop where
  inum : r.map (fun k => (t.icache k).inum) = target
  refs : ∀ k, (t.icache k).ref = (s.icache k).ref + if r = some k then 1 else 0
  bytes : ∃ m', contents sb m' t.disk = contents sb m s.disk ∧ ∀ i < sb.ninodes, a i = nodeOf (m' i) (a i).data

theorem Walked.finds {parent : Bool} {names : List (List Byte)} {r : Option (Fin NINODE × List Byte)} {t : St}
    (h : RepM sb τ m a g s) (hw : Walked sb τ a (contents sb m s.disk) g g.pins parent i names r t) :
    ∃ x, Reaches parent (contents sb m s.disk) a i names x ∧ Finds sb a m s (x.map Prod.fst) (r.map Prod.fst) t ∧
      (parent = true → r.map Prod.snd = x.map Prod.snd) := by
  cases r with
  | none =>
    obtain ⟨hreach, m', hrep, hbytes⟩ := hw
    refine ⟨none, hreach, ⟨rfl, fun k => ?_, m', hbytes, hrep.vol.node⟩, fun _ => rfl⟩
    rw [hrep.cached.count, h.cached.count]
    rfl
  | some r =>
    obtain ⟨k', name⟩ := r
    obtain ⟨j, hreach, -, m', hrep, hbytes, -⟩ := hw
    refine ⟨some (j, name), hreach, ⟨?_, fun k => ?_, m', hbytes, hrep.vol.node⟩, fun _ => rfl⟩
    · exact congrArg some (hrep.inum (Multiset.mem_cons_self _ _))
    · rw [hrep.cached.count, h.cached.count, Multiset.countP_cons]
      simp

/-- **Path resolution follows the component list.** -/
theorem namex_resolves (wf : sb.WF) {p : Fin NPROC} {kc : Fin NINODE} {c : ℕ} (h : RepM sb τ m a g s)
    (hG : Graph sb a (contents sb m s.disk) g.pins) (hl : g.locks = ∅) (hd : g.dirty = none)
    (hn : g.newborn = none) (hroot : Lasting sb a g.pins ROOTINO) (hcwd : s.out.cwd p = some kc)
    (hc : (kc, c) ∈ g.pins) (hlast : Lasting sb a g.pins c) (path : List Byte) :
    elems path = components path ∧
    wp (namei p path)
      (fun r t => Finds sb a m s (resolve (contents sb m s.disk) a (startOf c path) (components path)) r t)
      (Stop fun _ => False) s ∧
    wp (nameiparent p path)
      (fun r t => Finds sb a m s ((parentOf (contents sb m s.disk) a (startOf c path) (components path)).map Prod.fst)
          (r.map Prod.fst) t ∧
        r.map Prod.snd = (parentOf (contents sb m s.disk) a (startOf c path) (components path)).map Prod.snd)
      (Stop fun _ => False) s ∧
    (components path ≠ [] → resolve (contents sb m s.disk) a (startOf c path) (components path) =
      (parentOf (contents sb m s.disk) a (startOf c path) (components path)).bind fun r =>
        child (contents sb m s.disk) a r.1 r.2) := by
  have hwalk : ∀ parent, wp (namex p parent path) _ (Stop fun _ => False) s :=
    fun parent => wp_namex wf h rfl hG hl hd hn hroot hcwd hc hlast parent path
  refine ⟨elems_eq_components path, ?_, ?_, resolve_eq_parentOf _ _ _⟩
  · unfold namei
    rw [wp_bind]
    refine wp_mono (hwalk false) ?_ (fun _ _ he => he)
    intro r t hw
    obtain ⟨x, hreach, hfinds, -⟩ := hw.finds h
    have hx : resolve _ a _ (components path) = x.map Prod.fst := hreach
    rw [hx]
    exact wp_return hfinds
  · refine wp_mono (hwalk true) ?_ (fun _ _ he => he)
    intro r t hw
    obtain ⟨x, hreach, hfinds, hname⟩ := hw.finds h
    have hx : parentOf _ a _ (components path) = x := hreach
    rw [hx]
    exact ⟨hfinds, hname rfl⟩

end

/-! ## A tree of two directories -/

/-- a name is linked in a directory that is not locked -/
def addEntry (k : Fin NINODE) (name : List Byte) (inum : ℕ) : M PUnit := do
  ilock k
  let _ ← dirlink k name inum
  iunlock k

/-- the bytes of a directory whose only entry is this one -/
def onlyEntry (f : Store) (name : List Byte) (inum : ℕ) : Store := fun p => if p < DESIZE then dirent name inum p else f p

/-- in an empty directory the name becomes the first entry -/
theorem wp_addEntry {sb : Superblock} {σ : Fault → Prop} {m : ℕ → Dinode} {a : ℕ → Node} {g : Ghost} {s : St}
    {k : Fin NINODE} {i : ℕ} (wf : sb.WF) (h : RepM sb ⟨False, False⟩ m a g s) (hp : (k, i) ∈ g.pins)
    (hi : i < sb.ninodes) (hl : g.locks = ∅) (hd : g.dirty = none) (hn : g.newborn = none)
    (htype : (a i).type = Dinode.T_DIR) (hsize : (a i).size = 0) (name : List Byte) (inum : ℕ) :
    wp (addEntry k name inum) (fun _ t => ∃ m', RepM sb ⟨False, False⟩ m'
        (update a i ((a i).write (dirent name inum) 0 DESIZE)) g t ∧
      contents sb m' t.disk =
        update (contents sb m s.disk) i (onlyEntry (contents sb m s.disk i) name inum)) (Stop σ) s := by
  have hfree : k ∉ g.locks := by simp [hl]
  have hlocks : { g with locks := (insert k g.locks).erase k } = g := by rw [Finset.erase_insert hfree]
  have hdir : Dir sb σ (a i) := ⟨htype, hsize ▸ dvd_zero _, fun hc => by rw [hsize] at hc; cases hc⟩
  have hvacant : vacant (contents sb m s.disk i) (a i).size = 0 := by rw [hsize]; rfl
  unfold addEntry
  simp only [wp_bind]
  refine wp_imp (wp_ilock h hp hi (fun hc => absurd hc hfree) fun hc => absurd (htype.symm.trans hc) (by decide)) ?_
  rintro - t ⟨ht, -, hdisk⟩
  rw [← hdisk] at hvacant ⊢
  refine wp_imp (wp_dirlink wf ht hp (Finset.mem_insert_self k _) hd hn hdir name inum (fun hf => hf.elim) ?_) ?_
  · rw [hvacant]
    exact fun hc => absurd hc (by decide)
  rintro r u (⟨hsome, -⟩ | ⟨-, -, m₁, v, hlook, m₂, hu, hbytes, -⟩)
  · rw [hsize] at hsome
    exact absurd rfl hsome
  rw [hvacant] at hu hbytes
  refine wp_imp (wp_iunlock hu (Finset.mem_insert_self k _)) ?_
  rintro - w ⟨hw, hsame⟩
  dsimp only at hw
  rw [hlocks] at hw
  refine ⟨m₂, hw, ?_⟩
  funext j p
  rw [hsame, hbytes, hlook.bytes]
  by_cases hj : j = i
  · subst hj
    simp [onlyEntry]
  · rw [update_of_ne hj, if_neg fun hc => hj hc.1]

/-- a process -/
def proc0 : Fin NPROC := ⟨0, by decide⟩

/-- a transaction is open; inodes 1 and 2 are empty directories, and inode 1 is the working directory of every process -/
def twoDirs : St := { smallState 0 0 with
  disk := smallDisk emptyDirInode emptyDirInode
  out := { (smallState 0 0).out with cwd := fun _ => some entry0, outstanding := 1 } }

/-- "d" in the root directory is inode 2, and ".." in inode 2 is the root directory -/
def makeTree : M PUnit := do
  addEntry entry0 [100] 2
  let k ← iget 2
  addEntry k dotdot 1

/-- the only entry of a directory -/
theorem entry_onlyEntry (f : Store) (name : List Byte) (inum : ℕ) :
    entry (onlyEntry f name inum) 0 = (List.range DESIZE).map (dirent name inum) := by
  refine List.map_congr_left fun j hj => ?_
  rw [Nat.mul_zero, Nat.zero_add, onlyEntry, if_pos (List.mem_range.1 hj)]

/-- two directories that name each other are a graph -/
theorem Graph.two {sb : Superblock} {a : ℕ → Node} {C : ℕ → Store} {P : Multiset (Fin NINODE × ℕ)}
    (hdir : ∀ j < sb.ninodes, (a j).type = Dinode.T_DIR → j = 1 ∨ j = 2) (hsize₁ : (a 1).size = DESIZE)
    (hsize₂ : (a 2).size = DESIZE) (hone : deInum (entry (C 1) 0) = 2) (htwo : deInum (entry (C 2) 0) = 1)
    (hlast₁ : Lasting sb a P 1) (hlast₂ : Lasting sb a P 2) : Graph sb a C P := by
  have hfirst : ∀ q < DESIZE / DESIZE, q = 0 := by decide
  refine ⟨fun i hi htype => ?_, fun i hi htype q hq _ => ?_⟩
  · rcases hdir i hi htype with rfl | rfl
    · rw [hsize₁]
      decide
    · rw [hsize₂]
      decide
  · rcases hdir i hi htype with rfl | rfl
    · rw [hsize₁] at hq
      rw [hfirst q hq, hone]
      exact hlast₂
    · rw [hsize₂] at hq
      rw [hfirst q hq, htwo]
      exact hlast₁

/-- the state after `makeTree` is a graph of two directories that name each other -/
theorem makeTree_graph : wp makeTree (fun _ t => ∃ m a g, RepM smallSb ⟨False, False⟩ m a g t ∧
    Graph smallSb a (contents smallSb m t.disk) g.pins ∧ (g.locks = ∅ ∧ g.dirty = none ∧ g.newborn = none) ∧
    Lasting smallSb a g.pins 1 ∧ (entry0, 1) ∈ g.pins ∧ g.out = twoDirs.out) (Stop fun _ => False) twoDirs := by
  have hrep : RepM smallSb ⟨False, False⟩ _ _ _ twoDirs := smallDisk_rep rfl rfl (fun _ => rfl) (fun _ => rfl) rfl
  obtain ⟨a, ha⟩ : ∃ a : ℕ → Node, a = fun j => nodeOf ((view smallSb twoDirs.disk).inode j) fun _ => 0 := ⟨_, rfl⟩
  have hnode : ∀ j < smallSb.ninodes, a j =
      nodeOf (if j = 2 then emptyDirInode else if j = 1 then emptyDirInode else .fresh 0) fun _ => 0 := by
    intro j hj
    rw [congrFun ha j, view_inode hj]
    exact congrArg (nodeOf · _) (smallDisk_inode _ _ hj)
  rw [← ha] at hrep
  have h1 := hnode 1 (by decide)
  have h2 := hnode 2 (by decide)
  unfold makeTree
  simp only [wp_bind]
  refine wp_imp (wp_addEntry smallSb_wf hrep (Multiset.mem_singleton_self _) (by decide) rfl rfl rfl (by rw [h1]; rfl)
    (by rw [h1]; rfl) [100] 2) ?_
  rintro - t ⟨m₁, ht, hC₁⟩
  refine wp_imp (wp_iget ht) ?_
  rintro k u ⟨hu, hdisk, -⟩
  have hother : update a 1 ((a 1).write (dirent [100] 2) 0 DESIZE) 2 = a 2 := update_of_ne (by decide) _ _
  refine wp_imp (wp_addEntry (i := 2) smallSb_wf hu (Multiset.mem_cons_self (k, 2) {(entry0, 1)}) (by decide) rfl rfl rfl
    (by rw [hother, h2]; rfl) (by rw [hother, h2]; rfl) dotdot 1) ?_
  rintro - v ⟨m₂, hv, hC₂⟩
  rw [hother] at hv
  rw [hdisk, hC₁] at hC₂
  obtain ⟨b, hb⟩ : ∃ b, b = update (update a 1 ((a 1).write (dirent [100] 2) 0 DESIZE)) 2
    ((a 2).write (dirent dotdot 1) 0 DESIZE) := ⟨_, rfl⟩
  rw [← hb] at hv
  have hb1 : b 1 = (a 1).write (dirent [100] 2) 0 DESIZE := by
    rw [hb, update_of_ne (by decide), update_self]
  have hb2 : b 2 = (a 2).write (dirent dotdot 1) 0 DESIZE := by rw [hb, update_self]
  have hlast : ∀ j, j = 1 ∨ j = 2 → Lasting smallSb b ((k, 2) ::ₘ {(entry0, 1)}) j := by
    rintro j (rfl | rfl)
    · refine ⟨by decide, ?_, .inl ?_⟩ <;> rw [hb1, h1] <;> decide
    · refine ⟨by decide, ?_, .inl ?_⟩ <;> rw [hb2, h2] <;> decide
  refine ⟨m₂, b, _, hv, ?_, ⟨rfl, rfl, rfl⟩, hlast 1 (.inl rfl), ?_, rfl⟩
  · refine Graph.two (fun j hj htype => ?_) ?_ ?_ ?_ ?_ (hlast 1 (.inl rfl)) (hlast 2 (.inr rfl))
    · by_contra hc
      obtain ⟨hj1, hj2⟩ := not_or.1 hc
      rw [hb, update_of_ne hj2, update_of_ne hj1, hnode j hj, if_neg hj2, if_neg hj1] at htype
      exact absurd htype (by decide)
    · rw [hb1, h1]
      rfl
    · rw [hb2, h2]
      rfl
    · rw [hC₂, update_of_ne (by decide), update_self, entry_onlyEntry]
      decide
    · rw [hC₂, update_self, entry_onlyEntry]
      decide
  · exact Multiset.mem_cons_of_mem (Multiset.mem_singleton_self _)

/-- From the root "/d/../d" leads to inode 2, which has one more reference then. -/
theorem namex_resolves_tree : ∃ s t k m a, makeTree twoDirs = .ok ⟨⟩ s ∧
    namei proc0 [47, 100, 47, 46, 46, 47, 47, 100] s = .ok (some k) t ∧ (t.icache k).inum = 2 ∧
    resolve (contents smallSb m s.disk) a ROOTINO [[100], [46, 46], [100]] = some 2 ∧
    (t.icache k).ref = (s.icache k).ref + 1 := by
  have hwp : wp (do makeTree
                    let r ← namei proc0 [47, 100, 47, 46, 46, 47, 47, 100]
                    let t ← get
                    return r.any fun k => (t.icache k).inum = 2 : M Bool)
      (fun r _ => r = true) (fun _ _ => False) twoDirs := wp_of_eval (P := fun r _ => r) (by decide +kernel)
  simp only [wp_bind] at hwp
  obtain ⟨⟨⟩, s, hs, hwp⟩ := wp_exists.1 hwp
  obtain ⟨r, t, hr, hwp⟩ := wp_exists.1 hwp
  simp only [wp_get, wp_pure] at hwp
  obtain ⟨m, a, g, hrep, hgraph, ⟨hl, hd, hn⟩, hroot, hpin, hout⟩ := wp_ok makeTree_graph hs
  have hcwd : s.out.cwd proc0 = some entry0 := by rw [hrep.out, hout]; rfl
  have hres := (namex_resolves smallSb_wf hrep hgraph hl hd hn hroot hcwd hpin hroot [47, 100, 47, 46, 46, 47, 47, 100]).2.1
  have hfinds := wp_ok hres hr
  cases r with
  | none => cases hwp
  | some k =>
    have hinum : (t.icache k).inum = 2 := of_decide_eq_true hwp
    refine ⟨s, t, k, m, a, hs, hr, hinum, ?_, ?_⟩
    · have hresolve := hfinds.inum
      rw [Option.map_some, hinum] at hresolve
      exact hresolve.symm
    · rw [hfinds.refs k, if_pos rfl]

end Xv6.Fs
