/-
Radix trees stored in memory.

A memory of nodes maps a node name and an index to an entry; an entry names a child node or nothing. `follow` walks a
path of indices from a root. `Tree` says that no node is reached by two paths among those that start with an index in U
and have at most d indices; then storing one entry changes what exactly one path reaches:
- `follow_set`: the path to the stored entry now leads to the entry's child, every other path leads where it did;
- `Tree.set`: storing a fresh child, or nothing, keeps the tree;
- `Tree.existsUnique_refers`: every node but the root is referred to by exactly one entry.
-/
import Mathlib.Tactic

namespace Xv6.Radix

variable {F I E : Type} (child : E → Option F)

/-- the node a path leads to -/
def follow (m : F → I → E) : F → List I → Option F
  | f, [] => some f
  | f, i :: p => (child (m f i)).bind fun g => follow m g p

/-- paths whose first index is in U -/
def Starts (U : I → Prop) (p : List I) : Prop := ∀ i ∈ p.head?, U i

/-- no node is reached twice by paths into U of at most d indices -/
def Tree (U : I → Prop) (d : ℕ) (m : F → I → E) (root : F) : Prop :=
  ∀ p q f, Starts U p → Starts U q → p.length ≤ d → q.length ≤ d →
    follow child m root p = some f → follow child m root q = some f → p = q

/-- entry x.2 of the node x.1 of the tree refers to g -/
def Refers (U : I → Prop) (d : ℕ) (m : F → I → E) (root : F) (x : F × I) (g : F) : Prop :=
  ∃ p, Starts U (p ++ [x.2]) ∧ p.length < d ∧ follow child m root p = some x.1 ∧ child (m x.1 x.2) = some g

/-- the memory after one entry has been stored -/
def set [DecidableEq F] [DecidableEq I] (m : F → I → E) (f : F) (i : I) (e : E) : F → I → E :=
  fun g j => if g = f ∧ j = i then e else m g j

variable {child} {U : I → Prop} {d : ℕ} {m m' : F → I → E} {root f : F} {p q : List I} {i : I}

theorem follow_append (p q : List I) (f : F) :
    follow child m f (p ++ q) = (follow child m f p).bind fun g => follow child m g q := by
  induction p generalizing f with
  | nil => rfl
  | cons i p ih =>
    simp only [List.cons_append, follow]
    cases child (m f i) with
    | none => rfl
    | some g => exact ih g

theorem follow_snoc (p : List I) (i : I) (f : F) :
    follow child m f (p ++ [i]) = (follow child m f p).bind fun g => child (m g i) := by
  rw [follow_append]
  congr 1
  funext g
  simp only [follow]
  cases child (m g i) <;> rfl

theorem Starts.of_append {p q : List I} (h : Starts U (p ++ q)) : Starts U p := by
  cases p with
  | nil => intro i hi; cases hi
  | cons j p => exact h

/-- memories that agree on every node of the tree have the same paths -/
theorem follow_congr (h : ∀ p i f, Starts U (p ++ [i]) → p.length < d → follow child m root p = some f → m' f i = m f i)
    (hq : Starts U q) (hd : q.length ≤ d) : follow child m' root q = follow child m root q := by
  induction q using List.reverseRecOn with
  | nil => rfl
  | append_singleton p i ih =>
    rw [List.length_append, List.length_singleton] at hd
    rw [follow_snoc, follow_snoc, ih hq.of_append (by omega)]
    cases hf : follow child m root p with
    | none => rfl
    | some f => simp only [Option.bind_some, h p i f hq (by omega) hf]

theorem Refers.follow {x : F × I} {g : F} (h : Refers child U d m root x g) :
    ∃ p, Starts U p ∧ p.length ≤ d ∧ p ≠ [] ∧ follow child m root p = some g := by
  obtain ⟨p, hp, hd, hx, hg⟩ := h
  refine ⟨p ++ [x.2], hp, ?_, by simp, ?_⟩
  · rw [List.length_append, List.length_singleton]
    omega
  · rw [follow_snoc, hx, Option.bind_some, hg]

/-- **One reference.** A node below the root is the child of exactly one entry. -/
theorem Tree.existsUnique_refers {g : F} (ht : Tree child U d m root) (hq : Starts U q) (hd : q.length ≤ d) (hne : q ≠ [])
    (hg : Radix.follow child m root q = some g) : ∃! x, Refers child U d m root x g := by
  obtain ⟨p, i, rfl⟩ := (List.eq_nil_or_concat' q).resolve_left hne
  have hlen := hd
  rw [List.length_append, List.length_singleton] at hlen
  have hat := hg
  rw [follow_snoc] at hat
  obtain ⟨f, hf, hfg⟩ := Option.bind_eq_some_iff.1 hat
  refine ⟨(f, i), ⟨p, hq, by omega, hf, hfg⟩, ?_⟩
  intro (f', i') ⟨p', hp', hd', hf', hg'⟩
  -- the path through another entry would be a second path to g
  have hsame : p' ++ [i'] = p ++ [i] := by
    refine ht _ _ g hp' hq ?_ hd ?_ hg
    · rw [List.length_append, List.length_singleton]
      omega
    · rw [follow_snoc, hf', Option.bind_some, hg']
  obtain ⟨rfl, hi⟩ := List.append_inj' hsame rfl
  cases hi
  cases hf.symm.trans hf'
  rfl

variable [DecidableEq F] [DecidableEq I]

theorem set_same (m : F → I → E) (f : F) (i : I) (e : E) : set m f i e f i = e := if_pos ⟨rfl, rfl⟩

theorem set_other (m : F → I → E) {f g : F} {i j : I} (e : E) (h : g = f → j ≠ i) : set m f i e g j = m g j :=
  if_neg fun hc => h hc.1 hc.2

/-- a path that does not pass the stored entry leads where it did -/
theorem follow_set_off {e : E} (ht : Tree child U d m root) (hp : Starts U p) (hpd : p.length < d)
    (hf : follow child m root p = some f) (hq : Starts U q) (hqd : q.length ≤ d) (hoff : ¬ p ++ [i] <+: q) :
    follow child (set m f i e) root q = follow child m root q := by
  induction q using List.reverseRecOn with
  | nil => rfl
  | append_singleton r j ih =>
    rw [List.length_append, List.length_singleton] at hqd
    rw [follow_snoc, follow_snoc, ih hq.of_append (by omega) (fun h => hoff (h.trans (List.prefix_append r [j])))]
    cases hg : follow child m root r with
    | none => rfl
    | some g =>
      -- only the node f itself has a changed entry, and only p leads to it
      have hne : g = f → j ≠ i := by
        rintro rfl rfl
        exact hoff (ht p r g hp hq.of_append (by omega) (by omega) hf hg ▸ List.prefix_rfl)
      simp only [Option.bind_some, set_other m e hne]

/-- **Store.** The path to the stored entry leads to the entry's child; every other path of the tree leads where it
did. Below the last level nothing hangs; above it the old entry was empty and the new child, if any, has no children. -/
theorem follow_set {e : E} (ht : Tree child U d m root) (hp : Starts U (p ++ [i])) (hpd : p.length < d)
    (hf : follow child m root p = some f)
    (hlow : p.length + 1 = d ∨
      child (m f i) = none ∧ ∀ g, child e = some g → g ≠ f ∧ ∀ j, child (m g j) = none)
    (hq : Starts U q) (hqd : q.length ≤ d) :
    follow child (set m f i e) root q = if q = p ++ [i] then child e else follow child m root q := by
  have hto : follow child (set m f i e) root p = some f := by
    rw [follow_set_off ht hp.of_append hpd hf hp.of_append (by omega), hf]
    exact fun h => by simpa using h.length_le
  have hat : follow child (set m f i e) root (p ++ [i]) = child e := by
    rw [follow_snoc, hto]
    simp only [Option.bind_some, set_same]
  by_cases hpre : p ++ [i] <+: q
  swap
  · rw [follow_set_off ht hp.of_append hpd hf hq hqd hpre, if_neg]
    exact fun h => hpre (h ▸ List.prefix_rfl)
  obtain ⟨r, rfl⟩ := hpre
  cases r with
  | nil => rw [List.append_nil, if_pos rfl, hat]
  | cons j r =>
    rcases hlow with hlast | ⟨hold, hnew⟩
    · simp only [List.length_append, List.length_cons, List.length_nil] at hqd
      omega
    · -- nothing is below the entry, before the store and after it
      have hbefore : follow child m root (p ++ [i] ++ j :: r) = none := by
        rw [follow_append, follow_snoc, hf]
        simp only [Option.bind_some, hold, Option.bind_none]
      rw [if_neg (by simp), hbefore, follow_append, hat]
      cases hg : child e with
      | none => rfl
      | some g =>
        obtain ⟨hne, hleaf⟩ := hnew g hg
        simp only [Option.bind_some, follow, set_other m e (fun h => absurd h hne), hleaf j, Option.bind_none]

/-- a store keeps the tree when the new child, if any, was in no path -/
theorem Tree.set {e : E} (ht : Tree child U d m root) (hp : Starts U (p ++ [i])) (hpd : p.length < d)
    (hf : follow child m root p = some f)
    (hlow : p.length + 1 = d ∨
      child (m f i) = none ∧ ∀ g, child e = some g → g ≠ f ∧ ∀ j, child (m g j) = none)
    (hfresh : ∀ g q, child e = some g → Starts U q → q.length ≤ d → follow child m root q ≠ some g) :
    Tree child U d (set m f i e) root := by
  intro q r g hq hr hqd hrd hqg hrg
  rw [follow_set ht hp hpd hf hlow hq hqd] at hqg
  rw [follow_set ht hp hpd hf hlow hr hrd] at hrg
  split_ifs at hqg hrg with h1 h2 h2
  · rw [h1, h2]
  · exact absurd hrg (hfresh g r hqg hr hrd)
  · exact absurd hqg (hfresh g q hrg hq hqd)
  · exact ht q r g hq hr hqd hrd hqg hrg

end Xv6.Radix
