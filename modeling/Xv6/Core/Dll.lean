/-
Circular doubly linked lists, over any type of elements.

The nodes are the elements and a head, `none`. `Ring k l` says that the pointers k form one circle: the head, then the
elements of l in order, then the head again, with no element twice.
- `Ring.insert`, `Ring.unlink`: the two pointer operations insert an element after the head and take one out;
- `Ring.find_next`, `Ring.find_prev`: a loop that follows the pointers from the head until it is back visits the
  elements in order, or in reverse.
-/
import Mathlib.Data.List.Chain
import Mathlib.Data.List.Nodup

namespace Xv6.Dll

open Function

variable {α : Type}

/-- next and prev pointers of the head (none) and of the elements -/
structure Links (α : Type) where
  next : Option α → Option α
  prev : Option α → Option α

/-- y follows x -/
def Links.Adj (k : Links α) (x y : Option α) : Prop := k.next x = y ∧ k.prev y = x

structure Ring (k : Links α) (l : List α) : Prop where
  nodup : l.Nodup
  chain : (none :: l.map some ++ [none]).IsChain k.Adj

section

variable [DecidableEq α]

/-- b->next->prev = b->prev; b->prev->next = b->next -/
def Links.unlink (k : Links α) (b : α) : Links α :=
  let prev := Function.update k.prev (k.next (some b)) (k.prev (some b))
  ⟨Function.update k.next (prev (some b)) (k.next (some b)), prev⟩

/-- b->next = head.next; b->prev = head; head.next->prev = b; head.next = b -/
def Links.insert (k : Links α) (b : α) : Links α :=
  let next := Function.update k.next (some b) (k.next none)
  let prev := Function.update k.prev (some b) none
  ⟨Function.update next none (some b), Function.update prev (next none) (some b)⟩

end

/-- the first element that meets p, from node x on along the pointers, in at most the given number of steps -/
def find (step : Option α → Option α) (p : α → Bool) : ℕ → Option α → Option α
  | 0, _ | _ + 1, none => none
  | m + 1, some b => if p b then some b else find step p m (step (some b))

variable {k : Links α} {l l₁ l₂ : List α} {b : α} {p : α → Bool} {m : ℕ}

theorem Ring.nil (hnext : k.next none = none) (hprev : k.prev none = none) : Ring k [] :=
  ⟨List.nodup_nil, .cons_cons ⟨hnext, hprev⟩ (.singleton _)⟩

/-- what the loop finds meets p -/
theorem find_some {step : Option α → Option α} {x : Option α} (h : find step p m x = some b) : p b = true := by
  induction m generalizing x with
  | zero => cases h
  | succ m ih =>
    cases x with
    | none => cases h
    | some a =>
      rw [find] at h
      split_ifs at h with ha
      · exact Option.some.inj h ▸ ha
      · exact ih h

/-- the other way round -/
theorem Ring.reverse (h : Ring k l) : Ring ⟨k.prev, k.next⟩ l.reverse := by
  refine ⟨List.nodup_reverse.2 h.nodup, ?_⟩
  have heq : none :: l.reverse.map some ++ [none] = (none :: l.map some ++ [none]).reverse := by simp
  rw [heq, List.isChain_reverse]
  exact h.chain.imp fun _ _ hadj => ⟨hadj.2, hadj.1⟩

/-- a chain that starts at x is what the loop visits -/
theorem find_chain (x : Option α) (hchain : (x :: l.map some ++ [none]).IsChain k.Adj) (hm : l.length < m) :
    find k.next p m (k.next x) = l.find? p := by
  induction l generalizing x m with
  | nil =>
    rw [(List.isChain_cons_cons.1 hchain).1.1]
    cases m <;> rfl
  | cons a l ih =>
    obtain ⟨hadj, hrest⟩ := List.isChain_cons_cons.1 hchain
    obtain ⟨m, rfl⟩ := Nat.exists_eq_add_one_of_ne_zero (Nat.ne_of_gt (Nat.zero_lt_of_lt hm))
    rw [hadj.1, find, List.find?_cons]
    cases p a with
    | true => rfl
    | false => exact ih (some a) hrest (by rw [List.length_cons] at hm; omega)

/-- a loop along next -/
theorem Ring.find_next (h : Ring k l) (hm : l.length < m) : find k.next p m (k.next none) = l.find? p :=
  find_chain none h.chain hm

/-- a loop along prev -/
theorem Ring.find_prev (h : Ring k l) (hm : l.length < m) : find k.prev p m (k.prev none) = l.reverse.find? p :=
  find_chain (k := ⟨k.prev, k.next⟩) none h.reverse.chain (by rwa [List.length_reverse])

/-- the nodes after some elements, up to the head -/
theorem exists_cons (l : List α) : ∃ y B, l.map some ++ [none] = y :: B := by cases l <;> exact ⟨_, _, rfl⟩

theorem nodup_nodes (h : l.Nodup) : (l.map some ++ [none]).Nodup := by
  refine List.Nodup.append (h.map fun _ _ => Option.some.inj) (List.nodup_singleton _) ?_
  simp [List.Disjoint]

section

variable [DecidableEq α]

theorem Ring.insert (h : Ring k l) (hb : b ∉ l) : Ring (k.insert b) (b :: l) := by
  refine ⟨List.nodup_cons.2 ⟨hb, h.nodup⟩, ?_⟩
  obtain ⟨y, B, heq⟩ := exists_cons l
  have hchain := h.chain
  have hnodup := nodup_nodes h.nodup
  have hmem : some b ∉ y :: B := by
    rw [← heq]
    simpa using hb
  rw [List.cons_append, heq] at hchain
  obtain ⟨⟨hnext, hprev⟩, hrest⟩ := List.isChain_cons_cons.1 hchain
  have hby : some b ≠ y := fun heq => hmem (heq ▸ List.mem_cons_self)
  rw [List.map_cons, List.cons_append, List.cons_append, heq]
  refine .cons_cons ⟨?_, ?_⟩ (.cons_cons ⟨?_, ?_⟩ (hrest.imp_of_mem_tail_imp fun u v hu hv huv => ⟨?_, ?_⟩))
  · simp [Links.insert]
  · simp [Links.insert, hnext, hby]
  · simp [Links.insert, hnext]
  · simp [Links.insert, hnext]
  · -- the head is the last node of the chain, so no pair starts with it
    have hu' : u ≠ some b := fun heq => hmem (heq ▸ hu)
    have hunone : u ≠ none := by
      rintro rfl
      rw [heq] at hnodup
      exact (List.nodup_cons.1 hnodup).1 (hnext.symm.trans huv.1 ▸ hv)
    simp [Links.insert, hu', hunone, huv.1]
  · have hv' : v ≠ some b := fun heq => hmem (heq ▸ List.mem_cons_of_mem _ hv)
    have hvy : v ≠ y := by
      rintro rfl
      rw [heq] at hnodup
      exact (List.nodup_cons.1 hnodup).1 hv
    simp [Links.insert, hnext, hv', hvy, huv.2]

theorem Ring.unlink (h : Ring k (l₁ ++ b :: l₂)) : Ring (k.unlink b) (l₁ ++ l₂) := by
  have hnodup := h.nodup
  rw [List.nodup_append, List.nodup_cons] at hnodup
  obtain ⟨hnodup₁, ⟨hb₂, hnodup₂⟩, hdisj⟩ := hnodup
  have hb₁ : b ∉ l₁ := fun hb => hdisj b hb b List.mem_cons_self rfl
  refine ⟨List.nodup_append.2 ⟨hnodup₁, hnodup₂, fun x hx y hy => hdisj x hx y (List.mem_cons_of_mem _ hy)⟩, ?_⟩
  obtain ⟨y, B, heq⟩ := exists_cons l₂
  obtain ⟨A, x, hA⟩ : ∃ A x, none :: l₁.map some = A ++ [x] :=
    ⟨_, _, (List.dropLast_concat_getLast (List.cons_ne_nil none (l₁.map some))).symm⟩
  have hold : none :: (l₁ ++ b :: l₂).map some ++ [none] = A ++ x :: some b :: y :: B := by
    rw [List.map_append, List.map_cons, ← List.cons_append, List.append_assoc, hA, List.cons_append, heq]
    simp
  have hnew : none :: (l₁ ++ l₂).map some ++ [none] = A ++ x :: y :: B := by
    rw [List.map_append, ← List.cons_append, List.append_assoc, hA, heq]
    simp
  have hchain := h.chain
  rw [hold, List.isChain_append_cons_cons, List.isChain_cons_cons] at hchain
  obtain ⟨hA', ⟨hxb, hbx⟩, ⟨hby, hyb⟩, hB'⟩ := hchain
  have hlinks : k.unlink b = ⟨update k.next x y, update k.prev y x⟩ := by
    rw [Links.unlink, hby, hbx]
    by_cases heq : some b = y
    · rw [← heq, update_self]
    · rw [update_of_ne heq, hbx]
  rw [hnew, List.isChain_append_cons_cons, hlinks]
  refine ⟨?_, ⟨update_self .., update_self ..⟩, ?_⟩
  · -- before b: no pair starts with x or ends with y
    refine hA'.imp_of_mem_tail_imp fun u v _ hv huv => ⟨?_, ?_⟩
    all_goals rw [← hA, List.tail_cons] at hv
    all_goals obtain ⟨w, hw, rfl⟩ := List.mem_map.1 hv
    · refine (update_of_ne ?_ ..).trans huv.1
      rintro rfl
      exact hb₁ (Option.some.inj (hxb.symm.trans huv.1) ▸ hw)
    · refine (update_of_ne ?_ ..).trans huv.2
      rintro rfl
      have hmem : some w ∈ l₂.map some ++ [none] := heq ▸ List.mem_cons_self
      have hw₂ : w ∈ l₂ := by simpa using hmem
      exact hdisj w hw w (List.mem_cons_of_mem _ hw₂) rfl
  · -- after b
    refine hB'.imp_of_mem_tail_imp fun u v _ hv huv => ⟨?_, ?_⟩
    · refine (update_of_ne ?_ ..).trans huv.1
      rintro rfl
      have hmem : some b ∈ l₂.map some ++ [none] := by
        rw [heq, ← hxb, huv.1]
        exact List.mem_cons_of_mem _ hv
      exact hb₂ (by simpa using hmem)
    · refine (update_of_ne ?_ ..).trans huv.2
      rintro rfl
      have hnodup := nodup_nodes hnodup₂
      rw [heq] at hnodup
      exact (List.nodup_cons.1 hnodup).1 hv

end

end Xv6.Dll
