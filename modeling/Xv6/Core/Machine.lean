/-
Machines: labelled step relations and their runs, for any type of states and of labels.

A system of processes is one machine whose labels say which process takes which step, so a run is an interleaving.
- `Reach.invariant`: what holds at first and is kept by every step holds in every reachable state;
- `Reach.after`, `Reach.of_restrict`: a run can be continued, and forget the condition on its steps;
- `Reach.foldlM`, `Reach.foldlM_restrict`: executing a list of labels with a step function, guarded or not, gives a
  reachable state.
-/
import Mathlib.Algebra.Ring.Nat

namespace Xv6

/-- the first states, and what a step labelled a can do -/
structure Machine (σ α : Type) where
  init : σ → Prop
  next : σ → α → σ → Prop

namespace Machine

variable {σ α : Type}

/-- the states of all runs -/
inductive Reach (M : Machine σ α) : σ → Prop where
  | init {s : σ} : M.init s → Reach M s
  | step {s t : σ} (a : α) : Reach M s → M.next s a t → Reach M t

/-- only the steps that meet a condition on the state before them -/
def restrict (M : Machine σ α) (allow : σ → α → Prop) : Machine σ α where
  init := M.init
  next s a t := allow s a ∧ M.next s a t

/-- the machine of a step function; none: the step is not possible -/
def ofStep (init : σ → Prop) (step : σ → α → Option σ) : Machine σ α where
  init := init
  next s a t := step s a = some t

/-- the runs that go on from a state -/
def after (M : Machine σ α) (s : σ) : Machine σ α where
  init := (· = s)
  next := M.next

variable {M : Machine σ α}

/-- **Invariant rule.** -/
theorem Reach.invariant {I : σ → Prop} (hinit : ∀ s, M.init s → I s)
    (hstep : ∀ s a t, I s → M.next s a t → I t) {s : σ} (h : M.Reach s) : I s := by
  induction h with
  | init h => exact hinit _ h
  | step a _ hnext ih => exact hstep _ a _ ih hnext

theorem Reach.after {s t : σ} (hs : M.Reach s) (h : (M.after s).Reach t) : M.Reach t :=
  h.invariant (fun _ h0 => h0 ▸ hs) fun _ a _ hu hnext => .step a hu hnext

theorem Reach.of_restrict {allow : σ → α → Prop} {s : σ} (h : (M.restrict allow).Reach s) : M.Reach s :=
  h.invariant (fun _ h0 => .init h0) fun _ a _ hu hnext => .step a hu hnext.2

theorem Reach.foldlM {init : σ → Prop} {step : σ → α → Option σ} {s t : σ} (as : List α)
    (hs : (ofStep init step).Reach s) (h : as.foldlM step s = some t) : (ofStep init step).Reach t := by
  induction as generalizing s with
  | nil => exact Option.some.inj h ▸ hs
  | cons a as ih =>
    rw [List.foldlM_cons] at h
    obtain ⟨u, hu, h⟩ := Option.bind_eq_some_iff.1 h
    exact ih (.step a hs hu) h

theorem Reach.foldlM_restrict {init : σ → Prop} {step : σ → α → Option σ} {allow : σ → α → Prop}
    [∀ s a, Decidable (allow s a)] {s t : σ} (as : List α) (hs : ((ofStep init step).restrict allow).Reach s)
    (h : as.foldlM (fun s a => if allow s a then step s a else none) s = some t) :
    ((ofStep init step).restrict allow).Reach t := by
  induction as generalizing s with
  | nil => exact Option.some.inj h ▸ hs
  | cons a as ih =>
    rw [List.foldlM_cons] at h
    obtain ⟨u, hu, h⟩ := Option.bind_eq_some_iff.1 h
    split_ifs at hu with ha
    exact ih (.step a hs ⟨ha, hu⟩) h

end Machine

end Xv6
