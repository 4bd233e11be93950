/-
Weakest preconditions for programs with a state and exceptions.

A program is an `EStateM`: from a state it returns a value or raises an exception, and keeps the state it reached in
both cases. `wp x Q E s` says that x run from s returns with Q or raises with E. The rules follow the constructors of a
do block; `wp_mono`, `wp_imp` and `wp_safe` use a specification already proved, `wp_forM` is the invariant rule for a loop
over a list. `Within R P x` says that x, from any state, moves along the preorder R and raises exceptions with P only; it
is put together along the program in the same way.
-/
import Mathlib.Tactic

namespace Xv6.Wp

variable {ε σ α β : Type}

/-- x run from s returns with Q or raises with E -/
def wp (x : EStateM ε σ α) (Q : α → σ → Prop) (E : ε → σ → Prop) (s : σ) : Prop :=
  match x s with
  | .ok a t => Q a t
  | .error e t => E e t

/-- the state in which a run ends, by a return or by a raise -/
def final : EStateM.Result ε σ α → σ
  | .ok _ t => t
  | .error _ t => t

variable {x : EStateM ε σ α} {f : α → EStateM ε σ β} {E E' : ε → σ → Prop} {s : σ}

@[simp] theorem wp_pure (a : α) (Q : α → σ → Prop) : wp (pure a : EStateM ε σ α) Q E s ↔ Q a s := Iff.rfl

@[simp] theorem wp_throw (e : ε) (Q : α → σ → Prop) : wp (throw e : EStateM ε σ α) Q E s ↔ E e s := Iff.rfl

@[simp] theorem wp_get (Q : σ → σ → Prop) : wp (get : EStateM ε σ σ) Q E s ↔ Q s s := Iff.rfl

@[simp] theorem wp_modify (g : σ → σ) (Q : PUnit → σ → Prop) :
    wp (modify g : EStateM ε σ PUnit) Q E s ↔ Q ⟨⟩ (g s) := Iff.rfl

@[simp] theorem wp_set (t : σ) (Q : PUnit → σ → Prop) : wp (set t : EStateM ε σ PUnit) Q E s ↔ Q ⟨⟩ t := Iff.rfl

theorem wp_ite {c : Prop} [Decidable c] {y : EStateM ε σ α} {Q : α → σ → Prop} (hx : c → wp x Q E s)
    (hy : ¬c → wp y Q E s) : wp (if c then x else y) Q E s := by
  split_ifs with h
  · exact hx h
  · exact hy h

@[simp] theorem wp_bind (Q : β → σ → Prop) : wp (x >>= f) Q E s ↔ wp x (fun a t => wp (f a) Q E t) E s := by
  simp only [wp, bind, EStateM.bind]
  cases x s <;> rfl

theorem wp_return {a : α} {Q : α → σ → Prop} (h : Q a s) : wp (pure a : EStateM ε σ α) Q E s := h

theorem wp_mono {Q Q' : α → σ → Prop} (h : wp x Q E s) (hQ : ∀ a t, Q a t → Q' a t) (hE : ∀ e t, E e t → E' e t) :
    wp x Q' E' s := by
  unfold wp at h ⊢
  cases hx : x s with
  | ok a t => rw [hx] at h; exact hQ a t h
  | error e t => rw [hx] at h; exact hE e t h

/-- with the same exceptions -/
theorem wp_imp {Q Q' : α → σ → Prop} (h : wp x Q E s) (hQ : ∀ a t, Q a t → Q' a t) : wp x Q' E s :=
  wp_mono h hQ fun _ _ he => he

/-- from a specification that rules every exception out -/
theorem wp_safe {Q Q' : α → σ → Prop} (h : wp x Q (fun _ _ => False) s) (hQ : ∀ a t, Q a t → Q' a t) : wp x Q' E s :=
  wp_mono h hQ fun _ _ he => he.elim

theorem wp_and {Q Q' : α → σ → Prop} (h : wp x Q E s) (h' : wp x Q' E' s) :
    wp x (fun a t => Q a t ∧ Q' a t) (fun e t => E e t ∧ E' e t) s := by
  unfold wp at h h' ⊢
  cases hx : x s with
  | ok a t => rw [hx] at h h'; exact ⟨h, h'⟩
  | error e t => rw [hx] at h h'; exact ⟨h, h'⟩

theorem wp_final (P : σ → Prop) : wp x (fun _ t => P t) (fun _ t => P t) s ↔ P (final (x s)) := by
  unfold wp
  cases x s <;> rfl

theorem wp_true : wp x (fun _ _ => True) (fun _ _ => True) s := (wp_final fun _ => True).2 trivial

/-- a run ends by a return -/
def Returns (r : EStateM.Result ε σ α) : Prop := ∃ a t, r = .ok a t

theorem wp_returns (P : σ → Prop) : wp x (fun _ t => P t) (fun _ _ => False) s ↔ Returns (x s) ∧ P (final (x s)) := by
  unfold wp Returns
  cases x s with
  | ok a t => exact ⟨fun h => ⟨⟨a, t, rfl⟩, h⟩, fun h => h.2⟩
  | error e t => exact ⟨fun h => h.elim, fun ⟨⟨_, _, h⟩, _⟩ => by cases h⟩

theorem wp_exists {Q : α → σ → Prop} : wp x Q (fun _ _ => False) s ↔ ∃ a t, x s = .ok a t ∧ Q a t := by
  unfold wp
  cases x s with
  | ok a t => exact ⟨fun h => ⟨a, t, rfl, h⟩, fun ⟨_, _, h, hQ⟩ => by cases h; exact hQ⟩
  | error e t => exact ⟨fun h => h.elim, fun ⟨_, _, h, _⟩ => by cases h⟩

theorem wp_ok {Q : α → σ → Prop} {a : α} {t : σ} (h : wp x Q E s) (hx : x s = .ok a t) : Q a t := by
  rw [wp, hx] at h
  exact h

/-- a run that was evaluated -/
theorem wp_of_eval {P : α → σ → Bool} (h : (match x s with | .ok a t => P a t | .error _ _ => false) = true) :
    wp x (fun a t => P a t = true) (fun _ _ => False) s := by
  unfold wp
  cases hx : x s with
  | ok a t => rw [hx] at h; exact h
  | error e t => rw [hx] at h; cases h

/-- the postcondition may speak of the run itself -/
theorem wp_run {Q : α → σ → Prop} (h : wp x Q E s) : wp x (fun a t => x s = .ok a t ∧ Q a t) E s := by
  unfold wp at h ⊢
  cases hx : x s with
  | ok a t => rw [hx] at h; exact ⟨rfl, h⟩
  | error e t => rw [hx] at h; exact h

/-- a raise means that the program does not return -/
theorem wp_raised {Q : α → σ → Prop} (h : wp x Q (fun _ _ => True) s) : wp x Q (fun _ _ => ¬ Returns (x s)) s := by
  unfold wp at h ⊢
  cases hx : x s with
  | ok a t => rw [hx] at h; exact h
  | error e t => rintro ⟨_, _, hc⟩; cases hc

/-- a program that returns, with Q exactly if P -/
theorem wp_iff {Q : α → σ → Prop} {P : Prop} (h : wp x (fun a t => Q a t ↔ P) (fun _ _ => False) s) :
    wp x Q (fun _ _ => False) s ↔ P := by
  obtain ⟨a, t, hx, hQ⟩ := wp_exists.1 h
  exact ⟨fun hw => hQ.1 (wp_ok hw hx), fun hP => wp_exists.2 ⟨a, t, hx, hQ.2 hP⟩⟩

/-- **Loop rule.** An invariant over the part of the list still to be done. -/
theorem wp_forM {g : β → EStateM ε σ PUnit} (I : List β → σ → Prop)
    (hstep : ∀ b bs t, I (b :: bs) t → wp (g b) (fun _ u => I bs u) E t) (l : List β) (h : I l s) :
    wp (forM l g) (fun _ t => I [] t) E s := by
  induction l generalizing s with
  | nil => exact h
  | cons b bs ih =>
    rw [List.forM_cons, wp_bind]
    exact wp_mono (hstep b bs s h) (fun _ t ht => ih ht) (fun _ _ he => he)

/-- from any state x ends in a state related to it by R, and raises exceptions with P only -/
def Within (R : σ → σ → Prop) (P : ε → σ → Prop) (x : EStateM ε σ α) : Prop :=
  ∀ s, wp x (fun _ t => R s t) (fun e t => R s t ∧ P e t) s

section

variable {R : σ → σ → Prop} {P : ε → σ → Prop}

theorem Within.modify {g : σ → σ} (h : ∀ s, R s (g s)) : Within R P (modify g : EStateM ε σ PUnit) := fun s =>
  (wp_modify _ _).2 (h s)

theorem Within.ite {c : Prop} [Decidable c] {y : EStateM ε σ α} (hx : Within R P x) (hy : Within R P y) :
    Within R P (if c then x else y) := by
  split_ifs
  · exact hx
  · exact hy

theorem Within.option {g : Option β → EStateM ε σ α} (hnone : Within R P (g none)) (hsome : ∀ b, Within R P (g (some b)))
    (r : Option β) : Within R P (g r) := by
  cases r with
  | none => exact hnone
  | some b => exact hsome b

variable [IsPreorder σ R]

theorem Within.pure (a : α) : Within R P (pure a : EStateM ε σ α) := fun s => wp_return (refl s)

theorem Within.throw {e : ε} (h : ∀ s, P e s) : Within R P (throw e : EStateM ε σ α) := fun s =>
  (wp_throw _ _).2 ⟨refl s, h s⟩

theorem Within.get : Within R P (get : EStateM ε σ σ) := fun s => (wp_get _).2 (refl s)

theorem Within.after {t : σ} (hx : Within R P x) (hst : R s t) :
    wp x (fun _ u => R s u) (fun e u => R s u ∧ P e u) t :=
  wp_mono (hx t) (fun _ _ hu => IsTrans.trans _ _ _ hst hu) fun _ _ hu => ⟨IsTrans.trans _ _ _ hst hu.1, hu.2⟩

theorem Within.bind (hx : Within R P x) (hf : ∀ a, Within R P (f a)) : Within R P (x >>= f) := fun s => by
  rw [wp_bind]
  exact wp_imp (hx s) fun a t ht => (hf a).after ht

theorem Within.forM {g : β → EStateM ε σ PUnit} {l : List β} (h : ∀ b ∈ l, Within R P (g b)) :
    Within R P (forM l g) := by
  induction l with
  | nil => exact Within.pure _
  | cons b l ih =>
    rw [List.forM_cons]
    exact (h b List.mem_cons_self).bind fun _ => ih fun c hc => h c (List.mem_cons_of_mem b hc)

end

-- a program is never evaluated inside a statement about it: only the rules above look into it
attribute [irreducible] wp

end Xv6.Wp
