/-
What a CPU must look like for the rest of a function to run.

`Safe τ v`: from the view v of its CPU (the locks it holds, ncli and IF) a thread can execute τ, without a panic of
`release` or `popcli`, with interrupts off whenever a lock is held and ncli at least the number of locks held. It is read
backwards off the instructions. A switch must be made with ptable.lock as the only lock and ncli = 1, and that is also
how the thread on the other side finds the CPU.
- `safe_acquire`, `safe_release`, `safe_switchuvm`, `safe_sched`: one rule for each function;
- `Fn.safe`: every function may be called where the thread holds what it needs.
-/
import Xv6.Spin.Model

namespace Xv6.Spin

open Xv6.Proc (Lock ProcState Thread)

/-- what the functions see of their CPU -/
structure View where
  held : List Lock
  grab : Option Lock
  ncli : ℤ
  IF : Bool
deriving DecidableEq, Repr

namespace View

/-- interrupts are off unless ncli is 0, and ncli counts at least the locks -/
def Sound (v : View) : Prop := (v.IF = true → v.ncli = 0) ∧ (v.held.length : ℤ) + v.grab.toList.length ≤ v.ncli

/-- outside the functions ncli is the number of locks -/
def Calm (v : View) : Prop := (v.IF = true → v.ncli = 0) ∧ v.grab = none ∧ v.ncli = v.held.length

/-- across a switch -/
def switched : View := ⟨[.ptable], none, 1, false⟩

/-- where an interrupt arrives -/
def open_ : View := ⟨[], none, 0, true⟩

variable {v : View}

theorem Calm.sound (h : v.Calm) : v.Sound := by
  obtain ⟨hif, hgrab, hncli⟩ := h
  refine ⟨hif, ?_⟩
  simp [hgrab, hncli]

theorem Calm.off {l : Lock} (h : v.Calm) (hl : l ∈ v.held) : v.IF = false := by
  by_contra hif
  have hzero := h.1 (by simpa using hif)
  have hpos := List.length_pos_of_mem hl
  have hncli := h.2.2
  omega

/-- interrupts are on only where an interrupt may arrive -/
theorem Sound.eq_open (h : v.Sound) (hif : v.IF = true) : v = open_ := by
  obtain ⟨held, grab, ncli, b⟩ := v
  obtain ⟨hoff, hcount⟩ := h
  have hncli : ncli = 0 := hoff hif
  simp only [hncli] at hcount
  have hheld : held = [] := List.length_eq_zero_iff.1 (by omega)
  have hgrab : grab = none := by
    cases grab with
    | none => rfl
    | some l =>
      simp only [Option.toList_some, List.length_singleton] at hcount
      omega
  rw [hheld, hgrab, hncli, show b = true from hif]
  rfl

end View

variable {n : ℕ}

/-- the end of `sched`, up to the switch -/
def Leaving (τ : List (Instr n)) : Prop := ∃ κ, τ = .schedCheck :: .swtch :: κ ∨ τ = .swtch :: κ

/-- a thread may execute this from the view -/
def Safe : List (Instr n) → View → Prop
  | [], v => v.Calm
  | i :: τ, v => v.Sound ∧
    match i with
    | .readeflags => Safe τ v
    | .cli => Safe τ { v with IF := false }
    | .count => v.IF = false ∧ Safe τ { v with ncli := v.ncli + 1 }
    | .notHolding l => l ∉ v.held → Safe τ v
    | .xchg l => v.grab = none ∧ Safe τ { v with grab := some l }
    | .setCpu l => v.grab = some l ∧ Safe τ { v with held := l :: v.held, grab := none }
    | .holding l => l ∈ v.held ∧ Safe τ v
    | .clearCpu l => l ∈ v.held ∧ v.grab = none ∧ Safe τ { v with held := v.held.erase l, grab := some l }
    | .unlock l => v.grab = some l ∧ Safe τ { v with grab := none }
    | .interruptible => v.IF = false ∧ Safe τ v
    | .uncount => 1 ≤ v.ncli ∧ Safe τ { v with ncli := v.ncli - 1 }
    | .restore => Safe τ v ∧ (v.ncli = 0 → Safe τ { v with IF := true })
    | .sti => v.ncli = 0 ∧ Safe τ { v with IF := true }
    | .setState st => st ≠ .UNUSED ∧ st ≠ .RUNNING ∧ .ptable ∈ v.held ∧ Leaving τ ∧ Safe τ v
    | .schedCheck => .ptable ∈ v.held ∧ v.Calm ∧ (v.ncli = 1 → Safe τ v)
    | .swtch => v = .switched ∧ τ.head? = some .setIntena ∧ Safe τ v
    | .setIntena => v = .switched ∧ Safe τ v
    | .loop => v.Calm ∧ v.held = []
    | .scan => v = .switched
    | .run _ => v = .switched ∧ Safe τ v
    | .zombieExit => True

variable {v : View} {l : Lock} {κ : List (Instr n)} {τ : List (Instr n)}

theorem Safe.sound (h : Safe τ v) : v.Sound := by
  cases τ with
  | nil => exact View.Calm.sound h
  | cons i τ => exact h.1

/-! ## The functions -/

theorem safe_acquire (hv : v.Calm) (hκ : l ∉ v.held → Safe κ ⟨l :: v.held, none, v.ncli + 1, false⟩) :
    Safe (acquire l ++ κ) v := by
  obtain ⟨held, grab, ncli, b⟩ := v
  obtain ⟨hif, rfl, hncli⟩ := hv
  simp only at hncli hκ hif
  have hsound : ∀ g : Option Lock, View.Sound ⟨held, g, ncli + 1, false⟩ := by
    intro g
    refine ⟨nofun, ?_⟩
    cases g <;> simp [hncli]
  refine ⟨⟨hif, by simp [hncli]⟩, ⟨hif, by simp [hncli]⟩, ⟨nofun, by simp [hncli]⟩, rfl, hsound none, fun hl => ?_⟩
  exact ⟨hsound none, rfl, hsound (some l), rfl, hκ hl⟩

/-- `popcli` where ncli counts one more than the locks -/
theorem safe_popcli (hgrab : v.grab = none) (hif : v.IF = false) (hncli : v.ncli = v.held.length + 1)
    (hκ : ∀ b, (b = true → v.ncli - 1 = 0) → Safe κ ⟨v.held, none, v.ncli - 1, b⟩) : Safe (popcli ++ κ) v := by
  obtain ⟨held, grab, ncli, b⟩ := v
  simp only at hgrab hif hncli hκ
  subst hgrab hif
  have hsound : View.Sound ⟨held, none, ncli, false⟩ := ⟨nofun, by simp [hncli]⟩
  have hdone : View.Sound ⟨held, none, ncli - 1, false⟩ := ⟨nofun, by simp [hncli]⟩
  refine ⟨hsound, rfl, hsound, ?_, hdone, hκ false nofun, fun hzero => hκ true fun _ => hzero⟩
  change 1 ≤ ncli
  omega

theorem safe_release (hv : v.Calm) (hl : l ∈ v.held)
    (hκ : ∀ b, (b = true → v.ncli - 1 = 0) → Safe κ ⟨v.held.erase l, none, v.ncli - 1, b⟩) :
    Safe (release l ++ κ) v := by
  have hif := hv.off hl
  have hsound := hv.sound
  obtain ⟨held, grab, ncli, b⟩ := v
  obtain ⟨-, rfl, hncli⟩ := hv
  simp only at hl hif hncli hκ
  subst hif
  have hlen : (held.erase l).length + 1 = held.length := by
    have hpos := List.length_pos_of_mem hl
    rw [List.length_erase_of_mem hl]
    omega
  have hcount : ncli = ((held.erase l).length : ℤ) + 1 := by
    rw [hncli, ← hlen]
    push_cast
    rfl
  refine ⟨hsound, hl, hsound, hl, rfl, ⟨nofun, ?_⟩, rfl, ?_⟩
  · simp [hcount]
  · exact safe_popcli rfl rfl hcount hκ

theorem safe_switchuvm (hv : v.Calm) (hκ : ∀ b, (b = true → v.ncli = 0) → Safe κ ⟨v.held, none, v.ncli, b⟩) :
    Safe (switchuvm ++ κ) v := by
  have hsound := hv.sound
  obtain ⟨held, grab, ncli, b⟩ := v
  obtain ⟨hif, rfl, hncli⟩ := hv
  simp only at hif hncli hκ
  refine ⟨hsound, hsound, ⟨nofun, hsound.2⟩, rfl, safe_popcli rfl rfl (by simp [hncli]) fun b hb => ?_⟩
  simp only [add_sub_cancel_right] at hb ⊢
  exact hκ b hb

/-- past its checks `sched` has ptable.lock only -/
theorem View.Calm.eq_switched (hv : v.Calm) (hl : .ptable ∈ v.held) (hncli : v.ncli = 1) : v = .switched := by
  have hif := hv.off hl
  obtain ⟨held, grab, ncli, b⟩ := v
  obtain ⟨-, rfl, hlen⟩ := hv
  simp only at hl hif hncli hlen
  obtain ⟨x, hx⟩ := List.length_eq_one_iff.1 (show held.length = 1 by omega)
  rw [hx, List.mem_singleton] at hl
  rw [hx, ← hl, hif, hncli]
  rfl

theorem safe_sched (hv : v.Calm) (hl : .ptable ∈ v.held) (hκ : Safe κ .switched) : Safe (sched ++ κ) v := by
  refine ⟨hv.sound, hl, hv, fun hncli => ?_⟩
  rw [hv.eq_switched hl hncli]
  have hsound : View.switched.Sound := ⟨nofun, by decide⟩
  exact ⟨hsound, rfl, rfl, hsound, rfl, hκ⟩

/-- a change of state, and `sched` -/
theorem safe_leave {st : ProcState} (hst : st ≠ .UNUSED ∧ st ≠ .RUNNING) (hv : v.Calm) (hl : .ptable ∈ v.held)
    (hκ : Safe κ .switched) : Safe (.setState st :: (sched ++ κ)) v :=
  ⟨hv.sound, hst.1, hst.2, hl, ⟨_, .inl rfl⟩, safe_sched hv hl hκ⟩

/-- one more lock than before -/
theorem View.Calm.push (hv : v.Calm) (l : Lock) : View.Calm ⟨l :: v.held, none, v.ncli + 1, false⟩ := by
  refine ⟨nofun, rfl, ?_⟩
  simp [hv.2.2]

/-- one lock less -/
theorem View.Calm.pop (hv : v.Calm) (hl : l ∈ v.held) {b : Bool} (hb : b = true → v.ncli - 1 = 0) :
    View.Calm ⟨v.held.erase l, none, v.ncli - 1, b⟩ := by
  refine ⟨hb, rfl, ?_⟩
  have hpos := List.length_pos_of_mem hl
  have hncli := hv.2.2
  simp only [List.length_erase_of_mem hl]
  omega

theorem View.switched_calm : View.switched.Calm := ⟨nofun, rfl, rfl⟩

/-- a process that is switched to lets ptable.lock go -/
theorem safe_forkret : Safe (n := n) forkret .switched := by
  have h := safe_release (n := n) (κ := []) View.switched_calm (l := .ptable) (by decide) fun b hb =>
    View.switched_calm.pop (by decide) hb
  rwa [List.append_nil] at h

theorem safe_acquire_nil (hv : v.Calm) : Safe (n := n) (acquire l) v := by
  have h := safe_acquire (n := n) (κ := []) hv fun (_ : l ∉ v.held) => hv.push l
  rwa [List.append_nil] at h

theorem safe_release_nil (hv : v.Calm) (hl : l ∈ v.held) : Safe (n := n) (release l) v := by
  have h := safe_release (n := n) (κ := []) hv hl fun b hb => hv.pop hl hb
  rwa [List.append_nil] at h

theorem safe_yield (hv : v.Calm) : Safe (n := n) yield v := by
  refine safe_acquire hv fun _ => safe_leave ⟨nofun, nofun⟩ (hv.push .ptable) List.mem_cons_self ?_
  exact safe_release_nil View.switched_calm (by decide)

theorem safe_exit (hv : v.Calm) : Safe (n := n) exit v :=
  safe_acquire hv fun _ => safe_leave ⟨nofun, nofun⟩ (hv.push .ptable) List.mem_cons_self
    ⟨View.switched_calm.sound, trivial⟩

theorem safe_waitSleep (hv : v.Calm) (hl : .ptable ∈ v.held) : Safe (n := n) waitSleep v := by
  have h : Safe (n := n) (.setState .SLEEPING :: (sched ++ [])) v :=
    safe_leave ⟨nofun, nofun⟩ hv hl View.switched_calm
  rwa [List.append_nil] at h

/-- `sleep` lets go of lk with ptable.lock held, and takes it again after ptable.lock -/
theorem safe_sleep (hv : v.Calm) (hl : l ∈ v.held) (hne : l ≠ .ptable) : Safe (n := n) (sleep l) v := by
  refine safe_acquire hv fun _ => safe_release (hv.push .ptable) (List.mem_cons_of_mem _ hl) fun b hb => ?_
  refine safe_leave ⟨nofun, nofun⟩ ((hv.push .ptable).pop (List.mem_cons_of_mem _ hl) hb) ?_ ?_
  · exact (List.mem_erase_of_ne hne.symm).2 List.mem_cons_self
  · refine safe_release View.switched_calm (by decide) fun b hb => ?_
    exact safe_acquire_nil (View.switched_calm.pop (by decide) hb)

/-! ## The scheduler -/

theorem safe_round (hv : v.Calm) (hheld : v.held = []) : Safe (n := n) round v := by
  have hzero : v.ncli = 0 := by rw [hv.2.2, hheld]; rfl
  refine ⟨hv.sound, hzero, safe_acquire ⟨fun _ => hzero, hv.2⟩ fun _ => ?_⟩
  simp only [hzero, hheld]
  exact ⟨View.switched_calm.sound, rfl⟩

theorem safe_dispatch (p : Fin n) : Safe (dispatch p) .switched := by
  refine safe_switchuvm View.switched_calm fun b hb => ?_
  cases b with
  | true => cases hb rfl
  | false => exact ⟨View.switched_calm.sound, rfl, View.switched_calm.sound, rfl⟩

theorem safe_roundEnd : Safe (n := n) roundEnd .switched := by
  refine safe_release View.switched_calm (by decide) fun b hb => ?_
  have hcalm := View.switched_calm.pop (l := .ptable) (by decide) hb
  exact ⟨hcalm.sound, hcalm, rfl⟩

end Xv6.Spin
