/-
The IDE driver on a device whose commands may fail (`ide.c`, `bread` and `bwrite` of `bio.c`).

A command that fails leaves IDE_ERR or IDE_DF in the status register (`err`): a write has then left anything in its
sector, and a read has put anything in the data register. Everything but the device and `ideintr` is as in the model
without errors, and so is `ideintr` when the command has not failed (`ideintr_of_ok`). `bread` calls `iderw` for a buffer
that is not valid, `bwrite` for one it has made dirty, and both return when `iderw` does.

`failed` and `returned` are a record that no step reads: whether the kth command failed, and the requests that `iderw` has
returned from, each with its buffer as it was then.

- `error_hidden_iff`: the driver is honest about errors as long as no interrupt is for a command that failed; once one is,
  the process whose request it was goes on as if it had not.
- `failed_read_valid_failed_write_clean`: runs with one failed command.
-/
import Xv6.Ide.Linear

namespace Xv6.Ide

open Function

/-! ## The device and the interrupt handler -/

/-- the command in progress fails; x: what it has left in its sector, or in the data register -/
def Device.fail (d : Device) (x : Block) : Option Device :=
  match d.cmd with
  | none => none
  | some r =>
    match r.write with
    | some _ => some { d with
        disk := update d.disk r.disk (update (d.disk r.disk) r.sector x), cmd := none, irq := true }
    | none => some { d with reply := x, cmd := none, irq := true }

/-- `idewait`, once the device is ready; err: (r & (IDE_DF|IDE_ERR)) != 0 -/
def idewait (checkerr err : Bool) : ℤ := if checkerr && err then -1 else 0

/-- the buffer when its command is over -/
def Buf.settle (b : Buf) (err : Bool) (reply : Block) : Buf :=
  { b with data := if !b.dirty && 0 ≤ idewait true err then reply else b.data, valid := true, dirty := false }

namespace Faults

/-- a return of `iderw`: which request it was, the buffer, and whether the command of the request had failed -/
structure Return where
  request : ℕ
  buf : Buf
  failed : Bool

/-- err: the last command that ended has failed -/
structure St (ι : Type) where
  drv : Ide.St ι
  err : Bool
  failed : List Bool
  returned : List Return

section

variable {ι : Type} [DecidableEq ι]

def ideintr (s : St ι) : Option (St ι) :=
  match s.drv.next none with
  | none => some s
  | some b =>
    let x := (s.drv.buf b).settle s.err s.drv.dev.reply
    let u := { s.drv with
      next := update s.drv.next none (s.drv.next (some b))
      buf := update s.drv.buf b x
      pc := wakeup s.drv.pc b
      served := s.drv.served ++ [⟨x, s.drv.dev.disk⟩] }
    let s := { s with failed := s.failed ++ [s.err] }
    match u.next none with
    | none => some { s with drv := u }
    | some c => (idestart u c).map fun v => { s with drv := v }

/-! ## Runs -/

/-- the request that p is about to look at the flags for, at the loop of `iderw` -/
def request (s : Ide.St ι) (p : ι) : Option (ℕ × Fin NBUF) :=
  match s.pc p with
  | .called b => some (s.asked.length, b)
  | .awake b k => some (k, b)
  | _ => none

/-- the request p returns from -/
def leaves (s : St ι) (p : ι) : List Return :=
  match request s.drv p with
  | none => []
  | some (k, b) => if (s.drv.buf b).done then [⟨k, s.drv.buf b, s.failed[k]? == some true⟩] else []

inductive Act (ι : Type) where
  | drv (a : Ide.Act ι)
  | fail (x : Block)

def step (s : St ι) : Act ι → Option (St ι)
  | .drv .intr =>
    if s.drv.dev.irq then ideintr { s with drv := { s.drv with dev := { s.drv.dev with irq := false } } } else none
  | .drv .finish => (Ide.step s.drv .finish).map fun u => { s with drv := u, err := false }
  | .drv (.enter p) => (Ide.step s.drv (.enter p)).map fun u => { s with drv := u, returned := s.returned ++ leaves s p }
  | .drv (.retry p) => (Ide.step s.drv (.retry p)).map fun u => { s with drv := u, returned := s.returned ++ leaves s p }
  | .drv a => (Ide.step s.drv a).map fun u => { s with drv := u }
  | .fail x => (s.drv.dev.fail x).map fun d => { s with drv := { s.drv with dev := d }, err := true }

/-- the driver at rest, and nothing recorded -/
structure Init (s : St ι) : Prop where
  drv : ∃ disk, Ide.Init disk s.drv
  failed : s.failed = []
  returned : s.returned = []

def machine (ι : Type) [DecidableEq ι] : Machine (St ι) (Act ι) := .ofStep Init step

/-- a failed read is not returned valid, and a failed write is not returned clean -/
def Honest (s : St ι) : Prop :=
  ∀ e ∈ s.returned, e.failed = true → ∀ w, s.drv.asked[e.request]? = some w →
    (w.was.dirty = false → e.buf.valid = false) ∧ (w.was.dirty = true → e.buf.dirty = true)

/-- no request is served whose command failed: at an interrupt the status register shows no error -/
def Clean (s : St ι) : Act ι → Prop
  | .drv .intr => s.err = false
  | _ => True

instance (s : St ι) (a : Act ι) : Decidable (Clean s a) := by
  unfold Clean
  split <;> infer_instance

end

/-! ## What the steps of the driver do -/

section

variable {ι : Type} {s t : St ι} {u v : Ide.St ι} {p : ι} {a : Act ι}

/-- without an error, the handler is that of the model without errors -/
theorem ideintr_of_ok (h : s.err = false) :
    (ideintr s).map St.drv = Ide.ideintr s.drv := by
  have hbuf : ∀ b : Buf, b.settle false s.drv.dev.reply = b.complete s.drv.dev.reply := by
    intro b
    cases hd : b.dirty <;> simp [Buf.settle, Buf.complete, idewait, hd]
  unfold ideintr Ide.ideintr
  rw [h]
  cases s.drv.next none with
  | none => rfl
  | some b =>
    simp only [hbuf, update_self]
    cases s.drv.next (some b) with
    | none => rfl
    | some c =>
      rw [Option.map_map]
      exact Option.map_id'

/-- p has the kth request and sleeps, or has been woken -/
def Waiting (u : Ide.St ι) (p : ι) (k : ℕ) : Prop := ∃ b, u.pc p = .sleeping b k ∨ u.pc p = .awake b k

/-- a step asks for requests, and does not forget any; who waits after it has waited before, or for the last one -/
structure Extends (u v : Ide.St ι) : Prop where
  asked : u.asked <+: v.asked
  waiting : ∀ p k, Waiting v p k → Waiting u p k ∨ k < v.asked.length

theorem Extends.of_eq (hasked : v.asked = u.asked) (hpc : v.pc = u.pc) : Extends u v := by
  refine ⟨by rw [hasked], fun p k h => .inl ?_⟩
  unfold Waiting at h
  rwa [hpc] at h

/-- `idestart` only gives the device a command -/
theorem idestart_frame {b : Fin NBUF} (h : idestart u b = some v) : ∃ cmd, v = { u with dev := { u.dev with cmd } } := by
  obtain ⟨-, -, rfl⟩ := idestart_some h
  exact ⟨_, rfl⟩

/-- what the handler does when there is a request -/
theorem ideintr_serves {b : Fin NBUF} (hb : s.drv.next none = some b) (h : ideintr s = some t) :
    t.drv.pc = wakeup s.drv.pc b ∧ t.drv.asked = s.drv.asked ∧ t.drv.served.length = s.drv.served.length + 1 ∧
      t.drv.buf b = (s.drv.buf b).settle s.err s.drv.dev.reply ∧ t.failed = s.failed ++ [s.err] ∧
      t.returned = s.returned := by
  unfold ideintr at h
  rw [hb] at h
  dsimp only at h
  split at h
  · cases h
    exact ⟨rfl, rfl, List.length_append, update_self _ _ _, rfl, rfl⟩
  · obtain ⟨v, hv, rfl⟩ := Option.map_eq_some_iff.1 h
    obtain ⟨cmd, rfl⟩ := idestart_frame hv
    exact ⟨rfl, rfl, List.length_append, update_self _ _ _, rfl, rfl⟩

/-- a process that waits after a `wakeup` has waited before -/
theorem waiting_of_wakeup {b c : Fin NBUF} {k : ℕ} (h : wakeup u.pc b p = .sleeping c k ∨ wakeup u.pc b p = .awake c k) :
    Waiting u p k := by
  unfold wakeup at h
  cases hpc : u.pc p with
  | sleeping e j =>
    simp only [hpc] at h
    split_ifs at h
    · obtain ⟨-, rfl⟩ : e = c ∧ j = k := by simpa using h
      exact ⟨e, .inl hpc⟩
    · obtain ⟨-, rfl⟩ : e = c ∧ j = k := by simpa using h
      exact ⟨e, .inl hpc⟩
  | awake e j =>
    simp only [hpc] at h
    obtain ⟨-, rfl⟩ : e = c ∧ j = k := by simpa using h
    exact ⟨e, .inr hpc⟩
  | _ => simp [hpc] at h

theorem ideintr_frame (h : ideintr s = some t) : Extends s.drv t.drv ∧ t.returned = s.returned := by
  cases hn : s.drv.next none with
  | none =>
    rw [ideintr, hn] at h
    cases h
    exact ⟨.of_eq rfl rfl, rfl⟩
  | some b =>
    obtain ⟨hpc, hasked, -, -, -, hreturned⟩ := ideintr_serves hn h
    refine ⟨⟨by rw [hasked], fun q k hq => ?_⟩, hreturned⟩
    obtain ⟨c, hq⟩ := hq
    rw [hpc] at hq
    exact .inl (waiting_of_wakeup hq)

/-- what a step adds to the returns -/
def back (s : St ι) : Act ι → List Return
  | .drv (.enter p) | .drv (.retry p) => leaves s p
  | _ => []

theorem mem_leaves {e : Return} : e ∈ leaves s p ↔ ∃ b, request s.drv p = some (e.request, b) ∧
    (s.drv.buf b).done = true ∧ e.buf = s.drv.buf b ∧ e.failed = (s.failed[e.request]? == some true) := by
  unfold leaves
  cases hr : request s.drv p with
  | none => simp
  | some x =>
    obtain ⟨k, b⟩ := x
    cases hd : (s.drv.buf b).done with
    | false =>
      simp only [hd, Bool.false_eq_true, if_false, List.not_mem_nil, false_iff]
      rintro ⟨c, hc, hdone, -⟩
      obtain ⟨-, rfl⟩ : k = e.request ∧ b = c := by simpa using hc
      cases hd.symm.trans hdone
    | true =>
      simp only [hd, if_true, List.mem_singleton]
      constructor
      · rintro rfl
        exact ⟨b, rfl, hd, rfl, rfl⟩
      · rintro ⟨c, hc, -, hbuf, hfail⟩
        obtain ⟨rfl, rfl⟩ : k = e.request ∧ b = c := by simpa using hc
        obtain ⟨k, x, f⟩ := e
        exact congrArg₂ (Return.mk k) hbuf hfail

/-- a step that returns is one of a process that looks at the flags -/
theorem mem_back {e : Return} (h : e ∈ back s a) : ∃ p, (a = .drv (.enter p) ∨ a = .drv (.retry p)) ∧ e ∈ leaves s p := by
  unfold back at h
  split at h
  · exact ⟨_, .inl rfl, h⟩
  · exact ⟨_, .inr rfl, h⟩
  · cases h

/-- the requests that processes wait for or have returned from have been asked for; what was returned was done -/
structure Inv (s : St ι) : Prop where
  waiting : ∀ p k, Waiting s.drv p k → k < s.drv.asked.length
  returned : ∀ e ∈ s.returned, e.request < s.drv.asked.length
  done : ∀ e ∈ s.returned, e.buf.done = true

theorem Inv.init (h : Init s) : Inv s := by
  obtain ⟨disk, hdrv⟩ := h.drv
  refine ⟨fun p k hw => ?_, by simp [h.returned], by simp [h.returned]⟩
  obtain ⟨b, hw⟩ := hw
  simp [hdrv.pc] at hw

theorem Inv.honest_iff (h : Inv s) : Honest s ↔ ∀ e ∈ s.returned, e.failed = false := by
  constructor
  · intro hon e he
    by_contra hf
    have hdone := h.done e he
    obtain ⟨w, hw⟩ : ∃ w, s.drv.asked[e.request]? = some w := ⟨_, List.getElem?_eq_getElem (h.returned e he)⟩
    obtain ⟨hread, hwrite⟩ := hon e he (by simpa using hf) w hw
    cases hd : w.was.dirty with
    | false => simp [Buf.done, hread hd] at hdone
    | true => simp [Buf.done, hwrite hd] at hdone
  · intro hall e he hf
    cases (hall e he).symm.trans hf

variable [DecidableEq ι]

/-- p goes to a place of its own request, or of none -/
theorem Extends.setPc {x : Pc} (hask : u.asked <+: v.asked) (hpc : v.pc = update u.pc p x)
    (hx : ∀ b k, x = .sleeping b k ∨ x = .awake b k → Waiting u p k ∨ k < v.asked.length) : Extends u v := by
  refine ⟨hask, fun q k h => ?_⟩
  obtain ⟨b, h⟩ := h
  rw [hpc] at h
  by_cases hq : q = p
  · subst hq
    rw [update_self] at h
    exact hx b k h
  · rw [update_of_ne hq] at h
    exact .inl ⟨b, h⟩

/-- `iderw` asks for one request, and goes to its loop -/
theorem enter_frame {b : Fin NBUF} (h : enter u p b = some v) :
    ∃ w, w.was = u.buf b ∧ v.asked = u.asked ++ [w] ∧
      v.pc = update u.pc p (if (u.buf b).done then .out else .sleeping b u.asked.length) ∧
      v.served = u.served ∧ v.dev.irq = u.dev.irq := by
  obtain ⟨x, hx, h⟩ := Option.bind_eq_some_iff.1 h
  obtain ⟨y, hy, h⟩ := Option.bind_eq_some_iff.1 h
  cases h
  obtain ⟨pp, -, rfl⟩ := Option.map_eq_some_iff.1 hx
  unfold startIf at hy
  split_ifs at hy
  · obtain ⟨cmd, rfl⟩ := idestart_frame hy
    exact ⟨⟨b, u.buf b⟩, rfl, rfl, rfl, rfl, rfl⟩
  · cases hy
    exact ⟨⟨b, u.buf b⟩, rfl, rfl, rfl, rfl, rfl⟩

theorem step_extends {a : Ide.Act ι} (ha : a ≠ .intr) (h : Ide.step u a = some v) : Extends u v := by
  cases a with
  | lock p b | unlock p b | edit p b x =>
    simp only [Ide.step] at h
    split_ifs at h
    cases h
    exact .of_eq rfl rfl
  | call p b =>
    simp only [Ide.step, call] at h
    split_ifs at h
    cases h
    exact .setPc (List.prefix_refl _) rfl (by simp)
  | enter p =>
    cases hpc : u.pc p with
    | called b =>
      simp only [Ide.step, hpc] at h
      obtain ⟨w, -, hasked, hpc', -⟩ := enter_frame h
      refine .setPc ⟨[w], hasked.symm⟩ hpc' fun c k hx => .inr ?_
      split_ifs at hx
      · simp at hx
      · obtain ⟨-, rfl⟩ : b = c ∧ u.asked.length = k := by simpa using hx
        simp [hasked]
    | _ => simp [Ide.step, hpc] at h
  | wake p =>
    cases hpc : u.pc p with
    | sleeping b k =>
      simp only [Ide.step, hpc] at h
      cases h
      refine .setPc (List.prefix_refl _) rfl fun c j hx => .inl ?_
      obtain ⟨-, rfl⟩ : b = c ∧ k = j := by simpa using hx
      exact ⟨b, .inl hpc⟩
    | _ => simp [Ide.step, hpc] at h
  | retry p =>
    cases hpc : u.pc p with
    | awake b k =>
      simp only [Ide.step, hpc] at h
      cases h
      refine .setPc (List.prefix_refl _) rfl fun c j hx => .inl ?_
      split_ifs at hx
      · simp at hx
      · obtain ⟨-, rfl⟩ : b = c ∧ k = j := by simpa using hx
        exact ⟨b, .inr hpc⟩
    | _ => simp [Ide.step, hpc] at h
  | finish =>
    obtain ⟨d, -, rfl⟩ := Option.map_eq_some_iff.1 h
    exact .of_eq rfl rfl
  | intr => exact absurd rfl ha

theorem step_frame (h : step s a = some t) : Extends s.drv t.drv ∧ t.returned = s.returned ++ back s a := by
  cases a with
  | drv a =>
    cases a with
    | intr =>
      simp only [step] at h
      split_ifs at h
      obtain ⟨hext, hret⟩ := ideintr_frame h
      exact ⟨⟨hext.asked, hext.waiting⟩, by simpa [back] using hret⟩
    | enter p | retry p =>
      obtain ⟨v, hv, rfl⟩ := Option.map_eq_some_iff.1 h
      exact ⟨step_extends (by simp) hv, rfl⟩
    | _ =>
      obtain ⟨v, hv, rfl⟩ := Option.map_eq_some_iff.1 h
      exact ⟨step_extends (by simp) hv, (List.append_nil _).symm⟩
  | fail x =>
    obtain ⟨d, -, rfl⟩ := Option.map_eq_some_iff.1 h
    exact ⟨.of_eq rfl rfl, (List.append_nil _).symm⟩

/-! ## Runs -/

theorem Inv.step (h : Inv s) (ht : step s a = some t) : Inv t := by
  obtain ⟨hext, hret⟩ := step_frame ht
  have hlen := hext.asked.length_le
  have hback : ∀ e ∈ back s a, e.request < t.drv.asked.length ∧ e.buf.done = true := by
    intro e he
    obtain ⟨p, ha, he⟩ := mem_back he
    obtain ⟨b, hreq, hdone, hbuf, -⟩ := mem_leaves.1 he
    refine ⟨?_, hbuf ▸ hdone⟩
    unfold request at hreq
    cases hpc : s.drv.pc p with
    | awake c k =>
      obtain ⟨hk, -⟩ : k = e.request ∧ c = b := by simpa [hpc] using hreq
      exact hk ▸ (h.waiting p k ⟨c, .inr hpc⟩).trans_le hlen
    | called c =>
      obtain ⟨hk, -⟩ : s.drv.asked.length = e.request ∧ c = b := by simpa [hpc] using hreq
      obtain rfl | rfl := ha
      · obtain ⟨v, hv, rfl⟩ := Option.map_eq_some_iff.1 ht
        simp only [Ide.step, hpc] at hv
        obtain ⟨w, -, hasked, -⟩ := enter_frame hv
        simp [hasked, ← hk]
      · simp [Faults.step, Ide.step, hpc] at ht
    | _ => simp [hpc] at hreq
  refine ⟨fun p k hw => ?_, fun e he => ?_, fun e he => ?_⟩
  · exact (hext.waiting p k hw).elim (fun hw => (h.waiting p k hw).trans_le hlen) id
  · rw [hret, List.mem_append] at he
    exact he.elim (fun he => (h.returned e he).trans_le hlen) fun he => (hback e he).1
  · rw [hret, List.mem_append] at he
    exact he.elim (h.done e) fun he => (hback e he).2

theorem Inv.of_reach (h : (machine ι).Reach s) : Inv s :=
  h.invariant (fun _ h0 => .init h0) fun _ _ _ hs hnext => hs.step hnext

/-! ## Runs without an interrupt for a failed command -/

/-- u with other bytes on the disks and in the data register -/
def withData (u : Ide.St ι) (disk : ℕ → ℕ → Block) (reply : Block) : Ide.St ι :=
  { u with dev := { u.dev with disk, reply } }

omit [DecidableEq ι] in
theorem idestart_withData {disk : ℕ → ℕ → Block} {reply : Block} {b : Fin NBUF} :
    idestart (withData u disk reply) b = (idestart u b).map (withData · disk reply) := by
  unfold idestart withData
  dsimp only
  split_ifs <;> rfl

theorem enter_withData {disk : ℕ → ℕ → Block} {reply : Block} {b : Fin NBUF} :
    enter (withData u disk reply) p b = (enter u p b).map (withData · disk reply) := by
  have happend : append (withData u disk reply) b = (append u b).map (withData · disk reply) := by
    unfold append
    rw [Option.map_map]
    rfl
  have hstart : ∀ w : Ide.St ι, startIf (withData w disk reply) b = (startIf w b).map (withData · disk reply) := by
    intro w
    unfold startIf
    rw [idestart_withData, show (withData w disk reply).next = w.next from rfl]
    split_ifs <;> rfl
  unfold enter
  rw [happend]
  cases append u b with
  | none => rfl
  | some w =>
    simp only [Option.map_some, Option.bind_eq_bind, Option.bind_some, hstart]
    cases startIf w b <;> rfl

/-- a process does not look at the bytes that the device has -/
theorem step_withData {disk : ℕ → ℕ → Block} {reply : Block} {a : Ide.Act ι} (ha : a ≠ .finish) (ha' : a ≠ .intr) :
    Ide.step (withData u disk reply) a = (Ide.step u a).map (withData · disk reply) := by
  have hpc : (withData u disk reply).pc = u.pc := rfl
  cases a with
  | lock p b | unlock p b | edit p b x | call p b =>
    simp only [Ide.step, call, apply_ite (Option.map (withData · disk reply))]
    rfl
  | enter p =>
    simp only [Ide.step, hpc]
    cases u.pc p with
    | called b => exact enter_withData
    | _ => rfl
  | wake p | retry p =>
    simp only [Ide.step, hpc]
    cases u.pc p <;> rfl
  | finish => exact absurd rfl ha
  | intr => exact absurd rfl ha'

/-- a process leaves the results and the interrupt alone -/
theorem step_quiet {a : Ide.Act ι} (ha : a ≠ .finish) (ha' : a ≠ .intr) (h : Ide.step u a = some v) :
    v.served = u.served ∧ v.dev.irq = u.dev.irq := by
  cases a with
  | lock p b | unlock p b | edit p b x =>
    simp only [Ide.step] at h
    split_ifs at h
    cases h
    exact ⟨rfl, rfl⟩
  | call p b =>
    simp only [Ide.step, call] at h
    split_ifs at h
    cases h
    exact ⟨rfl, rfl⟩
  | enter p =>
    cases hpc : u.pc p with
    | called b =>
      simp only [Ide.step, hpc] at h
      obtain ⟨-, -, -, -, hquiet⟩ := enter_frame h
      exact hquiet
    | _ => simp [Ide.step, hpc] at h
  | wake p | retry p =>
    simp only [Ide.step] at h
    split at h
    · cases h
      exact ⟨rfl, rfl⟩
    · cases h
  | finish => exact absurd rfl ha
  | intr => exact absurd rfl ha'

omit [DecidableEq ι] in
/-- a command that fails ends, but for the bytes, like one that does not -/
theorem fail_finish {d e : Device} {x : Block} (h : d.fail x = some e) :
    ∃ d', d.finish = some d' ∧ e = { d' with disk := e.disk, reply := e.reply } ∧ d'.irq = true := by
  unfold Device.fail at h
  unfold Device.finish
  cases hcmd : d.cmd with
  | none => simp [hcmd] at h
  | some c =>
    simp only [hcmd] at h ⊢
    cases hw : c.write <;> simp only [hw] at h <;> obtain rfl := Option.some.inj h <;> exact ⟨_, rfl, rfl, rfl⟩

omit [DecidableEq ι] in
/-- while its interrupt is raised the device is idle, and a process waits for the request it is for -/
theorem raised {disk : ℕ → ℕ → Block} (h : Ide.Inv disk u) (hirq : u.dev.irq = true) :
    u.dev.cmd = none ∧ ∃ b p, u.next none = some b ∧ Waits u p b u.served.length := by
  have hne : u.queue ≠ [] := fun hc => by
    rw [(h.rest hc).2.1] at hirq
    cases hirq
  obtain ⟨b, l, hq⟩ := List.exists_cons_of_ne_nil hne
  have hhead : u.queue.head? = some b := by rw [hq]; rfl
  obtain ⟨p, hp, -⟩ := h.of_head hhead
  obtain ⟨-, ⟨-, hc, -⟩ | ⟨hcmd, -⟩⟩ := h.busy b hhead
  · cases hirq.symm.trans hc
  · exact ⟨hcmd, b, p, h.queue.head.trans hhead, hp⟩

/-- but for the interrupt of a failed command, a step of the driver is one of the model without errors -/
theorem step_drv {a : Ide.Act ι} (hclean : Clean s (.drv a)) (ht : step s (.drv a) = some t) :
    Ide.step s.drv a = some t.drv := by
  cases a with
  | intr =>
    simp only [step, Ide.step] at ht ⊢
    split_ifs at ht ⊢ with hirq
    have hok := ideintr_of_ok (s := { s with drv := { s.drv with dev := { s.drv.dev with irq := false } } }) hclean
    rw [ht] at hok
    exact hok.symm
  | _ =>
    obtain ⟨v, hv, rfl⟩ := Option.map_eq_some_iff.1 ht
    exact hv

/-- no interrupt was for a failed command: the driver is one on which no command has failed, but for the bytes that the
last one may have left, and then its interrupt is raised -/
structure Spotless (s : St ι) : Prop where
  drv : ∃ disk u d r, Ide.Inv disk u ∧ s.drv = withData u d r ∧ (s.drv = u ∨ s.err = true ∧ u.dev.irq = true)
  failed : s.failed = List.replicate s.drv.served.length false

omit [DecidableEq ι] in
theorem Spotless.init (h : Init s) : Spotless s := by
  obtain ⟨disk, hdrv⟩ := h.drv
  refine ⟨⟨disk, s.drv, _, _, .init hdrv, rfl, .inl rfl⟩, ?_⟩
  rw [h.failed, hdrv.served]
  rfl

/-- a process leaves the status register and the record alone -/
theorem step_keeps {a : Ide.Act ι} (ha : a ≠ .finish) (ha' : a ≠ .intr) (ht : step s (.drv a) = some t) :
    t.err = s.err ∧ t.failed = s.failed := by
  cases a with
  | finish => exact absurd rfl ha
  | intr => exact absurd rfl ha'
  | _ =>
    obtain ⟨v, -, rfl⟩ := Option.map_eq_some_iff.1 ht
    exact ⟨rfl, rfl⟩

/-- the record after a step of the driver -/
theorem Spotless.record {a : Ide.Act ι} (h : Spotless s) (hclean : Clean s (.drv a)) (ht : step s (.drv a) = some t) :
    t.failed = List.replicate t.drv.served.length false := by
  obtain ⟨⟨disk, u, d, r, hu, hdrv, -⟩, hfailed⟩ := h
  by_cases hintr : a = .intr
  · subst hintr
    simp only [step] at ht
    split_ifs at ht with hirq
    obtain ⟨-, b, p, hb, -⟩ := raised hu (by rw [hdrv] at hirq; exact hirq)
    obtain ⟨-, -, hlen, -, hf, -⟩ := ideintr_serves (b := b) (by rw [hdrv]; exact hb) ht
    have herr : s.err = false := hclean
    rw [hf, hlen, List.replicate_succ', hfailed]
    exact congrArg _ (congrArg (fun x => [x]) herr)
  by_cases hfinish : a = .finish
  · subst hfinish
    obtain ⟨v, hv, rfl⟩ := Option.map_eq_some_iff.1 ht
    obtain ⟨e, -, rfl⟩ := Option.map_eq_some_iff.1 hv
    exact hfailed
  · rw [(step_keeps hfinish hintr ht).2, (step_quiet hfinish hintr (step_drv hclean ht)).1, hfailed]

/-- **One step.** A step of a process, or of the device, and an interrupt that is not for a failed command. -/
theorem Spotless.step (h : Spotless s) (hclean : Clean s a) (ht : step s a = some t) : Spotless t := by
  cases a with
  | fail x =>
    obtain ⟨⟨disk, u, d, r, hu, hdrv, hlast⟩, hfailed⟩ := h
    obtain ⟨e, he, rfl⟩ := Option.map_eq_some_iff.1 ht
    obtain rfl | ⟨-, hirq⟩ := hlast
    · obtain ⟨d', hfinish, heq, hirq⟩ := fail_finish he
      refine ⟨⟨disk, _, e.disk, e.reply, hu.finish hfinish, ?_, .inr ⟨rfl, hirq⟩⟩, hfailed⟩
      exact congrArg (fun d => { s.drv with dev := d }) heq
    · have hcmd : s.drv.dev.cmd = none := by
        rw [hdrv]
        exact (raised hu hirq).1
      rw [Device.fail, hcmd] at he
      cases he
  | drv a =>
    refine ⟨?_, h.record hclean ht⟩
    obtain ⟨⟨disk, u, d, r, hu, hdrv, hlast⟩, -⟩ := h
    have hstep := step_drv hclean ht
    obtain rfl | ⟨herr, hirq⟩ := hlast
    · exact ⟨disk, t.drv, _, _, hu.step hstep, rfl, .inl rfl⟩
    · -- only processes move: the device waits for its interrupt, which would be for a failed command
      have hintr : a ≠ .intr := by
        rintro rfl
        cases herr.symm.trans hclean
      have hfinish : a ≠ .finish := by
        rintro rfl
        obtain ⟨e, he, -⟩ := Option.map_eq_some_iff.1 hstep
        have hcmd : s.drv.dev.cmd = none := by
          rw [hdrv]
          exact (raised hu hirq).1
        rw [Device.finish, hcmd] at he
        cases he
      rw [hdrv, step_withData hfinish hintr] at hstep
      obtain ⟨w, hw, heq⟩ := Option.map_eq_some_iff.1 hstep
      refine ⟨disk, w, d, r, hu.step hw, heq.symm, .inr ⟨?_, ?_⟩⟩
      · rw [(step_keeps hfinish hintr ht).1]
        exact herr
      · rw [(step_quiet hfinish hintr hw).2]
        exact hirq

omit [DecidableEq ι] in
/-- what is returned then has not failed -/
theorem Spotless.back_ok (h : Spotless s) : ∀ e ∈ back s a, e.failed = false := by
  intro e he
  obtain ⟨p, -, he⟩ := mem_back he
  obtain ⟨b, -, -, -, hf⟩ := mem_leaves.1 he
  rw [hf, h.failed, List.getElem?_replicate]
  split_ifs <;> rfl

theorem honest_of_clean (h : ((machine ι).restrict Clean).Reach s) : Honest s := by
  have hsafe : Spotless s ∧ ∀ e ∈ s.returned, e.failed = false := by
    refine h.invariant (I := fun s => Spotless s ∧ ∀ e ∈ s.returned, e.failed = false) (fun u h0 => ?_) ?_
    · exact ⟨.init h0, by simp [h0.returned]⟩
    · rintro u a v ⟨hu, hall⟩ ⟨hclean, hnext⟩
      refine ⟨hu.step hclean hnext, fun e he => ?_⟩
      rw [(step_frame hnext).2, List.mem_append] at he
      exact he.elim (hall e) (hu.back_ok e)
  exact (Inv.of_reach h.of_restrict).honest_iff.2 hsafe.2

/-- **After the interrupt of a failed command**, the process whose request it was finds its buffer done, and returns. -/
theorem hidden_of_error (h : Spotless s) (hinv : Inv s) (herr : s.err = true) (ht : step s (.drv .intr) = some t) :
    ∃ p v, step t (.drv (.retry p)) = some v ∧ ¬ Honest v := by
  obtain ⟨⟨disk, u, d, r, hu, hdrv, -⟩, hfailed⟩ := h
  have htinv := hinv.step ht
  simp only [step] at ht
  split_ifs at ht with hirq
  obtain ⟨-, b, p, hb, hp⟩ := raised hu (by rw [hdrv] at hirq; exact hirq)
  obtain ⟨hpc, -, -, hbuf, hf, -⟩ := ideintr_serves (b := b) (by rw [hdrv]; exact hb) ht
  have hawake : t.drv.pc p = .awake b s.drv.served.length := by
    rw [hpc, hdrv]
    obtain hp | hp := hp
    · simp [wakeup, withData, hp]
    · simp [wakeup, withData, hp]
  have hdone : (t.drv.buf b).done = true := by
    rw [hbuf]
    rfl
  have hlast : t.failed[s.drv.served.length]? = some true := by
    rw [hf, hfailed, getElem?_snoc]
    exact .inr ⟨List.length_replicate.symm, herr.symm⟩
  obtain ⟨v, hv⟩ : ∃ v, step t (.drv (.retry p)) = some v := by
    simp only [step, Ide.step, hawake, Option.map_some]
    exact ⟨_, rfl⟩
  have hmem : ⟨s.drv.served.length, t.drv.buf b, true⟩ ∈ leaves t p :=
    mem_leaves.2 ⟨b, by simp only [request, hawake], hdone, rfl, by simp [hlast]⟩
  refine ⟨p, v, hv, fun hon => ?_⟩
  have hall := (htinv.step hv).honest_iff.1 hon _ (by rw [(step_frame hv).2]; exact List.mem_append_right _ hmem)
  cases hall

/-- **Errors are hidden as soon as a failed request is served.** In a run in which no interrupt was for a failed command,
no failed read has been returned valid and no failed write clean. A step keeps it so, in all runs that go on without such
an interrupt, exactly if it is not the interrupt of a failed command itself. -/
theorem error_hidden_iff (h : ((machine ι).restrict Clean).Reach s) :
    Honest s ∧ ∀ a t, step s a = some t →
      (Clean s a ↔ ∀ u, (((machine ι).restrict Clean).after t).Reach u → Honest u) := by
  refine ⟨honest_of_clean h, fun a t ht => ⟨fun hclean u hu => ?_, fun hall => ?_⟩⟩
  · exact honest_of_clean (Machine.Reach.after (.step a h ⟨hclean, ht⟩) hu)
  · by_contra hclean
    have hspotless : Spotless s := h.invariant (fun _ h0 => .init h0) fun _ _ _ hs hnext => hs.step hnext.1 hnext.2
    obtain ⟨rfl, herr⟩ : a = .drv .intr ∧ s.err = true := by
      unfold Clean at hclean
      split at hclean
      · exact ⟨rfl, by simpa using hclean⟩
      · exact absurd trivial hclean
    obtain ⟨p, v, hv, hnot⟩ := hidden_of_error hspotless (Inv.of_reach h.of_restrict) herr ht
    exact hnot (hall v (.step (.drv (.retry p)) (.init rfl) ⟨trivial, hv⟩))

end

/-- one process, buffers for block 5 with nothing in them -/
def atRest : St Unit where
  drv :=
    { buf := fun _ => ⟨1, 5, false, false, fun _ => 0⟩
      next := fun _ => none
      lock := fun _ => none
      pc := fun _ => .out
      dev := ⟨fun _ _ _ => 3, none, false, fun _ => 0⟩
      havedisk1 := true
      asked := []
      served := [] }
  err := false
  failed := []
  returned := []

/-- a request for the first buffer whose command fails; what: what is done to the buffer first -/
def failing (what : List (Act Unit)) : List (Act Unit) :=
  .drv (.lock () ⟨0, by decide⟩) :: what ++
    [.drv (.call () ⟨0, by decide⟩), .drv (.enter ()), .fail fun _ => 0]

/-- the buffer is given data to write -/
def filling : Act Unit := .drv (.edit () ⟨0, by decide⟩ ⟨1, 5, true, true, fun _ => 9⟩)

theorem atRest_init : Init atRest :=
  ⟨⟨_, fun _ => rfl, fun _ => rfl, fun _ => rfl, rfl, rfl, rfl, rfl, rfl⟩, rfl, rfl⟩

/-- A read fails. Its interrupt breaks the condition, and a run that goes on from there hides the error. -/
theorem error_hidden_iff_failed_read : ∃ s t, step s (.drv .intr) = some t ∧ ¬ Clean s (.drv .intr) ∧ Honest s ∧
    ∃ u, (((machine Unit).restrict Clean).after t).Reach u ∧ ¬ Honest u := by
  have hrun : ((failing []).foldlM (fun s a => if Clean s a then step s a else none) atRest).map
      (fun s => ((step s (.drv .intr)).isSome, decide (Clean s (.drv .intr)))) = some (true, false) := by decide +kernel
  obtain ⟨s, hs, hres⟩ := Option.map_eq_some_iff.1 hrun
  obtain ⟨hsome, hclean⟩ : (step s (.drv .intr)).isSome ∧ ¬ Clean s (.drv .intr) := by simpa using hres
  obtain ⟨t, ht⟩ := Option.isSome_iff_exists.1 hsome
  obtain ⟨hon, hiff⟩ := error_hidden_iff (Machine.Reach.foldlM_restrict (failing []) (.init atRest_init) hs)
  have hnot : ¬ ∀ u, (((machine Unit).restrict Clean).after t).Reach u → Honest u := fun h => hclean ((hiff _ t ht).2 h)
  push Not at hnot
  exact ⟨s, t, ht, hclean, hon, hnot⟩

/-- what can be seen of a run: which requests were writes; which returned, did it fail, is its buffer valid, is it dirty -/
def seen (s : St Unit) : List Bool × List (ℕ × Bool × Bool × Bool) :=
  (s.drv.asked.map (·.was.dirty), s.returned.map fun e => (e.request, e.failed, e.buf.valid, e.buf.dirty))

theorem not_honest_of_seen {s : St Unit} {l : List Bool} {k : ℕ} {x y : Bool} (h : (machine Unit).Reach s)
    (hs : seen s = (l, [(k, true, x, y)])) : ¬ Honest s := by
  have hmem : (k, true, x, y) ∈ (seen s).2 := by simp [hs]
  obtain ⟨e, he, heq⟩ := List.mem_map.1 hmem
  have hf : e.failed = true := by simpa using congrArg (fun r => r.2.1) heq
  intro hon
  cases hf.symm.trans ((Inv.of_reach h).honest_iff.1 hon e he)

/-- A failed read is returned valid, and a failed write clean. -/
theorem failed_read_valid_failed_write_clean :
    (∃ s, (machine Unit).Reach s ∧ seen s = ([false], [(0, true, true, false)]) ∧ ¬ Honest s) ∧
    ∃ s, (machine Unit).Reach s ∧ seen s = ([true], [(0, true, true, false)]) ∧ ¬ Honest s := by
  constructor
  · have hrun : ((failing [] ++ [Act.drv .intr, .drv (.retry ())]).foldlM step atRest).map seen =
        some ([false], [(0, true, true, false)]) := by decide +kernel
    obtain ⟨s, hs, hres⟩ := Option.map_eq_some_iff.1 hrun
    have hreach := Machine.Reach.foldlM _ (.init atRest_init) hs
    exact ⟨s, hreach, hres, not_honest_of_seen hreach hres⟩
  · have hrun : ((failing [filling] ++ [Act.drv .intr, .drv (.retry ())]).foldlM step atRest).map seen =
        some ([true], [(0, true, true, false)]) := by decide +kernel
    obtain ⟨s, hs, hres⟩ := Option.map_eq_some_iff.1 hrun
    have hreach := Machine.Reach.foldlM _ (.init atRest_init) hs
    exact ⟨s, hreach, hres, not_honest_of_seen hreach hres⟩

end Faults

end Xv6.Ide
