/-
Processes that write to one open file.

Each process makes its `filewrite` calls on the same `struct file`. A chunk is three steps, between which the others run:
`begin_op`, the part between `ilock` and `iunlock` (in which the offset is read, used and moved), and `end_op`. The state
keeps the chunks written so far, in the order of their locked parts.

`shared_writers`: as long as the file can hold what is written, in every interleaving the chunks lie one after the other
from the first offset on, in that order, the offset is behind them, and each process's bytes come in its own order.
-/
import Xv6.Fs.Write

namespace Xv6.Fs

open Xv6.Bytes Xv6.Wp Function

/-! ## The system -/

/-- where a process is in the loop of `filewrite`; r: what `writei` has returned -/
inductive Stage where
  | out
  | inOp
  | wrote (r : ℤ)
deriving DecidableEq

/-- the calls that are not over, each as the bytes it has still to write -/
structure Writer where
  calls : List (List Byte)
  stage : Stage

/-- the chunks written, with their processes, in the order of their locked parts -/
structure Writers (P : Type) where
  fs : St
  writer : P → Writer
  hist : List (P × List Byte)

/-- a list of bytes as the memory it is written from -/
def bytesAt (d : List Byte) : Store := fun x => d.getD x 0

section

variable {P : Type} [DecidableEq P]

/-- one step of process p; none: it has to wait, or there is nothing left, or the kernel panics -/
def Writers.step (f : Fin NFILE) (σ : Writers P) (p : P) : Option (Writers P) :=
  match (σ.writer p).stage, (σ.writer p).calls with
  | _, [] => none
  | .out, d :: rest =>
    if d = [] then some { σ with writer := Function.update σ.writer p ⟨rest, .out⟩ }
    else
      match beginOp σ.fs with
      | .ok _ t => some { σ with fs := t, writer := Function.update σ.writer p ⟨d :: rest, .inOp⟩ }
      | .error _ _ => none
  | .inOp, d :: rest =>
    match writeSection f (bytesAt d) (min d.length maxWrite) σ.fs with
    | .ok r t => some
      { fs := t
        writer := Function.update σ.writer p ⟨d :: rest, .wrote r⟩
        hist := if r < 0 then σ.hist else σ.hist ++ [(p, d.take r.toNat)] }
    | .error _ _ => none
  | .wrote r, d :: rest =>
    match endOp σ.fs with
    | .ok _ t =>
      if r < 0 then some { σ with fs := t, writer := Function.update σ.writer p ⟨rest, .out⟩ }
      else if r ≠ min d.length maxWrite then none
      else some { σ with fs := t, writer := Function.update σ.writer p ⟨d.drop r.toNat :: rest, .out⟩ }
    | .error _ _ => none

/-- the processes start with the calls `data`, on the file system s -/
def Writers.machine (f : Fin NFILE) (s : St) (data : P → List (List Byte)) : Machine (Writers P) P :=
  Machine.ofStep (fun σ => σ = ⟨s, fun p => ⟨data p, .out⟩, []⟩) (Writers.step f)

/-- what a process has still to write -/
def Writer.pending (w : Writer) : List Byte :=
  match w.stage, w.calls with
  | .wrote r, d :: rest => d.drop r.toNat ++ rest.flatten
  | _, calls => calls.flatten

/-- all that has been written -/
def Writers.written (σ : Writers P) : List Byte := σ.hist.flatMap Prod.snd

/-- what process p has written -/
def Writers.wroteBy (σ : Writers P) (p : P) : List Byte := (σ.hist.filter fun x => x.1 = p).flatMap Prod.snd

/-! ## What a step keeps -/

variable {sb : Superblock} {m m' : ℕ → Dinode} {k : Fin NINODE} {i : ℕ} {f : Fin NFILE} {s t : St} {src src' : Store} {off n : ℕ}
  {data : P → List (List Byte)} {σ σ' : Writers P}

theorem Stored.congr_right {t' : St} (h : Stored sb i f m s src off n m' t) (hd : t'.disk = t.disk)
    (hf : t'.out.file f = t.out.file f) : Stored sb i f m s src off n m' t' :=
  ⟨fun j p => by rw [hd]; exact h.bytes j p, h.size, by rw [fileOff, hf]; exact h.off⟩

theorem Stored.congr_src (h : Stored sb i f m s src off n m' t) (hsrc : ∀ x < n, src' x = src x) :
    Stored sb i f m s src' off n m' t := by
  refine ⟨fun j p => ?_, h.size, h.off⟩
  rw [h.bytes]
  by_cases hp : j = i ∧ off ≤ p ∧ p < off + n
  · rw [if_pos hp, if_pos hp, hsrc _ (by omega)]
  · rw [if_neg hp, if_neg hp]

/-- the chunk c after the bytes l -/
theorem Stored.append {l c : List Byte} {u : St} {m'' : ℕ → Dinode} (h : Stored sb i f m s (bytesAt l) off l.length m' t)
    (h' : Stored sb i f m' t src (off + l.length) c.length m'' u) (hsrc : ∀ x < c.length, src x = c.getD x 0) :
    Stored sb i f m s (bytesAt (l ++ c)) off (l ++ c).length m'' u := by
  rw [List.length_append]
  refine (h.congr_src fun x hx => ?_).trans (h'.congr_src fun x hx => ?_)
  · rw [bytesAt, bytesAt, List.getD_eq_getElem?_getD, List.getD_eq_getElem?_getD, List.getElem?_append_left hx]
  · rw [hsrc x hx, bytesAt, List.getD_eq_getElem?_getD, List.getD_eq_getElem?_getD,
      List.getElem?_append_right (Nat.le_add_right _ _), Nat.add_sub_cancel_left]

/-- the file holds what has been written, and every process has written the first part of its bytes -/
structure Writers.Inv (sb : Superblock) (k : Fin NINODE) (i : ℕ) (f : Fin NFILE) (m : ℕ → Dinode) (s : St)
    (data : P → List (List Byte)) (σ : Writers P) : Prop where
  file : ∃ m', Opened sb k i f m' σ.fs ∧ Stored sb i f m s (bytesAt σ.written) (fileOff f s) σ.written.length m' σ.fs
  own : ∀ p, σ.wroteBy p ++ (σ.writer p).pending = (data p).flatten
  accepted : ∀ p r, (σ.writer p).stage = .wrote r → ∃ d rest, (σ.writer p).calls = d :: rest ∧ r = min d.length maxWrite

/-- all bytes written are those of the processes -/
theorem length_written [Fintype P] (σ : Writers P) : σ.written.length = ∑ p, (σ.wroteBy p).length := by
  unfold Writers.written Writers.wroteBy
  induction σ.hist with
  | nil => simp
  | cons x l ih =>
    have hcons : ∀ p, (((x :: l).filter fun y => y.1 = p).flatMap Prod.snd).length =
        (if x.1 = p then x.2.length else 0) + ((l.filter fun y => y.1 = p).flatMap Prod.snd).length := by
      intro p
      rw [List.filter_cons]
      by_cases hp : x.1 = p
      · simp [hp]
      · simp [hp]
    simp only [hcons]
    rw [List.flatMap_cons, List.length_append, ih, Finset.sum_add_distrib, Finset.sum_ite_eq, if_pos (Finset.mem_univ _)]

/-- what is pending still fits -/
theorem Writers.Inv.room [Fintype P] (h : σ.Inv sb k i f m s data) (p : P) :
    σ.written.length + (σ.writer p).pending.length ≤ ∑ p, (data p).flatten.length := by
  rw [length_written]
  calc ∑ q, (σ.wroteBy q).length + (σ.writer p).pending.length
      ≤ ∑ q, (σ.wroteBy q).length + ∑ q, (σ.writer q).pending.length :=
        Nat.add_le_add_left (Finset.single_le_sum (f := fun q => (σ.writer q).pending.length) (fun q _ => Nat.zero_le _)
          (Finset.mem_univ p)) _
    _ = ∑ q, ((σ.wroteBy q).length + (σ.writer q).pending.length) := Finset.sum_add_distrib.symm
    _ = ∑ q, (data q).flatten.length := Finset.sum_congr rfl fun q _ => by rw [← h.own q, List.length_append]

/-- a step of process p that writes nothing and leaves it with the same bytes to write -/
theorem Writers.Inv.quiet (h : σ.Inv sb k i f m s data) {p : P} {w : Writer}
    (hfile : ∀ m', Opened sb k i f m' σ.fs → Opened sb k i f m' t ∧ t.disk = σ.fs.disk ∧ t.out.file f = σ.fs.out.file f)
    (hw : w.pending = (σ.writer p).pending) (hstage : ∀ r, w.stage ≠ .wrote r) :
    Writers.Inv sb k i f m s data { σ with fs := t, writer := update σ.writer p w } := by
  obtain ⟨m', hop, hst⟩ := h.file
  obtain ⟨hop', hd, hf⟩ := hfile m' hop
  refine ⟨⟨m', hop', hst.congr_right hd hf⟩, fun q => ?_, fun q r hq => ?_⟩
  · have hown := h.own q
    by_cases hqp : q = p
    · subst hqp
      rw [← hown, ← hw]
      simp only [update_self]
      rfl
    · simp only [update_of_ne hqp]
      exact hown
  · by_cases hqp : q = p
    · subst hqp
      simp only [update_self] at hq
      exact absurd hq (hstage r)
    · simp only [update_of_ne hqp] at hq ⊢
      exact h.accepted q r hq

/-- the locked part of a chunk of process p -/
theorem Writers.Inv.section [Fintype P] (wf : sb.WF) (h : σ.Inv sb k i f m s data) (hoff : fileOff f s ≤ (m i).size.toNat)
    (htotal : fileOff f s + ∑ p, (data p).flatten.length ≤ MAXFILE * BSIZE) {p : P} {d : List Byte} {rest : List (List Byte)}
    {r : ℤ} (hcalls : (σ.writer p).calls = d :: rest) (hstage : (σ.writer p).stage = .inOp)
    (hrun : writeSection f (bytesAt d) (min d.length maxWrite) σ.fs = .ok r t) :
    Writers.Inv sb k i f m s data
      { fs := t
        writer := update σ.writer p ⟨d :: rest, .wrote r⟩
        hist := if r < 0 then σ.hist else σ.hist ++ [(p, d.take r.toNat)] } := by
  obtain ⟨m', hop, hst⟩ := h.file
  have hpend : (σ.writer p).pending = d ++ rest.flatten := by
    rw [Writer.pending, hstage, hcalls]
    rfl
  have hroom := h.room p
  rw [hpend, List.length_append] at hroom
  have hat := hst.off
  have hsize := hst.size
  obtain ⟨m'', hop', ⟨-, href, -⟩ | ⟨rfl, -, -, hst'⟩⟩ := wp_ok (wp_writeSection wf hop (min_le_right d.length maxWrite)) hrun
  · exfalso
    rw [hat] at href
    split_ifs at hsize <;> omega
  have hnot : ¬ ((min d.length maxWrite : ℕ) : ℤ) < 0 := by omega
  rw [if_neg hnot, Int.toNat_natCast]
  have hlen : (d.take (min d.length maxWrite)).length = min d.length maxWrite := by
    rw [List.length_take]
    omega
  refine ⟨⟨m'', hop', ?_⟩, fun q => ?_, fun q r hq => ?_⟩
  · rw [hat] at hst'
    have happend := hst.append (c := d.take (min d.length maxWrite)) (by rw [hlen]; exact hst') fun x hx => by
      rw [hlen] at hx
      rw [bytesAt, List.getD_eq_getElem?_getD, List.getD_eq_getElem?_getD, List.getElem?_take, if_pos hx]
    have hwritten : (σ.hist ++ [(p, d.take (min d.length maxWrite))]).flatMap Prod.snd =
        σ.written ++ d.take (min d.length maxWrite) := by
      rw [List.flatMap_append, List.flatMap_singleton]
      rfl
    rw [Writers.written, hwritten]
    exact happend
  · have hown := h.own q
    rw [Writers.wroteBy, List.filter_append, List.flatMap_append]
    by_cases hqp : q = p
    · subst hqp
      rw [hpend] at hown
      rw [← hown]
      simp only [update_self, List.filter_singleton, decide_true, cond_true, List.flatMap_singleton, Writer.pending,
        Int.toNat_natCast]
      rw [List.append_assoc, ← List.append_assoc (d.take _), List.take_append_drop]
      rfl
    · have hpq : p ≠ q := Ne.symm hqp
      simp only [update_of_ne hqp, List.filter_singleton, hpq, decide_false, cond_false, List.flatMap_nil,
        List.append_nil]
      exact hown
  · by_cases hqp : q = p
    · subst hqp
      simp only [update_self] at hq ⊢
      exact ⟨d, rest, rfl, (Stage.wrote.inj hq).symm⟩
    · simp only [update_of_ne hqp] at hq ⊢
      exact h.accepted q r hq

/-- **Every step of every process.** -/
theorem Writers.Inv.step [Fintype P] (wf : sb.WF) (h : σ.Inv sb k i f m s data) (hoff : fileOff f s ≤ (m i).size.toNat)
    (htotal : fileOff f s + ∑ p, (data p).flatten.length ≤ MAXFILE * BSIZE) {p : P} (hstep : σ.step f p = some σ') :
    σ'.Inv sb k i f m s data := by
  unfold Writers.step at hstep
  cases hcalls : (σ.writer p).calls with
  | nil =>
    rw [hcalls] at hstep
    cases hstep
  | cons d rest =>
    cases hstage : (σ.writer p).stage with
    | out =>
      have hpend : (σ.writer p).pending = d ++ rest.flatten := by
        rw [Writer.pending, hstage, hcalls]
        rfl
      rw [hcalls, hstage] at hstep
      dsimp only at hstep
      split_ifs at hstep with hd
      · cases hstep
        refine h.quiet (fun m' hop => ⟨hop, rfl, rfl⟩) ?_ nofun
        rw [hpend, hd]
        rfl
      · cases hrun : beginOp σ.fs with
        | error e t =>
          rw [hrun] at hstep
          cases hstep
        | ok x t =>
          rw [hrun] at hstep
          cases hstep
          refine h.quiet (fun m' hop => ?_) hpend.symm nofun
          have hbegin := wp_ok (wp_beginOp hop) hrun
          exact hbegin
    | inOp =>
      rw [hcalls, hstage] at hstep
      dsimp only at hstep
      cases hrun : writeSection f (bytesAt d) (min d.length maxWrite) σ.fs with
      | error e t =>
        rw [hrun] at hstep
        cases hstep
      | ok r t =>
        rw [hrun] at hstep
        cases hstep
        exact Writers.Inv.section wf h hoff htotal hcalls hstage hrun
    | wrote r =>
      obtain ⟨d', rest', hcalls', hr⟩ := h.accepted p r hstage
      obtain ⟨rfl, rfl⟩ := List.cons.inj (hcalls.symm.trans hcalls')
      have hpend : (σ.writer p).pending = d.drop r.toNat ++ rest.flatten := by
        rw [Writer.pending, hstage, hcalls]
      rw [hcalls, hstage] at hstep
      dsimp only at hstep
      cases hrun : endOp σ.fs with
      | error e t =>
        rw [hrun] at hstep
        cases hstep
      | ok x t =>
        rw [hrun] at hstep
        dsimp only at hstep
        rw [if_neg (by omega), if_neg (not_not.2 hr)] at hstep
        cases hstep
        refine h.quiet (fun m' hop => ?_) hpend.symm nofun
        have hend := wp_ok (wp_endOp hop) hrun
        exact hend

theorem Writers.Inv.of_reach [Fintype P] (wf : sb.WF) (h : Opened sb k i f m s) (hoff : fileOff f s ≤ (m i).size.toNat)
    (htotal : fileOff f s + ∑ p, (data p).flatten.length ≤ MAXFILE * BSIZE) (hσ : (Writers.machine f s data).Reach σ) :
    σ.Inv sb k i f m s data := by
  refine hσ.invariant (I := fun σ => σ.Inv sb k i f m s data) ?_ fun _ _ _ hinv hstep => hinv.step wf hoff htotal hstep
  rintro _ rfl
  exact ⟨⟨m, h, Stored.zero rfl rfl⟩, fun p => rfl, nofun⟩

/-! ## Every run -/

/-- the chunks lie one after the other from the first offset on, nothing else has changed, the offset is behind them, and
each process's bytes come in its own order -/
structure InOrder (sb : Superblock) (k : Fin NINODE) (i : ℕ) (f : Fin NFILE) (m : ℕ → Dinode) (s : St)
    (data : P → List (List Byte)) (σ : Writers P) (m' : ℕ → Dinode) : Prop where
  opened : Opened sb k i f m' σ.fs
  chunks : ∀ (before : List (P × List Byte)) (p : P) (c : List Byte) (after : List (P × List Byte)),
    σ.hist = before ++ (p, c) :: after → ∀ x (hx : x < c.length),
      contents sb m' σ.fs.disk i (fileOff f s + (before.flatMap Prod.snd).length + x) = c.get ⟨x, hx⟩
  rest : ∀ j p, ¬ (j = i ∧ fileOff f s ≤ p ∧ p < fileOff f s + σ.written.length) →
    contents sb m' σ.fs.disk j p = contents sb m s.disk j p
  off : fileOff f σ.fs = fileOff f s + σ.written.length
  order : ∀ p, σ.wroteBy p ++ (σ.writer p).pending = (data p).flatten

/-- **Writers that share a file** lose no data: in every interleaving of their chunks, as long as the file can hold what is
written, the chunks are in order; when all calls are over, the offset has moved by the length of all data. -/
theorem shared_writers [Fintype P] (wf : sb.WF) (h : Opened sb k i f m s) (hoff : fileOff f s ≤ (m i).size.toNat)
    (htotal : fileOff f s + ∑ p, (data p).flatten.length ≤ MAXFILE * BSIZE) (hσ : (Writers.machine f s data).Reach σ) :
    (∃ m', InOrder sb k i f m s data σ m') ∧
      ((∀ p, (σ.writer p).calls = []) → fileOff f σ.fs = fileOff f s + ∑ p, (data p).flatten.length) := by
  have hinv := Writers.Inv.of_reach wf h hoff htotal hσ
  obtain ⟨m', hop, hst⟩ := hinv.file
  refine ⟨⟨m', hop, fun before p c after hhist x hx => ?_, fun j p hout => ?_, hst.off, hinv.own⟩, fun hdone => ?_⟩
  · have hwritten : σ.written = before.flatMap Prod.snd ++ (c ++ after.flatMap Prod.snd) := by
      rw [Writers.written, hhist, List.flatMap_append, List.flatMap_cons]
    have hlt : (before.flatMap Prod.snd).length + x < σ.written.length := by
      rw [hwritten, List.length_append, List.length_append]
      omega
    rw [hst.bytes, if_pos ⟨rfl, by omega, by omega⟩, Nat.add_assoc, Nat.add_sub_cancel_left, bytesAt, hwritten,
      List.getD_eq_getElem?_getD, List.getElem?_append_right (Nat.le_add_right _ _), Nat.add_sub_cancel_left,
      List.getElem?_append_left hx, List.getElem?_eq_getElem hx]
    rfl
  · rw [hst.bytes, if_neg hout]
  · have hown : ∀ p, σ.wroteBy p = (data p).flatten := fun p => by
      have hnil : (σ.writer p).pending = [] := by
        rw [Writer.pending, hdone p]
        cases (σ.writer p).stage <;> rfl
      rw [← hinv.own p, hnil, List.append_nil]
    rw [hst.off, length_written]
    simp only [hown]

/-- the bytes of two processes -/
def twoWriters (p : Bool) : List (List Byte) := if p then [[3], [4]] else [[1, 2]]

/-- Two processes: the second gets in between the `begin_op` and the chunk of the first. -/
theorem shared_writers_two : ∃ σ : Writers Bool, (Writers.machine file0 (smallState 0 0) twoWriters).Reach σ ∧
    σ.hist = [(true, [3]), (false, [1, 2])] ∧ ∃ m',
      InOrder smallSb entry0 1 file0 (view smallSb (smallState 0 0).disk).inode (smallState 0 0) twoWriters σ m' := by
  have hsome : (match [false, true, true, false, true].foldlM (Writers.step file0)
      ⟨smallState 0 0, fun p => ⟨twoWriters p, .out⟩, []⟩ with
    | some σ => decide (σ.hist = [(true, [3]), (false, [1, 2])])
    | none => false) = true := by decide +kernel
  cases hrun : [false, true, true, false, true].foldlM (Writers.step file0)
      ⟨smallState 0 0, fun p => ⟨twoWriters p, .out⟩, []⟩ with
  | none =>
    rw [hrun] at hsome
    cases hsome
  | some σ =>
    rw [hrun] at hsome
    have hreach : (Writers.machine file0 (smallState 0 0) twoWriters).Reach σ := Machine.Reach.foldlM _ (.init rfl) hrun
    exact ⟨σ, hreach, of_decide_eq_true hsome, (shared_writers smallSb_wf (smallState_opened 0 (by decide)) (Nat.zero_le _)
      (by decide) hreach).1⟩

end

end Xv6.Fs
