/-
The console delivers the lines as they were edited.

`Line` is a line discipline without a ring: a pending line that is being edited, the bytes committed and not read yet, and
the record of all bytes committed and consumed. `edited` is the console that keeps its bytes that way. The ring stores a
`Line` (`Stored`), and both functions of the driver keep it so:
- `key_stored`, `readLoop_stored`: one byte typed, one run of the loop of `consoleread`;
- `Line.read_took`: what a read takes from the committed bytes;
- `console_delivers`: every run of the driver is a run of `edited` with the same bytes copied out and the same returns.
-/
import Xv6.Console.Model
import Xv6.Core.Ring

namespace Xv6.Console

open Xv6.Bytes Xv6.Ring

/-! ## The discipline -/

structure Line where
  pending : List Byte
  unread : List Byte
  committed : List Byte
  consumed : List Byte

/-- a byte is appended to the pending line, which its end or a full buffer commits -/
def Line.append (l : Line) (c : Byte) : Line :=
  if c = newline ∨ c = ctrl 'D' ∨ l.unread.length + (l.pending ++ [c]).length = INPUT_BUF then
    { l with
      pending := []
      unread := l.unread ++ (l.pending ++ [c])
      committed := l.committed ++ (l.pending ++ [c]) }
  else { l with pending := l.pending ++ [c] }

/-- a byte is typed; none: reboot -/
def Line.type (l : Line) (c : Byte) : Option Line :=
  if c = ctrl 'Z' then none
  else if c = 0 ∨ c = ctrl 'P' then some l
  else if c = ctrl 'H' ∨ c = 0x7f then some { l with pending := l.pending.dropLast }
  else if c = ctrl 'U' then some { l with pending := [] }
  else if l.unread.length + l.pending.length = INPUT_BUF then some l
  else some (l.append (if c = 13 then newline else c))

/-- a read takes bytes up to the end of a line; a ^D ends it, and is consumed if nothing has been delivered -/
def Line.read (killed : Bool) (target : ℕ) : ℕ → Line → Line × List Byte × Exit
  | 0, l => (l, [], .ret target)
  | n + 1, l =>
    match l.unread with
    | [] => (l, [], if killed then .ret (-1) else .sleep (n + 1))
    | c :: rest =>
      let eaten := { l with unread := rest, consumed := l.consumed ++ [c] }
      if c = ctrl 'D' then (if n + 1 = target then eaten else l, [], .ret (target - (n + 1)))
      else if c = newline then (eaten, [c], .ret (target - n))
      else
        let x := Line.read killed target n eaten
        (x.1, c :: x.2.1, x.2.2)

def edited : Discipline Line := ⟨fun l cs => cs.foldlM Line.type l, Line.read⟩

/-- neither the end of a line nor of a file -/
def Plain (c : Byte) : Prop := c ≠ newline ∧ c ≠ ctrl 'D'

/-! ## The ring stores a line -/

/-- w is r and the bytes to be read, and the pending ones follow -/
structure Stored (s : Input) (l : Line) : Prop where
  ring : Rep INPUT_BUF s.buf s.r s.e (l.unread ++ l.pending)
  write : s.w = s.r + BitVec.ofNat 32 l.unread.length
  plain : ∀ c ∈ l.pending, Plain c

namespace Stored

variable {s : Input} {l : Line} {c : Byte}

theorem dvd_wrap : INPUT_BUF ∣ 2 ^ 32 := by decide

theorem lt_wrap : INPUT_BUF < 2 ^ 32 := by decide

/-- the committed part, as a ring of its own -/
theorem unread (h : Stored s l) : Rep INPUT_BUF s.buf s.r s.w l.unread := by
  refine ⟨?_, h.write, fun k b hk => h.ring.cell k b ?_⟩
  · have := h.ring.fits
    rw [List.length_append] at this
    omega
  · rw [List.getElem?_append_left (List.getElem?_eq_some_iff.1 hk).1]
    exact hk

theorem edit_eq (h : Stored s l) : s.e = s.w + BitVec.ofNat 32 l.pending.length := by
  rw [h.ring.count, h.write, List.length_append, BitVec.ofNat_add, BitVec.add_assoc]

theorem pending_iff (h : Stored s l) : s.e = s.w ↔ l.pending = [] := by
  have hrep : Rep INPUT_BUF s.buf s.w s.e l.pending := by
    refine ⟨?_, h.edit_eq, fun k b hk => ?_⟩
    · have := h.ring.fits
      rw [List.length_append] at this
      omega
    · have hcell := h.ring.cell (l.unread.length + k) b (by
        rw [List.getElem?_append_right (Nat.le_add_right _ _), Nat.add_sub_cancel_left]
        exact hk)
      rw [← hcell, ← Nat.add_assoc, Nat.add_mod, h.unread.end_cell dvd_wrap, ← Nat.add_mod]
  rw [eq_comm]
  exact hrep.empty_iff lt_wrap

/-- the last pending byte is taken back -/
theorem unput {q : List Byte} (h : Stored s l) (hq : l.pending = q ++ [c]) :
    s.cell (s.e - 1) = c ∧ Stored { s with e := s.e - 1 } { l with pending := q } := by
  have hring := h.ring
  rw [hq, ← List.append_assoc] at hring
  refine ⟨hring.last dvd_wrap, hring.unpush, h.write, fun x hx => h.plain x ?_⟩
  rw [hq]
  exact List.mem_append_left _ hx

/-- ^U takes back all that is pending -/
theorem killed (h : Stored s l) : Stored (killLoop l.pending.length s) { l with pending := [] } := by
  obtain ⟨pending, un, co, eat⟩ := l
  -- from the end, since that is where the loop works
  induction pending using List.reverseRecOn generalizing s with
  | nil => exact h
  | append_singleton q c ih =>
    have hne : s.e ≠ s.w := fun heq => by simpa using h.pending_iff.1 heq
    obtain ⟨hcell, hnext⟩ := h.unput rfl
    have hnl : c ≠ newline := (h.plain c (by simp)).1
    simp only [List.length_append, List.length_singleton, killLoop]
    rw [if_pos ⟨hne, hcell ▸ hnl⟩]
    exact ih hnext

/-- a byte is stored -/
theorem put (h : Stored s l) (hroom : l.unread.length + l.pending.length < INPUT_BUF) :
    Stored (put s c) (l.append c) := by
  have hpush := h.ring.push dvd_wrap (by rwa [List.length_append]) c
  rw [List.append_assoc] at hpush
  have hfull := hpush.full_iff lt_wrap
  rw [List.length_append] at hfull
  unfold Console.put Line.append
  simp only [hfull]
  split_ifs with hend
  · refine ⟨by simpa using hpush, hpush.count, by simp⟩
  · refine ⟨hpush, h.write, fun x hx => ?_⟩
    obtain hx | hx := List.mem_append.1 hx
    · exact h.plain x hx
    · obtain rfl := List.mem_singleton.1 hx
      exact ⟨fun hc => hend (.inl hc), fun hc => hend (.inr (.inl hc))⟩

end Stored

variable {s : Input} {l : Line} {c : Byte}

/-- One byte typed: the ring still stores the line. -/
theorem key_stored (h : Stored s l) (c : Byte) : Option.Rel Stored (key s c) (l.type c) := by
  have hsize := h.ring.size Stored.lt_wrap
  have hfits := h.ring.fits
  rw [List.length_append] at hsize hfits
  unfold key Line.type
  by_cases hz : c = ctrl 'Z'
  · rw [if_pos hz, if_pos hz]
    exact .none
  rw [if_neg hz, if_neg hz]
  by_cases hp : c = ctrl 'P'
  · rw [if_pos hp, if_pos (.inr hp)]
    exact .some h
  rw [if_neg hp]
  by_cases hu : c = ctrl 'U'
  · subst hu
    rw [if_pos rfl, if_neg (by decide), if_neg (by decide), if_pos rfl]
    have hcount : (s.e - s.w).toNat = l.pending.length := by
      rw [h.edit_eq, BitVec.add_comm, BitVec.add_sub_cancel, BitVec.toNat_ofNat, Nat.mod_eq_of_lt]
      exact lt_of_le_of_lt (by omega) Stored.lt_wrap
    rw [hcount]
    exact .some h.killed
  rw [if_neg hu]
  by_cases hh : c = ctrl 'H' ∨ c = 0x7f
  · have h0 : ¬ (c = 0 ∨ c = ctrl 'P') := by
      obtain rfl | rfl := hh <;> decide
    rw [if_pos hh, if_neg h0, if_pos hh]
    refine .some ?_
    obtain hnil | ⟨q, b, hq⟩ := List.eq_nil_or_concat l.pending
    · rw [if_neg (not_not.2 (h.pending_iff.2 hnil)), hnil, List.dropLast_nil, ← hnil]
      exact h
    · have hne : s.e ≠ s.w := fun heq => by simpa [hq] using h.pending_iff.1 heq
      rw [if_pos hne, hq, List.concat_eq_append, List.dropLast_concat]
      exact (h.unput (by simpa using hq)).2
  rw [if_neg hh]
  by_cases h0 : c = 0
  · rw [if_neg (fun hc => hc.1 h0), if_pos (.inl h0)]
    exact .some h
  rw [if_neg (not_or.2 ⟨h0, hp⟩), if_neg hh, if_neg hu]
  by_cases hfull : l.unread.length + l.pending.length = INPUT_BUF
  · rw [if_neg (fun hc => by omega), if_pos hfull]
    exact .some h
  · rw [if_pos ⟨h0, by omega⟩, if_neg hfull]
    exact .some (h.put (by omega))

theorem consoleintr_stored (h : Stored s l) (cs : List Byte) :
    Option.Rel Stored (console.intr s cs) (edited.intr l cs) := by
  change Option.Rel Stored (cs.foldlM key s) (cs.foldlM Line.type l)
  induction cs generalizing s l with
  | nil => exact .some h
  | cons c cs ih =>
    rw [List.foldlM_cons, List.foldlM_cons]
    have hkey := key_stored h c
    generalize key s c = x at hkey ⊢
    generalize l.type c = y at hkey ⊢
    cases hkey with
    | some hnext => exact ih hnext
    | none => exact .none

/-- One run of the loop of `consoleread`: the same bytes, the same end. -/
theorem readLoop_stored (killed : Bool) {target n : ℕ} (h : Stored s l) (hn : n ≤ target) :
    Stored (readLoop killed target n s).1 (l.read killed target n).1 ∧
      (readLoop killed target n s).2 = (l.read killed target n).2 := by
  induction n generalizing s l with
  | zero => exact ⟨h, rfl⟩
  | succ n ih =>
    have hempty := h.unread.empty_iff Stored.lt_wrap
    cases hl : l.unread with
    | nil =>
      simp only [readLoop, Line.read, hl, if_pos (hempty.2 hl), and_true]
      exact h
    | cons c rest =>
      have hne : s.r ≠ s.w := fun heq => by simpa [hl] using hempty.1 heq
      have hring := h.ring
      rw [hl, List.cons_append] at hring
      have hcell : s.cell s.r = c := hring.front
      have hpop : Stored { s with r := s.r + 1 } { l with unread := rest, consumed := l.consumed ++ [c] } := by
        refine ⟨hring.pop Stored.dvd_wrap, ?_, h.plain⟩
        rw [h.write, hl, List.length_cons, Nat.add_comm, BitVec.ofNat_add, ← BitVec.add_assoc]
        rfl
      simp only [readLoop, Line.read, hl, if_neg hne, hcell]
      by_cases hd : c = ctrl 'D'
      · rw [if_pos hd, if_pos hd]
        refine ⟨?_, rfl⟩
        by_cases hlt : n + 1 < target
        · rw [if_pos hlt, if_neg (by omega)]
          rw [BitVec.add_sub_cancel]
          exact h
        · rw [if_neg hlt, if_pos (by omega)]
          exact hpop
      rw [if_neg hd, if_neg hd]
      by_cases hnl : c = newline
      · rw [if_pos hnl, if_pos hnl]
        exact ⟨hpop, rfl⟩
      rw [if_neg hnl, if_neg hnl]
      obtain ⟨hst, heq⟩ := ih hpop (by omega)
      exact ⟨hst, by rw [heq]⟩

/-! ## What a read takes -/

/-- a read takes eaten from the committed bytes, and delivers those of them that are not ^D -/
structure Took (l : Line) (target n : ℕ) (x : Line × List Byte × Exit) : Prop where
  pending : x.1.pending = l.pending
  committed : x.1.committed = l.committed
  sleep : ∀ m, x.2.2 = .sleep m → x.2.1.length + m = n ∧ 0 < m ∧ ∀ c ∈ x.2.1, Plain c
  ret : ∀ v, x.2.2 = .ret v → x.2.1.length ≤ n ∧ ctrl 'D' ∉ x.2.1 ∧ newline ∉ x.2.1.dropLast ∧
    (v = -1 ∨ v = target - n + x.2.1.length)
  eaten : ∃ eaten, l.unread = eaten ++ x.1.unread ∧ x.1.consumed = l.consumed ++ eaten ∧
    x.2.1 = eaten.filter (· ≠ ctrl 'D') ∧
    eaten.count (ctrl 'D') = if 0 < target ∧ x.2.2 = .ret 0 then 1 else 0

namespace Took

variable {target n : ℕ} {e : Exit} {rest : List Byte} {x : Line × List Byte × Exit}

theorem nothing (hsleep : ∀ m, e = .sleep m → m = n ∧ 0 < m) (hret : ∀ v, e = .ret v → v = -1 ∨ v = target - n)
    (hzero : ¬ (0 < target ∧ e = .ret 0)) : Took l target n (l, [], e) where
  pending := rfl
  committed := rfl
  sleep m hm := by
    obtain ⟨rfl, hpos⟩ := hsleep m hm
    simpa using hpos
  ret v hv := by simpa using hret v hv
  eaten := ⟨[], by simp [hzero]⟩

/-- the first byte, and then the others -/
theorem cons (hl : l.unread = c :: rest) (hc : Plain c)
    (h : Took { l with unread := rest, consumed := l.consumed ++ [c] } target n x) :
    Took l target (n + 1) (x.1, c :: x.2.1, x.2.2) where
  pending := h.pending
  committed := h.committed
  sleep m hm := by
    obtain ⟨hlen, hpos, hplain⟩ := h.sleep m hm
    refine ⟨by simp only [List.length_cons]; omega, hpos, ?_⟩
    simpa using ⟨hc, hplain⟩
  ret v hv := by
    obtain ⟨hlen, heof, hnl, hval⟩ := h.ret v hv
    refine ⟨by simpa using hlen, ?_, ?_, ?_⟩
    · simpa [heof] using hc.2.symm
    · cases hx : x.2.1 with
      | nil => simp
      | cons b bs =>
        rw [hx] at hnl
        simpa [List.dropLast_cons_cons, hnl] using hc.1.symm
    · push_cast [List.length_cons]
      omega
  eaten := by
    obtain ⟨eaten, hun, hcon, hbytes, hcount⟩ := h.eaten
    refine ⟨c :: eaten, ?_, ?_, ?_, ?_⟩
    · rw [hl, List.cons_append]
      exact congrArg (c :: ·) hun
    · rw [hcon, List.append_assoc]
      rfl
    · rw [hbytes, List.filter_cons_of_pos (by simpa using hc.2)]
    · rw [List.count_cons_of_ne hc.2]
      exact hcount

/-- the end of a line -/
theorem line (hl : l.unread = newline :: rest) (hn : n < target) :
    Took l target (n + 1) ({ l with unread := rest, consumed := l.consumed ++ [newline] }, [newline], .ret (target - n)) where
  pending := rfl
  committed := rfl
  sleep m hm := by cases hm
  ret v hv := by
    cases hv
    have hne : ctrl 'D' ∉ [newline] := by decide
    refine ⟨by simp, hne, by simp, .inr ?_⟩
    push_cast [List.length_singleton]
    omega
  eaten := by
    refine ⟨[newline], hl, rfl, rfl, ?_⟩
    rw [if_neg (fun hc => by simp at hc; omega)]
    rfl

/-- the end of a file, for a read that has delivered nothing -/
theorem eof (hl : l.unread = ctrl 'D' :: rest) (hn : n + 1 = target) :
    Took l target (n + 1) ({ l with unread := rest, consumed := l.consumed ++ [ctrl 'D'] }, [], .ret (target - (n + 1))) where
  pending := rfl
  committed := rfl
  sleep m hm := by cases hm
  ret v hv := by
    cases hv
    simp
  eaten := by
    refine ⟨[ctrl 'D'], hl, rfl, rfl, ?_⟩
    rw [if_pos ⟨by omega, by simp [← hn]⟩]
    rfl

end Took

theorem Line.read_took (killed : Bool) {target n : ℕ} (l : Line) (hn : n ≤ target) :
    Took l target n (l.read killed target n) := by
  induction n generalizing l with
  | zero =>
    refine .nothing (fun m hm => by cases hm) (fun v hv => ?_) fun hc => ?_
    · cases hv
      simp
    · simp at hc
      omega
  | succ n ih =>
    cases hl : l.unread with
    | nil =>
      simp only [Line.read, hl]
      cases killed with
      | true => exact .nothing (fun m hm => by cases hm) (fun v hv => by cases hv; simp) (by simp)
      | false => exact .nothing (fun m hm => by cases hm; simp) (fun v hv => by cases hv) (by simp)
    | cons c rest =>
      simp only [Line.read, hl]
      split_ifs with hd hfirst hnl
      · subst hd
        exact .eof hl hfirst
      · refine .nothing (fun m hm => by cases hm) (fun v hv => ?_) fun hc => ?_
        · cases hv
          simp
        · simp at hc
          omega
      · subst hnl
        exact .line hl (by omega)
      · exact .cons hl ⟨hnl, hd⟩ (ih _ (by omega))

/-! ## Runs -/

section

variable {ι : Type} {l : St Line ι}

/-- a call that has returned: no ^D, a newline only at the end, and the number of bytes unless it was killed -/
structure Proper (x : Read ι) : Prop where
  length : x.dst.length ≤ x.target
  eof : ctrl 'D' ∉ x.dst
  line : newline ∉ x.dst.dropLast
  ret : x.ret = -1 ∨ x.ret = x.dst.length

/-- the bytes copied out are the committed ones that have been consumed, but for each ^D, which a read has consumed that
then returned 0 -/
structure Sound (l : St Line ι) : Prop where
  committed : l.store.committed = l.store.consumed ++ l.store.unread
  copied : l.copied = l.store.consumed.filter (· ≠ ctrl 'D')
  eofs : l.store.consumed.count (ctrl 'D') = l.reads.countP (fun x => 0 < x.target ∧ x.ret = 0)
  asleep : ∀ p target n dst, l.pc p = .asleep target n dst → dst.length + n = target ∧ ∀ c ∈ dst, Plain c
  reads : ∀ x ∈ l.reads, Proper x

theorem Line.append_frame (l : Line) (c : Byte) : (l.append c).consumed = l.consumed ∧
    ∃ q, (l.append c).unread = l.unread ++ q ∧ (l.append c).committed = l.committed ++ q := by
  unfold Line.append
  split_ifs
  · exact ⟨rfl, _, rfl, rfl⟩
  · exact ⟨rfl, [], by simp⟩

/-- typing only commits -/
theorem Line.type_frame {l l' : Line} {c : Byte} (h : l.type c = some l') :
    l'.consumed = l.consumed ∧ ∃ q, l'.unread = l.unread ++ q ∧ l'.committed = l.committed ++ q := by
  unfold Line.type at h
  generalize (if c = 13 then newline else c) = d at h
  split_ifs at h
  all_goals cases h
  case neg => exact l.append_frame d
  all_goals exact ⟨rfl, [], by simp⟩

theorem intr_frame {l l' : Line} {cs : List Byte} (h : edited.intr l cs = some l') :
    l'.consumed = l.consumed ∧ ∃ q, l'.unread = l.unread ++ q ∧ l'.committed = l.committed ++ q := by
  change cs.foldlM Line.type l = some l' at h
  induction cs generalizing l with
  | nil =>
    cases h
    exact ⟨rfl, [], by simp⟩
  | cons c cs ih =>
    rw [List.foldlM_cons] at h
    obtain ⟨u, hu, h⟩ := Option.bind_eq_some_iff.1 h
    obtain ⟨hcon, q, hun, hcom⟩ := Line.type_frame hu
    obtain ⟨hcon', q', hun', hcom'⟩ := ih h
    refine ⟨hcon'.trans hcon, q ++ q', ?_, ?_⟩
    · rw [hun', hun, List.append_assoc]
    · rw [hcom', hcom, List.append_assoc]

variable [DecidableEq ι]

/-- the reader p goes elsewhere -/
theorem Sound.asleep_update {p : ι} {y : Pc} (h : Sound l)
    (hy : ∀ target n dst, y = .asleep target n dst → dst.length + n = target ∧ ∀ c ∈ dst, Plain c)
    (q : ι) (target n : ℕ) (dst : List Byte) (hq : Function.update l.pc p y q = .asleep target n dst) :
    dst.length + n = target ∧ ∀ c ∈ dst, Plain c := by
  by_cases hqp : q = p
  · rw [hqp, Function.update_self] at hq
    exact hy target n dst hq
  · rw [Function.update_of_ne hqp] at hq
    exact h.asleep q target n dst hq

theorem Sound.leave {p : ι} {target n : ℕ} {dst : List Byte} {x : Line × List Byte × Exit} (h : Sound l)
    (hdst : dst.length + n = target) (hplain : ∀ c ∈ dst, Plain c) (hx : Took l.store target n x) :
    Sound (l.leave p target dst x) := by
  obtain ⟨eaten, hun, hcon, hbytes, hcount⟩ := hx.eaten
  have hcommitted : x.1.committed = x.1.consumed ++ x.1.unread := by
    rw [hx.committed, h.committed, hun, hcon, List.append_assoc]
  have hcopied : l.copied ++ x.2.1 = x.1.consumed.filter (· ≠ ctrl 'D') := by
    rw [hcon, List.filter_append, ← h.copied, hbytes]
  unfold St.leave
  cases he : x.2.2 with
  | sleep m =>
    obtain ⟨hlen, -, hnew⟩ := hx.sleep m he
    refine ⟨hcommitted, hcopied, ?_, h.asleep_update fun tg k d hy => ?_, h.reads⟩
    · rw [hcon, List.count_append, hcount, if_neg (by simp [he]), Nat.add_zero]
      exact h.eofs
    · obtain ⟨rfl, rfl, rfl⟩ : target = tg ∧ m = k ∧ dst ++ x.2.1 = d := by simpa using hy
      refine ⟨by rw [List.length_append]; omega, fun c hc => ?_⟩
      exact (List.mem_append.1 hc).elim (hplain c) (hnew c)
  | ret v =>
    obtain ⟨hlen, heof, hnl, hval⟩ := hx.ret v he
    have hproper : Proper (⟨p, target, dst ++ x.2.1, v⟩ : Read ι) := by
      have hle : (dst ++ x.2.1).length ≤ target := by
        rw [List.length_append]
        omega
      refine ⟨hle, ?_, ?_, ?_⟩
      · exact fun hc => (List.mem_append.1 hc).elim (fun hc => (hplain _ hc).2 rfl) heof
      · intro hc
        obtain hnil | hne := eq_or_ne x.2.1 []
        · rw [hnil, List.append_nil] at hc
          exact (hplain _ (List.dropLast_subset _ hc)).1 rfl
        · rw [List.dropLast_append_of_ne_nil hne] at hc
          exact (List.mem_append.1 hc).elim (fun hc => (hplain _ hc).1 rfl) hnl
      · refine hval.imp_right fun hv => ?_
        rw [List.length_append]
        push_cast
        omega
    refine ⟨hcommitted, hcopied, ?_, h.asleep_update (by simp), ?_⟩
    · rw [hcon, List.count_append, hcount, h.eofs, he, List.countP_append, List.countP_singleton]
      simp
    · simpa [or_imp, forall_and] using ⟨h.reads, hproper⟩

/-- the driver's state and the state of the discipline: the same readers, the same record -/
structure Refines (s : St Input ι) (l : St Line ι) : Prop where
  stored : Stored s.store l.store
  pc : s.pc = l.pc
  killed : s.killed = l.killed
  copied : s.copied = l.copied
  reads : s.reads = l.reads
  sound : Sound l

variable {s : St Input ι}

/-- a run of the loop of `consoleread`, from its call or after a sleep -/
theorem Refines.leave {p : ι} {target n : ℕ} {dst : List Byte} (h : Refines s l) (hdst : dst.length + n = target)
    (hplain : ∀ c ∈ dst, Plain c) :
    Refines (s.leave p target dst (console.read (s.killed p) target n s.store))
      (l.leave p target dst (edited.read (l.killed p) target n l.store)) := by
  have hn : n ≤ target := by omega
  rw [h.killed]
  obtain ⟨hst, heq⟩ := readLoop_stored (l.killed p) h.stored hn
  have hsound : Sound (l.leave p target dst (edited.read (l.killed p) target n l.store)) :=
    h.sound.leave hdst hplain (Line.read_took (l.killed p) l.store hn)
  revert hsound
  change Stored (console.read (l.killed p) target n s.store).1 (edited.read (l.killed p) target n l.store).1 at hst
  change (console.read (l.killed p) target n s.store).2 = (edited.read (l.killed p) target n l.store).2 at heq
  generalize console.read (l.killed p) target n s.store = x at hst heq ⊢
  generalize edited.read (l.killed p) target n l.store = y at hst heq ⊢
  intro hsound
  unfold St.leave at hsound ⊢
  rw [heq]
  cases he : y.2.2 with
  | sleep m =>
    simp only [he] at hsound
    exact ⟨hst, by rw [h.pc], h.killed, by rw [h.copied], h.reads, hsound⟩
  | ret v =>
    simp only [he] at hsound
    exact ⟨hst, by rw [h.pc], h.killed, by rw [h.copied], by rw [h.reads], hsound⟩

theorem Refines.step (h : Refines s l) (a : Act ι) : Option.Rel Refines (console.step s a) (edited.step l a) := by
  cases a with
  | intr cs =>
    have hintr := consoleintr_stored h.stored cs
    simp only [Discipline.step]
    generalize console.intr s.store cs = x at hintr ⊢
    cases he : edited.intr l.store cs with
    | none =>
      rw [he] at hintr
      cases hintr
      exact .none
    | some m =>
      rw [he] at hintr
      cases hintr with
      | some hst =>
        obtain ⟨hcon, q, hun, hcom⟩ := intr_frame he
        refine .some ⟨hst, h.pc, h.killed, h.copied, h.reads, ?_, ?_, ?_, h.sound.asleep, h.sound.reads⟩
        · change m.committed = m.consumed ++ m.unread
          rw [hcom, hcon, hun, h.sound.committed, List.append_assoc]
        · change l.copied = m.consumed.filter _
          rw [hcon]
          exact h.sound.copied
        · change m.consumed.count _ = _
          rw [hcon]
          exact h.sound.eofs
  | read p n =>
    simp only [Discipline.step, h.pc]
    cases hpc : l.pc p with
    | out => exact .some (h.leave (by simp) (by simp))
    | asleep target m dst => exact .none
  | wake p =>
    simp only [Discipline.step, h.pc]
    cases hpc : l.pc p with
    | out => exact .none
    | asleep target m dst =>
      obtain ⟨hdst, hplain⟩ := h.sound.asleep p target m dst hpc
      exact .some (h.leave hdst hplain)
  | kill p =>
    exact .some ⟨h.stored, h.pc, by rw [h.killed], h.copied, h.reads, h.sound.committed, h.sound.copied, h.sound.eofs,
      h.sound.asleep, h.sound.reads⟩

theorem Refines.run (h : Refines s l) (as : List (Act ι)) : Option.Rel Refines (console.run as s) (edited.run as l) := by
  unfold Discipline.run
  induction as generalizing s l with
  | nil => exact .some h
  | cons a as ih =>
    rw [List.foldlM_cons, List.foldlM_cons]
    have hstep := h.step a
    generalize console.step s a = x at hstep ⊢
    generalize edited.step l a = y at hstep ⊢
    cases hstep with
    | some hnext => exact ih hnext
    | none => exact .none

/-- **The console delivers the edited lines.** From an empty ring, wherever its indices are: after any run, the indices are
in order and at most `INPUT_BUF` apart, the bytes between w and e are neither newline nor ^D, and the discipline that edits
a line and commits it, on the same run, has copied the same bytes out to the same reads; these bytes are the committed ones
in order, each once, but for ^D. -/
theorem console_delivers (b : Input) (hw : b.w = b.r) (he : b.e = b.r) (as : List (Act ι))
    (h : console.run as (start b) = some s) :
    (s.store.w - s.store.r).toNat ≤ (s.store.e - s.store.r).toNat ∧ (s.store.e - s.store.r).toNat ≤ INPUT_BUF ∧
    (∀ k, (s.store.w - s.store.r).toNat ≤ k → k < (s.store.e - s.store.r).toNat →
      Plain (s.store.cell (s.store.r + BitVec.ofNat 32 k))) ∧
    ∃ l, edited.run as (start ⟨[], [], [], []⟩) = some l ∧ s.copied = l.copied ∧ s.reads = l.reads ∧ Sound l := by
  have hstart : Refines (start b : St Input ι) (start ⟨[], [], [], []⟩) := by
    refine ⟨⟨?_, by simpa [start] using hw, by simp [start]⟩, rfl, rfl, rfl, rfl, rfl, rfl, rfl, ?_, by simp [start]⟩
    · change Rep INPUT_BUF b.buf b.r b.e []
      rw [he]
      exact .new _ _ _
    · intro p target n dst hc
      cases hc
  have hrun := hstart.run as
  rw [h] at hrun
  generalize hl : edited.run as (start ⟨[], [], [], []⟩) = y at hrun
  cases hrun with
  | some href =>
    rename_i l
    have hst := href.stored
    have hunread := hst.unread.size Stored.lt_wrap
    have hall := hst.ring.size Stored.lt_wrap
    rw [List.length_append] at hall
    refine ⟨by omega, ?_, fun k hlo hhi => ?_, l, rfl, href.copied, href.reads, href.sound⟩
    · have := hst.ring.fits
      rw [List.length_append] at this
      omega
    · have hk : k - l.store.unread.length < l.store.pending.length := by omega
      obtain ⟨c, hc⟩ : ∃ c, l.store.pending[k - l.store.unread.length]? = some c := ⟨_, List.getElem?_eq_getElem hk⟩
      have hcell := hst.ring.cell k c (by rw [List.getElem?_append_right (by omega)]; exact hc)
      have hindex : s.store.cell (s.store.r + BitVec.ofNat 32 k) = c := by
        rw [← hcell, Input.cell, BitVec.toNat_add, BitVec.toNat_ofNat, Nat.add_mod_mod,
          Nat.mod_mod_of_dvd _ Stored.dvd_wrap]
      rw [hindex]
      exact hst.plain c (List.mem_of_getElem? hc)

end

/-- a line is typed, corrected and ended, a ^D after it, while one process reads; it comes back twice -/
def oneLine : List (Act Unit) :=
  [.read () 10, .intr [0x61, 0x62, 0x7f], .wake (), .intr [0x63, 13, 4], .wake (), .read () 10]

/-- The indices wrap, "ac" and the newline are read, then the end of the file. -/
theorem console_delivers_one_line : ∃ s, console.run oneLine (start ⟨fun _ => 0, -2, -2, -2⟩) = some s ∧
    s.copied = [0x61, 0x63, newline] ∧ s.reads.map (·.ret) = [3, 0] ∧
    (s.store.w - s.store.r).toNat ≤ (s.store.e - s.store.r).toNat ∧ (s.store.e - s.store.r).toNat ≤ INPUT_BUF ∧
    (∀ k, (s.store.w - s.store.r).toNat ≤ k → k < (s.store.e - s.store.r).toNat →
      Plain (s.store.cell (s.store.r + BitVec.ofNat 32 k))) ∧
    ∃ l, edited.run oneLine (start ⟨[], [], [], []⟩) = some l ∧ s.copied = l.copied ∧ s.reads = l.reads ∧ Sound l := by
  have hrun : (console.run oneLine (start ⟨fun _ => 0, -2, -2, -2⟩)).map (fun s => (s.copied, s.reads.map (·.ret))) =
      some ([0x61, 0x63, newline], [3, 0]) := by decide +kernel
  obtain ⟨s, hs, hres⟩ := Option.map_eq_some_iff.1 hrun
  obtain ⟨hcopied, hret⟩ : s.copied = [0x61, 0x63, newline] ∧ s.reads.map (·.ret) = [3, 0] := Prod.mk.inj hres
  exact ⟨s, hs, hcopied, hret, console_delivers _ rfl rfl oneLine hs⟩

end Xv6.Console
