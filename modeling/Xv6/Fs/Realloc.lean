/-
Whether freeing an inode and reallocating it interfere (`iput` against `ialloc` and `ilock`).

An inode freed by `iput` is free on the disk before `iput` has cleared I_VALID. A process that allocates it in between
gets the same entry from `iget`; if its `ilock` tests I_VALID before `iput` clears it, the process works on the copy of
the freed inode. `Allowed`: no process makes this test then.
- `Sees`: a process that has the inode locked sees what is on the disk, with a type other than 0;
- `realloc_iff`: this holds in every run whose steps are all allowed, and fails after the first step that is not;
- `stale_inode`: such a run.
-/
import Xv6.Core.Lock
import Xv6.Fs.Icache

namespace Xv6.Icache

open Function

variable {N ninodes : ℕ} {P : Type} {s t : St N P} {a : Act P} {p q : P} {e e' : Fin N} {x : Pc N} {i : ℕ}

/-! ## What a process is doing -/

namespace Pc

/-- in `ilock` or past it: holds the sleep lock -/
def holds : Pc N → Option (Fin N)
  | .test e | .read e | .locked e _ => some e
  | _ => none

/-- in `ilock`, before the test of I_VALID -/
def early : Pc N → Bool
  | .lock _ | .test _ => true
  | _ => false

/-- has returned from `ilock` -/
def sees : Pc N → Option (Fin N)
  | .locked e _ => some e
  | _ => none

/-- has modified the inode and not saved it -/
def unsaved : Pc N → Option (Fin N)
  | .locked e true => some e
  | _ => none

/-- has allocated the inode and has no reference yet -/
def gets : Pc N → Option ℕ
  | .iget i => some i
  | _ => none

/-- `iput` has decided to free the inode, which is still allocated on the disk -/
def frees : Pc N → Option (Fin N)
  | .trunc e _ | .free e => some e
  | _ => none

/-- `iput` has freed the inode on the disk, and not yet cleared I_VALID -/
def clears : Pc N → Option (Fin N)
  | .clear e => some e
  | _ => none

/-- all that the invariant knows of a process, but its lock -/
def view (x : Pc N) : Option (Fin N) × Option (Fin N) × Option ℕ × Option (Fin N) × Option (Fin N) :=
  (x.ref, x.unsaved, x.gets, x.frees, x.clears)

theorem clears_ref (h : x.clears = some e) : x.ref = some e := by
  cases x with
  | clear => exact h
  | _ => cases h

theorem frees_ref (h : x.frees = some e) : x.ref = some e ∧ x.clears = none := by
  cases x with
  | trunc | free => exact ⟨h, rfl⟩
  | _ => cases h

theorem unsaved_ref (h : x.unsaved = some e) : x.ref = some e := by
  cases x with
  | locked e' d =>
    cases d with
    | true => exact h
    | false => cases h
  | _ => cases h

theorem sees_ref (h : x.sees = some e) : x.ref = some e ∧ x.clears = none ∧ x.early = false := by
  cases x with
  | locked => exact ⟨h, rfl, rfl⟩
  | _ => cases h

theorem gets_ref (h : x.gets = some i) : x.ref = none ∧ x.unsaved = none := by
  cases x with
  | iget => exact ⟨rfl, rfl⟩
  | _ => cases h

theorem early_clears (h : x.clears = some e) : x.early = false := by
  cases x with
  | clear => rfl
  | _ => cases h

end Pc

structure Inv [Fintype P] (s : St N P) : Prop where
  refs : ∀ e, (s.entry e).ref = ∑ p, (s.pc p).count e
  holder : ∀ p e, (s.pc p).holds = some e → s.lock e = some p
  valid : ∀ p e, (s.pc p).sees = some e → (s.entry e).valid = true
  scan : ∀ p i type, s.pc p = .scan i type → type ≠ 0
  uniq : ∀ p q e e', (s.pc p).ref = some e → (s.pc q).ref = some e' → (s.entry e).inum = (s.entry e').inum → e = e'
  alloc : ∀ p e, (s.pc p).ref = some e → (s.pc p).clears = none → (s.disk (s.entry e).inum).type ≠ 0
  fresh : ∀ p i, (s.pc p).gets = some i → (s.disk i).type ≠ 0 ∧ (∀ q, (s.pc q).gets = some i → q = p) ∧
    ∀ q e, (s.pc q).ref = some e → (s.entry e).inum = i → (s.pc q).clears = some e
  clear : ∀ q e, (s.pc q).clears = some e → (s.entry e).valid = true ∧ (s.entry e).ino.type = 0 ∧
    ∀ p, p ≠ q → (s.pc p).ref = some e → (s.pc p).early = true
  frees : ∀ q e, (s.pc q).frees = some e → (∀ p, (s.pc p).ref = some e → p = q) ∧ (s.entry e).valid = true ∧
    (s.entry e).ino.type ≠ 0
  same : ∀ p e, (s.pc p).ref = some e → (s.entry e).valid = true → (s.pc p).frees = none →
    (∃ q, (s.pc q).clears = some e) ∨ (s.entry e).ino.type = (s.disk (s.entry e).inum).type ∧
      ((s.entry e).ino = s.disk (s.entry e).inum ∨ ∃ q, (s.pc q).unsaved = some e)

/-- `ilock` does not find I_VALID set while `iput` is about to clear it -/
def Allowed (s : St N P) : Act P → Prop
  | .move p => ∀ e, s.pc p = .test e → (s.entry e).valid = true → ∀ q, s.pc q ≠ .clear e
  | _ => True

namespace Inv

variable [Fintype P]

theorem ref_pos (h : Inv s) : 0 < (s.entry e).ref ↔ ∃ p, (s.pc p).ref = some e := by
  have hcount : ∀ x : Pc N, 0 < x.count e ↔ x.ref = some e := by
    intro x
    unfold Pc.count
    split_ifs with hx <;> simp [hx]
  rw [h.refs e, Finset.sum_pos_iff]
  simp [hcount]

theorem ref_one (h : Inv s) (he : (s.entry e).ref = 1) (hp : (s.pc p).ref = some e) (hq : (s.pc q).ref = some e) :
    p = q := by
  classical
  by_contra hne
  have hle := Finset.sum_le_sum_of_subset (f := fun r => (s.pc r).count e) (Finset.subset_univ {p, q})
  rw [Finset.sum_pair hne, ← h.refs e, he, Pc.count, Pc.count, if_pos hp, if_pos hq] at hle
  omega

variable [DecidableEq P]

/-- a step of p that only `ilock` notices -/
theorem pass {lock : Fin N → Option P} (h : Inv s) (hview : x.view = (s.pc p).view)
    (hscan : ∀ i type, x = .scan i type → type ≠ 0) (hholds : ∀ e, x.holds = some e → lock e = some p)
    (hsees : ∀ e, x.sees = some e → (s.entry e).valid = true)
    (hlock : ∀ q e, q ≠ p → (s.pc q).holds = some e → lock e = some q)
    (hearly : ∀ q e, (s.pc q).clears = some e → x.ref = some e → q ≠ p → x.early = true) :
    Inv { s with lock, pc := update s.pc p x } := by
  have hother : ∀ q, q ≠ p → update s.pc p x q = s.pc q := fun q hq => update_of_ne hq ..
  have hviews := update_keep Pc.view hview
  simp only [Pc.view, Prod.mk.injEq, forall_and] at hviews
  obtain ⟨href, hunsaved, hgets, hfrees, hclears⟩ := hviews
  refine ⟨fun e => ?_, fun q e hq => ?_, fun q e hq => ?_, fun q i type hq => ?_, ?_, ?_, ?_, fun q e hq => ?_, ?_, ?_⟩
  · simp only [Pc.count, href]
    exact h.refs e
  · by_cases hqp : q = p
    · subst hqp
      simp only [update_self] at hq
      exact hholds e hq
    · simp only [hother q hqp] at hq
      exact hlock q e hqp hq
  · by_cases hqp : q = p
    · subst hqp
      simp only [update_self] at hq
      exact hsees e hq
    · simp only [hother q hqp] at hq
      exact h.valid q e hq
  · by_cases hqp : q = p
    · subst hqp
      simp only [update_self] at hq
      exact hscan i type hq
    · simp only [hother q hqp] at hq
      exact h.scan q i type hq
  · simp only [href]
    exact h.uniq
  · simp only [href, hclears]
    exact h.alloc
  · simp only [hgets, href, hclears]
    exact h.fresh
  · rw [hclears] at hq
    obtain ⟨hvalid, htype, hall⟩ := h.clear q e hq
    refine ⟨hvalid, htype, fun r hrq hr => ?_⟩
    by_cases hrp : r = p
    · subst hrp
      simp only [update_self] at hr ⊢
      exact hearly q e hq hr (Ne.symm hrq)
    · simp only [hother r hrp] at hr ⊢
      exact hall r hrq hr
  · simp only [hfrees, href]
    exact h.frees
  · simp only [href, hfrees, hclears, hunsaved]
    exact h.same

/-- the count of references follows one process -/
theorem refs_update (h : Inv s) {entry : Fin N → Entry}
    (hcnt : ∀ e, (entry e).ref + (s.pc p).count e = (s.entry e).ref + x.count e) (e : Fin N) :
    (entry e).ref = ∑ q, (update s.pc p x q).count e := by
  have hsum := sum_update (Pc.count e) s.pc p x
  have := hcnt e
  have := h.refs e
  omega

/-- p, whose entry nobody else frees or clears, changes the entry or the inode on the disk -/
theorem own {y : Entry} {d : ℕ → Dinode} (h : Inv s) (hp : (s.pc p).ref = some e) (hx : x.ref = some e)
    (hnot : (s.pc p).clears = none) (hothers : ∀ q, q ≠ p → (s.pc q).ref = some e → (s.pc q).clears = none ∧
      (s.pc q).frees = none)
    (hholds : ∀ e', x.holds = some e' → s.lock e' = some p)
    (hvalid : (s.entry e).valid = true ∨ x.sees = some e → y.valid = true)
    (hinum : y.inum = (s.entry e).inum) (href : y.ref = (s.entry e).ref)
    (hdisk : ∀ i, i ≠ (s.entry e).inum → d i = s.disk i)
    (halloc : x.clears = none → (d (s.entry e).inum).type ≠ 0)
    (hclear : x.clears = some e → (∀ q, (s.pc q).ref = some e → q = p) ∧ y.valid = true ∧ y.ino.type = 0)
    (hfrees : x.frees = some e → (∀ q, (s.pc q).ref = some e → q = p) ∧ y.valid = true ∧ y.ino.type ≠ 0)
    (hsame : x.frees = none → x.clears = none → y.valid = true →
      y.ino.type = (d (s.entry e).inum).type ∧ (y.ino = d (s.entry e).inum ∨ x.unsaved = some e)) :
    Inv { s with entry := update s.entry e y, disk := d, pc := update s.pc p x } := by
  have hrefs := update_keep Pc.ref (hx.trans hp.symm)
  have hinums := update_keep Entry.inum hinum
  -- the other entries in use are of other inodes
  have hne : ∀ {q e'}, (s.pc q).ref = some e' → e' ≠ e → (s.entry e').inum ≠ (s.entry e).inum := by
    intro q e' hq he heq
    exact he (h.uniq q p e' e hq hp heq)
  have hgets : x.gets = none := by
    cases hxg : x.gets with
    | none => rfl
    | some i => cases hx.symm.trans (Pc.gets_ref hxg).1
  have hgone : x.clears = some e → ∀ q, q ≠ p → (s.pc q).ref ≠ some e := fun hc q hqp hq => hqp ((hclear hc).1 q hq)
  refine ⟨h.refs_update fun e' => ?_, fun q e' hq => ?_, fun q e' hq => ?_, fun q i type hq => ?_,
    fun q r e₁ e₂ hq hr heq => ?_, fun q e' hq hc => ?_, fun q i hq => ?_, fun q e' hq => ?_, fun q e' hq => ?_,
    fun q e' hq hv hf => ?_⟩
  · simp only [Pc.count, hp, hx, update_apply]
    by_cases he : e' = e
    · rw [if_pos he, href, he]
    · rw [if_neg he]
  · simp only [update_apply] at hq
    split_ifs at hq with hqp
    · rw [hqp]
      exact hholds e' hq
    · exact h.holder q e' hq
  · by_cases he : e' = e
    · subst he
      simp only [update_self]
      refine hvalid ?_
      simp only [update_apply] at hq
      split_ifs at hq
      · exact .inr hq
      · exact .inl (h.valid q e' hq)
    · have hqp : q ≠ p := by
        rintro rfl
        cases ((hrefs q).symm.trans (Pc.sees_ref hq).1).symm.trans hp
        exact he rfl
      simp only [update_of_ne he, update_of_ne hqp] at hq ⊢
      exact h.valid q e' hq
  · simp only [update_apply] at hq
    split_ifs at hq with hqp
    · rw [hq] at hx
      cases hx
    · exact h.scan q i type hq
  · rw [hrefs] at hq hr
    rw [hinums, hinums] at heq
    exact h.uniq q r e₁ e₂ hq hr heq
  · rw [hrefs] at hq
    rw [hinums]
    by_cases he : e' = e
    · subst he
      refine halloc ?_
      by_cases hqp : q = p
      · simpa [hqp] using hc
      · cases hxc : x.clears with
        | none => rfl
        | some e₁ =>
          cases hx.symm.trans (Pc.clears_ref hxc)
          exact (hgone hxc q hqp hq).elim
    · simp only [hdisk _ (hne hq he)]
      by_cases hqp : q = p
      · cases hq.symm.trans (hqp ▸ hp)
        exact (he rfl).elim
      · simp only [update_of_ne hqp] at hc
        exact h.alloc q e' hq hc
  · obtain ⟨htype, huniq, hall⟩ := h.fresh q i (some_of_update hq hgets).2
    have hi : i ≠ (s.entry e).inum := by
      rintro rfl
      cases hnot.symm.trans (hall p e hp rfl)
    refine ⟨by simpa only [hdisk i hi] using htype, fun r hr => ?_, fun r e' hr hri => ?_⟩
    · exact huniq r (some_of_update hr hgets).2
    · rw [hrefs] at hr
      rw [hinums] at hri
      have hrp : r ≠ p := by
        rintro rfl
        cases hr.symm.trans hp
        exact hi hri.symm
      simp only [update_of_ne hrp]
      exact hall r e' hr hri
  · by_cases hqp : q = p
    · subst hqp
      simp only [update_self] at hq
      cases hx.symm.trans (Pc.clears_ref hq)
      obtain ⟨halone, hv, ht⟩ := hclear hq
      simp only [update_self]
      exact ⟨hv, ht, fun r hrp hr => (hrp (halone r ((hrefs r).symm.trans hr))).elim⟩
    · simp only [update_of_ne hqp] at hq
      have he : e' ≠ e := by
        rintro rfl
        cases (hothers q hqp (Pc.clears_ref hq)).1.symm.trans hq
      simp only [update_of_ne he]
      obtain ⟨hv, ht, hall⟩ := h.clear q e' hq
      refine ⟨hv, ht, fun r hrq hr => ?_⟩
      rw [hrefs] at hr
      have hrp : r ≠ p := by
        rintro rfl
        cases hr.symm.trans hp
        exact he rfl
      simp only [update_of_ne hrp]
      exact hall r hrq hr
  · by_cases hqp : q = p
    · subst hqp
      simp only [update_self] at hq
      cases hx.symm.trans (Pc.frees_ref hq).1
      obtain ⟨halone, hv, ht⟩ := hfrees hq
      simp only [update_self]
      exact ⟨fun r hr => halone r ((hrefs r).symm.trans hr), hv, ht⟩
    · simp only [update_of_ne hqp] at hq
      have he : e' ≠ e := by
        rintro rfl
        cases (hothers q hqp (Pc.frees_ref hq).1).2.symm.trans hq
      simp only [update_of_ne he, hrefs]
      exact h.frees q e' hq
  · rw [hrefs] at hq
    by_cases he : e' = e
    · subst he
      simp only [update_self] at hv ⊢
      cases hxc : x.clears with
      | some e₁ =>
        cases hx.symm.trans (Pc.clears_ref hxc)
        exact .inl ⟨p, by simp only [update_self, hxc]⟩
      | none =>
        right
        rw [hinum]
        have hxf : x.frees = none := by
          cases hxf : x.frees with
          | none => rfl
          | some e₁ =>
            cases hx.symm.trans (Pc.frees_ref hxf).1
            cases (hfrees hxf).1 q hq
            simp only [update_self] at hf
            exact hxf.symm.trans hf
        refine (hsame hxf hxc hv).imp_right fun hs => hs.imp_right fun hu => ⟨p, ?_⟩
        simp only [update_self, hu]
    · have hqp : q ≠ p := by
        rintro rfl
        cases hq.symm.trans hp
        exact he rfl
      simp only [update_of_ne he, update_of_ne hqp, hdisk _ (hne hq he)] at hv hf ⊢
      have hother : ∀ r, (s.pc r).ref = some e' → r ≠ p := by
        rintro r hr rfl
        cases hr.symm.trans hp
        exact he rfl
      refine (h.same q e' hq hv hf).imp (fun ⟨r, hr⟩ => ⟨r, ?_⟩) fun hs => hs.imp_right fun hs => hs.imp_right
        fun ⟨r, hr⟩ => ⟨r, ?_⟩
      · rwa [update_of_ne (hother r (Pc.clears_ref hr))]
      · rwa [update_of_ne (hother r (Pc.unsaved_ref hr))]

/-- `iget` gives p an entry for the inode it has allocated: the one that is being cleared, or an empty one -/
theorem get {y : Entry} (h : Inv s) (hp : s.pc p = .iget i) (hinum : y.inum = i) (href : y.ref = (s.entry e).ref + 1)
    (hold : (s.entry e).inum = i ∧ 0 < (s.entry e).ref ∧ y.valid = (s.entry e).valid ∧ y.ino = (s.entry e).ino ∨
      (s.entry e).ref = 0 ∧ y.valid = false ∧ ∀ e', 0 < (s.entry e').ref → (s.entry e').inum ≠ i) :
    Inv { s with entry := update s.entry e y, pc := update s.pc p (.lock e) } := by
  obtain ⟨htype, huniq, hall⟩ := h.fresh p i (by rw [hp]; rfl)
  have hne : ∀ q e', (s.pc q).ref = some e' → q ≠ p := by
    rintro q e' hq rfl
    rw [hp] at hq
    cases hq
  -- the entries in use for the inode, which are being cleared
  have hsame : ∀ q e', (s.pc q).ref = some e' → (s.entry e').inum = i → e' = e := by
    intro q e' hq hi
    rcases hold with ⟨hi', hpos, -⟩ | ⟨-, -, hno⟩
    · obtain ⟨r, hr⟩ := h.ref_pos.1 hpos
      exact h.uniq q r e' e hq hr (hi.trans hi'.symm)
    · exact (hno e' (h.ref_pos.2 ⟨q, hq⟩) hi).elim
  have hclears : ∀ q, (s.pc q).ref = some e → (s.pc q).clears = some e ∧ y.valid = (s.entry e).valid ∧
      y.ino = (s.entry e).ino ∧ (s.entry e).inum = i := by
    intro q hq
    rcases hold with ⟨hi', -, hv, ho⟩ | ⟨hzero, -⟩
    · exact ⟨hall q e hq hi', hv, ho, hi'⟩
    · exact ((h.ref_pos.2 ⟨q, hq⟩).ne' hzero).elim
  have hin : ∀ q e', (s.pc q).ref = some e' → (update s.entry e y e').inum = (s.entry e').inum := by
    intro q e' hq
    rw [update_apply]
    split_ifs with he
    · subst he
      rw [hinum, (hclears q hq).2.2.2]
    · rfl
  have hpcs : ∀ q e', (update s.pc p (.lock e) q).ref = some e' → q = p ∧ e' = e ∨ q ≠ p ∧ (s.pc q).ref = some e' := by
    intro q e' hq
    rw [update_apply] at hq
    split_ifs at hq with hqp
    · exact .inl ⟨hqp, (Option.some.inj hq).symm⟩
    · exact .inr ⟨hqp, hq⟩
  refine ⟨h.refs_update fun e' => ?_, fun q e' hq => ?_, fun q e' hq => ?_, fun q i type hq => ?_,
    fun q r e₁ e₂ hq hr heq => ?_, fun q e' hq hc => ?_, fun q i' hq => ?_, fun q e' hq => ?_, fun q e' hq => ?_,
    fun q e' hq hv hf => ?_⟩
  · simp only [Pc.count, hp, Pc.ref, update_apply]
    by_cases he : e' = e
    · subst he
      simp [href]
    · simp [he, Ne.symm he]
  · exact h.holder q e' (some_of_update hq rfl).2
  · obtain ⟨-, hq'⟩ := some_of_update hq rfl
    have he : e' ≠ e := by
      rintro rfl
      obtain ⟨href', hclears', -⟩ := Pc.sees_ref hq'
      cases hclears'.symm.trans (hclears q href').1
    simp only [update_of_ne he]
    exact h.valid q e' hq'
  · simp only [update_apply] at hq
    split_ifs at hq
    exact h.scan q i type hq
  · rcases hpcs q e₁ hq with ⟨-, rfl⟩ | ⟨-, hq'⟩ <;> rcases hpcs r e₂ hr with ⟨-, rfl⟩ | ⟨-, hr'⟩
    · rfl
    · simp only [update_self, hin r e₂ hr', hinum] at heq
      exact (hsame r e₂ hr' heq.symm).symm
    · simp only [update_self, hin q e₁ hq', hinum] at heq
      exact hsame q e₁ hq' heq
    · simp only [hin q e₁ hq', hin r e₂ hr'] at heq
      exact h.uniq q r e₁ e₂ hq' hr' heq
  · rcases hpcs q e' hq with ⟨rfl, rfl⟩ | ⟨hqp, hq⟩
    · simp only [update_self, hinum]
      exact htype
    · simp only [hin q e' hq, update_of_ne hqp] at hc ⊢
      exact h.alloc q e' hq hc
  · obtain ⟨hqp, hq⟩ := some_of_update hq rfl
    obtain ⟨htype', huniq', hall'⟩ := h.fresh q i' hq
    have hi : i' ≠ i := by
      rintro rfl
      exact hqp (huniq q hq)
    refine ⟨htype', fun r hr => ?_, fun r e' hr hri => ?_⟩
    · exact huniq' r (some_of_update hr rfl).2
    · rcases hpcs r e' hr with ⟨rfl, rfl⟩ | ⟨hrp, hr⟩
      · simp only [update_self, hinum] at hri
        exact (hi hri.symm).elim
      · simp only [hin r e' hr, update_of_ne hrp] at hri ⊢
        exact hall' r e' hr hri
  · obtain ⟨-, hq'⟩ := some_of_update hq rfl
    obtain ⟨hv, ht, hearly⟩ := h.clear q e' hq'
    have hy : (update s.entry e y e').valid = (s.entry e').valid ∧
        (update s.entry e y e').ino = (s.entry e').ino := by
      rw [update_apply]
      split_ifs with he
      · subst he
        obtain ⟨-, hv', ho', -⟩ := hclears q (Pc.clears_ref hq')
        exact ⟨hv', ho'⟩
      · exact ⟨rfl, rfl⟩
    refine ⟨hy.1.trans hv, (congrArg Dinode.type hy.2).trans ht, fun r hrq hr => ?_⟩
    rcases hpcs r e' hr with ⟨rfl, rfl⟩ | ⟨hrp, hr⟩
    · simp only [update_self]
      rfl
    · simp only [update_of_ne hrp]
      exact hearly r hrq hr
  · obtain ⟨-, hq'⟩ := some_of_update hq rfl
    have he : e' ≠ e := by
      rintro rfl
      cases (Pc.frees_ref hq').2.symm.trans (hclears q (Pc.frees_ref hq').1).1
    simp only [update_of_ne he]
    obtain ⟨halone, hv, ht⟩ := h.frees q e' hq'
    refine ⟨fun r hr => ?_, hv, ht⟩
    rcases hpcs r e' hr with ⟨-, rfl⟩ | ⟨-, hr⟩
    · exact (he rfl).elim
    · exact halone r hr
  · -- an entry being cleared stays so
    have hleft : ∀ r, (s.pc r).clears = some e' → ∃ r, (update s.pc p (.lock e) r).clears = some e' := by
      intro r hr
      refine ⟨r, ?_⟩
      rwa [update_of_ne (hne r e' (Pc.clears_ref hr))]
    rcases hpcs q e' hq with ⟨rfl, rfl⟩ | ⟨hqp, hq'⟩
    · rcases hold with ⟨hi', hpos, -⟩ | ⟨-, hv', -⟩
      · obtain ⟨r, hr⟩ := h.ref_pos.1 hpos
        exact .inl (hleft r (hclears r hr).1)
      · simp only [update_self, hv'] at hv
        cases hv
    · by_cases he : e' = e
      · subst he
        exact .inl (hleft q (hclears q hq').1)
      · simp only [update_of_ne he, update_of_ne hqp] at hv hf ⊢
        refine (h.same q e' hq' hv hf).imp (fun ⟨r, hr⟩ => hleft r hr) fun hs => hs.imp_right fun hs => hs.imp_right
          fun ⟨r, hr⟩ => ⟨r, ?_⟩
        rwa [update_of_ne (hne r e' (Pc.unsaved_ref hr))]

/-- p drops its reference -/
theorem drop {y : Entry} (h : Inv s) (hp : (s.pc p).ref = some e) (hinum : y.inum = (s.entry e).inum)
    (href : y.ref = (s.entry e).ref - 1) (hunsaved : (s.pc p).unsaved = none)
    (hold : y.valid = (s.entry e).valid ∧ y.ino = (s.entry e).ino ∧ (s.pc p).clears = none ∨
      y.valid = false ∧ (s.pc p).clears = some e) :
    Inv { s with entry := update s.entry e y, pc := update s.pc p .idle } := by
  have hinums := update_keep Entry.inum hinum
  refine ⟨h.refs_update fun e' => ?_, fun q e' hq => ?_, fun q e' hq => ?_, fun q i type hq => ?_,
    fun q r e₁ e₂ hq hr heq => ?_, fun q e' hq hc => ?_, fun q i' hq => ?_, fun q e' hq => ?_, fun q e' hq => ?_,
    fun q e' hq hv hf => ?_⟩
  · have hpos : 0 < (s.entry e).ref := h.ref_pos.2 ⟨p, hp⟩
    have hidle : (Pc.idle : Pc N).ref ≠ some e' := nofun
    simp only [Pc.count, hp, update_apply, if_neg hidle]
    by_cases he : e' = e
    · subst he
      rw [if_pos rfl, if_pos rfl]
      omega
    · rw [if_neg he, if_neg fun heq => he (Option.some.inj heq).symm]
  · obtain ⟨-, hq⟩ := some_of_update hq rfl
    exact h.holder q e' hq
  · obtain ⟨hqp, hq'⟩ := some_of_update hq rfl
    have hv := h.valid q e' hq'
    simp only [update_apply]
    split_ifs with he
    · subst he
      rcases hold with ⟨hv', -⟩ | ⟨-, hc⟩
      · rw [hv', hv]
      · obtain ⟨href', -, hearly⟩ := Pc.sees_ref hq'
        cases hearly.symm.trans ((h.clear p e' hc).2.2 q hqp href')
    · exact hv
  · simp only [update_apply] at hq
    split_ifs at hq
    exact h.scan q i type hq
  · rw [hinums, hinums] at heq
    exact h.uniq q r e₁ e₂ (some_of_update hq rfl).2 (some_of_update hr rfl).2 heq
  · obtain ⟨hqp, hq⟩ := some_of_update hq rfl
    simp only [hinums, update_of_ne hqp] at hc ⊢
    exact h.alloc q e' hq hc
  · obtain ⟨htype, huniq, hall⟩ := h.fresh q i' (some_of_update hq rfl).2
    refine ⟨htype, fun r hr => huniq r (some_of_update hr rfl).2, fun r e' hr hri => ?_⟩
    obtain ⟨hrp, hr⟩ := some_of_update hr rfl
    simp only [hinums, update_of_ne hrp] at hri ⊢
    exact hall r e' hr hri
  · obtain ⟨hqp, hq'⟩ := some_of_update hq rfl
    obtain ⟨hv, ht, hearly⟩ := h.clear q e' hq'
    have hy : (update s.entry e y e').valid = (s.entry e').valid ∧
        (update s.entry e y e').ino = (s.entry e').ino := by
      rw [update_apply]
      split_ifs with he
      · subst he
        rcases hold with ⟨hv', ho', -⟩ | ⟨-, hc⟩
        · exact ⟨hv', ho'⟩
        · have := (h.clear p e' hc).2.2 q hqp (Pc.clears_ref hq')
          cases this.symm.trans (Pc.early_clears hq')
      · exact ⟨rfl, rfl⟩
    refine ⟨hy.1.trans hv, (congrArg Dinode.type hy.2).trans ht, fun r hrq hr => ?_⟩
    obtain ⟨hrp, hr⟩ := some_of_update hr rfl
    simp only [update_of_ne hrp]
    exact hearly r hrq hr
  · obtain ⟨hqp, hq⟩ := some_of_update hq rfl
    obtain ⟨halone, hv, ht⟩ := h.frees q e' hq
    have he : e' ≠ e := by
      rintro rfl
      exact hqp (halone p hp).symm
    simp only [update_of_ne he]
    exact ⟨fun r hr => halone r (some_of_update hr rfl).2, hv, ht⟩
  · obtain ⟨hqp, hq⟩ := some_of_update hq rfl
    have hy : (update s.entry e y e').valid = (s.entry e').valid ∧
        (update s.entry e y e').ino = (s.entry e').ino ∧ (s.pc p).clears ≠ some e' := by
      simp only [update_apply] at hv ⊢
      split_ifs at hv ⊢ with he
      · subst he
        rcases hold with ⟨hv', ho', hc⟩ | ⟨hv', -⟩
        · rw [hc]
          exact ⟨hv', ho', nofun⟩
        · cases hv'.symm.trans hv
      · refine ⟨rfl, rfl, fun hc => he ?_⟩
        exact Option.some.inj ((Pc.clears_ref hc).symm.trans hp)
    simp only [hinums, hy.1, hy.2.1, update_of_ne hqp] at hv hf ⊢
    refine (h.same q e' hq hv hf).imp (fun ⟨r, hr⟩ => ⟨r, ?_⟩) fun hs => hs.imp_right fun hs => hs.imp_right
      fun ⟨r, hr⟩ => ⟨r, ?_⟩
    · have hrp : r ≠ p := by
        rintro rfl
        exact hy.2.2 hr
      rwa [update_of_ne hrp]
    · have hrp : r ≠ p := by
        rintro rfl
        cases hunsaved.symm.trans hr
      rwa [update_of_ne hrp]

/-- `ialloc` takes an inode that is free on the disk -/
theorem take {type : BitVec 16} (h : Inv s) (hp : s.pc p = .scan i type) (hfree : (s.disk i).type = 0) :
    Inv { s with disk := update s.disk i (.fresh type), pc := update s.pc p (.iget i) } := by
  have href : ∀ q, (update s.pc p (.iget i) q).ref = (s.pc q).ref ∧
      (update s.pc p (.iget i) q).clears = (s.pc q).clears ∧
      (update s.pc p (.iget i) q).frees = (s.pc q).frees ∧
      (update s.pc p (.iget i) q).unsaved = (s.pc q).unsaved := by
    intro q
    rw [update_apply]
    split_ifs with hq
    · rw [hq, hp]
      exact ⟨rfl, rfl, rfl, rfl⟩
    · exact ⟨rfl, rfl, rfl, rfl⟩
  simp only [forall_and] at href
  obtain ⟨href, hclears, hfrees, hunsaved⟩ := href
  -- an entry still in use for it is being cleared
  have hused : ∀ q e, (s.pc q).ref = some e → (s.entry e).inum = i → (s.pc q).clears = some e := by
    intro q e hq hi
    cases hc : (s.pc q).clears with
    | none => exact (h.alloc q e hq hc (hi ▸ hfree)).elim
    | some e' => rw [← hq, Pc.clears_ref hc]
  refine ⟨fun e => ?_, fun q e hq => ?_, fun q e hq => ?_, fun q j type hq => ?_, ?_, fun q e hq hc => ?_, fun q j hq => ?_,
    fun q e hq => ?_, ?_, fun q e hq hv hf => ?_⟩
  · simp only [Pc.count, href]
    exact h.refs e
  · exact h.holder q e (some_of_update hq rfl).2
  · exact h.valid q e (some_of_update hq rfl).2
  · simp only [update_apply] at hq
    split_ifs at hq
    exact h.scan q j type hq
  · simp only [href]
    exact h.uniq
  · rw [href] at hq
    rw [hclears] at hc
    have hi : (s.entry e).inum ≠ i := by
      intro hi
      cases hc.symm.trans (hused q e hq hi)
    simp only [update_of_ne hi]
    exact h.alloc q e hq hc
  · by_cases hqp : q = p
    · subst hqp
      simp only [update_self] at hq
      cases hq
      refine ⟨?_, fun r hr => ?_, fun r e hr hi => ?_⟩
      · simp only [update_self]
        exact h.scan q i type hp
      · by_contra hrq
        simp only [update_of_ne hrq] at hr
        exact (h.fresh r i hr).1 hfree
      · rw [href] at hr
        rw [hclears]
        exact hused r e hr hi
    · simp only [update_of_ne hqp] at hq
      obtain ⟨htype, huniq, hall⟩ := h.fresh q j hq
      have hj : j ≠ i := by
        rintro rfl
        exact htype hfree
      refine ⟨by simpa only [update_of_ne hj] using htype, fun r hr => ?_, fun r e hr hi => ?_⟩
      · simp only [update_apply] at hr
        split_ifs at hr
        · cases hr
          exact (hj rfl).elim
        · exact huniq r hr
      · rw [href] at hr
        rw [hclears]
        exact hall r e hr hi
  · rw [hclears] at hq
    obtain ⟨hv, ht, hearly⟩ := h.clear q e hq
    refine ⟨hv, ht, fun r hrq hr => ?_⟩
    simp only [update_apply] at hr ⊢
    split_ifs at hr ⊢
    · cases hr
    · exact hearly r hrq hr
  · simp only [hfrees, href]
    exact h.frees
  · rw [href] at hq
    rw [hfrees] at hf
    simp only [hclears, hunsaved]
    by_cases hi : (s.entry e).inum = i
    · exact .inl ⟨q, hused q e hq hi⟩
    · simp only [update_of_ne hi]
      exact h.same q e hq hv hf

omit [DecidableEq P] in
/-- a reference past the test of I_VALID keeps others from clearing or freeing -/
theorem keeps (h : Inv s) (hp : (s.pc p).ref = some e) (hearly : (s.pc p).early = false) (q : P) (hqp : q ≠ p)
    (hq : (s.pc q).ref = some e) : (s.pc q).clears = none ∧ (s.pc q).frees = none := by
  constructor
  · cases hc : (s.pc q).clears with
    | none => rfl
    | some e' =>
      cases hq.symm.trans (Pc.clears_ref hc)
      cases hearly.symm.trans ((h.clear q e hc).2.2 p (Ne.symm hqp) hp)
  · cases hf : (s.pc q).frees with
    | none => rfl
    | some e' =>
      cases hq.symm.trans (Pc.frees_ref hf).1
      exact (hqp ((h.frees q e hf).1 p hp).symm).elim

omit [DecidableEq P] in
/-- what a process that refers to a valid entry past the test has before it -/
theorem agrees (h : Inv s) (hp : (s.pc p).ref = some e) (hearly : (s.pc p).early = false) (hfrees : (s.pc p).frees = none)
    (hclears : (s.pc p).clears = none) (hvalid : (s.entry e).valid = true) :
    (s.entry e).ino.type = (s.disk (s.entry e).inum).type ∧
      ((s.entry e).ino = s.disk (s.entry e).inum ∨ ∃ q, (s.pc q).unsaved = some e) := by
  refine (h.same p e hp hvalid hfrees).resolve_left fun ⟨q, hq⟩ => ?_
  by_cases hqp : q = p
  · subst hqp
    cases hclears.symm.trans hq
  · cases (h.keeps hp hearly q hqp (Pc.clears_ref hq)).1.symm.trans hq

/-- **Step.** -/
theorem step (h : Inv s) (hstep : Step s a t) (hallow : Allowed s a) : Inv t := by
  have hothers : ∀ {p : P} (q : P) (e : Fin N), q ≠ p → (s.pc q).holds = some e → s.lock e = some q :=
    fun q e _ hq => h.holder q e hq
  cases hstep with
  | ialloc hpc htype =>
    refine h.pass (by rw [hpc]; rfl) (fun i type' hx => ?_) nofun nofun hothers nofun
    cases hx
    exact htype
  | skip hpc =>
    refine h.pass (by rw [hpc]; rfl) (fun i type' hx => ?_) nofun nofun hothers nofun
    cases hx
    exact h.scan _ _ _ hpc
  | take hpc hfree => exact h.take hpc hfree
  | hit hpc href hinum => exact h.get hpc hinum rfl (.inl ⟨hinum, href, rfl, rfl⟩)
  | recycle hpc href hno => exact h.get hpc rfl (by rw [href]) (.inr ⟨href, rfl, hno⟩)
  | ilock hpc => exact h.pass (by rw [hpc]; rfl) nofun nofun nofun hothers fun _ _ _ _ _ => rfl
  | @lock p e hpc hfree =>
    refine h.pass (by rw [hpc]; rfl) nofun (fun e' hx => ?_) nofun (fun q e' hqp hq => ?_) fun _ _ _ _ _ => rfl
    · cases hx
      exact update_self ..
    · have hne : e' ≠ e := by
        rintro rfl
        cases hfree.symm.trans (h.holder q e' hq)
      rw [update_of_ne hne]
      exact h.holder q e' hq
  | @valid p e hpc hvalid =>
    refine h.pass (by rw [hpc]; rfl) nofun (fun e' hx => ?_) (fun e' hx => ?_) hothers fun q e' hq hx _ => ?_
    · cases hx
      exact h.holder p e (by rw [hpc]; rfl)
    · cases hx
      exact hvalid
    · cases hx
      exact (hallow e hpc hvalid q (by cases hp : s.pc q <;> rw [hp] at hq <;> cases hq; rfl)).elim
  | @invalid p e hpc hvalid =>
    refine h.pass (by rw [hpc]; rfl) nofun (fun e' hx => ?_) nofun hothers fun q e' hq hx _ => ?_
    · cases hx
      exact h.holder p e (by rw [hpc]; rfl)
    · cases hx
      cases hvalid.symm.trans (h.clear q e hq).1
  | @read p e hpc =>
    have hp : (s.pc p).ref = some e := by rw [hpc]; rfl
    refine h.own hp rfl (by rw [hpc]; rfl) (h.keeps hp (by rw [hpc]; rfl)) (fun e' hx => ?_) (fun _ => rfl) rfl rfl
      (fun _ _ => rfl) (fun _ => h.alloc p e hp (by rw [hpc]; rfl)) nofun nofun fun _ _ _ => ⟨rfl, .inl rfl⟩
    cases hx
    exact h.holder p e (by rw [hpc]; rfl)
  | @edit p e d ino hpc htype =>
    have hp : (s.pc p).ref = some e := by rw [hpc]; rfl
    have hvalid := h.valid p e (by rw [hpc]; rfl)
    have hsame := h.agrees hp (by rw [hpc]; rfl) (by rw [hpc]; rfl) (by rw [hpc]; rfl) hvalid
    refine h.own hp rfl (by rw [hpc]; rfl) (h.keeps hp (by rw [hpc]; rfl)) (fun e' hx => ?_) (fun _ => hvalid) rfl rfl
      (fun _ _ => rfl) (fun _ => h.alloc p e hp (by rw [hpc]; rfl)) nofun nofun
      fun _ _ _ => ⟨htype.trans hsame.1, .inr rfl⟩
    cases hx
    exact h.holder p e (by rw [hpc]; rfl)
  | @iupdate p e d hpc =>
    have hp : (s.pc p).ref = some e := by rw [hpc]; rfl
    have hvalid := h.valid p e (by rw [hpc]; rfl)
    have hsame := h.agrees hp (by rw [hpc]; rfl) (by rw [hpc]; rfl) (by rw [hpc]; rfl) hvalid
    have hown := h.own (x := .locked e false) (y := s.entry e)
      (d := update s.disk (s.entry e).inum (s.entry e).ino) hp rfl (by rw [hpc]; rfl)
      (h.keeps hp (by rw [hpc]; rfl)) (fun e' hx => ?_) (fun _ => hvalid) rfl rfl
      (fun i hi => update_of_ne hi ..) (fun _ => ?_) nofun nofun fun _ _ _ => ?_
    · rwa [update_eq_self] at hown
    · cases hx
      exact h.holder p e (by rw [hpc]; rfl)
    · rw [update_self, hsame.1]
      exact h.alloc p e hp (by rw [hpc]; rfl)
    · rw [update_self]
      exact ⟨rfl, .inl rfl⟩
  | @iunlock p e hpc =>
    have hp : (s.pc p).ref = some e := by rw [hpc]; rfl
    refine h.pass (by rw [hpc]; rfl) nofun nofun nofun (fun q e' hqp hq => ?_) fun q e' hq hx hqp => ?_
    · have hne : e' ≠ e := by
        rintro rfl
        exact hqp (Option.some.inj ((h.holder q e' hq).symm.trans (h.holder p e' (by rw [hpc]; rfl))))
      rw [update_of_ne hne]
      exact h.holder q e' hq
    · cases hx
      cases (h.keeps hp (by rw [hpc]; rfl) q hqp (Pc.clears_ref hq)).1.symm.trans hq
  | @last p e hpc href hvalid =>
    have hp : (s.pc p).ref = some e := by rw [hpc]; rfl
    have halone : ∀ q, (s.pc q).ref = some e → q = p := fun q hq => h.ref_one href hq hp
    have hsame := h.agrees hp (by rw [hpc]; rfl) (by rw [hpc]; rfl) (by rw [hpc]; rfl) hvalid
    have hdisk := h.alloc p e hp (by rw [hpc]; rfl)
    have hown := h.own (x := .trunc e 0) (y := s.entry e) (d := s.disk) hp rfl (by rw [hpc]; rfl)
      (h.keeps hp (by rw [hpc]; rfl)) nofun (fun _ => hvalid) rfl rfl (fun _ _ => rfl) (fun _ => hdisk) nofun
      (fun _ => ⟨halone, hvalid, hsame.1 ▸ hdisk⟩) nofun
    rwa [update_eq_self] at hown
  | @put p e hpc =>
    have hp : (s.pc p).ref = some e := by rw [hpc]; rfl
    exact h.drop hp rfl rfl (by rw [hpc]; rfl) (.inl ⟨rfl, rfl, by rw [hpc]; rfl⟩)
  | @addr p e i ino hpc htype =>
    have hp : (s.pc p).ref = some e := by rw [hpc]; rfl
    obtain ⟨halone, hvalid, hne⟩ := h.frees p e (by rw [hpc]; rfl)
    exact h.own hp rfl (by rw [hpc]; rfl) (h.keeps hp (by rw [hpc]; rfl)) nofun (fun _ => hvalid) rfl rfl
      (fun _ _ => rfl) (fun _ => h.alloc p e hp (by rw [hpc]; rfl)) nofun (fun _ => ⟨halone, hvalid, htype ▸ hne⟩) nofun
  | @size p e i ino hpc htype =>
    have hp : (s.pc p).ref = some e := by rw [hpc]; rfl
    obtain ⟨halone, hvalid, hne⟩ := h.frees p e (by rw [hpc]; rfl)
    refine h.own hp rfl (by rw [hpc]; rfl) (h.keeps hp (by rw [hpc]; rfl)) nofun (fun _ => hvalid) rfl rfl
      (fun i hi => update_of_ne hi ..) (fun _ => ?_) nofun (fun _ => ⟨halone, hvalid, htype ▸ hne⟩) nofun
    rw [update_self, htype]
    exact hne
  | @free p e ino hpc htype =>
    have hp : (s.pc p).ref = some e := by rw [hpc]; rfl
    obtain ⟨halone, hvalid, hne⟩ := h.frees p e (by rw [hpc]; rfl)
    exact h.own hp rfl (by rw [hpc]; rfl) (h.keeps hp (by rw [hpc]; rfl)) nofun (fun _ => hvalid) rfl rfl
      (fun i hi => update_of_ne hi ..) nofun (fun _ => ⟨halone, hvalid, htype⟩) nofun nofun
  | @clear p e hpc =>
    have hp : (s.pc p).ref = some e := by rw [hpc]; rfl
    exact h.drop hp rfl rfl (by rw [hpc]; rfl) (.inr ⟨rfl, by rw [hpc]; rfl⟩)

omit [DecidableEq P] in
theorem init (h0 : Init s) : Inv s := by
  obtain ⟨hpc, hlock, hrefs, huniq, hdisk⟩ := h0
  -- whatever only a running call does, nobody does
  have hnone : ∀ {α : Type} (f : Pc N → Option α) (p : P), f .idle = none → (∀ e, f (.has e) = none) → f (s.pc p) = none := by
    intro α f p hidle hhas
    rcases hpc p with hp | ⟨e, hp⟩
    · rw [hp, hidle]
    · rw [hp, hhas]
  have hpos : ∀ p e, (s.pc p).ref = some e → 0 < (s.entry e).ref := by
    intro p e hp
    rw [hrefs e, Finset.sum_pos_iff]
    exact ⟨p, Finset.mem_univ p, by rw [Pc.count, if_pos hp]; exact Nat.one_pos⟩
  refine ⟨hrefs, fun p e hp => ?_, fun p e hp => ?_, fun p i type hp => ?_, fun p q e e' hp hq => ?_, fun p e hp _ => ?_,
    fun p i hp => ?_, fun p e hp => ?_, fun p e hp => ?_, fun p e hp hv _ => ?_⟩
  · cases (hnone Pc.holds p rfl fun _ => rfl).symm.trans hp
  · cases (hnone Pc.sees p rfl fun _ => rfl).symm.trans hp
  · rcases hpc p with h | ⟨e, h⟩ <;> cases h.symm.trans hp
  · exact huniq e e' (hpos p e hp) (hpos q e' hq)
  · exact (hdisk e (hpos p e hp)).1
  · cases (hnone Pc.gets p rfl fun _ => rfl).symm.trans hp
  · cases (hnone Pc.clears p rfl fun _ => rfl).symm.trans hp
  · cases (hnone Pc.frees p rfl fun _ => rfl).symm.trans hp
  · have heq := (hdisk e (hpos p e hp)).2 hv
    exact .inr ⟨congrArg Dinode.type heq, .inl heq⟩

end Inv

instance [Fintype P] (s : St N P) (a : Act P) : Decidable (Allowed s a) :=
  match a with
  | .move p => inferInstanceAs (Decidable (∀ e, s.pc p = .test e → (s.entry e).valid = true → ∀ q, s.pc q ≠ .clear e))
  | .ialloc _ _ | .ilock _ | .edit _ _ | .iupdate _ | .iunlock _ | .iput _ => isTrue trivial

/-! ## Runs -/

section

variable [Fintype P] [DecidableEq P]

theorem Inv.of_reach (h : ((machine N ninodes P).restrict Allowed).Reach s) : Inv s := by
  refine h.invariant (I := Inv) (fun _ h0 => Inv.init h0) fun s a t hs hstep => ?_
  obtain ⟨hallow, hstep⟩ := hstep
  exact hs.step (step_cases hstep) hallow

/-- whoever has an inode locked sees it as it is on the disk, with a type; if it has modified fields since, at least the
type is that on the disk; and its `iupdate` does not mark the inode free -/
def Sees (ninodes : ℕ) (s : St N P) : Prop :=
  ∀ p e d, s.pc p = .locked e d → (s.entry e).ino.type ≠ 0 ∧ (s.disk (s.entry e).inum).type = (s.entry e).ino.type ∧
    (d = false → (s.entry e).ino = s.disk (s.entry e).inum) ∧
    ∀ t, step ninodes s (.iupdate p) = some t → (t.disk (s.entry e).inum).type ≠ 0

theorem Inv.sees (h : Inv s) : Sees ninodes s := by
  intro p e d hpc
  have hp : (s.pc p).ref = some e := by rw [hpc]; rfl
  have hdisk := h.alloc p e hp (by rw [hpc]; rfl)
  obtain ⟨htype, hino⟩ := h.agrees hp (by rw [hpc]; rfl) (by rw [hpc]; rfl) (by rw [hpc]; rfl)
    (h.valid p e (by rw [hpc]; rfl))
  refine ⟨htype ▸ hdisk, htype.symm, fun hd => hino.resolve_right fun ⟨q, hq⟩ => ?_, fun t ht => ?_⟩
  · -- the one that has modified it would hold the lock too
    subst hd
    have hlock := h.holder p e (by rw [hpc]; rfl)
    have hq' : s.pc q = .locked e true := by
      cases hpcq : s.pc q with
      | locked e' d =>
        rw [hpcq] at hq
        cases d <;> cases hq
        rfl
      | _ =>
        rw [hpcq] at hq
        cases hq
    cases hlock.symm.trans (h.holder q e (by rw [hq']; rfl))
    cases hpc.symm.trans hq'
  · rw [Icache.step, hpc] at ht
    cases ht
    simp only [update_self]
    exact htype ▸ hdisk

/-- **Freeing against reallocating.** In every run in which no `ilock` finds I_VALID set on an entry that `iput` is about
to clear, whoever has an inode locked sees what is on the disk, with a type, and does not mark it free; and the first
step of any run that breaks the condition leaves its process with a locked inode of type 0. -/
theorem realloc_iff {s : St N P} (h : ((machine N ninodes P).restrict Allowed).Reach s) :
    Sees ninodes s ∧ ∀ a t, step ninodes s a = some t → (Allowed s a ↔ Sees ninodes t) := by
  have hinv := Inv.of_reach h
  refine ⟨hinv.sees, fun a t hstep => ⟨fun hallow => (hinv.step (step_cases hstep) hallow).sees, fun hsees => ?_⟩⟩
  cases a with
  | move p =>
    intro e hpc hvalid q hq
    rw [step, move, hpc] at hstep
    simp only [hvalid, if_true, Option.some.injEq] at hstep
    subst hstep
    refine (hsees p e false (Function.update_self ..)).1 ?_
    exact (hinv.clear q e (by rw [hq]; rfl)).2.1
  | _ => trivial

end

/-- p has the only reference, e, to a file without names -/
def unlinked {P : Type} [DecidableEq P] (p : P) (e : Fin 1) : St 1 P where
  entry _ := ⟨1, 1, true, .fresh Dinode.T_FILE⟩
  lock _ := none
  disk i := if i = 1 then .fresh Dinode.T_FILE else .fresh 0
  pc q := if q = p then .has e else .idle

theorem unlinked_init : Init (unlinked (0 : Fin 2) 0) := by
  refine ⟨fun p => ?_, fun _ => rfl, fun e => ?_, fun e e' _ _ _ => Subsingleton.elim e e', fun e _ => ⟨?_, fun _ => ?_⟩⟩
  · by_cases hp : p = 0
    · exact .inr ⟨0, if_pos hp⟩
    · exact .inl (if_neg hp)
  · rw [Subsingleton.elim e 0]
    decide
  · exact (by decide : Dinode.T_FILE ≠ 0)
  · rfl

/-- p drops it; then q allocates an inode and locks it -/
def freedThenTaken {P : Type} (p q : P) : List (Act P) :=
  .iput p :: .replicate 16 (.move p) ++ .ialloc q Dinode.T_FILE :: .replicate 5 (.move q)

theorem freedThenTaken_locked : ((freedThenTaken 0 1).foldlM (fun s a => if Allowed s a then step 2 s a else none)
    (unlinked (0 : Fin 2) 0)).map (·.pc 1) = some (.locked 0 false) := by decide +kernel

theorem realloc_iff_in_turn : ∃ s : St 1 (Fin 2), ((machine 1 2 (Fin 2)).restrict Allowed).Reach s ∧
    s.pc 1 = .locked 0 false ∧ (s.entry 0).ino = s.disk (s.entry 0).inum := by
  obtain ⟨s, hrun, hpc⟩ := Option.map_eq_some_iff.1 freedThenTaken_locked
  have hreach : ((machine 1 2 (Fin 2)).restrict Allowed).Reach s :=
    Machine.Reach.foldlM_restrict _ (.init unlinked_init) hrun
  exact ⟨s, hreach, hpc, ((realloc_iff hreach).1 1 0 false hpc).2.2.1 rfl⟩

/-- q does so before p has cleared I_VALID, and saves the inode -/
def takenBeforeCleared {P : Type} (p q : P) : List (Act P) :=
  .iput p :: .replicate 15 (.move p) ++ .ialloc q Dinode.T_FILE :: .replicate 4 (.move q)

theorem takenBeforeCleared_locked : ((takenBeforeCleared 0 1).foldlM (step 2) (unlinked (0 : Fin 2) 0)).map
    (fun s => (s.pc 1, (s.entry 0).ino.type, (s.disk (s.entry 0).inum).type)) =
      some (.locked 0 false, 0, Dinode.T_FILE) := by decide +kernel

/-- **A stale inode.** `ilock` returns an inode of type 0, while the inode on the disk is the file just allocated; and
`iupdate` marks that free. -/
theorem stale_inode : ∃ s : St 1 (Fin 2), (machine 1 2 (Fin 2)).Reach s ∧ s.pc 1 = .locked 0 false ∧
    (s.entry 0).ino.type = 0 ∧ (s.disk (s.entry 0).inum).type = Dinode.T_FILE ∧
      ∃ t, step 2 s (.iupdate 1) = some t ∧ (t.disk (s.entry 0).inum).type = 0 := by
  obtain ⟨s, hrun, hs⟩ := Option.map_eq_some_iff.1 takenBeforeCleared_locked
  simp only [Prod.mk.injEq] at hs
  obtain ⟨hpc, htype, hdisk⟩ := hs
  have hreach : (machine 1 2 (Fin 2)).Reach s := Machine.Reach.foldlM _ (.init unlinked_init) hrun
  refine ⟨s, hreach, hpc, htype, hdisk, _, by rw [step, hpc], ?_⟩
  simp only [Function.update_self]
  exact htype

end Xv6.Icache
