/-
The stack page of a new image.

Here the argument area is followed byte by byte. `Area sz img strs sp` says that the strings strs have been pushed and the
stack pointer is sp: each string is where it was put, at a multiple of 8, below the ones before it, and `used` is the room
they take.

- `copyout_image`: a copy that succeeds writes its bytes over the image;
- `pushStrings_image`: the loop pushes the strings if there are at most MAXARG of them and they fit in the stack page; it
  faults only on a string longer than the stack pointer;
- `copyout_words`: the array of addresses and the fake return PC go below them, if they fit in what is left.
-/
import Xv6.Exec.Args

namespace Xv6.Exec

open Xv6.Bytes Xv6.Vm Xv6.Wp Xv6.Radix

variable {kend : ℕ} {root : Frame} {hand : Frame → Prop} {s0 s t : Phys} {sz va a : Addr} {buf : List Byte} {img : Store}

/-! ## Copies -/

theorem Finished.looked (h : Finished kend root hand s0 sz img s) (a : Addr) :
    Finished kend root hand s0 sz img (s.looked root a) := by
  have hmem : ∀ f, (s.looked root a).mem f = s.mem f := fun f => by rw [Phys.mem_looked]
  have hfree : (s.looked root a).free = s.free := by rw [Phys.looked]; split_ifs <;> rfl
  exact ⟨h.ready.looked, h.given.congr hfree (fun f _ => hmem f) (fun f _ => hmem f),
    h.shows.of_pages (fun b _ => by rw [Phys.pteAt_looked]) fun b _ e _ => hmem _⟩

theorem Finished.write (h : Finished kend root hand s0 sz img s) {e : Addr} (ha : a ∈ pageAddrs PGSIZE sz)
    (he : s.pteAt root (dir a) (ptx a) = some e) {o : ℕ} (bytes : List Byte) (hlen : o + bytes.length ≤ 4096) :
    Finished kend root hand s0 sz (blit img (a.toNat + o) bytes) (Exec.write s (pteFrame e) o bytes) := by
  have hslot := image_userSlot h.ready.space.high ha
  obtain ⟨-, htable⟩ := h.ready.space.inv.page_apart (starts_path hslot) rfl he
  have hown : s.Owns root (pteFrame e) := ⟨_, starts_path hslot, by simp [dir], pteAt_frame he⟩
  refine ⟨h.ready.write ha he o bytes, h.given.congr rfl
    (fun f hf => Function.update_of_ne (fun hc : f = pteFrame e => htable (hc ▸ hf)) _ _)
    (fun f hf => Function.update_of_ne (fun hc : f = pteFrame e => (h.ready.space.inv.hand_apart f hf).1 (hc ▸ hown)) _ _),
    h.shows.write h.ready.space ha he hlen⟩

/-- **A copy below sz** writes its bytes over the image if it succeeds, and some of them if it does not. -/
theorem copyout_image (h : Finished kend root hand s0 sz img s) (hhigh : va.toNat + buf.length ≤ sz.toNat) :
    wp (copyout root va buf)
      (fun r t => ∃ img', Finished kend root hand s0 sz img' t ∧ (r = 0 → img' = blit img va.toNat buf)) (fun _ _ => True) s := by
  -- on the bytes left, page by page
  induction hn : buf.length using Nat.strong_induction_on generalizing va buf s img with
  | _ n ih =>
    subst hn
    have hsz := h.ready.low
    have hszhigh := h.ready.space.high
    have halign := h.ready.align
    have hdown := pgRoundDown_toNat va
    cases buf with
    | nil =>
      rw [copyout]
      exact wp_return ⟨img, h, fun _ => (blit_nil _ _).symm⟩
    | cons b buf =>
      rw [List.length_cons] at hhigh
      rw [copyout, wp_bind]
      by_cases hzero : va.toNat < 4096
      · have hva0 : pgRoundDown va = 0 := BitVec.eq_of_toNat_eq (by rw [hdown, show (0 : Addr).toNat = 0 from rfl]; omega)
        rw [hva0]
        exact uva2ka_zero h.ready (wp_return ⟨img, h.looked 0, by simp⟩)
      have hpage : pgRoundDown va ∈ pageAddrs PGSIZE sz := mem_image_roundDown (by omega) (by omega)
      by_cases hguard : (pgRoundDown va).toNat + 8192 = sz.toNat
      · exact uva2ka_guard h.ready hpage hguard (wp_return ⟨img, h.looked _, by simp⟩)
      refine uva2ka_user h.ready hpage hguard fun e he => ?_
      rw [wp_bind, wp_modify]
      have hoff : (va - pgRoundDown va).toNat = va.toNat % 4096 := by
        rw [BitVec.toNat_sub_of_le (by rw [BitVec.le_def, hdown]; omega), hdown]
        omega
      have hroom : roomIn va = 4096 - va.toNat % 4096 := rfl
      have htake : ((b :: buf).take (roomIn va)).length = min (roomIn va) (buf.length + 1) := by
        rw [List.length_take, List.length_cons]
      have hnext : (pgRoundDown va + PGSIZE).toNat = (pgRoundDown va).toNat + 4096 := toNat_add_PGSIZE (by omega)
      have hleft : ((b :: buf).drop (roomIn va)).length = buf.length + 1 - roomIn va := by
        rw [List.length_drop, List.length_cons]
      have hwrite := (h.looked (pgRoundDown va)).write hpage (by rw [Phys.pteAt_looked]; exact he)
        (o := (va - pgRoundDown va).toNat) ((b :: buf).take (roomIn va)) (by rw [hoff, htake]; omega)
      rw [show (pgRoundDown va).toNat + (va - pgRoundDown va).toNat = va.toNat by rw [hoff, hdown]; omega] at hwrite
      refine wp_imp (ih _ (by rw [hleft, List.length_cons]; omega) hwrite (by rw [hleft]; omega) rfl) ?_
      rintro r u ⟨img', hu, himg⟩
      refine ⟨img', hu, fun hr => ?_⟩
      rw [himg hr]
      by_cases hmore : roomIn va ≤ buf.length + 1
      · rw [show (pgRoundDown va + PGSIZE).toNat = va.toNat + ((b :: buf).take (roomIn va)).length by
          rw [hnext, htake]; omega, blit_append, List.take_append_drop]
      · rw [List.drop_of_length_le (by rw [List.length_cons]; omega), blit_nil,
          List.take_of_length_le (by rw [List.length_cons]; omega)]

/-! ## The strings -/

/-- the room of the strings in the stack page, each with its NUL and rounded up to 8 bytes -/
def used (argv : List (List Byte)) : ℕ := (argv.map fun str => (str.length + 8) / 8 * 8).sum

theorem used_append (xs ys : List (List Byte)) : used (xs ++ ys) = used xs + used ys := by
  rw [used, List.map_append, List.sum_append]
  rfl

/-- the strings strs, with their addresses, have been pushed -/
structure Area (sz : Addr) (img : Store) (strs : List (Addr × List Byte)) (sp : Addr) : Prop where
  low : sz.toNat ≤ sp.toNat + 4096
  place : sp.toNat + used (strs.map Prod.snd) = sz.toNat
  align : sp.toNat % 8 = 0
  inside : ∀ p ∈ strs, p.1.toNat % 8 = 0 ∧ sp.toNat ≤ p.1.toNat ∧ p.1.toNat + p.2.length + 1 ≤ sz.toNat
  bytes : ∀ p ∈ strs, ∀ i ≤ p.2.length, img (p.1.toNat + i) = (p.2 ++ [0]).getD i 0
  apart : strs.Pairwise fun p q => q.1.toNat + q.2.length + 1 ≤ p.1.toNat

theorem Area.nil (halign : sz.toNat % 4096 = 0) : Area sz img [] sz :=
  ⟨by omega, by rfl, by omega, fun p hp => (by cases hp), fun p hp => (by cases hp), List.Pairwise.nil⟩

/-- where the next string goes -/
theorem Area.pushed {strs : List (Addr × List Byte)} {sp : Addr} (h : Area sz img strs sp) {str : List Byte}
    (hfit : str.length + 1 ≤ sp.toNat) :
    (pushed sp str).toNat + (str.length + 8) / 8 * 8 = sp.toNat := by
  have halign := h.align
  rw [pushed_fits hfit]
  omega

theorem Area.push {strs : List (Addr × List Byte)} {sp : Addr} (h : Area sz img strs sp) {str : List Byte}
    (hfit : str.length + 1 ≤ sp.toNat) (hlow : sz.toNat ≤ (Exec.pushed sp str).toNat + 4096) :
    Area sz (blit img (Exec.pushed sp str).toNat (str ++ [0])) (strs ++ [(Exec.pushed sp str, str)]) (Exec.pushed sp str) := by
  have hp := h.pushed hfit
  have hplace := h.place
  have halign := h.align
  have hlen : (str ++ [0]).length = str.length + 1 := List.length_append
  have hused : used ((strs ++ [(Exec.pushed sp str, str)]).map Prod.snd) = used (strs.map Prod.snd) + (str.length + 8) / 8 * 8 := by
    rw [List.map_append, used_append]
    rfl
  refine ⟨hlow, by rw [hused]; omega, by omega, ?_, ?_, ?_⟩
  · intro p hp'
    obtain hp' | hp' := List.mem_append.1 hp'
    · obtain ⟨h1, h2, h3⟩ := h.inside p hp'
      exact ⟨h1, by omega, h3⟩
    · obtain rfl := List.mem_singleton.1 hp'
      refine ⟨?_, le_rfl, ?_⟩ <;>
      · dsimp only
        omega
  · intro p hp' i hi
    obtain hp' | hp' := List.mem_append.1 hp'
    · obtain ⟨-, h2, -⟩ := h.inside p hp'
      rw [blit_outside _ _ (.inr (by rw [hlen]; omega))]
      exact h.bytes p hp' i hi
    · obtain rfl := List.mem_singleton.1 hp'
      exact blit_inside _ _ (by rw [hlen]; exact Nat.lt_succ_of_le hi)
  · refine List.pairwise_append.2 ⟨h.apart, List.pairwise_singleton _ _, fun p hp' q hq => ?_⟩
    obtain rfl := List.mem_singleton.1 hq
    obtain ⟨-, h2, -⟩ := h.inside p hp'
    dsimp only
    omega

/-- at most MAXARG strings that fit in the stack page -/
def Stacks (argv : List (List Byte)) : Prop := argv.length ≤ MAXARG ∧ used argv ≤ 4096

instance (argv : List (List Byte)) : Decidable (Stacks argv) := inferInstanceAs (Decidable (_ ∧ _))

/-- outside the stack page two images agree -/
def Below (sz : Addr) (img img' : Store) : Prop := ∀ x, x + 4096 < sz.toNat → img' x = img x

/-- **Pushing the strings.** -/
theorem pushStrings_image (argv : List (List Byte)) {strs : List (Addr × List Byte)} {sp : Addr}
    (h : Finished kend root hand s0 sz img s) (harea : Area sz img strs sp) (hargc : strs.length ≤ MAXARG)
    (hlen : ∀ str ∈ argv, str.length + 1 < 2 ^ 31) :
    wp (pushStrings root argv sp (strs.map Prod.fst))
      (fun r t => ∃ img', Finished kend root hand s0 sz img' t ∧
        (r = none → ¬ Stacks (strs.map Prod.snd ++ argv)) ∧
        ∀ sp' us, r = some (sp', us) → ∃ strs', us = strs'.map Prod.fst ∧ strs'.map Prod.snd = strs.map Prod.snd ++ argv ∧
          strs'.length ≤ MAXARG ∧ Area sz img' strs' sp' ∧ Below sz img img')
      (fun _ _ => ¬ Fits sz argv strs.length sp) s := by
  induction argv generalizing strs sp img s with
  | nil =>
    refine wp_return ⟨img, h, by simp, fun sp' us hr => ?_⟩
    cases hr
    exact ⟨strs, rfl, (List.append_nil _).symm, hargc, harea, fun _ _ => rfl⟩
  | cons str argv ih =>
    rw [pushStrings, List.length_map]
    by_cases hmax : MAXARG ≤ strs.length
    · rw [if_pos hmax]
      refine wp_return ⟨img, h, fun _ hc => ?_, by simp⟩
      have := hc.1
      rw [List.length_append, List.length_map, List.length_cons] at this
      omega
    rw [if_neg hmax, wp_bind]
    have hlow := harea.low
    have hplace := harea.place
    have hsz := h.ready.low
    by_cases hfit : str.length + 1 ≤ sp.toNat
    swap
    · exact wp_mono (copyout_wrapped h.ready (pushed_wraps (by omega) (hlen str List.mem_cons_self)) (by simp))
        (fun _ _ hf => hf.elim) (fun _ _ _ hc => hc.elim hmax fun hc => hfit hc.1)
    have hp := harea.pushed hfit
    have hlen' : (str ++ [0]).length = str.length + 1 := List.length_append
    refine wp_mono (wp_and (copyout_pushed h.ready hlow (by omega) hfit) (copyout_image h (by rw [hlen']; omega))) ?_
      (fun _ _ hf => hf.1.elim)
    rintro r t ⟨⟨-, rfl⟩, img', ht, himg⟩
    have hused : used (strs.map Prod.snd ++ str :: argv) =
        used (strs.map Prod.snd) + ((str.length + 8) / 8 * 8 + used argv) := by
      rw [used_append]
      rfl
    by_cases hbelow : (Exec.pushed sp str).toNat + 4096 < sz.toNat
    · rw [if_pos hbelow, if_pos (by decide)]
      refine wp_return ⟨img', ht, fun _ hc => ?_, by simp⟩
      have := hc.2
      rw [hused] at this
      omega
    rw [if_neg hbelow] at himg ⊢
    rw [if_neg (by decide)]
    obtain rfl := himg rfl
    have hnext := ih ht (harea.push hfit (by omega)) (by rw [List.length_append]; exact Nat.not_le.1 hmax)
      fun x hx => hlen x (List.mem_cons_of_mem str hx)
    rw [List.map_append, List.map_singleton, List.map_append, List.map_singleton, List.append_assoc,
      List.singleton_append, List.length_append, List.length_singleton] at hnext
    refine wp_mono hnext ?_ (fun _ _ he hc => hc.elim hmax fun hc => hc.2.elim hbelow he)
    rintro r u ⟨img'', hu, hnone, hsome⟩
    refine ⟨img'', hu, hnone, fun sp' us hr => ?_⟩
    obtain ⟨strs', h1, h2, h3, h4, h5⟩ := hsome sp' us hr
    refine ⟨strs', h1, h2, h3, h4, fun x hx => ?_⟩
    rw [h5 x hx, blit_outside _ _ (.inl (by omega))]

/-! ## The words below them -/

/-- the fake return PC, the addresses of the strings, and 0 -/
def ustackWords (strs : List (Addr × List Byte)) : List Addr := 0xffffffffffffffff :: strs.map Prod.fst ++ [0]

/-- they fit below the strings -/
def Closes (argv : List (List Byte)) : Prop := used argv + 8 * (argv.length + 2) ≤ 4096

instance (argv : List (List Byte)) : Decidable (Closes argv) := inferInstanceAs (Decidable (_ ≤ _))

theorem length_words (strs : List (Addr × List Byte)) : (bytesOf (ustackWords strs)).length = 8 * (strs.length + 2) := by
  rw [length_bytesOf, ustackWords, List.length_append, List.length_cons, List.length_map, List.length_singleton]

/-- n words below sp -/
theorem toNat_below (sp : Addr) {n : ℕ} {w : Addr} (hw : w.toNat = n) (hn : 8 * n ≤ sp.toNat) (hlt : n < 2 ^ 32) :
    (sp - w * 8).toNat = sp.toNat - 8 * n := by
  have hmul : (w * 8).toNat = 8 * n := by
    rw [BitVec.toNat_mul, hw, show (8 : Addr).toNat = 8 from rfl]
    omega
  rw [BitVec.toNat_sub_of_le (by rw [BitVec.le_def, hmul]; exact hn), hmul]

theorem toNat_argc {n : ℕ} (h : n ≤ MAXARG) : (BitVec.ofNat 64 n + 1).toNat = n + 1 ∧ (1 + BitVec.ofNat 64 n + 1).toNat = n + 2 := by
  rw [MAXARG] at h
  simp only [BitVec.toNat_add, BitVec.toNat_ofNat, show (1 : Addr).toNat = 1 from rfl]
  omega

/-- **The array of addresses** goes below the strings, or into the guard. -/
theorem copyout_words {strs : List (Addr × List Byte)} {sp : Addr} (h : Finished kend root hand s0 sz img s)
    (harea : Area sz img strs sp) (hargc : strs.length ≤ MAXARG) :
    wp (copyout root (sp - (1 + BitVec.ofNat 64 strs.length + 1) * 8) (bytesOf (ustackWords strs)))
      (fun r t => ∃ img', Finished kend root hand s0 sz img' t ∧
        (r = if Closes (strs.map Prod.snd) then 0 else -1) ∧
        (r = 0 → img' = blit img (sp.toNat - 8 * (strs.length + 2)) (bytesOf (ustackWords strs)))) (fun _ _ => False) s := by
  have hsz := h.ready.low
  have hspan := h.ready.space.high
  have hlow := harea.low
  have hplace := harea.place
  have hlen := length_words strs
  have hsp := toNat_below sp (toNat_argc hargc).2 (by rw [MAXARG] at hargc; omega) (by rw [MAXARG] at hargc; omega)
  rw [MAXARG] at hargc
  have hcloses : Closes (strs.map Prod.snd) ↔ used (strs.map Prod.snd) + 8 * (strs.length + 2) ≤ 4096 := by
    rw [Closes, List.length_map]
  generalize sp - (1 + BitVec.ofNat 64 strs.length + 1) * 8 = va at hsp ⊢
  rw [← hsp]
  have hfit : va.toNat + (bytesOf (ustackWords strs)).length ≤ sz.toNat := by omega
  have himage := copyout_image h hfit
  by_cases hbelow : va.toNat + 4096 < sz.toNat
  · have hne : bytesOf (ustackWords strs) ≠ [] := by
      rw [ne_eq, ← List.length_eq_zero_iff, hlen]
      omega
    refine wp_mono (wp_and (copyout_guard h.ready hne hbelow (by omega)) himage) ?_ (fun _ _ hf => hf.1)
    rintro r t ⟨⟨rfl, -⟩, img', ht, himg⟩
    exact ⟨img', ht, (if_neg (by rw [hcloses]; omega)).symm, himg⟩
  · refine wp_mono (wp_and (copyout_stack h.ready (by omega) (by omega)) himage) ?_ (fun _ _ hf => hf.1)
    rintro r t ⟨⟨rfl, -⟩, img', ht, himg⟩
    exact ⟨img', ht, (if_pos (by rw [hcloses]; omega)).symm, himg⟩

/-- a word of an array that has been written -/
theorem getLE_bytesOf (img : Store) (x : ℕ) (ws : List Addr) {i : ℕ} (hi : i < ws.length) :
    getLE (blit img x (bytesOf ws)) (x + 8 * i) 8 = ws[i].toNat := by
  have hbytes : ∀ j < 8 * ws.length, blit img x (bytesOf ws) (x + j) = putWords 8 (fun _ => 0) 0 (ws.map BitVec.toNat) j := by
    intro j hj
    rw [blit_inside _ _ (by rw [length_bytesOf]; exact hj), bytesOf, List.getD_eq_getElem?_getD, List.getElem?_map,
      List.getElem?_range hj]
    rfl
  have hword := getLE_putWords 8 (fun _ => 0) 0 (ws.map BitVec.toNat) i (by rw [List.length_map]; exact hi)
  rw [Nat.zero_add] at hword
  rw [getLE_shift, getLE_congr _ _ _ _ fun j h1 h2 => hbytes j (by omega), hword, List.getElem_map]
  exact Nat.mod_eq_of_lt ws[i].isLt

end Xv6.Exec
