/-
The loop of `grep`: it reads into a buffer of 1024 bytes, writes the lines in it that match, and keeps the last line, if
it is not complete, for the next turn.

The buffer is the list of its m bytes, up to the NUL that the loop puts behind them, and a pointer into it is the list of
the bytes from there on. What `read` returns is given: the list of its results before the end of the file. A result that
is longer than what was asked for is not possible.

`if(p == buf) m = 0` is for a line that does not fit the buffer, but it holds whenever there is no newline in the buffer.
- `grep_eq`: what is written are the lines of the text that is left when a result without a newline is forgotten together
  with everything since the last newline (`heard`);
- `grep_output_iff`: so the output is right for all patterns exactly when every result has a newline in it, and for one
  pattern exactly when the forgotten parts make no difference to the lines that match.
-/
import Xv6.Grep.Match

namespace Xv6.Grep

open Bytes (Byte)

/-! ## The code -/

/-- '\n' -/
def nl : Byte := chr '\n'

/-- sizeof(buf) -/
def bufSize : ℕ := 1024

/-- `strchr`: what is before the first c in the string, and what is after it -/
def strchr (c : Byte) : Str → Option (Str × Str)
  | [] => none
  | b :: s =>
    if b = 0 then none
    else if b = c then some ([], s)
    else (strchr c s).map fun r => (b :: r.1, r.2)

theorem strchr_length {c : Byte} {s line p : Str} (h : strchr c s = some (line, p)) : p.length < s.length := by
  induction s generalizing line with
  | nil => simp [strchr] at h
  | cons b s ih =>
    rw [strchr] at h
    split_ifs at h
    · obtain ⟨rfl, rfl⟩ := Prod.mk.inj (Option.some.inj h)
      exact Nat.lt_succ_self _
    · obtain ⟨r, hr, heq⟩ := Option.map_eq_some_iff.1 h
      obtain ⟨-, rfl⟩ := Prod.mk.inj heq
      exact (ih hr).trans (Nat.lt_succ_self _)

/-- the inner loop, from p on: what it writes, and p after it -/
def scan (pattern p : Str) : Str × Str :=
  match h : strchr nl p with
  | none => ([], p)
  | some (line, p') =>
    have := strchr_length h
    let r := scan pattern p'
    ((if grepMatch pattern line then line ++ [nl] else []) ++ r.1, r.2)
termination_by p.length

/-- a turn of the outer loop when m bytes are kept and r is read: what it writes, and what is kept -/
def turn (pattern kept r : Str) : Str × Str :=
  let buf := kept ++ r
  let s := scan pattern buf
  -- p == buf
  if s.2.length = buf.length then (s.1, []) else s

/-- the outer loop, on the results of `read`: what it writes; none: a result is longer than what was asked for -/
def grepLoop (pattern : Str) : Str → List Str → Option Str
  | _, [] => some []
  | kept, r :: reads =>
    if r = [] then some []
    else if r.length ≤ bufSize - kept.length - 1 then
      (grepLoop pattern (turn pattern kept r).2 reads).map ((turn pattern kept r).1 ++ ·)
    else none

def grep (pattern : Str) (reads : List Str) : Option Str := grepLoop pattern [] reads

/-! ## Lines -/

/-- lines, each with its newline -/
def unlines (ls : List Str) : Str := ls.flatMap (· ++ [nl])

/-- the complete lines of a text, and what comes after them -/
def split : Str → List Str × Str
  | [] => ([], [])
  | b :: s =>
    if b = nl then ([] :: (split s).1, (split s).2)
    else
      match (split s).1 with
      | [] => ([], b :: (split s).2)
      | l :: ls => ((b :: l) :: ls, (split s).2)

@[simp] theorem unlines_nil : unlines [] = [] := rfl

@[simp] theorem unlines_cons (l : Str) (ls : List Str) : unlines (l :: ls) = l ++ nl :: unlines ls := by
  simp [unlines]

@[simp] theorem unlines_append (ls ls' : List Str) : unlines (ls ++ ls') = unlines ls ++ unlines ls' := by
  simp [unlines]

theorem split_cons (b : Byte) (s : Str) (hb : b ≠ nl) (l : Str) (ls : List Str) (rest : Str)
    (h : split s = (l :: ls, rest)) : split (b :: s) = ((b :: l) :: ls, rest) := by
  rw [split, if_neg hb, h]

theorem split_of_not_mem {s : Str} (h : nl ∉ s) : split s = ([], s) := by
  induction s with
  | nil => rfl
  | cons b s ih =>
    obtain ⟨hb, hs⟩ := List.ne_and_not_mem_of_not_mem_cons h
    rw [split, if_neg (Ne.symm hb), ih hs]

theorem split_line {l : Str} (h : nl ∉ l) (s : Str) : split (l ++ nl :: s) = (l :: (split s).1, (split s).2) := by
  induction l with
  | nil => rw [List.nil_append, split, if_pos rfl]
  | cons b l ih =>
    obtain ⟨hb, hl⟩ := List.ne_and_not_mem_of_not_mem_cons h
    exact split_cons b _ (Ne.symm hb) _ _ _ (ih hl)

theorem split_unlines {ls : List Str} (h : ∀ l ∈ ls, nl ∉ l) (s : Str) :
    split (unlines ls ++ s) = (ls ++ (split s).1, (split s).2) := by
  induction ls with
  | nil => rfl
  | cons l ls ih =>
    have hl := h l List.mem_cons_self
    have hls := ih fun l' hl' => h l' (List.mem_cons_of_mem l hl')
    rw [unlines_cons, List.append_assoc, List.cons_append, split_line hl, hls, List.cons_append]

theorem split_spec (s : Str) :
    s = unlines (split s).1 ++ (split s).2 ∧ (∀ l ∈ (split s).1, nl ∉ l) ∧ nl ∉ (split s).2 := by
  induction s with
  | nil => exact ⟨rfl, by simp [split], by simp [split]⟩
  | cons b s ih =>
    obtain ⟨hs, hls, hrest⟩ := ih
    rw [split]
    split_ifs with hb
    · refine ⟨?_, ?_, hrest⟩
      · rw [unlines_cons, List.nil_append, List.cons_append, ← hs, hb]
      · rintro l (_ | ⟨_, hl⟩)
        · exact List.not_mem_nil
        · exact hls l hl
    · cases hc : (split s).1 with
      | nil =>
        rw [hc, unlines_nil, List.nil_append] at hs
        refine ⟨by rw [← hs]; rfl, List.forall_mem_nil _, ?_⟩
        exact List.not_mem_cons_of_ne_of_not_mem (Ne.symm hb) hrest
      | cons l ls =>
        rw [hc] at hs hls
        refine ⟨?_, ?_, hrest⟩
        · rw [unlines_cons, List.cons_append, List.cons_append, ← unlines_cons, ← hs]
        · rintro l' (_ | ⟨_, hl⟩)
          · exact List.not_mem_cons_of_ne_of_not_mem (Ne.symm hb) (hls l List.mem_cons_self)
          · exact hls l' (List.mem_cons_of_mem l hl)

/-- the lines of a longer text -/
theorem split_append (t r : Str) :
    split (t ++ r) = ((split t).1 ++ (split ((split t).2 ++ r)).1, (split ((split t).2 ++ r)).2) := by
  obtain ⟨ht, hls, -⟩ := split_spec t
  conv_lhs => rw [ht, List.append_assoc]
  exact split_unlines hls _

theorem split_unlines_self {ls : List Str} (h : ∀ l ∈ ls, nl ∉ l) : split (unlines ls) = (ls, []) := by
  rw [← List.append_nil (unlines ls), split_unlines h []]
  exact Prod.ext (List.append_nil ls) rfl

theorem unlines_injective {ls ls' : List Str} (h : ∀ l ∈ ls, nl ∉ l) (h' : ∀ l ∈ ls', nl ∉ l)
    (heq : unlines ls = unlines ls') : ls = ls' := by
  have hsplit := split_unlines_self h
  rw [heq, split_unlines_self h'] at hsplit
  exact (congrArg Prod.fst hsplit).symm

/-! ## A turn -/

theorem strchr_none {s : Str} (h : nl ∉ s) : strchr nl s = none := by
  induction s with
  | nil => rfl
  | cons b s ih =>
    obtain ⟨hb, hs⟩ := List.ne_and_not_mem_of_not_mem_cons h
    rw [strchr, if_neg (Ne.symm hb), ih hs]
    exact ite_self _

theorem strchr_line {l : Str} (h : nl ∉ l) (h0 : 0 ∉ l) (s : Str) : strchr nl (l ++ nl :: s) = some (l, s) := by
  induction l with
  | nil => rfl
  | cons b l ih =>
    obtain ⟨hb, hl⟩ := List.ne_and_not_mem_of_not_mem_cons h
    obtain ⟨hb0, hl0⟩ := List.ne_and_not_mem_of_not_mem_cons h0
    rw [List.cons_append, strchr, if_neg (Ne.symm hb0), if_neg (Ne.symm hb), ih hl hl0]
    rfl

theorem scan_none (pattern : Str) {p : Str} (h : strchr nl p = none) : scan pattern p = ([], p) := by
  rw [scan]
  split
  · rfl
  · next h' => rw [h] at h'; cases h'

theorem scan_some (pattern : Str) {p line p' : Str} (h : strchr nl p = some (line, p')) : scan pattern p =
    ((if grepMatch pattern line then line ++ [nl] else []) ++ (scan pattern p').1, (scan pattern p').2) := by
  rw [scan]
  split
  · next h' => rw [h] at h'; cases h'
  · next h' =>
    obtain ⟨rfl, rfl⟩ := Prod.mk.inj (Option.some.inj (h.symm.trans h'))
    rfl

/-- what the inner loop writes of lines, and where it stops -/
theorem scan_unlines (pattern : Str) {ls : List Str} {rest : Str} (hls : ∀ l ∈ ls, nl ∉ l) (hls0 : ∀ l ∈ ls, 0 ∉ l)
    (hrest : nl ∉ rest) :
    scan pattern (unlines ls ++ rest) = (unlines (ls.filter (grepMatch pattern)), rest) := by
  induction ls with
  | nil =>
    rw [unlines_nil, List.nil_append, scan_none pattern (strchr_none hrest)]
    rfl
  | cons l ls ih =>
    have hnext := ih (fun l' hl' => hls l' (List.mem_cons_of_mem l hl'))
      fun l' hl' => hls0 l' (List.mem_cons_of_mem l hl')
    have hline : strchr nl (unlines (l :: ls) ++ rest) = some (l, unlines ls ++ rest) := by
      rw [unlines_cons, List.append_assoc, List.cons_append]
      exact strchr_line (hls l List.mem_cons_self) (hls0 l List.mem_cons_self) _
    rw [scan_some pattern hline, hnext, List.filter_cons]
    split_ifs
    · rw [unlines_cons, List.append_assoc]
      rfl
    · rfl

theorem scan_eq (pattern : Str) {s : Str} (h0 : 0 ∉ s) :
    scan pattern s = (unlines ((split s).1.filter (grepMatch pattern)), (split s).2) := by
  obtain ⟨hs, hls, hrest⟩ := split_spec s
  have hls0 : ∀ l ∈ (split s).1, 0 ∉ l := by
    intro l hl hmem
    refine h0 (hs ▸ List.mem_append_left _ (List.mem_flatMap.2 ⟨l, hl, ?_⟩))
    exact List.mem_append_left _ hmem
  conv_lhs => rw [hs]
  exact scan_unlines pattern hls hls0 hrest

theorem mem_iff_split {s : Str} : nl ∈ s ↔ (split s).1 ≠ [] := by
  constructor
  · intro h hnil
    obtain ⟨hs, -, hrest⟩ := split_spec s
    rw [hnil, unlines_nil, List.nil_append] at hs
    exact hrest (hs ▸ h)
  · intro h
    by_contra hmem
    rw [split_of_not_mem hmem] at h
    exact h rfl

/-- what is kept of the text in the buffer -/
def carry (s : Str) : Str := if nl ∈ s then (split s).2 else []

theorem turn_eq (pattern : Str) {kept r : Str} (h0 : 0 ∉ kept ++ r) : turn pattern kept r =
    (unlines ((split (kept ++ r)).1.filter (grepMatch pattern)), carry (kept ++ r)) := by
  unfold turn carry
  dsimp only
  rw [scan_eq pattern h0]
  by_cases hmem : nl ∈ kept ++ r
  · -- the lines that were found are between buf and p
    have hlen : (split (kept ++ r)).2.length ≠ (kept ++ r).length := by
      have hspec := congrArg List.length (split_spec (kept ++ r)).1
      obtain ⟨l, ls, hls⟩ := List.exists_cons_of_ne_nil (mem_iff_split.1 hmem)
      simp only [hls, unlines_cons, List.length_append, List.length_cons] at hspec
      rw [List.length_append]
      omega
    rw [if_neg hlen, if_pos hmem]
  · rw [split_of_not_mem hmem, if_pos rfl, if_neg hmem]

/-! ## The loop -/

/-- no result is empty or longer than what was asked for -/
def Legal : Str → List Str → Prop
  | _, [] => True
  | kept, r :: reads => r ≠ [] ∧ r.length ≤ bufSize - kept.length - 1 ∧ Legal (carry (kept ++ r)) reads

/-- a result without a newline is forgotten together with everything since the last newline -/
def hear (t r : Str) : Str := if nl ∈ r then t ++ r else unlines (split t).1

/-- the text that is left of the results -/
def heard (reads : List Str) : Str := reads.foldl hear []

/-- what is kept is what follows the lines of the text heard -/
theorem split_hear (t r : Str) : split (hear t r) =
    ((split t).1 ++ (split ((split t).2 ++ r)).1, carry ((split t).2 ++ r)) := by
  obtain ⟨-, hls, hrest⟩ := split_spec t
  by_cases hr : nl ∈ r
  · rw [hear, if_pos hr, carry, if_pos (List.mem_append_right _ hr)]
    exact split_append t r
  · have hmem : nl ∉ (split t).2 ++ r := by simp [hrest, hr]
    rw [hear, if_neg hr, carry, if_neg hmem, split_of_not_mem hmem, ← List.append_nil (unlines _)]
    exact split_unlines hls []

theorem carry_subset (s : Str) : carry s ⊆ s := by
  unfold carry
  split_ifs
  · intro b hb
    rw [(split_spec s).1]
    exact List.mem_append_right _ hb
  · exact List.nil_subset s

/-- the loop after the text t was heard: it writes the lines that match of what is heard from there on -/
theorem grepLoop_eq (pattern : Str) (reads : List Str) (t : Str) (hlegal : Legal (split t).2 reads)
    (ht0 : 0 ∉ (split t).2) (h0 : ∀ r ∈ reads, 0 ∉ r) : ∃ out, grepLoop pattern (split t).2 reads = some out ∧
      unlines ((split t).1.filter (grepMatch pattern)) ++ out =
        unlines ((split (reads.foldl hear t)).1.filter (grepMatch pattern)) := by
  induction reads generalizing t with
  | nil => exact ⟨[], rfl, List.append_nil _⟩
  | cons r reads ih =>
    obtain ⟨hne, hlen, hlegal⟩ := hlegal
    have hr0 : 0 ∉ (split t).2 ++ r := fun h => (List.mem_append.1 h).elim ht0 (h0 r List.mem_cons_self)
    have hturn := turn_eq pattern hr0
    have hlines : (split (hear t r)).1 = (split t).1 ++ (split ((split t).2 ++ r)).1 := congrArg Prod.fst (split_hear t r)
    have hnext : (split (hear t r)).2 = carry ((split t).2 ++ r) := congrArg Prod.snd (split_hear t r)
    obtain ⟨out, hout, heq⟩ := ih (hear t r) (hnext.symm ▸ hlegal) (fun h => hr0 (carry_subset _ (hnext ▸ h)))
      fun r' hr' => h0 r' (List.mem_cons_of_mem r hr')
    refine ⟨unlines ((split ((split t).2 ++ r)).1.filter (grepMatch pattern)) ++ out, ?_, ?_⟩
    · rw [grepLoop, if_neg hne, if_pos hlen, hturn]
      dsimp only
      rw [← hnext, hout]
      rfl
    · rw [← List.append_assoc, ← unlines_append, ← List.filter_append, ← hlines]
      exact heq

/-- **What grep writes.** -/
theorem grep_eq (pattern : Str) (reads : List Str) (hlegal : Legal [] reads) (h0 : ∀ r ∈ reads, 0 ∉ r) :
    grep pattern reads = some (unlines ((split (heard reads)).1.filter (grepMatch pattern))) := by
  obtain ⟨out, hout, heq⟩ := grepLoop_eq pattern reads [] hlegal List.not_mem_nil h0
  rw [grep, heard, ← heq]
  exact hout

/-! ## When it is right -/

theorem foldl_hear_of_forall {reads : List Str} (t : Str) (h : ∀ r ∈ reads, nl ∈ r) :
    reads.foldl hear t = t ++ reads.flatten := by
  induction reads generalizing t with
  | nil => exact (List.append_nil t).symm
  | cons r reads ih =>
    have hr : hear t r = t ++ r := if_pos (h r List.mem_cons_self)
    rw [List.foldl_cons, hr, ih _ fun r' hr' => h r' (List.mem_cons_of_mem r hr'), List.append_assoc]
    rfl

theorem length_hear_le (t r : Str) : (hear t r).length ≤ t.length + r.length := by
  unfold hear
  split_ifs
  · rw [List.length_append]
  · have hspec := congrArg List.length (split_spec t).1
    rw [List.length_append] at hspec
    omega

theorem length_hear_lt {t r : Str} (hne : r ≠ []) (h : nl ∉ r) : (hear t r).length < t.length + r.length := by
  have hspec := congrArg List.length (split_spec t).1
  have hpos := List.length_pos_iff.2 hne
  rw [List.length_append] at hspec
  rw [hear, if_neg h]
  omega

/-- nothing is forgotten if the text heard is as long as the text read -/
theorem forall_mem_of_length {reads : List Str} {t : Str} (hne : ∀ r ∈ reads, r ≠ []) :
    (reads.foldl hear t).length ≤ t.length + reads.flatten.length ∧
      ((reads.foldl hear t).length = t.length + reads.flatten.length → ∀ r ∈ reads, nl ∈ r) := by
  induction reads generalizing t with
  | nil => exact ⟨le_rfl, fun _ => List.forall_mem_nil _⟩
  | cons r reads ih =>
    obtain ⟨hle, hall⟩ := ih (t := hear t r) fun r' hr' => hne r' (List.mem_cons_of_mem r hr')
    have hr := length_hear_le t r
    rw [List.foldl_cons, List.flatten_cons, List.length_append]
    refine ⟨by omega, fun heq => ?_⟩
    have hmem : nl ∈ r := by
      by_contra hno
      have := length_hear_lt (t := t) (hne r List.mem_cons_self) hno
      omega
    exact List.forall_mem_cons.2 ⟨hmem, hall (by omega)⟩

theorem Legal.ne_nil {kept : Str} {reads : List Str} (h : Legal kept reads) : ∀ r ∈ reads, r ≠ [] := by
  induction reads generalizing kept with
  | nil => exact List.forall_mem_nil _
  | cons r reads ih => exact List.forall_mem_cons.2 ⟨h.1, ih h.2.2⟩

/-- the empty pattern matches every line -/
theorem filter_empty (ls : List Str) : ls.filter (grepMatch []) = ls := by
  refine List.filter_eq_self.2 fun l _ => ?_
  rw [grepMatch, if_neg (by simp)]
  cases l <;> simp [search, matchhere]

theorem zero_not_mem_reads {ls reads : List Str} (hls : ∀ l ∈ ls, 0 ∉ l) (hcut : reads.flatten = unlines ls) :
    ∀ r ∈ reads, 0 ∉ r := by
  intro r hr hmem
  have hin : (0 : Byte) ∈ unlines ls := hcut ▸ List.mem_flatten.2 ⟨r, hr, hmem⟩
  obtain ⟨l, hl, h⟩ := List.mem_flatMap.1 hin
  rcases List.mem_append.1 h with h | h
  · exact hls l hl h
  · exact absurd (List.mem_singleton.1 h) (by decide)

/-- one pattern: the lines of the text heard are to match as the lines of the text do -/
theorem grep_eq_iff {ls reads : List Str} (hls : ∀ l ∈ ls, nl ∉ l ∧ 0 ∉ l) (hlegal : Legal [] reads)
    (hcut : reads.flatten = unlines ls) (pattern : Str) :
    grep pattern reads = some (unlines (ls.filter (grepMatch pattern))) ↔
      (split (heard reads)).1.filter (grepMatch pattern) = ls.filter (grepMatch pattern) := by
  rw [grep_eq pattern reads hlegal (zero_not_mem_reads (fun l hl => (hls l hl).2) hcut)]
  constructor
  · intro h
    refine unlines_injective (fun l hl => ?_) (fun l hl => ?_) (Option.some.inj h)
    · exact (split_spec _).2.1 l (List.mem_of_mem_filter hl)
    · exact (hls l (List.mem_of_mem_filter hl)).1
  · exact fun h => by rw [h]

/-- **The output depends on how the input arrives.** -/
theorem grep_output_iff (ls : List Str) (hls : ∀ l ∈ ls, nl ∉ l ∧ 0 ∉ l) (reads : List Str) (hlegal : Legal [] reads)
    (hcut : reads.flatten = unlines ls) :
    ((∀ pattern, grep pattern reads = some (unlines (ls.filter (grepMatch pattern)))) ↔ ∀ r ∈ reads, nl ∈ r) ∧
    ∀ pattern, grep pattern reads = some (unlines (ls.filter (grepMatch pattern))) ↔
      (split (heard reads)).1.filter (grepMatch pattern) = ls.filter (grepMatch pattern) := by
  have hone := grep_eq_iff hls hlegal hcut
  refine ⟨⟨fun h => ?_, fun h pattern => (hone pattern).2 ?_⟩, hone⟩
  · -- with the empty pattern, the text heard is as long as the text
    have hlines := (hone []).1 (h [])
    rw [filter_empty, filter_empty] at hlines
    have hlen := forall_mem_of_length (t := []) hlegal.ne_nil
    refine hlen.2 (le_antisymm hlen.1 ?_)
    calc ([] : Str).length + reads.flatten.length
        = (unlines (split (heard reads)).1).length := by rw [hcut, hlines, List.length_nil, Nat.zero_add]
      _ ≤ (unlines (split (heard reads)).1 ++ (split (heard reads)).2).length := by simp
      _ = (heard reads).length := by rw [← (split_spec (heard reads)).1]
  · have hheard : heard reads = unlines ls := (foldl_hear_of_forall [] h).trans hcut
    rw [hheard, split_unlines_self fun l hl => (hls l hl).1]

/-- "a\nbc\n" in two reads, cut inside the second line: the pattern "bc" is found -/
theorem grep_output_iff_cut : Legal [] [[chr 'a', nl, chr 'b'], [chr 'c', nl]] ∧
    grep [chr 'b', chr 'c'] [[chr 'a', nl, chr 'b'], [chr 'c', nl]] =
      some (unlines ([[chr 'a'], [chr 'b', chr 'c']].filter (grepMatch [chr 'b', chr 'c']))) := by
  have hlegal : Legal [] [[chr 'a', nl, chr 'b'], [chr 'c', nl]] := ⟨by simp, by decide, by simp, by decide, trivial⟩
  exact ⟨hlegal, (grep_output_iff [[chr 'a'], [chr 'b', chr 'c']] (by decide) _ hlegal rfl).1.2 (by decide) [chr 'b', chr 'c']⟩

/-- "abc\n" in two reads: "ab" is forgotten, and the pattern "abc" no longer found -/
theorem grep_forgets : Legal [] [[chr 'a', chr 'b'], [chr 'c', nl]] ∧
    [[chr 'a', chr 'b'], [chr 'c', nl]].flatten = unlines [[chr 'a', chr 'b', chr 'c']] ∧
    grep [chr 'a', chr 'b', chr 'c'] [[chr 'a', chr 'b'], [chr 'c', nl]] ≠
      some (unlines ([[chr 'a', chr 'b', chr 'c']].filter (grepMatch [chr 'a', chr 'b', chr 'c']))) ∧
    grep [chr 'a', chr 'b', chr 'c'] [[chr 'a', chr 'b'], [chr 'c', nl]] = some [] := by
  refine ⟨⟨by simp, by decide, by simp, by decide, trivial⟩, ?_, ?_, ?_⟩
  all_goals decide +kernel

end Xv6.Grep
