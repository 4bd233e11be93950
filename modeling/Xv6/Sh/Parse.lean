/-
The shell parses a line.

`parsecmd` finds the end of the line, parses it, looks for leftovers and terminates the strings of the tree. The bytes
that `nulterminate` overwrites are those just after a word, so none of them is in a word.

Results:
- `nulterminate_apply`: what is overwritten;
- `nulterminate_isStr`: after it each word of the tree is a C string;
- `parsecmd_grammar`: with enough fuel, a line of the grammar gives the tree of its derivation, and any other line panics;
- `derives_unique`: so no line has two.
-/
import Xv6.Sh.Grammar

namespace Xv6.Sh

open Xv6.Bytes

/-! ## Terminating the strings -/

/-- the argv strings and the file names -/
def Cmd.words {α : Type} : Cmd α → List α
  | .exec argv => argv
  | .redir cmd file _ _ => cmd.words ++ [file]
  | .pipe left right => left.words ++ right.words
  | .list left right => left.words ++ right.words
  | .back cmd => cmd.words

theorem Cmd.words_map {α β : Type} (f : α → β) (c : Cmd α) : (c.map f).words = c.words.map f := by
  induction c with
  | exec argv => rfl
  | redir cmd file mode fd ih => simp [Cmd.map, Cmd.words, ih]
  | pipe left right ihl ihr | list left right ihl ihr => simp [Cmd.map, Cmd.words, ihl, ihr]
  | back cmd ih => exact ih

theorem Cmd.words_back {α : Type} (n : ℕ) (c : Cmd α) : (Cmd.back^[n] c).words = c.words := by
  induction n generalizing c with
  | zero => rfl
  | succ n ih => exact ih (.back c)

theorem words_foldl_wrap (rs : List Redir) (c : Cmd Word) :
    (rs.foldl Redir.wrap c).words = c.words ++ rs.map Redir.file := by
  induction rs generalizing c with
  | nil => simp
  | cons r rs ih => simp [ih, Redir.wrap, Cmd.words]

theorem mem_redirs {rs : List Redir} {w : Word} (hw : w ∈ rs.map Redir.file) : .word w ∈ rs.flatMap Redir.tokens := by
  obtain ⟨r, hr, rfl⟩ := List.mem_map.1 hw
  exact List.mem_flatMap.2 ⟨r, hr, by simp [Redir.tokens]⟩

/-- the words of a tree are words of the line -/
theorem Derives.words {N : Symbol} {us : List Token} {c : Cmd Word} (h : Derives N us c) {w : Word} (hw : w ∈ c.words) :
    .word w ∈ us := by
  induction h with
  | block rs _ ih =>
    rw [words_foldl_wrap] at hw
    obtain hw | hw := List.mem_append.1 hw
    · have := ih hw
      simp [this]
    · have := mem_redirs hw
      simp [this]
  | simple rs ws _ =>
    rw [words_foldl_wrap, List.map_append] at hw
    obtain hw | hw := List.mem_append.1 hw
    · obtain ⟨x, hx, rfl⟩ := List.mem_map.1 hw
      exact List.mem_append_right _ (List.mem_flatMap.2 ⟨x, hx, List.mem_cons_self⟩)
    · obtain hw | hw := List.mem_append.1 hw
      · exact List.mem_append_left _ (mem_redirs hw)
      · rw [List.map_flatMap] at hw
        obtain ⟨x, hx, hw⟩ := List.mem_flatMap.1 hw
        exact List.mem_append_right _ (List.mem_flatMap.2 ⟨x, hx, List.mem_cons_of_mem _ (mem_redirs hw)⟩)
  | single _ ih => exact ih hw
  | pipe _ _ ihc ihd =>
    obtain hw | hw := List.mem_append.1 hw
    · exact List.mem_append_left _ (ihc hw)
    · exact List.mem_append_right _ (List.mem_cons_of_mem _ (ihd hw))
  | last n _ ih =>
    rw [Cmd.words_back] at hw
    exact List.mem_append_left _ (ih hw)
  | seq n _ _ ihc ihd =>
    rw [Cmd.words, Cmd.words_back] at hw
    obtain hw | hw := List.mem_append.1 hw
    · exact List.mem_append_left _ (List.mem_append_left _ (ihc hw))
    · exact List.mem_append_right _ (List.mem_cons_of_mem _ (ihd hw))

/-- the strings are terminated one after another -/
theorem nulterminate_eq_foldl (mem : ℕ → Byte) (c : Cmd Ptrs) :
    nulterminate mem c = c.words.foldl (fun mem w => poke mem w.2) mem := by
  induction c generalizing mem with
  | exec argv => rfl
  | redir cmd file mode fd ih => rw [nulterminate, ih, Cmd.words, List.foldl_append]; rfl
  | pipe left right ihl ihr | list left right ihl ihr => rw [nulterminate, ihl, ihr, Cmd.words, List.foldl_append]
  | back cmd ih => exact ih mem

theorem foldl_poke_apply (ws : List Ptrs) (mem : ℕ → Byte) (x : ℕ) :
    ws.foldl (fun mem w => poke mem w.2) mem x = if x ∈ ws.map Prod.snd then 0 else mem x := by
  induction ws generalizing mem with
  | nil => rfl
  | cons w ws ih =>
    rw [List.foldl_cons, ih, poke, Function.update_apply]
    by_cases hw : x = w.2 <;> by_cases hws : x ∈ ws.map Prod.snd <;> simp [List.map_cons, hw, hws]

/-- the bytes after the words become NUL, and no others change -/
theorem nulterminate_apply (mem : ℕ → Byte) (c : Cmd Ptrs) (x : ℕ) :
    nulterminate mem c x = if x ∈ c.words.map Prod.snd then 0 else mem x := by
  rw [nulterminate_eq_foldl, foldl_poke_apply]

/-- the C string at p is text -/
structure IsStr (mem : ℕ → Byte) (p : ℕ) (text : List Byte) : Prop where
  bytes : ∀ i c, text[i]? = some c → mem (p + i) = c ∧ c ≠ 0
  nul : mem (p + text.length) = 0

/-- a word keeps its bytes: the byte after another one is not plain -/
theorem nulterminate_isStr {mem : ℕ → Byte} {c : Cmd Word} (hc : ∀ w ∈ c.words, IsWord mem w) {w : Word} (hw : w ∈ c.words) :
    IsStr (nulterminate mem (c.map Word.ptrs)) w.pos w.text := by
  refine ⟨fun i b hb => ?_, ?_⟩
  · obtain ⟨hmem, hplain, hne⟩ := (hc w hw).bytes i b hb
    rw [nulterminate_apply, if_neg]
    · exact ⟨hmem, hne⟩
    · rw [Cmd.words_map, List.map_map]
      intro hx
      obtain ⟨u, hu, hx⟩ := List.mem_map.1 hx
      have hend := (hc u hu).ends
      rw [show u.pos + u.text.length = w.pos + i from hx, hmem] at hend
      obtain h0 | hp := hend
      · exact hne h0
      · rw [hplain] at hp
        cases hp
  · rw [nulterminate_apply, if_pos]
    rw [Cmd.words_map, List.map_map]
    exact List.mem_map_of_mem (f := Prod.snd ∘ Word.ptrs) hw

/-! ## The line -/

section

variable {mem : ℕ → Byte} {es s k : ℕ} {l : List Byte} {ts : List Token}

theorem At.strend (h : At mem es s l) (hk : l.length < k) : strend mem k s = .ok es := by
  induction l generalizing s k with
  | nil =>
    obtain ⟨k, rfl⟩ := Nat.exists_eq_add_one_of_ne_zero (Nat.ne_of_gt hk)
    rw [Sh.strend, h.eq_end, if_pos h.nul]
  | cons c l ih =>
    obtain ⟨k, rfl⟩ := Nat.exists_eq_add_one_of_ne_zero (Nat.ne_of_gt (Nat.zero_lt_of_lt hk))
    obtain ⟨hc, -, htail⟩ := h.head
    have hne : c ≠ 0 := fun h0 => h.nonzero (h0 ▸ List.mem_cons_self)
    rw [Sh.strend, hc, if_neg hne]
    exact ih htail (Nat.lt_of_succ_lt_succ hk)

/-- a token has at least a byte -/
theorem length_lex_le (s : ℕ) (l : List Byte) : (lex s l).length ≤ l.length := by
  induction hn : l.length using Nat.strong_induction_on generalizing s l with
  | _ n ih =>
    cases l with
    | nil => exact Nat.zero_le _
    | cons c l =>
      subst hn
      have hdrop : (l.dropWhile plain).length ≤ l.length := (List.dropWhile_sublist plain).length_le
      have htail : l.tail.length ≤ l.length := by simp
      have hle : ∀ (s : ℕ) (m : List Byte), m.length ≤ l.length → (lex s m).length ≤ l.length := fun s m hm =>
        (ih m.length (Nat.lt_succ_of_le hm) s m rfl).trans hm
      rw [lex_cons, List.length_cons]
      split_ifs
      · exact (hle _ l le_rfl).trans (Nat.le_succ _)
      · exact Nat.succ_le_succ (hle _ _ hdrop)
      · exact Nat.succ_le_succ (hle _ _ htail)
      · exact Nat.succ_le_succ (hle _ l le_rfl)

/-- leftovers: the parser is at the end if no token is left -/
theorem Sees.peek_end (h : Sees mem es s ts) (toks : List Byte) : (Sh.peek mem es s toks).2 = es ↔ ts = [] := by
  obtain ⟨l, hat, hlex, hhead⟩ := h.skip
  show Sh.skip mem es s = es ↔ ts = []
  cases l with
  | nil => simp [hat.eq_end, ← hlex]
  | cons c l =>
    refine iff_of_false hat.head.2.1.ne ?_
    rw [← hlex, lex_cons, hhead c rfl]
    simp only [Bool.false_eq_true, if_false]
    split_ifs <;> simp

/-- a derivation of the whole line -/
theorem parsecmd_derives {t : Cmd Word} (h : At mem es s l) (ht : Derives .line (lex s l) t) (hk : 4 * l.length + 4 ≤ k) :
    parsecmd k mem s = .ok (t.map Word.ptrs, nulterminate mem (t.map Word.ptrs)) := by
  have hlen := length_lex_le s l
  have hsees : Sees mem es s (lex s l ++ []) := ⟨l, h, (List.append_nil _).symm⟩
  obtain ⟨p, hp, hend⟩ := parse_complete ht k s [] hsees (.inl rfl) (by simp only [Symbol.fuel]; omega)
  have hp : parseline mem es k s = .ok (t.map Word.ptrs, p) := hp
  unfold parsecmd
  rw [h.strend (by omega)]
  show (parseline mem es k s >>= _) = _
  rw [hp]
  show (if (peek mem es p (chars "")).2 ≠ es then _ else _) = _
  rw [if_neg (not_not.2 ((hend.peek_end (chars "")).2 rfl))]
  rfl

/-- a line without one -/
theorem parsecmd_panics (h : At mem es s l) (ht : ∀ t, ¬ Derives .line (lex s l) t) (hk : 4 * l.length + 4 ≤ k) :
    ∃ msg, parsecmd k mem s = .error (.panic msg) := by
  have hlen := length_lex_le s l
  have hfine := (parse_sound mem es k).line s (lex s l) ⟨l, h, rfl⟩ (by omega)
  unfold parsecmd
  rw [h.strend (by omega)]
  show ∃ msg, (parseline mem es k s >>= _) = _
  cases hp : parseline mem es k s with
  | error e =>
    rw [hp] at hfine
    cases e with
    | panic msg => exact ⟨msg, rfl⟩
    | fuel => exact hfine.elim
  | ok r =>
    rw [hp] at hfine
    obtain ⟨us, rest, c, hts, hc, -, hrest⟩ := hfine
    -- the tokens taken are not all of them
    have hne : rest ≠ [] := by
      rintro rfl
      rw [List.append_nil] at hts
      exact ht c (hts ▸ hc)
    have hend : (peek mem es r.2 (chars "")).2 ≠ es := fun he => hne ((hrest.peek_end (chars "")).1 he)
    refine ⟨"syntax", ?_⟩
    show (if (peek mem es r.2 (chars "")).2 ≠ es then _ else _) = _
    rw [if_pos hend]
    rfl

end

/-- **The parser accepts its grammar.** On a line that is terminated by a NUL the parser always stops. If the tokens have a
derivation, its tree is returned, and each string of the tree is then the text of its token; if they have none, the parser
panics. -/
theorem parsecmd_grammar (mem : ℕ → Byte) (s es : ℕ) (line : List Byte) (h : At mem es s line) (fuel : ℕ)
    (hfuel : 4 * line.length + 4 ≤ fuel) :
    (∀ t, Derives .line (lex s line) t → ∃ mem', parsecmd fuel mem s = .ok (t.map Word.ptrs, mem') ∧
      ∀ w ∈ t.words, IsStr mem' w.pos w.text) ∧
    ((∀ t, ¬ Derives .line (lex s line) t) → ∃ msg, parsecmd fuel mem s = .error (.panic msg)) := by
  refine ⟨fun t ht => ⟨_, parsecmd_derives h ht hfuel, fun w hw => ?_⟩, fun ht => parsecmd_panics h ht hfuel⟩
  exact nulterminate_isStr (fun v hv => h.words (ht.words hv)) hw

/-- the line (ls|wc)>f& at 0, and zeros after it -/
def blockLine : List Byte := chars "(ls|wc)>f&"

def blockMem (x : ℕ) : Byte := blockLine.getD x 0

/-- its tree -/
def blockTree : Cmd Word :=
  .back (.redir (.pipe (.exec [⟨1, chars "ls"⟩]) (.exec [⟨4, chars "wc"⟩])) ⟨8, chars "f"⟩ (O_WRONLY ||| O_CREATE) 1)

theorem blockLine_derives : Derives .line (lex 0 blockLine) blockTree := by
  have hlex : lex 0 blockLine = [.sym (ch '('), .word ⟨1, chars "ls"⟩, .sym (ch '|'), .word ⟨4, chars "wc"⟩, .sym (ch ')'),
      .sym (ch '>'), .word ⟨8, chars "f"⟩, .sym (ch '&')] := by decide +kernel
  rw [hlex]
  have hls : Derives .exec [.word ⟨1, chars "ls"⟩] (.exec [⟨1, chars "ls"⟩]) := .simple [] [(_, [])] (by decide)
  have hwc : Derives .exec [.word ⟨4, chars "wc"⟩] (.exec [⟨4, chars "wc"⟩]) := .simple [] [(_, [])] (by decide)
  exact .last 1 (.single (.block [⟨.output, ⟨8, chars "f"⟩⟩] (.last 0 (.pipe hls (.single hwc)))))

theorem blockMem_at : At blockMem 10 0 blockLine := by
  refine ⟨fun i c hc => ?_, by decide, by decide, by decide⟩
  rw [Nat.zero_add, blockMem, List.getD_eq_getElem?_getD, hc]
  rfl

theorem parsecmd_grammar_block : ∃ mem', parsecmd 44 blockMem 0 = .ok (blockTree.map Word.ptrs, mem') ∧
    ∀ w ∈ blockTree.words, IsStr mem' w.pos w.text :=
  (parsecmd_grammar blockMem 0 10 blockLine blockMem_at 44 (by decide)).1 blockTree blockLine_derives

/-- **The grammar is not ambiguous.** The commands of two derivations of a line have the same strings in the same places. -/
theorem derives_unique {mem : ℕ → Byte} {s es : ℕ} {line : List Byte} {t t' : Cmd Word} (h : At mem es s line)
    (ht : Derives .line (lex s line) t) (ht' : Derives .line (lex s line) t') : t.map Word.ptrs = t'.map Word.ptrs := by
  have hparse := (parsecmd_derives h ht le_rfl).symm.trans (parsecmd_derives h ht' le_rfl)
  exact (Prod.mk.inj (Except.ok.inj hparse)).1

theorem derives_unique_block : Derives .line (lex 0 blockLine) blockTree ∧
    ∀ t, Derives .line (lex 0 blockLine) t → t.map Word.ptrs = blockTree.map Word.ptrs :=
  ⟨blockLine_derives, fun _ ht => derives_unique blockMem_at ht blockLine_derives⟩

end Xv6.Sh
