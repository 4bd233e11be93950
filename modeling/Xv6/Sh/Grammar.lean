/-
The shell's parser accepts its grammar and builds the tree of the derivation.

  line = pipe '&'* [';' line]
  pipe = exec ['|' pipe]
  exec = '(' line ')' redir* | redir* (word redir*)*     with fewer than MAXARGS words
  redir = ('<' | '>' | '>>') word

`Derives` is this grammar with its trees. `parse_sound`: with enough fuel, each function of the parser panics or returns the
tree of a derivation of the tokens it has taken. `parse_complete`: it returns the tree of any derivation, if what follows
cannot be part of it.
-/
import Xv6.Sh.Lex

namespace Xv6.Sh

open Xv6.Bytes

/-! ## The grammar -/

def Cmd.map {α β : Type} (f : α → β) : Cmd α → Cmd β
  | .exec argv => .exec (argv.map f)
  | .redir cmd file mode fd => .redir (cmd.map f) (f file) mode fd
  | .pipe left right => .pipe (left.map f) (right.map f)
  | .list left right => .list (left.map f) (right.map f)
  | .back cmd => .back (cmd.map f)

/-- <, > and >> -/
inductive Mode where
  | input
  | output
  | append
deriving DecidableEq

def Mode.token : Mode → Token
  | .input => .sym (ch '<')
  | .output => .sym (ch '>')
  | .append => .append

/-- how the file is opened -/
def Mode.flags : Mode → ℕ
  | .input => O_RDONLY
  | .output | .append => O_WRONLY ||| O_CREATE

/-- what it replaces -/
def Mode.fd : Mode → ℕ
  | .input => 0
  | .output | .append => 1

structure Redir where
  mode : Mode
  file : Word

def Redir.tokens (r : Redir) : List Token := [r.mode.token, .word r.file]

/-- the redirection goes around the command -/
def Redir.wrap (c : Cmd Word) (r : Redir) : Cmd Word := .redir c r.file r.mode.flags r.mode.fd

inductive Symbol where
  | line
  | pipe
  | exec
deriving DecidableEq

inductive Derives : Symbol → List Token → Cmd Word → Prop where
  | block {ts : List Token} {c : Cmd Word} (rs : List Redir) : Derives .line ts c →
      Derives .exec (.sym (ch '(') :: ts ++ .sym (ch ')') :: rs.flatMap Redir.tokens) (rs.foldl Redir.wrap c)
  | simple (rs : List Redir) (ws : List (Word × List Redir)) : ws.length < MAXARGS →
      Derives .exec (rs.flatMap Redir.tokens ++ ws.flatMap fun x => .word x.1 :: x.2.flatMap Redir.tokens)
        ((rs ++ ws.flatMap Prod.snd).foldl Redir.wrap (.exec (ws.map Prod.fst)))
  | single {ts : List Token} {c : Cmd Word} : Derives .exec ts c → Derives .pipe ts c
  | pipe {ts us : List Token} {c d : Cmd Word} : Derives .exec ts c → Derives .pipe us d →
      Derives .pipe (ts ++ .sym (ch '|') :: us) (.pipe c d)
  | last {ts : List Token} {c : Cmd Word} (n : ℕ) : Derives .pipe ts c →
      Derives .line (ts ++ List.replicate n (.sym (ch '&'))) (Cmd.back^[n] c)
  | seq {ts us : List Token} {c d : Cmd Word} (n : ℕ) : Derives .pipe ts c → Derives .line us d →
      Derives .line (ts ++ List.replicate n (.sym (ch '&')) ++ .sym (ch ';') :: us) (.list (Cmd.back^[n] c) d)

/-! ## Tokens as the parser looks at them -/

/-- the next token begins with one of these bytes -/
def Begins (cs : List Byte) (ts : List Token) : Prop := ∃ t ∈ ts.head?, t.first ∈ cs

section

variable {mem : ℕ → Byte} {es s k : ℕ} {ts rest : List Token} {t : Token}

theorem Sees.peek_iff (h : Sees mem es s ts) (cs : List Byte) :
    (Sh.peek mem es s cs).1 = true ↔ Begins cs ts := by
  rw [(h.peek cs).2, Option.any_eq_true]
  simp [Begins]

/-- the next token is this symbol, which is then taken -/
theorem Sees.take {cs : List Byte} (h : Sees mem es s ts) (hb : Begins cs ts) (c : Byte) (hcs : cs = [c])
    (hc : c ∈ symbols ∧ c ≠ ch '>') : ∃ rest, ts = .sym c :: rest ∧ Sees mem es (Sh.gettoken mem es s).ps rest := by
  obtain ⟨t, ht, hfirst⟩ := hb
  subst hcs
  cases ts with
  | nil => cases ht
  | cons t' rest =>
    obtain rfl := Option.some.inj ht
    refine ⟨rest, ?_, h.gettoken.2.1⟩
    have hfirst : t'.first = c := List.mem_singleton.1 hfirst
    cases t' with
    | sym d => rw [← hfirst]; rfl
    | append => exact absurd hfirst.symm hc.2
    | word w => exact absurd hfirst (not_symbol_of_plain (h.ok List.mem_cons_self) hc.1)

/-- what `gettoken` returns tells the kind of the token -/
theorem Token.code_eq_a (h : t.Ok) : t.code = ch 'a' ↔ ∃ w, t = .word w := by
  cases t with
  | sym c =>
    have hall : ∀ d ∈ symbols, d ≠ ch 'a' := by decide
    simpa [Token.code] using hall c h
  | append => simp [Token.code]; decide
  | word w => simp [Token.code]

theorem Token.code_ne_zero (h : t.Ok) : t.code ≠ 0 := by
  cases t with
  | sym c =>
    have hall : ∀ d ∈ symbols, d ≠ 0 := by decide
    exact hall c h
  | append => exact (by decide : ch '+' ≠ 0)
  | word w => exact (by decide : ch 'a' ≠ 0)

/-- a token that begins like a redirection is the sign of one -/
theorem mode_of_begins (h : t.Ok) (hb : Begins (chars "<>") (t :: ts)) : ∃ m : Mode, t = m.token := by
  obtain ⟨u, hu, hfirst⟩ := hb
  cases hu
  have hchars : ∀ d ∈ chars "<>", d ∈ symbols ∧ (d = ch '<' ∨ d = ch '>') := by decide
  obtain ⟨hsym, hd⟩ := hchars _ hfirst
  cases t with
  | sym c =>
    obtain rfl | rfl : c = ch '<' ∨ c = ch '>' := hd
    · exact ⟨.input, rfl⟩
    · exact ⟨.output, rfl⟩
  | append => exact ⟨.append, rfl⟩
  | word w => exact absurd rfl (not_symbol_of_plain h hsym)

theorem redircmd_mode (c : Cmd Word) (r : Redir) :
    redircmd (c.map Word.ptrs) r.mode.token.code r.file.ptrs = (Redir.wrap c r).map Word.ptrs := by
  obtain ⟨m, w⟩ := r
  have h1 : ch '>' ≠ ch '<' := by decide
  have h2 : ch '+' ≠ ch '<' := by decide
  have h3 : ch '+' ≠ ch '>' := by decide
  cases m with
  | input => simp [redircmd, Mode.token, Token.code, Redir.wrap, Cmd.map, Mode.flags, Mode.fd]
  | output => simp [redircmd, Mode.token, Token.code, Redir.wrap, Cmd.map, Mode.flags, Mode.fd, h1]
  | append => simp [redircmd, Mode.token, Token.code, Redir.wrap, Cmd.map, Mode.flags, Mode.fd, h2, h3]

end

/-! ## Results -/

/-- no lack of fuel, and what holds if there is no panic -/
def Fine {α : Type} (P : α → Prop) : Except Err α → Prop
  | .ok a => P a
  | .error (.panic _) => True
  | .error .fuel => False

theorem Fine.bind {α β : Type} {P : α → Prop} {Q : β → Prop} {x : Except Err α} {f : α → Except Err β} (hx : Fine P x)
    (hf : ∀ a, P a → Fine Q (f a)) : Fine Q (x >>= f) := by
  cases x with
  | ok a => exact hf a hx
  | error e =>
    cases e with
    | panic msg => trivial
    | fuel => exact hx

theorem Fine.mono {α : Type} {P Q : α → Prop} {x : Except Err α} (hx : Fine P x) (h : ∀ a, P a → Q a) : Fine Q x := by
  cases x with
  | ok a => exact h a hx
  | error e =>
    cases e with
    | panic msg => trivial
    | fuel => exact hx

/-- the parser has taken us, a derivation of it is c, and goes on at the rest -/
def Took (mem : ℕ → Byte) (es : ℕ) (ts : List Token) (P : List Token → Cmd Word → Prop) (r : Cmd Ptrs × ℕ) : Prop :=
  ∃ us rest c, ts = us ++ rest ∧ P us c ∧ r.1 = c.map Word.ptrs ∧ Sees mem es r.2 rest

/-! ## Soundness -/

section

variable {mem : ℕ → Byte} {es s k : ℕ} {ts rest : List Token} {t : Token}

/-- us is redirections, and they are around c -/
def Redirs (c : Cmd Word) (us : List Token) (d : Cmd Word) : Prop :=
  ∃ rs : List Redir, us = rs.flatMap Redir.tokens ∧ d = rs.foldl Redir.wrap c

theorem Redirs.cons {c d : Cmd Word} {us : List Token} (r : Redir) (h : Redirs (Redir.wrap c r) us d) :
    Redirs c (r.tokens ++ us) d := by
  obtain ⟨rs, rfl, rfl⟩ := h
  exact ⟨r :: rs, by simp, rfl⟩

theorem parseredirs_sound (h : Sees mem es s ts) (hk : ts.length < k) (c : Cmd Word) :
    Fine (Took mem es ts (Redirs c)) (parseredirs mem es k (c.map Word.ptrs) s) := by
  induction k generalizing s ts c with
  | zero => exact absurd hk (Nat.not_lt_zero _)
  | succ k ih =>
    rw [parseredirs]
    have hsees := (h.peek (chars "<>")).1
    have hpeek := h.peek_iff (chars "<>")
    cases hp : (peek mem es s (chars "<>")).1 with
    | false =>
      simp only [Bool.not_false, if_true]
      exact ⟨[], ts, c, rfl, ⟨[], rfl, rfl⟩, rfl, hsees⟩
    | true =>
      simp only [Bool.not_true, Bool.false_eq_true, if_false]
      have hb := hpeek.1 hp
      cases ts with
      | nil =>
        obtain ⟨t, ht, -⟩ := hb
        cases ht
      | cons t ts =>
        obtain ⟨m, rfl⟩ := mode_of_begins (h.ok List.mem_cons_self) hb
        obtain ⟨htok, hrest, -⟩ := hsees.gettoken
        cases ts with
        | nil =>
          rw [(hrest.gettoken_nil).1, if_pos (by decide)]
          trivial
        | cons u ts =>
          obtain ⟨hfile, hrest', hword⟩ := hrest.gettoken
          rw [hfile, htok]
          by_cases ha : u.code = ch 'a'
          · rw [if_neg (not_not.2 ha)]
            obtain ⟨w, rfl⟩ := (Token.code_eq_a (hrest.ok List.mem_cons_self)).1 ha
            rw [hword w rfl, redircmd_mode c ⟨m, w⟩]
            have hlen : ts.length < k := by
              simp only [List.length_cons] at hk
              omega
            refine (ih hrest' hlen (Redir.wrap c ⟨m, w⟩)).mono fun r hr => ?_
            obtain ⟨us, rest, d, rfl, hus, hr1, hr2⟩ := hr
            exact ⟨_, rest, d, rfl, hus.cons ⟨m, w⟩, hr1, hr2⟩
          · rw [if_pos ha]
            trivial

/-- an argument goes to the EXEC node, whatever redirections are around it -/
theorem addArg_wrapped (rs : List Redir) (ws : List Word) (w : Word) :
    ((rs.foldl Redir.wrap (.exec ws)).map Word.ptrs).addArg w.ptrs = (rs.foldl Redir.wrap (.exec (ws ++ [w]))).map Word.ptrs := by
  induction rs using List.reverseRecOn with
  | nil => simp [Cmd.map, Cmd.addArg]
  | append_singleton rs r ih =>
    simp only [List.foldl_append, List.foldl_cons, List.foldl_nil, Redir.wrap, Cmd.map, Cmd.addArg]
    rw [← ih]

/-- us is words, each with redirections; they come after the words ws and the redirections rs -/
def Args (rs : List Redir) (ws : List Word) (us : List Token) (d : Cmd Word) : Prop :=
  ∃ xs : List (Word × List Redir), us = xs.flatMap (fun x => .word x.1 :: x.2.flatMap Redir.tokens) ∧
    ws.length + xs.length < MAXARGS ∧ d = (rs ++ xs.flatMap Prod.snd).foldl Redir.wrap (.exec (ws ++ xs.map Prod.fst))

theorem Args.cons {rs qs : List Redir} {ws : List Word} {w : Word} {us : List Token} {d : Cmd Word}
    (h : Args (rs ++ qs) (ws ++ [w]) us d) : Args rs ws (.word w :: (qs.flatMap Redir.tokens ++ us)) d := by
  obtain ⟨xs, rfl, hlen, rfl⟩ := h
  refine ⟨(w, qs) :: xs, by simp, ?_, by simp⟩
  simp only [List.length_append, List.length_cons] at hlen ⊢
  omega

theorem execLoop_sound (h : Sees mem es s ts) (hk : ts.length < k) (rs : List Redir) (ws : List Word)
    (hargc : ws.length < MAXARGS) :
    Fine (Took mem es ts (Args rs ws)) (execLoop mem es k ((rs.foldl Redir.wrap (.exec ws)).map Word.ptrs) ws.length s) := by
  induction k generalizing s ts rs ws with
  | zero => exact absurd hk (Nat.not_lt_zero _)
  | succ k ih =>
    rw [execLoop]
    have hsees := (h.peek (chars "|)&;")).1
    -- nothing is taken any more
    have hnone : Args rs ws [] (rs.foldl Redir.wrap (.exec ws)) := ⟨[], rfl, hargc, by simp⟩
    cases hp : (peek mem es s (chars "|)&;")).1 with
    | true =>
      simp only [if_true]
      exact ⟨[], ts, _, rfl, hnone, rfl, hsees⟩
    | false =>
      simp only [Bool.false_eq_true, if_false]
      cases ts with
      | nil =>
        obtain ⟨htok, hrest⟩ := hsees.gettoken_nil
        rw [htok, if_pos rfl]
        exact ⟨[], [], _, rfl, hnone, rfl, hrest⟩
      | cons t ts =>
        obtain ⟨htok, hrest, hword⟩ := hsees.gettoken
        have hok := h.ok (t := t) List.mem_cons_self
        rw [htok, if_neg (Token.code_ne_zero hok)]
        by_cases ha : t.code = ch 'a'
        · rw [if_neg (not_not.2 ha)]
          obtain ⟨w, rfl⟩ := (Token.code_eq_a hok).1 ha
          rw [hword w rfl, addArg_wrapped]
          by_cases hmax : MAXARGS ≤ ws.length + 1
          · rw [if_pos hmax]
            trivial
          · rw [if_neg hmax]
            have hlen : ts.length < k := by
              simp only [List.length_cons] at hk
              omega
            refine (parseredirs_sound hrest hlen _).bind fun r hr => ?_
            obtain ⟨us, rest, d, rfl, ⟨qs, rfl, rfl⟩, hr1, hr2⟩ := hr
            rw [hr1, ← List.foldl_append]
            have hargs : ws.length + 1 = (ws ++ [w]).length := by simp
            rw [hargs]
            have hlen' : rest.length < k := by
              simp only [List.length_append] at hlen
              omega
            refine (ih hr2 hlen' (rs ++ qs) (ws ++ [w]) (by simp only [List.length_append, List.length_singleton]; omega)).mono ?_
            rintro x ⟨us, rest, d, rfl, hargs, hx1, hx2⟩
            exact ⟨_, rest, d, by simp, hargs.cons, hx1, hx2⟩
        · rw [if_pos ha]
          trivial

theorem backLoop_sound (h : Sees mem es s ts) (hk : ts.length < k) (c : Cmd Word) :
    Fine (Took mem es ts fun us d => ∃ n, us = List.replicate n (.sym (ch '&')) ∧ d = Cmd.back^[n] c)
      (backLoop mem es k (c.map Word.ptrs) s) := by
  induction k generalizing s ts c with
  | zero => exact absurd hk (Nat.not_lt_zero _)
  | succ k ih =>
    rw [backLoop]
    have hsees := (h.peek (chars "&")).1
    cases hp : (peek mem es s (chars "&")).1 with
    | false =>
      simp only [Bool.false_eq_true, if_false]
      exact ⟨[], ts, c, rfl, ⟨0, rfl, rfl⟩, rfl, hsees⟩
    | true =>
      simp only [if_true]
      obtain ⟨rest, rfl, hrest⟩ := hsees.take ((h.peek_iff (chars "&")).1 hp) (ch '&') rfl (by decide)
      have hlen : rest.length < k := Nat.lt_of_succ_lt_succ hk
      refine (ih hrest hlen (.back c)).mono ?_
      rintro r ⟨us, rest, d, rfl, ⟨n, rfl, rfl⟩, hr1, hr2⟩
      exact ⟨.sym (ch '&') :: List.replicate n (.sym (ch '&')), rest, _, rfl, ⟨n + 1, rfl, rfl⟩, hr1, hr2⟩

/-- what the four functions do with k of fuel -/
structure Sounds (mem : ℕ → Byte) (es k : ℕ) : Prop where
  line : ∀ s ts, Sees mem es s ts → 4 * ts.length + 4 ≤ k → Fine (Took mem es ts (Derives .line)) (parseline mem es k s)
  pipe : ∀ s ts, Sees mem es s ts → 4 * ts.length + 3 ≤ k → Fine (Took mem es ts (Derives .pipe)) (parsepipe mem es k s)
  exec : ∀ s ts, Sees mem es s ts → 4 * ts.length + 2 ≤ k → Fine (Took mem es ts (Derives .exec)) (parseexec mem es k s)
  block : ∀ s ts, Sees mem es s ts → 4 * ts.length + 1 ≤ k → Fine (Took mem es ts (Derives .exec)) (parseblock mem es k s)

theorem line_sound (ih : Sounds mem es k) (h : Sees mem es s ts) (hk : 4 * ts.length + 4 ≤ k + 1) :
    Fine (Took mem es ts (Derives .line)) (parseline mem es (k + 1) s) := by
  rw [parseline]
  refine (ih.pipe s ts h (by omega)).bind ?_
  rintro ⟨c', p⟩ ⟨us, rest, c, rfl, hc, rfl, hrest⟩
  simp only [List.length_append] at hk
  refine (backLoop_sound hrest (by omega) c).bind ?_
  rintro ⟨d', p⟩ ⟨us', rest, d, rfl, ⟨n, rfl, rfl⟩, rfl, hrest⟩
  simp only [List.length_append] at hk
  have hsees := (hrest.peek (chars ";")).1
  dsimp only
  cases hp : (peek mem es p (chars ";")).1 with
  | false =>
    simp only [Bool.false_eq_true, if_false]
    exact ⟨_, rest, _, (List.append_assoc _ _ _).symm, .last n hc, rfl, hsees⟩
  | true =>
    simp only [if_true]
    obtain ⟨rest, rfl, hnext⟩ := hsees.take ((hrest.peek_iff (chars ";")).1 hp) (ch ';') rfl (by decide)
    simp only [List.length_cons] at hk
    refine (ih.line _ rest hnext (by omega)).bind ?_
    rintro ⟨e', p⟩ ⟨vs, rest, e, rfl, he, rfl, hrest⟩
    exact ⟨_, rest, _, by simp, .seq n hc he, rfl, hrest⟩

theorem pipe_sound (ih : Sounds mem es k) (h : Sees mem es s ts) (hk : 4 * ts.length + 3 ≤ k + 1) :
    Fine (Took mem es ts (Derives .pipe)) (parsepipe mem es (k + 1) s) := by
  rw [parsepipe]
  refine (ih.exec s ts h (by omega)).bind ?_
  rintro ⟨c', p⟩ ⟨us, rest, c, rfl, hc, rfl, hrest⟩
  simp only [List.length_append] at hk
  have hsees := (hrest.peek (chars "|")).1
  dsimp only
  cases hp : (peek mem es p (chars "|")).1 with
  | false =>
    simp only [Bool.false_eq_true, if_false]
    exact ⟨_, rest, _, rfl, .single hc, rfl, hsees⟩
  | true =>
    simp only [if_true]
    obtain ⟨rest, rfl, hnext⟩ := hsees.take ((hrest.peek_iff (chars "|")).1 hp) (ch '|') rfl (by decide)
    simp only [List.length_cons] at hk
    refine (ih.pipe _ rest hnext (by omega)).bind ?_
    rintro ⟨d', p⟩ ⟨vs, rest, d, rfl, hd, rfl, hrest⟩
    exact ⟨_, rest, _, by simp, .pipe hc hd, rfl, hrest⟩

theorem exec_sound (ih : Sounds mem es k) (h : Sees mem es s ts) (hk : 4 * ts.length + 2 ≤ k + 1) :
    Fine (Took mem es ts (Derives .exec)) (parseexec mem es (k + 1) s) := by
  rw [parseexec]
  have hsees := (h.peek (chars "(")).1
  cases hp : (peek mem es s (chars "(")).1 with
  | true =>
    simp only [if_true]
    exact ih.block _ ts hsees (by omega)
  | false =>
    simp only [Bool.false_eq_true, if_false]
    refine (parseredirs_sound hsees (by omega) (.exec [])).bind ?_
    rintro ⟨c', p⟩ ⟨us, rest, c, rfl, ⟨rs, rfl, rfl⟩, rfl, hrest⟩
    simp only [List.length_append] at hk
    refine (execLoop_sound hrest (by omega) rs [] (by decide)).mono ?_
    rintro ⟨d', p⟩ ⟨us, rest, d, rfl, ⟨ws, rfl, hlen, rfl⟩, rfl, hrest⟩
    exact ⟨_, rest, _, (List.append_assoc _ _ _).symm, .simple rs ws (by simpa using hlen), rfl, hrest⟩

theorem block_sound (ih : Sounds mem es k) (h : Sees mem es s ts) (hk : 4 * ts.length + 1 ≤ k + 1) :
    Fine (Took mem es ts (Derives .exec)) (parseblock mem es (k + 1) s) := by
  rw [parseblock]
  have hsees := (h.peek (chars "(")).1
  dsimp only
  cases hp : (peek mem es s (chars "(")).1 with
  | false => trivial
  | true =>
    obtain ⟨rest, rfl, hnext⟩ := hsees.take ((h.peek_iff (chars "(")).1 hp) (ch '(') rfl (by decide)
    simp only [List.length_cons] at hk
    simp only [Bool.not_true, Bool.false_eq_true, if_false]
    refine (ih.line _ rest hnext (by omega)).bind ?_
    rintro ⟨c', p⟩ ⟨us, rest, c, rfl, hc, rfl, hrest⟩
    simp only [List.length_append] at hk
    have hsees := (hrest.peek (chars ")")).1
    dsimp only
    cases hp : (peek mem es p (chars ")")).1 with
    | false => trivial
    | true =>
      obtain ⟨rest, rfl, hafter⟩ := hsees.take ((hrest.peek_iff (chars ")")).1 hp) (ch ')') rfl (by decide)
      simp only [List.length_cons] at hk
      simp only [Bool.not_true, Bool.false_eq_true, if_false]
      refine (parseredirs_sound hafter (by omega) c).mono ?_
      rintro ⟨d', p⟩ ⟨us', rest, d, rfl, ⟨rs, rfl, rfl⟩, rfl, hrest⟩
      exact ⟨_, rest, _, by simp, .block rs hc, rfl, hrest⟩

/-- **Soundness.** With four of fuel for each token, each function panics or returns the tree of what it has taken. -/
theorem parse_sound (mem : ℕ → Byte) (es k : ℕ) : Sounds mem es k := by
  induction k with
  | zero =>
    refine ⟨?_, ?_, ?_, ?_⟩ <;>
    · intro s ts h hk
      omega
  | succ k ih =>
    exact ⟨fun _ _ h hk => line_sound ih h hk, fun _ _ h hk => pipe_sound ih h hk, fun _ _ h hk => exec_sound ih h hk,
      fun _ _ h hk => block_sound ih h hk⟩

/-! ## Completeness -/

/-- the parser returns c, and goes on at the rest -/
def Gives (mem : ℕ → Byte) (es : ℕ) (c : Cmd Word) (rest : List Token) (x : Except Err (Cmd Ptrs × ℕ)) : Prop :=
  ∃ p, x = .ok (c.map Word.ptrs, p) ∧ Sees mem es p rest

theorem Gives.bind {c d : Cmd Word} {x : Except Err (Cmd Ptrs × ℕ)} {f : Cmd Ptrs × ℕ → Except Err (Cmd Ptrs × ℕ)}
    {rest' : List Token} (h : Gives mem es c rest x)
    (hf : ∀ p, Sees mem es p rest → Gives mem es d rest' (f (c.map Word.ptrs, p))) : Gives mem es d rest' (x >>= f) := by
  obtain ⟨p, rfl, hp⟩ := h
  exact hf p hp

/-- nothing comes after this, or one of these bytes -/
def Follows (cs : List Byte) (rest : List Token) : Prop := rest = [] ∨ Begins cs rest

theorem Follows.not_begins {cs ds : List Byte} (h : Follows cs rest) (hd : ∀ d ∈ cs, d ∉ ds) : ¬ Begins ds rest := by
  rintro ⟨t, ht, hfirst⟩
  obtain rfl | ⟨u, hu, hu'⟩ := h
  · cases ht
  · rw [ht] at hu
    cases hu
    exact hd _ hu' hfirst

theorem Begins.head {cs : List Byte} : Begins cs (t :: ts) ↔ t.first ∈ cs := by
  simp [Begins]

theorem Begins.mono {cs ds : List Byte} (hcs : ∀ c ∈ cs, c ∈ ds) (h : Begins cs ts) : Begins ds ts := by
  obtain ⟨t, ht, hfirst⟩ := h
  exact ⟨t, ht, hcs _ hfirst⟩

/-- a word does not begin with a symbol -/
theorem word_not_begins {cs : List Byte} {w : Word} (h : (Token.word w).Ok) (hcs : ∀ d ∈ cs, d ∈ symbols) :
    ¬ Begins cs (.word w :: ts) := by
  rw [Begins.head]
  intro hfirst
  exact not_symbol_of_plain h (hcs _ hfirst) rfl

theorem Sees.peek_false {cs : List Byte} (h : Sees mem es s ts) (hb : ¬ Begins cs ts) : (Sh.peek mem es s cs).1 = false := by
  rw [← Bool.not_eq_true, h.peek_iff cs]
  exact hb

theorem Mode.token_begins (m : Mode) : Begins (chars "<>") (m.token :: ts) := by
  rw [Begins.head]
  cases m <;> decide

theorem parseredirs_complete (rs : List Redir) (c : Cmd Word) (h : Sees mem es s (rs.flatMap Redir.tokens ++ rest))
    (hrest : ¬ Begins (chars "<>") rest) (hk : rs.length < k) :
    Gives mem es (rs.foldl Redir.wrap c) rest (parseredirs mem es k (c.map Word.ptrs) s) := by
  induction rs generalizing s k c with
  | nil =>
    obtain ⟨k, rfl⟩ := Nat.exists_eq_add_one_of_ne_zero (Nat.ne_of_gt hk)
    rw [parseredirs, h.peek_false hrest]
    exact ⟨_, rfl, (h.peek (chars "<>")).1⟩
  | cons r rs ih =>
    obtain ⟨k, rfl⟩ := Nat.exists_eq_add_one_of_ne_zero (Nat.ne_of_gt (Nat.zero_lt_of_lt hk))
    rw [parseredirs, (h.peek_iff (chars "<>")).2 (Mode.token_begins r.mode)]
    obtain ⟨htok, hfile, -⟩ := ((h.peek (chars "<>")).1).gettoken
    obtain ⟨htok', hnext, hword⟩ := hfile.gettoken
    simp only [Bool.not_true, Bool.false_eq_true, if_false]
    have hcode : (Token.word r.file).code = ch 'a' := rfl
    rw [htok', if_neg (not_not.2 hcode), htok, hword r.file rfl, redircmd_mode c r]
    exact ih (Redir.wrap c r) hnext (Nat.lt_of_succ_lt_succ hk)

/-- a redirection is two tokens -/
theorem length_le_tokens (rs : List Redir) : rs.length ≤ (rs.flatMap Redir.tokens).length := by
  induction rs with
  | nil => exact le_rfl
  | cons r rs ih =>
    simp only [List.flatMap_cons, List.length_append, List.length_cons, Redir.tokens, List.length_nil]
    omega

/-- words and what follows them: no more redirections, and no block -/
theorem words_not_begins {cs : List Byte} {xs : List (Word × List Redir)}
    (h : ∀ t ∈ xs.flatMap (fun x => .word x.1 :: x.2.flatMap Redir.tokens) ++ rest, t.Ok) (hrest : Follows (chars "|)&;") rest)
    (hcs : ∀ d ∈ cs, d ∈ symbols ∧ d ∉ chars "|)&;") :
    ¬ Begins cs (xs.flatMap (fun x => .word x.1 :: x.2.flatMap Redir.tokens) ++ rest) := by
  cases xs with
  | nil => exact hrest.not_begins fun d hd hd' => (hcs d hd').2 hd
  | cons x xs => exact word_not_begins (h _ List.mem_cons_self) fun d hd => (hcs d hd).1

theorem execLoop_complete (xs : List (Word × List Redir)) (rs : List Redir) (ws : List Word)
    (h : Sees mem es s (xs.flatMap (fun x => .word x.1 :: x.2.flatMap Redir.tokens) ++ rest))
    (hrest : Follows (chars "|)&;") rest) (hlen : ws.length + xs.length < MAXARGS)
    (hk : (xs.flatMap (fun x => Token.word x.1 :: x.2.flatMap Redir.tokens)).length < k) :
    Gives mem es ((rs ++ xs.flatMap Prod.snd).foldl Redir.wrap (.exec (ws ++ xs.map Prod.fst))) rest
      (execLoop mem es k ((rs.foldl Redir.wrap (.exec ws)).map Word.ptrs) ws.length s) := by
  induction xs generalizing s k rs ws with
  | nil =>
    obtain ⟨k, rfl⟩ := Nat.exists_eq_add_one_of_ne_zero (Nat.ne_of_gt hk)
    have hsees := (h.peek (chars "|)&;")).1
    rw [execLoop]
    simp only [List.flatMap_nil, List.map_nil, List.append_nil]
    obtain rfl | hb := hrest
    · rw [h.peek_false (by rintro ⟨t, ht, -⟩; cases ht)]
      obtain ⟨htok, hnext⟩ := hsees.gettoken_nil
      simp only [Bool.false_eq_true, if_false]
      rw [htok, if_pos rfl]
      exact ⟨_, rfl, hnext⟩
    · rw [(h.peek_iff (chars "|)&;")).2 hb]
      exact ⟨_, rfl, hsees⟩
  | cons x xs ih =>
    obtain ⟨w, qs⟩ := x
    obtain ⟨k, rfl⟩ := Nat.exists_eq_add_one_of_ne_zero (Nat.ne_of_gt (Nat.zero_lt_of_lt hk))
    rw [execLoop, h.peek_false (word_not_begins (h.ok List.mem_cons_self) (by decide))]
    obtain ⟨htok, hnext, hword⟩ := ((h.peek (chars "|)&;")).1).gettoken
    simp only [Bool.false_eq_true, if_false]
    have hcode : (Token.word w).code = ch 'a' := rfl
    simp only [List.flatMap_cons, List.length_append, List.length_cons] at hk hlen
    rw [htok, if_neg (Token.code_ne_zero (h.ok List.mem_cons_self)), if_neg (not_not.2 hcode), hword w rfl, addArg_wrapped,
      if_neg (by omega)]
    have hsees : Sees mem es (gettoken mem es (peek mem es s (chars "|)&;")).2).ps
        (qs.flatMap Redir.tokens ++ (xs.flatMap (fun x => .word x.1 :: x.2.flatMap Redir.tokens) ++ rest)) := by
      rw [← List.append_assoc]
      exact hnext
    have hqs := length_le_tokens qs
    -- after its redirections comes another word, or the rest
    refine (parseredirs_complete qs (rs.foldl Redir.wrap (.exec (ws ++ [w]))) hsees
      (words_not_begins (fun t ht => hsees.ok (List.mem_append_right _ ht)) hrest (by decide))
      (show qs.length < k by omega)).bind fun p hp => ?_
    have hfinal := ih (rs ++ qs) (ws ++ [w]) hp (by simp only [List.length_append, List.length_singleton]; omega)
      (show _ < k by omega)
    simpa using hfinal

theorem backLoop_complete (n : ℕ) (c : Cmd Word) (h : Sees mem es s (List.replicate n (.sym (ch '&')) ++ rest))
    (hrest : ¬ Begins (chars "&") rest) (hk : n < k) :
    Gives mem es (Cmd.back^[n] c) rest (backLoop mem es k (c.map Word.ptrs) s) := by
  induction n generalizing s k c with
  | zero =>
    obtain ⟨k, rfl⟩ := Nat.exists_eq_add_one_of_ne_zero (Nat.ne_of_gt hk)
    rw [backLoop, h.peek_false hrest]
    exact ⟨_, rfl, (h.peek (chars "&")).1⟩
  | succ n ih =>
    obtain ⟨k, rfl⟩ := Nat.exists_eq_add_one_of_ne_zero (Nat.ne_of_gt (Nat.zero_lt_of_lt hk))
    rw [backLoop, (h.peek_iff (chars "&")).2 (Begins.head.2 (by decide))]
    obtain ⟨-, hnext, -⟩ := ((h.peek (chars "&")).1).gettoken
    simp only [if_true]
    exact ih (.back c) hnext (Nat.lt_of_succ_lt_succ hk)

/-- redirections are no block -/
theorem redirs_not_begins {rs : List Redir} (h : ¬ Begins (chars "(") rest) :
    ¬ Begins (chars "(") (rs.flatMap Redir.tokens ++ rest) := by
  cases rs with
  | nil => exact h
  | cons r rs =>
    show ¬ Begins (chars "(") (r.mode.token :: _)
    rw [Begins.head]
    cases r.mode <;> decide

/-- a command may be followed by &, or by what comes after them -/
theorem backs_follow {n : ℕ} (h : Follows (chars ")&;") rest) :
    Follows (chars ")&;") (List.replicate n (.sym (ch '&')) ++ rest) := by
  cases n with
  | zero => exact h
  | succ n => exact .inr (Begins.head.2 (by decide))

/-- what may come after a derivation -/
def Symbol.follow : Symbol → List Byte
  | .line => chars ")"
  | .pipe => chars ")&;"
  | .exec => chars "|)&;"

/-- the function for a symbol -/
def Symbol.parse (mem : ℕ → Byte) (es : ℕ) : Symbol → ℕ → ℕ → Except Err (Cmd Ptrs × ℕ)
  | .line => parseline mem es
  | .pipe => parsepipe mem es
  | .exec => parseexec mem es

/-- the fuel it wants besides four for each token -/
def Symbol.fuel : Symbol → ℕ
  | .line => 4
  | .pipe => 3
  | .exec => 2

/-- **Completeness.** The tree of a derivation is returned, if what comes after it cannot be part of it. -/
theorem parse_complete {N : Symbol} {us : List Token} {c : Cmd Word} (hd : Derives N us c) :
    ∀ (k s : ℕ) (rest : List Token), Sees mem es s (us ++ rest) → Follows N.follow rest → 4 * us.length + N.fuel ≤ k →
      Gives mem es c rest (N.parse mem es k s) := by
  induction hd with
  | @block ts c rs hc ih =>
    intro k s rest h hrest hk
    simp only [Symbol.fuel, List.cons_append, List.length_append, List.length_cons] at hk
    obtain ⟨k, rfl⟩ : ∃ j, k = j + 2 := ⟨k - 2, by omega⟩
    have hredirs := length_le_tokens rs
    rw [List.append_assoc] at h
    -- the ( is looked at twice
    have hopen := (h.peek (chars "(")).1
    rw [Symbol.parse, parseexec, (h.peek_iff (chars "(")).2 (Begins.head.2 (by decide))]
    simp only [if_true]
    rw [parseblock, (hopen.peek_iff (chars "(")).2 (Begins.head.2 (by decide))]
    simp only [Bool.not_true, Bool.false_eq_true, if_false]
    refine (ih k _ _ ((hopen.peek (chars "(")).1).gettoken.2.1 (.inr (Begins.head.2 (by decide)))
      (by simp only [Symbol.fuel]; omega)).bind fun p hp => ?_
    dsimp only
    rw [(hp.peek_iff (chars ")")).2 (Begins.head.2 (by decide))]
    simp only [Bool.not_true, Bool.false_eq_true, if_false]
    exact parseredirs_complete rs c ((hp.peek (chars ")")).1).gettoken.2.1 (hrest.not_begins (by decide)) (by omega)
  | simple rs ws hlen =>
    intro k s rest h hrest hk
    simp only [Symbol.fuel, List.length_append] at hk
    obtain ⟨k, rfl⟩ : ∃ j, k = j + 1 := ⟨k - 1, by omega⟩
    rw [List.append_assoc] at h
    have hredirs := length_le_tokens rs
    have hok : ∀ t ∈ ws.flatMap (fun x => .word x.1 :: x.2.flatMap Redir.tokens) ++ rest, t.Ok :=
      fun t ht => h.ok (List.mem_append_right _ ht)
    rw [Symbol.parse, parseexec, h.peek_false (redirs_not_begins (words_not_begins hok hrest (by decide)))]
    simp only [Bool.false_eq_true, if_false]
    refine (parseredirs_complete rs (.exec []) (h.peek (chars "(")).1 (words_not_begins hok hrest (by decide))
      (by omega)).bind fun p hp => ?_
    exact execLoop_complete ws rs [] hp hrest (by simpa using hlen) (by omega)
  | @single ts c hc ih =>
    intro k s rest h hrest hk
    simp only [Symbol.fuel] at hk
    obtain ⟨k, rfl⟩ : ∃ j, k = j + 1 := ⟨k - 1, by omega⟩
    rw [Symbol.parse, parsepipe]
    refine (ih k s rest h (hrest.imp_right (Begins.mono (by decide))) (by simp only [Symbol.fuel]; omega)).bind fun p hp => ?_
    dsimp only
    rw [hp.peek_false (hrest.not_begins (by decide))]
    exact ⟨_, rfl, (hp.peek (chars "|")).1⟩
  | @pipe ts us c d hc hd ihc ihd =>
    intro k s rest h hrest hk
    simp only [Symbol.fuel, List.length_append, List.length_cons] at hk
    obtain ⟨k, rfl⟩ : ∃ j, k = j + 1 := ⟨k - 1, by omega⟩
    rw [List.append_assoc] at h
    rw [Symbol.parse, parsepipe]
    refine (ihc k s _ h (.inr (Begins.head.2 (by decide))) (by simp only [Symbol.fuel]; omega)).bind fun p hp => ?_
    dsimp only
    rw [(hp.peek_iff (chars "|")).2 (Begins.head.2 (by decide))]
    simp only [if_true]
    refine (ihd k _ rest ((hp.peek (chars "|")).1).gettoken.2.1 hrest (by simp only [Symbol.fuel]; omega)).bind fun q hq => ?_
    exact ⟨q, rfl, hq⟩
  | @last ts c n hc ih =>
    intro k s rest h hrest hk
    simp only [Symbol.fuel, List.length_append, List.length_replicate] at hk
    obtain ⟨k, rfl⟩ : ∃ j, k = j + 1 := ⟨k - 1, by omega⟩
    rw [List.append_assoc] at h
    rw [Symbol.parse, parseline]
    refine (ih k s _ h (backs_follow (hrest.imp_right (Begins.mono (by decide)))) (by simp only [Symbol.fuel]; omega)).bind
      fun p hp => ?_
    refine (backLoop_complete n c hp (hrest.not_begins (by decide)) (by omega)).bind fun q hq => ?_
    dsimp only
    rw [hq.peek_false (hrest.not_begins (by decide))]
    exact ⟨_, rfl, (hq.peek (chars ";")).1⟩
  | @seq ts us c d n hc hd ihc ihd =>
    intro k s rest h hrest hk
    simp only [Symbol.fuel, List.length_append, List.length_replicate, List.length_cons] at hk
    obtain ⟨k, rfl⟩ : ∃ j, k = j + 1 := ⟨k - 1, by omega⟩
    rw [List.append_assoc, List.append_assoc] at h
    rw [Symbol.parse, parseline]
    have hsemi : Begins (chars ";") ((.sym (ch ';') :: us) ++ rest) := Begins.head.2 (by decide)
    refine (ihc k s _ h (backs_follow (.inr (hsemi.mono (by decide)))) (by simp only [Symbol.fuel]; omega)).bind
      fun p hp => ?_
    refine (backLoop_complete n c hp (Follows.not_begins (.inr hsemi) (by decide)) (by omega)).bind fun q hq => ?_
    dsimp only
    rw [(hq.peek_iff (chars ";")).2 hsemi]
    simp only [if_true]
    refine (ihd k _ rest ((hq.peek (chars ";")).1).gettoken.2.1 hrest (by simp only [Symbol.fuel]; omega)).bind fun r hr => ?_
    exact ⟨r, rfl, hr⟩

end

end Xv6.Sh
