/-
The lexical analyser of `shlex`, and its quoting.

The analyser is the one with POSIX rules, splitting at white space, no comments,
and some punctuation whose runs are tokens of their own.  Texts and tokens are
lists of characters.

* `tokens_append_blank` — a text broken at white space has the tokens of both
  parts;
* `tokens_append_punctuation` — punctuation between two texts is one more token,
  which may swallow punctuation at their ends;
* **`tokens_join_quote`** — words quoted and joined come back as they were.
-/
import Lsstack.Domain

namespace Lsstack.Shlex

/-! ### The analyser -/

/-- `shlex.state`; `escape` remembers the quotes it is in, if any. -/
inductive LexState where
  | blank
  | word
  | punctuation
  | quote (q : Char)
  | escape (inside : Option Char)
  deriving DecidableEq, Repr

/-- The state of the analyser between two characters: `quoted` is the flag of
`read_token` that keeps an empty quoted token. -/
structure Lexer where
  state : LexState
  token : List Char
  quoted : Bool
  deriving DecidableEq, Repr

/-- `shlex.whitespace`. -/
def whitespace : List Char := [' ', '\t', '\r', '\n']

/-- `shlex.quotes`. -/
def quotes : List Char := ['\'', '"']

/-- Nothing has been read of the next token. -/
def start : Lexer := ⟨.blank, [], false⟩

/-- The token an end of word emits. -/
def emitted (l : Lexer) : Option (List Char) :=
  if l.token ≠ [] ∨ l.quoted then some l.token else none

section

-- `shlex.punctuation_chars`.
variable (punctuation : List Char)

/-- `read_token` on a character outside any token. -/
def readBlank (c : Char) : Lexer :=
  if c ∈ whitespace then start
  else if c = '\\' then ⟨.escape none, [], false⟩
  else if c ∈ punctuation then ⟨.punctuation, [c], false⟩
  else if c ∈ quotes then ⟨.quote c, [], false⟩
  else ⟨.word, [c], false⟩

/-- `read_token` on one character: the token it completes, and the state after it.
A character pushed back is read again at once. -/
def read (l : Lexer) (c : Char) : Option (List Char) × Lexer :=
  match l.state with
  | .blank => (none, readBlank punctuation c)
  | .quote q =>
    if c = q then (none, ⟨.word, l.token, true⟩)
    else if c = '\\' ∧ q = '"' then (none, ⟨.escape (some q), l.token, true⟩)
    else (none, ⟨.quote q, l.token ++ [c], true⟩)
  | .escape none => (none, ⟨.word, l.token ++ [c], l.quoted⟩)
  | .escape (some q) =>
    if c ≠ '\\' ∧ c ≠ q then (none, ⟨.quote q, l.token ++ ['\\', c], l.quoted⟩)
    else (none, ⟨.quote q, l.token ++ [c], l.quoted⟩)
  | .punctuation =>
    if c ∈ whitespace then (emitted l, start)
    else if c ∈ punctuation then (none, ⟨.punctuation, l.token ++ [c], l.quoted⟩)
    else (emitted l, readBlank punctuation c)
  | .word =>
    if c ∈ whitespace then (emitted l, start)
    else if c ∈ quotes then (none, ⟨.quote c, l.token, l.quoted⟩)
    else if c = '\\' then (none, ⟨.escape none, l.token, l.quoted⟩)
    else if c ∈ punctuation then (emitted l, readBlank punctuation c)
    else (none, ⟨.word, l.token ++ [c], l.quoted⟩)

/-- `read_token` at the end of the text. -/
def finish (l : Lexer) : Except Exn (List (List Char)) :=
  match l.state with
  | .quote _ => .error (.valueError "No closing quotation")
  | .escape _ => .error (.valueError "No escaped character")
  | _ => .ok (emitted l).toList

/-- The tokens completed while a text is read, and the state after it. -/
def run (l : Lexer) : List Char → List (List Char) × Lexer
  | [] => ([], l)
  | c :: text =>
    let (token, l') := read punctuation l c
    let (rest, last) := run l' text
    (token.toList ++ rest, last)

/-- The tokens of a text read from a given state. -/
def tokensFrom (l : Lexer) (text : List Char) : Except Exn (List (List Char)) :=
  match finish (run punctuation l text).2 with
  | .ok last => .ok ((run punctuation l text).1 ++ last)
  | .error e => .error e

/-- `list(shlex.shlex(text, posix=True, punctuation_chars=punctuation))`, with
`whitespace_split` set and without comments. -/
def tokens (text : List Char) : Except Exn (List (List Char)) :=
  tokensFrom punctuation start text

end

variable {punctuation : List Char}

/-! ### Reading on -/

theorem run_append (l : Lexer) (a b : List Char) :
    run punctuation l (a ++ b) =
      ((run punctuation l a).1 ++ (run punctuation (run punctuation l a).2 b).1,
        (run punctuation (run punctuation l a).2 b).2) := by
  induction a generalizing l with
  | nil => rfl
  | cons c a ih =>
    show ((read punctuation l c).1.toList ++ (run punctuation (read punctuation l c).2 (a ++ b)).1,
      (run punctuation (read punctuation l c).2 (a ++ b)).2) = _
    rw [ih (read punctuation l c).2]
    simp only [run, List.append_assoc]

/-- The tokens of a text, one character taken off. -/
theorem tokensFrom_cons (l : Lexer) (c : Char) (text : List Char) :
    tokensFrom punctuation l (c :: text) =
      (tokensFrom punctuation (read punctuation l c).2 text).map
        ((read punctuation l c).1.toList ++ ·) := by
  unfold tokensFrom
  simp only [run]
  cases finish (run punctuation (read punctuation l c).2 text).2 with
  | error e => rfl
  | ok last =>
    simp only [Except.map, List.append_assoc]

theorem tokensFrom_append (l : Lexer) (a b : List Char) :
    tokensFrom punctuation l (a ++ b) =
      (tokensFrom punctuation (run punctuation l a).2 b).map ((run punctuation l a).1 ++ ·) := by
  unfold tokensFrom
  rw [run_append]
  cases finish (run punctuation (run punctuation l a).2 b).2 with
  | error e => rfl
  | ok last =>
    simp only [Except.map, List.append_assoc]

/-- What is known of the state between two characters: nothing is left over outside
a token, and a run of punctuation holds nothing else. -/
def Sound (punctuation : List Char) (l : Lexer) : Prop :=
  match l.state with
  | .blank => l = start
  | .punctuation => l.token ≠ [] ∧ ∀ c ∈ l.token, c ∈ punctuation
  | _ => True

theorem sound_readBlank (c : Char) : Sound punctuation (readBlank punctuation c) := by
  unfold readBlank
  split
  · exact rfl
  · split
    · trivial
    · split
      · rename_i hc
        exact ⟨by simp, by simpa using hc⟩
      · split <;> trivial

theorem sound_read {l : Lexer} (h : Sound punctuation l) (c : Char) :
    Sound punctuation (read punctuation l c).2 := by
  unfold read
  -- only a token of punctuation that is being read must consist of it
  cases hstate : l.state with
  | blank => exact sound_readBlank c
  | quote q =>
    dsimp only
    split
    · trivial
    · split <;> trivial
  | escape inside =>
    cases inside with
    | none => trivial
    | some q =>
      dsimp only
      split <;> trivial
  | punctuation =>
    dsimp only
    split
    · exact rfl
    · split
      · rename_i hc
        unfold Sound at h
        rw [hstate] at h
        refine ⟨by simp, ?_⟩
        intro x hx
        rcases List.mem_append.mp hx with hx | hx
        · exact h.2 x hx
        · rw [List.mem_singleton.mp hx]
          exact hc
      · exact sound_readBlank c
  | word =>
    dsimp only
    split
    · exact rfl
    · split
      · trivial
      · split
        · trivial
        · split
          · exact sound_readBlank c
          · trivial

theorem sound_run {l : Lexer} (h : Sound punctuation l) (text : List Char) :
    Sound punctuation (run punctuation l text).2 := by
  induction text generalizing l with
  | nil => exact h
  | cons c text ih => exact ih (sound_read h c)

/-- A text that has tokens ends outside quotes and escapes, and its last token is the
one that is emitted there. -/
theorem tokens_ok {text : List Char} {words : List (List Char)}
    (h : tokens punctuation text = .ok words) :
    ∃ first l, run punctuation start text = (first, l) ∧ Sound punctuation l ∧
      words = first ++ (emitted l).toList ∧
      (l.state = .blank ∨ l.state = .word ∨ l.state = .punctuation) := by
  refine ⟨_, _, rfl, sound_run (l := start) rfl text, ?_⟩
  unfold tokens tokensFrom at h
  cases hstate : (run punctuation start text).2.state with
  | quote q => simp [finish, hstate] at h
  | escape inside => simp [finish, hstate] at h
  | blank | word | punctuation =>
    simp only [finish, hstate, Except.ok.injEq] at h
    exact ⟨h.symm, by simp⟩

/-! ### Texts side by side -/

/-- Two texts with white space between them have the tokens of both. -/
theorem tokens_append_blank {a : List Char} {words : List (List Char)}
    (h : tokens punctuation a = .ok words) {c : Char} (hc : c ∈ whitespace) (b : List Char) :
    tokens punctuation (a ++ c :: b) = (tokens punctuation b).map (words ++ ·) := by
  obtain ⟨first, l, hrun, hsound, rfl, hstate⟩ := tokens_ok h
  have hread : read punctuation l c = (emitted l, start) := by
    rcases hstate with hstate | hstate | hstate
    · unfold Sound at hsound
      rw [hstate] at hsound
      cases hsound
      show (none, readBlank punctuation c) = (none, start)
      rw [readBlank, if_pos hc]
    · unfold read
      rw [hstate]
      exact if_pos hc
    · unfold read
      rw [hstate]
      exact if_pos hc
  rw [tokens, tokensFrom_append, hrun, tokensFrom_cons, hread]
  show (Except.map _ (tokens punctuation b)).map _ = _
  cases tokens punctuation b with
  | error e => rfl
  | ok rest => simp only [Except.map, List.append_assoc]

section

-- The punctuation has no other meaning to the analyser.
variable (hplain : ∀ c ∈ punctuation, c ∉ whitespace ∧ c ∉ quotes ∧ c ≠ '\\')

include hplain

theorem readBlank_punctuation {c : Char} (hc : c ∈ punctuation) :
    readBlank punctuation c = ⟨.punctuation, [c], false⟩ := by
  rw [readBlank, if_neg (hplain c hc).1, if_neg (hplain c hc).2.2, if_pos hc]

/-- A text read after punctuation: its own leading punctuation joins the token before
it, and the rest of its tokens stay. -/
theorem tokensFrom_punctuation (text : List Char) :
    ∃ swallowed rest, (∀ c ∈ swallowed, c ∈ punctuation) ∧
      (∀ token quoted, token ≠ [] →
        tokensFrom punctuation ⟨.punctuation, token, quoted⟩ text =
          Except.map ((token ++ swallowed) :: ·) rest) ∧
      tokens punctuation text =
        Except.map ((if swallowed = [] then [] else [swallowed]) ++ ·) rest := by
  induction text with
  | nil =>
    refine ⟨[], .ok [], by simp, ?_, rfl⟩
    intro token quoted htoken
    simp [tokensFrom, run, finish, emitted, htoken, Except.map]
  | cons c text ih =>
    -- white space ends the token of punctuation, without being read into one
    by_cases hspace : c ∈ whitespace
    · refine ⟨[], tokens punctuation text, by simp, ?_, ?_⟩
      · intro token quoted htoken
        rw [tokensFrom_cons]
        simp only [read, if_pos hspace, emitted, htoken, ne_eq, not_false_eq_true, true_or,
          if_true, Option.toList, List.append_nil]
        rfl
      · rw [tokens, tokensFrom_cons]
        show Except.map _ (tokensFrom punctuation (readBlank punctuation c) text) = _
        rw [readBlank, if_pos hspace]
        rfl
    -- punctuation is swallowed, anything else begins a token
    · by_cases hpunctuation : c ∈ punctuation
      · obtain ⟨swallowed, rest, hswallowed, hrest, -⟩ := ih
        refine ⟨c :: swallowed, rest, ?_, ?_, ?_⟩
        · intro x hx
          rcases List.mem_cons.mp hx with rfl | hx
          · exact hpunctuation
          · exact hswallowed x hx
        · intro token quoted htoken
          rw [tokensFrom_cons]
          simp only [read, if_neg hspace, if_pos hpunctuation]
          rw [hrest (token ++ [c]) quoted (by simp)]
          cases rest with
          | error e => rfl
          | ok rest => simp [Except.map]
        · rw [tokens, tokensFrom_cons]
          show Except.map _ (tokensFrom punctuation (readBlank punctuation c) text) = _
          rw [readBlank_punctuation hplain hpunctuation, hrest [c] false (by simp)]
          cases rest with
          | error e => rfl
          | ok rest => simp [Except.map, read, start]
      · refine ⟨[], tokens punctuation (c :: text), by simp, ?_, ?_⟩
        · intro token quoted htoken
          rw [tokens, tokensFrom_cons, tokensFrom_cons]
          simp only [read, if_neg hspace, if_neg hpunctuation, emitted, htoken, ne_eq,
            not_false_eq_true, true_or, if_true, Option.toList, List.append_nil, start]
          cases tokensFrom punctuation (readBlank punctuation c) text with
          | error e => rfl
          | ok rest => rfl
        · cases tokens punctuation (c :: text) with
          | error e => rfl
          | ok rest => rfl

/-- A punctuation character between two texts is part of one token more; that token
may take in the punctuation the first ends with and the second begins with. -/
theorem tokens_append_punctuation {a b : List Char} {before after : List (List Char)}
    (ha : tokens punctuation a = .ok before) (hb : tokens punctuation b = .ok after)
    {c : Char} (hc : c ∈ punctuation) :
    ∃ first token rest, tokens punctuation (a ++ c :: b) = .ok (first ++ token :: rest) ∧
      (∀ x ∈ token, x ∈ punctuation) ∧
      (before = first ∨ ∃ s, before = first ++ [s] ∧ ∀ x ∈ s, x ∈ punctuation) ∧
      (after = rest ∨ ∃ s, after = s :: rest ∧ ∀ x ∈ s, x ∈ punctuation) := by
  obtain ⟨swallowed, rest, hswallowed, hrest, htokens⟩ := tokensFrom_punctuation hplain b
  obtain ⟨first, l, hrun, hsound, rfl, hstate⟩ := tokens_ok ha
  rw [hb] at htokens
  cases rest with
  | error e => cases htokens
  | ok rest =>
    have hafter : after = rest ∨ ∃ s, after = s :: rest ∧ ∀ x ∈ s, x ∈ punctuation := by
      by_cases hnil : swallowed = []
      · left
        simpa [Except.map, hnil] using htokens
      · right
        refine ⟨swallowed, ?_, hswallowed⟩
        simpa [Except.map, hnil] using htokens
    rw [tokens, tokensFrom_append, hrun, tokensFrom_cons]
    rcases hstate with hstate | hstate | hstate
    · -- outside a token
      unfold Sound at hsound
      rw [hstate] at hsound
      cases hsound
      refine ⟨first, c :: swallowed, rest, ?_, ?_, Or.inl (by simp [emitted, start]), hafter⟩
      · show Except.map _ (Except.map _ (tokensFrom punctuation (readBlank punctuation c) b)) = _
        rw [readBlank_punctuation hplain hc, hrest [c] false (by simp)]
        simp [Except.map, read, start]
      · intro x hx
        rcases List.mem_cons.mp hx with rfl | hx
        · exact hc
        · exact hswallowed x hx
    · -- at the end of a word
      have hread : read punctuation l c = (emitted l, ⟨.punctuation, [c], false⟩) := by
        unfold read
        rw [hstate]
        simp only [if_neg (hplain c hc).1, if_neg (hplain c hc).2.1, if_neg (hplain c hc).2.2,
          if_pos hc, readBlank_punctuation hplain hc]
      refine ⟨first ++ (emitted l).toList, c :: swallowed, rest, ?_, ?_, Or.inl rfl, hafter⟩
      · rw [hread, hrest [c] false (by simp)]
        simp [Except.map]
      · intro x hx
        rcases List.mem_cons.mp hx with rfl | hx
        · exact hc
        · exact hswallowed x hx
    · -- the run of punctuation goes on
      unfold Sound at hsound
      rw [hstate] at hsound
      have hread : read punctuation l c = (none, ⟨.punctuation, l.token ++ [c], l.quoted⟩) := by
        unfold read
        rw [hstate]
        simp only [if_neg (hplain c hc).1, if_pos hc]
      refine ⟨first, l.token ++ c :: swallowed, rest, ?_, ?_, Or.inr ⟨l.token, ?_, hsound.2⟩,
        hafter⟩
      · rw [hread, hrest (l.token ++ [c]) l.quoted (by simp)]
        simp [Except.map]
      · intro x hx
        rcases List.mem_append.mp hx with hx | hx
        · exact hsound.2 x hx
        · rcases List.mem_cons.mp hx with rfl | hx
          · exact hc
          · exact hswallowed x hx
      · simp [emitted, hsound.1]

end

/-! ### Quoting -/

/-- `shlex.quote` on a word that needs it: a quote in it is left outside the single
quotes, in double ones. -/
def quote (word : List Char) : List Char :=
  '\'' :: word.flatMap (fun c => if c = '\'' then "'\"'\"'".toList else [c]) ++ ['\'']

/-- `shlex.join`. -/
def join : List (List Char) → List Char
  | [] => []
  | word :: words => quote word ++ ' ' :: join words

/-- What stands between the single quotes is read back as it was. -/
theorem run_quoted (punctuation : List Char) (token : List Char) (quoted : Bool)
    (word : List Char) :
    ∃ quoted',
      run punctuation ⟨.quote '\'', token, quoted⟩
        (word.flatMap fun c => if c = '\'' then "'\"'\"'".toList else [c]) =
      ([], ⟨.quote '\'', token ++ word, quoted'⟩) := by
  induction word generalizing token quoted with
  | nil => exact ⟨quoted, by simp [run]⟩
  | cons c word ih =>
    obtain ⟨quoted', h⟩ := ih (token ++ [c]) true
    refine ⟨quoted', ?_⟩
    have hstep : run punctuation ⟨.quote '\'', token, quoted⟩
        (if c = '\'' then "'\"'\"'".toList else [c]) =
        ([], ⟨.quote '\'', token ++ [c], true⟩) := by
      by_cases hc : c = '\''
      · rw [if_pos hc, hc]
        rfl
      · rw [if_neg hc]
        simp [run, read, hc]
    rw [List.flatMap_cons, run_append, hstep, h]
    simp

theorem tokens_quote (hquote : '\'' ∉ punctuation) (word : List Char) :
    tokens punctuation (quote word) = .ok [word] := by
  obtain ⟨quoted, h⟩ := run_quoted punctuation [] false word
  have hopen : read punctuation start '\'' = (none, ⟨.quote '\'', [], false⟩) := by
    show (none, readBlank punctuation '\'') = _
    rw [readBlank, if_neg (by decide), if_neg (by decide), if_neg hquote, if_pos (by decide)]
  rw [tokens, quote, List.cons_append, tokensFrom_cons, hopen, tokensFrom_append, h]
  simp [tokensFrom, run, read, finish, emitted, Except.map]

/-- Words that are quoted and joined come back as they were. -/
theorem tokens_join_quote (hquote : '\'' ∉ punctuation) (words : List (List Char)) :
    tokens punctuation (join words) = .ok words := by
  induction words with
  | nil => rfl
  | cons word words ih =>
    rw [join, tokens_append_blank (tokens_quote hquote word) (by decide), ih]
    rfl

end Lsstack.Shlex
