/-
The guard that refuses destructive Git and GitHub commands.

A command is cut into words, the words into pieces at the separators, and each piece
is held against the rules.  Every rule looks for some words in a given order, so a
rule that matches a piece matches each piece that holds its words in that order.

* `blockedReason_iff` — what is blocked: the commands with a piece some rule matches;
* **`complete_iff`** — a command the policy forbids is blocked exactly if its words
  stand in one piece, in the spellings the rules know;
* **`addition_iff`** — a word inserted into a blocked command keeps it blocked
  exactly if it does not cut the matched words apart; commands joined stay blocked.
-/
import Lsstack.Shlex

namespace Lsstack.HookPolicy

open Shlex
open scoped List

/-! ### The guard -/

/-- The characters of the separators. -/
def punctuation : List Char := ";&|".toList

/-- `SHELL_SEPARATORS`. -/
def shellSeparators : List (List Char) :=
  [";".toList, "&&".toList, "||".toList, "|".toList, "&".toList]

/-- The token ends a chunk; the empty token does too. -/
def isSeparator (token : List Char) : Bool :=
  shellSeparators.contains token || token.all (punctuation.contains ·)

/-- One token in the loop of `_chunks`: the chunks that are done, and the last one. -/
def chunkStep (chunks : List (List (List Char)) × List (List Char)) (token : List Char) :
    List (List (List Char)) × List (List Char) :=
  if isSeparator token then
    if chunks.2 ≠ [] then (chunks.1 ++ [chunks.2], []) else chunks
  else (chunks.1, chunks.2 ++ [token])

/-- The chunks of the tokens of a command. -/
def chunksOf (words : List (List Char)) : List (List (List Char)) :=
  let (done, last) := words.foldl chunkStep ([], [])
  (done ++ [last]).filter (· ≠ [])

/-- `_chunks`. -/
def chunks (command : List Char) : Except Exn (List (List (List Char))) :=
  (tokens punctuation command).map chunksOf

/-- `Path(token).name`. -/
def pathName (token : List Char) : List Char :=
  (((token.splitOn '/').filter fun part => part ≠ [] ∧ part ≠ ['.']).getLast?).getD []

/-- `_find_tool`. -/
def findTool (words : List (List Char)) (name : List Char) : Option ℕ :=
  words.findIdx? fun token => pathName token = name

/-- A cluster of short options that holds a letter. -/
def isShortFlag (flag : Char) (token : List Char) : Bool :=
  "-".toList.isPrefixOf token && !"--".toList.isPrefixOf token && token.tail.contains flag

/-- `_has_short_flag`. -/
def hasShortFlag (words : List (List Char)) (flag : Char) : Bool :=
  words.any (isShortFlag flag)

/-- `arguments[arguments.index(word) + 1 :]`. -/
def after (word : List Char) (arguments : List (List Char)) : List (List Char) :=
  arguments.drop (arguments.idxOf word + 1)

/-- The loop of `_github_reason` over the positions of the arguments. -/
def mergesPullRequest : List (List Char) → Bool
  | [] => false
  | argument :: arguments =>
    (argument = "pr".toList && arguments.contains "merge".toList) || mergesPullRequest arguments

/-- `_github_reason`. -/
def githubReason (words : List (List Char)) : Option String :=
  match findTool words "gh".toList with
  | none => none
  | some index =>
    if mergesPullRequest (words.drop (index + 1)) then
      some "`gh pr merge` is a human-only action in this repository."
    else none

/-- The arguments of a push force it. -/
def forcesPush (arguments : List (List Char)) : Bool :=
  arguments.any (["--force".toList, "--force-with-lease".toList,
      "--force-if-includes".toList].contains ·) ||
    hasShortFlag arguments 'f' || arguments.any ("+".toList.isPrefixOf ·)

/-- The arguments of a push delete a branch. -/
def deletesRemote (arguments : List (List Char)) : Bool :=
  arguments.contains "--delete".toList || hasShortFlag arguments 'd' ||
    arguments.any (":".toList.isPrefixOf ·)

/-- The rules of `_git_reason`, from the arguments of `git`. -/
def gitRules (arguments : List (List Char)) : Option String :=
  if arguments.contains "push".toList && forcesPush (after "push".toList arguments) then
    some "Force-pushing is blocked by repository policy."
  else if arguments.contains "push".toList && deletesRemote (after "push".toList arguments) then
    some "Deleting remote branches is blocked by repository policy."
  else if arguments.contains "reset".toList && arguments.contains "--hard".toList then
    some "`git reset --hard` is blocked because it discards local work."
  else if arguments.contains "clean".toList &&
      ((after "clean".toList arguments).contains "--force".toList ||
        hasShortFlag (after "clean".toList arguments) 'f') then
    some "Forced `git clean` is blocked because it deletes untracked files."
  else if arguments.contains "branch".toList &&
      ((after "branch".toList arguments).contains "-D".toList ||
        ((after "branch".toList arguments).contains "--delete".toList &&
          (after "branch".toList arguments).contains "--force".toList)) then
    some "Forced local branch deletion is blocked by repository policy."
  else if (arguments.contains "worktree".toList && arguments.contains "remove".toList) &&
      (after "remove".toList arguments).contains "--force".toList then
    some "Forced worktree removal is blocked by repository policy."
  else none

/-- `_git_reason`. -/
def gitReason (words : List (List Char)) : Option String :=
  match findTool words "git".toList with
  | none => none
  | some index => gitRules (words.drop (index + 1))

/-- `blocked_reason`. -/
def blockedReason (command : List Char) : Option String :=
  match chunks command with
  | .error _ => some "Refusing a malformed shell command that could not be inspected."
  | .ok chunks => chunks.findSome? fun words => githubReason words <|> gitReason words

/-! ### What the rules match -/

/-- The words run a tool, found by the last part of its path, with a subcommand and
some arguments after it, in this order. -/
def Runs (words : List (List Char)) (tool sub : String) (arguments : List (List Char)) : Prop :=
  ∃ path, pathName path = tool.toList ∧ (path :: sub.toList :: arguments) <+ words

/-- An argument of a push that a rule knows. -/
def KnownPush (argument : List Char) : Prop :=
  argument ∈ ["--force".toList, "--force-with-lease".toList, "--force-if-includes".toList,
      "--delete".toList] ∨
    isShortFlag 'f' argument ∨ isShortFlag 'd' argument ∨
    "+".toList <+: argument ∨ ":".toList <+: argument

/-- The words each rule looks for: a tool, a subcommand, and arguments after it. -/
inductive Rule : String → String → List (List Char) → Prop where
  | merge : Rule "gh" "pr" ["merge".toList]
  | push {argument : List Char} : KnownPush argument → Rule "git" "push" [argument]
  | reset : Rule "git" "reset" ["--hard".toList]
  | hard : Rule "git" "--hard" ["reset".toList]
  | clean {argument : List Char} :
      argument = "--force".toList ∨ isShortFlag 'f' argument → Rule "git" "clean" [argument]
  | branch : Rule "git" "branch" ["-D".toList]
  | deleteForce : Rule "git" "branch" ["--delete".toList, "--force".toList]
  | forceDelete : Rule "git" "branch" ["--force".toList, "--delete".toList]
  | worktree : Rule "git" "worktree" ["remove".toList, "--force".toList]
  | remove : Rule "git" "remove" ["worktree".toList, "--force".toList]
  | force : Rule "git" "remove" ["--force".toList, "worktree".toList]

/-- Some rule matches the words. -/
def Violation (words : List (List Char)) : Prop :=
  ∃ tool sub arguments, Rule tool sub arguments ∧ Runs words tool sub arguments

/-- More words do not undo a match. -/
theorem Violation.mono {words words' : List (List Char)} (h : Violation words)
    (hsub : words <+ words') : Violation words' := by
  obtain ⟨tool, sub, arguments, hrule, path, hpath, hwords⟩ := h
  exact ⟨tool, sub, arguments, hrule, path, hpath, hwords.trans hsub⟩

theorem not_violation_nil : ¬ Violation [] := by
  rintro ⟨tool, sub, arguments, -, path, -, hwords⟩
  cases hwords

/-! ### The first occurrence -/

/-- What comes after some occurrence of a word comes after its first occurrence. -/
theorem sublist_of_cons {first rest words : List (List Char)} {a b : List Char}
    (h : a :: words <+ first ++ b :: rest) (ha : a ∉ first) : words <+ rest := by
  obtain ⟨l, l', hl, hfirst, hrest⟩ := List.sublist_append_iff.mp h
  cases l with
  | nil =>
    rw [List.nil_append] at hl
    rw [← hl] at hrest
    exact hrest.tail
  | cons c l =>
    cases hl
    exact absurd (hfirst.subset (List.mem_cons_self ..)) ha

theorem cons_sublist_iff {word : List Char} {words arguments : List (List Char)} :
    word :: words <+ arguments ↔ word ∈ arguments ∧ words <+ after word arguments := by
  constructor
  · intro h
    have hmem : word ∈ arguments := h.subset (List.mem_cons_self ..)
    refine ⟨hmem, ?_⟩
    obtain ⟨first, rest, rfl, hfirst⟩ := List.eq_append_cons_of_mem hmem
    rw [after, List.idxOf_append_of_notMem hfirst]
    simpa using sublist_of_cons h hfirst
  · rintro ⟨hmem, h⟩
    obtain ⟨first, rest, rfl, hfirst⟩ := List.eq_append_cons_of_mem hmem
    rw [after, List.idxOf_append_of_notMem hfirst] at h
    have hrest : words <+ rest := by simpa using h
    exact (hrest.cons_cons word).trans (List.sublist_append_right first _)

theorem findTool_some {words : List (List Char)} {name : List Char} {index : ℕ}
    (h : findTool words name = some index) :
    ∃ first path, words = first ++ path :: words.drop (index + 1) ∧ pathName path = name ∧
      ∀ word ∈ first, pathName word ≠ name := by
  obtain ⟨hindex, hpath, hfirst⟩ := List.findIdx?_eq_some_iff_getElem.mp h
  refine ⟨words.take index, words[index], ?_, by simpa using hpath, ?_⟩
  · rw [List.getElem_cons_drop, List.take_append_drop]
  · intro word hword
    obtain ⟨j, hj, rfl⟩ := List.mem_take_iff_getElem.mp hword
    have hne := hfirst j (by omega)
    simpa using hne

/-- The words a tool is run with are those after the first word that names it. -/
theorem runs_iff {words : List (List Char)} {tool sub : String} {arguments : List (List Char)} :
    Runs words tool sub arguments ↔
      ∃ index, findTool words tool.toList = some index ∧
        (sub.toList :: arguments) <+ words.drop (index + 1) := by
  constructor
  · rintro ⟨path, hpath, hwords⟩
    cases hfind : findTool words tool.toList with
    | none =>
      have hnone := List.findIdx?_eq_none_iff.mp hfind path
        (hwords.subset (List.mem_cons_self ..))
      exact absurd hpath (by simpa using hnone)
    | some index =>
      refine ⟨index, rfl, ?_⟩
      obtain ⟨first, path', hsplit, -, hfirst⟩ := findTool_some hfind
      rw [hsplit] at hwords
      exact sublist_of_cons hwords fun hmem => hfirst path hmem hpath
  · rintro ⟨index, hfind, h⟩
    obtain ⟨first, path, hsplit, hpath, -⟩ := findTool_some hfind
    refine ⟨path, hpath, ?_⟩
    rw [hsplit]
    exact (h.cons_cons path).trans (List.sublist_append_right first _)

/-! ### What the rules decide -/

theorem mergesPullRequest_iff (arguments : List (List Char)) :
    mergesPullRequest arguments = true ↔ ["pr".toList, "merge".toList] <+ arguments := by
  induction arguments with
  | nil => simp [mergesPullRequest]
  | cons argument arguments ih =>
    rw [mergesPullRequest, Bool.or_eq_true, ih, List.sublist_cons_iff, Bool.and_eq_true,
      decide_eq_true_eq, List.contains_iff_mem]
    constructor
    · rintro (⟨rfl, hmerge⟩ | h)
      · exact Or.inr ⟨_, rfl, List.singleton_sublist.mpr hmerge⟩
      · exact Or.inl h
    · rintro (h | ⟨rest, hrest, h⟩)
      · exact Or.inr h
      · cases hrest
        exact Or.inl ⟨rfl, List.singleton_sublist.mp h⟩

theorem githubReason_iff (words : List (List Char)) :
    (githubReason words).isSome ↔ Runs words "gh" "pr" ["merge".toList] := by
  rw [runs_iff]
  unfold githubReason
  cases hfind : findTool words "gh".toList with
  | none => simp
  | some index =>
    show (if mergesPullRequest (words.drop (index + 1)) = true then _ else _ :
      Option String).isSome ↔ _
    by_cases h : mergesPullRequest (words.drop (index + 1)) = true
    · rw [if_pos h]
      exact ⟨fun _ => ⟨index, rfl, (mergesPullRequest_iff _).mp h⟩, fun _ => rfl⟩
    · rw [if_neg h]
      refine ⟨fun hnone => absurd hnone (by simp), ?_⟩
      rintro ⟨_, hindex, hwords⟩
      cases hindex
      exact absurd ((mergesPullRequest_iff _).mpr hwords) h

theorem knownPush_iff (arguments : List (List Char)) :
    (forcesPush arguments = true ∨ deletesRemote arguments = true) ↔
      ∃ argument ∈ arguments, KnownPush argument := by
  simp only [forcesPush, deletesRemote, hasShortFlag, KnownPush, Bool.or_eq_true, List.any_eq_true,
    List.contains_iff_mem, List.isPrefixOf_iff_prefix, List.mem_cons, List.not_mem_nil, or_false]
  constructor
  · rintro (((⟨a, ha, h⟩ | ⟨a, ha, h⟩) | ⟨a, ha, h⟩) | ((ha | ⟨a, ha, h⟩) | ⟨a, ha, h⟩))
    · rcases h with h | h | h
      · exact ⟨a, ha, Or.inl (Or.inl h)⟩
      · exact ⟨a, ha, Or.inl (Or.inr (Or.inl h))⟩
      · exact ⟨a, ha, Or.inl (Or.inr (Or.inr (Or.inl h)))⟩
    · exact ⟨a, ha, Or.inr (Or.inl h)⟩
    · exact ⟨a, ha, Or.inr (Or.inr (Or.inr (Or.inl h)))⟩
    · exact ⟨_, ha, Or.inl (Or.inr (Or.inr (Or.inr rfl)))⟩
    · exact ⟨a, ha, Or.inr (Or.inr (Or.inl h))⟩
    · exact ⟨a, ha, Or.inr (Or.inr (Or.inr (Or.inr h)))⟩
  · rintro ⟨a, ha, (h | h | h | rfl) | h | h | h | h⟩
    · exact Or.inl (Or.inl (Or.inl ⟨a, ha, Or.inl h⟩))
    · exact Or.inl (Or.inl (Or.inl ⟨a, ha, Or.inr (Or.inl h)⟩))
    · exact Or.inl (Or.inl (Or.inl ⟨a, ha, Or.inr (Or.inr h)⟩))
    · exact Or.inr (Or.inl (Or.inl ha))
    · exact Or.inl (Or.inl (Or.inr ⟨a, ha, h⟩))
    · exact Or.inr (Or.inl (Or.inr ⟨a, ha, h⟩))
    · exact Or.inl (Or.inr ⟨a, ha, h⟩)
    · exact Or.inr (Or.inr ⟨a, ha, h⟩)

/-- The arguments of `git` hold the words of some rule. -/
def GitViolation (arguments : List (List Char)) : Prop :=
  ∃ sub words, Rule "git" sub words ∧ (sub.toList :: words) <+ arguments

theorem isSome_ite {c : Prop} [Decidable c] (reason : String) (next : Option String) :
    (if c then some reason else next).isSome = true ↔ c ∨ next.isSome = true := by
  by_cases h : c
  · simp [h]
  · simp [h]

theorem gitRules_isSome (arguments : List (List Char)) :
    (gitRules arguments).isSome ↔
      ("push".toList ∈ arguments ∧ ∃ a ∈ after "push".toList arguments, KnownPush a) ∨
      ("reset".toList ∈ arguments ∧ "--hard".toList ∈ arguments) ∨
      ("clean".toList ∈ arguments ∧ ("--force".toList ∈ after "clean".toList arguments ∨
        ∃ a ∈ after "clean".toList arguments, isShortFlag 'f' a)) ∨
      ("branch".toList ∈ arguments ∧ ("-D".toList ∈ after "branch".toList arguments ∨
        "--delete".toList ∈ after "branch".toList arguments ∧
          "--force".toList ∈ after "branch".toList arguments)) ∨
      ("worktree".toList ∈ arguments ∧ "remove".toList ∈ arguments) ∧
        "--force".toList ∈ after "remove".toList arguments := by
  rw [← knownPush_iff, and_or_left, or_assoc]
  unfold gitRules
  simp only [isSome_ite, Bool.and_eq_true, Bool.or_eq_true, List.contains_iff_mem, hasShortFlag,
    List.any_eq_true, Option.isSome_none, Bool.false_eq_true, or_false]

/-- Two words stand among others in one order or the other. -/
theorem pair_mem_iff {a b : List Char} (hne : a ≠ b) (words : List (List Char)) :
    a ∈ words ∧ b ∈ words ↔ [a, b] <+ words ∨ [b, a] <+ words := by
  constructor
  · rintro ⟨ha, hb⟩
    obtain ⟨first, rest, rfl, -⟩ := List.eq_append_cons_of_mem ha
    rcases List.mem_append.mp hb with hb | hb
    · right
      exact (List.singleton_sublist.mpr hb).append
        (List.singleton_sublist.mpr (List.mem_cons_self ..))
    · left
      have hb' : b ∈ rest := (List.mem_cons.mp hb).resolve_left (Ne.symm hne)
      exact ((List.singleton_sublist.mpr hb').cons_cons a).trans (List.sublist_append_right ..)
  · rintro (h | h)
    · exact ⟨h.subset (by simp), h.subset (by simp)⟩
    · exact ⟨h.subset (by simp), h.subset (by simp)⟩

/-- The checks of `_git_reason` find the words of the rules, and nothing else. -/
theorem gitRules_iff (arguments : List (List Char)) :
    (gitRules arguments).isSome ↔ GitViolation arguments := by
  rw [gitRules_isSome]
  constructor
  -- the words of a rule stand in the command in one order or the other
  · rintro (⟨hpush, a, ha, hknown⟩ | hreset | ⟨hclean, h⟩ | ⟨hbranch, h⟩ |
      ⟨⟨htree, hremove⟩, hforce⟩)
    · exact ⟨"push", [a], .push hknown,
        cons_sublist_iff.mpr ⟨hpush, List.singleton_sublist.mpr ha⟩⟩
    · rcases (pair_mem_iff (by decide) arguments).mp hreset with h | h
      · exact ⟨"reset", _, .reset, h⟩
      · exact ⟨"--hard", _, .hard, h⟩
    · rcases h with h | ⟨a, ha, hflag⟩
      · exact ⟨"clean", _, .clean (Or.inl rfl),
          cons_sublist_iff.mpr ⟨hclean, List.singleton_sublist.mpr h⟩⟩
      · exact ⟨"clean", [a], .clean (Or.inr hflag),
          cons_sublist_iff.mpr ⟨hclean, List.singleton_sublist.mpr ha⟩⟩
    · rcases h with h | h
      · exact ⟨"branch", _, .branch,
          cons_sublist_iff.mpr ⟨hbranch, List.singleton_sublist.mpr h⟩⟩
      · rcases (pair_mem_iff (by decide) _).mp h with h | h
        · exact ⟨"branch", _, .deleteForce, cons_sublist_iff.mpr ⟨hbranch, h⟩⟩
        · exact ⟨"branch", _, .forceDelete, cons_sublist_iff.mpr ⟨hbranch, h⟩⟩
    · -- the word `worktree` stands before the first `remove` or after it
      obtain ⟨first, rest, rfl, hfirst⟩ := List.eq_append_cons_of_mem hremove
      rw [after, List.idxOf_append_of_notMem hfirst] at hforce
      have hforce' : "--force".toList ∈ rest := by simpa using hforce
      rcases List.mem_append.mp htree with htree | htree
      · refine ⟨"worktree", _, .worktree, ?_⟩
        exact (List.singleton_sublist.mpr htree).append
          ((List.singleton_sublist.mpr hforce').cons_cons "remove".toList)
      · have htree' : "worktree".toList ∈ rest :=
          (List.mem_cons.mp htree).resolve_left (by decide)
        have hrest : ∀ words, words <+ rest →
            "remove".toList :: words <+ first ++ "remove".toList :: rest := fun words h =>
          (h.cons_cons _).trans (List.sublist_append_right first _)
        rcases (pair_mem_iff (by decide) rest).mp ⟨htree', hforce'⟩ with h | h
        · exact ⟨"remove", _, .remove, hrest _ h⟩
        · exact ⟨"remove", _, .force, hrest _ h⟩
  · rintro ⟨sub, words, hrule, h⟩
    -- conversely, one case per rule
    generalize htool : "git" = tool at hrule
    cases hrule with
    | merge => exact absurd htool (by decide)
    | push hknown =>
      obtain ⟨hpush, ha⟩ := cons_sublist_iff.mp h
      exact Or.inl ⟨hpush, _, List.singleton_sublist.mp ha, hknown⟩
    | reset => exact Or.inr (Or.inl ((pair_mem_iff (by decide) arguments).mpr (Or.inl h)))
    | hard => exact Or.inr (Or.inl ((pair_mem_iff (by decide) arguments).mpr (Or.inr h)))
    | clean hargument =>
      obtain ⟨hclean, ha⟩ := cons_sublist_iff.mp h
      refine Or.inr (Or.inr (Or.inl ⟨hclean, ?_⟩))
      rcases hargument with rfl | hflag
      · exact Or.inl (List.singleton_sublist.mp ha)
      · exact Or.inr ⟨_, List.singleton_sublist.mp ha, hflag⟩
    | branch =>
      obtain ⟨hbranch, ha⟩ := cons_sublist_iff.mp h
      exact Or.inr (Or.inr (Or.inr (Or.inl ⟨hbranch, Or.inl (List.singleton_sublist.mp ha)⟩)))
    | deleteForce =>
      obtain ⟨hbranch, ha⟩ := cons_sublist_iff.mp h
      exact Or.inr (Or.inr (Or.inr (Or.inl
        ⟨hbranch, Or.inr ((pair_mem_iff (by decide) _).mpr (Or.inl ha))⟩)))
    | forceDelete =>
      obtain ⟨hbranch, ha⟩ := cons_sublist_iff.mp h
      exact Or.inr (Or.inr (Or.inr (Or.inl
        ⟨hbranch, Or.inr ((pair_mem_iff (by decide) _).mpr (Or.inr ha))⟩)))
    | worktree | remove | force =>
      have hremove : "remove".toList ∈ arguments := h.subset (by simp)
      have hforce : ["remove".toList, "--force".toList] <+ arguments :=
        List.Sublist.trans (by decide) h
      exact Or.inr (Or.inr (Or.inr (Or.inr ⟨⟨h.subset (by simp), hremove⟩,
        List.singleton_sublist.mp (cons_sublist_iff.mp hforce).2⟩)))

theorem gitReason_iff (words : List (List Char)) :
    (gitReason words).isSome ↔
      ∃ sub arguments, Rule "git" sub arguments ∧ Runs words "git" sub arguments := by
  simp only [runs_iff]
  unfold gitReason
  cases hfind : findTool words "git".toList with
  | none => simp
  | some index =>
    show (gitRules (words.drop (index + 1))).isSome ↔ _
    rw [gitRules_iff]
    constructor
    · rintro ⟨sub, arguments, hrule, h⟩
      exact ⟨sub, arguments, hrule, index, rfl, h⟩
    · rintro ⟨sub, arguments, hrule, _, hindex, h⟩
      cases hindex
      exact ⟨sub, arguments, hrule, h⟩

/-- A piece gives a reason exactly if some rule matches it. -/
theorem reason_iff (words : List (List Char)) :
    (githubReason words <|> gitReason words).isSome ↔ Violation words := by
  have hor : (githubReason words <|> gitReason words).isSome ↔
      (githubReason words).isSome ∨ (gitReason words).isSome := by
    cases githubReason words <;> simp
  rw [hor, githubReason_iff, gitReason_iff]
  constructor
  · rintro (h | ⟨sub, arguments, hrule, h⟩)
    · exact ⟨_, _, _, .merge, h⟩
    · exact ⟨_, sub, arguments, hrule, h⟩
  · rintro ⟨tool, sub, arguments, hrule, h⟩
    cases hrule with
    | merge => exact Or.inl h
    | push hknown => exact Or.inr ⟨_, _, .push hknown, h⟩
    | reset => exact Or.inr ⟨_, _, .reset, h⟩
    | hard => exact Or.inr ⟨_, _, .hard, h⟩
    | clean hargument => exact Or.inr ⟨_, _, .clean hargument, h⟩
    | branch => exact Or.inr ⟨_, _, .branch, h⟩
    | deleteForce => exact Or.inr ⟨_, _, .deleteForce, h⟩
    | forceDelete => exact Or.inr ⟨_, _, .forceDelete, h⟩
    | worktree => exact Or.inr ⟨_, _, .worktree, h⟩
    | remove => exact Or.inr ⟨_, _, .remove, h⟩
    | force => exact Or.inr ⟨_, _, .force, h⟩

/-! ### Pieces -/

/-- Some rule matches a stretch of the words that no separator interrupts. -/
def Caught (words : List (List Char)) : Prop :=
  ∃ piece, piece <:+: words ∧ (∀ word ∈ piece, ¬ isSeparator word) ∧ Violation piece

/-- What the loop of `_chunks` keeps: the chunks are uninterrupted stretches of the
words, each such stretch is within one of them, and the last chunk has those at the end. -/
structure Cut (words : List (List Char))
    (chunks : List (List (List Char)) × List (List Char)) : Prop where
  sound : ∀ chunk ∈ chunks.1, chunk <:+: words ∧ ∀ word ∈ chunk, ¬ isSeparator word
  last : chunks.2 <:+ words ∧ ∀ word ∈ chunks.2, ¬ isSeparator word
  complete : ∀ piece, piece <:+: words → (∀ word ∈ piece, ¬ isSeparator word) → piece ≠ [] →
    ∃ chunk, (chunk ∈ chunks.1 ∨ chunk = chunks.2) ∧ piece <:+: chunk
  ends : ∀ piece, piece <:+ words → (∀ word ∈ piece, ¬ isSeparator word) → piece <:+ chunks.2

theorem cut_chunkStep {words : List (List Char)}
    {chunks : List (List (List Char)) × List (List Char)} (h : Cut words chunks)
    (token : List Char) : Cut (words ++ [token]) (chunkStep chunks token) := by
  have hinfix : words <:+: words ++ [token] := (List.prefix_append words [token]).isInfix
  unfold chunkStep
  by_cases hseparator : isSeparator token = true
  · -- a stretch that holds the separator is interrupted, the others were there before
    have hends : ∀ piece, piece <:+ words ++ [token] → (∀ word ∈ piece, ¬ isSeparator word) →
        piece = [] := by
      intro piece hpiece hplain
      rcases List.suffix_concat_iff.mp hpiece with rfl | ⟨before, rfl, -⟩
      · rfl
      · exact absurd hseparator (hplain token (by simp))
    have hcomplete : ∀ piece, piece <:+: words ++ [token] →
        (∀ word ∈ piece, ¬ isSeparator word) → piece ≠ [] →
        ∃ chunk, (chunk ∈ chunks.1 ∨ chunk = chunks.2) ∧ piece <:+: chunk := by
      intro piece hpiece hplain hne
      rcases List.infix_concat_iff.mp hpiece with hpiece | hpiece
      · exact absurd (hends piece hpiece hplain) hne
      · exact h.complete piece hpiece hplain hne
    rw [if_pos hseparator]
    by_cases hlast : chunks.2 = []
    · rw [if_neg (by simpa using hlast)]
      refine ⟨fun chunk hchunk => ⟨((h.sound chunk hchunk).1).trans hinfix,
        (h.sound chunk hchunk).2⟩,
        ⟨by rw [hlast]; exact List.nil_suffix, h.last.2⟩, hcomplete, ?_⟩
      intro piece hpiece hplain
      rw [hends piece hpiece hplain]
      exact List.nil_suffix
    · rw [if_pos hlast]
      refine ⟨?_, ⟨List.nil_suffix, by simp⟩, ?_, ?_⟩
      · intro chunk hchunk
        rcases List.mem_append.mp hchunk with hchunk | hchunk
        · exact ⟨((h.sound chunk hchunk).1).trans hinfix, (h.sound chunk hchunk).2⟩
        · rw [List.mem_singleton.mp hchunk]
          exact ⟨h.last.1.isInfix.trans hinfix, h.last.2⟩
      · intro piece hpiece hplain hne
        obtain ⟨chunk, hchunk, hin⟩ := hcomplete piece hpiece hplain hne
        refine ⟨chunk, Or.inl ?_, hin⟩
        rcases hchunk with hchunk | rfl
        · exact List.mem_append_left _ hchunk
        · exact List.mem_append_right _ (List.mem_singleton.mpr rfl)
      · intro piece hpiece hplain
        rw [hends piece hpiece hplain]
  · rw [if_neg hseparator]
    have hends : ∀ piece, piece <:+ words ++ [token] → (∀ word ∈ piece, ¬ isSeparator word) →
        piece <:+ chunks.2 ++ [token] := by
      intro piece hpiece hplain
      rcases List.suffix_concat_iff.mp hpiece with rfl | ⟨before, rfl, hbefore⟩
      · exact List.nil_suffix
      · obtain ⟨rest, hrest⟩ := h.ends before hbefore
          fun word hword => hplain word (List.mem_append_left _ hword)
        exact ⟨rest, by rw [← hrest, List.append_assoc]⟩
    refine ⟨fun chunk hchunk => ⟨((h.sound chunk hchunk).1).trans hinfix, (h.sound chunk hchunk).2⟩,
      ⟨?_, ?_⟩, ?_, hends⟩
    · obtain ⟨before, hbefore⟩ := h.last.1
      exact ⟨before, by rw [← List.append_assoc, hbefore]⟩
    · intro word hword
      rcases List.mem_append.mp hword with hword | hword
      · exact h.last.2 word hword
      · rw [List.mem_singleton.mp hword]
        exact hseparator
    · intro piece hpiece hplain hne
      rcases List.infix_concat_iff.mp hpiece with hpiece | hpiece
      · exact ⟨_, Or.inr rfl, (hends piece hpiece hplain).isInfix⟩
      · obtain ⟨chunk, hchunk, hin⟩ := h.complete piece hpiece hplain hne
        rcases hchunk with hchunk | rfl
        · exact ⟨chunk, Or.inl hchunk, hin⟩
        · exact ⟨_, Or.inr rfl, hin.trans (List.prefix_append chunks.2 [token]).isInfix⟩

theorem cut_chunks (words : List (List Char)) : Cut words (words.foldl chunkStep ([], [])) := by
  induction words using List.reverseRecOn with
  | nil =>
    refine ⟨by simp, ⟨List.nil_suffix, by simp⟩, ?_, fun piece hpiece _ => hpiece⟩
    intro piece hpiece hplain hne
    exact absurd (List.infix_nil.mp hpiece) hne
  | append_singleton words token ih =>
    rw [List.foldl_append]
    exact cut_chunkStep ih token

theorem caught_iff (words : List (List Char)) :
    Caught words ↔ ∃ chunk ∈ chunksOf words, Violation chunk := by
  have h := cut_chunks words
  unfold chunksOf
  constructor
  · rintro ⟨piece, hpiece, hplain, hviolation⟩
    have hne : piece ≠ [] := by
      rintro rfl
      exact not_violation_nil hviolation
    obtain ⟨chunk, hchunk, hin⟩ := h.complete piece hpiece hplain hne
    refine ⟨chunk, List.mem_filter.mpr ⟨?_, ?_⟩, hviolation.mono hin.sublist⟩
    · rcases hchunk with hchunk | rfl
      · exact List.mem_append_left _ hchunk
      · exact List.mem_append_right _ (List.mem_singleton.mpr rfl)
    · refine decide_eq_true ?_
      rintro rfl
      exact hne (List.infix_nil.mp hin)
  · rintro ⟨chunk, hchunk, hviolation⟩
    rcases List.mem_append.mp (List.mem_filter.mp hchunk).1 with hchunk | hchunk
    · exact ⟨chunk, (h.sound chunk hchunk).1, (h.sound chunk hchunk).2, hviolation⟩
    · rw [List.mem_singleton.mp hchunk] at hviolation
      exact ⟨_, h.last.1.isInfix, h.last.2, hviolation⟩

/-- What is blocked, of the commands that can be read. -/
theorem blockedReason_iff {command : List Char} {words : List (List Char)}
    (h : tokens punctuation command = .ok words) :
    (blockedReason command).isSome ↔ Caught words := by
  have hchunks : chunks command = .ok (chunksOf words) := by
    rw [chunks, h]
    rfl
  rw [caught_iff, blockedReason, hchunks]
  show (List.findSome? _ (chunksOf words)).isSome ↔ _
  rw [List.findSome?_isSome_iff]
  simp only [reason_iff]

/-! ### The operations the policy names -/

/-- One of the options that force a push, also with a value. -/
def IsForceOption (argument : List Char) : Prop :=
  ∃ option ∈ ["--force".toList, "--force-with-lease".toList, "--force-if-includes".toList],
    argument = option ∨ ∃ value, argument = option ++ '=' :: value

/-- An argument with which a push is destructive. -/
def DestroysRemote (argument : List Char) : Prop :=
  IsForceOption argument ∨ isShortFlag 'f' argument ∨ "+".toList <+: argument ∨
    argument = "--delete".toList ∨ isShortFlag 'd' argument ∨ ":".toList <+: argument

/-- The command the words form is one the policy names. -/
inductive Forbidden (words : List (List Char)) : Prop where
  | merge : Runs words "gh" "pr" ["merge".toList] → Forbidden words
  | push (argument : List Char) :
      Runs words "git" "push" [argument] → DestroysRemote argument → Forbidden words
  | reset : Runs words "git" "reset" ["--hard".toList] → Forbidden words
  | clean (argument : List Char) :
      Runs words "git" "clean" [argument] →
      argument = "--force".toList ∨ isShortFlag 'f' argument → Forbidden words
  | branch (argument : List Char) :
      Runs words "git" "branch" [argument] → isShortFlag 'D' argument → Forbidden words
  | deleteBranch (arguments : List (List Char)) :
      Runs words "git" "branch" arguments →
      (∃ option ∈ arguments, option = "--delete".toList ∨ isShortFlag 'd' option) →
      (∃ option ∈ arguments, option = "--force".toList ∨ isShortFlag 'f' option) →
      Forbidden words
  | worktree (option : List Char) :
      Runs words "git" "worktree" ["remove".toList, option] →
      option = "--force".toList ∨ option = "-f".toList → Forbidden words

/-- Every command that is read as the words is blocked if they are forbidden. -/
def Complete (words : List (List Char)) : Prop :=
  ∀ command, tokens punctuation command = .ok words → Forbidden words →
    (blockedReason command).isSome

/-- **The guard is complete for a list of words exactly if the words, if forbidden, have
an uninterrupted stretch that holds the words of a rule in its spelling.** -/
theorem complete_iff (words : List (List Char)) :
    Complete words ↔ (Forbidden words → Caught words) := by
  constructor
  · intro h hforbidden
    have hjoin : tokens punctuation (join words) = .ok words := tokens_join_quote (by decide) words
    exact (blockedReason_iff hjoin).mp (h _ hjoin hforbidden)
  · intro h command hcommand hforbidden
    exact (blockedReason_iff hcommand).mpr (h hforbidden)

/-- A push forced with a lease on a named branch passes. -/
theorem complete_violated : ¬ ∀ words, Complete words := by
  intro h
  have hwords : tokens punctuation "git push --force-with-lease=main origin".toList =
      .ok ["git".toList, "push".toList, "--force-with-lease=main".toList, "origin".toList] := by
    decide
  have hforbidden : Forbidden
      ["git".toList, "push".toList, "--force-with-lease=main".toList, "origin".toList] := by
    refine .push "--force-with-lease=main".toList ⟨"git".toList, by decide, by decide⟩ (Or.inl ?_)
    exact ⟨"--force-with-lease".toList, by decide, Or.inr ⟨"main".toList, by decide⟩⟩
  have hblocked := h _ _ hwords hforbidden
  have hpasses : blockedReason "git push --force-with-lease=main origin".toList = none := by
    decide
  rw [hpasses] at hblocked
  cases hblocked

/-! ### More words, more commands -/

theorem Caught.infix {words words' : List (List Char)} (h : Caught words)
    (hwords : words <:+: words') : Caught words' := by
  obtain ⟨piece, hpiece, hplain, hviolation⟩ := h
  exact ⟨piece, hpiece.trans hwords, hplain, hviolation⟩

/-- A stretch without some word lies on one side of it. -/
theorem infix_of_notMem {before rest piece : List (List Char)} {word : List Char}
    (h : piece <:+: before ++ word :: rest) (hword : word ∉ piece) :
    piece <:+: before ∨ piece <:+: rest := by
  obtain ⟨x, y, h⟩ := h
  rcases List.append_eq_append_iff.mp h with ⟨tail, hbefore, -⟩ | ⟨tail, hpiece, hrest⟩
  · exact Or.inl ⟨x, tail, hbefore.symm⟩
  · cases tail with
    | nil => exact Or.inl ⟨x, [], by simpa using hpiece⟩
    | cons c tail =>
      rw [List.cons_append, List.cons.injEq] at hrest
      obtain ⟨rfl, rfl⟩ := hrest
      rcases List.append_eq_append_iff.mp hpiece with ⟨tail', -, hcut⟩ | ⟨tail', -, hcut⟩
      · exact absurd (by simp [hcut]) hword
      · cases tail' with
        | nil =>
          rw [List.nil_append] at hcut
          exact absurd (by simp [← hcut]) hword
        | cons c' tail' =>
          rw [List.cons_append, List.cons.injEq] at hcut
          right
          rw [hcut.2]
          exact List.infix_append tail' piece y

/-- A stretch of two lists of words is one of either, or ends the first and begins the
second. -/
theorem infix_append_cases {before rest piece : List (List Char)} (h : piece <:+: before ++ rest) :
    piece <:+: before ∨ piece <:+: rest ∨
      ∃ p q, piece = p ++ q ∧ p <:+ before ∧ q <+: rest := by
  obtain ⟨x, y, h⟩ := h
  rcases List.append_eq_append_iff.mp h with ⟨tail, hbefore, -⟩ | ⟨tail, hpiece, hrest⟩
  · exact Or.inl ⟨x, tail, hbefore.symm⟩
  · rcases List.append_eq_append_iff.mp hpiece with ⟨p, hbefore, hcut⟩ | ⟨x', -, hcut⟩
    · exact Or.inr (Or.inr ⟨p, tail, hcut, ⟨x, hbefore.symm⟩, ⟨y, hrest.symm⟩⟩)
    · right
      left
      rw [hrest, hcut]
      exact List.infix_append x' piece y

/-- A separator parts the words. -/
theorem caught_separator {before rest : List (List Char)} {separator : List Char}
    (hseparator : isSeparator separator) :
    Caught (before ++ separator :: rest) ↔ Caught before ∨ Caught rest := by
  constructor
  · rintro ⟨piece, hpiece, hplain, hviolation⟩
    rcases infix_of_notMem hpiece fun hmem => hplain separator hmem hseparator with h | h
    · exact Or.inl ⟨piece, h, hplain, hviolation⟩
    · exact Or.inr ⟨piece, h, hplain, hviolation⟩
  · rintro (h | h)
    · exact h.infix (List.prefix_append before _).isInfix
    · exact h.infix ⟨before ++ [separator], [], by simp⟩

/-- Words that are no separators, inserted anywhere, leave every match. -/
theorem Caught.insert {before rest : List (List Char)} (h : Caught (before ++ rest))
    {inserted : List (List Char)} (hinserted : ∀ word ∈ inserted, ¬ isSeparator word) :
    Caught (before ++ (inserted ++ rest)) := by
  obtain ⟨piece, hpiece, hplain, hviolation⟩ := h
  rcases infix_append_cases hpiece with h | h | ⟨p, q, rfl, ⟨x, hp⟩, ⟨y, hq⟩⟩
  · exact ⟨piece, h.trans (List.prefix_append before _).isInfix, hplain, hviolation⟩
  · refine ⟨piece, h.trans ⟨before ++ inserted, [], by simp⟩, hplain, hviolation⟩
  · refine ⟨p ++ (inserted ++ q), ⟨x, y, by rw [← hp, ← hq]; simp⟩, ?_, hviolation.mono ?_⟩
    · intro word hword
      rcases List.mem_append.mp hword with hword | hword
      · exact hplain word (List.mem_append_left _ hword)
      · rcases List.mem_append.mp hword with hword | hword
        · exact hinserted word hword
        · exact hplain word (List.mem_append_right _ hword)
    · exact (List.Sublist.refl p).append (List.sublist_append_right inserted q)

/-- A text the analyser reads to its end, with its words. -/
structure Line where
  text : List Char
  words : List (List Char)
  read : tokens punctuation text = .ok words

/-- A run of separators, newlines and blanks that is not empty. -/
def Connective (text : List Char) : Prop :=
  text ≠ [] ∧ ∀ c ∈ text, c ∈ whitespace ∨ c ∈ punctuation

/-- The inserted words hold no separator, or the words of a rule stand before the
first one or after it. -/
def Uncut (before inserted rest : List (List Char)) : Prop :=
  (∀ word ∈ inserted, ¬ isSeparator word) ∨
    Caught (before ++ inserted.takeWhile (!isSeparator ·)) ∨
    Caught ((inserted.dropWhile (!isSeparator ·)).tail ++ rest)

theorem uncut_iff {before inserted rest : List (List Char)} (h : Caught (before ++ rest)) :
    Caught (before ++ (inserted ++ rest)) ↔ Uncut before inserted rest := by
  by_cases hplain : ∀ word ∈ inserted, ¬ isSeparator word
  · exact ⟨fun _ => Or.inl hplain, fun _ => h.insert hplain⟩
  · have hdrop : inserted.dropWhile (!isSeparator ·) ≠ [] := by
      intro hnil
      refine hplain fun word hword => ?_
      simpa using List.dropWhile_eq_nil_iff.mp hnil word hword
    obtain ⟨separator, tail, htail⟩ := List.exists_cons_of_ne_nil hdrop
    have hseparator : isSeparator separator = true := by
      have hhead := List.head_dropWhile_not (!isSeparator ·) hdrop
      simpa [htail] using hhead
    have hsplit : inserted = inserted.takeWhile (!isSeparator ·) ++ separator :: tail := by
      rw [← htail, List.takeWhile_append_dropWhile]
    have hcaught : Caught (before ++ (inserted ++ rest)) ↔
        Caught (before ++ inserted.takeWhile (!isSeparator ·)) ∨ Caught (tail ++ rest) := by
      rw [← caught_separator hseparator]
      conv_lhs => rw [hsplit]
      simp only [List.append_assoc, List.cons_append]
    rw [hcaught, Uncut, htail, List.tail_cons]
    exact ⟨Or.inr, fun hcases => hcases.resolve_left hplain⟩

theorem punctuation_plain : ∀ c ∈ punctuation, c ∉ whitespace ∧ c ∉ quotes ∧ c ≠ '\\' :=
  List.all_iff_forall_prop.mp (by decide)

theorem isSeparator_of_punctuation {token : List Char} (h : ∀ c ∈ token, c ∈ punctuation) :
    isSeparator token = true := by
  rw [isSeparator, Bool.or_eq_true]
  right
  rw [List.all_eq_true]
  intro c hc
  exact List.contains_iff_mem.mpr (h c hc)

/-- A word more or less that is a separator changes nothing at the end or the start. -/
theorem caught_ends {words rest : List (List Char)}
    (h : words = rest ∨ (∃ s, words = rest ++ [s] ∧ ∀ c ∈ s, c ∈ punctuation) ∨
      ∃ s, words = s :: rest ∧ ∀ c ∈ s, c ∈ punctuation) (hcaught : Caught words) :
    Caught rest := by
  have hnil : ¬ Caught [] := by
    rintro ⟨piece, hpiece, -, hviolation⟩
    rw [List.infix_nil.mp hpiece] at hviolation
    exact not_violation_nil hviolation
  rcases h with rfl | ⟨s, rfl, hs⟩ | ⟨s, rfl, hs⟩
  · exact hcaught
  · exact ((caught_separator (isSeparator_of_punctuation hs)).mp hcaught).resolve_right hnil
  · have hcaught' : Caught ([] ++ s :: rest) := hcaught
    exact ((caught_separator (isSeparator_of_punctuation hs)).mp hcaught').resolve_left hnil

/-- One character of a connective between two lines. -/
theorem joined_cons (a b : Line) {c : Char} (hc : c ∈ whitespace ∨ c ∈ punctuation) :
    ∃ words, tokens punctuation (a.text ++ c :: b.text) = .ok words ∧
      (Caught a.words ∨ Caught b.words → Caught words) := by
  rcases hc with hc | hc
  · refine ⟨a.words ++ b.words, ?_, ?_⟩
    · rw [tokens_append_blank a.read hc, b.read]
      rfl
    · rintro (h | h)
      · exact h.infix (List.prefix_append a.words b.words).isInfix
      · exact h.infix (List.suffix_append a.words b.words).isInfix
  · obtain ⟨first, token, rest, hread, htoken, hbefore, hafter⟩ :=
      tokens_append_punctuation punctuation_plain a.read b.read hc
    refine ⟨_, hread, ?_⟩
    rw [caught_separator (isSeparator_of_punctuation htoken)]
    rintro (h | h)
    · exact Or.inl (caught_ends (hbefore.imp_right Or.inl) h)
    · exact Or.inr (caught_ends (hafter.imp_right Or.inr) h)

theorem joined (a b : Line) (connective : List Char) (h : Connective connective) :
    ∃ words, tokens punctuation (a.text ++ (connective ++ b.text)) = .ok words ∧
      (Caught a.words ∨ Caught b.words → Caught words) := by
  obtain ⟨hne, hchars⟩ := h
  induction connective generalizing a with
  | nil => exact absurd rfl hne
  | cons c connective ih =>
    have hc := hchars c (List.mem_cons_self ..)
    by_cases hlast : connective = []
    · rw [hlast]
      exact joined_cons a b hc
    · obtain ⟨words, hread, hcaught⟩ := ih ⟨[], [], rfl⟩ hlast
        fun x hx => hchars x (List.mem_cons_of_mem c hx)
      obtain ⟨words', hread', hcaught'⟩ := joined_cons a ⟨_, words, hread⟩ hc
      refine ⟨words', hread', ?_⟩
      rintro (h | h)
      · exact hcaught' (Or.inl h)
      · exact hcaught' (Or.inr (hcaught (Or.inr h)))

/-- A blocked command stays blocked with a word inserted at a boundary of its words. -/
def Insertable (left word : Line) (right : List Char) : Prop :=
  ∀ blank ∈ whitespace, (blockedReason (left.text ++ blank :: right)).isSome →
    (blockedReason (left.text ++ blank :: (word.text ++ blank :: right))).isSome

/-- **A word inserted between two words keeps a command blocked exactly if it does not
cut the words of the rule apart; a blocked command joined to another is blocked.** -/
theorem addition_iff (left word : Line) (right : List Char) :
    (Insertable left word right ↔
      ∀ rest, tokens punctuation right = .ok rest → Caught (left.words ++ rest) →
        Uncut left.words word.words rest) ∧
    ∀ (a b : Line) (connective : List Char), Connective connective →
      (blockedReason a.text).isSome ∨ (blockedReason b.text).isSome →
        (blockedReason (a.text ++ (connective ++ b.text))).isSome := by
  constructor
  · have hread : ∀ blank ∈ whitespace, ∀ rest, tokens punctuation right = .ok rest →
        tokens punctuation (left.text ++ blank :: right) = .ok (left.words ++ rest) := by
      intro blank hblank rest hrest
      rw [tokens_append_blank left.read hblank, hrest]
      rfl
    have hinserted : ∀ blank ∈ whitespace, ∀ rest, tokens punctuation right = .ok rest →
        tokens punctuation (left.text ++ blank :: (word.text ++ blank :: right)) =
          .ok (left.words ++ (word.words ++ rest)) := by
      intro blank hblank rest hrest
      rw [tokens_append_blank left.read hblank, tokens_append_blank word.read hblank, hrest]
      rfl
    constructor
    · intro h rest hrest hcaught
      have hblocked := h ' ' (by decide)
        ((blockedReason_iff (hread _ (by decide) _ hrest)).mpr hcaught)
      exact (uncut_iff hcaught).mp
        ((blockedReason_iff (hinserted _ (by decide) _ hrest)).mp hblocked)
    · intro h blank hblank hblocked
      cases hrest : tokens punctuation right with
      | error e =>
        -- the rest of the command cannot be read in either
        have hfails : tokens punctuation (left.text ++ blank :: (word.text ++ blank :: right)) =
            .error e := by
          rw [tokens_append_blank left.read hblank, tokens_append_blank word.read hblank, hrest]
          rfl
        rw [blockedReason, chunks, hfails]
        rfl
      | ok rest =>
        have hcaught := (blockedReason_iff (hread blank hblank rest hrest)).mp hblocked
        exact (blockedReason_iff (hinserted blank hblank rest hrest)).mpr
          ((uncut_iff hcaught).mpr (h rest hrest hcaught))
  · intro a b connective hconnective hblocked
    obtain ⟨words, hread, hcaught⟩ := joined a b connective hconnective
    rw [blockedReason_iff a.read, blockedReason_iff b.read] at hblocked
    exact (blockedReason_iff hread).mpr (hcaught hblocked)

/-- A redirection between the subcommand and its option lets a forced push pass. -/
theorem addition_violated :
    ¬ ∀ (left word : Line) (right : List Char), Insertable left word right := by
  intro h
  have hread : tokens punctuation "2>&1".toList = .ok ["2>".toList, "&".toList, "1".toList] := by
    decide
  have hleft : tokens punctuation "git push".toList = .ok ["git".toList, "push".toList] := by
    decide
  have hbefore :
      (blockedReason ("git push".toList ++ ' ' :: "--force origin main".toList)).isSome := by
    decide
  have hblocked :=
    h ⟨_, _, hleft⟩ ⟨_, _, hread⟩ "--force origin main".toList ' ' (by decide) hbefore
  have hpasses : blockedReason "git push 2>&1 --force origin main".toList = none := by
    decide
  have htext : "git push".toList ++ ' ' :: ("2>&1".toList ++ ' ' :: "--force origin main".toList) =
      "git push 2>&1 --force origin main".toList := by
    decide
  rw [htext, hpasses] at hblocked
  cases hblocked

end Lsstack.HookPolicy
