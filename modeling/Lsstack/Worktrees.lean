/-
The worktrees git lists.

`git worktree list --porcelain` prints a block of lines for each worktree, and `_worktrees` reads
them into records.

* `splitBlocks_blocksText` — blocks without empty lines are told apart;
* **`worktrees_porcelain`** — every worktree is read as it was listed;
* `findWorktree_porcelain` — and the one on a branch is found by it.
-/
import Lsstack.StackIdentity

namespace Lsstack

/-! ### Reading -/

/-- The attributes of a worktree, by name. -/
abbrev WorktreeRecord := List Char → Option (List Char)

/-- `text.split("\n\n")`, with the current block so far. -/
def splitBlocks (block : List Char) : List Char → List (List Char)
  | '\n' :: '\n' :: cs => block :: splitBlocks [] cs
  | c :: cs => splitBlocks (block ++ [c]) cs
  | [] => [block]

/-- One line of a block. -/
def readAttribute (record : WorktreeRecord) (line : List Char) : WorktreeRecord :=
  let (key, _, value) := partition ' ' line
  Function.update record key (some value)

/-- One block; an empty one is no record. -/
def readBlock (block : List Char) : Option WorktreeRecord :=
  match splitlines block with
  | [] => none
  | lines => some (lines.foldl readAttribute fun _ => none)

/-- `_worktrees`, from what git has printed. -/
def worktrees (stdout : List Char) : List WorktreeRecord :=
  (splitBlocks [] (stripped stdout)).filterMap readBlock

/-! ### What git prints -/

/-- What is checked out in a worktree: a commit, on a branch or not. -/
inductive Checkout where
  | bare
  | detached (commit : List Char)
  | branch (commit ref : List Char)

/-- A worktree as git lists it; `notes` are the lines `locked` and `prunable`, with reasons. -/
structure GitWorktree where
  path : List Char
  checkout : Checkout
  notes : List (List Char)

/-- The branch. -/
def Checkout.ref : Checkout → Option (List Char)
  | .branch _ ref => some ref
  | _ => none

namespace GitWorktree

/-- The lines of the checkout. -/
def checkoutLines : Checkout → List (List Char)
  | .bare => ["bare".toList]
  | .detached commit => ["HEAD ".toList ++ commit, "detached".toList]
  | .branch commit ref => ["HEAD ".toList ++ commit, "branch ".toList ++ ref]

def lines (w : GitWorktree) : List (List Char) :=
  ("worktree ".toList ++ w.path) :: (checkoutLines w.checkout ++ w.notes)

end GitWorktree

/-- Lines with a newline between each two. -/
def joinLines : List (List Char) → List Char
  | [] => []
  | [line] => line
  | line :: lines => line ++ '\n' :: joinLines lines

/-- Blocks with an empty line between each two. -/
def blocksText : List (List Char) → List Char
  | [] => []
  | [block] => block
  | block :: blocks => block ++ '\n' :: '\n' :: blocksText blocks

/-- `git worktree list --porcelain`: an empty line ends each block. -/
def porcelain (ws : List GitWorktree) : List Char :=
  ws.flatMap fun w => joinLines w.lines ++ ['\n', '\n']

/-- A line that is not empty, as `str.splitlines` sees it. -/
def IsLine (line : List Char) : Prop := line ≠ [] ∧ Unbroken line

/-- The block holds lines only, the last of which does not end with white space. -/
structure GitWorktree.WellFormed (w : GitWorktree) : Prop where
  isLine : ∀ line ∈ w.lines, IsLine line
  last : ∀ c ∈ (joinLines w.lines).getLast?, isSpace c = false
  isNote : ∀ line ∈ w.notes,
    (partition ' ' line).1 = "locked".toList ∨ (partition ' ' line).1 = "prunable".toList

/-! ### Blocks -/

theorem splitBlocks_unbroken {text : List Char} (h : Unbroken text) (block rest : List Char) :
    splitBlocks block (text ++ rest) = splitBlocks (block ++ text) rest := by
  induction text generalizing block with
  | nil => rw [List.nil_append, List.append_nil]
  | cons c text ih =>
    have hc : c ≠ '\n' := by
      rintro rfl
      exact absurd (by decide) (h '\n' List.mem_cons_self)
    rw [List.cons_append, splitBlocks, ih fun d hd => h d (List.mem_cons_of_mem _ hd),
      List.append_assoc]
    · rfl
    · rintro _ rfl
      exact absurd rfl hc

/-- A single newline does not end a block. -/
theorem splitBlocks_newline {block rest : List Char} (h : rest.head? ≠ some '\n') :
    splitBlocks block ('\n' :: rest) = splitBlocks (block ++ ['\n']) rest := by
  rw [splitBlocks]
  rintro cs - rfl
  exact absurd rfl h

theorem IsLine.head {line : List Char} (h : IsLine line) (rest : List Char) :
    (line ++ rest).head? ≠ some '\n' := by
  obtain ⟨c, cs, rfl⟩ := List.exists_cons_of_ne_nil h.1
  intro hhead
  obtain rfl := Option.some_inj.mp hhead
  exact absurd (by decide) (h.2 '\n' List.mem_cons_self)

theorem joinLines_head {lines : List (List Char)} (hne : lines ≠ [])
    (h : ∀ line ∈ lines, IsLine line) (rest : List Char) :
    (joinLines lines ++ rest).head? ≠ some '\n' := by
  obtain ⟨line, lines, rfl⟩ := List.exists_cons_of_ne_nil hne
  have hline := h line List.mem_cons_self
  cases lines with
  | nil => exact hline.head rest
  | cons next lines =>
    rw [joinLines, List.append_assoc]
    · exact hline.head _
    · exact List.cons_ne_nil _ _

/-- A block is read up to its end. -/
theorem splitBlocks_joinLines {lines : List (List Char)} (hne : lines ≠ [])
    (h : ∀ line ∈ lines, IsLine line) (block rest : List Char) :
    splitBlocks block (joinLines lines ++ rest) = splitBlocks (block ++ joinLines lines) rest := by
  induction lines generalizing block with
  | nil => exact absurd rfl hne
  | cons line lines ih =>
    have hline := h line List.mem_cons_self
    cases lines with
    | nil => exact splitBlocks_unbroken hline.2 block rest
    | cons next lines =>
      have hnext : ∀ l ∈ next :: lines, IsLine l := fun l hl => h l (List.mem_cons_of_mem _ hl)
      -- no line is empty, so the newline between two lines is not followed by another
      rw [joinLines, List.append_assoc, splitBlocks_unbroken hline.2, List.cons_append,
        splitBlocks_newline (joinLines_head (List.cons_ne_nil _ _) hnext rest),
        ih (List.cons_ne_nil _ _) hnext]
      · congr 1
        simp
      · exact List.cons_ne_nil _ _

/-- **Blocks are told apart** by the empty lines. -/
theorem splitBlocks_blocksText {blocks : List (List (List Char))} (hne : blocks ≠ [])
    (h : ∀ lines ∈ blocks, lines ≠ [] ∧ ∀ line ∈ lines, IsLine line) :
    splitBlocks [] (blocksText (blocks.map joinLines)) = blocks.map joinLines := by
  induction blocks with
  | nil => exact absurd rfl hne
  | cons lines blocks ih =>
    obtain ⟨hlines, hline⟩ := h lines List.mem_cons_self
    have hread : ∀ rest,
        splitBlocks [] (joinLines lines ++ rest) = splitBlocks (joinLines lines) rest :=
      splitBlocks_joinLines hlines hline []
    cases blocks with
    | nil =>
      have hlast := hread []
      rw [List.append_nil] at hlast
      exact hlast
    | cons next blocks =>
      rw [List.map_cons, List.map_cons, blocksText, hread, splitBlocks, ← List.map_cons,
        ih (List.cons_ne_nil _ _) fun l hl => h l (List.mem_cons_of_mem _ hl)]
      exact List.cons_ne_nil _ _

/-! ### Lines -/

/-- The last line of a text. -/
theorem splitlinesFrom_last {text : List Char} (h : Unbroken text) {line : List Char}
    (hne : line ++ text ≠ []) : splitlinesFrom line text = [line ++ text] := by
  induction text generalizing line with
  | nil =>
    rw [List.append_nil] at hne ⊢
    rw [splitlinesFrom, if_neg hne]
  | cons c text ih =>
    have hc := h c List.mem_cons_self
    have hne' : line ++ [c] ++ text ≠ [] := by simp
    rw [splitlinesFrom, if_neg hc, ih (fun d hd => h d (List.mem_cons_of_mem _ hd)) hne',
      List.append_assoc]
    · rfl
    · rintro _ rfl
      exact absurd (by decide) hc

theorem splitlines_joinLines {lines : List (List Char)} (h : ∀ line ∈ lines, IsLine line) :
    splitlines (joinLines lines) = lines := by
  induction lines with
  | nil => rfl
  | cons line lines ih =>
    have hline := h line List.mem_cons_self
    cases lines with
    | nil => exact splitlinesFrom_last hline.2 hline.1
    | cons next lines =>
      rw [joinLines, splitlines, splitlinesFrom_append hline.2, List.nil_append]
      · exact congrArg _ (ih fun l hl => h l (List.mem_cons_of_mem _ hl))
      · exact List.cons_ne_nil _ _

/-! ### The listing -/

theorem blocksText_cons {block : List Char} {blocks : List (List Char)} (h : blocks ≠ []) :
    blocksText (block :: blocks) = block ++ '\n' :: '\n' :: blocksText blocks := by
  obtain ⟨next, blocks, rfl⟩ := List.exists_cons_of_ne_nil h
  rfl

section Listing

variable {w : GitWorktree} {ws : List GitWorktree}

/-- The blocks of the worktrees. -/
def listing (ws : List GitWorktree) : List (List Char) := ws.map fun w => joinLines w.lines

theorem listing_ne_nil (h : ws ≠ []) : listing ws ≠ [] := mt List.map_eq_nil_iff.mp h

theorem porcelain_eq (hne : ws ≠ []) : porcelain ws = blocksText (listing ws) ++ ['\n', '\n'] := by
  induction ws with
  | nil => exact absurd rfl hne
  | cons w ws ih =>
    rw [porcelain, List.flatMap_cons, ← porcelain, listing, List.map_cons, ← listing]
    by_cases h : ws = []
    · subst h
      exact List.append_nil _
    · rw [ih h, blocksText_cons (listing_ne_nil h)]
      simp

theorem joinLines_lines (w : GitWorktree) : ∃ rest, joinLines w.lines = 'w' :: rest := by
  rw [GitWorktree.lines]
  cases h : GitWorktree.checkoutLines w.checkout ++ w.notes with
  | nil => exact ⟨_, rfl⟩
  | cons line lines => exact ⟨_, rfl⟩

theorem blocksText_head (hne : ws ≠ []) : ∃ rest, blocksText (listing ws) = 'w' :: rest := by
  obtain ⟨w, ws, rfl⟩ := List.exists_cons_of_ne_nil hne
  obtain ⟨rest, hw⟩ := joinLines_lines w
  rw [listing, List.map_cons, ← listing, hw]
  by_cases h : ws = []
  · subst h
    exact ⟨rest, rfl⟩
  · rw [blocksText_cons (listing_ne_nil h)]
    exact ⟨_, rfl⟩

theorem blocksText_last (hne : ws ≠ []) (h : ∀ w ∈ ws, w.WellFormed) :
    ∃ text c, blocksText (listing ws) = text ++ [c] ∧ isSpace c = false := by
  induction ws with
  | nil => exact absurd rfl hne
  | cons w ws ih =>
    by_cases hws : ws = []
    · subst hws
      obtain ⟨rest, hw⟩ := joinLines_lines w
      have hlast := (h w List.mem_cons_self).last
      have hne' : joinLines w.lines ≠ [] := by
        rw [hw]
        exact List.cons_ne_nil _ _
      exact ⟨_, _, (List.dropLast_append_getLast hne').symm,
        hlast _ (List.getLast?_eq_getLast_of_ne_nil hne')⟩
    · obtain ⟨text, c, htext, hc⟩ := ih hws fun w hw => h w (List.mem_cons_of_mem _ hw)
      refine ⟨joinLines w.lines ++ '\n' :: '\n' :: text, c, ?_, hc⟩
      rw [listing, List.map_cons, ← listing, blocksText_cons (listing_ne_nil hws), htext]
      simp

/-- The empty line at the end is stripped, and nothing else. -/
theorem stripped_porcelain (hne : ws ≠ []) (h : ∀ w ∈ ws, w.WellFormed) :
    stripped (porcelain ws) = blocksText (listing ws) := by
  obtain ⟨text, c, htext, hc⟩ := blocksText_last hne h
  obtain ⟨rest, hrest⟩ := blocksText_head hne
  have hw : isSpace 'w' = false := by decide
  calc stripped (porcelain ws) = stripped ('w' :: (rest ++ ['\n', '\n'])) := by
        rw [porcelain_eq hne, hrest, List.cons_append]
    _ = (text ++ c :: ['\n', '\n']).rdropWhile isSpace := by
        rw [stripped_cons hw, ← List.cons_append, ← hrest, htext, List.append_assoc,
          List.singleton_append]
    _ = text ++ [c] := by
        rw [rdropWhile_append_cons hc]
        rfl
    _ = blocksText (listing ws) := htext.symm

/-- What is read of a worktree. -/
def GitWorktree.record (w : GitWorktree) : WorktreeRecord :=
  w.lines.foldl readAttribute fun _ => none

/-- **The listing of git is read** as it was written. -/
theorem worktrees_porcelain (h : ∀ w ∈ ws, w.WellFormed) :
    worktrees (porcelain ws) = ws.map GitWorktree.record := by
  by_cases hne : ws = []
  · subst hne
    rfl
  have hlines : ∀ lines ∈ ws.map GitWorktree.lines,
      lines ≠ [] ∧ ∀ line ∈ lines, IsLine line := by
    intro lines hmem
    obtain ⟨w, hw, rfl⟩ := List.mem_map.mp hmem
    exact ⟨List.cons_ne_nil _ _, (h w hw).isLine⟩
  have hlisting : listing ws = (ws.map GitWorktree.lines).map joinLines := by
    rw [List.map_map]
    rfl
  rw [worktrees, stripped_porcelain hne h, hlisting,
    splitBlocks_blocksText (mt List.map_eq_nil_iff.mp hne) hlines, List.map_map,
    List.filterMap_map, ← List.filterMap_eq_map]
  refine List.filterMap_congr fun w hw => ?_
  rw [Function.comp_apply, Function.comp_apply, readBlock, splitlines_joinLines (h w hw).isLine]
  rfl

/-! ### Records -/

/-- Lines of other attributes leave an attribute alone. -/
theorem foldl_readAttribute {lines : List (List Char)} {record : WorktreeRecord} {key : List Char}
    (h : ∀ line ∈ lines, (partition ' ' line).1 ≠ key) :
    lines.foldl readAttribute record key = record key := by
  induction lines generalizing record with
  | nil => rfl
  | cons line lines ih =>
    rw [List.foldl_cons, ih fun l hl => h l (List.mem_cons_of_mem _ hl)]
    exact Function.update_of_ne (h line List.mem_cons_self).symm _ _

/-- Notes set neither the path nor the branch. -/
theorem GitWorktree.WellFormed.note_key (h : w.WellFormed) {line : List Char}
    (hline : line ∈ w.notes) :
    (partition ' ' line).1 ≠ "worktree".toList ∧ (partition ' ' line).1 ≠ "branch".toList := by
  rcases h.isNote line hline with hkey | hkey
  · rw [hkey]
    decide
  · rw [hkey]
    decide

theorem GitWorktree.WellFormed.record_path (h : w.WellFormed) :
    w.record "worktree".toList = some w.path := by
  rw [GitWorktree.record, GitWorktree.lines, List.foldl_cons, foldl_readAttribute]
  · rfl
  · intro line hline
    rcases List.mem_append.mp hline with hline | hline
    · cases hcheckout : w.checkout with
      | bare =>
        rw [hcheckout] at hline
        obtain rfl := List.mem_singleton.mp hline
        decide
      | detached commit =>
        rw [hcheckout] at hline
        rcases List.mem_pair.mp hline with rfl | rfl
        · exact ne_of_beq_false rfl
        · decide
      | branch commit ref =>
        rw [hcheckout] at hline
        rcases List.mem_pair.mp hline with rfl | rfl
        · exact ne_of_beq_false rfl
        · exact ne_of_beq_false rfl
    · exact (h.note_key hline).1

theorem GitWorktree.WellFormed.record_branch (h : w.WellFormed) :
    w.record "branch".toList = w.checkout.ref := by
  have hnotes : ∀ line ∈ w.notes, (partition ' ' line).1 ≠ "branch".toList :=
    fun line hline => (h.note_key hline).2
  rw [GitWorktree.record, GitWorktree.lines, List.foldl_cons, List.foldl_append,
    foldl_readAttribute hnotes]
  cases w.checkout with
  | bare => rfl
  | detached commit => rfl
  | branch commit ref => rfl

/-- **The first worktree on a branch** is found. -/
theorem findWorktree_porcelain (h : ∀ w ∈ ws, w.WellFormed) {ref : List Char}
    {entry : WorktreeRecord} (hfind : (worktrees (porcelain ws)).find? (fun entry =>
      decide (entry "branch".toList = some ref)) = some entry) :
    ∃ w ∈ ws, entry = w.record ∧ w.checkout.ref = some ref := by
  have hmem := List.mem_of_find?_eq_some hfind
  have hon := List.find?_some hfind
  have href : entry "branch".toList = some ref := of_decide_eq_true hon
  rw [worktrees_porcelain h] at hmem
  obtain ⟨w, hw, rfl⟩ := List.mem_map.mp hmem
  exact ⟨w, hw, rfl, (h w hw).record_branch.symm.trans href⟩

end Listing

end Lsstack
