/-
The canonical form of an email address.

`normalize_email` normalizes, strips and folds once, in this order.  Folding can
undo the normalization: a character folded to several, or to one that composes
differently, meets the combining marks that follow it.  `UnicodeData` adds to
the two tables what the Unicode standard says of them: folding is character by
character, NFKC may be computed piece by piece between the characters that never
combine with what precedes them, and neither changes how long the full
decomposition of a folded text is.

* `refolds_iff_parts` — a text refolds to itself piece by piece;
* **`canonical_iff`** — `normalize_email` returns a canonical form exactly of the
  addresses each of whose pieces does.
-/
import Lsstack.UseCases

namespace Lsstack

open Concurrency

/-- Facts about NFKC and case folding.  `boundary c` says that `c` starts a piece:
it has combining class 0 and always stays itself under NFKC, whatever precedes
it.  `decomposed s` is the length of the full compatibility decomposition. -/
structure UnicodeData extends Unicode where
  boundary : Char → Bool
  decomposed : String → ℕ
  nfkc_append : ∀ s t, (∀ c ∈ t.toList.head?, boundary c = true) →
    nfkc (s ++ t) = nfkc s ++ nfkc t
  casefold_append : ∀ s t, casefold (s ++ t) = casefold s ++ casefold t
  casefold_boundary : ∀ c, boundary c = true →
    ∃ d rest, casefold (String.singleton c) = String.ofList (d :: rest) ∧ boundary d = true
  casefold_space : ∀ c, isSpace c = true → casefold (String.singleton c) = String.singleton c
  decomposed_append : ∀ s t, decomposed (s ++ t) = decomposed s + decomposed t
  decomposed_pos : ∀ s, s ≠ "" → 0 < decomposed s
  decomposed_refold : ∀ s, decomposed (casefold (nfkc (casefold s))) = decomposed (casefold s)

namespace UnicodeData

variable (uni : UnicodeData)

/-- Fold, normalize and fold again. -/
def refold (s : String) : String := uni.casefold (uni.nfkc (uni.casefold s))

/-- The folded text is left as it is. -/
def Refolds (s : String) : Prop := uni.refold s = uni.casefold s

/-- The pieces of a text: a character that never combines with what precedes it,
and the marks that follow it. -/
def parts (s : String) : List String :=
  (s.toList.splitBy fun _ c => !uni.boundary c).map String.ofList

variable {uni}

@[simp] theorem casefold_empty : uni.casefold "" = "" := by
  have h := congrArg String.length (uni.casefold_append "" "")
  rw [String.append_empty, String.length_append] at h
  exact String.length_eq_zero_iff.mp (by omega)

@[simp] theorem nfkc_empty : uni.nfkc "" = "" := by
  have h := congrArg String.length (uni.nfkc_append "" "" nofun)
  rw [String.append_empty, String.length_append] at h
  exact String.length_eq_zero_iff.mp (by omega)

/-- Folding keeps what starts a piece at the start of one. -/
theorem casefold_starts {t : String} (ht : ∀ c ∈ t.toList.head?, uni.boundary c = true) :
    ∀ c ∈ (uni.casefold t).toList.head?, uni.boundary c = true := by
  rcases hlist : t.toList with _ | ⟨c, rest⟩
  · rw [String.toList_eq_nil_iff.mp hlist, casefold_empty]
    exact nofun
  · have heq : t = String.singleton c ++ String.ofList rest := by
      rw [← String.toList_inj, hlist]
      simp
    obtain ⟨d, tail, hfold, hd⟩ := uni.casefold_boundary c (ht c (by rw [hlist]; rfl))
    intro c' hc'
    rw [heq, uni.casefold_append, hfold] at hc'
    simp only [String.toList_append, String.toList_ofList, List.cons_append, List.head?_cons,
      Option.mem_def, Option.some.injEq] at hc'
    rwa [← hc']

theorem refold_append {s t : String} (ht : ∀ c ∈ t.toList.head?, uni.boundary c = true) :
    uni.refold (s ++ t) = uni.refold s ++ uni.refold t := by
  rw [refold, uni.casefold_append, uni.nfkc_append _ _ (casefold_starts ht), uni.casefold_append]
  rfl

/-- Texts of equal decompositions that make equal texts with what follows are
equal themselves. -/
theorem append_inj {a b x y : String} (hlength : uni.decomposed a = uni.decomposed b)
    (h : a ++ x = b ++ y) : a = b ∧ x = y := by
  have hlist := congrArg String.toList h
  rw [String.toList_append, String.toList_append] at hlist
  -- the longer of the two would have a longer decomposition
  have hnil : ∀ {p q : String} {rest : List Char}, q.toList = p.toList ++ rest →
      uni.decomposed p = uni.decomposed q → rest = [] := by
    intro p q rest hq hpq
    have hq' : q = p ++ String.ofList rest := by
      rw [← String.toList_inj, hq, String.toList_append, String.toList_ofList]
    rw [hq', uni.decomposed_append] at hpq
    by_contra hne
    have := uni.decomposed_pos (String.ofList rest) fun hempty => hne (by
      rw [← String.toList_ofList (l := rest), hempty, String.toList_empty])
    omega
  have hab : a = b := by
    rw [← String.toList_inj]
    rcases List.append_eq_append_iff.mp hlist with ⟨rest, hb, -⟩ | ⟨rest, ha, -⟩
    · rw [hb, hnil hb hlength, List.append_nil]
    · rw [ha, hnil ha hlength.symm, List.append_nil]
  subst hab
  refine ⟨rfl, ?_⟩
  rw [← String.toList_inj]
  exact List.append_cancel_left hlist

theorem refolds_append {s t : String} (ht : ∀ c ∈ t.toList.head?, uni.boundary c = true) :
    uni.Refolds (s ++ t) ↔ uni.Refolds s ∧ uni.Refolds t := by
  rw [Refolds, refold_append ht, uni.casefold_append]
  constructor
  · exact append_inj (uni.decomposed_refold s)
  · rintro ⟨hs, ht⟩
    rw [hs, ht]

/-- **A text refolds to itself exactly if its pieces do.** -/
theorem refolds_iff_parts {s : String} :
    uni.Refolds s ↔ ∀ part ∈ uni.parts s, uni.Refolds part := by
  have key : ∀ l : List (List Char), [] ∉ l →
      l.IsChain (fun a b => ∃ ha hb,
        (fun _ c => !uni.boundary c) (a.getLast ha) (b.head hb) = false) →
      (uni.Refolds (String.ofList l.flatten) ↔ ∀ part ∈ l, uni.Refolds (String.ofList part)) := by
    intro l
    induction l with
    | nil => simp [Refolds, refold]
    | cons part rest ih =>
      intro hne hchain
      have hne' : [] ∉ rest := fun h => hne (List.mem_cons_of_mem _ h)
      -- the rest of the text begins with its next piece, so at a boundary
      have hstarts : ∀ c ∈ (String.ofList rest.flatten).toList.head?, uni.boundary c = true := by
        rcases rest with _ | ⟨next, rest⟩
        · simp
        · obtain ⟨⟨ha, hb, hboundary⟩, -⟩ := List.isChain_cons_cons.mp hchain
          intro c hc
          rcases next with _ | ⟨d, next⟩
          · exact absurd rfl hb
          · simp only [List.flatten_cons, List.cons_append, String.toList_ofList, List.head?_cons,
              Option.mem_def, Option.some.injEq] at hc
            rw [← hc]
            simpa using hboundary
      rw [List.flatten_cons, String.ofList_append, refolds_append hstarts,
        ih hne' hchain.tail, List.forall_mem_cons]
  have hsplit := key (s.toList.splitBy fun _ c => !uni.boundary c) (List.nil_notMem_splitBy _ _)
    (List.isChain_getLast_head_splitBy (fun _ c => !uni.boundary c) s.toList)
  rw [List.flatten_splitBy, String.ofList_toList] at hsplit
  rw [hsplit, parts]
  simp

/-- Folding leaves white space alone. -/
theorem casefold_spaces (uni : UnicodeData) :
    ∀ l : List Char, (∀ c ∈ l, isSpace c = true) →
      uni.casefold (String.ofList l) = String.ofList l
  | [], _ => casefold_empty
  | c :: l, h => by
    have ih := casefold_spaces uni l fun d hd => h d (List.mem_cons_of_mem _ hd)
    have hcons : String.ofList (c :: l) = String.singleton c ++ String.ofList l := by
      rw [← String.toList_inj]
      simp
    rw [hcons, uni.casefold_append, uni.casefold_space c (h c List.mem_cons_self), ih]

/-- White space outlives folding. -/
theorem mem_casefold_of_space {s : String} {c : Char} (hspace : isSpace c = true)
    (hc : c ∈ s.toList) : c ∈ (uni.casefold s).toList := by
  obtain ⟨front, back, hs⟩ := List.append_of_mem hc
  have heq : s = String.ofList front ++ (String.singleton c ++ String.ofList back) := by
    rw [← String.toList_inj, hs]
    simp
  rw [heq, uni.casefold_append, uni.casefold_append, uni.casefold_space c hspace]
  simp

/-- Stripping in between makes no difference to a folded text without white
space. -/
theorem casefold_strip_iff {s : String}
    (hspace : ∀ c ∈ (uni.casefold s).toList, isSpace c = false) :
    uni.casefold (strip (uni.nfkc (uni.casefold s))) = uni.casefold s ↔ uni.Refolds s := by
  constructor
  · intro h
    -- stripping takes white space only, of which the folded text has none
    obtain ⟨front, back, hs, hfront, hback⟩ := strip_eq (uni.nfkc (uni.casefold s))
    have hrefold : uni.refold s =
        String.ofList front ++ uni.casefold s ++ String.ofList back := by
      rw [refold, hs, uni.casefold_append, uni.casefold_append, casefold_spaces uni front hfront,
        casefold_spaces uni back hback, h]
    -- the decomposed text is no longer than before, so nothing was stripped
    have hlength := uni.decomposed_refold s
    change uni.decomposed (uni.refold s) = _ at hlength
    rw [hrefold, uni.decomposed_append, uni.decomposed_append] at hlength
    have hempty : ∀ x : String, uni.decomposed x = 0 → x = "" := by
      intro x hx
      by_contra hne
      have := uni.decomposed_pos x hne
      omega
    rw [Refolds, hrefold, hempty (String.ofList front) (by omega),
      hempty (String.ofList back) (by omega)]
    simp
  · intro h
    have hstrip : strip (uni.nfkc (uni.casefold s)) = uni.nfkc (uni.casefold s) := by
      refine strip_of_not_space fun c hc => ?_
      by_contra hspace'
      have hmem : _ ∈ (uni.casefold _).toList := mem_casefold_of_space (by simpa using hspace') hc
      rw [show uni.casefold (uni.nfkc (uni.casefold s)) = uni.casefold s from h] at hmem
      exact hspace' (hspace c hmem)
    rw [hstrip]
    exact h

end UnicodeData

/-! ### Normalized addresses -/

/-- The checks on a normalized address. -/
def AllowedEmail (normalized : String) : Prop :=
  ¬(normalized.length = 0 ∨ normalized.length > maxEmailLength ∨
      normalized.toList.count '@' ≠ 1 ∨ normalized.toList.any isSpace) ∧
    ¬(normalized.toList.takeWhile (· != '@') = [] ∨
      (normalized.toList.dropWhile (· != '@')).tail = [] ∨
      '.' ∉ (normalized.toList.dropWhile (· != '@')).tail)

theorem normalizeEmail_iff {uni : Unicode} {value normalized : String} :
    normalizeEmail uni value = .ok normalized ↔
      uni.casefold (strip (uni.nfkc value)) = normalized ∧ AllowedEmail normalized := by
  simp only [normalizeEmail, AllowedEmail]
  split
  · rename_i h
    refine ⟨(fun h => by cases h), ?_⟩
    rintro ⟨rfl, hfirst, -⟩
    exact absurd h hfirst
  · rename_i h
    split
    · rename_i h'
      refine ⟨(fun h => by cases h), ?_⟩
      rintro ⟨rfl, -, hsecond⟩
      exact absurd h' hsecond
    · rename_i h'
      constructor
      · intro heq
        cases heq
        exact ⟨rfl, h, h'⟩
      · rintro ⟨rfl, -⟩
        rfl

/-- A sign-in first looks up the index entry of the stored address, whatever the
password. -/
def FindsAccount (uni : Unicode) (stored : String) : Prop :=
  ∀ password, ∃ k,
    authenticate uni stored password = .call (.select (.email stored) fun _ => true) k

theorem findsAccount_iff {uni : Unicode} {stored : String} :
    FindsAccount uni stored ↔ normalizeEmail uni stored = .ok stored := by
  constructor
  · intro h
    obtain ⟨k, hk⟩ := h ""
    unfold authenticate at hk
    rcases hn : normalizeEmail uni stored with e | normalized
    · obtain ⟨field, message, rfl⟩ := normalizeEmail_error hn
      rw [hn] at hk
      cases hk
    · rw [hn] at hk
      change Program.call _ _ = _ at hk
      cases hk
      rfl
  · intro h password
    unfold authenticate
    rw [h]
    exact ⟨_, rfl⟩

/-- The result for an accepted address is accepted as it is, and signing in with
it finds the account stored under it. -/
def Canonical (uni : Unicode) (value : String) : Prop :=
  ∀ normalized, normalizeEmail uni value = .ok normalized →
    normalizeEmail uni normalized = .ok normalized ∧ FindsAccount uni normalized

/-- **When the form is canonical**: the address is refused, or each piece of its
normalized text, once folded, is left as it is by normalizing and folding. -/
theorem canonical_iff (uni : UnicodeData) (value : String) :
    Canonical uni.toUnicode value ↔
      ((∃ normalized, normalizeEmail uni.toUnicode value = .ok normalized) →
        ∀ part ∈ uni.parts (strip (uni.nfkc value)), uni.Refolds part) := by
  have hresult : ∀ normalized, normalizeEmail uni.toUnicode value = .ok normalized →
      (normalizeEmail uni.toUnicode normalized = .ok normalized ↔
        ∀ part ∈ uni.parts (strip (uni.nfkc value)), uni.Refolds part) := by
    intro normalized h
    obtain ⟨rfl, hallowed⟩ := normalizeEmail_iff.mp h
    have hspace : ∀ c ∈ (uni.casefold (strip (uni.nfkc value))).toList, isSpace c = false := by
      intro c hc
      by_contra hspace
      refine hallowed.1 (.inr (.inr (.inr ?_)))
      exact List.any_eq_true.mpr ⟨c, hc, by simpa using hspace⟩
    rw [normalizeEmail_iff, and_iff_left hallowed, UnicodeData.casefold_strip_iff hspace,
      UnicodeData.refolds_iff_parts]
  constructor
  · rintro h ⟨normalized, hnormalized⟩
    exact (hresult normalized hnormalized).mp (h normalized hnormalized).1
  · intro h normalized hnormalized
    have hfix := (hresult normalized hnormalized).mpr (h ⟨normalized, hnormalized⟩)
    exact ⟨hfix, findsAccount_iff.mpr hfix⟩

/-! ### A sharp s under an acute accent

The tables cut down to three characters: the sharp s folds to two letters, and
an acute accent composes with an s. -/

namespace Acute

/-- NFKC of texts in which nothing else composes. -/
def compose : List Char → List Char
  | 's' :: '\u0301' :: rest => 'ś' :: compose rest
  | c :: rest => c :: compose rest
  | [] => []

/-- Case folding of one character. -/
def fold (c : Char) : List Char := if c = 'ß' then ['s', 's'] else [c]

/-- The length of the decomposition of one character. -/
def width (c : Char) : ℕ := if c = 'ś' then 2 else 1

theorem compose_append (s t : List Char) (ht : ∀ c ∈ t.head?, c ≠ '\u0301') :
    compose (s ++ t) = compose s ++ compose t := by
  induction s using compose.induct with
  | case1 rest ih =>
    rw [List.cons_append, List.cons_append, compose, compose, ih]
    rfl
  | case2 c rest hne ih =>
    rw [List.cons_append, compose, compose, ih]
    · rfl
    · exact hne
    · intro rest' hc happend
      rcases rest with _ | ⟨d, rest⟩
      · rw [List.nil_append] at happend
        exact ht '\u0301' (by rw [happend]; rfl) rfl
      · rw [List.cons_append, List.cons.injEq] at happend
        exact hne rest hc (by rw [happend.1])
  | case3 => rfl

/-- Composition keeps the length of the decomposition and adds no sharp s. -/
theorem compose_width (s : List Char) :
    ((compose s).map width).sum = (s.map width).sum ∧ ('ß' ∉ s → 'ß' ∉ compose s) := by
  induction s using compose.induct with
  | case1 rest ih =>
    rw [compose]
    simp only [List.map_cons, List.sum_cons, ih.1, List.mem_cons]
    refine ⟨by simp [width]; omega, fun h => ?_⟩
    simp only [not_or] at h ⊢
    exact ⟨by decide, ih.2 h.2.2⟩
  | case2 c rest hne ih =>
    rw [compose]
    · simp only [List.map_cons, List.sum_cons, ih.1, List.mem_cons, not_or]
      exact ⟨trivial, fun h => ⟨h.1, ih.2 h.2⟩⟩
    · exact hne
  | case3 => simp [compose]

theorem fold_flatMap (s : List Char) :
    'ß' ∉ s.flatMap fold ∧ ('ß' ∉ s → s.flatMap fold = s) := by
  induction s with
  | nil => simp
  | cons c s ih =>
    rw [List.flatMap_cons, List.mem_append, List.mem_cons]
    constructor
    · rintro (h | h)
      · unfold fold at h
        split at h
        · revert h
          decide
        · rename_i hc
          exact hc (List.mem_singleton.mp h).symm
      · exact ih.1 h
    · intro h
      simp only [not_or] at h
      rw [ih.2 h.2, fold, if_neg (Ne.symm h.1)]
      rfl

end Acute

/-- The cut-down tables. -/
def acuteText : UnicodeData where
  nfkc := fun s => String.ofList (Acute.compose s.toList)
  casefold := fun s => String.ofList (s.toList.flatMap Acute.fold)
  casefold_ascii := by
    intro s h
    rw [(Acute.fold_flatMap s.toList).2, String.ofList_toList]
    intro hmem
    exact absurd (h _ hmem).1 (by decide)
  boundary := fun c => c != '\u0301'
  decomposed := fun s => (s.toList.map Acute.width).sum
  nfkc_append := by
    intro s t ht
    rw [String.toList_append, Acute.compose_append _ _ fun c hc => by simpa using ht c hc,
      String.ofList_append]
  casefold_append := by
    intro s t
    rw [String.toList_append, List.flatMap_append, String.ofList_append]
  casefold_boundary := by
    intro c hc
    by_cases hsharp : c = 'ß'
    · subst hsharp
      exact ⟨'s', ['s'], rfl, rfl⟩
    · refine ⟨c, [], ?_, hc⟩
      rw [String.toList_singleton, List.flatMap_singleton, Acute.fold, if_neg hsharp]
  casefold_space := by
    intro c hc
    have hsharp : c ≠ 'ß' := by
      rintro rfl
      revert hc
      decide
    rw [String.toList_singleton, List.flatMap_singleton, Acute.fold, if_neg hsharp]
    rfl
  decomposed_append := by
    intro s t
    rw [String.toList_append, List.map_append, List.sum_append]
  decomposed_pos := by
    intro s hs
    rcases hlist : s.toList with _ | ⟨c, rest⟩
    · exact absurd (String.toList_eq_nil_iff.mp hlist) hs
    · rw [List.map_cons, List.sum_cons, Acute.width]
      split <;> omega
  decomposed_refold := by
    intro s
    simp only [String.toList_ofList]
    have hfree := (Acute.fold_flatMap s.toList).1
    obtain ⟨hwidth, hcompose⟩ := Acute.compose_width (s.toList.flatMap Acute.fold)
    rw [(Acute.fold_flatMap _).2 (hcompose hfree), hwidth]

/-- Folding leaves the accent behind an s, with which it composes when the
stored address is read again. -/
theorem canonical_violated : ¬Canonical acuteText.toUnicode "ß\u0301@example.com" := by
  intro h
  obtain ⟨hfix, -⟩ := h "ss\u0301@example.com" rfl
  have hagain : normalizeEmail acuteText.toUnicode "ss\u0301@example.com" =
      .ok "sś@example.com" := rfl
  rw [hagain] at hfix
  revert hfix
  decide

end Lsstack
