/-
Python strings, clocks and identifiers.

`str.strip`, `str.isspace` and slicing follow the Unicode white space of the
language; NFKC normalisation and case folding are tables of the runtime's
Unicode data and stay parameters (`Unicode`).
-/
import Mathlib

namespace Lsstack

/-- Microseconds since the epoch, UTC. -/
abbrev Instant := ℤ

/-- A `timedelta`, in microseconds. -/
abbrev Duration := ℤ

/-- `timedelta(seconds=n)`. -/
def seconds (n : ℕ) : Duration := 1000000 * n

/-- A UUID by its 128-bit value, in whose order PostgreSQL sorts the type. -/
abbrev Uuid := BitVec 128

/-- The digits of a UUID between two bit positions, as lower-case hexadecimal. -/
def Uuid.hex (u : Uuid) (start digits : ℕ) : String :=
  String.ofList ((List.range digits).map fun d =>
    Nat.digitChar (u.toNat / 16 ^ (start + digits - 1 - d) % 16))

/-- `str(uuid)`: eight, four, four, four and twelve digits. -/
def Uuid.str (u : Uuid) : String :=
  hex u 24 8 ++ "-" ++ hex u 20 4 ++ "-" ++ hex u 16 4 ++ "-" ++ hex u 12 4 ++ "-" ++ hex u 0 12

/-- `unicodedata.normalize("NFKC", ·)` and `str.casefold`; folding keeps ASCII
text without capitals. -/
structure Unicode where
  nfkc : String → String
  casefold : String → String
  casefold_ascii : ∀ s, (∀ c ∈ s.toList, c.toNat < 128 ∧ c.isUpper = false) → casefold s = s

/-- `str.isspace` on one character. -/
def isSpace (c : Char) : Bool :=
  let n := c.toNat
  (9 ≤ n && n ≤ 13) || (28 ≤ n && n ≤ 32) || n == 0x85 || n == 0xa0 || n == 0x1680 ||
    (0x2000 ≤ n && n ≤ 0x200a) || n == 0x2028 || n == 0x2029 || n == 0x202f || n == 0x205f ||
    n == 0x3000

/-- `str.strip()`. -/
def strip (s : String) : String :=
  String.ofList ((s.toList.dropWhile isSpace).rdropWhile isSpace)

/-- `s[:n]`. -/
def truncate (n : ℕ) (s : String) : String := String.ofList (s.toList.take n)

/-- `part in whole`. -/
def contains (part whole : String) : Bool := decide (part.toList <:+: whole.toList)

/-- Stripping removes white space only. -/
theorem mem_strip {s : String} {c : Char} (hc : isSpace c = false) :
    c ∈ (strip s).toList ↔ c ∈ s.toList := by
  have hdrop : ∀ l : List Char, c ∈ l.dropWhile isSpace ↔ c ∈ l := by
    intro l
    constructor
    · exact fun h => (List.dropWhile_suffix isSpace).subset h
    · intro h
      rw [← List.takeWhile_append_dropWhile (p := isSpace) (l := l)] at h
      rcases List.mem_append.mp h with h | h
      · rw [List.mem_takeWhile_imp h] at hc
        cases hc
      · exact h
  rw [strip, String.toList_ofList, List.rdropWhile, List.mem_reverse, hdrop, List.mem_reverse,
    hdrop]

/-- Stripping cuts white space off both ends. -/
theorem strip_eq (s : String) :
    ∃ front back, s = String.ofList front ++ strip s ++ String.ofList back ∧
      (∀ c ∈ front, isSpace c = true) ∧ ∀ c ∈ back, isSpace c = true := by
  refine ⟨s.toList.takeWhile isSpace,
    ((s.toList.dropWhile isSpace).reverse.takeWhile isSpace).reverse, ?_, ?_, ?_⟩
  · rw [← String.toList_inj]
    simp only [strip, List.rdropWhile, String.toList_append, String.toList_ofList,
      List.append_assoc, ← List.reverse_append, List.takeWhile_append_dropWhile,
      List.reverse_reverse]
  · exact fun c hc => List.mem_takeWhile_imp hc
  · exact fun c hc => List.mem_takeWhile_imp (List.mem_reverse.mp hc)

/-- A text without white space stays as it is. -/
theorem strip_of_not_space {s : String} (h : ∀ c ∈ s.toList, isSpace c = false) :
    strip s = s := by
  obtain ⟨front, back, hs, hfront, hback⟩ := strip_eq s
  have hnil : ∀ l : List Char, (∀ c ∈ l, isSpace c = true) → (∀ c ∈ l, c ∈ s.toList) →
      l = [] := by
    intro l hl hsub
    rcases l with _ | ⟨c, l⟩
    · rfl
    · have hc := h c (hsub c List.mem_cons_self)
      rw [hl c List.mem_cons_self] at hc
      cases hc
  have hlist := congrArg String.toList hs
  simp only [String.toList_append, String.toList_ofList] at hlist
  rw [hnil front hfront fun c hc => by rw [hlist]; simp [hc],
    hnil back hback fun c hc => by rw [hlist]; simp [hc]] at hlist
  rw [← String.toList_inj, hlist]
  simp

/-- What is stripped has nothing left to strip. -/
@[simp] theorem strip_strip (s : String) : strip (strip s) = strip s := by
  have hfirst : ((s.toList.dropWhile isSpace).rdropWhile isSpace).dropWhile isSpace =
      (s.toList.dropWhile isSpace).rdropWhile isSpace := by
    rw [List.dropWhile_eq_self_iff]
    intro hpos
    -- the first character is that of the text stripped on the left
    have hrest := List.rdropWhile_prefix isSpace (s.toList.dropWhile isSpace)
    have hlength := hrest.length_le
    rw [hrest.getElem hpos]
    exact List.dropWhile_get_zero_not isSpace s.toList (by omega)
  rw [strip, strip, String.toList_ofList, hfirst, List.rdropWhile_idempotent]

/-! ### UUIDs -/

theorem digitChar_injective : ∀ a < 16, ∀ b < 16, Nat.digitChar a = Nat.digitChar b → a = b := by
  decide

/-- Numbers with the same hexadecimal digits are the same below `16 ^ n`. -/
theorem mod_pow_eq_of_digits {a b n : ℕ} (h : ∀ k < n, a / 16 ^ k % 16 = b / 16 ^ k % 16) :
    a % 16 ^ n = b % 16 ^ n := by
  induction n with
  | zero => simp [Nat.mod_one]
  | succ n ih =>
    rw [Nat.mod_pow_succ, Nat.mod_pow_succ, h n (Nat.lt_succ_self n),
      ih fun k hk => h k (Nat.lt_succ_of_lt hk)]

theorem Uuid.length_hex (u : Uuid) (start digits : ℕ) :
    (Uuid.hex u start digits).toList.length = digits := by
  simp [Uuid.hex]

/-- The digits between two positions are those of the number. -/
theorem Uuid.digits_of_hex {u v : Uuid} {start digits : ℕ}
    (h : (Uuid.hex u start digits).toList = (Uuid.hex v start digits).toList) {k : ℕ}
    (hlow : start ≤ k) (hhigh : k < start + digits) :
    u.toNat / 16 ^ k % 16 = v.toNat / 16 ^ k % 16 := by
  simp only [Uuid.hex, String.toList_ofList, List.map_inj_left, List.mem_range] at h
  have hk := h (start + digits - 1 - k) (by omega)
  rw [show start + digits - 1 - (start + digits - 1 - k) = k by omega] at hk
  exact digitChar_injective _ (Nat.mod_lt _ (by decide)) _ (Nat.mod_lt _ (by decide)) hk

/-- **A UUID is determined by its text.** -/
theorem Uuid.str_injective {u v : Uuid} (h : Uuid.str u = Uuid.str v) : u = v := by
  have hchars := congrArg String.toList h
  simp only [Uuid.str, String.toList_append] at hchars
  obtain ⟨hchars, h₀⟩ := List.append_inj' hchars (by simp only [Uuid.length_hex])
  obtain ⟨hchars, -⟩ := List.append_inj' hchars rfl
  obtain ⟨hchars, h₁₂⟩ := List.append_inj' hchars (by simp only [Uuid.length_hex])
  obtain ⟨hchars, -⟩ := List.append_inj' hchars rfl
  obtain ⟨hchars, h₁₆⟩ := List.append_inj' hchars (by simp only [Uuid.length_hex])
  obtain ⟨hchars, -⟩ := List.append_inj' hchars rfl
  obtain ⟨hchars, h₂₀⟩ := List.append_inj' hchars (by simp only [Uuid.length_hex])
  obtain ⟨h₂₄, -⟩ := List.append_inj' hchars rfl
  have hdigits : ∀ k < 32, u.toNat / 16 ^ k % 16 = v.toNat / 16 ^ k % 16 := by
    intro k hk
    by_cases hk₀ : k < 12
    · exact Uuid.digits_of_hex h₀ (by omega) (by omega)
    by_cases hk₁₂ : k < 16
    · exact Uuid.digits_of_hex h₁₂ (by omega) (by omega)
    by_cases hk₁₆ : k < 20
    · exact Uuid.digits_of_hex h₁₆ (by omega) (by omega)
    by_cases hk₂₀ : k < 24
    · exact Uuid.digits_of_hex h₂₀ (by omega) (by omega)
    · exact Uuid.digits_of_hex h₂₄ (by omega) (by omega)
  have hmod := mod_pow_eq_of_digits hdigits
  have hu : u.toNat < 16 ^ 32 := u.isLt
  have hv : v.toNat < 16 ^ 32 := v.isLt
  rw [Nat.mod_eq_of_lt hu, Nat.mod_eq_of_lt hv] at hmod
  exact BitVec.eq_of_toNat_eq hmod

end Lsstack
