/-
JSON texts of flat objects of integers.

The queue stores its jobs as JSON.  Its serializer belongs to the queue library;
what the application relies on is that an object with distinct keys and integer
values comes back as it was (`QueueCodec`).  `compactJson` writes such objects
without white space, as the serializer does, and reads them back.
-/
import Lsstack.Domain

namespace Lsstack

/-- An object of integers. -/
def JsonValue.object (items : List (String × ℤ)) : JsonValue :=
  .dict (items.map fun item => (item.1, .int item.2))

/-- The serializer of the queue. -/
structure QueueCodec where
  encode : JsonValue → String
  decode : String → Option JsonValue
  decode_encode : ∀ items : List (String × ℤ), (items.map Prod.fst).Nodup →
    decode (encode (.object items)) = some (.object items)

namespace JsonText

/-! ### Integers -/

/-- Decimal digits. -/
def decimal (n : ℕ) : List Char :=
  if n = 0 then ['0'] else ((Nat.digits 10 n).map Nat.digitChar).reverse

/-- The number of some decimal digits. -/
def ofDecimal (cs : List Char) : ℕ := Nat.ofDigits 10 (cs.reverse.map fun c => c.toNat - 48)

/-- The text of an integer. -/
def integer : ℤ → List Char
  | .ofNat n => decimal n
  | .negSucc n => '-' :: decimal (n + 1)

/-- Read an integer off the front of a text. -/
def readInteger : List Char → ℤ × List Char
  | '-' :: cs => (-ofDecimal (cs.takeWhile Char.isDigit), cs.dropWhile Char.isDigit)
  | cs => (ofDecimal (cs.takeWhile Char.isDigit), cs.dropWhile Char.isDigit)

theorem digitChar_spec : ∀ d < 10, (Nat.digitChar d).isDigit = true ∧
    (Nat.digitChar d).toNat - 48 = d := by
  decide

theorem decimal_isDigit (n : ℕ) : ∀ c ∈ decimal n, c.isDigit = true := by
  intro c hc
  unfold decimal at hc
  split at hc
  · obtain rfl := List.mem_singleton.mp hc
    rfl
  · obtain ⟨d, hd, rfl⟩ := List.mem_map.mp (List.mem_reverse.mp hc)
    exact (digitChar_spec d (Nat.digits_lt_base (by decide) hd)).1

theorem decimal_ne_nil (n : ℕ) : decimal n ≠ [] := by
  unfold decimal
  split
  · simp
  · rename_i h
    simpa [Nat.digits_ne_nil_iff_ne_zero] using h

theorem ofDecimal_decimal (n : ℕ) : ofDecimal (decimal n) = n := by
  unfold decimal
  split
  · rename_i h
    rw [h]
    rfl
  · have hdigits : (Nat.digits 10 n).map ((fun c : Char => c.toNat - 48) ∘ Nat.digitChar) =
        Nat.digits 10 n := by
      refine (List.map_congr_left fun d hd => ?_).trans (List.map_id _)
      exact (digitChar_spec d (Nat.digits_lt_base (by decide) hd)).2
    rw [ofDecimal, List.reverse_reverse, List.map_map, hdigits, Nat.ofDigits_digits]

theorem readInteger_integer (n : ℤ) (rest : List Char)
    (hrest : ∀ c ∈ rest.head?, c.isDigit = false) :
    readInteger (integer n ++ rest) = (n, rest) := by
  -- the digits end where those of the number end
  have hspan : ∀ m : ℕ, (decimal m ++ rest).takeWhile Char.isDigit = decimal m ∧
      (decimal m ++ rest).dropWhile Char.isDigit = rest := by
    intro m
    rw [List.takeWhile_append_of_pos (decimal_isDigit m),
      List.dropWhile_append_of_pos (decimal_isDigit m)]
    rcases rest with _ | ⟨c, rest⟩
    · simp
    · have hc := hrest c rfl
      simp [hc]
  -- a number without a sign does not begin with one
  have hminus : ∀ m cs, decimal m ++ rest ≠ '-' :: cs := by
    intro m cs h
    have hmem : ∀ c, (decimal m).head? = some c → c ≠ '-' := by
      rintro c hc rfl
      exact absurd (decimal_isDigit m '-' (List.mem_of_head? hc)) (by decide)
    rcases hd : decimal m with _ | ⟨c, cs'⟩
    · exact absurd hd (decimal_ne_nil m)
    · rw [hd] at h hmem
      cases h
      exact hmem '-' rfl rfl
  cases n with
  | ofNat m =>
    obtain ⟨htake, hdrop⟩ := hspan m
    rw [integer, readInteger]
    · rw [htake, hdrop, ofDecimal_decimal]
      rfl
    · exact hminus m
  | negSucc m =>
    obtain ⟨htake, hdrop⟩ := hspan (m + 1)
    rw [integer, List.cons_append, readInteger, htake, hdrop, ofDecimal_decimal]
    rfl

/-! ### Strings -/

/-- A character inside a string literal. -/
def escape (c : Char) : List Char :=
  if c = '"' then ['\\', '"']
  else if c = '\\' then ['\\', '\\']
  else if c.toNat < 32 then
    ['\\', 'u', '0', '0', Nat.digitChar (c.toNat / 16), Nat.digitChar (c.toNat % 16)]
  else [c]

/-- The value of a hexadecimal digit. -/
def hexValue (c : Char) : ℕ := if c.isDigit then c.toNat - 48 else c.toNat - 87

/-- Read the rest of a string literal, up to its closing quote. -/
def readString : List Char → Option (List Char × List Char)
  | '"' :: cs => some ([], cs)
  | '\\' :: 'u' :: a :: b :: c :: d :: cs =>
    (readString cs).map fun r =>
      (Char.ofNat (((hexValue a * 16 + hexValue b) * 16 + hexValue c) * 16 + hexValue d) :: r.1,
        r.2)
  | '\\' :: c :: cs => (readString cs).map fun r => (c :: r.1, r.2)
  | c :: cs => (readString cs).map fun r => (c :: r.1, r.2)
  | [] => none

theorem hexValue_digitChar : ∀ d < 16, hexValue (Nat.digitChar d) = d := by
  decide

theorem readString_escape (c : Char) (cs : List Char) :
    readString (escape c ++ cs) = (readString cs).map fun r => (c :: r.1, r.2) := by
  unfold escape
  split
  · subst c
    rfl
  split
  · subst c
    rfl
  split
  · rename_i hc
    have hhigh := hexValue_digitChar (c.toNat / 16) (by omega)
    have hlow := hexValue_digitChar (c.toNat % 16) (Nat.mod_lt _ (by decide))
    have hzero : hexValue '0' = 0 := by decide
    have hnat : ((0 * 16 + 0) * 16 + c.toNat / 16) * 16 + c.toNat % 16 = c.toNat := by omega
    simp only [List.cons_append, List.nil_append, readString, hhigh, hlow, hzero, hnat,
      Char.ofNat_toNat]
  · rename_i hquote hback _
    rw [List.singleton_append, readString]
    · exact hquote
    · rintro _ _ _ _ _ rfl
      exact absurd rfl hback
    · rintro _ _ rfl
      exact absurd rfl hback

theorem readString_escapes (s cs : List Char) :
    readString (s.flatMap escape ++ '"' :: cs) = some (s, cs) := by
  induction s with
  | nil => rfl
  | cons c s ih => rw [List.flatMap_cons, List.append_assoc, readString_escape, ih]; rfl

/-! ### Objects -/

/-- One member. -/
def member (item : String × ℤ) : List Char :=
  '"' :: item.1.toList.flatMap escape ++ '"' :: ':' :: integer item.2

/-- The members of an object, with its closing brace. -/
def members : List (String × ℤ) → List Char
  | [] => ['}']
  | [item] => member item ++ ['}']
  | item :: items => member item ++ ',' :: members items

/-- Read the members of an object; each takes at least one character. -/
def readMembers : ℕ → List Char → Option (List (String × ℤ))
  | fuel + 1, '"' :: cs =>
    match readString cs with
    | some (key, ':' :: cs) =>
      match readInteger cs with
      | (n, ['}']) => some [(String.ofList key, n)]
      | (n, ',' :: cs) => (readMembers fuel cs).map ((String.ofList key, n) :: ·)
      | _ => none
    | _ => none
  | _, _ => none

theorem readMembers_members (items : List (String × ℤ)) (hitems : items ≠ []) (fuel : ℕ)
    (hfuel : items.length ≤ fuel) : readMembers fuel (members items) = some items := by
  induction items generalizing fuel with
  | nil => exact absurd rfl hitems
  | cons item items ih =>
    obtain ⟨key, n⟩ := item
    obtain ⟨fuel, rfl⟩ : ∃ k, fuel = k + 1 := ⟨fuel - 1, by simp at hfuel; omega⟩
    rcases items with _ | ⟨item', items⟩
    · have hread := readInteger_integer n ['}'] (by simp)
      simp only [members, member, List.cons_append, List.append_assoc, readMembers,
        readString_escapes, hread, String.ofList_toList]
    · have hread := readInteger_integer n (',' :: members (item' :: items)) (by simp)
      have hrest := ih (by simp) fuel (by simpa using hfuel)
      simp only [members, member, List.cons_append, List.append_assoc, readMembers,
        readString_escapes, hread, String.ofList_toList, hrest, Option.map_some]

theorem length_le_members (items : List (String × ℤ)) :
    items.length ≤ (members items).length := by
  fun_induction members items with
  | case1 => simp
  | case2 item => simp
  | case3 item items _ ih =>
    rw [List.length_cons, List.length_append, List.length_cons]
    omega

/-- The integer members of a list of members. -/
def integers : List (String × JsonValue) → Option (List (String × ℤ))
  | [] => some []
  | (key, .int n) :: items => (integers items).map ((key, n) :: ·)
  | _ => none

theorem integers_map (items : List (String × ℤ)) :
    integers (items.map fun item => (item.1, .int item.2)) = some items := by
  induction items with
  | nil => rfl
  | cons item items ih => rw [List.map_cons, integers, ih, Option.map_some]

/-- The text of an object of integers; nothing else is written. -/
def encode : JsonValue → String
  | .dict items =>
    match integers items with
    | some items => String.ofList ('{' :: members items)
    | none => ""
  | _ => ""

/-- Read an object of integers. -/
def decode (text : String) : Option JsonValue :=
  match text.toList with
  | ['{', '}'] => some (.object [])
  | '{' :: cs => (readMembers cs.length cs).map .object
  | _ => none

theorem decode_encode (items : List (String × ℤ)) :
    decode (encode (.object items)) = some (.object items) := by
  rw [JsonValue.object, encode, integers_map, decode]
  simp only [String.toList_ofList]
  rcases items with _ | ⟨item, items⟩
  · rfl
  · have hread := readMembers_members (item :: items) (by simp) _ (length_le_members _)
    split
    · rename_i h
      obtain ⟨-, h⟩ := List.cons.inj h
      have hlen := congrArg List.length h
      cases items <;> simp [members, member] at hlen
    · rename_i cs _ h
      obtain ⟨-, rfl⟩ := List.cons.inj h
      rw [hread]
      rfl
    · rename_i h
      exact absurd rfl (h _)

end JsonText

/-- The serializer on objects of integers. -/
def compactJson : QueueCodec where
  encode := JsonText.encode
  decode := JsonText.decode
  decode_encode := fun items _ => JsonText.decode_encode items

example : compactJson.encode (.object [("version", 1), ("task_id", 12)]) =
    "\x7b\"version\":1,\"task_id\":12\x7d" := by
  decide

end Lsstack
