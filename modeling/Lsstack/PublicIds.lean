/-
Public identifiers of tasks.

`SqidsPublicIdCodec` encodes an internal id with the `sqids` library over a
salted permutation of the configured alphabet, and reads a public id back only
if encoding gives the same text again.  The library is a parameter (`Sqids`,
`SqidsLibrary`) with what its documentation promises: decoding inverts encoding
up to `sys.maxsize`, beyond which encoding raises.

* **`decode_exact_iff`** — a text is decoded exactly unless the library reads it
  as one number above `sys.maxsize`: then the canonicality check raises;
* **`decode_encode`**, **`encode_injective`** — the round trip over all ids.
-/
import Lsstack.Domain

namespace Lsstack

/-- `sys.maxsize`. -/
def maxsize : ℕ := 2 ^ 63 - 1

/-- `DEFAULT_SQIDS_ALPHABET`. -/
def defaultSqidsAlphabet : String :=
  "abcdefghijklmnopqrstuvwxyzABCDEFGHIJKLMNOPQRSTUVWXYZ0123456789"

/-! ### The library -/

/-- A `sqids.Sqids` object. -/
structure Sqids where
  encode : List ℕ → Except Exn String
  decode : String → Except Exn (List ℕ)
  decode_encode : ∀ n ≤ maxsize, ∃ s, encode [n] = .ok s ∧ decode s = .ok [n]
  encode_large : ∀ n, maxsize < n → ∃ message, encode [n] = .error (.valueError message)
  decode_empty : decode "" = .ok []
  decode_error : ∀ s e, decode s = .error e → ∃ message, e = .valueError message

/-- `sqids.Sqids(alphabet, min_length)`, which accepts every ASCII alphabet of at
least three distinct characters and every length up to 255. -/
structure SqidsLibrary where
  construct : String → ℕ → Except Exn Sqids
  constructs : ∀ alphabet minLength, 3 ≤ alphabet.length → alphabet.toList.Nodup →
    (∀ c ∈ alphabet.toList, c.toNat < 128) → minLength ≤ 255 →
    ∃ sqids, construct alphabet minLength = .ok sqids

/-! ### The codec -/

/-- `str.encode("utf-8")`. -/
def utf8 (s : String) : List UInt8 := s.toList.flatMap String.utf8EncodeChar

/-- `n.to_bytes(4, "big")` of an `n` below `2 ^ 32`. -/
def bigEndian (n : ℕ) : List UInt8 :=
  [UInt8.ofNat (n / 2 ^ 24), UInt8.ofNat (n / 2 ^ 16), UInt8.ofNat (n / 2 ^ 8), UInt8.ofNat n]

section Permutation

variable (sha256 : List UInt8 → List UInt8)

/-- The sort key of a character at its index: the digest, then the index. -/
def permutationKey (salt : String) (pair : ℕ × Char) : List UInt8 × ℕ :=
  (sha256 (utf8 salt ++ [0] ++ utf8 (String.singleton pair.2) ++ bigEndian pair.1), pair.1)

/-- The order of two keys. -/
def keyLe (a b : List UInt8 × ℕ) : Bool := decide (a.1 < b.1 ∨ a.1 = b.1 ∧ a.2 ≤ b.2)

/-- A stable permutation of the alphabet, specific to the salt. -/
def permuteAlphabet (alphabet salt : String) : Except Exn String :=
  if alphabet.length < 3 ∨ ¬alphabet.toList.Nodup then
    .error (.valueError "The Sqids alphabet requires at least 3 unique characters.")
  else if salt = "" then
    .error (.valueError "The Sqids salt must not be empty.")
  else
    let indexed := alphabet.toList.zipIdx.map Prod.swap
    let ordered := indexed.mergeSort fun a b =>
      keyLe (permutationKey sha256 salt a) (permutationKey sha256 salt b)
    .ok (String.ofList (ordered.map Prod.snd))

end Permutation

structure SqidsPublicIdCodec where
  sqids : Sqids

namespace SqidsPublicIdCodec

/-- `SqidsPublicIdCodec(salt=…, alphabet=…, min_length=…)`. -/
def new (sha256 : List UInt8 → List UInt8) (library : SqidsLibrary) (salt alphabet : String)
    (minLength : ℕ) : Except Exn SqidsPublicIdCodec :=
  if minLength < 1 then
    .error (.valueError "Sqids minimum length must be positive.")
  else do
    let permuted ← permuteAlphabet sha256 alphabet salt
    let sqids ← library.construct permuted minLength
    return ⟨sqids⟩

variable (codec : SqidsPublicIdCodec)

def encode (internalId : ℕ) : Except Exn String :=
  if internalId < 1 then
    .error (.valueError "Only positive internal identifiers can be encoded.")
  else
    codec.sqids.encode [internalId]

/-- The re-encoding that rejects aliases stands outside the `try`. -/
def decode (publicId : String) : Except Exn (Option ℕ) :=
  if publicId = "" then
    .ok none
  else
    match codec.sqids.decode publicId with
    | .error (.valueError _) => .ok none
    | .error error => .error error
    | .ok [n] =>
      if n < 1 then
        .ok none
      else
        match codec.sqids.encode [n] with
        | .error error => .error error
        | .ok canonical => if canonical ≠ publicId then .ok none else .ok (some n)
    | .ok _ => .ok none

/-- A text is decoded exactly: nothing is raised, and the result is `n` just when
the text encodes `n`. -/
def Exact (publicId : String) : Prop :=
  ∃ result, codec.decode publicId = .ok result ∧
    ∀ n, result = some n ↔ 1 ≤ n ∧ codec.encode n = .ok publicId

/-- The library reads the text as one number that it cannot encode. -/
def Oversized (publicId : String) : Prop :=
  ∃ n, maxsize < n ∧ codec.sqids.decode publicId = .ok [n]

variable {codec} {publicId : String}

theorem encode_pos {n : ℕ} (hn : 1 ≤ n) : codec.encode n = codec.sqids.encode [n] := by
  rw [encode, if_neg (by omega)]

/-- What encodes lies in the range of the library, which reads it back. -/
theorem sqids_decode_of_encode {n : ℕ} (h : codec.sqids.encode [n] = .ok publicId) :
    n ≤ maxsize ∧ codec.sqids.decode publicId = .ok [n] := by
  have hle : n ≤ maxsize := by
    by_contra hlarge
    obtain ⟨message, he⟩ := codec.sqids.encode_large n (by omega)
    rw [h] at he
    cases he
  obtain ⟨s, hs, hdecode⟩ := codec.sqids.decode_encode n hle
  rw [h] at hs
  cases hs
  exact ⟨hle, hdecode⟩

theorem ne_empty_of_sqids_decode {n : ℕ} (h : codec.sqids.decode publicId = .ok [n]) :
    publicId ≠ "" := by
  rintro rfl
  rw [codec.sqids.decode_empty] at h
  cases h

/-- Above the range the canonicality check raises what `encode` raises. -/
theorem decode_oversized (h : codec.Oversized publicId) :
    ∃ message, codec.decode publicId = .error (.valueError message) := by
  obtain ⟨n, hn, hdecode⟩ := h
  obtain ⟨message, he⟩ := codec.sqids.encode_large n hn
  refine ⟨message, ?_⟩
  rw [decode, if_neg (ne_empty_of_sqids_decode hdecode), hdecode]
  dsimp only
  rw [if_neg (by omega), he]

/-- **The round trip.** -/
theorem decode_encode {n : ℕ} (hpos : 1 ≤ n) (hn : n ≤ maxsize) :
    ∃ s, codec.encode n = .ok s ∧ codec.decode s = .ok (some n) := by
  obtain ⟨s, hs, hdecode⟩ := codec.sqids.decode_encode n hn
  refine ⟨s, by rw [encode_pos hpos, hs], ?_⟩
  rw [decode, if_neg (ne_empty_of_sqids_decode hdecode), hdecode]
  dsimp only
  rw [if_neg (by omega), hs]
  simp

/-- **No two ids share a text.** -/
theorem encode_injective {n m : ℕ} {s : String} (hn : codec.encode n = .ok s)
    (hm : codec.encode m = .ok s) : n = m := by
  have hsqids : ∀ k, codec.encode k = .ok s → codec.sqids.encode [k] = .ok s := by
    intro k hk
    rw [encode] at hk
    split at hk
    · cases hk
    · exact hk
  have hdn := (sqids_decode_of_encode (hsqids n hn)).2
  have hdm := (sqids_decode_of_encode (hsqids m hm)).2
  rw [hdn] at hdm
  cases hdm
  rfl

/-- In the range every text is decoded exactly. -/
theorem exact_of_not_oversized (h : ¬codec.Oversized publicId) : codec.Exact publicId := by
  -- a text the library does not read as a single number is nobody's public id
  have hnone : (∀ n, codec.sqids.decode publicId ≠ .ok [n]) →
      codec.decode publicId = .ok none → codec.Exact publicId := by
    intro hd hr
    refine ⟨none, hr, fun n => ⟨nofun, fun ⟨hn, he⟩ => ?_⟩⟩
    rw [encode_pos hn] at he
    exact absurd (sqids_decode_of_encode he).2 (hd n)
  by_cases hempty : publicId = ""
  · subst hempty
    refine hnone (fun n hn => ?_) (by rw [decode, if_pos rfl])
    rw [codec.sqids.decode_empty] at hn
    cases hn
  · rcases hdecode : codec.sqids.decode publicId with e | decoded
    · obtain ⟨message, rfl⟩ := codec.sqids.decode_error _ _ hdecode
      refine hnone (fun n hn => ?_) (by rw [decode, if_neg hempty, hdecode])
      rw [hdecode] at hn
      cases hn
    · rcases decoded with _ | ⟨n, _ | ⟨m, rest⟩⟩
      · refine hnone (fun n hn => ?_) (by rw [decode, if_neg hempty, hdecode])
        rw [hdecode] at hn
        cases hn
      · have hle : n ≤ maxsize := by
          by_contra hlarge
          exact h ⟨n, by omega, hdecode⟩
        have hunique : ∀ m, codec.sqids.encode [m] = .ok publicId → m = n := by
          intro m hm
          have := (sqids_decode_of_encode hm).2
          rw [hdecode] at this
          cases this
          rfl
        by_cases hpos : n < 1
        · refine ⟨none, by rw [decode, if_neg hempty, hdecode]; exact if_pos hpos, fun m => ?_⟩
          refine ⟨nofun, fun ⟨hm, he⟩ => ?_⟩
          rw [encode_pos hm] at he
          have := hunique m he
          omega
        · obtain ⟨canonical, hc, -⟩ := codec.sqids.decode_encode n hle
          have hresult : codec.decode publicId =
              if canonical ≠ publicId then .ok none else .ok (some n) := by
            rw [decode, if_neg hempty, hdecode]
            dsimp only
            rw [if_neg hpos, hc]
          by_cases hcanonical : canonical = publicId
          · subst hcanonical
            refine ⟨some n, by rw [hresult, if_neg (by simp)], fun m => ?_⟩
            constructor
            · intro hm
              cases hm
              exact ⟨by omega, by rw [encode_pos (by omega), hc]⟩
            · rintro ⟨hm, he⟩
              rw [encode_pos hm] at he
              rw [hunique m he]
          · refine ⟨none, by rw [hresult, if_pos hcanonical], fun m => ?_⟩
            refine ⟨nofun, fun ⟨hm, he⟩ => ?_⟩
            rw [encode_pos hm] at he
            obtain rfl := hunique m he
            rw [hc] at he
            cases he
            exact absurd rfl hcanonical
      · refine hnone (fun k hk => ?_) (by rw [decode, if_neg hempty, hdecode])
        rw [hdecode] at hk
        cases hk

/-- Whatever encoding raises is a `ValueError`. -/
theorem encode_error {n : ℕ} {e : Exn} (h : codec.encode n = .error e) :
    ∃ message, e = .valueError message := by
  rw [encode] at h
  split at h
  · cases h
    exact ⟨_, rfl⟩
  · by_cases hle : n ≤ maxsize
    · obtain ⟨s, hs, -⟩ := codec.sqids.decode_encode n hle
      rw [hs] at h
      cases h
    · obtain ⟨message, he⟩ := codec.sqids.encode_large n (by omega)
      rw [he] at h
      cases h
      exact ⟨message, rfl⟩

/-- Whatever decoding raises is a `ValueError`. -/
theorem decode_error {e : Exn} (h : codec.decode publicId = .error e) :
    ∃ message, e = .valueError message := by
  by_cases hoversized : codec.Oversized publicId
  · obtain ⟨message, he⟩ := decode_oversized hoversized
    rw [he] at h
    cases h
    exact ⟨message, rfl⟩
  · obtain ⟨result, hr, -⟩ := exact_of_not_oversized hoversized
    rw [hr] at h
    cases h

theorem exact_iff : codec.Exact publicId ↔ ¬codec.Oversized publicId := by
  refine ⟨?_, exact_of_not_oversized⟩
  rintro ⟨result, hr, -⟩ hoversized
  obtain ⟨message, he⟩ := decode_oversized hoversized
  rw [hr] at he
  cases he

end SqidsPublicIdCodec

/-! ### The permutation of the alphabet -/

/-- The permuted alphabet has the characters of the configured one. -/
theorem permuteAlphabet_perm {sha256 : List UInt8 → List UInt8} {alphabet salt permuted : String}
    (h : permuteAlphabet sha256 alphabet salt = .ok permuted) :
    permuted.toList.Perm alphabet.toList := by
  simp only [permuteAlphabet] at h
  split at h
  · cases h
  · split at h
    · cases h
    · cases h
      rw [String.toList_ofList]
      refine ((List.mergeSort_perm _ _).map Prod.snd).trans (List.Perm.of_eq ?_)
      rw [List.map_map, show Prod.snd ∘ Prod.swap = (Prod.fst : Char × ℕ → Char) from rfl,
        List.zipIdx_map_fst]

theorem SqidsPublicIdCodec.new_ok (sha256 : List UInt8 → List UInt8) (library : SqidsLibrary)
    {salt alphabet : String} {minLength : ℕ} (hsalt : salt ≠ "") (hlength : 3 ≤ alphabet.length)
    (hnodup : alphabet.toList.Nodup) (hascii : ∀ c ∈ alphabet.toList, c.toNat < 128)
    (hmin : 1 ≤ minLength) (hmax : minLength ≤ 64) :
    ∃ codec, new sha256 library salt alphabet minLength = .ok codec := by
  have hpermuted : ∃ permuted, permuteAlphabet sha256 alphabet salt = .ok permuted := by
    rw [permuteAlphabet, if_neg (by rintro (h | h); exacts [by omega, h hnodup]), if_neg hsalt]
    exact ⟨_, rfl⟩
  obtain ⟨permuted, hp⟩ := hpermuted
  have hperm := permuteAlphabet_perm hp
  obtain ⟨sqids, hs⟩ := library.constructs permuted minLength
    (by rw [← String.length_toList, hperm.length_eq, String.length_toList]; exact hlength)
    (hperm.nodup_iff.mpr hnodup) (fun c hc => hascii c (hperm.mem_iff.mp hc)) (by omega)
  refine ⟨⟨sqids⟩, ?_⟩
  rw [new, if_neg (by omega), hp]
  show (library.construct permuted minLength).bind
    (fun sqids => Except.ok (SqidsPublicIdCodec.mk sqids)) = _
  rw [hs]
  rfl

/-! ### A plain library

Positional numerals as `sqids` writes them for one number, without its shuffles,
padding and blocklist: the first character rotates the alphabet, which is then
reversed; its new head separates and the rest are the digits. -/

namespace Plain

/-- The digits that follow the first character `p`. -/
def digits (alphabet : List Char) (p : Char) : List Char :=
  (alphabet.rotate (alphabet.idxOf p)).reverse.tail

/-- The value of a numeral. -/
def toNumber (digits chunk : List Char) : ℕ :=
  chunk.foldl (fun value c => value * digits.length + digits.idxOf c) 0

/-- The numeral of a value. -/
def toId (digits : List Char) (n : ℕ) : List Char :=
  if n = 0 then digits.take 1
  else (Nat.digits digits.length n).reverse.map fun d => digits.getD d ' '

def encode (alphabet : List Char) : List ℕ → Except Exn String
  | [n] =>
    if n ≤ maxsize then
      .ok (String.ofList (alphabet.headD ' ' :: toId (digits alphabet (alphabet.headD ' ')) n))
    else
      .error (.valueError "Encoding supports numbers between 0 and sys.maxsize")
  | _ => .error (.valueError "Only one number is encoded.")

def decode (alphabet : List Char) (s : String) : Except Exn (List ℕ) :=
  match s.toList with
  | [] => .ok []
  | p :: chunk =>
    if p ∈ alphabet ∧ chunk ≠ [] ∧ ∀ c ∈ chunk, c ∈ digits alphabet p then
      .ok [toNumber (digits alphabet p) chunk]
    else
      .ok []

variable {alphabet : List Char}

theorem digits_nodup (h : alphabet.Nodup) (p : Char) : (digits alphabet p).Nodup := by
  have hrotate : (alphabet.rotate (alphabet.idxOf p)).Nodup := List.nodup_rotate.mpr h
  exact (List.nodup_reverse.mpr hrotate).sublist (List.tail_sublist _)

@[simp] theorem length_digits (p : Char) :
    (digits alphabet p).length = alphabet.length - 1 := by
  simp [digits]

/-- The first character is the last digit. -/
theorem digits_eq {p : Char} (hp : p ∈ alphabet) (hlength : 3 ≤ alphabet.length) :
    ∃ front, digits alphabet p = front ++ [p] := by
  have hlt : alphabet.idxOf p < alphabet.length := List.idxOf_lt_length_iff.mpr hp
  have hrotate : alphabet.rotate (alphabet.idxOf p) =
      p :: (alphabet.drop (alphabet.idxOf p + 1) ++ alphabet.take (alphabet.idxOf p)) := by
    rw [List.rotate_eq_drop_append_take (by omega), List.drop_eq_getElem_cons hlt,
      List.getElem_idxOf]
    rfl
  have hlen := congrArg List.length hrotate
  rw [List.length_rotate, List.length_cons] at hlen
  rw [digits, hrotate, List.reverse_cons]
  rcases hback : (alphabet.drop (alphabet.idxOf p + 1) ++
    alphabet.take (alphabet.idxOf p)).reverse with _ | ⟨c, front⟩
  · have := congrArg List.length hback
    rw [List.length_reverse, List.length_nil] at this
    omega
  · exact ⟨front, rfl⟩

/-- Horner's rule. -/
theorem toNumber_eq_ofDigits (digits chunk : List Char) :
    toNumber digits chunk = Nat.ofDigits digits.length (chunk.reverse.map (digits.idxOf ·)) := by
  rw [toNumber, ← List.foldr_reverse, Nat.ofDigits_eq_foldr, List.foldr_map]
  congr 1
  funext c value
  simp only [Nat.cast_id]
  ring

theorem getD_of_lt {digits : List Char} {d : ℕ} (h : d < digits.length) :
    digits.getD d ' ' = digits[d] := by
  simp [h]

theorem toNumber_toId {digits : List Char} (hnodup : digits.Nodup) (hlength : 2 ≤ digits.length)
    (n : ℕ) : toNumber digits (toId digits n) = n := by
  rw [toNumber_eq_ofDigits, toId]
  split
  · rename_i hn
    rcases digits with _ | ⟨c, rest⟩
    · simp at hlength
    · simp [hn]
  · rw [← List.map_reverse, List.reverse_reverse, List.map_map]
    have hid : ∀ d ∈ Nat.digits digits.length n,
        ((digits.idxOf ·) ∘ fun d => digits.getD d ' ') d = d := by
      intro d hd
      have hlt : d < digits.length := Nat.digits_lt_base (by omega) hd
      rw [Function.comp_apply, getD_of_lt hlt]
      exact hnodup.idxOf_getElem d hlt
    rw [List.map_congr_left hid, List.map_id', Nat.ofDigits_digits]

theorem toId_subset {digits : List Char} (hlength : 2 ≤ digits.length) (n : ℕ) :
    toId digits n ≠ [] ∧ ∀ c ∈ toId digits n, c ∈ digits := by
  rw [toId]
  split
  · rcases digits with _ | ⟨c, rest⟩
    · simp at hlength
    · simp
  · rename_i hn
    constructor
    · simpa [Nat.digits_eq_nil_iff_eq_zero] using hn
    · intro c hc
      obtain ⟨d, hd, rfl⟩ := List.mem_map.mp hc
      have hlt : d < digits.length := Nat.digits_lt_base (by omega) (List.mem_reverse.mp hd)
      rw [getD_of_lt hlt]
      exact List.getElem_mem hlt

/-- The library over one alphabet. -/
def sqids (alphabet : List Char) (hlength : 3 ≤ alphabet.length) (hnodup : alphabet.Nodup) :
    Sqids where
  encode := encode alphabet
  decode := decode alphabet
  decode_encode := by
    intro n hn
    rcases alphabet with _ | ⟨p, rest⟩
    · simp at hlength
    · have htwo : 2 ≤ (digits (p :: rest) p).length := by
        rw [length_digits]
        omega
      obtain ⟨hne, hsub⟩ := toId_subset htwo n
      refine ⟨_, if_pos hn, ?_⟩
      rw [decode, String.toList_ofList]
      dsimp only [List.headD_cons]
      rw [if_pos ⟨List.mem_cons_self, hne, hsub⟩, toNumber_toId (digits_nodup hnodup p) htwo]
  encode_large := fun n hn => ⟨_, if_neg (by omega)⟩
  decode_empty := rfl
  decode_error := by
    intro s e h
    rw [decode] at h
    split at h
    · cases h
    · split at h <;> cases h

/-- The library over any alphabet. -/
def library : SqidsLibrary where
  construct := fun alphabet _ =>
    if h : 3 ≤ alphabet.toList.length ∧ alphabet.toList.Nodup then
      .ok (sqids alphabet.toList h.1 h.2)
    else
      .error (.valueError "Alphabet must contain unique characters")
  constructs := fun alphabet _ hlength hnodup _ _ =>
    ⟨_, dif_pos ⟨by rw [String.length_toList]; exact hlength, hnodup⟩⟩

/-- A text of one character only repeats the highest digit. -/
theorem toNumber_replicate {digits : List Char} {p : Char} (hnodup : digits.Nodup)
    {front : List Char} (hdigits : digits = front ++ [p]) (m : ℕ) :
    toNumber digits (List.replicate m p) = digits.length ^ m - 1 := by
  have hidx : digits.idxOf p = digits.length - 1 := by
    have hnot : p ∉ front := by
      rw [hdigits] at hnodup
      exact fun h => List.disjoint_of_nodup_append hnodup h (List.mem_singleton.mpr rfl)
    rw [hdigits, List.idxOf_append_of_notMem hnot]
    simp
  have hpos : 1 ≤ digits.length := by
    rw [hdigits]
    simp
  induction m with
  | zero => simp [toNumber]
  | succ m ih =>
    rw [toNumber] at ih ⊢
    rw [List.replicate_succ', List.foldl_append, ih]
    simp only [List.foldl_cons, List.foldl_nil, hidx]
    have hpow : 1 ≤ digits.length ^ m := Nat.one_le_pow _ _ hpos
    rw [pow_succ, Nat.sub_mul, one_mul]
    have hmul : digits.length ≤ digits.length ^ m * digits.length :=
      Nat.le_mul_of_pos_left _ hpow
    omega

end Plain

/-! ### Exactness -/

/-- **When the codec is exact.**  Whatever the salt, the alphabet and the length,
a text is decoded exactly unless the library reads it as one number above
`sys.maxsize`; every id goes through encoding and back, and no two share a text. -/
theorem decode_exact_iff (sha256 : List UInt8 → List UInt8) (library : SqidsLibrary)
    (salt alphabet : String) (minLength : ℕ) (hsalt : salt ≠ "") (hlength : 3 ≤ alphabet.length)
    (hnodup : alphabet.toList.Nodup) (hascii : ∀ c ∈ alphabet.toList, c.toNat < 128)
    (hmin : 1 ≤ minLength) (hmax : minLength ≤ 64) :
    ∃ codec, SqidsPublicIdCodec.new sha256 library salt alphabet minLength = .ok codec ∧
      (∀ publicId, codec.Exact publicId ↔ ¬codec.Oversized publicId) ∧
      (∀ n, 1 ≤ n → n ≤ maxsize → ∃ s, codec.encode n = .ok s ∧ codec.decode s = .ok (some n)) ∧
      ∀ n m s, codec.encode n = .ok s → codec.encode m = .ok s → n = m := by
  obtain ⟨codec, hcodec⟩ :=
    SqidsPublicIdCodec.new_ok sha256 library hsalt hlength hnodup hascii hmin hmax
  exact ⟨codec, hcodec, fun _ => SqidsPublicIdCodec.exact_iff,
    fun _ => SqidsPublicIdCodec.decode_encode, fun _ _ _ => SqidsPublicIdCodec.encode_injective⟩

/-- The default settings. -/
theorem decode_exact_iff_default :
    ∃ codec, SqidsPublicIdCodec.new (fun _ => []) Plain.library "local-lsstack-sqids-salt"
        defaultSqidsAlphabet 8 = .ok codec ∧
      (∀ publicId, codec.Exact publicId ↔ ¬codec.Oversized publicId) ∧
      (∀ n, 1 ≤ n → n ≤ maxsize → ∃ s, codec.encode n = .ok s ∧ codec.decode s = .ok (some n)) ∧
      ∀ n m s, codec.encode n = .ok s → codec.encode m = .ok s → n = m :=
  decode_exact_iff _ Plain.library "local-lsstack-sqids-salt" defaultSqidsAlphabet 8 (by decide)
    (by decide) (by decide) (List.all_iff_forall_prop.mp (by decide)) (by decide) (by decide)

/-- Under the default settings twelve `a`s read as 61 ^ 11 - 1, and whatever the
digests permute, decoding them raises. -/
theorem decode_not_exact :
    ¬∃ sha256 codec, SqidsPublicIdCodec.new sha256 Plain.library "local-lsstack-sqids-salt"
        defaultSqidsAlphabet 8 = .ok codec ∧ codec.Exact "aaaaaaaaaaaa" := by
  rintro ⟨sha256, codec, hnew, hexact⟩
  refine SqidsPublicIdCodec.exact_iff.mp hexact ?_
  obtain ⟨permuted, hp⟩ : ∃ permuted, permuteAlphabet sha256 defaultSqidsAlphabet
      "local-lsstack-sqids-salt" = .ok permuted := by
    rw [permuteAlphabet, if_neg (by decide), if_neg (by decide)]
    exact ⟨_, rfl⟩
  -- the alphabet is permuted, so it still has the letter and its 62 characters
  have hperm := permuteAlphabet_perm hp
  have hnodup : permuted.toList.Nodup := hperm.nodup_iff.mpr (by decide)
  have hlength : permuted.toList.length = 62 := by
    rw [hperm.length_eq]
    rfl
  have ha : 'a' ∈ permuted.toList := hperm.mem_iff.mpr (by decide)
  rw [SqidsPublicIdCodec.new, if_neg (by decide), hp] at hnew
  change ((Plain.library.construct permuted 8).bind
    fun sqids => Except.ok (SqidsPublicIdCodec.mk sqids)) = _ at hnew
  rw [show Plain.library.construct permuted 8 = .ok (Plain.sqids permuted.toList (by omega) hnodup)
    from dif_pos ⟨by omega, hnodup⟩] at hnew
  cases hnew
  -- the letter is one of the digits, and eleven of the last digit make a number
  obtain ⟨front, hdigits⟩ := Plain.digits_eq ha (by omega)
  refine ⟨61 ^ 11 - 1, by decide, ?_⟩
  change Plain.decode permuted.toList "aaaaaaaaaaaa" = _
  rw [Plain.decode, show "aaaaaaaaaaaa".toList = 'a' :: List.replicate 11 'a' from by decide]
  dsimp only
  rw [if_pos, Plain.toNumber_replicate (Plain.digits_nodup hnodup 'a') hdigits,
    Plain.length_digits, hlength]
  refine ⟨ha, by decide, fun c hc => ?_⟩
  obtain rfl := List.eq_of_mem_replicate hc
  rw [hdigits]
  simp

end Lsstack
