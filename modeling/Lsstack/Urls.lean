/-
URLs as `urllib.parse` takes them apart and puts them together.

Texts are lists of characters here.  The tables of the runtime (lower case, NFKC,
IPv6 addresses, UTF-8 with replacement) are parameters, with what the two parsers
need of them: lower case and NFKC neither add nor remove delimiters.

* **`urlsplit_join`** — a URL joined from its parts is split into them again;
* `urlsplit_ok` — what the parts of a split URL are free of;
* `quote_of_safe`, `quote_quote_length` — a safe text is quoted to itself, and any
  other grows again when it is quoted again.
-/
import Lsstack.Domain

namespace Lsstack

/-! ### Partitions -/

/-- `text.partition(c)`. -/
def partition (c : Char) (l : List Char) : List Char × Bool × List Char :=
  (l.takeWhile (· != c), decide (c ∈ l), (l.dropWhile (· != c)).tail)

/-- `text.rpartition(c)`. -/
def rpartition (c : Char) (l : List Char) : List Char × Bool × List Char :=
  if c ∈ l then
    ((partition c l.reverse).2.2.reverse, true, (partition c l.reverse).1.reverse)
  else
    ([], false, l)

theorem partition_append {c : Char} {a b : List Char} (h : c ∉ a) :
    partition c (a ++ c :: b) = (a, true, b) := by
  have ha : ∀ x ∈ a, (x != c) = true := by
    intro x hx
    rw [bne_iff_ne]
    rintro rfl
    exact h hx
  rw [partition, List.takeWhile_append_of_pos ha, List.dropWhile_append_of_pos ha]
  simp

theorem partition_of_notMem {c : Char} {l : List Char} (h : c ∉ l) :
    partition c l = (l, false, []) := by
  have hl : ∀ x ∈ l, (x != c) = true := by
    intro x hx
    rw [bne_iff_ne]
    rintro rfl
    exact h hx
  rw [partition, List.takeWhile_eq_self_iff.mpr hl, List.dropWhile_eq_nil_iff.mpr hl]
  simp [h]

theorem rpartition_append {c : Char} {a b : List Char} (h : c ∉ b) :
    rpartition c (a ++ c :: b) = (a, true, b) := by
  have hreverse : (a ++ c :: b).reverse = b.reverse ++ c :: a.reverse := by simp
  rw [rpartition, if_pos (by simp), hreverse, partition_append (by simpa using h)]
  simp

/-- A text that holds `c` is cut at its first one. -/
theorem partition_cases {c : Char} {l : List Char} (h : c ∈ l) :
    ∃ a b, c ∉ a ∧ l = a ++ c :: b := by
  induction l with
  | nil => cases h
  | cons x l ih =>
    by_cases hx : x = c
    · exact ⟨[], l, by simp, by rw [hx]; rfl⟩
    · obtain ⟨a, b, ha, rfl⟩ := ih ((List.mem_cons.mp h).resolve_left (Ne.symm hx))
      exact ⟨x :: a, b, by simp [ha, Ne.symm hx], rfl⟩

/-- The first part holds no `c`, and each part comes from the text. -/
theorem partition_spec (c : Char) (l : List Char) :
    c ∉ (partition c l).1 ∧ (∀ x ∈ (partition c l).1, x ∈ l) ∧
      ∀ x ∈ (partition c l).2.2, x ∈ l := by
  by_cases h : c ∈ l
  · obtain ⟨a, b, ha, rfl⟩ := partition_cases h
    rw [partition_append ha]
    exact ⟨ha, by simp +contextual, by simp +contextual⟩
  · rw [partition_of_notMem h]
    exact ⟨h, by simp, by simp⟩

/-- The last part holds no `c`, and each part comes from the text. -/
theorem rpartition_spec (c : Char) (l : List Char) :
    c ∉ (rpartition c l).2.2 ∧ (∀ x ∈ (rpartition c l).1, x ∈ l) ∧
      ∀ x ∈ (rpartition c l).2.2, x ∈ l := by
  rw [rpartition]
  split
  · obtain ⟨hnot, hfirst, hlast⟩ := partition_spec c l.reverse
    simp only [List.mem_reverse] at hnot hfirst hlast ⊢
    exact ⟨hnot, hlast, hfirst⟩
  · exact ⟨by assumption, by simp, by simp⟩

/-! ### The runtime's tables -/

/-- `/`, `?`, `#`, `@` and `:`, which NFKC must not bring into an authority. -/
def netlocDelimiters : List Char := ['/', '?', '#', '@', ':']

/-- The characters a URL is taken apart at, and those removed from it. -/
def reservedChars : List Char :=
  ['/', '?', '#', '@', ':', '[', ']', '%', '\t', '\r', '\n']

/-- `str.lower`, NFKC, `ipaddress.ip_address` being an `IPv6Address`, and
`bytes.decode("utf-8", "replace")`. -/
structure UrlTables where
  lower : List Char → List Char
  nfkc : List Char → List Char
  ipv6 : List Char → Bool
  decode : List UInt8 → List Char
  lower_lower : ∀ s, lower (lower s) = lower s
  lower_ne_nil : ∀ s, s ≠ [] → lower s ≠ []
  mem_lower : ∀ s, ∀ c ∈ reservedChars, c ∈ lower s ↔ c ∈ s
  mem_nfkc : ∀ s, ∀ c ∈ netlocDelimiters, c ∈ nfkc s ↔ ∃ x ∈ s, c ∈ nfkc [x]
  nfkc_ascii : ∀ c : Char, c.toNat < 128 → nfkc [c] = [c]
  nfkc_lower : ∀ s, ∀ c ∈ netlocDelimiters, (∃ x ∈ lower s, c ∈ nfkc [x]) → ∃ x ∈ s, c ∈ nfkc [x]

/-! ### Taking a URL apart -/

/-- The result of `urlsplit`. -/
structure SplitResult where
  scheme : List Char
  netloc : List Char
  path : List Char
  query : List Char
  fragment : List Char
  deriving DecidableEq

namespace SplitResult

variable (parsed : SplitResult)

/-- `_userinfo`: user name and password, still percent-encoded. -/
def userinfo : Option (List Char) × Option (List Char) :=
  let (userinfo, haveInfo, _) := rpartition '@' parsed.netloc
  if haveInfo then
    let (username, havePassword, password) := partition ':' userinfo
    (some username, if havePassword then some password else none)
  else
    (none, none)

def username : Option (List Char) := parsed.userinfo.1

def password : Option (List Char) := parsed.userinfo.2

/-- `_hostinfo`: host without brackets, and the text of the port. -/
def hostinfo : List Char × Option (List Char) :=
  let hostinfo := (rpartition '@' parsed.netloc).2.2
  let (_, haveOpenBr, bracketed) := partition '[' hostinfo
  let (hostname, port) :=
    if haveOpenBr then
      let (hostname, _, port) := partition ']' bracketed
      (hostname, (partition ':' port).2.2)
    else
      let (hostname, _, port) := partition ':' hostinfo
      (hostname, port)
  (hostname, if port = [] then none else some port)

/-- `hostname`: lower case up to the zone of a scoped address. -/
def hostname (tables : UrlTables) : Option (List Char) :=
  let hostname := parsed.hostinfo.1
  if hostname = [] then
    none
  else
    let (name, percent, zone) := partition '%' hostname
    some (tables.lower name ++ (if percent then ['%'] else []) ++ zone)

def port : Except Exn (Option ℕ) :=
  match parsed.hostinfo.2 with
  | none => .ok none
  | some port =>
    if port.all Char.isDigit then
      if Nat.ofDigitChars 10 port 0 ≤ 65535 then
        .ok (some (Nat.ofDigitChars 10 port 0))
      else
        .error (.valueError "Port out of range 0-65535")
    else
      .error (.valueError "Port could not be cast to integer value")

end SplitResult

/-- A character of a scheme. -/
def isSchemeChar (c : Char) : Bool :=
  c.isAlphanum || c == '+' || c == '-' || c == '.'

/-- A hexadecimal digit. -/
def isHexDigit (c : Char) : Bool :=
  c.isDigit || (97 ≤ c.toNat && c.toNat ≤ 102) || (65 ≤ c.toNat && c.toNat ≤ 70)

section Split

variable (tables : UrlTables)

/-- `_check_bracketed_host`. -/
def checkBracketedHost (hostname : List Char) : Except Exn Unit :=
  match hostname with
  | 'v' :: future =>
    match future.takeWhile isHexDigit, future.dropWhile isHexDigit with
    | _ :: _, '.' :: _ :: _ => .ok ()
    | _, _ => .error (.valueError "IPvFuture address is invalid")
  | _ =>
    if tables.ipv6 hostname then .ok ()
    else .error (.valueError "does not appear to be an IPv6 address")

/-- `_check_bracketed_netloc`. -/
def checkBracketedNetloc (netloc : List Char) : Except Exn Unit :=
  let hostnameAndPort := (rpartition '@' netloc).2.2
  let (beforeBracket, haveOpenBr, bracketed) := partition '[' hostnameAndPort
  if haveOpenBr then
    let (hostname, _, port) := partition ']' bracketed
    if beforeBracket ≠ [] ∨ port ≠ [] ∧ port.head? ≠ some ':' then
      .error (.valueError "Invalid IPv6 URL")
    else
      checkBracketedHost tables hostname
  else
    checkBracketedHost tables (partition ':' hostnameAndPort).1

/-- The bracket checks of `urlsplit`. -/
def checkBrackets (netloc : List Char) : Except Exn Unit :=
  if ('[' ∈ netloc ∧ ']' ∉ netloc) ∨ (']' ∈ netloc ∧ '[' ∉ netloc) then
    .error (.valueError "Invalid IPv6 URL")
  else if '[' ∈ netloc ∧ ']' ∈ netloc then
    checkBracketedNetloc tables netloc
  else
    .ok ()

/-- `_checknetloc`. -/
def checkNetloc (netloc : List Char) : Except Exn Unit :=
  let n := netloc.filter fun c => !(c == '@' || c == ':' || c == '#' || c == '?')
  if netloc.all (fun c => c.toNat < 128) ∨ n = tables.nfkc n then
    .ok ()
  else if netlocDelimiters.any fun c => decide (c ∈ tables.nfkc n) then
    .error (.valueError "netloc contains invalid characters under NFKC normalization")
  else
    .ok ()

/-- The scheme and the rest of a cleaned URL. -/
def splitScheme (url : List Char) : List Char × List Char :=
  let (scheme, found, rest) := partition ':' url
  if found ∧ scheme.head?.any Char.isAlpha ∧ scheme.all isSchemeChar then
    (scheme.map Char.toLower, rest)
  else
    ([], url)

/-- The authority and the rest, `_splitnetloc` behind `//`. -/
def splitAuthority : List Char → List Char × List Char
  | '/' :: '/' :: rest =>
    (rest.takeWhile fun c => !(c == '/' || c == '?' || c == '#'),
      rest.dropWhile fun c => !(c == '/' || c == '?' || c == '#'))
  | url => ([], url)

/-- Leading control characters and blanks are dropped, tabs and line ends removed. -/
def cleanUrl (url : List Char) : List Char :=
  (url.dropWhile fun c => c.toNat ≤ 32).filter fun c => !(c == '\t' || c == '\r' || c == '\n')

def urlsplit (url : List Char) : Except Exn SplitResult := do
  let (scheme, rest) := splitScheme (cleanUrl url)
  let (netloc, rest) := splitAuthority rest
  checkBrackets tables netloc
  let (rest, _, fragment) := partition '#' rest
  let (path, _, query) := partition '?' rest
  checkNetloc tables netloc
  return ⟨scheme, netloc, path, query, fragment⟩

end Split

/-! ### Putting a URL together -/

/-- `urlunsplit` over an authority that is not empty. -/
def urlunsplit (scheme netloc path query fragment : List Char) : List Char :=
  let path := if path ≠ [] ∧ path.head? ≠ some '/' then '/' :: path else path
  (if scheme = [] then [] else scheme ++ [':']) ++ '/' :: '/' :: netloc ++ path ++
    (if query = [] then [] else '?' :: query) ++ if fragment = [] then [] else '#' :: fragment

/-- `_ALWAYS_SAFE`. -/
def isAlwaysSafe (c : Char) : Bool :=
  c.isAlphanum || c == '_' || c == '.' || c == '-' || c == '~'

/-- An upper-case hexadecimal digit. -/
def hexUpper (n : ℕ) : Char := Char.ofNat (if n < 10 then 48 + n else 55 + n)

/-- `'%{:02X}'.format(b)`. -/
def percentByte (b : UInt8) : List Char :=
  ['%', hexUpper (b.toNat / 16), hexUpper (b.toNat % 16)]

def quoteChar (c : Char) : List Char :=
  if isAlwaysSafe c then [c] else (String.utf8EncodeChar c).flatMap percentByte

/-- `quote(text, safe="")`. -/
def quote (s : List Char) : List Char := s.flatMap quoteChar

/-- The value of a hexadecimal digit. -/
def hexValue (c : Char) : ℕ :=
  if c.isDigit then c.toNat - 48 else if c.toNat < 97 then c.toNat - 55 else c.toNat - 87

/-- `unquote_to_bytes`. -/
def unquoteToBytes : List Char → List UInt8
  | '%' :: a :: b :: rest =>
    if isHexDigit a ∧ isHexDigit b then
      UInt8.ofNat (16 * hexValue a + hexValue b) :: unquoteToBytes rest
    else
      String.utf8EncodeChar '%' ++ unquoteToBytes (a :: b :: rest)
  | c :: rest => String.utf8EncodeChar c ++ unquoteToBytes rest
  | [] => []

/-- `unquote`: each run of ASCII characters is decoded by itself. -/
def unquote (tables : UrlTables) (s : List Char) : List Char :=
  if '%' ∈ s then
    (s.splitBy fun a b => decide (a.toNat < 128) == decide (b.toNat < 128)).flatMap fun run =>
      if run.all fun c => c.toNat < 128 then tables.decode (unquoteToBytes run) else run
  else
    s

/-! ### Splitting what was joined -/

/-- A scheme as `urlsplit` returns it. -/
def IsScheme (scheme : List Char) : Prop :=
  (∃ c rest, scheme = c :: rest ∧ c.isAlpha = true) ∧ (∀ c ∈ scheme, isSchemeChar c = true) ∧
    scheme.map Char.toLower = scheme

/-- None of the characters is in the list, nor is one that cleaning removes. -/
def FreeOf (chars : List Char) (l : List Char) : Prop :=
  ∀ c ∈ l, c ∉ chars ∧ (c == '\t' || c == '\r' || c == '\n') = false

theorem FreeOf.of_all {chars l : List Char}
    (h : l.all (fun c => decide
      (c ∉ chars ∧ (c == '\t' || c == '\r' || c == '\n') = false)) = true) :
    FreeOf chars l := List.all_iff_forall_prop.mp h

theorem FreeOf.append {chars a b : List Char} (ha : FreeOf chars a) (hb : FreeOf chars b) :
    FreeOf chars (a ++ b) := by
  intro c hc
  rcases List.mem_append.mp hc with hc | hc
  · exact ha c hc
  · exact hb c hc

theorem FreeOf.subset {chars a b : List Char} (hb : FreeOf chars b) (h : ∀ c ∈ a, c ∈ b) :
    FreeOf chars a := fun c hc => hb c (h c hc)

theorem FreeOf.mono {chars chars' l : List Char} (h : FreeOf chars' l) (hsub : chars ⊆ chars') :
    FreeOf chars l := fun c hc => ⟨fun hmem => (h c hc).1 (hsub hmem), (h c hc).2⟩

theorem FreeOf.notMem {chars l : List Char} (h : FreeOf chars l) {c : Char} (hc : c ∈ chars) :
    c ∉ l := fun hmem => (h c hmem).1 hc

theorem colon_notMem_scheme {scheme : List Char} (h : IsScheme scheme) : ':' ∉ scheme := by
  intro hmem
  have := h.2.1 ':' hmem
  revert this
  decide

/-- Cleaning leaves a text alone that starts with a letter and holds nothing to
remove. -/
theorem cleanUrl_eq {url : List Char} (hfirst : ∃ c rest, url = c :: rest ∧ 32 < c.toNat)
    (hclean : FreeOf [] url) : cleanUrl url = url := by
  obtain ⟨c, rest, rfl, hc⟩ := hfirst
  rw [cleanUrl, List.dropWhile_cons_of_neg (by simpa using hc), List.filter_eq_self]
  intro d hd
  simp [(hclean d hd).2]

theorem alpha_toNat {c : Char} (h : c.isAlpha = true) : 32 < c.toNat := by
  simp only [Char.isAlpha, Char.isUpper, Char.isLower, Bool.or_eq_true, Bool.and_eq_true,
    decide_eq_true_eq, ge_iff_le, UInt32.le_iff_toNat_le] at h
  change 32 < c.val.toNat
  have hA : 'A'.val.toNat = 65 := rfl
  have ha : 'a'.val.toNat = 97 := rfl
  omega

theorem schemeChar_clean {c : Char} (h : isSchemeChar c = true) :
    (c == '\t' || c == '\r' || c == '\n') = false := by
  have hne : ∀ d, isSchemeChar d = false → c ≠ d := by
    rintro d hd rfl
    rw [h] at hd
    cases hd
  simp [hne '\t' (by decide), hne '\r' (by decide), hne '\n' (by decide)]

theorem splitScheme_join {scheme rest : List Char} (h : IsScheme scheme) :
    splitScheme (scheme ++ ':' :: rest) = (scheme, rest) := by
  obtain ⟨⟨c, tail, hfirst, hc⟩, hall, hlower⟩ := h
  rw [splitScheme, partition_append (colon_notMem_scheme ⟨⟨c, tail, hfirst, hc⟩, hall, hlower⟩)]
  dsimp only
  rw [if_pos, hlower]
  refine ⟨rfl, ?_, List.all_eq_true.mpr hall⟩
  rw [hfirst]
  simpa using hc

theorem splitAuthority_join {netloc rest : List Char} (hnetloc : FreeOf ['/', '?', '#'] netloc)
    (hrest : ∀ c ∈ rest.head?, c = '/' ∨ c = '?' ∨ c = '#') :
    splitAuthority ('/' :: '/' :: netloc ++ rest) = (netloc, rest) := by
  have hpos : ∀ c ∈ netloc, (!(c == '/' || c == '?' || c == '#')) = true := by
    intro c hc
    have := (hnetloc c hc).1
    simp only [List.mem_cons, List.not_mem_nil, or_false, not_or] at this
    simp [this]
  have hstop : rest.takeWhile (fun c => !(c == '/' || c == '?' || c == '#')) = [] ∧
      rest.dropWhile (fun c => !(c == '/' || c == '?' || c == '#')) = rest := by
    rcases rest with _ | ⟨c, rest⟩
    · exact ⟨rfl, rfl⟩
    · have hneg : ¬(!(c == '/' || c == '?' || c == '#')) = true := by
        rcases hrest c rfl with rfl | rfl | rfl
        all_goals decide
      exact ⟨List.takeWhile_cons_of_neg hneg, List.dropWhile_cons_of_neg hneg⟩
  rw [List.cons_append, List.cons_append, splitAuthority, List.takeWhile_append_of_pos hpos,
    List.dropWhile_append_of_pos hpos, hstop.1, hstop.2, List.append_nil]

/-- **A joined URL is split into its parts**, once its authority passes the
checks. -/
theorem urlsplit_join (tables : UrlTables) {scheme netloc path query : List Char}
    (hscheme : IsScheme scheme) (hnetloc : FreeOf ['/', '?', '#'] netloc)
    (hpath : FreeOf ['?', '#'] path) (hrooted : path = [] ∨ path.head? = some '/')
    (hquery : FreeOf ['#'] query) :
    urlsplit tables (urlunsplit scheme netloc path query []) = do
      checkBrackets tables netloc
      checkNetloc tables netloc
      return ⟨scheme, netloc, path, query, []⟩ := by
  have hnil : scheme ≠ [] := by
    obtain ⟨⟨c, rest, rfl, -⟩, -⟩ := hscheme
    exact List.cons_ne_nil _ _
  set tail : List Char := if query = [] then [] else '?' :: query with htail
  have hurl : urlunsplit scheme netloc path query [] =
      scheme ++ ':' :: ('/' :: '/' :: netloc ++ (path ++ tail)) := by
    have hpath' : (if path ≠ [] ∧ path.head? ≠ some '/' then '/' :: path else path) = path := by
      refine if_neg ?_
      rintro ⟨hne, hhead⟩
      rcases hrooted with h | h
      · exact hne h
      · exact hhead h
    rw [urlunsplit, hpath', if_neg hnil, if_pos rfl, ← htail]
    simp
  have htailfree : FreeOf ['#'] tail := by
    rw [htail]
    split
    · exact nofun
    · intro c hc
      rcases List.mem_cons.mp hc with rfl | hc
      · exact ⟨by decide, by decide⟩
      · exact hquery c hc
  -- the parts hold none of the characters that are cleaned away
  have hclean : cleanUrl (urlunsplit scheme netloc path query []) =
      urlunsplit scheme netloc path query [] := by
    refine cleanUrl_eq ?_ ?_
    · obtain ⟨⟨c, rest, rfl, hc⟩, -⟩ := hscheme
      rw [hurl]
      exact ⟨c, _, rfl, alpha_toNat hc⟩
    · have hschemefree : FreeOf [] scheme := fun c hc =>
        ⟨by simp, schemeChar_clean (hscheme.2.1 c hc)⟩
      have hslashes : FreeOf [] [':', '/', '/'] := .of_all (by decide)
      rw [hurl]
      have happend := (hschemefree.append hslashes).append
        ((hnetloc.mono (by simp)).append ((hpath.mono (by simp)).append (htailfree.mono (by simp))))
      simpa using happend
  -- the authority ends where the path, the query or the text ends
  have hstop : ∀ c ∈ (path ++ tail).head?, c = '/' ∨ c = '?' ∨ c = '#' := by
    intro c hc
    rcases hrooted with rfl | hhead
    · rw [List.nil_append, htail] at hc
      split at hc
      · cases hc
      · exact .inr (.inl (Option.some_inj.mp hc).symm)
    · rcases path with _ | ⟨d, path⟩
      · cases hhead
      · exact .inl ((Option.some_inj.mp hc).symm.trans (Option.some_inj.mp hhead))
  rw [urlsplit, hclean, hurl, splitScheme_join hscheme]
  dsimp only
  rw [splitAuthority_join hnetloc hstop]
  dsimp only
  -- without a fragment the text is not cut at its sign
  have hfragment : partition '#' (path ++ tail) = (path ++ tail, false, []) := by
    refine partition_of_notMem fun hmem => ?_
    rcases List.mem_append.mp hmem with h | h
    · exact hpath.notMem (by simp) h
    · exact htailfree.notMem (by simp) h
  have hquestion : '?' ∉ path := hpath.notMem (by simp)
  have hsplit : ∃ found, partition '?' (path ++ tail) = (path, found, query) := by
    rw [htail]
    by_cases hq : query = []
    · rw [if_pos hq, List.append_nil, partition_of_notMem hquestion, hq]
      exact ⟨_, rfl⟩
    · rw [if_neg hq, partition_append hquestion]
      exact ⟨_, rfl⟩
  obtain ⟨found, hsplit⟩ := hsplit
  rw [hfragment]
  dsimp only
  rw [hsplit]

/-! ### What splitting finds -/

/-- The parts of a split URL. -/
structure WellSplit (tables : UrlTables) (parsed : SplitResult) : Prop where
  netloc : FreeOf ['/', '?', '#'] parsed.netloc
  path : FreeOf ['?', '#'] parsed.path
  rooted : parsed.netloc ≠ [] → parsed.path = [] ∨ parsed.path.head? = some '/'
  query : FreeOf ['#'] parsed.query
  brackets : checkBrackets tables parsed.netloc = .ok ()
  allowed : checkNetloc tables parsed.netloc = .ok ()

theorem cleanUrl_free (url : List Char) : FreeOf [] (cleanUrl url) := by
  intro c hc
  have := (List.mem_filter.mp hc).2
  exact ⟨by simp, by simpa using this⟩

theorem splitScheme_subset (url : List Char) : ∀ c ∈ (splitScheme url).2, c ∈ url := by
  rw [splitScheme]
  dsimp only
  split
  · exact (partition_spec ':' url).2.2
  · exact fun c hc => hc

/-- What follows an authority starts at one of its ends. -/
theorem splitAuthority_spec {url : List Char} (h : FreeOf [] url) :
    FreeOf ['/', '?', '#'] (splitAuthority url).1 ∧ FreeOf [] (splitAuthority url).2 ∧
      ((splitAuthority url).1 ≠ [] →
        ∀ c ∈ (splitAuthority url).2.head?, c = '/' ∨ c = '?' ∨ c = '#') := by
  rw [splitAuthority.eq_def]
  split
  · rename_i rest
    have hrest : FreeOf [] rest := fun c hc =>
      h c (List.mem_cons_of_mem _ (List.mem_cons_of_mem _ hc))
    refine ⟨fun c hc => ⟨?_, (hrest c (List.takeWhile_sublist _ |>.subset hc)).2⟩,
      hrest.subset fun c hc => List.dropWhile_sublist _ |>.subset hc, fun _ c hc => ?_⟩
    · have := List.mem_takeWhile_imp hc
      simpa [not_or, and_assoc] using this
    · have hneg := List.head?_dropWhile_not (fun c => !(c == '/' || c == '?' || c == '#')) rest
      rw [Option.mem_def.mp hc] at hneg
      simp only [Bool.not_eq_false', Bool.or_eq_true, beq_iff_eq] at hneg
      exact or_assoc.mp hneg
  · exact ⟨nofun, h, fun hne => absurd rfl hne⟩

/-- **What the parts of a split URL are free of.** -/
theorem urlsplit_ok {tables : UrlTables} {url : List Char} {parsed : SplitResult}
    (h : urlsplit tables url = .ok parsed) : WellSplit tables parsed := by
  rw [urlsplit] at h
  have hrest : FreeOf [] (splitScheme (cleanUrl url)).2 :=
    (cleanUrl_free url).subset (splitScheme_subset _)
  -- what each cut leaves is free of the character it was cut at
  obtain ⟨hnetloc, htail, hend⟩ := splitAuthority_spec hrest
  generalize splitScheme (cleanUrl url) = schemeRest at *
  obtain ⟨scheme, rest⟩ := schemeRest
  dsimp only at h hnetloc htail hend
  generalize splitAuthority rest = authority at *
  obtain ⟨netloc, tail⟩ := authority
  dsimp only at h hnetloc htail hend
  obtain ⟨hhash, hbefore, -⟩ := partition_spec '#' tail
  obtain ⟨hquestion, hpath, hquery⟩ := partition_spec '?' (partition '#' tail).1
  rcases hbrackets : checkBrackets tables netloc with e | u
  · rw [hbrackets] at h
    cases h
  rcases hallowed : checkNetloc tables netloc with e | u
  · rw [hbrackets, hallowed] at h
    cases h
  rw [hbrackets, hallowed] at h
  cases h
  refine ⟨hnetloc, ?_, ?_, ?_, hbrackets, hallowed⟩
  · intro c hc
    refine ⟨?_, (htail c (hbefore c (hpath c hc))).2⟩
    rw [List.mem_cons, List.mem_singleton]
    rintro (rfl | rfl)
    · exact hquestion hc
    · exact hhash (hpath _ hc)
  · intro hne
    rcases tail with _ | ⟨c, tail⟩
    · exact .inl rfl
    · rcases hend hne c rfl with rfl | rfl | rfl
      · exact .inr rfl
      · exact .inl rfl
      · exact .inl rfl
  · intro c hc
    refine ⟨?_, (htail c (hbefore c (hquery c hc))).2⟩
    rw [List.mem_singleton]
    rintro rfl
    exact hhash (hquery _ hc)

/-! ### Quoting -/

theorem hexUpper_spec (n : ℕ) (hn : n < 16) :
    isAlwaysSafe (hexUpper n) = true ∧ hexUpper n ≠ '%' := by
  interval_cases n <;> decide

/-- Quoting writes safe characters and percent signs only. -/
theorem mem_quote {c : Char} {s : List Char} (h : c ∈ quote s) :
    isAlwaysSafe c = true ∨ c = '%' := by
  obtain ⟨d, -, hc⟩ := List.mem_flatMap.mp h
  rw [quoteChar] at hc
  split at hc
  · rw [List.mem_singleton.mp hc]
    exact .inl ‹_›
  · obtain ⟨b, -, hb⟩ := List.mem_flatMap.mp hc
    have hlt := b.toNat_lt
    simp only [percentByte, List.mem_cons, List.not_mem_nil, or_false] at hb
    rcases hb with rfl | rfl | rfl
    · exact .inr rfl
    · exact .inl (hexUpper_spec _ (by omega)).1
    · exact .inl (hexUpper_spec _ (by omega)).1

theorem length_quoteChar (c : Char) :
    1 ≤ (quoteChar c).length ∧ ((quoteChar c).length = 1 ↔ isAlwaysSafe c = true) ∧
      (isAlwaysSafe c = false → '%' ∈ quoteChar c) := by
  rw [quoteChar]
  split
  · simp_all
  · rename_i hc
    rcases hbytes : String.utf8EncodeChar c with _ | ⟨b, bytes⟩
    · have hlength := congrArg List.length hbytes
      have hpos := Char.utf8Size_pos c
      rw [String.length_utf8EncodeChar, List.length_nil] at hlength
      omega
    · simp only [List.flatMap_cons, percentByte, List.cons_append, List.length_cons]
      refine ⟨by omega, ⟨fun h => by omega, fun h => absurd h hc⟩, fun _ => List.mem_cons_self⟩

/-- Quoting never shortens a text, and keeps the length only of a safe one. -/
theorem quote_length (s : List Char) :
    s.length ≤ (quote s).length ∧
      ((quote s).length = s.length ↔ ∀ c ∈ s, isAlwaysSafe c = true) := by
  induction s with
  | nil => simp [quote]
  | cons c s ih =>
    obtain ⟨hle, hiff, -⟩ := length_quoteChar c
    have hcons : (quote (c :: s)).length = (quoteChar c).length + (quote s).length := by
      simp [quote]
    rw [hcons, List.length_cons, List.forall_mem_cons, ← hiff, ← ih.2]
    refine ⟨by omega, by omega⟩

/-- A safe text is quoted to itself. -/
theorem quote_of_safe {s : List Char} (h : ∀ c ∈ s, isAlwaysSafe c = true) : quote s = s := by
  induction s with
  | nil => rfl
  | cons c s ih =>
    have hc : quoteChar c = [c] := if_pos (h c List.mem_cons_self)
    have ih' : quote s = s := ih fun d hd => h d (List.mem_cons_of_mem _ hd)
    rw [quote] at ih' ⊢
    rw [List.flatMap_cons, hc, ih']
    rfl

/-- Quoting twice grows the text again unless it was safe. -/
theorem quote_quote_length {s : List Char} :
    (quote (quote s)).length = (quote s).length ↔ ∀ c ∈ s, isAlwaysSafe c = true := by
  rw [(quote_length (quote s)).2]
  constructor
  · intro h c hc
    by_contra hunsafe
    have hpercent := (length_quoteChar c).2.2 (by simpa using hunsafe)
    have := h '%' (List.mem_flatMap.mpr ⟨c, hc, hpercent⟩)
    revert this
    decide
  · intro h
    rw [quote_of_safe h]
    exact h

end Lsstack
