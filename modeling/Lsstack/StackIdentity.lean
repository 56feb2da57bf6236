/-
The identity of a development stack, kept in a file.

`load_config` writes the identity of a worktree as lines `KEY=value` and reads it back in later
runs.  What the operating system answers (resolved paths, digests, free ports) stays a
parameter.  Texts are lists of characters.

* `splitlines_dotenv` — lines without line boundaries are read as they were written;
* `readLine_dotenv` — one line sets one key, to the value without white space around it;
* **`persists_iff`** — an identity reads back exactly if the path of the worktree holds no
  line boundary and does not end with white space.
-/
import Lsstack.Urls

namespace Lsstack

/-! ### Texts -/

/-- Where `str.splitlines` ends a line. -/
def lineBoundaries : List Char :=
  ['\n', '\r', '\x0b', '\x0c', '\x1c', '\x1d', '\x1e', '\u0085', '\u2028', '\u2029']

/-- `str.splitlines`, with the current line so far. -/
def splitlinesFrom (line : List Char) : List Char → List (List Char)
  | [] => if line = [] then [] else [line]
  | '\r' :: '\n' :: cs => line :: splitlinesFrom [] cs
  | c :: cs =>
    if c ∈ lineBoundaries then line :: splitlinesFrom [] cs else splitlinesFrom (line ++ [c]) cs

def splitlines (text : List Char) : List (List Char) := splitlinesFrom [] text

/-- What reading a file in text mode makes of its line ends. -/
def universalNewlines : List Char → List Char
  | [] => []
  | '\r' :: '\n' :: cs => '\n' :: universalNewlines cs
  | c :: cs => (if c = '\r' then '\n' else c) :: universalNewlines cs

/-- `str.strip`. -/
def stripped (text : List Char) : List Char := (text.dropWhile isSpace).rdropWhile isSpace

/-- `str` of an integer. -/
def integerText : ℤ → List Char
  | .ofNat n => Nat.toDigits 10 n
  | .negSucc n => '-' :: Nat.toDigits 10 (n + 1)

/-- `unicodedata.decimal`, which knows the ASCII digits. -/
structure Decimals where
  digit : Char → Option ℕ
  digit_ascii : ∀ c : Char, c.isDigit = true → digit c = some (c.toNat - 48)

/-- The rest of a number, after the digits that make up `n`: an underscore may stand between
two digits. -/
def Decimals.readDigits (decimals : Decimals) (n : ℕ) : List Char → Option ℕ
  | [] => some n
  | '_' :: c :: cs => (decimals.digit c).bind fun d => decimals.readDigits (10 * n + d) cs
  | c :: cs => (decimals.digit c).bind fun d => decimals.readDigits (10 * n + d) cs

def Decimals.readNat (decimals : Decimals) : List Char → Option ℕ
  | [] => none
  | c :: cs => (decimals.digit c).bind fun d => decimals.readDigits d cs

/-- The white space that `int` passes over: that of `str.isspace` but for U+001C to U+001F. -/
def isIntSpace (c : Char) : Bool := isSpace c && !(28 ≤ c.toNat && c.toNat ≤ 31)

/-- `sys.get_int_max_str_digits()`, unless it has been set. -/
def maxStrDigits : ℕ := 4300

/-- A number whose digits are not too many to be converted. -/
def Decimals.readShort (decimals : Decimals) (cs : List Char) : Option ℕ :=
  if maxStrDigits < cs.countP (fun c => c ≠ '_') then none else decimals.readNat cs

/-- `int(text)`; `none` is its `ValueError`. -/
def Decimals.int (decimals : Decimals) (text : List Char) : Option ℤ :=
  match (text.dropWhile isIntSpace).rdropWhile isIntSpace with
  | '-' :: cs => (decimals.readShort cs).map fun n : ℕ => -(n : ℤ)
  | '+' :: cs => (decimals.readShort cs).map fun n : ℕ => (n : ℤ)
  | cs => (decimals.readShort cs).map fun n : ℕ => (n : ℤ)

/-! ### Dotenv files -/

/-- The values of a file, by key. -/
abbrev Dotenv := List Char → Option (List Char)

/-- `value[1:-1]` of a value in quotes. -/
def unquoted (value : List Char) : List Char :=
  if 2 ≤ value.length ∧ value.head? = value.getLast? ∧
      (value.head? = some '\'' ∨ value.head? = some '"') then value.tail.dropLast
  else value

/-- One line of a file. -/
def readLine (values : Dotenv) (rawLine : List Char) : Dotenv :=
  let line := stripped rawLine
  if line = [] ∨ line.head? = some '#' ∨ '=' ∉ line then values
  else
    let (key, _, value) := partition '=' line
    Function.update values (stripped key) (some (unquoted (stripped value)))

/-- `read_dotenv`; `none` is a missing file. -/
def readDotenv : Option (List Char) → Dotenv
  | none => fun _ => none
  | some text => (splitlines (universalNewlines text)).foldl readLine fun _ => none

/-- What `write_dotenv` writes. -/
def dotenvText (values : List (List Char × List Char)) : List Char :=
  values.flatMap fun (key, value) => key ++ '=' :: value ++ ['\n']

/-! ### The identity -/

structure StackConfig where
  root : List Char
  project : List Char
  appPort : ℤ
  postgresPort : ℤ
  nginxPort : ℤ
  grafanaPort : ℤ
  otlpGrpcPort : ℤ
  otlpHttpPort : ℤ
  deriving DecidableEq

/-- The six ports `_allocate_ports` returns. -/
structure Ports where
  app : ℤ
  postgres : ℤ
  nginx : ℤ
  grafana : ℤ
  otlpGrpc : ℤ
  otlpHttp : ℤ
  isPort : ∀ port ∈ [app, postgres, nginx, grafana, otlpGrpc, otlpHttp], 0 ≤ port ∧ port ≤ 65535

/-- A worktree on its machine: `ROOT`, `Path(·).resolve()` as a text, and
`sha256(·).hexdigest()`. -/
structure Worktree where
  root : List Char
  resolve : List Char → List Char
  hexdigest : List Char → List Char
  decimals : Decimals
  resolve_resolve : ∀ path, resolve (resolve path) = resolve path
  resolve_absolute : ∀ path, (resolve path).head? = some '/'
  hexdigest_hex : ∀ text, ∀ c ∈ hexdigest text, c ∈ "0123456789abcdef".toList

namespace Worktree

variable (worktree : Worktree)

/-- `str(ROOT.resolve())`. -/
def resolvedRoot : List Char := worktree.resolve worktree.root

/-- `STACK_ENV_FILE`. -/
def stackEnvFile : List Char := worktree.root ++ "/.run/stack.env".toList

/-- `_project_name`. -/
def projectName : List Char :=
  "lsstack-".toList ++ (worktree.hexdigest worktree.resolvedRoot).take 10

/-- `_config_from_values`, or the message of its `ToolError`. -/
def configFromValues (values : Dotenv) : Except (List Char) StackConfig :=
  let config : Option StackConfig := do
    return {
      root := ← values "LSSTACK_ROOT".toList
      project := ← values "COMPOSE_PROJECT_NAME".toList
      appPort := ← worktree.decimals.int (← values "APP_PORT".toList)
      postgresPort := ← worktree.decimals.int (← values "POSTGRES_PORT".toList)
      nginxPort := ← worktree.decimals.int (← values "NGINX_PORT".toList)
      grafanaPort := ← worktree.decimals.int (← values "GRAFANA_PORT".toList)
      otlpGrpcPort := ← worktree.decimals.int (← values "OTLP_GRPC_PORT".toList)
      otlpHttpPort := ← worktree.decimals.int (← values "OTLP_HTTP_PORT".toList) }
  match config with
  | none => .error (worktree.stackEnvFile ++
      " is incomplete or malformed; remove it and retry.".toList)
  | some config =>
    if worktree.resolve config.root ≠ worktree.resolvedRoot then
      .error (worktree.stackEnvFile ++ " belongs to ".toList ++ config.root ++
        ", not the current worktree.".toList)
    else
      .ok config

/-- The identity `load_config` allocates. -/
def allocated (ports : Ports) : StackConfig where
  root := worktree.resolvedRoot
  project := worktree.projectName
  appPort := ports.app
  postgresPort := ports.postgres
  nginxPort := ports.nginx
  grafanaPort := ports.grafana
  otlpGrpcPort := ports.otlpGrpc
  otlpHttpPort := ports.otlpHttp

end Worktree

/-- What `load_config` writes of an identity. -/
def StackConfig.values (config : StackConfig) : List (List Char × List Char) :=
  [("LSSTACK_ROOT".toList, config.root),
    ("COMPOSE_PROJECT_NAME".toList, config.project),
    ("APP_PORT".toList, integerText config.appPort),
    ("POSTGRES_PORT".toList, integerText config.postgresPort),
    ("NGINX_PORT".toList, integerText config.nginxPort),
    ("GRAFANA_PORT".toList, integerText config.grafanaPort),
    ("OTLP_GRPC_PORT".toList, integerText config.otlpGrpcPort),
    ("OTLP_HTTP_PORT".toList, integerText config.otlpHttpPort)]

/-- `load_config`: its result, and the file it leaves. -/
def Worktree.loadConfig (worktree : Worktree) (stackEnv : Option (List Char)) (create : Bool)
    (allocatePorts : Except (List Char) Ports) :
    Except (List Char) (Option StackConfig) × Option (List Char) :=
  match stackEnv with
  | some text => ((worktree.configFromValues (readDotenv (some text))).map some, some text)
  | none =>
    if create = false then (.ok none, none)
    else
      match allocatePorts with
      | .error e => (.error e, none)
      | .ok ports =>
        let config := worktree.allocated ports
        (.ok (some config), some (dotenvText config.values))

/-! ### Lines -/

/-- The text is a single line. -/
def Unbroken (text : List Char) : Prop := ∀ c ∈ text, c ∉ lineBoundaries

theorem Unbroken.append {a b : List Char} (ha : Unbroken a) (hb : Unbroken b) :
    Unbroken (a ++ b) := by
  intro c hc
  rcases List.mem_append.mp hc with hc | hc
  · exact ha c hc
  · exact hb c hc

theorem Unbroken.subset {a b : List Char} (hb : Unbroken b) (h : ∀ c ∈ a, c ∈ b) : Unbroken a :=
  fun c hc => hb c (h c hc)

/-- Lines hold no line boundary. -/
theorem splitlinesFrom_unbroken {line text : List Char} (hline : Unbroken line) :
    ∀ l ∈ splitlinesFrom line text, Unbroken l := by
  have hnil : Unbroken [] := fun c hc => (List.not_mem_nil hc).elim
  induction line, text using splitlinesFrom.induct with
  | case1 => simp [splitlinesFrom]
  | case2 line hne =>
    intro l hl
    rw [splitlinesFrom, if_neg hne, List.mem_singleton] at hl
    rw [hl]
    exact hline
  | case3 line cs ih =>
    rw [splitlinesFrom]
    exact List.forall_mem_cons.mpr ⟨hline, ih hnil⟩
  | case4 line c cs hcr hc ih =>
    rw [splitlinesFrom, if_pos hc]
    · exact List.forall_mem_cons.mpr ⟨hline, ih hnil⟩
    · exact hcr
  | case5 line c cs hcr hc ih =>
    rw [splitlinesFrom, if_neg hc]
    · refine ih (hline.append fun d hd => ?_)
      rw [List.mem_singleton.mp hd]
      exact hc
    · exact hcr

/-- A line is read up to its end. -/
theorem splitlinesFrom_append {text rest : List Char} (h : Unbroken text) (line : List Char) :
    splitlinesFrom line (text ++ '\n' :: rest) = (line ++ text) :: splitlinesFrom [] rest := by
  induction text generalizing line with
  | nil =>
    rw [List.nil_append, splitlinesFrom, if_pos (by decide), List.append_nil]
    intro _ hcr
    exact absurd hcr (by decide)
  | cons c text ih =>
    have hc := h c List.mem_cons_self
    rw [List.cons_append, splitlinesFrom, if_neg hc, ih fun d hd => h d (List.mem_cons_of_mem _ hd),
      List.append_assoc]
    · rfl
    · rintro _ rfl
      exact absurd (by decide) hc

theorem universalNewlines_of_notMem {text : List Char} (h : '\r' ∉ text) :
    universalNewlines text = text := by
  induction text with
  | nil => rfl
  | cons c text ih =>
    rw [List.mem_cons, not_or] at h
    rw [universalNewlines, if_neg (Ne.symm h.1), ih h.2]
    rintro _ rfl
    exact absurd rfl h.1

/-- **Lines are read as they were written.** -/
theorem splitlines_dotenv {values : List (List Char × List Char)}
    (h : ∀ item ∈ values, Unbroken item.1 ∧ Unbroken item.2) :
    splitlines (universalNewlines (dotenvText values)) =
      values.map fun item => item.1 ++ '=' :: item.2 := by
  have hline : ∀ item ∈ values, Unbroken (item.1 ++ '=' :: item.2) := by
    intro item hitem
    refine (h item hitem).1.append (List.forall_mem_cons.mpr ⟨by decide, (h item hitem).2⟩)
  have hcr : '\r' ∉ dotenvText values := by
    intro hmem
    obtain ⟨item, hitem, hmem⟩ := List.mem_flatMap.mp hmem
    rcases List.mem_append.mp hmem with hmem | hmem
    · exact hline item hitem _ hmem (by decide)
    · exact absurd (List.mem_singleton.mp hmem) (by decide)
  rw [universalNewlines_of_notMem hcr, splitlines]
  clear h hcr
  induction values with
  | nil => rfl
  | cons item values ih =>
    have hsplit : dotenvText (item :: values) =
        (item.1 ++ '=' :: item.2) ++ '\n' :: dotenvText values := by
      simp [dotenvText]
    rw [hsplit, splitlinesFrom_append (hline item List.mem_cons_self), List.map_cons,
      ih fun item' hitem' => hline item' (List.mem_cons_of_mem _ hitem')]
    rfl

/-! ### One line -/

theorem mem_stripped {text : List Char} {c : Char} (h : c ∈ stripped text) : c ∈ text :=
  (List.dropWhile_suffix isSpace).subset ((List.rdropWhile_prefix isSpace _).subset h)

theorem mem_unquoted {value : List Char} {c : Char} (h : c ∈ unquoted value) : c ∈ value := by
  unfold unquoted at h
  split at h
  · exact List.mem_of_mem_tail (List.mem_of_mem_dropLast h)
  · exact h

/-- Without white space there is nothing to strip. -/
theorem strip_eq_self {space : Char → Bool} {text : List Char} (h : ∀ c ∈ text, space c = false) :
    (text.dropWhile space).rdropWhile space = text := by
  have hdrop : text.dropWhile space = text := by
    rw [List.dropWhile_eq_self_iff]
    intro hpos
    rw [h _ (List.getElem_mem hpos)]
    exact Bool.false_ne_true
  rw [hdrop, List.rdropWhile_eq_self_iff]
  intro hne
  rw [h _ (List.getLast_mem hne)]
  exact Bool.false_ne_true

theorem stripped_of_not_space {text : List Char} (h : ∀ c ∈ text, isSpace c = false) :
    stripped text = text :=
  strip_eq_self h

/-- A text that starts with a character is stripped on the right only. -/
theorem stripped_cons {c : Char} {text : List Char} (h : isSpace c = false) :
    stripped (c :: text) = (c :: text).rdropWhile isSpace := by
  rw [stripped, List.dropWhile_cons, if_neg (by rw [h]; exact Bool.false_ne_true)]

theorem rdropWhile_append_cons {a b : List Char} {c : Char} (h : isSpace c = false) :
    (a ++ c :: b).rdropWhile isSpace = a ++ c :: b.rdropWhile isSpace := by
  rw [List.rdropWhile, List.rdropWhile, List.reverse_append, List.reverse_cons, List.append_assoc,
    List.dropWhile_append]
  split
  · rename_i hnil
    have hb := List.isEmpty_iff.mp hnil
    rw [hb, List.singleton_append, List.dropWhile_cons,
      if_neg (by rw [h]; exact Bool.false_ne_true)]
    simp
  · simp

/-- White space at the end is stripped anyway. -/
theorem stripped_rdropWhile (text : List Char) :
    stripped (text.rdropWhile isSpace) = stripped text := by
  cases hdrop : text.dropWhile isSpace with
  | nil =>
    have hall := List.dropWhile_eq_nil_iff.mp hdrop
    rw [List.rdropWhile_eq_nil_iff.mpr hall, stripped, stripped, hdrop]
    rfl
  | cons c rest =>
    have hc : isSpace c = false := by
      have hnot := List.head_dropWhile_not isSpace (l := text) (by rw [hdrop]; simp)
      simpa [hdrop] using hnot
    have htext : text = text.takeWhile isSpace ++ c :: rest := by
      rw [← hdrop, List.takeWhile_append_dropWhile]
    have hfront : ∀ d ∈ text.takeWhile isSpace, isSpace d = true :=
      fun d hd => List.mem_takeWhile_imp hd
    have hstripped : ∀ back, stripped (text.takeWhile isSpace ++ c :: back) =
        c :: back.rdropWhile isSpace := by
      intro back
      rw [stripped, List.dropWhile_append_of_pos hfront, List.dropWhile_cons,
        if_neg (by rw [hc]; exact Bool.false_ne_true)]
      exact rdropWhile_append_cons (a := []) hc
    rw [htext, rdropWhile_append_cons hc, hstripped, hstripped, List.rdropWhile_idempotent]

/-- A key of a file. -/
def IsKey (key : List Char) : Prop :=
  key ≠ [] ∧ ∀ c ∈ key, isSpace c = false ∧ c ≠ '=' ∧ c ≠ '#' ∧ c ∉ lineBoundaries

theorem IsKey.of_all {key : List Char} (h : key ≠ []) (hall : key.all (fun c =>
    decide (isSpace c = false ∧ c ≠ '=' ∧ c ≠ '#' ∧ c ∉ lineBoundaries)) = true) : IsKey key :=
  ⟨h, List.all_iff_forall_prop.mp hall⟩

/-- **A line sets its key.** -/
theorem readLine_dotenv {key : List Char} (h : IsKey key) (values : Dotenv) (value : List Char) :
    readLine values (key ++ '=' :: value) =
      Function.update values key (some (unquoted (stripped value))) := by
  obtain ⟨hne, hkey⟩ := h
  have hequals : isSpace '=' = false := by decide
  have hstripped : stripped (key ++ '=' :: value) = key ++ '=' :: value.rdropWhile isSpace := by
    obtain ⟨c, rest, rfl⟩ := List.exists_cons_of_ne_nil hne
    rw [List.cons_append, stripped_cons (hkey c List.mem_cons_self).1, ← List.cons_append,
      rdropWhile_append_cons hequals]
  have hnotMem : '=' ∉ key := fun hmem => (hkey _ hmem).2.1 rfl
  have hvalue : ¬ (key ++ '=' :: value.rdropWhile isSpace = [] ∨
      (key ++ '=' :: value.rdropWhile isSpace).head? = some '#' ∨
      '=' ∉ key ++ '=' :: value.rdropWhile isSpace) := by
    obtain ⟨c, rest, rfl⟩ := List.exists_cons_of_ne_nil hne
    have hhash := (hkey c List.mem_cons_self).2.2.1
    simp [hhash]
  unfold readLine
  rw [hstripped]
  dsimp only
  rw [if_neg hvalue, partition_append hnotMem, stripped_rdropWhile,
    stripped_of_not_space fun c hc => (hkey c hc).1]

/-- What is read of a line comes from the line. -/
theorem readLine_unbroken {values : Dotenv} {rawLine : List Char} (hline : Unbroken rawLine)
    (hvalues : ∀ key value, values key = some value → Unbroken value) :
    ∀ key value, readLine values rawLine key = some value → Unbroken value := by
  intro key value hvalue
  unfold readLine at hvalue
  dsimp only at hvalue
  split at hvalue
  · exact hvalues key value hvalue
  · rw [Function.update_apply] at hvalue
    split at hvalue
    · obtain rfl := Option.some_inj.mp hvalue
      refine hline.subset fun c hc => ?_
      exact mem_stripped ((partition_spec '=' _).2.2 c (mem_stripped (mem_unquoted hc)))
    · exact hvalues key value hvalue

/-- **No value holds a line boundary.** -/
theorem readDotenv_unbroken {text : List Char} {key value : List Char}
    (h : readDotenv (some text) key = some value) : Unbroken value := by
  have hlines : ∀ line ∈ splitlines (universalNewlines text), Unbroken line :=
    splitlinesFrom_unbroken fun c hc => (List.not_mem_nil hc).elim
  have hfold : ∀ (lines : List (List Char)) (values : Dotenv),
      (∀ line ∈ lines, Unbroken line) →
      (∀ key value, values key = some value → Unbroken value) →
      ∀ key value, lines.foldl readLine values key = some value → Unbroken value := by
    intro lines
    induction lines with
    | nil => exact fun values _ hvalues => hvalues
    | cons line lines ih =>
      intro values hlines hvalues
      obtain ⟨hline, hrest⟩ := List.forall_mem_cons.mp hlines
      exact ih _ hrest (readLine_unbroken hline hvalues)
  exact hfold _ _ hlines (fun _ _ hnone => by cases hnone) key value h

/-- **A file of such lines is read as the values it was made of.** -/
theorem readDotenv_dotenvText {values : List (List Char × List Char)}
    (hkeys : ∀ item ∈ values, IsKey item.1) (hvalues : ∀ item ∈ values, Unbroken item.2) :
    readDotenv (some (dotenvText values)) = values.foldl (fun (read : Dotenv) item =>
      Function.update read item.1 (some (unquoted (stripped item.2)))) fun _ => none := by
  have hunbroken : ∀ item ∈ values, Unbroken item.1 ∧ Unbroken item.2 :=
    fun item hitem => ⟨fun c hc => ((hkeys item hitem).2 c hc).2.2.2, hvalues item hitem⟩
  rw [readDotenv, splitlines_dotenv hunbroken, List.foldl_map]
  refine List.foldl_ext _ _ _ fun read item hitem => ?_
  exact readLine_dotenv (hkeys item hitem) read item.2

/-- Distinct keys keep their values. -/
theorem foldl_update {g : List Char → List Char} {values : List (List Char × List Char)}
    (hnodup : (values.map (·.1)).Nodup) {key value : List Char} (h : (key, value) ∈ values)
    (read : Dotenv) :
    values.foldl (fun (read : Dotenv) item => Function.update read item.1 (some (g item.2)))
      read key =
      some (g value) := by
  have hother : ∀ (values : List (List Char × List Char)) (read : Dotenv),
      key ∉ values.map (·.1) → values.foldl (fun (read : Dotenv) item =>
        Function.update read item.1 (some (g item.2))) read key = read key := by
    intro values
    induction values with
    | nil => exact fun _ _ => rfl
    | cons item values ih =>
      intro read hkey
      rw [List.map_cons, List.mem_cons, not_or] at hkey
      rw [List.foldl_cons, ih _ hkey.2, Function.update_of_ne hkey.1]
  induction values generalizing read with
  | nil => cases h
  | cons item values ih =>
    rw [List.map_cons, List.nodup_cons] at hnodup
    rw [List.foldl_cons]
    rcases List.mem_cons.mp h with rfl | h
    · rw [hother _ _ hnodup.1, Function.update_self]
    · exact ih hnodup.2 h _

/-! ### Integers -/

theorem Decimals.readDigits_eq (decimals : Decimals) {cs : List Char}
    (h : ∀ c ∈ cs, c.isDigit = true) (n : ℕ) :
    decimals.readDigits n cs = some (Nat.ofDigitChars 10 cs n) := by
  induction cs generalizing n with
  | nil => rfl
  | cons c cs ih =>
    obtain ⟨hc, hcs⟩ := List.forall_mem_cons.mp h
    rw [readDigits, decimals.digit_ascii c hc, Option.bind_some, ih hcs]
    · rfl
    · rintro _ _ rfl
      exact absurd hc (by decide)

theorem Decimals.readNat_toDigits (decimals : Decimals) (n : ℕ) :
    decimals.readNat (Nat.toDigits 10 n) = some n := by
  have hdigits : ∀ c ∈ Nat.toDigits 10 n, c.isDigit = true :=
    fun c hc => Nat.isDigit_of_mem_toDigits (by decide) (by decide) hc
  have hvalue : Nat.ofDigitChars 10 (Nat.toDigits 10 n) 0 = n := Nat.ofDigitChars_ten_toDigits
  cases htext : Nat.toDigits 10 n with
  | nil => exact absurd htext Nat.toDigits_ne_nil
  | cons c cs =>
    rw [htext] at hdigits hvalue
    obtain ⟨hc, hcs⟩ := List.forall_mem_cons.mp hdigits
    have hfirst : Nat.ofDigitChars 10 cs (c.toNat - 48) = Nat.ofDigitChars 10 (c :: cs) 0 := by
      rw [Nat.ofDigitChars_eq_foldl, Nat.ofDigitChars_eq_foldl, List.foldl_cons, Nat.mul_zero,
        Nat.zero_add]
      rfl
    rw [readNat, decimals.digit_ascii c hc, Option.bind_some, decimals.readDigits_eq hcs, hfirst,
      hvalue]

/-- The characters of a number. -/
theorem mem_integerText {n : ℤ} {c : Char} (h : c ∈ integerText n) :
    c.isDigit = true ∨ c = '-' := by
  cases n with
  | ofNat n => exact .inl (Nat.isDigit_of_mem_toDigits (by decide) (by decide) h)
  | negSucc n =>
    rcases List.mem_cons.mp h with h | h
    · exact .inr h
    · exact .inl (Nat.isDigit_of_mem_toDigits (by decide) (by decide) h)

theorem isSpace_digit {c : Char} (h : c.isDigit = true) : isSpace c = false := by
  have hc : 48 ≤ c.toNat ∧ c.toNat ≤ 57 := Char.isDigit_iff_toNat.mp h
  simp only [isSpace, Bool.or_eq_false_iff, Bool.and_eq_false_iff, decide_eq_false_iff_not,
    beq_eq_false_iff_ne]
  omega

theorem integerText_not_space {n : ℤ} : ∀ c ∈ integerText n, isSpace c = false := by
  intro c hc
  rcases mem_integerText hc with hc | rfl
  · exact isSpace_digit hc
  · decide

/-- **A port is read back.** -/
theorem Decimals.int_integerText (decimals : Decimals) {port : ℤ} (h : 0 ≤ port ∧ port ≤ 65535) :
    decimals.int (integerText port) = some port := by
  have hspace : ∀ c ∈ integerText port, isIntSpace c = false := by
    intro c hc
    rw [isIntSpace, integerText_not_space c hc, Bool.false_and]
  rw [Decimals.int, strip_eq_self hspace]
  obtain ⟨n, rfl⟩ := Int.eq_ofNat_of_zero_le h.1
  have hdigits : ∀ c ∈ Nat.toDigits 10 n, c.isDigit = true :=
    fun c hc => Nat.isDigit_of_mem_toDigits (by decide) (by decide) hc
  -- a port has five digits at most, so no limit of the length is reached
  have hlength : (Nat.toDigits 10 n).length ≤ 5 :=
    (Nat.length_toDigits_le_iff (by decide) (by decide)).mpr (by omega)
  have hfew : ¬ maxStrDigits < (Nat.toDigits 10 n).countP fun c => c ≠ '_' := by
    have hcount := (Nat.toDigits 10 n).countP_le_length (p := fun c => decide (c ≠ '_'))
    rw [maxStrDigits]
    omega
  have hread : decimals.readShort (Nat.toDigits 10 n) = some n := by
    rw [readShort, if_neg hfew, decimals.readNat_toDigits]
  show (match Nat.toDigits 10 n with
    | '-' :: cs => (decimals.readShort cs).map fun n : ℕ => -(n : ℤ)
    | '+' :: cs => (decimals.readShort cs).map fun n : ℕ => (n : ℤ)
    | cs => (decimals.readShort cs).map fun n : ℕ => (n : ℤ)) = _
  split
  · rename_i htext
    rw [htext] at hdigits
    exact absurd (hdigits '-' List.mem_cons_self) (by decide)
  · rename_i htext
    rw [htext] at hdigits
    exact absurd (hdigits '+' List.mem_cons_self) (by decide)
  · rw [hread]
    rfl

/-! ### Reading an identity back -/

/-- A text that reads back: a single line with nothing to strip or to unquote. -/
theorem unquoted_stripped {c : Char} {text : List Char} (hspace : isSpace c = false)
    (hquote : c ≠ '\'' ∧ c ≠ '"') :
    unquoted (stripped (c :: text)) = c :: text.rdropWhile isSpace := by
  have hstripped : stripped (c :: text) = c :: text.rdropWhile isSpace := by
    rw [stripped_cons hspace]
    exact rdropWhile_append_cons (a := []) hspace
  rw [hstripped, unquoted, if_neg]
  rintro ⟨-, -, h | h⟩
  · exact hquote.1 (Option.some_inj.mp h)
  · exact hquote.2 (Option.some_inj.mp h)

/-- No white space, and no quote at the front. -/
def Plain (text : List Char) : Prop :=
  (∀ c ∈ text, isSpace c = false) ∧ text.head? ≠ some '\'' ∧ text.head? ≠ some '"'

theorem Plain.unbroken {text : List Char} (h : Plain text) : Unbroken text := by
  have hspace : ∀ c ∈ lineBoundaries, isSpace c = true := List.all_iff_forall_prop.mp (by decide)
  intro c hc hboundary
  have hc' := h.1 c hc
  rw [hspace c hboundary] at hc'
  cases hc'

theorem Plain.reads {text : List Char} (h : Plain text) : unquoted (stripped text) = text := by
  rw [stripped_of_not_space h.1, unquoted, if_neg]
  rintro ⟨-, -, hquote | hquote⟩
  · exact h.2.1 hquote
  · exact h.2.2 hquote

theorem plain_integerText (n : ℤ) : Plain (integerText n) := by
  refine ⟨integerText_not_space, fun h => ?_, fun h => ?_⟩
  all_goals
    rcases mem_integerText (List.mem_of_mem_head? h) with h' | h'
    all_goals exact absurd h' (by decide)

namespace Worktree

variable (worktree : Worktree)

theorem plain_projectName : Plain worktree.projectName := by
  have hname : ∀ c ∈ "lsstack-".toList, isSpace c = false :=
    List.all_iff_forall_prop.mp (by decide)
  have hhex : ∀ c ∈ "0123456789abcdef".toList, isSpace c = false :=
    List.all_iff_forall_prop.mp (by decide)
  refine ⟨fun c hc => ?_, ?_, ?_⟩
  · rcases List.mem_append.mp hc with hc | hc
    · exact hname c hc
    · exact hhex c (worktree.hexdigest_hex _ c (List.mem_of_mem_take hc))
  · exact fun h => absurd (Option.some_inj.mp h) (by decide)
  · exact fun h => absurd (Option.some_inj.mp h) (by decide)

/-- The keys of the file. -/
theorem isKey_values {config : StackConfig} : ∀ item ∈ config.values, IsKey item.1 := by
  have hall : ∀ key ∈ ["LSSTACK_ROOT".toList, "COMPOSE_PROJECT_NAME".toList, "APP_PORT".toList,
      "POSTGRES_PORT".toList, "NGINX_PORT".toList, "GRAFANA_PORT".toList,
      "OTLP_GRPC_PORT".toList, "OTLP_HTTP_PORT".toList], IsKey key := by
    intro key hkey
    simp only [List.mem_cons, List.not_mem_nil, or_false] at hkey
    rcases hkey with rfl | rfl | rfl | rfl | rfl | rfl | rfl | rfl
    all_goals exact IsKey.of_all (by decide) (by decide)
  intro item hitem
  exact hall item.1 (List.mem_map_of_mem (f := (·.1)) hitem)

theorem nodup_values {config : StackConfig} : (config.values.map (·.1)).Nodup := by
  show ["LSSTACK_ROOT".toList, "COMPOSE_PROJECT_NAME".toList, "APP_PORT".toList,
    "POSTGRES_PORT".toList, "NGINX_PORT".toList, "GRAFANA_PORT".toList,
    "OTLP_GRPC_PORT".toList, "OTLP_HTTP_PORT".toList].Nodup
  decide

/-- What is read of an identity whose root is a single line. -/
theorem readDotenv_values {ports : Ports} (h : Unbroken worktree.resolvedRoot)
    {key value : List Char} (hitem : (key, value) ∈ (worktree.allocated ports).values) :
    readDotenv (some (dotenvText (worktree.allocated ports).values)) key =
      some (unquoted (stripped value)) := by
  have hvalues : ∀ item ∈ (worktree.allocated ports).values, Unbroken item.2 := by
    intro item hitem
    simp only [StackConfig.values, allocated, List.mem_cons, List.not_mem_nil, or_false] at hitem
    rcases hitem with rfl | rfl | rfl | rfl | rfl | rfl | rfl | rfl
    · exact h
    · exact worktree.plain_projectName.unbroken
    all_goals exact (plain_integerText _).unbroken
  rw [readDotenv_dotenvText isKey_values hvalues]
  exact foldl_update (g := fun value => unquoted (stripped value)) nodup_values hitem _

theorem configFromValues_root {values : Dotenv} {config : StackConfig}
    (h : worktree.configFromValues values = .ok config) :
    values "LSSTACK_ROOT".toList = some config.root := by
  unfold configFromValues at h
  dsimp only at h
  split at h
  · cases h
  · rename_i config' hconfig
    split at h
    · cases h
    · cases h
      cases hroot : values "LSSTACK_ROOT".toList with
      | none =>
        rw [hroot] at hconfig
        cases hconfig
      | some root =>
        simp only [hroot, Option.bind_eq_bind, Option.bind_some, Option.bind_eq_some_iff,
          Option.pure_def, Option.some.injEq] at hconfig
        obtain ⟨_, -, _, -, _, -, _, -, _, -, _, -, _, -, _, -, _, -, _, -, _, -, _, -, _, -,
          rfl⟩ :=
          hconfig
        rfl

/-- `load_config` returns the identity it allocates, and every later call returns it again. -/
def Persists (ports : Ports) : Prop :=
  ∃ text, worktree.loadConfig none true (.ok ports) =
      (.ok (some (worktree.allocated ports)), some text) ∧
    worktree.configFromValues (readDotenv (some text)) = .ok (worktree.allocated ports) ∧
    ∀ create allocatePorts, worktree.loadConfig (some text) create allocatePorts =
      (.ok (some (worktree.allocated ports)), some text)

/-- **An identity persists** exactly if the path of the worktree is a single line that does
not end with white space. -/
theorem persists_iff (ports : Ports) :
    worktree.Persists ports ↔
      (∀ c ∈ worktree.resolvedRoot, c ∉ lineBoundaries) ∧
      ∀ c ∈ worktree.resolvedRoot.getLast?, isSpace c = false := by
  obtain ⟨rest, hroot⟩ : ∃ rest, worktree.resolvedRoot = '/' :: rest :=
    List.head?_eq_some_iff.mp (worktree.resolve_absolute _)
  -- what is read back is the root without the white space at its end
  have hreads : unquoted (stripped worktree.resolvedRoot) =
      worktree.resolvedRoot.rdropWhile isSpace := by
    rw [hroot, unquoted_stripped (by decide) (by decide)]
    exact (rdropWhile_append_cons (a := []) (by decide)).symm
  have hlast : worktree.resolvedRoot.rdropWhile isSpace = worktree.resolvedRoot ↔
      ∀ c ∈ worktree.resolvedRoot.getLast?, isSpace c = false := by
    have hne : worktree.resolvedRoot ≠ [] := by rw [hroot]; exact List.cons_ne_nil _ _
    rw [List.rdropWhile_eq_self_iff, List.getLast?_eq_some_getLast hne]
    simp [hne]
  have hitem : ("LSSTACK_ROOT".toList, worktree.resolvedRoot) ∈
      (worktree.allocated ports).values := List.mem_cons_self
  constructor
  -- if the block persists, the root is one line and ends in no white space
  · rintro ⟨text, hfirst, hconfig, -⟩
    obtain rfl : dotenvText (worktree.allocated ports).values = text :=
      Option.some_inj.mp (congrArg Prod.snd hfirst)
    have hread := worktree.configFromValues_root hconfig
    have hunbroken : Unbroken worktree.resolvedRoot := readDotenv_unbroken hread
    refine ⟨hunbroken, hlast.mp ?_⟩
    rw [worktree.readDotenv_values hunbroken hitem, hreads] at hread
    exact Option.some_inj.mp hread
  -- each value is read back as it was written, and the ports are ports
  · rintro ⟨hunbroken, hspace⟩
    have hlookup : ∀ item ∈ (worktree.allocated ports).values,
        readDotenv (some (dotenvText (worktree.allocated ports).values)) item.1 =
          some (unquoted (stripped item.2)) :=
      fun item hitem => worktree.readDotenv_values hunbroken hitem
    have hinteger : ∀ n : ℤ, unquoted (stripped (integerText n)) = integerText n :=
      fun n => (plain_integerText n).reads
    simp only [StackConfig.values, allocated, List.forall_mem_cons, hreads,
      hlast.mpr hspace, worktree.plain_projectName.reads, hinteger] at hlookup
    obtain ⟨h₁, h₂, h₃, h₄, h₅, h₆, h₇, h₈, -⟩ := hlookup
    have hconfig : worktree.configFromValues
        (readDotenv (some (dotenvText (worktree.allocated ports).values))) =
        .ok (worktree.allocated ports) := by
      unfold configFromValues
      obtain ⟨p₁, p₂, p₃, p₄, p₅, p₆, -⟩ : _ := by
        simpa only [List.forall_mem_cons] using ports.isPort
      simp only [allocated, StackConfig.values, h₁, h₂, h₃, h₄, h₅, h₆, h₇, h₈,
        Decimals.int_integerText _ p₁, Decimals.int_integerText _ p₂, Decimals.int_integerText _ p₃,
        Decimals.int_integerText _ p₄, Decimals.int_integerText _ p₅, Decimals.int_integerText _ p₆,
        Option.bind_eq_bind, Option.bind_some, Option.pure_def]
      exact if_neg (not_not.mpr (worktree.resolve_resolve _))
    refine ⟨_, rfl, hconfig, fun create allocatePorts => ?_⟩
    rw [loadConfig, hconfig]
    rfl

end Worktree

/-- The ASCII digits. -/
def asciiDecimals : Decimals where
  digit := fun c => if c.isDigit then some (c.toNat - 48) else none
  digit_ascii := fun _ hc => if_pos hc

theorem absolute_absolute (path : List Char) :
    (if path.head? = some '/' then path else '/' :: path).head? = some '/' := by
  split
  · assumption
  · rfl

/-- The worktree `/srv/lsstack␣` on a machine without links. -/
def spacedWorktree : Worktree where
  root := "/srv/lsstack ".toList
  resolve := fun path => if path.head? = some '/' then path else '/' :: path
  hexdigest := fun _ => ("4cfa0ccf58b71a9f1790a4e25b7e1d56" ++
    "6ecfe390ab7274d1d3f6bdb6090a0e76").toList
  decimals := asciiDecimals
  resolve_resolve := fun path => if_pos (absolute_absolute path)
  resolve_absolute := absolute_absolute
  hexdigest_hex := fun _ => List.all_iff_forall_prop.mp (by decide)

/-- **A worktree whose path ends with a space** loses its identity. -/
theorem persists_violated : ¬ ∀ (worktree : Worktree) (ports : Ports), worktree.Persists ports := by
  intro h
  obtain ⟨text, hfirst, hconfig, -⟩ :=
    h spacedWorktree ⟨8000, 5432, 8080, 3000, 4317, 4318, by decide⟩
  obtain rfl := Option.some_inj.mp (congrArg Prod.snd hfirst)
  exact absurd hconfig (by decide +kernel)

end Lsstack
