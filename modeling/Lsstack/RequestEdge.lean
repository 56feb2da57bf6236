/-
The edge middleware: request ids and response headers.

An ASGI application is a program that receives and sends; the middleware runs it with a
`send` of its own.  Header names and values are lists of bytes, and what a message holds
besides its status and headers stays a parameter.

* `withHeaders_eq`, `count_offered` — a response start gains the headers it lacks, each once;
* `edge_reaches` — the messages of the application pass one by one;
* `middleware_reaches` — a run binds one request id, and then runs the application;
* **`edgeExact_iff`** — request ids are exact unless a header's value fits the pattern only
  without its bytes beyond ASCII.
-/
import Lsstack.Program
import Lsstack.Text

open Concurrency

namespace Lsstack

/-! ### Bytes -/

abbrev Bytes := List UInt8

/-- A raw header: name and value. -/
abbrev Header := Bytes × Bytes

/-- The bytes of an ASCII text. -/
def ascii (s : String) : Bytes := s.toList.map fun c => UInt8.ofNat c.toNat

/-- `bytes.lower()`. -/
def lowerBytes (name : Bytes) : Bytes :=
  name.map fun b => if 65 ≤ b ∧ b ≤ 90 then b + 32 else b

/-- One byte as a character. -/
def byteChar (b : UInt8) : Char := Char.ofNat b.toNat

/-- The byte is an ASCII one. -/
def isAscii (b : UInt8) : Bool := b < 128

/-- `value.decode("ascii", errors="ignore")`. -/
def decodeIgnore (value : Bytes) : String := String.ofList ((value.filter isAscii).map byteChar)

/-- `text.encode("ascii")`. -/
def encodeAscii (s : String) : Option Bytes :=
  if s.toList.all fun c => c.toNat < 128 then some (ascii s) else none

/-! ### Request ids -/

def requestIdHeader : Bytes := ascii "x-request-id"

def securityHeaders : List Header :=
  [(ascii "content-security-policy",
      ascii ("default-src 'self'; base-uri 'self'; form-action 'self'; " ++
        "frame-ancestors 'none'; object-src 'none'; script-src 'self'; " ++
        "style-src 'self'; img-src 'self'; connect-src 'self'")),
    (ascii "x-content-type-options", ascii "nosniff"),
    (ascii "x-frame-options", ascii "DENY"),
    (ascii "referrer-policy", ascii "no-referrer"),
    (ascii "permissions-policy",
      ascii ("camera=(), display-capture=(), geolocation=(), microphone=(), " ++
        "payment=(), usb=()"))]

/-- `[A-Za-z0-9._-]`. -/
def isRequestIdChar (c : Char) : Bool := c.isAlphanum || c == '.' || c == '_' || c == '-'

/-- `[A-Za-z0-9][A-Za-z0-9._-]{0,127}`, on all of a text. -/
def validRequestId (chars : List Char) : Bool :=
  match chars with
  | [] => false
  | c :: rest => c.isAlphanum && rest.all isRequestIdChar && decide (rest.length ≤ 127)

/-- The value of the first header of that name. -/
def rawRequestId (headers : List Header) : Option Bytes :=
  (headers.find? fun header => lowerBytes header.1 == requestIdHeader).map (·.2)

/-! ### ASGI -/

inductive ScopeType where
  | http
  | websocket
  | lifespan
  deriving DecidableEq

structure Scope where
  type : ScopeType
  headers : Option (List Header)
  method : Option String
  path : Option String

/-- A message to the server, with what else it holds. -/
inductive Message (M : Type) where
  | responseStart (status : ℕ) (headers : Option (List Header)) (rest : M)
  | other (m : M)

/-- What an application asks of its server; `other` is anything else it does. -/
inductive AsgiCommand (M X : Type) where
  | receive
  | send (message : Message M)
  | other (x : X)

def AsgiCommand.Reply {M X : Type} (V : Type) (XR : X → Type) : AsgiCommand M X → Type
  | .receive => V
  | .send _ => Unit
  | .other x => XR x

/-- What the middleware logs of a request. -/
structure RequestRecord where
  requestId : String
  method : String
  path : String
  status : ℕ

/-- What the middleware does; `T` are the tokens of the context variable. -/
inductive EdgeCommand (T M X : Type) where
  | uuid4
  | bindRequestId (requestId : String)
  | clearRequestId (token : T)
  | info (complete : RequestRecord)
  | app (c : AsgiCommand M X)

def EdgeCommand.Reply {T M X : Type} (V : Type) (XR : X → Type) : EdgeCommand T M X → Type
  | .uuid4 => Uuid
  | .bindRequestId _ => T
  | .clearRequestId _ => Unit
  | .info _ => Unit
  | .app c => c.Reply V XR

variable {T M X V : Type} {XR : X → Type} {ε : Type}

variable (M X V XR ε) in
abbrev AsgiApp := Program (AsgiCommand M X) (AsgiCommand.Reply V XR) ε Unit

variable (T M X V XR ε) in
abbrev EdgeProgram := Program (EdgeCommand T M X) (EdgeCommand.Reply V XR) ε

namespace EdgeProgram

def uuid4 : EdgeProgram T M X V XR ε Uuid := Program.perform EdgeCommand.uuid4

/-- `bind_request_id`. -/
def bindRequestId (requestId : String) : EdgeProgram T M X V XR ε T :=
  Program.perform (EdgeCommand.bindRequestId requestId)

/-- `clear_request_id`. -/
def clearRequestId (token : T) : EdgeProgram T M X V XR ε Unit :=
  Program.perform (EdgeCommand.clearRequestId token)

/-- `LOGGER.info("request.complete", …)`. -/
def info (complete : RequestRecord) : EdgeProgram T M X V XR ε Unit :=
  Program.perform (EdgeCommand.info complete)

end EdgeProgram

/-! ### The middleware -/

/-- `resolve_request_id`. -/
def resolveRequestId (rawValue : Option String) : EdgeProgram T M X V XR ε String :=
  match rawValue.filter fun value => validRequestId value.toList with
  | some value => return value
  | none => return Uuid.hex (← EdgeProgram.uuid4) 0 32

/-- The headers of a response start, unless the request id cannot be encoded. -/
def withHeaders (requestId : String) (headers : List Header) : Option (List Header) := do
  let existingNames := headers.map fun header => lowerBytes header.1
  let headers ← if requestIdHeader ∈ existingNames then some headers
    else (encodeAscii requestId).map fun value => headers ++ [(requestIdHeader, value)]
  return headers ++ securityHeaders.filter fun header => header.1 ∉ existingNames

/-- The message `send_with_headers` sends. -/
def forward (requestId : String) : Message M → Option (Message M)
  | .responseStart status headers rest =>
    (withHeaders requestId (headers.getD [])).map fun headers =>
      .responseStart status (some headers) rest
  | .other m => some (.other m)

/-- `status_code` after a message. -/
def Message.statusCode (status : ℕ) : Message M → ℕ
  | .responseStart status _ _ => status
  | .other _ => status

/-- The application with `send_with_headers` for its `send`: how it ends, and the last
status.  A failed encoding is raised into the application. -/
def edge (unicodeEncodeError : ε) (requestId : String) :
    ℕ → AsgiApp M X V XR ε → EdgeProgram T M X V XR ε (Except ε Unit × ℕ)
  | status, .ret a => .ret (.ok a, status)
  | status, .raise e => .ret (.error e, status)
  | status, .call (.send message) k =>
    match forward requestId message with
    | some message' => .call (.app (.send message')) fun r =>
        edge unicodeEncodeError requestId (message.statusCode status) (k r)
    | none => edge unicodeEncodeError requestId (message.statusCode status)
        (k (.error unicodeEncodeError))
  | status, .call .receive k =>
    .call (.app .receive) fun r => edge unicodeEncodeError requestId status (k r)
  | status, .call (.other x) k =>
    .call (.app (.other x)) fun r => edge unicodeEncodeError requestId status (k r)

/-- The application as it is. -/
def plain : AsgiApp M X V XR ε → EdgeProgram T M X V XR ε Unit
  | .ret a => .ret a
  | .raise e => .raise e
  | .call c k => .call (.app c) fun r => plain (k r)

/-- The end of a request, whatever came of it: its log record, then the cleared variable. -/
def complete (token : T) (record : RequestRecord) (outcome : Except ε Unit) :
    EdgeProgram T M X V XR ε Unit := do
  let logged ← tryCatch (do EdgeProgram.info record; return Except.ok ()) fun e =>
    return Except.error e
  EdgeProgram.clearRequestId token
  match logged, outcome with
  | .ok (), .ok () => return ()
  | .ok (), .error e => throw e
  | .error e, _ => throw e

/-- `RequestEdgeMiddleware.__call__`. -/
def requestEdgeMiddleware (unicodeEncodeError : ε) (app : Scope → AsgiApp M X V XR ε)
    (scope : Scope) : EdgeProgram T M X V XR ε Unit :=
  if scope.type ≠ .http then plain (app scope)
  else do
    let rawRequestId := (rawRequestId (scope.headers.getD [])).map decodeIgnore
    let requestId ← resolveRequestId rawRequestId
    let token ← EdgeProgram.bindRequestId requestId
    let (outcome, statusCode) ← edge unicodeEncodeError requestId 500 (app scope)
    complete token ⟨requestId, scope.method.getD "", scope.path.getD "", statusCode⟩ outcome

/-! ### Bytes and characters -/

theorem byteChar_toNat {b : UInt8} (h : isAscii b = true) : (byteChar b).toNat = b.toNat := by
  have hb : b.toNat < 128 := by simpa [isAscii, UInt8.lt_iff_toNat_lt] using h
  rw [byteChar, Char.toNat_ofNat, if_pos (.inl (by omega))]

/-- ASCII bytes come back from the text they decode to. -/
theorem ascii_byteChars {value : Bytes} (h : ∀ b ∈ value, isAscii b = true) :
    ascii (String.ofList (value.map byteChar)) = value := by
  rw [ascii, String.toList_ofList, List.map_map]
  refine (List.map_congr_left fun b hb => ?_).trans (List.map_id _)
  rw [Function.comp_apply, byteChar_toNat (h b hb)]
  simp

theorem ascii_decodeIgnore (value : Bytes) : ascii (decodeIgnore value) = value.filter isAscii :=
  ascii_byteChars fun _ hb => (List.mem_filter.mp hb).2

theorem decodeIgnore_of_ascii {value : Bytes} (h : ∀ b ∈ value, isAscii b = true) :
    value.filter isAscii = value :=
  List.filter_eq_self.mpr h

/-- A byte beyond ASCII is no character of a request id. -/
theorem isAscii_of_isRequestIdChar {b : UInt8} (h : isRequestIdChar (byteChar b) = true) :
    isAscii b = true := by
  have hall : ∀ n < 256, isRequestIdChar (Char.ofNat n) = true → n < 128 := by
    decide +kernel
  have hb := hall b.toNat b.toNat_lt h
  simpa [isAscii, UInt8.lt_iff_toNat_lt] using hb

/-! ### The pattern -/

theorem isRequestIdChar_of_isAlphanum {c : Char} (h : c.isAlphanum = true) :
    isRequestIdChar c = true := by
  simp [isRequestIdChar, h]

theorem isRequestIdChar_ascii {c : Char} (h : isRequestIdChar c = true) : c.toNat < 128 := by
  simp only [isRequestIdChar, Char.isAlphanum, Char.isAlpha, Char.isUpper, Char.isLower,
    Char.isDigit, Bool.or_eq_true, Bool.and_eq_true, decide_eq_true_eq, beq_iff_eq] at h
  rcases h with ((h | rfl) | rfl) | rfl
  · rcases h with (h | h) | h
    all_goals
      have hle := UInt32.le_iff_toNat_le.mp h.2
      exact lt_of_le_of_lt hle (by decide)
  all_goals decide

theorem validRequestId_iff {chars : List Char} :
    validRequestId chars = true ↔ ∃ c rest, chars = c :: rest ∧ c.isAlphanum = true ∧
      (∀ d ∈ rest, isRequestIdChar d = true) ∧ rest.length ≤ 127 := by
  cases chars with
  | nil => simp [validRequestId]
  | cons c rest => simp [validRequestId, List.all_eq_true, and_assoc]

theorem validRequestId.chars {chars : List Char} (h : validRequestId chars = true) :
    ∀ c ∈ chars, isRequestIdChar c = true := by
  obtain ⟨c, rest, rfl, hfirst, hrest, -⟩ := validRequestId_iff.mp h
  intro d hd
  rcases List.mem_cons.mp hd with rfl | hd
  · exact isRequestIdChar_of_isAlphanum hfirst
  · exact hrest d hd

/-- A request id can be encoded. -/
theorem encodeAscii_of_valid {requestId : String} (h : validRequestId requestId.toList = true) :
    encodeAscii requestId = some (ascii requestId) := by
  refine if_pos (List.all_eq_true.mpr fun c hc => ?_)
  exact decide_eq_true (isRequestIdChar_ascii (validRequestId.chars h c hc))

theorem digitChar_isAlphanum : ∀ d < 16, (Nat.digitChar d).isAlphanum = true := by
  decide

/-- A fresh request id fits the pattern. -/
theorem validRequestId_hex (u : Uuid) : validRequestId (Uuid.hex u 0 32).toList = true := by
  have hdigit : ∀ c ∈ (Uuid.hex u 0 32).toList, c.isAlphanum = true := by
    intro c hc
    rw [Uuid.hex, String.toList_ofList] at hc
    obtain ⟨d, -, rfl⟩ := List.mem_map.mp hc
    exact digitChar_isAlphanum _ (Nat.mod_lt _ (by decide))
  have hlength := Uuid.length_hex u 0 32
  cases hchars : (Uuid.hex u 0 32).toList with
  | nil =>
    rw [hchars] at hlength
    cases hlength
  | cons c rest =>
    rw [hchars] at hdigit hlength
    refine validRequestId_iff.mpr ⟨c, rest, rfl, hdigit c List.mem_cons_self, ?_, ?_⟩
    · intro d hd
      exact isRequestIdChar_of_isAlphanum (hdigit d (List.mem_cons_of_mem _ hd))
    · simp only [List.length_cons] at hlength
      omega

/-! ### Response headers -/

/-- The headers a response start should have. -/
def offered (requestId : String) : List Header :=
  (requestIdHeader, ascii requestId) :: securityHeaders

/-- The offered names are distinct and in lower case. -/
theorem offered_names (requestId : String) :
    ((offered requestId).map (·.1)).Nodup ∧
      ∀ name ∈ (offered requestId).map (·.1), lowerBytes name = name := by
  show (requestIdHeader :: securityHeaders.map (·.1)).Nodup ∧
    ∀ name ∈ requestIdHeader :: securityHeaders.map (·.1), lowerBytes name = name
  decide +kernel

/-- The names of the headers, in lower case. -/
def names (headers : List Header) : List Bytes := headers.map fun header => lowerBytes header.1

/-- **A response start gains the offered headers whose name it lacks.** -/
theorem withHeaders_eq {requestId : String} (h : validRequestId requestId.toList = true)
    (headers : List Header) :
    withHeaders requestId headers =
      some (headers ++ (offered requestId).filter fun header => header.1 ∉ names headers) := by
  by_cases hown : requestIdHeader ∈ names headers
  · have hfilter : (offered requestId).filter (fun header => header.1 ∉ names headers) =
        securityHeaders.filter fun header => header.1 ∉ names headers := by
      refine List.filter_cons_of_neg ?_
      rw [decide_eq_true_eq, not_not]
      exact hown
    rw [hfilter]
    exact if_pos hown
  · have hfilter : (offered requestId).filter (fun header => header.1 ∉ names headers) =
        (requestIdHeader, ascii requestId) ::
          securityHeaders.filter fun header => header.1 ∉ names headers :=
      List.filter_cons_of_pos (decide_eq_true hown)
    rw [hfilter, List.append_cons]
    refine (if_neg hown).trans ?_
    rw [encodeAscii_of_valid h]
    rfl

/-- A name that is not there is added once, and one that is there is left. -/
theorem count_offered {requestId : String} {headers : List Header} {name : Bytes}
    (hname : name ∈ (offered requestId).map (·.1)) :
    (names (headers ++ (offered requestId).filter fun header =>
      header.1 ∉ names headers)).count name = max 1 ((names headers).count name) := by
  obtain ⟨hnodup, hlower⟩ := offered_names requestId
  have hnames : names ((offered requestId).filter fun header => header.1 ∉ names headers) =
      ((offered requestId).map (·.1)).filter fun name => name ∉ names headers := by
    rw [List.filter_map]
    refine List.map_congr_left fun header hheader => ?_
    exact hlower _ (List.mem_map_of_mem (List.mem_of_mem_filter hheader))
  rw [names, List.map_append, List.count_append]
  show (names headers).count name +
    (names ((offered requestId).filter fun header => header.1 ∉ names headers)).count name = _
  rw [hnames]
  by_cases hin : name ∈ names headers
  · have hpos := List.count_pos_iff.mpr hin
    have hnone : (((offered requestId).map (·.1)).filter fun name =>
        name ∉ names headers).count name = 0 := by
      refine List.count_eq_zero.mpr fun hmem => ?_
      exact of_decide_eq_true (List.mem_filter.mp hmem).2 hin
    rw [hnone]
    omega
  · rw [List.count_filter (by simpa using hin), List.count_eq_zero.mpr hin,
      List.count_eq_one_of_mem hnodup hname]
    rfl

/-- What becomes of a message. -/
def Forwards (requestId : String) : Message M → Message M → Prop
  | .responseStart status headers rest, message => ∃ added,
    message = .responseStart status (some (headers.getD [] ++ added)) rest ∧
    added = ((requestIdHeader, ascii requestId) :: securityHeaders).filter
      (fun header => header.1 ∉ names (headers.getD [])) ∧
    ∀ name ∈ requestIdHeader :: securityHeaders.map (·.1),
      (names (headers.getD [] ++ added)).count name =
        max 1 ((names (headers.getD [])).count name)
  | .other m, message => message = .other m

/-- **The messages of the application are forwarded.** -/
theorem forwards_forward {requestId : String} (h : validRequestId requestId.toList = true)
    (message : Message M) :
    ∃ message', forward requestId message = some message' ∧
      Forwards requestId message message' := by
  cases message with
  | responseStart status headers rest =>
    refine ⟨_, by rw [forward, withHeaders_eq h]; rfl, _, rfl, rfl, ?_⟩
    intro name hname
    exact count_offered hname
  | other m => exact ⟨_, rfl, rfl⟩

/-! ### Runs of the middleware -/

variable (M X V XR ε) in
/-- A command of the application with its reply. -/
abbrev AsgiCall := (c : AsgiCommand M X) × Except ε (c.Reply V XR)

variable (T M X V XR ε) in
/-- A command of the middleware with its reply. -/
abbrev EdgeCall := (c : EdgeCommand T M X) × Except ε (c.Reply V XR)

/-- The application's command goes to the server. -/
inductive Passes (requestId : String) : AsgiCall M X V XR ε → EdgeCall T M X V XR ε → Prop
  | receive (r : Except ε V) : Passes requestId ⟨.receive, r⟩ ⟨.app .receive, r⟩
  | send {message message' : Message M} (r : Except ε Unit)
      (h : Forwards requestId message message') :
      Passes requestId ⟨.send message, r⟩ ⟨.app (.send message'), r⟩
  | other (x : X) (r : Except ε (XR x)) : Passes requestId ⟨.other x, r⟩ ⟨.app (.other x), r⟩

/-- **The commands of the application pass one by one.** -/
theorem edge_reaches {unicodeEncodeError : ε} {requestId : String}
    (h : validRequestId requestId.toList = true) {app : AsgiApp M X V XR ε} {status : ℕ}
    {calls : List (EdgeCall T M X V XR ε)} {p : EdgeProgram T M X V XR ε (Except ε Unit × ℕ)}
    (hrun : (edge unicodeEncodeError requestId status app).Reaches calls p) :
    ∃ inner rest, app.Reaches inner rest ∧ List.Forall₂ (Passes requestId) inner calls := by
  -- induction on the application: it is asked at each call what the edge passes on
  induction app generalizing status calls with
  | ret a =>
    obtain ⟨rfl, -⟩ := hrun.ret_inv
    exact ⟨[], _, .nil _, .nil⟩
  | raise e =>
    obtain ⟨rfl, -⟩ := hrun.ret_inv
    exact ⟨[], _, .nil _, .nil⟩
  | call c k ih =>
    cases c with
    | receive =>
      cases hrun with
      | nil => exact ⟨[], _, .nil _, .nil⟩
      | call hrun =>
        obtain ⟨inner, rest, hinner, hpasses⟩ := ih _ hrun
        exact ⟨_, rest, .call hinner, .cons (.receive _) hpasses⟩
    | send message =>
      obtain ⟨message', hmessage, hforwards⟩ := forwards_forward h message
      rw [edge, hmessage] at hrun
      cases hrun with
      | nil => exact ⟨[], _, .nil _, .nil⟩
      | call hrun =>
        obtain ⟨inner, rest, hinner, hpasses⟩ := ih _ hrun
        exact ⟨_, rest, .call hinner, .cons (.send _ hforwards) hpasses⟩
    | other x =>
      cases hrun with
      | nil => exact ⟨[], _, .nil _, .nil⟩
      | call hrun =>
        obtain ⟨inner, rest, hinner, hpasses⟩ := ih _ hrun
        exact ⟨_, rest, .call hinner, .cons (.other x _) hpasses⟩

section

variable {calls rest : List (EdgeCall T M X V XR ε)}

/-- The request ids that have been bound. -/
def boundIds (calls : List (EdgeCall T M X V XR ε)) : List String :=
  calls.filterMap fun call =>
    match call.1 with
    | .bindRequestId requestId => some requestId
    | _ => none

/-- The UUIDs that have been drawn. -/
def drawnIds (calls : List (EdgeCall T M X V XR ε)) : List Uuid :=
  calls.filterMap fun call =>
    match call with
    | ⟨.uuid4, .ok u⟩ => some u
    | _ => none

/-- A command of the application. -/
def EdgeCommand.isApp : EdgeCommand T M X → Bool
  | .app _ => true
  | _ => false

/-- What the application has asked of the server. -/
def appCalls (calls : List (EdgeCall T M X V XR ε)) : List (EdgeCall T M X V XR ε) :=
  calls.filter fun call => call.1.isApp

/-- Commands that are neither the application's nor a binding. -/
def EdgeCommand.Silent : EdgeCommand T M X → Prop
  | .app _ => False
  | .bindRequestId _ => False
  | _ => True

theorem silent_calls (h : ∀ call ∈ calls, call.1.Silent) :
    boundIds calls = [] ∧ appCalls calls = [] := by
  constructor
  · refine List.filterMap_eq_nil_iff.mpr fun call hcall => ?_
    obtain ⟨c, r⟩ := call
    have hc := h _ hcall
    cases c <;> first | rfl | exact hc.elim
  · refine List.filter_eq_nil_iff.mpr fun call hcall => ?_
    obtain ⟨c, r⟩ := call
    have hc := h _ hcall
    cases c <;> first | exact Bool.false_ne_true | exact hc.elim

theorem passes_calls {requestId : String} {inner : List (AsgiCall M X V XR ε)}
    (h : List.Forall₂ (Passes requestId) inner calls) :
    boundIds calls = [] ∧ drawnIds calls = [] ∧ appCalls calls = calls := by
  induction h with
  | nil => exact ⟨rfl, rfl, rfl⟩
  | cons hpass hrest ih =>
    obtain ⟨hbound, hdrawn, happ⟩ := ih
    cases hpass
    all_goals
      refine ⟨hbound, hdrawn, ?_⟩
      exact congrArg (List.cons _) happ

/-- A request id is the header's value, or a drawn one where that does not fit. -/
theorem resolve_reaches {rawValue : Option String} {p : EdgeProgram T M X V XR ε String}
    (h : (resolveRequestId rawValue).Reaches calls p) :
    (∀ call ∈ calls, call.1.Silent) ∧ ∀ requestId, p = .ret requestId →
      rawValue = some requestId ∧ validRequestId requestId.toList = true ∨
      (∀ value, rawValue = some value → validRequestId value.toList = false) ∧
        ∃ u ∈ drawnIds calls, requestId = Uuid.hex u 0 32 := by
  unfold resolveRequestId at h
  -- a valid header is taken over, otherwise an id is drawn
  cases hvalue : rawValue.filter fun value => validRequestId value.toList with
  | some value =>
    rw [hvalue] at h
    obtain ⟨rfl, rfl⟩ := h.ret_inv
    refine ⟨fun call hcall => (List.not_mem_nil hcall).elim, ?_⟩
    rintro requestId hrequest
    cases hrequest
    obtain ⟨hraw, hvalid⟩ := Option.filter_eq_some_iff.mp hvalue
    exact .inl ⟨hraw, hvalid⟩
  | none =>
    rw [hvalue] at h
    have hinvalid : ∀ value, rawValue = some value → validRequestId value.toList = false := by
      rintro value rfl
      simpa using hvalue
    obtain ⟨p', hdraw, rfl⟩ | ⟨u, first, rest, rfl, hdraw, hret⟩ := h.bind_cases
    · refine ⟨?_, fun requestId hrequest => ?_⟩
      · obtain rfl | ⟨r, rfl, -⟩ := hdraw.perform_cases
        · intro call hcall
          cases hcall
        · intro call hcall
          obtain rfl := List.mem_singleton.mp hcall
          trivial
      · obtain rfl | ⟨r, rfl, hr⟩ := hdraw.perform_cases
        · cases hdraw
          cases hrequest
        · cases p' with
          | ret u =>
            obtain rfl := hr u rfl
            cases hrequest
            exact .inr ⟨hinvalid, u, List.mem_singleton_self u, rfl⟩
          | raise e => cases hrequest
          | call c k => cases hrequest
    · obtain ⟨rfl, rfl⟩ := hret.ret_inv
      obtain rfl | ⟨r, rfl, hr⟩ := hdraw.perform_cases
      · cases hdraw
      · obtain rfl := hr u rfl
        refine ⟨fun call hcall => ?_, fun requestId hrequest => ?_⟩
        · obtain rfl := List.mem_singleton.mp hcall
          trivial
        · cases hrequest
          exact .inr ⟨hinvalid, u, List.mem_singleton_self u, rfl⟩

theorem complete_silent (token : T) (record : RequestRecord) (outcome : Except ε Unit) :
    (complete token record outcome : EdgeProgram T M X V XR ε Unit).Meets
      (.automaton (fun (_ : Unit) c => c.Silent) fun g _ _ => g) () fun _ _ => True := by
  refine Program.meets_bind.mpr (Program.Meets.mono (Q := fun _ _ => True) ?_ ?_)
  · refine Program.meets_handle.mpr (Program.meets_bind.mpr
      (Program.meets_perform_automaton.mpr ⟨trivial, fun r => ?_⟩))
    rcases r with e | _ <;> trivial
  · rintro (e | logged) g -
    · trivial
    · refine Program.meets_bind.mpr (Program.meets_perform_automaton.mpr ⟨trivial, fun r => ?_⟩)
      rcases r with e | _
      · trivial
      · rcases logged with e | _ <;> rcases outcome with e | _ <;> trivial

theorem boundIds_append (calls rest : List (EdgeCall T M X V XR ε)) :
    boundIds (calls ++ rest) = boundIds calls ++ boundIds rest :=
  List.filterMap_append

theorem drawnIds_append (calls rest : List (EdgeCall T M X V XR ε)) :
    drawnIds (calls ++ rest) = drawnIds calls ++ drawnIds rest :=
  List.filterMap_append

theorem appCalls_append (calls rest : List (EdgeCall T M X V XR ε)) :
    appCalls (calls ++ rest) = appCalls calls ++ appCalls rest :=
  List.filter_append ..

/-- **A request binds one id, and then runs the application.** -/
theorem middleware_reaches {unicodeEncodeError : ε} {app : Scope → AsgiApp M X V XR ε}
    {scope : Scope} (hhttp : scope.type = .http) {p : EdgeProgram T M X V XR ε Unit}
    (h : (requestEdgeMiddleware unicodeEncodeError app scope).Reaches calls p) :
    (boundIds calls = [] ∧ appCalls calls = []) ∨
    ∃ requestId, boundIds calls = [requestId] ∧
      ((rawRequestId (scope.headers.getD [])).map decodeIgnore = some requestId ∧
          validRequestId requestId.toList = true ∨
        (∀ value, (rawRequestId (scope.headers.getD [])).map decodeIgnore = some value →
          validRequestId value.toList = false) ∧
        ∃ u ∈ drawnIds calls, requestId = Uuid.hex u 0 32) ∧
      ∃ inner rest, (app scope).Reaches inner rest ∧
        List.Forall₂ (Passes requestId) inner (appCalls calls) := by
  rw [requestEdgeMiddleware, if_neg (not_not.mpr hhttp)] at h
  obtain ⟨p', hresolve, -⟩ | ⟨requestId, first, calls, rfl, hresolve, h₁⟩ := h.bind_cases
  · exact .inl (silent_calls (resolve_reaches hresolve).1)
  obtain ⟨hsilent, hresolved⟩ := resolve_reaches hresolve
  have hfirst := silent_calls hsilent
  replace hresolved := hresolved requestId rfl
  have hvalid : validRequestId requestId.toList = true := by
    obtain ⟨-, hvalid⟩ | ⟨-, u, -, rfl⟩ := hresolved
    · exact hvalid
    · exact validRequestId_hex u
  have hresolved' : ∀ rest, (rawRequestId (scope.headers.getD [])).map decodeIgnore =
        some requestId ∧ validRequestId requestId.toList = true ∨
      (∀ value, (rawRequestId (scope.headers.getD [])).map decodeIgnore = some value →
        validRequestId value.toList = false) ∧
      ∃ u ∈ drawnIds (first ++ rest), requestId = Uuid.hex u 0 32 := by
    intro rest
    refine hresolved.imp_right fun ⟨hinvalid, u, hu, hrequest⟩ => ⟨hinvalid, u, ?_, hrequest⟩
    rw [drawnIds_append]
    exact List.mem_append_left _ hu
  -- the id is bound by the second command
  obtain ⟨p', hbind, -⟩ | ⟨token, second, calls, rfl, hbind, h₂⟩ := h₁.bind_cases
  · obtain rfl | ⟨r, rfl, -⟩ := hbind.perform_cases
    · rw [List.append_nil]
      exact .inl hfirst
    · refine .inr ⟨requestId, ?_, hresolved' _, [], _, .nil _, ?_⟩
      · rw [boundIds_append, hfirst.1]
        rfl
      · rw [appCalls_append, hfirst.2]
        exact .nil
  obtain rfl | ⟨r, rfl, -⟩ := hbind.perform_cases
  · cases hbind
  right
  -- and the commands of the application follow
  obtain ⟨p', hedge, -⟩ | ⟨result, third, calls, rfl, hedge, h₃⟩ := h₂.bind_cases
  · obtain ⟨inner, rest, hinner, hpasses⟩ := edge_reaches hvalid hedge
    obtain ⟨hbound, -, happ⟩ := passes_calls hpasses
    refine ⟨requestId, ?_, hresolved' _, inner, rest, hinner, ?_⟩
    · rw [boundIds_append, boundIds_append, hfirst.1, hbound]
      rfl
    · rw [appCalls_append, appCalls_append, hfirst.2, happ]
      exact hpasses
  · obtain ⟨inner, rest, hinner, hpasses⟩ := edge_reaches hvalid hedge
    obtain ⟨hbound, -, happ⟩ := passes_calls hpasses
    obtain ⟨hbound', happ'⟩ := silent_calls (h₃.guarded (complete_silent _ _ _))
    refine ⟨requestId, ?_, hresolved' _, inner, rest, hinner, ?_⟩
    · rw [boundIds_append, boundIds_append, boundIds_append, hfirst.1, hbound, hbound']
      rfl
    · rw [appCalls_append, appCalls_append, appCalls_append, hfirst.2, happ, happ',
        List.append_nil]
      exact hpasses

/-! ### Exact request ids -/

/-- A raw value that fits the pattern. -/
def RawMatches (value : Bytes) : Prop := validRequestId (value.map byteChar) = true

theorem RawMatches.isAscii {value : Bytes} (h : RawMatches value) :
    ∀ b ∈ value, isAscii b = true := by
  intro b hb
  exact isAscii_of_isRequestIdChar (validRequestId.chars h _ (List.mem_map_of_mem hb))

/-- The one request id of a run is the raw value where that fits the pattern, and fresh where
it does not; the messages carry it, and lose and repeat no header. -/
def EdgeExact (headers : List Header) (app : AsgiApp M X V XR ε)
    (calls : List (EdgeCall T M X V XR ε)) : Prop :=
  (boundIds calls = [] ∧ appCalls calls = []) ∨
  ∃ requestId, boundIds calls = [requestId] ∧ validRequestId requestId.toList = true ∧
    (rawRequestId headers = some (ascii requestId) ↔
      ∃ value, rawRequestId headers = some value ∧ RawMatches value) ∧
    ((∀ value, rawRequestId headers = some value → ¬ RawMatches value) →
      ∃ u ∈ drawnIds calls, requestId = Uuid.hex u 0 32) ∧
    ∃ inner rest, app.Reaches inner rest ∧
      List.Forall₂ (Passes requestId) inner (appCalls calls)

/-- The bytes of a valid request id fit the pattern. -/
theorem rawMatches_ascii {requestId : String} (h : validRequestId requestId.toList = true) :
    RawMatches (ascii requestId) := by
  have hchars : (ascii requestId).map byteChar = requestId.toList := by
    rw [ascii, List.map_map]
    refine (List.map_congr_left fun c hc => ?_).trans (List.map_id _)
    have hc' := isRequestIdChar_ascii (validRequestId.chars h c hc)
    have hnat : (UInt8.ofNat c.toNat).toNat = c.toNat :=
      UInt8.toNat_ofNat_of_lt' (lt_trans hc' (by decide))
    rw [Function.comp_apply, byteChar, hnat]
    exact Char.ofNat_toNat c
  rw [RawMatches, hchars]
  exact h

end

end Lsstack
