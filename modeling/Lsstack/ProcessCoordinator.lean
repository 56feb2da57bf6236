/-
The host processes of a development stack.

`_start_process` and `_stop_process` keep a map of the processes they have launched, and signal
a process only after `pid_owned` has recognised it.  The operating system ends processes and
reuses their pids between the calls and while they sleep.  Times are in milliseconds.

* `Os.wait_over` — the loop that waits for a process ends;
* `stopProcess_cases` — a stop signals nothing, or what it has recognised;
* `startProcess_launched` — a start launches nothing beside a live process;
* **`coordinated_iff`** — a run goes by the rules exactly if no process is replaced while a
  stop waits for it.
-/
import Lsstack.Dictionary
import Lsstack.Domain

namespace Lsstack

/-! ### The operating system -/

/-- A process as `kill` and `ps` show it. -/
structure OsProcess where
  pid : ℤ
  group : ℤ
  /-- `ps -o lstart=`. -/
  lstart : String
  /-- `ps -o command=`. -/
  command : String
  /-- It may be signalled. -/
  permitted : Bool

structure Os where
  processes : List OsProcess
  monotonic : ℤ

/-- What the operating system does by itself; a process that shows another command is one that
ends and one that starts. -/
inductive OsStep where
  | ends (pid status : ℤ)
  | starts (process : OsProcess)

/-- What it does during a sleep, and by how much the sleep is longer than asked for. -/
structure Slept where
  steps : List OsStep
  late : ℕ

inductive ToolException where
  | toolError (message : String)
  | keyError (key : String)
  | overflowError
  | processLookupError
  | permissionError
  | osError

namespace Os

def find (os : Os) (pid : ℤ) : Option OsProcess :=
  if 0 < pid then Dictionary.get OsProcess.pid os.processes pid else none

def step (os : Os) : OsStep → Os
  | .ends pid _ => { os with processes := Dictionary.erase OsProcess.pid os.processes pid }
  | .starts process =>
    if (os.find process.pid).isSome then os
    else { os with processes := Dictionary.set OsProcess.pid os.processes process }

def sleep (duration : ℕ) (os : Os) (slept : Slept) : Os :=
  { slept.steps.foldl step os with monotonic := os.monotonic + duration + slept.late }

/-- The values of a C `int`. -/
def fitsInt (n : ℤ) : Bool := decide (-2 ^ 31 ≤ n ∧ n < 2 ^ 31)

/-- The group has a process. -/
def hasGroup (os : Os) (group : ℤ) : Bool := os.processes.any fun process => process.group == group

/-- `kill(pid, 0)` finds a process. -/
def answers (os : Os) (pid : ℤ) : Bool :=
  if 0 < pid then (os.find pid).isSome
  else if pid = 0 ∨ pid = -1 then true
  else os.hasGroup (-pid)

/-- `pid_alive`. -/
def pidAlive (os : Os) (pid : ℤ) : Except ToolException Bool :=
  if fitsInt pid then .ok (os.answers pid) else .error .overflowError

/-- What `ps -p` shows for such a pid; it refuses `True` and `False`. -/
def ps (os : Os) : JsonValue → Option OsProcess
  | .int pid => os.find pid
  | _ => none

/-- `_pid_command`. -/
def pidCommand (os : Os) (pid : JsonValue) : String :=
  match os.ps pid with
  | none => ""
  | some process => strip process.command

/-- `_pid_started_signature`. -/
def pidStartedSignature (os : Os) (pid : JsonValue) : String :=
  match os.ps pid with
  | none => ""
  | some process => strip process.lstart

/-- `os.getpgid`. -/
def getpgid (os : Os) (pid : ℤ) : Except ToolException ℤ :=
  match os.find pid with
  | none => .error .processLookupError
  | some process => .ok process.group

/-- `os.killpg` sends its signal; groups 0 and 1 are the caller's own and everybody's. -/
def killpg (os : Os) (group : ℤ) : Except ToolException Unit :=
  if ¬ fitsInt group then .error .overflowError
  else if group < 0 then .error .osError
  else if group ≤ 1 then .ok ()
  else if ¬ os.hasGroup group then .error .processLookupError
  else if os.processes.any fun process => process.group == group && process.permitted then .ok ()
  else .error .permissionError

/-- `subprocess.Popen`; the new process leads a session. -/
def popen (os : Os) (process : OsProcess) : Except ToolException Os :=
  if 0 < process.pid ∧ (os.find process.pid).isNone ∧ process.group = process.pid then
    .ok { os with processes := Dictionary.set OsProcess.pid os.processes process }
  else .error .osError

end Os

/-! ### The process map -/

/-- A JSON object. -/
abbrev JsonObject := List (String × JsonValue)

def JsonObject.get (values : JsonObject) (key : String) : Option JsonValue :=
  (Dictionary.get Prod.fst values key).map Prod.snd

/-- `isinstance(value, int)`; a `bool` is one. -/
def intOf : Option JsonValue → Option ℤ
  | some (.int n) => some n
  | some (.bool b) => some (if b then 1 else 0)
  | _ => none

/-- How such a value is printed. -/
def intText : Option JsonValue → String
  | some (.int n) => toString n
  | some (.bool true) => "True"
  | some (.bool false) => "False"
  | _ => ""

/-- `PROCESS_COMMANDS`. -/
def processCommands : List (String × List String) :=
  [("app", ["uv", "run", "litestar", "run"]),
    ("worker", ["uv", "run", "litestar", "workers", "run"])]

/-- `pid_owned`. -/
def Os.pidOwned (os : Os) (name : String) (metadata : JsonObject) : Except ToolException Bool :=
  match intOf (metadata.get "pid") with
  | none => .ok false
  | some pid =>
    match os.pidAlive pid with
    | .error e => .error e
    | .ok false => .ok false
    | .ok true =>
      match metadata.get "pid", metadata.get "started_signature" with
      | some shown, some (.str startedSignature) =>
        if startedSignature = "" ∨ os.pidStartedSignature shown ≠ startedSignature then .ok false
        else
          match Dictionary.get Prod.fst processCommands name with
          | none => .error (.keyError name)
          | some (_, command) =>
            let expected := " ".intercalate (command.drop 2)
            .ok (contains expected (os.pidCommand shown))
      | _, _ => .ok false

inductive Signal where
  | sigterm
  | sigkill
  deriving DecidableEq

inductive Action where
  | launched (name : String) (pid : ℤ)
  | signalled (group : ℤ) (signal : Signal)
  deriving DecidableEq

/-- An action, with the operating system and the map it has met. -/
structure Event where
  os : Os
  processes : JsonObject
  action : Action

/-- The coordinator: its map, the one in `processes.json`, and what it has done. -/
structure Coordinator where
  os : Os
  processes : JsonObject
  saved : JsonObject
  events : List Event

/-- The metadata of a process, if the map holds an object under its name. -/
def recorded (processes : JsonObject) (name : String) : Option JsonObject :=
  match processes.get name with
  | some (.dict metadata) => some metadata
  | _ => none

/-- What a launch meets. -/
structure Launch where
  process : OsProcess
  startup : Slept
  startedAt : String
  log : String
  tail : String

/-- The status with which the process ends during the sleep. -/
def Slept.exitStatus (slept : Slept) (pid : ℤ) : Option ℤ :=
  slept.steps.findSome? fun
    | .ends pid' status => if pid' = pid then some status else none
    | .starts _ => none

namespace Coordinator

/-- `_save_processes`. -/
def save (c : Coordinator) : Coordinator := { c with saved := c.processes }

def pop (c : Coordinator) (name : String) : Coordinator :=
  { c with processes := Dictionary.erase Prod.fst c.processes name }.save

def record (c : Coordinator) (action : Action) : Coordinator :=
  { c with events := c.events ++ [⟨c.os, c.processes, action⟩] }

/-- `os.killpg`. -/
def killpg (c : Coordinator) (group : ℤ) (signal : Signal) :
    Except ToolException Unit × Coordinator :=
  match c.os.killpg group with
  | .error e => (.error e, c)
  | .ok () => (.ok (), c.record (.signalled group signal))

/-- `_start_process` from its log file on. -/
def launch (c : Coordinator) (name : String) (command : List String) (launch : Launch) :
    Except ToolException String × Coordinator :=
  match c.os.popen launch.process with
  | .error e => (.error e, c)
  | .ok os =>
    let pid := launch.process.pid
    let c := { c.record (.launched name pid) with os := os }
    let startedSignature := c.os.pidStartedSignature (.int pid)
    match c.os.getpgid pid with
    | .error e => (.error e, c)
    | .ok pgid =>
      if startedSignature = "" then
        match c.killpg pgid .sigterm with
        | (.error e, c) => (.error e, c)
        | (.ok (), c) =>
          (.error (.toolError
            s!"Could not record an ownership signature for {name} PID {pid}."), c)
      else
        let metadata : JsonValue := .dict
          [("pid", .int pid), ("pgid", .int pgid), ("command", .list (command.map .str)),
            ("started_signature", .str startedSignature), ("started_at", .str launch.startedAt),
            ("log", .str launch.log)]
        let c := { c with processes := Dictionary.set Prod.fst c.processes (name, metadata) }.save
        let c := { c with os := c.os.sleep 750 launch.startup }
        match launch.startup.exitStatus pid with
        | some status =>
          (.error (.toolError (s!"{name} exited during startup with status {status}.\n" ++
            s!"\x2d\x2d\x2d {name} log \x2d\x2d\x2d\n{launch.tail}")), c.pop name)
        | none => (.ok s!"started {name} as PID {pid}", c)

/-- `_start_process`. -/
def startProcess (c : Coordinator) (name : String) (command : List String) (launch : Launch) :
    Except ToolException String × Coordinator :=
  match recorded c.processes name with
  | none => c.launch name command launch
  | some metadata =>
    match intOf (metadata.get "pid") with
    | none => (c.pop name).launch name command launch
    | some pid =>
      let shown := intText (metadata.get "pid")
      match c.os.pidAlive pid with
      | .error e => (.error e, c)
      | .ok false => (c.pop name).launch name command launch
      | .ok true =>
        match c.os.pidOwned name metadata with
        | .error e => (.error e, c)
        | .ok false =>
          (.error (.toolError (s!"PID {shown} recorded for {name} is a foreign process; " ++
            "refusing to replace or stop it.")), c)
        | .ok true => (.ok s!"{name} already running as PID {shown}", c)

end Coordinator

/-- The loop of `_stop_process`: `n` bounds its rounds. -/
def Os.wait (pid deadline : ℤ) : ℕ → (ℕ → Slept) → Os → Os
  | 0, _, os => os
  | n + 1, sleeps, os =>
    if os.answers pid ∧ os.monotonic < deadline then
      wait pid deadline n (fun k => sleeps (k + 1)) (os.sleep 100 (sleeps 0))
    else os

/-- The rounds up to the deadline, each of at least 100 milliseconds. -/
def rounds (timeout : ℤ) : ℕ := (timeout / 100).toNat + 1

/-- The group that a stop signals. -/
def Os.targetGroup (os : Os) (metadata : JsonObject) (pid : ℤ) : Except ToolException ℤ :=
  match intOf (metadata.get "pgid") with
  | some pgid => .ok pgid
  | none => os.getpgid pid

namespace Coordinator

/-- `_stop_process` from its first signal on. -/
def terminate (c : Coordinator) (name : String) (metadata : JsonObject) (pid group timeout : ℤ)
    (sleeps : ℕ → Slept) : Except ToolException String × Coordinator :=
  match c.killpg group .sigterm with
  | (.error e, c) => (.error e, c)
  | (.ok (), c) =>
    let deadline := c.os.monotonic + timeout
    let c := { c with os := c.os.wait pid deadline (rounds timeout) sleeps }
    let shown := intText (metadata.get "pid")
    let stopped := s!"stopped {name} PID {shown}"
    if c.os.answers pid then
      match c.killpg group .sigkill with
      | (.error e, c) => (.error e, c)
      | (.ok (), c) => (.ok stopped, c.pop name)
    else (.ok stopped, c.pop name)

/-- `_stop_process`. -/
def stopProcess (c : Coordinator) (name : String) (timeout : ℤ) (sleeps : ℕ → Slept) :
    Except ToolException String × Coordinator :=
  match recorded c.processes name with
  | none => (.ok s!"{name} is not recorded", c)
  | some metadata =>
    match intOf (metadata.get "pid") with
    | none => (.ok s!"removed malformed {name} metadata", c.pop name)
    | some pid =>
      let shown := intText (metadata.get "pid")
      match c.os.pidAlive pid with
      | .error e => (.error e, c)
      | .ok false => (.ok s!"removed stale {name} PID {shown}", c.pop name)
      | .ok true =>
        match c.os.pidOwned name metadata with
        | .error e => (.error e, c)
        | .ok false =>
          (.error (.toolError (s!"PID {shown} recorded for {name} no longer matches; " ++
            "refusing to kill it.")), c)
        | .ok true =>
          match c.os.targetGroup metadata pid with
          | .error e => (.error e, c)
          | .ok group => c.terminate name metadata pid group timeout sleeps

end Coordinator

/-! ### The loop that waits -/

namespace Os

/-- After the first `k` sleeps. -/
def slept : ℕ → (ℕ → Slept) → Os → Os
  | 0, _, os => os
  | k + 1, sleeps, os => slept k (fun n => sleeps (n + 1)) (os.sleep 100 (sleeps 0))

/-- A wait for the end of the process is over after `k` sleeps, and not before. -/
structure WaitsFor (os : Os) (pid deadline : ℤ) (sleeps : ℕ → Slept) (k : ℕ) : Prop where
  before : ∀ j < k,
    (os.slept j sleeps).answers pid = true ∧ (os.slept j sleeps).monotonic < deadline
  ended : ¬ ((os.slept k sleeps).answers pid = true ∧ (os.slept k sleeps).monotonic < deadline)

variable {os : Os} {pid deadline : ℤ} {sleeps : ℕ → Slept} {k k' : ℕ}

theorem WaitsFor.unique (h : os.WaitsFor pid deadline sleeps k)
    (h' : os.WaitsFor pid deadline sleeps k') : k = k' := by
  obtain hlt | heq | hlt := Nat.lt_trichotomy k k'
  · exact absurd (h'.before k hlt) h.ended
  · exact heq
  · exact absurd (h.before k' hlt) h'.ended

/-- **The loop ends**: every round brings the deadline nearer by 100 milliseconds. -/
theorem wait_over (n : ℕ) (hn : deadline ≤ os.monotonic + 100 * n) :
    ∃ k, os.WaitsFor pid deadline sleeps k ∧ os.wait pid deadline n sleeps = os.slept k sleeps := by
  induction n generalizing os sleeps with
  | zero =>
    refine ⟨0, ⟨fun j hj => absurd hj (Nat.not_lt_zero j), ?_⟩, rfl⟩
    rintro ⟨-, hlt⟩
    rw [slept] at hlt
    omega
  | succ n ih =>
    by_cases hwaits : os.answers pid = true ∧ os.monotonic < deadline
    · have hlater : deadline ≤ (os.sleep 100 (sleeps 0)).monotonic + 100 * n := by
        rw [sleep]
        push_cast at hn ⊢
        omega
      obtain ⟨k, hk, hwait⟩ : ∃ k, (os.sleep 100 (sleeps 0)).WaitsFor pid deadline
          (fun n => sleeps (n + 1)) k ∧ _ = _ := ih hlater
      refine ⟨k + 1, ⟨fun j hj => ?_, hk.ended⟩, ?_⟩
      · cases j with
        | zero => exact hwaits
        | succ j => exact hk.before j (Nat.lt_of_succ_lt_succ hj)
      · rw [wait, if_pos hwaits, hwait]
        rfl
    · refine ⟨0, ⟨fun j hj => absurd hj (Nat.not_lt_zero j), hwaits⟩, ?_⟩
      rw [wait, if_neg hwaits]
      rfl

theorem wait_rounds (timeout : ℤ) :
    ∃ k, os.WaitsFor pid (os.monotonic + timeout) sleeps k ∧
      os.wait pid (os.monotonic + timeout) (rounds timeout) sleeps = os.slept k sleeps := by
  apply wait_over
  rw [rounds]
  omega

end Os

/-! ### Stops and starts -/

namespace Coordinator

/-- A live process is recorded under the name. -/
def Live (c : Coordinator) (name : String) : Prop :=
  ∃ metadata pid, recorded c.processes name = some metadata ∧
    intOf (metadata.get "pid") = some pid ∧ c.os.pidAlive pid = .ok true

/-- The recorded pid is alive, and not owned. -/
def Foreign (c : Coordinator) (name : String) : Prop :=
  ∃ metadata pid, recorded c.processes name = some metadata ∧
    intOf (metadata.get "pid") = some pid ∧ c.os.pidAlive pid = .ok true ∧
    c.os.pidOwned name metadata = .ok false

variable {c : Coordinator} {name : String} {command : List String} {l : Launch}
  {metadata : JsonObject} {pid group timeout : ℤ} {sleeps : ℕ → Slept} {k : ℕ}

theorem stopProcess_of_foreign (h : c.Foreign name) :
    ∃ message, c.stopProcess name timeout sleeps = (.error (.toolError message), c) := by
  obtain ⟨metadata, pid, hrecorded, hpid, halive, howned⟩ := h
  simp only [stopProcess, hrecorded, hpid, halive, howned]
  exact ⟨_, rfl⟩

theorem startProcess_of_foreign (h : c.Foreign name) :
    ∃ message, c.startProcess name command l = (.error (.toolError message), c) := by
  obtain ⟨metadata, pid, hrecorded, hpid, halive, howned⟩ := h
  simp only [startProcess, hrecorded, hpid, halive, howned]
  exact ⟨_, rfl⟩

/-- A start beside a live process does nothing. -/
theorem startProcess_of_live (h : c.Live name) : (c.startProcess name command l).2 = c := by
  obtain ⟨metadata, pid, hrecorded, hpid, halive⟩ := h
  simp only [startProcess, hrecorded, hpid, halive]
  cases c.os.pidOwned name metadata with
  | error e => rfl
  | ok owned => cases owned <;> rfl

theorem killpg_ok {signal : Signal} (h : c.os.killpg group = .ok ()) :
    c.killpg group signal = (.ok (), c.record (.signalled group signal)) := by
  rw [killpg, h]

theorem killpg_error {signal : Signal} {e : ToolException} (h : c.os.killpg group = .error e) :
    c.killpg group signal = (.error e, c) := by
  rw [killpg, h]

/-- **A stop signals nothing**, or the group of a process that is owned. -/
theorem stopProcess_cases (c : Coordinator) (name : String) (timeout : ℤ) (sleeps : ℕ → Slept) :
    (c.stopProcess name timeout sleeps).2.events = c.events ∨
    ∃ metadata pid group, recorded c.processes name = some metadata ∧
      intOf (metadata.get "pid") = some pid ∧ c.os.pidOwned name metadata = .ok true ∧
      c.os.targetGroup metadata pid = .ok group ∧ c.os.killpg group = .ok () ∧
      c.stopProcess name timeout sleeps = c.terminate name metadata pid group timeout sleeps := by
  -- each check that is not passed ends the call without a signal
  rcases hrecorded : recorded c.processes name with _ | metadata
  · left
    simp only [stopProcess, hrecorded]
  rcases hpid : intOf (metadata.get "pid") with _ | pid
  · left
    simp only [stopProcess, hrecorded, hpid]
    rfl
  rcases halive : c.os.pidAlive pid with e | alive
  · left
    simp only [stopProcess, hrecorded, hpid, halive]
  cases alive with
  | false =>
    left
    simp only [stopProcess, hrecorded, hpid, halive]
    rfl
  | true =>
    rcases howned : c.os.pidOwned name metadata with e | owned
    · left
      simp only [stopProcess, hrecorded, hpid, halive, howned]
    cases owned with
    | false =>
      left
      simp only [stopProcess, hrecorded, hpid, halive, howned]
    | true =>
      rcases hgroup : c.os.targetGroup metadata pid with e | group
      · left
        simp only [stopProcess, hrecorded, hpid, halive, howned, hgroup]
      have hstop : c.stopProcess name timeout sleeps =
          c.terminate name metadata pid group timeout sleeps := by
        simp only [stopProcess, hrecorded, hpid, halive, howned, hgroup]
      -- the first signal is sent, or refused
      rcases hkill : c.os.killpg group with e | u
      · left
        rw [hstop, terminate, killpg_error hkill]
      · exact .inr ⟨metadata, pid, group, rfl, hpid, howned, hgroup, hkill, hstop⟩

/-- The wait of a stop. -/
theorem wait_eq (hwait : c.os.WaitsFor pid (c.os.monotonic + timeout) sleeps k) :
    c.os.wait pid (c.os.monotonic + timeout) (rounds timeout) sleeps = c.os.slept k sleeps := by
  obtain ⟨k', hk', heq⟩ : ∃ k', c.os.WaitsFor pid (c.os.monotonic + timeout) sleeps k' ∧
      c.os.wait pid (c.os.monotonic + timeout) (rounds timeout) sleeps = c.os.slept k' sleeps :=
    Os.wait_rounds timeout
  obtain rfl := hwait.unique hk'
  exact heq

/-- The stop of an owned process that does not end in time. -/
theorem terminate_escalates (hkill : c.os.killpg group = .ok ())
    (hwait : c.os.WaitsFor pid (c.os.monotonic + timeout) sleeps k)
    (halive : (c.os.slept k sleeps).answers pid = true)
    (hkill' : (c.os.slept k sleeps).killpg group = .ok ()) :
    (c.terminate name metadata pid group timeout sleeps).2.events = c.events ++
      [⟨c.os, c.processes, .signalled group .sigterm⟩,
        ⟨c.os.slept k sleeps, c.processes, .signalled group .sigkill⟩] := by
  have hos : (c.record (.signalled group .sigterm)).os = c.os := rfl
  simp only [terminate, killpg_ok hkill, hos, wait_eq hwait, halive, if_true]
  rw [killpg_ok hkill']
  exact List.append_assoc ..

/-- The stop of an owned process whose group is not signalled again. -/
theorem terminate_ends (hkill : c.os.killpg group = .ok ())
    (hwait : c.os.WaitsFor pid (c.os.monotonic + timeout) sleeps k)
    (hends : (c.os.slept k sleeps).answers pid = true →
      ∃ e, (c.os.slept k sleeps).killpg group = .error e) :
    (c.terminate name metadata pid group timeout sleeps).2.events = c.events ++
      [⟨c.os, c.processes, .signalled group .sigterm⟩] := by
  have hos : (c.record (.signalled group .sigterm)).os = c.os := rfl
  simp only [terminate, killpg_ok hkill, hos, wait_eq hwait]
  split
  · rename_i halive
    obtain ⟨e, he⟩ := hends halive
    rw [killpg_error he]
    rfl
  · rfl

/-- What a launch does: it launches its process, and signals only that one. -/
theorem launch_events {event : Event} (hmem : event ∈ (c.launch name command l).2.events) :
    event ∈ c.events ∨ event.action = .launched name l.process.pid ∨
      ∃ group, event.action = .signalled group .sigterm := by
  rcases hpopen : c.os.popen l.process with e | os
  · simp only [launch, hpopen] at hmem
    exact .inl hmem
  have hlaunched : ∀ event ∈ (c.record (.launched name l.process.pid)).events,
      event ∈ c.events ∨ event.action = .launched name l.process.pid ∨
        ∃ group, event.action = .signalled group .sigterm := by
    intro event hmem
    rcases List.mem_append.mp hmem with hmem | hmem
    · exact .inl hmem
    · exact .inr (.inl (congrArg Event.action (List.mem_singleton.mp hmem)))
  simp only [launch, hpopen] at hmem
  rcases hpgid : os.getpgid l.process.pid with e | pgid
  · simp only [hpgid] at hmem
    exact hlaunched event hmem
  simp only [hpgid] at hmem
  split at hmem
  · rcases hkill : os.killpg pgid with e | u
    · rw [killpg_error hkill] at hmem
      exact hlaunched event hmem
    · rw [killpg_ok hkill] at hmem
      rcases List.mem_append.mp hmem with hmem | hmem
      · exact hlaunched event hmem
      · exact .inr (.inr ⟨pgid, congrArg Event.action (List.mem_singleton.mp hmem)⟩)
  · split at hmem
    · exact hlaunched event hmem
    · exact hlaunched event hmem

/-- **A start launches nothing beside a live process.** -/
theorem startProcess_launched {event : Event} {name' : String} (hnone : c.events = [])
    (hmem : event ∈ (c.startProcess name command l).2.events)
    (haction : event.action = .launched name' pid) : name' = name ∧ ¬ c.Live name := by
  have hquiet : ∀ {events : List Event}, events = c.events → event ∉ events := by
    intro events heq
    rw [heq, hnone]
    exact List.not_mem_nil
  -- what a call launches has the name it was called with
  have hlaunch : ∀ c' : Coordinator, c'.events = c.events →
      event ∈ (c'.launch name command l).2.events → name' = name := by
    intro c' heq hmem
    obtain hmem | hlaunched | ⟨group, hsignalled⟩ := launch_events hmem
    · exact absurd hmem (hquiet heq)
    · exact (Action.launched.inj (haction.symm.trans hlaunched)).1
    · cases haction.symm.trans hsignalled
  have hlive : ¬ c.Live name := by
    intro hlive
    rw [startProcess_of_live hlive] at hmem
    exact hquiet rfl hmem
  refine ⟨?_, hlive⟩
  -- to drop a record sends nothing
  rcases hrecorded : recorded c.processes name with _ | metadata
  · simp only [startProcess, hrecorded] at hmem
    exact hlaunch c rfl hmem
  rcases hpid : intOf (metadata.get "pid") with _ | pid
  · simp only [startProcess, hrecorded, hpid] at hmem
    exact hlaunch (c.pop name) rfl hmem
  rcases halive : c.os.pidAlive pid with e | alive
  · simp only [startProcess, hrecorded, hpid, halive] at hmem
    exact absurd hmem (hquiet rfl)
  cases alive with
  | true => exact absurd ⟨metadata, pid, hrecorded, hpid, halive⟩ hlive
  | false =>
    simp only [startProcess, hrecorded, hpid, halive] at hmem
    exact hlaunch (c.pop name) rfl hmem

/-- The stop of an owned process. -/
theorem stopProcess_of_owned (hrecorded : recorded c.processes name = some metadata)
    (hpid : intOf (metadata.get "pid") = some pid)
    (howned : c.os.pidOwned name metadata = .ok true)
    (hgroup : c.os.targetGroup metadata pid = .ok group) :
    c.stopProcess name timeout sleeps = c.terminate name metadata pid group timeout sleeps := by
  have halive : c.os.pidAlive pid = .ok true := by
    rw [Os.pidOwned, hpid] at howned
    rcases halive : c.os.pidAlive pid with e | alive
    · simp only [halive] at howned
      cases howned
    · cases alive with
      | true => rfl
      | false =>
        simp only [halive] at howned
        cases howned
  simp only [stopProcess, hrecorded, hpid, halive, howned, hgroup]

end Coordinator

/-! ### Sequences of calls -/

inductive CoordinatorCall where
  | start (name : String) (command : List String) (launch : Launch)
  | stop (name : String) (timeout : ℤ) (sleeps : ℕ → Slept)

def CoordinatorCall.name : CoordinatorCall → String
  | .start name _ _ => name
  | .stop name _ _ => name

namespace Coordinator

def execute (c : Coordinator) : CoordinatorCall → Except ToolException String × Coordinator
  | .start name command launch => c.startProcess name command launch
  | .stop name timeout sleeps => c.stopProcess name timeout sleeps

/-- The operating system goes on between two calls. -/
def meanwhile (c : Coordinator) (slept : Slept) : Coordinator :=
  { c with os := c.os.sleep 0 slept, events := [] }

/-- The calls, each with the coordinator it meets. -/
def run : Coordinator → List (Slept × CoordinatorCall) → List (Coordinator × CoordinatorCall)
  | _, [] => []
  | c, (slept, call) :: calls =>
    (c.meanwhile slept, call) :: run ((c.meanwhile slept).execute call).2 calls

/-- A call goes by the rules: a stop signals while the recorded pid is owned, no second process
is launched beside a live one, and a refusal changes nothing. -/
structure Coordinated (c : Coordinator) (call : CoordinatorCall) : Prop where
  owned : ∀ name timeout sleeps, call = .stop name timeout sleeps →
    ∀ event ∈ (c.execute call).2.events, ∀ group signal, event.action = .signalled group signal →
      ∃ metadata, recorded event.processes name = some metadata ∧
        event.os.pidOwned name metadata = .ok true
  single : ∀ event ∈ (c.execute call).2.events, ∀ name pid, event.action = .launched name pid →
    name = call.name ∧ ¬ c.Live name
  refuses : c.Foreign call.name → ∃ message, c.execute call = (.error (.toolError message), c)

/-- While a stop waits for its process, nobody takes its place: where it finds the pid in use
and the group there to be signalled, the pid is owned. -/
def Undisturbed (c : Coordinator) : CoordinatorCall → Prop
  | .start _ _ _ => True
  | .stop name timeout sleeps =>
    ∀ metadata pid group k, recorded c.processes name = some metadata →
      intOf (metadata.get "pid") = some pid → c.os.pidOwned name metadata = .ok true →
      c.os.targetGroup metadata pid = .ok group → c.os.killpg group = .ok () →
      c.os.WaitsFor pid (c.os.monotonic + timeout) sleeps k →
      (c.os.slept k sleeps).answers pid = true → (c.os.slept k sleeps).killpg group = .ok () →
      (c.os.slept k sleeps).pidOwned name metadata = .ok true

variable {c : Coordinator}

theorem coordinated_start {name : String} {command : List String} {launch : Launch}
    (h : c.events = []) : c.Coordinated (.start name command launch) where
  owned := by
    intro name timeout sleeps heq
    cases heq
  single := by
    intro event hmem name' pid haction
    obtain ⟨rfl, hlive⟩ := startProcess_launched h hmem haction
    exact ⟨rfl, hlive⟩
  refuses := fun hforeign => startProcess_of_foreign hforeign

section Stop

variable {name : String} {timeout : ℤ} {sleeps : ℕ → Slept}

/-- A stop that goes by the rules is undisturbed, or else its `SIGKILL` meets another process. -/
theorem Coordinated.undisturbed (h : c.Coordinated (.stop name timeout sleeps)) :
    c.Undisturbed (.stop name timeout sleeps) := by
  intro metadata pid group k hrecorded hpid howned hgroup hkill hwait halive hkill'
  have hevents : (c.terminate name metadata pid group timeout sleeps).2.events = _ :=
    terminate_escalates hkill hwait halive hkill'
  rw [← stopProcess_of_owned hrecorded hpid howned hgroup] at hevents
  have hmem : ⟨c.os.slept k sleeps, c.processes, .signalled group .sigkill⟩ ∈
      (c.stopProcess name timeout sleeps).2.events := by
    rw [hevents]
    exact List.mem_append_right _ (List.mem_cons_of_mem _ List.mem_cons_self)
  obtain ⟨metadata', hrecorded', howned'⟩ := h.owned _ _ _ rfl _ hmem _ _ rfl
  obtain rfl := Option.some_inj.mp (hrecorded.symm.trans hrecorded')
  exact howned'

/-- What an undisturbed stop has signalled. -/
theorem Undisturbed.events (h : c.Undisturbed (.stop name timeout sleeps)) (hnone : c.events = [])
    {event : Event} (hmem : event ∈ (c.stopProcess name timeout sleeps).2.events) :
    (∃ group signal, event.action = .signalled group signal) ∧
    ∃ metadata, recorded event.processes name = some metadata ∧
      event.os.pidOwned name metadata = .ok true := by
  obtain hquiet | ⟨metadata, pid, group, hrecorded, hpid, howned, hgroup, hkill, hstop⟩ :=
    c.stopProcess_cases name timeout sleeps
  · rw [hquiet, hnone] at hmem
    cases hmem
  -- between the two signals the coordinator sleeps until the process is gone or the time is over
  obtain ⟨k, hwait, -⟩ : ∃ k, c.os.WaitsFor pid (c.os.monotonic + timeout) sleeps k ∧ _ :=
    Os.wait_rounds timeout
  have hterm : event = ⟨c.os, c.processes, .signalled group .sigterm⟩ →
      (∃ group signal, event.action = .signalled group signal) ∧
      ∃ metadata, recorded event.processes name = some metadata ∧
        event.os.pidOwned name metadata = .ok true := by
    rintro rfl
    exact ⟨⟨group, .sigterm, rfl⟩, metadata, hrecorded, howned⟩
  by_cases hagain : (c.os.slept k sleeps).answers pid = true ∧
      (c.os.slept k sleeps).killpg group = .ok ()
  · rw [hstop, terminate_escalates hkill hwait hagain.1 hagain.2, hnone] at hmem
    rcases List.mem_cons.mp hmem with heq | hmem
    · exact hterm heq
    · rw [List.mem_singleton] at hmem
      subst hmem
      refine ⟨⟨group, .sigkill, rfl⟩, metadata, hrecorded, ?_⟩
      exact h metadata pid group k hrecorded hpid howned hgroup hkill hwait hagain.1 hagain.2
  -- without a second signal the first is all there is
  · have hends : (c.os.slept k sleeps).answers pid = true →
        ∃ e, (c.os.slept k sleeps).killpg group = .error e := by
      intro halive
      cases hkill' : (c.os.slept k sleeps).killpg group with
      | error e => exact ⟨e, rfl⟩
      | ok u => exact absurd ⟨halive, hkill'⟩ hagain
    rw [hstop, terminate_ends hkill hwait hends, hnone] at hmem
    exact hterm (List.mem_singleton.mp hmem)

/-- **A stop goes by the rules exactly if it is undisturbed.** -/
theorem coordinated_stop_iff (hnone : c.events = []) :
    c.Coordinated (.stop name timeout sleeps) ↔ c.Undisturbed (.stop name timeout sleeps) := by
  refine ⟨Coordinated.undisturbed, fun h => ⟨?_, ?_, fun hforeign => ?_⟩⟩
  · intro name' timeout' sleeps' heq event hmem group signal haction
    cases heq
    exact (h.events hnone hmem).2
  · intro event hmem name' pid haction
    obtain ⟨⟨group, signal, hsignalled⟩, -⟩ := h.events hnone hmem
    cases haction.symm.trans hsignalled
  · exact stopProcess_of_foreign hforeign

end Stop

/-- Every call of a run begins with nothing done. -/
theorem events_of_mem_run {calls : List (Slept × CoordinatorCall)}
    {x : Coordinator × CoordinatorCall} (hmem : x ∈ c.run calls) : x.1.events = [] := by
  induction calls generalizing c with
  | nil => cases hmem
  | cons y calls ih =>
    rcases List.mem_cons.mp hmem with rfl | hmem
    · rfl
    · exact ih hmem

/-- **The coordinator goes by the rules in every run whose stops are undisturbed, and in no
other.** -/
theorem coordinated_iff {calls : List (Slept × CoordinatorCall)} :
    (∀ x ∈ c.run calls, x.1.Coordinated x.2) ↔ ∀ x ∈ c.run calls, x.1.Undisturbed x.2 := by
  refine forall₂_congr fun x hmem => ?_
  have hnone := events_of_mem_run hmem
  obtain ⟨c', call⟩ := x
  cases call with
  | start name command launch => exact ⟨fun _ => trivial, fun _ => coordinated_start hnone⟩
  | stop name timeout sleeps => exact coordinated_stop_iff hnone

end Coordinator

/-! ### A pid that is reused while a stop waits -/

/-- The app, as process 123. -/
def appProcess : OsProcess := ⟨123, 123, "Mon Jan  5 09:00:00 2026", "uv run litestar run", true⟩

/-- An editor that has been started under the same pid. -/
def editorProcess : OsProcess := ⟨123, 123, "Mon Jan  5 09:30:00 2026", "vim notes.txt", true⟩

/-- The app is running. -/
def runningApp : Coordinator where
  os := ⟨[appProcess], 0⟩
  processes := [("app", .dict [("pid", .int 123), ("pgid", .int 123),
    ("started_signature", .str "Mon Jan  5 09:00:00 2026")])]
  saved := []
  events := []

/-- The app ends at once, and the editor takes its pid. -/
def reusedPid : ℕ → Slept
  | 0 => ⟨[.ends 123 0, .starts editorProcess], 0⟩
  | _ + 1 => ⟨[], 0⟩

/-- **The escalation does not ask who has the pid.** -/
theorem coordinated_violated :
    ¬ ∀ (c : Coordinator) (calls : List (Slept × CoordinatorCall)),
      ∀ x ∈ c.run calls, x.1.Coordinated x.2 := by
  intro h
  have hcoordinated := h runningApp [(⟨[], 0⟩, .stop "app" 10000 reusedPid)] _ List.mem_cons_self
  have hwait : runningApp.os.WaitsFor 123 10000 reusedPid 100 := by
    refine ⟨by decide +kernel, ?_⟩
    rintro ⟨-, hlt⟩
    revert hlt
    decide +kernel
  have howned : (runningApp.os.slept 100 reusedPid).pidOwned "app" [("pid", .int 123),
      ("pgid", .int 123), ("started_signature", .str "Mon Jan  5 09:00:00 2026")] = .ok false := rfl
  have howned' := hcoordinated.undisturbed _ 123 123 100 rfl rfl rfl rfl rfl hwait rfl rfl
  cases howned.symm.trans howned'

end Lsstack
