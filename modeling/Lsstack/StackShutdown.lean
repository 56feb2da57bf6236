/-
Taking a stack down, and resetting its database.

`down` stops both host processes before it lets Compose remove anything; `reset_database` has it
remove the volumes too, once it is told the name of the project.

* `stopProcess_ok` — a stop that returns leaves its process unrecorded, and the others alone;
* `down_commands` — what Compose is told, and when;
* **`resetDatabase_commands`** — volumes are removed on a confirmation that names the project.
-/
import Lsstack.ProcessCoordinator
import Lsstack.StackIdentity

namespace Lsstack

/-! ### One stop -/

namespace Coordinator

variable {c c' : Coordinator} {name other message : String} {metadata : JsonObject}
  {pid group timeout : ℤ} {sleeps : ℕ → Slept}

theorem recorded_pop :
    recorded (c.pop name).processes other =
      if other = name then none else recorded c.processes other := by
  rw [recorded, recorded, pop, save, JsonObject.get, JsonObject.get, Dictionary.get_erase]
  split_ifs
  · rfl
  · rfl

/-- The map is left but for the process. -/
structure Stops (c c' : Coordinator) (name : String) : Prop where
  stopped : recorded c'.processes name = none
  others : ∀ other, other ≠ name → recorded c'.processes other = recorded c.processes other

theorem stops_of_processes (h : c'.processes = (c.pop name).processes) : c.Stops c' name where
  stopped := by rw [h, recorded_pop, if_pos rfl]
  others := fun other hne => by rw [h, recorded_pop, if_neg hne]

theorem terminate_ok (h : c.terminate name metadata pid group timeout sleeps = (.ok message, c')) :
    c.Stops c' name := by
  rw [terminate] at h
  cases hkill : c.os.killpg group with
  | error e =>
    rw [killpg_error hkill] at h
    cases h
  | ok u =>
    rw [killpg_ok hkill] at h
    dsimp only at h
    split at h
    · split at h
      · cases h
      · next c₂ hagain =>
        cases h
        refine stops_of_processes ?_
        rw [killpg] at hagain
        split at hagain
        · cases hagain
        · cases hagain
          rfl
    · cases h
      exact stops_of_processes rfl

/-- **A stop that returns** leaves its process unrecorded, and the others alone. -/
theorem stopProcess_ok (h : c.stopProcess name timeout sleeps = (.ok message, c')) :
    c.Stops c' name := by
  rw [stopProcess] at h
  cases hrecorded : recorded c.processes name with
  | none =>
    rw [hrecorded] at h
    cases h
    exact ⟨hrecorded, fun _ _ => rfl⟩
  | some metadata =>
    rw [hrecorded] at h
    dsimp only at h
    split at h
    · cases h
      exact stops_of_processes rfl
    · split at h
      · cases h
      · cases h
        exact stops_of_processes rfl
      · split at h
        · cases h
        · cases h
        · split at h
          · cases h
          · exact terminate_ok h

end Coordinator

/-! ### The commands -/

/-- What the commands meet: the files under `.run`, what the operating system does while they wait,
Docker and its answer.  `loads` is `json.loads`; `none` is a `JSONDecodeError`. -/
structure ShutdownHost where
  worktree : Worktree
  loads : List Char → Option JsonValue
  stackEnv : Option (List Char)
  processFile : Option (List Char)
  allocatePorts : Except (List Char) Ports
  os : Os
  workerSleeps : ℕ → Slept
  between : Slept
  appSleeps : ℕ → Slept
  docker : Bool
  returncode : ℤ
  output : String

/-- How a command ends, the coordinator it leaves, and what Compose has been told. -/
structure Shutdown where
  result : Except ToolException Unit
  coordinator : Coordinator
  commands : List (List (List Char))

/-- The arguments of `compose` in `down`. -/
def composeDown (project : List Char) (volumes : Bool) : List (List Char) :=
  ["docker".toList, "compose".toList, "--project-name".toList, project, "down".toList] ++
    (if volumes then ["--volumes".toList] else []) ++ ["--remove-orphans".toList]

namespace ShutdownHost

variable (host : ShutdownHost)

def processFileName : String := String.ofList (host.worktree.root ++ "/.run/processes.json".toList)

/-- The file belongs to this worktree. -/
def isRoot : Option JsonValue → Bool
  | some (.str root) => decide (root.toList = host.worktree.resolvedRoot)
  | _ => false

/-- `_load_processes`. -/
def loadProcesses : Except ToolException JsonObject :=
  match host.processFile with
  | none => .ok []
  | some text =>
    match host.loads text with
    | none => .error (.toolError s!"{host.processFileName} contains invalid JSON.")
    | some (.dict payload) =>
      if host.isRoot (JsonObject.get payload "root") = false then
        .error (.toolError s!"{host.processFileName} belongs to another worktree.")
      else
        match JsonObject.get payload "processes" with
        | some (.dict processes) => .ok processes
        | _ => .error (.toolError s!"{host.processFileName} has an invalid process map.")
    | some _ => .error (.toolError s!"{host.processFileName} must contain a JSON object.")

/-- Before anything has been done. -/
def coordinator (processes : JsonObject) : Coordinator := ⟨host.os, processes, processes, []⟩

/-- `down` once both processes are stopped. -/
def composeShutdown (config : Option StackConfig) (volumes : Bool) (c : Coordinator) : Shutdown :=
  match config with
  | none => ⟨.ok (), c, []⟩
  | some config =>
    if host.docker = false then ⟨.ok (), c, []⟩
    else
      let commands := [composeDown config.project volumes]
      if host.returncode ≠ 0 then
        ⟨.error (.toolError ("Compose shutdown failed:\n" ++ host.output)), c, commands⟩
      else ⟨.ok (), c, commands⟩

/-- `down`, for what `stack.env` holds by then. -/
def down (stackEnv : Option (List Char)) (volumes : Bool) : Shutdown :=
  match (host.worktree.loadConfig stackEnv false host.allocatePorts).1 with
  | .error message => ⟨.error (.toolError (String.ofList message)), host.coordinator [], []⟩
  | .ok config =>
    match host.loadProcesses with
    | .error e => ⟨.error e, host.coordinator [], []⟩
    | .ok processes =>
      match (host.coordinator processes).stopProcess "worker" 10000 host.workerSleeps with
      | (.error e, c) => ⟨.error e, c, []⟩
      | (.ok _, c) =>
        match { c with os := c.os.sleep 0 host.between }.stopProcess "app" 10000 host.appSleeps with
        | (.error e, c) => ⟨.error e, c, []⟩
        | (.ok _, c) => host.composeShutdown config volumes c

/-- `reset_database`, up to the end of its `down`. -/
def resetDatabase (confirmation : List Char) : Shutdown :=
  match host.worktree.loadConfig host.stackEnv true host.allocatePorts with
  | (.error message, _) =>
    ⟨.error (.toolError (String.ofList message)), host.coordinator [], []⟩
  -- the `assert`: with `create` there is an identity
  | (.ok none, _) => ⟨.error (.toolError ""), host.coordinator [], []⟩
  | (.ok (some config), stackEnv) =>
    let expected := "reset-".toList ++ config.project
    if confirmation ≠ expected then
      let message := "Database reset removes only this worktree's local volumes, but it is " ++
        s!"destructive. Retry with `just db-reset {String.ofList expected}`."
      ⟨.error (.toolError message), host.coordinator [], []⟩
    else host.down stackEnv true

/-! ### What Compose is told -/

variable {host} {stackEnv : Option (List Char)} {volumes : Bool} {command : List (List Char)}

/-- The identity that is read is that of this worktree. -/
theorem configFromValues_resolve {values : Dotenv} {config : StackConfig}
    (h : host.worktree.configFromValues values = .ok config) :
    host.worktree.resolve config.root = host.worktree.resolvedRoot := by
  unfold Worktree.configFromValues at h
  dsimp only at h
  split at h
  · cases h
  · split at h
    · cases h
    · next hroot =>
      cases h
      exact not_not.mp hroot

theorem loadConfig_resolve {config : StackConfig}
    (h : (host.worktree.loadConfig stackEnv false host.allocatePorts).1 = .ok (some config)) :
    host.worktree.resolve config.root = host.worktree.resolvedRoot := by
  cases stackEnv with
  | none => cases h
  | some text =>
    have hmap : (host.worktree.configFromValues (readDotenv (some text))).map some =
        .ok (some config) := h
    cases hread : host.worktree.configFromValues (readDotenv (some text)) with
    | error message =>
      rw [hread] at hmap
      cases hmap
    | ok config' =>
      rw [hread] at hmap
      cases hmap
      exact configFromValues_resolve hread

/-- Compose is told nothing but to take down the project. -/
theorem composeShutdown_commands {config : Option StackConfig} {c : Coordinator}
    (h : command ∈ (host.composeShutdown config volumes c).commands) :
    (host.composeShutdown config volumes c).coordinator = c ∧
      ∃ config', config = some config' ∧ command = composeDown config'.project volumes := by
  unfold composeShutdown at h ⊢
  cases config with
  | none => cases h
  | some config =>
    dsimp only at h ⊢
    by_cases hdocker : host.docker = false
    · rw [if_pos hdocker] at h
      cases h
    · rw [if_neg hdocker] at h ⊢
      by_cases hcode : host.returncode ≠ 0
      · rw [if_pos hcode] at h ⊢
        exact ⟨rfl, config, rfl, List.mem_singleton.mp h⟩
      · rw [if_neg hcode] at h ⊢
        exact ⟨rfl, config, rfl, List.mem_singleton.mp h⟩

/-- **Compose is told to take down this worktree's project**, once neither process is recorded. -/
theorem down_commands (h : command ∈ (host.down stackEnv volumes).commands) :
    ∃ config, (host.worktree.loadConfig stackEnv false host.allocatePorts).1 = .ok (some config) ∧
      command = composeDown config.project volumes ∧
      recorded (host.down stackEnv volumes).coordinator.processes "worker" = none ∧
      recorded (host.down stackEnv volumes).coordinator.processes "app" = none := by
  rw [down] at h ⊢
  cases hconfig : (host.worktree.loadConfig stackEnv false host.allocatePorts).1 with
  | error message =>
    rw [hconfig] at h
    cases h
  | ok config =>
    rw [hconfig] at h
    dsimp only at h ⊢
    cases hprocesses : host.loadProcesses with
    | error e =>
      rw [hprocesses] at h
      cases h
    | ok processes =>
      rw [hprocesses] at h
      dsimp only at h ⊢
      rcases hworker : (host.coordinator processes).stopProcess "worker" 10000
        host.workerSleeps with ⟨e | message, c⟩
      · rw [hworker] at h
        cases h
      · rw [hworker] at h
        dsimp only at h ⊢
        rcases happ : { c with os := c.os.sleep 0 host.between }.stopProcess "app" 10000
          host.appSleeps with ⟨e | message', c'⟩
        · rw [happ] at h
          cases h
        · rw [happ] at h ⊢
          dsimp only at h ⊢
          obtain ⟨hcoordinator, config', rfl, rfl⟩ := composeShutdown_commands h
          have hstops := Coordinator.stopProcess_ok happ
          have hbefore := (Coordinator.stopProcess_ok hworker).stopped
          refine ⟨config', rfl, rfl, ?_, ?_⟩
          -- stopping the app records nothing of the worker
          · rw [hcoordinator, hstops.others "worker" (by decide)]
            exact hbefore
          · rw [hcoordinator]
            exact hstops.stopped

/-- **Volumes are removed** on a confirmation that names the project, and of this worktree's project
only, once neither process is recorded. -/
theorem resetDatabase_commands {confirmation : List Char}
    (h : command ∈ (host.resetDatabase confirmation).commands) :
    ∃ named config stackEnv,
      host.worktree.loadConfig host.stackEnv true host.allocatePorts =
        (.ok (some named), stackEnv) ∧
      confirmation = "reset-".toList ++ named.project ∧
      (host.worktree.loadConfig stackEnv false host.allocatePorts).1 = .ok (some config) ∧
      (host.stackEnv.isSome → config = named) ∧
      host.worktree.resolve config.root = host.worktree.resolvedRoot ∧
      command = composeDown config.project true ∧
      recorded (host.resetDatabase confirmation).coordinator.processes "worker" = none ∧
      recorded (host.resetDatabase confirmation).coordinator.processes "app" = none := by
  unfold resetDatabase at h ⊢
  rcases hload : host.worktree.loadConfig host.stackEnv true host.allocatePorts with
    ⟨message | (_ | named), stackEnv⟩
  · rw [hload] at h
    cases h
  · rw [hload] at h
    cases h
  · rw [hload] at h
    dsimp only at h ⊢
    by_cases hconfirmed : confirmation ≠ "reset-".toList ++ named.project
    · rw [if_pos hconfirmed] at h
      cases h
    · rw [if_neg hconfirmed] at h ⊢
      obtain ⟨config, hconfig, hcommand, hworker, happ⟩ := down_commands h
      refine ⟨named, config, stackEnv, rfl, not_not.mp hconfirmed, hconfig, fun hsome => ?_,
        loadConfig_resolve hconfig, hcommand, hworker, happ⟩
      -- a file that is there is not written again
      obtain ⟨text, htext⟩ := Option.isSome_iff_exists.mp hsome
      rw [htext] at hload
      have hread : (host.worktree.configFromValues (readDotenv (some text))).map some =
          .ok (some named) := congrArg Prod.fst hload
      obtain rfl : some text = stackEnv := congrArg Prod.snd hload
      have hagain : (host.worktree.configFromValues (readDotenv (some text))).map some =
          .ok (some config) := hconfig
      cases hread.symm.trans hagain
      rfl

end ShutdownHost

/-- The worker, as process 124. -/
def workerProcess : OsProcess :=
  ⟨124, 124, "Mon Jan  5 09:00:01 2026", "uv run litestar workers run", true⟩

/-- A stack that is allocated and runs; both its processes end when they are told to. -/
def runningHost : ShutdownHost where
  worktree := { spacedWorktree with root := "/srv/lsstack".toList }
  loads := fun _ => some (.dict [("root", .str "/srv/lsstack"), ("processes", .dict
    [("app", .dict [("pid", .int 123), ("pgid", .int 123),
      ("started_signature", .str "Mon Jan  5 09:00:00 2026")]),
    ("worker", .dict [("pid", .int 124), ("pgid", .int 124),
      ("started_signature", .str "Mon Jan  5 09:00:01 2026")])])])
  stackEnv := some (("LSSTACK_ROOT=/srv/lsstack\nCOMPOSE_PROJECT_NAME=lsstack-4cfa0ccf58\n" ++
    "APP_PORT=8000\nPOSTGRES_PORT=5432\nNGINX_PORT=8080\nGRAFANA_PORT=3000\n" ++
    "OTLP_GRPC_PORT=4317\nOTLP_HTTP_PORT=4318\n").toList)
  processFile := some []
  allocatePorts := .error []
  os := ⟨[appProcess, workerProcess], 0⟩
  workerSleeps := fun _ => ⟨[.ends 124 0], 0⟩
  between := ⟨[], 0⟩
  appSleeps := fun _ => ⟨[.ends 123 0], 0⟩
  docker := true
  returncode := 0
  output := ""

/-- On the confirmation that names it, the worker and the app are stopped, and its volumes are
removed. -/
theorem resetDatabase_commands_stopped :
    ∃ named stackEnv, runningHost.worktree.loadConfig runningHost.stackEnv true
        runningHost.allocatePorts = (.ok (some named), stackEnv) ∧
      "reset-lsstack-4cfa0ccf58".toList = "reset-".toList ++ named.project ∧
      (runningHost.resetDatabase "reset-lsstack-4cfa0ccf58".toList).coordinator.events.map
        (fun event => (event.processes.map Prod.fst, event.action)) =
          [(["app", "worker"], .signalled 124 .sigterm), (["app"], .signalled 123 .sigterm)] ∧
      recorded (runningHost.resetDatabase "reset-lsstack-4cfa0ccf58".toList).coordinator.processes
        "app" = none := by
  have hcommand : composeDown "lsstack-4cfa0ccf58".toList true ∈
      (runningHost.resetDatabase "reset-lsstack-4cfa0ccf58".toList).commands := by decide +kernel
  obtain ⟨named, _, stackEnv, hload, hconfirmed, -, -, -, -, -, happ⟩ :=
    ShutdownHost.resetDatabase_commands hcommand
  exact ⟨named, stackEnv, hload, hconfirmed, by decide +kernel, happ⟩

end Lsstack
