/-
Removing a worktree.

`clean_worktree` asks git, GitHub, Docker and the file system before it lets git remove anything.
What they answer, and whether they fail, stays open.

* **`cleanWorktree_changes_iff`** — what changes anything is the removal of the worktree on that
  branch and of its branch, in this order, once all the evidence is there;
* `cleanWorktree_returns_iff` — and the command returns when all of that is done.
-/
import Lsstack.ProcessCoordinator
import Lsstack.Queue
import Lsstack.Reaching
import Lsstack.Worktrees

namespace Lsstack

open Concurrency

/-! ### The host -/

structure CompletedProcess where
  returncode : ℤ
  stdout : List Char
  stderr : List Char

inductive CleanupException where
  | toolError (message : List Char)
  | keyError (key : List Char)
  | attributeError
  | jsonDecodeError
  | processLookupError
  | permissionError
  /-- `CalledProcessError`, `OSError` and the like. -/
  | failed (message : List Char)

/-- What the command asks of its host: `git` with its output captured or shown, any other command
with `check=False`, a file that may be missing, `os.kill(pid, 0)`, `shutil.which`, and a line of
output. -/
inductive HostCommand where
  | git (arguments : List (List Char))
  | gitShown (arguments : List (List Char))
  | run (command : List (List Char))
  | readText (path : List Char)
  | kill (pid : ℤ)
  | which (program : List Char)
  | notice (message : List Char)

abbrev HostCommand.Reply : HostCommand → Type
  | .git _ => List Char
  | .gitShown _ => Unit
  | .run _ => CompletedProcess
  | .readText _ => Option (List Char)
  | .kill _ => Unit
  | .which _ => Bool
  | .notice _ => Unit

abbrev HostProgram := Program HostCommand HostCommand.Reply CleanupException

/-- A command with its reply. -/
abbrev HostCall := (c : HostCommand) × Except CleanupException c.Reply

namespace HostProgram

def ask (c : HostCommand) : HostProgram c.Reply := Program.perform c

def toolError {α : Type} (message : List Char) : HostProgram α := throw (.toolError message)

/-- `pid_alive`. -/
def pidAlive (pid : ℤ) : HostProgram Bool :=
  tryCatch (do let _ ← ask (.kill pid); return true) fun
    | .processLookupError => return false
    | .permissionError => return true
    | e => throw e

/-- A value whose attributes are those of a `dict`. -/
def asDict : JsonValue → HostProgram JsonObject
  | .dict values => return values
  | _ => throw .attributeError

end HostProgram

/-- `bool(value)`. -/
def truthy : Option JsonValue → Bool
  | none | some .null => false
  | some (.bool b) => b
  | some (.int n) => n != 0
  | some (.float x) => x != 0
  | some (.str s) => s != ""
  | some (.list items) => !items.isEmpty
  | some (.dict items) => !items.isEmpty

/-! ### The command -/

section Command

-- `loads` is `json.loads`; `none` is a `JSONDecodeError`
variable (worktree : Worktree) (loads : List Char → Option JsonValue)

variable (branch target : List Char)

open HostProgram

def loadJson (text : List Char) : HostProgram JsonObject :=
  match loads text with
  | none => throw .jsonDecodeError
  | some value => asDict value

def worktreeListArguments : List (List Char) :=
  ["worktree".toList, "list".toList, "--porcelain".toList]

def statusArguments : List (List Char) :=
  ["-C".toList, target, "status".toList, "--porcelain".toList]

def pullRequestCommand : List (List Char) :=
  ["gh".toList, "pr".toList, "view".toList, branch, "--json".toList, "state,mergedAt,url".toList]

def containersCommand (project : List Char) : List (List Char) :=
  ["docker".toList, "ps".toList, "--all".toList, "--filter".toList,
    "label=com.docker.compose.project=".toList ++ project, "--format".toList,
    "\x7b\x7b.ID\x7d\x7d \x7b\x7b.Names\x7d\x7d".toList]

/-- `target / ".run" / name`. -/
def inRunDirectory (name : List Char) : List Char :=
  (if target = ['/'] then [] else target) ++ "/.run/".toList ++ name

/-- The entry is of the worktree on the branch. -/
def isOn (entry : WorktreeRecord) : Bool :=
  decide (entry "branch".toList = some ("refs/heads/".toList ++ branch))

/-- The path of the worktree on the branch. -/
def findTarget : HostProgram (List Char) := do
  let stdout ← ask (.git worktreeListArguments)
  match (worktrees stdout).find? (isOn branch) with
  | none =>
    toolError ("No worktree currently has branch ".toList ++
      (pyRepr (String.ofList branch)).toList ++ " checked out.".toList)
  | some entry =>
    match entry "worktree".toList with
    | none => throw (.keyError "worktree".toList)
    | some path =>
      if worktree.resolve path = worktree.resolvedRoot then
        toolError "Run worktree cleanup from a different checkout.".toList
      else return worktree.resolve path

/-- The pull request has been merged. -/
def verifyMerged : HostProgram Unit := do
  let result ← ask (.run (pullRequestCommand branch))
  if result.returncode ≠ 0 then
    toolError ("Unable to verify the pull request:\n".toList ++ result.stderr)
  else
    let pr ← loadJson loads result.stdout
    match JsonObject.get pr "state", truthy (JsonObject.get pr "mergedAt") with
    | some (.str "MERGED"), true => return ()
    | _, _ => toolError "Refusing cleanup because the pull request is not merged.".toList

/-- Nothing has been changed in the worktree. -/
def verifyClean : HostProgram Unit := do
  let stdout ← ask (.git (statusArguments target))
  if stripped stdout ≠ [] then
    toolError ("Refusing cleanup because ".toList ++ target ++ " has local changes.".toList)
  else return ()

/-- The loop over the recorded processes. -/
def refuseRunning : JsonObject → HostProgram Unit
  | [] => return ()
  | (name, metadata) :: processes => do
    let metadata ← asDict metadata
    match intOf (JsonObject.get metadata "pid") with
    | none => refuseRunning processes
    | some pid =>
      if ← pidAlive pid then
        toolError ("Refusing cleanup because ".toList ++ name.toList ++ " PID ".toList ++
          (intText (JsonObject.get metadata "pid")).toList ++
          " is still running. Run `just -d ".toList ++ target ++ " down` first.".toList)
      else refuseRunning processes

/-- No recorded process is running. -/
def verifyStopped : HostProgram Unit := do
  match ← ask (.readText (inRunDirectory target "processes.json".toList)) with
  | none => return ()
  | some text =>
    let payload ← loadJson loads text
    let processes ← asDict ((JsonObject.get payload "processes").getD (.dict []))
    refuseRunning target processes

/-- The Compose project of the worktree has no containers. -/
def verifyDown : HostProgram Unit := do
  let stackFile := inRunDirectory target "stack.env".toList
  match ← ask (.readText stackFile) with
  | none => return ()
  | some text =>
    match readDotenv (some text) "COMPOSE_PROJECT_NAME".toList with
    | none | some [] =>
      toolError ("Refusing cleanup because ".toList ++ stackFile ++
        " has no Compose project name.".toList)
    | some project =>
      if ← ask (.which "docker".toList) then
        let containers ← ask (.run (containersCommand project))
        if containers.returncode ≠ 0 then
          toolError ("Unable to verify the target Compose stack:\n".toList ++
            containers.stdout ++ containers.stderr)
        else if stripped containers.stdout ≠ [] then
          toolError ("Refusing cleanup because Compose project ".toList ++ project ++
            " still has containers:\n".toList ++ stripped containers.stdout ++
            "\nRun `just -d ".toList ++ target ++ " down` first.".toList)
        else return ()
      else
        toolError ("Docker is unavailable, so the target Compose stack cannot be ".toList ++
          "verified as stopped.".toList)

/-- What git is told to remove. -/
def removals : List (List (List Char)) :=
  [["worktree".toList, "remove".toList, target], ["branch".toList, "-d".toList, branch],
    ["worktree".toList, "prune".toList]]

def shown : List (List (List Char)) → HostProgram Unit
  | [] => return ()
  | arguments :: rest => do
    ask (.gitShown arguments)
    shown rest

def showNotices : List (List Char) → HostProgram Unit
  | [] => return ()
  | message :: rest => do
    ask (.notice message)
    showNotices rest

/-- What is printed in the end. -/
def notices : List (List Char) :=
  ["Removed merged worktree ".toList ++ target ++ " and local branch ".toList ++ branch ++
      ".".toList,
    "Remote branches are never deleted by this command.".toList]

/-- `clean_worktree` from its first removal on. -/
def removeWorktree : HostProgram Unit := do
  shown (removals branch target)
  showNotices (notices branch target)

/-- `clean_worktree`. -/
def cleanWorktree : HostProgram Unit :=
  if branch = "main".toList ∨ branch = "master".toList then
    toolError "The primary branch may never be removed by this command.".toList
  else do
    let target ← findTarget worktree branch
    verifyMerged loads branch
    verifyClean target
    verifyStopped loads target
    verifyDown target
    removeWorktree branch target

/-! ### The evidence

The calls of each check that is passed, with their replies. -/

variable {worktree loads branch target} {calls : List HostCall}

/-- git lists the worktree on the branch, and it is another one. -/
inductive Found (worktree : Worktree) (branch target : List Char) : List HostCall → Prop
  | mk {stdout path : List Char} {entry : WorktreeRecord}
      (hentry : (worktrees stdout).find? (isOn branch) = some entry)
      (hpath : entry "worktree".toList = some path) (htarget : worktree.resolve path = target)
      (hother : target ≠ worktree.resolvedRoot) :
      Found worktree branch target [⟨.git worktreeListArguments, .ok stdout⟩]

/-- GitHub says that the pull request has been merged. -/
inductive Merged (loads : List Char → Option JsonValue) (branch : List Char) :
    List HostCall → Prop
  | mk {stdout stderr : List Char} {pr : JsonObject} (hpr : loads stdout = some (.dict pr))
      (hstate : JsonObject.get pr "state" = some (.str "MERGED"))
      (hmerged : truthy (JsonObject.get pr "mergedAt") = true) :
      Merged loads branch [⟨.run (pullRequestCommand branch), .ok ⟨0, stdout, stderr⟩⟩]

/-- git reports no local changes. -/
inductive Clean (target : List Char) : List HostCall → Prop
  | mk {stdout : List Char} (hblank : stripped stdout = []) :
      Clean target [⟨.git (statusArguments target), .ok stdout⟩]

/-- None of the recorded processes is there. -/
inductive Gone : JsonObject → List HostCall → Prop
  | nil : Gone [] []
  | unnumbered {name : String} {metadata processes : JsonObject} {calls : List HostCall}
      (hpid : intOf (JsonObject.get metadata "pid") = none) (h : Gone processes calls) :
      Gone ((name, .dict metadata) :: processes) calls
  | dead {name : String} {metadata processes : JsonObject} {pid : ℤ} {calls : List HostCall}
      (hpid : intOf (JsonObject.get metadata "pid") = some pid) (h : Gone processes calls) :
      Gone ((name, .dict metadata) :: processes)
        (⟨.kill pid, .error .processLookupError⟩ :: calls)

/-- No processes are recorded, or none of them is there. -/
inductive Stopped (loads : List Char → Option JsonValue) (target : List Char) :
    List HostCall → Prop
  | unrecorded :
      Stopped loads target [⟨.readText (inRunDirectory target "processes.json".toList), .ok none⟩]
  | gone {text : List Char} {payload processes : JsonObject} {calls : List HostCall}
      (hpayload : loads text = some (.dict payload))
      (hprocesses : (JsonObject.get payload "processes").getD (.dict []) = .dict processes)
      (h : Gone processes calls) :
      Stopped loads target
        (⟨.readText (inRunDirectory target "processes.json".toList), .ok (some text)⟩ :: calls)

/-- There is no stack, or Docker lists no containers of its project. -/
inductive Down (target : List Char) : List HostCall → Prop
  | unallocated :
      Down target [⟨.readText (inRunDirectory target "stack.env".toList), .ok none⟩]
  | empty {text project stdout stderr : List Char}
      (hproject : readDotenv (some text) "COMPOSE_PROJECT_NAME".toList = some project)
      (hname : project ≠ []) (hblank : stripped stdout = []) :
      Down target [⟨.readText (inRunDirectory target "stack.env".toList), .ok (some text)⟩,
        ⟨.which "docker".toList, .ok true⟩,
        ⟨.run (containersCommand project), .ok ⟨0, stdout, stderr⟩⟩]

/-- **All the evidence** for the removal of a worktree, in the order in which it is asked for. -/
structure Evidence (worktree : Worktree) (loads : List Char → Option JsonValue)
    (branch target : List Char) (calls : List HostCall) : Prop where
  main_ne : branch ≠ "main".toList
  master_ne : branch ≠ "master".toList
  checks : ∃ found merged clean stopped down,
    calls = found ++ (merged ++ (clean ++ (stopped ++ down))) ∧
      Found worktree branch target found ∧ Merged loads branch merged ∧ Clean target clean ∧
      Stopped loads target stopped ∧ Down target down

section Checks

open Program

theorem ask_reaches {c : HostCommand} {a : c.Reply} :
    (ask c).Reaches calls (.ret a) ↔ calls = [⟨c, .ok a⟩] :=
  reaches_perform_ret

theorem not_toolError_reaches {α : Type} {message : List Char} {a : α} :
    ¬ (toolError message).Reaches calls (.ret a) :=
  not_raise_reaches_ret

theorem asDict_reaches {value : JsonValue} {values : JsonObject} :
    (asDict value).Reaches calls (.ret values) ↔ calls = [] ∧ value = .dict values := by
  constructor
  · intro h
    cases value with
    | dict items =>
      obtain ⟨rfl, rfl⟩ := reaches_ret_ret.mp h
      exact ⟨rfl, rfl⟩
    | _ => exact absurd h not_raise_reaches_ret
  · rintro ⟨rfl, rfl⟩
    exact .nil _

theorem loadJson_reaches {text : List Char} {values : JsonObject} :
    (loadJson loads text).Reaches calls (.ret values) ↔
      calls = [] ∧ loads text = some (.dict values) := by
  rw [loadJson]
  cases loads text with
  | none =>
    constructor
    · intro h
      exact absurd h not_raise_reaches_ret
    · rintro ⟨-, h⟩
      cases h
  | some value => exact asDict_reaches.trans (and_congr_right fun _ => by rw [Option.some_inj])

/-- Only a process that is not found counts as dead. -/
theorem pidAlive_reaches {pid : ℤ} :
    (pidAlive pid).Reaches calls (.ret false) ↔
      calls = [⟨.kill pid, .error .processLookupError⟩] := by
  constructor
  · intro h
    rcases h with _ | @⟨_, _, r, rest, _, h⟩
    rcases r with e | u
    · cases e with
      | processLookupError =>
        obtain ⟨rfl, -⟩ := reaches_ret_ret.mp h
        rfl
      | permissionError => exact absurd (reaches_ret_ret.mp h).2 (by decide)
      | _ => exact absurd h not_raise_reaches_ret
    · exact absurd (reaches_ret_ret.mp h).2 (by decide)
  · rintro rfl
    exact .call (.nil _)

theorem findTarget_reaches :
    (findTarget worktree branch).Reaches calls (.ret target) ↔
      Found worktree branch target calls := by
  constructor
  · intro h
    obtain ⟨stdout, first, rest, rfl, hfirst, hrest⟩ := reaches_bind_ret.mp h
    obtain rfl := ask_reaches.mp hfirst
    -- without a worktree on the branch it refuses
    cases hentry : (worktrees stdout).find? (isOn branch) with
    | none =>
      rw [hentry] at hrest
      exact absurd hrest not_toolError_reaches
    | some entry =>
      rw [hentry] at hrest
      dsimp only at hrest
      cases hpath : entry "worktree".toList with
      | none =>
        rw [hpath] at hrest
        exact absurd hrest not_raise_reaches_ret
      | some path =>
        rw [hpath] at hrest
        dsimp only at hrest
        -- the root worktree is not for cleaning
        by_cases hroot : worktree.resolve path = worktree.resolvedRoot
        · rw [if_pos hroot] at hrest
          exact absurd hrest not_toolError_reaches
        · rw [if_neg hroot] at hrest
          obtain ⟨rfl, rfl⟩ := reaches_ret_ret.mp hrest
          exact .mk hentry hpath rfl hroot
  -- conversely, the calls found determine each answer
  · rintro ⟨hentry, hpath, rfl, hother⟩
    refine reaches_bind_ret.mpr ⟨_, _, [], rfl, ask_reaches.mpr rfl, ?_⟩
    rw [hentry]
    dsimp only
    rw [hpath]
    dsimp only
    rw [if_neg hother]
    exact .nil _

theorem verifyMerged_reaches :
    (verifyMerged loads branch).Reaches calls (.ret ()) ↔ Merged loads branch calls := by
  constructor
  · intro h
    obtain ⟨result, first, rest, rfl, hfirst, hrest⟩ := reaches_bind_ret.mp h
    obtain rfl := ask_reaches.mp hfirst
    obtain ⟨returncode, stdout, stderr⟩ := result
    by_cases hcode : returncode = 0
    · subst hcode
      rw [if_neg (not_not.mpr rfl)] at hrest
      obtain ⟨pr, first, rest, rfl, hload, hlast⟩ := reaches_bind_ret.mp hrest
      obtain ⟨rfl, hpr⟩ := loadJson_reaches.mp hload
      split at hlast
      · next hstate hmerged =>
        obtain ⟨rfl, -⟩ := reaches_ret_ret.mp hlast
        exact .mk hpr hstate hmerged
      · exact absurd hlast not_toolError_reaches
    · rw [if_pos hcode] at hrest
      exact absurd hrest not_toolError_reaches
  · rintro ⟨hpr, hstate, hmerged⟩
    refine reaches_bind_ret.mpr ⟨_, _, [], rfl, ask_reaches.mpr rfl, ?_⟩
    rw [if_neg (not_not.mpr rfl)]
    refine reaches_bind_ret.mpr ⟨_, [], [], rfl, loadJson_reaches.mpr ⟨rfl, hpr⟩, ?_⟩
    rw [hstate, hmerged]
    exact .nil _

theorem verifyClean_reaches :
    (verifyClean target).Reaches calls (.ret ()) ↔ Clean target calls := by
  constructor
  · intro h
    obtain ⟨stdout, first, rest, rfl, hfirst, hrest⟩ := reaches_bind_ret.mp h
    obtain rfl := ask_reaches.mp hfirst
    by_cases hblank : stripped stdout = []
    · rw [if_neg (not_not.mpr hblank)] at hrest
      obtain ⟨rfl, -⟩ := reaches_ret_ret.mp hrest
      exact .mk hblank
    · rw [if_pos hblank] at hrest
      exact absurd hrest not_toolError_reaches
  · rintro ⟨hblank⟩
    refine reaches_bind_ret.mpr ⟨_, _, [], rfl, ask_reaches.mpr rfl, ?_⟩
    rw [if_neg (not_not.mpr hblank)]
    exact .nil _

/-- The loop goes through all recorded processes. -/
theorem refuseRunning_reaches {processes : JsonObject} :
    (refuseRunning target processes).Reaches calls (.ret ()) ↔ Gone processes calls := by
  induction processes generalizing calls with
  | nil =>
    constructor
    · intro h
      obtain ⟨rfl, -⟩ := reaches_ret_ret.mp h
      exact .nil
    · rintro ⟨⟩
      exact .nil _
  | cons item processes ih =>
    obtain ⟨name, value⟩ := item
    -- one process of the record after the other; those without a number are passed over
    constructor
    · intro h
      obtain ⟨metadata, first, rest, rfl, hdict, hrest⟩ := reaches_bind_ret.mp h
      obtain ⟨rfl, rfl⟩ := asDict_reaches.mp hdict
      cases hpid : intOf (JsonObject.get metadata "pid") with
      | none =>
        rw [hpid] at hrest
        exact .unnumbered hpid (ih.mp hrest)
      | some pid =>
        rw [hpid] at hrest
        obtain ⟨alive, first, rest, rfl, hfirst, hlast⟩ := reaches_bind_ret.mp hrest
        cases alive with
        | true =>
          rw [if_pos rfl] at hlast
          exact absurd hlast not_toolError_reaches
        | false =>
          obtain rfl := pidAlive_reaches.mp hfirst
          rw [if_neg Bool.false_ne_true] at hlast
          exact .dead hpid (ih.mp hlast)
    · intro h
      cases h with
      | unnumbered hpid h =>
        refine reaches_bind_ret.mpr ⟨_, [], _, rfl, asDict_reaches.mpr ⟨rfl, rfl⟩, ?_⟩
        rw [hpid]
        exact ih.mpr h
      | dead hpid h =>
        refine reaches_bind_ret.mpr ⟨_, [], _, rfl, asDict_reaches.mpr ⟨rfl, rfl⟩, ?_⟩
        rw [hpid]
        refine reaches_bind_ret.mpr ⟨false, [_], _, rfl, pidAlive_reaches.mpr rfl, ?_⟩
        rw [if_neg Bool.false_ne_true]
        exact ih.mpr h

theorem verifyStopped_reaches :
    (verifyStopped loads target).Reaches calls (.ret ()) ↔ Stopped loads target calls := by
  constructor
  · intro h
    obtain ⟨found, first, rest, rfl, hfirst, hrest⟩ := reaches_bind_ret.mp h
    obtain rfl := ask_reaches.mp hfirst
    cases found with
    | none =>
      obtain ⟨rfl, -⟩ := reaches_ret_ret.mp hrest
      exact .unrecorded
    | some text =>
      obtain ⟨payload, first, rest, rfl, hload, hloaded⟩ := reaches_bind_ret.mp hrest
      obtain ⟨rfl, hpayload⟩ := loadJson_reaches.mp hload
      obtain ⟨processes, first, rest, rfl, hdict, hlast⟩ := reaches_bind_ret.mp hloaded
      obtain ⟨rfl, hprocesses⟩ := asDict_reaches.mp hdict
      exact .gone hpayload hprocesses (refuseRunning_reaches.mp hlast)
  · intro h
    cases h with
    | unrecorded => exact reaches_bind_ret.mpr ⟨_, _, [], rfl, ask_reaches.mpr rfl, .nil _⟩
    | gone hpayload hprocesses h =>
      refine reaches_bind_ret.mpr ⟨_, [_], _, rfl, ask_reaches.mpr rfl, ?_⟩
      refine reaches_bind_ret.mpr ⟨_, [], _, rfl, loadJson_reaches.mpr ⟨rfl, hpayload⟩, ?_⟩
      exact reaches_bind_ret.mpr ⟨_, [], _, rfl, asDict_reaches.mpr ⟨rfl, hprocesses⟩,
        refuseRunning_reaches.mpr h⟩

theorem verifyDown_reaches :
    (verifyDown target).Reaches calls (.ret ()) ↔ Down target calls := by
  constructor
  · intro h
    obtain ⟨found, first, rest, rfl, hfirst, hrest⟩ := reaches_bind_ret.mp h
    obtain rfl := ask_reaches.mp hfirst
    cases found with
    | none =>
      obtain ⟨rfl, -⟩ := reaches_ret_ret.mp hrest
      exact .unallocated
    | some text =>
      -- a record that cannot be read, or without a project, is refused
      dsimp only at hrest
      split at hrest
      · exact absurd hrest not_toolError_reaches
      · exact absurd hrest not_toolError_reaches
      · next project hname hproject =>
        obtain ⟨docker, first, rest, rfl, hwhich, hfound⟩ := reaches_bind_ret.mp hrest
        obtain rfl := ask_reaches.mp hwhich
        -- so is a host without docker, or with containers left
        cases docker with
        | false =>
          rw [if_neg Bool.false_ne_true] at hfound
          exact absurd hfound not_toolError_reaches
        | true =>
          rw [if_pos rfl] at hfound
          obtain ⟨containers, first, rest, rfl, hlist, hlast⟩ := reaches_bind_ret.mp hfound
          obtain rfl := ask_reaches.mp hlist
          obtain ⟨returncode, stdout, stderr⟩ := containers
          split at hlast
          · exact absurd hlast not_toolError_reaches
          · next hcode =>
            split at hlast
            · exact absurd hlast not_toolError_reaches
            · next hblank =>
              obtain rfl : returncode = 0 := not_not.mp hcode
              obtain ⟨rfl, -⟩ := reaches_ret_ret.mp hlast
              exact .empty hproject hname (not_not.mp hblank)
  · intro h
    cases h with
    | unallocated => exact reaches_bind_ret.mpr ⟨_, _, [], rfl, ask_reaches.mpr rfl, .nil _⟩
    | @empty text project stdout stderr hproject hname hblank =>
      refine reaches_bind_ret.mpr ⟨_, [_], _, rfl, ask_reaches.mpr rfl, ?_⟩
      dsimp only
      rw [hproject]
      obtain ⟨c, cs, rfl⟩ := List.exists_cons_of_ne_nil hname
      refine reaches_bind_ret.mpr ⟨true, [_], _, rfl, ask_reaches.mpr rfl, ?_⟩
      refine reaches_bind_ret.mpr ⟨_, [_], [], rfl, ask_reaches.mpr rfl, ?_⟩
      rw [if_neg (not_not.mpr rfl), if_neg (not_not.mpr hblank)]
      exact .nil _

/-! ### What is changed -/

/-- The commands that change nothing. -/
inductive ReadsOnly : HostCommand → Prop
  | worktreeList : ReadsOnly (.git worktreeListArguments)
  | status (target : List Char) : ReadsOnly (.git (statusArguments target))
  | pullRequest (branch : List Char) : ReadsOnly (.run (pullRequestCommand branch))
  | containers (project : List Char) : ReadsOnly (.run (containersCommand project))
  | readText (path : List Char) : ReadsOnly (.readText path)
  | kill (pid : ℤ) : ReadsOnly (.kill pid)
  | which (program : List Char) : ReadsOnly (.which program)
  | notice (message : List Char) : ReadsOnly (.notice message)

theorem issues_asDict {value : JsonValue} : Program.Issues ReadsOnly (asDict value) := by
  cases value with
  | dict items => exact .ret _
  | _ => exact .raise _

theorem issues_loadJson {text : List Char} : Program.Issues ReadsOnly (loadJson loads text) := by
  rw [loadJson]
  cases loads text with
  | none => exact .raise _
  | some value => exact issues_asDict

theorem issues_pidAlive {pid : ℤ} : Program.Issues ReadsOnly (pidAlive pid) := by
  refine .handle (.bind (.perform (.kill pid)) fun _ => .ret _) fun e => ?_
  cases e with
  | processLookupError => exact .ret _
  | permissionError => exact .ret _
  | _ => exact .raise _

theorem issues_findTarget : Program.Issues ReadsOnly (findTarget worktree branch) := by
  refine .bind (.perform .worktreeList) fun stdout => ?_
  split
  · exact .raise _
  · split
    · exact .raise _
    · split
      · exact .raise _
      · exact .ret _

theorem issues_verifyMerged : Program.Issues ReadsOnly (verifyMerged loads branch) := by
  refine .bind (.perform (.pullRequest branch)) fun result => ?_
  split
  · exact .raise _
  · refine .bind issues_loadJson fun pr => ?_
    split
    · exact .ret _
    · exact .raise _

theorem issues_verifyClean : Program.Issues ReadsOnly (verifyClean target) := by
  refine .bind (.perform (.status target)) fun stdout => ?_
  split
  · exact .raise _
  · exact .ret _

theorem issues_refuseRunning {processes : JsonObject} :
    Program.Issues ReadsOnly (refuseRunning target processes) := by
  induction processes with
  | nil => exact .ret _
  | cons item processes ih =>
    refine .bind issues_asDict fun metadata => ?_
    split
    · exact ih
    · refine .bind issues_pidAlive fun alive => ?_
      split
      · exact .raise _
      · exact ih

theorem issues_verifyStopped : Program.Issues ReadsOnly (verifyStopped loads target) := by
  refine .bind (.perform (.readText _)) fun found => ?_
  split
  · exact .ret _
  · exact .bind issues_loadJson fun payload => .bind issues_asDict fun processes =>
      issues_refuseRunning

theorem issues_verifyDown : Program.Issues ReadsOnly (verifyDown target) := by
  refine .bind (.perform (.readText _)) fun found => ?_
  split
  · exact .ret _
  · split
    · exact .raise _
    · exact .raise _
    · refine .bind (.perform (.which _)) fun docker => ?_
      split
      · refine .bind (.perform (.containers _)) fun containers => ?_
        split
        · exact .raise _
        · split
          · exact .raise _
          · exact .ret _
      · exact .raise _

theorem issues_showNotices {messages : List (List Char)} :
    Program.Issues ReadsOnly (showNotices messages) := by
  induction messages with
  | nil => exact .ret _
  | cons message messages ih => exact .bind (.perform (.notice message)) fun _ => ih

/-- A command of git that has succeeded. -/
def shownCall (arguments : List (List Char)) : HostCall := ⟨.gitShown arguments, .ok ()⟩

theorem shown_reaches {all : List (List (List Char))} :
    (shown all).Reaches calls (.ret ()) ↔ calls = all.map shownCall := by
  induction all generalizing calls with
  | nil => exact reaches_ret_ret.trans (and_iff_left rfl)
  | cons arguments all ih =>
    constructor
    · intro h
      obtain ⟨_, first, rest, rfl, hfirst, hrest⟩ := reaches_bind_ret.mp h
      rw [ask_reaches.mp hfirst, ih.mp hrest]
      rfl
    · rintro rfl
      exact reaches_bind_ret.mpr ⟨(), [_], _, rfl, ask_reaches.mpr rfl, ih.mpr rfl⟩

/-- One command follows the other. -/
theorem shown_reaches_call {all : List (List (List Char))} {c : HostCommand} :
    (∃ k, (shown all).Reaches calls (.call c k)) ↔
      ∃ done next rest, all = done ++ next :: rest ∧ calls = done.map shownCall ∧
        c = .gitShown next := by
  -- a message is shown once those before it are
  induction all generalizing calls with
  | nil =>
    constructor
    · rintro ⟨k, h⟩
      exact absurd h not_ret_reaches_call
    · rintro ⟨done, next, rest, hall, -⟩
      exact absurd hall (List.append_ne_nil_of_right_ne_nil _ (List.cons_ne_nil _ _)).symm
  | cons arguments all ih =>
    constructor
    · rintro ⟨k, h⟩
      cases h with
      | nil => exact ⟨[], arguments, all, rfl, rfl, rfl⟩
      | @call _ _ r _ _ h =>
        cases r with
        | error e => cases h
        | ok _ =>
          obtain ⟨done, next, rest, rfl, rfl, rfl⟩ := ih.mp ⟨k, h⟩
          exact ⟨arguments :: done, next, rest, rfl, rfl, rfl⟩
    · rintro ⟨done, next, rest, hall, rfl, rfl⟩
      cases done with
      | nil =>
        obtain ⟨rfl, rfl⟩ := List.cons.inj hall
        exact ⟨_, .nil _⟩
      | cons first done =>
        obtain ⟨rfl, rfl⟩ := List.cons.inj hall
        obtain ⟨k, h⟩ := ih.mpr ⟨done, next, rest, rfl, rfl, rfl⟩
        exact ⟨k, .call h⟩

/-- Nothing is changed after the removals. -/
theorem removeWorktree_reaches_call {c : HostCommand} (hc : ¬ ReadsOnly c) :
    (∃ k, (removeWorktree branch target).Reaches calls (.call c k)) ↔
      ∃ done next rest, removals branch target = done ++ next :: rest ∧
        calls = done.map shownCall ∧ c = .gitShown next := by
  rw [← shown_reaches_call]
  constructor
  · rintro ⟨k, h⟩
    rcases h.bind_cases with ⟨p', hp', hb⟩ | ⟨_, first, rest, rfl, -, hrest⟩
    · cases p' with
      | ret a =>
        -- only notices are left
        have hcall : Program.Issues ReadsOnly (showNotices (notices branch target)) :=
          issues_showNotices
        rw [show showNotices (notices branch target) = .call c k from hb.symm] at hcall
        exact absurd hcall.1 hc
      | raise e => cases hb
      | call c' k' =>
        cases hb
        exact ⟨k', hp'⟩
    · exact absurd (issues_showNotices.reached hrest).1 hc
  · rintro ⟨k, h⟩
    exact ⟨_, h.bind_context⟩

/-- A place that no check comes to is reached after all of them. -/
theorem cleanWorktree_reaches {place : HostProgram Unit}
    (hraise : ∀ e rest, ¬ (Program.raise e : HostProgram Unit).Reaches rest place)
    (hbind : ∀ {α : Type} {check : HostProgram α} {f : α → HostProgram Unit} {calls},
      Program.Issues ReadsOnly check → ((check.bind f).Reaches calls place ↔
        ∃ a first rest, calls = first ++ rest ∧ check.Reaches first (.ret a) ∧
          (f a).Reaches rest place)) :
    (cleanWorktree worktree loads branch).Reaches calls place ↔
      ∃ target evidence rest, Evidence worktree loads branch target evidence ∧
        calls = evidence ++ rest ∧ (removeWorktree branch target).Reaches rest place := by
  rw [cleanWorktree]
  constructor
  · intro h
    split at h
    · exact absurd h (hraise _ _)
    · next hbranch =>
      rw [not_or] at hbranch
      -- the place is in none of the checks, so that each has returned
      obtain ⟨target, found, rest, rfl, hfound, h⟩ := (hbind issues_findTarget).mp h
      obtain ⟨_, merged, rest, rfl, hmerged, h⟩ := (hbind issues_verifyMerged).mp h
      obtain ⟨_, clean, rest, rfl, hclean, h⟩ := (hbind issues_verifyClean).mp h
      obtain ⟨_, stopped, rest, rfl, hstopped, h⟩ := (hbind issues_verifyStopped).mp h
      obtain ⟨_, down, rest, rfl, hdown, h⟩ := (hbind issues_verifyDown).mp h
      refine ⟨target, found ++ (merged ++ (clean ++ (stopped ++ down))), rest,
        ⟨hbranch.1, hbranch.2, _, _, _, _, _, rfl, findTarget_reaches.mp hfound,
          verifyMerged_reaches.mp hmerged, verifyClean_reaches.mp hclean,
          verifyStopped_reaches.mp hstopped, verifyDown_reaches.mp hdown⟩, ?_, h⟩
      simp only [List.append_assoc]
  · rintro ⟨target, _, rest, ⟨hmain, hmaster, found, merged, clean, stopped, down, rfl, hfound,
      hmerged, hclean, hstopped, hdown⟩, rfl, h⟩
    rw [if_neg (not_or.mpr ⟨hmain, hmaster⟩)]
    simp only [List.append_assoc]
    exact (findTarget_reaches.mpr hfound).bind_append
      ((verifyMerged_reaches.mpr hmerged).bind_append
        ((verifyClean_reaches.mpr hclean).bind_append
          ((verifyStopped_reaches.mpr hstopped).bind_append
            ((verifyDown_reaches.mpr hdown).bind_append h))))

/-- What the command says once all is done. -/
theorem showNotices_reaches {messages : List (List Char)} :
    (showNotices messages).Reaches calls (.ret ()) ↔
      calls = messages.map fun message => ⟨.notice message, .ok ()⟩ := by
  induction messages generalizing calls with
  | nil => exact reaches_ret_ret.trans (and_iff_left rfl)
  | cons message messages ih =>
    constructor
    · intro h
      obtain ⟨_, first, rest, rfl, hfirst, hrest⟩ := reaches_bind_ret.mp h
      rw [ask_reaches.mp hfirst, ih.mp hrest]
      rfl
    · rintro rfl
      exact reaches_bind_ret.mpr ⟨(), [_], _, rfl, ask_reaches.mpr rfl, ih.mpr rfl⟩

theorem cleanWorktree_reaches_call {c : HostCommand} (hc : ¬ ReadsOnly c)
    {k : Except CleanupException c.Reply → HostProgram Unit} :
    (cleanWorktree worktree loads branch).Reaches calls (.call c k) ↔
      ∃ target evidence rest, Evidence worktree loads branch target evidence ∧
        calls = evidence ++ rest ∧ (removeWorktree branch target).Reaches rest (.call c k) := by
  refine cleanWorktree_reaches (fun e rest h => ?_) fun hcheck => hcheck.reaches_bind_call hc
  cases h

theorem not_readsOnly_gitShown {arguments : List (List Char)} :
    ¬ ReadsOnly (.gitShown arguments) := by
  intro h
  cases h

/-- **What changes anything** is a removal whose predecessors have succeeded, once all the evidence
is there; and it is always come to then. -/
theorem cleanWorktree_changes_iff {c : HostCommand} :
    ((∃ k, (cleanWorktree worktree loads branch).Reaches calls (.call c k)) ∧ ¬ ReadsOnly c) ↔
      ∃ target evidence done next rest, Evidence worktree loads branch target evidence ∧
        removals branch target = done ++ next :: rest ∧ calls = evidence ++ done.map shownCall ∧
        c = .gitShown next := by
  constructor
  · rintro ⟨⟨k, h⟩, hc⟩
    obtain ⟨target, evidence, rest, hevidence, rfl, hremove⟩ :=
      (cleanWorktree_reaches_call hc).mp h
    obtain ⟨done, next, rest, hall, rfl, rfl⟩ := (removeWorktree_reaches_call hc).mp ⟨k, hremove⟩
    exact ⟨target, evidence, done, next, rest, hevidence, hall, rfl, rfl⟩
  · rintro ⟨target, evidence, done, next, rest, hevidence, hall, rfl, rfl⟩
    obtain ⟨k, hremove⟩ := (removeWorktree_reaches_call not_readsOnly_gitShown).mpr
      ⟨done, next, rest, hall, rfl, rfl⟩
    exact ⟨⟨k, (cleanWorktree_reaches_call not_readsOnly_gitShown).mpr
      ⟨target, evidence, _, hevidence, rfl, hremove⟩⟩, not_readsOnly_gitShown⟩

/-- **What is removed** is a worktree that git lists on the branch, and another one than that of
the command. -/
theorem cleanWorktree_removes_listed {ws : List GitWorktree} (hws : ∀ w ∈ ws, w.WellFormed)
    (hlist : calls.head? = some ⟨.git worktreeListArguments, .ok (porcelain ws)⟩)
    {c : HostCommand} {k : Except CleanupException c.Reply → HostProgram Unit}
    (h : (cleanWorktree worktree loads branch).Reaches calls (.call c k)) (hc : ¬ ReadsOnly c) :
    ∃ w ∈ ws, w.checkout.ref = some ("refs/heads/".toList ++ branch) ∧
      worktree.resolve w.path ≠ worktree.resolvedRoot ∧
      ∃ arguments ∈ removals branch (worktree.resolve w.path), c = .gitShown arguments := by
  obtain ⟨target, evidence, rest, ⟨-, -, found, merged, clean, stopped, down, rfl, hfound, -⟩, rfl,
    hremove⟩ := (cleanWorktree_reaches_call hc).mp h
  obtain ⟨done, next, rest, hall, -, rfl⟩ := (removeWorktree_reaches_call hc).mp ⟨k, hremove⟩
  obtain ⟨hentry, hpath, rfl, hother⟩ := hfound
  -- the listing is the first call, and what is removed has been found in it
  cases hlist
  obtain ⟨w, hw, rfl, href⟩ := findWorktree_porcelain hws hentry
  obtain rfl := Option.some_inj.mp ((hws w hw).record_path.symm.trans hpath)
  refine ⟨w, hw, href, hother, next, ?_, rfl⟩
  rw [hall]
  exact List.mem_append_right _ List.mem_cons_self

/-- A worktree on the branch `feature`. -/
def featureWorktree : GitWorktree where
  path := "/srv/feature".toList
  checkout := .branch "1f2e3d".toList "refs/heads/feature".toList
  notes := []

theorem featureWorktree_wellFormed : featureWorktree.WellFormed where
  isLine := by
    have hlines : featureWorktree.lines.all (fun line => line.all fun c =>
      decide (c ∉ lineBoundaries)) = true := by decide
    have hne : ∀ line ∈ featureWorktree.lines, line ≠ [] := by decide
    intro line hline
    exact ⟨hne line hline, fun c hc =>
      of_decide_eq_true (List.all_eq_true.mp (List.all_eq_true.mp hlines line hline) c hc)⟩
  last := by
    have hlast : (joinLines featureWorktree.lines).getLast? = some 'e' := rfl
    intro c hc
    rw [hlast] at hc
    obtain rfl := Option.some_inj.mp hc
    decide
  isNote := fun line hline => absurd hline List.not_mem_nil

/-- Whatever text is read, it says that the pull request has been merged. -/
def mergedPullRequest (_ : List Char) : Option JsonValue :=
  some (.dict [("state", .str "MERGED"), ("mergedAt", .str "2026-01-05T09:00:00Z")])

/-- The calls of the checks, in a worktree that has never been used. -/
def featureCalls : List HostCall :=
  [⟨.git worktreeListArguments, .ok (porcelain [featureWorktree])⟩,
    ⟨.run (pullRequestCommand "feature".toList), .ok ⟨0, [], []⟩⟩,
    ⟨.git (statusArguments featureWorktree.path), .ok []⟩,
    ⟨.readText (inRunDirectory featureWorktree.path "processes.json".toList), .ok none⟩,
    ⟨.readText (inRunDirectory featureWorktree.path "stack.env".toList), .ok none⟩]

theorem evidence_featureCalls :
    Evidence spacedWorktree mergedPullRequest "feature".toList featureWorktree.path
      featureCalls where
  main_ne := by decide
  master_ne := by decide
  checks := ⟨[_], [_], [_], [_], [_], rfl, .mk rfl rfl rfl (by decide), .mk rfl rfl rfl, .mk rfl,
    .unrecorded, .unallocated⟩

/-- It is removed. -/
theorem cleanWorktree_removes_listed_feature :
    ∃ w ∈ [featureWorktree], w.checkout.ref = some ("refs/heads/".toList ++ "feature".toList) ∧
      spacedWorktree.resolve w.path ≠ spacedWorktree.resolvedRoot ∧
      ∃ arguments ∈ removals "feature".toList (spacedWorktree.resolve w.path),
        HostCommand.gitShown ["worktree".toList, "remove".toList, "/srv/feature".toList] =
          .gitShown arguments := by
  obtain ⟨k, hremove⟩ := (removeWorktree_reaches_call not_readsOnly_gitShown).mpr
    ⟨[], ["worktree".toList, "remove".toList, featureWorktree.path], _, rfl, rfl, rfl⟩
  have hreaches := (cleanWorktree_reaches_call not_readsOnly_gitShown).mpr
    ⟨_, featureCalls, [], evidence_featureCalls, rfl, hremove⟩
  refine cleanWorktree_removes_listed (fun w hw => ?_) rfl hreaches not_readsOnly_gitShown
  rw [List.mem_singleton.mp hw]
  exact featureWorktree_wellFormed

/-- The command returns once everything is removed. -/
theorem cleanWorktree_returns_iff :
    (cleanWorktree worktree loads branch).Reaches calls (.ret ()) ↔
      ∃ target evidence, Evidence worktree loads branch target evidence ∧
        calls = evidence ++ ((removals branch target).map shownCall ++
          (notices branch target).map fun message => ⟨.notice message, .ok ()⟩) := by
  refine (cleanWorktree_reaches (fun e rest => not_raise_reaches_ret)
    fun _ => reaches_bind_ret).trans ?_
  constructor
  · rintro ⟨target, evidence, rest, hevidence, rfl, h⟩
    obtain ⟨_, removed, printed, rfl, hremoved, hprinted⟩ := reaches_bind_ret.mp h
    rw [shown_reaches.mp hremoved, showNotices_reaches.mp hprinted]
    exact ⟨target, evidence, hevidence, rfl⟩
  · rintro ⟨target, evidence, hevidence, rfl⟩
    exact ⟨target, evidence, _, hevidence, rfl, reaches_bind_ret.mpr ⟨(), _, _, rfl,
      shown_reaches.mpr rfl, showNotices_reaches.mpr rfl⟩⟩

end Checks

end Command

end Lsstack
