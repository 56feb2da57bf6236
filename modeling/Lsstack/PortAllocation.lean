/-
The ports of a stack.

`_allocate_ports` asks of each port of a block whether it is free, and goes on to other blocks
where one is not.  What it is answered stays open: a port may be taken or given up between two
questions.

* `allFree_reaches` — a block is taken once each of its ports has been found free;
* **`allocatePorts_returns`** — the ports are six different ones that an unprivileged process may
  bind, each found free by this search, and those asked for where a base is set.
-/
import Lsstack.Reaching
import Lsstack.StackIdentity

namespace Lsstack

open Concurrency

/-! ### The search -/

/-- `_port_is_free`, and a line of output. -/
inductive PortCommand where
  | free (port : ℤ)
  | notice (message : List Char)

abbrev PortCommand.Reply : PortCommand → Type
  | .free _ => Bool
  | .notice _ => Unit

/-- Code that raises the message of a `ToolError`. -/
abbrev PortProgram := Program PortCommand PortCommand.Reply (List Char)

/-- A question with its answer. -/
abbrev PortCall := (c : PortCommand) × Except (List Char) c.Reply

def portIsFree (port : ℤ) : PortProgram Bool := Program.perform (PortCommand.free port)

/-- `notice`. -/
def announce (message : List Char) : PortProgram Unit :=
  Program.perform (PortCommand.notice message)

/-- `tuple(base + offset for offset in range(6))`. -/
def portBlock (base : ℤ) (h : 0 ≤ base ∧ base ≤ 65530) : Ports where
  app := base
  postgres := base + 1
  nginx := base + 2
  grafana := base + 3
  otlpGrpc := base + 4
  otlpHttp := base + 5
  isPort := by
    intro port hport
    simp only [List.mem_cons, List.not_mem_nil, or_false] at hport
    omega

/-- `STANDARD_PORTS`. -/
def standardPorts : Ports := ⟨8000, 5432, 8080, 3000, 4317, 4318, by decide⟩

def Ports.all (ports : Ports) : List ℤ :=
  [ports.app, ports.postgres, ports.nginx, ports.grafana, ports.otlpGrpc, ports.otlpHttp]

/-- `int(text, 16)` of hexadecimal digits. -/
def hexNumber (digits : List Char) : ℕ := digits.foldl (fun n c => 16 * n + hexValue c) 0

theorem digits_fit (digits : List Char) :
    (0 : ℤ) ≤ 20000 + (hexNumber digits % 2000 * 10 : ℕ) ∧
      20000 + ((hexNumber digits % 2000 * 10 : ℕ) : ℤ) ≤ 65530 := by
  omega

theorem base_fits {base : ℤ} (h : 1024 ≤ base ∧ base ≤ 65529) : 0 ≤ base ∧ base ≤ 65530 := by
  omega

section Search

-- `override` is `LSSTACK_PORT_BASE`, and `primary` what `_primary_checkout` answers
variable (worktree : Worktree) (override : Option (List Char)) (primary : Bool)

/-- `_preferred_ports`. -/
def preferredPorts : Except (List Char) Ports :=
  match override with
  | some text =>
    match worktree.decimals.int text with
    | none => .error "LSSTACK_PORT_BASE must be an integer.".toList
    | some base =>
      if h : 1024 ≤ base ∧ base ≤ 65529 then .ok (portBlock base (base_fits h))
      else .error "LSSTACK_PORT_BASE must be between 1024 and 65529.".toList
  | none =>
    if primary then .ok standardPorts
    else
      let digits := (worktree.hexdigest worktree.resolvedRoot).take 8
      .ok (portBlock (20000 + (hexNumber digits % 2000 * 10 : ℕ)) (digits_fit digits))

/-- `all(_port_is_free(port) for port in ports)`. -/
def allFree : List ℤ → PortProgram Bool
  | [] => return true
  | port :: ports => do
    let free ← portIsFree port
    if free then allFree ports else return false

/-- `[str(port) for port in ports if not _port_is_free(port)]`. -/
def busyPorts : List ℤ → PortProgram (List (List Char))
  | [] => return []
  | port :: ports => do
    let free ← portIsFree port
    let busy ← busyPorts ports
    return if free then busy else integerText port :: busy

def noFreeBlock : List Char :=
  "Unable to find a free six-port block. Set LSSTACK_PORT_BASE explicitly.".toList

/-- The loop over the fallback blocks, which ends at one whose last port is above 65535; the range
it announces is that of the block. -/
def searchBlocks (start : ℕ) : List ℕ → PortProgram Ports
  | [] => throw noFreeBlock
  | block :: blocks => do
    if h : 65535 < start + block * 10 + 5 then throw noFreeBlock
    else
      let candidate := portBlock (start + block * 10 : ℕ) (by omega)
      let free ← allFree candidate.all
      if free then
        announce ("Preferred ports were busy; selected fallback block ".toList ++
          integerText candidate.app ++ "-".toList ++ integerText candidate.otlpHttp ++ ".".toList)
        return candidate
      else searchBlocks start blocks

/-- Where the fallback blocks begin. -/
def fallbackStart : ℕ := 40000 + hexNumber ((worktree.hexdigest worktree.root).take 6) % 500

/-- `_allocate_ports`. -/
def allocatePorts : PortProgram Ports :=
  match preferredPorts worktree override primary with
  | .error message => throw message
  | .ok preferred => do
    let free ← allFree preferred.all
    if free then return preferred
    else if override.isSome then
      let busy ← busyPorts preferred.all
      throw ("Requested LSSTACK_PORT_BASE includes busy ports: ".toList ++
        ", ".toList.intercalate busy)
    else searchBlocks (fallbackStart worktree) (List.range 500)

/-! ### What is found -/

variable {worktree override primary} {calls : List PortCall} {ports : Ports}

open Program

/-- **A block is free** if each of its ports has been found so, in turn. -/
theorem allFree_reaches {list : List ℤ} :
    (allFree list).Reaches calls (.ret true) ↔
      calls = list.map fun port => ⟨.free port, .ok true⟩ := by
  induction list generalizing calls with
  | nil => exact reaches_ret_ret.trans (and_iff_left rfl)
  | cons port list ih =>
    constructor
    · intro h
      obtain ⟨free, first, rest, rfl, hfirst, hrest⟩ := reaches_bind_ret.mp h
      obtain rfl := reaches_perform_ret.mp hfirst
      cases free with
      | false =>
        rw [if_neg Bool.false_ne_true] at hrest
        exact absurd (reaches_ret_ret.mp hrest).2 Bool.false_ne_true
      | true =>
        rw [if_pos rfl] at hrest
        rw [ih.mp hrest]
        rfl
    · rintro rfl
      refine reaches_bind_ret.mpr ⟨true, [_], _, rfl, reaches_perform_ret.mpr rfl, ?_⟩
      rw [if_pos rfl]
      exact ih.mpr rfl

/-- Six different ports that an unprivileged process may bind. -/
structure Ports.Usable (ports : Ports) : Prop where
  nodup : ports.all.Nodup
  range : ∀ port ∈ ports.all, 1024 ≤ port ∧ port ≤ 65535

theorem usable_portBlock {base : ℤ} {h : 0 ≤ base ∧ base ≤ 65530} (hlower : 1024 ≤ base) :
    (portBlock base h).Usable where
  nodup := by
    simp only [Ports.all, portBlock, List.nodup_cons, List.mem_cons, List.not_mem_nil, or_false,
      not_or, List.nodup_nil, not_false_eq_true, and_true]
    omega
  range := by
    intro port hport
    simp only [Ports.all, portBlock, List.mem_cons, List.not_mem_nil, or_false] at hport
    omega

theorem usable_standardPorts : standardPorts.Usable where
  nodup := by decide
  range := by decide

theorem usable_preferredPorts (h : preferredPorts worktree override primary = .ok ports) :
    ports.Usable := by
  unfold preferredPorts at h
  split at h
  · split at h
    · cases h
    · split at h
      · next hbase =>
        cases h
        exact usable_portBlock hbase.1
      · cases h
  · split at h
    · cases h
      exact usable_standardPorts
    · cases h
      exact usable_portBlock (by omega)

/-- What the loop finds. -/
theorem searchBlocks_returns {start : ℕ} (hstart : 1024 ≤ start) {blocks : List ℕ}
    (h : (searchBlocks start blocks).Reaches calls (.ret ports)) :
    ports.Usable ∧ ∀ port ∈ ports.all, (⟨.free port, .ok true⟩ : PortCall) ∈ calls := by
  induction blocks generalizing calls with
  | nil => exact absurd h not_raise_reaches_ret
  | cons block blocks ih =>
    rw [searchBlocks] at h
    split at h
    · exact absurd h not_raise_reaches_ret
    · next hupper =>
      obtain ⟨free, first, rest, rfl, hfirst, hrest⟩ := reaches_bind_ret.mp h
      cases free with
      | false =>
        rw [if_neg Bool.false_ne_true] at hrest
        obtain ⟨husable, hfree⟩ := ih hrest
        exact ⟨husable, fun port hport => List.mem_append_right _ (hfree port hport)⟩
      | true =>
        rw [if_pos rfl] at hrest
        obtain ⟨_, printed, last, rfl, -, hlast⟩ := reaches_bind_ret.mp hrest
        obtain ⟨-, rfl⟩ := reaches_ret_ret.mp hlast
        obtain rfl := allFree_reaches.mp hfirst
        exact ⟨usable_portBlock (by omega), fun port hport =>
          List.mem_append_left _ (List.mem_map.mpr ⟨port, hport, rfl⟩)⟩

/-- **The ports of a stack** are six different ones that an unprivileged process may bind, each of
them found free, and no others than those of `LSSTACK_PORT_BASE` where it is set. -/
theorem allocatePorts_returns
    (h : (allocatePorts worktree override primary).Reaches calls (.ret ports)) :
    ports.Usable ∧ (∀ port ∈ ports.all, (⟨.free port, .ok true⟩ : PortCall) ∈ calls) ∧
      (override.isSome → preferredPorts worktree override primary = .ok ports) := by
  unfold allocatePorts at h
  split at h
  · exact absurd h not_raise_reaches_ret
  · next preferred hpreferred =>
    obtain ⟨free, first, rest, rfl, hfirst, hrest⟩ := reaches_bind_ret.mp h
    cases free with
    | true =>
      rw [if_pos rfl] at hrest
      obtain ⟨rfl, rfl⟩ := reaches_ret_ret.mp hrest
      obtain rfl := allFree_reaches.mp hfirst
      exact ⟨usable_preferredPorts hpreferred, fun port hport =>
        List.mem_append_left _ (List.mem_map.mpr ⟨port, hport, rfl⟩), fun _ => hpreferred⟩
    | false =>
      -- a base that is set is not given up for another
      rw [if_neg Bool.false_ne_true] at hrest
      split at hrest
      · obtain ⟨busy, first', rest', rfl, -, hraise⟩ := reaches_bind_ret.mp hrest
        exact absurd hraise not_raise_reaches_ret
      · next hoverride =>
        obtain ⟨husable, hfree⟩ := searchBlocks_returns (by rw [fallbackStart]; omega) hrest
        exact ⟨husable, fun port hport => List.mem_append_right _ (hfree port hport),
          fun hsome => absurd hsome hoverride⟩

/-- The block that `LSSTACK_PORT_BASE=9000` asks for. -/
def requestedBlock : Ports := portBlock 9000 (by decide)

/-- It is returned where each of its ports is free. -/
theorem allocatePorts_returns_requested :
    requestedBlock.Usable ∧
      (∀ port ∈ requestedBlock.all, (⟨.free port, .ok true⟩ : PortCall) ∈
        requestedBlock.all.map fun port => ⟨.free port, .ok true⟩) ∧
      ((some "9000".toList).isSome →
        preferredPorts spacedWorktree (some "9000".toList) false = .ok requestedBlock) := by
  have hpreferred :
      preferredPorts spacedWorktree (some "9000".toList) false = .ok requestedBlock := rfl
  refine allocatePorts_returns ?_
  rw [allocatePorts, hpreferred]
  refine reaches_bind_ret.mpr ⟨true, _, [], (List.append_nil _).symm, allFree_reaches.mpr rfl, ?_⟩
  rw [if_pos rfl]
  exact reaches_ret_ret.mpr ⟨rfl, rfl⟩

end Search

end Lsstack
