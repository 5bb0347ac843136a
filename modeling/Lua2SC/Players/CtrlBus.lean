import Lua2SC.Lib.Ledger
import Lua2SC.Lib.Lua
import Lua2SC.Lib.Machine

/-!
# Control buses of the parameters that envelopes drive

An envelope on a parameter is a control synth that writes a control bus, and
the parameter is mapped to that bus. `SendCtrlSynth` drives a parameter with
one control synth and `SendCtrlSynth_ar` with a list of them, on consecutive
buses. Both follow `ctrl_bus.lua`. Buses and nodes are allocated at the first
call for a parameter; later calls look them up in `player.ctrl_buses`, where
`nodes[paramname]` is a node after the first function and a list of nodes
after the second.

Neither function asks which of the two it finds, nor how long the list was.
`SendCtrlSynth` on a list puts the list where the node belongs; on a longer
list `SendCtrlSynth_ar` finds no node for the envelopes beyond the end, and
maps the parameter to buses that belong to others. `InAllocation` is the
condition that neither happens, and `ctrl_bus_iff` says that buses and nodes
stay with their parameters at every moment of a run exactly when all its calls
meet this condition.

A call that raises a Lua error returns no messages. The state keeps what it
did before. `lista`, the values given to a control synth, goes into its
message as it is; none of the callers puts a `bus` into it. Left out:
`beatTime`, which both functions ignore.
-/

namespace Lua2SC.Players

open Lua2SC.Lua Lua2SC.Blocks Lua2SC.Machine

variable {P L : Type}

/-! ## Players and messages -/

/-- What stands in `player.ctrl_buses.nodes` for a parameter. -/
inductive CtrlNodes where
  | one (node : ℕ)
  | list (nodes : List ℕ)
deriving DecidableEq, Repr

/-- `player.ctrl_buses`. -/
structure CtrlBuses where
  buses : LuaTable LString ℕ
  nodes : LuaTable LString CtrlNodes
  synnames : LuaTable LString LString

/-- `{buses = {}, nodes = {}, synnames = {}}`. -/
def CtrlBuses.empty : CtrlBuses := ⟨∅, ∅, ∅⟩

/-- The fields of a player that the control synths work with. -/
structure CtrlPlayer where
  node : Option ℕ
  group : Option ℕ
  ctrl_group : Option ℕ
  ctrl_buses : Option CtrlBuses

/-- The node argument of a message, as the code finds it. -/
inductive NodeArg where
  | node (n : ℕ)
  | table (nodes : List ℕ)
  | none
deriving DecidableEq, Repr

/-- The messages of the two functions. -/
inductive CtrlMsg (L : Type) where
  | p_new (ctrl_group : ℕ) (group : Option ℕ)
  | n_set (node : NodeArg) (lista : L)
  | n_free (node : NodeArg)
  | s_new (synname : LString) (node : NodeArg) (ctrl_group : Option ℕ) (bus : ℕ) (lista : L)
  | n_map (node : Option ℕ) (paramname : LString) (bus : ℕ)
  | n_mapn (node : Option ℕ) (paramname : LString) (firstbus count : ℕ)
deriving DecidableEq, Repr

/-- A parameter of a player. -/
abbrev Param (P : Type) := P × LString

/-- The players, the counters behind `GetNode` and `GetCtrlBus`, what they
have handed out for parameters, and the messages with the parameter they were
made for. -/
structure CtrlSession (P L : Type) where
  nextNode : ℕ
  nextBus : ℕ
  players : P → CtrlPlayer
  nodeGrants : List (Grant (Param P))
  busGrants : List (Grant (Param P))
  sent : List (Param P × CtrlMsg L)

/-- Players without control synths. -/
def CtrlSession.start (nextNode nextBus : ℕ) (node group : P → Option ℕ) : CtrlSession P L :=
  { nextNode := nextNode, nextBus := nextBus
    players := fun p => ⟨node p, group p, none, none⟩
    nodeGrants := [], busGrants := [], sent := [] }

/-- `GetNode()`, for a parameter. -/
def CtrlSession.GetNode (par : Param P) (s : CtrlSession P L) : ℕ × CtrlSession P L :=
  (s.nextNode, { s with
    nextNode := s.nextNode + 1
    nodeGrants := s.nodeGrants ++ [⟨par, s.nextNode, 1⟩] })

/-- `ctrl_buses:new_bus(N)`, for a parameter. -/
def CtrlSession.new_bus (par : Param P) (N : ℕ) (s : CtrlSession P L) : ℕ × CtrlSession P L :=
  (s.nextBus, { s with
    nextBus := s.nextBus + N
    busGrants := s.busGrants ++ [⟨par, s.nextBus, N⟩] })

/-- `player.ctrl_buses`, or the empty tables. -/
def CtrlSession.tables (s : CtrlSession P L) (p : P) : CtrlBuses :=
  (s.players p).ctrl_buses.getD CtrlBuses.empty

section Calls

variable [DecidableEq P]

/-- `player.ctrl_buses = cb`. -/
def CtrlSession.setTables (s : CtrlSession P L) (p : P) (cb : CtrlBuses) : CtrlSession P L :=
  let player := { s.players p with ctrl_buses := some cb }
  { s with players := Function.update s.players p player }

/-- The group of the control synths of a player, started by the first call.
Its node is not a control synth. -/
def CtrlSession.withGroup (par : Param P) (s : CtrlSession P L) : CtrlSession P L :=
  match (s.players par.1).ctrl_group with
  | some _ => s
  | none =>
    let player := { s.players par.1 with ctrl_group := some s.nextNode }
    { s with
      nextNode := s.nextNode + 1
      players := Function.update s.players par.1 player
      sent := s.sent ++ [(par, .p_new s.nextNode player.group)] }

/-- What the code uses as the node of a parameter. -/
def nodeArg (nodes : Option CtrlNodes) : NodeArg :=
  match nodes with
  | some (.one node) => .node node
  | some (.list nodes) => .table nodes
  | none => .none

/-- `nodes[i]` of a list. -/
def listNode (nodes : List ℕ) (i : ℕ) : NodeArg :=
  match nodes[i]? with
  | some node => .node node
  | none => .none

/-- `SendCtrlSynth(synname, lista, paramname, player)`. -/
def SendCtrlSynth (synname : LString) (lista : L) (paramname : LString) (p : P)
    (s : CtrlSession P L) : LuaM (List (CtrlMsg L)) × CtrlSession P L :=
  let s := s.withGroup (p, paramname)
  let player := s.players p
  let cb := s.tables p
  match cb.buses.lookup paramname with
  | some bus =>
    let node := nodeArg (cb.nodes.lookup paramname)
    if cb.synnames.lookup paramname = some synname then
      (.ok [.n_set node lista, .n_map player.node paramname bus], s.setTables p cb)
    else
      (.ok [.n_free node, .s_new synname node player.ctrl_group bus lista,
          .n_map player.node paramname bus],
        s.setTables p { cb with synnames := cb.synnames.insert paramname synname })
  | none =>
    let (node, s) := s.GetNode (p, paramname)
    let (bus, s) := s.new_bus (p, paramname) 1
    (.ok [.s_new synname (.node node) player.ctrl_group bus lista,
        .n_map player.node paramname bus],
      s.setTables p
        { buses := cb.buses.insert paramname bus
          nodes := cb.nodes.insert paramname (.one node)
          synnames := cb.synnames.insert paramname synname })

/-- The loop that starts one control synth for each envelope: the nodes it
gets and its messages. -/
def newSynths (synname : LString) (par : Param P) (ctrl_group : Option ℕ) :
    ℕ → List L → CtrlSession P L → List ℕ × List (CtrlMsg L) × CtrlSession P L
  | _, [], s => ([], [], s)
  | bus, envel :: envel_ar, s =>
    let (node, s) := s.GetNode par
    let (nodes, bundle, s) := newSynths synname par ctrl_group (bus + 1) envel_ar s
    (node :: nodes, .s_new synname (.node node) ctrl_group bus envel :: bundle, s)

/-- The loop that sends the envelopes to the control synths of the list. -/
def setSynths (nodes : Option CtrlNodes) (envel_ar : List L) : LuaM (List (CtrlMsg L)) :=
  match nodes with
  | some (.list nodes) => .ok (envel_ar.mapIdx fun i envel => .n_set (listNode nodes i) envel)
  | _ => if envel_ar = [] then .ok [] else .error "attempt to index local 'nodes'"

/-- `SendCtrlSynth_ar(synname, envel_ar, paramname, player)`. -/
def SendCtrlSynth_ar (synname : LString) (envel_ar : List L) (paramname : LString) (p : P)
    (s : CtrlSession P L) : LuaM (List (CtrlMsg L)) × CtrlSession P L :=
  let s := s.withGroup (p, paramname)
  let player := s.players p
  let cb := s.tables p
  match cb.buses.lookup paramname with
  | some firstbus =>
    let s := s.setTables p cb
    if cb.synnames.lookup paramname = some synname then
      (do
        let bundle ← setSynths (cb.nodes.lookup paramname) envel_ar
        .ok (bundle ++ [.n_mapn player.node paramname firstbus envel_ar.length]), s)
    else (.error "change not implemented", s)
  | none =>
    let (firstbus, s) := s.new_bus (p, paramname) envel_ar.length
    let (nodes, bundle, s) :=
      newSynths synname (p, paramname) player.ctrl_group firstbus envel_ar s
    (.ok (bundle ++ [.n_mapn player.node paramname firstbus envel_ar.length]),
      s.setTables p
        { buses := cb.buses.insert paramname firstbus
          nodes := cb.nodes.insert paramname (.list nodes)
          synnames := cb.synnames.insert paramname synname })

/-! ## Runs -/

/-- What happens in a session: the two calls, other code drawing from the
counters, and a player given another node or group. -/
inductive CtrlAct (P L : Type) where
  | SendCtrlSynth (synname : LString) (lista : L) (paramname : LString) (player : P)
  | SendCtrlSynth_ar (synname : LString) (envel_ar : List L) (paramname : LString) (player : P)
  | elsewhere (nodes buses : ℕ)
  | assign (player : P) (node group : Option ℕ)

/-- The messages a call returns are sent. -/
def sendBundle (par : Param P) (r : LuaM (List (CtrlMsg L)) × CtrlSession P L) :
    CtrlSession P L :=
  match r.1 with
  | .ok bundle => { r.2 with sent := r.2.sent ++ bundle.map fun msg => (par, msg) }
  | .error _ => r.2

/-- One step of a session. -/
def CtrlSession.next (s : CtrlSession P L) (act : CtrlAct P L) : CtrlSession P L :=
  match act with
  | .SendCtrlSynth synname lista paramname p =>
    sendBundle (p, paramname) (SendCtrlSynth synname lista paramname p s)
  | .SendCtrlSynth_ar synname envel_ar paramname p =>
    sendBundle (p, paramname) (SendCtrlSynth_ar synname envel_ar paramname p s)
  | .elsewhere nodes buses =>
    { s with nextNode := s.nextNode + nodes, nextBus := s.nextBus + buses }
  | .assign p node group =>
    let player := { s.players p with node := node, group := group }
    { s with players := Function.update s.players p player }

end Calls

/-! ## What is asked of a session -/

/-- The buses a message makes a control synth write, or maps to a parameter;
`paramname` is the one it was made for. -/
def CtrlMsg.busUses (paramname : LString) (msg : CtrlMsg L) : List (LString × ℕ) :=
  match msg with
  | .s_new _ _ _ bus _ => [(paramname, bus)]
  | .n_map _ name bus => [(name, bus)]
  | .n_mapn _ name firstbus count => (List.range' firstbus count).map fun bus => (name, bus)
  | _ => []

/-- The control synth a message addresses. -/
def CtrlMsg.synth (msg : CtrlMsg L) : Option NodeArg :=
  match msg with
  | .n_set node _ => some node
  | .n_free node => some node
  | .s_new _ node _ _ _ => some node
  | _ => none

/-- The buses of a message were given to their parameter, and the control
synth it addresses is a node that was. -/
structure CtrlMsg.Owned (nodeGrants busGrants : List (Grant (Param P))) (par : Param P)
    (msg : CtrlMsg L) : Prop where
  buses : ∀ use ∈ msg.busUses par.2, GivenTo busGrants (par.1, use.1) use.2
  synth : ∀ arg ∈ msg.synth, ∃ node, arg = .node node ∧ GivenTo nodeGrants par node

/-- Blocks of different parameters have no number in common. -/
def Apart (grants : List (Grant (Param P))) : Prop :=
  ∀ g ∈ grants, ∀ g' ∈ grants, g.owner ≠ g'.owner → ∀ n, g.Holds n → ¬ g'.Holds n

/-- Buses and control synths stay with their parameters. -/
structure CtrlSession.Owned (s : CtrlSession P L) : Prop where
  messages : ∀ sent ∈ s.sent, sent.2.Owned s.nodeGrants s.busGrants sent.1
  buses : Apart s.busGrants
  nodes : Apart s.nodeGrants

/-- What stands in the tables of a parameter. -/
def CtrlSession.busOf (s : CtrlSession P L) (par : Param P) : Option ℕ :=
  (s.tables par.1).buses.lookup par.2

@[inherit_doc CtrlSession.busOf]
def CtrlSession.nodesOf (s : CtrlSession P L) (par : Param P) : Option CtrlNodes :=
  (s.tables par.1).nodes.lookup par.2

@[inherit_doc CtrlSession.busOf]
def CtrlSession.synnameOf (s : CtrlSession P L) (par : Param P) : Option LString :=
  (s.tables par.1).synnames.lookup par.2

/-- A single envelope is not sent to a list of control synths, and no more
envelopes are sent to a list than it has control synths. -/
def InAllocation (s : CtrlSession P L) (act : CtrlAct P L) : Prop :=
  match act with
  | .SendCtrlSynth _ _ paramname p => ∀ nodes, s.nodesOf (p, paramname) ≠ some (.list nodes)
  | .SendCtrlSynth_ar synname envel_ar paramname p =>
    ∀ nodes, s.nodesOf (p, paramname) = some (.list nodes) →
      s.synnameOf (p, paramname) = some synname → envel_ar.length ≤ nodes.length
  | _ => True

/-! ## The invariant -/

/-- The tables of a parameter hold what was given to it. -/
def Driven (nodeGrants busGrants : List (Grant (Param P))) (par : Param P) (bus : Option ℕ)
    (nodes : Option CtrlNodes) : Prop :=
  match bus, nodes with
  | none, none => True
  | some bus, some (.one node) => GivenTo busGrants par bus ∧ GivenTo nodeGrants par node
  | some bus, some (.list nodes) =>
    (∀ i < nodes.length, GivenTo busGrants par (bus + i)) ∧
      ∀ node ∈ nodes, GivenTo nodeGrants par node
  | _, _ => False

/-- What holds at every moment, whatever the calls. -/
structure CtrlInv (s : CtrlSession P L) : Prop where
  nodes : Ledger s.nextNode s.nodeGrants
  buses : Ledger s.nextBus s.busGrants
  driven : ∀ par, Driven s.nodeGrants s.busGrants par (s.busOf par) (s.nodesOf par)

/-- Grants are only added. -/
theorem Driven.mono {nodeGrants nodeGrants' busGrants busGrants' : List (Grant (Param P))}
    {par : Param P} {bus : Option ℕ} {nodes : Option CtrlNodes}
    (h : Driven nodeGrants busGrants par bus nodes) (hnodes : nodeGrants ⊆ nodeGrants')
    (hbuses : busGrants ⊆ busGrants') : Driven nodeGrants' busGrants' par bus nodes := by
  match bus, nodes, h with
  | none, none, _ => exact trivial
  | some bus, some (.one node), h => exact ⟨h.1.mono hbuses, h.2.mono hnodes⟩
  | some bus, some (.list nodes), h =>
    exact ⟨fun i hi => (h.1 i hi).mono hbuses, fun node hn => (h.2 node hn).mono hnodes⟩

/-- The code finds a node exactly where the parameter has no list. -/
theorem Driven.single {N B : List (Grant (Param P))} {par : Param P} {bus : ℕ}
    {nodes : Option CtrlNodes} (h : Driven N B par (some bus) nodes) :
    (∃ node, nodeArg nodes = .node node ∧ GivenTo N par node) ↔
      ∀ list, nodes ≠ some (.list list) := by
  match nodes, h with
  | some (.one node), h => simp [nodeArg, h.2]
  | some (.list list), _ => simp [nodeArg]

/-- The bus of a single control synth was given to the parameter. -/
theorem Driven.bus_given {N B : List (Grant (Param P))} {par : Param P} {bus : ℕ}
    {nodes : Option CtrlNodes} (h : Driven N B par (some bus) nodes)
    (hsingle : ∀ list, nodes ≠ some (.list list)) : GivenTo B par bus := by
  match nodes, h with
  | some (.one _), h => exact h.1
  | some (.list list), _ => exact absurd rfl (hsingle list)

/-- What was owned stays owned. -/
theorem CtrlMsg.Owned.mono {nodeGrants nodeGrants' busGrants busGrants' : List (Grant (Param P))}
    {par : Param P} {msg : CtrlMsg L} (h : msg.Owned nodeGrants busGrants par)
    (hnodes : nodeGrants ⊆ nodeGrants') (hbuses : busGrants ⊆ busGrants') :
    msg.Owned nodeGrants' busGrants' par := by
  refine ⟨fun use huse => (h.buses use huse).mono hbuses, fun arg harg => ?_⟩
  obtain ⟨node, hnode, hgiven⟩ := h.synth arg harg
  exact ⟨node, hnode, hgiven.mono hnodes⟩

section Messages

variable {N B : List (Grant (Param P))} {par : Param P}

@[simp] theorem owned_p_new (g : ℕ) (group : Option ℕ) :
    (CtrlMsg.p_new (L := L) g group).Owned N B par :=
  ⟨by simp [CtrlMsg.busUses], by simp [CtrlMsg.synth]⟩

@[simp] theorem owned_n_set (arg : NodeArg) (lista : L) :
    (CtrlMsg.n_set arg lista).Owned N B par ↔ ∃ node, arg = .node node ∧ GivenTo N par node :=
  ⟨fun h => h.synth arg rfl, fun h => ⟨by simp [CtrlMsg.busUses], by simpa [CtrlMsg.synth] using h⟩⟩

@[simp] theorem owned_n_free (arg : NodeArg) :
    (CtrlMsg.n_free (L := L) arg).Owned N B par ↔
      ∃ node, arg = .node node ∧ GivenTo N par node :=
  ⟨fun h => h.synth arg rfl, fun h => ⟨by simp [CtrlMsg.busUses], by simpa [CtrlMsg.synth] using h⟩⟩

@[simp] theorem owned_s_new (synname : LString) (arg : NodeArg) (g : Option ℕ) (bus : ℕ)
    (lista : L) : (CtrlMsg.s_new synname arg g bus lista).Owned N B par ↔
      GivenTo B par bus ∧ ∃ node, arg = .node node ∧ GivenTo N par node :=
  ⟨fun h => ⟨h.buses (par.2, bus) (List.mem_singleton_self _), h.synth arg rfl⟩,
    fun h => ⟨by simpa [CtrlMsg.busUses] using h.1, by simpa [CtrlMsg.synth] using h.2⟩⟩

@[simp] theorem owned_n_map (node : Option ℕ) (name : LString) (bus : ℕ) :
    (CtrlMsg.n_map (L := L) node name bus).Owned N B par ↔ GivenTo B (par.1, name) bus :=
  ⟨fun h => h.buses (name, bus) (List.mem_singleton_self _),
    fun h => ⟨by simpa [CtrlMsg.busUses] using h, by simp [CtrlMsg.synth]⟩⟩

@[simp] theorem owned_n_mapn (node : Option ℕ) (name : LString) (firstbus count : ℕ) :
    (CtrlMsg.n_mapn (L := L) node name firstbus count).Owned N B par ↔
      ∀ i < count, GivenTo B (par.1, name) (firstbus + i) := by
  constructor
  · intro h i hi
    refine h.buses (name, firstbus + i) ?_
    simp only [CtrlMsg.busUses, List.mem_map]
    exact ⟨firstbus + i, List.mem_range'_1.mpr ⟨by omega, by omega⟩, rfl⟩
  · refine fun h => ⟨?_, by simp [CtrlMsg.synth]⟩
    simp only [CtrlMsg.busUses, List.mem_map]
    rintro use ⟨bus, hbus, rfl⟩
    obtain ⟨hge, hlt⟩ := List.mem_range'_1.mp hbus
    obtain ⟨i, rfl⟩ := Nat.exists_eq_add_of_le hge
    exact h i (by omega)

end Messages

/-- A ledger keeps its owners apart. -/
theorem apart_of_ledger {next : ℕ} {grants : List (Grant (Param P))} (h : Ledger next grants) :
    Apart grants := by
  intro g hg g' hg' hne n hn hn'
  exact hne (congrArg Grant.owner (h.grant_eq hg hg' hn hn'))

/-- Where the invariant holds, only the messages are left to look at. -/
theorem CtrlInv.owned_iff {s : CtrlSession P L} (h : CtrlInv s) :
    s.Owned ↔ ∀ sent ∈ s.sent, sent.2.Owned s.nodeGrants s.busGrants sent.1 :=
  ⟨fun hs => hs.messages, fun hs => ⟨hs, apart_of_ledger h.buses, apart_of_ledger h.nodes⟩⟩

variable {s : CtrlSession P L}

/-- A node is drawn for a parameter. -/
theorem CtrlInv.GetNode (h : CtrlInv s) (par : Param P) : CtrlInv (s.GetNode par).2 :=
  ⟨h.nodes.grant par 1, h.buses, fun par' =>
    (h.driven par').mono (List.subset_append_left _ _) (List.Subset.refl _)⟩

/-- A block of buses is drawn for a parameter. -/
theorem CtrlInv.new_bus (h : CtrlInv s) (par : Param P) (N : ℕ) :
    CtrlInv (s.new_bus par N).2 :=
  ⟨h.nodes, h.buses.grant par N, fun par' =>
    (h.driven par').mono (List.Subset.refl _) (List.subset_append_left _ _)⟩

/-- Players that change neither their node tables nor their bus tables, and
numbers that are skipped, do not matter. -/
theorem CtrlInv.of_tables {s' : CtrlSession P L} (h : CtrlInv s) {n m : ℕ}
    (hnode : s'.nextNode = s.nextNode + n) (hbus : s'.nextBus = s.nextBus + m)
    (hnodes : s'.nodeGrants = s.nodeGrants) (hbuses : s'.busGrants = s.busGrants)
    (htables : s'.tables = s.tables) : CtrlInv s' := by
  refine ⟨?_, ?_, ?_⟩
  · rw [hnode, hnodes]; exact h.nodes.skip n
  · rw [hbus, hbuses]; exact h.buses.skip m
  · intro par
    unfold CtrlSession.busOf CtrlSession.nodesOf
    rw [hnodes, hbuses, htables]
    exact h.driven par

section Steps

variable [DecidableEq P]

@[simp] theorem tables_setTables (s : CtrlSession P L) (p : P) (cb : CtrlBuses) :
    (s.setTables p cb).tables p = cb := by
  simp [CtrlSession.setTables, CtrlSession.tables]

theorem tables_setTables_ne (s : CtrlSession P L) {p q : P} (h : q ≠ p) (cb : CtrlBuses) :
    (s.setTables p cb).tables q = s.tables q := by
  simp [CtrlSession.setTables, CtrlSession.tables, Function.update_of_ne h]

/-- The tables of one parameter are written. -/
theorem CtrlInv.setTables (h : CtrlInv s) {p : P} (paramname : LString) {cb : CtrlBuses}
    (hother : ∀ name ≠ paramname, cb.buses.lookup name = s.busOf (p, name) ∧
      cb.nodes.lookup name = s.nodesOf (p, name))
    (hpar : Driven s.nodeGrants s.busGrants (p, paramname) (cb.buses.lookup paramname)
      (cb.nodes.lookup paramname)) : CtrlInv (s.setTables p cb) := by
  refine ⟨h.nodes, h.buses, ?_⟩
  rintro ⟨q, name⟩
  unfold CtrlSession.busOf CtrlSession.nodesOf
  by_cases hq : q = p
  · subst hq
    rw [tables_setTables]
    by_cases hname : name = paramname
    · rw [hname]; exact hpar
    · rw [(hother name hname).1, (hother name hname).2]
      exact h.driven (q, name)
  · rw [tables_setTables_ne s hq]
    exact h.driven (q, name)

/-- The first call of a player starts a group; nothing else changes. -/
theorem withGroup_spec (h : CtrlInv s) (par : Param P) :
    CtrlInv (s.withGroup par) ∧ (s.withGroup par).tables = s.tables ∧
      (s.withGroup par).nodeGrants = s.nodeGrants ∧ (s.withGroup par).busGrants = s.busGrants ∧
        ∀ sent ∈ (s.withGroup par).sent,
          sent ∈ s.sent ∨ ∃ g group, sent = (par, .p_new g group) := by
  unfold CtrlSession.withGroup
  cases hgroup : (s.players par.1).ctrl_group with
  | some g => exact ⟨h, rfl, rfl, rfl, fun sent hsent => Or.inl hsent⟩
  | none =>
    have htables : ∀ q, ((Function.update s.players par.1
        { s.players par.1 with ctrl_group := some s.nextNode }) q).ctrl_buses =
          (s.players q).ctrl_buses := by
      intro q
      by_cases hq : q = par.1
      · subst hq; simp
      · rw [Function.update_of_ne hq]
    refine ⟨h.of_tables (n := 1) (m := 0) rfl rfl rfl rfl ?_, ?_, rfl, rfl, ?_⟩
    · funext q; unfold CtrlSession.tables; rw [htables]
    · funext q; unfold CtrlSession.tables; rw [htables]
    · intro sent hsent
      rcases List.mem_append.mp hsent with hold | hnew
      · exact Or.inl hold
      · exact Or.inr ⟨_, _, List.mem_singleton.mp hnew⟩

end Steps

/-- What the loop that starts the control synths of a list does. -/
structure NewSynths (par : Param P) (bus : ℕ) (envel_ar : List L) (s : CtrlSession P L)
    (r : List ℕ × List (CtrlMsg L) × CtrlSession P L) : Prop where
  inv : CtrlInv r.2.2
  nodes : s.nodeGrants ⊆ r.2.2.nodeGrants
  buses : r.2.2.busGrants = s.busGrants
  tables : r.2.2.tables = s.tables
  sent : r.2.2.sent = s.sent
  length : r.1.length = envel_ar.length
  given : ∀ node ∈ r.1, GivenTo r.2.2.nodeGrants par node
  owned : (∀ i < envel_ar.length, GivenTo s.busGrants par (bus + i)) →
    ∀ msg ∈ r.2.1, msg.Owned r.2.2.nodeGrants s.busGrants par

/-- A node that is drawn is the parameter's. -/
theorem givenTo_GetNode (s : CtrlSession P L) (par : Param P) :
    GivenTo (s.GetNode par).2.nodeGrants par s.nextNode :=
  ⟨⟨par, s.nextNode, 1⟩, List.mem_append_right _ (List.mem_singleton_self _), rfl,
    holds_one par s.nextNode⟩

/-- A block of buses that is drawn is the parameter's. -/
theorem givenTo_new_bus (s : CtrlSession P L) (par : Param P) {i count : ℕ} (hi : i < count) :
    GivenTo (s.new_bus par count).2.busGrants par (s.nextBus + i) :=
  ⟨⟨par, s.nextBus, count⟩, List.mem_append_right _ (List.mem_singleton_self _), rfl,
    Nat.le_add_right _ _, Nat.add_lt_add_left hi _⟩

/-- Every envelope gets a node of its own and the next bus. -/
theorem newSynths_spec (synname : LString) (par : Param P) (g : Option ℕ) (envel_ar : List L) :
    ∀ (bus : ℕ) {s : CtrlSession P L}, CtrlInv s →
      NewSynths par bus envel_ar s (newSynths synname par g bus envel_ar s) := by
  induction envel_ar with
  | nil =>
    intro bus s h
    exact ⟨h, List.Subset.refl _, rfl, rfl, rfl, rfl, by simp [newSynths], by simp [newSynths]⟩
  | cons envel envel_ar ih =>
    intro bus s h
    have hrest := ih (bus + 1) (h.GetNode par)
    have hnode := (givenTo_GetNode s par).mono hrest.nodes
    refine ⟨hrest.inv, fun g hg => hrest.nodes (List.mem_append_left _ hg), hrest.buses,
      hrest.tables, hrest.sent, congrArg (· + 1) hrest.length, ?_, ?_⟩
    · intro node hn
      rcases List.mem_cons.mp hn with rfl | hn
      · exact hnode
      · exact hrest.given node hn
    · intro hbuses msg hmsg
      rcases List.mem_cons.mp hmsg with rfl | hmsg
      · rw [owned_s_new]
        exact ⟨hbuses 0 (Nat.succ_pos _), _, rfl, hnode⟩
      · refine hrest.owned (fun i hi => ?_) msg hmsg
        have hshift := hbuses (i + 1) (Nat.succ_lt_succ hi)
        rwa [Nat.add_comm i 1, ← Nat.add_assoc] at hshift

/-! ## One call -/

/-- What a call does: it keeps the invariant, adds to what was handed out, and
returns messages that are all owned exactly where `ok` holds. -/
structure CallSpec (s : CtrlSession P L) (par : Param P) (ok : Prop)
    (r : LuaM (List (CtrlMsg L)) × CtrlSession P L) : Prop where
  inv : CtrlInv r.2
  nodes : s.nodeGrants ⊆ r.2.nodeGrants
  buses : s.busGrants ⊆ r.2.busGrants
  sent : ∀ sent ∈ r.2.sent, sent ∈ s.sent ∨ ∃ g group, sent = (par, .p_new g group)
  fails : ∀ err, r.1 = .error err → ok
  bundle : ∀ bundle, r.1 = .ok bundle →
    ((∀ msg ∈ bundle, msg.Owned r.2.nodeGrants r.2.busGrants par) ↔ ok)

/-- Sending what a call returned keeps buses and nodes with their parameters
exactly where `ok` holds. -/
theorem CallSpec.owned_iff {s : CtrlSession P L} {par : Param P} {ok : Prop}
    {r : LuaM (List (CtrlMsg L)) × CtrlSession P L} (h : CallSpec s par ok r) (hs : s.Owned) :
    (sendBundle par r).Owned ↔ ok := by
  have hbefore : ∀ sent ∈ r.2.sent, sent.2.Owned r.2.nodeGrants r.2.busGrants sent.1 := by
    intro sent hsent
    rcases h.sent sent hsent with hold | ⟨g, group, rfl⟩
    · exact (hs.messages sent hold).mono h.nodes h.buses
    · exact owned_p_new g group
  cases hr : r.1 with
  | error err =>
    have hend : sendBundle par r = r.2 := by rw [sendBundle, hr]
    rw [hend, h.inv.owned_iff]
    exact ⟨fun _ => h.fails err hr, fun _ => hbefore⟩
  | ok bundle =>
    have hend : sendBundle par r =
        { r.2 with sent := r.2.sent ++ bundle.map fun msg => (par, msg) } := by rw [sendBundle, hr]
    have hinv : CtrlInv { r.2 with sent := r.2.sent ++ bundle.map fun msg => (par, msg) } :=
      h.inv.of_tables (n := 0) (m := 0) rfl rfl rfl rfl rfl
    rw [hend, hinv.owned_iff, ← h.bundle bundle hr]
    constructor
    · intro hall msg hmsg
      exact hall (par, msg) (List.mem_append_right _ (List.mem_map_of_mem hmsg))
    · intro hall sent hsent
      rcases List.mem_append.mp hsent with hold | hnew
      · exact hbefore sent hold
      · obtain ⟨msg, hmsg, rfl⟩ := List.mem_map.mp hnew
        exact hall msg hmsg

theorem CallSpec.inv_sendBundle {s : CtrlSession P L} {par : Param P} {ok : Prop}
    {r : LuaM (List (CtrlMsg L)) × CtrlSession P L} (h : CallSpec s par ok r) :
    CtrlInv (sendBundle par r) := by
  unfold sendBundle
  split
  · exact h.inv.of_tables (n := 0) (m := 0) rfl rfl rfl rfl rfl
  · exact h.inv

section Steps

variable [DecidableEq P] {s : CtrlSession P L}

/-- Tables written back as they are, but for a name. -/
theorem CtrlInv.setTables_same (h : CtrlInv s) (p : P) {cb : CtrlBuses}
    (hbuses : cb.buses = (s.tables p).buses) (hnodes : cb.nodes = (s.tables p).nodes) :
    CtrlInv (s.setTables p cb) := by
  refine h.setTables [] (fun name _ => ?_) ?_
  · rw [hbuses, hnodes]; exact ⟨rfl, rfl⟩
  · rw [hbuses, hnodes]; exact h.driven (p, [])

/-- A new parameter gets its tables. -/
theorem CtrlInv.setTables_new (h : CtrlInv s) {p : P} {cb : CtrlBuses} (hcb : cb = s.tables p)
    {paramname : LString} {bus : ℕ} {nodes : CtrlNodes} (synname : LString)
    (hpar : Driven s.nodeGrants s.busGrants (p, paramname) (some bus) (some nodes)) :
    CtrlInv (s.setTables p
      { buses := cb.buses.insert paramname bus
        nodes := cb.nodes.insert paramname nodes
        synnames := cb.synnames.insert paramname synname }) := by
  subst hcb
  refine h.setTables paramname (fun name hname => ?_) ?_
  · exact ⟨AList.lookup_insert_ne hname, AList.lookup_insert_ne hname⟩
  · rw [AList.lookup_insert, AList.lookup_insert]
    exact hpar

/-- The group is made without touching what the parameter has. -/
theorem nodesOf_withGroup (h : CtrlInv s) (par : Param P) :
    (s.withGroup par).nodesOf par = s.nodesOf par := by
  unfold CtrlSession.nodesOf
  rw [(withGroup_spec h par).2.1]

theorem synnameOf_withGroup (h : CtrlInv s) (par : Param P) :
    (s.withGroup par).synnameOf par = s.synnameOf par := by
  unfold CtrlSession.synnameOf
  rw [(withGroup_spec h par).2.1]

/-- A parameter without a bus has no list. -/
theorem not_list_of_busOf (h : CtrlInv s) (par : Param P)
    (hbus : (s.withGroup par).busOf par = none) (nodes : List ℕ) :
    s.nodesOf par ≠ some (.list nodes) := by
  intro hlist
  have hdriven := (withGroup_spec h par).1.driven par
  rw [hbus, nodesOf_withGroup h, hlist] at hdriven
  exact hdriven

/-- A call for a parameter that has its tables draws nothing. -/
theorem callSpec_same (h : CtrlInv s) (par : Param P) {ok : Prop} {cb : CtrlBuses}
    {r : LuaM (List (CtrlMsg L))} (hcb : cb.buses = ((s.withGroup par).tables par.1).buses)
    (hcb' : cb.nodes = ((s.withGroup par).tables par.1).nodes)
    (hfails : ∀ err, r = .error err → ok)
    (hiff : ∀ bundle, r = .ok bundle → ((∀ msg ∈ bundle, msg.Owned (s.withGroup par).nodeGrants
      (s.withGroup par).busGrants par) ↔ ok)) :
    CallSpec s par ok (r, (s.withGroup par).setTables par.1 cb) := by
  obtain ⟨hinv, -, hnodes, hbuses, hsent⟩ := withGroup_spec h par
  refine ⟨hinv.setTables_same par.1 hcb hcb', ?_, ?_, hsent, hfails, hiff⟩
  · rw [← hnodes]
    exact List.Subset.refl _
  · rw [← hbuses]
    exact List.Subset.refl _

/-- **`SendCtrlSynth`** is right but for a parameter that has a list. -/
theorem SendCtrlSynth_spec (h : CtrlInv s) (synname : LString) (lista : L) (paramname : LString)
    (p : P) : CallSpec s (p, paramname) (∀ nodes, s.nodesOf (p, paramname) ≠ some (.list nodes))
      (SendCtrlSynth synname lista paramname p s) := by
  obtain ⟨hinv, -, hnodes, hbuses, hsent⟩ := withGroup_spec h (p, paramname)
  have hdriven := hinv.driven (p, paramname)
  have hnodesOf := nodesOf_withGroup h (p, paramname)
  unfold SendCtrlSynth
  simp only
  cases hbus : ((s.withGroup (p, paramname)).tables p).buses.lookup paramname with
  | some bus =>
    have hbusOf : (s.withGroup (p, paramname)).busOf (p, paramname) = some bus := hbus
    rw [hbusOf, hnodesOf] at hdriven
    have hlookup : ((s.withGroup (p, paramname)).tables p).nodes.lookup paramname =
        s.nodesOf (p, paramname) := hnodesOf
    simp only [hlookup]
    have hspec : ∀ (cb : CtrlBuses) (bundle : List (CtrlMsg L)),
        cb.buses = ((s.withGroup (p, paramname)).tables p).buses →
        cb.nodes = ((s.withGroup (p, paramname)).tables p).nodes →
        ((∀ msg ∈ bundle, msg.Owned (s.withGroup (p, paramname)).nodeGrants
          (s.withGroup (p, paramname)).busGrants (p, paramname)) ↔
            ∀ nodes, s.nodesOf (p, paramname) ≠ some (.list nodes)) →
        CallSpec s (p, paramname) (∀ nodes, s.nodesOf (p, paramname) ≠ some (.list nodes))
          (.ok bundle, (s.withGroup (p, paramname)).setTables p cb) := by
      intro cb bundle hb hn hiff
      refine callSpec_same h (p, paramname) hb hn (fun _ herr => by cases herr) ?_
      rintro _ ⟨⟩
      exact hiff
    split
    · refine hspec _ _ rfl rfl ?_
      simp only [List.mem_cons, List.not_mem_nil, or_false, forall_eq_or_imp, forall_eq,
        owned_n_set, owned_n_map]
      rw [← hdriven.single]
      exact and_iff_left_of_imp fun hsingle => hdriven.bus_given (hdriven.single.mp hsingle)
    · refine hspec _ _ rfl rfl ?_
      simp only [List.mem_cons, List.not_mem_nil, or_false, forall_eq_or_imp, forall_eq,
        owned_n_free, owned_s_new, owned_n_map]
      rw [← hdriven.single]
      refine and_iff_left_of_imp fun hsingle => ?_
      have hgiven := hdriven.bus_given (hdriven.single.mp hsingle)
      exact ⟨⟨hgiven, hsingle⟩, hgiven⟩
  | none =>
    have hok := not_list_of_busOf h (p, paramname) hbus
    have hdrawn := (hinv.GetNode (p, paramname)).new_bus (p, paramname) 1
    have hnode : GivenTo ((s.withGroup (p, paramname)).GetNode (p, paramname)).2.nodeGrants
        (p, paramname) (s.withGroup (p, paramname)).nextNode := givenTo_GetNode _ _
    have hgiven : GivenTo (((s.withGroup (p, paramname)).GetNode (p, paramname)).2.new_bus
          (p, paramname) 1).2.busGrants (p, paramname) (s.withGroup (p, paramname)).nextBus :=
      givenTo_new_bus _ _ Nat.one_pos
    refine ⟨hdrawn.setTables_new rfl synname ⟨hgiven, hnode⟩, ?_, ?_, hsent,
      (fun _ herr => by cases herr), ?_⟩
    · rw [← hnodes]; exact List.subset_append_left _ _
    · rw [← hbuses]; exact List.subset_append_left _ _
    · rintro bundle ⟨⟩
      refine ⟨fun _ => hok, fun _ msg hmsg => ?_⟩
      simp only [List.mem_cons, List.not_mem_nil, or_false] at hmsg
      rcases hmsg with rfl | rfl
      · exact (owned_s_new _ _ _ _ _).mpr ⟨hgiven, _, rfl, hnode⟩
      · exact (owned_n_map _ _ _).mpr hgiven

omit [DecidableEq P] in
/-- The envelopes of a list all find their control synths where there are
enough of them. -/
theorem setSynths_owned {N B : List (Grant (Param P))} {par : Param P} {nodes : List ℕ}
    (hgiven : ∀ node ∈ nodes, GivenTo N par node) (envel_ar : List L) :
    (∀ msg ∈ envel_ar.mapIdx fun i envel => CtrlMsg.n_set (listNode nodes i) envel,
      msg.Owned N B par) ↔ envel_ar.length ≤ nodes.length := by
  constructor
  · intro hall
    by_contra hlong
    -- the first envelope beyond the list has no node
    have hlt : nodes.length < envel_ar.length := by omega
    have hmem := hall _ (List.mem_mapIdx.mpr ⟨nodes.length, hlt, rfl⟩)
    obtain ⟨node, hnode, -⟩ := (owned_n_set _ _).mp hmem
    simp [listNode] at hnode
  · intro hle msg hmsg
    obtain ⟨i, hi, rfl⟩ := List.mem_mapIdx.mp hmsg
    have hlt : i < nodes.length := by omega
    refine (owned_n_set _ _).mpr ⟨nodes[i], ?_, hgiven _ (List.getElem_mem hlt)⟩
    simp [listNode, List.getElem?_eq_getElem hlt]

omit [DecidableEq P] in
/-- The bundle for a list that is there addresses what the parameter was given
where the list is long enough. -/
theorem setSynths_mapn_owned {N B : List (Grant (Param P))} {p : P} {paramname : LString}
    {firstbus : ℕ} {nodes : List ℕ}
    (hgiven : Driven N B (p, paramname) (some firstbus) (some (.list nodes)))
    (node : Option ℕ) (envel_ar : List L) :
    (∀ msg ∈ (envel_ar.mapIdx fun i envel => CtrlMsg.n_set (listNode nodes i) envel) ++
        [.n_mapn node paramname firstbus envel_ar.length], msg.Owned N B (p, paramname)) ↔
      envel_ar.length ≤ nodes.length := by
  rw [← setSynths_owned (B := B) hgiven.2 envel_ar]
  constructor
  · intro hall msg hmsg
    exact hall msg (List.mem_append_left _ hmsg)
  · intro hall msg hmsg
    rcases List.mem_append.mp hmsg with hset | hmap
    · exact hall msg hset
    · rw [List.mem_singleton.mp hmap, owned_n_mapn]
      have hle := (setSynths_owned hgiven.2 envel_ar).mp hall
      exact fun i hi => hgiven.1 i (by omega)

/-- **`SendCtrlSynth_ar`** is right but for a list longer than the first. -/
theorem SendCtrlSynth_ar_spec (h : CtrlInv s) (synname : LString) (envel_ar : List L)
    (paramname : LString) (p : P) : CallSpec s (p, paramname)
      (∀ nodes, s.nodesOf (p, paramname) = some (.list nodes) →
        s.synnameOf (p, paramname) = some synname → envel_ar.length ≤ nodes.length)
      (SendCtrlSynth_ar synname envel_ar paramname p s) := by
  obtain ⟨hinv, -, hnodes, hbuses, hsent⟩ := withGroup_spec h (p, paramname)
  have hdriven := hinv.driven (p, paramname)
  have hnodesOf := nodesOf_withGroup h (p, paramname)
  have hsynnameOf := synnameOf_withGroup h (p, paramname)
  unfold SendCtrlSynth_ar
  simp only
  cases hbus : ((s.withGroup (p, paramname)).tables p).buses.lookup paramname with
  | some firstbus =>
    have hbusOf : (s.withGroup (p, paramname)).busOf (p, paramname) = some firstbus := hbus
    rw [hbusOf, hnodesOf] at hdriven
    have hlookup : ((s.withGroup (p, paramname)).tables p).nodes.lookup paramname =
        s.nodesOf (p, paramname) := hnodesOf
    have hsynname : ((s.withGroup (p, paramname)).tables p).synnames.lookup paramname =
        s.synnameOf (p, paramname) := hsynnameOf
    simp only [hlookup, hsynname]
    split
    next hsame =>
      refine callSpec_same h (p, paramname) rfl rfl ?_ ?_
      · intro err herr nodes hlist
        rw [hlist] at herr
        cases herr
      · intro bundle hok
        match hof : s.nodesOf (p, paramname), hdriven with
        | some (.one node), _ =>
          -- only the empty list is sent to a single control synth
          rw [hof] at hok
          by_cases hempty : envel_ar = []
          · subst hempty
            obtain rfl := Except.ok.inj hok
            simp
          · simp only [setSynths, if_neg hempty] at hok
            cases hok
        | some (.list nodes), hgiven =>
          rw [hof] at hok
          obtain rfl := Except.ok.inj hok
          simp only [Option.some.injEq, CtrlNodes.list.injEq, forall_eq', hsame, true_implies]
          exact setSynths_mapn_owned hgiven _ envel_ar
    next hother =>
      refine callSpec_same h (p, paramname) rfl rfl ?_ fun _ hok => by cases hok
      exact fun _ _ _ _ hsame => absurd hsame hother
  | none =>
    have hok := not_list_of_busOf h (p, paramname) hbus
    have hnew := newSynths_spec synname (p, paramname)
      ((s.withGroup (p, paramname)).players p).ctrl_group envel_ar
      ((s.withGroup (p, paramname)).new_bus (p, paramname) envel_ar.length).1
      (hinv.new_bus (p, paramname) envel_ar.length)
    have hblock : ∀ i < envel_ar.length, GivenTo
        ((s.withGroup (p, paramname)).new_bus (p, paramname) envel_ar.length).2.busGrants
        (p, paramname) ((s.withGroup (p, paramname)).nextBus + i) :=
      fun i hi => givenTo_new_bus _ _ hi
    dsimp only
    generalize newSynths synname (p, paramname) _ _ envel_ar _ = r at hnew ⊢
    obtain ⟨nodes, bundle, s₂⟩ := r
    have hmapped : ∀ i < envel_ar.length,
        GivenTo s₂.busGrants (p, paramname) ((s.withGroup (p, paramname)).nextBus + i) := by
      rw [hnew.buses]
      exact hblock
    have hlist : Driven s₂.nodeGrants s₂.busGrants (p, paramname)
        (some (s.withGroup (p, paramname)).nextBus) (some (.list nodes)) := by
      refine ⟨?_, hnew.given⟩
      rw [show nodes.length = envel_ar.length from hnew.length]
      exact hmapped
    refine ⟨hnew.inv.setTables_new (congrFun hnew.tables p).symm synname hlist, ?_, ?_, ?_,
      (fun _ herr => by cases herr), ?_⟩
    · rw [← hnodes]; exact hnew.nodes
    · show s.busGrants ⊆ s₂.busGrants
      rw [hnew.buses, ← hbuses]
      exact List.subset_append_left _ _
    · show ∀ sent ∈ s₂.sent, _
      rw [hnew.sent]
      exact hsent
    · rintro _ ⟨⟩
      refine ⟨fun _ list hlist => absurd hlist (hok list), fun _ msg hmsg => ?_⟩
      rcases List.mem_append.mp hmsg with hstart | hmap
      · have howned := hnew.owned hblock msg hstart
        rwa [← hnew.buses] at howned
      · rw [List.mem_singleton.mp hmap]
        exact (owned_n_mapn _ _ _ _).mpr hmapped

/-! ## Runs -/

/-- Every step keeps the invariant; and it keeps buses and nodes with their
parameters exactly where it stays in the allocation. -/
theorem CtrlInv.next (h : CtrlInv s) (act : CtrlAct P L) :
    CtrlInv (s.next act) ∧ (s.Owned → ((s.next act).Owned ↔ InAllocation s act)) := by
  cases act with
  | SendCtrlSynth synname lista paramname p =>
    have hspec := SendCtrlSynth_spec h synname lista paramname p
    exact ⟨hspec.inv_sendBundle, fun hs => hspec.owned_iff hs⟩
  | SendCtrlSynth_ar synname envel_ar paramname p =>
    have hspec := SendCtrlSynth_ar_spec h synname envel_ar paramname p
    exact ⟨hspec.inv_sendBundle, fun hs => hspec.owned_iff hs⟩
  | elsewhere nodes buses =>
    have hinv : CtrlInv (s.next (.elsewhere nodes buses)) :=
      h.of_tables (n := nodes) (m := buses) rfl rfl rfl rfl rfl
    exact ⟨hinv, fun hs => ⟨fun _ => trivial, fun _ => hinv.owned_iff.mpr hs.messages⟩⟩
  | assign p node group =>
    have htables : (s.next (.assign p node group)).tables = s.tables := by
      funext q
      by_cases hq : q = p
      · subst hq; simp [CtrlSession.next, CtrlSession.tables]
      · simp [CtrlSession.next, CtrlSession.tables, Function.update_of_ne hq]
    have hinv : CtrlInv (s.next (.assign p node group)) :=
      h.of_tables (n := 0) (m := 0) rfl rfl rfl rfl htables
    exact ⟨hinv, fun hs => ⟨fun _ => trivial, fun _ => hinv.owned_iff.mpr hs.messages⟩⟩

omit [DecidableEq P] in
theorem CtrlInv.start (nextNode nextBus : ℕ) (node group : P → Option ℕ) :
    CtrlInv (CtrlSession.start (L := L) nextNode nextBus node group) :=
  ⟨Ledger.nil _, Ledger.nil _, fun _ => trivial⟩

/-- **Control bus ownership.** In every run, at every moment, all buses that
control synths write or that parameters are mapped to lie in the block of the
parameter, blocks of different parameters are apart, and every message
addresses a control synth of its parameter, exactly when no call leaves the
allocation of its parameter. -/
theorem ctrl_bus_iff (nextNode nextBus : ℕ) (node group : P → Option ℕ)
    (acts : List (CtrlAct P L)) :
    (∀ n, (run CtrlSession.next (CtrlSession.start nextNode nextBus node group)
        (acts.take n)).Owned) ↔
      Guarded CtrlSession.next InAllocation (CtrlSession.start nextNode nextBus node group)
        acts := by
  have hstart := CtrlInv.start (L := L) nextNode nextBus node group
  have howned : (CtrlSession.start (L := L) nextNode nextBus node group).Owned :=
    hstart.owned_iff.mpr (by simp [CtrlSession.start])
  refine always_iff (I := fun s => CtrlInv s ∧ s.Owned) ?_ ?_
    ⟨hstart, howned⟩ howned (guarded_of_forall (fun _ _ => trivial) _ _)
  · rintro s act ⟨h, hs⟩ - hok
    obtain ⟨hinv, hiff⟩ := h.next act
    have hnext := (hiff hs).mpr hok
    exact ⟨⟨hinv, hnext⟩, hnext⟩
  · rintro s act ⟨h, hs⟩ - hnext
    exact ((h.next act).2 hs).mp hnext

end Steps

/-! ## A longer list, and a single envelope after a list -/

/-- Two envelopes on `amp`, one on `pan`, and then three on `amp`. -/
def growing : List (CtrlAct Unit Unit) :=
  [.SendCtrlSynth_ar (ascii "ENVEL") [(), ()] (ascii "amp") (),
    .SendCtrlSynth (ascii "RAMP") () (ascii "pan") (),
    .SendCtrlSynth_ar (ascii "ENVEL") [(), (), ()] (ascii "amp") ()]

/-- A list of two envelopes on `amp`, and then a single one. -/
def listThenSingle : List (CtrlAct Unit Unit) :=
  [.SendCtrlSynth_ar (ascii "ENVEL") [(), ()] (ascii "amp") (),
    .SendCtrlSynth (ascii "ENVEL") () (ascii "amp") ()]

/-- The third envelope has no control synth, and `amp` is mapped to the bus of
`pan` as well. -/
theorem growing_takes_bus :
    ¬ ∀ n, (run CtrlSession.next
      (CtrlSession.start 1001 0 (fun _ => some 1000) fun _ => some 1) (growing.take n)).Owned := by
  intro hall
  have hmap := (hall 3).messages (((), ascii "amp"), .n_mapn (some 1000) (ascii "amp") 0 3)
    (by decide +kernel)
  have hbus := hmap.buses (ascii "amp", 2) (by decide +kernel)
  exact absurd hbus (by decide +kernel)

/-- The message of the single envelope has the list in the place of a node. -/
theorem single_after_list :
    ¬ ∀ n, (run CtrlSession.next
      (CtrlSession.start 1001 0 (fun _ => some 1000) fun _ => some 1)
        (listThenSingle.take n)).Owned := by
  intro hall
  have hset := (hall 2).messages (((), ascii "amp"), .n_set (.table [1002, 1003]) ())
    (by decide +kernel)
  obtain ⟨node, hnode, -⟩ := hset.synth (.table [1002, 1003]) rfl
  cases hnode

end Lua2SC.Players
