import Lua2SC.Players.PlayOneEvent
import Lua2SC.Lib.Machine

/-!
# scEventPlayer: sending only the parameters that changed

`scEventPlayer:playOneEvent` compares the parameters of an event with
`oldparams`, the values it sent last, and sends those that differ. The
messages reach a `Server`, which keeps the control values of every node: a
new node starts with the defaults of its synth and the arguments of its
`/s_new`, a `/n_set` changes what it names, and a `/n_free` ends the node.

A value that was sent last was sent to the node of that time. `Release`,
`FreeNode` and an event with `dontfree=false` give the node up, and the next
event starts another one, but only `Init` clears `oldparams`. So a repeated
value never reaches the new node, which keeps its default.

`RepeatsKnown` is the condition that every value an event repeats has been
sent to the node it addresses since that node was started, or is the one the
node starts with. `delta_iff` says that the server holds the values of every
event of a run exactly when all its events meet this condition, and
`release_forgets` is the run of two equal events with a release between them.
-/

namespace Lua2SC.Players

open Lua2SC.Lua Lua2SC.Machine

variable {R : Type}

/-! ## The server -/

/-- The control values of the nodes that exist. -/
abbrev Server (R : Type) := ℕ → Option (LString → Option R)

/-- The number that an argument gives a control. -/
def Arg.value [IntCast R] (arg : Arg R) : Option R :=
  match arg with
  | .float (.num x) => some x
  | .int32 n => some n
  | _ => none

/-- The names and values in the arguments of a message. -/
def namedValues [IntCast R] : List (Arg R) → List (LString × R)
  | .str name :: arg :: args => match arg.value with
    | some x => (name, x) :: namedValues args
    | none => namedValues args
  | _ => []

/-- Control values after some have been set, one after the other. -/
def setControls (c : LString → Option R) (kvs : List (LString × R)) : LString → Option R :=
  kvs.foldl (fun c kv => Function.update c kv.1 (some kv.2)) c

/-- A message arrives. -/
def Server.receive [IntCast R] (defaults : Val R → LString → Option R) (srv : Server R)
    (msg : Message R) : Server R :=
  if msg.path = ascii "/s_new" then
    match msg.args with
    | .val inst :: .node n :: .int _ :: .int _ :: args =>
      Function.update srv n (some (setControls (defaults inst) (namedValues args)))
    | _ => srv
  else if msg.path = ascii "/n_set" then
    match msg.args with
    | .node n :: args =>
      Function.update srv n ((srv n).map fun c => setControls c (namedValues args))
    | _ => srv
  else if msg.path = ascii "/n_free" then
    match msg.args with
    | [.node n] => Function.update srv n none
    | _ => srv
  else srv

/-- What is sent at once arrives; what is scheduled does not yet. -/
def Server.hear [IntCast R] (defaults : Val R → LString → Option R) (srv : Server R)
    (out : Out R) : Server R :=
  match out with
  | .sendBundle msg _ => srv.receive defaults msg
  | .sendMultiBundle _ msgs => msgs.foldl (Server.receive defaults) srv
  | _ => srv

/-- The node that the first message of a bundle addresses. -/
def addressedBy (sent : List (Out R)) : Option ℕ :=
  sent.findSome? fun out => match out with
    | .sendMultiBundle _ ({ args := .val _ :: .node n :: _, .. } :: _) => some n
    | .sendMultiBundle _ ({ args := .node n :: _, .. } :: _) => some n
    | _ => none

/-- `scEventPlayer:FreeNode`, at a beat or at once. A `NodeQueue` is made only
by `OscEventPlayer:GetNode`, so these players have none. -/
def scEventPlayer.FreeNode (time : Val R) (v : Voices R) : Voices R :=
  match v.node with
  | none => v
  | some node =>
    { v.emit (.sendBundle { path := ascii "/n_free", args := [.node node] } time) with
      node := none }

/-- The end of the node leaves the tables as they are. -/
theorem Release_tables [AddCommMonoid R] (time : Val R) (v : Voices R) :
    (scEventPlayer.Release time v).params = v.params ∧
      (scEventPlayer.Release time v).oldparams = v.oldparams ∧
      (scEventPlayer.Release time v).node = none := by
  unfold scEventPlayer.Release
  cases hnode : v.node with
  | none => exact ⟨rfl, rfl, hnode⟩
  | some node => exact ⟨rfl, rfl, rfl⟩

theorem FreeNode_tables (time : Val R) (v : Voices R) :
    (scEventPlayer.FreeNode time v).params = v.params ∧
      (scEventPlayer.FreeNode time v).oldparams = v.oldparams ∧
      (scEventPlayer.FreeNode time v).node = none := by
  unfold scEventPlayer.FreeNode
  cases hnode : v.node with
  | none => exact ⟨rfl, rfl, hnode⟩
  | some node => exact ⟨rfl, rfl, rfl⟩

/-! ## Sessions -/

/-- A player, the server, and what an observer knows: the event of the last
step, the node it addressed, and the parameters that were sent to that node
since it was started. -/
structure ParamSession (R : Type) where
  voices : Voices R
  server : Server R
  event : Option (Event R)
  addressed : Option ℕ
  given : List LString

/-- What happens to a player: an event, outside of `Pull`, or the end of its
node. -/
inductive ParamAct (R : Type) where
  | playOneEvent (lista : Event R) (beatTime beatLen : R)
  | Release (time : Val R)
  | FreeNode (time : Val R)

section Steps

variable [AddCommMonoid R] [LinearOrder R] [Mul R] [Div R] [NatCast R] [IntCast R]
  (sc : Script R) (self : Settings R) (defaults : Val R → LString → Option R)

/-- One step. -/
def ParamSession.next (s : ParamSession R) (act : ParamAct R) : LuaM (ParamSession R) :=
  let v := { s.voices with sent := [] }
  match act with
  | .playOneEvent lista beatTime beatLen => do
    let v' ← scEventPlayer.playOneEvent sc self false lista (.num beatTime) (some (.num beatLen)) v
    let given := if s.voices.node = none then [] else s.given
    .ok
      { voices := v'
        server := v'.sent.foldl (Server.hear defaults) s.server
        event := some lista
        addressed := addressedBy v'.sent
        given := given ++ v'.params.keys }
  | .Release time =>
    let v' := scEventPlayer.Release time v
    .ok
      { s with
        voices := v'
        server := v'.sent.foldl (Server.hear defaults) s.server
        event := none }
  | .FreeNode time =>
    let v' := scEventPlayer.FreeNode time v
    .ok
      { s with
        voices := v'
        server := v'.sent.foldl (Server.hear defaults) s.server
        event := none }

/-- What a node starts with: the defaults of its synth, and its two buses. -/
def startValues : LString → Option R :=
  setControls (defaults self.inst) [(ascii "busin", self.busin), (ascii "busout", self.busout)]

/-- The player after `scEventPlayer:Init(setnode)`. -/
def ParamSession.start (setnode : Bool) (nextNode : ℕ) : ParamSession R where
  voices :=
    if setnode = true then { Voices.start R (nextNode + 1) with node := some nextNode }
    else Voices.start R nextNode
  server := fun n =>
    if setnode = true ∧ n = nextNode then some (startValues self defaults) else none
  event := none
  addressed := none
  given := []

end Steps

/-- The keys of an event that are not parameters. -/
def notParams : List LString := [ascii "dur", ascii "inst"]

/-- After an event, the node it addressed holds the value of every parameter
the event gives. -/
def ParamSession.Holds (s : ParamSession R) : Prop :=
  ∀ lista, s.event = some lista → ∃ node c, s.addressed = some node ∧ s.server node = some c ∧
    ∀ k x, k ∉ notParams → lista.lookup k = some (.num x) → c k = some x

/-- All parameters of the event are numbers. -/
def NumberValued (lista : Event R) : Prop :=
  ∀ kv ∈ lista.entries, kv.1 ∉ notParams → ∃ x, kv.2 = .num x

instance (v : Val R) : Decidable (∃ x, v = .num x) :=
  match v with
  | .num x => isTrue ⟨x, rfl⟩
  | .str _ | .bool _ | .rest | .nop | .table _ | .func _ | .mapper _ =>
    isFalse fun ⟨_, h⟩ => by cases h

/-- Events with numbers for parameters; and any release. -/
def PlaysNumbers (_ : ParamSession R) (act : ParamAct R) : Prop :=
  match act with
  | .playOneEvent lista _ _ => NumberValued lista
  | _ => True

instance (s : ParamSession R) : (act : ParamAct R) → Decidable (PlaysNumbers s act)
  | .playOneEvent lista _ _ => inferInstanceAs
      (Decidable (∀ kv ∈ lista.entries, kv.1 ∉ notParams → ∃ x, kv.2 = .num x))
  | .Release _ => isTrue trivial
  | .FreeNode _ => isTrue trivial

section Condition

variable [DecidableEq R] [IntCast R] (self : Settings R) (defaults : Val R → LString → Option R)

/-- Every value that an event repeats was sent to the node it addresses since
that was started, or is the value the node starts with. -/
def RepeatsKnown (s : ParamSession R) (act : ParamAct R) : Prop :=
  match act with
  | .playOneEvent lista _ _ => ∀ kv ∈ lista.entries, kv.1 ∉ notParams →
      s.voices.oldparams.lookup kv.1 = some kv.2 →
        (s.voices.node ≠ none ∧ kv.1 ∈ s.given) ∨
          (startValues self defaults kv.1).map .num = some kv.2
  | _ => True

instance (s : ParamSession R) : (act : ParamAct R) → Decidable (RepeatsKnown self defaults s act)
  | .playOneEvent lista _ _ => inferInstanceAs (Decidable (∀ kv ∈ lista.entries,
      kv.1 ∉ notParams → s.voices.oldparams.lookup kv.1 = some kv.2 →
        (s.voices.node ≠ none ∧ kv.1 ∈ s.given) ∨
          (startValues self defaults kv.1).map .num = some kv.2))
  | .Release _ => isTrue trivial
  | .FreeNode _ => isTrue trivial

end Condition

/-! ## What an event changes -/

/-- The parameters of an event. -/
def paramsOf (lista : Event R) : Event R := (lista.erase (ascii "dur")).erase (ascii "inst")

theorem lookup_paramsOf (lista : Event R) (k : LString) :
    (paramsOf lista).lookup k = if k ∈ notParams then none else lista.lookup k := by
  unfold paramsOf notParams
  by_cases hinst : k = ascii "inst"
  · rw [hinst, AList.lookup_erase, if_pos (by simp)]
  · rw [AList.lookup_erase_ne hinst]
    by_cases hdur : k = ascii "dur"
    · rw [hdur, AList.lookup_erase, if_pos (by simp)]
    · rw [AList.lookup_erase_ne hdur, if_neg (by simp [hinst, hdur])]

/-- All values of the table are numbers. -/
def AllNumbers (t : Event R) : Prop := ∀ k v, t.lookup k = some v → ∃ x, v = .num x

theorem allNumbers_paramsOf {lista : Event R} (h : NumberValued lista) :
    AllNumbers (paramsOf lista) := by
  intro k v hk
  rw [lookup_paramsOf] at hk
  split at hk
  · cases hk
  · next hout => exact h ⟨k, v⟩ (AList.mem_lookup_iff.mp hk) hout

theorem AllNumbers.entry {t : Event R} (h : AllNumbers t) {kv : Sigma fun _ : LString => Val R}
    (hkv : kv ∈ t.entries) : ∃ x, kv.2 = .num x :=
  h kv.1 kv.2 (AList.mem_lookup_iff.mpr hkv)

/-- A fold whose steps change nothing. -/
theorem foldl_unchanged {α β : Type*} (f : α → β → α) (a : α) (bs : List β)
    (h : ∀ b ∈ bs, f a b = a) : bs.foldl f a = a := by
  induction bs with
  | nil => rfl
  | cons b bs ih =>
    rw [List.foldl_cons, h b (List.mem_cons_self ..)]
    exact ih fun b hb => h b (List.mem_cons_of_mem _ hb)

/-- With numbers only there is no function to evaluate. -/
theorem AllNumbers.evalFuncs {t : Event R} (h : AllNumbers t) (sc : Script R) :
    evalFuncs sc t = t := by
  unfold Players.evalFuncs
  refine foldl_unchanged _ _ _ fun kv hkv => ?_
  obtain ⟨x, hx⟩ := h.entry hkv
  rw [hx]

/-- With numbers only there is no control mapper. -/
theorem AllNumbers.listafunc {t : Event R} (h : AllNumbers t) : listafunc t = [] := by
  unfold Players.listafunc
  rw [List.filterMap_eq_nil_iff]
  intro kv hkv
  obtain ⟨x, hx⟩ := h.entry hkv
  rw [hx]

theorem AllNumbers.withoutMappers {t : Event R} (h : AllNumbers t) : withoutMappers t = t := by
  unfold Players.withoutMappers
  rw [h.listafunc]
  rfl

section Updates

variable [LinearOrder R]

/-- The body of the loop of `updateParams`. -/
def updateParam (v : Voices R) (kv : Sigma fun _ : LString => Val R) : Voices R :=
  if v.oldparams.lookup kv.1 ≠ some kv.2 then
    { v with
      params := v.params.insert kv.1 kv.2
      oldparams := v.oldparams.insert kv.1 kv.2 }
  else { v with params := v.params.erase kv.1 }

theorem updateParam_oldparams (v : Voices R) (kv : Sigma fun _ : LString => Val R)
    (k : LString) : (updateParam v kv).oldparams.lookup k =
      if k = kv.1 then some kv.2 else v.oldparams.lookup k := by
  unfold updateParam
  by_cases hk : k = kv.1
  · subst hk
    by_cases hsame : v.oldparams.lookup kv.1 = some kv.2
    · simp [hsame]
    · simp [hsame]
  · by_cases hsame : v.oldparams.lookup kv.1 = some kv.2
    · simp [hsame, hk]
    · simp [hsame, hk, AList.lookup_insert_ne hk]

theorem updateParam_params (v : Voices R) (kv : Sigma fun _ : LString => Val R)
    (k : LString) : (updateParam v kv).params.lookup k =
      if k = kv.1 then (if v.oldparams.lookup k = some kv.2 then none else some kv.2)
      else v.params.lookup k := by
  unfold updateParam
  by_cases hk : k = kv.1
  · subst hk
    by_cases hsame : v.oldparams.lookup kv.1 = some kv.2
    · simp [hsame]
    · simp [hsame]
  · by_cases hsame : v.oldparams.lookup kv.1 = some kv.2
    · simp [hsame, hk, AList.lookup_erase_ne hk]
    · simp [hsame, hk, AList.lookup_insert_ne hk]

/-- The loop of `updateParams` over some of the entries. -/
theorem updateParams_loop (entries : List (Sigma fun _ : LString => Val R))
    (hnodup : entries.NodupKeys) (v : Voices R) (k : LString) :
    (entries.foldl updateParam v).oldparams.lookup k =
        (entries.dlookup k).or (v.oldparams.lookup k) ∧
      (entries.foldl updateParam v).params.lookup k = match entries.dlookup k with
        | some x => if v.oldparams.lookup k = some x then none else some x
        | none => v.params.lookup k := by
  induction entries generalizing v with
  | nil => exact ⟨rfl, rfl⟩
  | cons kv entries ih =>
    obtain ⟨hout, hnodup⟩ := List.nodupKeys_cons.mp hnodup
    have hnone : entries.dlookup kv.1 = none := List.dlookup_eq_none.mpr hout
    obtain ⟨hold, hparams⟩ := ih hnodup (updateParam v kv)
    rw [List.foldl_cons, hold, hparams, updateParam_oldparams, updateParam_params]
    by_cases hk : k = kv.1
    · subst hk
      rw [hnone, if_pos rfl, if_pos rfl, show kv = ⟨kv.1, kv.2⟩ from rfl, List.dlookup_cons_eq]
      exact ⟨rfl, rfl⟩
    · rw [if_neg hk, if_neg hk, List.dlookup_cons_ne _ kv hk]
      exact ⟨rfl, rfl⟩

/-- The loop of `updateParams` touches only the two tables. -/
theorem updateParams_frame (entries : List (Sigma fun _ : LString => Val R)) (v : Voices R) :
    entries.foldl updateParam v =
      { v with
        params := (entries.foldl updateParam v).params
        oldparams := (entries.foldl updateParam v).oldparams } := by
  induction entries generalizing v with
  | nil => rfl
  | cons kv entries ih =>
    rw [List.foldl_cons, ih (updateParam v kv)]
    unfold updateParam
    split <;> rfl

/-- `oldparams` takes the values of the event. -/
theorem lookup_oldparams (lista : Event R) (v : Voices R) (k : LString) :
    (lista.entries.foldl updateParam v).oldparams.lookup k =
      (lista.lookup k).or (v.oldparams.lookup k) :=
  (updateParams_loop lista.entries lista.nodupKeys v k).1

/-- `params` takes the values of the event that differ from the last ones, and
loses those that do not. -/
theorem lookup_params (lista : Event R) (v : Voices R) (k : LString) :
    (lista.entries.foldl updateParam v).params.lookup k = match lista.lookup k with
      | some x => if v.oldparams.lookup k = some x then none else some x
      | none => v.params.lookup k :=
  (updateParams_loop lista.entries lista.nodupKeys v k).2

end Updates

/-- The arguments of one parameter. -/
def valToOsc (sc : Script R) (kv : Sigma fun _ : LString => Val R) : List (Arg R) :=
  .str kv.1 :: match kv.2 with
    | .num x => [.float (.num x)]
    | .table id => [.openArray] ++ (sc.elems id).map .float ++ [.closeArray]
    | .rest | .nop | .mapper _ => [.openArray, .closeArray]
    | v => [.val v]

/-- Setting controls from some entries of a table of numbers. -/
theorem setControls_entries [IntCast R] (sc : Script R)
    (entries : List (Sigma fun _ : LString => Val R)) (hnodup : entries.NodupKeys)
    (hnum : ∀ kv ∈ entries, ∃ x, kv.2 = .num x) (c : LString → Option R) (k : LString) :
    setControls c (namedValues (entries.flatMap (valToOsc sc))) k =
      match entries.dlookup k with
      | some (.num x) => some x
      | _ => c k := by
  induction entries generalizing c with
  | nil => rfl
  | cons kv entries ih =>
    obtain ⟨hout, hnodup⟩ := List.nodupKeys_cons.mp hnodup
    have hnone : entries.dlookup kv.1 = none := List.dlookup_eq_none.mpr hout
    obtain ⟨x, hx⟩ := hnum kv (List.mem_cons_self ..)
    have hval : valToOsc sc kv = [.str kv.1, .float (.num x)] := by
      unfold valToOsc
      rw [hx]
    rw [List.flatMap_cons, hval]
    show setControls (Function.update c kv.1 (some x)) (namedValues (entries.flatMap _)) k = _
    rw [ih hnodup (fun kv hkv => hnum kv (List.mem_cons_of_mem _ hkv))]
    by_cases hk : k = kv.1
    · subst hk
      rw [hnone, show kv = ⟨kv.1, kv.2⟩ from rfl, List.dlookup_cons_eq, hx]
      exact Function.update_self ..
    · rw [List.dlookup_cons_ne _ kv hk, Function.update_of_ne hk]

/-- What a node holds after the parameters of a table of numbers. -/
theorem setControls_params [IntCast R] (sc : Script R) {t : Event R} (h : AllNumbers t)
    (c : LString → Option R) (k : LString) :
    setControls c (namedValues (ValsToOsc sc t)) k =
      match t.lookup k with
      | some (.num x) => some x
      | _ => c k :=
  setControls_entries sc t.entries t.nodupKeys (fun _ hkv => h.entry hkv) c k

/-! ## One event -/

section Event

variable [AddCommMonoid R] [LinearOrder R] [Mul R] [Div R] (sc : Script R) (self : Settings R)

/-- The `/s_new` of an event that starts a node, without the parameters. -/
def newMsg (node : ℕ) : Message R where
  path := ascii "/s_new"
  args := [.val self.inst, .node node, .int self.headtail, .int self.group,
    .str (ascii "busin"), .int32 self.busin, .str (ascii "busout"), .int32 self.busout]

/-- What an event of numbers does once its node and the head of its message
are chosen. -/
def sendChanged (params : Event R) (beatTime beatLen : R) (node : ℕ) (msg : Message R)
    (v : Voices R) : Voices R :=
  let v := params.entries.foldl updateParam v
  let v := v.emit (.sendMultiBundle (.num beatTime) [getMsgLista sc msg v.params])
  if self.dontfree = some false then
    { v.emit (.scheduleOscEvent (gateOff node) (.num (beatTime + beatLen))) with node := none }
  else v

omit [Mul R] [Div R] in
/-- The two tables after the event, and its node, which `dontfree=false` gives
up. -/
theorem sendChanged_tables (params : Event R) (beatTime beatLen : R) (node : ℕ) (msg : Message R)
    (v : Voices R) :
    (sendChanged sc self params beatTime beatLen node msg v).params =
        (params.entries.foldl updateParam v).params ∧
      (sendChanged sc self params beatTime beatLen node msg v).oldparams =
        (params.entries.foldl updateParam v).oldparams ∧
      ((sendChanged sc self params beatTime beatLen node msg v).node = none ∨
        (sendChanged sc self params beatTime beatLen node msg v).node = v.node) := by
  unfold sendChanged
  split
  · exact ⟨rfl, rfl, Or.inl rfl⟩
  · refine ⟨rfl, rfl, Or.inr ?_⟩
    show (params.entries.foldl updateParam v).node = v.node
    rw [updateParams_frame]

omit [Mul R] [Div R] in
/-- What is sent: one bundle with the changed parameters, and a release for
later where the node is given up. -/
theorem sendChanged_sent (params : Event R) (beatTime beatLen : R) (node : ℕ) (msg : Message R)
    {v : Voices R} (hsent : v.sent = []) :
    ∃ later, (sendChanged sc self params beatTime beatLen node msg v).sent =
        .sendMultiBundle (.num beatTime)
          [getMsgLista sc msg (params.entries.foldl updateParam v).params] :: later ∧
      ∀ out ∈ later, ∃ event time, out = .scheduleOscEvent event time := by
  have hframe : (params.entries.foldl updateParam v).sent = [] := by
    rw [updateParams_frame]
    exact hsent
  unfold sendChanged
  split
  · refine ⟨[.scheduleOscEvent (gateOff node) (.num (beatTime + beatLen))], ?_, ?_⟩
    · simp [hframe]
    · intro out hout
      exact ⟨_, _, List.mem_singleton.mp hout⟩
  · refine ⟨[], ?_, fun out hout => by cases hout⟩
    simp [hframe]

variable {lista : Event R} (hnum : NumberValued lista) (beatTime beatLen : R) {v : Voices R}

include hnum

omit [LinearOrder R] [AddCommMonoid R] [Mul R] [Div R] in
theorem evalFuncs_paramsOf :
    evalFuncs sc (setOrNil (setOrNil lista "dur" none) "inst" none) = paramsOf lista :=
  (allNumbers_paramsOf hnum).evalFuncs sc

/-- Without a node, the event starts one. -/
theorem playOneEvent_new (hnode : v.node = none) :
    scEventPlayer.playOneEvent sc self false lista (.num beatTime) (some (.num beatLen)) v =
      .ok (sendChanged sc self (paramsOf lista) beatTime beatLen v.nextNode
        (newMsg self v.nextNode) { v with nextNode := v.nextNode + 1, node := some v.nextNode }) := by
  have hall := allNumbers_paramsOf hnum
  unfold scEventPlayer.playOneEvent sendChanged
  simp only [evalFuncs_paramsOf sc hnum, hnode, hall.listafunc, hall.withoutMappers,
    Bool.false_eq_true, if_false]
  by_cases hfree : self.dontfree = some false
  · rw [if_pos hfree, if_pos hfree]
    rfl
  · rw [if_neg hfree, if_neg hfree]
    rfl

/-- With a node, the event sets its controls. -/
theorem playOneEvent_again {node : ℕ} (hnode : v.node = some node) :
    scEventPlayer.playOneEvent sc self false lista (.num beatTime) (some (.num beatLen)) v =
      .ok (sendChanged sc self (paramsOf lista) beatTime beatLen node (nSet node) v) := by
  have hall := allNumbers_paramsOf hnum
  unfold scEventPlayer.playOneEvent sendChanged
  simp only [evalFuncs_paramsOf sc hnum, hnode, hall.listafunc, hall.withoutMappers,
    Bool.false_eq_true, if_false]
  by_cases hfree : self.dontfree = some false
  · rw [if_pos hfree, if_pos hfree]
    rfl
  · rw [if_neg hfree, if_neg hfree]
    rfl

end Event

/-! ## The invariant -/

section Invariant

variable [LinearOrder R] [IntCast R] (settings : Settings R) (defaults : Val R → LString → Option R)

/-- A node holds the last value of every parameter it was given, and started
with the others. -/
def Knows (oldparams : Event R) (given : List LString) (c : LString → Option R) : Prop :=
  ∀ k, (k ∈ given ∧ ∃ x, oldparams.lookup k = some (.num x) ∧ c k = some x) ∨
    (k ∉ given ∧ c k = startValues settings defaults k)

/-- What holds of a session at every moment: the tables hold numbers, `params`
only values of `oldparams`, and the player's node knows what it was given. -/
structure ParamInv (s : ParamSession R) : Prop where
  old : AllNumbers s.voices.oldparams
  sub : ∀ k v, s.voices.params.lookup k = some v → s.voices.oldparams.lookup k = some v
  node : ∀ n, s.voices.node = some n →
    ∃ c, s.server n = some c ∧ Knows settings defaults s.voices.oldparams s.given c

variable {settings defaults} (sc : Script R) {v : Voices R} {params : Event R} {given : List LString}
  {c : LString → Option R}

omit [IntCast R] in
/-- The tables after an event of numbers. -/
theorem tables_after (hold : AllNumbers v.oldparams)
    (hsub : ∀ k x, v.params.lookup k = some x → v.oldparams.lookup k = some x)
    (hnum : AllNumbers params) :
    AllNumbers (params.entries.foldl updateParam v).oldparams ∧
      ∀ k x, (params.entries.foldl updateParam v).params.lookup k = some x →
        (params.entries.foldl updateParam v).oldparams.lookup k = some x := by
  refine ⟨fun k x hk => ?_, fun k x hk => ?_⟩
  · rw [lookup_oldparams] at hk
    cases hparam : params.lookup k with
    | some y =>
      rw [hparam, Option.some_or] at hk
      exact hnum k x (by rw [hparam, hk])
    | none =>
      rw [hparam, Option.none_or] at hk
      exact hold k x hk
  · rw [lookup_params] at hk
    rw [lookup_oldparams]
    cases hparam : params.lookup k with
    | some y =>
      rw [hparam] at hk
      dsimp only at hk
      split at hk
      · cases hk
      · exact hk
    | none =>
      rw [hparam] at hk
      exact hsub k x hk

/-- The changed parameters are sent, and the node knows them then. -/
theorem Knows.send (h : Knows settings defaults v.oldparams given c) (hold : AllNumbers v.oldparams)
    (hsub : ∀ k x, v.params.lookup k = some x → v.oldparams.lookup k = some x)
    (hnum : AllNumbers params) :
    Knows settings defaults (params.entries.foldl updateParam v).oldparams
      (given ++ (params.entries.foldl updateParam v).params.keys)
      (setControls c (namedValues (ValsToOsc sc (params.entries.foldl updateParam v).params))) := by
  obtain ⟨hold', hsub'⟩ := tables_after hold hsub hnum
  have hparams : AllNumbers (params.entries.foldl updateParam v).params :=
    fun k x hk => hold' k x (hsub' k x hk)
  intro k
  rw [setControls_params sc hparams, List.mem_append]
  cases hsent : (params.entries.foldl updateParam v).params.lookup k with
  | some y =>
    obtain ⟨x, rfl⟩ := hparams k y hsent
    refine Or.inl ⟨Or.inr ?_, x, hsub' k _ hsent, rfl⟩
    exact AList.mem_keys.mp (AList.lookup_isSome.mp (by rw [hsent]; rfl))
  | none =>
    have hkeys : k ∉ (params.entries.foldl updateParam v).params.keys := fun hk =>
      AList.lookup_eq_none.mp hsent (AList.mem_keys.mpr hk)
    -- what is not sent is what it was, so `oldparams` says the same of it
    have hsame : ∀ x, v.oldparams.lookup k = some x →
        (params.entries.foldl updateParam v).oldparams.lookup k = some x := by
      intro x hx
      rw [lookup_params] at hsent
      rw [lookup_oldparams]
      cases hparam : params.lookup k with
      | some y =>
        rw [hparam] at hsent
        dsimp only at hsent
        split at hsent
        · next hy => rw [Option.some_or, ← hy, hx]
        · cases hsent
      | none => rw [Option.none_or, hx]
    rcases h k with ⟨hin, x, hx, hc⟩ | ⟨hout, hc⟩
    · exact Or.inl ⟨Or.inl hin, x, hsame _ hx, hc⟩
    · exact Or.inr ⟨fun hin => hin.elim hout hkeys, hc⟩

/-- The node holds the values of the event exactly when it knew those that the
event repeats. -/
theorem Knows.holds_iff (h : Knows settings defaults v.oldparams given c)
    (hold : AllNumbers v.oldparams)
    (hsub : ∀ k x, v.params.lookup k = some x → v.oldparams.lookup k = some x)
    (hnum : AllNumbers params) :
    (∀ k x, params.lookup k = some (.num x) →
        setControls c (namedValues (ValsToOsc sc (params.entries.foldl updateParam v).params)) k =
          some x) ↔
      ∀ k x, params.lookup k = some (.num x) → v.oldparams.lookup k = some (.num x) →
        k ∈ given ∨ startValues settings defaults k = some x := by
  obtain ⟨hold', hsub'⟩ := tables_after hold hsub hnum
  have hparams : AllNumbers (params.entries.foldl updateParam v).params :=
    fun k x hk => hold' k x (hsub' k x hk)
  refine forall₂_congr fun k x => forall_congr' fun hk => ?_
  rw [setControls_params sc hparams, lookup_params, hk]
  dsimp only
  by_cases hsame : v.oldparams.lookup k = some (.num x)
  · rw [if_pos hsame]
    dsimp only
    rcases h k with ⟨hin, y, hy, hc⟩ | ⟨hout, hc⟩
    · obtain rfl : x = y := by
        rw [hsame] at hy
        injection hy with hy
        injection hy
      exact ⟨fun _ _ => Or.inl hin, fun _ => hc⟩
    · rw [hc]
      exact ⟨fun hx _ => Or.inr hx, fun hx => (hx hsame).resolve_left hout⟩
  · rw [if_neg hsame]
    exact ⟨fun _ hx => absurd hx hsame, fun _ => rfl⟩

end Invariant

/-! ## Steps and runs -/

section Runs

variable [AddCommMonoid R] [LinearOrder R] [Mul R] [Div R] [IntCast R]
  (sc : Script R) (self : Settings R) (defaults : Val R → LString → Option R)

omit [AddCommMonoid R] [LinearOrder R] [Mul R] [Div R] in
/-- What is scheduled does not reach the server. -/
theorem hear_later {later : List (Out R)}
    (h : ∀ out ∈ later, ∃ event time, out = .scheduleOscEvent event time) (srv : Server R) :
    later.foldl (Server.hear defaults) srv = srv := by
  refine foldl_unchanged _ _ _ fun out hout => ?_
  obtain ⟨event, time, rfl⟩ := h out hout
  rfl

omit [AddCommMonoid R] [LinearOrder R] [Mul R] [Div R] in
/-- A new node gets what it starts with and the parameters. -/
theorem receive_newMsg (node : ℕ) (params : Event R) (srv : Server R) :
    srv.receive defaults (getMsgLista sc (newMsg self node) params) =
      Function.update srv node
        (some (setControls (startValues self defaults) (namedValues (ValsToOsc sc params)))) :=
  rfl

omit [AddCommMonoid R] [LinearOrder R] [Mul R] [Div R] in
/-- A node that exists gets the parameters. -/
theorem receive_nSet {node : ℕ} {c : LString → Option R} (params : Event R) {srv : Server R}
    (hc : srv node = some c) :
    srv.receive defaults (getMsgLista sc (nSet node) params) =
      Function.update srv node (some (setControls c (namedValues (ValsToOsc sc params)))) := by
  have hne : ascii "/n_set" ≠ ascii "/s_new" := by decide
  show (if ascii "/n_set" = ascii "/s_new" then _ else _) = _
  rw [if_neg hne]
  show Function.update srv node ((srv node).map _) = _
  rw [hc]
  rfl

variable {sc self defaults}

omit [AddCommMonoid R] [LinearOrder R] [Mul R] [Div R] [IntCast R] in
/-- A number of the event is a number of its parameters. -/
theorem lookup_number {lista : Event R} {k : LString} {x : R} :
    (paramsOf lista).lookup k = some (.num x) ↔
      k ∉ notParams ∧ lista.lookup k = some (.num x) := by
  rw [lookup_paramsOf]
  by_cases hout : k ∈ notParams
  · rw [if_pos hout]
    exact ⟨fun h => (nomatch h), fun h => absurd hout h.1⟩
  · rw [if_neg hout]
    exact ⟨fun h => ⟨hout, h⟩, fun h => h.2⟩

omit [AddCommMonoid R] [LinearOrder R] [Mul R] [Div R] [IntCast R] in
/-- The node that was addressed holds the parameters of the event. -/
theorem ParamSession.holds_iff {s : ParamSession R} {lista : Event R} {node : ℕ}
    {c : LString → Option R} (hevent : s.event = some lista) (haddr : s.addressed = some node)
    (hc : s.server node = some c) :
    s.Holds ↔ ∀ k x, (paramsOf lista).lookup k = some (.num x) → c k = some x := by
  constructor
  · intro hholds k x hk
    obtain ⟨node', c', haddr', hc', hvalues⟩ := hholds lista hevent
    obtain rfl : node = node' := Option.some.inj (haddr.symm.trans haddr')
    obtain rfl : c = c' := Option.some.inj (hc.symm.trans hc')
    exact hvalues k x (lookup_number.mp hk).1 (lookup_number.mp hk).2
  · intro hvalues lista' hlista'
    obtain rfl : lista = lista' := Option.some.inj (hevent.symm.trans hlista')
    exact ⟨node, c, haddr, hc, fun k x hout hk => hvalues k x (lookup_number.mpr ⟨hout, hk⟩)⟩

omit [AddCommMonoid R] [LinearOrder R] [Mul R] [Div R] in
/-- The condition on the repeated values, over the parameters of the event. -/
theorem repeatsKnown_iff (s : ParamSession R) {lista : Event R} (hnum : NumberValued lista)
    (beatTime beatLen : R) :
    RepeatsKnown self defaults s (.playOneEvent lista beatTime beatLen) ↔
      ∀ k x, (paramsOf lista).lookup k = some (.num x) →
        s.voices.oldparams.lookup k = some (.num x) →
        k ∈ (if s.voices.node = none then [] else s.given) ∨
          startValues self defaults k = some x := by
  have hgiven : ∀ k, (s.voices.node ≠ none ∧ k ∈ s.given) ↔
      k ∈ (if s.voices.node = none then [] else s.given) := by
    intro k
    split
    · next hnone => simp [hnone]
    · next hsome => simp [hsome]
  have hstart : ∀ k x, (startValues self defaults k).map .num = some (.num x : Val R) ↔
      startValues self defaults k = some x := by
    intro k x
    cases startValues self defaults k with
    | none => simp
    | some y => simp
  constructor
  · intro hok k x hk hrepeat
    obtain ⟨hout, hk⟩ := lookup_number.mp hk
    have hknown := hok ⟨k, .num x⟩ (AList.mem_lookup_iff.mp hk) hout hrepeat
    rwa [hgiven, hstart] at hknown
  · intro hok kv hkv hout hrepeat
    obtain ⟨x, hx⟩ := hnum kv hkv hout
    have hk : lista.lookup kv.1 = some (.num x) := by
      rw [← hx]
      exact AList.mem_lookup_iff.mpr hkv
    rw [hx, hgiven, hstart]
    exact hok kv.1 x (lookup_number.mpr ⟨hout, hk⟩) (by rw [hrepeat, hx])

/-- The event is played with the changed parameters for one node, which knows
what it was given: the player's node, or a new one that was given nothing. -/
structure Addresses (sc : Script R) (settings : Settings R)
    (defaults : Val R → LString → Option R) (s : ParamSession R) (lista : Event R)
    (beatTime beatLen : R) (v : Voices R) (node : ℕ) (msg : Message R)
    (c : LString → Option R) : Prop where
  plays : scEventPlayer.playOneEvent sc settings false lista (.num beatTime) (some (.num beatLen))
      { s.voices with sent := [] } =
    .ok (sendChanged sc settings (paramsOf lista) beatTime beatLen node msg v)
  sent : v.sent = []
  params : v.params = s.voices.params
  old : v.oldparams = s.voices.oldparams
  knows : Knows settings defaults s.voices.oldparams
    (if s.voices.node = none then [] else s.given) c
  addressed : ∀ params later, addressedBy (.sendMultiBundle (.num beatTime)
    [getMsgLista sc msg params] :: later) = some node
  receives : ∀ params, s.server.receive defaults (getMsgLista sc msg params) =
    Function.update s.server node (some (setControls c (namedValues (ValsToOsc sc params))))
  node : v.node = some node

theorem ParamInv.addresses {s : ParamSession R} (h : ParamInv self defaults s) {lista : Event R}
    (hnum : NumberValued lista) (beatTime beatLen : R) :
    ∃ v node msg c, Addresses sc self defaults s lista beatTime beatLen v node msg c := by
  cases hnode : s.voices.node with
  | none =>
    refine ⟨_, _, _, startValues self defaults, playOneEvent_new sc self hnum _ _ hnode,
      rfl, rfl, rfl, ?_, fun _ _ => rfl, ?_, rfl⟩
    · rw [if_pos hnode]
      exact fun k => Or.inr ⟨List.not_mem_nil, rfl⟩
    · exact fun params => receive_newMsg sc self defaults _ params s.server
  | some node =>
    obtain ⟨c, hc, hknows⟩ := h.node node hnode
    refine ⟨_, _, _, c, playOneEvent_again sc self hnum _ _ hnode,
      rfl, rfl, rfl, ?_, fun _ _ => rfl, ?_, hnode⟩
    · rw [if_neg (by rw [hnode]; exact Option.some_ne_none _)]
      exact hknows
    · exact fun params => receive_nSet sc defaults params hc

/-- **One event.** The session goes on, keeps the invariant, and holds the
event's values exactly when it knew those that the event repeats. -/
theorem ParamInv.event {s : ParamSession R} (h : ParamInv self defaults s) {lista : Event R}
    (hnum : NumberValued lista) (beatTime beatLen : R) :
    ∃ s', s.next sc self defaults (.playOneEvent lista beatTime beatLen) = .ok s' ∧
      ParamInv self defaults s' ∧
      (s'.Holds ↔ RepeatsKnown self defaults s (.playOneEvent lista beatTime beatLen)) := by
  have hall := allNumbers_paramsOf hnum
  obtain ⟨v, node, msg, c, ha⟩ :
      ∃ v node msg c, Addresses sc self defaults s lista beatTime beatLen v node msg c :=
    h.addresses hnum beatTime beatLen
  have hold : AllNumbers v.oldparams := by
    rw [ha.old]
    exact h.old
  have hsub : ∀ k x, v.params.lookup k = some x → v.oldparams.lookup k = some x := by
    rw [ha.params, ha.old]
    exact h.sub
  have hknown := ha.knows
  rw [← ha.old] at hknown
  obtain ⟨hparams', hold', hnode'⟩ :=
    sendChanged_tables sc self (paramsOf lista) beatTime beatLen node msg v
  obtain ⟨later, hsent', hlater⟩ :=
    sendChanged_sent sc self (paramsOf lista) beatTime beatLen node msg ha.sent
  have hserver : (sendChanged sc self (paramsOf lista) beatTime beatLen node msg v).sent.foldl
      (Server.hear defaults) s.server = Function.update s.server node (some (setControls c
        (namedValues (ValsToOsc sc ((paramsOf lista).entries.foldl updateParam v).params)))) := by
    rw [hsent', List.foldl_cons, hear_later defaults hlater]
    exact ha.receives _
  have hnext : s.next sc self defaults (.playOneEvent lista beatTime beatLen) = .ok
      { voices := sendChanged sc self (paramsOf lista) beatTime beatLen node msg v
        server := Function.update s.server node (some (setControls c
          (namedValues (ValsToOsc sc ((paramsOf lista).entries.foldl updateParam v).params))))
        event := some lista
        addressed := some node
        given := (if s.voices.node = none then [] else s.given) ++
          ((paramsOf lista).entries.foldl updateParam v).params.keys } := by
    unfold ParamSession.next
    simp only [ha.plays, ok_bind, hserver, hparams']
    rw [hsent', ha.addressed]
  refine ⟨_, hnext, ⟨?_, ?_, ?_⟩, ?_⟩
  · dsimp only
    rw [hold']
    exact (tables_after hold hsub hall).1
  · dsimp only
    rw [hold', hparams']
    exact (tables_after hold hsub hall).2
  · intro n hn
    dsimp only at hn ⊢
    rw [hold']
    rcases hnode' with hnone | hsame
    · rw [hnone] at hn
      cases hn
    · rw [hsame, ha.node] at hn
      obtain rfl := Option.some.inj hn
      exact ⟨_, Function.update_self .., hknown.send sc hold hsub hall⟩
  · rw [ParamSession.holds_iff rfl rfl (Function.update_self ..), repeatsKnown_iff s hnum, ← ha.old]
    exact hknown.holds_iff sc hold hsub hall

omit [AddCommMonoid R] [LinearOrder R] [Mul R] [Div R] in
theorem ParamInv.start (setnode : Bool) (nextNode : ℕ) :
    ParamInv self defaults (ParamSession.start self defaults setnode nextNode) where
  old := by
    intro k v hk
    cases setnode with
    | false => cases hk
    | true => cases hk
  sub := by
    intro k v hk
    cases setnode with
    | false => cases hk
    | true => cases hk
  node := by
    intro n hn
    cases setnode with
    | false => cases hn
    | true =>
      obtain rfl : nextNode = n := Option.some.inj hn
      refine ⟨startValues self defaults, ?_, fun k => Or.inr ⟨List.not_mem_nil, rfl⟩⟩
      exact if_pos ⟨rfl, rfl⟩

omit [AddCommMonoid R] [LinearOrder R] [Mul R] [Div R] in
/-- The end of the node, however it is told, leaves the tables as they are. -/
theorem ParamInv.freed {s : ParamSession R} (h : ParamInv self defaults s) {v : Voices R}
    (hparams : v.params = s.voices.params) (hold : v.oldparams = s.voices.oldparams)
    (hnode : v.node = none) (server : Server R) :
    ParamInv self defaults { s with voices := v, server := server, event := none } where
  old := by
    dsimp only
    rw [hold]
    exact h.old
  sub := by
    dsimp only
    rw [hparams, hold]
    exact h.sub
  node := by
    intro n hn
    dsimp only at hn
    rw [hnode] at hn
    cases hn

/-- **One step.** -/
theorem ParamInv.next {s : ParamSession R} (h : ParamInv self defaults s) {act : ParamAct R}
    (hplays : PlaysNumbers s act) :
    ∃ s', s.next sc self defaults act = .ok s' ∧ ParamInv self defaults s' ∧
      (s'.Holds ↔ RepeatsKnown self defaults s act) := by
  cases act with
  | playOneEvent lista beatTime beatLen => exact h.event hplays beatTime beatLen
  | Release time =>
    refine ⟨_, rfl, ?_, fun _ => trivial, fun _ lista hlista => by cases hlista⟩
    obtain ⟨hparams, hold, hnode⟩ := Release_tables time { s.voices with sent := [] }
    exact h.freed hparams hold hnode _
  | FreeNode time =>
    refine ⟨_, rfl, ?_, fun _ => trivial, fun _ lista hlista => by cases hlista⟩
    obtain ⟨hparams, hold, hnode⟩ := FreeNode_tables time { s.voices with sent := [] }
    exact h.freed hparams hold hnode _

/-- **Delta-encoded parameters.** In every run of number-valued events and
releases the node that an event addresses holds, after the event, the values
the event gives, exactly when no event repeats a value that its node was not
given and did not start with. -/
theorem delta_iff (setnode : Bool) (nextNode : ℕ) (acts : List (ParamAct R))
    (hplays : Guarded (stepM (ParamSession.next sc self defaults)) (Live PlaysNumbers)
      (.ok (ParamSession.start self defaults setnode nextNode)) acts) :
    (∀ n, ∃ s, run (stepM (ParamSession.next sc self defaults))
        (.ok (ParamSession.start self defaults setnode nextNode)) (acts.take n) = .ok s ∧ s.Holds) ↔
      Guarded (stepM (ParamSession.next sc self defaults)) (Live (RepeatsKnown self defaults))
        (.ok (ParamSession.start self defaults setnode nextNode)) acts := by
  refine always_iffM (I := ParamInv self defaults) ?_ ?_ (ParamInv.start setnode nextNode)
    (fun lista hlista => by cases hlista) hplays
  · intro s act h hdom hok
    obtain ⟨s', hs', hinv, hiff⟩ := h.next hdom
    exact ⟨s', hs', hinv, hiff.mpr hok⟩
  · intro s act s' h hdom hs' hholds
    obtain ⟨s₁, hs₁, -, hiff⟩ := h.next hdom
    obtain rfl := Except.ok.inj (hs₁.symm.trans hs')
    exact hiff.mp hholds

end Runs

/-! ## A value repeated on another node -/

/-- The event `{level = x}`. -/
def level (x : ℚ) : Event ℚ := AList.insert (ascii "level") (.num x) ∅

/-- Two events with a release of the node between them. -/
def aroundRelease (x y : ℚ) : List (ParamAct ℚ) :=
  [.playOneEvent (level x) 0 1, .Release (.num 1), .playOneEvent (level y) 2 1]

/-- The second event repeats the level, which is not sent to the new node: it
keeps the default, which is 0. -/
theorem release_forgets :
    Guarded (stepM (ParamSession.next bareScript bareSettings fun _ _ => some 0)) (Live PlaysNumbers)
        (.ok (ParamSession.start bareSettings (fun _ _ => some 0) false 1001)) (aroundRelease 1 1) ∧
      ¬ ∀ n, ∃ s, run (stepM (ParamSession.next bareScript bareSettings fun _ _ => some 0))
        (.ok (ParamSession.start bareSettings (fun _ _ => some 0) false 1001))
        ((aroundRelease 1 1).take n) = .ok s ∧ s.Holds := by
  refine ⟨by decide +kernel, fun hall => ?_⟩
  obtain ⟨s, hs, hholds⟩ := hall 3
  have hwrong : (match run (stepM (ParamSession.next bareScript bareSettings fun _ _ => some 0))
        (.ok (ParamSession.start bareSettings (fun _ _ => some 0) false 1001))
        ((aroundRelease 1 1).take 3) with
      | .ok s => decide (s.event.map (fun lista => lista.lookup (ascii "level")) =
          some (some (.num 1)) ∧ s.addressed = some 1002 ∧
          (s.server 1002).map (fun c => c (ascii "level")) = some (some 0))
      | .error _ => false) = true := by decide +kernel
  rw [hs] at hwrong
  obtain ⟨hevent, haddressed, hlevel⟩ := of_decide_eq_true hwrong
  obtain ⟨lista, hlista, hone⟩ := Option.map_eq_some_iff.mp hevent
  obtain ⟨node, c, hnode, hc, hvalues⟩ := hholds lista hlista
  obtain rfl : 1002 = node := Option.some.inj (haddressed.symm.trans hnode)
  rw [hc, Option.map_some, hvalues (ascii "level") 1 (by decide) hone] at hlevel
  exact absurd (Option.some.inj (Option.some.inj hlevel)) (by decide +kernel)

/-- An event with another level is sent to the new node. -/
theorem release_changes : ∃ s,
    run (stepM (ParamSession.next bareScript bareSettings fun _ _ => some 0))
      (.ok (ParamSession.start bareSettings (fun _ _ => some 0) false 1001))
      (aroundRelease 1 2) = .ok s ∧ s.Holds :=
  (delta_iff false 1001 (aroundRelease 1 2) (by decide +kernel)).mpr (by decide +kernel) 3

end Lua2SC.Players
