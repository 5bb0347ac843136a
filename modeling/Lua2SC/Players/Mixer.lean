import Lua2SC.Lib.NodeTree

/-!
# The mixer

Every player, every effect and the Master have a bus of their own. The notes of a player write to
its bus, its inserts work on the bus in place, and its channel and its sends read the bus and write
to those of the Master and of the effects; an effect works in place on its bus, and its channel
reads it. All these are synths in groups of the server, which runs them in the order of the tree.

The client only asks for nodes: `/g_new`, `/p_new` and `/s_new` name a node and where to put the new
one by it. Notes and their like are sent with a time, so nothing is assumed of the order in which
the server comes to what it has been sent, nor of what it has freed by then. Node numbers and buses
are counted up.

Whatever happens, each node is where it belongs, so that **on every bus all that is written is
there before it is read** (`signal_flow`): whatever writes to a channel without reading it is run
before anything that reads it, and what works on it in place before what only reads it.
-/

namespace Lua2SC.Players.Mixer

open Lua2SC.NodeTree

/-! ## Nodes -/

/-- What has a channel strip: a player, or a channel of the MIDI input. -/
inductive StripName where
  | player (i : ℕ)
  | midi (ch : ℕ)
deriving DecidableEq, Repr

/-- What a node is for. The buses are those of the message that asks for it. -/
inductive Role where
  | root
  | instRoot
  | masterGroup
  | masterInsertsGroup
  | masterInsert
  | masterChannel
  | recorder (busin : ℕ)
  | effectGroup (e : ℕ)
  | effect (e busin : ℕ)
  | effectChannel (e busin : ℕ)
  | stripGroup (s : StripName)
  | instrGroup (s : StripName)
  | insertsGroup (s : StripName)
  | ctrlGroup (s : StripName)
  | ctrl (s : StripName)
  | note (s : StripName) (out : ℕ)
  | insert (s : StripName) (busin : ℕ)
  | channel (s : StripName) (busin : ℕ)
  | send (s : StripName) (busin e busout : ℕ)
  | scope (busin : ℕ)
deriving DecidableEq, Repr

/-- `ROOT_NODE`. -/
def ROOT_NODE : ℕ := 0

/-- `INST_ROOT_NODE = GetNode()`. -/
def INST_ROOT_NODE : ℕ := 1001

/-- `Master.group`. -/
def masterGroup : ℕ := 1002

/-- `Master.node`. -/
def masterNode : ℕ := 1003

/-- `Master.busin`. -/
def masterBus : ℕ := 16

namespace Role

/-- The group in which it is. -/
def parent : Role → Role
  | root => root
  | instRoot => root
  | masterGroup => root
  | masterInsertsGroup => masterGroup
  | masterInsert => masterInsertsGroup
  | masterChannel => masterGroup
  | recorder _ => masterGroup
  | effectGroup _ => root
  | effect e _ => effectGroup e
  | effectChannel e _ => effectGroup e
  | stripGroup (.player _) => instRoot
  | stripGroup (.midi _) => root
  | instrGroup s => stripGroup s
  | insertsGroup s => stripGroup s
  | ctrlGroup s => stripGroup s
  | ctrl s => ctrlGroup s
  | note s _ => instrGroup s
  | insert s _ => insertsGroup s
  | channel s _ => stripGroup s
  | send s _ _ _ => stripGroup s
  | scope _ => root

/-- Where it comes in its group, if that matters. -/
def rank : Role → Option ℕ
  | root => none
  | instRoot => some 0
  | stripGroup _ => some 0
  | effectGroup _ => some 1
  | masterGroup => some 2
  | scope _ => some 3
  | masterInsertsGroup => some 0
  | masterChannel => some 1
  | recorder _ => some 2
  | masterInsert => none
  | effect _ _ => some 0
  | effectChannel _ _ => some 1
  | instrGroup _ => some 0
  | insertsGroup _ => some 1
  | channel _ _ => some 2
  | send _ _ _ _ => some 2
  | ctrlGroup _ => none
  | ctrl _ => none
  | note _ _ => none
  | insert _ _ => none

/-- There is only one such node. -/
def unique : Role → Bool
  | root => true
  | instRoot => true
  | masterGroup => true
  | masterInsertsGroup => true
  | masterChannel => true
  | effectGroup _ => true
  | stripGroup _ => true
  | instrGroup _ => true
  | insertsGroup _ => true
  | ctrlGroup _ => true
  | masterInsert => false
  | recorder _ => false
  | effect _ _ => false
  | effectChannel _ _ => false
  | ctrl _ => false
  | note _ _ => false
  | insert _ _ => false
  | channel _ _ => false
  | send _ _ _ _ => false
  | scope _ => false

/-- The bus that it reads. -/
def busin : Role → Option ℕ
  | masterInsert => some masterBus
  | masterChannel => some masterBus
  | recorder b => some b
  | effect _ b => some b
  | effectChannel _ b => some b
  | insert _ b => some b
  | channel _ b => some b
  | send _ b _ _ => some b
  | scope b => some b
  | _ => none

/-- The bus that it writes to. -/
def busout : Role → Option ℕ
  | masterInsert => some masterBus
  | masterChannel => some 0
  | effect _ b => some b
  | effectChannel _ _ => some masterBus
  | note _ b => some b
  | insert _ b => some b
  | channel _ _ => some masterBus
  | send _ _ _ b => some b
  | _ => none

/-- A bus is two channels. -/
def Reads (r : Role) (c : ℕ) : Prop := ∃ b, r.busin = some b ∧ (c = b ∨ c = b + 1)

def Writes (r : Role) (c : ℕ) : Prop := ∃ b, r.busout = some b ∧ (c = b ∨ c = b + 1)

end Role

/-- A node by its number, and what it was made for. The server does not know the latter. -/
structure Tag where
  id : ℕ
  role : Role
deriving DecidableEq, Repr

/-- `/g_new` and `/p_new`, `/s_new`, and what frees nodes. -/
inductive Message where
  | g_new (m : Tag) (action : AddAction) (target : ℕ)
  | s_new (m : Tag) (action : AddAction) (target : ℕ)
  | free (r : Removal) (id : ℕ)

/-- The server comes to a message. The root is not freed. -/
def Message.exec (t : List (Node Tag)) : Message → List (Node Tag)
  | g_new m action target => add Tag.id (.group m []) action target t
  | s_new m action target => add Tag.id (.synth m) action target t
  | free r id => if id = ROOT_NODE then t else remove Tag.id r id t

/-! ## The client -/

/-- What a player or a MIDI channel has of the server. -/
structure Strip where
  group : ℕ
  instr_group : Option ℕ
  insertsgroup : Option ℕ
  ctrl_group : Option ℕ
  /-- `channel.busin` -/
  busin : Option ℕ
deriving Repr

/-- `FX(...)` -/
structure Effect where
  group : ℕ
  /-- `channel.busin` -/
  busin : Option ℕ
deriving Repr

/-- The client, the tree of the server, and the messages it has not come to. -/
structure State where
  nextNode : ℕ
  nextBus : ℕ
  masterInsertsGroup : Option ℕ
  Effects : List Effect
  strips : StripName → Option Strip
  server : List (Node Tag)
  sent : List Message

namespace State

/-- `sendBundle` -/
def sendBundle (s : State) (m : Message) : State := { s with sent := s.sent ++ [m] }

/-- A synth of the next node number. -/
def s_new (s : State) (r : Role) (action : AddAction) (target : ℕ) : State :=
  { s with nextNode := s.nextNode + 1, sent := s.sent ++ [.s_new ⟨s.nextNode, r⟩ action target] }

/-- A group of the next node number. -/
def g_new (s : State) (r : Role) (action : AddAction) (target : ℕ) : State :=
  { s with nextNode := s.nextNode + 1, sent := s.sent ++ [.g_new ⟨s.nextNode, r⟩ action target] }

/-- What is known of a strip from now on. -/
def setStrip (s : State) (name : StripName) (strip : Strip) : State :=
  { s with strips := Function.update s.strips name (some strip) }

/-- `GetBus(2)` -/
def GetBus (s : State) : State := { s with nextBus := s.nextBus + 2 }

/-- `FX(name, ...)` -/
def FX (s : State) : State :=
  { s with nextNode := s.nextNode + 1, Effects := s.Effects ++ [⟨s.nextNode, none⟩] }

/-- The group for the inserts of the Master, in front of its channel. -/
def newMasterInsertsGroup (s : State) : State :=
  match s.masterInsertsGroup with
  | some _ => s
  | none =>
    { s.g_new .masterInsertsGroup .head masterGroup with masterInsertsGroup := some s.nextNode }

/-- `MASTER_INS(insert)` -/
def MASTER_INS (s : State) : Option State := do
  let s := s.newMasterInsertsGroup
  let insertsgroup ← s.masterInsertsGroup
  return s.s_new .masterInsert .tail insertsgroup

/-- `Effect:Init()` of the effect `e`, `CHN` included. -/
def effectInit (e : ℕ) (s : State) : Option State := do
  let fx ← s.Effects[e]?
  let s := s.sendBundle (.g_new ⟨fx.group, .effectGroup e⟩ .before masterGroup)
  let busin := s.nextBus
  let s := s.GetBus
  let s := { s with Effects := s.Effects.set e ⟨fx.group, some busin⟩ }
  return s.s_new (.effectChannel e busin) .tail fx.group

/-- `CHN(channel, oscplayer)` -/
def CHN (name : StripName) (s : State) : Option State := do
  let strip ← s.strips name
  let busin := s.nextBus
  let s := s.GetBus.setStrip name { strip with busin := some busin }
  return s.s_new (.channel name busin) .tail strip.group

/-- `OscEventPlayer:Send(fx, lev)` and `Midi2OSCEnvio` -/
def Send (name : StripName) (s : State) (e : ℕ) : Option State := do
  let strip ← s.strips name
  let busin ← strip.busin
  let fx ← s.Effects[e]?
  let busout ← fx.busin
  return s.s_new (.send name busin e busout) .tail strip.group

/-- `MakeSends()` -/
def MakeSends (name : StripName) (s : State) : Option State :=
  (List.range s.Effects.length).foldlM (Send name) s

/-- The group of a strip that has none, in the group `INST_ROOT_NODE` or in the root. -/
def newGroup (name : StripName) (target : ℕ) (s : State) : State :=
  match s.strips name with
  | some _ => s
  | none => (s.g_new (.stripGroup name) .head target).setStrip name
      ⟨s.nextNode, none, none, none, none⟩

/-- The group for the notes, in front. -/
def newInstrGroup (name : StripName) (s : State) : Option State := do
  let strip ← s.strips name
  match strip.instr_group with
  | some _ => return s
  | none =>
    let asked := s.g_new (.instrGroup name) .head strip.group
    return asked.setStrip name { strip with instr_group := some s.nextNode }

/-- The group for the inserts, behind that of the notes. -/
def newInsertsGroup (name : StripName) (s : State) : Option State := do
  let strip ← s.strips name
  match strip.insertsgroup with
  | some _ => return s
  | none =>
    let instr_group ← strip.instr_group
    let asked := s.g_new (.insertsGroup name) .after instr_group
    return asked.setStrip name { strip with insertsgroup := some s.nextNode }

/-- `OscEventPlayer:Init()`; the synths of its inserts come with their first events. -/
def playerInit (i : ℕ) (inserts : Bool) (s : State) : Option State := do
  let s ← (s.newGroup (.player i) INST_ROOT_NODE).newInstrGroup (.player i)
  let s ← s.CHN (.player i)
  let s ← if inserts then s.newInsertsGroup (.player i) else some s
  s.MakeSends (.player i)

/-- `MidiToOsc.Init(ch)`, once for each channel; its inserts follow. -/
def midiInit (ch : ℕ) (s : State) : Option State :=
  match s.strips (.midi ch) with
  | some _ => none
  | none => do
    let s ← (s.newGroup (.midi ch) ROOT_NODE).newInstrGroup (.midi ch)
    let s ← s.CHN (.midi ch)
    let s ← s.newInsertsGroup (.midi ch)
    s.MakeSends (.midi ch)

/-- The synth of a note. -/
def note (name : StripName) (s : State) : Option State := do
  let strip ← s.strips name
  let busin ← strip.busin
  let instr_group ← strip.instr_group
  return s.s_new (.note name busin) .head instr_group

/-- The synth of an insert: `scEventPlayer:playOneEvent` where there is none, and `INS`. -/
def insert (name : StripName) (s : State) : Option State := do
  let strip ← s.strips name
  let busin ← strip.busin
  let insertsgroup ← strip.insertsgroup
  return s.s_new (.insert name busin) .tail insertsgroup

/-- The synth of a channel that has been freed: `scEventPlayer:playOneEvent`. -/
def channel (name : StripName) (s : State) : Option State := do
  let strip ← s.strips name
  let busin ← strip.busin
  return s.s_new (.channel name busin) .tail strip.group

/-- The synth of an effect: `scEventPlayer:playOneEvent`. -/
def effect (e : ℕ) (s : State) : Option State := do
  let fx ← s.Effects[e]?
  let busin ← fx.busin
  return s.s_new (.effect e busin) .head fx.group

/-- The group for the synths of parameters, in front of the others. -/
def newCtrlGroup (name : StripName) (s : State) : Option State := do
  let strip ← s.strips name
  match strip.ctrl_group with
  | some _ => return s
  | none =>
    let asked := s.g_new (.ctrlGroup name) .head strip.group
    return asked.setStrip name { strip with ctrl_group := some s.nextNode }

/-- The synth of a parameter that has none: `SendCtrlSynth`. -/
def SendCtrlSynth (name : StripName) (s : State) : Option State := do
  let s ← s.newCtrlGroup name
  let strip ← s.strips name
  let ctrl_group ← strip.ctrl_group
  return s.s_new (.ctrl name) .head ctrl_group

/-- What the client and the server can do. -/
inductive Action where
  | FX
  | MASTER_INS
  | effectInit (e : ℕ)
  | playerInit (i : ℕ) (inserts : Bool)
  | midiInit (ch : ℕ)
  | note (name : StripName)
  | insert (name : StripName)
  | channel (name : StripName)
  | Send (name : StripName) (e : ℕ)
  | effect (e : ℕ)
  | SendCtrlSynth (name : StripName)
  /-- The synth of a `DiskOut` buffer, behind the channel of the Master. -/
  | recorder (busin : ℕ)
  /-- The synth of a scope. -/
  | scope (busin : ℕ)
  /-- Nodes that the client frees, or that free themselves. -/
  | free (r : Removal) (id : ℕ)
  /-- The server comes to one of the messages. -/
  | exec (i : ℕ)

def step (s : State) : Action → Option State
  | .FX => some s.FX
  | .MASTER_INS => s.MASTER_INS
  | .effectInit e => s.effectInit e
  | .playerInit i inserts => s.playerInit i inserts
  | .midiInit ch => s.midiInit ch
  | .note name => s.note name
  | .insert name => s.insert name
  | .channel name => s.channel name
  | .Send name e => s.Send name e
  | .effect e => s.effect e
  | .SendCtrlSynth name => s.SendCtrlSynth name
  | .recorder busin => some (s.s_new (.recorder busin) .after masterNode)
  | .scope busin => some (s.s_new (.scope busin) .tail ROOT_NODE)
  | .free r id => some (s.sendBundle (.free r id))
  | .exec i => (s.sent[i]?).map fun m =>
    { s with server := m.exec s.server, sent := s.sent.eraseIdx i }

/-- A run. -/
def run (s : State) : List Action → Option State
  | [] => some s
  | a :: as => (s.step a).bind fun s => s.run as

/-- What the first two callbacks of all ask for: `MASTER_INIT1`, and the group of the players. -/
def bootMessages : List Message :=
  [.g_new ⟨masterGroup, .masterGroup⟩ .tail ROOT_NODE,
    .s_new ⟨masterNode, .masterChannel⟩ .tail masterGroup,
    .g_new ⟨INST_ROOT_NODE, .instRoot⟩ .head ROOT_NODE]

/-- The state in which these are done. -/
def boot : State where
  nextNode := 1004
  nextBus := 18
  masterInsertsGroup := none
  Effects := []
  strips _ := none
  server := bootMessages.foldl Message.exec [.group ⟨ROOT_NODE, .root⟩ []]
  sent := []

end State

end Lua2SC.Players.Mixer
