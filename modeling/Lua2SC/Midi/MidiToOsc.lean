import Lua2SC.Lib.Lua
import Lua2SC.Lib.Machine

/-!
# MidiToOsc: playing a synth from MIDI events

`MidiToOsc.midi2osc` turns the MIDI events of a channel into OSC messages. A
polyphonic channel keeps a table from keys to nodes (`nodesMidi2Osc[ch]`) and,
for keys released under the pedal, a queue from nodes to keys
(`free_queue[ch]`). A monophonic channel has one node at a time and the list
of the keys that are down (`keylist`). `oscfree` is false while the pedal is
down: controller 64 presses it with value 127 and lifts it with any other.

The model is of channels without `on_maker`, so every note is one node. The
recording of events and the prints are left out. Messages are typed by what
they set; the parameters of the instrument and the `out` bus, which go with
every note, are those of the channel's settings.

A `Session` is a channel together with an observer. The observer knows which
keys are held, in the order they were pressed, whether the pedal is down, all
messages so far, those of the last event, and which node was started for
which key. What a run is required to do is stated in its terms.
-/

namespace Lua2SC.Midi

open Lua2SC.Lua

/-- A MIDI event of the channel, with its two data bytes. -/
inductive MidiEvent where
  | noteOn (byte2 byte3 : ℕ)
  | noteOff (byte2 byte3 : ℕ)
  | cc (byte2 byte3 : ℕ)
  | pb (byte2 byte3 : ℕ)
deriving DecidableEq, Repr

/-- An OSC message of the channel: a new node for a note, a note on a node
that is there, a frequency, a closed gate, a bend of a node or of the group. -/
inductive OscMsg (R : Type*) where
  | s_new (node : ℕ) (freq amp : R)
  | n_set (node : ℕ) (freq amp : R)
  | setFreq (node : ℕ) (freq : R)
  | gateOff (node : ℕ)
  | setPb (node : ℕ) (pb : R)
  | setGroupPb (pb : R)
deriving DecidableEq, Repr

/-- The arguments of the channel, and `midi2freq`. -/
structure Args (R : Type*) where
  mono : Bool
  retrig : Bool
  pb_togroup : Bool
  pbfac : Option R
  midi2freq : R → R

/-- The state of a channel; `nextNode` is the counter behind `GetNode`. -/
structure Channel (R : Type*) where
  oscfree : Bool
  node : Option ℕ
  keylist : List ℕ
  nodesMidi2Osc : LuaTable ℕ ℕ
  free_queue : LuaTable ℕ ℕ
  nextNode : ℕ
  sent : List (OscMsg R)

variable {R : Type*}

/-- The channel as `MidiToOsc.AddChannel` leaves it. -/
def AddChannel (R : Type*) (nextNode : ℕ) : Channel R where
  oscfree := true
  node := none
  keylist := []
  nodesMidi2Osc := ∅
  free_queue := ∅
  nextNode := nextNode
  sent := []

namespace Channel

/-- `sendBundle(msg)`. -/
def sendBundle (s : Channel R) (msg : OscMsg R) : Channel R := { s with sent := s.sent ++ [msg] }

/-- `NodesOFF(nodo)`. -/
def NodesOFF (s : Channel R) (nodo : ℕ) : Channel R := s.sendBundle (.gateOff nodo)

/-- `GetNode()`. -/
def GetNode (s : Channel R) : ℕ × Channel R := (s.nextNode, { s with nextNode := s.nextNode + 1 })

section Handlers

variable [DivisionRing R] (args : Args R)

/-- The node a `noteOn` plays on, and whether it is a new one (`snew`). -/
def nodeForNote (s : Channel R) (byte2 : ℕ) : ℕ × Bool × Channel R :=
  if args.mono = true then
    let s := { s with keylist := s.keylist ++ [byte2] }
    match s.node with
    | some nodo => (nodo, false, s)
    | none =>
      let (nodo, s) := s.GetNode
      (nodo, true, { s with node := some nodo })
  else
    match s.nodesMidi2Osc.lookup byte2 with
    | none =>
      let (nodo, s) := s.GetNode
      (nodo, true, s)
    | some nodo =>
      if args.retrig = true then
        let (nodo, s) := (s.NodesOFF nodo).GetNode
        (nodo, true, s)
      else (nodo, false, s)

/-- `midi2osc` on a `noteOn`. -/
def noteOn (s : Channel R) (byte2 byte3 : ℕ) : Channel R :=
  let (nodo, snew, s) := s.nodeForNote args byte2
  let freq := args.midi2freq byte2
  let amp : R := byte3 / 127
  if snew = true then
    let s := { s with
      nodesMidi2Osc := s.nodesMidi2Osc.insert byte2 nodo
      node := some nodo }
    s.sendBundle (.s_new nodo freq amp)
  else
    let s := { s with free_queue := s.free_queue.erase nodo }
    s.sendBundle (.n_set nodo freq amp)

/-- `midi2osc` on a `noteOff`. -/
def noteOff (s : Channel R) (byte2 : ℕ) : LuaM (Channel R) :=
  if args.mono = true then
    match s.node with
    | none => .error "assertion failed!"
    | some nodo =>
      let s := { s with
        nodesMidi2Osc := s.nodesMidi2Osc.erase byte2
        keylist := s.keylist.erase byte2 }
      if s.oscfree = true then
        match s.keylist.getLast? with
        | some lastnote => .ok (s.sendBundle (.setFreq nodo (args.midi2freq lastnote)))
        | none => .ok { s.NodesOFF nodo with node := none }
      else .ok s
  else if s.oscfree = true then
    let nodo := s.nodesMidi2Osc.lookup byte2
    let s := { s with nodesMidi2Osc := s.nodesMidi2Osc.erase byte2 }
    match nodo with
    | some nodo => .ok (s.NodesOFF nodo)
    | none => .ok s
  else
    match s.nodesMidi2Osc.lookup byte2 with
    | some nodo => .ok { s with free_queue := s.free_queue.insert nodo byte2 }
    | none => .ok s

/-- The release of what is in the queue, when the pedal is lifted. -/
def releaseQueue (s : Channel R) : Channel R :=
  s.free_queue.entries.foldl (fun s entry =>
    let s := s.NodesOFF entry.1
    { s with nodesMidi2Osc := s.nodesMidi2Osc.erase entry.2 }) s

/-- `midi2osc` on the sustain controller. -/
def sustain (s : Channel R) (byte3 : ℕ) : Channel R :=
  if byte3 = 127 then { s with oscfree := false }
  else { s.releaseQueue with free_queue := ∅, oscfree := true }

/-- `midi2osc` on a pitch bend. -/
def pitchBend (s : Channel R) (byte3 : ℕ) : Channel R :=
  match s.node with
  | none => s
  | some node =>
    let pbval : R := (byte3 - 64) / 64
    if args.mono = true then
      match s.keylist.getLast? with
      | some lastnote =>
        let midi2ratio := fun int => args.midi2freq int / args.midi2freq 0
        let ff := args.midi2freq lastnote * midi2ratio (args.pbfac.getD 1 * pbval)
        s.sendBundle (.setFreq node ff)
      | none => s
    else if args.pb_togroup = true then s.sendBundle (.setGroupPb pbval)
    else s.sendBundle (.setPb node pbval)

/-- `MidiToOsc.midi2osc`. -/
def midi2osc (s : Channel R) (midiEvent : MidiEvent) : LuaM (Channel R) :=
  match midiEvent with
  | .noteOn byte2 byte3 => .ok (s.noteOn args byte2 byte3)
  | .noteOff byte2 _ => s.noteOff args byte2
  | .cc byte2 byte3 => if byte2 = 64 then .ok (s.sustain byte3) else .ok s
  | .pb _ byte3 => .ok (s.pitchBend args byte3)

end Handlers

end Channel

/-! ## Sessions -/

/-- A channel and what an observer of its events and messages knows: the last
event and its messages, all messages, the keys held in the order they were
pressed, the pedal, and the nodes started, each with its key. -/
structure Session (R : Type*) where
  chan : Channel R
  event : Option MidiEvent
  now : List (OscMsg R)
  sent : List (OscMsg R)
  held : List ℕ
  pedal : Bool
  born : List (ℕ × ℕ)

/-- A channel that was just added. -/
def Session.start (R : Type*) (nextNode : ℕ) : Session R where
  chan := AddChannel R nextNode
  event := none
  now := []
  sent := []
  held := []
  pedal := false
  born := []

/-- The keys held after an event. -/
def heldAfter (held : List ℕ) (e : MidiEvent) : List ℕ :=
  match e with
  | .noteOn key _ => held ++ [key]
  | .noteOff key _ => held.erase key
  | _ => held

/-- Whether the pedal is down after an event. -/
def pedalAfter (pedal : Bool) (e : MidiEvent) : Bool :=
  match e with
  | .cc byte2 byte3 => if byte2 = 64 then decide (byte3 = 127) else pedal
  | _ => pedal

/-- The nodes started by an event, with its key. -/
def bornBy (e : MidiEvent) (now : List (OscMsg R)) : List (ℕ × ℕ) :=
  match e with
  | .noteOn key _ => now.filterMap fun msg => match msg with
    | .s_new node _ _ => some (node, key)
    | _ => none
  | _ => []

/-- One event. -/
def Session.next [DivisionRing R] (args : Args R) (s : Session R) (e : MidiEvent) :
    LuaM (Session R) := do
  let chan ← ({ s.chan with sent := [] } : Channel R).midi2osc args e
  .ok
    { chan := chan
      event := some e
      now := chan.sent
      sent := s.sent ++ chan.sent
      held := heldAfter s.held e
      pedal := pedalAfter s.pedal e
      born := s.born ++ bornBy e chan.sent }

/-- The session after an event, from what its handler does to the channel. -/
theorem Session.next_eq [DivisionRing R] {args : Args R} {s : Session R} {e : MidiEvent} {c : Channel R}
    (h : ({ s.chan with sent := [] } : Channel R).midi2osc args e = .ok c) :
    s.next args e = .ok
      { chan := c
        event := some e
        now := c.sent
        sent := s.sent ++ c.sent
        held := heldAfter s.held e
        pedal := pedalAfter s.pedal e
        born := s.born ++ bornBy e c.sent } := by
  unfold Session.next
  rw [h]
  rfl

/-- The machine of a session; an error stays. -/
def step [DivisionRing R] (args : Args R) (s : LuaM (Session R)) (e : MidiEvent) :
    LuaM (Session R) := do
  let s ← s
  s.next args e

/-- With no key held and the pedal up, every node ever started has been gated
off. -/
def Session.AllReleased (s : Session R) : Prop :=
  s.held = [] → s.pedal = false → ∀ x ∈ s.born, .gateOff x.1 ∈ s.sent

/-- The event lifts the pedal, or sets it to anything but down. -/
def MidiEvent.lifts : MidiEvent → Bool
  | .cc byte2 byte3 => decide (byte2 = 64 ∧ byte3 ≠ 127)
  | _ => false

/-- On and off of a key alternate: a key goes down only when it is up, and up
only when it is down. -/
def Alternates (s : Session R) (e : MidiEvent) : Prop :=
  match e with
  | .noteOn key _ => key ∉ s.held
  | .noteOff key _ => key ∈ s.held
  | _ => True

instance (s : Session R) : (e : MidiEvent) → Decidable (Alternates s e)
  | .noteOn key _ => inferInstanceAs (Decidable (key ∉ s.held))
  | .noteOff key _ => inferInstanceAs (Decidable (key ∈ s.held))
  | .cc _ _ => isTrue trivial
  | .pb _ _ => isTrue trivial

/-- A condition on a session that has not run into an error. -/
def Live (ok : Session R → MidiEvent → Prop) (s : LuaM (Session R)) (e : MidiEvent) : Prop :=
  match s with
  | .ok s => ok s e
  | .error _ => False

instance {ok : Session R → MidiEvent → Prop} [∀ s e, Decidable (ok s e)] :
    (s : LuaM (Session R)) → (e : MidiEvent) → Decidable (Live ok s e)
  | .ok s, e => inferInstanceAs (Decidable (ok s e))
  | .error _, _ => isFalse id

end Lua2SC.Midi
