import Lua2SC.Players.EventPlayer

/-!
# What the five player classes do with a voice

`EventPlayer:playEvent` hands the voices of an event to `playOneEvent`, which
every class overrides: `MidiEventPlayer`, `scEventPlayer`, `OscEventPlayer`,
`OscPianoEventPlayer` and `OscVoicerEventPlayer`. The five bodies follow
`playersppq.lua` and `playerssc.lua`. What they share is stated once: the
frequency of a voice, `legato`, the evaluation of functions, the control
mappers, and the encoding of parameters (`ValsToOsc`).

The fields of a player that its class works with are in `Voices`; `Settings`
are the fields that a performance does not change. `sent` lists what goes
out, in order: bundles with their beat (the conversion to server time is left
to the receiver of the list), messages scheduled for a beat, MIDI events
scheduled, and the entries of the piano's free queue, which is what schedules
its gate-offs.

Left out: prints, the registration of `/n_end` notifications, `curvals`, and
the GUI automation.
-/

namespace Lua2SC.Players

open Lua2SC.Lua

/-- The type byte of a MIDI note message. -/
inductive MidiType where
  | noteOn
  | noteOff
deriving DecidableEq, Repr

/-- A MIDI event for the output; `midisender` is `none` for `MIDIOut`. -/
structure MidiEvent (R : Type*) where
  type : MidiType
  byte2 : Val R
  byte3 : Val R
  channel : Val R
  delta : Val R
  outPort : Val R
  midisender : Option (Val R)
deriving DecidableEq, Repr

/-- What a player sends or schedules. -/
inductive Out (R : Type*) where
  | sendBundle (msg : Message R) (time : Val R)
  | sendMultiBundle (time : Val R) (msgs : List (Message R))
  | scheduleOscEvent (event : Message R) (time : Val R)
  | scheduleEvent (event : MidiEvent R)
  | setFreeQueue (node : ℕ) (time freq : Val R)
deriving DecidableEq, Repr

/-- The fields of a player that stay as they are while it plays. -/
structure Settings (R : Type*) where
  inst : Val R
  headtail : ℤ
  group : ℤ
  instr_group : ℤ
  busin : ℤ
  busout : ℤ
  channelBusin : ℤ
  dontfree : Option Bool
  mono : Bool
  poly : Option ℕ

/-- An entry of the piano's free queue. -/
structure FreeEntry (R : Type*) where
  time : Val R
  node : ℕ
  freq : Val R
deriving DecidableEq, Repr

/-- The fields of a player that its voices work with, the counter behind
`GetNode`, and what has been sent. -/
structure Voices (R : Type*) where
  nextNode : ℕ
  node : Option ℕ
  havenode : Bool
  NodeQueue : List ℕ
  params : Event R
  oldparams : Event R
  pianonodes : LuaTable (Val R) ℕ
  pianopedal : Option (Val R)
  pianofreequeue : List (FreeEntry R)
  nodetimetofree : LuaTable ℕ (Val R)
  freeQueueDirty : Bool
  voicenodes : LuaTable (Val R) ℕ
  sent : List (Out R)

variable {R : Type}

/-- Something goes out. -/
def Voices.emit (v : Voices R) (out : Out R) : Voices R := { v with sent := v.sent ++ [out] }

@[simp] theorem Voices.emit_sent (v : Voices R) (out : Out R) :
    (v.emit out).sent = v.sent ++ [out] := rfl

/-- `GetNode()`. -/
def GetNode (v : Voices R) : ℕ × Voices R := (v.nextNode, { v with nextNode := v.nextNode + 1 })

/-- `t[k] = v`, where nil takes the key out. -/
def setOrNil (t : Event R) (k : String) (v : Option (Val R)) : Event R :=
  match v with
  | some v => t.insert (ascii k) v
  | none => t.erase (ascii k)

/-- `t.k`. -/
def field (t : Event R) (k : String) : Option (Val R) := t.lookup (ascii k)

section Shared

variable (sc : Script R)

/-- `for k,v in pairs(lista) do if type(v)=="function" then lista[k]=v(self)`. -/
def evalFuncs (lista : Event R) : Event R :=
  lista.entries.foldl (fun lista kv =>
    match kv.2 with
    | .func f => match sc.callFn f with
      | some v => lista.insert kv.1 v
      | none => lista.erase kv.1
    | _ => lista) lista

/-- The arguments `ValsToOsc` appends to a message. -/
def ValsToOsc (lista : Event R) : List (Arg R) :=
  lista.entries.flatMap fun kv =>
    .str kv.1 :: match kv.2 with
      | .num x => [.float (.num x)]
      | .table id => [.openArray] ++ (sc.elems id).map .float ++ [.closeArray]
      | .rest | .nop | .mapper _ => [.openArray, .closeArray]
      | v => [.val v]

/-- `getMsgLista(msg, lista)`. -/
def getMsgLista (msg : Message R) (lista : Event R) : Message R :=
  { msg with args := msg.args ++ ValsToOsc sc lista }

/-- The control mappers of an event. -/
def listafunc (lista : Event R) : List (LString × ℕ) :=
  lista.entries.filterMap fun kv => match kv.2 with
    | .mapper m => some (kv.1, m)
    | _ => none

/-- The event without its control mappers. -/
def withoutMappers (lista : Event R) : Event R :=
  (listafunc lista).foldl (fun lista km => lista.erase km.1) lista

/-- The event without its booleans, which the server does not know. -/
def withoutBooleans (lista : Event R) : Event R :=
  lista.entries.foldl (fun lista kv => match kv.2 with
    | .bool _ => lista.erase kv.1
    | _ => lista) lista

/-- The bundles of the control mappers. -/
def mapperBundle (funcs : List (LString × ℕ)) (beatTime : Val R) (beatLen : Option (Val R)) :
    List (Message R) :=
  funcs.flatMap fun km => sc.verb km.2 km.1 beatTime beatLen

/-- `freq` of a voice, from its `freq`, `note` or `degree`. -/
def voiceFreq (lista : Event R) (escale : Val R) : LuaM (Option (Val R)) :=
  match whenTrue (field lista "freq") with
  | some freq => .ok (some freq)
  | none => match whenTrue (field lista "note") with
    | some note => do
      let freq ← midi2freq sc note
      .ok (some freq)
    | none => match whenTrue (field lista "degree") with
      | some degree => do
        let note ← getNote sc degree escale
        let freq ← midi2freq sc note
        .ok (some freq)
      | none => .ok none

end Shared

section Classes

variable [AddCommMonoid R] [LinearOrder R] [Mul R] [Div R] [NatCast R]
  (sc : Script R) (self : Settings R)

/-- `beatLen * lista.legato`, where there is a `legato`. -/
def withLegato (lista : Event R) (beatLen : Option (Val R)) : LuaM (Option (Val R)) :=
  match whenTrue (field lista "legato") with
  | some legato => do
    let beatLen ← arith sc .mul beatLen (some legato)
    .ok (some beatLen)
  | none => .ok beatLen

/-- The event after `lista.note=nil;lista.degree=nil;lista.freq=freq`, the
removal of a `legato` that was used, and `lista.inst=nil`. -/
def withFreq (lista : Event R) (freq : Option (Val R)) : Event R :=
  let lista := setOrNil (setOrNil (setOrNil lista "note" none) "degree" none) "freq" freq
  let lista := if truthy (field lista "legato") = true then setOrNil lista "legato" none else lista
  setOrNil lista "inst" none

/-- `{"/n_set",{node,"gate",{"float",0}}}`. -/
def gateOff (node : ℕ) : Message R :=
  { path := ascii "/n_set", args := [.node node, .str (ascii "gate"), .float (.num 0)] }

/-- `{"/s_new", {inst, node, 0, self.instr_group}}`. -/
def sNew (inst : Val R) (node : ℕ) : Message R :=
  { path := ascii "/s_new", args := [.val inst, .node node, .int 0, .int self.instr_group] }

/-- `{"/n_set", {node}}`. -/
def nSet (node : ℕ) : Message R := { path := ascii "/n_set", args := [.node node] }

/-- The message with the parameters of the event, without `escale`, and with
the `out` bus of the channel at its end. -/
def withParams (on : Message R) (lista : Event R) : Message R :=
  let on := getMsgLista sc on (setOrNil lista "escale" none)
  { on with args := on.args ++ [.str (ascii "out"), .int32 self.channelBusin] }

/-! ## MidiEventPlayer -/

/-- `MidiEventPlayer:playMidiNote`. -/
def MidiEventPlayer.playMidiNote (nv vel chan beatTime : Val R) (beatLen : Option (Val R))
    (outPort : Val R) (midisender : Option (Val R)) (v : Voices R) : LuaM (Voices R) := do
  let offTime ← arith sc .add (some beatTime) beatLen
  let on : MidiEvent R :=
    { type := .noteOn, byte2 := nv, byte3 := vel, channel := chan, delta := beatTime,
      outPort := outPort, midisender := midisender }
  let off : MidiEvent R :=
    { type := .noteOff, byte2 := nv, byte3 := .num 0, channel := chan, delta := offTime,
      outPort := outPort, midisender := midisender }
  .ok ((v.emit (.scheduleEvent on)).emit (.scheduleEvent off))

/-- `nota` of a voice: `note`, or the note of `degree`, or 69. -/
def MidiEventPlayer.nota (lista : Event R) : LuaM (Val R) :=
  let escale := luaOr (field lista "escale") (.str (ascii "ionian"))
  match whenTrue (field lista "note") with
  | some note => .ok note
  | none => match whenTrue (field lista "degree") with
    | some degree => do
      let nota ← getNote sc degree escale
      .ok (luaOr (some nota) (.num (69 : ℕ)))
    | none => .ok (.num (69 : ℕ))

/-- `MidiEventPlayer:playOneEvent`. It does not look at `pulling`. -/
def MidiEventPlayer.playOneEvent (lista : Event R) (beatTime : Val R) (beatLen : Option (Val R))
    (v : Voices R) : LuaM (Voices R) := do
  let nota ← MidiEventPlayer.nota sc lista
  let velo := luaOr (field lista "velo") (.num (64 : ℕ))
  let chan := luaOr (field lista "chan") (.num 0)
  let outPort := luaOr (field lista "outPort") (.num 0)
  if IsREST (some nota) = true ∨ IsNOP (some nota) = true then .ok v
  else
    MidiEventPlayer.playMidiNote sc nota velo chan beatTime beatLen outPort
      (whenTrue (field lista "midisender")) v

/-! ## scEventPlayer -/

/-- `self.params` and `self.oldparams` after an event: only what has changed is
kept in `params`. -/
def scEventPlayer.updateParams (lista : Event R) (v : Voices R) : Voices R :=
  lista.entries.foldl (fun v kv =>
    if v.oldparams.lookup kv.1 ≠ some kv.2 then
      { v with
        params := v.params.insert kv.1 kv.2
        oldparams := v.oldparams.insert kv.1 kv.2 }
    else { v with params := v.params.erase kv.1 }) v

/-- `scEventPlayer:Release`. -/
def scEventPlayer.Release (time : Val R) (v : Voices R) : Voices R :=
  match v.node with
  | none => v
  | some node =>
    { v.emit (.sendBundle (gateOff node) time) with node := none, havenode := false }

/-- `scEventPlayer:playOneEvent`. -/
def scEventPlayer.playOneEvent (pulling : Bool) (lista : Event R) (beatTime : Val R)
    (beatLen : Option (Val R)) (v : Voices R) : LuaM (Voices R) := do
  let lista := setOrNil (setOrNil lista "dur" none) "inst" none
  let lista := evalFuncs sc lista
  if pulling = true then .ok v
  else
    let (node, msg, v) := match v.node with
      | none =>
        let (node, v) := GetNode v
        (node, ({ path := ascii "/s_new"
                  args := [.val self.inst, .node node, .int self.headtail, .int self.group,
                    .str (ascii "busin"), .int32 self.busin,
                    .str (ascii "busout"), .int32 self.busout] } : Message R),
          { v with node := some node })
      | some node => (node, nSet node, v)
    let funcs := listafunc lista
    let v := scEventPlayer.updateParams (withoutMappers lista) v
    let msg := getMsgLista sc msg v.params
    let v := v.emit (.sendMultiBundle beatTime (msg :: mapperBundle sc funcs beatTime beatLen))
    if self.dontfree = some false then do
      let offTime ← arith sc .add (some beatTime) beatLen
      .ok { v.emit (.scheduleOscEvent (gateOff node) offTime) with node := none }
    else .ok v

/-! ## OscEventPlayer -/

/-- `OscEventPlayer:GetNode`: with `poly`, the oldest node is released when
there are too many. -/
def OscEventPlayer.GetNode (beatTime : Val R) (v : Voices R) : ℕ × Voices R :=
  let (node, v) := Players.GetNode v
  match self.poly with
  | none => (node, v)
  | some poly =>
    let v := { v with NodeQueue := v.NodeQueue ++ [node] }
    match v.NodeQueue with
    | nodeout :: queue =>
      if poly < v.NodeQueue.length then
        (node, { v.emit (.sendBundle (gateOff nodeout) beatTime) with NodeQueue := queue })
      else (node, v)
    | [] => (node, v)

/-- `OscEventPlayer:playOneEvent`. -/
def OscEventPlayer.playOneEvent (pulling : Bool) (lista : Event R) (beatTime : Val R)
    (beatLen delta : Option (Val R)) (v : Voices R) : LuaM (Voices R) := do
  let escale := luaOr (field lista "escale") (.str (ascii "ionian"))
  let lista := evalFuncs sc (setOrNil lista "escale" (some escale))
  if pulling = true then .ok v
  else
    let freq ← voiceFreq sc lista escale
    let beatLen ← withLegato sc lista beatLen
    let inst := luaOr (field lista "inst") self.inst
    let lista := withFreq lista freq
    if IsREST freq = true then .ok (scEventPlayer.Release beatTime v)
    else if IsNOP freq = true then .ok v
    else
      let lista ← match whenTrue (field lista "detune") with
        | some detune => do
          let detuned ← arith sc .mul freq (some detune)
          .ok (setOrNil (setOrNil lista "freq" (some detuned)) "detune" none)
        | none => .ok lista
      let isSet := decide (field lista "type" = some (.str (ascii "n_set")))
      let isSet := isSet || (self.mono && v.havenode)
      let dontfree ← if self.mono = true then do
          let short ← lessThan beatLen delta
          .ok (some (!short))
        else .ok (if isSet = true then some true else self.dontfree)
      let (node, on, v) := match isSet, v.node with
        | true, some node => (node, nSet node, v)
        | _, _ =>
          let (node, v) := OscEventPlayer.GetNode self beatTime v
          (node, sNew self inst node, { v with node := some node, havenode := true })
      let lista := setOrNil lista "type" none
      let funcs := listafunc lista
      let on := withParams sc self on (withoutBooleans (withoutMappers lista))
      let v := v.emit (.sendMultiBundle beatTime (on :: mapperBundle sc funcs beatTime beatLen))
      if dontfree = some false then do
        let offTime ← arith sc .add (some beatTime) beatLen
        .ok { v.emit (.scheduleOscEvent (gateOff node) offTime) with havenode := false }
      else .ok v

/-! ## OscPianoEventPlayer -/

/-- `OscPianoEventPlayer:setFreeQueue`. -/
def OscPianoEventPlayer.setFreeQueue (node : ℕ) (time freq : Val R) (v : Voices R) : Voices R :=
  { v.emit (.setFreeQueue node time freq) with
    pianofreequeue := v.pianofreequeue ++ [{ time := time, node := node, freq := freq }]
    nodetimetofree := v.nodetimetofree.insert node time
    freeQueueDirty := true }

omit [AddCommMonoid R] [LinearOrder R] [Mul R] [Div R] [NatCast R] in
@[simp] theorem OscPianoEventPlayer.setFreeQueue_sent (node : ℕ) (time freq : Val R)
    (v : Voices R) : (OscPianoEventPlayer.setFreeQueue node time freq v).sent =
      v.sent ++ [.setFreeQueue node time freq] := rfl

/-- `self.pianopedal` is set by events that say something about it. -/
def OscPianoEventPlayer.setPedal (lista : Event R) (v : Voices R) : Voices R :=
  match field lista "pianopedal" with
  | some pedal => { v with pianopedal := some pedal }
  | none => v

/-- The node that plays a frequency, with the message that addresses it: the
one that already does, or a new one. -/
def OscPianoEventPlayer.nodeFor (inst freq : Val R) (v : Voices R) : ℕ × Message R × Voices R :=
  match v.pianonodes.lookup freq with
  | some thisnode => (thisnode, nSet thisnode, v)
  | none =>
    let (thisnode, v) := GetNode v
    (thisnode, sNew self inst thisnode,
      { v with pianonodes := v.pianonodes.insert freq thisnode })

/-- `OscPianoEventPlayer:playOneEvent`. It does not look at `pulling`. A voice
without a frequency has no message, and `getMsgLista` fails on it. -/
def OscPianoEventPlayer.playOneEvent (lista : Event R) (beatTime : Val R)
    (beatLen : Option (Val R)) (v : Voices R) : LuaM (Voices R) := do
  let escale := luaOr (field lista "escale") (.str (ascii "ionian"))
  let lista := evalFuncs sc (setOrNil lista "escale" (some escale))
  let freq ← voiceFreq sc lista escale
  let beatLen ← withLegato sc lista beatLen
  let inst := luaOr (field lista "inst") self.inst
  let lista := withFreq lista freq
  let v := OscPianoEventPlayer.setPedal lista v
  let lista := setOrNil lista "pianopedal" none
  if IsREST freq = true ∨ IsNOP freq = true then .ok v
  else match freq with
    | none => .error "attempt to index local 'msg' (a nil value)"
    | some freq => do
      let (thisnode, on, v) := OscPianoEventPlayer.nodeFor self inst freq v
      let on := withParams sc self on (withoutMappers lista)
      luaAssert (listafunc lista = []) "not implemented"
      let v := v.emit (.sendMultiBundle beatTime [on])
      let freeTime ← arith sc .add (some beatTime) beatLen
      .ok (OscPianoEventPlayer.setFreeQueue thisnode freeTime freq v)

/-! ## OscVoicerEventPlayer -/

/-- `OscVoicerEventPlayer:Release`. -/
def OscVoicerEventPlayer.Release (time : Val R) (voice : Option (Val R)) (v : Voices R) :
    Voices R :=
  match voice.bind v.voicenodes.lookup, voice with
  | some thisnode, some voice =>
    { v.emit (.sendBundle (gateOff thisnode) time) with
      voicenodes := v.voicenodes.erase voice
      havenode := false }
  | _, _ => v

/-- `OscVoicerEventPlayer:playOneEvent`. The release at its end is guarded by a
global `dontfree` that nothing sets, so it is never scheduled. -/
def OscVoicerEventPlayer.playOneEvent (pulling : Bool) (lista : Event R) (beatTime : Val R)
    (beatLen : Option (Val R)) (v : Voices R) : LuaM (Voices R) := do
  let escale := luaOr (field lista "escale") (.str (ascii "ionian"))
  let lista := evalFuncs sc (setOrNil lista "escale" (some escale))
  if pulling = true then .ok v
  else
    let freq ← voiceFreq sc lista escale
    let beatLen ← withLegato sc lista beatLen
    let inst := luaOr (field lista "inst") self.inst
    let lista := withFreq lista freq
    if IsREST freq = true then .ok (OscVoicerEventPlayer.Release beatTime (field lista "voice") v)
    else if IsNOP freq = true then .ok v
    else
      let lista ← match whenTrue (field lista "detune") with
        | some detune => do
          let detuned ← arith sc .mul freq (some detune)
          .ok (setOrNil (setOrNil lista "freq" (some detuned)) "detune" none)
        | none => .ok lista
      match whenTrue (field lista "voice") with
      | none => .ok v
      | some voice =>
        let (on, v) := match v.voicenodes.lookup voice with
          | some thisnode => (nSet thisnode, v)
          | none =>
            let (thisnode, v) := GetNode v
            (sNew self inst thisnode,
              { v with voicenodes := v.voicenodes.insert voice thisnode, havenode := true })
        let lista := setOrNil lista "type" none
        let funcs := listafunc lista
        let on := withParams sc self on (withoutMappers lista)
        .ok (v.emit (.sendMultiBundle beatTime (on :: mapperBundle sc funcs beatTime beatLen)))

/-! ## playEvent -/

/-- The player classes that play through `EventPlayer:Pull`. -/
inductive Kind where
  | midi
  | sc
  | osc
  | piano
  | voicer
deriving DecidableEq, Repr

/-- `self:playOneEvent(lista, beatTime, beatLen, delta)`. -/
def playOneEvent (kind : Kind) (pulling : Bool) (lista : Event R) (beatTime : Val R)
    (beatLen delta : Option (Val R)) (v : Voices R) : LuaM (Voices R) :=
  match kind with
  | .midi => MidiEventPlayer.playOneEvent sc lista beatTime beatLen v
  | .sc => scEventPlayer.playOneEvent sc self pulling lista beatTime beatLen v
  | .osc => OscEventPlayer.playOneEvent sc self pulling lista beatTime beatLen delta v
  | .piano => OscPianoEventPlayer.playOneEvent sc self lista beatTime beatLen v
  | .voicer => OscVoicerEventPlayer.playOneEvent sc self pulling lista beatTime beatLen v

/-- `strum1`, the beats from one voice to the next:
`(strum and (maxlen > 1)) and strum/(maxlen-1) or 0`. -/
def strum1 (lista : Event R) (maxlen : ℕ) : LuaM (Val R) :=
  match whenTrue (field lista "strum") with
  | some strum =>
    if 1 < maxlen then arith sc .div (some strum) (some (.num ((maxlen - 1 : ℕ) : R)))
    else .ok (.num 0)
  | none => .ok (.num 0)

/-- `EventPlayer:playEvent`: the voices one after the other, `strum` beats from
the first to the last. -/
def playEvent (kind : Kind) (call : Call R) (v : Voices R) : LuaM (Voices R) := do
  let maxlen := getmaxlen sc call.lista
  let strum1 ← strum1 sc call.lista maxlen
  (List.range' 1 maxlen).foldlM (fun v i => do
    let late ← arith sc .mul (some strum1) (some (.num ((i - 1 : ℕ) : R)))
    let beatTime1 ← arith sc .add (some (.num call.beatTime)) (some late)
    playOneEvent sc self kind call.pulling (keydata sc call.lista i) beatTime1 call.beatLen
      call.delta v) v

end Classes

/-! ## A bare player -/

/-- The fields of a player that has not played anything. -/
def Voices.start (R : Type) (nextNode : ℕ) : Voices R where
  nextNode := nextNode
  node := none
  havenode := false
  NodeQueue := []
  params := ∅
  oldparams := ∅
  pianonodes := ∅
  pianopedal := none
  pianofreequeue := []
  nodetimetofree := ∅
  freeQueueDirty := false
  voicenodes := ∅
  sent := []

/-- A script without tables, functions and scales. -/
def bareScript : Script ℚ where
  elems _ := []
  callFn _ := none
  modes _ := none
  scales _ := none
  verb _ _ _ _ := []
  tempered v := .ok v
  pitch _ nv := .ok nv
  metaArith _ _ _ := .error "attempt to perform arithmetic on a value"

/-- The default settings of a player. -/
def bareSettings : Settings ℚ where
  inst := .str (ascii "default")
  headtail := 0
  group := 0
  instr_group := 0
  busin := 0
  busout := 0
  channelBusin := 0
  dontfree := some true
  mono := false
  poly := none

/-- A player that has not played anything. -/
def freshVoices : Voices ℚ where
  nextNode := 1001
  node := none
  havenode := false
  NodeQueue := []
  params := ∅
  oldparams := ∅
  pianonodes := ∅
  pianopedal := none
  pianofreequeue := []
  nodetimetofree := ∅
  freeQueueDirty := false
  voicenodes := ∅
  sent := []

end Lua2SC.Players
