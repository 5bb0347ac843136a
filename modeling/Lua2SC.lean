import Lua2SC.SynthDef.Graph
import Lua2SC.Lib.Format
import Lua2SC.Lib.Topological
import Lua2SC.SynthDef.Build
import Lua2SC.SynthDef.Controls
import Lua2SC.SynthDef.Write
import Lua2SC.SynthDef.Read
import Lua2SC.SynthDef.RoundTrip
import Lua2SC.Comm.Framing
import Lua2SC.Comm.Filters
import Lua2SC.Lib.IndexLoop
import Lua2SC.Comm.OscFunc
import Lua2SC.Comm.MakeBundle
import Lua2SC.Streams.ListTrees
import Lua2SC.Streams.Replay
import Lua2SC.Streams.Pairs
import Lua2SC.Streams.Parallel
import Lua2SC.Players.FrameIndependence
import Lua2SC.Players.PlayOneEvent
import Lua2SC.Players.Jump
import Lua2SC.Midi.MidiToOsc
import Lua2SC.Midi.Poly
import Lua2SC.Midi.Mono
import Lua2SC.Players.OscSchedule
import Lua2SC.Players.DeltaParams
import Lua2SC.Players.PianoRelease
import Lua2SC.Players.CtrlBus
import Lua2SC.Players.Metronom
import Lua2SC.Players.ActionEvent
import Lua2SC.Players.SchedQueue
import Lua2SC.Players.QueueAction
import Lua2SC.SynthDef.ParamMap
import Lua2SC.SynthDef.VSTPlugin
import Lua2SC.Osc.Containment
import Lua2SC.Osc.DecodeEncode
import Lua2SC.Codec.FloatRange
import Lua2SC.Comm.Nrt
import Lua2SC.Players.MidiSchedule
import Lua2SC.SynthDef.Reblock
import Lua2SC.SynthDef.Meaning
import Lua2SC.SynthDef.Arithmetic
import Lua2SC.Lib.NodeTree
import Lua2SC.Players.Mixer
import Lua2SC.Players.SignalFlow
import Lua2SC.SynthDef.MultiNew
import Lua2SC.SynthDef.Mix
import Lua2SC.SynthDef.RateInference
import Lua2SC.Settings.FileSettings
import Lua2SC.Settings.Path
import Lua2SC.Settings.SaveLoad
import Lua2SC.SynthDef.Env
import Lua2SC.Comm.ScBuffer
import Lua2SC.Streams.FinDur
import Lua2SC.Streams.Adv
import Lua2SC.Streams.Markov
import Lua2SC.Midi.Record
import Lua2SC.Sfz.Inherit
import Lua2SC.Players.NamedEvents
import Lua2SC.Players.MonoNodes
import Lua2SC.Codec.SerializeTable
import Lua2SC.Lib.LuaOrder
import Lua2SC.Sfz.Keyboard
import Lua2SC.Sfz.RoundRobin
import Lua2SC.Sfz.GetOpcodes
import Lua2SC.Streams.Combinatorics
import Lua2SC.Streams.Permutations
import Lua2SC.Players.Degrees
import Lua2SC.Players.Modes
import Lua2SC.Players.Swing
import Lua2SC.Streams.Rhythm
import Lua2SC.Lily.Durations
import Lua2SC.Num.Polynomial
import Lua2SC.Lib.Feedback
import Lua2SC.Num.FilterDesign
import Lua2SC.Codec.DeepCopy
import Lua2SC.Players.VoiceStealing
import Lua2SC.Comm.Sync
import Lua2SC.Lib.Recurrence
import Lua2SC.Random.MersenneTwister
import Lua2SC.Lib.Continued
import Lua2SC.Num.ToRational
import Lua2SC.Num.Gcd
import Lua2SC.Num.RationalPoly
import Lua2SC.Num.RationalFormula
