import Lua2SC.Midi.MidiToOsc

/-!
# Monophonic channels: the last key held is the one that sounds

A monophonic channel has one node, started by the first key and closed when
the last key goes up. A key pressed over others sets the frequency of the
node, and when it goes up the frequency goes back to the key pressed before
it. `MonoInv` ties the node and the frequency last sent to the keys held.

Both laws fail under the pedal. A `noteOff` that comes while the pedal is
down only updates the list of keys: the frequency of the key that went up
stays, although an earlier one is still held (`pedal_keeps_frequency`). And
since nothing is put into the queue, the lift of the pedal after the last key
has gone up leaves the node sounding (`pedal_keeps_node`). `MonoOk` is the
condition that no step does either; `mono_voice` is the law for all runs whose
steps meet it.
-/

namespace Lua2SC.Midi

open Lua2SC.Lua Lua2SC.Machine

variable {R : Type*}

/-! ## What is required -/

/-- The frequency a message sets on a node. -/
def OscMsg.freqFor (node : ℕ) (msg : OscMsg R) : Option R :=
  match msg with
  | .s_new n freq _ => if n = node then some freq else none
  | .n_set n freq _ => if n = node then some freq else none
  | .setFreq n freq => if n = node then some freq else none
  | _ => none

/-- The frequency that was last sent to a node. -/
def lastFreq (sent : List (OscMsg R)) (node : ℕ) : Option R :=
  sent.foldl (fun last msg => (msg.freqFor node).or last) none

theorem lastFreq_append (sent now : List (OscMsg R)) (node : ℕ) :
    lastFreq (sent ++ now) node =
      now.foldl (fun last msg => (msg.freqFor node).or last) (lastFreq sent node) := by
  unfold lastFreq
  rw [List.foldl_append]

/-- While keys are held, the channel has a node that was not gated off, and
its last frequency is that of the key pressed last among them. -/
def Session.SoundsLast [DivisionRing R] (args : Args R) (s : Session R) : Prop :=
  ∀ key, s.held.getLast? = some key → ∃ node, s.chan.node = some node ∧
    .gateOff node ∉ s.sent ∧ lastFreq s.sent node = some (args.midi2freq key)

/-- The last event closed a gate only with no key held and the pedal up. -/
def Session.GatedAtRest (s : Session R) : Prop :=
  ∀ node, .gateOff node ∈ s.now → s.held = [] ∧ s.pedal = false

/-- What is required of a monophonic channel at one moment of a run. -/
def VoiceRight [DivisionRing R] (args : Args R) (s : LuaM (Session R)) : Prop :=
  ∃ s', s = .ok s' ∧ s'.SoundsLast args ∧ s'.GatedAtRest ∧ s'.AllReleased

/-- Notes that alternate, and controllers; no pitch bends. -/
def PlaysNotes (s : Session R) (e : MidiEvent) : Prop :=
  match e with
  | .pb _ _ => False
  | e => Alternates s e

instance (s : Session R) : (e : MidiEvent) → Decidable (PlaysNotes s e)
  | .noteOn key value => inferInstanceAs (Decidable (Alternates s (.noteOn key value)))
  | .noteOff key value => inferInstanceAs (Decidable (Alternates s (.noteOff key value)))
  | .cc _ _ => isTrue trivial
  | .pb _ _ => isFalse id

/-- Under the pedal, no key goes up that was pressed last over others; and the
pedal is not lifted with no key held while the channel has its node. -/
def MonoOk (s : Session R) (e : MidiEvent) : Prop :=
  match e with
  | .noteOff key _ => s.pedal = true → s.held.getLast? = some key → s.held = [key]
  | e => e.lifts = true → s.held = [] → s.chan.node = none

instance (s : Session R) : (e : MidiEvent) → Decidable (MonoOk s e)
  | .noteOff key _ => inferInstanceAs
      (Decidable (s.pedal = true → s.held.getLast? = some key → s.held = [key]))
  | .noteOn key value => inferInstanceAs
      (Decidable ((MidiEvent.noteOn key value).lifts = true → s.held = [] → s.chan.node = none))
  | .cc b v => inferInstanceAs
      (Decidable ((MidiEvent.cc b v).lifts = true → s.held = [] → s.chan.node = none))
  | .pb b v => inferInstanceAs
      (Decidable ((MidiEvent.pb b v).lifts = true → s.held = [] → s.chan.node = none))

/-! ## The handlers of a monophonic channel -/

namespace Channel

section Spec

variable [DivisionRing R] {args : Args R} (hmono : args.mono = true) {c : Channel R} (key : ℕ)

include hmono

theorem noteOn_first (h : c.node = none) (value : ℕ) :
    c.noteOn args key value =
      { c with
        nextNode := c.nextNode + 1
        keylist := c.keylist ++ [key]
        nodesMidi2Osc := c.nodesMidi2Osc.insert key c.nextNode
        node := some c.nextNode
        sent := c.sent ++ [.s_new c.nextNode (args.midi2freq key) (value / 127)] } := by
  simp [noteOn, nodeForNote, hmono, h, GetNode, sendBundle]

theorem noteOn_over {node : ℕ} (h : c.node = some node) (value : ℕ) :
    c.noteOn args key value =
      { c with
        keylist := c.keylist ++ [key]
        free_queue := c.free_queue.erase node
        sent := c.sent ++ [.n_set node (args.midi2freq key) (value / 127)] } := by
  simp [noteOn, nodeForNote, hmono, h, sendBundle]

theorem noteOff_back (hfree : c.oscfree = true) {node last : ℕ} (h : c.node = some node)
    (hlast : (c.keylist.erase key).getLast? = some last) :
    c.noteOff args key = .ok
      { c with
        nodesMidi2Osc := c.nodesMidi2Osc.erase key
        keylist := c.keylist.erase key
        sent := c.sent ++ [.setFreq node (args.midi2freq last)] } := by
  simp [noteOff, hmono, hfree, h, hlast, sendBundle]

theorem noteOff_last (hfree : c.oscfree = true) {node : ℕ} (h : c.node = some node)
    (hlast : (c.keylist.erase key).getLast? = none) :
    c.noteOff args key = .ok
      { c with
        nodesMidi2Osc := c.nodesMidi2Osc.erase key
        keylist := c.keylist.erase key
        node := none
        sent := c.sent ++ [.gateOff node] } := by
  simp [noteOff, hmono, hfree, h, hlast, NodesOFF, sendBundle]

theorem noteOff_held (hfree : c.oscfree = false) {node : ℕ} (h : c.node = some node) :
    c.noteOff args key = .ok
      { c with
        nodesMidi2Osc := c.nodesMidi2Osc.erase key
        keylist := c.keylist.erase key } := by
  simp [noteOff, hmono, hfree, h]

end Spec

/-- An empty queue releases nothing. -/
theorem releaseQueue_empty {c : Channel R} (h : c.free_queue = ∅) : c.releaseQueue = c := by
  unfold releaseQueue
  rw [h]
  rfl

end Channel

/-! ## The invariant -/

/-- What holds of a monophonic session at every moment. -/
structure MonoInv [DivisionRing R] (args : Args R) (s : Session R) : Prop where
  pedal : s.chan.oscfree = !s.pedal
  keys : s.chan.keylist = s.held
  nodup : s.held.Nodup
  queue : s.chan.free_queue = ∅
  fresh : ∀ x ∈ s.born, x.1 < s.chan.nextNode
  gated : ∀ node, .gateOff node ∈ s.sent → node < s.chan.nextNode
  alive : ∀ node, s.chan.node = some node → .gateOff node ∉ s.sent ∧ node < s.chan.nextNode
  sounding : ∀ x ∈ s.born, .gateOff x.1 ∉ s.sent → s.chan.node = some x.1
  last : ∀ key, s.held.getLast? = some key → ∃ node, s.chan.node = some node ∧
    lastFreq s.sent node = some (args.midi2freq key)
  rest : s.held = [] → s.pedal = false → s.chan.node = none

/-- The last key of a list stays last when another key goes out. -/
theorem getLast?_erase_of_ne {held : List ℕ} {key last : ℕ} (hlast : held.getLast? = some last)
    (hne : last ≠ key) : (held.erase key).getLast? = some last := by
  obtain ⟨before, rfl⟩ := List.getLast?_eq_some_iff.mp hlast
  by_cases hin : key ∈ before
  · rw [List.erase_append_left _ hin, List.getLast?_append]
    rfl
  · rw [List.erase_append_right _ hin, List.erase_of_not_mem (by simpa using hne.symm),
      List.getLast?_append]
    rfl

namespace MonoInv

variable [DivisionRing R] {args : Args R} {s : Session R} {key value : ℕ}

theorem start (args : Args R) (nextNode : ℕ) : MonoInv args (Session.start R nextNode) where
  pedal := rfl
  keys := rfl
  nodup := List.nodup_nil
  queue := rfl
  fresh := by simp [Session.start]
  gated := by simp [Session.start]
  alive := by simp [Session.start, AddChannel]
  sounding := by simp [Session.start]
  last := by simp [Session.start]
  rest := fun _ _ => rfl

theorem soundsLast (h : MonoInv args s) : s.SoundsLast args := by
  intro key hkey
  obtain ⟨node, hnode, hfreq⟩ := h.last key hkey
  exact ⟨node, hnode, (h.alive node hnode).1, hfreq⟩

theorem allReleased (h : MonoInv args s) : s.AllReleased := by
  intro hheld hpedal x hx
  by_contra hsounds
  have hnode := h.sounding x hx hsounds
  rw [h.rest hheld hpedal] at hnode
  cases hnode

/-- A held key means that the channel has its node. -/
theorem node_of_held (h : MonoInv args s) (hkey : key ∈ s.held) :
    ∃ node, s.chan.node = some node := by
  obtain ⟨last, hlast⟩ := List.getLast?_isSome.mpr (List.ne_nil_of_mem hkey) |>
    Option.isSome_iff_exists.mp
  obtain ⟨node, hnode, -⟩ := h.last last hlast
  exact ⟨node, hnode⟩

theorem nodup_snoc (h : MonoInv args s) (hkey : key ∉ s.held) : (s.held ++ [key]).Nodup := by
  rw [List.nodup_append]
  refine ⟨h.nodup, List.nodup_singleton _, ?_⟩
  intro a ha b hb
  rw [List.mem_singleton.mp hb]
  rintro rfl
  exact hkey ha

/-- The first key starts the node. -/
theorem first (h : MonoInv args s) (hkey : key ∉ s.held) (hnode : s.chan.node = none) (amp : R) :
    MonoInv args
      { chan :=
          { s.chan with
            nextNode := s.chan.nextNode + 1
            keylist := s.chan.keylist ++ [key]
            nodesMidi2Osc := s.chan.nodesMidi2Osc.insert key s.chan.nextNode
            node := some s.chan.nextNode
            sent := [.s_new s.chan.nextNode (args.midi2freq key) amp] }
        event := some (.noteOn key value)
        now := [.s_new s.chan.nextNode (args.midi2freq key) amp]
        sent := s.sent ++ [.s_new s.chan.nextNode (args.midi2freq key) amp]
        held := s.held ++ [key]
        pedal := s.pedal
        born := s.born ++ [(s.chan.nextNode, key)] } where
  pedal := h.pedal
  keys := by
    dsimp only
    rw [h.keys]
  nodup := h.nodup_snoc hkey
  queue := h.queue
  fresh := by
    intro x hx
    rcases List.mem_append.mp hx with hx | hx
    · exact Nat.lt_succ_of_lt (h.fresh x hx)
    · rw [List.mem_singleton.mp hx]
      exact Nat.lt_succ_self _
  gated := by
    intro node hnow
    have hold : OscMsg.gateOff node ∈ s.sent := by simpa using hnow
    exact Nat.lt_succ_of_lt (h.gated node hold)
  alive := by
    rintro node hn
    obtain rfl := Option.some.inj hn
    refine ⟨fun hnow => ?_, Nat.lt_succ_self _⟩
    have hold : OscMsg.gateOff s.chan.nextNode ∈ s.sent := by simpa using hnow
    exact lt_irrefl _ (h.gated _ hold)
  sounding := by
    intro x hx hsounds
    rcases List.mem_append.mp hx with hx | hx
    · have hold := h.sounding x hx fun hin => hsounds (List.mem_append_left _ hin)
      rw [hnode] at hold
      cases hold
    · rw [List.mem_singleton.mp hx]
  last := by
    intro k hk
    have hkk : key = k := by simpa using hk
    subst hkk
    refine ⟨s.chan.nextNode, rfl, ?_⟩
    rw [lastFreq_append]
    simp [OscMsg.freqFor]
  rest := fun hheld => absurd hheld (by simp)

/-- A key over others, or under the pedal, sets the node's frequency. -/
theorem pressedOver (h : MonoInv args s) (value : ℕ) (hkey : key ∉ s.held) {node : ℕ}
    (hnode : s.chan.node = some node) (amp : R) :
    MonoInv args
      { chan :=
          { s.chan with
            keylist := s.chan.keylist ++ [key]
            free_queue := s.chan.free_queue.erase node
            sent := [.n_set node (args.midi2freq key) amp] }
        event := some (.noteOn key value)
        now := [.n_set node (args.midi2freq key) amp]
        sent := s.sent ++ [.n_set node (args.midi2freq key) amp]
        held := s.held ++ [key]
        pedal := s.pedal
        born := s.born } where
  pedal := h.pedal
  keys := by
    dsimp only
    rw [h.keys]
  nodup := h.nodup_snoc hkey
  queue := by
    dsimp only
    rw [h.queue]
    rfl
  fresh := h.fresh
  gated := by
    intro node hnow
    exact h.gated node (by simpa using hnow)
  alive := by
    intro node hn
    obtain ⟨halive, hlt⟩ := h.alive node hn
    exact ⟨fun hnow => halive (by simpa using hnow), hlt⟩
  sounding := fun x hx hsounds =>
    h.sounding x hx fun hin => hsounds (List.mem_append_left _ hin)
  last := by
    intro k hk
    have hkk : key = k := by simpa using hk
    subst hkk
    refine ⟨node, hnode, ?_⟩
    rw [lastFreq_append]
    simp [OscMsg.freqFor]
  rest := fun hheld => absurd hheld (by simp)

/-- With the pedal up, a key that goes up gives the frequency back to the key
pressed last among those held. -/
theorem back (h : MonoInv args s) (value : ℕ) {node last : ℕ} (hnode : s.chan.node = some node)
    (hlast : (s.held.erase key).getLast? = some last) :
    MonoInv args
      { chan :=
          { s.chan with
            nodesMidi2Osc := s.chan.nodesMidi2Osc.erase key
            keylist := s.chan.keylist.erase key
            sent := [.setFreq node (args.midi2freq last)] }
        event := some (.noteOff key value)
        now := [.setFreq node (args.midi2freq last)]
        sent := s.sent ++ [.setFreq node (args.midi2freq last)]
        held := s.held.erase key
        pedal := s.pedal
        born := s.born } where
  pedal := h.pedal
  keys := by
    dsimp only
    rw [h.keys]
  nodup := h.nodup.erase key
  queue := h.queue
  fresh := h.fresh
  gated := by
    intro node hnow
    exact h.gated node (by simpa using hnow)
  alive := by
    intro node hn
    obtain ⟨halive, hlt⟩ := h.alive node hn
    exact ⟨fun hnow => halive (by simpa using hnow), hlt⟩
  sounding := fun x hx hsounds =>
    h.sounding x hx fun hin => hsounds (List.mem_append_left _ hin)
  last := by
    intro k hk
    obtain rfl : last = k := Option.some.inj (hlast.symm.trans hk)
    refine ⟨node, hnode, ?_⟩
    rw [lastFreq_append]
    simp [OscMsg.freqFor]
  rest := by
    intro hheld
    dsimp only at hheld
    rw [hheld] at hlast
    cases hlast

/-- With the pedal up, the last key that goes up closes the node. -/
theorem closed (h : MonoInv args s) (value : ℕ) {node : ℕ} (hnode : s.chan.node = some node)
    (hlast : (s.held.erase key).getLast? = none) :
    MonoInv args
      { chan :=
          { s.chan with
            nodesMidi2Osc := s.chan.nodesMidi2Osc.erase key
            keylist := s.chan.keylist.erase key
            node := none
            sent := [.gateOff node] }
        event := some (.noteOff key value)
        now := [.gateOff node]
        sent := s.sent ++ [.gateOff node]
        held := s.held.erase key
        pedal := s.pedal
        born := s.born } where
  pedal := h.pedal
  keys := by
    dsimp only
    rw [h.keys]
  nodup := h.nodup.erase key
  queue := h.queue
  fresh := h.fresh
  gated := by
    intro n hnow
    rcases List.mem_append.mp hnow with hnow | hnow
    · exact h.gated n hnow
    · have hn : n = node := by simpa using hnow
      rw [hn]
      exact (h.alive node hnode).2
  alive := fun n hn => by cases hn
  sounding := by
    intro x hx hsounds
    have hold := h.sounding x hx fun hin => hsounds (List.mem_append_left _ hin)
    obtain rfl : node = x.1 := Option.some.inj (hnode.symm.trans hold)
    exact absurd (List.mem_append_right _ (List.mem_singleton_self _)) hsounds
  last := by
    intro k hk
    rw [hlast] at hk
    cases hk
  rest := fun _ _ => rfl

/-- Under the pedal, a key that goes up is only taken out of the list. If it
was not the last of several, the frequency is still right. -/
theorem heldBack (h : MonoInv args s) (value : ℕ) (hpedal : s.pedal = true)
    (hok : s.held.getLast? = some key → s.held = [key]) :
    MonoInv args
      { chan :=
          { s.chan with
            nodesMidi2Osc := s.chan.nodesMidi2Osc.erase key
            keylist := s.chan.keylist.erase key
            sent := [] }
        event := some (.noteOff key value)
        now := []
        sent := s.sent ++ []
        held := s.held.erase key
        pedal := s.pedal
        born := s.born } where
  pedal := h.pedal
  keys := by
    dsimp only
    rw [h.keys]
  nodup := h.nodup.erase key
  queue := h.queue
  fresh := h.fresh
  gated := by rw [List.append_nil]; exact h.gated
  alive := by rw [List.append_nil]; exact h.alive
  sounding := by rw [List.append_nil]; exact h.sounding
  last := by
    intro k hk
    rw [List.append_nil]
    refine h.last k ?_
    cases hold : s.held.getLast? with
    | none =>
      rw [List.getLast?_eq_none_iff.mp hold] at hk
      cases hk
    | some l =>
      by_cases hl : l = key
      · subst hl
        rw [hok hold] at hk
        simp at hk
      · rw [getLast?_erase_of_ne hold hl] at hk
        exact hk
  rest := by
    intro _ hup
    rw [hpedal] at hup
    cases hup

/-- The pedal goes down, or up where no node waits for it, or another
controller moves. -/
theorem moved (h : MonoInv args s) (e : MidiEvent) (pedal : Bool)
    (hrest : s.held = [] → pedal = false → s.chan.node = none) :
    MonoInv args
      { chan := { s.chan with free_queue := ∅, oscfree := !pedal, sent := [] }
        event := some e
        now := []
        sent := s.sent ++ []
        held := s.held
        pedal := pedal
        born := s.born } where
  pedal := rfl
  keys := h.keys
  nodup := h.nodup
  queue := rfl
  fresh := h.fresh
  gated := by rw [List.append_nil]; exact h.gated
  alive := by rw [List.append_nil]; exact h.alive
  sounding := by rw [List.append_nil]; exact h.sounding
  last := by rw [List.append_nil]; exact h.last
  rest := hrest

end MonoInv

/-! ## Steps and runs -/

section Runs

variable [DivisionRing R] {args : Args R}

/-- **One event** keeps the invariant and closes the gate only at rest. -/
theorem MonoInv.next (hmono : args.mono = true) {s : Session R} (h : MonoInv args s)
    {e : MidiEvent} (hplays : PlaysNotes s e) (hok : MonoOk s e) :
    ∃ s', s.next args e = .ok s' ∧ MonoInv args s' ∧ s'.GatedAtRest := by
  cases e with
  | noteOn key value =>
    cases hnode : s.chan.node with
    | none =>
      have hc := Channel.noteOn_first hmono key (c := { s.chan with sent := [] }) hnode
        value
      refine ⟨_, Session.next_eq (congrArg Except.ok hc), h.first hplays hnode _, ?_⟩
      intro node hnow
      simp at hnow
    | some node =>
      have hc := Channel.noteOn_over hmono key (c := { s.chan with sent := [] }) hnode
        value
      refine ⟨_, Session.next_eq (congrArg Except.ok hc), ?_, ?_⟩
      · have hinv := h.pressedOver value hplays hnode (value / 127)
        simpa [bornBy, heldAfter, pedalAfter] using hinv
      · intro node hnow
        simp at hnow
  | noteOff key value =>
    obtain ⟨node, hnode⟩ := h.node_of_held hplays
    cases hpedal : s.pedal with
    | false =>
      have hfree : s.chan.oscfree = true := by rw [h.pedal, hpedal]; rfl
      cases hlast : (s.held.erase key).getLast? with
      | some last =>
        have hc := Channel.noteOff_back hmono key (c := { s.chan with sent := [] })
          hfree hnode (by rw [h.keys]; exact hlast)
        refine ⟨_, Session.next_eq hc, ?_, ?_⟩
        · have hinv := h.back value hnode hlast
          simpa [bornBy, heldAfter, pedalAfter] using hinv
        · intro node hnow
          simp at hnow
      | none =>
        have hc := Channel.noteOff_last hmono key (c := { s.chan with sent := [] })
          hfree hnode (by rw [h.keys]; exact hlast)
        refine ⟨_, Session.next_eq hc, ?_, ?_⟩
        · have hinv := h.closed value hnode hlast
          simpa [bornBy, heldAfter, pedalAfter] using hinv
        · intro _ _
          exact ⟨List.getLast?_eq_none_iff.mp hlast, hpedal⟩
    | true =>
      have hfree : s.chan.oscfree = false := by rw [h.pedal, hpedal]; rfl
      have hc := Channel.noteOff_held hmono key (c := { s.chan with sent := [] }) hfree
        hnode
      refine ⟨_, Session.next_eq hc, ?_, fun node hnow => by cases hnow⟩
      have hinv := h.heldBack value hpedal (hok hpedal)
      simpa [bornBy, heldAfter, pedalAfter] using hinv
  | cc byte2 byte3 =>
    have hqueue : ({ s.chan with sent := [] } : Channel R).free_queue = ∅ := h.queue
    by_cases hcc : byte2 = 64
    · subst hcc
      by_cases hdown : byte3 = 127
      · subst hdown
        have hinv := h.moved (.cc 64 127) true (fun _ h => by cases h)
        refine ⟨_, Session.next_eq (by rfl), ?_, fun node hnow => by cases hnow⟩
        simpa [bornBy, heldAfter, pedalAfter, Channel.sustain, h.queue] using hinv
      · have hlift : MidiEvent.lifts (.cc 64 byte3) = true := decide_eq_true ⟨rfl, hdown⟩
        have hinv := h.moved (.cc 64 byte3) false (fun hheld _ => hok hlift hheld)
        have hc : ({ s.chan with sent := [] } : Channel R).midi2osc args (.cc 64 byte3) = .ok
            { s.chan with free_queue := ∅, oscfree := true, sent := [] } := by
          simp only [Channel.midi2osc, if_pos, Channel.sustain, if_neg hdown,
            Channel.releaseQueue_empty hqueue]
        refine ⟨_, Session.next_eq hc, ?_, fun node hnow => by cases hnow⟩
        simpa [bornBy, heldAfter, pedalAfter, hdown] using hinv
    · have hinv := h.moved (.cc byte2 byte3) s.pedal h.rest
      have hc : ({ s.chan with sent := [] } : Channel R).midi2osc args (.cc byte2 byte3) = .ok
          { s.chan with sent := [] } := by
        simp only [Channel.midi2osc, if_neg hcc]
      refine ⟨_, Session.next_eq hc, ?_, fun node hnow => by cases hnow⟩
      simpa [bornBy, heldAfter, pedalAfter, hcc, ← h.queue, ← h.pedal] using hinv
  | pb byte2 byte3 => exact absurd hplays id

/-- **Monophonic voice.** In every run of alternating notes and controllers
whose steps meet `MonoOk`, at every moment the key pressed last among those
held sounds, gates are closed only at rest, and nothing is left sounding. -/
theorem mono_voice (hmono : args.mono = true) (nextNode : ℕ) (es : List MidiEvent)
    (hrun : Guarded (step args) (Live fun s e => PlaysNotes s e ∧ MonoOk s e)
      (.ok (Session.start R nextNode)) es) (n : ℕ) :
    VoiceRight args (run (step args) (.ok (Session.start R nextNode)) (es.take n)) := by
  have hinv := (hrun.take n).invariant
    (I := fun s => ∃ s', s = .ok s' ∧ MonoInv args s' ∧ s'.GatedAtRest)
    (by
      rintro _ e ⟨s, rfl, h, -⟩ hok
      exact h.next hmono hok.1 hok.2)
    ⟨_, rfl, MonoInv.start args nextNode, fun node hnow => by cases hnow⟩
  obtain ⟨s, hs, h, hgate⟩ := hinv
  exact ⟨s, hs, h.soundsLast, hgate, h.allReleased⟩

end Runs

/-! ## Keys that go up under the pedal -/

/-- The arguments of a monophonic channel. -/
def monoArgs : Args ℚ where
  mono := true
  retrig := false
  pb_togroup := false
  pbfac := none
  midi2freq := id

/-- The only key goes up under the pedal, which is lifted then. -/
def heldByPedal : List MidiEvent :=
  [.noteOn 60 100, .cc 64 127, .noteOff 60 0, .cc 64 0]

/-- The key pressed last goes up under the pedal, while another is held. -/
def freedByPedal : List MidiEvent :=
  [.noteOn 60 100, .noteOn 64 100, .cc 64 127, .noteOff 64 0]

/-- The lift of the pedal leaves the node sounding. -/
theorem pedal_keeps_node :
    Guarded (step monoArgs) (Live PlaysNotes) (.ok (Session.start ℚ 1001)) heldByPedal ∧
      ¬ ∀ n, VoiceRight monoArgs
        (run (step monoArgs) (.ok (Session.start ℚ 1001)) (heldByPedal.take n)) := by
  refine ⟨by decide +kernel, fun h => ?_⟩
  obtain ⟨s, hs, -, -, hreleased⟩ := h 4
  have hstuck : (match run (step monoArgs) (.ok (Session.start ℚ 1001)) (heldByPedal.take 4) with
      | .ok s => decide (s.held = [] ∧ s.pedal = false ∧ ∃ x ∈ s.born, .gateOff x.1 ∉ s.sent)
      | .error _ => false) = true := by decide +kernel
  rw [hs] at hstuck
  obtain ⟨hheld, hpedal, x, hx, hsounds⟩ := of_decide_eq_true hstuck
  exact hsounds (hreleased hheld hpedal x hx)

/-- The frequency stays that of the key that went up. -/
theorem pedal_keeps_frequency :
    Guarded (step monoArgs) (Live PlaysNotes) (.ok (Session.start ℚ 1001)) freedByPedal ∧
      ¬ ∀ n, VoiceRight monoArgs
        (run (step monoArgs) (.ok (Session.start ℚ 1001)) (freedByPedal.take n)) := by
  refine ⟨by decide +kernel, fun h => ?_⟩
  obtain ⟨s, hs, hsounds, -, -⟩ := h 4
  have hwrong : (match run (step monoArgs) (.ok (Session.start ℚ 1001)) (freedByPedal.take 4) with
      | .ok s => decide (s.held.getLast? = some 60 ∧ s.chan.node = some 1001 ∧
          lastFreq s.sent 1001 = some 64)
      | .error _ => false) = true := by decide +kernel
  rw [hs] at hwrong
  obtain ⟨hheld, hnode, hfreq⟩ := of_decide_eq_true hwrong
  obtain ⟨node, hn, -, hlast⟩ := hsounds 60 hheld
  obtain rfl : 1001 = node := Option.some.inj (hnode.symm.trans hn)
  rw [hfreq] at hlast
  exact absurd (Option.some.inj hlast) (by decide +kernel)

/-- Two keys overlap under the pedal, and the pedal is lifted while one of them
is held. -/
theorem overlap_right : VoiceRight monoArgs
    (run (step monoArgs) (.ok (Session.start ℚ 1001))
      [.noteOn 60 100, .cc 64 127, .noteOn 64 100, .noteOff 60 0, .cc 64 0, .noteOff 64 0]) :=
  mono_voice rfl 1001 [.noteOn 60 100, .cc 64 127, .noteOn 64 100, .noteOff 60 0, .cc 64 0,
    .noteOff 64 0] (by decide +kernel) 6

end Lua2SC.Midi
