import Lua2SC.Midi.MidiToOsc

/-!
# Polyphonic channels: no note is cut early, none is left sounding

With on and off of each key alternating, a node that still sounds is the one
the table has for its key, and either the key is held or the node waits in
the queue for the pedal (`PolyInv.sounding`). So once no key is held and the
pedal is up, all nodes have been released.

There is one way to break this. With `retrig` set, a key that is struck again
under the pedal gets a new node, and the old one, though its gate is closed,
stays in the queue under that key. If the pedal is lifted while the key is
still held, the queue closes the old gate again and takes the *new* node out
of the table, so the `noteOff` of the key finds nothing and the new node
sounds for ever (`retrig_stuck`). `PedalOk` is the condition that no lift of
the pedal meets such an entry, and `poly_iff` says that a run goes right at
every moment exactly when all its steps meet it.
-/

namespace Lua2SC.Midi

open Lua2SC.Lua Lua2SC.Machine

variable {R : Type*}

/-! ## What is required -/

/-- A gate was closed, by the last event, only of a node whose key is up while
the pedal is up, or whose key was just struck again. -/
def Session.GatesRight (s : Session R) : Prop :=
  ∀ node, .gateOff node ∈ s.now → ∃ key, (node, key) ∈ s.born ∧
    ((key ∉ s.held ∧ s.pedal = false) ∨ ∃ value, s.event = some (.noteOn key value))

/-- When the pedal is lifted, nothing waits in the queue under a held key. -/
def PedalOk (s : Session R) (e : MidiEvent) : Prop :=
  e.lifts = true → ∀ x ∈ s.chan.free_queue.entries, x.2 ∉ s.held

instance (s : Session R) (e : MidiEvent) : Decidable (PedalOk s e) :=
  inferInstanceAs (Decidable (e.lifts = true → ∀ x ∈ s.chan.free_queue.entries, x.2 ∉ s.held))

/-! ## The handlers of a polyphonic channel -/

namespace Channel

section Spec

variable [DivisionRing R] {args : Args R} (hmono : args.mono = false) {c : Channel R} {key : ℕ}

include hmono

theorem noteOn_new (h : c.nodesMidi2Osc.lookup key = none) (value : ℕ) :
    c.noteOn args key value =
      { c with
        nextNode := c.nextNode + 1
        nodesMidi2Osc := c.nodesMidi2Osc.insert key c.nextNode
        node := some c.nextNode
        sent := c.sent ++ [.s_new c.nextNode (args.midi2freq key) (value / 127)] } := by
  simp [noteOn, nodeForNote, hmono, h, GetNode, sendBundle]

theorem noteOn_again (hretrig : args.retrig = false) {nodo : ℕ}
    (h : c.nodesMidi2Osc.lookup key = some nodo) (value : ℕ) :
    c.noteOn args key value =
      { c with
        free_queue := c.free_queue.erase nodo
        sent := c.sent ++ [.n_set nodo (args.midi2freq key) (value / 127)] } := by
  simp [noteOn, nodeForNote, hmono, hretrig, h, sendBundle]

theorem noteOn_retrig (hretrig : args.retrig = true) {nodo : ℕ}
    (h : c.nodesMidi2Osc.lookup key = some nodo) (value : ℕ) :
    c.noteOn args key value =
      { c with
        nextNode := c.nextNode + 1
        nodesMidi2Osc := c.nodesMidi2Osc.insert key c.nextNode
        node := some c.nextNode
        sent := c.sent ++ [.gateOff nodo] ++
          [.s_new c.nextNode (args.midi2freq key) (value / 127)] } := by
  simp [noteOn, nodeForNote, hmono, hretrig, h, GetNode, NodesOFF, sendBundle]

theorem noteOff_free (hfree : c.oscfree = true) {nodo : ℕ}
    (h : c.nodesMidi2Osc.lookup key = some nodo) :
    c.noteOff args key = .ok
      { c with
        nodesMidi2Osc := c.nodesMidi2Osc.erase key
        sent := c.sent ++ [.gateOff nodo] } := by
  simp [noteOff, hmono, hfree, h, NodesOFF, sendBundle]

theorem noteOff_pedal (hfree : c.oscfree = false) {nodo : ℕ}
    (h : c.nodesMidi2Osc.lookup key = some nodo) :
    c.noteOff args key = .ok { c with free_queue := c.free_queue.insert nodo key } := by
  simp [noteOff, hmono, hfree, h]

end Spec

/-- What the release of the queue changes: every entry's gate is closed, and
its key is taken out of the table. -/
theorem releaseQueue_spec (c : Channel R) :
    c.releaseQueue.oscfree = c.oscfree ∧ c.releaseQueue.nextNode = c.nextNode ∧
      c.releaseQueue.sent = c.sent ++ c.free_queue.entries.map (fun x => .gateOff x.1) ∧
      ∀ key, c.releaseQueue.nodesMidi2Osc.lookup key =
        if key ∈ c.free_queue.entries.map Sigma.snd then none
        else c.nodesMidi2Osc.lookup key := by
  unfold releaseQueue
  generalize c.free_queue.entries = entries
  induction entries generalizing c with
  | nil => simp
  | cons x entries ih =>
    rw [List.foldl_cons]
    obtain ⟨hfree, hnext, hsent, hnodes⟩ :=
      ih { c.NodesOFF x.1 with nodesMidi2Osc := (c.NodesOFF x.1).nodesMidi2Osc.erase x.2 }
    refine ⟨hfree, hnext, ?_, fun key => ?_⟩
    · rw [hsent, List.map_cons]
      simp [NodesOFF, sendBundle]
    · rw [hnodes key, List.map_cons]
      by_cases hin : key ∈ entries.map Sigma.snd
      · simp [hin]
      · by_cases hkey : key = x.2
        · subst hkey
          simp [hin, NodesOFF, sendBundle]
        · simp [hin, hkey, NodesOFF, sendBundle, AList.lookup_erase_ne hkey]

/-- From an empty out-tray, the gates closed by the release are those of the
queue. -/
theorem mem_releaseQueue {c : Channel R} {node : ℕ}
    (h : .gateOff node ∈ ({ c with sent := [] } : Channel R).releaseQueue.sent) :
    ∃ x ∈ c.free_queue.entries, x.1 = node := by
  rw [(releaseQueue_spec { c with sent := [] }).2.2.1, List.nil_append] at h
  obtain ⟨x, hx, hxnode⟩ := List.mem_map.mp h
  exact ⟨x, hx, by injection hxnode⟩

/-- A pitch bend only sends, and closes no gate. -/
theorem pitchBend_spec [DivisionRing R] (args : Args R) (c : Channel R) (value : ℕ) :
    ∃ bent, c.pitchBend args value = { c with sent := c.sent ++ bent } ∧
      ∀ node, .gateOff node ∉ bent := by
  have hnone : c = { c with sent := c.sent ++ [] } := by rw [List.append_nil]
  unfold pitchBend
  split
  · exact ⟨[], hnone, by simp⟩
  · dsimp only
    split
    · split
      · exact ⟨[_], rfl, by simp⟩
      · exact ⟨[], hnone, by simp⟩
    · split
      · exact ⟨[_], rfl, by simp⟩
      · exact ⟨[_], rfl, by simp⟩

end Channel

/-! ## The invariant -/

/-- What holds of a polyphonic session at every moment: the table and the queue
name nodes under the keys they were started for, every held key has a node in
the table, and a node that sounds is in the table and held or queued. -/
structure PolyInv (s : Session R) : Prop where
  pedal : s.chan.oscfree = !s.pedal
  fresh : ∀ x ∈ s.born, x.1 < s.chan.nextNode
  once : ∀ {node key key'}, (node, key) ∈ s.born → (node, key') ∈ s.born → key = key'
  nodes : ∀ {key node}, s.chan.nodesMidi2Osc.lookup key = some node → (node, key) ∈ s.born
  queue : ∀ {node key}, s.chan.free_queue.lookup node = some key →
    (node, key) ∈ s.born ∧ s.pedal = true
  held : ∀ key ∈ s.held, ∃ node, s.chan.nodesMidi2Osc.lookup key = some node
  nodup : s.held.Nodup
  sounding : ∀ {node key}, (node, key) ∈ s.born → .gateOff node ∉ s.sent →
    s.chan.nodesMidi2Osc.lookup key = some node ∧
      (key ∈ s.held ∨ s.chan.free_queue.lookup node = some key)

namespace PolyInv

variable {s : Session R} {key value : ℕ}

theorem start (R : Type*) (nextNode : ℕ) : PolyInv (Session.start R nextNode) where
  pedal := rfl
  fresh := by simp [Session.start]
  once := by simp [Session.start]
  nodes := by simp [Session.start, AddChannel]
  queue := by simp [Session.start, AddChannel]
  held := by simp [Session.start]
  nodup := List.nodup_nil
  sounding := by simp [Session.start]

/-- The invariant says that at rest everything has been released. -/
theorem allReleased (h : PolyInv s) : s.AllReleased := by
  intro hheld hpedal x hx
  by_contra hsounds
  obtain ⟨-, hin | hqueue⟩ := h.sounding (show (x.1, x.2) ∈ s.born from hx) hsounds
  · rw [hheld] at hin
    cases hin
  · have hdown := (h.queue hqueue).2
    rw [hpedal] at hdown
    cases hdown

/-- A key that was up gets a new node; if it had one, that was gated off by
the messages before. -/
theorem newNode (h : PolyInv s) (hkey : key ∉ s.held) (before : List (OscMsg R))
    (hbefore : ∀ node, s.chan.nodesMidi2Osc.lookup key = some node → .gateOff node ∈ before)
    (freq amp : R) :
    PolyInv
      { chan :=
          { s.chan with
            nextNode := s.chan.nextNode + 1
            nodesMidi2Osc := s.chan.nodesMidi2Osc.insert key s.chan.nextNode
            node := some s.chan.nextNode
            sent := before ++ [.s_new s.chan.nextNode freq amp] }
        event := some (.noteOn key value)
        now := before ++ [.s_new s.chan.nextNode freq amp]
        sent := s.sent ++ (before ++ [.s_new s.chan.nextNode freq amp])
        held := s.held ++ [key]
        pedal := s.pedal
        born := s.born ++ [(s.chan.nextNode, key)] } where
  pedal := h.pedal
  fresh := by
    intro x hx
    rcases List.mem_append.mp hx with hx | hx
    · exact Nat.lt_succ_of_lt (h.fresh x hx)
    · rw [List.mem_singleton.mp hx]
      exact Nat.lt_succ_self _
  once := by
    intro node k k' hk hk'
    rcases List.mem_append.mp hk with hk | hk <;> rcases List.mem_append.mp hk' with hk' | hk'
    · exact h.once hk hk'
    · have hlt := h.fresh _ hk
      have heq := (Prod.mk.inj (List.mem_singleton.mp hk')).1
      omega
    · have hlt := h.fresh _ hk'
      have heq := (Prod.mk.inj (List.mem_singleton.mp hk)).1
      omega
    · rw [(Prod.mk.inj (List.mem_singleton.mp hk)).2, (Prod.mk.inj (List.mem_singleton.mp hk')).2]
  nodes := by
    intro k node hk
    by_cases hkk : k = key
    · subst hkk
      rw [AList.lookup_insert] at hk
      rw [← Option.some.inj hk]
      exact List.mem_append_right _ (List.mem_singleton_self _)
    · rw [AList.lookup_insert_ne hkk] at hk
      exact List.mem_append_left _ (h.nodes hk)
  queue := fun hq => ⟨List.mem_append_left _ (h.queue hq).1, (h.queue hq).2⟩
  held := by
    intro k hk
    by_cases hkk : k = key
    · subst hkk
      exact ⟨_, AList.lookup_insert _⟩
    · have hin : k ∈ s.held := by
        rcases List.mem_append.mp hk with hk | hk
        · exact hk
        · exact absurd (List.mem_singleton.mp hk) hkk
      obtain ⟨node, hnode⟩ := h.held k hin
      exact ⟨node, by rw [AList.lookup_insert_ne hkk]; exact hnode⟩
  nodup := by
    rw [List.nodup_append]
    refine ⟨h.nodup, List.nodup_singleton _, ?_⟩
    intro a ha b hb
    rw [List.mem_singleton.mp hb]
    rintro rfl
    exact hkey ha
  sounding := by
    intro node k hk hsounds
    rcases List.mem_append.mp hk with hk | hk
    · obtain ⟨hnode, hwhere⟩ := h.sounding hk fun hin =>
        hsounds (List.mem_append_left _ hin)
      have hkk : k ≠ key := by
        rintro rfl
        exact hsounds (List.mem_append_right _ (List.mem_append_left _ (hbefore node hnode)))
      refine ⟨by rw [AList.lookup_insert_ne hkk]; exact hnode, ?_⟩
      exact hwhere.imp (fun hin => List.mem_append_left _ hin) id
    · obtain ⟨rfl, rfl⟩ := Prod.mk.inj (List.mem_singleton.mp hk)
      exact ⟨AList.lookup_insert _, Or.inl (List.mem_append_right _ (List.mem_singleton_self _))⟩

/-- A key that waited for the pedal takes its node back from the queue. -/
theorem sameNode (h : PolyInv s) (value : ℕ) (hkey : key ∉ s.held) {nodo : ℕ}
    (hnodo : s.chan.nodesMidi2Osc.lookup key = some nodo) (freq amp : R) :
    PolyInv
      { chan :=
          { s.chan with
            free_queue := s.chan.free_queue.erase nodo
            sent := [.n_set nodo freq amp] }
        event := some (.noteOn key value)
        now := [.n_set nodo freq amp]
        sent := s.sent ++ [.n_set nodo freq amp]
        held := s.held ++ [key]
        pedal := s.pedal
        born := s.born } where
  pedal := h.pedal
  fresh := h.fresh
  once := h.once
  nodes := h.nodes
  queue := by
    intro node k hq
    by_cases hn : node = nodo
    · subst hn
      rw [AList.lookup_erase] at hq
      cases hq
    · rw [AList.lookup_erase_ne hn] at hq
      exact h.queue hq
  held := by
    intro k hk
    rcases List.mem_append.mp hk with hk | hk
    · exact h.held k hk
    · rw [List.mem_singleton.mp hk]
      exact ⟨nodo, hnodo⟩
  nodup := by
    rw [List.nodup_append]
    refine ⟨h.nodup, List.nodup_singleton _, ?_⟩
    intro a ha b hb
    rw [List.mem_singleton.mp hb]
    rintro rfl
    exact hkey ha
  sounding := by
    intro node k hk hsounds
    obtain ⟨hnode, hwhere⟩ := h.sounding hk fun hin => hsounds (List.mem_append_left _ hin)
    refine ⟨hnode, ?_⟩
    by_cases hn : node = nodo
    · subst hn
      rw [h.once hk (h.nodes hnodo)]
      exact Or.inl (List.mem_append_right _ (List.mem_singleton_self _))
    · refine hwhere.imp (fun hin => List.mem_append_left _ hin) fun hq => ?_
      rw [AList.lookup_erase_ne hn]
      exact hq

/-- A key that goes up with the pedal up has its node gated off. -/
theorem released (h : PolyInv s) (value : ℕ) {nodo : ℕ}
    (hnodo : s.chan.nodesMidi2Osc.lookup key = some nodo) :
    PolyInv
      { chan :=
          { s.chan with
            nodesMidi2Osc := s.chan.nodesMidi2Osc.erase key
            sent := [.gateOff nodo] }
        event := some (.noteOff key value)
        now := [.gateOff nodo]
        sent := s.sent ++ [.gateOff nodo]
        held := s.held.erase key
        pedal := s.pedal
        born := s.born } where
  pedal := h.pedal
  fresh := h.fresh
  once := h.once
  nodes := by
    intro k node hk
    by_cases hkk : k = key
    · subst hkk
      rw [AList.lookup_erase] at hk
      cases hk
    · rw [AList.lookup_erase_ne hkk] at hk
      exact h.nodes hk
  queue := h.queue
  held := by
    intro k hk
    obtain ⟨hkk, hin⟩ := h.nodup.mem_erase_iff.mp hk
    obtain ⟨node, hnode⟩ := h.held k hin
    exact ⟨node, by rw [AList.lookup_erase_ne hkk]; exact hnode⟩
  nodup := h.nodup.erase key
  sounding := by
    intro node k hk hsounds
    obtain ⟨hnode, hwhere⟩ := h.sounding hk fun hin => hsounds (List.mem_append_left _ hin)
    have hkk : k ≠ key := by
      rintro rfl
      have hsame : node = nodo := Option.some.inj (hnode.symm.trans hnodo)
      exact hsounds (hsame ▸ List.mem_append_right _ (List.mem_singleton_self _))
    refine ⟨by rw [AList.lookup_erase_ne hkk]; exact hnode, ?_⟩
    exact hwhere.imp (fun hin => h.nodup.mem_erase_iff.mpr ⟨hkk, hin⟩) id

/-- A key that goes up under the pedal puts its node into the queue. -/
theorem queued (h : PolyInv s) (value : ℕ) (hpedal : s.pedal = true) {nodo : ℕ}
    (hnodo : s.chan.nodesMidi2Osc.lookup key = some nodo) :
    PolyInv
      { chan := { s.chan with free_queue := s.chan.free_queue.insert nodo key, sent := [] }
        event := some (.noteOff key value)
        now := []
        sent := s.sent ++ []
        held := s.held.erase key
        pedal := s.pedal
        born := s.born } where
  pedal := h.pedal
  fresh := h.fresh
  once := h.once
  nodes := h.nodes
  queue := by
    intro node k hq
    by_cases hn : node = nodo
    · subst hn
      rw [AList.lookup_insert] at hq
      rw [← Option.some.inj hq]
      exact ⟨h.nodes hnodo, hpedal⟩
    · rw [AList.lookup_insert_ne hn] at hq
      exact h.queue hq
  held := fun k hk => h.held k (List.mem_of_mem_erase hk)
  nodup := h.nodup.erase key
  sounding := by
    intro node k hk hsounds
    rw [List.append_nil] at hsounds
    obtain ⟨hnode, hwhere⟩ := h.sounding hk hsounds
    refine ⟨hnode, ?_⟩
    by_cases hkk : k = key
    · subst hkk
      have hsame : node = nodo := Option.some.inj (hnode.symm.trans hnodo)
      exact Or.inr (hsame ▸ AList.lookup_insert _)
    · have hn : node ≠ nodo := by
        rintro rfl
        exact hkk (h.once hk (h.nodes hnodo))
      refine hwhere.imp (fun hin => h.nodup.mem_erase_iff.mpr ⟨hkk, hin⟩) fun hq => ?_
      rw [AList.lookup_insert_ne hn]
      exact hq

/-- The lift of the pedal releases what is in the queue; the held keys keep
their nodes when none of them is in it. -/
theorem lifted (h : PolyInv s) (hok : ∀ x ∈ s.chan.free_queue.entries, x.2 ∉ s.held)
    {c : Channel R} (hc : c = ({ s.chan with sent := [] } : Channel R).releaseQueue)
    (e : MidiEvent) :
    PolyInv
      { chan := { c with free_queue := ∅, oscfree := true }
        event := some e
        now := c.sent
        sent := s.sent ++ c.sent
        held := s.held
        pedal := false
        born := s.born } := by
  obtain ⟨-, hnext, hsent, hnodes⟩ := Channel.releaseQueue_spec ({ s.chan with sent := [] })
  rw [← hc] at hnext hsent hnodes
  refine ⟨rfl, ?_, h.once, ?_, ?_, ?_, h.nodup, ?_⟩
  · intro x hx
    exact hnext ▸ h.fresh x hx
  · intro k node hk
    rw [hnodes k] at hk
    split at hk
    · cases hk
    · exact h.nodes hk
  · intro node k hq
    cases hq
  · intro k hk
    obtain ⟨node, hnode⟩ := h.held k hk
    refine ⟨node, ?_⟩
    have hout : k ∉ s.chan.free_queue.entries.map Sigma.snd := by
      intro hin
      obtain ⟨x, hx, rfl⟩ := List.mem_map.mp hin
      exact hok x hx hk
    rw [hnodes k, if_neg hout]
    exact hnode
  · intro node k hk hsounds
    obtain ⟨hnode, hwhere⟩ := h.sounding hk fun hin => hsounds (List.mem_append_left _ hin)
    rcases hwhere with hin | hq
    · have hout : k ∉ s.chan.free_queue.entries.map Sigma.snd := by
        intro hmem
        obtain ⟨x, hx, rfl⟩ := List.mem_map.mp hmem
        exact hok x hx hin
      exact ⟨by rw [hnodes k, if_neg hout]; exact hnode, Or.inl hin⟩
    · -- a node that was in the queue has just been gated off
      refine absurd (List.mem_append_right _ ?_) hsounds
      rw [hsent]
      exact List.mem_append_right _
        (List.mem_map.mpr ⟨⟨node, k⟩, AList.mem_lookup_iff.mp hq, rfl⟩)

/-- The pedal goes down. -/
theorem pressed (h : PolyInv s) (e : MidiEvent) :
    PolyInv
      { chan := { s.chan with oscfree := false, sent := [] }
        event := some e
        now := []
        sent := s.sent ++ []
        held := s.held
        pedal := true
        born := s.born } where
  pedal := rfl
  fresh := h.fresh
  once := h.once
  nodes := h.nodes
  queue := fun hq => ⟨(h.queue hq).1, rfl⟩
  held := h.held
  nodup := h.nodup
  sounding := fun hk hsounds => h.sounding hk fun hin => hsounds (List.mem_append_left _ hin)

/-- Events that only send, and leave the table, the queue and the keys. -/
theorem unchanged (h : PolyInv s) (e : MidiEvent) (sent : List (OscMsg R)) :
    PolyInv
      { chan := { s.chan with sent := sent }
        event := some e
        now := sent
        sent := s.sent ++ sent
        held := s.held
        pedal := s.pedal
        born := s.born } where
  pedal := h.pedal
  fresh := h.fresh
  once := h.once
  nodes := h.nodes
  queue := h.queue
  held := h.held
  nodup := h.nodup
  sounding := fun hk hsounds => h.sounding hk fun hin => hsounds (List.mem_append_left _ hin)

end PolyInv

/-! ## Steps and runs -/

section Runs

variable [DivisionRing R] {args : Args R}

/-- The session after the pedal is lifted. -/
theorem Session.next_lift {s : Session R} {byte3 : ℕ} (hdown : byte3 ≠ 127) :
    s.next args (.cc 64 byte3) = .ok
      { chan :=
          { ({ s.chan with sent := [] } : Channel R).releaseQueue with
            free_queue := ∅, oscfree := true }
        event := some (.cc 64 byte3)
        now := ({ s.chan with sent := [] } : Channel R).releaseQueue.sent
        sent := s.sent ++ ({ s.chan with sent := [] } : Channel R).releaseQueue.sent
        held := s.held
        pedal := false
        born := s.born } := by
  have hc : ({ s.chan with sent := [] } : Channel R).midi2osc args (.cc 64 byte3) = .ok
      { ({ s.chan with sent := [] } : Channel R).releaseQueue with
        free_queue := ∅, oscfree := true } := by
    simp only [Channel.midi2osc, if_pos, Channel.sustain, if_neg hdown]
  rw [Session.next_eq hc]
  simp [heldAfter, pedalAfter, bornBy, hdown]

/-- **One event** keeps the invariant and closes gates only where it may. -/
theorem PolyInv.next (hmono : args.mono = false) {s : Session R} (h : PolyInv s) {e : MidiEvent}
    (halt : Alternates s e) (hok : PedalOk s e) :
    ∃ s', s.next args e = .ok s' ∧ PolyInv s' ∧ s'.GatesRight := by
  cases e with
  | noteOn key value =>
    cases hnodo : s.chan.nodesMidi2Osc.lookup key with
    | none =>
      have hc := Channel.noteOn_new hmono (c := { s.chan with sent := [] }) hnodo value
      refine ⟨_, Session.next_eq (congrArg Except.ok hc), ?_, ?_⟩
      · exact h.newNode halt [] (fun node hn => by rw [hnodo] at hn; cases hn) _ _
      · intro node hnow
        simp at hnow
    | some nodo =>
      cases hretrig : args.retrig with
      | false =>
        have hc := Channel.noteOn_again hmono hretrig (c := { s.chan with sent := [] }) hnodo value
        refine ⟨_, Session.next_eq (congrArg Except.ok hc), ?_, ?_⟩
        · have hinv := h.sameNode value halt hnodo (args.midi2freq key) (value / 127)
          simpa [bornBy, heldAfter, pedalAfter] using hinv
        · intro node hnow
          simp at hnow
      | true =>
        have hc := Channel.noteOn_retrig hmono hretrig (c := { s.chan with sent := [] }) hnodo value
        refine ⟨_, Session.next_eq (congrArg Except.ok hc), ?_, ?_⟩
        · refine h.newNode halt [.gateOff nodo] (fun node hn => ?_) _ _
          rw [← Option.some.inj (hnodo.symm.trans hn)]
          exact List.mem_singleton_self _
        · intro node hnow
          have hnode : node = nodo := by simpa using hnow
          subst hnode
          exact ⟨key, List.mem_append_left _ (h.nodes hnodo), Or.inr ⟨value, rfl⟩⟩
  | noteOff key value =>
    obtain ⟨nodo, hnodo⟩ := h.held key halt
    cases hpedal : s.pedal with
    | false =>
      have hfree : s.chan.oscfree = true := by rw [h.pedal, hpedal]; rfl
      have hc := Channel.noteOff_free hmono (c := { s.chan with sent := [] }) hfree hnodo
      refine ⟨_, Session.next_eq hc, ?_, ?_⟩
      · have hinv := h.released value hnodo
        simpa [bornBy, heldAfter, pedalAfter] using hinv
      · intro node hnow
        have hnode : node = nodo := by simpa using hnow
        subst hnode
        refine ⟨key, List.mem_append_left _ (h.nodes hnodo), Or.inl ⟨?_, hpedal⟩⟩
        exact fun hin => (h.nodup.mem_erase_iff.mp hin).1 rfl
    | true =>
      have hfree : s.chan.oscfree = false := by rw [h.pedal, hpedal]; rfl
      have hc := Channel.noteOff_pedal hmono (c := { s.chan with sent := [] }) hfree hnodo
      refine ⟨_, Session.next_eq hc, ?_, ?_⟩
      · have hinv := h.queued value hpedal hnodo
        simpa [bornBy, heldAfter, pedalAfter] using hinv
      · intro node hnow
        cases hnow
  | cc byte2 byte3 =>
    by_cases hcc : byte2 = 64
    · subst hcc
      by_cases hdown : byte3 = 127
      · subst hdown
        refine ⟨_, Session.next_eq (by rfl), ?_, fun node hnow => by cases hnow⟩
        have hinv := h.pressed (.cc 64 127)
        simpa [bornBy, heldAfter, pedalAfter, Channel.sustain] using hinv
      · have hlift : MidiEvent.lifts (.cc 64 byte3) = true := decide_eq_true ⟨rfl, hdown⟩
        refine ⟨_, Session.next_lift hdown, h.lifted (hok hlift) rfl (.cc 64 byte3), ?_⟩
        intro node hnow
        obtain ⟨x, hx, rfl⟩ := Channel.mem_releaseQueue hnow
        have hborn := (h.queue (AList.mem_lookup_iff.mpr hx)).1
        exact ⟨x.2, hborn, Or.inl ⟨hok hlift x hx, rfl⟩⟩
    · refine ⟨_, Session.next_eq (by simp only [Channel.midi2osc, if_neg hcc]; rfl), ?_,
        fun node hnow => by cases hnow⟩
      have hinv := h.unchanged (.cc byte2 byte3) []
      simpa [bornBy, heldAfter, pedalAfter, hcc] using hinv
  | pb byte2 byte3 =>
    obtain ⟨bent, hc, hgate⟩ := Channel.pitchBend_spec args { s.chan with sent := [] } byte3
    refine ⟨_, Session.next_eq (congrArg Except.ok hc), ?_, fun node hnow => absurd hnow (hgate node)⟩
    have hinv := h.unchanged (.pb byte2 byte3) bent
    simpa [bornBy, heldAfter, pedalAfter] using hinv

/-- An event after which the gates are right has met `PedalOk`. -/
theorem PolyInv.pedalOk {s s' : Session R} (h : PolyInv s) {e : MidiEvent}
    (hnext : s.next args e = .ok s') (hright : s'.GatesRight) : PedalOk s e := by
  intro hlift x hx hin
  cases e with
  | noteOn _ _ => cases hlift
  | noteOff _ _ => cases hlift
  | pb _ _ => cases hlift
  | cc byte2 byte3 =>
    obtain ⟨rfl, hdown⟩ := of_decide_eq_true hlift
    rw [Session.next_lift hdown, Except.ok.injEq] at hnext
    subst hnext
    have hnow : OscMsg.gateOff x.1 ∈ ({ s.chan with sent := [] } : Channel R).releaseQueue.sent := by
      rw [(Channel.releaseQueue_spec { s.chan with sent := [] }).2.2.1]
      exact List.mem_append_right _ (List.mem_map.mpr ⟨x, hx, rfl⟩)
    obtain ⟨key, hborn, ⟨hout, -⟩ | ⟨value, hevent⟩⟩ := hright x.1 hnow
    · have hkey : key = x.2 := h.once hborn (h.queue (AList.mem_lookup_iff.mpr hx)).1
      exact hout (hkey ▸ hin)
    · cases hevent

/-- What is required of a polyphonic channel at one moment of a run. -/
def VoicesRight (s : LuaM (Session R)) : Prop :=
  ∃ s', s = .ok s' ∧ s'.GatesRight ∧ s'.AllReleased

/-- **Polyphonic voices.** In a run in which on and off of each key alternate,
gates are closed only where they may be and nothing is left sounding, at every
moment, exactly when no lift of the pedal meets a held key in the queue. -/
theorem poly_iff (hmono : args.mono = false) (nextNode : ℕ) (es : List MidiEvent)
    (halt : Guarded (step args) (Live Alternates) (.ok (Session.start R nextNode)) es) :
    (∀ n, VoicesRight (run (step args) (.ok (Session.start R nextNode)) (es.take n))) ↔
      Guarded (step args) (Live PedalOk) (.ok (Session.start R nextNode)) es := by
  have hgen : ∀ (es : List MidiEvent) (s : Session R), PolyInv s → s.GatesRight →
      Guarded (step args) (Live Alternates) (.ok s) es →
      ((∀ n, VoicesRight (run (step args) (.ok s) (es.take n))) ↔
        Guarded (step args) (Live PedalOk) (.ok s) es) := by
    intro es
    induction es with
    | nil =>
      intro s h hright _
      simp only [List.take_nil, run_nil, Guarded, iff_true]
      exact fun _ => ⟨s, rfl, hright, h.allReleased⟩
    | cons e es ih =>
      intro s h hright halt
      constructor
      · intro hall
        obtain ⟨s', hs', hright', -⟩ := hall 1
        have hok := h.pedalOk hs' hright'
        obtain ⟨s₁, hs₁, hinv₁, hright₁⟩ := h.next hmono halt.1 hok
        have hstep : step args (.ok s) e = .ok s₁ := hs₁
        refine ⟨hok, ?_⟩
        rw [hstep]
        refine (ih s₁ hinv₁ hright₁ (hstep ▸ halt.2)).mp fun n => ?_
        have hn := hall (n + 1)
        rwa [List.take_succ_cons, run_cons, hstep] at hn
      · rintro ⟨hok, hrest⟩ n
        obtain ⟨s₁, hs₁, hinv₁, hright₁⟩ := h.next hmono halt.1 hok
        have hstep : step args (.ok s) e = .ok s₁ := hs₁
        cases n with
        | zero => exact ⟨s, rfl, hright, h.allReleased⟩
        | succ n =>
          rw [List.take_succ_cons, run_cons, hstep]
          exact (ih s₁ hinv₁ hright₁ (hstep ▸ halt.2)).mpr (hstep ▸ hrest) n
  exact hgen es _ (PolyInv.start R nextNode) (fun node hnow => by cases hnow) halt

end Runs

/-! ## A key struck again under the pedal -/

/-- The arguments of a polyphonic channel. -/
def polyArgs (retrig : Bool) : Args ℚ where
  mono := false
  retrig := retrig
  pb_togroup := false
  pbfac := none
  midi2freq := id

/-- A key goes up and down again under the pedal, and is held while the pedal
is lifted. -/
def struckAgain : List MidiEvent :=
  [.noteOn 60 100, .cc 64 127, .noteOff 60 0, .noteOn 60 100, .cc 64 0, .noteOff 60 0]

/-- With `retrig`, the second node of the key is left sounding. -/
theorem retrig_stuck :
    Guarded (step (polyArgs true)) (Live Alternates) (.ok (Session.start ℚ 1001)) struckAgain ∧
      ¬ ∀ n, VoicesRight
        (run (step (polyArgs true)) (.ok (Session.start ℚ 1001)) (struckAgain.take n)) := by
  refine ⟨by decide +kernel, fun h => ?_⟩
  obtain ⟨s, hs, -, hreleased⟩ := h 6
  have hstuck : (match run (step (polyArgs true)) (.ok (Session.start ℚ 1001))
        (struckAgain.take 6) with
      | .ok s => decide (s.held = [] ∧ s.pedal = false ∧ ∃ x ∈ s.born, .gateOff x.1 ∉ s.sent)
      | .error _ => false) = true := by decide +kernel
  rw [hs] at hstuck
  obtain ⟨hheld, hpedal, x, hx, hsounds⟩ := of_decide_eq_true hstuck
  exact hsounds (hreleased hheld hpedal x hx)

/-- Without it, the key takes its node back, and all goes right. -/
theorem struckAgain_right :
    VoicesRight (run (step (polyArgs false)) (.ok (Session.start ℚ 1001)) struckAgain) :=
  (poly_iff rfl 1001 struckAgain (by decide +kernel)).mpr (by decide +kernel) 6

end Lua2SC.Midi
