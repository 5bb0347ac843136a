import Lua2SC.Lib.Machine
import Lua2SC.Players.Piano

/-!
# The piano player: no string is damped early, none is forgotten

A session is a run of notes, frames and `/n_end` notifications. Its history
holds every end that was recorded for a node (`setFreeQueue`) and every gate
that was closed. What is required after each step: a gate is closed only with
the pedal up and at a position that all ends recorded for its node have
reached (`GatesRight`), and after a frame with the pedal up every node whose
last recorded end is reached has had its gate closed or has ended
(`NoneForgotten`).

The table of nodes is keyed by frequency while the queues are keyed by node,
and both laws fail where an entry and its frequency have come to stand for two
nodes, or where an entry waits for the pedal although its node was struck
again:

* a note struck again while its node waits for the pedal is damped when the
  pedal goes up, whatever its new end (`struck_under_pedal`);
* when a node ends before its entry is due and its frequency is struck again,
  the entry takes the new node out of `pianonodes`, and nothing damps it
  (`ended_early`).

`PianoOk` is the condition that no frame with the pedal up meets such an
entry, and `piano_release` is the law for all runs whose steps meet it. The
invariant is `PianoInv`: a node that sounds is the one its frequency has in
the table, and it waits for the pedal or the queue has its last end.
-/

namespace Lua2SC.Players

open Lua2SC.Lua Lua2SC.Machine Lua2SC.DueQueue

variable {R : Type}

/-! ## Histories -/

/-- The last end of a node after one more message. -/
def endAfter (node : ℕ) (last : Option (Val R)) (out : Out R) : Option (Val R) :=
  match out with
  | .setFreeQueue n time _ => if n = node then some time else last
  | _ => last

/-- The end that was recorded last for a node. -/
def lastEnd (sent : List (Out R)) (node : ℕ) : Option (Val R) :=
  sent.foldl (endAfter node) none

theorem lastEnd_append (sent now : List (Out R)) (node : ℕ) :
    lastEnd (sent ++ now) node = now.foldl (endAfter node) (lastEnd sent node) := by
  unfold lastEnd
  rw [List.foldl_append]

/-- A node for which an end was recorded has a last one. -/
theorem lastEnd_of_mem {sent : List (Out R)} {node : ℕ} {time freq : Val R}
    (h : .setFreeQueue node time freq ∈ sent) :
    ∃ last freq', lastEnd sent node = some last ∧ .setFreeQueue node last freq' ∈ sent := by
  induction sent using List.reverseRecOn with
  | nil => cases h
  | append_singleton sent out ih =>
    rw [lastEnd_append]
    have hold : .setFreeQueue node time freq ∈ sent →
        ∃ last freq', lastEnd sent node = some last ∧
          .setFreeQueue node last freq' ∈ sent ++ [out] := by
      intro hin
      obtain ⟨last, freq', hlast, hmem⟩ := ih hin
      exact ⟨last, freq', hlast, List.mem_append_left _ hmem⟩
    rcases List.mem_append.mp h with hin | hin
    · cases out with
      | setFreeQueue n t f =>
        by_cases hn : n = node
        · subst hn
          exact ⟨t, f, if_pos rfl, List.mem_append_right _ (List.mem_singleton_self _)⟩
        · obtain ⟨last, freq', hlast, hmem⟩ := hold hin
          exact ⟨last, freq', (if_neg hn).trans hlast, hmem⟩
      | _ => exact hold hin
    · obtain rfl := List.mem_singleton.mp hin
      exact ⟨time, freq, if_pos rfl, h⟩

/-- A last end was recorded. -/
theorem mem_of_lastEnd {sent : List (Out R)} {node : ℕ} {time : Val R}
    (h : lastEnd sent node = some time) : ∃ freq, .setFreeQueue node time freq ∈ sent := by
  induction sent using List.reverseRecOn with
  | nil => cases h
  | append_singleton sent out ih =>
    rw [lastEnd_append] at h
    cases out with
    | setFreeQueue n t f =>
      by_cases hn : n = node
      · subst hn
        have ht : t = time := Option.some.inj ((if_pos rfl).symm.trans h)
        exact ⟨f, by rw [← ht]; exact List.mem_append_right _ (List.mem_singleton_self _)⟩
      · obtain ⟨freq, hmem⟩ := ih ((if_neg hn).symm.trans h)
        exact ⟨freq, List.mem_append_left _ hmem⟩
    | _ =>
      obtain ⟨freq, hmem⟩ := ih h
      exact ⟨freq, List.mem_append_left _ hmem⟩

/-- Messages that record no end. -/
theorem lastEnd_same (sent : List (Out R)) {now : List (Out R)}
    (h : ∀ node time freq, .setFreeQueue node time freq ∉ now) (node : ℕ) :
    lastEnd (sent ++ now) node = lastEnd sent node := by
  rw [lastEnd_append]
  generalize lastEnd sent node = last
  induction now generalizing last with
  | nil => rfl
  | cons out now ih =>
    have htail : ∀ node time freq, .setFreeQueue node time freq ∉ now :=
      fun n t f hin => h n t f (List.mem_cons_of_mem _ hin)
    rw [List.foldl_cons]
    cases out with
    | setFreeQueue n t f => exact absurd (List.mem_cons_self ..) (h n t f)
    | _ => exact ih htail last

/-! ## Sessions -/

/-- A piano player and its run so far: `voices.sent` is all that went out,
`now` what the last step sent; whether the last step was a frame, the position
of the last frame, and the nodes that have ended. -/
structure PianoSession (R : Type) where
  piano : Piano R
  ppqPos : R
  now : List (Out R)
  framed : Bool
  ended : List ℕ

/-- All that went out. -/
abbrev PianoSession.sent (s : PianoSession R) : List (Out R) := s.piano.voices.sent

/-- What happens to a piano player. -/
inductive PianoAct (R : Type) where
  | play (lista : Event R) (beatTime : Val R) (beatLen : Option (Val R))
  | doFreeQueue (ppq : R)
  | n_end (node : ℕ)

/-- The player as `OscPianoEP` makes it. -/
def PianoSession.start (nextNode : ℕ) (ppqPos : R) : PianoSession R where
  piano :=
    { voices := Voices.start R nextNode
      pedalqueue := ∅
      filters := ∅ }
  ppqPos := ppqPos
  now := []
  framed := false
  ended := []

section Steps

variable [AddCommMonoid R] [LinearOrder R] [Mul R] [Div R]
  (sort : List (FreeEntry R) → List (FreeEntry R)) (sc : Script R) (self : Settings R)

/-- One step. -/
def PianoSession.next (s : PianoSession R) (act : PianoAct R) : LuaM (PianoSession R) :=
  match act with
  | .play lista beatTime beatLen => do
    let p ← OscPianoEventPlayer.play sc self lista beatTime beatLen s.piano
    .ok { s with piano := p, now := p.voices.sent.drop s.sent.length, framed := false }
  | .doFreeQueue ppq => do
    let p ← OscPianoEventPlayer.doFreeQueue sort ppq s.piano
    .ok { s with
      piano := p
      ppqPos := ppq
      now := p.voices.sent.drop s.sent.length
      framed := true }
  | .n_end node =>
    .ok { s with
      piano := OscPianoEventPlayer.n_end node s.piano
      now := []
      framed := false
      ended := s.ended ++ [node] }

/-- Notes and rests that are played without an error and end on a number,
frames whose positions do not go back, and ends of nodes that were started. -/
def PlaysPiano (s : PianoSession R) (act : PianoAct R) : Prop :=
  match act with
  | .play lista beatTime beatLen =>
    match OscPianoEventPlayer.play sc self lista beatTime beatLen s.piano with
    | .ok p => ∀ e ∈ p.voices.pianofreequeue, e.IsNum
    | .error _ => False
  | .doFreeQueue ppq => s.ppqPos ≤ ppq
  | .n_end node => node < s.piano.voices.nextNode

end Steps

section Required

variable [AddCommMonoid R] [LinearOrder R]

/-- The last step closed gates only with the pedal up, of nodes all of whose
recorded ends are reached. -/
def PianoSession.GatesRight (s : PianoSession R) : Prop :=
  ∀ node time, .sendBundle (gateOff node) time ∈ s.now → s.piano.voices.PedalUp ∧
    ∀ t freq, .setFreeQueue node (.num t) freq ∈ s.sent → t ≤ s.ppqPos

/-- The node had its gate closed, or it has ended. -/
def PianoSession.Damped (s : PianoSession R) (node : ℕ) : Prop :=
  (∃ time, .sendBundle (gateOff node) time ∈ s.sent) ∨ node ∈ s.ended

/-- After a frame with the pedal up, every node whose last recorded end is
reached is damped. -/
def PianoSession.NoneForgotten (s : PianoSession R) : Prop :=
  s.framed = true → s.piano.voices.PedalUp → ∀ node t, lastEnd s.sent node = some (.num t) →
    t ≤ s.ppqPos → s.Damped node

/-- An entry may close the gate of its node: no later end of the node is in
the queue, and the frequency has no other node. -/
def Voices.Safe (v : Voices R) (ppq : R) (e : FreeEntry R) : Prop :=
  (∀ e' ∈ v.pianofreequeue, e'.node = e.node → e'.at ≤ ppq) ∧
    ∀ node ∈ v.pianonodes.lookup e.freq, node = e.node

instance (v : Voices R) (ppq : R) (e : FreeEntry R) : Decidable (v.Safe ppq e) :=
  inferInstanceAs (Decidable ((∀ e' ∈ v.pianofreequeue, e'.node = e.node → e'.at ≤ ppq) ∧
    ∀ node ∈ v.pianonodes.lookup e.freq, node = e.node))

/-- In a frame with the pedal up, all entries that close a gate may. -/
def PianoOk (s : PianoSession R) (act : PianoAct R) : Prop :=
  match act with
  | .doFreeQueue ppq => s.piano.voices.PedalUp →
      (∀ e ∈ s.piano.voices.pianofreequeue, e.at ≤ ppq →
        (∀ t ∈ s.piano.voices.timeToFree e.node, t ≤ ppq) →
          s.piano.voices.pianonodes.lookup e.freq ≠ none → s.piano.voices.Safe ppq e) ∧
      ∀ kv ∈ s.piano.pedalqueue.entries, s.piano.voices.Safe ppq kv.2
  | _ => True

end Required

/-! ## The invariant -/

/-- The node still sounds. -/
def PianoSession.Sounds [AddCommMonoid R] (s : PianoSession R) (node : ℕ) : Prop :=
  (∀ time, .sendBundle (gateOff node) time ∉ s.sent) ∧ node ∉ s.ended

/-- What holds of a session at every moment: the queue holds the recorded ends
that are not reached; the pedal queue and the table of nodes name nodes under
the frequency they were struck for; and a node that sounds is the one of its
frequency, and waits for the pedal or has its last end in the queue. -/
structure PianoInv [AddCommMonoid R] [LinearOrder R] (s : PianoSession R) : Prop where
  order : s.piano.voices.freeQueueDirty = false →
    InOrder FreeEntry.at s.piano.voices.pianofreequeue
  nums : ∀ e ∈ s.piano.voices.pianofreequeue, e.IsNum
  queued : ∀ e ∈ s.piano.voices.pianofreequeue, .setFreeQueue e.node e.time e.freq ∈ s.sent
  waits : ∀ node e, s.piano.pedalqueue.lookup node = some e →
    e.node = node ∧ ∃ time, .setFreeQueue node time e.freq ∈ s.sent
  recorded : ∀ node time freq, .setFreeQueue node time freq ∈ s.sent →
    ∃ t, time = .num t ∧ (t ≤ s.ppqPos ∨
      { time := time, node := node, freq := freq } ∈ s.piano.voices.pianofreequeue)
  last : ∀ node, s.piano.voices.nodetimetofree.lookup node = lastEnd s.sent node
  known : ∀ freq node, s.piano.voices.pianonodes.lookup freq = some node →
    ∃ time, .setFreeQueue node time freq ∈ s.sent
  once : ∀ node time freq time' freq', .setFreeQueue node time freq ∈ s.sent →
    .setFreeQueue node time' freq' ∈ s.sent → freq = freq'
  fresh : ∀ node time freq, .setFreeQueue node time freq ∈ s.sent →
    node < s.piano.voices.nextNode
  sounding : ∀ node time freq, .setFreeQueue node time freq ∈ s.sent → s.Sounds node →
    s.piano.voices.pianonodes.lookup freq = some node ∧
      (node ∈ s.piano.pedalqueue ∨
        ∃ e ∈ s.piano.voices.pianofreequeue, e.node = node ∧ lastEnd s.sent node = some e.time)

namespace PianoInv

variable [AddCommMonoid R] [LinearOrder R] {s : PianoSession R}

theorem start (nextNode : ℕ) (ppqPos : R) : PianoInv (PianoSession.start nextNode ppqPos) where
  order := fun _ => List.Pairwise.nil
  nums := fun e he => by cases he
  queued := fun e he => by cases he
  waits := fun node e he => by cases he
  recorded := fun node time freq h => by cases h
  last := fun node => rfl
  known := fun freq node h => by cases h
  once := fun node time freq time' freq' h => by cases h
  fresh := fun node time freq h => by cases h
  sounding := fun node time freq h => by cases h

/-- The pedal alone changes nothing of this. -/
theorem pedalMoved (h : PianoInv s) (pedal : Option (Val R)) (now : List (Out R)) :
    PianoInv { s with
      piano := { s.piano with voices := { s.piano.voices with pianopedal := pedal } }
      now := now
      framed := false } :=
  ⟨h.order, h.nums, h.queued, h.waits, h.recorded, h.last, h.known, h.once, h.fresh, h.sounding⟩

/-- A note on the node of its frequency, which may be new. -/
theorem struck (h : PianoInv s) {pedal : Option (Val R)} {beatTime : Val R} {on : Message R}
    {e : FreeEntry R} {nextNode : ℕ} {nodes : LuaTable (Val R) ℕ} {filters : LuaTable ℕ (Val R)}
    {now : List (Out R)} (hnum : e.IsNum) (hnext : s.piano.voices.nextNode ≤ nextNode)
    (hlt : e.node < nextNode)
    (hfreq : ∀ time freq, .setFreeQueue e.node time freq ∈ s.sent → freq = e.freq)
    (hself : nodes.lookup e.freq = some e.node)
    (hothers : ∀ freq, freq ≠ e.freq → nodes.lookup freq = s.piano.voices.pianonodes.lookup freq)
    (hfree : ∀ node, s.piano.voices.pianonodes.lookup e.freq = some node → node = e.node) :
    PianoInv { s with
      piano := { s.piano with
        voices := OscPianoEventPlayer.strike s.piano.voices pedal nextNode nodes beatTime on e
        filters := filters }
      now := now
      framed := false } := by
  have hmem : ∀ node time freq, .setFreeQueue node time freq ∈
      s.sent ++ [.sendMultiBundle beatTime [on], .setFreeQueue e.node e.time e.freq] →
      .setFreeQueue node time freq ∈ s.sent ∨ (node = e.node ∧ time = e.time ∧ freq = e.freq) := by
    intro node time freq hin
    simpa using hin
  have hnew : .setFreeQueue e.node e.time e.freq ∈
      s.sent ++ [.sendMultiBundle beatTime [on], .setFreeQueue e.node e.time e.freq] := by
    simp
  have hlast : ∀ node, lastEnd
      (s.sent ++ [.sendMultiBundle beatTime [on], .setFreeQueue e.node e.time e.freq]) node =
      if e.node = node then some e.time else lastEnd s.sent node := by
    intro node
    rw [lastEnd_append]
    rfl
  exact {
    order := fun hdirty => by cases hdirty
    nums := by
      intro e' he'
      rcases List.mem_append.mp he' with he' | he'
      · exact h.nums e' he'
      · rw [List.mem_singleton.mp he']
        exact hnum
    queued := by
      intro e' he'
      rcases List.mem_append.mp he' with he' | he'
      · exact List.mem_append_left _ (h.queued e' he')
      · rw [List.mem_singleton.mp he']
        exact hnew
    waits := by
      intro node e' he'
      obtain ⟨hnode, time, hin⟩ := h.waits node e' he'
      exact ⟨hnode, time, List.mem_append_left _ hin⟩
    recorded := by
      intro node time freq hin
      rcases hmem node time freq hin with hin | ⟨rfl, rfl, rfl⟩
      · obtain ⟨t, ht, hwhere⟩ := h.recorded node time freq hin
        exact ⟨t, ht, hwhere.imp id fun hq => List.mem_append_left _ hq⟩
      · exact ⟨e.at, hnum, Or.inr (List.mem_append_right _ (List.mem_singleton_self _))⟩
    last := by
      intro node
      refine Eq.trans ?_ (hlast node).symm
      show (s.piano.voices.nodetimetofree.insert e.node e.time).lookup node = _
      by_cases hnode : e.node = node
      · rw [if_pos hnode, hnode, AList.lookup_insert]
      · rw [if_neg hnode, AList.lookup_insert_ne (Ne.symm hnode)]
        exact h.last node
    known := by
      intro freq node hin
      by_cases hf : freq = e.freq
      · subst hf
        obtain rfl := Option.some.inj (hself.symm.trans hin)
        exact ⟨e.time, hnew⟩
      · obtain ⟨time, hin⟩ := h.known freq node ((hothers freq hf).symm.trans hin)
        exact ⟨time, List.mem_append_left _ hin⟩
    once := by
      intro node time freq time' freq' hin hin'
      rcases hmem node time freq hin with hin | ⟨rfl, -, rfl⟩
      · rcases hmem node time' freq' hin' with hin' | ⟨rfl, -, rfl⟩
        · exact h.once node time freq time' freq' hin hin'
        · exact hfreq time freq hin
      · rcases hmem _ time' freq' hin' with hin' | ⟨-, -, rfl⟩
        · exact (hfreq time' freq' hin').symm
        · rfl
    fresh := by
      intro node time freq hin
      rcases hmem node time freq hin with hin | ⟨rfl, -, -⟩
      · exact (h.fresh node time freq hin).trans_le hnext
      · exact hlt
    sounding := by
      intro node time freq hin hsounds
      have hold : s.Sounds node :=
        ⟨fun t ht => hsounds.1 t (List.mem_append_left _ ht), hsounds.2⟩
      by_cases hnode : node = e.node
      · subst hnode
        have hf : freq = e.freq := by
          rcases hmem _ time freq hin with hin | ⟨-, -, rfl⟩
          · exact hfreq time freq hin
          · rfl
        refine ⟨by rw [hf]; exact hself, Or.inr ⟨e, ?_, rfl, ?_⟩⟩
        · exact List.mem_append_right _ (List.mem_singleton_self _)
        · exact (hlast e.node).trans (if_pos rfl)
      · obtain ⟨hlookup, hwhere⟩ := h.sounding node time freq
          ((hmem node time freq hin).resolve_right fun hnew => hnode hnew.1) hold
        have hf : freq ≠ e.freq := by
          rintro rfl
          exact hnode (hfree node hlookup)
        refine ⟨(hothers freq hf).trans hlookup, hwhere.imp id ?_⟩
        rintro ⟨e', he', hnode', hlast'⟩
        refine ⟨e', List.mem_append_left _ he', hnode', ?_⟩
        exact (hlast node).trans ((if_neg (Ne.symm hnode)).trans hlast') }

/-- A voice that is played. -/
theorem played [Mul R] [Div R] {sc : Script R} {self : Settings R} (h : PianoInv s)
    {lista : Event R} {beatTime : Val R} {beatLen : Option (Val R)} {p : Piano R}
    (hp : OscPianoEventPlayer.play sc self lista beatTime beatLen s.piano = .ok p)
    (hnum : ∀ e ∈ p.voices.pianofreequeue, e.IsNum) :
    PianoInv { s with
      piano := p, now := p.voices.sent.drop s.sent.length, framed := false } ∧
      ∀ node time, .sendBundle (gateOff node) time ∉ p.voices.sent.drop s.sent.length := by
  have hlastNum : ∀ e, p.voices.pianofreequeue = s.piano.voices.pianofreequeue ++ [e] →
      e.IsNum := by
    intro e he
    refine hnum e ?_
    rw [he]
    exact List.mem_append_right _ (List.mem_singleton_self _)
  obtain ⟨pedal, rfl⟩ | ⟨pedal, on, e, ⟨hnode, rfl⟩ | ⟨hnone, hnew, rfl⟩⟩ :=
    OscPianoEventPlayer.play_cases hp
  · refine ⟨h.pedalMoved pedal _, fun node time hin => ?_⟩
    rw [List.drop_length] at hin
    cases hin
  · refine ⟨h.struck (hlastNum e rfl) le_rfl ?_ ?_ hnode (fun _ _ => rfl) ?_, ?_⟩
    · obtain ⟨time, hin⟩ := h.known e.freq e.node hnode
      exact h.fresh _ _ _ hin
    · intro time freq hin
      obtain ⟨time', hin'⟩ := h.known e.freq e.node hnode
      exact h.once _ _ _ _ _ hin hin'
    · exact fun node hin => Option.some.inj (hin.symm.trans hnode)
    · intro node time hin
      simp [OscPianoEventPlayer.strike] at hin
  · refine ⟨h.struck (hlastNum e rfl) (Nat.le_succ _) (by rw [hnew]; exact Nat.lt_succ_self _)
      ?_ (AList.lookup_insert _) (fun freq hf => AList.lookup_insert_ne hf) ?_, ?_⟩
    · intro time freq hin
      have hlt := h.fresh _ _ _ hin
      rw [hnew] at hlt
      exact absurd hlt (lt_irrefl _)
    · intro node hin
      rw [hnone] at hin
      cases hin
    · intro node time hin
      simp [OscPianoEventPlayer.strike] at hin

/-- The nodes of the queue have an end. -/
theorem timeToFree (h : PianoInv s) {e : FreeEntry R}
    (he : e ∈ s.piano.voices.pianofreequeue) :
    (s.piano.voices.timeToFree e.node).isSome = true := by
  obtain ⟨last, freq, hlast, hin⟩ := lastEnd_of_mem (h.queued e he)
  obtain ⟨t, rfl, -⟩ := h.recorded _ _ _ hin
  unfold Voices.timeToFree
  rw [h.last, hlast]
  rfl

/-- Where the queue has the last end of a node, that end is the one
`nodetimetofree` has. -/
theorem reached (h : PianoInv s) {ppq : R} {e : FreeEntry R}
    (he : e ∈ s.piano.voices.pianofreequeue) (hlast : lastEnd s.sent e.node = some e.time)
    (hle : e.at ≤ ppq) : OscPianoEventPlayer.Reached s.piano.voices ppq e := by
  refine ⟨e.at, ?_, hle⟩
  have hnum : e.time = .num e.at := h.nums e he
  unfold Voices.timeToFree
  rw [h.last, hlast, hnum]

/-- What holds of the queue after any frame. -/
theorem recorded_frame (h : PianoInv s) {ppq : R} (hppq : s.ppqPos ≤ ppq) {p : Piano R}
    (hqueue : ∀ e, e ∈ p.voices.pianofreequeue ↔
      e ∈ s.piano.voices.pianofreequeue ∧ ¬ e.at ≤ ppq)
    {node : ℕ} {time freq : Val R} (hin : .setFreeQueue node time freq ∈ s.sent) :
    ∃ t, time = .num t ∧ (t ≤ ppq ∨
      { time := time, node := node, freq := freq } ∈ p.voices.pianofreequeue) := by
  obtain ⟨t, rfl, hwhere⟩ := h.recorded node time freq hin
  refine ⟨t, rfl, ?_⟩
  by_cases ht : t ≤ ppq
  · exact Or.inl ht
  · refine Or.inr ((hqueue _).mpr ⟨hwhere.resolve_left fun hle => ht (hle.trans hppq), ?_⟩)
    exact ht

/-- A frame with the pedal down. -/
theorem frameDown (h : PianoInv s) {ppq : R} (hppq : s.ppqPos ≤ ppq) {p : Piano R}
    (hframe : OscPianoEventPlayer.FrameDown ppq s.piano p) (now : List (Out R)) :
    PianoInv { s with piano := p, ppqPos := ppq, now := now, framed := true } := by
  have hsent : p.voices.sent = s.sent := hframe.sent
  obtain ⟨-, httf, hnext, -⟩ := hframe.frame
  exact {
    order := fun _ => hframe.order
    nums := fun e he => h.nums e ((hframe.queue e).mp he).1
    queued := by
      intro e he
      show _ ∈ p.voices.sent
      rw [hsent]
      exact h.queued e ((hframe.queue e).mp he).1
    waits := by
      intro node e he
      show e.node = node ∧ ∃ time, _ ∈ p.voices.sent
      rw [hsent]
      rcases hframe.from_due node e he with hold | ⟨hdue, hnode⟩
      · exact h.waits node e hold
      · exact ⟨hnode, e.time, by rw [← hnode]; exact h.queued e hdue⟩
    recorded := by
      intro node time freq hin
      exact h.recorded_frame hppq hframe.queue (hsent ▸ hin)
    last := by
      intro node
      show p.voices.nodetimetofree.lookup node = lastEnd p.voices.sent node
      rw [httf, hsent]
      exact h.last node
    known := by
      intro freq node hin
      show ∃ time, _ ∈ p.voices.sent
      rw [hsent]
      exact h.known freq node (hframe.nodes ▸ hin)
    once := by
      intro node time freq time' freq' hin hin'
      exact h.once node time freq time' freq' (hsent ▸ hin) (hsent ▸ hin')
    fresh := by
      intro node time freq hin
      show node < p.voices.nextNode
      rw [hnext]
      exact h.fresh node time freq (hsent ▸ hin)
    sounding := by
      intro node time freq hin hsounds
      obtain ⟨hlookup, hwhere⟩ := h.sounding node time freq (hsent ▸ hin)
        ⟨fun t ht => hsounds.1 t (show _ ∈ p.voices.sent by rw [hsent]; exact ht), hsounds.2⟩
      refine ⟨hframe.nodes.symm ▸ hlookup, ?_⟩
      rcases hwhere with hwaits | ⟨e, he, hnode, hlast⟩
      · exact Or.inl (hframe.keeps node hwaits)
      · by_cases hle : e.at ≤ ppq
        · -- the last end is due, so the node now waits for the pedal
          rw [← hnode] at hlast ⊢
          exact Or.inl (hframe.due e he hle (h.reached he hlast hle))
        · refine Or.inr ⟨e, (hframe.queue e).mpr ⟨he, hle⟩, hnode, ?_⟩
          show lastEnd p.voices.sent node = some e.time
          rw [hsent]
          exact hlast }

/-- The gates that a frame with the pedal up closes may all be closed. -/
theorem gates_safe {ppq : R} (hok : PianoOk s (.doFreeQueue ppq))
    (hup : s.piano.voices.PedalUp) {p : Piano R} {gates : List (FreeEntry R × Val R)}
    (hframe : OscPianoEventPlayer.FrameUp ppq s.piano p gates) :
    ∀ g ∈ gates, s.piano.voices.Safe ppq g.1 := by
  intro g hg
  obtain ⟨hdue, hpedal⟩ := hok hup
  rcases hframe.from_due g hg with ⟨hin, hle, ⟨ttf, httf, hreached⟩, hnode⟩ | ⟨node, hnode⟩
  · refine hdue g.1 hin hle (fun t ht => ?_) hnode
    obtain rfl := Option.some.inj (httf.symm.trans ht)
    exact hreached
  · exact hpedal ⟨node, g.1⟩ (AList.mem_lookup_iff.mp hnode)

/-- A frame with the pedal up. -/
theorem frameUp (h : PianoInv s) {ppq : R} (hppq : s.ppqPos ≤ ppq)
    {p : Piano R} {gates : List (FreeEntry R × Val R)}
    (hframe : OscPianoEventPlayer.FrameUp ppq s.piano p gates)
    (hsafe : ∀ g ∈ gates, s.piano.voices.Safe ppq g.1) (now : List (Out R)) :
    PianoInv { s with piano := p, ppqPos := ppq, now := now, framed := true } := by
  obtain ⟨-, httf, hnext, -⟩ := hframe.frame
  have hmem : ∀ node time freq, .setFreeQueue node time freq ∈ p.voices.sent →
      .setFreeQueue node time freq ∈ s.sent := by
    intro node time freq hin
    rw [hframe.sent] at hin
    simpa using hin
  have hkeep : ∀ out, out ∈ s.sent → out ∈ p.voices.sent := by
    intro out hin
    rw [hframe.sent]
    exact List.mem_append_left _ hin
  have hlast : ∀ node, lastEnd p.voices.sent node = lastEnd s.sent node := by
    intro node
    rw [hframe.sent]
    exact lastEnd_same _ (fun n t f hin => by simp at hin) node
  have hgated : ∀ g ∈ gates, .sendBundle (gateOff g.1.node) g.2 ∈ p.voices.sent := by
    intro g hg
    rw [hframe.sent]
    exact List.mem_append_right _ (List.mem_map.mpr ⟨g, hg, rfl⟩)
  exact {
    order := fun _ => hframe.order
    nums := fun e he => h.nums e ((hframe.queue e).mp he).1
    queued := fun e he => hkeep _ (h.queued e ((hframe.queue e).mp he).1)
    waits := by
      intro node e he
      dsimp only at he
      rw [hframe.pedalqueue] at he
      cases he
    recorded := by
      intro node time freq hin
      exact h.recorded_frame hppq hframe.queue (hmem _ _ _ hin)
    last := by
      intro node
      show p.voices.nodetimetofree.lookup node = lastEnd p.voices.sent node
      rw [httf, hlast]
      exact h.last node
    known := by
      intro freq node hin
      dsimp only at hin
      rw [hframe.nodes] at hin
      split at hin
      · cases hin
      · obtain ⟨time, hin⟩ := h.known freq node hin
        exact ⟨time, hkeep _ hin⟩
    once := by
      intro node time freq time' freq' hin hin'
      exact h.once node time freq time' freq' (hmem _ _ _ hin) (hmem _ _ _ hin')
    fresh := by
      intro node time freq hin
      show node < p.voices.nextNode
      rw [hnext]
      exact h.fresh node time freq (hmem _ _ _ hin)
    sounding := by
      intro node time freq hin hsounds
      have hrec := hmem _ _ _ hin
      obtain ⟨hlookup, hwhere⟩ := h.sounding node time freq hrec
        ⟨fun t ht => hsounds.1 t (hkeep _ ht), hsounds.2⟩
      -- a gate closed under this frequency would be that of the node
      have hfreq : freq ∉ gates.map fun g => g.1.freq := by
        intro hf
        obtain ⟨g, hg, hgf⟩ := List.mem_map.mp hf
        have hnode := (hsafe g hg).2 node (by rw [hgf]; exact hlookup)
        exact hsounds.1 g.2 (hnode ▸ hgated g hg)
      refine ⟨?_, ?_⟩
      · dsimp only
        rw [hframe.nodes, if_neg hfreq]
        exact hlookup
      · rcases hwhere with hwaits | ⟨e, he, hnode, hlastEnd⟩
        · obtain ⟨e, he⟩ := Option.isSome_iff_exists.mp (AList.lookup_isSome.mpr hwaits)
          rcases hframe.pedal node e he with hgate | hgate
          · obtain ⟨g, hg, rfl⟩ := List.mem_map.mp hgate
            exact absurd (hgated g hg) (hsounds.1 g.2)
          · obtain ⟨g, hg, rfl⟩ := List.mem_map.mp hgate
            have hnode := (h.waits node g.1 he).1
            exact absurd (hgated g hg) (by rw [hnode]; exact hsounds.1 g.2)
        · refine Or.inr ⟨e, (hframe.queue e).mpr ⟨he, fun hle => hfreq ?_⟩, hnode, ?_⟩
          · have hef : e.freq = freq := h.once node e.time e.freq time freq
              (by rw [← hnode]; exact h.queued e he) hrec
            rw [← hef]
            refine hframe.due e he hle (h.reached he (by rw [hnode]; exact hlastEnd) hle) ?_
            rw [hef, hlookup]
            exact Option.some_ne_none node
          · exact (hlast node).trans hlastEnd }

/-- A node has ended, and only it may leave the tables. -/
theorem ended (h : PianoInv s) (node : ℕ) {nodes : LuaTable (Val R) ℕ}
    {pedalqueue : LuaTable ℕ (FreeEntry R)} {filters : LuaTable ℕ (Val R)}
    (hnodes : ∀ freq n, nodes.lookup freq = some n →
      s.piano.voices.pianonodes.lookup freq = some n)
    (hothers : ∀ freq n, n ≠ node → s.piano.voices.pianonodes.lookup freq = some n →
      nodes.lookup freq = some n)
    (hwaits : ∀ n e, pedalqueue.lookup n = some e → s.piano.pedalqueue.lookup n = some e)
    (hstill : ∀ n, n ≠ node → n ∈ s.piano.pedalqueue → n ∈ pedalqueue) :
    PianoInv { s with
      piano :=
        { voices := { s.piano.voices with pianonodes := nodes }
          pedalqueue := pedalqueue
          filters := filters }
      now := []
      framed := false
      ended := s.ended ++ [node] } := by
  refine ⟨h.order, h.nums, h.queued, ?_, h.recorded, h.last, ?_, h.once, h.fresh, ?_⟩
  · exact fun n e he => h.waits n e (hwaits n e he)
  · exact fun freq n hin => h.known freq n (hnodes freq n hin)
  · intro n time freq hin hsounds
    have hne : n ≠ node := by
      rintro rfl
      exact hsounds.2 (List.mem_append_right _ (List.mem_singleton_self _))
    obtain ⟨hlookup, hwhere⟩ := h.sounding n time freq hin
      ⟨hsounds.1, fun hend => hsounds.2 (List.mem_append_left _ hend)⟩
    exact ⟨hothers freq n hne hlookup, hwhere.imp (hstill n hne) id⟩

/-- The filter of a node does that. -/
theorem n_end (h : PianoInv s) (node : ℕ) :
    PianoInv { s with
      piano := OscPianoEventPlayer.n_end node s.piano
      now := []
      framed := false
      ended := s.ended ++ [node] } := by
  unfold OscPianoEventPlayer.n_end
  cases hfilter : s.piano.filters.lookup node with
  | none =>
    exact h.ended node (fun _ _ hin => hin) (fun _ _ _ hin => hin) (fun _ _ hin => hin)
      fun _ _ hin => hin
  | some freq =>
    have hwaits : ∀ n e, (s.piano.pedalqueue.erase node).lookup n = some e →
        s.piano.pedalqueue.lookup n = some e := by
      intro n e he
      by_cases hn : n = node
      · rw [hn, AList.lookup_erase] at he
        cases he
      · rwa [AList.lookup_erase_ne hn] at he
    have hstill : ∀ n, n ≠ node → n ∈ s.piano.pedalqueue → n ∈ s.piano.pedalqueue.erase node :=
      fun n hn hin => AList.mem_erase.mpr ⟨hn, hin⟩
    dsimp only
    split
    · next hfreq =>
      refine h.ended node (fun f n hin => ?_) (fun f n hn hin => ?_) hwaits hstill
      · by_cases hf : f = freq
        · rw [hf, AList.lookup_erase] at hin
          cases hin
        · rwa [AList.lookup_erase_ne hf] at hin
      · have hf : f ≠ freq := by
          rintro rfl
          exact hn (Option.some.inj (hin.symm.trans hfreq))
        rwa [AList.lookup_erase_ne hf]
    · exact h.ended node (fun _ _ hin => hin) (fun _ _ _ hin => hin) hwaits hstill

end PianoInv

/-! ## Steps and runs -/

section Runs

variable [AddCommMonoid R] [LinearOrder R] [Mul R] [Div R]
  {sort : List (FreeEntry R) → List (FreeEntry R)} {sc : Script R} {self : Settings R}

omit [LinearOrder R] [Mul R] [Div R] in
/-- The gate-offs of two nodes differ. -/
theorem gateOff_inj {node node' : ℕ} (h : (gateOff node : Message R) = gateOff node') :
    node = node' := by
  have hargs := congrArg Message.args h
  injection hargs with hhead _
  injection hhead

omit [Mul R] [Div R] in
/-- The gates that a frame closes, past all ends of their nodes. -/
theorem PianoInv.gatesRight {s : PianoSession R} (h : PianoInv s) {ppq : R}
    (hppq : s.ppqPos ≤ ppq) {p : Piano R} {gates : List (FreeEntry R × Val R)}
    (hframe : OscPianoEventPlayer.FrameUp ppq s.piano p gates) (hup : s.piano.voices.PedalUp)
    (hsafe : ∀ g ∈ gates, s.piano.voices.Safe ppq g.1) :
    PianoSession.GatesRight { s with
      piano := p, ppqPos := ppq, now := p.voices.sent.drop s.sent.length, framed := true } := by
  intro node time hin
  dsimp only at hin
  rw [hframe.sent, List.drop_left] at hin
  obtain ⟨g, hg, hgate⟩ := List.mem_map.mp hin
  injection hgate with hmsg _
  obtain rfl := gateOff_inj hmsg
  refine ⟨?_, fun t freq hrec => ?_⟩
  · show p.voices.PedalUp
    unfold Voices.PedalUp
    rw [hframe.frame.1]
    exact hup
  · have hold : .setFreeQueue g.1.node (.num t) freq ∈ s.sent := by
      have hmem : .setFreeQueue g.1.node (.num t) freq ∈ p.voices.sent := hrec
      rw [hframe.sent] at hmem
      simpa using hmem
    obtain ⟨t', ht', hwhere⟩ := h.recorded _ _ _ hold
    obtain rfl : t = t' := by injection ht'
    rcases hwhere with hle | hin
    · exact hle.trans hppq
    · exact (hsafe g hg).1 _ hin rfl

omit [Mul R] [Div R] in
/-- What is left in the queue ends after the position, so no node is
forgotten where none waits for the pedal. -/
theorem PianoInv.noneForgotten {s : PianoSession R} (h : PianoInv s)
    (hpedal : s.piano.pedalqueue = ∅)
    (hqueue : ∀ e ∈ s.piano.voices.pianofreequeue, ¬ e.at ≤ s.ppqPos) : s.NoneForgotten := by
  intro _ _ node t hlast hle
  by_contra hsounds
  have hsounds' : s.Sounds node :=
    ⟨fun time hin => hsounds (Or.inl ⟨time, hin⟩), fun hend => hsounds (Or.inr hend)⟩
  obtain ⟨freq, hin⟩ := mem_of_lastEnd hlast
  obtain ⟨-, hwaits | ⟨e, he, hnode, hlast'⟩⟩ := h.sounding node _ freq hin hsounds'
  · rw [hpedal] at hwaits
    cases hwaits
  · have ht : e.time = .num t := Option.some.inj (hlast'.symm.trans hlast)
    have hat : e.at = t := by
      unfold FreeEntry.at
      rw [ht]
    exact hqueue e he (by rw [hat]; exact hle)

/-- **One step** keeps the invariant and both laws. -/
theorem PianoInv.next (hsort : SortsBy (fun a b => decide (b.at > a.at)) sort)
    {s : PianoSession R} (h : PianoInv s) {act : PianoAct R}
    (hplays : PlaysPiano sc self s act) (hok : PianoOk s act) :
    ∃ s', s.next sort sc self act = .ok s' ∧ PianoInv s' ∧ s'.GatesRight ∧ s'.NoneForgotten := by
  cases act with
  | play lista beatTime beatLen =>
    unfold PlaysPiano at hplays
    dsimp only at hplays
    split at hplays
    · next p hp =>
      obtain ⟨hinv, hgates⟩ := h.played hp hplays
      refine ⟨_, ?_, hinv, fun node time hin => absurd hin (hgates node time), fun hf => by cases hf⟩
      simp only [PianoSession.next, hp]
      rfl
    · exact hplays.elim
  | n_end node =>
    exact ⟨_, rfl, h.n_end node, (fun _ _ hin => by cases hin), fun hf => by cases hf⟩
  | doFreeQueue ppq =>
    obtain ⟨p, hp, hframe⟩ := OscPianoEventPlayer.doFreeQueue_spec hsort ppq h.order h.nums
      fun e he => h.timeToFree he
    have hnext : s.next sort sc self (.doFreeQueue ppq) = .ok { s with
        piano := p
        ppqPos := ppq
        now := p.voices.sent.drop s.sent.length
        framed := true } := by
      simp only [PianoSession.next, hp]
      rfl
    rcases hframe with ⟨hup, gates, hframe⟩ | ⟨hdown, hframe⟩
    · have hsafe := gates_safe hok hup hframe
      have hinv := h.frameUp hplays hframe hsafe (p.voices.sent.drop s.sent.length)
      exact ⟨_, hnext, hinv, h.gatesRight hplays hframe hup hsafe,
        hinv.noneForgotten hframe.pedalqueue fun e he => ((hframe.queue e).mp he).2⟩
    · have hinv := h.frameDown hplays hframe (p.voices.sent.drop s.sent.length)
      refine ⟨_, hnext, hinv, ?_, ?_⟩
      · intro node time hin
        dsimp only at hin
        rw [show p.voices.sent = s.sent from hframe.sent, List.drop_length] at hin
        cases hin
      · intro _ hup
        exfalso
        have hdown' : truthy p.voices.pianopedal = true := by
          rw [hframe.frame.1]
          exact hdown
        exact absurd (hup.symm.trans hdown') (by decide)

/-- **Piano release.** In every run of notes, frames and ends of nodes whose
frames with the pedal up meet only entries that may close a gate, at every
moment gates are closed only with the pedal up and past all ends of their
node, and a frame with the pedal up leaves no node sounding past its last
end. -/
theorem piano_release (hsort : SortsBy (fun a b => decide (b.at > a.at)) sort)
    (nextNode : ℕ) (ppqPos : R) (acts : List (PianoAct R))
    (hrun : Guarded (stepM (PianoSession.next sort sc self))
      (Live fun s act => PlaysPiano sc self s act ∧ PianoOk s act)
      (.ok (PianoSession.start nextNode ppqPos)) acts) (n : ℕ) :
    ∃ s, run (stepM (PianoSession.next sort sc self)) (.ok (PianoSession.start nextNode ppqPos))
      (acts.take n) = .ok s ∧ s.GatesRight ∧ s.NoneForgotten := by
  obtain ⟨s, hs, -, hright⟩ := (hrun.take n).invariantM
    (I := fun s => PianoInv s ∧ s.GatesRight ∧ s.NoneForgotten)
    (fun s act h hok => h.1.next hsort hok.1 hok.2)
    ⟨PianoInv.start nextNode ppqPos, (fun _ _ hin => by cases hin), fun hf => by cases hf⟩
  exact ⟨s, hs, hright⟩

end Runs

/-! ## Two notes on one frequency -/

instance (s : PianoSession ℚ) : (act : PianoAct ℚ) →
    Decidable (PlaysPiano bareScript bareSettings s act)
  | .play lista beatTime beatLen =>
    match h : OscPianoEventPlayer.play bareScript bareSettings lista beatTime beatLen s.piano with
    | .ok p => decidable_of_iff (∀ e ∈ p.voices.pianofreequeue, e.IsNum) (by
        simp only [PlaysPiano, h])
    | .error _ => isFalse (by simp only [PlaysPiano, h, not_false_eq_true])
  | .doFreeQueue ppq => inferInstanceAs (Decidable (s.ppqPos ≤ ppq))
  | .n_end node => inferInstanceAs (Decidable (node < s.piano.voices.nextNode))

instance (s : PianoSession ℚ) : (act : PianoAct ℚ) → Decidable (PianoOk s act)
  | .doFreeQueue ppq => inferInstanceAs (Decidable (s.piano.voices.PedalUp →
      (∀ e ∈ s.piano.voices.pianofreequeue, e.at ≤ ppq →
        (∀ t ∈ s.piano.voices.timeToFree e.node, t ≤ ppq) →
          s.piano.voices.pianonodes.lookup e.freq ≠ none → s.piano.voices.Safe ppq e) ∧
      ∀ kv ∈ s.piano.pedalqueue.entries, s.piano.voices.Safe ppq kv.2))
  | .play _ _ _ => isTrue trivial
  | .n_end _ => isTrue trivial

/-- Frequency 440 on a beat. -/
def strike440 (beat len : ℚ) : PianoAct ℚ :=
  .play (ofPairs [(ascii "freq", .num 440)]) (.num beat) (some (.num len))

/-- A rest that moves the pedal. -/
def movePedal (down : Bool) (beat : ℚ) : PianoAct ℚ :=
  .play (ofPairs [(ascii "freq", .rest), (ascii "pianopedal", .bool down)]) (.num beat)
    (some (.num 1))

/-- The insertion sort of the queue. -/
def sortFree (queue : List (FreeEntry ℚ)) : List (FreeEntry ℚ) :=
  queue.insertionSort fun a b => a.at ≤ b.at

/-- A note of two beats is struck again when it waits for the pedal, for five
beats; then the pedal goes up. -/
def struckUnderPedal : List (PianoAct ℚ) :=
  [strike440 0 2, movePedal true 1, .doFreeQueue 2, strike440 3 5, movePedal false 4, .doFreeQueue 4]

/-- The node of a note ends before its time, and the frequency is struck again
before that. -/
def endedEarly : List (PianoAct ℚ) :=
  [strike440 0 10, .n_end 1001, strike440 5 10, .doFreeQueue 10, .doFreeQueue 15]

/-- Whether an output closes the gate of a node. -/
def isGateOff (node : ℕ) : Out ℚ → Bool
  | .sendBundle msg _ => msg = gateOff node
  | _ => false

/-- The second note is damped on beat 4, and should end on beat 8. -/
theorem struck_under_pedal :
    Guarded (stepM (PianoSession.next sortFree bareScript bareSettings))
        (Live (PlaysPiano bareScript bareSettings)) (.ok (PianoSession.start 1001 0))
        struckUnderPedal ∧
      ¬ ∀ n, ∃ s, run (stepM (PianoSession.next sortFree bareScript bareSettings))
        (.ok (PianoSession.start 1001 0)) (struckUnderPedal.take n) = .ok s ∧
          s.GatesRight ∧ s.NoneForgotten := by
  refine ⟨by decide +kernel, fun hall => ?_⟩
  obtain ⟨s, hs, hgates, -⟩ := hall 6
  have hwrong : (match run (stepM (PianoSession.next sortFree bareScript bareSettings))
        (.ok (PianoSession.start 1001 0)) (struckUnderPedal.take 6) with
      | .ok s => decide (.sendBundle (gateOff 1001) (.num 4) ∈ s.now ∧ s.ppqPos = 4 ∧
          .setFreeQueue 1001 (.num 8) (.num 440) ∈ s.sent)
      | .error _ => false) = true := by decide +kernel
  rw [hs] at hwrong
  obtain ⟨hgate, hpos, hend⟩ := of_decide_eq_true hwrong
  have hle := (hgates 1001 _ hgate).2 8 _ hend
  rw [hpos] at hle
  exact absurd hle (by decide +kernel)

/-- The second note ends on beat 15, and is not damped then. -/
theorem ended_early :
    Guarded (stepM (PianoSession.next sortFree bareScript bareSettings))
        (Live (PlaysPiano bareScript bareSettings)) (.ok (PianoSession.start 1001 0)) endedEarly ∧
      ¬ ∀ n, ∃ s, run (stepM (PianoSession.next sortFree bareScript bareSettings))
        (.ok (PianoSession.start 1001 0)) (endedEarly.take n) = .ok s ∧
          s.GatesRight ∧ s.NoneForgotten := by
  refine ⟨by decide +kernel, fun hall => ?_⟩
  obtain ⟨s, hs, -, hnone⟩ := hall 5
  have hwrong : (match run (stepM (PianoSession.next sortFree bareScript bareSettings))
        (.ok (PianoSession.start 1001 0)) (endedEarly.take 5) with
      | .ok s => decide (s.framed = true ∧ s.piano.voices.PedalUp ∧ s.ppqPos = 15 ∧
          lastEnd s.sent 1002 = some (.num 15) ∧
          (∀ out ∈ s.sent, isGateOff 1002 out = false) ∧ 1002 ∉ s.ended)
      | .error _ => false) = true := by decide +kernel
  rw [hs] at hwrong
  obtain ⟨hframed, hup, hpos, hlast, hopen, hsounds⟩ := of_decide_eq_true hwrong
  rcases hnone hframed hup 1002 15 hlast (by rw [hpos]) with ⟨time, hgate⟩ | hend
  · have hclosed := hopen _ hgate
    simp [isGateOff] at hclosed
  · exact hsounds hend

/-- Two strikes of one frequency under the pedal, lifted after both ends. -/
theorem lifted_late :
    ∃ s, run (stepM (PianoSession.next sortFree bareScript bareSettings))
      (.ok (PianoSession.start 1001 0))
      [strike440 0 2, movePedal true 1, .doFreeQueue 2, strike440 3 5, .doFreeQueue 4,
        movePedal false 8, .doFreeQueue 9] = .ok s ∧ s.GatesRight ∧ s.NoneForgotten :=
  piano_release (sortsBy_insertionSort FreeEntry.at) 1001 0 [strike440 0 2, movePedal true 1,
    .doFreeQueue 2, strike440 3 5, .doFreeQueue 4, movePedal false 8, .doFreeQueue 9]
    (by decide +kernel) 7

end Lua2SC.Players
