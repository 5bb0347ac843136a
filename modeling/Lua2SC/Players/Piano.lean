import Lua2SC.Lib.DueQueue
import Lua2SC.Players.PlayOneEvent

/-!
# OscPianoEventPlayer: when a string is damped

A piano player keeps one node per frequency (`pianonodes`). Every note
records its end (`setFreeQueue`): an entry goes into `pianofreequeue`, and
`nodetimetofree[node]` is set to it, so a note struck again on a node that
still sounds moves its end. `doFreeQueue` runs at the start of every frame. It
takes the entries up to the position of the player from the sorted queue; an
entry whose node has a later end by now is skipped, and else the gate of the
node is closed, or, while the pedal is down, the entry is moved to
`pedalqueue`, which `doPedalQueue` serves once the pedal is up.

This module has the functions of the player that `PlayOneEvent` leaves out:
the two queues, and the `/n_end` filter that a new node registers. The
comparisons of `doFreeQueue` raise an error on a time that is not a number,
as `table.sort` does, which compares every entry. `table.sort` is a parameter
(`SortsBy`).

What a frame does is summed up in `Frame`: with the pedal up by the entries
whose gates it closes, with the pedal down by those it lets wait.
-/

namespace Lua2SC.Players

open Lua2SC.Lua Lua2SC.DueQueue

variable {R : Type}

/-- An OscPianoEventPlayer: its fields, the releases that wait for the pedal,
and the `/n_end` filters, each with the frequency its function closes over. -/
structure Piano (R : Type) where
  voices : Voices R
  pedalqueue : LuaTable ℕ (FreeEntry R)
  filters : LuaTable ℕ (Val R)

/-- The number of an entry's time. -/
def FreeEntry.at [Zero R] (e : FreeEntry R) : R :=
  match e.time with
  | .num x => x
  | _ => 0

/-- The entry's time is a number. -/
def FreeEntry.IsNum [Zero R] (e : FreeEntry R) : Prop := e.time = .num e.at

instance [Zero R] [DecidableEq R] (e : FreeEntry R) : Decidable e.IsNum :=
  inferInstanceAs (Decidable (e.time = .num e.at))

/-- The number in `nodetimetofree[node]`. -/
def Voices.timeToFree (v : Voices R) (node : ℕ) : Option R :=
  match v.nodetimetofree.lookup node with
  | some (.num t) => some t
  | _ => none

/-- `not self.pianopedal`. -/
def Voices.PedalUp (v : Voices R) : Prop := truthy v.pianopedal = false

instance (v : Voices R) : Decidable v.PedalUp := inferInstanceAs (Decidable (_ = false))

theorem Voices.PedalUp.not_down {v : Voices R} (hup : v.PedalUp) : ¬ truthy v.pianopedal = true := by
  rw [show truthy v.pianopedal = false from hup]
  decide

namespace OscPianoEventPlayer

section Queues

variable [AddCommMonoid R] [LinearOrder R]

/-- What `doFreeQueue` does with a due entry of a node whose end, `ttf`, is
reached. -/
def freeNode (e : FreeEntry R) (ttf : R) (p : Piano R) : Piano R :=
  if truthy p.voices.pianopedal = true then
    { p with pedalqueue := p.pedalqueue.insert e.node e }
  else if (p.voices.pianonodes.lookup e.freq).isSome = true then
    { p with
      voices :=
        { p.voices.emit (.sendBundle (gateOff e.node) (.num ttf)) with
          pianonodes := p.voices.pianonodes.erase e.freq }
      pedalqueue := p.pedalqueue.erase e.node }
  else p

/-- The loop of `doFreeQueue`. -/
def drain (ppq : R) : List (FreeEntry R) → Piano R → LuaM (Piano R)
  | [], p => .ok { p with voices := { p.voices with pianofreequeue := [] } }
  | e :: queue, p =>
    if ¬ e.IsNum then .error "attempt to compare a table value with number"
    else if e.at ≤ ppq then
      match p.voices.timeToFree e.node with
      | none => .error "attempt to compare nil with number"
      | some ttf => drain ppq queue (if ttf ≤ ppq then freeNode e ttf p else p)
    else .ok { p with voices := { p.voices with pianofreequeue := e :: queue } }

/-- `OscPianoEventPlayer:doPedalQueue`. -/
def doPedalQueue (ppq : R) (p : Piano R) : Piano R :=
  let voices := p.pedalqueue.entries.foldl (fun v entry =>
    { v.emit (.sendBundle (gateOff entry.2.node) (.num ppq)) with
      pianonodes := v.pianonodes.erase entry.2.freq }) p.voices
  { p with voices := voices, pedalqueue := ∅ }

/-- The queue of `doFreeQueue`, sorted when it is marked dirty. -/
def sortedQueue (sort : List (FreeEntry R) → List (FreeEntry R)) (v : Voices R) :
    LuaM (List (FreeEntry R)) :=
  if v.freeQueueDirty = true then do
    luaAssert (∀ e ∈ v.pianofreequeue, e.IsNum) "attempt to compare"
    .ok (sort v.pianofreequeue)
  else .ok v.pianofreequeue

/-- `OscPianoEventPlayer:doFreeQueue`, at the position `ppq` of the player. -/
def doFreeQueue (sort : List (FreeEntry R) → List (FreeEntry R)) (ppq : R) (p : Piano R) :
    LuaM (Piano R) := do
  let queue ← sortedQueue sort p.voices
  let p ← drain ppq queue { p with voices := { p.voices with freeQueueDirty := false } }
  if truthy p.voices.pianopedal = true then .ok p else .ok (doPedalQueue ppq p)

/-- The function of the `/n_end` filter of a node. A filter is used once. -/
def n_end (node : ℕ) (p : Piano R) : Piano R :=
  match p.filters.lookup node with
  | none => p
  | some freq =>
    { voices :=
        if p.voices.pianonodes.lookup freq = some node then
          { p.voices with pianonodes := p.voices.pianonodes.erase freq }
        else p.voices
      pedalqueue := p.pedalqueue.erase node
      filters := p.filters.erase node }

/-! ## The loop, entry by entry -/

/-- A due entry. -/
def freeDue (ppq : R) (p : Piano R) (e : FreeEntry R) : Piano R :=
  match p.voices.timeToFree e.node with
  | some ttf => if ttf ≤ ppq then freeNode e ttf p else p
  | none => p

/-- The entry's node has an end, and it is reached. -/
def Reached (v : Voices R) (ppq : R) (e : FreeEntry R) : Prop :=
  ∃ ttf, v.timeToFree e.node = some ttf ∧ ttf ≤ ppq

theorem freeNode_timeToFree (e : FreeEntry R) (ttf : R) (p : Piano R) (node : ℕ) :
    (freeNode e ttf p).voices.timeToFree node = p.voices.timeToFree node := by
  unfold freeNode
  split
  · rfl
  · split <;> rfl

theorem freeDue_timeToFree (ppq : R) (e : FreeEntry R) (p : Piano R) (node : ℕ) :
    (freeDue ppq p e).voices.timeToFree node = p.voices.timeToFree node := by
  unfold freeDue
  split
  · split
    · exact freeNode_timeToFree ..
    · rfl
  · rfl

theorem reached_freeDue {ppq : R} {e e' : FreeEntry R} {p : Piano R} :
    Reached (freeDue ppq p e).voices ppq e' ↔ Reached p.voices ppq e' := by
  unfold Reached
  rw [freeDue_timeToFree]

/-- An entry whose node has a later end is skipped. -/
theorem freeDue_of_not_reached {ppq : R} {e : FreeEntry R} {p : Piano R}
    (h : ¬ Reached p.voices ppq e) : freeDue ppq p e = p := by
  unfold freeDue
  split
  · next ttf httf => rw [if_neg fun hle => h ⟨ttf, httf, hle⟩]
  · rfl

theorem freeDue_of_reached {ppq ttf : R} {e : FreeEntry R} {p : Piano R}
    (httf : p.voices.timeToFree e.node = some ttf) (hle : ttf ≤ ppq) :
    freeDue ppq p e = freeNode e ttf p := by
  unfold freeDue
  simp only [httf, if_pos hle]

/-- With the pedal up, an entry without a node under its frequency is skipped
too. -/
theorem freeDue_up_skips {ppq : R} {e : FreeEntry R} {p : Piano R} (hup : p.voices.PedalUp)
    (h : ¬ (Reached p.voices ppq e ∧ (p.voices.pianonodes.lookup e.freq).isSome = true)) :
    freeDue ppq p e = p := by
  by_cases hreached : Reached p.voices ppq e
  · obtain ⟨ttf, httf, hle⟩ := id hreached
    rw [freeDue_of_reached httf hle, freeNode, if_neg hup.not_down,
      if_neg fun hsome => h ⟨hreached, hsome⟩]
  · exact freeDue_of_not_reached hreached

/-- The loop serves the front of the queue that is due, and keeps the rest. -/
theorem drain_eq (ppq : R) (queue : List (FreeEntry R)) (p : Piano R)
    (hnum : ∀ e ∈ queue, e.IsNum) (httf : ∀ e ∈ queue, (p.voices.timeToFree e.node).isSome) :
    ∃ p', p' = (queue.takeWhile fun e => decide (e.at ≤ ppq)).foldl (freeDue ppq) p ∧
      drain ppq queue p = .ok
        { p' with voices := { p'.voices with
            pianofreequeue := queue.dropWhile fun e => decide (e.at ≤ ppq) } } := by
  induction queue generalizing p with
  | nil => exact ⟨_, rfl, rfl⟩
  | cons e queue ih =>
    refine ⟨_, rfl, ?_⟩
    unfold drain
    rw [if_neg (not_not.mpr (hnum e (List.mem_cons_self ..)))]
    by_cases hdue : e.at ≤ ppq
    · obtain ⟨ttf, hsome⟩ := Option.isSome_iff_exists.mp (httf e (List.mem_cons_self ..))
      have hone : freeDue ppq p e = if ttf ≤ ppq then freeNode e ttf p else p := by
        unfold freeDue
        rw [hsome]
      obtain ⟨_, rfl, hrest⟩ := ih (freeDue ppq p e)
        (fun e he => hnum e (List.mem_cons_of_mem _ he))
        (fun e he => by
          rw [freeDue_timeToFree]
          exact httf e (List.mem_cons_of_mem _ he))
      simp only [if_pos hdue, hsome, List.takeWhile_cons, List.dropWhile_cons,
        decide_eq_true hdue, ← hone]
      exact hrest
    · simp only [if_neg hdue, List.takeWhile_cons, List.dropWhile_cons, decide_eq_false hdue]
      rfl

/-! ## What a frame does -/

/-- The gates of some entries are closed, each at its beat: what goes out, and
what is left of the table of nodes. -/
structure Closes (p p' : Piano R) (gates : List (FreeEntry R × Val R)) : Prop where
  sent : p'.voices.sent =
    p.voices.sent ++ gates.map fun g => .sendBundle (gateOff g.1.node) g.2
  nodes : ∀ freq, p'.voices.pianonodes.lookup freq =
    if freq ∈ gates.map (fun g => g.1.freq) then none else p.voices.pianonodes.lookup freq
  frame : p'.voices.pianopedal = p.voices.pianopedal ∧
    p'.voices.nodetimetofree = p.voices.nodetimetofree ∧
    p'.voices.nextNode = p.voices.nextNode ∧
    p'.voices.freeQueueDirty = p.voices.freeQueueDirty ∧ p'.filters = p.filters

theorem Closes.refl (p : Piano R) : Closes p p [] :=
  ⟨(List.append_nil _).symm, fun _ => rfl, rfl, rfl, rfl, rfl, rfl⟩

theorem Closes.trans {p p' p'' : Piano R} {gates gates' : List (FreeEntry R × Val R)}
    (h : Closes p p' gates) (h' : Closes p' p'' gates') : Closes p p'' (gates ++ gates') where
  sent := by rw [h'.sent, h.sent, List.map_append, List.append_assoc]
  nodes := by
    intro freq
    rw [h'.nodes, h.nodes, List.map_append]
    by_cases h₁ : freq ∈ gates.map fun g => g.1.freq
    · rw [if_pos h₁, if_pos (List.mem_append_left _ h₁), ite_self]
    · simp only [List.mem_append, h₁, false_or, if_false]
  frame := by
    obtain ⟨hpedal, httf, hnext, hdirty, hfilters⟩ := h.frame
    obtain ⟨hpedal', httf', hnext', hdirty', hfilters'⟩ := h'.frame
    exact ⟨hpedal'.trans hpedal, httf'.trans httf, hnext'.trans hnext, hdirty'.trans hdirty,
      hfilters'.trans hfilters⟩

/-- One gate. -/
theorem Closes.one (p : Piano R) (e : FreeEntry R) (time : Val R)
    (pedalqueue : LuaTable ℕ (FreeEntry R)) :
    Closes p
      { p with
        voices :=
          { p.voices.emit (.sendBundle (gateOff e.node) time) with
            pianonodes := p.voices.pianonodes.erase e.freq }
        pedalqueue := pedalqueue } [(e, time)] := by
  refine ⟨rfl, fun freq => ?_, rfl, rfl, rfl, rfl, rfl⟩
  show (p.voices.pianonodes.erase e.freq).lookup freq = _
  by_cases hfreq : freq = e.freq
  · rw [if_pos (by rw [hfreq]; exact List.mem_singleton_self _), hfreq, AList.lookup_erase]
  · rw [if_neg (by simpa using hfreq), AList.lookup_erase_ne hfreq]

/-- The entries of `gates` are due, reached, and have a node under their
frequency. -/
def FromDue (p : Piano R) (ppq : R) (due : List (FreeEntry R))
    (gates : List (FreeEntry R × Val R)) : Prop :=
  ∀ g ∈ gates, g.1 ∈ due ∧ Reached p.voices ppq g.1 ∧
    p.voices.pianonodes.lookup g.1.freq ≠ none

/-- **The loop with the pedal up** closes gates, of due entries with a node
under their frequency, and of all those frequencies. -/
theorem freeDue_up (ppq : R) (due : List (FreeEntry R)) (p : Piano R)
    (hup : p.voices.PedalUp) :
    ∃ gates, Closes p (due.foldl (freeDue ppq) p) gates ∧ FromDue p ppq due gates ∧
      (∀ e ∈ due, Reached p.voices ppq e → p.voices.pianonodes.lookup e.freq ≠ none →
        e.freq ∈ gates.map fun g => g.1.freq) ∧
      ∀ node, (due.foldl (freeDue ppq) p).pedalqueue.lookup node =
        if node ∈ gates.map (fun g => g.1.node) then none else p.pedalqueue.lookup node := by
  induction due generalizing p with
  | nil => exact ⟨[], Closes.refl p, by simp [FromDue], by simp, by simp⟩
  | cons e due ih =>
    rw [List.foldl_cons]
    by_cases hclose : Reached p.voices ppq e ∧ (p.voices.pianonodes.lookup e.freq).isSome = true
    · obtain ⟨⟨ttf, httf, hle⟩, hsome⟩ := hclose
      have hstep : freeDue ppq p e =
          { p with
            voices :=
              { p.voices.emit (.sendBundle (gateOff e.node) (.num ttf)) with
                pianonodes := p.voices.pianonodes.erase e.freq }
            pedalqueue := p.pedalqueue.erase e.node } := by
        rw [freeDue_of_reached httf hle, freeNode, if_neg hup.not_down, if_pos hsome]
      have hone : Closes p (freeDue ppq p e) [(e, .num ttf)] := by
        rw [hstep]
        exact Closes.one ..
      have hup' : (freeDue ppq p e).voices.PedalUp := by
        unfold Voices.PedalUp
        rw [hone.frame.1]
        exact hup
      obtain ⟨gates, hcloses, hfrom, hall, hpq⟩ := ih (freeDue ppq p e) hup'
      refine ⟨(e, .num ttf) :: gates, hone.trans hcloses, ?_, ?_, ?_⟩
      · intro g hg
        rcases List.mem_cons.mp hg with rfl | hg
        · refine ⟨List.mem_cons_self .., ⟨ttf, httf, hle⟩, ?_⟩
          exact Option.isSome_iff_ne_none.mp hsome
        · obtain ⟨hdue, hreached, hnode⟩ := hfrom g hg
          refine ⟨List.mem_cons_of_mem _ hdue, reached_freeDue.mp hreached, fun hnone => hnode ?_⟩
          rw [hone.nodes, hnone, ite_self]
      · intro e' he' hreached hnode
        rcases List.mem_cons.mp he' with rfl | he'
        · exact List.mem_cons_self ..
        · by_cases hfreq : e'.freq = e.freq
          · rw [hfreq]
            exact List.mem_cons_self ..
          · refine List.mem_cons_of_mem _ (hall e' he' (reached_freeDue.mpr hreached) ?_)
            rw [hone.nodes, if_neg (by simpa using hfreq)]
            exact hnode
      · intro node
        rw [hpq node, hstep, List.map_cons]
        by_cases hin : node ∈ gates.map fun g => g.1.node
        · rw [if_pos hin, if_pos (List.mem_cons_of_mem _ hin)]
        · by_cases hnode : node = e.node
          · rw [if_neg hin, hnode, AList.lookup_erase, if_pos (List.mem_cons_self ..)]
          · rw [if_neg hin, AList.lookup_erase_ne hnode,
              if_neg (by simpa [hnode] using hin)]
    · rw [freeDue_up_skips hup hclose]
      obtain ⟨gates, hcloses, hfrom, hall, hpq⟩ := ih p hup
      refine ⟨gates, hcloses, ?_, ?_, hpq⟩
      · exact fun g hg => ⟨List.mem_cons_of_mem _ (hfrom g hg).1, (hfrom g hg).2⟩
      · intro e' he' hreached hnode
        rcases List.mem_cons.mp he' with rfl | he'
        · exact absurd ⟨hreached, Option.isSome_iff_ne_none.mpr hnode⟩ hclose
        · exact hall e' he' hreached hnode

/-- The pedal queue closes the gates of all its entries. -/
theorem doPedalQueue_spec (ppq : R) (p : Piano R) :
    Closes p (doPedalQueue ppq p) (p.pedalqueue.entries.map fun kv => (kv.2, .num ppq)) ∧
      (doPedalQueue ppq p).pedalqueue = ∅ ∧
      (doPedalQueue ppq p).voices.pianofreequeue = p.voices.pianofreequeue := by
  have hgen : ∀ (entries : List (Sigma fun _ : ℕ => FreeEntry R)) (v : Voices R),
      Closes { p with voices := v } { p with voices := entries.foldl (fun v entry =>
        { v.emit (.sendBundle (gateOff entry.2.node) (.num ppq)) with
          pianonodes := v.pianonodes.erase entry.2.freq }) v }
        (entries.map fun kv => (kv.2, .num ppq)) ∧
      (entries.foldl (fun v entry =>
        { v.emit (.sendBundle (gateOff entry.2.node) (.num ppq)) with
          pianonodes := v.pianonodes.erase entry.2.freq }) v).pianofreequeue =
        v.pianofreequeue := by
    intro entries
    induction entries with
    | nil => exact fun v => ⟨Closes.refl _, rfl⟩
    | cons kv entries ih =>
      intro v
      obtain ⟨hrest, hqueue⟩ := ih
        { v.emit (.sendBundle (gateOff kv.2.node) (.num ppq)) with
          pianonodes := v.pianonodes.erase kv.2.freq }
      exact ⟨(Closes.one { p with voices := v } kv.2 (.num ppq) p.pedalqueue).trans hrest, hqueue⟩
  obtain ⟨hcloses, hqueue⟩ := hgen p.pedalqueue.entries p.voices
  exact ⟨⟨hcloses.sent, hcloses.nodes, hcloses.frame⟩, rfl, hqueue⟩

/-- **The loop with the pedal down** sends nothing: due entries wait in the
pedal queue. -/
theorem freeDue_down (ppq : R) (due : List (FreeEntry R)) (p : Piano R)
    (hdown : truthy p.voices.pianopedal = true) :
    (due.foldl (freeDue ppq) p).voices = p.voices ∧
      (due.foldl (freeDue ppq) p).filters = p.filters ∧
      (∀ node e, (due.foldl (freeDue ppq) p).pedalqueue.lookup node = some e →
        p.pedalqueue.lookup node = some e ∨ (e ∈ due ∧ e.node = node)) ∧
      (∀ node ∈ p.pedalqueue, node ∈ (due.foldl (freeDue ppq) p).pedalqueue) ∧
      ∀ e ∈ due, Reached p.voices ppq e → e.node ∈ (due.foldl (freeDue ppq) p).pedalqueue := by
  induction due generalizing p with
  | nil => exact ⟨rfl, rfl, fun _ _ h => Or.inl h, fun _ h => h, by simp⟩
  | cons e due ih =>
    rw [List.foldl_cons]
    by_cases hreached : Reached p.voices ppq e
    · obtain ⟨ttf, httf, hle⟩ := hreached
      have hstep : freeDue ppq p e = { p with pedalqueue := p.pedalqueue.insert e.node e } := by
        rw [freeDue_of_reached httf hle, freeNode, if_pos hdown]
      obtain ⟨hv, hf, hfrom, hkeep, hall⟩ := ih (freeDue ppq p e) (by rw [hstep]; exact hdown)
      have hpv : (freeDue ppq p e).voices = p.voices := by rw [hstep]
      refine ⟨hv.trans hpv, hf.trans (by rw [hstep]), ?_, ?_, ?_⟩
      · intro node e' he'
        rcases hfrom node e' he' with hold | ⟨hdue, hnode⟩
        · rw [hstep] at hold
          by_cases hne : node = e.node
          · rw [hne, AList.lookup_insert] at hold
            rw [← Option.some.inj hold]
            exact Or.inr ⟨List.mem_cons_self .., hne.symm⟩
          · rw [AList.lookup_insert_ne hne] at hold
            exact Or.inl hold
        · exact Or.inr ⟨List.mem_cons_of_mem _ hdue, hnode⟩
      · intro node hnode
        refine hkeep node ?_
        rw [hstep]
        exact (AList.mem_insert _).mpr (Or.inr hnode)
      · intro e' he' hreached'
        rcases List.mem_cons.mp he' with rfl | he'
        · refine hkeep _ ?_
          rw [hstep]
          exact (AList.mem_insert _).mpr (Or.inl rfl)
        · refine hall e' he' ?_
          rw [hpv]
          exact hreached'
    · rw [freeDue_of_not_reached hreached]
      obtain ⟨hv, hf, hfrom, hkeep, hall⟩ := ih p hdown
      refine ⟨hv, hf, ?_, hkeep, ?_⟩
      · exact fun node e' he' =>
          (hfrom node e' he').imp id fun h => ⟨List.mem_cons_of_mem _ h.1, h.2⟩
      · intro e' he' hreached'
        rcases List.mem_cons.mp he' with rfl | he'
        · exact absurd hreached' hreached
        · exact hall e' he' hreached'

/-- What both kinds of frame leave alone, and what they leave in the queue. -/
structure Frame (ppq : R) (p p' : Piano R) : Prop where
  queue : ∀ e, e ∈ p'.voices.pianofreequeue ↔ e ∈ p.voices.pianofreequeue ∧ ¬ e.at ≤ ppq
  order : InOrder FreeEntry.at p'.voices.pianofreequeue
  dirty : p'.voices.freeQueueDirty = false
  frame : p'.voices.pianopedal = p.voices.pianopedal ∧
    p'.voices.nodetimetofree = p.voices.nodetimetofree ∧
    p'.voices.nextNode = p.voices.nextNode ∧ p'.filters = p.filters

/-- A frame with the pedal up: the gates it closes are of due entries and of
the pedal queue, and of all of these. -/
structure FrameUp (ppq : R) (p p' : Piano R) (gates : List (FreeEntry R × Val R)) : Prop
    extends Frame ppq p p' where
  sent : p'.voices.sent =
    p.voices.sent ++ gates.map fun g => .sendBundle (gateOff g.1.node) g.2
  nodes : ∀ freq, p'.voices.pianonodes.lookup freq =
    if freq ∈ gates.map (fun g => g.1.freq) then none else p.voices.pianonodes.lookup freq
  pedalqueue : p'.pedalqueue = ∅
  from_due : ∀ g ∈ gates,
    (g.1 ∈ p.voices.pianofreequeue ∧ g.1.at ≤ ppq ∧ Reached p.voices ppq g.1 ∧
      p.voices.pianonodes.lookup g.1.freq ≠ none) ∨
    ∃ node, p.pedalqueue.lookup node = some g.1
  due : ∀ e ∈ p.voices.pianofreequeue, e.at ≤ ppq → Reached p.voices ppq e →
    p.voices.pianonodes.lookup e.freq ≠ none → e.freq ∈ gates.map fun g => g.1.freq
  pedal : ∀ node e, p.pedalqueue.lookup node = some e →
    node ∈ gates.map (fun g => g.1.node) ∨ e ∈ gates.map Prod.fst

/-- A frame with the pedal down: due entries move to the pedal queue. -/
structure FrameDown (ppq : R) (p p' : Piano R) : Prop extends Frame ppq p p' where
  sent : p'.voices.sent = p.voices.sent
  nodes : p'.voices.pianonodes = p.voices.pianonodes
  from_due : ∀ node e, p'.pedalqueue.lookup node = some e →
    p.pedalqueue.lookup node = some e ∨ (e ∈ p.voices.pianofreequeue ∧ e.node = node)
  keeps : ∀ node ∈ p.pedalqueue, node ∈ p'.pedalqueue
  due : ∀ e ∈ p.voices.pianofreequeue, e.at ≤ ppq → Reached p.voices ppq e →
    e.node ∈ p'.pedalqueue

/-- The queue that the loop goes over: the entries of the player, in order. -/
theorem sortedQueue_spec {sort : List (FreeEntry R) → List (FreeEntry R)}
    (hsort : SortsBy (fun a b => decide (b.at > a.at)) sort) {v : Voices R}
    (horder : v.freeQueueDirty = false → InOrder FreeEntry.at v.pianofreequeue)
    (hnum : ∀ e ∈ v.pianofreequeue, e.IsNum) :
    ∃ queue, sortedQueue sort v = .ok queue ∧ queue.Perm v.pianofreequeue ∧
      InOrder FreeEntry.at queue := by
  unfold sortedQueue
  cases hdirty : v.freeQueueDirty with
  | false => exact ⟨_, rfl, List.Perm.refl _, horder hdirty⟩
  | true =>
    refine ⟨sort v.pianofreequeue, ?_, (hsort _).1, hsort.inOrder _⟩
    rw [if_pos rfl, luaAssert_true hnum]
    rfl

/-- The entries that a frame takes from the queue, and those that it leaves. -/
structure Splits (ppq : R) (p : Piano R) (due rest : List (FreeEntry R)) : Prop where
  mem_due : ∀ e, e ∈ due ↔ e ∈ p.voices.pianofreequeue ∧ e.at ≤ ppq
  mem_rest : ∀ e, e ∈ rest ↔ e ∈ p.voices.pianofreequeue ∧ ¬ e.at ≤ ppq
  order : InOrder FreeEntry.at rest

theorem splits_sorted {ppq : R} {p : Piano R} {queue : List (FreeEntry R)}
    (hperm : queue.Perm p.voices.pianofreequeue) (hin : InOrder FreeEntry.at queue) :
    Splits ppq p (queue.takeWhile fun e => decide (e.at ≤ ppq))
      (queue.dropWhile fun e => decide (e.at ≤ ppq)) where
  mem_due e := by
    rw [hin.takeWhile (early_le ppq), List.mem_filter, decide_eq_true_eq, hperm.mem_iff]
  mem_rest e := by
    rw [hin.dropWhile (early_le ppq), List.mem_filter, ← decide_not, decide_eq_true_eq,
      hperm.mem_iff]
  order := List.Pairwise.sublist (List.dropWhile_sublist _) hin

variable {ppq : R} {p p₁ : Piano R} {due rest : List (FreeEntry R)}

/-- The frame with the pedal up, from the loop and the pedal queue. -/
theorem frame_up (hsplits : Splits ppq p due rest) (hpedal : p.voices.PedalUp)
    (hp₁ : p₁ = due.foldl (freeDue ppq)
      { p with voices := { p.voices with freeQueueDirty := false } }) :
    p₁.voices.PedalUp ∧ ∃ gates, FrameUp ppq p (doPedalQueue ppq
      { p₁ with voices := { p₁.voices with pianofreequeue := rest } }) gates := by
  obtain ⟨gates, hcloses, hfrom, hall, hpq⟩ := freeDue_up ppq due
    { p with voices := { p.voices with freeQueueDirty := false } } hpedal
  rw [← hp₁] at hcloses hpq
  obtain ⟨hcloses₂, hempty, hleft⟩ := doPedalQueue_spec ppq
    { p₁ with voices := { p₁.voices with pianofreequeue := rest } }
  have hfreed : Closes { p with voices := { p.voices with freeQueueDirty := false } }
      { p₁ with voices := { p₁.voices with pianofreequeue := rest } } gates :=
    ⟨hcloses.sent, hcloses.nodes, hcloses.frame⟩
  have hboth := hfreed.trans hcloses₂
  refine ⟨?_, gates ++ p₁.pedalqueue.entries.map fun kv => (kv.2, .num ppq), ?_⟩
  · unfold Voices.PedalUp
    rw [hcloses.frame.1]
    exact hpedal
  exact {
    queue := by rw [hleft]; exact hsplits.mem_rest
    order := by rw [hleft]; exact hsplits.order
    dirty := hboth.frame.2.2.2.1
    frame := ⟨hboth.frame.1, hboth.frame.2.1, hboth.frame.2.2.1, hboth.frame.2.2.2.2⟩
    sent := hboth.sent
    nodes := hboth.nodes
    pedalqueue := hempty
    from_due := by
      intro g hg
      rcases List.mem_append.mp hg with hg | hg
      · obtain ⟨hin', hreached, hnode⟩ := hfrom g hg
        have hdue := (hsplits.mem_due _).mp hin'
        exact Or.inl ⟨hdue.1, hdue.2, hreached, hnode⟩
      · -- an entry that is still in the pedal queue was there before
        obtain ⟨kv, hkv, rfl⟩ := List.mem_map.mp hg
        have hlookup : p₁.pedalqueue.lookup kv.1 = some kv.2 := AList.mem_lookup_iff.mpr hkv
        rw [hpq] at hlookup
        split at hlookup
        · cases hlookup
        · exact Or.inr ⟨kv.1, hlookup⟩
    due := by
      intro e he hle hreached hnode
      rw [List.map_append]
      exact List.mem_append_left _ (hall e ((hsplits.mem_due e).mpr ⟨he, hle⟩) hreached hnode)
    pedal := by
      intro node e hlookup
      rw [List.map_append, List.map_append]
      by_cases hin' : node ∈ gates.map fun g => g.1.node
      · exact Or.inl (List.mem_append_left _ hin')
      · have hstill : p₁.pedalqueue.lookup node = some e := by
          rw [hpq, if_neg hin']
          exact hlookup
        refine Or.inr (List.mem_append_right _ (List.mem_map.mpr ⟨(e, .num ppq), ?_, rfl⟩))
        exact List.mem_map.mpr ⟨⟨node, e⟩, AList.mem_lookup_iff.mp hstill, rfl⟩ }

/-- The frame with the pedal down. -/
theorem frame_down (hsplits : Splits ppq p due rest) (hpedal : truthy p.voices.pianopedal = true)
    (hp₁ : p₁ = due.foldl (freeDue ppq)
      { p with voices := { p.voices with freeQueueDirty := false } }) :
    truthy p₁.voices.pianopedal = true ∧ FrameDown ppq p
      { p₁ with voices := { p₁.voices with pianofreequeue := rest } } := by
  obtain ⟨hvoices, hfilters, hfrom, hkeep, hall⟩ := freeDue_down ppq due
    { p with voices := { p.voices with freeQueueDirty := false } } hpedal
  rw [← hp₁] at hvoices hfilters hfrom hkeep hall
  refine ⟨by rw [hvoices]; exact hpedal, ?_⟩
  exact {
    queue := hsplits.mem_rest
    order := hsplits.order
    dirty := by rw [hvoices]
    frame := by
      rw [hvoices]
      exact ⟨rfl, rfl, rfl, hfilters⟩
    sent := by rw [hvoices]
    nodes := by rw [hvoices]
    from_due := fun node e he =>
      (hfrom node e he).imp id fun h => ⟨((hsplits.mem_due e).mp h.1).1, h.2⟩
    keeps := hkeep
    due := fun e he hle hreached => hall e ((hsplits.mem_due e).mpr ⟨he, hle⟩) hreached }

/-- **One call of `doFreeQueue`**, from a queue of numbers whose nodes all have
an end, in order unless it is marked dirty. -/
theorem doFreeQueue_spec {sort : List (FreeEntry R) → List (FreeEntry R)}
    (hsort : SortsBy (fun a b => decide (b.at > a.at)) sort) {p : Piano R} (ppq : R)
    (horder : p.voices.freeQueueDirty = false →
      InOrder FreeEntry.at p.voices.pianofreequeue)
    (hnum : ∀ e ∈ p.voices.pianofreequeue, e.IsNum)
    (httf : ∀ e ∈ p.voices.pianofreequeue, (p.voices.timeToFree e.node).isSome) :
    ∃ p', doFreeQueue sort ppq p = .ok p' ∧
      ((p.voices.PedalUp ∧ ∃ gates, FrameUp ppq p p' gates) ∨
        (truthy p.voices.pianopedal = true ∧ FrameDown ppq p p')) := by
  obtain ⟨queue, hqueue, hperm, hin⟩ := sortedQueue_spec hsort horder hnum
  have hsplits : Splits ppq p _ _ := splits_sorted hperm hin
  obtain ⟨p₁, hp₁, hdrain⟩ := drain_eq ppq queue
    { p with voices := { p.voices with freeQueueDirty := false } }
    (fun e he => hnum e (hperm.mem_iff.mp he)) (fun e he => httf e (hperm.mem_iff.mp he))
  unfold doFreeQueue
  rw [hqueue, ok_bind, hdrain, ok_bind]
  cases hpedal : truthy p.voices.pianopedal with
  | false =>
    obtain ⟨hup, gates, hframe⟩ := frame_up hsplits hpedal hp₁
    exact ⟨_, if_neg hup.not_down, Or.inl ⟨hpedal, gates, hframe⟩⟩
  | true =>
    obtain ⟨hdown, hframe⟩ := frame_down hsplits hpedal hp₁
    exact ⟨_, if_pos hdown, Or.inr ⟨rfl, hframe⟩⟩

end Queues

section Notes

variable [AddCommMonoid R] [LinearOrder R] [Mul R] [Div R] (sc : Script R) (self : Settings R)

/-- A voice is played. A new node registers its filter; its entry, with the
frequency, is then the last of the queue. -/
def play (lista : Event R) (beatTime : Val R) (beatLen : Option (Val R)) (p : Piano R) :
    LuaM (Piano R) := do
  let v ← playOneEvent sc self lista beatTime beatLen p.voices
  let filters := match v.pianofreequeue.getLast? with
    | some e => if p.voices.nextNode < v.nextNode then p.filters.insert e.node e.freq else p.filters
    | none => p.filters
  .ok { p with voices := v, filters := filters }

variable {sc self} {lista : Event R} {beatTime : Val R} {beatLen : Option (Val R)}

/-- What a note leaves behind once its node is chosen: its message, and the
entry for its end. -/
def strike (v : Voices R) (pedal : Option (Val R)) (nextNode : ℕ) (nodes : LuaTable (Val R) ℕ)
    (beatTime : Val R) (on : Message R) (e : FreeEntry R) : Voices R :=
  { v with
    nextNode := nextNode
    pianopedal := pedal
    pianonodes := nodes
    pianofreequeue := v.pianofreequeue ++ [e]
    nodetimetofree := v.nodetimetofree.insert e.node e.time
    freeQueueDirty := true
    sent := v.sent ++ [.sendMultiBundle beatTime [on], .setFreeQueue e.node e.time e.freq] }

omit [AddCommMonoid R] [LinearOrder R] [Mul R] [Div R] in
theorem setPedal_eq (lista : Event R) (v : Voices R) :
    ∃ pedal, setPedal lista v = { v with pianopedal := pedal } := by
  unfold setPedal
  split
  · exact ⟨_, rfl⟩
  · exact ⟨v.pianopedal, rfl⟩

/-- A voice that is played is a rest, which may move the pedal, or a note on
the node of its frequency, or a note on a new node. -/
theorem play_cases {p p' : Piano R} (h : play sc self lista beatTime beatLen p = .ok p') :
    (∃ pedal, p' = { p with voices := { p.voices with pianopedal := pedal } }) ∨
      ∃ (pedal : Option (Val R)) (on : Message R) (e : FreeEntry R),
        (p.voices.pianonodes.lookup e.freq = some e.node ∧
          p' = { p with
            voices := strike p.voices pedal p.voices.nextNode p.voices.pianonodes beatTime on e }) ∨
        (p.voices.pianonodes.lookup e.freq = none ∧ e.node = p.voices.nextNode ∧
          p' = { p with
            voices := strike p.voices pedal (p.voices.nextNode + 1)
              (p.voices.pianonodes.insert e.freq e.node) beatTime on e
            filters := p.filters.insert e.node e.freq }) := by
  unfold play at h
  obtain ⟨v, hv, h⟩ := bind_ok.mp h
  rw [Except.ok.injEq] at h
  unfold playOneEvent at hv
  obtain ⟨freq, -, hv⟩ := bind_ok.mp hv
  obtain ⟨beatLen', -, hv⟩ := bind_ok.mp hv
  dsimp only at hv
  generalize withFreq (evalFuncs sc _) freq = lista' at hv
  generalize luaOr _ self.inst = inst at hv
  obtain ⟨pedal, hpedal⟩ := setPedal_eq lista' p.voices
  rw [hpedal] at hv
  by_cases hr : IsREST freq = true ∨ IsNOP freq = true
  · rw [if_pos hr, Except.ok.injEq] at hv
    subst hv
    refine Or.inl ⟨pedal, ?_⟩
    rw [← h]
    -- a rest makes no node, so no filter is registered
    split
    · rw [if_neg (lt_irrefl _)]
    · rfl
  · rw [if_neg hr] at hv
    cases freq with
    | none => cases hv
    | some freq =>
      dsimp only at hv
      obtain ⟨-, -, hv⟩ := bind_ok.mp hv
      obtain ⟨time, -, hv⟩ := bind_ok.mp hv
      rw [Except.ok.injEq] at hv
      refine Or.inr ?_
      cases hnode : p.voices.pianonodes.lookup freq with
      | some node =>
        simp only [nodeFor, hnode] at hv
        subst hv
        refine ⟨pedal, withParams sc self (nSet node)
          (withoutMappers (setOrNil lista' "pianopedal" none)),
          { time := time, node := node, freq := freq }, Or.inl ⟨hnode, ?_⟩⟩
        rw [← h]
        simp [setFreeQueue, strike, Voices.emit]
      | none =>
        simp only [nodeFor, hnode, GetNode] at hv
        subst hv
        refine ⟨pedal, withParams sc self (sNew self inst p.voices.nextNode)
          (withoutMappers (setOrNil lista' "pianopedal" none)),
          { time := time, node := p.voices.nextNode, freq := freq }, Or.inr ⟨hnode, rfl, ?_⟩⟩
        rw [← h]
        simp [setFreeQueue, strike, Voices.emit]

end Notes

end OscPianoEventPlayer

end Lua2SC.Players
