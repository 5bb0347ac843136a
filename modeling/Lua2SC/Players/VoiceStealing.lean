import Lua2SC.Comm.OscFunc
import Lua2SC.Players.DeltaParams
import Lua2SC.Players.MonoNodes

/-!
# The voices of a player with `poly`

A player with `poly` has a queue of its nodes. `GetNode` puts a new node at its end and asks the
server to tell when the node is over; when the queue is longer than `poly`, the oldest node is
taken out of it and gets its gate-off. The node that is over leaves the queue, by the handler that
`OSCFunc` calls for the `/n_end` of the server. `FreeNode` frees the whole queue.

The messages of the server take their time, and nodes end when they like: here they are on their way
until they are received, in the order they were sent, and events, ends, receptions, resets and what
other parts of the program do with `/n_end` are in any order (`Step`). In every state that is reached
the player has no more than `poly` nodes on the server that it has not told to end, and the filters
it has in `OSCFunc` are those of its nodes whose end is not received, one for each (`poly_voices`).
-/

namespace Lua2SC.Players.Poly

open Lua2SC.Lua Lua2SC.Comm Lua2SC.IndexLoop

/-- The functions of the filters: that of `GetNode`, for its node, and those of others. -/
inductive Handler (G : Type) where
  | remove (node : ℕ)
  | other (g : G)
deriving DecidableEq, Repr

/-- A player, `OSCFunc.filters`, and the server: the nodes the player has made, the `/n_end` messages
so far, and how many of them are received. -/
structure Studio (R G : Type) where
  voices : Voices R
  filters : Registry (Handler G)
  created : List ℕ
  ends : List ℕ
  received : ℕ

variable {R G : Type}

/-- A node number in a message. -/
def nodeValue (node : ℕ) : LuaValue := .number (.finite node)

/-- `OSCFunc.newfilter("/n_end", node, func, runonce)` -/
def filterEnd (filters : Registry (Handler G)) (node : ℕ) (func : Handler G) (runonce : Bool) :
    Registry (Handler G) :=
  (newfilter filters (ascii "/n_end") (some (.value (nodeValue node))) func runonce none () :
    Registry (Handler G) × Request Unit).1

/-- The function of a filter is called: the first entry of the node is removed. -/
def Handler.run (queue : List ℕ) (h : Handler G) : List ℕ :=
  match h with
  | .remove node => queue.erase node
  | .other _ => queue

namespace Studio

variable (s : Studio R G)

/-- After an event of the player: `GetNode` has added a filter if it was called. -/
def played (v : Voices R) : Studio R G :=
  if s.voices.nextNode < v.nextNode then
    { s with
      voices := v
      filters := filterEnd s.filters s.voices.nextNode (.remove s.voices.nextNode) true
      created := s.created ++ [s.voices.nextNode] }
  else { s with voices := v }

/-- Another part of the program makes a node and waits for its end. -/
def other (g : G) (runonce : Bool) : Studio R G :=
  { s with
    voices := { s.voices with nextNode := s.voices.nextNode + 1 }
    filters := filterEnd s.filters s.voices.nextNode (.other g) runonce }

/-- `/n_end` with the node first. -/
def receive (node : ℕ) (info : List LuaValue) : Studio R G :=
  let r := handleOSCReceive s.filters ⟨ascii "/n_end", nodeValue node :: info⟩
  { s with
    voices := { s.voices with NodeQueue := r.1.foldl Handler.run s.voices.NodeQueue }
    filters := r.2
    received := s.received + 1 }

/-- The ends that are received. -/
def handled : List ℕ := s.ends.take s.received

end Studio

section Free

variable [AddCommMonoid R]

/-- `{"/n_free",{node}}` -/
def nFree (node : ℕ) : Message R := { path := ascii "/n_free", args := [.node node] }

/-- `FreeNode` of an `OscEventPlayer`. -/
def OscEventPlayer.FreeNode (self : Settings R) (time : Val R) (v : Voices R) : Voices R :=
  match self.poly with
  | some _ =>
    { v with
      NodeQueue := []
      sent := v.sent ++ v.NodeQueue.map fun node => .sendBundle (nFree node) time }
  | none => scEventPlayer.FreeNode time v

end Free

/-- The player has not played; the filters are those of other nodes. -/
structure Start (s : Studio R G) : Prop where
  queue : s.voices.NodeQueue = []
  created : s.created = []
  ends : s.ends = []
  received : s.received = 0
  filters : ∀ f ∈ filtersOf s.filters (ascii "/n_end"), ∃ node g, node < s.voices.nextNode ∧
    f.template = .value (nodeValue node) ∧ f.func = .other g

section Model

variable [AddCommMonoid R] [LinearOrder R] [Mul R] [Div R] [NatCast R]

variable (sc : Script R) (self : Settings R)

/-- What can happen. -/
inductive Step (s : Studio R G) : Studio R G → Prop
  | event {pulling lista beatTime beatLen delta v}
    (h : OscEventPlayer.playOneEvent sc self pulling lista beatTime beatLen delta s.voices = .ok v) :
    Step s (s.played v)
  /-- `Reset`, up to what it does with groups. -/
  | reset (time : Val R) : Step s
    { s with voices := OscEventPlayer.FreeNode self time (scEventPlayer.Release time s.voices) }
  | other (g : G) (runonce : Bool) : Step s (s.other g runonce)
  /-- A node ends on the server, once. -/
  | ended {node : ℕ} (hnode : node < s.voices.nextNode) (hends : node ∉ s.ends) :
    Step s { s with ends := s.ends ++ [node] }
  | receive {node : ℕ} (info : List LuaValue) (h : s.ends[s.received]? = some node) :
    Step s (s.receive node info)

/-- Steps one after another. -/
abbrev Run : Studio R G → Studio R G → Prop := Relation.ReflTransGen (Step sc self)

end Model

/-- The player has told the server to end or free the node. -/
def Told [AddCommMonoid R] (v : Voices R) (node : ℕ) : Prop :=
  ∃ msg time, Out.sendBundle msg time ∈ v.sent ∧ (msg = gateOff node ∨ msg = nFree node)

/-! ## One event -/

section Event

variable [AddCommMonoid R] {self : Settings R}

/-- An event makes a node with `GetNode`, or none. -/
inductive Changed (self : Settings R) (beatTime : Val R) (v v' : Voices R) : Prop
  | same (hnext : v'.nextNode = v.nextNode) (hqueue : v'.NodeQueue = v.NodeQueue)
    (hsent : v.sent <+: v'.sent)
  | node (hnext : v'.nextNode = v.nextNode + 1)
    (hqueue : v'.NodeQueue = (OscEventPlayer.GetNode self beatTime v).2.NodeQueue)
    (hsent : (OscEventPlayer.GetNode self beatTime v).2.sent <+: v'.sent)

theorem nextNode_getNode (beatTime : Val R) (v : Voices R) :
    (OscEventPlayer.GetNode self beatTime v).2.nextNode = v.nextNode + 1 := by
  unfold OscEventPlayer.GetNode GetNode
  dsimp only
  split
  · rfl
  · split
    · split <;> rfl
    · rfl

theorem changed_release (time : Val R) (v : Voices R) :
    Changed self time v (scEventPlayer.Release time v) := by
  unfold scEventPlayer.Release
  split
  · exact .same rfl rfl List.prefix_rfl
  · exact .same rfl rfl (List.prefix_append _ _)

/-- What a note emits once it has its node. -/
theorem Changed.emit {beatTime : Val R} {v v₁ v' : Voices R} (h : Changed self beatTime v v₁)
    (hnext : v'.nextNode = v₁.nextNode) (hqueue : v'.NodeQueue = v₁.NodeQueue)
    (hsent : v₁.sent <+: v'.sent) : Changed self beatTime v v' := by
  cases h with
  | same hn hq hs => exact .same (hnext.trans hn) (hqueue.trans hq) (hs.trans hsent)
  | node hn hq hs => exact .node (hnext.trans hn) (hqueue.trans hq) (hs.trans hsent)

end Event

section Notes

variable [Field R] [LinearOrder R] {sc : Script R} {self : Settings R}

theorem playNote_changed {inst : Val R} {lista : Event R} {beatTime : Val R}
    {beatLen delta : Option (Val R)} {v v' : Voices R}
    (h : playNote sc self inst lista beatTime beatLen delta v = .ok v') :
    Changed self beatTime v v' := by
  unfold playNote at h
  dsimp only at h
  -- the end of the note, for a node that is kept or new
  have hend : ∀ {node : ℕ} {out : Out R} {dontfree : Option Bool} {v₁ : Voices R},
      Changed self beatTime v v₁ → (if dontfree = some false then do
        let offTime ← arith sc .add (some beatTime) beatLen
        .ok { (v₁.emit out).emit (.scheduleOscEvent (gateOff node) offTime) with
          havenode := false }
        else .ok (v₁.emit out) : LuaM (Voices R)) = .ok v' → Changed self beatTime v v' := by
    intro node out dontfree v₁ hchanged hv'
    split at hv'
    · obtain ⟨offTime, -, hv'⟩ := bind_ok.mp hv'
      cases hv'
      exact hchanged.emit rfl rfl (by simp)
    · cases hv'
      exact hchanged.emit rfl rfl (by simp)
  have hnew : Changed self beatTime v { (OscEventPlayer.GetNode self beatTime v).2 with
      node := some (OscEventPlayer.GetNode self beatTime v).1, havenode := true } :=
    .node (nextNode_getNode beatTime v) rfl List.prefix_rfl
  have hkeep : Changed self beatTime v v := .same rfl rfl List.prefix_rfl
  generalize (decide (field lista "type" = some (.str (ascii "n_set"))) ||
    (self.mono && v.havenode)) = isSet at h
  -- whether the note is short decides on its gate-off only
  split at h
  all_goals
    obtain ⟨dontfree, -, h⟩ := bind_ok.mp h
    cases isSet with
    | false => exact hend hnew h
    | true =>
      cases hn : v.node with
      | none =>
        rw [hn] at h
        exact hend hnew h
      | some node =>
        rw [hn] at h
        exact hend hkeep h

theorem playOneEvent_changed {pulling : Bool} {lista : Event R} {beatTime : Val R}
    {beatLen delta : Option (Val R)} {v v' : Voices R}
    (h : OscEventPlayer.playOneEvent sc self pulling lista beatTime beatLen delta v = .ok v') :
    Changed self beatTime v v' := by
  unfold OscEventPlayer.playOneEvent at h
  dsimp only at h
  generalize evalFuncs sc _ = lista₁ at h
  split at h
  · cases h
    exact .same rfl rfl List.prefix_rfl
  obtain ⟨freq, -, h⟩ := bind_ok.mp h
  obtain ⟨len, -, h⟩ := bind_ok.mp h
  split at h
  · cases h
    exact changed_release beatTime v
  split at h
  · cases h
    exact .same rfl rfl List.prefix_rfl
  have hnote : ∀ {lista₂}, playNote sc self (luaOr (field lista₁ "inst") self.inst) lista₂
      beatTime len delta v = .ok v' → Changed self beatTime v v' := playNote_changed
  unfold playNote at hnote
  cases hmono : self.mono with
  | false =>
    rw [hmono] at h hnote
    split at h
    · obtain ⟨detuned, -, h⟩ := bind_ok.mp h
      exact hnote h
    · exact hnote h
  | true =>
    rw [hmono] at h hnote
    split at h
    · obtain ⟨detuned, -, h⟩ := bind_ok.mp h
      exact hnote h
    · exact hnote h

end Notes

/-! ## The filters -/

section Filters

/-- The node of a filter of the player. -/
def ownNode (f : Comm.Filter (Handler G)) : Option ℕ :=
  match f.func with
  | .remove node => some node
  | .other _ => none

theorem checkTemplate_node (node m : ℕ) (info : List LuaValue) :
    CheckTemplate (nodeValue node :: info) (.value (nodeValue m)) = true ↔ node = m := by
  have hno : ¬ (Template.value (nodeValue m) = .value (.bool false) ∨
      Template.value (nodeValue m) = .ALL) := by
    simp [Template.ALL, nodeValue]
  unfold CheckTemplate
  rw [if_neg hno]
  show (some (nodeValue node) == some (nodeValue m)) = true ↔ _
  rw [beq_iff_eq]
  simp [nodeValue]

/-- A filter of the player is for one of its nodes, another one for none of them. -/
def Shaped (created : List ℕ) (nextNode : ℕ) (f : Comm.Filter (Handler G)) : Prop :=
  (∃ m ∈ created, f = ⟨.value (nodeValue m), .remove m, true⟩) ∨
  ∃ m g, m ∉ created ∧ m < nextNode ∧ f.template = .value (nodeValue m) ∧ f.func = .other g

variable {created : List ℕ} {nextNode node : ℕ}

/-- A removing walk leaves what it does not remove. -/
theorem filterMap_remaining {α β : Type} (rm : α → Bool) (g : α → Option β) (l : List α)
    (h : ∀ x ∈ l, g x ≠ none → rm x = false) : (remaining rm l).filterMap g = l.filterMap g := by
  induction l using remaining.induct rm with
  | case1 => rfl
  | case2 x hx =>
    have hg : g x = none := by
      by_contra hne
      exact absurd (h x (List.mem_singleton_self x) hne) (by simp [hx])
    rw [remaining, if_pos hx, List.filterMap_cons_none hg]
  | case3 x hx => rw [remaining, if_neg hx]
  | case4 x y l hx ih =>
    have hg : g x = none := by
      by_contra hne
      exact absurd (h x List.mem_cons_self hne) (by simp [hx])
    rw [remaining, if_pos hx, List.filterMap_cons_none hg, List.filterMap_cons, List.filterMap_cons,
      ih fun z hz => h z (List.mem_cons_of_mem _ (List.mem_cons_of_mem _ hz))]
  | case5 x y l hx ih =>
    rw [remaining, if_neg hx, List.filterMap_cons, List.filterMap_cons (l := y :: l),
      ih fun z hz => h z (List.mem_cons_of_mem _ hz)]

theorem foldl_run_other {queue : List ℕ} : ∀ l : List (Handler G), (∀ h ∈ l, ∃ g, h = .other g) →
    l.foldl Handler.run queue = queue
  | [], _ => rfl
  | h :: l, hl => by
    obtain ⟨g, rfl⟩ := hl h List.mem_cons_self
    exact foldl_run_other l fun h' hh' => hl h' (List.mem_cons_of_mem _ hh')

/-- The end of a node of others does not concern the filters of the player. -/
theorem receive_other {filters : Registry (Handler G)} (info : List LuaValue)
    (hshape : ∀ f ∈ filtersOf filters (ascii "/n_end"), Shaped created nextNode f)
    (hnode : node ∉ created) :
    let r := handleOSCReceive filters ⟨ascii "/n_end", nodeValue node :: info⟩
    (filtersOf r.2 (ascii "/n_end")).filterMap ownNode =
      (filtersOf filters (ascii "/n_end")).filterMap ownNode ∧
    ∀ h ∈ r.1, ∃ g, h = .other g := by
  have hown : ∀ f ∈ filtersOf filters (ascii "/n_end"), ownNode f ≠ none →
      CheckTemplate (nodeValue node :: info) f.template = false := by
    intro f hf hne
    obtain ⟨m, hm, rfl⟩ | ⟨m, g, _, _, _, hg⟩ := hshape f hf
    · rw [Bool.eq_false_iff]
      intro hcheck
      exact hnode ((checkTemplate_node node m info).mp hcheck ▸ hm)
    · unfold ownNode at hne
      rw [hg] at hne
      exact absurd rfl hne
  unfold handleOSCReceive
  unfold filtersOf at hown ⊢
  cases hl : filters.lookup (ascii "/n_end") with
  | none =>
    dsimp only
    rw [hl]
    exact ⟨rfl, fun h hh => by cases hh⟩
  | some l =>
    rw [hl] at hown
    dsimp only
    rw [AList.lookup_insert, walk_eq]
    refine ⟨filterMap_remaining _ _ l fun f hf hne => ?_, fun h hh => ?_⟩
    · rw [hown f hf hne]
      rfl
    · obtain ⟨f, hf, rfl⟩ := List.mem_map.mp hh
      obtain ⟨hvisited, hcheck⟩ := List.mem_filter.mp hf
      have hfl := (visited_sublist _ l).subset hvisited
      cases hfunc : f.func with
      | other g => exact ⟨g, rfl⟩
      | remove m =>
        have hne : ownNode f ≠ none := by
          unfold ownNode
          rw [hfunc]
          exact Option.some_ne_none m
        rw [hown f hfl hne] at hcheck
        cases hcheck

/-- The end of a node of the player takes its filter, and calls its function only. -/
theorem receive_own {filters : Registry (Handler G)} (info : List LuaValue)
    (hshape : ∀ f ∈ filtersOf filters (ascii "/n_end"), Shaped created nextNode f)
    (hnodup : ((filtersOf filters (ascii "/n_end")).filterMap ownNode).Nodup)
    (hnode : node ∈ (filtersOf filters (ascii "/n_end")).filterMap ownNode) :
    let r := handleOSCReceive filters ⟨ascii "/n_end", nodeValue node :: info⟩
    (filtersOf r.2 (ascii "/n_end")).filterMap ownNode =
      ((filtersOf filters (ascii "/n_end")).filterMap ownNode).erase node ∧
    r.1 = [.remove node] := by
  obtain ⟨f, hf, hfnode⟩ := List.mem_filterMap.mp hnode
  -- the filters that match are those of the node, which is one of the player's
  have hown : ∀ f ∈ filtersOf filters (ascii "/n_end"), ownNode f = some node →
      f = ⟨.value (nodeValue node), .remove node, true⟩ ∧ node ∈ created := by
    intro f hf hfnode
    obtain ⟨m, hm, rfl⟩ | ⟨m, g, _, _, _, hg⟩ := hshape f hf
    · cases hfnode
      exact ⟨rfl, hm⟩
    · unfold ownNode at hfnode
      rw [hg] at hfnode
      cases hfnode
  have hmatch : ∀ f ∈ filtersOf filters (ascii "/n_end"),
      CheckTemplate (nodeValue node :: info) f.template = true → ownNode f = some node := by
    intro f' hf' hcheck
    obtain ⟨m, hm, rfl⟩ | ⟨m, g, hm, _, ht, _⟩ := hshape f' hf'
    · rw [(checkTemplate_node node m info).mp hcheck]
      rfl
    · rw [ht, checkTemplate_node] at hcheck
      exact absurd (hcheck ▸ (hown f hf hfnode).2) hm
  have hspaced : Spaced (nodeValue node :: info) (filtersOf filters (ascii "/n_end")) := by
    refine List.Pairwise.isChain ?_
    refine (List.pairwise_filterMap.mp hnodup).imp_of_mem fun {x y} hx hy hne hrm => ?_
    rw [Bool.eq_false_iff]
    intro hcheck
    exact hne node (hmatch x hx (Bool.and_eq_true_iff.mp hrm).1) node (hmatch y hy hcheck) rfl
  obtain ⟨hcalls, hleft⟩ := (handleOSCReceive_iff filters ⟨ascii "/n_end", _⟩).mpr hspaced
  dsimp only at hcalls hleft ⊢
  rw [hcalls, hleft]
  -- the one that matches, and those around it
  obtain ⟨l₁, l₂, hl⟩ := List.append_of_mem hf
  obtain ⟨rfl, -⟩ := hown f hf hfnode
  rw [hl] at hnodup hmatch ⊢
  have hsplit : ((l₁ ++ ⟨.value (nodeValue node), .remove node, true⟩ :: l₂).filterMap ownNode) =
      l₁.filterMap ownNode ++ node :: l₂.filterMap ownNode := by
    rw [List.filterMap_append, List.filterMap_cons]
    rfl
  rw [hsplit] at hnodup ⊢
  have hout := List.nodup_middle.mp hnodup
  have hnot := (List.nodup_cons.mp hout).1
  rw [← List.filterMap_append] at hnot
  have hfalse : ∀ f' ∈ l₁ ++ l₂, CheckTemplate (nodeValue node :: info) f'.template = false := by
    intro f' hf'
    rw [Bool.eq_false_iff]
    intro hcheck
    refine hnot (List.mem_filterMap.mpr ⟨f', hf', hmatch f' ?_ hcheck⟩)
    exact (List.perm_middle.symm.subset (List.mem_cons_of_mem _ hf'))
  have hmatched : ∀ l ⊆ l₁ ++ l₂,
      l.filter (fun f => CheckTemplate (nodeValue node :: info) f.template) = [] := by
    intro l hl'
    refine List.filter_eq_nil_iff.mpr fun f' hf' => ?_
    rw [hfalse f' (hl' hf')]
    exact Bool.false_ne_true
  have hkept : ∀ l ⊆ l₁ ++ l₂, l.filter
      (fun f => !(CheckTemplate (nodeValue node :: info) f.template && f.runonce)) = l := by
    intro l hl'
    refine List.filter_eq_self.mpr fun f' hf' => ?_
    rw [hfalse f' (hl' hf')]
    rfl
  have hself := (checkTemplate_node node node info).mpr rfl
  have hleft₁ := List.subset_append_left l₁ l₂
  have hleft₂ := List.subset_append_right l₁ l₂
  constructor
  · rw [List.filter_append, List.filter_cons_of_neg (by simp [hself]), hkept l₁ hleft₁,
      hkept l₂ hleft₂, List.filterMap_append]
    rw [List.filterMap_append] at hnot
    rw [List.erase_append_right _ fun hmem => hnot (List.mem_append_left _ hmem),
      List.erase_cons_head]
  · rw [List.filter_append, List.filter_cons_of_pos (by simpa using hself), hmatched l₁ hleft₁,
      hmatched l₂ hleft₂]
    rfl

end Filters

/-! ## The invariant -/

theorem handled_subset (s : Studio R G) : s.handled ⊆ s.ends := List.take_subset _ _

theorem filtersOf_filterEnd (filters : Registry (Handler G)) (node : ℕ) (func : Handler G)
    (runonce : Bool) : filtersOf (filterEnd filters node func runonce) (ascii "/n_end") =
      filtersOf filters (ascii "/n_end") ++ [⟨.value (nodeValue node), func, runonce⟩] := by
  show ((AList.insert _ _ filters).lookup _).getD [] = _
  rw [AList.lookup_insert]
  rfl

/-- What others put into the registry, or the player for its new node. -/
theorem Shaped.mono {created : List ℕ} {nextNode node : ℕ} {f : Comm.Filter (Handler G)}
    (h : Shaped created nextNode f) (hnode : nextNode ≤ node) :
    Shaped created (nextNode + 1) f ∧ Shaped (created ++ [node]) (nextNode + 1) f := by
  obtain ⟨m, hm, rfl⟩ | ⟨m, g, hm, hlt, ht, hg⟩ := h
  · exact ⟨.inl ⟨m, hm, rfl⟩, .inl ⟨m, List.mem_append_left _ hm, rfl⟩⟩
  · refine ⟨.inr ⟨m, g, hm, by omega, ht, hg⟩, .inr ⟨m, g, fun hmem => ?_, by omega, ht, hg⟩⟩
    rcases List.mem_append.mp hmem with hmem | hmem
    · exact hm hmem
    · have := List.mem_singleton.mp hmem
      omega

section Invariant

variable [AddCommMonoid R]

/-- The queue has the nodes whose end is not received, but for those that are told to end; the
filters of the player are for these nodes, one for each. -/
structure Inv (poly : ℕ) (s : Studio R G) : Prop where
  bound : s.voices.NodeQueue.length ≤ poly
  sorted : s.voices.NodeQueue.Pairwise (· < ·)
  queued : ∀ n ∈ s.voices.NodeQueue, n ∈ s.created ∧ n ∉ s.handled
  left : ∀ n ∈ s.created, n ∉ s.handled → n ∈ s.voices.NodeQueue ∨ Told s.voices n
  created_nodup : s.created.Nodup
  created_lt : ∀ n ∈ s.created, n < s.voices.nextNode
  ends_nodup : s.ends.Nodup
  ends_lt : ∀ n ∈ s.ends, n < s.voices.nextNode
  received_le : s.received ≤ s.ends.length
  filters : (filtersOf s.filters (ascii "/n_end")).filterMap ownNode =
    s.created.filter fun n => n ∉ s.handled
  shape : ∀ f ∈ filtersOf s.filters (ascii "/n_end"), Shaped s.created s.voices.nextNode f

theorem Told.mono {v v' : Voices R} (hsent : v.sent <+: v'.sent) {n : ℕ} (h : Told v n) :
    Told v' n := by
  obtain ⟨msg, time, hmem, hmsg⟩ := h
  exact ⟨msg, time, hsent.subset hmem, hmsg⟩

/-- `GetNode` with `poly`: the new node, and the one that is too many. -/
theorem getNode_poly {self : Settings R} {poly : ℕ} (hpoly : self.poly = some poly)
    (beatTime : Val R) (v : Voices R) :
    (∃ out rest, v.NodeQueue ++ [v.nextNode] = out :: rest ∧
      (OscEventPlayer.GetNode self beatTime v).2.NodeQueue = rest ∧
      (OscEventPlayer.GetNode self beatTime v).2.sent =
        v.sent ++ [.sendBundle (gateOff out) beatTime]) ∨
    (v.NodeQueue.length + 1 ≤ poly ∧
      (OscEventPlayer.GetNode self beatTime v).2.NodeQueue = v.NodeQueue ++ [v.nextNode] ∧
      (OscEventPlayer.GetNode self beatTime v).2.sent = v.sent) := by
  unfold OscEventPlayer.GetNode GetNode
  rw [hpoly]
  dsimp only
  have hlen : (v.NodeQueue ++ [v.nextNode]).length = v.NodeQueue.length + 1 := List.length_append
  cases hq : v.NodeQueue ++ [v.nextNode] with
  | nil =>
    rw [hq] at hlen
    cases hlen
  | cons out rest =>
    rw [hq] at hlen
    dsimp only
    split
    · exact .inl ⟨out, rest, rfl, rfl, rfl⟩
    · refine .inr ⟨by omega, rfl, rfl⟩

variable {self : Settings R} {poly : ℕ} {s : Studio R G}

theorem Inv.lt_nextNode (hinv : Inv poly s) {n : ℕ} (h : n ∈ s.handled) :
    n < s.voices.nextNode :=
  hinv.ends_lt n (handled_subset s h)

/-- A step of the player that makes no node and keeps the queue. -/
theorem inv_same (hinv : Inv poly s) {v : Voices R} (hnext : v.nextNode = s.voices.nextNode)
    (hqueue : v.NodeQueue = s.voices.NodeQueue) (hsent : s.voices.sent <+: v.sent) :
    Inv poly { s with voices := v } where
  bound := hqueue ▸ hinv.bound
  sorted := hqueue ▸ hinv.sorted
  queued := hqueue ▸ hinv.queued
  left n hn hnot := by
    rcases hinv.left n hn hnot with hmem | htold
    · exact .inl (hqueue ▸ hmem)
    · exact .inr (htold.mono hsent)
  created_nodup := hinv.created_nodup
  created_lt := hnext ▸ hinv.created_lt
  ends_nodup := hinv.ends_nodup
  ends_lt := hnext ▸ hinv.ends_lt
  received_le := hinv.received_le
  filters := hinv.filters
  shape := hnext ▸ hinv.shape

/-- A step that makes a node, with the queue and the messages of `GetNode`. -/
theorem inv_node (hpoly : self.poly = some poly) (hinv : Inv poly s) {beatTime : Val R}
    {v : Voices R} (hnext : v.nextNode = s.voices.nextNode + 1)
    (hqueue : v.NodeQueue = (OscEventPlayer.GetNode self beatTime s.voices).2.NodeQueue)
    (hsent : (OscEventPlayer.GetNode self beatTime s.voices).2.sent <+: v.sent) :
    Inv poly { s with
      voices := v
      filters := filterEnd s.filters s.voices.nextNode (.remove s.voices.nextNode) true
      created := s.created ++ [s.voices.nextNode] } := by
  have hnew : s.voices.nextNode ∉ s.handled := fun h => lt_irrefl _ (hinv.lt_nextNode h)
  have hnot : s.voices.nextNode ∉ s.created := fun h => lt_irrefl _ (hinv.created_lt _ h)
  -- the longer queue, before the oldest node leaves it
  have hsorted : (s.voices.NodeQueue ++ [s.voices.nextNode]).Pairwise (· < ·) := by
    rw [List.pairwise_append]
    refine ⟨hinv.sorted, List.pairwise_singleton _ _, fun n hn m hm => ?_⟩
    rw [List.mem_singleton.mp hm]
    exact hinv.created_lt n (hinv.queued n hn).1
  have hqueued : ∀ n ∈ s.voices.NodeQueue ++ [s.voices.nextNode],
      n ∈ s.created ++ [s.voices.nextNode] ∧ n ∉ s.handled := by
    intro n hn
    rcases List.mem_append.mp hn with hn | hn
    · exact ⟨List.mem_append_left _ (hinv.queued n hn).1, (hinv.queued n hn).2⟩
    · rw [List.mem_singleton.mp hn]
      exact ⟨List.mem_append_right _ (List.mem_singleton_self _), hnew⟩
  have hleft : ∀ n ∈ s.created ++ [s.voices.nextNode], n ∉ s.handled →
      n ∈ s.voices.NodeQueue ++ [s.voices.nextNode] ∨ Told s.voices n := by
    intro n hn hnh
    rcases List.mem_append.mp hn with hn | hn
    · exact (hinv.left n hn hnh).imp_left (List.mem_append_left _)
    · exact .inl (List.mem_append_right _ hn)
  have hrest : v.NodeQueue.length ≤ poly ∧ v.NodeQueue.Pairwise (· < ·) ∧
      (∀ n ∈ v.NodeQueue, n ∈ s.created ++ [s.voices.nextNode] ∧ n ∉ s.handled) ∧
      ∀ n ∈ s.created ++ [s.voices.nextNode], n ∉ s.handled → n ∈ v.NodeQueue ∨ Told v n := by
    obtain ⟨out, rest, hq, hrest, hout⟩ | ⟨hlen, hrest, hout⟩ :=
      getNode_poly hpoly beatTime s.voices
    · rw [hrest] at hqueue
      rw [hout] at hsent
      rw [hq] at hsorted hqueued hleft
      have hlen := congrArg List.length hq
      rw [List.length_append, List.length_singleton, List.length_cons] at hlen
      have hbound := hinv.bound
      rw [hqueue]
      refine ⟨by omega, hsorted.of_cons, fun n hn => hqueued n (List.mem_cons_of_mem _ hn),
        fun n hn hnh => ?_⟩
      rcases hleft n hn hnh with hmem | htold
      · rcases List.mem_cons.mp hmem with rfl | hmem
        · exact .inr ⟨_, beatTime, hsent.subset (List.mem_append_right _
            (List.mem_singleton_self _)), .inl rfl⟩
        · exact .inl hmem
      · exact .inr (htold.mono ((List.prefix_append _ _).trans hsent))
    · rw [hrest] at hqueue
      rw [hout] at hsent
      rw [hqueue]
      refine ⟨?_, hsorted, hqueued, fun n hn hnh => (hleft n hn hnh).imp_right fun h =>
        h.mono hsent⟩
      rwa [List.length_append, List.length_singleton]
  refine ⟨hrest.1, hrest.2.1, hrest.2.2.1, hrest.2.2.2, ?_, ?_, hinv.ends_nodup, ?_,
    hinv.received_le, ?_, ?_⟩
  · rw [List.nodup_append]
    refine ⟨hinv.created_nodup, List.nodup_singleton _, fun a ha b hb hab => ?_⟩
    rw [hab, List.mem_singleton.mp hb] at ha
    exact hnot ha
  · intro n hn
    rw [hnext]
    rcases List.mem_append.mp hn with hn | hn
    · exact (hinv.created_lt n hn).trans (Nat.lt_succ_self _)
    · rw [List.mem_singleton.mp hn]
      exact Nat.lt_succ_self _
  · intro n hn
    rw [hnext]
    exact (hinv.ends_lt n hn).trans (Nat.lt_succ_self _)
  · show (filtersOf (filterEnd _ _ _ _) _).filterMap ownNode = _
    rw [filtersOf_filterEnd, List.filterMap_append, hinv.filters, List.filter_append]
    congr 1
    exact (List.filter_eq_self.mpr fun n hn => decide_eq_true
      (by rw [List.mem_singleton.mp hn]; exact hnew)).symm
  · intro f hf
    rw [filtersOf_filterEnd] at hf
    rw [hnext]
    rcases List.mem_append.mp hf with hf | hf
    · exact ((hinv.shape f hf).mono (le_refl _)).2
    · rw [List.mem_singleton.mp hf]
      exact .inl ⟨_, List.mem_append_right _ (List.mem_singleton_self _), rfl⟩

theorem inv_event (hpoly : self.poly = some poly) (hinv : Inv poly s) {beatTime : Val R}
    {v : Voices R} (h : Changed self beatTime s.voices v) : Inv poly (s.played v) := by
  unfold Studio.played
  cases h with
  | same hnext hqueue hsent =>
    rw [if_neg (by omega)]
    exact inv_same hinv hnext hqueue hsent
  | node hnext hqueue hsent =>
    rw [if_pos (by omega)]
    exact inv_node hpoly hinv hnext hqueue hsent

/-- All nodes of the queue are freed. -/
theorem inv_reset (hpoly : self.poly = some poly) (hinv : Inv poly s) (time : Val R) : Inv poly
    { s with voices := OscEventPlayer.FreeNode self time (scEventPlayer.Release time s.voices) } := by
  have hrelease : (scEventPlayer.Release time s.voices).nextNode = s.voices.nextNode ∧
      (scEventPlayer.Release time s.voices).NodeQueue = s.voices.NodeQueue ∧
      s.voices.sent <+: (scEventPlayer.Release time s.voices).sent := by
    unfold scEventPlayer.Release
    split
    · exact ⟨rfl, rfl, List.prefix_rfl⟩
    · exact ⟨rfl, rfl, List.prefix_append _ _⟩
  obtain ⟨hnext, hqueue, hsent⟩ := hrelease
  generalize scEventPlayer.Release time s.voices = v at hnext hqueue hsent ⊢
  unfold OscEventPlayer.FreeNode
  rw [hpoly]
  refine ⟨Nat.zero_le _, List.Pairwise.nil, fun n hn => (by cases hn), fun n hn hnot => .inr ?_,
    hinv.created_nodup, hnext ▸ hinv.created_lt, hinv.ends_nodup, hnext ▸ hinv.ends_lt,
    hinv.received_le, hinv.filters, hnext ▸ hinv.shape⟩
  rcases hinv.left n hn hnot with hmem | htold
  · refine ⟨nFree n, time, List.mem_append_right _ ?_, .inr rfl⟩
    rw [← hqueue] at hmem
    exact List.mem_map_of_mem hmem
  · exact htold.mono (hsent.trans (List.prefix_append _ _))

theorem inv_other (hinv : Inv poly s) (g : G) (runonce : Bool) : Inv poly (s.other g runonce) where
  bound := hinv.bound
  sorted := hinv.sorted
  queued := hinv.queued
  left := hinv.left
  created_nodup := hinv.created_nodup
  created_lt n hn := (hinv.created_lt n hn).trans (Nat.lt_succ_self _)
  ends_nodup := hinv.ends_nodup
  ends_lt n hn := (hinv.ends_lt n hn).trans (Nat.lt_succ_self _)
  received_le := hinv.received_le
  filters := by
    show (filtersOf (filterEnd _ _ _ _) _).filterMap ownNode = _
    rw [filtersOf_filterEnd, List.filterMap_append, hinv.filters]
    exact List.append_nil _
  shape f hf := by
    have hf' : f ∈ filtersOf (filterEnd s.filters s.voices.nextNode (.other g) runonce)
      (ascii "/n_end") := hf
    rw [filtersOf_filterEnd] at hf'
    rcases List.mem_append.mp hf' with hf | hf
    · exact ((hinv.shape f hf).mono (le_refl _)).1
    · rw [List.mem_singleton.mp hf]
      exact .inr ⟨_, g, fun hmem => lt_irrefl _ (hinv.created_lt _ hmem), Nat.lt_succ_self _, rfl,
        rfl⟩

theorem inv_ended (hinv : Inv poly s) {node : ℕ} (hnode : node < s.voices.nextNode)
    (hends : node ∉ s.ends) : Inv poly { s with ends := s.ends ++ [node] } := by
  have hhandled : (s.ends ++ [node]).take s.received = s.handled :=
    List.take_append_of_le_length hinv.received_le
  refine ⟨hinv.bound, hinv.sorted, ?_, ?_, hinv.created_nodup, hinv.created_lt, ?_, ?_, ?_, ?_,
    hinv.shape⟩
  · show ∀ n ∈ _, _ ∧ n ∉ (s.ends ++ [node]).take s.received
    rw [hhandled]
    exact hinv.queued
  · show ∀ n ∈ _, n ∉ (s.ends ++ [node]).take s.received → _
    rw [hhandled]
    exact hinv.left
  · rw [List.nodup_append]
    refine ⟨hinv.ends_nodup, List.nodup_singleton _, fun a ha b hb hab => ?_⟩
    rw [hab, List.mem_singleton.mp hb] at ha
    exact hends ha
  · intro n hn
    rcases List.mem_append.mp hn with hn | hn
    · exact hinv.ends_lt n hn
    · rw [List.mem_singleton.mp hn]
      exact hnode
  · rw [List.length_append]
    exact hinv.received_le.trans (Nat.le_add_right _ _)
  · show _ = s.created.filter fun n => n ∉ (s.ends ++ [node]).take s.received
    rw [hhandled]
    exact hinv.filters

theorem inv_receive (hinv : Inv poly s) {node : ℕ} (info : List LuaValue)
    (h : s.ends[s.received]? = some node) : Inv poly (s.receive node info) := by
  have hhandled : s.ends.take (s.received + 1) = s.handled ++ [node] := by
    rw [List.take_add_one, h]
    rfl
  have hlt := (List.getElem?_eq_some_iff.mp h).1
  have hnew : node ∉ s.handled := by
    have hnodup := (List.take_sublist (s.received + 1) s.ends).nodup hinv.ends_nodup
    rw [hhandled, List.nodup_append] at hnodup
    exact fun hmem => hnodup.2.2 _ hmem _ (List.mem_singleton_self _) rfl
  have hmem : ∀ n, n ∉ s.handled ++ [node] ↔ n ∉ s.handled ∧ n ≠ node := by
    intro n
    rw [List.mem_append, List.mem_singleton, not_or]
  -- the node leaves the queue, and its filter is gone, if it is the player's
  have heffect : (handleOSCReceive s.filters ⟨ascii "/n_end", nodeValue node :: info⟩).1.foldl
        Handler.run s.voices.NodeQueue = s.voices.NodeQueue.erase node ∧
      (filtersOf (handleOSCReceive s.filters ⟨ascii "/n_end", nodeValue node :: info⟩).2
        (ascii "/n_end")).filterMap ownNode = (s.created.filter fun n => n ∉ s.handled).erase node := by
    by_cases hnode : node ∈ s.created
    · have hown : node ∈ (filtersOf s.filters (ascii "/n_end")).filterMap ownNode := by
        rw [hinv.filters, List.mem_filter]
        exact ⟨hnode, decide_eq_true hnew⟩
      have hnodup : ((filtersOf s.filters (ascii "/n_end")).filterMap ownNode).Nodup := by
        rw [hinv.filters]
        exact hinv.created_nodup.filter _
      obtain ⟨hleft, hcalls⟩ := receive_own info hinv.shape hnodup hown
      rw [hcalls, hleft, hinv.filters]
      exact ⟨rfl, rfl⟩
    · obtain ⟨hleft, hcalls⟩ := receive_other info hinv.shape hnode
      rw [hleft, hinv.filters]
      constructor
      · rw [List.erase_of_not_mem fun hq => hnode (hinv.queued node hq).1]
        exact foldl_run_other _ hcalls
      · exact (List.erase_of_not_mem fun hm => hnode (List.mem_filter.mp hm).1).symm
  obtain ⟨hqueue, hfilters⟩ := heffect
  have hqueue' : (s.receive node info).voices.NodeQueue = s.voices.NodeQueue.erase node := hqueue
  have hsub := List.erase_sublist (a := node) (l := s.voices.NodeQueue)
  have hqueue_nodup : s.voices.NodeQueue.Nodup := hinv.sorted.imp fun h => h.ne
  refine ⟨?_, ?_, ?_, ?_, hinv.created_nodup, hinv.created_lt, hinv.ends_nodup, hinv.ends_lt, hlt,
    ?_, ?_⟩
  · rw [hqueue']
    exact hsub.length_le.trans hinv.bound
  · rw [hqueue']
    exact hinv.sorted.sublist hsub
  · rw [hqueue']
    show ∀ n ∈ s.voices.NodeQueue.erase node, n ∈ s.created ∧ n ∉ s.ends.take (s.received + 1)
    rw [hhandled]
    intro n hn
    have hnq := hsub.subset hn
    refine ⟨(hinv.queued n hnq).1, (hmem n).mpr ⟨(hinv.queued n hnq).2, fun heq => ?_⟩⟩
    rw [heq] at hn
    exact hqueue_nodup.not_mem_erase hn
  · rw [hqueue']
    show ∀ n ∈ s.created, n ∉ s.ends.take (s.received + 1) → _
    rw [hhandled]
    intro n hn hnot
    obtain ⟨hnh, hne⟩ := (hmem n).mp hnot
    exact (hinv.left n hn hnh).imp_left fun h => (List.mem_erase_of_ne hne).mpr h
  · show _ = s.created.filter fun n => n ∉ s.ends.take (s.received + 1)
    rw [hhandled]
    refine hfilters.trans ?_
    rw [(hinv.created_nodup.filter _).erase_eq_filter, List.filter_filter]
    refine List.filter_congr fun n _ => ?_
    rw [Bool.eq_iff_iff]
    simp [and_comm]
  · -- the filters that are left were there before
    intro f hf
    refine hinv.shape f ?_
    have hf' : f ∈ filtersOf (handleOSCReceive s.filters
      ⟨ascii "/n_end", nodeValue node :: info⟩).2 (ascii "/n_end") := hf
    unfold handleOSCReceive at hf'
    unfold filtersOf at hf' ⊢
    cases hl : s.filters.lookup (ascii "/n_end") with
    | none =>
      rw [hl] at hf'
      dsimp only at hf'
      rw [hl] at hf'
      exact hf'
    | some l =>
      rw [hl] at hf'
      dsimp only at hf'
      rw [AList.lookup_insert, walk_eq] at hf'
      exact (remaining_sublist _ l).subset hf'

theorem inv_start {s₀ : Studio R G} (hstart : Start s₀) : Inv poly s₀ where
  bound := by
    rw [hstart.queue]
    exact Nat.zero_le _
  sorted := by
    rw [hstart.queue]
    exact List.Pairwise.nil
  queued n hn := by
    rw [hstart.queue] at hn
    cases hn
  left n hn := by
    rw [hstart.created] at hn
    cases hn
  created_nodup := by
    rw [hstart.created]
    exact List.nodup_nil
  created_lt n hn := by
    rw [hstart.created] at hn
    cases hn
  ends_nodup := by
    rw [hstart.ends]
    exact List.nodup_nil
  ends_lt n hn := by
    rw [hstart.ends] at hn
    cases hn
  received_le := by
    rw [hstart.received]
    exact Nat.zero_le _
  filters := by
    rw [hstart.created, List.filter_nil, List.filterMap_eq_nil_iff]
    intro f hf
    obtain ⟨node, g, _, _, hg⟩ := hstart.filters f hf
    unfold ownNode
    rw [hg]
  shape f hf := by
    obtain ⟨node, g, hlt, ht, hg⟩ := hstart.filters f hf
    refine .inr ⟨node, g, fun hmem => ?_, hlt, ht, hg⟩
    rw [hstart.created] at hmem
    cases hmem

end Invariant

/-! ## Every run -/

section Runs

variable [Field R] [LinearOrder R] {sc : Script R} {self : Settings R} {poly : ℕ}
  {s₀ s s' : Studio R G}

theorem inv_step (hpoly : self.poly = some poly) (hinv : Inv poly s) (h : Step sc self s s') :
    Inv poly s' := by
  cases h with
  | event h => exact inv_event hpoly hinv (playOneEvent_changed h)
  | reset time => exact inv_reset hpoly hinv time
  | other g runonce => exact inv_other hinv g runonce
  | ended hnode hends => exact inv_ended hinv hnode hends
  | receive info h => exact inv_receive hinv info h

theorem inv_run (hpoly : self.poly = some poly) (hinv : Inv poly s) (h : Run sc self s s') :
    Inv poly s' := by
  induction h with
  | refl => exact hinv
  | tail _ hstep ih => exact inv_step hpoly ih hstep

/-- However the events of the player, the ends of nodes, the messages about them and what others do
follow on each other, the player has at most `poly` nodes on the server that it has not told to end;
its queue has the oldest first; and its filters are for the nodes whose end is not received, in the
order they were made, so that there are none when all have ended. -/
theorem poly_voices (hpoly : self.poly = some poly) (hstart : Start s₀) (h : Run sc self s₀ s) :
    (∀ sounding : List ℕ, sounding.Nodup →
      (∀ n ∈ sounding, n ∈ s.created ∧ n ∉ s.ends ∧ ¬ Told s.voices n) →
      sounding.length ≤ poly) ∧
    s.voices.NodeQueue.length ≤ poly ∧ s.voices.NodeQueue.Pairwise (· < ·) ∧
    (∀ n ∈ s.voices.NodeQueue, n ∈ s.created ∧ n ∉ s.handled) ∧
    (filtersOf s.filters (ascii "/n_end")).filterMap ownNode =
      s.created.filter fun n => n ∉ s.handled := by
  have hinv := inv_run hpoly (inv_start hstart) h
  refine ⟨fun sounding hnodup hsounding => ?_, hinv.bound, hinv.sorted, hinv.queued, hinv.filters⟩
  -- what sounds is in the queue
  have hsub : sounding ⊆ s.voices.NodeQueue := by
    intro n hn
    obtain ⟨hcreated, hends, htold⟩ := hsounding n hn
    exact (hinv.left n hcreated fun hm => hends (handled_subset s hm)).resolve_right htold
  exact (hnodup.subperm hsub).length_le.trans hinv.bound

end Runs

/-! ### Two notes -/

def polySettings : Settings ℚ := { bareSettings with poly := some 1 }

/-- Nothing has been played. -/
def silence : Studio ℚ Unit where
  voices := Voices.start ℚ 1001
  filters := ∅
  created := []
  ends := []
  received := 0

/-- A note at a beat. -/
def note (s : Studio ℚ Unit) (beatTime : ℚ) : Studio ℚ Unit :=
  match OscEventPlayer.playOneEvent bareScript polySettings false
    (ofPairs [(ascii "freq", .num 440)]) (.num beatTime) (some (.num 2)) (some (.num 1))
    s.voices with
  | .ok v => s.played v
  | .error _ => s

theorem run_note (s : Studio ℚ Unit) (beatTime : ℚ) :
    Run bareScript polySettings s (note s beatTime) := by
  unfold note
  split
  next h => exact Relation.ReflTransGen.single (.event h)
  next => exact Relation.ReflTransGen.refl

/-- The second note takes the voice of the first. -/
theorem poly_voices_two : (note (note silence 0) 1).voices.NodeQueue = [1002] ∧
    (note (note silence 0) 1).created = [1001, 1002] ∧
    ∀ sounding : List ℕ, sounding.Nodup →
      (∀ n ∈ sounding, n ∈ (note (note silence 0) 1).created ∧
        n ∉ (note (note silence 0) 1).ends ∧ ¬ Told (note (note silence 0) 1).voices n) →
      sounding.length ≤ 1 := by
  refine ⟨by decide +kernel, by decide +kernel, ?_⟩
  have hstart : Start silence := ⟨rfl, rfl, rfl, rfl, fun f hf => by cases hf⟩
  have hrun : Run bareScript polySettings silence (note (note silence 0) 1) :=
    (run_note silence 0).trans (run_note _ 1)
  exact (poly_voices rfl hstart hrun).1

end Lua2SC.Players.Poly
