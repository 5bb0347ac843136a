import Lua2SC.Lib.DueQueue
import Lua2SC.Lib.Machine

/-!
# The queue of the SCH scheduler

With `MetronomLanesSCH` a player is no longer asked in every frame whether it
has something to play. `theMetro.queue` holds entries `{time, player}` in the
order of their times; `setMetronomLanes` takes the first one while it is due and
calls its player's `Play`, and the player queues itself again at its next
position. `Reset` queues it too.

Nobody takes an entry out of the queue but the tick that runs it. So a player
that is reset while it has an entry has two, and one that is reset while it runs
has two when it is through. And a player that is run while the metronome stands
still returns without an entry. `one_entry_each` says that this is all: the
queue is in order and holds one entry, at its position, for every player that
has something to play, at every moment of a run exactly when the run does none
of this.

A run is cut into the steps between which the functions of a script can act: a
call of `Reset`, `StartPlayer`, `ReBind` or `StopPlayer` may stand between any
two, also while a player's event or action is being played. `Filters` and the
streams themselves are any state machine. Of an event only its `delta` moves the
player, of an action its `ppq`.
-/

namespace Lua2SC.Sch

open Lua2SC.Machine Lua2SC.DueQueue

/-! ## The model -/

/-- A stream of deltas or of positions: where it stands after `reset()`, and
`nextval`. -/
structure Lista (R S : Type*) where
  init : S
  nextval : S → Option R × S

/-- `EventPlayer`, or `ActionEventPlayer` derived from it. -/
inductive Kind where
  | event
  | action
deriving DecidableEq, Repr

/-- The fields of a player. `stream` is where `lista` stands, `⊥` is `-math.huge`,
`doneAction` whether there is one. -/
structure Player (R S : Type*) where
  kind : Kind
  doneAction : Bool
  lista : Lista R S
  MUSPOS : R
  ppqOffset : R
  stream : S
  curlist : Option R
  ppqPos : WithBot R
  prevppqPos : WithBot R
  playing : Bool
  used : Bool

/-- `{time=time, player=player}`. -/
structure Entry (R κ : Type*) where
  time : WithBot R
  player : κ
deriving DecidableEq

/-- Where a player stands within `Play`: in the loop of `Pull`, in the
`doneAction` of `Pull`, or in `playEvent` (or the `doneAction`) of `Play`. -/
inductive Moment where
  | pulling
  | ended
  | event
deriving DecidableEq, Repr

/-- `theMetro` with its queue, and the players. `oldppqPos` is nil before the
first tick, `running` the player whose `Play` is going on. -/
structure Sched (R S κ : Type*) where
  queue : List (Entry R κ)
  players : κ → Player R S
  oldppqPos : Option R
  metroPlaying : Bool
  running : Option (κ × Moment)

/-- `ActionPlayers` and `Players`: every player stands in one of them, once. -/
structure Roster (κ : Type*) where
  players : List κ
  nodup : players.Nodup
  complete : ∀ k, k ∈ players

variable {R S κ : Type*}

namespace Player

variable (p : Player R S)

/-- `EventPlayer:NextVals`. -/
def NextVals : Player R S :=
  let next := p.lista.nextval p.stream
  { p with used := true, curlist := next.1, stream := next.2 }

/-- There is something left to play: for an action player also what it waits
with. -/
def hasNext : Bool :=
  (p.lista.nextval p.stream).1.isSome || (p.kind == .action && p.curlist.isSome)

/-- What is left of `Play` does not queue the player. -/
def through : Moment → Bool
  | .pulling => false
  | .ended => true
  | .event => p.kind == .event && p.curlist.isNone && p.doneAction

variable [Add R]

/-- `EventPlayer:UpdatePos`, `ActionEventPlayer:UpdatePos`. -/
def UpdatePos (dur : R) : Player R S :=
  { p with
    prevppqPos := p.ppqPos
    ppqPos := match p.kind with
      | .event => p.ppqPos + dur
      | .action => dur }

/-- `EventPlayer:Reset`, `ActionEventPlayer:Reset`, without the queue. -/
def Reset : Player R S :=
  { p with
    stream := p.lista.init
    ppqPos := match p.kind with
      | .event => ((p.MUSPOS + p.ppqOffset : R) : WithBot R)
      | .action => ⊥
    prevppqPos := ⊥
    playing := true
    used := false
    curlist := match p.kind with
      | .event => p.curlist
      | .action => none }

end Player

/-- `theMetro.queueEvent`: before the first entry that is not earlier. -/
def queueEvent [LinearOrder R] (queue : List (Entry R κ)) (time : WithBot R) (player : κ) :
    List (Entry R κ) :=
  queue.orderedInsert (fun a b => a.time ≤ b.time) ⟨time, player⟩

namespace Sched

variable [DecidableEq κ] (s : Sched R S κ)

/-- The entries of a player. -/
def entries (k : κ) : ℕ := (s.queue.map Entry.player).count k

/-- The player plays, and has something left. -/
def Pending (k : κ) : Prop := (s.players k).playing = true ∧ (s.players k).hasNext = true

/-- `self.… = …`. -/
def put (k : κ) (p : Player R S) : Sched R S κ :=
  { s with players := Function.update s.players k p }

/-- `Play` returns. -/
def leave : Sched R S κ := { s with running := none }

variable [LinearOrder R]

/-- `self.… = …` and `theMetro.queueEvent(self.ppqPos, self)`. -/
def place (k : κ) (p : Player R S) : Sched R S κ :=
  { s.put k p with queue := queueEvent s.queue p.ppqPos k }

variable [Add R]

/-- `player:Reset()`. -/
def Reset (k : κ) : Sched R S κ := s.place k (s.players k).Reset

/-- `StartPlayer(beatTime, player)`. -/
def StartPlayer (beatTime : R) (k : κ) : Sched R S κ :=
  (s.put k { s.players k with MUSPOS := beatTime }).Reset k

/-- `player:ReBind(l)`. -/
def ReBind (k : κ) (l : Lista R S) : Sched R S κ :=
  (s.put k { s.players k with lista := l }).Reset k

/-- `StopPlayer(player)`. -/
def StopPlayer (k : κ) : Sched R S κ :=
  let s := s.Reset k
  s.put k { s.players k with playing := false }

/-- `Reset` of every player, as in `initplayers` and `theMetro.backwards`. -/
def resetAll (roster : Roster κ) : Sched R S κ :=
  roster.players.foldl (fun s k => s.Reset k) s

/-- A turn of the loop of `Pull`, and what follows it up to `playEvent`. -/
def pull (k : κ) : Sched R S κ :=
  let p := s.players k
  if p.playing then
    match s.oldppqPos with
    -- comparing nil with a number is an error
    | none => s.leave
    | some oldppqPos =>
      if p.ppqPos < oldppqPos then
        match p.NextVals.curlist with
        | some delta => s.put k (p.NextVals.UpdatePos delta)
        | none => { s.put k p.NextVals with running := some (k, .ended) }
      else if s.metroPlaying then { s.put k p.NextVals with running := some (k, .event) }
      else s.leave
  else s.leave

/-- What follows `playEvent` or `doneAction` in `EventPlayer:Play`. -/
def playedEvent (k : κ) : Sched R S κ :=
  let p := s.players k
  match p.curlist with
  | some delta => (s.place k (p.UpdatePos delta)).leave
  | none =>
    let s := if p.doneAction then s else s.Reset k
    (s.put k { s.players k with playing := false }).leave

/-- What follows `playEvent` in `ActionEventPlayer:Play`. -/
def playedAction (k : κ) : Sched R S κ :=
  let p := (s.players k).NextVals
  match p.curlist with
  | some ppq => (s.place k (p.UpdatePos ppq)).leave
  | none => (s.put k { p with playing := false }).leave

/-- `Play` goes on. -/
def advance : Sched R S κ :=
  match s.running with
  | none => s
  | some (k, .pulling) => s.pull k
  | some (k, .ended) => (s.put k { s.players k with playing := false }).leave
  | some (k, .event) =>
    match (s.players k).kind with
    | .event => s.playedEvent k
    | .action => s.playedAction k

/-- `local event = table.remove(Mqueue, 1); event.player:Play()`, up to where
`Play` first calls something. -/
def pop : Sched R S κ :=
  match s.queue with
  | [] => s
  | e :: rest =>
    { s with
      queue := rest
      running :=
        if s.metroPlaying then
          match (s.players e.player).kind with
          | .event => some (e.player, .pulling)
          | .action => some (e.player, .event)
        else none }

end Sched

/-! ## Runs -/

/-- The calls of a script, the steps of a tick, and what else becomes of the
transport. -/
inductive Act (R S κ : Type*) where
  | reset (k : κ)
  | start (beatTime : R) (k : κ)
  | rebind (k : κ) (l : Lista R S)
  | stop (k : κ)
  | pop
  | advance
  | backwards
  | transport (oldppqPos : R) (playing : Bool)

namespace Sched

variable [DecidableEq κ] [LinearOrder R] [Add R] (roster : Roster κ)

/-- One step. A tick takes an entry, or goes back, when no player is running. -/
def step (s : Sched R S κ) : Act R S κ → Sched R S κ
  | .reset k => s.Reset k
  | .start beatTime k => s.StartPlayer beatTime k
  | .rebind k l => s.ReBind k l
  | .stop k => s.StopPlayer k
  | .pop => if s.running.isNone then s.pop else s
  | .advance => s.advance
  | .backwards => if s.running.isNone then { s with queue := [] }.resetAll roster else s
  | .transport oldppqPos playing => { s with oldppqPos := some oldppqPos, metroPlaying := playing }

/-- After `initplayers`. -/
def start (players : κ → Player R S) (metroPlaying : Bool) : Sched R S κ :=
  resetAll
    { queue := [], players := players, oldppqPos := none, metroPlaying := metroPlaying
      running := none } roster

end Sched

/-! ## The law -/

namespace Sched

section

variable [DecidableEq κ] [LinearOrder R]

/-- What is asked of the queue. -/
structure Law (s : Sched R S κ) : Prop where
  in_order : InOrder Entry.time s.queue
  at_most_one : ∀ k, s.entries k ≤ 1
  exactly_one : ∀ k, s.Pending k → (∀ m, s.running ≠ some (k, m)) → s.entries k = 1
  /-- An entry stands where its player stands. -/
  current : ∀ e ∈ s.queue, e.time = (s.players e.player).ppqPos
  /-- A player that is run, and will be queued when it is through, has no other
  entry. -/
  not_running : ∀ k m, s.running = some (k, m) → (s.players k).through m = false → s.entries k = 0

variable (s : Sched R S κ)

/-- A call may queue the player: it has no entry, and is not about to queue itself. -/
def Free (k : κ) : Prop :=
  s.entries k = 0 ∧ ∀ m, s.running = some (k, m) → (s.players k).through m = true

/-- `Play` returns before it looks for the next event, or raises. -/
def Abandons (k : κ) : Prop :=
  s.running = some (k, .pulling) ∧
    ∀ oldppqPos, s.oldppqPos = some oldppqPos →
      ¬ (s.players k).ppqPos < oldppqPos ∧ s.metroPlaying = false

/-- Under which condition a step keeps the law. -/
def Allowed : Act R S κ → Prop
  | .reset k => s.Free k
  | .start _ k => s.Free k
  | .rebind k _ => s.Free k
  | .stop k => s.Free k
  | .pop => s.running = none → ∀ e ∈ s.queue.head?, s.metroPlaying = true ∨ ¬ s.Pending e.player
  | .advance => ∀ k, s.Abandons k → ¬ s.Pending k
  | .backwards => True
  | .transport _ _ => True

end

/-! ## What the operations do to the queue -/

section

variable [DecidableEq κ] [LinearOrder R] {s : Sched R S κ} {k : κ} {p : Player R S}

omit [DecidableEq κ] in
theorem queueEvent_inOrder {queue : List (Entry R κ)} (h : InOrder Entry.time queue)
    (time : WithBot R) (player : κ) : InOrder Entry.time (queueEvent queue time player) := by
  have : Std.Total fun a b : Entry R κ => a.time ≤ b.time := ⟨fun a b => le_total _ _⟩
  have : IsTrans (Entry R κ) fun a b => a.time ≤ b.time := ⟨fun a b c => le_trans⟩
  exact h.orderedInsert _ _

theorem entries_place (s : Sched R S κ) (k : κ) (p : Player R S) (j : κ) :
    (s.place k p).entries j = s.entries j + if k = j then 1 else 0 := by
  have hperm := (List.perm_orderedInsert (fun a b : Entry R κ => a.time ≤ b.time)
    ⟨p.ppqPos, k⟩ s.queue).map Entry.player
  unfold entries place queueEvent
  rw [hperm.count_eq, List.map_cons, List.count_cons]
  simp only [beq_iff_eq]

omit [LinearOrder R] in
theorem entries_pos {e : Entry R κ} (he : e ∈ s.queue) : 0 < s.entries e.player :=
  List.count_pos_iff.mpr (List.mem_map_of_mem he)

omit [LinearOrder R] in
/-- An entry of another player. -/
theorem player_ne (hk : s.entries k = 0) {e : Entry R κ} (he : e ∈ s.queue) : e.player ≠ k := by
  rintro rfl
  exact absurd (entries_pos he) (by omega)

theorem place_current (h : ∀ e ∈ s.queue, e.time = (s.players e.player).ppqPos)
    (hk : s.entries k = 0) :
    ∀ e ∈ (s.place k p).queue, e.time = ((s.place k p).players e.player).ppqPos := by
  intro e he
  show e.time = (Function.update s.players k p e.player).ppqPos
  rcases (List.mem_orderedInsert _).mp he with rfl | hold
  · rw [Function.update_self]
  · rw [Function.update_of_ne (player_ne hk hold)]
    exact h e hold

/-! ## What keeps the law -/

/-- The two states differ in one player only. -/
structure Beside (k : κ) (s s' : Sched R S κ) : Prop where
  players : ∀ j, j ≠ k → s'.players j = s.players j
  running : ∀ j, j ≠ k → ∀ m, s'.running = some (j, m) ↔ s.running = some (j, m)
  entries : ∀ j, j ≠ k → s'.entries j = s.entries j

/-- Besides the order, the law is a matter of the one player. -/
theorem Law.beside {s' : Sched R S κ} (h : s.Law) (hbeside : Beside k s s')
    (horder : InOrder Entry.time s'.queue)
    (hcurrent : ∀ e ∈ s'.queue, e.time = (s'.players e.player).ppqPos) (hone : s'.entries k ≤ 1)
    (hexact : s'.Pending k → (∀ m, s'.running ≠ some (k, m)) → s'.entries k = 1)
    (hrun : ∀ m, s'.running = some (k, m) → (s'.players k).through m = false → s'.entries k = 0) :
    s'.Law := by
  refine ⟨horder, fun j => ?_, fun j hj hidle => ?_, hcurrent, fun j m hj hthrough => ?_⟩
  · by_cases hjk : j = k
    · rw [hjk]
      exact hone
    · rw [hbeside.entries j hjk]
      exact h.at_most_one j
  · by_cases hjk : j = k
    · subst hjk
      exact hexact hj hidle
    · rw [hbeside.entries j hjk]
      refine h.exactly_one j ?_ fun m hm => hidle m ((hbeside.running j hjk m).mpr hm)
      unfold Pending at hj ⊢
      rwa [hbeside.players j hjk] at hj
  · by_cases hjk : j = k
    · subst hjk
      exact hrun m hj hthrough
    · rw [hbeside.entries j hjk]
      rw [hbeside.players j hjk] at hthrough
      exact h.not_running j m ((hbeside.running j hjk m).mp hj) hthrough

/-- A player without an entry is queued. -/
theorem Law.place (h : s.Law) (hk : s.entries k = 0) {r : Option (κ × Moment)}
    (hr : ∀ j, j ≠ k → ∀ m, r = some (j, m) ↔ s.running = some (j, m))
    (hthrough : ∀ m, r = some (k, m) → p.through m = true) :
    ({ s.place k p with running := r } : Sched R S κ).Law := by
  have hone : (s.place k p).entries k = 1 := by rw [entries_place, if_pos rfl, hk]
  refine h.beside (k := k) ⟨fun j hj => Function.update_of_ne hj _ _, hr, fun j hj => ?_⟩
    (queueEvent_inOrder h.in_order _ _) (place_current h.current hk) hone.le (fun _ _ => hone) ?_
  · show (s.place k p).entries j = s.entries j
    rw [entries_place, if_neg (Ne.symm hj), Nat.add_zero]
  · intro m hm hfalse
    have hplayer : (s.place k p).players k = p := Function.update_self ..
    rw [show ({ s.place k p with running := r } : Sched R S κ).players = (s.place k p).players
      from rfl, hplayer, hthrough m hm] at hfalse
    cases hfalse

/-- The fields of a player change, the queue does not. -/
theorem Law.put (h : s.Law) {r : Option (κ × Moment)}
    (hr : ∀ j, j ≠ k → ∀ m, r = some (j, m) ↔ s.running = some (j, m))
    (hpos : s.entries k = 0 ∨ p.ppqPos = (s.players k).ppqPos)
    (hexact : p.playing = true → p.hasNext = true → (∀ m, r ≠ some (k, m)) → s.entries k = 1)
    (hrun : ∀ m, r = some (k, m) → p.through m = false → s.entries k = 0) :
    ({ s.put k p with running := r } : Sched R S κ).Law := by
  have hplayer : (s.put k p).players k = p := Function.update_self ..
  refine h.beside (k := k) ⟨fun j hj => Function.update_of_ne hj _ _, hr, fun j _ => rfl⟩
    h.in_order ?_ (h.at_most_one k) ?_ ?_
  · intro e he
    show e.time = (Function.update s.players k p e.player).ppqPos
    by_cases hek : e.player = k
    · rcases hpos with hnone | hsame
      · exact absurd hek (player_ne hnone he)
      · rw [hek, Function.update_self, hsame, ← hek]
        exact h.current e he
    · rw [Function.update_of_ne hek]
      exact h.current e he
  · rintro ⟨hplaying, hnext⟩ hidle
    rw [show ({ s.put k p with running := r } : Sched R S κ).players k = p from hplayer]
      at hplaying hnext
    exact hexact hplaying hnext hidle
  · intro m hm hfalse
    rw [show ({ s.put k p with running := r } : Sched R S κ).players k = p from hplayer] at hfalse
    exact hrun m hm hfalse

/-- Queueing a player, with what it runs left as it is. -/
theorem Law.place_iff (h : s.Law) (hp : ∀ m, p.through m = (s.players k).through m) :
    (s.place k p).Law ↔ s.Free k := by
  constructor
  · intro h'
    have hone := h'.at_most_one k
    rw [entries_place, if_pos rfl] at hone
    refine ⟨by omega, fun m hm => ?_⟩
    by_contra hthrough
    have hplayer : (s.place k p).players k = p := Function.update_self ..
    have hnone := h'.not_running k m hm (by rw [hplayer, hp m]; simpa using hthrough)
    rw [entries_place, if_pos rfl] at hnone
    omega
  · rintro ⟨hk, hfree⟩
    exact h.place hk (fun j _ m => Iff.rfl) fun m hm => (hp m).trans (hfree m hm)

end

/-! ## One step -/

section

variable [DecidableEq κ] [LinearOrder R] [Add R] {s : Sched R S κ} {k : κ} {p : Player R S}

omit [LinearOrder R] in
theorem Reset_through (p : Player R S) (m : Moment) : p.Reset.through m = p.through m := by
  unfold Player.Reset Player.through
  cases m with
  | pulling => rfl
  | ended => rfl
  | event => cases p.kind <;> rfl

omit [Add R] in
theorem put_place (q : Player R S) : (s.put k q).place k p = s.place k p := by
  unfold place put
  rw [Function.update_idem]

theorem put_Reset (q : Player R S) : (s.put k q).Reset k = s.place k q.Reset := by
  unfold Reset
  rw [put_place]
  congr 2
  exact Function.update_self ..

theorem StopPlayer_eq :
    s.StopPlayer k = s.place k { (s.players k).Reset with playing := false } := by
  unfold StopPlayer Reset
  have hplayer : (s.place k (s.players k).Reset).players k = (s.players k).Reset :=
    Function.update_self ..
  dsimp only
  rw [hplayer]
  unfold place put
  rw [Function.update_idem]

theorem Law.Reset_iff (h : s.Law) : (s.Reset k).Law ↔ s.Free k :=
  h.place_iff (Reset_through _)

theorem Law.StartPlayer_iff (h : s.Law) {beatTime : R} :
    (s.StartPlayer beatTime k).Law ↔ s.Free k := by
  unfold StartPlayer
  rw [put_Reset]
  exact h.place_iff (Reset_through _)

theorem Law.ReBind_iff (h : s.Law) {l : Lista R S} : (s.ReBind k l).Law ↔ s.Free k := by
  unfold ReBind
  rw [put_Reset]
  exact h.place_iff (Reset_through _)

theorem Law.StopPlayer_iff (h : s.Law) : (s.StopPlayer k).Law ↔ s.Free k := by
  rw [StopPlayer_eq]
  refine h.place_iff fun m => ?_
  show (s.players k).Reset.through m = (s.players k).through m
  exact Reset_through _ m

/-- Where every player has been queued. -/
theorem reset_all_law {l : List κ} (hl : l.Nodup) :
    ∀ {s : Sched R S κ}, s.running = none → InOrder Entry.time s.queue →
      (∀ e ∈ s.queue, e.time = (s.players e.player).ppqPos) → (∀ k ∈ l, s.entries k = 0) →
      (∀ k ∉ l, s.entries k = 1) → (l.foldl (fun s k => s.Reset k) s).Law := by
  induction l with
  | nil =>
    intro s hidle horder hcurrent _ hone
    have hone' : ∀ k, s.entries k = 1 := fun k => hone k List.not_mem_nil
    refine ⟨horder, fun k => (hone' k).le, fun k _ _ => hone' k, hcurrent, fun k m hm _ => ?_⟩
    have hrun : s.running = some (k, m) := hm
    rw [hidle] at hrun
    cases hrun
  | cons k l ih =>
    intro s hidle horder hcurrent hnone hone
    obtain ⟨hkl, hl⟩ := List.nodup_cons.mp hl
    have hk : s.entries k = 0 := hnone k List.mem_cons_self
    refine ih hl hidle (queueEvent_inOrder horder _ _) (place_current hcurrent hk)
      (fun j hj => ?_) fun j hj => ?_
    · show (s.place k _).entries j = 0
      rw [entries_place, if_neg (by rintro rfl; exact hkl hj), hnone j (List.mem_cons_of_mem k hj)]
    · show (s.place k _).entries j = 1
      rw [entries_place]
      split
      next hkj => rw [← hkj, hk]
      next hkj =>
        refine hone j fun hmem => ?_
        rcases List.mem_cons.mp hmem with rfl | hmem
        · exact hkj rfl
        · exact hj hmem

/-- After a reset of all players from an empty queue. -/
theorem resetAll_law (roster : Roster κ) (hidle : s.running = none) (hempty : s.queue = []) :
    (s.resetAll roster).Law := by
  refine reset_all_law roster.nodup hidle ?_ ?_ (fun k _ => ?_) fun k hk => ?_
  · rw [hempty]
    exact List.Pairwise.nil
  · rw [hempty]
    intro e he
    cases he
  · rw [entries, hempty]
    rfl
  · exact absurd (roster.complete k) hk

/-! ## One step of a tick -/

omit [DecidableEq κ] [LinearOrder R] [Add R] in
/-- Nobody else runs. -/
theorem running_apart {m₀ : Moment} (hs : s.running = some (k, m₀)) {r : Option (κ × Moment)}
    (hr : ∀ j m, r = some (j, m) → j = k) (j : κ) (hj : j ≠ k) (m : Moment) :
    r = some (j, m) ↔ s.running = some (j, m) := by
  constructor
  · intro h
    exact absurd (hr j m h) hj
  · intro h
    rw [hs] at h
    cases h
    exact absurd rfl hj

omit [Add R] in
/-- A player leaves with its fields changed and nothing queued. -/
theorem Law.put_leave (h : s.Law) {m₀ : Moment} (hs : s.running = some (k, m₀))
    (hpos : s.entries k = 0 ∨ p.ppqPos = (s.players k).ppqPos)
    (hexact : p.playing = true → p.hasNext = true → s.entries k = 1) :
    ((s.put k p).leave).Law :=
  h.put (running_apart hs fun j m hm => by cases hm) hpos (fun hp hn _ => hexact hp hn)
    fun m hm => by cases hm

omit [Add R] in
/-- A player leaves with an entry. -/
theorem Law.place_leave (h : s.Law) {m₀ : Moment} (hs : s.running = some (k, m₀))
    (hk : s.entries k = 0) : ((s.place k p).leave).Law :=
  h.place hk (running_apart hs fun j m hm => by cases hm) fun m hm => by cases hm

omit [LinearOrder R] [Add R] in
theorem put_self (s : Sched R S κ) (k : κ) : s.put k (s.players k) = s := by
  unfold put
  rw [Function.update_eq_self]

omit [Add R] in
/-- A player leaves as it is. -/
theorem Law.leave_iff (h : s.Law) {m₀ : Moment} (hs : s.running = some (k, m₀))
    (hk : s.entries k = 0) : s.leave.Law ↔ ¬ s.Pending k := by
  constructor
  · intro h' hpending
    have hone := h'.exactly_one k hpending fun m hm => by cases hm
    rw [show s.leave.entries k = s.entries k from rfl, hk] at hone
    cases hone
  · intro hpending
    have hput := h.put_leave (p := s.players k) hs (Or.inl hk)
      fun hplaying hnext => absurd ⟨hplaying, hnext⟩ hpending
    rwa [put_self] at hput

/-- A turn of `Pull` keeps the law unless it leaves with something to play. -/
theorem Law.pull_iff (h : s.Law) (hs : s.running = some (k, .pulling)) :
    (s.pull k).Law ↔ (s.Abandons k → ¬ s.Pending k) := by
  have hk : s.entries k = 0 := h.not_running k .pulling hs rfl
  have hputs : ∀ (p : Player R S) (m : Moment),
      ({ s.put k p with running := some (k, m) } : Sched R S κ).Law := fun p m =>
    h.put (running_apart hs fun j m' hm => by cases hm; rfl) (Or.inl hk)
      (fun _ _ hidle => absurd rfl (hidle m)) fun _ _ _ => hk
  unfold pull
  dsimp only
  cases hplaying : (s.players k).playing with
  | false =>
    rw [if_neg (by decide), h.leave_iff hs hk]
    refine ⟨fun hp _ => hp, fun _ hp => ?_⟩
    rw [Pending, hplaying] at hp
    cases hp.1
  | true =>
    rw [if_pos rfl]
    cases hold : s.oldppqPos with
    | none =>
      rw [h.leave_iff hs hk]
      have habandons : s.Abandons k := ⟨hs, fun old hsome => by rw [hold] at hsome; cases hsome⟩
      exact ⟨fun hp _ => hp, fun hp => hp habandons⟩
    | some old =>
      dsimp only
      split
      next hlt =>
        -- before the frame: the law holds on both sides
        have hstays : ¬ s.Abandons k := fun habandons => (habandons.2 old hold).1 hlt
        refine ⟨fun _ habandons => absurd habandons hstays, fun _ => ?_⟩
        split
        next delta _ =>
          have hput := hputs ((s.players k).NextVals.UpdatePos delta) .pulling
          rwa [← hs] at hput
        next => exact hputs _ _
      next hlt =>
        split
        next hmetro =>
          have hstays : ¬ s.Abandons k := fun habandons => by
            rw [(habandons.2 old hold).2] at hmetro
            cases hmetro
          exact ⟨fun _ habandons => absurd habandons hstays, fun _ => hputs _ _⟩
        next hmetro =>
          rw [h.leave_iff hs hk]
          have habandons : s.Abandons k := by
            refine ⟨hs, fun old' hold' => ?_⟩
            rw [hold] at hold'
            cases hold'
            exact ⟨hlt, by simpa using hmetro⟩
          exact ⟨fun hp _ => hp, fun hp => hp habandons⟩

/-- The end of `EventPlayer:Play` keeps the law. -/
theorem Law.playedEvent (h : s.Law) (hs : s.running = some (k, .event)) :
    (s.playedEvent k).Law := by
  unfold Sched.playedEvent
  dsimp only
  split
  next delta hcur =>
    refine h.place_leave hs (h.not_running k .event hs ?_)
    rw [Player.through, hcur]
    simp
  next hcur =>
    split
    · exact h.put_leave hs (Or.inr rfl) fun hplaying => by cases hplaying
    next hdone =>
      -- the player queues itself before it stops
      have hk : s.entries k = 0 := h.not_running k .event hs (by simp [Player.through, hdone])
      rw [show ((s.Reset k).put k { (s.Reset k).players k with playing := false }) =
        s.StopPlayer k from rfl, StopPlayer_eq]
      exact h.place_leave hs hk

/-- The end of `ActionEventPlayer:Play` keeps the law. -/
theorem Law.playedAction (h : s.Law) (hs : s.running = some (k, .event))
    (hkind : (s.players k).kind = .action) : (s.playedAction k).Law := by
  have hk : s.entries k = 0 := h.not_running k .event hs (by rw [Player.through, hkind]; rfl)
  unfold Sched.playedAction
  dsimp only
  split
  · exact h.place_leave hs hk
  · exact h.put_leave hs (Or.inl hk) fun hplaying => by cases hplaying

theorem Law.advanced_iff (h : s.Law) : s.advance.Law ↔ ∀ k, s.Abandons k → ¬ s.Pending k := by
  have hnever : ∀ {r}, s.running = r → (∀ k, r ≠ some (k, .pulling)) →
      ∀ k, s.Abandons k → ¬ s.Pending k := by
    rintro r hs hr k ⟨hpulling, -⟩
    exact absurd (hs.symm.trans hpulling) (hr k)
  unfold advance
  cases hs : s.running with
  | none => exact ⟨fun _ => hnever hs (by simp), fun _ => h⟩
  | some km =>
    obtain ⟨k, m⟩ := km
    cases m with
    | pulling =>
      refine (h.pull_iff hs).trans ⟨fun hp j habandons => ?_, fun hp => hp k⟩
      have hjk := hs.symm.trans habandons.1
      cases hjk
      exact hp habandons
    | ended =>
      refine ⟨fun _ => hnever hs (by simp), fun _ => ?_⟩
      exact h.put_leave hs (Or.inr rfl) fun hplaying => by cases hplaying
    | event =>
      refine ⟨fun _ => hnever hs (by simp), fun _ => ?_⟩
      dsimp only
      split
      · exact h.playedEvent hs
      next hkind => exact h.playedAction hs hkind

omit [Add R] in
/-- Taking the first entry keeps the law unless `Play` returns at once from a
player that has something to play. -/
theorem Law.pop_iff (h : s.Law) (hidle : s.running = none) :
    s.pop.Law ↔ ∀ e ∈ s.queue.head?, s.metroPlaying = true ∨ ¬ s.Pending e.player := by
  unfold pop
  split
  next hempty =>
    rw [hempty]
    exact ⟨fun _ => by simp, fun _ => h⟩
  next e rest hqueue =>
    have hentries : ∀ j, s.entries j =
        (rest.map Entry.player).count j + if e.player = j then 1 else 0 := by
      intro j
      unfold entries
      rw [hqueue, List.map_cons, List.count_cons]
      simp only [beq_iff_eq]
    have hnone : (rest.map Entry.player).count e.player = 0 := by
      have hone := h.at_most_one e.player
      rw [hentries, if_pos rfl] at hone
      omega
    have horder := h.in_order
    rw [hqueue] at horder
    constructor
    · intro h' e' he'
      rw [hqueue] at he'
      cases he'
      by_cases hmetro : s.metroPlaying = true
      · exact Or.inl hmetro
      · rw [if_neg hmetro] at h'
        refine Or.inr fun hpending => ?_
        have hone := h'.exactly_one e.player hpending fun m hm => by cases hm
        rw [entries, hnone] at hone
        cases hone
    · intro hok
      refine h.beside (k := e.player) ⟨fun j _ => rfl, fun j hj m => ?_, fun j hj => ?_⟩
        horder.of_cons (fun e' he' => ?_) ?_ (fun hpending hstill => ?_) fun _ _ _ => hnone
      · rw [hidle]
        dsimp only
        split
        · cases (s.players e.player).kind <;> simp [hj.symm]
        · simp
      · rw [hentries j, if_neg hj.symm]
        rfl
      · refine h.current e' ?_
        rw [hqueue]
        exact List.mem_cons_of_mem e he'
      · exact hnone.le.trans (Nat.zero_le 1)
      · -- nobody runs the player: the metronome stands still
        rcases hok e (by rw [hqueue]; rfl) with hmetro | hrest
        · rw [if_pos hmetro] at hstill
          cases hkind : (s.players e.player).kind with
          | event => exact absurd (by rw [hkind]) (hstill .pulling)
          | action => exact absurd (by rw [hkind]) (hstill .event)
        · exact absurd hpending hrest

/-- **One step keeps the law exactly when it is allowed.** -/
theorem Law.step_iff (h : s.Law) (roster : Roster κ) (act : Act R S κ) :
    (s.step roster act).Law ↔ s.Allowed act := by
  cases act with
  | reset k => exact h.Reset_iff
  | start beatTime k => exact h.StartPlayer_iff
  | rebind k l => exact h.ReBind_iff
  | stop k => exact h.StopPlayer_iff
  | pop =>
    cases hidle : s.running with
    | none =>
      rw [step, hidle, Allowed, hidle]
      exact (h.pop_iff hidle).trans ⟨fun hok _ => hok, fun hok => hok rfl⟩
    | some km =>
      rw [step, hidle, Allowed, hidle]
      exact ⟨fun _ => by simp, fun _ => h⟩
  | advance => exact h.advanced_iff
  | backwards =>
    refine ⟨fun _ => trivial, fun _ => ?_⟩
    rw [step]
    split
    next hidle => exact resetAll_law roster (by simpa using hidle) rfl
    · exact h
  | transport oldppqPos playing =>
    exact ⟨fun _ => trivial, fun _ =>
      ⟨h.in_order, h.at_most_one, h.exactly_one, h.current, h.not_running⟩⟩

theorem start_law (roster : Roster κ) (players : κ → Player R S) (metroPlaying : Bool) :
    (start roster players metroPlaying).Law :=
  resetAll_law roster rfl rfl

end

/-- An action player with one action, at beat 2, and an event player with an
event every four beats. -/
def song : Bool → Player ℤ ℕ
  | true =>
    { kind := .action, doneAction := false
      lista := ⟨0, fun n => if n = 0 then (some 2, 1) else (none, 0)⟩, MUSPOS := 0, ppqOffset := 0
      stream := 0, curlist := none, ppqPos := 0, prevppqPos := ⊥, playing := true, used := false }
  | false =>
    { kind := .event, doneAction := false, lista := ⟨0, fun n => (some 4, n + 1)⟩, MUSPOS := 0
      ppqOffset := 0, stream := 0, curlist := none, ppqPos := 0, prevppqPos := ⊥, playing := true
      used := false }

def songRoster : Roster Bool := ⟨[true, false], by decide, by decide⟩

end Sched

end Lua2SC.Sch
