import Lua2SC.Lib.Timeline
import Lua2SC.Players.Event

/-!
# EventPlayer: playing a stream of events frame by frame

The base class of the players. The metronome calls `Play` once a frame, with
the beats `[oldppqPos, ppqPos)` of the frame in `curHostTime`. `Play` first
catches up (`Pull`): every event that lies before the frame is fetched and
handed to `playEvent` with `self.pulling` set. Then it plays the events that
lie in the frame. `NextVals` fetches an event and runs the filters over it,
`UpdatePos` moves the player on by the event's `delta`.

The loops are bounded by a fuel that counts their turns; a loop that uses it
up is reported as `spinning`. (A stream whose deltas add up to less than what
is left of the frame keeps the source's loop busy for ever.) An error raised
by `playEvent`, or by adding a `delta` that is no number, ends the run.

`playEvent` is overridden by the classes, so it is a field of `PlayerClass`,
as is the instance's `doneAction`. The stream is any state machine. What
`playEvent` is given, in order, is kept in `calls`.

Seen from above, a stream with the player's start is a track (`track`):
event `i` stands at `MUSPOS + ppqOffset` plus the deltas before it. `At` says
that a player has played the first `k` events of its track and stands at the
next; `At.turn` is what one turn of either loop does from there.
-/

namespace Lua2SC.Players

open Lua2SC.Lua Lua2SC.Timeline

/-! ## The model -/

/-- `curHostTime`, as far as the players look at it: the beats of a frame. -/
abbrev HostTime (R : Type*) := Window R

/-- Where the frame starts. -/
abbrev HostTime.oldppqPos {R : Type*} (t : HostTime R) : R := t.lo

/-- Where the frame ends. -/
abbrev HostTime.ppqPos {R : Type*} (t : HostTime R) : R := t.hi

/-- A stream of events: where it stands after `reset()`, and `nextval`. -/
structure EventStream (R S : Type*) where
  init : S
  nextval : S → Option (Event R) × S

/-- The fields of a player that `Play` works with. `stream` is where `lista`
stands, `prevppqPos` is `none` for `-math.huge`. -/
structure EventPlayer (R S : Type*) where
  lista : EventStream R S
  Filters : List (LString × (Event R → Option (Val R)))
  MUSPOS : R
  ppqOffset : R
  doplay : Option Bool
  stream : S
  curlist : Option (Event R)
  ppqPos : R
  prevppqPos : Option R
  playing : Bool
  used : Bool
  pulling : Bool

/-- What `playEvent` is given, and `self.pulling` at that moment. -/
structure Call (R : Type*) where
  lista : Event R
  beatTime : R
  beatLen : Option (Val R)
  delta : Option (Val R)
  pulling : Bool

/-- What a class, or an instance of it, brings along. -/
structure PlayerClass (R S σ : Type*) where
  playEvent : Call R → σ → LuaM σ
  doneAction : Option (EventPlayer R S → EventPlayer R S)

/-- A player in the middle of a run: its base fields, the fields of its class,
and the calls of `playEvent` so far. -/
structure Running (R S σ : Type*) where
  ep : EventPlayer R S
  self : σ
  calls : List (Call R)

/-- Why a run stopped before its frames were over. -/
inductive Halt (R : Type*) where
  | spinning
  | error (during : Call R) (msg : String)

variable {R S σ : Type*}

namespace EventPlayer

/-- The filters: `curlist[k] = v(curlist)` for every key that is there. -/
def filter (fs : List (LString × (Event R → Option (Val R)))) (curlist : Event R) : Event R :=
  fs.foldl (fun curlist kv =>
    if truthy (curlist.lookup kv.1) then
      match kv.2 curlist with
      | some v => curlist.insert kv.1 v
      | none => curlist.erase kv.1
    else curlist) curlist

/-- `EventPlayer:NextVals`. There is a next event when `curlist` is not nil
afterwards. -/
def NextVals (ep : EventPlayer R S) : EventPlayer R S :=
  let next := ep.lista.nextval ep.stream
  { ep with used := true, stream := next.2, curlist := next.1.map (filter ep.Filters) }

variable [AddCommMonoid R]

/-- `EventPlayer:UpdatePos`. -/
def UpdatePos (ep : EventPlayer R S) (dur : Option (Val R)) : LuaM (EventPlayer R S) :=
  match dur with
  | some (.num d) => .ok { ep with prevppqPos := some ep.ppqPos, ppqPos := ep.ppqPos + d }
  | _ => .error "attempt to perform arithmetic on local 'dur'"

/-- `EventPlayer:Reset`. -/
def Reset (ep : EventPlayer R S) : EventPlayer R S :=
  { ep with
    stream := ep.lista.init
    ppqPos := ep.MUSPOS + ep.ppqOffset
    prevppqPos := none
    playing := ep.doplay.getD true
    used := false }

end EventPlayer

open EventPlayer

section Play

variable [AddCommMonoid R] (cls : PlayerClass R S σ)

/-- `playEvent(curlist, ppqPos, curlist.dur, curlist.delta)` and
`UpdatePos(curlist.delta)`, the body of both loops. -/
def playCurlist (p : Running R S σ) (curlist : Event R) : Running R S σ × Option (Halt R) :=
  let call : Call R :=
    { lista := curlist
      beatTime := p.ep.ppqPos
      beatLen := curlist.lookup (ascii "dur")
      delta := curlist.lookup (ascii "delta")
      pulling := p.ep.pulling }
  let p := { p with calls := p.calls ++ [call] }
  match cls.playEvent call p.self with
  | .error e => (p, some (.error call e))
  | .ok self =>
    match p.ep.UpdatePos call.delta with
    | .error e => ({ p with self := self }, some (.error call e))
    | .ok ep => ({ p with self := self, ep := ep }, none)

/-- The loop of `Pull` and `Play`: while `continues` holds, fetch the next
event and play it. At the end of the stream a player that is still playing is
`finished` with, stops, and leaves the loop. -/
def eventLoop (continues : EventPlayer R S → Bool)
    (finished : EventPlayer R S → EventPlayer R S) :
    ℕ → Running R S σ → Running R S σ × Option (Halt R)
  | 0, p => (p, some .spinning)
  | fuel + 1, p =>
    if continues p.ep = true then
      let p := { p with ep := p.ep.NextVals }
      match p.ep.curlist with
      | none =>
        let ep := if p.ep.playing then finished p.ep else p.ep
        ({ p with ep := { ep with playing := false } }, none)
      | some curlist =>
        match playCurlist cls p curlist with
        | (p, none) => eventLoop continues finished fuel p
        | halted => halted
    else (p, none)

variable [LinearOrder R]

/-- The loop of `EventPlayer:Pull`: while playing and before the frame. The
end of the stream runs `doneAction`, if there is one. -/
def pullLoop (curHostTime : HostTime R) : ℕ → Running R S σ → Running R S σ × Option (Halt R) :=
  eventLoop cls (fun ep => ep.playing && decide (ep.ppqPos < curHostTime.oldppqPos))
    (cls.doneAction.getD id)

/-- `EventPlayer:Pull`. -/
def Pull (curHostTime : HostTime R) (fuel : ℕ) (p : Running R S σ) :
    Running R S σ × Option (Halt R) :=
  match pullLoop cls curHostTime fuel { p with ep := { p.ep with pulling := true } } with
  | (p, none) => ({ p with ep := { p.ep with pulling := false } }, none)
  | halted => halted

/-- The loop of `EventPlayer:Play`: while inside the frame, without a look at
`playing`. The end of the stream runs `doneAction` or else resets. -/
def playLoop (curHostTime : HostTime R) : ℕ → Running R S σ → Running R S σ × Option (Halt R) :=
  eventLoop cls
    (fun ep => decide (curHostTime.oldppqPos ≤ ep.ppqPos ∧ ep.ppqPos < curHostTime.ppqPos))
    (cls.doneAction.getD Reset)

/-- `EventPlayer:Play`. -/
def Play (fuel : ℕ) (curHostTime : HostTime R) (p : Running R S σ) :
    Running R S σ × Option (Halt R) :=
  if p.ep.playing = false then (p, none)
  else
    match Pull cls curHostTime fuel p with
    | (p, none) => playLoop cls curHostTime fuel p
    | halted => halted

/-- A run over frames. -/
def playFrames (fuel : ℕ) : List (HostTime R) → Running R S σ → Running R S σ × Option (Halt R)
  | [], p => (p, none)
  | curHostTime :: frames, p =>
    match Play cls fuel curHostTime p with
    | (p, none) => playFrames fuel frames p
    | halted => halted

/-- The run of a player that has just been reset. -/
def runFrames (fuel : ℕ) (frames : List (HostTime R)) (ep : EventPlayer R S) (self : σ) :
    Running R S σ × Option (Halt R) :=
  playFrames cls fuel frames { ep := ep.Reset, self := self, calls := [] }

end Play

/-! ## The track of a player -/

namespace EventPlayer

/-- Where the stream stands before its `i`-th `nextval`. -/
def streamAt (ep : EventPlayer R S) : ℕ → S
  | 0 => ep.lista.init
  | i + 1 => (ep.lista.nextval (ep.streamAt i)).2

/-- The `i`-th event, after the filters. -/
def eventAt (ep : EventPlayer R S) (i : ℕ) : Option (Event R) :=
  (ep.lista.nextval (ep.streamAt i)).1.map (filter ep.Filters)

/-- The beats to the next event. -/
def deltaOf [Zero R] (lista : Event R) : R :=
  match lista.lookup (ascii "delta") with
  | some (.num d) => d
  | _ => 0

variable [AddCommMonoid R]

/-- The events of a player on its time line. -/
def track (ep : EventPlayer R S) : Track (Event R) R :=
  { item := ep.eventAt, start := ep.MUSPOS + ep.ppqOffset, delta := deltaOf }

theorem track_pause {ep : EventPlayer R S} {i : ℕ} {lista : Event R} {d : R}
    (hi : ep.eventAt i = some lista) (hd : lista.lookup (ascii "delta") = some (.num d)) :
    ep.track.pause i = d := by
  simp only [Track.pause, track, hi, Option.elim_some, deltaOf, hd]

variable [LinearOrder R]

/-- Every event has a number as its `delta`, and it is not negative. -/
def NonNegDeltas (ep : EventPlayer R S) : Prop :=
  ∀ i lista, ep.eventAt i = some lista →
    ∃ d, lista.lookup (ascii "delta") = some (.num d) ∧ 0 ≤ d

theorem NonNegDeltas.nonNeg {ep : EventPlayer R S} (h : ep.NonNegDeltas) : ep.track.NonNeg := by
  intro i lista hi
  obtain ⟨d, hd, hnonneg⟩ := h i lista hi
  have hdelta : ep.track.delta lista = d := by simp only [track, deltaOf, hd]
  rw [hdelta]
  exact hnonneg

/-- What `playEvent` is given for the `i`-th event in a run over these frames:
the event at its own position, pulled when no frame has that position. -/
def callAt (ep : EventPlayer R S) (frames : List (HostTime R)) (i : ℕ) : Option (Call R) :=
  (ep.eventAt i).map fun lista =>
    { lista := lista
      beatTime := ep.track.pos i
      beatLen := lista.lookup (ascii "dur")
      delta := lista.lookup (ascii "delta")
      pulling := decide (Skipped frames (ep.track.pos i)) }

end EventPlayer

/-! ## What one turn does -/

section Turn

variable [AddCommMonoid R] [LinearOrder R]

/-- The calls so far are those for the first `k` events, all before `e`. -/
def Made (ep : EventPlayer R S) (frames : List (HostTime R)) (e : R) (k : ℕ)
    (calls : List (Call R)) : Prop :=
  calls.map some = (List.range k).map (ep.callAt frames) ∧ ∀ j < k, ep.track.pos j < e

/-- The player has played the first `k` events and stands at the next one. -/
structure At (ep : EventPlayer R S) (frames : List (HostTime R)) (e : R) (k : ℕ)
    (p : Running R S σ) : Prop where
  lista : p.ep.lista = ep.lista
  filters : p.ep.Filters = ep.Filters
  origin : p.ep.MUSPOS + p.ep.ppqOffset = ep.MUSPOS + ep.ppqOffset
  stream : p.ep.stream = ep.streamAt k
  ppqPos : p.ep.ppqPos = ep.track.pos k
  playing : p.ep.playing = true
  made : Made ep frames e k p.calls

variable {ep : EventPlayer R S} {frames : List (HostTime R)} {e : R} {k : ℕ}
  {p : Running R S σ}

theorem Made.snoc {calls : List (Call R)} (h : Made ep frames e k calls) {call : Call R}
    (hcall : ep.callAt frames k = some call) (hk : ep.track.pos k < e) :
    Made ep frames e (k + 1) (calls ++ [call]) := by
  refine ⟨?_, ?_⟩
  · rw [List.map_append, h.1, List.range_succ, List.map_append, List.map_singleton,
      List.map_singleton, hcall]
  · intro j hj
    rcases Nat.lt_succ_iff_lt_or_eq.mp hj with hj | rfl
    · exact h.2 j hj
    · exact hk

/-- A call made is the one that belongs to its place. -/
theorem Made.getElem {calls : List (Call R)} (h : Made ep frames e k calls) (i : ℕ) :
    calls[i]? = if i < k then ep.callAt frames i else none := by
  have hlen : calls.length = k := by
    have hmap := congrArg List.length h.1
    simpa using hmap
  have hget : (calls.map some)[i]? = ((List.range k).map (ep.callAt frames))[i]? := by rw [h.1]
  rw [List.getElem?_map, List.getElem?_map] at hget
  by_cases hi : i < k
  · rw [List.getElem?_range hi] at hget
    rw [List.getElem?_eq_getElem (hlen ▸ hi)] at hget ⊢
    rw [if_pos hi]
    exact Option.some.inj hget
  · rw [if_neg hi]
    exact List.getElem?_eq_none (by omega)

/-- `NextVals` fetches the event the player stands at. -/
theorem At.nextVals (h : At ep frames e k p) : p.ep.NextVals.curlist = ep.eventAt k := by
  unfold EventPlayer.NextVals EventPlayer.eventAt
  rw [h.lista, h.filters, h.stream]

/-- **One turn plays the event the player stands at**, at its position, and
moves on to the next, or it ends in an error of that call. -/
theorem At.turn (cls : PlayerClass R S σ) (h : At ep frames e k p) (hd : ep.NonNegDeltas)
    {lista : Event R} (hev : ep.eventAt k = some lista) (hk : ep.track.pos k < e)
    (hpull : p.ep.pulling = decide (Skipped frames (ep.track.pos k))) :
    let r := playCurlist cls { p with ep := p.ep.NextVals } lista
    (r.2 = none ∧ At ep frames e (k + 1) r.1 ∧ r.1.ep.pulling = p.ep.pulling) ∨
      ∃ call msg, r.2 = some (.error call msg) ∧ Made ep frames e (k + 1) r.1.calls ∧
        ep.callAt frames k = some call ∧ ∃ self, cls.playEvent call self = .error msg := by
  obtain ⟨d, hdelta, -⟩ := hd k lista hev
  have hcall : ep.callAt frames k = some
      { lista := lista
        beatTime := p.ep.NextVals.ppqPos
        beatLen := lista.lookup (ascii "dur")
        delta := lista.lookup (ascii "delta")
        pulling := p.ep.NextVals.pulling } := by
    have hpos : p.ep.NextVals.ppqPos = ep.track.pos k := h.ppqPos
    have hflag : p.ep.NextVals.pulling = decide (Skipped frames (ep.track.pos k)) := hpull
    rw [hpos, hflag, EventPlayer.callAt, hev]
    rfl
  have hmade := h.made.snoc hcall hk
  intro r
  cases hplay : cls.playEvent _ p.self with
  | error msg =>
    refine Or.inr ⟨_, msg, ?_, ?_, hcall, p.self, hplay⟩
    · simp only [r, playCurlist, hplay]
    · simp only [r, playCurlist, hplay]
      exact hmade
  | ok self =>
    have hup : p.ep.NextVals.UpdatePos (lista.lookup (ascii "delta")) = .ok
        { p.ep.NextVals with
          prevppqPos := some p.ep.NextVals.ppqPos, ppqPos := p.ep.NextVals.ppqPos + d } := by
      simp only [EventPlayer.UpdatePos, hdelta]
    simp only [r, playCurlist, hplay, hup]
    refine Or.inl ⟨trivial, ⟨h.lista, h.filters, h.origin, ?_, ?_, h.playing, hmade⟩, rfl⟩
    · simp only [EventPlayer.NextVals, EventPlayer.streamAt]
      rw [h.lista, h.stream]
    · have hpause := EventPlayer.track_pause hev hdelta
      rw [Track.pos, hpause, ← h.ppqPos]
      rfl

end Turn

end Lua2SC.Players
