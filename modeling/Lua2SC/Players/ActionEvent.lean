import Lua2SC.Lib.Machine
import Lua2SC.Lib.Timeline
import Lua2SC.Players.EventPlayer

/-!
# ActionEventPlayer under resets

An `ActionEventPlayer` runs a list of actions, each at its beat `ppq`. It
fetches an action ahead of time and waits with it: `curlist` is the action that
comes next and `ppqPos` its beat. `Pull` runs what lies before the frame, `Play`
what lies in it. When the transport goes back, `theMetro.backwards` resets the
player before the next frame.

`Reset` puts the stream back to its start and `ppqPos` to `-math.huge`, but
leaves `curlist` alone, and `Pull` runs `curlist` when it is not nil. So an
action that is waiting at a reset runs in the next frame, whatever its beat. A
reset that finds nothing waiting does no harm: `actions_in_order` says that in a
run with only such resets the actions of every stretch between two of them are
a prefix of the list, each run in a frame that reaches its beat.

An action may send the transport somewhere else (`GOTO`). It does so in the
middle of the frame, whose end moves with it.
-/

namespace Lua2SC.Players

open Lua2SC.Machine

/-! ## The model -/

/-- What an action does: `GOTO` sets `theMetro.ppqPos`, the others leave the
transport alone. -/
inductive Verb (R : Type) where
  | goto (beat : R)
  | other (id : ℕ)
deriving DecidableEq, Repr

/-- `{ppq=ppq, verb, args}`. -/
structure Action (R : Type) where
  ppq : R
  verb : Verb R
deriving DecidableEq, Repr

/-- The fields of an `ActionEventPlayer`. `stream` is what `lista` has still to
return, `⊥` is `-math.huge`. -/
structure ActionEventPlayer (R : Type) where
  lista : List (Action R)
  doplay : Option Bool
  stream : List (Action R)
  curlist : Option (Action R)
  ppqPos : WithBot R
  prevppqPos : WithBot R
  playing : Bool
  used : Bool

/-- An action that was run, and `curHostTime` at that moment. -/
structure Executed (R : Type) where
  action : Action R
  host : HostTime R
deriving DecidableEq, Repr

/-- The player in a run: the transport, what was run since the last reset, and
what was run in the stretches before, the latest first. -/
structure ActionRun (R : Type) where
  player : ActionEventPlayer R
  host : HostTime R
  executed : List (Executed R)
  past : List (List (Executed R))

variable {R : Type}

namespace ActionEventPlayer

/-- `ActionEventPlayer:UpdatePos`. -/
def UpdatePos (p : ActionEventPlayer R) (curlist : Action R) : ActionEventPlayer R :=
  { p with prevppqPos := p.ppqPos, ppqPos := curlist.ppq }

/-- `ActionEventPlayer:NextVals`; a list that is through starts again by itself. -/
def NextVals (p : ActionEventPlayer R) : ActionEventPlayer R :=
  match p.stream with
  | [] => { p with used := true, curlist := none, stream := p.lista }
  | a :: rest => UpdatePos { p with used := true, curlist := some a, stream := rest } a

/-- `ActionEventPlayer:Reset`. -/
def Reset (p : ActionEventPlayer R) : ActionEventPlayer R :=
  { p with
    stream := p.lista
    ppqPos := ⊥
    prevppqPos := ⊥
    playing := p.doplay.getD true
    used := false }

end ActionEventPlayer

namespace ActionRun

/-- `ActionEventPlayer:playEvent`. -/
def playEvent (r : ActionRun R) (curlist : Action R) : ActionRun R :=
  { r with
    executed := r.executed ++ [⟨curlist, r.host⟩]
    host := match curlist.verb with
      | .goto beat => { r.host with hi := beat }
      | .other _ => r.host }

/-- `if self.curlist then self:playEvent(self.curlist, self.ppqPos) end`; the
loop of `Play` does without the test. -/
def playCurlist (r : ActionRun R) : ActionRun R :=
  match r.player.curlist with
  | none => r
  | some curlist => r.playEvent curlist

/-- `NextVals`, and the end of the list. -/
def fetch (r : ActionRun R) : ActionRun R :=
  let p := r.player.NextVals
  { r with player := { p with playing := p.playing && p.curlist.isSome } }

/-- The loop of `Pull` and `Play`. Every turn but the first takes an action from
the stream, so `left` is one more than the stream has. -/
def actionLoop (continues : ActionRun R → Bool) : ℕ → ActionRun R → ActionRun R
  | 0, r => r
  | left + 1, r =>
    if continues r then
      let r := r.playCurlist.fetch
      if r.player.curlist = none then r else actionLoop continues left r
    else r

variable [LinearOrder R]

/-- `ActionEventPlayer:Pull`. -/
def Pull (r : ActionRun R) : ActionRun R :=
  actionLoop (fun r => r.player.playing && decide (r.player.ppqPos ≤ r.host.oldppqPos))
    (r.player.stream.length + 1) r

/-- `ActionEventPlayer:Play`. -/
def Play (r : ActionRun R) : ActionRun R :=
  let r := r.Pull
  actionLoop (fun r => decide (r.host.oldppqPos < r.player.ppqPos ∧
    r.player.ppqPos ≤ r.host.ppqPos) && r.player.playing) (r.player.stream.length + 1) r

end ActionRun

/-! ## Runs -/

/-- A frame of `d` beats, a jump of the transport between two frames, a reset. -/
inductive TransportAct (R : Type) where
  | frame (d : R)
  | goto (beat : R)
  | reset

namespace ActionRun

/-- `ActionEventPlayer:Reset`; a new stretch begins. -/
def reset (r : ActionRun R) : ActionRun R :=
  { r with player := r.player.Reset, executed := [], past := r.executed :: r.past }

variable [LinearOrder R] [Add R]

/-- `if theMetro.oldppqPos > theMetro.ppqPos then theMetro.backwards(…) end`. -/
def backwards (r : ActionRun R) : ActionRun R :=
  if r.host.ppqPos < r.host.oldppqPos then r.reset else r

/-- One step; a frame is `setMetronomLanes`. -/
def step (r : ActionRun R) : TransportAct R → ActionRun R
  | .frame d =>
    let r := r.backwards
    { r with host := ⟨r.host.ppqPos, r.host.ppqPos + d⟩ }.Play
  | .goto beat => { r with host := { r.host with hi := beat } }
  | .reset => r.reset

/-- The player as `ActionEP{doplay=…}:Bind{actions=LS(lista)}` and `Init` leave it. -/
def start (lista : List (Action R)) (doplay : Option Bool) (host : HostTime R) : ActionRun R :=
  { player :=
      { lista := lista, doplay := doplay, stream := lista, curlist := none, ppqPos := ⊥
        prevppqPos := ⊥, playing := doplay.getD true, used := false }
    host := host
    executed := []
    past := [] }

end ActionRun

/-! ## The law -/

section

variable [LinearOrder R]

/-- The frame reaches the beat of the action. -/
def Executed.InFrame (x : Executed R) : Prop :=
  x.action.ppq ≤ x.host.oldppqPos ∨ x.action.ppq ≤ x.host.ppqPos

/-- What is asked of the actions run in one stretch. -/
structure InListOrder (lista : List (Action R)) (done : List (Executed R)) : Prop where
  isPrefix : (done.map Executed.action) <+: lista
  in_frame : ∀ x ∈ done, x.InFrame

/-- What is asked of a run: every stretch is in order, also the one that is going on. -/
def ActionRun.Law (lista : List (Action R)) (r : ActionRun R) : Prop :=
  ∀ done ∈ r.executed :: r.past, InListOrder lista done

/-- The step resets the player. -/
def ActionRun.Resets (r : ActionRun R) : TransportAct R → Prop
  | .frame _ => r.host.ppqPos < r.host.oldppqPos
  | .goto _ => False
  | .reset => True

/-- A reset finds nothing waiting. -/
def ActionRun.NothingWaits (r : ActionRun R) (act : TransportAct R) : Prop :=
  r.Resets act → r.player.curlist = none

instance (r : ActionRun R) : (act : TransportAct R) → Decidable (r.Resets act)
  | .frame _ => inferInstanceAs (Decidable (r.host.ppqPos < r.host.oldppqPos))
  | .goto _ => isFalse id
  | .reset => isTrue trivial

instance (r : ActionRun R) (act : TransportAct R) [DecidableEq R] :
    Decidable (r.NothingWaits act) :=
  inferInstanceAs (Decidable (r.Resets act → r.player.curlist = none))

end

/-! ## The invariant -/

/-- Where a player stands when `done` have been run: before the first action,
waiting with one, or at rest. -/
inductive Standing (p : ActionEventPlayer R) (done : List (Action R)) : Prop where
  | fresh (hcur : p.curlist = none) (hpos : p.ppqPos = ⊥) (hstream : p.stream = p.lista)
      (hdone : done = [])
  | waiting (a : Action R) (hcur : p.curlist = some a) (hpos : p.ppqPos = a.ppq)
      (hlista : p.lista = done ++ a :: p.stream)
  | resting (hcur : p.curlist = none) (hplaying : p.playing = false) (hdone : done <+: p.lista)

/-- The invariant of a run. -/
structure ActionRun.Good [LinearOrder R] (lista : List (Action R)) (r : ActionRun R) : Prop where
  lista_eq : r.player.lista = lista
  standing : Standing r.player (r.executed.map Executed.action)
  in_frame : ∀ x ∈ r.executed, x.InFrame
  past : ∀ done ∈ r.past, InListOrder lista done

namespace ActionRun

section

variable (r : ActionRun R)

@[simp] theorem fetch_host : r.fetch.host = r.host := rfl

@[simp] theorem fetch_executed : r.fetch.executed = r.executed := rfl

@[simp] theorem fetch_past : r.fetch.past = r.past := rfl

@[simp] theorem fetch_lista : r.fetch.player.lista = r.player.lista := by
  unfold fetch ActionEventPlayer.NextVals
  cases r.player.stream <;> rfl

theorem fetch_curlist : r.fetch.player.curlist = r.player.stream.head? := by
  unfold fetch ActionEventPlayer.NextVals
  cases r.player.stream <;> rfl

@[simp] theorem playCurlist_player : r.playCurlist.player = r.player := by
  unfold playCurlist
  cases r.player.curlist <;> rfl

variable {r}

theorem fetch_stream {a : Action R} {rest : List (Action R)} (h : r.player.stream = a :: rest) :
    r.fetch.player.stream = rest := by
  unfold fetch ActionEventPlayer.NextVals
  rw [h]
  rfl

/-- After the action that was waiting, the next one waits. -/
theorem fetch_standing {done : List (Action R)} (hlista : r.player.lista = done ++ r.player.stream) :
    Standing r.fetch.player done := by
  unfold fetch ActionEventPlayer.NextVals
  cases hstream : r.player.stream with
  | nil =>
    refine Standing.resting rfl (Bool.and_false _) ?_
    show done <+: r.player.lista
    rw [hlista, hstream, List.append_nil]
  | cons a rest =>
    refine Standing.waiting a rfl rfl ?_
    show r.player.lista = done ++ a :: rest
    rw [hlista, hstream]

end

variable [LinearOrder R] {lista : List (Action R)} {r : ActionRun R}

theorem Good.law (h : r.Good lista) : r.Law lista := by
  intro done hdone
  rcases List.mem_cons.mp hdone with rfl | hpast
  · refine ⟨?_, h.in_frame⟩
    rw [← h.lista_eq]
    cases h.standing with
    | fresh _ _ _ hdone =>
      rw [hdone]
      exact List.nil_prefix
    | waiting a _ _ hlista => exact ⟨_, hlista.symm⟩
    | resting _ _ hdone => exact hdone
  · exact h.past done hpast

/-- A loop goes on only for a player that plays, and only when the frame
reaches the action that is waiting. -/
def Reaches (continues : ActionRun R → Bool) : Prop :=
  ∀ r : ActionRun R, continues r = true → r.player.playing = true ∧
    ∀ a, r.player.ppqPos = a.ppq → (⟨a, r.host⟩ : Executed R).InFrame

/-- **One turn** of either loop. -/
theorem turn_good {continues : ActionRun R → Bool} (hreach : Reaches continues) (h : r.Good lista)
    (hc : continues r = true) : r.playCurlist.fetch.Good lista := by
  obtain ⟨hplaying, hdue⟩ := hreach r hc
  unfold playCurlist
  cases h.standing with
  | fresh hcur hpos hstream hdone =>
    -- nothing to run yet: the first action is fetched
    rw [hcur]
    refine ⟨?_, ?_, h.in_frame, h.past⟩
    · rw [fetch_lista, h.lista_eq]
    · rw [fetch_executed]
      refine fetch_standing ?_
      rw [hdone, hstream, List.nil_append]
  | waiting a hcur hpos hlista =>
    rw [hcur]
    refine ⟨?_, ?_, ?_, h.past⟩
    · rw [fetch_lista]
      exact h.lista_eq
    · show Standing _ ((r.executed ++ [(⟨a, r.host⟩ : Executed R)]).map Executed.action)
      refine fetch_standing ?_
      rw [List.map_append, List.append_assoc]
      exact hlista
    · intro x hx
      rcases List.mem_append.mp hx with hold | hnew
      · exact h.in_frame x hold
      · rw [List.mem_singleton.mp hnew]
        exact hdue a hpos
  | resting hcur hrest hdone =>
    rw [hrest] at hplaying
    cases hplaying

/-- A loop keeps the invariant. -/
theorem actionLoop_good {continues : ActionRun R → Bool} (hreach : Reaches continues) :
    ∀ (left : ℕ) {r : ActionRun R}, r.Good lista → (actionLoop continues left r).Good lista := by
  intro left
  induction left with
  | zero => intro r h; exact h
  | succ left ih =>
    intro r h
    rw [actionLoop]
    split
    next hc =>
      have hturn := turn_good hreach h hc
      dsimp only
      split
      · exact hturn
      · exact ih hturn
    · exact h

omit [LinearOrder R] in
/-- **The loop ends by itself**: at the end of the list, or because it does not
go on. -/
theorem actionLoop_ends (continues : ActionRun R → Bool) :
    ∀ (left : ℕ) (r : ActionRun R), r.player.stream.length < left →
      (actionLoop continues left r).player.curlist = none ∨
        continues (actionLoop continues left r) = false := by
  intro left
  induction left with
  | zero => intro r hlt; omega
  | succ left ih =>
    intro r hlt
    rw [actionLoop]
    split
    next hc =>
      dsimp only
      split
      next hnone => exact Or.inl hnone
      next hsome =>
        refine ih _ ?_
        rw [fetch_curlist, playCurlist_player] at hsome
        cases hstream : r.player.stream with
        | nil => exact absurd (by rw [hstream]; rfl) hsome
        | cons a rest =>
          rw [hstream, List.length_cons] at hlt
          have hplayed : r.playCurlist.player.stream = a :: rest := by
            rw [playCurlist_player, hstream]
          rw [fetch_stream hplayed]
          omega
    next hc => exact Or.inr (by simpa using hc)

theorem Pull_good (h : r.Good lista) : r.Pull.Good lista := by
  refine actionLoop_good (fun r hc => ?_) _ h
  rw [Bool.and_eq_true, decide_eq_true_eq] at hc
  refine ⟨hc.1, fun a hpos => Or.inl ?_⟩
  rw [hpos] at hc
  exact WithBot.coe_le_coe.mp hc.2

theorem Play_good (h : r.Good lista) : r.Play.Good lista := by
  refine actionLoop_good (fun r hc => ?_) _ (Pull_good h)
  rw [Bool.and_eq_true, decide_eq_true_eq] at hc
  refine ⟨hc.2, fun a hpos => Or.inr ?_⟩
  rw [hpos] at hc
  exact WithBot.coe_le_coe.mp hc.1.2

/-- A reset that finds nothing waiting starts a new stretch. -/
theorem reset_good (h : r.Good lista) (hcur : r.player.curlist = none) : r.reset.Good lista := by
  refine ⟨h.lista_eq, Standing.fresh hcur rfl rfl rfl, ?_, h.law⟩
  intro x hx
  cases hx

variable [Add R]

theorem step_good {act : TransportAct R} (h : r.Good lista) (hok : r.NothingWaits act) :
    (r.step act).Good lista := by
  cases act with
  | frame d =>
    have hback : r.backwards.Good lista := by
      unfold backwards
      split
      next hlt => exact reset_good h (hok hlt)
      · exact h
    exact Play_good ⟨hback.lista_eq, hback.standing, hback.in_frame, hback.past⟩
  | goto beat => exact ⟨h.lista_eq, h.standing, h.in_frame, h.past⟩
  | reset => exact reset_good h (hok trivial)

omit [Add R] in
theorem start_good (lista : List (Action R)) (doplay : Option Bool) (host : HostTime R) :
    (start lista doplay host).Good lista := by
  refine ⟨rfl, Standing.fresh rfl rfl rfl rfl, ?_, ?_⟩
  · intro x hx
    cases hx
  · intro done hdone
    cases hdone

/-- **The actions run in order**, each once and in a frame that reaches its
beat, in every stretch between two resets, in every run whose resets find
nothing waiting. -/
theorem actions_in_order (lista : List (Action R)) (doplay : Option Bool) (host : HostTime R)
    {acts : List (TransportAct R)}
    (h : Guarded step NothingWaits (start lista doplay host) acts) (n : ℕ) :
    (run step (start lista doplay host) (acts.take n)).Law lista := by
  refine Good.law ?_
  exact (h.take n).invariant (I := Good lista) (fun r act hr hok => step_good hr hok)
    (start_good lista doplay host)

/-- Two actions, the second far ahead. -/
def twoActions : List (Action ℤ) := [⟨1, .other 0⟩, ⟨5, .other 1⟩]

/-- The player runs both actions and is through before the transport goes back. -/
theorem actions_in_order_back :
    (run step (start twoActions none ⟨0, 0⟩)
      [.frame 2, .frame 4, .goto 0, .frame 2, .frame 4]).Law twoActions :=
  actions_in_order twoActions none ⟨0, 0⟩
    (show Guarded step NothingWaits _ [.frame 2, .frame 4, .goto 0, .frame 2, .frame 4] by
      decide +kernel) 5

/-- **An action that is waiting at a reset** runs in the next frame, before its
beat and before the first one. -/
theorem waiting_action_runs :
    ¬ ∀ n, (run step (start twoActions none ⟨0, 0⟩)
      ([.frame 2, .goto (-1), .frame 1].take n)).Law twoActions := by
  intro h
  have hlaw := h 3
  have hexec : (run step (start twoActions none ⟨0, 0⟩)
      [.frame 2, .goto (-1), .frame 1]).executed.map Executed.action = [⟨5, .other 1⟩] := by
    decide +kernel
  have hprefix := (hlaw _ (List.mem_cons_self ..)).isPrefix
  rw [show ([.frame 2, .goto (-1), .frame 1] : List (TransportAct ℤ)).take 3 =
    [.frame 2, .goto (-1), .frame 1] from rfl, hexec] at hprefix
  exact absurd hprefix (by decide)

end ActionRun

end Lua2SC.Players
