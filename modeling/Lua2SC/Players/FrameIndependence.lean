import Lua2SC.Players.EventPlayer

/-!
# Frame independence of EventPlayer

From one turn (`At.turn`) to a loop, from the two loops to a frame, from a
frame to a run: each is described by the same `Outcome`. A loop, a frame or a
run up to a limit leaves the player at the first event behind the limit, or
stopped at the end of its stream, or in an error of `playEvent`, or with its
fuel used up; and whichever it is, the calls made so far are those of the
first events of the track, in order, each at its own position (`Made`).

What a frame needs to know of the player that comes into it is only where it
stands. In contiguous frames a player is never behind the frame, so `Pull`
has nothing to fetch; in frames that jump forward it fetches what lies in the
gap, and the call of such an event is marked as pulled (`callAt`). Frames of
both kinds are `Admissible`; a jump also needs that the `doneAction` of a
stream that ends in the gap does not move the player forward, since the loop
of `Play` does not look at `playing`.

`frame_independence` compares two partitions of the same beats.
-/

namespace Lua2SC.Players

open Lua2SC.Lua Lua2SC.Timeline

variable {R S σ : Type*}

open EventPlayer

/-! ## What a run keeps -/

section Keeps

/-- What is kept by a call of `playEvent`, whether it returns or not. -/
structure PlayerClass.Keeps (cls : PlayerClass R S σ) (I : List (Call R) → σ → Prop) : Prop where
  raised : ∀ {calls call self}, I calls self → I (calls ++ [call]) self
  returned : ∀ {calls call self self'}, I calls self → cls.playEvent call self = .ok self' →
    I (calls ++ [call]) self'

variable [AddCommMonoid R] {cls : PlayerClass R S σ} {I : List (Call R) → σ → Prop}

theorem playCurlist_keeps (hI : cls.Keeps I) {p : Running R S σ} (h : I p.calls p.self)
    (curlist : Event R) :
    I (playCurlist cls p curlist).1.calls (playCurlist cls p curlist).1.self := by
  unfold playCurlist
  dsimp only
  cases hplay : cls.playEvent _ p.self with
  | error e => exact hI.raised h
  | ok self =>
    dsimp only
    split
    · exact hI.returned h hplay
    · exact hI.returned h hplay

theorem eventLoop_keeps (hI : cls.Keeps I) (continues : EventPlayer R S → Bool)
    (finished : EventPlayer R S → EventPlayer R S) (fuel : ℕ) :
    ∀ p : Running R S σ, I p.calls p.self →
      I (eventLoop cls continues finished fuel p).1.calls
        (eventLoop cls continues finished fuel p).1.self := by
  induction fuel with
  | zero => intro p h; exact h
  | succ fuel ih =>
    intro p h
    unfold eventLoop
    split
    · dsimp only
      cases p.ep.NextVals.curlist with
      | none => exact h
      | some curlist =>
        have hturn := playCurlist_keeps hI (p := { p with ep := p.ep.NextVals }) h curlist
        dsimp only
        generalize playCurlist cls _ curlist = r at hturn
        obtain ⟨q, halt⟩ := r
        cases halt with
        | none => exact ih q hturn
        | some e => exact hturn
    · exact h

variable [LinearOrder R]

theorem Play_keeps (hI : cls.Keeps I) {p : Running R S σ} (h : I p.calls p.self) (fuel : ℕ)
    (frame : HostTime R) :
    I (Play cls fuel frame p).1.calls (Play cls fuel frame p).1.self := by
  unfold Play
  split
  · exact h
  · have hpull : I (Pull cls frame fuel p).1.calls (Pull cls frame fuel p).1.self := by
      have hloop := eventLoop_keeps hI
        (fun ep => ep.playing && decide (ep.ppqPos < frame.oldppqPos)) (cls.doneAction.getD id) fuel
        { p with ep := { p.ep with pulling := true } } h
      unfold Pull pullLoop
      split
      next heq => rw [heq] at hloop; exact hloop
      next => exact hloop
    split
    next q heq =>
      rw [heq] at hpull
      exact eventLoop_keeps hI _ _ fuel q hpull
    next => exact hpull

/-- **The invariant rule of a run.** -/
theorem runFrames_keeps (hI : cls.Keeps I) {self : σ} (h : I [] self) (fuel : ℕ)
    (frames : List (HostTime R)) (ep : EventPlayer R S) :
    I (runFrames cls fuel frames ep self).1.calls (runFrames cls fuel frames ep self).1.self := by
  have hframes : ∀ (fs : List (HostTime R)) (p : Running R S σ), I p.calls p.self →
      I (playFrames cls fuel fs p).1.calls (playFrames cls fuel fs p).1.self := by
    intro fs
    induction fs with
    | nil => intro p h; exact h
    | cons frame fs ih =>
      intro p h
      have hplay := Play_keeps hI h fuel frame
      unfold playFrames
      split
      next q heq =>
        rw [heq] at hplay
        exact ih q hplay
      next => exact hplay
  exact hframes frames _ h

end Keeps

/-! ## Loops, frames and runs -/

section Runs

variable [AddCommMonoid R] [LinearOrder R] (cls : PlayerClass R S σ)

/-- The `doneAction` does not move the player forward. -/
def PlayerClass.StaysPut : Prop :=
  ∀ f, cls.doneAction = some f → ∀ ep, (f ep).ppqPos ≤ ep.ppqPos

/-- How a loop, a frame or a run up to `lim` leaves the player: it has come to
an event at or behind `lim`, or the stream has ended (and `stopped` holds of
the player), or a `playEvent` has raised an error, or the fuel is used up, and
then at least `bound` events have been played. -/
inductive Outcome (ep : EventPlayer R S) (frames : List (HostTime R)) (e lim : R) (bound : ℕ)
    (stopped : EventPlayer R S → Prop) : Running R S σ × Option (Halt R) → Prop where
  | reached {k p} : At ep frames e k p → lim ≤ ep.track.pos k →
      Outcome ep frames e lim bound stopped (p, none)
  | ended {k p} : Made ep frames e k p.calls → ep.eventAt k = none → p.ep.playing = false →
      stopped p.ep → Outcome ep frames e lim bound stopped (p, none)
  | raised {k p call msg} : Made ep frames e k p.calls → call ∈ p.calls →
      (∃ self, cls.playEvent call self = .error msg) →
      Outcome ep frames e lim bound stopped (p, some (.error call msg))
  | spinning {k p} : Made ep frames e k p.calls → bound ≤ k →
      Outcome ep frames e lim bound stopped (p, some .spinning)

variable {cls} {ep : EventPlayer R S} {frames : List (HostTime R)} {e : R}

/-- **A loop plays what lies before its limit.** The three side conditions say
what the limit has to do with the loop's own test, with `pulling`, and with
what happens at the end of the stream. -/
theorem eventLoop_outcome (hd : ep.NonNegDeltas) {continues : EventPlayer R S → Bool}
    {finished : EventPlayer R S → EventPlayer R S} {lim : R} {flag : Bool}
    {stopped : EventPlayer R S → Prop} (hlim : lim ≤ e)
    (fuel : ℕ) :
    ∀ (k : ℕ) (p : Running R S σ), At ep frames e k p → p.ep.pulling = flag →
      (∀ j (p : Running R S σ), k ≤ j → At ep frames e j p →
        (continues p.ep = true ↔ ep.track.pos j < lim)) →
      (∀ j, k ≤ j → ep.track.pos j < lim → decide (Skipped frames (ep.track.pos j)) = flag) →
      (∀ j (p : Running R S σ), k ≤ j → At ep frames e j p → ep.track.pos j < lim →
        stopped { finished p.ep.NextVals with playing := false }) →
      Outcome cls ep frames e lim (k + fuel) stopped
        (eventLoop cls continues finished fuel p) := by
  induction fuel with
  | zero =>
    intro k p hat _ _ _ _
    exact .spinning hat.made le_rfl
  | succ fuel ih =>
    intro k p hat hpull hcont hflag hfin
    unfold eventLoop
    by_cases hgo : continues p.ep = true
    · rw [if_pos hgo]
      have hk := (hcont k p le_rfl hat).mp hgo
      dsimp only
      rw [hat.nextVals]
      cases hev : ep.eventAt k with
      | none =>
        have hplaying : p.ep.NextVals.playing = true := hat.playing
        dsimp only
        rw [if_pos hplaying]
        exact .ended hat.made hev rfl (hfin k p le_rfl hat hk)
      | some lista =>
        dsimp only
        have hturn := hat.turn cls hd hev (hk.trans_le hlim)
          (by rw [hpull, hflag k le_rfl hk])
        generalize playCurlist cls _ lista = r at hturn ⊢
        obtain ⟨q, halt⟩ := r
        rcases hturn with ⟨hnone, hat', hpull'⟩ | ⟨call, msg, hsome, hmade, hcall, hraise⟩
        · dsimp only at hnone hat' hpull'
          subst hnone
          have hrest := ih (k + 1) q hat' (hpull'.trans hpull)
            (fun j p hj => hcont j p (by omega)) (fun j hj => hflag j (by omega))
            (fun j p hj => hfin j p (by omega))
          rwa [Nat.add_right_comm] at hrest
        · dsimp only at hsome hmade
          subst hsome
          have hmem : call ∈ q.calls := by
            have hget := hmade.getElem k
            rw [if_pos (Nat.lt_succ_self k), hcall] at hget
            exact List.mem_of_getElem? hget
          exact .raised hmade hmem hraise
    · rw [if_neg hgo]
      have hk : lim ≤ ep.track.pos k :=
        not_lt.mp fun hlt => hgo ((hcont k p le_rfl hat).mpr hlt)
      exact .reached hat hk

/-- Whatever the outcome, the calls are those of the first events before `e`. -/
theorem Outcome.made {lim : R} {bound : ℕ} {stopped : EventPlayer R S → Prop}
    {r : Running R S σ × Option (Halt R)} (h : Outcome cls ep frames e lim bound stopped r) :
    ∃ k, Made ep frames e k r.1.calls := by
  cases h with
  | @reached k _ hat _ => exact ⟨k, hat.made⟩
  | @ended k _ hmade _ _ _ => exact ⟨k, hmade⟩
  | @raised k _ _ _ hmade _ _ => exact ⟨k, hmade⟩
  | @spinning k _ hmade _ => exact ⟨k, hmade⟩

theorem At.reset (h : ep.doplay.getD true = true) (self : σ) :
    At ep frames e 0 { ep := ep.Reset, self := self, calls := [] } where
  lista := rfl
  filters := rfl
  origin := rfl
  stream := rfl
  ppqPos := rfl
  playing := h
  made := ⟨rfl, fun j hj => absurd hj (Nat.not_lt_zero j)⟩

variable [IsOrderedAddMonoid R]

theorem Pull_outcome (cls : PlayerClass R S σ) (hd : ep.NonNegDeltas) {frame : HostTime R}
    {k : ℕ} {p : Running R S σ}
    (hat : At ep frames e k p) (hlim : frame.oldppqPos ≤ e)
    (hadm : frame.oldppqPos ≤ ep.track.pos k ∨ cls.StaysPut)
    (hskip : ∀ j, k ≤ j → ep.track.pos j < frame.oldppqPos →
      Skipped frames (ep.track.pos j)) (fuel : ℕ) :
    Outcome cls ep frames e frame.oldppqPos (k + fuel) (fun q => q.ppqPos < frame.oldppqPos)
      (Pull cls frame fuel p) := by
  have hloop : Outcome cls ep frames e frame.oldppqPos (k + fuel)
      (fun q => q.ppqPos < frame.oldppqPos)
      (pullLoop cls frame fuel { p with ep := { p.ep with pulling := true } }) := by
    refine eventLoop_outcome hd hlim fuel k _
      ⟨hat.lista, hat.filters, hat.origin, hat.stream, hat.ppqPos, hat.playing, hat.made⟩
      (Eq.refl true) ?_ ?_ ?_
    · intro j p _ hat
      simp only [hat.playing, hat.ppqPos, Bool.true_and, decide_eq_true_eq]
    · intro j hj hlt
      exact decide_eq_true (hskip j hj hlt)
    · intro j p hj hat' hlt
      rcases hadm with hle | hput
      · exact absurd (hle.trans (hd.nonNeg.pos_mono hj)) (not_le.mpr hlt)
      · have hpos : p.ep.NextVals.ppqPos < frame.oldppqPos := hat'.ppqPos ▸ hlt
        cases hact : cls.doneAction with
        | none => exact hpos
        | some f => exact (hput f hact _).trans_lt hpos
  unfold Pull
  generalize pullLoop cls frame fuel _ = r at hloop
  cases hloop with
  | reached hat hle =>
    exact .reached ⟨hat.lista, hat.filters, hat.origin, hat.stream, hat.ppqPos, hat.playing,
      hat.made⟩ hle
  | ended hmade hev hplay hstop => exact .ended hmade hev hplay hstop
  | raised hmade hmem hraise => exact .raised hmade hmem hraise
  | spinning hmade hk => exact .spinning hmade hk

omit [IsOrderedAddMonoid R] in
theorem Pull_pulling {frame : HostTime R} {fuel : ℕ} {p q : Running R S σ}
    (h : Pull cls frame fuel p = (q, none)) : q.ep.pulling = false := by
  unfold Pull at h
  split at h
  · rw [← (Prod.mk.inj h).1]
  next hne => exact absurd h (fun heq => hne q heq)

/-- **One frame** plays what lies before its end. The player comes into it at
event `k`, at or behind `b`, where the frames that are still ahead begin. -/
theorem Play_outcome (cls : PlayerClass R S σ) (hd : ep.NonNegDeltas) {frame : HostTime R}
    {k : ℕ} {p : Running R S σ}
    {b : R} (hat : At ep frames e k p) (hbk : b ≤ ep.track.pos k) (hb : b ≤ frame.oldppqPos)
    (hle : frame.oldppqPos ≤ frame.ppqPos) (hlim : frame.ppqPos ≤ e)
    (hadm : frame.oldppqPos ≤ ep.track.pos k ∨ cls.StaysPut)
    (hskip : ∀ x, b ≤ x → x < frame.ppqPos → (Skipped frames x ↔ x < frame.oldppqPos))
    (fuel : ℕ) :
    Outcome cls ep frames e frame.ppqPos fuel (fun _ => True) (Play cls fuel frame p) := by
  have hmono := hd.nonNeg.pos_mono
  have hpull := Pull_outcome cls hd hat (hle.trans hlim) hadm
    (fun j hj hlt => (hskip _ (hbk.trans (hmono hj)) (hlt.trans_le hle)).mpr hlt) fuel
  have hfalse : ∀ q, Pull cls frame fuel p = (q, none) → q.ep.pulling = false :=
    fun q => Pull_pulling
  unfold Play
  rw [if_neg (by rw [hat.playing]; decide)]
  generalize Pull cls frame fuel p = r at hpull hfalse
  cases hpull with
  | @reached k' q hat' hk' =>
    have hin : ∀ j, k' ≤ j → frame.oldppqPos ≤ ep.track.pos j := fun j hj => hk'.trans (hmono hj)
    have hloop : Outcome cls ep frames e frame.ppqPos (k' + fuel) (fun _ => True)
        (playLoop cls frame fuel q) := by
      refine eventLoop_outcome hd hlim fuel k' q hat' (hfalse q rfl) ?_ ?_ (fun _ _ _ _ _ => trivial)
      · intro j p hj hat
        simp only [hat.ppqPos, hin j hj, true_and, decide_eq_true_eq]
      · intro j hj hlt
        refine decide_eq_false fun hs => ?_
        exact not_lt.mpr (hin j hj) ((hskip _ (hb.trans (hin j hj)) hlt).mp hs)
    dsimp only
    generalize playLoop cls frame fuel q = r at hloop ⊢
    cases hloop with
    | reached hat hk => exact .reached hat hk
    | ended hmade hev hplay hstop => exact .ended hmade hev hplay hstop
    | raised hmade hmem hraise => exact .raised hmade hmem hraise
    | spinning hmade hk => exact .spinning hmade (by omega)
  | @ended k' q hmade hev hplay hstop =>
    -- the stream has ended before the frame, where the loop does not start
    cases fuel with
    | zero => exact .spinning hmade (Nat.zero_le _)
    | succ fuel =>
      have hout : ¬ (frame.oldppqPos ≤ q.ep.ppqPos ∧ q.ep.ppqPos < frame.ppqPos) :=
        fun hin => not_lt.mpr hin.1 hstop
      dsimp only
      rw [playLoop, eventLoop, if_neg (by rw [decide_eq_true_eq]; exact hout)]
      exact .ended hmade hev hplay trivial
  | raised hmade hmem hraise => exact .raised hmade hmem hraise
  | spinning hmade hk => exact .spinning hmade (by omega)

omit [IsOrderedAddMonoid R] in
/-- A player that has stopped stays as it is. -/
theorem playFrames_stopped {p : Running R S σ} (h : p.ep.playing = false) (fuel : ℕ)
    (fs : List (HostTime R)) : playFrames cls fuel fs p = (p, none) := by
  induction fs with
  | nil => rfl
  | cons frame fs ih =>
    unfold playFrames Play
    rw [if_pos h]
    exact ih

/-- The runs the results are about: over contiguous frames, or over frames
that jump forward while the `doneAction` does not move the player forward. -/
def Admissible (cls : PlayerClass R S σ) (b : R) (fs : List (HostTime R)) : Prop :=
  Contiguous b fs ∨ Forward b fs ∧ cls.StaysPut

omit [AddCommMonoid R] [IsOrderedAddMonoid R] in
theorem Admissible.forward {b : R} {fs : List (HostTime R)} (h : Admissible cls b fs) :
    Forward b fs := by
  rcases h with h | h
  · exact h.forward
  · exact h.1

/-- **A run over frames** plays what lies before their end. -/
theorem playFrames_outcome (hd : ep.NonNegDeltas) (fuel : ℕ) :
    ∀ (fs : List (HostTime R)) (b : R) (k : ℕ) (p : Running R S σ), At ep frames e k p →
      b ≤ ep.track.pos k → Admissible cls b fs → finish b fs ≤ e →
      (∀ x, b ≤ x → (Skipped frames x ↔ Skipped fs x)) →
      Outcome cls ep frames e (finish b fs) fuel (fun _ => True) (playFrames cls fuel fs p) := by
  intro fs
  induction fs with
  | nil =>
    intro b k p hat hbk _ _ _
    exact .reached hat hbk
  | cons frame fs ih =>
    intro b k p hat hbk hadm hlim hskip
    obtain ⟨hb, hle, hfwd⟩ := hadm.forward
    have hrest : Admissible cls frame.hi fs := by
      rcases hadm with h | h
      · exact Or.inl h.2.2
      · exact Or.inr ⟨h.1.2.2, h.2⟩
    have hin : frame.oldppqPos ≤ ep.track.pos k ∨ cls.StaysPut := by
      rcases hadm with h | h
      · exact Or.inl (h.1.trans_le hbk)
      · exact Or.inr h.2
    have hframe := Play_outcome cls hd hat hbk hb hle (hfwd.le_finish.trans hlim) hin
      (fun x hbx hx => by
        rw [hskip x hbx]
        constructor
        · intro hs
          by_contra hge
          exact hs frame List.mem_cons_self ⟨not_lt.mp hge, hx⟩
        · intro hlt v hv
          rcases List.mem_cons.mp hv with rfl | hv
          · exact fun hhas => not_lt.mpr hhas.1 hlt
          · exact hfwd.skipped_of_lt hx v hv) fuel
    unfold playFrames
    generalize Play cls fuel frame p = r at hframe
    cases hframe with
    | reached hat' hk =>
      exact ih frame.hi _ _ hat' hk hrest hlim fun x hx => by
        rw [hskip x ((hb.trans hle).trans hx), skipped_cons_of_le hx]
    | ended hmade hev hplay hstop =>
      dsimp only
      rw [playFrames_stopped hplay]
      exact .ended hmade hev hplay trivial
    | raised hmade hmem hraise => exact .raised hmade hmem hraise
    | spinning hmade hk => exact .spinning hmade hk

theorem runFrames_outcome (cls : PlayerClass R S σ) (hd : ep.NonNegDeltas)
    (hplay : ep.doplay.getD true = true) {b : R}
    (hb : b ≤ ep.MUSPOS + ep.ppqOffset) (hadm : Admissible cls b frames) (fuel : ℕ) (self : σ) :
    Outcome cls ep frames (finish b frames) (finish b frames) fuel (fun _ => True)
      (runFrames cls fuel frames ep self) :=
  playFrames_outcome hd fuel frames b 0 _ (At.reset hplay self) hb hadm le_rfl
    fun _ _ => Iff.rfl

end Runs

/-! ## Frame independence -/

section Independence

variable [AddCommMonoid R] [LinearOrder R]

/-- The pairs of an event and its position that `playEvent` was given. -/
def Running.played (p : Running R S σ) : List (Event R × R) :=
  p.calls.map fun call => (call.lista, call.beatTime)

/-- With enough fuel, `x` is the `i`-th pair given to `playEvent` in the run. -/
def Passed (cls : PlayerClass R S σ) (frames : List (HostTime R)) (ep : EventPlayer R S) (self : σ)
    (i : ℕ) (x : Event R × R) : Prop :=
  ∃ fuel, (runFrames cls fuel frames ep self).1.played[i]? = some x

/-- `playEvent` raises no error. -/
def PlayerClass.Returns (cls : PlayerClass R S σ) : Prop :=
  ∀ call self, ∃ self', cls.playEvent call self = .ok self'

/-- The run is not ended by an error. -/
def Unhindered (cls : PlayerClass R S σ) (frames : List (HostTime R)) (ep : EventPlayer R S)
    (self : σ) : Prop :=
  ∀ fuel call msg, (runFrames cls fuel frames ep self).2 ≠ some (.error call msg)

variable {cls : PlayerClass R S σ} {ep : EventPlayer R S} {frames : List (HostTime R)}
  {self : σ}

/-- The `i`-th event with its position. -/
def EventPlayer.pairAt (ep : EventPlayer R S) (i : ℕ) : Option (Event R × R) :=
  (ep.eventAt i).map fun lista => (lista, ep.track.pos i)

theorem Made.played {e : R} {k : ℕ} {p : Running R S σ} (h : Made ep frames e k p.calls) (i : ℕ) :
    p.played[i]? = if i < k then ep.pairAt i else none := by
  unfold Running.played
  rw [List.getElem?_map, h.getElem i]
  split
  · unfold EventPlayer.callAt EventPlayer.pairAt
    rw [Option.map_map]
    rfl
  · rfl

/-- The first `k` events of a made list exist and lie before its end. -/
theorem Made.due {e : R} {k : ℕ} {calls : List (Call R)} (h : Made ep frames e k calls) {i : ℕ}
    (hi : i < k) : ep.track.Due e i := by
  refine ⟨fun j hj => ?_, h.2 i hi⟩
  have hget := h.getElem j
  have hlen : calls.length = k := by
    have hmap := congrArg List.length h.1
    simpa using hmap
  rw [if_pos (by omega), List.getElem?_eq_getElem (by omega)] at hget
  change (ep.eventAt j).isSome = true
  unfold EventPlayer.callAt at hget
  cases hev : ep.eventAt j with
  | none => simp [hev] at hget
  | some lista => rfl

variable [IsOrderedAddMonoid R]

/-- **A run that has come to its end has played exactly what is due.** -/
theorem Outcome.complete {e : R} {bound : ℕ} {stopped : EventPlayer R S → Prop}
    {r : Running R S σ × Option (Halt R)} (hd : ep.NonNegDeltas)
    (h : Outcome cls ep frames e e bound stopped r) (hnone : r.2 = none) :
    ∃ k, Made ep frames e k r.1.calls ∧ ∀ i, ep.track.Due e i ↔ i < k := by
  cases h with
  | @reached k p hat hk =>
    refine ⟨k, hat.made, fun i => ⟨fun hdue => ?_, hat.made.due⟩⟩
    by_contra hge
    exact not_lt.mpr (hk.trans (hd.nonNeg.pos_mono (not_lt.mp hge))) hdue.2
  | @ended k p hmade hev _ _ =>
    refine ⟨k, hmade, fun i => ⟨fun hdue => ?_, hmade.due⟩⟩
    by_contra hge
    have hsome : (ep.eventAt k).isSome = true := hdue.1 k (not_lt.mp hge)
    rw [hev] at hsome
    exact Bool.false_ne_true hsome
  | raised => exact absurd hnone (by simp)
  | spinning => exact absurd hnone (by simp)

/-- Every call of a run is the one that belongs to some event. -/
theorem call_of_mem (hd : ep.NonNegDeltas) {b : R} (hb : b ≤ ep.MUSPOS + ep.ppqOffset)
    (hadm : Admissible cls b frames) {fuel : ℕ} {call : Call R}
    (hcall : call ∈ (runFrames cls fuel frames ep self).1.calls) :
    ∃ i, ep.callAt frames i = some call := by
  by_cases hplay : ep.doplay.getD true = true
  · obtain ⟨k, hmade⟩ := (runFrames_outcome cls hd hplay hb hadm fuel self).made
    obtain ⟨i, hi⟩ := List.mem_iff_getElem?.mp hcall
    rw [hmade.getElem i] at hi
    split at hi
    · exact ⟨i, hi⟩
    · cases hi
  · have hstop : ep.Reset.playing = false := Bool.eq_false_iff.mpr hplay
    unfold runFrames at hcall
    rw [playFrames_stopped hstop] at hcall
    cases hcall

theorem PlayerClass.Returns.unhindered (hret : cls.Returns) (hd : ep.NonNegDeltas) {b : R}
    (hb : b ≤ ep.MUSPOS + ep.ppqOffset) (hadm : Admissible cls b frames) (self : σ) :
    Unhindered cls frames ep self := by
  intro fuel call msg hr
  by_cases hplay : ep.doplay.getD true = true
  · have hrun := runFrames_outcome cls hd hplay hb hadm fuel self
    generalize runFrames cls fuel frames ep self = r at hrun hr
    cases hrun with
    | raised _ _ hraise =>
      obtain ⟨s, hs⟩ := hraise
      obtain ⟨s', hs'⟩ := hret _ s
      rw [hs] at hs'
      cases hs'
    | reached => cases hr
    | ended => cases hr
    | spinning => cases hr
  · have hstop : ep.Reset.playing = false := Bool.eq_false_iff.mpr hplay
    unfold runFrames at hr
    rw [playFrames_stopped hstop] at hr
    cases hr

/-- A run that is not ended by an error has made the call of event `i` once
it has had more than `i` turns, if event `i` is due. -/
theorem calls_of_due (hno : Unhindered cls frames ep self) (hd : ep.NonNegDeltas)
    (hplay : ep.doplay.getD true = true) {b : R} (hb : b ≤ ep.MUSPOS + ep.ppqOffset)
    (hadm : Admissible cls b frames) {i fuel : ℕ} (hdue : ep.track.Due (finish b frames) i)
    (hfuel : i < fuel) :
    ∃ k, Made ep frames (finish b frames) k (runFrames cls fuel frames ep self).1.calls ∧
      i < k := by
  have hrun := runFrames_outcome cls hd hplay hb hadm fuel self
  have herr := hno fuel
  generalize runFrames cls fuel frames ep self = r at hrun herr
  by_cases hnone : r.2 = none
  · obtain ⟨k, hmade, hk⟩ := hrun.complete hd hnone
    exact ⟨k, hmade, (hk i).mp hdue⟩
  · cases hrun with
    | reached => exact absurd rfl hnone
    | ended => exact absurd rfl hnone
    | raised => exact absurd rfl (herr _ _)
    | @spinning k p hmade hk => exact ⟨k, hmade, by omega⟩

/-- A run that is not ended by an error passes on exactly the due events, each
with its own position. -/
theorem passed_iff (hno : Unhindered cls frames ep self) (hd : ep.NonNegDeltas) {b : R}
    (hb : b ≤ ep.MUSPOS + ep.ppqOffset) (hadm : Admissible cls b frames) (i : ℕ)
    (x : Event R × R) :
    Passed cls frames ep self i x ↔
      ep.doplay.getD true = true ∧ ep.track.Due (finish b frames) i ∧ ep.pairAt i = some x := by
  by_cases hplay : ep.doplay.getD true = true
  · constructor
    · rintro ⟨fuel, hx⟩
      obtain ⟨k, hmade⟩ := (runFrames_outcome cls hd hplay hb hadm fuel self).made
      rw [hmade.played i] at hx
      split at hx
      next hi => exact ⟨hplay, hmade.due hi, hx⟩
      next => cases hx
    · rintro ⟨-, hdue, hx⟩
      obtain ⟨k, hmade, hi⟩ := calls_of_due hno hd hplay hb hadm hdue (Nat.lt_succ_self i)
      exact ⟨i + 1, by rw [hmade.played i, if_pos hi, hx]⟩
  · constructor
    · rintro ⟨fuel, hx⟩
      have hstop : ep.Reset.playing = false := Bool.eq_false_iff.mpr hplay
      unfold runFrames at hx
      rw [playFrames_stopped hstop] at hx
      cases hx
    · rintro ⟨h, -⟩
      exact absurd h hplay

/-- With enough fuel a run in which not everything is due comes to its end. -/
theorem runFrames_returns (hno : Unhindered cls frames ep self) (hd : ep.NonNegDeltas) {b : R}
    (hb : b ≤ ep.MUSPOS + ep.ppqOffset) (hadm : Admissible cls b frames) {i fuel : ℕ}
    (hi : ¬ ep.track.Due (finish b frames) i) (hfuel : i < fuel) :
    (runFrames cls fuel frames ep self).2 = none := by
  by_cases hplay : ep.doplay.getD true = true
  · have hrun := runFrames_outcome cls hd hplay hb hadm fuel self
    have herr := hno fuel
    generalize runFrames cls fuel frames ep self = r at hrun herr
    cases hrun with
    | reached => rfl
    | ended => rfl
    | raised => exact absurd rfl (herr _ _)
    | @spinning k p hmade hk => exact absurd (hmade.due (by omega)) hi
  · have hstop : ep.Reset.playing = false := Bool.eq_false_iff.mpr hplay
    unfold runFrames
    rw [playFrames_stopped hstop]

/-- **Frame independence.** Over two partitions of the beats into contiguous
frames, both from at or before the player's start to one end, `playEvent` is
given the same events at the same positions: those due before the end, once
each, in order, at `MUSPOS + ppqOffset` plus the deltas before them. If not
all events of the stream are due there, both runs come to their end. -/
theorem frame_independence (hret : cls.Returns) (hd : ep.NonNegDeltas) {fs gs : List (HostTime R)}
    {b c e : R} (hfs : Contiguous b fs) (hgs : Contiguous c gs)
    (hb : b ≤ ep.MUSPOS + ep.ppqOffset) (hc : c ≤ ep.MUSPOS + ep.ppqOffset)
    (hfe : finish b fs = e) (hge : finish c gs = e) (self : σ) :
    (∀ i x, Passed cls fs ep self i x ↔ Passed cls gs ep self i x) ∧
      (∀ i lista beatTime, Passed cls fs ep self i (lista, beatTime) ↔
        ep.doplay.getD true = true ∧ ep.track.Due e i ∧ ep.eventAt i = some lista ∧
          beatTime = ep.MUSPOS + ep.ppqOffset + ∑ j ∈ Finset.range i, ep.track.pause j) ∧
      ∀ i, ¬ ep.track.Due e i → ∀ fuel, i < fuel →
        (runFrames cls fuel fs ep self).2 = none ∧ (runFrames cls fuel gs ep self).2 = none ∧
          (runFrames cls fuel fs ep self).1.played = (runFrames cls fuel gs ep self).1.played := by
  subst hfe
  have hf := hret.unhindered hd hb (Or.inl hfs) self
  have hg := hret.unhindered hd hc (Or.inl hgs) self
  refine ⟨?_, ?_, ?_⟩
  · intro i x
    rw [passed_iff hf hd hb (Or.inl hfs), passed_iff hg hd hc (Or.inl hgs), hge]
  · intro i lista beatTime
    rw [passed_iff hf hd hb (Or.inl hfs)]
    refine and_congr_right fun _ => and_congr_right fun _ => ?_
    have hpos : ep.track.pos i =
        ep.MUSPOS + ep.ppqOffset + ∑ j ∈ Finset.range i, ep.track.pause j := ep.track.pos_eq_sum i
    unfold EventPlayer.pairAt
    rw [← hpos]
    cases ep.eventAt i with
    | none => simp
    | some l => simp [eq_comm]
  · intro i hi fuel hfuel
    have hfnone := runFrames_returns hf hd hb (Or.inl hfs) hi hfuel
    have hgnone := runFrames_returns hg hd hc (Or.inl hgs) (hge.symm ▸ hi) hfuel
    refine ⟨hfnone, hgnone, ?_⟩
    by_cases hplay : ep.doplay.getD true = true
    · obtain ⟨k, hmade, hk⟩ :=
        (runFrames_outcome cls hd hplay hb (Or.inl hfs) fuel self).complete hd hfnone
      obtain ⟨k', hmade', hk'⟩ :=
        (runFrames_outcome cls hd hplay hc (Or.inl hgs) fuel self).complete hd hgnone
      have hsame : ∀ i, i < k ↔ i < k' := fun i => by rw [← hk, ← hk', hge]
      refine List.ext_getElem? fun i => ?_
      rw [hmade.played, hmade'.played, if_congr (hsame i) rfl rfl]
    · have hstop : ep.Reset.playing = false := Bool.eq_false_iff.mpr hplay
      unfold runFrames
      rw [playFrames_stopped hstop, playFrames_stopped hstop]

end Independence

/-- An endless stream of pairs of events: two at one position, the next two
half a beat on. -/
def pairsStream : EventStream ℚ ℕ where
  init := 0
  nextval i := (some ((∅ : Event ℚ).insert (ascii "delta")
    (.num (if i % 2 = 0 then 0 else 1 / 2))), i + 1)

/-- A player of it that starts on beat one. -/
def pairsPlayer : EventPlayer ℚ ℕ where
  lista := pairsStream
  Filters := []
  MUSPOS := 1
  ppqOffset := 0
  doplay := none
  stream := 0
  curlist := none
  ppqPos := 0
  prevppqPos := none
  playing := true
  used := false
  pulling := false

theorem pairsPlayer_nonNegDeltas : pairsPlayer.NonNegDeltas := by
  intro i lista hi
  have hev : pairsPlayer.eventAt i = some ((∅ : Event ℚ).insert (ascii "delta")
      (.num (if pairsPlayer.streamAt i % 2 = 0 then 0 else 1 / 2))) := rfl
  rw [hev, Option.some.injEq] at hi
  refine ⟨if pairsPlayer.streamAt i % 2 = 0 then 0 else 1 / 2, ?_, ?_⟩
  · rw [← hi, AList.lookup_insert]
  · split
    · exact le_rfl
    · norm_num

/-- Two partitions up to beat three, with events on the boundaries. -/
theorem pairsPlayer_independent :
    Passed (⟨fun _ _ => .ok (), none⟩ : PlayerClass ℚ ℕ Unit) [⟨1, 2⟩, ⟨2, 3⟩] pairsPlayer () =
      Passed (⟨fun _ _ => .ok (), none⟩ : PlayerClass ℚ ℕ Unit)
        [⟨0, 5 / 4⟩, ⟨5 / 4, 3 / 2⟩, ⟨3 / 2, 3⟩] pairsPlayer () := by
  funext i x
  refine propext ?_
  revert i x
  exact (frame_independence (b := 1) (c := 0) (e := 3) (fun _ _ => ⟨(), rfl⟩)
    pairsPlayer_nonNegDeltas (by decide +kernel)
    (by decide +kernel) (by decide +kernel) (by decide +kernel) rfl rfl ()).1

end Lua2SC.Players
