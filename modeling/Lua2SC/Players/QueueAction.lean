import Lua2SC.Lib.DueQueue
import Lua2SC.Lib.Machine

/-!
# Delayed actions and their timer

`QueueAction(interval, action)` stamps the action with the moment at which it is
due, puts it into `ActionsQueue` (kept with the latest first, so that the next
one stands at the end) and arms the timer `"QueueAction"`, of which there is one.
When it fires, `doQueueAction` runs the actions that are due and arms the timer
again for the next one.

`doQueueAction` arms it for the end of the queue, `QueueAction` for the action it
was given. When that is not the next one the timer is late: the earlier actions
wait until the later one is due. `armed_in_time` says that this is all that goes
wrong: actions are run once, in order, not before their time, and a timer is
armed in time for the next one, exactly when every action queued from outside
`doQueueAction` is due no later than the others.

The clock is read once by every call and in every turn of the loop, and never
goes back; the interval given to `lanes.timer` counts from there, and arming the
timer replaces the one that was armed. While an action runs it may queue others.
Of `table.sort` only what the manual promises is used. An error raised by an
action ends the script.
-/

namespace Lua2SC.Delayed

open Lua2SC.Machine Lua2SC.DueQueue

/-! ## The model -/

/-- An action table: `id` tells the tables apart. -/
structure Action (R κ : Type*) where
  id : κ
  timestamp : R
deriving DecidableEq, Repr

/-- An action that was run, and `lanes.now_secs()` at that moment. -/
structure Executed (R κ : Type*) where
  action : Action R κ
  clock : R

/-- `ActionsQueue`, the deadline of the timer, whether `doQueueAction` is going
on, the last reading of the clock, and what was run so far. -/
structure Actions (R κ : Type*) where
  ActionsQueue : List (Action R κ)
  timer : Option R
  ticking : Bool
  clock : R
  executed : List (Executed R κ)

/-- What happens: a call of `QueueAction`, the timer, a turn of the loop of
`doQueueAction`. -/
inductive Act (R κ : Type*) where
  | queue (now interval : R) (id : κ)
  | tick
  | turn (now : R)

variable {R κ : Type*}

/-- `function(a,b) return a.timestamp > b.timestamp end`. -/
def later [LinearOrder R] (a b : Action R κ) : Bool := decide (a.timestamp > b.timestamp)

namespace Actions

section Model

variable [AddCommGroup R]

/-- `QueueAction(interval, action)`. -/
def QueueAction (sort : List (Action R κ) → List (Action R κ)) (s : Actions R κ) (now interval : R)
    (id : κ) : Actions R κ :=
  { s with
    ActionsQueue := sort (s.ActionsQueue ++ [⟨id, now + interval⟩])
    timer := some (now + interval)
    clock := now }

/-- The end of `doQueueAction`. -/
def rearm (s : Actions R κ) (now : R) : Actions R κ :=
  { s with
    timer := match s.ActionsQueue.getLast? with
      | some action => some (now + (action.timestamp - now))
      | none => s.timer
    ticking := false
    clock := now }

variable [LinearOrder R]

/-- A turn of the loop of `doQueueAction`. -/
def turn (s : Actions R κ) (now : R) : Actions R κ :=
  match s.ActionsQueue.getLast? with
  | some action =>
    if action.timestamp ≤ now then
      { s with
        ActionsQueue := s.ActionsQueue.dropLast
        executed := s.executed ++ [⟨action, now⟩]
        clock := now }
    else s.rearm now
  | none => s.rearm now

/-- One step. The timer fires once. -/
def step (sort : List (Action R κ) → List (Action R κ)) (s : Actions R κ) : Act R κ → Actions R κ
  | .queue now interval id => s.QueueAction sort now interval id
  | .tick => if s.ticking then s else { s with timer := none, ticking := true }
  | .turn now => if s.ticking then s.turn now else s

/-- Before the first call. -/
def start (clock : R) : Actions R κ := ⟨[], none, false, clock, []⟩

end Model

/-! ## The law -/

/-- What was run, and then what is queued, the next one first. -/
def line (s : Actions R κ) : List (Action R κ) :=
  s.executed.map Executed.action ++ s.ActionsQueue.reverse

section Law

variable [LinearOrder R]

/-- What is asked of the actions and of the timer. -/
structure Law (s : Actions R κ) : Prop where
  once : (s.executed.map fun x => x.action.id).Nodup
  not_early : ∀ x ∈ s.executed, x.action.timestamp ≤ x.clock
  in_order : InOrder Action.timestamp s.line
  armed : s.ticking = false → s.ActionsQueue ≠ [] →
    ∃ deadline, s.timer = some deadline ∧ ∀ a ∈ s.ActionsQueue, deadline ≤ a.timestamp

variable [AddCommGroup R]

/-- The clock does not go back, and every call brings its own action table. -/
def Sensible (s : Actions R κ) : Act R κ → Prop
  | .queue now _ id => s.clock ≤ now ∧ id ∉ s.line.map Action.id
  | .tick => True
  | .turn now => s.clock ≤ now

/-- An action that is queued is not due before one that was run, and from
outside `doQueueAction` not after one that waits. -/
def Allowed (s : Actions R κ) : Act R κ → Prop
  | .queue now interval _ =>
    (∀ x ∈ s.executed, x.action.timestamp ≤ now + interval) ∧
      (s.ticking = false → ∀ a ∈ s.ActionsQueue, now + interval ≤ a.timestamp)
  | .tick => True
  | .turn _ => True

instance [DecidableEq κ] (s : Actions R κ) : (act : Act R κ) → Decidable (s.Sensible act)
  | .queue now _ id => inferInstanceAs (Decidable (s.clock ≤ now ∧ id ∉ s.line.map Action.id))
  | .tick => isTrue trivial
  | .turn now => inferInstanceAs (Decidable (s.clock ≤ now))

instance (s : Actions R κ) : (act : Act R κ) → Decidable (s.Allowed act)
  | .queue now interval _ =>
    inferInstanceAs (Decidable ((∀ x ∈ s.executed, x.action.timestamp ≤ now + interval) ∧
      (s.ticking = false → ∀ a ∈ s.ActionsQueue, now + interval ≤ a.timestamp)))
  | .tick => isTrue trivial
  | .turn _ => isTrue trivial

/-- The invariant of a run. -/
structure Good (s : Actions R κ) : Prop extends s.Law where
  distinct : (s.line.map Action.id).Nodup
  past : ∀ x ∈ s.executed, x.clock ≤ s.clock

end Law

/-! ## One step -/

variable [LinearOrder R] [AddCommGroup R] {s : Actions R κ}

omit [LinearOrder R] [AddCommGroup R] in
/-- The ids of what was run are among those of the line. -/
theorem once_of_distinct (h : (s.line.map Action.id).Nodup) :
    (s.executed.map fun x => x.action.id).Nodup := by
  rw [line, List.map_append, List.map_map] at h
  exact h.of_append_left

/-- An interval that is not negative leads behind everything that was run. -/
theorem Good.after_executed [IsOrderedAddMonoid R] (h : s.Good) {now interval : R}
    (hnow : s.clock ≤ now) (hinterval : 0 ≤ interval) :
    ∀ x ∈ s.executed, x.action.timestamp ≤ now + interval := by
  intro x hx
  calc x.action.timestamp ≤ x.clock := h.not_early x hx
    _ ≤ s.clock := h.past x hx
    _ ≤ now := hnow
    _ ≤ now + interval := le_add_of_nonneg_right hinterval

variable {sort : List (Action R κ) → List (Action R κ)}

omit [AddCommGroup R] in
/-- The next action stands at the end of the queue. -/
theorem Law.next_first (h : s.Law) {a : Action R κ} {q : List (Action R κ)}
    (hq : s.ActionsQueue = q ++ [a]) : ∀ b ∈ s.ActionsQueue, a.timestamp ≤ b.timestamp := by
  have horder := h.in_order
  rw [line, hq, List.reverse_append, InOrder, List.pairwise_append] at horder
  intro b hb
  rw [hq, List.mem_append, List.mem_singleton] at hb
  rcases hb with hb | rfl
  · exact List.rel_of_pairwise_cons horder.2.1 (List.mem_reverse.mpr hb)
  · exact le_rfl

/-- A new action joins the line. -/
theorem QueueAction_line (hsort : SortsBy later sort) (now interval : R) (id : κ) :
    (s.QueueAction sort now interval id).line.Perm (s.line ++ [⟨id, now + interval⟩]) := by
  unfold line QueueAction
  rw [List.append_assoc]
  refine List.Perm.append_left _ ?_
  have hsorted : (sort (s.ActionsQueue ++ [⟨id, now + interval⟩])).reverse.Perm
      (s.ActionsQueue ++ [⟨id, now + interval⟩]) := (List.reverse_perm _).trans (hsort _).1
  exact hsorted.trans ((List.reverse_perm _).symm.append_right _)

/-- A new action takes its place in the order when nothing later was run. -/
theorem QueueAction_in_order (hsort : SortsBy later sort) (h : s.Law) {now interval : R} {id : κ} :
    InOrder Action.timestamp (s.QueueAction sort now interval id).line ↔
      ∀ x ∈ s.executed, x.action.timestamp ≤ now + interval := by
  have hmem : ∀ a, a ∈ (sort (s.ActionsQueue ++ [⟨id, now + interval⟩])).reverse ↔
      a ∈ s.ActionsQueue ∨ a = ⟨id, now + interval⟩ := by
    intro a
    rw [List.mem_reverse, ((hsort _).1).mem_iff, List.mem_append, List.mem_singleton]
  have horder := h.in_order
  rw [line, InOrder, List.pairwise_append] at horder ⊢
  constructor
  · rintro ⟨-, -, hcross⟩ x hx
    exact hcross x.action (List.mem_map_of_mem hx) _ ((hmem _).mpr (Or.inr rfl))
  · intro hnew
    refine ⟨horder.1, ?_, ?_⟩
    · refine List.pairwise_reverse.mpr (((hsort _).2).imp fun hlater => ?_)
      exact not_lt.mp (of_decide_eq_false hlater)
    · intro a ha b hb
      rcases (hmem b).mp hb with hb | rfl
      · exact horder.2.2 a ha b (List.mem_reverse.mpr hb)
      · obtain ⟨x, hx, rfl⟩ := List.mem_map.mp ha
        exact hnew x hx

/-- **A call of `QueueAction`.** -/
theorem Good.QueueAction (hsort : SortsBy later sort) (h : s.Good) {now interval : R} {id : κ}
    (hdom : s.Sensible (.queue now interval id)) (hok : s.Allowed (.queue now interval id)) :
    (s.QueueAction sort now interval id).Good := by
  have hdistinct : ((s.QueueAction sort now interval id).line.map Action.id).Nodup := by
    refine ((QueueAction_line hsort now interval id).map Action.id).nodup_iff.mpr ?_
    rw [List.map_append, List.nodup_append]
    refine ⟨h.distinct, List.nodup_singleton _, ?_⟩
    rintro i hi j hj hij
    rw [List.map_singleton, List.mem_singleton] at hj
    rw [hij, hj] at hi
    exact hdom.2 hi
  refine ⟨⟨h.once, h.not_early, (QueueAction_in_order hsort h.toLaw).mpr hok.1, ?_⟩, hdistinct,
    fun x hx => (h.past x hx).trans hdom.1⟩
  intro hticking _
  refine ⟨now + interval, rfl, fun a ha => ?_⟩
  rcases List.mem_append.mp (((hsort _).1).mem_iff.mp ha) with ha | ha
  · exact hok.2 hticking a ha
  · rw [List.mem_singleton.mp ha]

/-- The law after a call of `QueueAction` says that it was allowed. -/
theorem allowed_of_law (hsort : SortsBy later sort) (h : s.Good) {now interval : R} {id : κ}
    (h' : (s.QueueAction sort now interval id).Law) : s.Allowed (.queue now interval id) := by
  refine ⟨(QueueAction_in_order hsort h.toLaw).mp h'.in_order, fun hticking a ha => ?_⟩
  have hmem : a ∈ sort (s.ActionsQueue ++ [⟨id, now + interval⟩]) :=
    ((hsort _).1).mem_iff.mpr (List.mem_append_left _ ha)
  obtain ⟨deadline, harmed, hle⟩ := h'.armed hticking (List.ne_nil_of_mem hmem)
  cases harmed
  exact hle a hmem

/-- The timer is armed for the next action. -/
theorem Good.rearm (h : s.Good) {now : R} (hnow : s.clock ≤ now) : (s.rearm now).Good := by
  refine ⟨⟨h.once, h.not_early, h.in_order, fun _ hne => ?_⟩, h.distinct,
    fun x hx => (h.past x hx).trans hnow⟩
  obtain ⟨q, a, hq⟩ := (List.eq_nil_or_concat' s.ActionsQueue).resolve_left hne
  have hlast : s.ActionsQueue.getLast? = some a := by
    rw [hq, List.getLast?_concat]
  refine ⟨a.timestamp, ?_, h.next_first hq⟩
  unfold Actions.rearm
  rw [hlast]
  exact congrArg some (add_sub_cancel now a.timestamp)

/-- **A turn of the loop.** The line stays as it is: its next action is run. -/
theorem Good.turn (h : s.Good) {now : R} (hticking : s.ticking = true) (hnow : s.clock ≤ now) :
    (s.turn now).Good := by
  unfold Actions.turn
  split
  next a hlast =>
    split
    next hdue =>
      have hqueue : s.ActionsQueue = s.ActionsQueue.dropLast ++ [a] :=
        (List.dropLast_append_getLast? a hlast).symm
      have hline : (s.executed ++ [(⟨a, now⟩ : Executed R κ)]).map Executed.action ++
          s.ActionsQueue.dropLast.reverse = s.line := by
        rw [line, hqueue, List.map_append, List.append_assoc, List.reverse_append,
          List.dropLast_concat]
        rfl
      have hdistinct := h.distinct
      have horder := h.in_order
      rw [← hline] at hdistinct horder
      refine ⟨⟨once_of_distinct hdistinct, fun x hx => ?_, horder, fun hidle => ?_⟩, hdistinct,
        fun x hx => ?_⟩
      · rcases List.mem_append.mp hx with hx | hx
        · exact h.not_early x hx
        · rw [List.mem_singleton.mp hx]
          exact hdue
      · rw [hticking] at hidle
        cases hidle
      · rcases List.mem_append.mp hx with hx | hx
        · exact (h.past x hx).trans hnow
        · rw [List.mem_singleton.mp hx]
    · exact h.rearm hnow
  · exact h.rearm hnow

/-- One step that is allowed keeps the invariant. -/
theorem step_good (hsort : SortsBy later sort) (h : s.Good) {act : Act R κ}
    (hdom : s.Sensible act) (hok : s.Allowed act) : (s.step sort act).Good := by
  cases act with
  | queue now interval id => exact h.QueueAction hsort hdom hok
  | tick =>
    rw [step]
    split
    · exact h
    · exact ⟨⟨h.once, h.not_early, h.in_order, fun hidle => by cases hidle⟩, h.distinct, h.past⟩
  | turn now =>
    rw [step]
    split
    next hticking => exact h.turn hticking hdom
    · exact h

omit [AddCommGroup R] in
theorem start_good (clock : R) : (start clock : Actions R κ).Good := by
  refine ⟨⟨List.nodup_nil, fun x hx => ?_, List.Pairwise.nil, fun _ hne => absurd rfl hne⟩,
    List.nodup_nil, fun x hx => ?_⟩
  · cases hx
  · cases hx

/-- **A timer is armed in time for the next action**, and actions are run once,
in order and not before their time, at every moment of a run exactly when no
action is queued behind another from outside `doQueueAction`, and none before one
that was run. -/
theorem armed_in_time (hsort : SortsBy later sort) (clock : R) {acts : List (Act R κ)}
    (hdom : Guarded (step sort) Sensible (start clock) acts) :
    (∀ n, (run (step sort) (start clock) (acts.take n)).Law) ↔
      Guarded (step sort) Allowed (start clock) acts := by
  refine always_iff (I := Good) (fun s act h hdom hok => ?_) (fun s act h _ h' => ?_)
    (start_good clock) (start_good clock).toLaw hdom
  · have hgood := step_good hsort h hdom hok
    exact ⟨hgood, hgood.toLaw⟩
  · cases act with
    | queue now interval id => exact allowed_of_law hsort h h'
    | tick => exact trivial
    | turn now => exact trivial

omit [AddCommGroup R] in
/-- Insertion sort puts the latest first. -/
theorem sortsBy_later : SortsBy (later : Action R κ → Action R κ → Bool)
    (List.insertionSort fun a b => OrderDual.toDual a.timestamp ≤ OrderDual.toDual b.timestamp) :=
  sortsBy_insertionSort fun a : Action R κ => OrderDual.toDual a.timestamp

/-- `table.sort` of the examples. -/
def sortLater : List (Action ℤ ℕ) → List (Action ℤ ℕ) :=
  List.insertionSort fun a b => OrderDual.toDual a.timestamp ≤ OrderDual.toDual b.timestamp

/-- An action in 5, one in 2, and one that the second queues for 3 later. -/
def twoActionsAndOne : List (Act ℤ ℕ) :=
  [.queue 0 5 0, .queue 1 1 1, .tick, .turn 2, .queue 2 3 2, .turn 2, .tick, .turn 5]

/-- The second action is due before the first: the timer is armed in time. -/
theorem armed_in_time_twoActionsAndOne :
    (run (step sortLater) (start 0) twoActionsAndOne).Law :=
  (armed_in_time sortsBy_later 0 (by decide +kernel)).mpr
    (show Guarded (step sortLater) Allowed (start 0) twoActionsAndOne by decide +kernel) 8

/-- **A later action takes the timer**: the action that is due in 1 is waiting,
and the timer is armed for 5. -/
theorem later_action_takes_timer :
    ¬ ∀ n, (run (step sortLater) (start 0) ([.queue 0 1 0, .queue 0 5 1].take n)).Law := by
  intro h
  obtain ⟨deadline, harmed, hle⟩ := (h 2).armed (by decide +kernel) (by decide +kernel)
  have htimer : (run (step sortLater) (start 0) ([.queue 0 1 0, .queue 0 5 1].take 2)).timer =
      some 5 := by decide +kernel
  rw [htimer] at harmed
  cases harmed
  have hfirst : (⟨0, 1⟩ : Action ℤ ℕ) ∈
      (run (step sortLater) (start 0) ([.queue 0 1 0, .queue 0 5 1].take 2)).ActionsQueue := by
    decide +kernel
  exact absurd (hle _ hfirst) (by decide)

end Actions

end Lua2SC.Delayed
