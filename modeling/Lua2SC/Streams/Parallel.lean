import Lua2SC.Lib.Merge
import Lua2SC.Streams.Pairs

/-!
# ParS

A `ParalelStream` keeps its children in a queue that is ordered by the time of their
next event, and by their numbers where the times are equal. A call takes the first
one, hands on its event with the delta to the first time that is left in the queue,
and puts the child back at its own next time. So the events come as the merged
sequence of `Lib.Merge`, and the deltas are the steps between its times.

With a single child there is nothing left in the queue when its event has been taken,
and `topPrio` fails. `parallel_iff` says that this is the only way for it to fail.
-/

namespace Lua2SC.Streams

open Lua2SC.Lua Lua2SC.Sources Lua2SC.Timeline

variable {R : Type} [LinearOrder R]

/-! ## The queue -/

namespace PriorityQ

instance : Std.Total (after (R := R)) where
  total a b := by
    unfold after
    by_cases h : a.1 = b.1
    · rw [if_pos h, if_pos h.symm]
      exact le_total _ _
    · rw [if_neg h, if_neg (Ne.symm h)]
      exact le_total _ _

instance : IsTrans (PQItem R) after where
  trans a b c hab hbc := by
    unfold after at *
    split at hab <;> split at hbc <;> split <;> grind

/-- The last item of a queue in order is the first in time. -/
theorem after_last {q : List (PQItem R)} (h : q.Pairwise after) {x : PQItem R}
    (hx : q.getLast? = some x) : ∀ y ∈ q, x.1 < y.1 ∨ (x.1 = y.1 ∧ x.2 ≤ y.2) := by
  obtain ⟨rest, rfl⟩ := List.getLast?_eq_some_iff.mp hx
  intro y hy
  rcases List.mem_append.mp hy with hy | hy
  · have hafter := (List.pairwise_append.mp h).2.2 y hy x List.mem_cons_self
    unfold after at hafter
    split at hafter
    next heq => exact Or.inr ⟨heq.symm, hafter⟩
    next hne => exact Or.inl (lt_of_le_of_ne hafter (Ne.symm hne))
  · rw [List.mem_singleton.mp hy]
    exact Or.inr ⟨rfl, le_rfl⟩

theorem put_perm (q : List (PQItem R)) (t : R) (k : ℕ) :
    (put q t k).Perm ((t, k) :: q) :=
  (List.perm_insertionSort _ _).trans (List.perm_append_singleton _ _)

theorem put_pairwise (q : List (PQItem R)) (t : R) (k : ℕ) : (put q t k).Pairwise after :=
  List.pairwise_insertionSort _ _

end PriorityQ

variable [Ring R]

/-! ## What the children give -/

/-- `delta` of an event. -/
def deltaOf (f : Fields R) : R :=
  match Fields.get f (.name (ascii "delta")) with
  | some (.num d) => d
  | _ => 0

/-- The time line of a child with the events `ev`, to its end if it has one. -/
def childTrack (ev : ℕ → Option (Fields R)) : Track (Fields R) R := ⟨ev, 0, deltaOf⟩

/-- `At i` are the states in which the stream goes on with event `i`, in a table that has
just these fields when it is given; `Seen` those it is met in, and a reset there leads
back to event 0. The players have `W`. -/
structure Follows (W : World R → Prop) (n : ℕ) (o : Stream R) (ev : ℕ → Option (Fields R))
    (At : ℕ → o.S → Prop) (Seen : o.S → Prop) : Prop where
  init : Seen o.init
  reset : ∀ s, Seen s → At 0 (o.reset s)
  seen : ∀ i s, At i s → Seen s
  gives : ∀ i s, At i s → ∀ e, W e → ∃ r s' e', o.next n e s = .ok (r, s', e') ∧ W e' ∧
    match ev i with
    | none => r = none ∧ Seen s'
    | some f => ∃ a, r = some (.table a) ∧ a < e'.tables.length ∧ e'.fields a = f ∧ At (i + 1) s'

/-- A stream that gives the events `ev` after a reset, with deltas that are not negative. -/
structure EventStream (W : World R → Prop) (n : ℕ) (o : Stream R)
    (ev : ℕ → Option (Fields R)) : Prop where
  deltas : ∀ i f, ev i = some f →
    ∃ d, Fields.get f (.name (ascii "delta")) = some (.num d) ∧ 0 ≤ d
  follows : ∃ At Seen, Follows W n o ev At Seen

theorem EventStream.nonNeg {W : World R → Prop} {n : ℕ} {o : Stream R}
    {ev : ℕ → Option (Fields R)} (h : EventStream W n o ev) : (childTrack ev).NonNeg := by
  intro i f hf
  obtain ⟨d, hd, hnonneg⟩ := h.deltas i f hf
  show 0 ≤ deltaOf f
  unfold deltaOf
  rw [hd]
  exact hnonneg

/-! ## The queue of a pass -/

section Queue

variable (ev : ℕ → ℕ → Option (Fields R)) (len : ℕ)

/-- The time lines of the children. -/
abbrev tracks : ℕ → Track (Fields R) R := fun k => childTrack (ev k)

/-- Each child stands in the queue at the time of its next event. -/
def Queued (pl : ℕ → ℕ) (q : List (PQItem R)) : Prop :=
  q.Pairwise PriorityQ.after ∧
    q.Perm ((List.range len).map fun k => ((tracks ev k).pos (pl k), k))

variable {ev len}

/-- The queue that `ParalelStream:init` makes. -/
theorem queued_init : Queued ev len (places (tracks ev) len 0)
    ((List.range len).foldl (fun queue k => PriorityQ.put queue (0 : R) k) []) := by
  suffices h : ∀ m, Queued ev m (fun _ => 0)
      ((List.range m).foldl (fun queue k => PriorityQ.put queue (0 : R) k) []) from h len
  intro m
  induction m with
  | zero => exact ⟨List.Pairwise.nil, List.Perm.nil⟩
  | succ m ih =>
    rw [List.range_succ, List.foldl_append]
    refine ⟨PriorityQ.put_pairwise .., (PriorityQ.put_perm ..).trans ?_⟩
    rw [List.range_succ, List.map_append]
    exact (ih.2.cons _).trans (List.perm_append_singleton _ _).symm

variable {j : ℕ} {q : List (PQItem R)} (hlen : 0 < len)
  (h : Queued ev len (places (tracks ev) len j) q)
include hlen h

/-- **The last item** is that of the turn. -/
theorem Queued.getLast :
    q.getLast? = some (time (tracks ev) len j, turn (tracks ev) len j) := by
  have hne : q ≠ [] := by
    rintro rfl
    have := h.2.length_eq
    simp at this
    omega
  have hlast := List.getLast?_eq_some_getLast hne
  generalize q.getLast hne = x at hlast
  have hmem : x ∈ (List.range len).map fun k =>
      ((tracks ev k).pos (places (tracks ev) len j k), k) :=
    h.2.mem_iff.mp (List.mem_of_getLast? hlast)
  obtain ⟨k, hk, rfl⟩ := List.mem_map.mp hmem
  have hfirst : turn (tracks ev) len j = k := by
    refine earliest_unique (List.mem_range.mp hk) fun m hm => ?_
    exact PriorityQ.after_last h.1 hlast (_, m)
      (h.2.mem_iff.mpr (List.mem_map.mpr ⟨m, List.mem_range.mpr hm, rfl⟩))
  rw [hlast, time, hfirst]

/-- **The child is put back** at its next time. -/
theorem Queued.put : Queued ev len (places (tracks ev) len (j + 1))
    (PriorityQ.put q.dropLast
      ((tracks ev (turn (tracks ev) len j)).pause
          (places (tracks ev) len j (turn (tracks ev) len j)) + time (tracks ev) len j)
      (turn (tracks ev) len j)) := by
  have hlast := Queued.getLast hlen h
  have hturn : turn (tracks ev) len j ∈ List.range len := List.mem_range.mpr (earliest_lt hlen)
  have hplaces : ∀ k, places (tracks ev) len (j + 1) k = if k = turn (tracks ev) len j
      then places (tracks ev) len j k + 1 else places (tracks ev) len j k := places_succ j
  unfold time at hlast ⊢
  generalize turn (tracks ev) len j = k at *
  have hrange : (List.range len).Perm (k :: (List.range len).erase k) := List.perm_cons_erase hturn
  -- the others stay where they are
  have hothers : q.dropLast.Perm (((List.range len).erase k).map fun m =>
      ((tracks ev m).pos (places (tracks ev) len j m), m)) := by
    have hq : q.Perm (((tracks ev k).pos (places (tracks ev) len j k), k) :: q.dropLast) := by
      conv_lhs => rw [← List.dropLast_append_getLast? _ hlast]
      exact List.perm_append_singleton _ _
    exact (hq.symm.trans (h.2.trans (hrange.map _))).cons_inv
  refine ⟨PriorityQ.put_pairwise .., (PriorityQ.put_perm ..).trans ?_⟩
  refine ((hothers.cons _).trans ?_).trans (hrange.map _).symm
  rw [List.map_cons, hplaces k, if_pos rfl, Track.pos, add_comm]
  refine List.Perm.of_eq (congrArg _ (List.map_congr_left fun m hm => ?_))
  rw [hplaces m, if_neg (List.nodup_range.mem_erase_iff.mp hm).1]

/-- **The delta to the first time that is left**, or the event's own if that is less,
leads to the time of the next turn. -/
theorem Queued.step [IsOrderedRing R] {top : PQItem R} (htop : q.dropLast.getLast? = some top) :
    min (top.1 - time (tracks ev) len j)
      ((tracks ev (turn (tracks ev) len j)).pause
        (places (tracks ev) len j (turn (tracks ev) len j))) =
      time (tracks ev) len (j + 1) - time (tracks ev) len j := by
  have hput := Queued.put hlen h
  have hnext := Queued.getLast hlen hput
  generalize (tracks ev (turn (tracks ev) len j)).pause
    (places (tracks ev) len j (turn (tracks ev) len j)) = d at *
  generalize turn (tracks ev) len j = k at *
  generalize time (tracks ev) len j = t at *
  have hperm := PriorityQ.put_perm q.dropLast (d + t) k
  have hle : ∀ y ∈ (d + t, k) :: q.dropLast, time (tracks ev) len (j + 1) ≤ y.1 := by
    intro y hy
    rcases PriorityQ.after_last hput.1 hnext y (hperm.mem_iff.mpr hy) with hlt | ⟨heq, -⟩
    · exact hlt.le
    · exact heq.le
  have hfirst : ∀ y ∈ q.dropLast, top.1 ≤ y.1 := by
    intro y hy
    have hsorted := h.1.sublist q.dropLast_sublist
    rcases PriorityQ.after_last hsorted htop y hy with hlt | ⟨heq, -⟩
    · exact hlt.le
    · exact heq.le
  have htime : time (tracks ev) len (j + 1) = min top.1 (d + t) := by
    refine le_antisymm (le_min ?_ ?_) ?_
    · exact hle top (List.mem_cons_of_mem _ (List.mem_of_getLast? htop))
    · exact hle _ List.mem_cons_self
    · rcases List.mem_cons.mp (hperm.mem_iff.mp (List.mem_of_getLast? hnext)) with heq | hmem
      · exact min_le_of_right_le (congrArg Prod.fst heq).ge
      · exact min_le_of_left_le (hfirst _ hmem)
  rw [htime, ← min_sub_sub_right, add_sub_cancel_right]

end Queue

namespace ParalelStream

/-! ## A pass -/

/-- Where the stream is after `j` events of a pass, whoever has asked for them. -/
inductive Pass (W : World R → Prop) (n : ℕ) (o : Stream R) : ℕ → o.S → Prop
  | start : Pass W n o 0 o.init
  | next {j : ℕ} {s s' : o.S} {e e' : World R} {v : Value R} (hs : Pass W n o j s) (he : W e)
      (hnext : o.next n e s = .ok (some v, s', e')) : Pass W n o (j + 1) s'
  | again {j : ℕ} {s s' : o.S} {e e' : World R} (hs : Pass W n o j s) (he : W e)
      (hnext : o.next n e s = .ok (none, s', e')) : Pass W n o 0 s'

section Calls

variable {W : World R → Prop} {n : ℕ} {stlist : List (Stream R)} {ev : ℕ → ℕ → Option (Fields R)}

/-- Where a call starts from: the queue and the children of the pass. -/
structure Ready (ev : ℕ → ℕ → Option (Fields R)) (At : (k : ℕ) → ℕ → (part stlist k).S → Prop)
    (j : ℕ) (s : ParalelState stlist) : Prop where
  queue : Queued ev stlist.length (places (tracks ev) stlist.length j) (ParalelStream.init s).2
  children : ∀ k < stlist.length,
    At k (places (tracks ev) stlist.length j k) ((ParalelStream.init s).1 k)

/-- A call, from the item that it takes out of the queue and the child's answer. -/
theorem pnext_eq {s : ParalelState stlist} {t : R} {k : ℕ} {e e' : World R}
    {r : Option (Value R)} {x : (part stlist k).S}
    (hlast : (ParalelStream.init s).2.getLast? = some (t, k))
    (hnext : (part stlist k).next n e ((ParalelStream.init s).1 k) = .ok (r, x, e')) :
    (ParalelStream stlist).next n e s = ParalelStream.handOn t k (ParalelStream.init s).2.dropLast
      (Function.update (ParalelStream.init s).1 k x) e' r := by
  show ParalelStream.pnext n e s = _
  unfold ParalelStream.pnext
  generalize ParalelStream.init s = cq at hlast hnext ⊢
  obtain ⟨c, q⟩ := cq
  dsimp only at hlast hnext ⊢
  unfold PriorityQ.pop States.next
  rw [hlast]
  dsimp only [bind, Except.bind]
  rw [hnext]
  rfl

/-- A child's event is handed on. -/
theorem handOn_event {t d : R} {k a : ℕ} {queue : List (PQItem R)} {c : States stlist}
    {e : World R} {top : PQItem R} (htop : queue.getLast? = some top)
    (hd : Fields.get (e.fields a) (.name (ascii "delta")) = some (.num d)) :
    ParalelStream.handOn t k queue c e (some (.table a)) =
      .ok (some (.table a), ⟨c, some (PriorityQ.put queue (d + t) k)⟩,
        e.put a (Fields.set (e.fields a) (.name (ascii "delta"))
          (some (.num (min (top.1 - t) d))))) := by
  have htdelta : e.index (.table a) (.name (ascii "delta")) = .ok (some (.num d)) := by
    rw [World.index, hd]
  have hfirst : PriorityQ.topPrio queue = .ok top.1 := by
    rw [PriorityQ.topPrio, htop]
  rw [ParalelStream.handOn, htdelta, hfirst]
  rfl

/-- A call that has to make the queue starts the pass. -/
theorem ready_start {At : (k : ℕ) → ℕ → (part stlist k).S → Prop}
    {Seen : (k : ℕ) → (part stlist k).S → Prop}
    (hfollows : ∀ k < stlist.length, Follows W n (part stlist k) (ev k) (At k) (Seen k))
    {c : States stlist} (hc : ∀ k < stlist.length, Seen k (c k)) :
    Ready ev At 0 ⟨c, none⟩ :=
  ⟨queued_init, fun k hk => (hfollows k hk).reset _ (hc k hk)⟩

variable {At : (k : ℕ) → ℕ → (part stlist k).S → Prop}
  {Seen : (k : ℕ) → (part stlist k).S → Prop} (hlen : 0 < stlist.length)
  (hfollows : ∀ k < stlist.length, Follows W n (part stlist k) (ev k) (At k) (Seen k))
  {j : ℕ} {s : ParalelState stlist} (hready : Ready ev At j s) {e : World R} (he : W e)
include hlen hfollows hready he

/-- **The child of the turn has ended**, and the pass can start again. -/
theorem call_end (hend : ev (turn (tracks ev) stlist.length j)
      (places (tracks ev) stlist.length j (turn (tracks ev) stlist.length j)) = none) :
    ∃ s' e', (ParalelStream stlist).next n e s = .ok (none, s', e') ∧ W e' ∧
      Ready ev At 0 s' := by
  obtain ⟨hqueue, hchildren⟩ := hready
  have hlast := hqueue.getLast hlen
  have hturn : turn (tracks ev) stlist.length j < stlist.length := earliest_lt hlen
  obtain ⟨r, x, e', hnext, hW, hr⟩ := (hfollows _ hturn).gives _ _ (hchildren _ hturn) e he
  rw [hend] at hr
  obtain ⟨rfl, hx⟩ := hr
  refine ⟨_, e', pnext_eq hlast hnext, hW, ready_start hfollows fun k hk => ?_⟩
  by_cases hsame : k = turn (tracks ev) stlist.length j
  · subst hsame
    rw [Function.update_self]
    exact hx
  · rw [Function.update_of_ne hsame]
    exact (hfollows k hk).seen _ _ (hchildren k hk)

variable {f : Fields R} (hevent : ev (turn (tracks ev) stlist.length j)
      (places (tracks ev) stlist.length j (turn (tracks ev) stlist.length j)) = some f)
include hevent

/-- **A single child** with an event: there is nothing left in the queue. -/
theorem call_single (hone : stlist.length = 1) :
    ∃ err, (ParalelStream stlist).next n e s = .error err := by
  obtain ⟨hqueue, hchildren⟩ := hready
  have hlast := hqueue.getLast hlen
  have hturn : turn (tracks ev) stlist.length j < stlist.length := earliest_lt hlen
  obtain ⟨r, x, e', hnext, hW, hr⟩ := (hfollows _ hturn).gives _ _ (hchildren _ hturn) e he
  rw [hevent] at hr
  obtain ⟨a, rfl, ha, hfields, -⟩ := hr
  have hempty : (ParalelStream.init s).2.dropLast = [] := by
    have hlength := hqueue.2.length_eq
    rw [List.length_map, List.length_range, hone] at hlength
    rw [← List.length_eq_zero_iff, List.length_dropLast, hlength]
  refine ⟨.error "attempt to index a nil value", ?_⟩
  rw [pnext_eq hlast hnext, hempty]
  rfl

/-- **An event** of the child of the turn, with the delta to the time of the next one. -/
theorem call_event [IsOrderedRing R] (hdelta : ∃ d,
      Fields.get f (.name (ascii "delta")) = some (.num d))
    (hput : ∀ e a t, W e → W (e.put a t)) (htwo : 2 ≤ stlist.length) :
    ∃ a s' e', (ParalelStream stlist).next n e s = .ok (some (.table a), s', e') ∧ W e' ∧
      e'.fields a = Fields.set f (.name (ascii "delta")) (some (.num
        (time (tracks ev) stlist.length (j + 1) - time (tracks ev) stlist.length j))) ∧
      Ready ev At (j + 1) s' := by
  obtain ⟨hqueue, hchildren⟩ := hready
  have hlast := hqueue.getLast hlen
  have hturn : turn (tracks ev) stlist.length j < stlist.length := earliest_lt hlen
  obtain ⟨r, x, e', hnext, hW, hr⟩ := (hfollows _ hturn).gives _ _ (hchildren _ hturn) e he
  rw [hevent] at hr
  obtain ⟨a, rfl, ha, hfields, hat⟩ := hr
  obtain ⟨d, hd⟩ := hdelta
  -- the first time that is left
  obtain ⟨top, htop⟩ : ∃ top, (ParalelStream.init s).2.dropLast.getLast? = some top := by
    have hlength := hqueue.2.length_eq
    rw [List.length_map, List.length_range] at hlength
    have hne : (ParalelStream.init s).2.dropLast ≠ [] := by
      rw [← List.length_pos_iff, List.length_dropLast]
      omega
    exact ⟨_, List.getLast?_eq_some_getLast hne⟩
  have hstep := Queued.step hlen hqueue htop
  have hpause : (tracks ev (turn (tracks ev) stlist.length j)).pause
      (places (tracks ev) stlist.length j (turn (tracks ev) stlist.length j)) = d := by
    unfold Track.pause
    show (ev _ _).elim 0 deltaOf = d
    rw [hevent]
    show deltaOf f = d
    unfold deltaOf
    rw [hd]
  have hqueue' := Queued.put hlen hqueue
  rw [hpause] at hstep hqueue'
  have hcall := pnext_eq hlast hnext
  rw [handOn_event htop (hfields ▸ hd), hstep] at hcall
  refine ⟨a, _, _, hcall, hput _ _ _ hW, ?_, hqueue', fun k hk => ?_⟩
  · rw [World.fields_put ha, hfields]
  · show At k _ (Function.update (ParalelStream.init s).1 _ x k)
    rw [places_succ]
    split
    next hsame =>
      subst hsame
      rw [Function.update_self]
      exact hat
    next hother =>
      rw [Function.update_of_ne hother]
      exact hchildren k hk

end Calls

/-! ## All calls -/

section Runs

variable {W : World R → Prop} {n : ℕ} {stlist : List (Stream R)}
  {ev : ℕ → ℕ → Option (Fields R)}

/-- The children's states at their places, put together. -/
theorem exists_follows (hchild : ∀ k < stlist.length, EventStream W n (part stlist k) (ev k)) :
    ∃ (At : (k : ℕ) → ℕ → (part stlist k).S → Prop) (Seen : (k : ℕ) → (part stlist k).S → Prop),
      ∀ k < stlist.length, Follows W n (part stlist k) (ev k) (At k) (Seen k) := by
  have hall : ∀ k, ∃ At Seen, k < stlist.length → Follows W n (part stlist k) (ev k) At Seen := by
    intro k
    by_cases hk : k < stlist.length
    · obtain ⟨At, Seen, h⟩ := (hchild k hk).follows
      exact ⟨At, Seen, fun _ => h⟩
    · exact ⟨fun _ _ => True, fun _ => True, fun h => absurd h hk⟩
  choose At Seen h using hall
  exact ⟨At, Seen, h⟩

section Follow

variable {At : (k : ℕ) → ℕ → (part stlist k).S → Prop}
  {Seen : (k : ℕ) → (part stlist k).S → Prop} (hlen : 0 < stlist.length)
  (hfollows : ∀ k < stlist.length, Follows W n (part stlist k) (ev k) (At k) (Seen k))
  (hdeltas : ∀ k < stlist.length, ∀ i f, ev k i = some f →
    ∃ d, Fields.get f (.name (ascii "delta")) = some (.num d) ∧ 0 ≤ d)
  (hput : ∀ e a t, W e → W (e.put a t))
include hlen hfollows hdeltas hput

/-- **A call of a pass**: the event of the turn, or the end, or nothing where it fails. -/
theorem call_cases [IsOrderedRing R] {j : ℕ} {s : ParalelState stlist}
    (hready : Ready ev At j s) {e : World R} (he : W e) :
    match ev (turn (tracks ev) stlist.length j)
        (places (tracks ev) stlist.length j (turn (tracks ev) stlist.length j)) with
    | none => ∃ s' e', (ParalelStream stlist).next n e s = .ok (none, s', e') ∧ W e' ∧
        Ready ev At 0 s'
    | some f => if stlist.length = 1 then ∃ err, (ParalelStream stlist).next n e s = .error err
        else ∃ a s' e', (ParalelStream stlist).next n e s = .ok (some (.table a), s', e') ∧ W e' ∧
          e'.fields a = Fields.set f (.name (ascii "delta")) (some (.num
            (time (tracks ev) stlist.length (j + 1) - time (tracks ev) stlist.length j))) ∧
          Ready ev At (j + 1) s' := by
  cases hitem : ev (turn (tracks ev) stlist.length j)
      (places (tracks ev) stlist.length j (turn (tracks ev) stlist.length j)) with
  | none => exact call_end hlen hfollows hready he hitem
  | some f =>
    dsimp only
    split
    next hone => exact call_single hlen hfollows hready he hitem hone
    next hmore =>
      obtain ⟨d, hd, -⟩ := hdeltas _ (earliest_lt hlen) _ f hitem
      exact call_event hlen hfollows hready he hitem ⟨d, hd⟩ hput (by omega)

/-- **After every call of a pass** the queue and the children are where they should be. -/
theorem pass_ready [IsOrderedRing R] {j : ℕ} {s : (ParalelStream stlist).S}
    (h : Pass W n (ParalelStream stlist) j s) : Ready ev At j s := by
  induction h with
  | start => exact ready_start hfollows fun k hk => (hfollows k hk).init
  | next _ he hnext ih =>
    have hcall := call_cases hlen hfollows hdeltas hput ih he
    split at hcall
    · obtain ⟨s₁, e₁, hend, -⟩ := hcall
      cases hnext.symm.trans hend
    · split at hcall
      · obtain ⟨err, herr⟩ := hcall
        cases hnext.symm.trans herr
      · obtain ⟨a, s₁, e₁, hcall, -, -, hready⟩ := hcall
        cases hnext.symm.trans hcall
        exact hready
  | again _ he hnext ih =>
    have hcall := call_cases hlen hfollows hdeltas hput ih he
    split at hcall
    · obtain ⟨s₁, e₁, hend, -, hready⟩ := hcall
      cases hnext.symm.trans hend
      exact hready
    · split at hcall
      · obtain ⟨err, herr⟩ := hcall
        cases hnext.symm.trans herr
      · obtain ⟨a, s₁, e₁, hcall, -, -, -⟩ := hcall
        cases hnext.symm.trans hcall

/-- A single child without events is always at its start. -/
theorem pass_empty [IsOrderedRing R] (hone : stlist.length = 1) (hnone : ev 0 0 = none) {j : ℕ}
    {s : (ParalelStream stlist).S} (h : Pass W n (ParalelStream stlist) j s) : j = 0 := by
  induction h with
  | start => rfl
  | again _ _ _ _ => rfl
  | @next j s s' e e' v hs he hnext ih =>
    subst ih
    have hcall := call_cases hlen hfollows hdeltas hput
      (pass_ready hlen hfollows hdeltas hput hs) he
    have hturn : turn (tracks ev) stlist.length 0 = 0 :=
      Nat.lt_one_iff.mp (hone ▸ earliest_lt hlen)
    have hitem : ev (turn (tracks ev) stlist.length 0)
        (places (tracks ev) stlist.length 0 (turn (tracks ev) stlist.length 0)) = none := by
      rw [hturn]
      exact hnone
    rw [hitem] at hcall
    obtain ⟨s₁, e₁, hend, -⟩ := hcall
    cases hnext.symm.trans hend

end Follow

/-- The event of turn `j` is at its own place and time on its child's time line, and the
turns are in the order of time and child. -/
def OnTime (ev : ℕ → ℕ → Option (Fields R)) (len j : ℕ) : Prop :=
  ∑ i ∈ Finset.range j, (time (tracks ev) len (i + 1) - time (tracks ev) len i) =
    (tracks ev (turn (tracks ev) len j)).pos (places (tracks ev) len j (turn (tracks ev) len j)) ∧
  places (tracks ev) len j (turn (tracks ev) len j) =
    ((Finset.range j).filter fun i => turn (tracks ev) len i = turn (tracks ev) len j).card ∧
  (time (tracks ev) len j < time (tracks ev) len (j + 1) ∨
    (time (tracks ev) len j = time (tracks ev) len (j + 1) ∧
      turn (tracks ev) len j ≤ turn (tracks ev) len (j + 1)))

/-- What the call for turn `j` gives: the event that is at its place on its child's time
line, with the delta to the time of the next turn, or nil where the child has ended. -/
def Answer (ev : ℕ → ℕ → Option (Fields R)) (len j : ℕ) (r : Option (Value R)) (e : World R) :
    Prop :=
  match ev (turn (tracks ev) len j) (places (tracks ev) len j (turn (tracks ev) len j)) with
  | none => r = none
  | some f => ∃ a, r = some (.table a) ∧
      e.fields a = Fields.set f (.name (ascii "delta"))
        (some (.num (time (tracks ev) len (j + 1) - time (tracks ev) len j)))

/-- **ParS plays its children's events** in the order of their times, and again after each
nil, if and only if there is more than one child or the only one has no event. -/
theorem parallel_iff [IsOrderedRing R] (hne : stlist ≠ [])
    (hchild : ∀ k < stlist.length, EventStream W n (part stlist k) (ev k))
    (hput : ∀ e a t, W e → W (e.put a t)) (hW : ∃ e, W e) :
    (∀ j s, Pass W n (ParalelStream stlist) j s → ∀ e, W e → ∃ r s' e',
      (ParalelStream stlist).next n e s = .ok (r, s', e') ∧ W e' ∧ OnTime ev stlist.length j ∧
        Answer ev stlist.length j r e') ↔
    2 ≤ stlist.length ∨ ev 0 0 = none := by
  have hlen : 0 < stlist.length := List.length_pos_iff.mpr hne
  have hontime : ∀ j, OnTime ev stlist.length j := fun j =>
    ⟨sum_steps (fun _ => rfl) j, places_eq_card j _,
      turn_le_succ (fun k hk => (hchild k hk).nonNeg) hlen j⟩
  obtain ⟨At, Seen, hfollows⟩ := exists_follows hchild
  have hdeltas := fun k hk => (hchild k hk).deltas
  have hcall := fun {j s} (hs : Pass W n (ParalelStream stlist) j s) {e} he =>
    call_cases hlen hfollows hdeltas hput (pass_ready hlen hfollows hdeltas hput hs) (e := e) he
  have hsingle : stlist.length = 1 → ev (turn (tracks ev) stlist.length 0)
      (places (tracks ev) stlist.length 0 (turn (tracks ev) stlist.length 0)) = ev 0 0 := by
    intro hone
    have hturn : turn (tracks ev) stlist.length 0 < 1 := hone ▸ earliest_lt hlen
    rw [Nat.lt_one_iff.mp hturn]
    rfl
  constructor
  · intro h
    by_contra hnot
    obtain ⟨hlt, hsome⟩ := not_or.mp hnot
    have hone : stlist.length = 1 := by omega
    obtain ⟨e, he⟩ := hW
    obtain ⟨r, s', e', hok, -⟩ := h 0 _ Pass.start e he
    have hfails := hcall Pass.start he
    rw [hsingle hone] at hfails
    cases hfirst : ev 0 0 with
    | none => exact hsome hfirst
    | some f =>
      rw [hfirst] at hfails
      dsimp only at hfails
      rw [if_pos hone] at hfails
      obtain ⟨err, herr⟩ := hfails
      cases hok.symm.trans herr
  · intro hcond j s hs e he
    have hgives := hcall hs he
    cases hitem : ev (turn (tracks ev) stlist.length j)
        (places (tracks ev) stlist.length j (turn (tracks ev) stlist.length j)) with
    | none =>
      rw [hitem] at hgives
      obtain ⟨s', e', hnext, hW', -⟩ := hgives
      exact ⟨none, s', e', hnext, hW', hontime j, by rw [Answer, hitem]⟩
    | some f =>
      have hmore : stlist.length ≠ 1 := by
        intro hone
        rcases hcond with htwo | hnone
        · omega
        · obtain rfl := pass_empty hlen hfollows hdeltas hput hone hnone hs
          rw [hsingle hone, hnone] at hitem
          cases hitem
      rw [hitem] at hgives
      dsimp only at hgives
      rw [if_neg hmore] at hgives
      obtain ⟨a, s', e', hnext, hW', hfields, -⟩ := hgives
      exact ⟨_, s', e', hnext, hW', hontime j, by rw [Answer, hitem]; exact ⟨a, rfl, hfields⟩⟩

omit [LinearOrder R] [Ring R] in
/-- `SF` over a list, with a function that makes an event of each value. -/
theorem follows_SF {argus : Stream R} {N n : ℕ} {xs : List (Value R)}
    (h : argus.Cycles N xs) (hn : N ≤ n) (event : Value R → Fields R) :
    Follows (fun _ => True) n
      (StreamFunc argus fun x e => .ok (some (.table (e.new (event x)).1), (e.new (event x)).2))
      (fun i => xs[i]?.map event) (fun i s => argus.Plays n s (xs.drop i) argus.init)
      fun _ => True where
  init := trivial
  reset s _ := by
    show argus.Plays n (argus.reset s) xs argus.init
    rw [h.restarts s]
    exact h.plays n hn
  seen _ _ _ := trivial
  gives i s hs e _ := by
    obtain ⟨s₁, hnext, hthen⟩ := Source.Plays.next hs
    rw [List.head?_drop] at hnext
    cases hi : xs[i]? with
    | none =>
      refine ⟨none, argus.reset s₁, e, ?_, trivial, rfl, trivial⟩
      simp only [StreamFunc]
      rw [hnext e, hi]
      rfl
    | some x =>
      refine ⟨_, s₁, (e.new (event x)).2, ?_, trivial, _, rfl, ?_, World.fields_new, ?_⟩
      · simp only [StreamFunc]
        rw [hnext e, hi]
        rfl
      · simp [World.new]
      · rcases hthen with ⟨hend, -⟩ | ⟨-, hrest⟩
        · rw [List.drop_eq_nil_iff] at hend
          rw [List.getElem?_eq_none hend] at hi
          cases hi
        · rw [List.tail_drop] at hrest
          exact hrest

theorem eventStream_SF {argus : Stream R} {N n : ℕ} {xs : List (Value R)}
    (h : argus.Cycles N xs) (hn : N ≤ n) (event : Value R → Fields R)
    (hdelta : ∀ x ∈ xs, ∃ d, Fields.get (event x) (.name (ascii "delta")) = some (.num d) ∧ 0 ≤ d) :
    EventStream (fun _ => True) n
      (StreamFunc argus fun x e => .ok (some (.table (e.new (event x)).1), (e.new (event x)).2))
      fun i => xs[i]?.map event where
  deltas i f hf := by
    obtain ⟨x, hx, rfl⟩ := Option.map_eq_some_iff.mp hf
    exact hdelta x (List.mem_of_getElem? hx)
  follows := ⟨_, _, follows_SF h hn event⟩

/-- `ParS{SF(LS({2,1},1),f),SF(LS({1,1},1),f)}` with `f(x)` the event `{delta=x}`. -/
theorem parallel_iff_two :
    let SF := fun t : Tree (Value ℤ) => StreamFunc t.stream fun x e =>
      .ok (some (.table (e.new [(.name (ascii "delta"), x)]).1),
        (e.new [(.name (ascii "delta"), x)]).2)
    let ts : List (Tree (Value ℤ)) := [.LS 1 ![.atom (.num 2), .atom (.num 1)] 1,
      .LS 1 ![.atom (.num 1), .atom (.num 1)] 1]
    let ev := fun k i => ((ts[k]?.map Tree.flat).getD [])[i]?.map fun x =>
      [(Field.name (ascii "delta"), x)]
    ∀ j s, Pass (fun _ => True) 9 (ParalelStream (ts.map SF)) j s → ∀ e, True → ∃ r s' e',
      (ParalelStream (ts.map SF)).next 9 e s = .ok (r, s', e') ∧ True ∧ OnTime ev 2 j ∧
        Answer ev 2 j r e' := by
  intro SF ts ev
  have hlist : ∀ a b : ℤ, 0 ≤ a → 0 ≤ b → EventStream (fun _ => True) 9
      (SF (.LS 1 ![.atom (.num a), .atom (.num b)] 1))
      fun i => ([.num a, .num b] : List (Value ℤ))[i]?.map fun x =>
        [(Field.name (ascii "delta"), x)] := by
    intro a b ha hb
    have hgives := Tree.gives (E := World ℤ)
      (.LS 1 ![.atom (.num a), .atom (.num b)] 1 : Tree (Value ℤ))
    refine eventStream_SF (show (Tree.stream (.LS 1 ![.atom (.num a), .atom (.num b)] 1)).Cycles
      6 [.num a, .num b] from hgives) (by decide) _ ?_
    rw [List.forall_mem_cons, List.forall_mem_singleton]
    exact ⟨⟨a, rfl, ha⟩, ⟨b, rfl, hb⟩⟩
  have hchild : ∀ k < (ts.map SF).length,
      EventStream (fun _ => True) 9 (part (ts.map SF) k) (ev k) := by
    intro k hk
    have hk : k < 2 := hk
    interval_cases k
    · exact hlist 2 1 (by decide) (by decide)
    · exact hlist 1 1 (by decide) (by decide)
  exact (parallel_iff (show ts.map SF ≠ [] from List.cons_ne_nil _ _) hchild
    (fun _ _ _ _ => trivial) ⟨⟨none, none, []⟩, trivial⟩).mpr (Or.inl le_rfl)

/-- A single child with one event: the child gives it, `ParS` fails. -/
theorem parallel_single :
    ((PS [(.name (ascii "dur"), .LS 0 ![.atom (.num 1)] 1)] : Stream ℤ).next 9 ⟨none, none, []⟩
      (States.init _)).map (fun r => (r.1, r.2.2.fields 0)) =
        .ok (some (.table 0), [(.name (ascii "dur"), .num 1), (.name (ascii "delta"), .num 1)]) ∧
    ((ParalelStream [PS [(.name (ascii "dur"), .LS 0 ![.atom (.num 1)] 1)]] : Stream ℤ).next 9
      ⟨none, none, []⟩ ⟨States.init _, none⟩).map Prod.fst =
        .error (.error "attempt to index a nil value") := by
  decide +kernel

end Runs

end ParalelStream

end Lua2SC.Streams
