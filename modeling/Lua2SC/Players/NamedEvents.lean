import Lua2SC.Lib.Lua

/-!
# `named_events.lua`

An event is a list of subscribers that is called through when the event is set; who
subscribes later is called at once. A callback may do anything: subscribe players, set
events, and with `Play` run a whole player. So the machine has a stack: what runs is the
code on top, which does as it likes until it returns, and below it are the loops of the
`set`s that are waiting for their callback.

A player that subscribes while the loop of its event is running is called at once, because
the event is set, and again when the loop comes to the end of the list, where it was put.
`once_iff` says that every other subscriber of an event that is set is called exactly once,
with the ppq of the first `set`, in every run. A player that waits with `WAITEv` subscribes
only to what is not set, so it never is called twice (`waitEv_once`).
-/

namespace Lua2SC.Players.NamedEvents

open Lua2SC.Lua

variable {N P Q : Type} [DecidableEq N] [DecidableEq P]

/-- `events[name]`. A set event has its ppq. -/
structure Evlist (P Q : Type) where
  subs : List P
  setted : Option Q
deriving DecidableEq, Repr

inductive Frame (N Q : Type) where
  /-- The code of a player or of a callback. -/
  | code
  /-- The loop of `set` before its turn `i`. -/
  | notify (name : N) (i : ℕ) (ppq : Q)
deriving DecidableEq, Repr

/-- A call of a subscriber. -/
structure Call (N P Q : Type) where
  name : N
  pl : P
  ppq : Q
deriving DecidableEq, Repr

structure State (N P Q : Type) where
  events : LuaTable N (Evlist P Q)
  checkpl : List (P × N)
  stack : List (Frame N Q)
  calls : List (Call N P Q)

/-- After `delete_events`. -/
def delete_events : State N P Q := ⟨∅, [], [.code], []⟩

namespace State

/-- `events[name] or {}`. -/
def event (s : State N P Q) (name : N) : Evlist P Q := (s.events.lookup name).getD ⟨[], none⟩

def is_set (s : State N P Q) (name : N) : Bool := (s.event name).setted.isSome

/-- A callback is called. -/
def call (s : State N P Q) (name : N) (pl : P) (ppq : Q) : State N P Q :=
  { s with stack := .code :: s.stack, calls := s.calls ++ [⟨name, pl, ppq⟩] }

/-- The subscriber is put in the list. -/
def enlist (s : State N P Q) (name : N) (pl : P) : State N P Q :=
  { s with
    checkpl := (pl, name) :: s.checkpl
    events := s.events.insert name { s.event name with subs := (s.event name).subs ++ [pl] } }

def subscribe (s : State N P Q) (name : N) (pl : P) : LuaM (State N P Q) := do
  luaAssert ((pl, name) ∉ s.checkpl) "already set"
  match (s.event name).setted with
  | none => .ok (s.enlist name pl)
  | some ppq => .ok ((s.enlist name pl).call name pl ppq)

def set (s : State N P Q) (name : N) (ppq : Q) : State N P Q :=
  if s.is_set name then s
  else { s with
    events := s.events.insert name { s.event name with setted := some ppq }
    stack := .notify name 0 ppq :: s.stack }

/-- A turn of `ipairs` in `set`, with `k` below the loop. -/
def turn (s : State N P Q) (name : N) (i : ℕ) (ppq : Q) (k : List (Frame N Q)) : State N P Q :=
  match (s.event name).subs[i]? with
  | some pl => { s with stack := .notify name (i + 1) ppq :: k }.call name pl ppq
  | none => { s with stack := k }

end State

/-- What the code on top may do, or the loop. -/
inductive Act (N P Q : Type) where
  | subscribe (name : N) (pl : P)
  | set (name : N) (ppq : Q)
  | is_set (name : N)
  | ret
  | turn
deriving DecidableEq, Repr

def step (s : State N P Q) (a : Act N P Q) : LuaM (State N P Q) :=
  match s.stack, a with
  | .code :: _, .subscribe name pl => s.subscribe name pl
  | .code :: _, .set name ppq => .ok (s.set name ppq)
  | .code :: _, .is_set _ => .ok s
  | .code :: k, .ret => .ok { s with stack := k }
  | .notify name i ppq :: k, .turn => .ok (s.turn name i ppq k)
  | _, _ => .error "not what runs"

/-- A run. -/
def run (s : State N P Q) (acts : List (Act N P Q)) : LuaM (State N P Q) := acts.foldlM step s

/-- The ppq of the first `set` of an event that the run has. -/
def firstSet (name : N) (acts : List (Act N P Q)) : Option Q :=
  acts.findSome? fun a =>
    match a with
    | .set name' ppq => if name' = name then some ppq else none
    | _ => none

/-- What a player was called with for an event. -/
def callsOf (s : State N P Q) (name : N) (pl : P) : List Q :=
  (s.calls.filter fun c => c.name = name ∧ c.pl = pl).map Call.ppq

/-- The loop of an event is running. -/
def Notifying (s : State N P Q) (name : N) : Prop := ∃ i ppq, .notify name i ppq ∈ s.stack

/-! ## What a step can do -/

section Steps

/-- What a step does. -/
inductive Steps (s : State N P Q) : Act N P Q → State N P Q → Prop
  | subscribe {name pl} (hnew : (pl, name) ∉ s.checkpl) (hset : (s.event name).setted = none) :
    Steps s (.subscribe name pl) (s.enlist name pl)
  | late {name pl ppq} (hnew : (pl, name) ∉ s.checkpl) (hset : (s.event name).setted = some ppq) :
    Steps s (.subscribe name pl) ((s.enlist name pl).call name pl ppq)
  | again {name ppq} (hset : (s.event name).setted ≠ none) : Steps s (.set name ppq) s
  | set {name ppq} (hset : (s.event name).setted = none) :
    Steps s (.set name ppq) { s with
      events := s.events.insert name { s.event name with setted := some ppq }
      stack := .notify name 0 ppq :: s.stack }
  | is_set {name} : Steps s (.is_set name) s
  | ret {k} (hstack : s.stack = .code :: k) : Steps s .ret { s with stack := k }
  | turn {name i ppq k pl} (hstack : s.stack = .notify name i ppq :: k)
    (hpl : (s.event name).subs[i]? = some pl) :
    Steps s .turn ({ s with stack := .notify name (i + 1) ppq :: k }.call name pl ppq)
  | done {name i ppq k} (hstack : s.stack = .notify name i ppq :: k)
    (hpl : (s.event name).subs[i]? = none) : Steps s .turn { s with stack := k }

theorem step_steps {s s' : State N P Q} {a : Act N P Q} (h : step s a = .ok s') : Steps s a s' := by
  unfold step at h
  split at h
  next name pl hstack =>
    obtain ⟨_, hnew, h⟩ := bind_ok.mp h
    have hnew := luaAssert_ok.mp hnew
    split at h
    next hset =>
      cases h
      exact .subscribe hnew hset
    next ppq hset =>
      cases h
      exact .late hnew hset
  next name ppq hstack =>
    cases h
    unfold State.set State.is_set
    split
    next hset => exact .again (Option.isSome_iff_ne_none.mp hset)
    next hset => exact .set (Option.not_isSome_iff_eq_none.mp hset)
  next => cases h; exact .is_set
  next k hstack => cases h; exact .ret hstack
  next name i ppq k hstack =>
    cases h
    unfold State.turn
    split
    next pl hpl => exact .turn hstack hpl
    next hpl => exact .done hstack hpl
  next => cases h

omit [DecidableEq P] in
@[simp] theorem event_insert (s : State N P Q) (name : N) (ev : Evlist P Q) (name' : N)
    (checkpl : List (P × N)) (stack : List (Frame N Q)) (calls : List (Call N P Q)) :
    State.event ⟨s.events.insert name ev, checkpl, stack, calls⟩ name' =
      if name' = name then ev else s.event name' := by
  unfold State.event
  by_cases h : name' = name
  · subst h
    simp
  · rw [if_neg h]
    dsimp only
    rw [AList.lookup_insert_ne h]

theorem callsOf_call (s : State N P Q) (name : N) (pl : P) (ppq : Q) (name' : N) (pl' : P) :
    callsOf (s.call name pl ppq) name' pl' =
      callsOf s name' pl' ++ if name = name' ∧ pl = pl' then [ppq] else [] := by
  unfold callsOf State.call
  dsimp only
  rw [List.filter_append, List.map_append]
  congr 1
  split
  next h => simp [h]
  next h => simp [h]

end Steps

/-! ## What holds in every run -/

/-- The event whose loop it is. -/
def Frame.loop : Frame N Q → Option N
  | .code => none
  | .notify name _ _ => some name

structure WF (s : State N P Q) : Prop where
  nodup : ∀ name, (s.event name).subs.Nodup
  check : ∀ name, ∀ pl ∈ (s.event name).subs, (pl, name) ∈ s.checkpl
  single : (s.stack.filterMap Frame.loop).Nodup
  loop : ∀ name i ppq, .notify name i ppq ∈ s.stack →
    (s.event name).setted = some ppq ∧ i ≤ (s.event name).subs.length
  silent : ∀ name pl, (pl, name) ∉ s.checkpl → callsOf s name pl = []

omit [DecidableEq N] in
theorem mem_loop {stack : List (Frame N Q)} {name : N} :
    name ∈ stack.filterMap Frame.loop ↔ ∃ i ppq, .notify name i ppq ∈ stack := by
  rw [List.mem_filterMap]
  constructor
  · intro h
    obtain ⟨f, hf, hname⟩ := h
    cases f with
    | code => cases hname
    | notify name' i ppq =>
      cases hname
      exact ⟨i, ppq, hf⟩
  · intro h
    obtain ⟨i, ppq, hf⟩ := h
    exact ⟨_, hf, rfl⟩

theorem wf_init : WF (delete_events : State N P Q) := by
  refine ⟨fun _ => List.nodup_nil, fun _ _ h => ?_, List.nodup_nil, fun _ _ _ h => ?_,
    fun _ _ _ => rfl⟩
  · cases h
  · cases List.mem_singleton.mp h

theorem wf_enlist {s : State N P Q} (h : WF s) {name : N} {pl : P} (hnew : (pl, name) ∉ s.checkpl) :
    WF (s.enlist name pl) := by
  have hfresh : pl ∉ (s.event name).subs := fun hmem => hnew (h.check name pl hmem)
  unfold State.enlist
  refine ⟨fun name' => ?_, fun name' pl' hpl' => ?_, h.single, fun name' i ppq hf => ?_,
    fun name' pl' hpl' => h.silent name' pl' fun hmem => hpl' (List.mem_cons_of_mem _ hmem)⟩
  · rw [event_insert]
    split
    · exact (h.nodup name).append (List.nodup_singleton pl) (List.disjoint_singleton.mpr hfresh)
    · exact h.nodup name'
  · rw [event_insert] at hpl'
    split at hpl'
    next hname =>
      subst hname
      rcases List.mem_append.mp hpl' with hold | hpl'
      · exact List.mem_cons_of_mem _ (h.check _ pl' hold)
      · rw [List.mem_singleton.mp hpl']
        exact List.mem_cons_self
    next => exact List.mem_cons_of_mem _ (h.check name' pl' hpl')
  · obtain ⟨hset, hle⟩ := h.loop name' i ppq hf
    rw [event_insert]
    split
    next hname =>
      subst hname
      refine ⟨hset, ?_⟩
      rw [List.length_append]
      exact Nat.le_add_right_of_le hle
    next => exact ⟨hset, hle⟩

theorem wf_call {s : State N P Q} (h : WF s) {name : N} {pl : P} (hold : (pl, name) ∈ s.checkpl)
    (ppq : Q) : WF (s.call name pl ppq) := by
  refine ⟨h.nodup, h.check, h.single, fun name' i ppq' hf => ?_, fun name' pl' hpl' => ?_⟩
  · rcases List.mem_cons.mp hf with hf | hf
    · cases hf
    · exact h.loop name' i ppq' hf
  · rw [callsOf_call, h.silent name' pl' hpl', if_neg ?_, List.append_nil]
    intro hsame
    obtain ⟨rfl, rfl⟩ := hsame
    exact hpl' hold

theorem wf_set {s : State N P Q} (h : WF s) {name : N} (hset : (s.event name).setted = none)
    (ppq : Q) : WF { s with
      events := s.events.insert name { s.event name with setted := some ppq }
      stack := .notify name 0 ppq :: s.stack } := by
  refine ⟨fun name' => ?_, fun name' pl' hpl' => ?_, ?_, fun name' i ppq' hf => ?_, h.silent⟩
  · rw [event_insert]
    split
    · exact h.nodup name
    · exact h.nodup name'
  · rw [event_insert] at hpl'
    split at hpl'
    next hname =>
      subst hname
      exact h.check _ pl' hpl'
    next => exact h.check name' pl' hpl'
  · -- no loop of an event that is not set
    refine List.nodup_cons.mpr ⟨fun hmem => ?_, h.single⟩
    obtain ⟨i, ppq', hf⟩ := mem_loop.mp hmem
    rw [(h.loop name i ppq' hf).1] at hset
    cases hset
  · rw [event_insert]
    rcases List.mem_cons.mp hf with hf | hf
    · cases hf
      rw [if_pos rfl]
      exact ⟨rfl, Nat.zero_le _⟩
    · have hloop := h.loop name' i ppq' hf
      split
      next hname =>
        subst hname
        rw [hloop.1] at hset
        cases hset
      next => exact hloop

/-- The top of the stack goes, or is a turn further. -/
theorem wf_pop {s : State N P Q} (h : WF s) {f : Frame N Q} {k : List (Frame N Q)}
    (hstack : s.stack = f :: k) : WF { s with stack := k } := by
  have hsingle := h.single
  have hloop := h.loop
  rw [hstack] at hsingle hloop
  refine ⟨h.nodup, h.check, ?_, fun name i ppq hf => hloop name i ppq (List.mem_cons_of_mem _ hf),
    h.silent⟩
  exact hsingle.sublist ((List.sublist_cons_self f k).filterMap _)

theorem wf_next {s : State N P Q} (h : WF s) {name : N} {i : ℕ} {ppq : Q} {k : List (Frame N Q)}
    {pl : P} (hstack : s.stack = .notify name i ppq :: k)
    (hpl : (s.event name).subs[i]? = some pl) :
    WF { s with stack := .notify name (i + 1) ppq :: k } := by
  have hsingle := h.single
  have hloop := h.loop
  rw [hstack] at hsingle hloop
  refine ⟨h.nodup, h.check, hsingle, fun name' i' ppq' hf => ?_, h.silent⟩
  rcases List.mem_cons.mp hf with hf | hf
  · cases hf
    exact ⟨(hloop _ _ _ List.mem_cons_self).1, (List.getElem?_eq_some_iff.mp hpl).1⟩
  · exact hloop name' i' ppq' (List.mem_cons_of_mem _ hf)

theorem wf_step {s s' : State N P Q} {a : Act N P Q} (h : WF s) (hstep : Steps s a s') : WF s' := by
  cases hstep with
  | subscribe hnew hset => exact wf_enlist h hnew
  | late hnew hset => exact wf_call (wf_enlist h hnew) List.mem_cons_self _
  | again hset => exact h
  | set hset => exact wf_set h hset _
  | is_set => exact h
  | ret hstack => exact wf_pop h hstack
  | turn hstack hpl =>
    exact wf_call (wf_next h hstack hpl) (h.check _ _ (List.mem_of_getElem? hpl)) _
  | done hstack hpl => exact wf_pop h hstack

theorem wf_run {s s' : State N P Q} {acts : List (Act N P Q)} (h : WF s)
    (hrun : run s acts = .ok s') : WF s' := by
  induction acts generalizing s with
  | nil =>
    cases hrun
    exact h
  | cons a acts ih =>
    obtain ⟨s₁, hstep, hrest⟩ := bind_ok.mp hrun
    exact ih (wf_step h (step_steps hstep)) hrest

/-! ## One subscriber -/

/-- The subscriber at place `m` of an event that was called `b` times when it subscribed. -/
structure Track (name : N) (pl : P) (m b : ℕ) (s : State N P Q) : Prop where
  place : (s.event name).subs[m]? = some pl
  unset : (s.event name).setted = none → b = 0 ∧ callsOf s name pl = []
  /-- The loop has not come to it. -/
  waiting : ∀ i ppq, .notify name i ppq ∈ s.stack → i ≤ m →
    callsOf s name pl = List.replicate b ppq
  /-- The loop has passed it, or is over. -/
  passed : ∀ ppq, (s.event name).setted = some ppq → (∀ i ppq', .notify name i ppq' ∈ s.stack → m < i) →
    callsOf s name pl = List.replicate (b + 1) ppq

section Track

variable {s s' : State N P Q} {name : N} {pl : P} {m b : ℕ}

theorem track_enlist (h : Track name pl m b s) {name' : N} {pl' : P} :
    Track name pl m b (s.enlist name' pl') := by
  have hset : ((s.enlist name' pl').event name).setted = (s.event name).setted := by
    unfold State.enlist
    rw [event_insert]
    split
    next hname => rw [hname]
    next => rfl
  refine ⟨?_, ?_, h.waiting, ?_⟩
  · unfold State.enlist
    rw [event_insert]
    split
    next hname =>
      subst hname
      rw [List.getElem?_append_left (List.getElem?_eq_some_iff.mp h.place).1]
      exact h.place
    next => exact h.place
  · rw [hset]
    exact h.unset
  · rw [hset]
    exact h.passed

/-- Another subscriber is called. -/
theorem track_call (h : Track name pl m b s) {name' : N} {pl' : P} (ppq : Q)
    (hother : ¬ (name' = name ∧ pl' = pl)) : Track name pl m b (s.call name' pl' ppq) := by
  have hcalls : callsOf (s.call name' pl' ppq) name pl = callsOf s name pl := by
    rw [callsOf_call, if_neg hother, List.append_nil]
  have hmem : ∀ {i ppq'}, Frame.notify name i ppq' ∈ (s.call name' pl' ppq).stack →
      Frame.notify name i ppq' ∈ s.stack := by
    intro i ppq' hf
    rcases List.mem_cons.mp hf with hf | hf
    · cases hf
    · exact hf
  refine ⟨h.place, fun hset => ?_, fun i ppq' hf hi => ?_, fun ppq' hset hall => ?_⟩
  · rw [hcalls]
    exact h.unset hset
  · rw [hcalls]
    exact h.waiting i ppq' (hmem hf) hi
  · rw [hcalls]
    exact h.passed ppq' hset fun i ppq'' hf => hall i ppq'' (List.mem_cons_of_mem _ hf)

theorem track_set (h : Track name pl m b s) {name' : N}
    (hset : (s.event name').setted = none) (ppq : Q) : Track name pl m b { s with
      events := s.events.insert name' { s.event name' with setted := some ppq }
      stack := .notify name' 0 ppq :: s.stack } := by
  refine ⟨?_, fun hset' => ?_, fun i ppq' hf hi => ?_, fun ppq' hset' hall => ?_⟩
  · rw [event_insert]
    split
    next hname =>
      subst hname
      exact h.place
    next => exact h.place
  · rw [event_insert] at hset'
    split at hset'
    · cases hset'
    · exact h.unset hset'
  · rcases List.mem_cons.mp hf with hf | hf
    · cases hf
      obtain ⟨rfl, hcalls⟩ := h.unset hset
      exact hcalls
    · exact h.waiting i ppq' hf hi
  · rw [event_insert] at hset'
    split at hset'
    next hname =>
      subst hname
      exact absurd (hall 0 ppq List.mem_cons_self) (Nat.not_lt_zero m)
    next => exact h.passed ppq' hset' fun i ppq'' hf => hall i ppq'' (List.mem_cons_of_mem _ hf)

theorem track_pop (h : Track name pl m b s) {f : Frame N Q} {k : List (Frame N Q)}
    (hstack : s.stack = f :: k) (hf : ∀ i ppq, f = .notify name i ppq → m < i) :
    Track name pl m b { s with stack := k } := by
  have hwaiting := h.waiting
  have hpassed := h.passed
  rw [hstack] at hwaiting hpassed
  refine ⟨h.place, h.unset, fun i ppq hmem => hwaiting i ppq (List.mem_cons_of_mem _ hmem),
    fun ppq hset hall => hpassed ppq hset fun i ppq' hmem => ?_⟩
  rcases List.mem_cons.mp hmem with hmem | hmem
  · exact hf i ppq' hmem.symm
  · exact hall i ppq' hmem

/-- A turn that comes to another subscriber. -/
theorem track_next (h : Track name pl m b s) {name' : N} {i : ℕ} {ppq : Q} {k : List (Frame N Q)}
    (hstack : s.stack = .notify name' i ppq :: k) (hother : name' = name → i ≠ m) :
    Track name pl m b { s with stack := .notify name' (i + 1) ppq :: k } := by
  have hwaiting := h.waiting
  have hpassed := h.passed
  rw [hstack] at hwaiting hpassed
  refine ⟨h.place, h.unset, fun i' ppq' hf hi => ?_, fun ppq' hset hall => ?_⟩
  · rcases List.mem_cons.mp hf with hf | hf
    · cases hf
      exact hwaiting i ppq List.mem_cons_self (Nat.le_of_succ_le hi)
    · exact hwaiting i' ppq' (List.mem_cons_of_mem _ hf) hi
  · refine hpassed ppq' hset fun i' ppq'' hf => ?_
    rcases List.mem_cons.mp hf with hf | hf
    · cases hf
      have hlt := hall (i + 1) ppq List.mem_cons_self
      have hne := hother rfl
      omega
    · exact hall i' ppq'' (List.mem_cons_of_mem _ hf)

/-- The turn that comes to it. -/
theorem track_turn (h : Track name pl m b s) (hwf : WF s) {ppq : Q} {k : List (Frame N Q)}
    (hstack : s.stack = .notify name m ppq :: k) :
    Track name pl m b ({ s with stack := .notify name (m + 1) ppq :: k }.call name pl ppq) := by
  have hset := (hwf.loop name m ppq (by rw [hstack]; exact List.mem_cons_self)).1
  have hcalls : callsOf ({ s with stack := .notify name (m + 1) ppq :: k }.call name pl ppq)
      name pl = List.replicate (b + 1) ppq := by
    rw [callsOf_call, if_pos ⟨rfl, rfl⟩, List.replicate_succ']
    exact congrArg (· ++ [ppq])
      (h.waiting m ppq (by rw [hstack]; exact List.mem_cons_self) le_rfl)
  refine ⟨h.place, fun hnone => ?_, fun i ppq' hf hi => ?_, fun ppq' hset' _ => ?_⟩
  · exact absurd (hset.symm.trans hnone) (Option.some_ne_none ppq)
  · -- it is the only loop of the event
    have hsingle := hwf.single
    rw [hstack] at hsingle
    rcases List.mem_cons.mp hf with hf | hf
    · cases hf
    rcases List.mem_cons.mp hf with hf | hf
    · cases hf
      omega
    · exact absurd (mem_loop.mpr ⟨i, ppq', hf⟩) (List.nodup_cons.mp hsingle).1
  · rw [hcalls, Option.some.inj (hset.symm.trans hset')]

theorem track_step (h : Track name pl m b s) (hwf : WF s) {a : Act N P Q} (hstep : Steps s a s') :
    Track name pl m b s' := by
  have hcheck := hwf.check name pl (List.mem_of_getElem? h.place)
  cases hstep with
  | subscribe hnew hset => exact track_enlist h
  | late hnew hset =>
    refine track_call (track_enlist h) _ fun hsame => ?_
    obtain ⟨rfl, rfl⟩ := hsame
    exact hnew hcheck
  | again hset => exact h
  | set hset => exact track_set h hset _
  | is_set => exact h
  | ret hstack =>
    refine track_pop h hstack fun i ppq hf => ?_
    cases hf
  | turn hstack hpl =>
    rename_i name' i ppq k pl'
    by_cases hname : name' = name
    · subst hname
      by_cases hi : i = m
      · subst hi
        obtain rfl := Option.some.inj (hpl.symm.trans h.place)
        exact track_turn h hwf hstack
      · refine track_call (track_next h hstack fun _ => hi) ppq fun hsame => hi ?_
        rw [hsame.2] at hpl
        exact (List.getElem?_inj (List.getElem?_eq_some_iff.mp hpl).1 (hwf.nodup name')).mp
          (hpl.trans h.place.symm)
    · exact track_call (track_next h hstack fun hsame => absurd hsame hname) ppq
        fun hsame => hname hsame.1
  | done hstack hpl =>
    refine track_pop h hstack fun i ppq hf => ?_
    cases hf
    exact (List.getElem?_eq_some_iff.mp h.place).1.trans_le (List.getElem?_eq_none_iff.mp hpl)

theorem track_run {acts : List (Act N P Q)} (h : Track name pl m b s) (hwf : WF s)
    (hrun : run s acts = .ok s') : Track name pl m b s' := by
  induction acts generalizing s with
  | nil =>
    cases hrun
    exact h
  | cons a acts ih =>
    obtain ⟨s₁, hstep, hrest⟩ := bind_ok.mp hrun
    have hsteps := step_steps hstep
    exact ih (track_step h hwf hsteps) (wf_step hwf hsteps) hrest

/-- **Subscribing.** Who subscribes while the loop is running is called once too often. -/
theorem track_subscribe {s s' : State N P Q} (h : WF s)
    (hstep : Steps s (.subscribe name pl) s') {b : ℕ} (hyes : Notifying s name → b = 1)
    (hno : ¬ Notifying s name → b = 0) : Track name pl (s.event name).subs.length b s' := by
  have hevent : (s.enlist name pl).event name =
      { s.event name with subs := (s.event name).subs ++ [pl] } := by
    unfold State.enlist
    rw [event_insert, if_pos rfl]
  have hplace : ((s.enlist name pl).event name).subs[(s.event name).subs.length]? = some pl := by
    rw [hevent]
    exact List.getElem?_concat_length
  cases hstep with
  | subscribe hnew hset =>
    have hnot : ¬ Notifying s name := by
      intro hloop
      obtain ⟨i, ppq, hf⟩ := hloop
      rw [(h.loop name i ppq hf).1] at hset
      cases hset
    refine ⟨hplace, fun _ => ⟨hno hnot, h.silent name pl hnew⟩,
      fun i ppq hf _ => absurd ⟨i, ppq, hf⟩ hnot, fun ppq hset' _ => ?_⟩
    rw [hevent] at hset'
    exact absurd (hset.symm.trans hset') (Option.some_ne_none ppq).symm
  | late hnew hset =>
    rename_i ppq
    have hcalls : callsOf ((s.enlist name pl).call name pl ppq) name pl = [ppq] := by
      rw [callsOf_call, if_pos ⟨rfl, rfl⟩]
      exact congrArg (· ++ [ppq]) (h.silent name pl hnew)
    have hmem : ∀ {i ppq'}, Frame.notify name i ppq' ∈ ((s.enlist name pl).call name pl ppq).stack ↔
        Frame.notify name i ppq' ∈ s.stack := by
      intro i ppq'
      show Frame.notify name i ppq' ∈ Frame.code :: s.stack ↔ _
      simp
    refine ⟨hplace, fun hset' => ?_, fun i ppq' hf _ => ?_, fun ppq' hset' hall => ?_⟩
    · have hset' : ((s.enlist name pl).event name).setted = none := hset'
      rw [hevent] at hset'
      exact absurd (hset.symm.trans hset') (Option.some_ne_none ppq)
    · have hf := hmem.mp hf
      rw [hcalls, hyes ⟨i, ppq', hf⟩,
        Option.some.inj (hset.symm.trans (h.loop name i ppq' hf).1)]
      rfl
    · have hset' : ((s.enlist name pl).event name).setted = some ppq' := hset'
      rw [hevent] at hset'
      have hnot : ¬ Notifying s name := by
        intro hloop
        obtain ⟨i, ppq'', hf⟩ := hloop
        have hlt := hall i ppq'' (hmem.mpr hf)
        have hle := (h.loop name i ppq'' hf).2
        omega
      rw [hcalls, hno hnot, Option.some.inj (hset.symm.trans hset')]
      rfl

end Track

/-! ## The law -/

omit [DecidableEq P] in
theorem firstSet_set (name name' : N) (ppq : Q) :
    firstSet name [(.set name' ppq : Act N P Q)] = if name' = name then some ppq else none := by
  unfold firstSet
  rw [List.findSome?_singleton]

omit [DecidableEq P] in
/-- An event is set by the first `set`. -/
theorem setted_step {s s' : State N P Q} {a : Act N P Q} (hstep : Steps s a s') (name : N) :
    (s'.event name).setted = (s.event name).setted.or (firstSet name [a]) := by
  have henlist : ∀ name' pl', ((s.enlist name' pl').event name).setted = (s.event name).setted := by
    intro name' pl'
    unfold State.enlist
    rw [event_insert]
    split
    next hname => rw [hname]
    next => rfl
  cases hstep with
  | subscribe hnew hset => exact (henlist _ _).trans Option.or_none.symm
  | late hnew hset => exact (henlist _ _).trans Option.or_none.symm
  | again hset =>
    rename_i name' ppq
    rw [firstSet_set]
    split
    next hname =>
      subst hname
      obtain ⟨q, hq⟩ := Option.ne_none_iff_exists'.mp hset
      rw [hq]
      rfl
    next => exact Option.or_none.symm
  | set hset =>
    rename_i name' ppq
    rw [firstSet_set, event_insert]
    by_cases hname : name' = name
    · subst hname
      rw [if_pos rfl, if_pos rfl, hset]
      rfl
    · rw [if_neg (Ne.symm hname), if_neg hname]
      exact Option.or_none.symm
  | is_set => exact Option.or_none.symm
  | ret hstack => exact Option.or_none.symm
  | turn hstack hpl => exact Option.or_none.symm
  | done hstack hpl => exact Option.or_none.symm

theorem setted_run {s s' : State N P Q} {acts : List (Act N P Q)} (hrun : run s acts = .ok s')
    (name : N) : (s'.event name).setted = (s.event name).setted.or (firstSet name acts) := by
  induction acts generalizing s with
  | nil =>
    cases hrun
    exact Option.or_none.symm
  | cons a acts ih =>
    obtain ⟨s₁, hstep, hrest⟩ := bind_ok.mp hrun
    have hsplit : firstSet name (a :: acts) = (firstSet name [a]).or (firstSet name acts) :=
      @List.findSome?_append _ _ _ [a] acts
    rw [ih hrest, setted_step (step_steps hstep), hsplit, Option.or_assoc]

/-- How often a subscriber was called, when the loop is over. -/
theorem calls_run {name : N} {pl : P} {pre post : List (Act N P Q)} {s₁ s : State N P Q} {ppq : Q}
    {b : ℕ} (hpre : run delete_events pre = .ok s₁)
    (hpost : run s₁ (.subscribe name pl :: post) = .ok s)
    (hset : firstSet name (pre ++ .subscribe name pl :: post) = some ppq)
    (hover : ¬ Notifying s name) (hyes : Notifying s₁ name → b = 1)
    (hno : ¬ Notifying s₁ name → b = 0) : callsOf s name pl = List.replicate (b + 1) ppq := by
  have hwf : WF s₁ := wf_run wf_init hpre
  have hrun : run delete_events (pre ++ .subscribe name pl :: post) = .ok s := by
    unfold run at hpre ⊢
    rw [List.foldlM_append]
    exact bind_ok.mpr ⟨s₁, hpre, hpost⟩
  obtain ⟨s₂, hstep, hrest⟩ := bind_ok.mp hpost
  have hsteps := step_steps hstep
  have htrack := track_run (track_subscribe hwf hsteps hyes hno) (wf_step hwf hsteps) hrest
  refine htrack.passed ppq ?_ fun i ppq' hf => absurd ⟨i, ppq', hf⟩ hover
  rw [setted_run hrun, hset]
  rfl

/-- **A subscriber of an event that is set is called exactly once**, with the ppq of the first
`set`, if and only if it did not subscribe while the loop of the event was running. -/
theorem once_iff {name : N} {pl : P} {pre post : List (Act N P Q)} {s₁ s : State N P Q} {ppq : Q}
    (hpre : run delete_events pre = .ok s₁)
    (hpost : run s₁ (.subscribe name pl :: post) = .ok s)
    (hset : firstSet name (pre ++ .subscribe name pl :: post) = some ppq)
    (hover : ¬ Notifying s name) : callsOf s name pl = [ppq] ↔ ¬ Notifying s₁ name := by
  have hcalls := fun b => calls_run (b := b) hpre hpost hset hover
  constructor
  · intro h hloop
    have htwo := hcalls 1 (fun _ => rfl) fun hnot => absurd hloop hnot
    rw [h] at htwo
    exact absurd (congrArg List.length htwo) (by simp)
  · intro hnot
    exact hcalls 0 (fun hloop => absurd hloop hnot) fun _ => rfl

/-- `WAITEv` subscribes only if the event is not set. -/
theorem waitEv_once {name : N} {pl : P} {pre post : List (Act N P Q)} {s₁ s : State N P Q} {ppq : Q}
    (hpre : run delete_events pre = .ok s₁) (hwait : s₁.is_set name = false)
    (hpost : run s₁ (.subscribe name pl :: post) = .ok s)
    (hset : firstSet name (pre ++ .subscribe name pl :: post) = some ppq)
    (hover : ¬ Notifying s name) : callsOf s name pl = [ppq] := by
  have hnot : ¬ Notifying s₁ name := by
    intro hloop
    obtain ⟨i, ppq', hf⟩ := hloop
    unfold State.is_set at hwait
    rw [((wf_run wf_init hpre).loop name i ppq' hf).1] at hwait
    cases hwait
  exact calls_run (b := 0) hpre hpost hset hover (fun hloop => absurd hloop hnot) fun _ => rfl

/-- Player 1 waits for event 0 and, when called at 5, lets player 2 subscribe to it. -/
def reentrant : List (Act ℕ ℕ ℕ) :=
  [.set 0 5, .turn, .subscribe 0 2, .ret, .ret, .turn, .ret, .turn]

theorem once_iff_reentrant : ∃ s₁ s : State ℕ ℕ ℕ, run delete_events [] = .ok s₁ ∧
    run s₁ (.subscribe 0 1 :: reentrant) = .ok s ∧
      (callsOf s 0 1 = [5] ↔ ¬ Notifying s₁ 0) := by
  refine ⟨_, _, rfl, rfl, @once_iff ℕ ℕ ℕ _ _ 0 1 [] reentrant _ _ 5 rfl rfl rfl ?_⟩
  intro h
  obtain ⟨i, ppq, hf⟩ := h
  cases List.mem_singleton.mp hf

/-- Player 2 is called twice. -/
theorem reentrant_twice : ∃ s : State ℕ ℕ ℕ,
    run delete_events (.subscribe 0 1 :: reentrant) = .ok s ∧ s.stack = [.code] ∧
      callsOf s 0 1 = [5] ∧ callsOf s 0 2 = [5, 5] :=
  ⟨_, rfl, rfl, rfl, rfl⟩

end Lua2SC.Players.NamedEvents
