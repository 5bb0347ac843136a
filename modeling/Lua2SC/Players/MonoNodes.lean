import Lua2SC.Players.PlayOneEvent
import Mathlib.Tactic.Linarith

/-!
# `OscEventPlayer` in mono mode

A mono player has one node at a time. A note that is shorter than its `delta` schedules the
gate-off of the node and clears `havenode`, so that the next note makes a node of its own;
a note that is not hands the node on, and the next one only sets its parameters. A rest
releases the node, wherever it is.

`mono_apart` is the law of a performance, a list of calls of `playEvent` one `delta` or more
apart: no two nodes sound at one time, and what the player sets it sets on the node that is
sounding. Two things about gate-offs are not so tidy. `node` is kept when a note has
scheduled its gate-off (`--self.node = nil`), so a rest behind a short note releases what is
already over; and a length below zero puts the gate-off before its note
(`mono_release_twice`).
-/

namespace Lua2SC.Players

open Lua2SC.Lua

/-! ## What is heard -/

/-- What the server is told about the nodes of a player. -/
inductive Mark (R : Type) where
  | start (node : ℕ) (t : R)
  | set (node : ℕ) (t : R)
  /-- The gate-off that a note schedules. -/
  | off (node : ℕ) (t : R)
  /-- The gate-off of `Release`. -/
  | release (node : ℕ) (t : R)
deriving DecidableEq, Repr

section Marks

variable {R : Type}

/-- The node of an `/n_set`. -/
def setNode (msg : Message R) : Option ℕ :=
  if msg.path = ascii "/n_set" then
    match msg.args with
    | .node n :: _ => some n
    | _ => none
  else none

/-- The node of an `/s_new`. -/
def newNode (msg : Message R) : Option ℕ :=
  if msg.path = ascii "/s_new" then
    match msg.args with
    | _ :: .node n :: _ => some n
    | _ => none
  else none

def mark (out : Out R) : Option (Mark R) :=
  match out with
  | .sendMultiBundle (.num t) (on :: _) =>
    ((newNode on).map fun n => Mark.start n t).or ((setNode on).map fun n => Mark.set n t)
  | .scheduleOscEvent event (.num t) => (setNode event).map fun n => Mark.off n t
  | .sendBundle msg (.num t) => (setNode msg).map fun n => Mark.release n t
  | _ => none

def Voices.marks (v : Voices R) : List (Mark R) := v.sent.filterMap mark

/-- A gate-off of the node. -/
def Ends (ms : List (Mark R)) (n : ℕ) (t : R) : Prop := .off n t ∈ ms ∨ .release n t ∈ ms

/-- The node sounds, from its `/s_new` to its first gate-off. -/
def Sounding [LE R] (ms : List (Mark R)) (n : ℕ) (x : R) : Prop :=
  ∃ s, .start n s ∈ ms ∧ s ≤ x ∧ ∀ e, Ends ms n e → x ≤ e

end Marks

/-! ## One event -/

section Step

variable {R : Type} [Field R] [LinearOrder R] (sc : Script R) (self : Settings R)

/-- The `type` of an event. -/
def Untyped (lista : Event R) : Prop := field lista "type" = none

/-- How long the voice of an event is. -/
def noteLen (lista : Event R) (beatLen : Option (Val R)) : LuaM (Option (Val R)) :=
  withLegato sc (evalFuncs sc (setOrNil lista "escale"
    (some (luaOr (field lista "escale") (.str (ascii "ionian")))))) beatLen

/-- The node that a note goes to. -/
inductive Addressed (v : Voices R) : ℕ → (R → Mark R) → Voices R → Prop
  | keep {n} (hhave : v.havenode = true) (hnode : v.node = some n) : Addressed v n (.set n) v
  | new (hnot : v.havenode = false ∨ v.node = none) :
    Addressed v v.nextNode (.start v.nextNode)
      { v with nextNode := v.nextNode + 1, node := some v.nextNode, havenode := true }

/-- What an event does at beat `t` when the next comes `d` beats later. -/
inductive Played (t d : R) (beatLen : LuaM (Option (Val R))) (v : Voices R) : Voices R → Prop
  | nop : Played t d beatLen v v
  | rest : Played t d beatLen v (scEventPlayer.Release (.num t) v)
  | long {n m v' out L} (haddr : Addressed v n m v') (hmark : mark out = some (m t))
    (hlen : beatLen = .ok (some (.num L))) (hlong : d ≤ L) :
    Played t d beatLen v (v'.emit out)
  | short {n m v' out L} (haddr : Addressed v n m v') (hmark : mark out = some (m t))
    (hlen : beatLen = .ok (some (.num L))) (hshort : L < d) :
    Played t d beatLen v { (v'.emit out).emit (.scheduleOscEvent (gateOff n) (.num (t + L))) with
      havenode := false }

variable {sc self}

omit [Field R] [LinearOrder R] in
theorem untyped_setOrNil {lista : Event R} (h : Untyped lista) {k : String}
    (hk : ascii "type" ≠ ascii k) (v : Option (Val R)) : Untyped (setOrNil lista k v) := by
  cases v with
  | none => exact (AList.lookup_erase_ne hk).trans h
  | some v => exact (AList.lookup_insert_ne hk).trans h

omit [Field R] [LinearOrder R] in
/-- A loop over the pairs of an event leaves what is not in it. -/
theorem untyped_foldl {f : Event R → (Sigma fun _ : LString => Val R) → Event R}
    (hf : ∀ acc kv, kv.1 ≠ ascii "type" → Untyped acc → Untyped (f acc kv))
    {lista acc : Event R} (h : Untyped lista) (hacc : Untyped acc) :
    Untyped (lista.entries.foldl f acc) := by
  have hkeys : ∀ kv ∈ lista.entries, kv.1 ≠ ascii "type" := by
    intro kv hkv hk
    have hmem : ascii "type" ∈ lista := by
      rw [← hk]
      exact List.mem_map_of_mem hkv
    exact AList.lookup_eq_none.mp h hmem
  clear h
  revert hkeys hacc
  induction lista.entries generalizing acc with
  | nil => exact fun hacc _ => hacc
  | cons kv kvs ih =>
    intro hacc hkeys
    exact ih (hf acc kv (hkeys kv List.mem_cons_self) hacc)
      fun kv' hkv' => hkeys kv' (List.mem_cons_of_mem _ hkv')

omit [Field R] [LinearOrder R] in
theorem untyped_evalFuncs {lista : Event R} (h : Untyped lista) : Untyped (evalFuncs sc lista) := by
  refine untyped_foldl (fun acc kv hk hacc => ?_) h h
  split
  · split
    · exact (AList.lookup_insert_ne hk.symm).trans hacc
    · exact (AList.lookup_erase_ne hk.symm).trans hacc
  · exact hacc

omit [Field R] [LinearOrder R] in
theorem untyped_keydata {lista : Event R} (h : Untyped lista) (i : ℕ) :
    Untyped (keydata sc lista i) := by
  unfold keydata
  refine untyped_setOrNil (k := "delta") (untyped_setOrNil (k := "dur") ?_ (by decide) none)
    (by decide) none
  refine untyped_foldl (fun acc kv hk hacc => ?_) h rfl
  split
  · exact (AList.lookup_insert_ne hk.symm).trans hacc
  · exact hacc

omit [Field R] [LinearOrder R] in
theorem untyped_withFreq {lista : Event R} (h : Untyped lista) (freq : Option (Val R)) :
    Untyped (withFreq lista freq) := by
  unfold withFreq
  have hfreq := untyped_setOrNil (untyped_setOrNil (untyped_setOrNil h (k := "note") (by decide)
    none) (k := "degree") (by decide) none) (k := "freq") (by decide) freq
  dsimp only
  split
  · exact untyped_setOrNil (untyped_setOrNil hfreq (k := "legato") (by decide) none)
      (by decide) none
  · exact untyped_setOrNil hfreq (by decide) none

omit [Field R] [LinearOrder R] in
/-- A message with parameters still has its node. -/
theorem mark_sNew (t : R) (inst : Val R) (n : ℕ) (lista : Event R) (msgs : List (Message R)) :
    mark (.sendMultiBundle (.num t) (withParams sc self (sNew self inst n) lista :: msgs)) =
      some (Mark.start n t) := by
  rfl

omit [Field R] [LinearOrder R] in
theorem mark_nSet (t : R) (n : ℕ) (lista : Event R) (msgs : List (Message R)) :
    mark (.sendMultiBundle (.num t) (withParams sc self (nSet n) lista :: msgs)) =
      some (Mark.set n t) := by
  rfl

/-- The part of `playOneEvent` from `local dontfree` on. -/
def playNote (sc : Script R) (self : Settings R) (inst : Val R) (lista : Event R) (beatTime : Val R)
    (beatLen delta : Option (Val R)) (v : Voices R) : LuaM (Voices R) := do
  let isSet := decide (field lista "type" = some (.str (ascii "n_set")))
  let isSet := isSet || (self.mono && v.havenode)
  let dontfree ← if self.mono = true then do
      let short ← lessThan beatLen delta
      .ok (some (!short))
    else .ok (if isSet = true then some true else self.dontfree)
  let (node, on, v) := match isSet, v.node with
    | true, some node => (node, nSet node, v)
    | _, _ =>
      let (node, v) := OscEventPlayer.GetNode self beatTime v
      (node, sNew self inst node, { v with node := some node, havenode := true })
  let lista := setOrNil lista "type" none
  let funcs := listafunc lista
  let on := withParams sc self on (withoutBooleans (withoutMappers lista))
  let v := v.emit (.sendMultiBundle beatTime (on :: mapperBundle sc funcs beatTime beatLen))
  if dontfree = some false then do
    let offTime ← arith sc .add (some beatTime) beatLen
    .ok { v.emit (.scheduleOscEvent (gateOff node) offTime) with havenode := false }
  else .ok v

omit [Field R] in
/-- A number is compared only with a number. -/
theorem lessThan_ok {a : Option (Val R)} {d : R} {b : Bool}
    (h : lessThan a (some (.num d)) = .ok b) :
    ∃ x, a = some (.num x) ∧ b = decide (x < d) := by
  unfold lessThan at h
  split at h
  next hb =>
    cases hb
    cases h
    exact ⟨_, rfl, rfl⟩
  next => cases h

/-- The end of a note: the gate-off, if it is short. -/
theorem playNote_end {t d : R} {beatLen : Option (Val R)} {v v₁ v' : Voices R} {n : ℕ}
    {m : R → Mark R} {out : Out R} (haddr : Addressed v n m v₁) (hmark : mark out = some (m t))
    {short : Bool} (hshort : lessThan beatLen (some (.num d)) = .ok short)
    (h : (if some (!short) = some false then do
        let offTime ← arith sc .add (some (.num t)) beatLen
        .ok { (v₁.emit out).emit (.scheduleOscEvent (gateOff n) offTime) with havenode := false }
      else .ok (v₁.emit out) : LuaM (Voices R)) = .ok v') : Played t d (.ok beatLen) v v' := by
  obtain ⟨L, rfl, rfl⟩ := lessThan_ok hshort
  split at h
  next hlt =>
    cases h
    exact .short haddr hmark rfl (by simpa using hlt)
  next hlt =>
    cases h
    exact .long haddr hmark rfl (by simpa using hlt)

variable (sc) in
theorem playNote_played (inst : Val R) (hmono : self.mono = true) (hpoly : self.poly = none)
    {lista : Event R} {t d : R} {beatLen : Option (Val R)} {v v' : Voices R}
    (htype : Untyped lista)
    (h : playNote sc self inst lista (.num t) beatLen (some (.num d)) v = .ok v') :
    Played t d (.ok beatLen) v v' := by
  have hset : (decide (field lista "type" = some (.str (ascii "n_set"))) ||
      (self.mono && v.havenode)) = v.havenode := by
    rw [show field lista "type" = none from htype, hmono]
    rfl
  have hnode : OscEventPlayer.GetNode self (.num t) v =
      (v.nextNode, { v with nextNode := v.nextNode + 1 }) := by
    unfold OscEventPlayer.GetNode
    rw [hpoly]
    rfl
  unfold playNote at h
  dsimp only at h
  rw [hset, if_pos hmono] at h
  obtain ⟨short, hshort, h⟩ := bind_ok.mp h
  cases hhave : v.havenode with
  | false =>
    rw [hhave, hnode] at h
    exact playNote_end (.new (.inl hhave)) (mark_sNew _ _ _ _ _) hshort h
  | true =>
    rw [hhave] at h
    cases hn : v.node with
    | none =>
      rw [hn, hnode] at h
      exact playNote_end (.new (.inr hn)) (mark_sNew _ _ _ _ _) hshort h
    | some n =>
      rw [hn] at h
      exact playNote_end (.keep hhave hn) (mark_nSet _ _ _ _) hshort h

/-- What `playOneEvent` does in mono mode. -/
theorem playOneEvent_played (hmono : self.mono = true) (hpoly : self.poly = none) {pulling : Bool}
    {lista : Event R} {t d : R} {beatLen : Option (Val R)} {v v' : Voices R} (htype : Untyped lista)
    (h : OscEventPlayer.playOneEvent sc self pulling lista (.num t) beatLen (some (.num d)) v =
      .ok v') : Played t d (noteLen sc lista beatLen) v v' := by
  have htype₁ := @untyped_evalFuncs R sc _ (untyped_setOrNil htype (k := "escale") (by decide)
    (some (luaOr (field lista "escale") (.str (ascii "ionian")))))
  unfold OscEventPlayer.playOneEvent at h
  unfold noteLen
  dsimp only at h
  generalize evalFuncs sc _ = lista₁ at h htype₁ ⊢
  split at h
  · cases h
    exact .nop
  obtain ⟨freq, -, h⟩ := bind_ok.mp h
  obtain ⟨len, hlen, h⟩ := bind_ok.mp h
  rw [hlen]
  split at h
  · cases h
    exact .rest
  split at h
  · cases h
    exact .nop
  have htype₂ := untyped_withFreq htype₁ freq
  have hnote : ∀ {lista₂}, Untyped lista₂ → playNote sc self (luaOr (field lista₁ "inst") self.inst)
      lista₂ (.num t) len (some (.num d)) v = .ok v' → Played t d (.ok len) v v' :=
    fun htype₂ hplay => playNote_played sc _ hmono hpoly htype₂ hplay
  split at h
  · -- a detuned note
    obtain ⟨detuned, -, h⟩ := bind_ok.mp h
    refine hnote (untyped_setOrNil (untyped_setOrNil htype₂ (k := "freq") (by decide)
      (some detuned)) (k := "detune") (by decide) none) ?_
    unfold playNote
    rw [if_pos hmono]
    exact h
  · refine hnote htype₂ ?_
    unfold playNote
    rw [if_pos hmono]
    exact h

/-- A call with one note. -/
structure SingleNote (sc : Script R) (call : Call R) (d : R) : Prop where
  single : getmaxlen sc call.lista = 1
  untyped : Untyped call.lista
  delta : call.delta = some (.num d)

/-- How long the note of a call is. -/
def callLen (sc : Script R) (call : Call R) : LuaM (Option (Val R)) :=
  noteLen sc (keydata sc call.lista 1) call.beatLen

theorem playEvent_played (hmono : self.mono = true) (hpoly : self.poly = none) {call : Call R} {d : R}
    (hcall : SingleNote sc call d) {v v' : Voices R} (h : playEvent sc self .osc call v = .ok v') :
    Played call.beatTime d (callLen sc call) v v' := by
  unfold playEvent at h
  rw [hcall.single] at h
  obtain ⟨strum, hstrum, h⟩ := bind_ok.mp h
  have hzero : strum = .num 0 := by
    unfold strum1 at hstrum
    split at hstrum
    · rw [if_neg (lt_irrefl 1)] at hstrum
      cases hstrum
      rfl
    · cases hstrum
      rfl
  subst hzero
  rw [List.range'_one, List.foldlM_cons] at h
  obtain ⟨v₁, hone, h⟩ := bind_ok.mp h
  cases h
  obtain ⟨late, hlate, hone⟩ := bind_ok.mp hone
  obtain ⟨beatTime, htime, hone⟩ := bind_ok.mp hone
  cases hlate
  cases htime
  rw [hcall.delta] at hone
  have hat : ArithOp.apply .add call.beatTime (ArithOp.apply .mul (0 : R) ((1 - 1 : ℕ) : R)) =
      call.beatTime := by
    show call.beatTime + 0 * ((0 : ℕ) : R) = call.beatTime
    rw [zero_mul, add_zero]
  rw [hat] at hone
  exact playOneEvent_played hmono hpoly (untyped_keydata hcall.untyped 1) hone

end Step

/-! ## What holds before every event -/

section Invariant

variable {R : Type} [LinearOrder R]

/-- The marks of a player before beat `t`, with its `node`, `havenode` and the next node. -/
structure NodeInv (ms : List (Mark R)) (node : Option ℕ) (havenode : Bool) (next : ℕ) (t : R) : Prop where
  started : ∀ n s, .start n s ∈ ms → n < next ∧ s < t
  once : ∀ n s n' s', .start n s ∈ ms → .start n' s' ∈ ms → (n = n' ↔ s = s')
  ended : ∀ n e, Ends ms n e → n < next
  closed : ∀ n s, .start n s ∈ ms → (havenode = true ∧ node = some n) ∨ ∃ e, Ends ms n e ∧ e < t
  held : havenode = true → ∃ n s, node = some n ∧ .start n s ∈ ms ∧ ∀ e, ¬ Ends ms n e
  apart : ∀ n s n' s', .start n s ∈ ms → .start n' s' ∈ ms → s < s' → ∃ e, Ends ms n e ∧ e < s'
  last : ∀ n, node = some n → ∃ s, .start n s ∈ ms ∧ ∀ n' s', .start n' s' ∈ ms → s' ≤ s
  release : ∀ n e, .release n e ∈ ms →
    ∃ s, .start n s ∈ ms ∧ s ≤ e ∧ ∀ n' s', .start n' s' ∈ ms → s' ≤ e → s' ≤ s
  past : ∀ n e, .release n e ∈ ms → e < t

/-- What is set is set on what sounds. -/
def Heard (ms : List (Mark R)) (t : R) : Prop :=
  ∀ n x, .set n x ∈ ms ∨ .off n x ∈ ms → x ≤ t ∧ Sounding ms n x

variable {ms : List (Mark R)} {node : Option ℕ} {havenode : Bool} {next n : ℕ} {t t' : R}

omit [LinearOrder R] in
theorem ends_concat {m : Mark R} {k : ℕ} {e : R} :
    Ends (ms ++ [m]) k e ↔ Ends ms k e ∨ m = .off k e ∨ m = .release k e := by
  unfold Ends
  rw [List.mem_append, List.mem_append, List.mem_singleton, List.mem_singleton, eq_comm (a := m),
    eq_comm (a := m)]
  exact or_or_or_comm

theorem inv_init : NodeInv ([] : List (Mark R)) none false next t where
  started _ _ h := absurd h List.not_mem_nil
  once _ _ _ _ h := absurd h List.not_mem_nil
  ended _ _ h := by rcases h with h | h <;> exact absurd h List.not_mem_nil
  closed _ _ h := absurd h List.not_mem_nil
  held h := by cases h
  apart _ _ _ _ h := absurd h List.not_mem_nil
  last _ h := by cases h
  release _ _ h := absurd h List.not_mem_nil
  past _ _ h := absurd h List.not_mem_nil

theorem NodeInv.later (h : NodeInv ms node havenode next t) (ht : t ≤ t') :
    NodeInv ms node havenode next t' where
  started n s hs := ⟨(h.started n s hs).1, (h.started n s hs).2.trans_le ht⟩
  once := h.once
  ended := h.ended
  closed n s hs := (h.closed n s hs).imp_right fun hend => by
    obtain ⟨e, he, hlt⟩ := hend
    exact ⟨e, he, hlt.trans_le ht⟩
  held := h.held
  apart := h.apart
  last := h.last
  release := h.release
  past n e he := (h.past n e he).trans_le ht

omit [LinearOrder R] in
/-- A mark that starts nothing. -/
theorem mem_start_concat {m : Mark R} (hm : ∀ k s, m ≠ .start k s) {k : ℕ} {s : R} :
    Mark.start k s ∈ ms ++ [m] ↔ Mark.start k s ∈ ms := by
  rw [List.mem_append, List.mem_singleton]
  exact or_iff_left fun h => hm k s h.symm

/-- A rest. -/
theorem NodeInv.rest (h : NodeInv ms (some n) havenode next t) (ht : t < t') :
    NodeInv (ms ++ [.release n t]) none false next t' := by
  have hstart : ∀ {k s}, Mark.start k s ∈ ms ++ [Mark.release n t] ↔ Mark.start k s ∈ ms :=
    mem_start_concat fun k s hm => by cases hm
  have hends : ∀ {k e}, Ends ms k e → Ends (ms ++ [Mark.release n t]) k e :=
    fun he => ends_concat.mpr (.inl he)
  obtain ⟨s₀, hs₀, hlast⟩ := h.last n rfl
  refine ⟨fun k s hs => ?_, fun k s k' s' hs hs' => ?_, fun k e he => ?_, fun k s hs => ?_,
    fun hfalse => ?_, fun k s k' s' hs hs' hlt => ?_, fun k hk => ?_, fun k e he => ?_,
    fun k e he => ?_⟩
  · obtain ⟨hk, hlt⟩ := h.started k s (hstart.mp hs)
    exact ⟨hk, hlt.trans ht⟩
  · exact h.once k s k' s' (hstart.mp hs) (hstart.mp hs')
  · rcases ends_concat.mp he with he | he | he
    · exact h.ended k e he
    · cases he
    · cases he
      exact (h.started n s₀ hs₀).1
  · refine .inr ?_
    rcases h.closed k s (hstart.mp hs) with ⟨-, hnode⟩ | ⟨e, he, hlt⟩
    · cases hnode
      exact ⟨t, ends_concat.mpr (.inr (.inr rfl)), ht⟩
    · exact ⟨e, hends he, hlt.trans ht⟩
  · cases hfalse
  · obtain ⟨e, he, hlt'⟩ := h.apart k s k' s' (hstart.mp hs) (hstart.mp hs') hlt
    exact ⟨e, hends he, hlt'⟩
  · cases hk
  · rcases List.mem_append.mp he with he | he
    · obtain ⟨s, hs, hle, hall⟩ := h.release k e he
      exact ⟨s, hstart.mpr hs, hle, fun n' s' hs' => hall n' s' (hstart.mp hs')⟩
    · cases List.mem_singleton.mp he
      exact ⟨s₀, hstart.mpr hs₀, (h.started n s₀ hs₀).2.le,
        fun n' s' hs' _ => hlast n' s' (hstart.mp hs')⟩
  · rcases List.mem_append.mp he with he | he
    · exact (h.past k e he).trans ht
    · cases List.mem_singleton.mp he
      exact ht

omit [LinearOrder R] in
theorem mem_start_new {k : ℕ} {s : R} :
    Mark.start k s ∈ ms ++ [Mark.start n t] ↔ Mark.start k s ∈ ms ∨ (k = n ∧ s = t) := by
  rw [List.mem_append, List.mem_singleton, Mark.start.injEq]

omit [LinearOrder R] in
theorem ends_start {k : ℕ} {e : R} : Ends (ms ++ [Mark.start n t]) k e ↔ Ends ms k e := by
  rw [ends_concat]
  exact or_iff_left fun h => by rcases h with h | h <;> cases h

omit [LinearOrder R] in
theorem ends_set {k : ℕ} {e : R} : Ends (ms ++ [Mark.set n t]) k e ↔ Ends ms k e := by
  rw [ends_concat]
  exact or_iff_left fun h => by rcases h with h | h <;> cases h

omit [LinearOrder R] in
theorem ends_off {k : ℕ} {e e' : R} :
    Ends (ms ++ [Mark.off n e]) k e' ↔ Ends ms k e' ∨ (k = n ∧ e' = e) := by
  rw [ends_concat, Mark.off.injEq, eq_comm (a := n), eq_comm (a := e)]
  exact or_congr_right (or_iff_left fun h => by cases h)

/-- A note with a node of its own. -/
theorem NodeInv.start (h : NodeInv ms node havenode next t) (hnot : havenode = false ∨ node = none)
    (ht : t < t') : NodeInv (ms ++ [.start next t]) (some next) true (next + 1) t' := by
  have hfalse : havenode = false := by
    cases hhave : havenode with
    | false => rfl
    | true =>
      obtain ⟨k, s, hk, -⟩ := h.held hhave
      rcases hnot with hnot | hnot
      · exact absurd (hhave.symm.trans hnot) (by decide)
      · exact absurd (hnot.symm.trans hk) (Option.some_ne_none k).symm
  have hclosed : ∀ k s, Mark.start k s ∈ ms → ∃ e, Ends ms k e ∧ e < t := by
    intro k s hs
    rcases h.closed k s hs with ⟨htrue, -⟩ | hend
    · rw [hfalse] at htrue
      cases htrue
    · exact hend
  refine ⟨fun k s hs => ?_, fun k s k' s' hs hs' => ?_, fun k e he => ?_, fun k s hs => ?_,
    fun _ => ⟨next, t, rfl, mem_start_new.mpr (.inr ⟨rfl, rfl⟩), fun e he => ?_⟩,
    fun k s k' s' hs hs' hlt => ?_, fun k hk => ?_, fun k e he => ?_, fun k e he => ?_⟩
  · rcases mem_start_new.mp hs with hs | ⟨rfl, rfl⟩
    · obtain ⟨hk, hlt⟩ := h.started k s hs
      exact ⟨hk.trans (Nat.lt_succ_self _), hlt.trans ht⟩
    · exact ⟨Nat.lt_succ_self _, ht⟩
  · -- the new node and the new time are both later
    rcases mem_start_new.mp hs with hold | ⟨hk, hs⟩ <;>
      rcases mem_start_new.mp hs' with hold' | ⟨hk', hs'⟩
    · exact h.once k s k' s' hold hold'
    · rw [hk', hs']
      exact iff_of_false (h.started k s hold).1.ne (h.started k s hold).2.ne
    · rw [hk, hs]
      exact iff_of_false (h.started k' s' hold').1.ne' (h.started k' s' hold').2.ne'
    · exact iff_of_true (hk.trans hk'.symm) (hs.trans hs'.symm)
  · exact (h.ended k e (ends_start.mp he)).trans (Nat.lt_succ_self _)
  · rcases mem_start_new.mp hs with hs | ⟨rfl, rfl⟩
    · obtain ⟨e, he, hlt⟩ := hclosed k s hs
      exact .inr ⟨e, ends_start.mpr he, hlt.trans ht⟩
    · exact .inl ⟨rfl, rfl⟩
  · exact absurd (h.ended next e (ends_start.mp he)) (lt_irrefl next)
  · rcases mem_start_new.mp hs with hold | ⟨hk, hs⟩ <;>
      rcases mem_start_new.mp hs' with hold' | ⟨hk', hs'⟩
    · obtain ⟨e, he, hlt'⟩ := h.apart k s k' s' hold hold' hlt
      exact ⟨e, ends_start.mpr he, hlt'⟩
    · obtain ⟨e, he, hlt'⟩ := hclosed k s hold
      exact ⟨e, ends_start.mpr he, hs' ▸ hlt'⟩
    · rw [hs] at hlt
      exact absurd hlt (h.started k' s' hold').2.not_gt
    · rw [hs, hs'] at hlt
      exact absurd hlt (lt_irrefl t)
  · cases hk
    refine ⟨t, mem_start_new.mpr (.inr ⟨rfl, rfl⟩), fun k' s' hs' => ?_⟩
    rcases mem_start_new.mp hs' with hs' | ⟨rfl, rfl⟩
    · exact (h.started k' s' hs').2.le
    · exact le_rfl
  · have he : Mark.release k e ∈ ms := by
      rcases List.mem_append.mp he with he | he
      · exact he
      · cases List.mem_singleton.mp he
    obtain ⟨s, hs, hle, hall⟩ := h.release k e he
    refine ⟨s, mem_start_new.mpr (.inl hs), hle, fun k' s' hs' hle' => ?_⟩
    rcases mem_start_new.mp hs' with hold | ⟨-, hs'⟩
    · exact hall k' s' hold hle'
    · rw [hs'] at hle'
      exact absurd hle' (h.past k e he).not_ge
  · rcases List.mem_append.mp he with he | he
    · exact (h.past k e he).trans ht
    · cases List.mem_singleton.mp he

/-- A note on the node that is there. -/
theorem NodeInv.set (h : NodeInv ms node havenode next t) (n : ℕ) (x : R) (ht : t ≤ t') :
    NodeInv (ms ++ [.set n x]) node havenode next t' := by
  have hstart : ∀ {k s}, Mark.start k s ∈ ms ++ [Mark.set n x] ↔ Mark.start k s ∈ ms :=
    mem_start_concat fun k s hm => by cases hm
  have hrelease : ∀ {k e}, Mark.release k e ∈ ms ++ [Mark.set n x] → Mark.release k e ∈ ms := by
    intro k e he
    rcases List.mem_append.mp he with he | he
    · exact he
    · cases List.mem_singleton.mp he
  have h' := h.later ht
  refine ⟨fun k s hs => h'.started k s (hstart.mp hs),
    fun k s k' s' hs hs' => h'.once k s k' s' (hstart.mp hs) (hstart.mp hs'),
    fun k e he => h'.ended k e (ends_set.mp he), fun k s hs => ?_, fun htrue => ?_,
    fun k s k' s' hs hs' hlt => ?_, fun k hk => ?_, fun k e he => ?_,
    fun k e he => h'.past k e (hrelease he)⟩
  · simp only [ends_set]
    exact h'.closed k s (hstart.mp hs)
  · obtain ⟨k, s, hk, hs, hnot⟩ := h'.held htrue
    exact ⟨k, s, hk, hstart.mpr hs, fun e he => hnot e (ends_set.mp he)⟩
  · simp only [ends_set]
    exact h'.apart k s k' s' (hstart.mp hs) (hstart.mp hs') hlt
  · obtain ⟨s, hs, hall⟩ := h'.last k hk
    exact ⟨s, hstart.mpr hs, fun n' s' hs' => hall n' s' (hstart.mp hs')⟩
  · obtain ⟨s, hs, hle, hall⟩ := h'.release k e (hrelease he)
    exact ⟨s, hstart.mpr hs, hle, fun n' s' hs' => hall n' s' (hstart.mp hs')⟩

/-- The gate-off of a short note. -/
theorem NodeInv.off (h : NodeInv ms (some n) true next t) {e : R} (he : e < t) :
    NodeInv (ms ++ [.off n e]) (some n) false next t := by
  have hstart : ∀ {k s}, Mark.start k s ∈ ms ++ [Mark.off n e] ↔ Mark.start k s ∈ ms :=
    mem_start_concat fun k s hm => by cases hm
  have hrelease : ∀ {k x}, Mark.release k x ∈ ms ++ [Mark.off n e] → Mark.release k x ∈ ms := by
    intro k x hx
    rcases List.mem_append.mp hx with hx | hx
    · exact hx
    · cases List.mem_singleton.mp hx
  obtain ⟨s₀, hs₀, -⟩ := h.last n rfl
  refine ⟨fun k s hs => h.started k s (hstart.mp hs),
    fun k s k' s' hs hs' => h.once k s k' s' (hstart.mp hs) (hstart.mp hs'), fun k x hx => ?_,
    fun k s hs => ?_, fun hfalse => ?_, fun k s k' s' hs hs' hlt => ?_, fun k hk => ?_,
    fun k x hx => ?_, fun k x hx => h.past k x (hrelease hx)⟩
  · rcases ends_off.mp hx with hx | ⟨hk, -⟩
    · exact h.ended k x hx
    · rw [hk]
      exact (h.started n s₀ hs₀).1
  · rcases h.closed k s (hstart.mp hs) with ⟨-, hk⟩ | ⟨x, hx, hlt⟩
    · exact .inr ⟨e, ends_off.mpr (.inr ⟨(Option.some.inj hk).symm, rfl⟩), he⟩
    · exact .inr ⟨x, ends_off.mpr (.inl hx), hlt⟩
  · cases hfalse
  · obtain ⟨x, hx, hlt'⟩ := h.apart k s k' s' (hstart.mp hs) (hstart.mp hs') hlt
    exact ⟨x, ends_off.mpr (.inl hx), hlt'⟩
  · obtain ⟨s, hs, hall⟩ := h.last k hk
    exact ⟨s, hstart.mpr hs, fun n' s' hs' => hall n' s' (hstart.mp hs')⟩
  · obtain ⟨s, hs, hle, hall⟩ := h.release k x (hrelease hx)
    exact ⟨s, hstart.mpr hs, hle, fun n' s' hs' => hall n' s' (hstart.mp hs')⟩

/-! ## What sounds -/

/-- A later mark leaves it. -/
theorem Sounding.concat {x : R} {m : Mark R} {k : ℕ} (h : Sounding ms k x)
    (hm : ∀ e, m = .off k e ∨ m = .release k e → x ≤ e) : Sounding (ms ++ [m]) k x := by
  obtain ⟨s, hs, hle, hall⟩ := h
  refine ⟨s, List.mem_append_left _ hs, hle, fun e he => ?_⟩
  rcases ends_concat.mp he with he | he
  · exact hall e he
  · exact hm e he

theorem Heard.concat {m : Mark R} (h : Heard ms t) (ht : t ≤ t')
    (hold : ∀ k e, m = .off k e ∨ m = .release k e → t ≤ e)
    (hnew : ∀ k x, m = .set k x ∨ m = .off k x → x ≤ t' ∧ Sounding (ms ++ [m]) k x) :
    Heard (ms ++ [m]) t' := by
  intro k x hmem
  rw [List.mem_append, List.mem_append, List.mem_singleton, List.mem_singleton] at hmem
  have hcase : (Mark.set k x ∈ ms ∨ Mark.off k x ∈ ms) ∨ m = .set k x ∨ m = .off k x := by
    rcases hmem with (hmem | hmem) | hmem | hmem
    · exact .inl (.inl hmem)
    · exact .inr (.inl hmem.symm)
    · exact .inl (.inr hmem)
    · exact .inr (.inr hmem.symm)
  rcases hcase with hmem | hmem
  · obtain ⟨hle, hsound⟩ := h k x hmem
    exact ⟨hle.trans ht, hsound.concat fun e he => hle.trans (hold k e he)⟩
  · exact hnew k x hmem

end Invariant

/-! ## Performances -/

section Performance

variable {R : Type} [Field R] [LinearOrder R]

omit [Field R] [LinearOrder R] in
theorem marks_emit {v : Voices R} {out : Out R} {m : Mark R} (hm : mark out = some m) :
    (v.emit out).marks = v.marks ++ [m] := by
  show (v.sent ++ [out]).filterMap mark = v.sent.filterMap mark ++ [m]
  rw [List.filterMap_append, List.filterMap_cons_some hm]
  rfl

omit [LinearOrder R] in
theorem mark_gateOff (n : ℕ) (e : R) :
    mark (.scheduleOscEvent (gateOff n) (.num e)) = some (Mark.off n e) := rfl

omit [LinearOrder R] in
theorem mark_release (n : ℕ) (e : R) :
    mark (.sendBundle (gateOff n) (.num e)) = some (Mark.release n e) := rfl

/-- The invariant for a player. -/
def Voices.NodesAt (v : Voices R) (t : R) : Prop :=
  NodeInv v.marks v.node v.havenode v.nextNode t

variable [IsStrictOrderedRing R] {v v' v₁ : Voices R} {t d : R} {len : LuaM (Option (Val R))} {n : ℕ}
  {m : R → Mark R} {out : Out R}

/-- After a note the player has its node. -/
theorem addressed_nodes (h : v.NodesAt t) (hd : 0 < d) (haddr : Addressed v n m v₁)
    (hmark : mark out = some (m t)) :
    NodeInv (v₁.emit out).marks (some n) true (v₁.emit out).nextNode (t + d) ∧
      (v₁.emit out).node = some n ∧ (v₁.emit out).havenode = true := by
  have ht : t < t + d := lt_add_of_pos_right t hd
  rw [marks_emit hmark]
  cases haddr with
  | keep hhave hnode =>
    refine ⟨?_, hnode, hhave⟩
    have hset := NodeInv.set h n t ht.le
    rw [hhave, hnode] at hset
    exact hset
  | new hnot => exact ⟨NodeInv.start h hnot ht, rfl, rfl⟩

theorem played_nodes (h : v.NodesAt t) (hd : 0 < d) (hplayed : Played t d len v v') :
    v'.NodesAt (t + d) := by
  have ht : t < t + d := lt_add_of_pos_right t hd
  cases hplayed with
  | nop => exact NodeInv.later h ht.le
  | rest =>
    cases hnode : v.node with
    | none =>
      have hsame : scEventPlayer.Release (.num t) v = v := by
        unfold scEventPlayer.Release
        rw [hnode]
      rw [hsame]
      exact NodeInv.later h ht.le
    | some n =>
      have hrelease : scEventPlayer.Release (.num t) v =
          { v.emit (.sendBundle (gateOff n) (.num t)) with node := none, havenode := false } := by
        unfold scEventPlayer.Release
        rw [hnode]
      rw [hrelease]
      show NodeInv (v.emit (.sendBundle (gateOff n) (.num t))).marks none false v.nextNode _
      rw [marks_emit (mark_release n t)]
      unfold Voices.NodesAt at h
      rw [hnode] at h
      exact h.rest ht
  | long haddr hmark hlen hlong =>
    obtain ⟨hinv, hnode, hhave⟩ := addressed_nodes h hd haddr hmark
    unfold Voices.NodesAt
    rw [hnode, hhave]
    exact hinv
  | short haddr hmark hlen hshort =>
    obtain ⟨hinv, hnode, hhave⟩ := addressed_nodes h hd haddr hmark
    rename_i n₁ m₁ v₂ out₁ L
    show NodeInv ((v₂.emit out₁).emit (.scheduleOscEvent (gateOff n₁) (.num (t + L)))).marks
      (v₂.emit out₁).node false (v₂.emit out₁).nextNode _
    rw [marks_emit (mark_gateOff n₁ (t + L)), hnode]
    exact hinv.off (add_lt_add_right hshort t)

omit [Field R] [IsStrictOrderedRing R] in
/-- The node of a note sounds, with no end in sight. -/
theorem addressed_start (h : v.NodesAt t) (haddr : Addressed v n m v₁) (hmark : mark out = some (m t)) :
    ∃ s, .start n s ∈ (v₁.emit out).marks ∧ s ≤ t ∧ ∀ e, ¬ Ends (v₁.emit out).marks n e := by
  rw [marks_emit hmark]
  cases haddr with
  | keep hhave hnode =>
    obtain ⟨k, s, hk, hs, hnot⟩ := NodeInv.held h hhave
    obtain rfl := Option.some.inj (hnode.symm.trans hk)
    exact ⟨s, List.mem_append_left _ hs, (NodeInv.started h n s hs).2.le,
      fun e he => hnot e (ends_set.mp he)⟩
  | new hnot =>
    refine ⟨t, mem_start_new.mpr (.inr ⟨rfl, rfl⟩), le_rfl, fun e he => ?_⟩
    exact absurd (NodeInv.ended h _ e (ends_start.mp he)) (lt_irrefl v.nextNode)

omit [Field R] [IsStrictOrderedRing R] in
theorem addressed_heard (h : v.NodesAt t) (hheard : Heard v.marks t) (haddr : Addressed v n m v₁)
    (hmark : mark out = some (m t)) : Heard (v₁.emit out).marks t := by
  obtain ⟨s, hs, hle, hnot⟩ := addressed_start h haddr hmark
  rw [marks_emit hmark] at hs hnot ⊢
  cases haddr with
  | keep hhave hnode =>
    refine hheard.concat le_rfl (fun k e he => ?_) fun k x hx => ?_
    · rcases he with he | he <;> cases he
    · rcases hx with hx | hx
      · cases hx
        exact ⟨le_rfl, s, hs, hle, fun e he => absurd he (hnot e)⟩
      · cases hx
  | new hfresh =>
    refine hheard.concat le_rfl (fun k e he => ?_) fun k x hx => ?_
    · rcases he with he | he <;> cases he
    · rcases hx with hx | hx <;> cases hx

/-- A note whose length is not negative ends where it sounds. -/
theorem played_heard (h : v.NodesAt t) (hheard : Heard v.marks t) (hd : 0 < d)
    (hlen : ∀ L, len = .ok (some (.num L)) → 0 ≤ L) (hplayed : Played t d len v v') :
    Heard v'.marks (t + d) := by
  have ht : t ≤ t + d := le_add_of_nonneg_right hd.le
  have hlater : ∀ {ms : List (Mark R)}, Heard ms t → Heard ms (t + d) :=
    fun hms k x hx => ⟨(hms k x hx).1.trans ht, (hms k x hx).2⟩
  cases hplayed with
  | nop => exact hlater hheard
  | rest =>
    unfold scEventPlayer.Release
    split
    · exact hlater hheard
    · rename_i n hnode
      show Heard (v.emit (.sendBundle (gateOff n) (.num t))).marks (t + d)
      rw [marks_emit (mark_release n t)]
      refine hheard.concat ht (fun k e he => ?_) fun k x hx => ?_
      · rcases he with he | he
        · cases he
        · cases he
          exact le_rfl
      · rcases hx with hx | hx <;> cases hx
  | long haddr hmark hnum hlong => exact hlater (addressed_heard h hheard haddr hmark)
  | short haddr hmark hnum hshort =>
    rename_i n₁ m₁ v₂ out₁ L
    obtain ⟨s, hs, hle, hnot⟩ := addressed_start h haddr hmark
    have hL : t ≤ t + L := le_add_of_nonneg_right (hlen L hnum)
    show Heard ((v₂.emit out₁).emit (.scheduleOscEvent (gateOff n₁) (.num (t + L)))).marks (t + d)
    rw [marks_emit (mark_gateOff n₁ (t + L))]
    refine (addressed_heard h hheard haddr hmark).concat ht (fun k e he => ?_) fun k x hx => ?_
    · rcases he with he | he
      · cases he
        exact hL
      · cases he
    · rcases hx with hx | hx
      · cases hx
      · cases hx
        refine ⟨(add_lt_add_right hshort t).le, s, List.mem_append_left _ hs, hle.trans hL,
          fun e he => ?_⟩
        rcases ends_off.mp he with he | ⟨-, he⟩
        · exact absurd he (hnot e)
        · exact he.ge

/-! ## The law -/

/-- Calls with one note each, from beat `t` on, every one its `delta` or more before the next. -/
def Performed (sc : Script R) : R → List (Call R) → Prop
  | _, [] => True
  | t, call :: calls => ∃ d, t ≤ call.beatTime ∧ 0 < d ∧ SingleNote sc call d ∧
      Performed sc (call.beatTime + d) calls

/-- A performance. -/
def perform (sc : Script R) (self : Settings R) (calls : List (Call R)) (v : Voices R) :
    LuaM (Voices R) := calls.foldlM (fun v call => playEvent sc self .osc call v) v

variable {sc : Script R} {self : Settings R}

/-- The invariants at the end. -/
theorem perform_nodes (hmono : self.mono = true) (hpoly : self.poly = none) {calls : List (Call R)}
    (hcalls : Performed sc t calls) (h : v.NodesAt t) (hrun : perform sc self calls v = .ok v') :
    ∃ t', v'.NodesAt t' ∧ (Heard v.marks t →
      (∀ call ∈ calls, ∀ L, callLen sc call = .ok (some (.num L)) → 0 ≤ L) → Heard v'.marks t') := by
  induction calls generalizing t v with
  | nil =>
    cases hrun
    exact ⟨t, h, fun hheard _ => hheard⟩
  | cons call calls ih =>
    obtain ⟨d, ht, hd, hcall, hrest⟩ := hcalls
    obtain ⟨v₁, hone, hrun⟩ := bind_ok.mp hrun
    have hplayed := playEvent_played hmono hpoly hcall hone
    have hnow : v.NodesAt call.beatTime := NodeInv.later h ht
    obtain ⟨t', hinv, hheard⟩ := ih hrest (played_nodes hnow hd hplayed) hrun
    refine ⟨t', hinv, fun hstart hlen => hheard ?_ fun c hc => hlen c (List.mem_cons_of_mem _ hc)⟩
    have hnowHeard : Heard v.marks call.beatTime :=
      fun k x hx => ⟨(hstart k x hx).1.trans ht, (hstart k x hx).2⟩
    exact played_heard hnow hnowHeard hd (hlen call List.mem_cons_self) hplayed

/-- **One node at a time.** In a performance no two nodes sound together; every `/n_set` that
carries a note and every gate-off that a note schedules goes to the node that sounds then, if
no length is negative; and a rest releases the node that was started last. -/
theorem mono_apart (hmono : self.mono = true) (hpoly : self.poly = none) (nextNode : ℕ)
    {calls : List (Call R)} (hcalls : Performed sc t calls)
    (hrun : perform sc self calls (Voices.start R nextNode) = .ok v) :
    (∀ n n' x, Sounding v.marks n x → Sounding v.marks n' x → n = n') ∧
      ((∀ call ∈ calls, ∀ L, callLen sc call = .ok (some (.num L)) → 0 ≤ L) →
        ∀ n x, .set n x ∈ v.marks ∨ .off n x ∈ v.marks → Sounding v.marks n x) ∧
      ∀ n x, .release n x ∈ v.marks → ∃ s, .start n s ∈ v.marks ∧ s ≤ x ∧
        ∀ n' s', .start n' s' ∈ v.marks → s' ≤ x → s' ≤ s := by
  have hstart : (Voices.start R nextNode).NodesAt t := inv_init
  obtain ⟨t', hinv, hheard⟩ := perform_nodes hmono hpoly hcalls hstart hrun
  refine ⟨fun n n' x hn hn' => ?_, fun hlen n x hx => ?_, NodeInv.release hinv⟩
  · obtain ⟨s, hs, hle, hall⟩ := hn
    obtain ⟨s', hs', hle', hall'⟩ := hn'
    rcases lt_trichotomy s s' with hlt | heq | hlt
    · -- the earlier one has ended before the other
      obtain ⟨e, he, hend⟩ := NodeInv.apart hinv n s n' s' hs hs' hlt
      exact absurd (hall e he) (hend.trans_le hle').not_ge
    · exact (NodeInv.once hinv n s n' s' hs hs').mpr heq
    · obtain ⟨e, he, hend⟩ := NodeInv.apart hinv n' s' n s hs' hs hlt
      exact absurd (hall' e he) (hend.trans_le hle).not_ge
  · refine (hheard (fun k y hy => ?_) hlen n x hx).2
    rcases hy with hy | hy <;> exact absurd hy List.not_mem_nil

end Performance

/-! ## Runs -/

/-- A player in mono mode. -/
def monoSettings : Settings ℚ := { bareSettings with mono := true }

/-- A note or a rest at a beat. -/
def noteAt (freq : Val ℚ) (beatTime dur : ℚ) : Call ℚ where
  lista := ofPairs [(ascii "freq", freq)]
  beatTime := beatTime
  beatLen := some (.num dur)
  delta := some (.num 1)
  pulling := false

/-- A long note that a short one takes over, and a rest. -/
def slurred : List (Call ℚ) :=
  [noteAt (.num 440) 0 2, noteAt (.num 550) 1 (1 / 2), noteAt .rest 2 1, noteAt (.num 440) 3 2]

/-- A note of a negative length. -/
def backwards : List (Call ℚ) := [noteAt (.num 440) 0 2, noteAt (.num 550) 1 (-1 / 2)]

theorem singleNote_noteAt (freq : Val ℚ) (hfreq : len bareScript freq ≤ 1) (beatTime dur : ℚ) :
    SingleNote bareScript (noteAt freq beatTime dur) 1 := by
  refine ⟨?_, ?_, rfl⟩
  · show max 1 (len bareScript freq) = 1
    exact max_eq_left hfreq
  · show (ofPairs [(ascii "freq", freq)] : Event ℚ).lookup (ascii "type") = none
    have hne : ascii "type" ≠ ascii "freq" := by decide
    exact AList.lookup_insert_ne hne

theorem perform_of_marks {calls : List (Call ℚ)} {ms : List (Mark ℚ)}
    (h : (perform bareScript monoSettings calls (Voices.start ℚ 1001)).toOption.map Voices.marks =
      some ms) :
    ∃ v, perform bareScript monoSettings calls (Voices.start ℚ 1001) = .ok v ∧ v.marks = ms := by
  cases hrun : perform bareScript monoSettings calls (Voices.start ℚ 1001) with
  | error msg =>
    rw [hrun] at h
    cases h
  | ok v =>
    rw [hrun] at h
    exact ⟨v, rfl, Option.some.inj h⟩

theorem slurred_marks : ∃ v, perform bareScript monoSettings slurred (Voices.start ℚ 1001) =
    .ok v ∧ v.marks =
      [.start 1001 0, .set 1001 1, .off 1001 (3 / 2), .release 1001 2, .start 1002 3] :=
  perform_of_marks (by decide +kernel)

theorem backwards_marks : ∃ v, perform bareScript monoSettings backwards (Voices.start ℚ 1001) =
    .ok v ∧ v.marks = [.start 1001 0, .set 1001 1, .off 1001 (1 / 2)] :=
  perform_of_marks (by decide +kernel)

theorem slurred_performed : Performed bareScript 0 slurred := by
  refine ⟨1, le_rfl, one_pos, singleNote_noteAt _ (by decide) _ _, 1, ?_, one_pos,
    singleNote_noteAt _ (by decide) _ _, 1, ?_, one_pos, singleNote_noteAt _ (by decide) _ _, 1, ?_,
    one_pos, singleNote_noteAt _ (by decide) _ _, trivial⟩
  · show (0 : ℚ) + 1 ≤ 1
    norm_num
  · show (1 : ℚ) + 1 ≤ 2
    norm_num
  · show (2 : ℚ) + 1 ≤ 3
    norm_num

theorem slurred_len : ∀ call ∈ slurred, ∀ L, callLen bareScript call = .ok (some (.num L)) →
    0 ≤ L := by
  have hlens : ∀ call ∈ slurred, ∃ x : ℚ, 0 ≤ x ∧ callLen bareScript call = .ok (some (.num x)) := by
    intro call hcall
    simp only [slurred, List.mem_cons, List.not_mem_nil, or_false] at hcall
    rcases hcall with rfl | rfl | rfl | rfl
    · exact ⟨2, by norm_num, rfl⟩
    · exact ⟨1 / 2, by norm_num, rfl⟩
    · exact ⟨1, by norm_num, rfl⟩
    · exact ⟨2, by norm_num, rfl⟩
  intro call hcall L hL
  obtain ⟨x, hx, hlen⟩ := hlens call hcall
  rw [hlen] at hL
  cases hL
  exact hx

theorem mono_apart_slurred : ∃ v, perform bareScript monoSettings slurred (Voices.start ℚ 1001) =
    .ok v ∧ (∀ n n' x, Sounding v.marks n x → Sounding v.marks n' x → n = n') ∧
      ∀ n x, .set n x ∈ v.marks ∨ .off n x ∈ v.marks → Sounding v.marks n x := by
  obtain ⟨v, hv, -⟩ := slurred_marks
  have hlaw := mono_apart rfl rfl 1001 slurred_performed hv
  exact ⟨v, hv, hlaw.1, hlaw.2.1 slurred_len⟩

/-- The rest at 2 releases what ended at 3/2, and a gate-off at 1/2 comes before its note. -/
theorem mono_release_twice :
    (∃ v, perform bareScript monoSettings slurred (Voices.start ℚ 1001) = .ok v ∧
      .release 1001 2 ∈ v.marks ∧ ¬ Sounding v.marks 1001 2) ∧
    ∃ v, perform bareScript monoSettings backwards (Voices.start ℚ 1001) = .ok v ∧
      .set 1001 1 ∈ v.marks ∧ ¬ Sounding v.marks 1001 1 := by
  obtain ⟨v, hv, hms⟩ := slurred_marks
  obtain ⟨v', hv', hms'⟩ := backwards_marks
  refine ⟨⟨v, hv, ?_, fun hsound => ?_⟩, v', hv', ?_, fun hsound => ?_⟩
  · simp [hms]
  · obtain ⟨s, -, -, hall⟩ := hsound
    have hle := hall (3 / 2) (.inl (by simp [hms]))
    norm_num at hle
  · simp [hms']
  · obtain ⟨s, -, -, hall⟩ := hsound
    have hle := hall (1 / 2) (.inl (by simp [hms']))
    norm_num at hle

end Lua2SC.Players
