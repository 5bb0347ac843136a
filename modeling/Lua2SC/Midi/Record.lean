import Lua2SC.Lib.Lua

/-!
# `miditoosc.lua`: `midiSeq`

The recorded events are sorted by time and become four lists for a player: the keys,
the amplitudes, the times to the next note and the durations. A note is put in `seq`
when it begins, after the rest that stands for the time before the first one, and in
`played` until an event ends it; the same table is in both, so its `dur` is filled in
where it stands.

A note that nothing ends has no `dur`, and `LSmake` leaves the gap out: the list of the
durations is shorter than the others, and every later note is played with the duration
of the one behind it. That happens to a note that is held to the end, and to one whose
key is struck again. `midiSeq_iff` says that it happens in no other case; the times to
the next note are always right.

`table.sort` may leave events of the same time in any order (`TableSort`).
-/

namespace Lua2SC.Midi.Record

open Lua2SC.Lua

variable {R : Type} [Field R] [LinearOrder R]

/-! ## The lists -/

/-- A recorded event: its time, whether it is a note-on, and its data. -/
structure Recorded (R : Type) where
  ppq : R
  on : Bool
  note : ℕ
  velocity : R
deriving DecidableEq, Repr

/-- What `table.sort` makes of a list. -/
structure TableSort (R : Type) [LinearOrder R] where
  sort : List (Recorded R) → List (Recorded R)
  perm : ∀ t, (sort t).Perm t
  sorted : ∀ t, (sort t).Pairwise fun a b => a.ppq ≤ b.ppq

inductive Note where
  | REST
  | key (n : ℕ)
deriving DecidableEq, Repr

/-- What stands in `seq`. -/
structure Entry (R : Type) where
  ppq : R
  note : Note
  amp : R
  delta : Option R
  dur : Option R
deriving DecidableEq, Repr

/-- `seq`, and for the keys in `played` the place of the note in `seq`. -/
structure Playing (R : Type) where
  played : LuaTable ℕ ℕ
  seq : List (Entry R)

/-- `seq[#seq].event.delta = time - seq[#seq].ppq`. -/
def setDelta (time : R) (seq : List (Entry R)) : List (Entry R) :=
  seq.modify (seq.length - 1) fun e => { e with delta := some (time - e.ppq) }

/-- `e.event.dur = time - e.ppq`, for the entry at place `i`. -/
def setDur (time : R) (i : ℕ) (seq : List (Entry R)) : List (Entry R) :=
  seq.modify i fun e => { e with dur := some (time - e.ppq) }

/-- One turn of the loop over the events. -/
def turn (s : Playing R) (v : Recorded R) : Playing R :=
  if v.on then
    ⟨s.played.insert v.note s.seq.length,
      setDelta v.ppq s.seq ++ [⟨v.ppq, .key v.note, v.velocity / ((127 : ℕ) : R), none, none⟩]⟩
  else
    (s.played.lookup v.note).elim s fun i => ⟨s.played.erase v.note, setDur v.ppq i s.seq⟩

/-- What `seq` has before the first event. -/
def inievent (ini : R) : Entry R := ⟨ini, .REST, 0, none, some 0⟩

/-- `seq` after the loop and the last delta. -/
def seqOf (ini endr : R) (t : List (Recorded R)) : List (Entry R) :=
  setDelta endr (t.foldl turn ⟨∅, [inievent ini]⟩).seq

/-- The lists of `seqC`. -/
structure Lists (R : Type) where
  note : List Note
  amp : List R
  delta : List R
  dur : List R
deriving DecidableEq, Repr

/-- `LSmake` for each key: what is nil is left out. -/
def lists (seq : List (Entry R)) : Lists R where
  note := seq.map Entry.note
  amp := seq.map Entry.amp
  delta := seq.filterMap Entry.delta
  dur := seq.filterMap Entry.dur

/-- `midiSeq`. -/
def midiSeq (S : TableSort R) (ini endr : R) (t : List (Recorded R)) : Option (Lists R × R) :=
  match S.sort t with
  | [] => none
  | v :: rest => some (lists (seqOf ini endr (v :: rest)), v.ppq)

/-! ## What the lists should be -/

/-- The notes that begin. -/
def ons (t : List (Recorded R)) : List (Recorded R) := t.filter (·.on)

/-- When the first note-off of the key comes, or the end of the recording. -/
def offTime (endr : R) (key : ℕ) (t : List (Recorded R)) : R :=
  ((t.find? fun w => !w.on && w.note = key).map (·.ppq)).getD endr

/-- Every note's own duration. -/
def durations (endr : R) : List (Recorded R) → List R
  | [] => []
  | v :: t =>
    if v.on then (offTime endr v.note t - v.ppq) :: durations endr t else durations endr t

/-- The lists have one place for the rest and one for each note, and what stands there is
that note's. -/
structure Aligned (ini endr : R) (t : List (Recorded R)) (r : Lists R) : Prop where
  note : r.note = .REST :: (ons t).map fun v => .key v.note
  amp : r.amp = 0 :: (ons t).map fun v => v.velocity / 127
  dur : r.dur = 0 :: durations endr t
  delta : r.delta.length = (ons t).length + 1
  onset : ∀ (i : ℕ) (v : Recorded R), (ons t)[i]? = some v → ini + (r.delta.take (i + 1)).sum = v.ppq
  total : r.delta.sum = endr - ini

/-- The next event of the key is a note-off. -/
def Released (key : ℕ) (t : List (Recorded R)) : Prop :=
  ∃ w, t.find? (fun w => w.note = key) = some w ∧ w.on = false

/-- Every note is released, and before its key is struck again. -/
def AllReleased : List (Recorded R) → Prop
  | [] => True
  | v :: t => (v.on = true → Released v.note t) ∧ AllReleased t

/-! ## What the loop leaves -/

section Loop

omit [Field R] [LinearOrder R] in
/-- What a change does not touch. -/
theorem map_modify {β : Type} {g : Entry R → β} {f : Entry R → Entry R} (h : ∀ e, g (f e) = g e)
    (seq : List (Entry R)) (i : ℕ) : (seq.modify i f).map g = seq.map g := by
  refine List.ext_getElem (by simp) fun j hj _ => ?_
  rw [List.getElem_map, List.getElem_map, List.getElem_modify]
  split
  · exact h _
  · rfl

omit [LinearOrder R] in
theorem map_setDelta {β : Type} {g : Entry R → β} (h : ∀ (e : Entry R) d, g { e with delta := d } = g e)
    (time : R) (seq : List (Entry R)) : (setDelta time seq).map g = seq.map g :=
  map_modify (fun e => h e _) seq _

omit [LinearOrder R] in
theorem map_setDur {β : Type} {g : Entry R → β} (h : ∀ (e : Entry R) d, g { e with dur := d } = g e)
    (time : R) (i : ℕ) (seq : List (Entry R)) : (setDur time i seq).map g = seq.map g :=
  map_modify (fun e => h e _) seq _

omit [LinearOrder R] in
/-- **The notes** come one after the other. -/
theorem foldl_notes (t : List (Recorded R)) (s : Playing R) :
    (t.foldl turn s).seq.map (fun e => (e.ppq, e.note, e.amp)) =
      s.seq.map (fun e => (e.ppq, e.note, e.amp)) ++
        (ons t).map fun v => (v.ppq, .key v.note, v.velocity / 127) := by
  induction t generalizing s with
  | nil => simp [ons]
  | cons v t ih =>
    rw [List.foldl_cons, ih]
    cases hon : v.on with
    | true =>
      have hons : ons (v :: t) = v :: ons t := List.filter_cons_of_pos hon
      rw [turn, if_pos hon, hons, List.map_append, map_setDelta fun _ _ => rfl]
      simp
    | false =>
      have hons : ons (v :: t) = ons t := List.filter_cons_of_neg (by simp [hon])
      rw [turn, if_neg (by simp [hon]), hons]
      cases s.played.lookup v.note with
      | none => rfl
      | some i =>
        show (setDur v.ppq i s.seq).map _ ++ _ = _
        rw [map_setDur fun _ _ => rfl]

/-! ## The times to the next note -/

/-- The time from each onset to the next, and from the last to the end. -/
def gaps (endr : R) : List R → List R
  | [] => []
  | x :: xs => (xs.headD endr - x) :: gaps endr xs

/-- Every delta but the last is set. -/
def Linked : List (R × Option R) → Prop
  | [] => True
  | e :: es => e.2 = es.head?.map (fun e' => e'.1 - e.1) ∧ Linked es

/-- The time and the delta of an entry. -/
def Entry.link (e : Entry R) : R × Option R := (e.ppq, e.delta)

omit [LinearOrder R] in
theorem setDelta_cons (time : R) (e e' : Entry R) (es : List (Entry R)) :
    setDelta time (e :: e' :: es) = e :: setDelta time (e' :: es) := by
  simp [setDelta]

omit [LinearOrder R] in
theorem linked_concat {seq : List (Entry R)} (h : Linked (seq.map Entry.link)) {e : Entry R}
    (he : e.delta = none) : Linked ((setDelta e.ppq seq ++ [e]).map Entry.link) := by
  induction seq with
  | nil => exact ⟨he, trivial⟩
  | cons x seq ih =>
    cases seq with
    | nil => exact ⟨rfl, he, trivial⟩
    | cons y seq =>
      rw [setDelta_cons]
      refine ⟨?_, ih h.2⟩
      rw [show (x.link).2 = _ from h.1]
      cases seq <;> simp [setDelta, Entry.link]

omit [LinearOrder R] in
theorem linked_foldl (t : List (Recorded R)) {s : Playing R} (h : Linked (s.seq.map Entry.link)) :
    Linked ((t.foldl turn s).seq.map Entry.link) := by
  induction t generalizing s with
  | nil => exact h
  | cons v t ih =>
    refine ih ?_
    unfold turn
    split
    · exact linked_concat (e := ⟨v.ppq, .key v.note, v.velocity / 127, none, none⟩) h rfl
    · cases s.played.lookup v.note with
      | none => exact h
      | some i =>
        show Linked ((setDur v.ppq i s.seq).map Entry.link)
        rw [map_setDur fun _ _ => rfl]
        exact h

omit [LinearOrder R] in
/-- The last one is set at the end. -/
theorem deltas_setDelta (endr : R) {seq : List (Entry R)} (h : Linked (seq.map Entry.link)) :
    (setDelta endr seq).filterMap Entry.delta = gaps endr (seq.map Entry.ppq) := by
  induction seq with
  | nil => rfl
  | cons x seq ih =>
    cases seq with
    | nil => rfl
    | cons y seq =>
      have hx : x.delta = some (y.ppq - x.ppq) := h.1
      rw [setDelta_cons, List.filterMap_cons, hx, ih h.2]
      rfl

omit [LinearOrder R] in
theorem gaps_length (endr : R) (xs : List R) : (gaps endr xs).length = xs.length := by
  induction xs with
  | nil => rfl
  | cons x xs ih => rw [gaps, List.length_cons, ih, List.length_cons]

omit [LinearOrder R] in
/-- **The gaps lead from onset to onset.** -/
theorem gaps_onset (endr : R) (x : R) (xs : List R) {i : ℕ} {y : R} (hy : (x :: xs)[i]? = some y) :
    x + ((gaps endr (x :: xs)).take i).sum = y := by
  induction i generalizing x xs with
  | zero =>
    obtain rfl := Option.some.inj hy
    simp
  | succ i ih =>
    cases xs with
    | nil => simp at hy
    | cons z xs =>
      have hrest := ih z xs hy
      rw [gaps, List.take_succ_cons, List.sum_cons, ← add_assoc]
      show x + (z - x) + _ = y
      rw [add_sub_cancel]
      exact hrest

omit [LinearOrder R] in
theorem gaps_sum (endr : R) (x : R) (xs : List R) : (gaps endr (x :: xs)).sum = endr - x := by
  induction xs generalizing x with
  | nil => simp [gaps]
  | cons z xs ih =>
    rw [gaps, List.sum_cons, ih]
    show z - x + (endr - z) = endr - x
    abel

/-! ## The durations -/

/-- When the key is released, if it is before it is struck again. -/
def ownOff (key : ℕ) (t : List (Recorded R)) : Option R :=
  (t.find? fun w => w.note = key).bind fun w => if w.on then none else some w.ppq

/-- The `dur` of each note in the end. -/
def owns : List (Recorded R) → List (Option R)
  | [] => []
  | v :: t =>
    if v.on then (ownOff v.note t).map (fun x => x - v.ppq) :: owns t else owns t

/-- The `dur` that the entry at place `i` has in the end, with the events `t` to come. -/
def settled (played : LuaTable ℕ ℕ) (t : List (Recorded R)) (i : ℕ) (e : Entry R) : Option R :=
  match e.note with
  | .REST => e.dur
  | .key k =>
    if played.lookup k = some i then (ownOff k t).map fun x => x - e.ppq else e.dur

/-- What is in `played` are the places of notes of that key without a `dur`. -/
def Places (s : Playing R) : Prop :=
  ∀ k i, s.played.lookup k = some i → ∃ e, s.seq[i]? = some e ∧ e.note = .key k ∧ e.dur = none

omit [Field R] [LinearOrder R] in
theorem ownOff_cons (key : ℕ) (v : Recorded R) (t : List (Recorded R)) :
    ownOff key (v :: t) =
      if v.note = key then (if v.on then none else some v.ppq) else ownOff key t := by
  unfold ownOff
  by_cases h : v.note = key
  · rw [List.find?_cons_of_pos (by simpa using h), if_pos h]
    rfl
  · rw [List.find?_cons_of_neg (by simpa using h), if_neg h]

omit [Field R] [LinearOrder R] in
/-- Lists that agree in what `g` sees. -/
theorem getElem?_of_map {α β : Type} {g : α → β} {xs ys : List α} (h : xs.map g = ys.map g) {i : ℕ}
    {y : α} (hy : ys[i]? = some y) : ∃ x, xs[i]? = some x ∧ g x = g y := by
  have hget : (xs.map g)[i]? = some (g y) := by rw [h, List.getElem?_map, hy]; rfl
  rw [List.getElem?_map] at hget
  exact Option.map_eq_some_iff.mp hget

omit [LinearOrder R] in
theorem getElem?_setDur {time : R} {i j : ℕ} {seq : List (Entry R)} {e : Entry R}
    (he : seq[j]? = some e) : (setDur time i seq)[j]? =
      some (if i = j then { e with dur := some (time - e.ppq) } else e) := by
  rw [setDur, List.getElem?_modify, he]
  split <;> rfl

/-- What the durations depend on. -/
def Entry.held (e : Entry R) : R × Note × Option R := (e.ppq, e.note, e.dur)

omit [LinearOrder R] in
theorem getElem?_setDelta {time : R} {i : ℕ} {seq : List (Entry R)} {e : Entry R}
    (he : seq[i]? = some e) : ∃ e', (setDelta time seq)[i]? = some e' ∧ e'.held = e.held :=
  getElem?_of_map (map_setDelta (fun _ _ => rfl) time seq) he

omit [LinearOrder R] in
theorem places_turn {s : Playing R} (h : Places s) (v : Recorded R) : Places (turn s v) := by
  intro k i hk
  cases hon : v.on with
  | true =>
    rw [turn, if_pos hon] at hk ⊢
    have hlen : (setDelta v.ppq s.seq).length = s.seq.length := by simp [setDelta]
    by_cases hnote : k = v.note
    · subst hnote
      rw [AList.lookup_insert, Option.some.injEq] at hk
      subst hk
      refine ⟨⟨v.ppq, .key v.note, v.velocity / 127, none, none⟩, ?_, rfl, rfl⟩
      show (setDelta v.ppq s.seq ++ [_])[s.seq.length]? = _
      rw [List.getElem?_append_right hlen.le, hlen, Nat.sub_self]
      rfl
    · rw [AList.lookup_insert_ne hnote] at hk
      obtain ⟨e, he, hnote', hdur⟩ := h k i hk
      obtain ⟨e', he', hheld⟩ := getElem?_setDelta he
      have hn := congrArg (fun p => p.2.1) hheld
      have hd := congrArg (fun p => p.2.2) hheld
      refine ⟨e', ?_, hn.trans hnote', hd.trans hdur⟩
      show (setDelta v.ppq s.seq ++ [_])[i]? = _
      rw [List.getElem?_append_left (List.getElem?_eq_some_iff.mp he').1]
      exact he'
  | false =>
    rw [turn, if_neg (by simp [hon])] at hk ⊢
    cases hplayed : s.played.lookup v.note with
    | none =>
      rw [hplayed] at hk
      exact h k i hk
    | some i₀ =>
      rw [hplayed] at hk
      have hk : (s.played.erase v.note).lookup k = some i := hk
      by_cases hnote : k = v.note
      · subst hnote
        rw [AList.lookup_erase] at hk
        cases hk
      · rw [AList.lookup_erase_ne hnote] at hk
        obtain ⟨e, he, hnote', hdur⟩ := h k i hk
        obtain ⟨e₀, he₀, hnote₀, -⟩ := h v.note i₀ hplayed
        have hi : i₀ ≠ i := by
          rintro rfl
          rw [he] at he₀
          cases he₀
          exact hnote (Note.key.inj (hnote'.symm.trans hnote₀))
        refine ⟨e, ?_, hnote', hdur⟩
        show (setDur v.ppq i₀ s.seq)[i]? = _
        rw [getElem?_setDur he, if_neg hi]

omit [LinearOrder R] in
/-- A key that goes down settles nothing of the notes before. -/
theorem settled_on {s : Playing R} (h : Places s) {v : Recorded R} (hon : v.on = true)
    (t : List (Recorded R)) :
    (setDelta v.ppq s.seq).mapIdx (settled (s.played.insert v.note s.seq.length) t) =
      s.seq.mapIdx (settled s.played (v :: t)) := by
  refine List.ext_getElem? fun i => ?_
  rw [List.getElem?_mapIdx, List.getElem?_mapIdx]
  cases he : s.seq[i]? with
  | none =>
    have hlen : (setDelta v.ppq s.seq).length = s.seq.length := by simp [setDelta]
    have hnone : (setDelta v.ppq s.seq)[i]? = none :=
      List.getElem?_eq_none (hlen ▸ List.getElem?_eq_none_iff.mp he)
    rw [hnone]
    rfl
  | some e =>
    obtain ⟨e', he', hheld⟩ := getElem?_setDelta he
    have hlt := (List.getElem?_eq_some_iff.mp he).1
    rw [he']
    refine congrArg some ?_
    obtain ⟨hp, hn, hd⟩ : e'.ppq = e.ppq ∧ e'.note = e.note ∧ e'.dur = e.dur := by
      simpa [Entry.held] using hheld
    unfold settled
    rw [hp, hn, hd]
    cases hnote : e.note with
    | REST => rfl
    | key k =>
      dsimp only
      rw [ownOff_cons]
      by_cases hk : v.note = k
      · -- the same key again: a note of it that still sounds gets no end
        subst hk
        rw [AList.lookup_insert, if_neg fun h => hlt.ne (Option.some.inj h).symm, if_pos rfl,
          if_pos hon]
        split
        next hplayed =>
          obtain ⟨e₀, he₀, -, hdur⟩ := h _ _ hplayed
          rw [he] at he₀
          cases he₀
          exact hdur
        next => rfl
      · rw [AList.lookup_insert_ne (Ne.symm hk), if_neg hk]

omit [LinearOrder R] in
/-- A key that goes up without sounding settles nothing. -/
theorem settled_off_none {played : LuaTable ℕ ℕ} {v : Recorded R}
    (hplayed : played.lookup v.note = none) (t : List (Recorded R)) (i : ℕ) (e : Entry R) :
    settled played t i e = settled played (v :: t) i e := by
  unfold settled
  cases hnote : e.note with
  | REST => rfl
  | key k =>
    dsimp only
    rw [ownOff_cons]
    by_cases hk : v.note = k
    · rw [← hk, hplayed]
      rfl
    · rw [if_neg hk]

omit [LinearOrder R] in
/-- A key that goes up settles its own note, and no other. -/
theorem settled_off {s : Playing R} (h : Places s) {v : Recorded R} (hoff : ¬ v.on = true)
    {i₀ : ℕ} (hplayed : s.played.lookup v.note = some i₀) (t : List (Recorded R)) :
    (setDur v.ppq i₀ s.seq).mapIdx (settled (s.played.erase v.note) t) =
      s.seq.mapIdx (settled s.played (v :: t)) := by
  refine List.ext_getElem? fun i => ?_
  rw [List.getElem?_mapIdx, List.getElem?_mapIdx]
  cases he : s.seq[i]? with
  | none =>
    have hnone : (setDur v.ppq i₀ s.seq)[i]? = none :=
      List.getElem?_eq_none (by simpa [setDur] using List.getElem?_eq_none_iff.mp he)
    rw [hnone]
    rfl
  | some e =>
    rw [getElem?_setDur he]
    refine congrArg some ?_
    by_cases hi : i₀ = i
    · -- this is the note that ends
      subst hi
      obtain ⟨e₀, he₀, hnote, -⟩ := h _ _ hplayed
      rw [he] at he₀
      cases he₀
      rw [if_pos rfl, settled, settled]
      dsimp only
      rw [hnote]
      dsimp only
      rw [AList.lookup_erase, if_neg (Option.some_ne_none _).symm, if_pos hplayed, ownOff_cons,
        if_pos rfl, if_neg hoff]
      rfl
    · rw [if_neg hi]
      unfold settled
      cases hnote : e.note with
      | REST => rfl
      | key k =>
        dsimp only
        rw [ownOff_cons]
        by_cases hk : v.note = k
        · subst hk
          rw [AList.lookup_erase, hplayed, if_neg (Option.some_ne_none _).symm,
            if_neg fun h => hi (Option.some.inj h)]
        · rw [AList.lookup_erase_ne (Ne.symm hk), if_neg hk]

omit [LinearOrder R] in
/-- A turn changes what the events to come will settle into what they and the event do. -/
theorem settled_turn {s : Playing R} (h : Places s) (v : Recorded R) (t : List (Recorded R)) :
    (turn s v).seq.mapIdx (settled (turn s v).played t) ++ owns t =
      s.seq.mapIdx (settled s.played (v :: t)) ++ owns (v :: t) := by
  cases hon : v.on with
  | true =>
    have hlen : (setDelta v.ppq s.seq).length = s.seq.length := by simp [setDelta]
    have hnew : settled (s.played.insert v.note s.seq.length) t s.seq.length
        ⟨v.ppq, .key v.note, v.velocity / ((127 : ℕ) : R), none, none⟩ =
          (ownOff v.note t).map fun x => x - v.ppq := by
      rw [settled]
      dsimp only
      rw [AList.lookup_insert, if_pos rfl]
    rw [turn, if_pos hon, owns, if_pos hon]
    show (setDelta v.ppq s.seq ++ [_]).mapIdx _ ++ owns t = _
    rw [List.mapIdx_append, settled_on h hon, hlen, List.append_assoc]
    congr 1
    show settled _ t (0 + s.seq.length) _ :: owns t = _
    rw [Nat.zero_add, hnew]
  | false =>
    have hoff : ¬ v.on = true := by simp [hon]
    rw [turn, if_neg hoff, owns, if_neg hoff]
    congr 1
    cases hplayed : s.played.lookup v.note with
    | none =>
      refine List.ext_getElem? fun i => ?_
      rw [List.getElem?_mapIdx, List.getElem?_mapIdx]
      exact congrArg (fun f => s.seq[i]?.map f) (funext (settled_off_none hplayed t i))
    | some i₀ => exact settled_off h hoff hplayed t

omit [LinearOrder R] in
/-- **Every note gets its own duration or none.** -/
theorem foldl_durs (t : List (Recorded R)) {s : Playing R} (h : Places s) :
    (t.foldl turn s).seq.map Entry.dur = s.seq.mapIdx (settled s.played t) ++ owns t := by
  induction t generalizing s with
  | nil =>
    rw [owns, List.append_nil]
    refine List.ext_getElem? fun i => ?_
    rw [List.getElem?_map, List.getElem?_mapIdx]
    show (s.seq[i]?).map _ = _
    cases he : s.seq[i]? with
    | none => rfl
    | some e =>
      refine congrArg some ?_
      unfold settled
      cases hnote : e.note with
      | REST => rfl
      | key k =>
        dsimp only
        split
        next hplayed =>
          obtain ⟨e₀, he₀, -, hdur⟩ := h _ _ hplayed
          rw [he] at he₀
          cases he₀
          exact hdur
        next => rfl
  | cons v t ih => rw [List.foldl_cons, ih (places_turn h v), settled_turn h v t]

omit [Field R] [LinearOrder R] in
theorem ownOff_isSome {key : ℕ} {t : List (Recorded R)} :
    (ownOff key t).isSome ↔ Released key t := by
  unfold ownOff Released
  cases t.find? fun w => w.note = key with
  | none => simp
  | some w => cases hon : w.on <;> simp [hon]

omit [Field R] [LinearOrder R] in
/-- The release of a note is the first note-off of its key. -/
theorem offTime_of_ownOff (endr : R) {key : ℕ} {x : R} {t : List (Recorded R)}
    (h : ownOff key t = some x) : offTime endr key t = x := by
  induction t with
  | nil => cases h
  | cons v t ih =>
    rw [ownOff_cons] at h
    unfold offTime
    by_cases hkey : v.note = key
    · rw [if_pos hkey] at h
      cases hon : v.on with
      | true =>
        rw [if_pos hon] at h
        cases h
      | false =>
        rw [if_neg (by simp [hon])] at h
        rw [List.find?_cons_of_pos (by simp [hon, hkey])]
        exact Option.some.inj h
    · rw [if_neg hkey] at h
      rw [List.find?_cons_of_neg (by simp [hkey])]
      exact ih h

omit [LinearOrder R] in
theorem owns_length (endr : R) (t : List (Recorded R)) :
    (owns t).length = (durations endr t).length := by
  induction t with
  | nil => rfl
  | cons v t ih =>
    unfold owns durations
    split
    · rw [List.length_cons, List.length_cons, ih]
    · exact ih

omit [LinearOrder R] in
/-- Every note has its duration exactly when all are released. -/
theorem allReleased_iff {t : List (Recorded R)} : AllReleased t ↔ ∀ o ∈ owns t, o.isSome := by
  induction t with
  | nil => simp [AllReleased, owns]
  | cons v t ih =>
    unfold AllReleased owns
    rw [ih]
    cases hon : v.on with
    | true => simp [← ownOff_isSome]
    | false => simp

omit [LinearOrder R] in
theorem owns_of_allReleased (endr : R) {t : List (Recorded R)} (h : AllReleased t) :
    owns t = (durations endr t).map some := by
  induction t with
  | nil => rfl
  | cons v t ih =>
    unfold owns durations
    rw [ih h.2]
    split
    next hon =>
      obtain ⟨x, hx⟩ := Option.isSome_iff_exists.mp (ownOff_isSome.mpr (h.1 hon))
      rw [hx, offTime_of_ownOff endr hx]
      rfl
    next => rfl

end Loop

/-! ## The law -/

section Law

variable (ini endr : R) (t : List (Recorded R))

omit [LinearOrder R] in
/-- The list of the durations. -/
theorem lists_dur : (lists (seqOf ini endr t)).dur = 0 :: (owns t).filterMap id := by
  have hplaces : Places (⟨∅, [inievent ini]⟩ : Playing R) := by
    intro k i hk
    rw [AList.lookup_empty] at hk
    cases hk
  have hdurs := foldl_durs t hplaces
  show (seqOf ini endr t).filterMap Entry.dur = _
  have hfilter : (seqOf ini endr t).filterMap Entry.dur =
      ((seqOf ini endr t).map Entry.dur).filterMap id := by
    rw [List.filterMap_map]
    rfl
  rw [hfilter, seqOf, map_setDelta fun _ _ => rfl, hdurs]
  rfl

omit [LinearOrder R] in
/-- **The keys, the amplitudes and the times** are right in every case. -/
theorem lists_onsets :
    (lists (seqOf ini endr t)).note = .REST :: (ons t).map (fun v => .key v.note) ∧
      (lists (seqOf ini endr t)).amp = 0 :: (ons t).map (fun v => v.velocity / 127) ∧
      (lists (seqOf ini endr t)).delta = gaps endr (ini :: (ons t).map fun v => v.ppq) := by
  have hnotes := foldl_notes t (⟨∅, [inievent ini]⟩ : Playing R)
  have hlinked := linked_foldl t (s := ⟨∅, [inievent ini]⟩) ⟨rfl, trivial⟩
  have hppq := congrArg (List.map Prod.fst) hnotes
  have hnote := congrArg (List.map fun p => p.2.1) hnotes
  have hamp := congrArg (List.map fun p => p.2.2) hnotes
  simp only [List.map_append, List.map_map] at hppq hnote hamp
  refine ⟨?_, ?_, ?_⟩
  · show (seqOf ini endr t).map Entry.note = _
    rw [seqOf, map_setDelta fun _ _ => rfl]
    exact hnote
  · show (seqOf ini endr t).map Entry.amp = _
    rw [seqOf, map_setDelta fun _ _ => rfl]
    exact hamp
  · show (seqOf ini endr t).filterMap Entry.delta = _
    rw [seqOf, deltas_setDelta endr hlinked]
    exact congrArg _ hppq

omit [LinearOrder R] in
theorem aligned_iff : Aligned ini endr t (lists (seqOf ini endr t)) ↔ AllReleased t := by
  obtain ⟨hnote, hamp, hdelta⟩ := lists_onsets ini endr t
  have hdur := lists_dur ini endr t
  constructor
  · intro h
    rw [allReleased_iff]
    have hlen := congrArg List.length (List.cons.inj (hdur.symm.trans h.dur)).2
    rw [← owns_length, List.length_filterMap_eq_countP] at hlen
    exact fun o ho => List.countP_eq_length.mp hlen o ho
  · intro h
    refine ⟨hnote, hamp, ?_, ?_, fun i v hv => ?_, ?_⟩
    · rw [hdur, owns_of_allReleased endr h, List.filterMap_map]
      simp
    · rw [hdelta, gaps_length]
      simp
    · rw [hdelta]
      refine gaps_onset endr ini _ ?_
      rw [List.getElem?_cons_succ, List.getElem?_map, hv]
      rfl
    · rw [hdelta, gaps_sum]

/-- **The lists are aligned if and only if every note is released**, and before its key is
struck again. -/
theorem midiSeq_iff (S : TableSort R) :
    (∀ r ppq, midiSeq S ini endr t = some (r, ppq) → Aligned ini endr (S.sort t) r) ↔
      AllReleased (S.sort t) := by
  unfold midiSeq
  cases hs : S.sort t with
  | nil => simp [AllReleased]
  | cons v rest =>
    rw [← aligned_iff ini endr]
    constructor
    · exact fun h => h _ _ rfl
    · intro h r ppq hr
      cases hr
      exact h

end Law

/-- Insertion sort. -/
def TableSort.insertion : TableSort R where
  sort t := t.insertionSort fun a b => a.ppq ≤ b.ppq
  perm t := List.perm_insertionSort _ t
  sorted t := by
    have htotal : Std.Total fun a b : Recorded R => a.ppq ≤ b.ppq := ⟨fun a b => le_total _ _⟩
    have htrans : IsTrans (Recorded R) fun a b => a.ppq ≤ b.ppq := ⟨fun _ _ _ => le_trans⟩
    exact List.pairwise_insertionSort _ t

/-- Two notes, the first held to the end. -/
def held : List (Recorded ℚ) :=
  [⟨5, true, 60, 100⟩, ⟨6, true, 62, 100⟩, ⟨7, false, 62, 0⟩]

/-- The first note is played with the duration of the second, which has none. -/
theorem midiSeq_held :
    midiSeq TableSort.insertion 4 12 held =
        some (⟨[.REST, .key 60, .key 62], [0, 100 / 127, 100 / 127], [1, 1, 6], [0, 1]⟩, 5) ∧
      ¬ Aligned 4 12 (TableSort.insertion.sort held)
        ⟨[.REST, .key 60, .key 62], [0, 100 / 127, 100 / 127], [1, 1, 6], [0, 1]⟩ := by
  have hsort : TableSort.insertion.sort held = held :=
    List.Pairwise.insertionSort_eq (by simp [held]; norm_num)
  have hlists : lists (seqOf 4 12 held) =
      ⟨[.REST, .key 60, .key 62], [0, 100 / 127, 100 / 127], [1, 1, 6], [0, 1]⟩ := by
    decide +kernel
  refine ⟨?_, fun h => ?_⟩
  · rw [midiSeq, hsort]
    exact congrArg (fun r => some (r, (5 : ℚ))) hlists
  · -- three notes and two durations
    have hdur := congrArg List.length h.dur
    rw [hsort] at hdur
    cases hdur

end Lua2SC.Midi.Record
