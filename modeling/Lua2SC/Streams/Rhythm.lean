import Mathlib.Algebra.BigOperators.Group.List.Basic
import Mathlib.Algebra.Field.Rat
import Mathlib.Data.List.Induction
import Mathlib.Tactic.Ring

/-!
# `utilsstream.lua`: `DursAndNotes`

From a pattern of beats, 1 for an onset and 0 for none, `DursAndNotes` makes a list of
durations and a list of notes. An onset lasts to the next one, and what is before the first
onset is a rest. The duration of an onset is known at the next; its note is put down there
too when the pattern starts with an onset, and one onset earlier when it starts with a rest,
which takes the first place. `Aligned` says that the lists fit, and that each onset is where
it is in the pattern.

The entries begin at the `bounds`: the onsets, and 0 for the rest. `Walked` is the invariant
of the loop; the note list is given as a table.
-/

namespace Lua2SC.Rhythm

variable {α : Type}

/-- An entry of the list of notes. -/
inductive Note (α : Type) where
  | REST
  | note (v : α)
deriving DecidableEq

/-- `WrapAtSimple(t,i)` of a table. -/
def WrapAtSimple (t : List α) (i : ℕ) : Option α :=
  let i := i % t.length
  t[(if i ≠ 0 then i else t.length) - 1]?

/-- The locals of `DursAndNotes`. -/
structure Locals (α : Type) where
  beatsG : List ℚ
  notesG : List (Note α)
  currbeat : ℕ
  currnote : ℕ

/-- `notesG[#notesG + 1] = WrapAtSimple(notes,currnote)`. -/
def putNote (notes : List α) (notesG : List (Note α)) (currnote : ℕ) : List (Note α) :=
  notesG ++ ((WrapAtSimple notes currnote).map Note.note).toList

/-- One turn of the loop, at beat `i`. -/
def turn (notes : List α) (quant : ℚ) (l : Locals α) (b : ℕ) (i : ℕ) : Locals α :=
  if b = 1 then
    -- what began at `currbeat` ends here
    ⟨l.beatsG ++ [((i : ℚ) - l.currbeat) * quant], putNote notes l.notesG l.currnote, i,
      l.currnote + 1⟩
  else l

/-- The locals before the loop. -/
def start (beats : List ℕ) : Locals α :=
  ⟨[], if beats.head? = some 0 then [.REST] else [], 1, 1⟩

/-- The locals after the loop. -/
def loop (beats : List ℕ) (notes : List α) (quant : ℚ) : Locals α :=
  (beats.tail.zipIdx 2).foldl (fun l p => turn notes quant l p.1 p.2) (start beats)

def DursAndNotes (beats : List ℕ) (notes : List α) (quant : Option ℚ) :
    List ℚ × List (Note α) :=
  let quant := quant.getD (1 / 4)
  let l := loop beats notes quant
  -- the last entry ends with the pattern
  (l.beatsG ++ [((beats.length + 1 : ℚ) - l.currbeat) * quant],
    if beats.head? ≠ some 0 then putNote notes l.notesG l.currnote else l.notesG)

/-! ## Onsets -/

/-- The beats with an onset, counted from 0. -/
def onsets (beats : List ℕ) : List ℕ :=
  (beats.zipIdx.filter fun p => decide (p.1 = 1)).map Prod.snd

/-- How many entries there are before those of the onsets. -/
def lead (beats : List ℕ) : ℕ := if beats.head? = some 0 then 1 else 0

/-- Where the entries begin. -/
def bounds (beats : List ℕ) : List ℕ := List.replicate (lead beats) 0 ++ onsets beats

/-- The lists fit each other and the pattern. -/
structure Aligned (beats : List ℕ) (notes : List α) (quant : ℚ)
    (res : List ℚ × List (Note α)) : Prop where
  length : res.1.length = res.2.length
  total : res.1.sum = beats.length * quant
  onset : ∀ (k i : ℕ), (onsets beats)[k]? = some i →
    (res.1.take (k + lead beats)).sum = i * quant ∧
      res.2[k + lead beats]? = notes[k % notes.length]?.map Note.note
  rest : res.2.head? = some Note.REST ↔ beats.head? = some 0

theorem onsets_concat (beats : List ℕ) (b : ℕ) :
    onsets (beats ++ [b]) = onsets beats ++ if b = 1 then [beats.length] else [] := by
  rw [onsets, List.zipIdx_append, List.filter_append, List.map_append]
  congr 1
  by_cases hb : b = 1
  · simp [hb]
  · simp [hb]

/-- The pattern starts with an onset or with a rest, and so does the first entry. -/
theorem bounds_single {b : ℕ} (hb : b = 0 ∨ b = 1) : bounds [b] = [0] := by
  rcases hb with rfl | rfl
  · rfl
  · rfl

theorem lead_concat {beats : List ℕ} (h : beats ≠ []) (b : ℕ) :
    lead (beats ++ [b]) = lead beats := by
  rw [lead, lead, List.head?_append_of_ne_nil _ h]

theorem bounds_concat {beats : List ℕ} (h : beats ≠ []) (b : ℕ) :
    bounds (beats ++ [b]) = bounds beats ++ if b = 1 then [beats.length] else [] := by
  rw [bounds, lead_concat h, onsets_concat, ← List.append_assoc]
  rfl

theorem WrapAtSimple_succ {t : List α} (ht : t ≠ []) (k : ℕ) :
    WrapAtSimple t (k + 1) = t[k % t.length]? := by
  have hpos : 0 < t.length := List.length_pos_iff.mpr ht
  have hlt := Nat.mod_lt k hpos
  have hsucc : (k + 1) % t.length = (k % t.length + 1) % t.length := (Nat.mod_add_mod ..).symm
  rw [WrapAtSimple]
  by_cases hlast : k % t.length + 1 = t.length
  · simp only [hsucc, hlast, Nat.mod_self, ne_eq, not_true, if_false]
    congr 1
    omega
  · simp only [hsucc, Nat.mod_eq_of_lt (show k % t.length + 1 < t.length by omega), ne_eq,
      Nat.succ_ne_zero, not_false_eq_true, if_true, Nat.add_sub_cancel]

/-! ## The loop -/

/-- The note of the onset `k`. -/
def nthNote (notes : List α) (k : ℕ) : List (Note α) :=
  (notes[k % notes.length]?.map Note.note).toList

/-- What holds after some beats: the durations lead from bound to bound, and there are as
many notes, behind the rest. -/
structure Walked (beats : List ℕ) (notes : List α) (quant : ℚ) (l : Locals α) : Prop where
  length : (bounds beats).length = l.beatsG.length + 1
  sums : ∀ j i : ℕ, (bounds beats)[j]? = some i → (l.beatsG.take j).sum = i * quant
  currbeat : (bounds beats)[l.beatsG.length]? = some (l.currbeat - 1) ∧ 1 ≤ l.currbeat
  notesG : l.notesG = List.replicate (lead beats) Note.REST ++
    (List.range l.beatsG.length).flatMap (nthNote notes)
  currnote : l.currnote = l.beatsG.length + 1

variable {notes : List α} {quant : ℚ}

theorem walked_single {b : ℕ} (hb : b = 0 ∨ b = 1) :
    Walked [b] notes quant (start [b]) := by
  have hstart : (start [b] : Locals α).beatsG = [] := rfl
  refine ⟨?_, ?_, ?_, ?_, rfl⟩
  · rw [bounds_single hb]
    rfl
  · intro j i hj
    rw [bounds_single hb] at hj
    have hi : i = 0 := by
      cases j with
      | zero => exact (Option.some.inj hj).symm
      | succ j => cases hj
    rw [hstart, List.take_nil, List.sum_nil, hi, Nat.cast_zero, zero_mul]
  · rw [bounds_single hb, hstart]
    exact ⟨rfl, le_rfl⟩
  · rcases hb with rfl | rfl
    · rfl
    · rfl

/-- A turn keeps the invariant. -/
theorem walked_turn (hnotes : notes ≠ []) {beats : List ℕ} (hne : beats ≠ []) {l : Locals α}
    (h : Walked beats notes quant l) (b : ℕ) :
    Walked (beats ++ [b]) notes quant (turn notes quant l b (beats.length + 1)) := by
  unfold turn
  by_cases hb : b = 1
  · rw [if_pos hb]
    have hbounds : bounds (beats ++ [b]) = bounds beats ++ [beats.length] := by
      rw [bounds_concat hne, if_pos hb]
    obtain ⟨hlast, hpos⟩ := h.currbeat
    have hsum : l.beatsG.sum = (l.currbeat - 1 : ℕ) * quant := by
      have hsums := h.sums _ _ hlast
      rwa [List.take_length] at hsums
    refine ⟨?_, ?_, ?_, ?_, ?_⟩
    · rw [hbounds, List.length_append, List.length_append, h.length]
      rfl
    · intro j i hj
      rw [hbounds] at hj
      by_cases hold : j < (bounds beats).length
      · rw [List.getElem?_append_left hold] at hj
        rw [h.length] at hold
        rw [List.take_append_of_le_length (by omega)]
        exact h.sums j i hj
      · -- the bound of the onset itself: the duration put down leads to it
        obtain ⟨hjlt, -⟩ := List.getElem?_eq_some_iff.mp hj
        rw [List.length_append, List.length_singleton] at hjlt
        have hjeq : j = (bounds beats).length := by omega
        rw [hjeq, List.getElem?_concat_length] at hj
        rw [hjeq, h.length, ← Option.some.inj hj, List.take_of_length_le (by simp),
          List.sum_append, List.sum_singleton, hsum, Nat.cast_sub hpos]
        push_cast
        ring
    · rw [hbounds, List.length_append, List.length_singleton, ← h.length,
        List.getElem?_concat_length]
      exact ⟨rfl, Nat.le_add_left 1 _⟩
    · rw [putNote, h.notesG, h.currnote, WrapAtSimple_succ hnotes, lead_concat hne,
        List.length_append, List.length_singleton, List.range_succ, List.flatMap_append,
        List.append_assoc]
      simp [nthNote]
    · rw [h.currnote, List.length_append, List.length_singleton]
  · rw [if_neg hb]
    have hbounds : bounds (beats ++ [b]) = bounds beats := by
      rw [bounds_concat hne, if_neg hb, List.append_nil]
    exact ⟨hbounds ▸ h.length, hbounds ▸ h.sums, hbounds ▸ h.currbeat,
      (lead_concat hne b).symm ▸ h.notesG, h.currnote⟩

/-- The invariant holds after the loop. -/
theorem walked_loop (hnotes : notes ≠ []) {b : ℕ} (hb : b = 0 ∨ b = 1) (beats : List ℕ) :
    Walked (b :: beats) notes quant (loop (b :: beats) notes quant) := by
  induction beats using List.reverseRecOn with
  | nil => exact walked_single hb
  | append_singleton beats b' ih =>
    have hloop : loop (b :: (beats ++ [b'])) notes quant =
        turn notes quant (loop (b :: beats) notes quant) b' ((b :: beats).length + 1) := by
      rw [loop, List.tail_cons, List.zipIdx_append, List.foldl_append]
      show turn notes quant _ b' (2 + beats.length) = _
      rw [List.length_cons, Nat.add_comm 2]
      rfl
    rw [hloop]
    exact walked_turn hnotes (List.cons_ne_nil b beats) ih b'

/-- All notes of a non-empty list. -/
theorem nthNote_eq (hnotes : notes ≠ []) (k : ℕ) : ∃ v, notes[k % notes.length]? = some v :=
  ⟨_, List.getElem?_eq_getElem (Nat.mod_lt k (List.length_pos_iff.mpr hnotes))⟩

theorem flatMap_nthNote (hnotes : notes ≠ []) (d : ℕ) :
    ((List.range d).flatMap (nthNote notes)).length = d ∧
      ∀ k < d, ((List.range d).flatMap (nthNote notes))[k]? =
        notes[k % notes.length]?.map Note.note := by
  induction d with
  | zero => exact ⟨rfl, by simp⟩
  | succ d ih =>
    obtain ⟨v, hv⟩ := nthNote_eq hnotes d
    have hone : nthNote notes d = [Note.note v] := by rw [nthNote, hv]; rfl
    rw [List.range_succ, List.flatMap_append, List.flatMap_singleton, hone]
    refine ⟨by rw [List.length_append, ih.1]; rfl, fun k hk => ?_⟩
    by_cases hlt : k < d
    · rw [List.getElem?_append_left (by rw [ih.1]; exact hlt), ih.2 k hlt]
    · obtain rfl : k = d := by omega
      have hlen := ih.1
      rw [List.getElem?_append_right hlen.le, hlen, Nat.sub_self, hv]
      rfl

/-- The notes are a rest, if the pattern starts with one, and the notes of the onsets. -/
theorem notes_DursAndNotes (hnotes : notes ≠ []) {beats : List ℕ} {quant : Option ℚ}
    {l : Locals α} (hl : loop beats notes (quant.getD (1 / 4)) = l)
    (h : Walked beats notes (quant.getD (1 / 4)) l) :
    (DursAndNotes beats notes quant).2 = List.replicate (lead beats) Note.REST ++
      (List.range (l.beatsG.length + 1 - lead beats)).flatMap (nthNote notes) := by
  rw [DursAndNotes]
  simp only [hl]
  by_cases hrest : beats.head? = some 0
  · rw [if_neg (not_not.mpr hrest), h.notesG, lead, if_pos hrest, Nat.add_sub_cancel]
  · rw [if_pos hrest, putNote, h.notesG, h.currnote, WrapAtSimple_succ hnotes, lead, if_neg hrest,
      Nat.sub_zero, List.range_succ, List.flatMap_append, List.append_assoc]
    simp [nthNote]

/-- The notes start with a rest if the pattern does. -/
theorem head_notes (hnotes : notes ≠ []) (beats : List ℕ) {d : ℕ} (hd : 1 ≤ lead beats + d) :
    (List.replicate (lead beats) Note.REST ++ (List.range d).flatMap (nthNote notes)).head? =
      some Note.REST ↔ beats.head? = some 0 := by
  by_cases hrest : beats.head? = some 0
  · rw [lead, if_pos hrest]
    exact iff_of_true rfl hrest
  · have hzero : lead beats = 0 := by rw [lead, if_neg hrest]
    obtain ⟨v, hv⟩ := nthNote_eq hnotes 0
    have hfirst := (flatMap_nthNote hnotes d).2 0 (by omega)
    rw [hv] at hfirst
    rw [hzero, List.replicate_zero, List.nil_append, List.head?_eq_getElem?, hfirst]
    apply iff_of_false
    · intro heq
      cases heq
    · exact hrest

/-- **Durations and notes** fit each other and the pattern. -/
theorem aligned_DursAndNotes {beats : List ℕ} (hne : beats ≠ [])
    (hbeats : ∀ b ∈ beats, b = 0 ∨ b = 1) (hnotes : notes ≠ []) (quant : Option ℚ) :
    Aligned beats notes (quant.getD (1 / 4)) (DursAndNotes beats notes quant) := by
  obtain ⟨b, bs, rfl⟩ := List.exists_cons_of_ne_nil hne
  have h : Walked (b :: bs) notes (quant.getD (1 / 4)) (loop (b :: bs) notes (quant.getD (1 / 4))) :=
    walked_loop hnotes (hbeats b (List.mem_cons_self ..)) bs
  generalize hl : loop (b :: bs) notes (quant.getD (1 / 4)) = l at h
  generalize hbs : b :: bs = beats at hl h ⊢
  have hdurs : (DursAndNotes beats notes quant).1 =
      l.beatsG ++ [((beats.length + 1 : ℚ) - l.currbeat) * quant.getD (1 / 4)] := by
    rw [DursAndNotes]
    simp only [hl]
  have hlist := notes_DursAndNotes hnotes hl h
  have hlead : lead beats ≤ 1 := by
    rw [lead]
    split <;> omega
  obtain ⟨hlen, hget⟩ := flatMap_nthNote hnotes (l.beatsG.length + 1 - lead beats)
  obtain ⟨hlast, hpos⟩ := h.currbeat
  refine ⟨?_, ?_, fun k i hk => ?_, ?_⟩
  · -- a note for each onset, and the rest, as many as durations
    rw [hdurs, hlist, List.length_append, List.length_append, hlen, List.length_replicate,
      List.length_singleton]
    omega
  · have hsum := h.sums _ _ hlast
    rw [List.take_length] at hsum
    rw [hdurs, List.sum_append, List.sum_singleton, hsum, Nat.cast_sub hpos]
    push_cast
    ring
  · -- the entry of the onset begins at its bound
    have hbound : (bounds beats)[k + lead beats]? = some i := by
      rw [bounds, List.getElem?_append_right (by rw [List.length_replicate]; omega),
        List.length_replicate, Nat.add_sub_cancel, hk]
    have hlt := (List.getElem?_eq_some_iff.mp hbound).1
    rw [h.length] at hlt
    constructor
    · rw [hdurs, List.take_append_of_le_length (by omega)]
      exact h.sums _ _ hbound
    · rw [hlist, List.getElem?_append_right (by rw [List.length_replicate]; omega),
        List.length_replicate, Nat.add_sub_cancel]
      exact hget k (by omega)
  · rw [hlist]
    exact head_notes hnotes beats (by omega)

example : DursAndNotes [0, 1, 0, 0, 1, 0, 0, 0] [23, 24] none =
    ([1 / 4, 3 / 4, 1], [.REST, .note 23, .note 24]) := by
  decide +kernel

/-- A pattern that starts with an onset, and has more onsets than there are notes. -/
theorem aligned_DursAndNotes_wrap : Aligned [1, 1, 0, 1] [60, 62] 1
    (DursAndNotes [1, 1, 0, 1] [60, 62] (some 1)) :=
  aligned_DursAndNotes (List.cons_ne_nil _ _) (by decide) (List.cons_ne_nil _ _) (some 1)

end Lua2SC.Rhythm
