import Lua2SC.Lib.Interpolation
import Lua2SC.Lib.LuaOrder

/-!
# `utilsstream.lua`, `playersppq.lua`: degrees and notes

`getNote` gives the note of a degree of a scale: the degrees count on over the octaves, and
between two degrees the notes are on a line. `getDegree` gives the degree of a note. It finds
the octave by division, and then the two degrees of the scale it is between by going through
the scale; above the last it takes the first of the next octave.

For a scale that goes up and stays within an octave the notes of the whole degrees, `note`,
are an increasing sequence over the integers, and both functions are on its lines.

Numbers are exact. `REST` and `NOP` are left out, and a scale is given as a table.
-/

namespace Lua2SC.Degrees

open Lua2SC.Lua Lua2SC.Interpolation

/-- `t[x]`. -/
def index (t : List ℚ) (x : ℚ) : LuaM ℚ :=
  if x = ⌊x⌋ ∧ 1 ≤ x then
    match t[⌊x⌋.toNat - 1]? with
    | none => .error "attempt to perform arithmetic on a nil value"
    | some v => .ok v
  else .error "attempt to perform arithmetic on a nil value"

/-! ## `getNote` -/

/-- The branch of `getNote` for a whole degree. -/
def getWholeNote (nv : ℚ) (mode_notes : List ℚ) : LuaM ℚ := do
  let nv := nv - 1
  let nota := mod nv mode_notes.length
  let octava := ⌊nv / mode_notes.length⌋
  let v ← index mode_notes (nota + 1)
  .ok (v + octava * 12)

def getNote (nv : ℚ) (mode_notes : List ℚ) : LuaM ℚ :=
  if ⌊nv⌋ ≠ nv then do
    let nota1 ← getWholeNote ⌊nv⌋ mode_notes
    let nota2 ← getWholeNote ⌊nv + 1⌋ mode_notes
    .ok (nota1 + (nota2 - nota1) * mod nv 1)
  else getWholeNote nv mode_notes

/-! ## `getDegree` -/

def linearmap (s e ds de v : ℚ) : ℚ := (de - ds) * (v - s) / (e - s) + ds

/-- The degree on the line from the note `prev` before place `i` to `e`. -/
def onLine (prev : Option ℚ) (e : ℚ) (i : ℕ) (scnote : ℚ) : LuaM ℚ :=
  match prev with
  | none => .error "attempt to perform arithmetic on a nil value"
  | some s => .ok (linearmap s e (i - 1) i scnote)

/-- The loop of `getDegreeO` from place `i` on, behind the note `prev`, and what follows it. -/
def degreeFrom (scale1 scnote : ℚ) : Option ℚ → ℕ → List ℚ → LuaM ℚ
  | prev, i, [] => onLine prev (12 + scale1) i scnote
  | prev, i, v :: scale =>
    if v = scnote then .ok i
    else if v > scnote then onLine prev v i scnote
    else degreeFrom scale1 scnote (some v) (i + 1) scale

/-- The degree in its octave, and the octave. -/
def getDegreeO (nt : ℚ) (scale : List ℚ) : LuaM (ℚ × ℤ) := do
  let scale1 ← index scale 1
  let nt2 := nt - scale1
  let octave := ⌊nt2 / 12⌋
  let scnote := mod nt2 12 + scale1
  let deg ← degreeFrom scale1 scnote none 1 scale
  .ok (deg, octave)

def getDegree (nt : ℚ) (scale : List ℚ) : LuaM ℚ := do
  let (deg, oct) ← getDegreeO nt scale
  .ok (deg + oct * scale.length)

/-! ## The notes of the degrees -/

/-- The note of a whole degree. -/
def note (scale : List ℚ) (k : ℤ) : ℚ :=
  scale.getD ((k - 1) % scale.length).toNat 0 + ((k - 1) / scale.length : ℤ) * 12

section Note

variable {scale : List ℚ} (hne : scale ≠ [])

include hne

theorem length_pos : (0 : ℤ) < scale.length :=
  Int.natCast_pos.mpr (List.length_pos_iff.mpr hne)

/-- In octave `o` the note of place `j`. -/
theorem note_eq {j : ℕ} (hj : j < scale.length) (o : ℤ) :
    note scale (j + 1 + o * scale.length) = scale[j] + o * 12 := by
  have hmod : ((j + 1 + o * scale.length - 1 : ℤ) % scale.length) = j := by
    rw [show (j + 1 + o * scale.length - 1 : ℤ) = j + o * scale.length by ring,
      Int.add_mul_emod_self_right, Int.emod_eq_of_lt (by omega) (by omega)]
  have hdiv : ((j + 1 + o * scale.length - 1 : ℤ) / scale.length) = o := by
    rw [show (j + 1 + o * scale.length - 1 : ℤ) = j + o * scale.length by ring,
      Int.add_mul_ediv_right _ _ (length_pos hne).ne', Int.ediv_eq_zero_of_lt (by omega) (by omega),
      zero_add]
  rw [note, hmod, hdiv, Int.toNat_natCast, List.getD_eq_getElem _ _ hj]

/-- Every degree has a place and an octave. -/
theorem exists_place (k : ℤ) :
    ∃ (j : ℕ) (o : ℤ), j < scale.length ∧ k = j + 1 + o * scale.length := by
  have hn := length_pos hne
  have hlt := Int.emod_lt_of_pos (k - 1) hn
  have hnonneg := Int.emod_nonneg (k - 1) hn.ne'
  refine ⟨((k - 1) % scale.length).toNat, (k - 1) / scale.length, by omega, ?_⟩
  rw [Int.toNat_of_nonneg hnonneg]
  have hsplit := Int.emod_add_mul_ediv (k - 1) scale.length
  linarith

/-- An octave up, twelve more. -/
theorem note_periodic : Periodic (note scale) scale.length 12 := by
  intro k
  obtain ⟨j, o, hj, rfl⟩ := exists_place hne k
  rw [show (j + 1 + o * scale.length + scale.length : ℤ) = j + 1 + (o + 1) * scale.length by ring,
    note_eq hne hj, note_eq hne hj]
  push_cast
  ring

/-- The next degree has the next note of the scale, and the last is followed by the first of the
next octave. -/
theorem note_next {j : ℕ} (hj : j < scale.length) (o : ℤ) :
    ∃ v, (scale ++ [12 + scale.head hne])[j + 1]? = some v ∧
      note scale (j + 1 + o * scale.length + 1) = v + o * 12 := by
  by_cases hlast : j + 1 < scale.length
  · refine ⟨scale[j + 1], ?_, ?_⟩
    · rw [List.getElem?_append_left hlast, List.getElem?_eq_getElem hlast]
    · have hstep : (j + 1 + o * scale.length + 1 : ℤ) = (j + 1 : ℕ) + 1 + o * scale.length := by
        push_cast
        ring
      rw [hstep, note_eq hne hlast]
  · have hlen : scale.length = j + 1 := by omega
    have hpos : 0 < scale.length := by omega
    refine ⟨12 + scale.head hne, ?_, ?_⟩
    · rw [← hlen, List.getElem?_concat_length]
    · -- in degrees of the scale this is place 0, an octave up
      have hstep : (j + 1 + o * scale.length + 1 : ℤ) =
          (0 : ℕ) + 1 + (o + 1) * scale.length := by
        rw [hlen]
        push_cast
        ring
      rw [hstep, note_eq hne hpos, List.head_eq_getElem]
      push_cast
      ring

/-- A scale within an octave goes up from degree to degree. -/
theorem note_strictMono (hup : scale.Pairwise (· < ·))
    (hspan : ∀ v ∈ scale, v < scale.head hne + 12) : StrictMono (note scale) := by
  refine strictMono_int_of_lt_succ fun k => ?_
  obtain ⟨j, o, hj, rfl⟩ := exists_place hne k
  obtain ⟨v, hv, hnext⟩ := note_next hne hj o
  rw [note_eq hne hj, hnext]
  have hlt : scale[j] < v := by
    by_cases hlast : j + 1 < scale.length
    · rw [List.getElem?_append_left hlast, List.getElem?_eq_getElem hlast] at hv
      rw [← Option.some.inj hv]
      exact List.pairwise_iff_getElem.mp hup j (j + 1) hj hlast (Nat.lt_succ_self j)
    · rw [show j + 1 = scale.length by omega, List.getElem?_concat_length] at hv
      rw [← Option.some.inj hv, add_comm]
      exact hspan scale[j] (List.getElem_mem hj)
  linarith

end Note

/-! ## What the two compute -/

theorem index_natCast {t : List ℚ} {j : ℕ} (hj : j < t.length) :
    index t (j + 1) = .ok t[j] := by
  have hfloor : ⌊(j : ℚ) + 1⌋ = j + 1 := by
    rw [Int.floor_add_one, Int.floor_natCast]
  rw [index, hfloor, if_pos ⟨by push_cast; ring, by linarith [j.cast_nonneg (α := ℚ)]⟩]
  have hsub : ((j : ℤ) + 1).toNat - 1 = j := by omega
  rw [hsub, List.getElem?_eq_getElem hj]

theorem getWholeNote_eq {scale : List ℚ} (hne : scale ≠ []) (k : ℤ) :
    getWholeNote k scale = .ok (note scale k) := by
  obtain ⟨j, o, hj, rfl⟩ := exists_place hne k
  have hn : (0 : ℚ) < scale.length := Nat.cast_pos.mpr (List.length_pos_iff.mpr hne)
  have hfloor : ⌊(((j + 1 + o * scale.length : ℤ) : ℚ) - 1) / scale.length⌋ = o := by
    rw [Int.floor_eq_iff, le_div_iff₀ hn, div_lt_iff₀ hn]
    have hj' : (j : ℚ) + 1 ≤ scale.length := by exact_mod_cast hj
    push_cast
    constructor
    · linarith [j.cast_nonneg (α := ℚ)]
    · linarith
  have hmod : mod (((j + 1 + o * scale.length : ℤ) : ℚ) - 1) scale.length = j := by
    rw [mod, hfloor]
    push_cast
    ring
  rw [getWholeNote]
  simp only [hfloor, hmod, index_natCast hj, ok_bind, note_eq hne hj]

/-- The note is on the lines. -/
theorem getNote_eq {scale : List ℚ} (hne : scale ≠ []) (nv : ℚ) :
    getNote nv scale = .ok (interpolate (note scale) nv) := by
  have hfract : mod nv 1 = Int.fract nv := by
    rw [mod, div_one, mul_one, Int.self_sub_floor]
  by_cases hwhole : (⌊nv⌋ : ℚ) = nv
  · rw [getNote, if_neg (not_not.mpr hwhole), ← hwhole, getWholeNote_eq hne, interpolate_intCast]
  · rw [getNote, if_pos hwhole, getWholeNote_eq hne, getWholeNote_eq hne, ok_bind, ok_bind, hfract,
      Int.floor_add_one]
    rfl

/-- The loop passes over the notes below. -/
theorem degreeFrom_append {scale1 scnote : ℚ} {pre : List ℚ} (hpre : ∀ v ∈ pre, v < scnote)
    (prev : Option ℚ) (i : ℕ) (rest : List ℚ) :
    degreeFrom scale1 scnote prev i (pre ++ rest) =
      degreeFrom scale1 scnote (pre.getLast?.or prev) (i + pre.length) rest := by
  induction pre generalizing prev i with
  | nil => rfl
  | cons v pre ih =>
    have hv := hpre v (List.mem_cons_self ..)
    have hlast : (v :: pre).getLast?.or prev = pre.getLast?.or (some v) := by
      rw [List.getLast?_cons]
      cases pre.getLast? <;> rfl
    rw [List.cons_append, degreeFrom, if_neg hv.ne, if_neg (not_lt.mpr hv.le),
      ih fun w hw => hpre w (List.mem_cons_of_mem _ hw), hlast, List.length_cons]
    congr 1
    omega

section Degree

variable {scale : List ℚ} (hne : scale ≠ []) (hup : scale.Pairwise (· < ·))

include hup

/-- What the loop finds between two notes of the scale, `12 + scale[1]` after the last. -/
theorem degreeFrom_eq (scale1 : ℚ) {scnote : ℚ} {j : ℕ} (hj : j < scale.length)
    (hlo : scale[j] ≤ scnote)
    (hhi : ∀ v ∈ (scale ++ [12 + scale1])[j + 1]?, scnote < v) :
    ∃ v ∈ (scale ++ [12 + scale1])[j + 1]?, degreeFrom scale1 scnote none 1 scale =
      .ok (j + 1 + (scnote - scale[j]) / (v - scale[j])) := by
  have hsplit : scale = scale.take j ++ scale[j] :: scale.drop (j + 1) := by
    rw [← List.drop_eq_getElem_cons hj, List.take_append_drop]
  have hbelow : ∀ v ∈ scale.take j, v < scnote := by
    intro v hv
    obtain ⟨i, hi, rfl⟩ := List.mem_iff_getElem.mp hv
    rw [List.length_take] at hi
    rw [List.getElem_take]
    exact (List.pairwise_iff_getElem.mp hup i j (by omega) hj (by omega)).trans_le hlo
  have hstart : degreeFrom scale1 scnote none 1 scale =
      degreeFrom scale1 scnote ((scale.take j).getLast?.or none) (1 + j)
        (scale[j] :: scale.drop (j + 1)) := by
    conv_lhs => rw [hsplit]
    rw [degreeFrom_append hbelow, List.length_take, Nat.min_eq_left hj.le]
  have hnext : ∃ v, (scale ++ [12 + scale1])[j + 1]? = some v := by
    have hlt : j + 1 < (scale ++ [12 + scale1]).length := by
      rw [List.length_append, List.length_singleton]
      omega
    exact ⟨_, List.getElem?_eq_getElem hlt⟩
  obtain ⟨v, hv⟩ := hnext
  refine ⟨v, hv, ?_⟩
  rw [hstart, degreeFrom]
  by_cases heq : scale[j] = scnote
  · rw [if_pos heq, heq, sub_self, zero_div, add_zero]
    push_cast
    rw [add_comm]
  · -- past the note, and below the next
    rw [if_neg heq, if_neg (not_lt.mpr hlo)]
    have hlt := hhi v hv
    have hline : linearmap scale[j] v ((1 + j + 1 : ℕ) - 1) (1 + j + 1 : ℕ) scnote =
        j + 1 + (scnote - scale[j]) / (v - scale[j]) := by
      rw [linearmap]
      push_cast
      ring
    cases hdrop : scale.drop (j + 1) with
    | nil =>
      have hlast : scale.length = j + 1 := by
        have hlen := List.drop_eq_nil_iff.mp hdrop
        omega
      have hv' : v = 12 + scale1 := by
        rw [← hlast, List.getElem?_concat_length] at hv
        exact (Option.some.inj hv).symm
      rw [degreeFrom, onLine, ← hline, hv']
    | cons w rest =>
      have hw : v = w := by
        have hjlt : j + 1 < scale.length := by
          by_contra hge
          rw [List.drop_eq_nil_iff.mpr (by omega)] at hdrop
          cases hdrop
        rw [List.getElem?_append_left hjlt] at hv
        have hhead := congrArg List.head? hdrop
        rw [List.head?_drop, hv] at hhead
        exact Option.some.inj hhead
      rw [degreeFrom, if_neg (hw ▸ hlt.ne'), if_pos (show w > scnote from hw ▸ hlt), onLine,
        ← hline, hw]

include hne

/-- **The degree** of a note between two degrees is on their line. -/
theorem getDegree_eq (hspan : ∀ v ∈ scale, v < scale.head hne + 12) {k : ℤ} {nt : ℚ}
    (hlo : note scale k ≤ nt) (hhi : nt < note scale (k + 1)) :
    getDegree nt scale = .ok (degreeAt (note scale) k nt) := by
  obtain ⟨j, o, hj, rfl⟩ := exists_place hne k
  have hpos : 0 < scale.length := List.length_pos_iff.mpr hne
  have hhead : scale.head hne = scale[0] := List.head_eq_getElem hne
  rw [note_eq hne hj] at hlo
  obtain ⟨v, hv, hvnote⟩ := note_next hne hj o
  have hvle : v ≤ 12 + scale.head hne := by
    rcases List.mem_append.mp (List.mem_of_getElem? hv) with hmem | hlast
    · have hlt := hspan v hmem
      linarith
    · exact (List.mem_singleton.mp hlast).le
  rw [hhead] at hv hvle
  have hfirst : scale[0] ≤ scale[j] := by
    rcases Nat.eq_zero_or_pos j with rfl | hjpos
    · exact le_rfl
    · exact (List.pairwise_iff_getElem.mp hup 0 j hpos hj hjpos).le
  rw [hvnote] at hhi
  -- the note is in octave `o`, so there the loop finds the degree
  have hoctave : ⌊(nt - scale[0]) / 12⌋ = o := by
    rw [Int.floor_eq_iff, le_div_iff₀ (by norm_num), div_lt_iff₀ (by norm_num)]
    constructor
    · linarith
    · linarith
  have hscnote : mod (nt - scale[0]) 12 + scale[0] = nt - o * 12 := by
    rw [mod, hoctave]
    ring
  have hindex : index scale 1 = .ok scale[0] := by
    have h := index_natCast hpos
    rwa [Nat.cast_zero, zero_add] at h
  have hfrom : scale[j] ≤ nt - o * 12 := by linarith
  obtain ⟨v', hv', hdeg⟩ := degreeFrom_eq hup scale[0] hj hfrom fun w hw => by
    rw [← Option.some.inj (hv.symm.trans hw)]
    linarith
  obtain rfl : v = v' := Option.some.inj (hv.symm.trans hv')
  rw [getDegree, getDegreeO, hindex, ok_bind]
  simp only [hoctave, hscnote, hdeg, ok_bind]
  rw [degreeAt, hvnote, note_eq hne hj]
  push_cast
  have hnum : nt - o * 12 - scale[j] = nt - (scale[j] + o * 12) := by ring
  have hden : v + o * 12 - (scale[j] + o * 12) = v - scale[j] := by ring
  rw [hnum, hden]
  congr 1
  ring

/-- **Degrees and notes** of a scale within an octave undo each other. -/
theorem degree_note_inverse (hspan : ∀ v ∈ scale, v < scale.head hne + 12) :
    (∀ degree : ℚ, (do
      let nt ← getNote degree scale
      getDegree nt scale) = .ok degree) ∧
    ∀ nt : ℚ, (do
      let degree ← getDegree nt scale
      getNote degree scale) = .ok nt := by
  have hmono := note_strictMono hne hup hspan
  constructor
  · intro degree
    obtain ⟨hlo, hhi⟩ := interpolate_mem hmono degree
    rw [getNote_eq hne, ok_bind, getDegree_eq hne hup hspan hlo hhi, degreeAt_interpolate hmono]
  · intro nt
    obtain ⟨k, hlo, hhi⟩ := (note_periodic hne).exists_step hmono (by norm_num) nt
    rw [getDegree_eq hne hup hspan hlo hhi, ok_bind, getNote_eq hne,
      interpolate_degreeAt hmono hlo hhi]

end Degree

/-- Two notes with 3/2 between them. -/
theorem degree_note_inverse_two :
    (∀ degree : ℚ, (do
      let nt ← getNote degree [1, 5 / 2]
      getDegree nt [1, 5 / 2]) = .ok degree) ∧
    ∀ nt : ℚ, (do
      let degree ← getDegree nt [1, 5 / 2]
      getNote degree [1, 5 / 2]) = .ok nt :=
  degree_note_inverse (List.cons_ne_nil _ _) (by norm_num) (by norm_num)

example : getNote (-1 / 2) [0, 4, 7] = .ok (-13 / 2) := by decide +kernel

example : getDegree (-13 / 2) [0, 4, 7] = .ok (-1 / 2) := by decide +kernel

end Lua2SC.Degrees
