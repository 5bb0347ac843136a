import Lua2SC.Lib.Lua

/-!
# `lilypond.lua`: `calcduration`

A length of time is written behind a note of the score. Up to a bar of four beats it is one
duration, 4 for a quarter note, found by dividing; a longer one is written as bars tied to
what is left over. `durs` has the one entry for a triplet.

The division is rounded down, so of the lengths that are no plain note value each is written
as something longer, or as a number that is no duration at all. `lasts_iff` says which
multiples of a sixteenth of a beat come out right. The triplet is one of the others: `durs`
is asked with the rounded number.

The score is a list of items; a text put in front of a note is kept as a `Mark`.
-/

namespace Lua2SC.Lily

open Lua2SC.Lua

/-- What is put in front of the text of a note. -/
inductive Mark where
  | tie
  | tuplet
deriving DecidableEq

def Mark.text : Mark → String
  | .tie => "~"
  | .tuplet => "\\tuplet 3/2 "

/-- An item of the score: a note with its marks, or a duration. -/
inductive Item where
  | note (marks : List Mark) (text : String)
  | dur (n : ℤ)
deriving DecidableEq

/-- `m..item`; a number becomes a text. -/
def mark (m : Mark) : Item → Item
  | .note marks text => .note (m :: marks) text
  | .dur n => .note [m] (toString n)

/-- `durs[dura]`. -/
def durs (dura : ℤ) : Option (Mark × ℤ) := if dura = 12 then some (.tuplet, 8) else none

/-- The loop over the bars. -/
def writeBars (laststr : Item) : ℕ → List Item → List Item
  | 0, score => score
  | bars + 1, score => writeBars laststr bars (score ++ [.dur 1, mark .tie laststr])

/-- `calcduration`, with the score it leaves. -/
def calcduration (score : List Item) (beatLen : ℚ) : LuaM (List Item) :=
  match score.getLast? with
  | none => .error "attempt to concatenate a nil value"
  | some laststr =>
    if beatLen ≤ 4 then
      let dura := ⌊4 / beatLen⌋
      match durs dura with
      | some (before, n) => .ok (score.dropLast ++ [mark before laststr, .dur n])
      | none => .ok (score ++ [.dur dura])
    else
      let bars := ⌊beatLen / 4⌋
      let score := writeBars laststr bars.toNat score
      let rest := beatLen - bars * 4
      if rest > 0 then .ok (score ++ [.dur ⌊4 / rest⌋])
      else .ok score.dropLast -- undo

/-! ## What is written -/

/-- LilyPond's durations are the powers of two. -/
def IsDuration (n : ℤ) : Prop := n = 2 ^ n.toNat.log2

instance (n : ℤ) : Decidable (IsDuration n) := by
  unfold IsDuration
  infer_instance

/-- How much of its duration a note lasts: two thirds in a triplet. -/
def scale (marks : List Mark) : ℚ := (2 / 3) ^ marks.count .tuplet

/-- How many quarter notes a list of notes and durations lasts, if that is what it is. -/
def quarters : List Item → Option ℚ
  | [] => some 0
  | .note marks _ :: .dur n :: rest =>
    if IsDuration n then (quarters rest).map fun q => scale marks * (4 / n) + q else none
  | _ => none

/-- Behind a note the length is written as notes and durations that last as long. -/
def Lasts (beatLen : ℚ) : Prop :=
  ∀ (score : List Item) (text : String), ∃ written,
    calcduration (score ++ [.note [] text]) beatLen = .ok (score ++ written) ∧
      quarters written = some beatLen

/-- Notes of a bar tied to what comes next. -/
def tied (text : String) (bars : ℕ) : List Item :=
  (List.replicate bars [Item.dur 1, .note [.tie] text]).flatten

theorem writeBars_eq (text : String) (bars : ℕ) (score : List Item) :
    writeBars (Item.note [] text) bars score = score ++ tied text bars := by
  induction bars generalizing score with
  | zero => exact (List.append_nil score).symm
  | succ bars ih =>
    rw [writeBars, ih, List.append_assoc]
    rfl

theorem tied_succ (text : String) (bars : ℕ) :
    tied text (bars + 1) = tied text bars ++ [Item.dur 1, .note [.tie] text] := by
  rw [tied, List.replicate_succ', List.flatten_append]
  simp [tied]

/-- The bars and what is left over. -/
theorem quarters_tied (text : String) (n : ℤ) (bars : ℕ) {marks : List Mark}
    (hmarks : scale marks = 1) :
    quarters (.note marks text :: (tied text bars ++ [Item.dur n])) =
      if IsDuration n then some (bars * 4 + 4 / n : ℚ) else none := by
  induction bars generalizing marks with
  | zero =>
    show quarters [.note marks text, .dur n] = _
    simp only [quarters, Option.map_some, hmarks]
    split
    next => congr 1; push_cast; ring
    next => rfl
  | succ bars ih =>
    have htie : scale [.tie] = 1 := pow_zero _
    show quarters (.note marks text :: .dur 1 :: .note [.tie] text ::
      (tied text bars ++ [Item.dur n])) = _
    rw [quarters, if_pos (by decide), ih htie, hmarks]
    split
    next =>
      rw [Option.map_some]
      congr 1
      push_cast
      ring
    next => rfl

/-! ## Sixteenths -/

/-- A sixteenth of a beat is a 64th note, so `k` of them are written as `64 / k`. -/
theorem floor_sixteenths (k : ℕ) : ⌊4 / ((k : ℚ) / 16)⌋ = ((64 / k : ℕ) : ℤ) := by
  have hdiv : 4 / ((k : ℚ) / 16) = ((64 : ℤ) : ℚ) / k := by
    rw [div_div_eq_mul_div]
    norm_num
  rw [hdiv, Rat.floor_intCast_div_natCast]
  rfl

/-- Below a bar the division is exact for the plain note values. -/
theorem exact_iff {r : ℕ} (hpos : 0 < r) (hlt : r ≤ 64) :
    (IsDuration ((64 / r : ℕ) : ℤ) ∧ (4 : ℚ) / ((64 / r : ℕ) : ℤ) = r / 16) ↔ r ∣ 64 := by
  have hdur : ∀ r ≤ 64, 0 < r → r ∣ 64 → IsDuration ((64 / r : ℕ) : ℤ) := by decide +kernel
  have hq : 0 < 64 / r := Nat.div_pos hlt hpos
  have hq' : (((64 / r : ℕ) : ℤ) : ℚ) ≠ 0 := by
    exact_mod_cast hq.ne'
  rw [div_eq_div_iff hq' (by norm_num)]
  constructor
  · rintro ⟨-, heq⟩
    have hmul : 64 = r * (64 / r) := by
      have hcast : ((4 * 16 : ℕ) : ℚ) = ((r * (64 / r) : ℕ) : ℚ) := by
        rw [Nat.cast_mul, Nat.cast_mul]
        exact heq
      exact Nat.cast_injective hcast
    exact ⟨_, hmul⟩
  · intro hdvd
    refine ⟨hdur r hlt hpos hdvd, ?_⟩
    have hmul : r * (64 / r) = 64 := Nat.mul_div_cancel' hdvd
    have hcast : (r : ℚ) * ((64 / r : ℕ) : ℤ) = 64 := by exact_mod_cast hmul
    rw [hcast]
    norm_num

/-- Up to a bar. -/
theorem calcduration_short {k : ℕ} (hle : k ≤ 64) (score : List Item)
    (text : String) :
    calcduration (score ++ [Item.note [] text]) ((k : ℚ) / 16) =
      .ok (score ++ if 64 / k = 12 then [Item.note [.tuplet] text, .dur 8]
        else [Item.note [] text, .dur (64 / k : ℕ)]) := by
  have hbar : (k : ℚ) / 16 ≤ 4 := by
    rw [div_le_iff₀ (by norm_num)]
    exact_mod_cast hle
  have hlast : (score ++ [Item.note [] text]).getLast? = some (Item.note [] text) := by simp
  rw [calcduration]
  simp only [hlast, if_pos hbar, floor_sixteenths, durs]
  by_cases htriplet : 64 / k = 12
  · rw [htriplet, if_pos rfl, List.dropLast_concat]
    rfl
  · have hne : ((64 / k : ℕ) : ℤ) ≠ 12 := fun h => htriplet (Int.natCast_inj.mp h)
    rw [if_neg htriplet, if_neg hne, List.append_assoc]
    rfl

/-- Over a bar: the bars and the rest. -/
theorem calcduration_long {k : ℕ} (hgt : 64 < k) (score : List Item) (text : String) :
    calcduration (score ++ [Item.note [] text]) ((k : ℚ) / 16) =
      .ok (score ++ Item.note [] text :: if k % 64 = 0 then tied text (k / 64 - 1) ++ [Item.dur 1]
        else tied text (k / 64) ++ [Item.dur (64 / (k % 64) : ℕ)]) := by
  have hbar : ¬ (k : ℚ) / 16 ≤ 4 := by
    rw [div_le_iff₀ (by norm_num), not_le]
    exact_mod_cast hgt
  have hbars : ⌊(k : ℚ) / 16 / 4⌋ = ((k / 64 : ℕ) : ℤ) := by
    rw [div_div, show (16 : ℚ) * 4 = ((64 : ℕ) : ℚ) by norm_num]
    exact Rat.floor_natCast_div_natCast k 64
  have hrest : (k : ℚ) / 16 - ((k / 64 : ℕ) : ℤ) * 4 = ((k % 64 : ℕ) : ℚ) / 16 := by
    have hsplit : ((k % 64 + 64 * (k / 64) : ℕ) : ℚ) = k := by rw [Nat.mod_add_div]
    rw [Nat.cast_add, Nat.cast_mul] at hsplit
    rw [← hsplit, Int.cast_natCast]
    push_cast
    ring
  have hlast : (score ++ [Item.note [] text]).getLast? = some (Item.note [] text) := by simp
  rw [calcduration]
  simp only [hlast, if_neg hbar, hbars, hrest, Int.toNat_natCast, writeBars_eq, floor_sixteenths]
  by_cases hzero : k % 64 = 0
  · -- no rest: the last tied note is taken back
    obtain ⟨bars, hsucc⟩ : ∃ bars, k / 64 = bars + 1 := ⟨k / 64 - 1, by omega⟩
    have hundo : score ++ [Item.note [] text] ++
          (tied text bars ++ [Item.dur 1, .note [.tie] text]) =
        (score ++ Item.note [] text :: (tied text bars ++ [Item.dur 1])) ++
          [.note [.tie] text] := by
      simp
    rw [hzero, hsucc, if_neg (by norm_num), if_pos rfl, tied_succ, hundo, List.dropLast_concat]
    rfl
  · have hpos : 0 < ((k % 64 : ℕ) : ℚ) / 16 :=
      div_pos (Nat.cast_pos.mpr (Nat.pos_of_ne_zero hzero)) (by norm_num)
    rw [if_pos hpos, if_neg hzero]
    simp

/-- What matters is what is written behind the score. -/
theorem lasts_iff_quarters {beatLen : ℚ} {written : String → List Item}
    (h : ∀ score text, calcduration (score ++ [Item.note [] text]) beatLen =
      .ok (score ++ written text)) :
    Lasts beatLen ↔ ∀ text, quarters (written text) = some beatLen := by
  constructor
  · intro hlasts text
    obtain ⟨w, hw, hq⟩ := hlasts [] text
    rw [h, Except.ok.injEq, List.append_cancel_left_eq] at hw
    rw [hw, hq]
  · intro hq score text
    exact ⟨written text, h score text, hq text⟩

/-- One duration, or bars and one more. -/
theorem quarters_eq_iff (text : String) {n r bars : ℕ} {beatLen : ℚ}
    (hlen : beatLen = bars * 4 + (r : ℚ) / 16) :
    quarters (Item.note [] text :: (tied text bars ++ [Item.dur n])) = some beatLen ↔
      IsDuration n ∧ (4 : ℚ) / (n : ℤ) = r / 16 := by
  rw [quarters_tied text n bars (pow_zero _), hlen]
  split
  next hdur => simp [hdur]
  next hdur => simp [hdur]

/-- Up to a bar. The only length written as a triplet is 5 sixteenths of a beat, and a triplet
eighth is a third of a beat. -/
theorem lasts_short_iff {k : ℕ} (hpos : 0 < k) (hle : k ≤ 64) : Lasts ((k : ℚ) / 16) ↔ k ∣ 64 := by
  rw [lasts_iff_quarters (calcduration_short hle)]
  by_cases htriplet : 64 / k = 12
  · have hk : k = 5 := by
      have hmul := Nat.div_add_mod 64 k
      have hlt := Nat.mod_lt 64 hpos
      rw [htriplet] at hmul
      omega
    subst hk
    apply iff_of_false
    · intro h
      have hq := h ""
      rw [if_pos htriplet, quarters, if_pos (by decide), quarters, Option.map_some,
        Option.some.injEq] at hq
      norm_num [scale] at hq
    · decide
  · have hlen : (k : ℚ) / 16 = (0 : ℕ) * 4 + (k : ℚ) / 16 := by
      rw [Nat.cast_zero, zero_mul, zero_add]
    simp only [if_neg htriplet]
    rw [← exact_iff hpos hle]
    constructor
    · intro h
      exact (quarters_eq_iff "" hlen).mp (h "")
    · intro h text
      exact (quarters_eq_iff text hlen).mpr h

/-- Over a bar. -/
theorem lasts_long_iff {k : ℕ} (hgt : 64 < k) :
    Lasts ((k : ℚ) / 16) ↔ k % 64 = 0 ∨ k % 64 ∣ 64 := by
  have hsplit : (k : ℚ) = (k % 64 : ℕ) + 64 * (k / 64 : ℕ) := by
    exact_mod_cast (Nat.mod_add_div k 64).symm
  rw [lasts_iff_quarters (calcduration_long hgt)]
  by_cases hzero : k % 64 = 0
  · -- the last bar is the duration at the end
    have hlen : (k : ℚ) / 16 = (k / 64 - 1 : ℕ) * 4 + ((64 : ℕ) : ℚ) / 16 := by
      rw [hsplit, hzero, Nat.cast_sub (show 1 ≤ k / 64 by omega)]
      push_cast
      ring
    simp only [if_pos hzero]
    apply iff_of_true
    · intro text
      exact (quarters_eq_iff text hlen (n := 1)).mpr ⟨by decide, by norm_num⟩
    · exact Or.inl hzero
  · have hlen : (k : ℚ) / 16 = (k / 64 : ℕ) * 4 + ((k % 64 : ℕ) : ℚ) / 16 := by
      rw [hsplit]
      ring
    simp only [if_neg hzero]
    rw [or_iff_right hzero, ← exact_iff (Nat.pos_of_ne_zero hzero) (show k % 64 ≤ 64 by omega)]
    constructor
    · intro h
      exact (quarters_eq_iff "" hlen).mp (h "")
    · intro h text
      exact (quarters_eq_iff text hlen).mpr h

/-- **Lengths** that come out right: nothing, or a plain note value, is left over beyond the
bars. -/
theorem lasts_iff {k : ℕ} (hpos : 0 < k) :
    Lasts ((k : ℚ) / 16) ↔ k % 64 = 0 ∨ k % 64 ∣ 64 := by
  rcases Nat.lt_trichotomy k 64 with hlt | rfl | hgt
  · rw [lasts_short_iff hpos hlt.le, Nat.mod_eq_of_lt hlt]
    exact (or_iff_right hpos.ne').symm
  · rw [lasts_short_iff hpos le_rfl]
    exact iff_of_true (dvd_refl 64) (Or.inl (Nat.mod_self 64))
  · exact lasts_long_iff hgt

/-- Two bars and a quarter note. -/
theorem lasts_nine_beats : Lasts (((144 : ℕ) : ℚ) / 16) :=
  (lasts_iff (by decide)).mpr (by decide)

/-- A dotted quarter note is written as a half note. -/
theorem lasts_dotted :
    calcduration [Item.note [] "c'"] (((24 : ℕ) : ℚ) / 16) = .ok [Item.note [] "c'", .dur 2] ∧
      ¬ Lasts (((24 : ℕ) : ℚ) / 16) := by
  have hwritten : calcduration [Item.note [] "c'"] (((24 : ℕ) : ℚ) / 16) =
      .ok [Item.note [] "c'", .dur 2] := by
    have h := calcduration_short (k := 24) (by decide) [] "c'"
    rw [if_neg (by decide)] at h
    exact h
  refine ⟨hwritten, ?_⟩
  rw [lasts_short_iff (by decide) (by decide)]
  decide

end Lua2SC.Lily
