import Lua2SC.Players.Degrees

/-!
# `scales.lua`, `TA.lua`: modes

`modal_scale(s, d)` is the scale on the degree `d` of `s`: the notes from `d` on, and those
before it an octave up, all less the note of `d`. It is put together with the arithmetic of
`TA`, tables that add and concatenate: the scale is rotated, the part that has come to the
front is moved down an octave, and the first note is subtracted from all.

So degree `i` of the mode is degree `d + i - 1` of the scale, seen from degree `d`, in every
octave (`getNote_modal_scale`).
-/

namespace Lua2SC.Modes

open Lua2SC.Lua Lua2SC.Degrees Lua2SC.Interpolation

/-! ## `TA.lua` -/

/-- An operand of the arithmetic. -/
inductive Operand where
  | table (t : List ℚ)
  | number (x : ℚ)

def len : Operand → ℕ
  | .table t => t.length
  | .number _ => 1

/-- `mod1(i,tlen)`: from 1 to `tlen`. -/
def mod1 (i : ℤ) (tlen : ℕ) : ℕ := if i % tlen ≠ 0 then (i % tlen).toNat else tlen

def WrapAt (t : Operand) (i : ℕ) : Option ℚ :=
  match t with
  | .table t => t[mod1 i t.length - 1]?
  | .number x => some x

/-- `addTables` and `mulTables`. -/
def zipTables (op : ℚ → ℚ → ℚ) (a b : Operand) : LuaM (List ℚ) :=
  (List.range (max (len a) (len b))).mapM fun k =>
    match WrapAt a (k + 1), WrapAt b (k + 1) with
    | some x, some y => .ok (op x y)
    | _, _ => .error "attempt to perform arithmetic on a nil value"

def addTables : Operand → Operand → LuaM (List ℚ) := zipTables (· + ·)
def mulTables : Operand → Operand → LuaM (List ℚ) := zipTables (· * ·)

/-- `-a`. -/
def unm : Operand → LuaM Operand
  | .number x => .ok (.number (-x))
  | .table t => do
    let res ← mulTables (.number (-1)) (.table t)
    .ok (.table res)

/-- `a - b`. -/
def sub (a b : Operand) : LuaM (List ℚ) := do
  let b ← unm b
  addTables a b

/-- `t(ini,ends)`. -/
def call (t : List ℚ) (ini ends : ℤ) : List ℚ :=
  let ends := if ends < 0 then t.length + ends + 1 else ends
  (List.range (ends - ini + 1).toNat).map fun k : ℕ =>
    if 1 ≤ ini + k then t.getD (ini + k - 1).toNat 0 else 0

/-- `t:rotate(delta)`: every place is set once. -/
def rotate (t : List ℚ) (delta : ℤ) : List ℚ :=
  (t.zipIdx 1).foldl (fun res p => res.set (mod1 (p.2 + delta) t.length - 1) p.1)
    (List.replicate t.length 0)

/-! ## `modal_scale` -/

def modal_scale (scale : List ℚ) (degree : ℤ) : LuaM (List ℚ) := do
  let delta := 1 - degree + scale.length
  let bb := rotate scale delta
  let low ← sub (.table (call bb 1 delta)) (.number 12)
  let bb := low ++ call bb (delta + 1) bb.length
  match bb.head? with
  | none => .error "attempt to perform arithmetic on a nil value"
  | some first => sub (.table bb) (.number first)

/-! ## The parts -/

theorem mod1_sub_one (i : ℤ) {n : ℕ} (hn : 0 < n) :
    ((mod1 i n - 1 : ℕ) : ℤ) = (i - 1) % n := by
  have hn' : (0 : ℤ) < n := by omega
  have hlt := Int.emod_lt_of_pos i hn'
  have hnonneg := Int.emod_nonneg i hn'.ne'
  rw [← Int.emod_sub_emod]
  unfold mod1
  generalize i % n = r at hlt hnonneg ⊢
  split
  next hne =>
    rw [Int.emod_eq_of_lt (by omega) (by omega)]
    omega
  next heq =>
    rw [not_not.mp heq, zero_sub, ← Int.add_emod_right, Int.emod_eq_of_lt (by omega) (by omega)]
    omega

/-- A table less a number. -/
theorem sub_number {t : List ℚ} (ht : t ≠ []) (x : ℚ) :
    sub (.table t) (.number x) = .ok (t.map fun v => v - x) := by
  have hpos : 0 < t.length := List.length_pos_iff.mpr ht
  have hmax : max (len (.table t)) (len (.number (-x))) = t.length := by
    rw [len, len]
    omega
  have hplace : ∀ k < t.length, WrapAt (.table t) (k + 1) = t[k]? := by
    intro k hk
    have hmod := mod1_sub_one (k + 1) hpos
    rw [add_sub_cancel_right, Int.emod_eq_of_lt (by omega) (by omega)] at hmod
    rw [WrapAt]
    congr 1
    exact_mod_cast hmod
  have hloop : zipTables (· + ·) (.table t) (.number (-x)) =
      .ok ((List.range t.length).map fun k => t.getD k 0 - x) := by
    rw [zipTables, hmax]
    refine mapM_ok fun k hk => ?_
    have hk := List.mem_range.mp hk
    have htable : WrapAt (.table t) (k + 1) = some t[k] := by
      rw [hplace k hk, List.getElem?_eq_getElem hk]
    have hnumber : WrapAt (.number (-x)) (k + 1) = some (-x) := rfl
    simp only [htable, hnumber]
    rw [List.getD_eq_getElem _ _ hk, sub_eq_add_neg]
  have hmap : ((List.range t.length).map fun k => t.getD k 0 - x) = t.map fun v => v - x := by
    refine List.ext_getElem (by simp) fun k _ hk => ?_
    rw [List.length_map] at hk
    rw [List.getElem_map, List.getElem_map, List.getElem_range, List.getD_eq_getElem _ _ hk]
  rw [sub, unm, ok_bind, addTables, hloop, hmap]

/-- A slice. -/
theorem call_eq {t : List ℚ} {a b : ℕ} (hab : a ≤ b) (hb : b ≤ t.length) :
    call t (a + 1) b = (t.drop a).take (b - a) := by
  have hcount : ((b : ℤ) - (a + 1) + 1).toNat = b - a := by omega
  rw [call, if_neg (by omega), hcount]
  refine List.ext_getElem ?_ fun k hk _ => ?_
  · rw [List.length_map, List.length_range, List.length_take, List.length_drop]
    omega
  · rw [List.length_map, List.length_range] at hk
    have hplace : ((a : ℤ) + 1 + k - 1).toNat = a + k := by omega
    have hlt : a + k < t.length := by omega
    simp only [List.getElem_map, List.getElem_range, List.getElem_take, List.getElem_drop, hplace]
    rw [if_pos (by omega), List.getD_eq_getElem _ _ hlt]

/-! ## Rotation -/

/-- Setting other places leaves a place alone. -/
theorem getElem?_foldl_set_ne {A B : Type*} {f : B → ℕ} {l : List (A × B)} {i : ℕ}
    (h : ∀ p ∈ l, f p.2 ≠ i) (res : List A) :
    (l.foldl (fun res p => res.set (f p.2) p.1) res)[i]? = res[i]? := by
  induction l generalizing res with
  | nil => rfl
  | cons p l ih =>
    rw [List.foldl_cons, ih fun q hq => h q (List.mem_cons_of_mem _ hq),
      List.getElem?_set_ne (h p (List.mem_cons_self ..))]

/-- When all places are different each has what it is set to. -/
theorem getElem?_foldl_set {A B : Type*} {f : B → ℕ} {l : List (A × B)}
    (hnd : (l.map fun p => f p.2).Nodup) {p : A × B} (hp : p ∈ l) {res : List A}
    (hlt : f p.2 < res.length) :
    (l.foldl (fun res p => res.set (f p.2) p.1) res)[f p.2]? = some p.1 := by
  induction l generalizing res with
  | nil => cases hp
  | cons q l ih =>
    rw [List.map_cons, List.nodup_cons] at hnd
    rw [List.foldl_cons]
    rcases List.mem_cons.mp hp with rfl | hp
    · have hrest : ∀ q ∈ l, f q.2 ≠ f p.2 := fun q hq heq =>
        hnd.1 (List.mem_map.mpr ⟨q, hq, heq⟩)
      rw [getElem?_foldl_set_ne hrest, List.getElem?_set_self hlt]
    · exact ih hnd.2 hp (by rwa [List.length_set])

theorem length_foldl_set {A B : Type*} {f : B → ℕ} (l : List (A × B)) (res : List A) :
    (l.foldl (fun res p => res.set (f p.2) p.1) res).length = res.length := by
  induction l generalizing res with
  | nil => rfl
  | cons p l ih => rw [List.foldl_cons, ih, List.length_set]

section Places

variable {n d : ℕ} (hd : d < n)

include hd

/-- Where a rotation by all but `d` of `n` places takes a place. -/
theorem mod1_rotate (i : ℕ) :
    ((mod1 ((i + 1 : ℕ) + (n - d : ℤ)) n - 1 : ℕ) : ℤ) = (i - d) % n := by
  rw [mod1_sub_one _ (by omega)]
  push_cast
  rw [show (i + 1 + (n - d) - 1 : ℤ) = i - d + n by ring, Int.add_emod_right]

theorem mod1_rotate_inj {i j : ℕ} (hi : i < n) (hj : j < n)
    (h : mod1 ((i + 1 : ℕ) + (n - d : ℤ)) n - 1 = mod1 ((j + 1 : ℕ) + (n - d : ℤ)) n - 1) :
    i = j := by
  have hmod : ((i : ℤ) - d) % n = (j - d) % n := by
    rw [← mod1_rotate hd i, ← mod1_rotate hd j, h]
  have hsame : ((i : ℤ) - d + d) % n = (j - d + d) % n := by
    rw [Int.add_emod, hmod, ← Int.add_emod]
  rw [sub_add_cancel, sub_add_cancel, Int.emod_eq_of_lt (by omega) (by omega),
    Int.emod_eq_of_lt (by omega) (by omega)] at hsame
  exact_mod_cast hsame

/-- What comes to place `j` was `d` places further. -/
theorem mod1_rotate_back {j : ℕ} (hj : j < n) :
    mod1 (((j + d) % n + 1 : ℕ) + (n - d : ℤ)) n - 1 = j := by
  have h := mod1_rotate hd ((j + d) % n)
  have hmod : (((j + d) % n : ℕ) - d : ℤ) % n = j := by
    push_cast
    rw [Int.emod_sub_emod, add_sub_cancel_right]
    exact Int.emod_eq_of_lt (by omega) (by omega)
  rw [hmod] at h
  exact Int.natCast_inj.mp h

end Places

/-- Rotating by all but `d` places brings place `d` to the front. -/
theorem rotate_eq {t : List ℚ} {d : ℕ} (hd : d < t.length) :
    rotate t (t.length - d) = t.drop d ++ t.take d := by
  have hnd : ((t.zipIdx 1).map fun p =>
      mod1 (p.2 + (t.length - d : ℤ)) t.length - 1).Nodup := by
    have hmap : ((t.zipIdx 1).map fun p => mod1 (p.2 + (t.length - d : ℤ)) t.length - 1) =
        (List.range t.length).map fun i =>
          mod1 ((i + 1 : ℕ) + (t.length - d : ℤ)) t.length - 1 := by
      refine List.ext_getElem (by simp) fun i _ hi => ?_
      rw [List.getElem_map, List.getElem_map, List.getElem_range, List.getElem_zipIdx,
        Nat.add_comm 1]
    rw [hmap]
    refine List.Nodup.map_on (fun i hi j hj hij => ?_) List.nodup_range
    exact mod1_rotate_inj hd (List.mem_range.mp hi) (List.mem_range.mp hj) hij
  rw [← List.rotate_eq_drop_append_take hd.le]
  refine List.ext_getElem? fun j => ?_
  by_cases hj : j < t.length
  · -- the one turn of the loop that sets this place
    have hi : (j + d) % t.length < t.length := Nat.mod_lt _ (by omega)
    have hmem : (t[(j + d) % t.length], (j + d) % t.length + 1) ∈ t.zipIdx 1 :=
      List.mk_mem_zipIdx_iff_le_and_getElem?_sub.mpr
        ⟨Nat.le_add_left 1 _, by rw [Nat.add_sub_cancel, List.getElem?_eq_getElem hi]⟩
    have hto := mod1_rotate_back hd hj
    have hlt : mod1 (((j + d) % t.length + 1 : ℕ) + (t.length - d : ℤ)) t.length - 1 <
        (List.replicate t.length (0 : ℚ)).length := by
      rw [hto, List.length_replicate]
      exact hj
    have hset := getElem?_foldl_set
      (f := fun i : ℕ => mod1 (i + (t.length - d : ℤ)) t.length - 1) hnd hmem hlt
    rw [hto] at hset
    rw [rotate, hset, List.getElem?_rotate hj, List.getElem?_eq_getElem hi]
  · rw [List.getElem?_eq_none, List.getElem?_eq_none]
    · rw [List.length_rotate]
      omega
    · rw [rotate, length_foldl_set (f := fun i : ℕ => mod1 (i + (t.length - d : ℤ)) t.length - 1),
        List.length_replicate]
      omega

/-! ## The mode -/

/-- The notes from the degree on, then those before it an octave up. -/
theorem modal_scale_eq {s : List ℚ} {d : ℕ} (hdlt : d < s.length) :
    modal_scale s (d + 1) =
      .ok ((s.drop d).map (fun v => v - s[d]) ++ (s.take d).map fun v => v + 12 - s[d]) := by
  have hdelta : (1 - (d + 1) + s.length : ℤ) = s.length - d := by ring
  have hlen : (s.drop d ++ s.take d).length = s.length := by
    rw [List.length_append, List.length_drop, List.length_take]
    omega
  have hdrop : s.drop d ≠ [] := by
    rw [Ne, List.drop_eq_nil_iff]
    omega
  have hlow : call (s.drop d ++ s.take d) 1 (s.length - d) = s.drop d := by
    have h := call_eq (t := s.drop d ++ s.take d) (Nat.zero_le (s.length - d))
      (by rw [hlen]; exact Nat.sub_le ..)
    rw [List.drop_zero, Nat.sub_zero, List.take_left' (by rw [List.length_drop]),
      Int.natCast_sub hdlt.le] at h
    exact h
  have hhigh : call (s.drop d ++ s.take d) (s.length - d + 1) s.length = s.take d := by
    have h := call_eq (t := s.drop d ++ s.take d) (Nat.sub_le s.length d) (by rw [hlen])
    rw [List.drop_left' (by rw [List.length_drop]), Nat.sub_sub_self hdlt.le,
      List.take_of_length_le (List.length_take_le d s), Int.natCast_sub hdlt.le] at h
    exact h
  have hhead : ((s.drop d).map (fun v => v - 12) ++ s.take d).head? = some (s[d] - 12) := by
    rw [List.head?_append, List.head?_map, List.head?_drop, List.getElem?_eq_getElem hdlt]
    rfl
  rw [modal_scale]
  simp only [hdelta, rotate_eq hdlt, hlen, hlow, hhigh, sub_number hdrop, ok_bind, hhead]
  rw [sub_number (List.append_ne_nil_of_left_ne_nil (by simpa using hdrop) _), List.map_append,
    List.map_map]
  congr 2
  · refine List.map_congr_left fun v _ => ?_
    simp only [Function.comp_apply]
    ring
  · refine List.map_congr_left fun v _ => ?_
    ring

/-- **Modes**: degree `i` of the mode on `d` is degree `d + i - 1` of the scale, seen from
degree `d`. -/
theorem getNote_modal_scale {s : List ℚ} {d : ℤ} (hd : 1 ≤ d) (hd' : d ≤ s.length) (i : ℤ) :
    ∃ mode a b, modal_scale s d = .ok mode ∧ getNote i mode = .ok (a - b) ∧
      getNote (d + i - 1) s = .ok a ∧ getNote d s = .ok b := by
  obtain ⟨d, rfl⟩ : ∃ d' : ℕ, d = d' + 1 := ⟨(d - 1).toNat, by omega⟩
  have hdlt : d < s.length := by omega
  have hs : s ≠ [] := List.ne_nil_of_length_pos (by omega)
  have hlen : ((s.drop d).map (fun v => v - s[d]) ++
      (s.take d).map fun v => v + 12 - s[d]).length = s.length := by
    rw [List.length_append, List.length_map, List.length_map, List.length_drop, List.length_take]
    omega
  have hmode : (s.drop d).map (fun v => v - s[d]) ++ (s.take d).map (fun v => v + 12 - s[d]) ≠
      [] := List.ne_nil_of_length_pos (by omega)
  have hd0 : note s (d + 1) = s[d] := by
    have h := note_eq hs hdlt 0
    simpa using h
  refine ⟨_, note s (d + 1 + i - 1), note s (d + 1), modal_scale_eq hdlt, ?_, ?_, ?_⟩
  · obtain ⟨j, o, hj, rfl⟩ := exists_place hmode i
    rw [getNote_eq hmode, interpolate_intCast, note_eq hmode hj, hd0]
    rw [hlen] at hj ⊢
    congr 1
    by_cases hwrap : j < s.length - d
    · have hnote := note_eq hs (show d + j < s.length by omega) o
      rw [List.getElem_append_left (by rw [List.length_map, List.length_drop]; exact hwrap),
        List.getElem_map, List.getElem_drop]
      rw [show (d + 1 + (j + 1 + o * s.length) - 1 : ℤ) = (d + j : ℕ) + 1 + o * s.length by
        push_cast; ring, hnote]
      ring
    · -- past the end of the scale, so an octave up
      have hnote := note_eq hs (show j - (s.length - d) < s.length by omega) (o + 1)
      rw [List.getElem_append_right (by rw [List.length_map, List.length_drop]; omega),
        List.getElem_map, List.getElem_take]
      have hdeg : (d + 1 + (j + 1 + o * s.length) - 1 : ℤ) =
          (j - (s.length - d) : ℕ) + 1 + (o + 1) * s.length := by
        have hsub : ((j - (s.length - d) : ℕ) : ℤ) = j - (s.length - d) := by omega
        rw [hsub]
        ring
      rw [hdeg, hnote]
      simp only [List.length_map, List.length_drop]
      push_cast
      ring
  · have hcast : ((d + 1 : ℤ) : ℚ) + i - 1 = ((d + 1 + i - 1 : ℤ) : ℚ) := by push_cast; ring
    rw [hcast, getNote_eq hs, interpolate_intCast]
  · rw [getNote_eq hs, interpolate_intCast]

/-- The second mode of a scale. -/
theorem getNote_modal_scale_dorian :
    ∃ mode a b, modal_scale [0, 2, 4, 5, 7, 9, 11] 2 = .ok mode ∧ getNote (-3 : ℤ) mode =
      .ok (a - b) ∧ getNote ((2 : ℤ) + (-3 : ℤ) - 1) [0, 2, 4, 5, 7, 9, 11] = .ok a ∧
        getNote (2 : ℤ) [0, 2, 4, 5, 7, 9, 11] = .ok b :=
  getNote_modal_scale (by decide) (by decide) (-3)

example : modal_scale [0, 2, 4, 5, 7, 9, 11] 2 = .ok [0, 2, 3, 5, 7, 9, 10] := by
  decide +kernel

end Lua2SC.Modes
