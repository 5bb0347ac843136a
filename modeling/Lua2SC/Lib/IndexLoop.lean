import Mathlib

/-!
# Removing from a list while walking over it by index

    for i, x in ipairs(t) do … if rm(x) then table.remove(t, i) end end

reads `t[i]` anew at every index, so when the element at `i` is removed the
next one moves to `i` and the walk goes on at `i + 1`, behind it: the
successor of a removed element is neither seen nor removed. `walk` is the
loop, `visited` and `remaining` are what it sees and leaves, by recursion on
the list (`walk_eq`).

Two questions are settled for every list: when the walk removes exactly the
elements one wants gone (`remaining_eq_filter_iff`), and when it sees every
element of interest (`visited_countP_iff`).
-/

namespace Lua2SC.IndexLoop

variable {α : Type*}

section

variable (rm : α → Bool)

/-- The loop from index `i` on: the elements seen, and the list at the end. -/
def walkFrom : ℕ → ℕ → List α → List α × List α
  | 0, _, l => ([], l)
  | fuel + 1, i, l =>
    match l[i]? with
    | none => ([], l)
    | some x =>
      let r := walkFrom fuel (i + 1) (if rm x then l.eraseIdx i else l)
      (x :: r.1, r.2)

/-- The whole loop; it takes a turn for each index at most. -/
def walk (l : List α) : List α × List α := walkFrom rm l.length 0 l

/-- The elements the loop sees. -/
def visited : List α → List α
  | [] => []
  | [x] => [x]
  | x :: y :: l => if rm x then x :: visited l else x :: visited (y :: l)

/-- The elements the loop leaves. -/
def remaining : List α → List α
  | [] => []
  | [x] => if rm x then [] else [x]
  | x :: y :: l => if rm x then y :: remaining l else x :: remaining (y :: l)

/-- Past the end the loop is over. -/
theorem walkFrom_end (fuel : ℕ) {i : ℕ} {l : List α} (h : l.length ≤ i) :
    walkFrom rm fuel i l = ([], l) := by
  cases fuel with
  | zero => rfl
  | succ fuel => simp [walkFrom, List.getElem?_eq_none h]

/-- The loop behind a part already walked over. -/
theorem walkFrom_eq :
    ∀ (fuel : ℕ) (done l : List α), l.length ≤ fuel →
      walkFrom rm fuel done.length (done ++ l) = (visited rm l, done ++ remaining rm l) := by
  intro fuel
  induction fuel with
  | zero =>
    intro done l hlen
    rw [List.length_eq_zero_iff.mp (Nat.le_zero.mp hlen)]
    rfl
  | succ fuel ih =>
    intro done l hlen
    match l, hlen with
    | [], _ => exact walkFrom_end rm _ (by simp)
    | [x], _ =>
      have hget : (done ++ [x])[done.length]? = some x := by simp
      unfold walkFrom visited remaining
      rw [hget]
      by_cases hx : rm x = true
      · have herase : (done ++ [x]).eraseIdx done.length = done := by
          simp [List.eraseIdx_append_of_length_le]
        dsimp only
        rw [if_pos hx, if_pos hx, herase, walkFrom_end rm fuel (Nat.le_succ _), List.append_nil]
      · dsimp only
        rw [if_neg hx, if_neg hx, walkFrom_end rm fuel (by simp)]
    | x :: y :: l, hlen =>
      have hget : (done ++ x :: y :: l)[done.length]? = some x := by simp
      unfold walkFrom visited remaining
      rw [hget]
      simp only [List.length_cons] at hlen
      by_cases hx : rm x = true
      · -- `y` has moved to the index of `x`; the walk goes on behind it
        have herase : (done ++ x :: y :: l).eraseIdx done.length = (done ++ [y]) ++ l := by
          simp [List.eraseIdx_append_of_length_le]
        have hnext := ih (done ++ [y]) l (by omega)
        rw [List.length_append, List.length_singleton] at hnext
        dsimp only
        rw [if_pos hx, if_pos hx, if_pos hx, herase, hnext, List.append_assoc]
        rfl
      · have hnext := ih (done ++ [x]) (y :: l) (by simp only [List.length_cons]; omega)
        rw [List.length_append, List.length_singleton, List.append_assoc, List.append_assoc]
          at hnext
        dsimp only
        rw [if_neg hx, if_neg hx, if_neg hx]
        exact congrArg (fun r => (x :: r.1, r.2)) hnext

/-- **The loop by recursion on the list.** -/
theorem walk_eq (l : List α) : walk rm l = (visited rm l, remaining rm l) := by
  simpa [walk] using walkFrom_eq rm l.length [] l le_rfl

theorem visited_sublist (l : List α) : (visited rm l).Sublist l := by
  induction l using visited.induct rm with
  | case1 => exact List.Sublist.refl _
  | case2 x => exact List.Sublist.refl _
  | case3 x y l hx ih =>
    rw [visited, if_pos hx]
    exact (ih.cons y).cons_cons x
  | case4 x y l hx ih =>
    rw [visited, if_neg hx]
    exact ih.cons_cons x

theorem remaining_sublist (l : List α) : (remaining rm l).Sublist l := by
  induction l using remaining.induct rm with
  | case1 => exact List.Sublist.refl _
  | case2 x hx => rw [remaining, if_pos hx]; exact List.nil_sublist _
  | case3 x hx => rw [remaining, if_neg hx]
  | case4 x y l hx ih =>
    rw [remaining, if_pos hx]
    exact (ih.cons_cons y).cons x
  | case5 x y l hx ih =>
    rw [remaining, if_neg hx]
    exact ih.cons_cons x

/-- Only a list of at most one element, and that to be removed, is emptied. -/
theorem remaining_eq_nil_iff (l : List α) :
    remaining rm l = [] ↔ l = [] ∨ ∃ x, l = [x] ∧ rm x = true := by
  match l with
  | [] => simp [remaining]
  | [x] =>
    unfold remaining
    split <;> simp_all
  | x :: y :: l =>
    unfold remaining
    split <;> simp

/-- The walk removes the unwanted elements and no others: what it comes to is
removed exactly when it is unwanted, and no unwanted element stands right
behind a removed one. -/
def Exact (unwanted : α → Bool) : List α → Prop
  | [] => True
  | [x] => rm x = unwanted x
  | x :: y :: l =>
    if rm x then unwanted x = true ∧ unwanted y = false ∧ Exact unwanted l
    else unwanted x = false ∧ Exact unwanted (y :: l)

instance Exact.decidable (unwanted : α → Bool) : ∀ l, Decidable (Exact rm unwanted l)
  | [] => isTrue trivial
  | [x] => inferInstanceAs (Decidable (rm x = unwanted x))
  | x :: y :: l =>
    have := Exact.decidable unwanted l
    have := Exact.decidable unwanted (y :: l)
    inferInstanceAs (Decidable (if rm x then unwanted x = true ∧ unwanted y = false ∧
      Exact rm unwanted l else unwanted x = false ∧ Exact rm unwanted (y :: l)))

end

variable {rm unwanted : α → Bool}

/-- A wanted element that is removed is missing at the end. -/
theorem remaining_ne_of_wanted {x y : α} {l : List α} (hx : unwanted x = false) :
    y :: remaining rm l ≠ (x :: y :: l).filter fun z => !unwanted z := by
  intro h
  have hcount := congrArg (List.countP fun z => !unwanted z) h
  have hle := (remaining_sublist rm l).countP_le (p := fun z => !unwanted z)
  rw [List.countP_filter] at hcount
  simp only [Bool.and_self, List.countP_cons, hx, Bool.not_false, if_true] at hcount
  omega

/-- **The walk leaves exactly the wanted elements** under `Exact`, and only
then. -/
theorem remaining_eq_filter_iff (l : List α) :
    remaining rm l = l.filter (fun x => !unwanted x) ↔ Exact rm unwanted l := by
  induction l using remaining.induct rm with
  | case1 => simp [remaining, Exact]
  | case2 x hx =>
    cases hu : unwanted x <;> simp [remaining, Exact, hx, hu]
  | case3 x hx =>
    cases hu : unwanted x <;> simp [remaining, Exact, hx, hu]
  | case4 x y l hx ih =>
    rw [remaining, if_pos hx, Exact, if_pos hx]
    cases hu : unwanted x with
    | false =>
      exact iff_of_false (remaining_ne_of_wanted hu) fun h => absurd h.1 (by simp)
    | true =>
      cases hy : unwanted y with
      | true =>
        -- `y` stays although it is unwanted
        refine iff_of_false (fun h => ?_) fun h => absurd h.2.1 (by simp)
        have hmem : y ∈ (x :: y :: l).filter fun z => !unwanted z := h ▸ List.mem_cons_self ..
        rw [List.mem_filter, hy] at hmem
        exact absurd hmem.2 (by simp)
      | false =>
        rw [List.filter_cons_of_neg (by simp [hu]), List.filter_cons_of_pos (by simp [hy]),
          List.cons_inj_right, ih]
        simp
  | case5 x y l hx ih =>
    rw [remaining, if_neg hx, Exact, if_neg hx]
    cases hu : unwanted x with
    | false =>
      rw [List.filter_cons_of_pos (by simp [hu]), List.cons_inj_right, ih]
      simp
    | true =>
      refine iff_of_false (fun h => ?_) fun h => absurd h.1 (by simp)
      have hmem : x ∈ (x :: y :: l).filter fun z => !unwanted z := h ▸ List.mem_cons_self ..
      rw [List.mem_filter, hu] at hmem
      exact absurd hmem.2 (by simp)

/-- No element of interest stands right behind a removed one: then the walk
sees them all, and only then as many. -/
theorem visited_countP_iff (seen : α → Bool) (hrm : ∀ x, rm x = true → seen x = true)
    (l : List α) :
    ((visited rm l).countP seen = l.countP seen) ↔
      l.IsChain fun x y => rm x = true → seen y = false := by
  induction l using visited.induct rm with
  | case1 => simp [visited]
  | case2 x => simp [visited]
  | case3 x y l hx ih =>
    rw [visited, if_pos hx]
    have hle := (visited_sublist rm l).countP_le (p := seen)
    cases hy : seen y with
    | true =>
      refine iff_of_false ?_ ?_
      · simp only [List.countP_cons, hrm x hx, hy, if_true]
        omega
      · intro h
        have hxy := (List.isChain_cons_cons.mp h).1 hx
        rw [hy] at hxy
        exact absurd hxy (by simp)
    | false =>
      have hnot : ¬ rm y = true := fun h => by
        rw [hrm y h] at hy
        exact absurd hy (by simp)
      have hstep : (List.countP seen (x :: visited rm l) = List.countP seen (x :: y :: l)) ↔
          List.countP seen (visited rm l) = List.countP seen l := by
        simp only [List.countP_cons, hy, Bool.false_eq_true, if_false]
        omega
      rw [hstep, ih, List.isChain_cons_cons, List.isChain_cons]
      constructor
      · exact fun h => ⟨fun _ => hy, fun z _ hyrm => absurd hyrm hnot, h⟩
      · exact fun h => h.2.2
  | case4 x y l hx ih =>
    rw [visited, if_neg hx]
    have hstep : (List.countP seen (x :: visited rm (y :: l)) = List.countP seen (x :: y :: l)) ↔
        List.countP seen (visited rm (y :: l)) = List.countP seen (y :: l) := by
      rw [List.countP_cons, List.countP_cons (a := x)]
      omega
    rw [hstep, ih, List.isChain_cons_cons]
    exact ⟨fun h => ⟨fun hrm => absurd hrm hx, h⟩, fun h => h.2⟩

/-- As many of interest seen means all of them, in order. -/
theorem visited_filter_eq {seen : α → Bool} {l : List α}
    (h : (visited rm l).countP seen = l.countP seen) :
    (visited rm l).filter seen = l.filter seen := by
  refine ((visited_sublist rm l).filter seen).eq_of_length ?_
  rw [← List.countP_eq_length_filter, ← List.countP_eq_length_filter, h]

/-- Under the same condition the walk leaves exactly what is not to be removed. -/
theorem remaining_eq_filter_of_chain {seen : α → Bool} (hrm : ∀ x, rm x = true → seen x = true)
    {l : List α} (h : l.IsChain fun x y => rm x = true → seen y = false) :
    remaining rm l = l.filter fun x => !rm x := by
  rw [remaining_eq_filter_iff]
  induction l using remaining.induct rm with
  | case1 => trivial
  | case2 x hx => rfl
  | case3 x hx => rfl
  | case4 x y l hx ih =>
    obtain ⟨hxy, hrest⟩ := List.isChain_cons_cons.mp h
    rw [Exact, if_pos hx]
    refine ⟨hx, ?_, ih hrest.tail⟩
    cases hy : rm y with
    | false => rfl
    | true =>
      have hseen := hxy hx
      rw [hrm y hy] at hseen
      exact absurd hseen (by simp)
  | case5 x y l hx ih =>
    rw [Exact, if_neg hx]
    exact ⟨Bool.eq_false_iff.mpr hx, ih (List.isChain_cons_cons.mp h).2⟩

end Lua2SC.IndexLoop
