import Mathlib.Data.List.Permutation
import Mathlib.Data.List.FinRange
import Lua2SC.Streams.Combinatorics

/-!
# `combinatorics.lua`: permutations

`permutations` lists the orders in which a table can be put. `permutation` and `shuffle` make one up
at random: the one takes an element out of what is left, again and again, the other puts each
element in the place of one that is there and moves that one to the end. Both draw one number for
each element.

Every order is in the list exactly once. Each of the two at random gives an order when the numbers
drawn are each in a share of their own, out of the `n`, `n - 1`, …, 1 shares of the range from 0 to
1 (`arrangements`): if all numbers are equally likely, so are all orders. Elements are told apart by
where they are, not by what they are.
-/

namespace Lua2SC.Combinatorics

variable {α β : Type}

/-! ## The functions -/

/-- `permutations(t)`, which ends for the shorter tables. -/
def permutationsFrom : ℕ → List α → List (List α)
  | 0, _ => []
  | n + 1, t =>
    if t.length = 1 then [t]
    else (List.range t.length).flatMap fun i =>
      match t[i]? with
      | some v => (permutationsFrom n (t.eraseIdx i)).map fun v2 => v2 ++ [v]
      | none => []

/-- `permutations(t)` -/
def permutations (t : List α) : List (List α) := permutationsFrom t.length t

/-- The elements that are taken out of `tt`, by their places. -/
def takeOut : List α → List ℕ → List α
  | _, [] => []
  | tt, j :: js =>
    match tt[j - 1]? with
    | some v => v :: takeOut (tt.eraseIdx (j - 1)) js
    | none => []

/-- What `RANDOM:valuei(1, #tt)` gives in turn. -/
def places : ℕ → Draws → List ℕ
  | 0, _ => []
  | n + 1, u => (valuei u 1 (n + 1)).toNat :: places n (u.drop 1)

/-- `permutation(t)` -/
def permutation (t : List α) (u : Draws) : List α := takeOut t (places t.length u)

/-- `permutationN(n)`: of the numbers from 1 on. -/
def permutationN (n : ℕ) (u : Draws) : List ℕ := permutation (List.range' 1 n) u

/-- `scramble(t)` -/
def scramble (t : List α) (u : Draws) : List α :=
  (permutationN t.length u).filterMap fun v => t[v - 1]?

/-- One turn of `shuffle`. -/
def shuffleTurn (shuffled : List α) (x : α) (randPos : ℕ) : List α :=
  match shuffled[randPos - 1]? with
  | some y => shuffled.set (randPos - 1) x ++ [y]
  | none => shuffled ++ [x]

/-- All turns. -/
def shuffleBy (list : List α) (rs : List ℕ) : List α :=
  (list.zip rs).foldl (fun shuffled p => shuffleTurn shuffled p.1 p.2) []

/-- What `RANDOM:valuei(1, i)` gives in turn. -/
def turns (n : ℕ) (u : Draws) : List ℕ :=
  (List.range n).map fun i => (valuei (u.drop i) 1 (i + 1)).toNat

/-- `shuffle(list)` -/
def shuffle (list : List α) (u : Draws) : List α := shuffleBy list (turns list.length u)

/-! ## All orders -/

theorem permutationsFrom_map (f : α → β) : ∀ (n : ℕ) (t : List α),
    permutationsFrom n (t.map f) = (permutationsFrom n t).map (List.map f)
  | 0, _ => rfl
  | n + 1, t => by
    unfold permutationsFrom
    rw [List.length_map]
    split_ifs
    · rfl
    · rw [List.map_flatMap]
      refine congrArg (List.flatMap · _) (funext fun i => ?_)
      rw [List.getElem?_map]
      cases t[i]? with
      | none => rfl
      | some v =>
        show List.map _ (permutationsFrom n ((t.map f).eraseIdx i)) = _
        rw [List.eraseIdx_map, permutationsFrom_map f n, List.map_map, List.map_map]
        refine congrArg (List.map · _) (funext fun l => ?_)
        show List.map f l ++ [f v] = List.map f (l ++ [v])
        rw [List.map_append]
        rfl

/-- What is taken out goes to the end. -/
theorem perm_eraseIdx_concat {t : List α} {i : ℕ} {v : α} (h : t[i]? = some v) :
    (t.eraseIdx i ++ [v]).Perm t := by
  obtain ⟨hi, rfl⟩ := List.getElem?_eq_some_iff.mp h
  refine (List.perm_append_singleton _ _).trans ?_
  exact (List.getElem_cons_eraseIdx_perm hi)

theorem mem_permutationsFrom : ∀ {n : ℕ} {t : List α}, t.length = n → t ≠ [] → ∀ {l : List α},
    l ∈ permutationsFrom n t ↔ l.Perm t
  | 0, t, hn, hne, l => absurd (List.length_eq_zero_iff.mp hn) hne
  | n + 1, t, hn, hne, l => by
    unfold permutationsFrom
    split_ifs with hone
    · obtain ⟨v, rfl⟩ := List.length_eq_one_iff.mp hone
      rw [List.mem_singleton, List.perm_singleton]
    · rw [List.mem_flatMap]
      -- what is left when one element is taken out
      have hrest : ∀ {i : ℕ} {v : α}, t[i]? = some v →
          (t.eraseIdx i).length = n ∧ t.eraseIdx i ≠ [] := by
        intro i v hi
        have hlt := (List.getElem?_eq_some_iff.mp hi).1
        have hlen : (t.eraseIdx i).length = n := by
          rw [List.length_eraseIdx_of_lt hlt, hn]
          rfl
        refine ⟨hlen, fun hnil => hone ?_⟩
        rw [hnil] at hlen
        rw [hn, ← hlen]
        rfl
      constructor
      · rintro ⟨i, -, hl⟩
        cases hi : t[i]? with
        | none =>
          rw [hi] at hl
          cases hl
        | some v =>
          rw [hi] at hl
          obtain ⟨v2, hv2, rfl⟩ := List.mem_map.mp hl
          obtain ⟨hlen, hnil⟩ := hrest hi
          exact (((mem_permutationsFrom hlen hnil).mp hv2).append_right _).trans
            (perm_eraseIdx_concat hi)
      · intro hl
        -- the last element is one of the table
        have hlne : l ≠ [] := by
          rintro rfl
          exact hne hl.nil_eq.symm
        obtain ⟨v2, v, rfl⟩ : ∃ v2 v, l = v2 ++ [v] :=
          ⟨l.dropLast, l.getLast hlne, (List.dropLast_concat_getLast hlne).symm⟩
        have hv : v ∈ t := hl.subset (List.mem_append_right _ (List.mem_singleton_self v))
        obtain ⟨i, hi⟩ := List.mem_iff_getElem?.mp hv
        have hlt := (List.getElem?_eq_some_iff.mp hi).1
        refine ⟨i, List.mem_range.mpr hlt, ?_⟩
        rw [hi]
        obtain ⟨hlen, hnil⟩ := hrest hi
        refine List.mem_map.mpr ⟨v2, (mem_permutationsFrom hlen hnil).mpr ?_, rfl⟩
        exact (List.perm_append_right_iff [v]).mp (hl.trans (perm_eraseIdx_concat hi).symm)

theorem nodup_permutationsFrom : ∀ {n : ℕ} {t : List α}, t.Nodup → (permutationsFrom n t).Nodup
  | 0, _, _ => List.nodup_nil
  | n + 1, t, hnd => by
    unfold permutationsFrom
    split_ifs
    · exact List.nodup_singleton t
    · rw [List.nodup_flatMap]
      refine ⟨fun i _ => ?_, List.nodup_range.imp fun {i j} hij => ?_⟩
      · cases t[i]? with
        | none => exact List.nodup_nil
        | some v =>
          refine (nodup_permutationsFrom (hnd.sublist (List.eraseIdx_sublist t i))).map ?_
          exact fun a b hab => List.append_cancel_right hab
      · -- they end in different elements
        show List.Disjoint _ _
        intro l hl hl'
        cases hi : t[i]? with
        | none =>
          simp only [hi] at hl
          cases hl
        | some v =>
          cases hj : t[j]? with
          | none =>
            simp only [hj] at hl'
            cases hl'
          | some w =>
            simp only [hi] at hl
            simp only [hj] at hl'
            obtain ⟨a, -, rfl⟩ := List.mem_map.mp hl
            obtain ⟨b, -, hab⟩ := List.mem_map.mp hl'
            have hvw : w = v := by simpa using (List.append_inj_right' hab rfl)
            subst hvw
            have hlt := (List.getElem?_eq_some_iff.mp hi).1
            exact hij ((List.getElem?_inj hlt hnd).mp (hi.trans hj.symm))

/-- `permutations` lists what Mathlib's permutations are, in another order. -/
theorem permutations_perm {t : List α} (ht : t ≠ []) :
    (permutations t).Perm t.permutations := by
  -- by the places of the elements, which differ
  have hplaces : (permutations (List.finRange t.length)).Perm
      (List.finRange t.length).permutations := by
    have hne : List.finRange t.length ≠ [] := by
      rw [← List.length_pos_iff, List.length_finRange]
      exact List.length_pos_iff.mpr ht
    refine (List.perm_ext_iff_of_nodup (nodup_permutationsFrom (List.nodup_finRange _))
      (List.nodup_permutations _ (List.nodup_finRange _))).mpr fun l => ?_
    rw [List.mem_permutations]
    exact mem_permutationsFrom rfl hne
  have hget : (List.finRange t.length).map t.get = t := List.map_get_finRange t
  have hmap := hplaces.map (List.map t.get)
  rw [List.map_permutations, hget] at hmap
  have hsame : permutations t = (permutations (List.finRange t.length)).map (List.map t.get) := by
    rw [permutations, permutations, List.length_finRange, ← permutationsFrom_map, hget]
  rwa [hsame]

/-! ## One order at random -/

/-- The draw is in the `j`-th of `m` equal shares. -/
def InShare (j m : ℕ) (x : ℚ) : Prop := (j : ℚ) / m ≤ x ∧ x < (j + 1 : ℚ) / m

theorem valuei_eq_iff (u : Draws) {m : ℕ} (hm : 0 < m) (j : ℕ) :
    (valuei u 1 m).toNat = j + 1 ↔ InShare j m (u.real 0) := by
  have hm' : (0 : ℚ) < m := Nat.cast_pos.mpr hm
  have hlow := (valuei_mem u (show (1 : ℤ) ≤ m by omega)).1
  have hnat : (valuei u 1 m).toNat = j + 1 ↔ valuei u 1 m = (j + 1 : ℤ) := by omega
  rw [hnat, valuei, Int.floor_eq_iff, InShare, div_le_iff₀ hm', lt_div_iff₀ hm']
  push_cast
  constructor
  · intro ⟨hge, hlt⟩
    exact ⟨by linarith, by linarith⟩
  · intro ⟨hge, hlt⟩
    exact ⟨by linarith, by linarith⟩

/-- A draw is in one of the shares. -/
theorem exists_valuei_eq (u : Draws) {m : ℕ} (hm : 0 < m) :
    ∃ j < m, (valuei u 1 m).toNat = j + 1 := by
  have hmem := valuei_mem u (show (1 : ℤ) ≤ m by omega)
  exact ⟨(valuei u 1 m).toNat - 1, by omega, by omega⟩

/-! ### Taking out -/

theorem takeOut_map (f : α → β) : ∀ (t : List α) (js : List ℕ),
    takeOut (t.map f) js = (takeOut t js).map f
  | _, [] => rfl
  | t, j :: js => by
    unfold takeOut
    rw [List.getElem?_map]
    cases t[j - 1]? with
    | none => rfl
    | some v =>
      show f v :: takeOut ((t.map f).eraseIdx (j - 1)) js = _
      rw [List.eraseIdx_map, takeOut_map f]
      rfl

theorem permutation_map (f : α → β) (t : List α) (u : Draws) :
    permutation (t.map f) u = (permutation t u).map f := by
  rw [permutation, permutation, List.length_map, takeOut_map]

theorem permutation_cons {t : List α} {n : ℕ} (hn : t.length = n + 1) (u : Draws) {j : ℕ} {v : α}
    (hj : (valuei u 1 (n + 1 : ℕ)).toNat = j + 1) (hv : t[j]? = some v) :
    permutation t u = v :: permutation (t.eraseIdx j) (u.drop 1) := by
  have hlt := (List.getElem?_eq_some_iff.mp hv).1
  have hrest : (t.eraseIdx j).length = n := by
    rw [List.length_eraseIdx_of_lt hlt, hn]
    rfl
  have hj' : (valuei u 1 (n + 1)).toNat = j + 1 := by
    rw [← hj]
    push_cast
    rfl
  rw [permutation, permutation, hn, hrest]
  simp only [places, takeOut, hj', Nat.add_sub_cancel, hv]

theorem permutation_perm : ∀ {n : ℕ} {t : List α}, t.length = n → ∀ u, (permutation t u).Perm t
  | 0, t, hn, u => by
    obtain rfl := List.length_eq_zero_iff.mp hn
    exact List.Perm.refl _
  | n + 1, t, hn, u => by
    obtain ⟨d, hplace, hsucc⟩ := exists_valuei_eq u (Nat.succ_pos n)
    obtain ⟨v, hv⟩ : ∃ v, t[d]? = some v := ⟨_, List.getElem?_eq_getElem (hn ▸ hplace)⟩
    have hlen : (t.eraseIdx d).length = n := by
      rw [List.length_eraseIdx_of_lt (hn ▸ hplace), hn]
      rfl
    rw [permutation_cons hn u hsucc hv]
    calc (v :: permutation (t.eraseIdx d) (u.drop 1)).Perm (v :: t.eraseIdx d) :=
          (permutation_perm hlen _).cons v
      _ |>.Perm (t.eraseIdx d ++ [v]) := (List.perm_append_singleton v _).symm
      _ |>.Perm t := perm_eraseIdx_concat hv

/-- One order out of all is drawn when each draw is in one share. -/
theorem permutation_eq_iff : ∀ {n : ℕ} {t : List α}, t.length = n → t.Nodup → ∀ {l : List α},
    l.Perm t → ∃ j : ℕ → ℕ, (∀ k < n, j k < n - k) ∧
      ∀ u, permutation t u = l ↔ ∀ k < n, InShare (j k) (n - k) (u.real k)
  | 0, t, hn, hnd, l, hl => by
    obtain rfl := List.length_eq_zero_iff.mp hn
    obtain rfl := hl.eq_nil
    exact ⟨fun _ => 0, fun k hk => absurd hk (Nat.not_lt_zero k),
      fun u => ⟨fun _ k hk => absurd hk (Nat.not_lt_zero k), fun _ => rfl⟩⟩
  | n + 1, t, hn, hnd, l, hl => by
    cases l with
    | nil =>
      rw [← hl.length_eq] at hn
      cases hn
    | cons v l' =>
      obtain ⟨i, hi⟩ := List.mem_iff_getElem?.mp (hl.subset List.mem_cons_self)
      have hlt := (List.getElem?_eq_some_iff.mp hi).1
      have hrest : (t.eraseIdx i).length = n := by
        rw [List.length_eraseIdx_of_lt hlt, hn]
        rfl
      have hl' : l'.Perm (t.eraseIdx i) := by
        have hperm := hl.trans (perm_eraseIdx_concat hi).symm
        exact (hperm.trans (List.perm_append_singleton v _)).cons_inv
      obtain ⟨j, hj, hiff⟩ :=
        permutation_eq_iff hrest (hnd.sublist (List.eraseIdx_sublist t i)) hl'
      refine ⟨fun k => Nat.casesOn k i j, fun k hk => ?_, fun u => ?_⟩
      · cases k with
        | zero => exact hn ▸ hlt
        | succ k =>
          have := hj k (by omega)
          show j k < n + 1 - (k + 1)
          omega
      · rw [Nat.forall_lt_succ_left, Nat.sub_zero]
        show _ ↔ InShare i (n + 1) (u.real 0) ∧ _
        have htail : (∀ k < n, InShare (j k) (n + 1 - (k + 1)) (u.real (k + 1))) ↔
            permutation (t.eraseIdx i) (u.drop 1) = l' := by
          rw [hiff]
          refine forall₂_congr fun k _ => ?_
          rw [Nat.add_sub_add_right]
          show InShare _ _ (u.real (k + 1)) ↔ InShare _ _ (u.real (1 + k))
          rw [Nat.add_comm]
        rw [htail, ← valuei_eq_iff u (Nat.succ_pos n)]
        -- the place that is drawn, and what is there
        obtain ⟨d, hplace, hsucc⟩ := exists_valuei_eq u (Nat.succ_pos n)
        obtain ⟨w, hdt⟩ : ∃ w, t[d]? = some w := ⟨_, List.getElem?_eq_getElem (hn ▸ hplace)⟩
        constructor
        · intro heq
          rw [permutation_cons hn u hsucc hdt] at heq
          obtain ⟨hhead, htl⟩ := List.cons.inj heq
          have hdi : d = i := by
            rw [hhead] at hdt
            exact (List.getElem?_inj (hn ▸ hplace) hnd).mp (hdt.trans hi.symm)
          exact ⟨hdi ▸ hsucc, hdi ▸ htl⟩
        · intro ⟨hdraw, htl⟩
          rw [permutation_cons hn u hdraw hi, htl]

/-! ### Shuffling -/

theorem length_turns (n : ℕ) (u : Draws) : (turns n u).length = n := by
  rw [turns, List.length_map, List.length_range]

theorem shuffle_concat (list : List α) (x : α) (u : Draws) :
    shuffle (list ++ [x]) u = shuffleTurn (shuffle list u) x
      (valuei (u.drop list.length) 1 (list.length + 1 : ℕ)).toNat := by
  have hturns : turns (list ++ [x]).length u =
      turns list.length u ++ [(valuei (u.drop list.length) 1 (list.length + 1 : ℕ)).toNat] := by
    rw [turns, List.length_append, List.length_singleton, List.range_succ, List.map_append]
    rfl
  rw [shuffle, hturns, shuffleBy, List.zip_append (length_turns _ u).symm, List.foldl_append]
  rfl

theorem shuffleTurn_map (f : α → β) (l : List α) (x : α) (r : ℕ) :
    shuffleTurn (l.map f) (f x) r = (shuffleTurn l x r).map f := by
  unfold shuffleTurn
  rw [List.getElem?_map]
  cases l[r - 1]? with
  | none => rw [List.map_append]; rfl
  | some y => rw [List.map_append, List.map_set]; rfl

theorem shuffle_map (f : α → β) (list : List α) (u : Draws) :
    shuffle (list.map f) u = (shuffle list u).map f := by
  induction list using List.reverseRecOn with
  | nil => rfl
  | append_singleton list x ih =>
    rw [List.map_append]
    show shuffle (list.map f ++ [f x]) u = _
    rw [shuffle_concat, shuffle_concat, ih, shuffleTurn_map, List.length_map]

/-- What was in the place of the new element goes to the end. -/
theorem shuffleTurn_of_lt {l : List α} {x y : α} {i : ℕ} (h : l[i]? = some y) :
    shuffleTurn l x (i + 1) = l.set i x ++ [y] := by
  rw [shuffleTurn, Nat.add_sub_cancel, h]

theorem shuffleTurn_length (l : List α) (x : α) : shuffleTurn l x (l.length + 1) = l ++ [x] := by
  rw [shuffleTurn, Nat.add_sub_cancel, List.getElem?_eq_none (le_refl _)]

theorem shuffleTurn_perm (l : List α) (x : α) (r : ℕ) : (shuffleTurn l x r).Perm (l ++ [x]) := by
  unfold shuffleTurn
  cases hy : l[r - 1]? with
  | none => exact List.Perm.refl _
  | some y =>
    obtain ⟨hlt, rfl⟩ := List.getElem?_eq_some_iff.mp hy
    have hset := List.set_perm_cons_eraseIdx hlt x
    have hrest := List.getElem_cons_eraseIdx_perm hlt
    calc (l.set (r - 1) x ++ [l[r - 1]]).Perm (x :: l.eraseIdx (r - 1) ++ [l[r - 1]]) :=
          hset.append_right _
      _ |>.Perm (x :: l) := ((List.perm_append_singleton _ _).trans hrest).cons x
      _ |>.Perm (l ++ [x]) := (List.perm_append_singleton x l).symm

theorem shuffle_perm (list : List α) (u : Draws) : (shuffle list u).Perm list := by
  induction list using List.reverseRecOn with
  | nil => exact List.Perm.refl _
  | append_singleton list x ih =>
    rw [shuffle_concat]
    exact (shuffleTurn_perm _ x _).trans (ih.append_right _)

/-- The new element is where it was put. -/
theorem getElem?_shuffleTurn {l : List α} {x : α} {i : ℕ} (hi : i ≤ l.length) :
    (shuffleTurn l x (i + 1))[i]? = some x := by
  rcases hi.lt_or_eq with hlt | rfl
  · rw [shuffleTurn_of_lt (List.getElem?_eq_getElem hlt),
      List.getElem?_append_left (by rwa [List.length_set]), List.getElem?_set_self hlt]
  · rw [shuffleTurn_length, List.getElem?_append_right (le_refl _), Nat.sub_self]
    rfl

/-- A turn can be taken back. -/
theorem shuffleTurn_inj {l₁ l₂ : List α} {x : α} {i : ℕ} (hlen : l₁.length = l₂.length)
    (hi : i ≤ l₁.length) (h : shuffleTurn l₁ x (i + 1) = shuffleTurn l₂ x (i + 1)) : l₁ = l₂ := by
  rcases hi.lt_or_eq with hlt | rfl
  · have hlt₂ : i < l₂.length := hlen ▸ hlt
    rw [shuffleTurn_of_lt (List.getElem?_eq_getElem hlt),
      shuffleTurn_of_lt (List.getElem?_eq_getElem hlt₂)] at h
    obtain ⟨hset, hlast⟩ := List.append_inj h (by rw [List.length_set, List.length_set, hlen])
    have hy : l₁[i] = l₂[i] := List.singleton_inj.mp hlast
    -- the element at the end goes back
    have hback := congrArg (List.set · i l₁[i]) hset
    simp only [List.set_set] at hback
    rwa [List.set_getElem_self, hy, List.set_getElem_self] at hback
  · rw [shuffleTurn_length, hlen, shuffleTurn_length] at h
    exact List.append_cancel_right h

/-- The turn before, given where the new element is. -/
theorem exists_shuffleTurn {l : List α} {x : α} {i n : ℕ} (hi : l[i]? = some x)
    (hlen : l.length = n + 1) : ∃ l', l'.length = n ∧ shuffleTurn l' x (i + 1) = l := by
  have hne : l ≠ [] := List.ne_nil_of_length_eq_add_one hlen
  obtain ⟨l', y, rfl⟩ : ∃ l' y, l = l' ++ [y] :=
    ⟨l.dropLast, l.getLast hne, (List.dropLast_concat_getLast hne).symm⟩
  have hlen' : l'.length = n := by
    rw [List.length_append, List.length_singleton] at hlen
    omega
  have hlt := (List.getElem?_eq_some_iff.mp hi).1
  rw [hlen] at hlt
  rcases (Nat.lt_succ_iff.mp hlt).lt_or_eq with hlt' | rfl
  · have hlt'' : i < l'.length := hlen' ▸ hlt'
    refine ⟨l'.set i y, by rw [List.length_set, hlen'], ?_⟩
    rw [List.getElem?_append_left hlt''] at hi
    rw [shuffleTurn_of_lt (List.getElem?_set_self hlt''), List.set_set]
    obtain ⟨_, rfl⟩ := List.getElem?_eq_some_iff.mp hi
    rw [List.set_getElem_self]
  · refine ⟨l', hlen', ?_⟩
    rw [← hlen', List.getElem?_append_right (le_refl _), Nat.sub_self] at hi
    obtain rfl : y = x := Option.some.inj hi
    rw [← hlen', shuffleTurn_length]

/-- One order out of all is drawn when each draw is in one share. -/
theorem shuffle_eq_iff (list : List α) (hnd : list.Nodup) : ∀ {l : List α}, l.Perm list →
    ∃ j : ℕ → ℕ, (∀ k < list.length, j k < k + 1) ∧
      ∀ u, shuffle list u = l ↔ ∀ k < list.length, InShare (j k) (k + 1) (u.real k) := by
  induction list using List.reverseRecOn with
  | nil =>
    intro l hl
    obtain rfl := hl.eq_nil
    exact ⟨fun _ => 0, fun k hk => absurd hk (Nat.not_lt_zero k),
      fun u => ⟨fun _ k hk => absurd hk (Nat.not_lt_zero k), fun _ => rfl⟩⟩
  | append_singleton list x ih =>
    intro l hl
    have hlen : l.length = list.length + 1 := by
      rw [hl.length_eq, List.length_append, List.length_singleton]
    have hndl : l.Nodup := hl.nodup_iff.mpr hnd
    obtain ⟨i, hi⟩ := List.mem_iff_getElem?.mp
      (hl.symm.subset (List.mem_append_right _ (List.mem_singleton_self x)))
    have hlt := (List.getElem?_eq_some_iff.mp hi).1
    obtain ⟨l', hlen', rfl⟩ := exists_shuffleTurn hi hlen
    have hl' : l'.Perm list :=
      (List.perm_append_right_iff [x]).mp ((shuffleTurn_perm l' x _).symm.trans hl)
    obtain ⟨j, hj, hiff⟩ := ih (List.nodup_append.mp hnd).1 hl'
    refine ⟨Function.update j list.length i, ?_⟩
    -- the draws before do not change
    have hbefore : ∀ k < list.length, Function.update j list.length i k = j k := fun k hk =>
      Function.update_of_ne hk.ne _ _
    rw [List.length_append, List.length_singleton]
    refine ⟨?_, fun u => ?_⟩
    · rw [Nat.forall_lt_succ_right, Function.update_self]
      refine ⟨fun k hk => ?_, hlen ▸ hlt⟩
      rw [hbefore k hk]
      exact hj k hk
    · rw [Nat.forall_lt_succ_right, Function.update_self]
      have hinit : (∀ k < list.length, InShare (Function.update j list.length i k) (k + 1)
          (u.real k)) ↔ shuffle list u = l' := by
        rw [hiff]
        refine forall₂_congr fun k hk => ?_
        rw [hbefore k hk]
      have hdraw := valuei_eq_iff (u.drop list.length) (Nat.succ_pos list.length) i
      rw [hinit, show u.real list.length = (u.drop list.length).real 0 from rfl, ← hdraw,
        shuffle_concat]
      obtain ⟨d, hplace, hsucc⟩ :=
        exists_valuei_eq (u.drop list.length) (Nat.succ_pos list.length)
      have hsl := (shuffle_perm list u).length_eq
      constructor
      · intro heq
        -- the new element is in one place only
        rw [hsucc] at heq ⊢
        have hle : d ≤ (shuffle list u).length := by omega
        have hput := getElem?_shuffleTurn (x := x) hle
        rw [heq] at hput
        obtain rfl : i = d := (List.getElem?_inj hlt hndl).mp (hi.trans hput.symm)
        exact ⟨shuffleTurn_inj (hsl.trans hl'.length_eq.symm) hle heq, rfl⟩
      · intro ⟨hrest, hlast⟩
        rw [hrest, hlast]

/-! ## What comes out -/

theorem scramble_eq (t : List α) (u : Draws) : scramble t u = permutation t u := by
  rw [scramble, permutationN]
  have hrange : List.range' 1 t.length = (List.finRange t.length).map fun i => i.val + 1 := by
    rw [List.range'_eq_map_range, ← List.map_coe_finRange_eq_range, List.map_map]
    exact List.map_congr_left fun i _ => Nat.add_comm 1 _
  rw [hrange, permutation_map, List.filterMap_map]
  have hread : ((fun v => t[v - 1]?) ∘ fun i : Fin t.length => i.val + 1) =
      fun i => some (t.get i) := by
    funext i
    show t[i.val + 1 - 1]? = _
    rw [Nat.add_sub_cancel, List.getElem?_eq_getElem i.isLt]
    rfl
  rw [hread, List.filterMap_eq_map', ← permutation_map, List.map_get_finRange]

/-- `permutations` lists every order of a table once, told apart by the places of the elements,
and what `permutation`, `scramble` and `shuffle` make is one of them. Each order of the places comes
out of each of the three for one choice of shares: the draws are in `n`, `n - 1`, …, 1 shares, or in
1, 2, …, `n`. -/
theorem arrangements (t : List α) (ht : t ≠ []) :
    (permutations t).Perm t.permutations ∧
    (∀ u, scramble t u = permutation t u ∧
      (permutation (List.finRange t.length) u).Perm (List.finRange t.length) ∧
      (shuffle (List.finRange t.length) u).Perm (List.finRange t.length) ∧
      permutation t u = (permutation (List.finRange t.length) u).map t.get ∧
      shuffle t u = (shuffle (List.finRange t.length) u).map t.get) ∧
    ∀ order : List (Fin t.length), order.Perm (List.finRange t.length) →
      (∃ j : ℕ → ℕ, (∀ k < t.length, j k < t.length - k) ∧
        ∀ u, permutation (List.finRange t.length) u = order ↔
          ∀ k < t.length, InShare (j k) (t.length - k) (u.real k)) ∧
      ∃ j : ℕ → ℕ, (∀ k < t.length, j k < k + 1) ∧
        ∀ u, shuffle (List.finRange t.length) u = order ↔
          ∀ k < t.length, InShare (j k) (k + 1) (u.real k) := by
  refine ⟨permutations_perm ht, fun u => ⟨scramble_eq t u, permutation_perm rfl u,
    shuffle_perm _ u, ?_, ?_⟩, fun order horder => ⟨?_, ?_⟩⟩
  · rw [← permutation_map, List.map_get_finRange]
  · rw [← shuffle_map, List.map_get_finRange]
  · exact permutation_eq_iff List.length_finRange (List.nodup_finRange _) horder
  · have hshuffle := shuffle_eq_iff _ (List.nodup_finRange t.length) horder
    rwa [List.length_finRange] at hshuffle

/-- Of three notes. -/
theorem arrangements_chord : permutations [60, 64, 67] =
      [[67, 64, 60], [64, 67, 60], [67, 60, 64], [60, 67, 64], [64, 60, 67], [60, 64, 67]] ∧
    (permutations [60, 64, 67]).Perm [60, 64, 67].permutations :=
  ⟨by rfl, (arrangements [60, 64, 67] (List.cons_ne_nil _ _)).1⟩

end Lua2SC.Combinatorics
