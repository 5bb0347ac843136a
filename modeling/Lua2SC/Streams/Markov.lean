import Lua2SC.Lib.Trie

/-!
# `stream.lua`: Markov chains of order k

`MarkovLearnO` goes over the sequence and counts, for every `order` values in a row,
which value has come next. The counts stand in nested tables, one for each of the
`order` values; at the end `explorenodes` puts in place of each table of counts the
list of the values and the list of their weights.

`MarkovStreamO` keeps its last `order` values in `memory`, a circle in which `pointer`
is the place of the oldest one. A call goes down the tables along these values. It
may find a place in `memory` that is empty, and fills it with one of the keys it is
at; or a value that is no key, and resets; or it gets to the end, and the weights
decide. So what it gives has been seen: `markov_windows`.

`RANDOM:value()` is the Mersenne twister's real on the closed interval: it can be 1,
and then `wchoice` chooses nothing. The stream gives nil and goes on without the
oldest value. What `pairs` gives comes in any order (`Pairs`), and the draws are any.
-/

namespace Lua2SC.Streams.Markov

open Lua2SC.Lua Lua2SC.Tries

/-! ## Learning -/

/-- The order in which `pairs` gives the entries of a table, and its keys. -/
structure Pairs (α : Type) where
  counts : List ((_ : α) × ℕ) → List ((_ : α) × ℕ)
  counts_perm : ∀ l, (counts l).Perm l
  keys : List α → List α
  keys_perm : ∀ l, (keys l).Perm l

/-- The order in which the entries have come. -/
def Pairs.same (α : Type) : Pairs α := ⟨id, List.Perm.refl, id, List.Perm.refl⟩

variable {α : Type} [DecidableEq α] (P : Pairs α)

/-- `Normalize`. -/
def Normalize (t : List ℕ) : List ℚ := t.map fun v : ℕ => (v : ℚ) / (t.sum : ℕ)

/-- `setmarkov`. -/
def setmarkov (v : LuaTable α ℕ) : List α × List ℚ :=
  ((P.counts v.entries).map Sigma.fst, Normalize ((P.counts v.entries).map Sigma.snd))

/-- Each value of the sequence from `order + 1` on, with the `order` values before it. -/
def windows (order : ℕ) (t : List α) : List (List α × α) :=
  (List.range (t.length - order)).filterMap fun i =>
    (t[i + order]?).map fun v => ((t.drop i).take order, v)

/-- What the learner leaves: tables of tables, `order` deep, of values and weights. -/
abbrev MarkTable (α : Type) (order : ℕ) := Trie α (List α × List ℚ) order

/-- `MarkovLearnO`. -/
def MarkovLearnO (t : List α) (order : ℕ) : LuaM (MarkTable α order) := do
  luaAssert (order > 0 ∧ order < t.length)
    "MarkovLearnO: order must be less than sequence length"
  return mapLeaves (setmarkov P) (learn order (windows order t))

/-! ## Playing -/

/-- What `RANDOM` gives in a call: `valuei(1, n)`, less one, and `value()`. -/
structure Draw where
  index : ℕ → ℕ
  value : ℚ

/-- `choose`. -/
def choose (a : List α) (d : Draw) : Option α := a[d.index a.length]?

/-- The loop of `wchoice`. -/
def wchoiceFrom (ra : ℚ) : ℚ → List α → List ℚ → Option α
  | sum, x :: a, v :: b => if ra ≥ sum ∧ ra < sum + v then some x else wchoiceFrom ra (sum + v) a b
  | _, _, _ => none

/-- `wchoice`, of weights that are normalized. -/
def wchoice (a : List α) (b : List ℚ) (d : Draw) : Option α := wchoiceFrom d.value 0 a b

/-- The fields of `MarkovStreamO` that change. -/
structure MarkovState (α : Type) where
  memory : ℕ → Option α
  pointer : ℕ

/-- What the loop of `MarkovStreamO:pnext` ends with. -/
inductive Found (α : Type) where
  | empty (pointer : ℕ) (candidates : List α)
  | nothing
  | node (a : List α) (b : List ℚ)

section Play

variable {order : ℕ} (marktable : MarkTable α order) (initable : Option (List α))

/-- What an empty place is filled with. -/
def candidates (i : ℕ) (keys : List α) : List α :=
  match initable with
  | some t => if i = 1 then t else P.keys keys
  | none => P.keys keys

/-- The loop of `MarkovStreamO:pnext` from turn `i` on. -/
def find (order : ℕ) (memory : ℕ → Option α) : {d : ℕ} → MarkTable α d → ℕ → ℕ → Found α
  | 0, node, _, _ => .node (Prod.fst node) (Prod.snd node)
  | _ + 1, node, i, pointer =>
    match memory pointer with
    | none => .empty pointer (candidates P initable i node.keys)
    | some x =>
      match node.child x with
      | none => .nothing
      | some node => find order memory node (i + 1) ((pointer + 1) % order)

/-- `MarkovStreamO:reset`. -/
def reset : MarkovState α := ⟨fun _ => none, 0⟩

/-- `MarkovStreamO:pnext`. -/
def pnext (d : Draw) (s : MarkovState α) : Option α × MarkovState α :=
  match find P initable order s.memory marktable 1 (s.pointer % order) with
  | .empty pointer candidates =>
    let v := choose candidates d
    (v, { s with memory := Function.update s.memory pointer v })
  | .nothing => (none, reset)
  | .node a b =>
    let res := wchoice a b d
    (res, ⟨Function.update s.memory (s.pointer % order) res, s.pointer + 1⟩)

/-- What the calls give, one for each draw. -/
def outputs : List Draw → MarkovState α → List (Option α)
  | [], _ => []
  | d :: ds, s =>
    let (v, s) := pnext P marktable initable d s
    v :: outputs ds s

end Play

/-! ## The circle of values -/

section Circle

variable {order : ℕ} (memory : ℕ → Option α) (pointer : ℕ)

/-- What is in `memory`, the oldest place first. -/
def circle (order : ℕ) (memory : ℕ → Option α) (pointer : ℕ) : List (Option α) :=
  (List.range order).map fun i => memory ((pointer + i) % order)

omit [DecidableEq α] in
theorem circle_getElem? {i : ℕ} (hi : i < order) :
    (circle order memory pointer)[i]? = some (memory ((pointer + i) % order)) := by
  simp [circle, hi]

/-- Two places of the circle are not the same. -/
theorem place_inj {p i j : ℕ} (hi : i < order) (hj : j < order)
    (h : (p + i) % order = (p + j) % order) : i = j := by
  have hmod : i ≡ j [MOD order] := Nat.ModEq.add_left_cancel' p h
  rwa [Nat.ModEq, Nat.mod_eq_of_lt hi, Nat.mod_eq_of_lt hj] at hmod

omit [DecidableEq α] in
theorem circle_set {i : ℕ} (hi : i < order) (v : Option α) :
    circle order (Function.update memory ((pointer + i) % order) v) pointer =
      (circle order memory pointer).set i v := by
  refine List.ext_getElem (by simp [circle]) fun j hj _ => ?_
  have hj : j < order := by simpa [circle] using hj
  by_cases hij : i = j
  · subst hij
    simp [circle]
  · have hne : (pointer + j) % order ≠ (pointer + i) % order :=
      fun h => hij (place_inj hi hj h.symm)
    simp [circle, hij, hne]

omit [DecidableEq α] in
/-- The oldest value goes and a new one comes. -/
theorem circle_push (h : 0 < order) (v : Option α) :
    circle order (Function.update memory (pointer % order) v) (pointer + 1) =
      (circle order memory pointer).tail ++ [v] := by
  refine List.ext_getElem (by simp [circle]; omega) fun j hj _ => ?_
  have hj : j < order := by simpa [circle] using hj
  by_cases hlast : j = order - 1
  · have hplace : (pointer + 1 + (order - 1)) % order = pointer % order := by
      rw [show pointer + 1 + (order - 1) = pointer + order by omega, Nat.add_mod_right]
    simp [circle, hlast, hplace, List.getElem_append_right]
  · have hidx : pointer + 1 + j = pointer + (j + 1) := by omega
    have hne : (pointer + (j + 1)) % order ≠ pointer % order := fun heq =>
      absurd (place_inj (p := pointer) (i := j + 1) (j := 0) (by omega) h heq) (by omega)
    have hlt : j < order - 1 := by omega
    rw [List.getElem_append_left (by simpa [circle] using hlt)]
    simp [circle, hidx, hne]

variable {P} (initable : Option (List α))

/-- **What the loop finds**: the first empty place, a value that is no key, or the end
of the path that the values are. -/
theorem find_cases :
    ∀ {d : ℕ} (node : MarkTable α d) (j : ℕ), j + d = order →
      match find P initable order memory node (j + 1) ((pointer + j) % order) with
      | .empty p _ => ∃ i, j ≤ i ∧ i < order ∧ p = (pointer + i) % order ∧ memory p = none ∧
          ∀ l, j ≤ l → l < i → memory ((pointer + l) % order) ≠ none
      | .nothing => True
      | .node a b => ∃ ks : List α, (circle order memory pointer).drop j = ks.map some ∧
          leaf node ks = some (a, b) := by
  intro d
  induction d with
  | zero =>
    intro node j hj
    refine ⟨[], ?_, rfl⟩
    rw [List.map_nil, List.drop_eq_nil_iff]
    simp [circle]
    omega
  | succ d ih =>
    intro node j hj
    have hlt : j < order := by omega
    have hhead := circle_getElem? memory pointer hlt
    cases hmem : memory ((pointer + j) % order) with
    | none =>
      have hfind : find P initable order memory node (j + 1) ((pointer + j) % order) =
          .empty ((pointer + j) % order) (candidates P initable (j + 1) node.keys) := by
        rw [find, hmem]
      rw [hfind]
      exact ⟨j, le_rfl, hlt, rfl, hmem, fun l hl hl' => absurd hl' (by omega)⟩
    | some x =>
      cases hchild : node.child x with
      | none =>
        have hfind : find P initable order memory node (j + 1) ((pointer + j) % order) =
            .nothing := by
          rw [find, hmem]
          simp only [hchild]
        rw [hfind]
        trivial
      | some s =>
        have hfind : find P initable order memory node (j + 1) ((pointer + j) % order) =
            find P initable order memory s (j + 1 + 1) ((pointer + (j + 1)) % order) := by
          rw [find, hmem]
          simp only [hchild]
          rw [Nat.mod_add_mod, Nat.add_assoc pointer]
        have hrest := ih s (j + 1) (by omega)
        rw [hfind]
        cases hs : find P initable order memory s (j + 1 + 1) ((pointer + (j + 1)) % order) with
        | empty p c =>
          rw [hs] at hrest
          obtain ⟨i, hji, hi, hp, hnone, hsome⟩ := hrest
          refine ⟨i, by omega, hi, hp, hnone, fun l hl hli => ?_⟩
          rcases Nat.eq_or_lt_of_le hl with rfl | hl
          · rw [hmem]
            exact Option.some_ne_none x
          · exact hsome l hl hli
        | nothing => trivial
        | node a b =>
          rw [hs] at hrest
          obtain ⟨ks, hks, hleaf⟩ := hrest
          refine ⟨x :: ks, ?_, ?_⟩
          · rw [hmem] at hhead
            obtain ⟨hlen, hget⟩ := List.getElem?_eq_some_iff.mp hhead
            rw [List.drop_eq_getElem_cons hlen, hget, hks]
            rfl
          · rw [leaf, hchild]
            exact hleaf

end Circle

/-! ## What has been learned -/

section Learned

variable {P} {t : List α} {order : ℕ}

omit [DecidableEq α] in
theorem mem_windows {ks : List α} {v : α} :
    (ks, v) ∈ windows order t ↔ ks.length = order ∧ ks ++ [v] <:+: t := by
  unfold windows
  rw [List.mem_filterMap]
  constructor
  · rintro ⟨i, -, hi⟩
    obtain ⟨w, hw, heq⟩ := Option.map_eq_some_iff.mp hi
    cases heq
    have hlt : i + order < t.length := (List.getElem?_eq_some_iff.mp hw).1
    refine ⟨by simp; omega, ?_⟩
    have htake : (t.drop i).take (order + 1) = (t.drop i).take order ++ [v] := by
      rw [List.take_add_one, List.getElem?_drop, hw]
      rfl
    rw [← htake]
    exact (List.take_prefix _ _).isInfix.trans (List.drop_suffix i t).isInfix
  · rintro ⟨hlen, a, b, hab⟩
    have ht : t = a ++ (ks ++ v :: b) := by rw [← hab]; simp
    refine ⟨a.length, ?_, ?_⟩
    · rw [List.mem_range, ht]
      simp
      omega
    · have hget : t[a.length + order]? = some v := by
        rw [ht, List.getElem?_append_right (by omega), List.getElem?_append_right (by omega)]
        simp [hlen]
      rw [hget, ht, List.drop_left, ← hlen, List.take_left]
      rfl

/-- **At the end of a path** stand the values that have followed it. -/
theorem leaf_markov {m : MarkTable α order} (hm : MarkovLearnO P t order = .ok m) {ks : List α}
    {a : List α} {b : List ℚ} (h : leaf m ks = some (a, b)) :
    followers (windows order t) ks ≠ [] ∧
      (a, b) = setmarkov P (tally (followers (windows order t) ks)) := by
  obtain ⟨u, hassert, hm⟩ := bind_ok.mp hm
  cases hm
  rw [leaf_mapLeaves, leaf_learn (luaAssert_ok.mp hassert).1
    fun w hw => (mem_windows.mp (show (w.1, w.2) ∈ _ from hw)).1] at h
  split at h
  next => cases h
  next hne => exact ⟨hne, (Option.some.inj h).symm⟩

theorem mem_followers {ks : List α} {v : α} :
    v ∈ followers (windows order t) ks ↔ ks.length = order ∧ ks ++ [v] <:+: t := by
  rw [← mem_windows, followers, List.mem_map]
  constructor
  · rintro ⟨w, hw, rfl⟩
    obtain ⟨hmem, hks⟩ := List.mem_filter.mp hw
    rw [← of_decide_eq_true hks]
    exact hmem
  · exact fun h => ⟨(ks, v), List.mem_filter.mpr ⟨h, decide_eq_true rfl⟩, rfl⟩

/-- The values are those that have followed, each once. -/
theorem setmarkov_values (vs : List α) : (setmarkov P (tally vs)).1.Perm vs.dedup :=
  ((P.counts_perm _).map Sigma.fst).trans (keys_tally vs)

omit [DecidableEq α] in
theorem wchoice_mem {a : List α} {b : List ℚ} {d : Draw} {x : α} (h : wchoice a b d = some x) :
    x ∈ a := by
  unfold wchoice at h
  generalize (0 : ℚ) = sum at h
  induction a generalizing b sum with
  | nil => cases h
  | cons y a ih =>
    cases b with
    | nil => cases h
    | cons v b =>
      rw [wchoiceFrom] at h
      split at h
      · exact Option.some.inj h ▸ List.mem_cons_self
      · exact List.mem_cons_of_mem _ (ih _ h)

end Learned

/-! ## A call -/

section Calls

variable {P} {t : List α} {order : ℕ}

/-- The places that are not empty come first, and hold the last values of the run. -/
def Recent (order : ℕ) (s : MarkovState α) (run : List α) : Prop :=
  ∃ vals : List α,
    circle order s.memory s.pointer = vals.map some ++ List.replicate (order - vals.length) none ∧
    vals.length ≤ order ∧ (run <:+ vals ∨ (vals.length = order ∧ vals <:+ run))

/-- Every window of the run has been seen. -/
def Seen (order : ℕ) (t run : List α) : Prop :=
  ∀ w : List α, w.length = order + 1 → w <:+: run → w <:+: t

omit [DecidableEq α] in
theorem recent_reset : Recent order (reset : MarkovState α) [] := by
  refine ⟨[], ?_, Nat.zero_le _, Or.inl List.nil_suffix⟩
  refine List.ext_getElem (by simp [circle]) fun i hi _ => ?_
  simp [circle, reset]

omit [DecidableEq α] in
/-- One more value makes one more window. -/
theorem Seen.concat {run : List α} {x : α} (h : Seen order t run)
    (hlast : ∀ w : List α, w.length = order → w <:+ run → w ++ [x] <:+: t) :
    Seen order t (run ++ [x]) := by
  intro w hw hpart
  rcases List.infix_concat_iff.mp hpart with hsuffix | hbefore
  · obtain ⟨a, ha⟩ := hsuffix
    rcases List.eq_nil_or_concat w with rfl | ⟨w', y, rfl⟩
    · cases hw
    · rw [List.concat_eq_append, ← List.append_assoc] at ha
      obtain ⟨hrun, hy⟩ := List.append_inj' ha rfl
      rw [List.concat_eq_append] at hw ⊢
      cases hy
      exact hlast w' (by simpa using hw) ⟨a, hrun⟩
  · exact h w hw hbefore

omit [DecidableEq α] in
/-- The first empty place is filled. -/
theorem circle_fill {vals : List α} (hlt : vals.length < order) (v : Option α) :
    (vals.map some ++ List.replicate (order - vals.length) none).set vals.length v =
      vals.map some ++ v :: List.replicate (order - (vals.length + 1)) none := by
  obtain ⟨n, hn⟩ : ∃ n, order - vals.length = n + 1 := ⟨order - vals.length - 1, by omega⟩
  rw [hn, List.replicate_succ, List.set_append_right _ _ (by simp)]
  simp
  omega

variable {m : MarkTable α order} (hm : MarkovLearnO P t order = .ok m)
  {initable : Option (List α)} {s : MarkovState α} {run : List α}

omit hm in
omit [DecidableEq α] in
/-- The first empty place is the one behind the values. -/
theorem first_empty {vals : List α}
    (hcircle : circle order s.memory s.pointer =
      vals.map some ++ List.replicate (order - vals.length) none)
    {i : ℕ} (hi : i < order) (hnone : s.memory ((s.pointer + i) % order) = none)
    (hsome : ∀ j < i, s.memory ((s.pointer + j) % order) ≠ none) : i = vals.length := by
  have hget := circle_getElem? s.memory s.pointer hi
  rw [hcircle, hnone] at hget
  rcases Nat.lt_trichotomy i vals.length with hlt | heq | hgt
  · rw [List.getElem?_append_left (by simpa using hlt)] at hget
    simp at hget
  · exact heq
  · refine absurd ?_ (hsome vals.length hgt)
    have hfirst := circle_getElem? s.memory s.pointer (hgt.trans hi)
    rw [hcircle, List.getElem?_append_right (by simp)] at hfirst
    simpa [List.getElem?_replicate, hgt.trans hi] using hfirst.symm

omit hm in
omit [DecidableEq α] in
/-- Without an empty place the circle holds the values. -/
theorem eq_of_full {vals ks : List α}
    (hcircle : circle order s.memory s.pointer =
      vals.map some ++ List.replicate (order - vals.length) none)
    (hks : circle order s.memory s.pointer = ks.map some) : vals = ks := by
  have hnil : order - vals.length = 0 := by
    by_contra hmore
    have hmem : (none : Option α) ∈ ks.map some := by
      rw [← hks, hcircle]
      exact List.mem_append_right _ (List.mem_replicate.mpr ⟨hmore, rfl⟩)
    simp at hmem
  rw [hnil, List.replicate_zero, List.append_nil] at hcircle
  exact List.map_injective_iff.mpr (Option.some_injective α) (hcircle.symm.trans hks)

omit hm in
omit [DecidableEq α] in
/-- A run with an empty place left goes on. -/
theorem recent_fill {vals : List α} (hlt : vals.length < order)
    (hcircle : circle order s.memory s.pointer =
      vals.map some ++ List.replicate (order - vals.length) none)
    (hrun : run <:+ vals) (v : Option α) :
    match v with
    | some x => Recent order { s with
        memory := Function.update s.memory ((s.pointer + vals.length) % order) v } (run ++ [x])
    | none => Recent order { s with
        memory := Function.update s.memory ((s.pointer + vals.length) % order) v } [] := by
  have hset := circle_set s.memory s.pointer hlt v
  rw [hcircle, circle_fill hlt] at hset
  cases v with
  | none =>
    refine ⟨vals, ?_, hlt.le, Or.inl List.nil_suffix⟩
    rw [show order - vals.length = order - (vals.length + 1) + 1 by omega, List.replicate_succ]
    exact hset
  | some x =>
    refine ⟨vals ++ [x], ?_, by simpa using hlt, Or.inl ?_⟩
    · rw [List.map_append, List.length_append, List.append_assoc]
      exact hset
    · obtain ⟨a, rfl⟩ := hrun
      exact ⟨a, (List.append_assoc ..).symm⟩

omit hm in
omit [DecidableEq α] in
/-- A run that fills the circle goes on without the oldest value. -/
theorem recent_push {vals : List α} (horder : 0 < order) (hlen : vals.length = order)
    (hcircle : circle order s.memory s.pointer = vals.map some)
    (hrun : run <:+ vals ∨ vals <:+ run) (v : Option α) :
    match v with
    | some x => Recent order
        ⟨Function.update s.memory (s.pointer % order) v, s.pointer + 1⟩ (run ++ [x])
    | none => Recent order ⟨Function.update s.memory (s.pointer % order) v, s.pointer + 1⟩ [] := by
  have hpush := circle_push s.memory s.pointer horder v
  rw [hcircle] at hpush
  obtain ⟨y, rest, rfl⟩ : ∃ y rest, vals = y :: rest := by
    cases vals with
    | nil => exact absurd hlen (by simpa using horder.ne)
    | cons y rest => exact ⟨y, rest, rfl⟩
  rw [List.length_cons] at hlen
  cases v with
  | none =>
    refine ⟨rest, ?_, by omega, Or.inl List.nil_suffix⟩
    rw [show order - rest.length = 1 by omega]
    exact hpush
  | some x =>
    refine ⟨rest ++ [x], ?_, by simp [hlen], ?_⟩
    · rw [List.length_append, show order - (rest.length + [x].length) = 0 by simp [hlen],
        List.map_append, List.replicate_zero, List.append_nil]
      exact hpush
    · by_cases hshort : run.length ≤ rest.length
      · -- the run began within the circle
        refine Or.inl ?_
        have hsuffix : run <:+ y :: rest := by
          rcases hrun with h | h
          · exact h
          · exact absurd h.length_le (by simp; omega)
        rcases List.suffix_cons_iff.mp hsuffix with rfl | ⟨a, ha⟩
        · exact absurd hshort (by simp)
        · exact ⟨a, by rw [← List.append_assoc, ha]⟩
      · refine Or.inr ⟨by simp [hlen], ?_⟩
        have hsuffix : y :: rest <:+ run := by
          rcases hrun with h | h
          · rw [h.eq_of_length (by have := h.length_le; simp at this ⊢; omega)]
          · exact h
        obtain ⟨a, rfl⟩ := hsuffix
        exact ⟨a ++ [y], by simp⟩

include hm

/-- **A call** gives a value that goes on with the run, or nil. -/
theorem pnext_recent (initable : Option (List α)) (d : Draw) (hrecent : Recent order s run)
    (hseen : Seen order t run) :
    match pnext P m initable d s with
    | (some x, s') => Recent order s' (run ++ [x]) ∧ Seen order t (run ++ [x])
    | (none, s') => Recent order s' [] := by
  obtain ⟨vals, hcircle, hle, hrun⟩ := hrecent
  have horder : 0 < order := by
    obtain ⟨u, hassert, -⟩ := bind_ok.mp hm
    exact (luaAssert_ok.mp hassert).1
  have hfind := @find_cases _ _ P _ s.memory s.pointer initable _ m 0 (Nat.zero_add order)
  rw [Nat.zero_add, Nat.add_zero] at hfind
  unfold pnext
  cases hf : find P initable order s.memory m 1 (s.pointer % order) with
  | empty p c =>
    rw [hf] at hfind
    obtain ⟨i, -, hi, rfl, hnone, hsome⟩ := hfind
    have hi' : i = vals.length :=
      first_empty hcircle hi hnone fun j hj => hsome j (Nat.zero_le j) hj
    subst hi'
    have hrun' : run <:+ vals := by
      rcases hrun with h | ⟨h, -⟩
      · exact h
      · omega
    have hfill := recent_fill hi hcircle hrun' (choose c d)
    dsimp only
    cases hc : choose c d with
    | none =>
      rw [hc] at hfill
      exact hfill
    | some x =>
      rw [hc] at hfill
      refine ⟨hfill, fun w hw hpart => ?_⟩
      have := hpart.length_le
      have := hrun'.length_le
      simp at *
      omega
  | nothing => exact recent_reset
  | node a b =>
    rw [hf] at hfind
    obtain ⟨ks, hks, hleaf⟩ := hfind
    rw [List.drop_zero] at hks
    have hkslen : ks.length = order := by
      have := congrArg List.length hks
      simpa [circle] using this.symm
    obtain rfl := eq_of_full hcircle hks
    have hrun' : run <:+ vals ∨ vals <:+ run := hrun.imp_right And.right
    have hpush := recent_push horder hkslen hks hrun' (wchoice a b d)
    dsimp only
    cases hc : wchoice a b d with
    | none =>
      rw [hc] at hpush
      exact hpush
    | some x =>
      rw [hc] at hpush
      refine ⟨hpush, hseen.concat fun w hw hsuffix => ?_⟩
      -- the window ends with the values in the circle, and the new one has followed them
      have hvals : w = vals := by
        rcases hrun' with h | h
        · exact (hsuffix.trans h).eq_of_length (hw.trans hkslen.symm)
        · exact (List.suffix_of_suffix_length_le hsuffix h (hw.trans hkslen.symm).le).eq_of_length
            (hw.trans hkslen.symm)
      obtain ⟨-, hab⟩ := leaf_markov hm hleaf
      have hx : x ∈ (setmarkov P (tally (followers (windows order t) vals))).1 := by
        rw [← hab]
        exact wchoice_mem hc
      rw [hvals]
      exact (mem_followers.mp (List.mem_dedup.mp (setmarkov_values _ |>.mem_iff.mp hx))).2

omit hm [DecidableEq α] in
theorem infix_of_map {w run : List α} (h : w.map some <:+: run.map some) : w <:+: run := by
  obtain ⟨l, hl, hmap⟩ := List.infix_map_iff.mp h
  rwa [List.map_injective_iff.mpr (Option.some_injective α) hmap]

/-- **In a run of calls** every window of values has been seen. -/
theorem outputs_seen (ds : List Draw) (hrecent : Recent order s run) (hseen : Seen order t run)
    {w : List α} (hw : w.length = order + 1)
    (hpart : w.map some <:+: run.map some ++ outputs P m initable ds s) : w <:+: t := by
  induction ds generalizing s run with
  | nil =>
    rw [outputs, List.append_nil] at hpart
    exact hseen w hw (infix_of_map hpart)
  | cons d ds ih =>
    have hcall := pnext_recent hm initable d hrecent hseen
    rw [outputs] at hpart
    generalize pnext P m initable d s = r at hcall hpart
    obtain ⟨v, s'⟩ := r
    cases v with
    | some x =>
      refine ih hcall.1 hcall.2 ?_
      rw [List.map_append, List.append_assoc]
      exact hpart
    | none =>
      -- no window goes over a nil
      have hstart : ∀ l : List (Option α), l <+: none :: outputs P m initable ds s' →
          (∀ v ∈ l, v ∈ w.map some) → l = [] := by
        intro l hl hsome
        rcases List.prefix_cons_iff.mp hl with rfl | ⟨l', rfl, -⟩
        · rfl
        · simpa using hsome none List.mem_cons_self
      have hafter : w.map some <:+: outputs P m initable ds s' → w <:+: t := fun h =>
        ih hcall (fun v hv hnil => by rw [List.infix_nil.mp hnil] at hv; cases hv) (by simpa using h)
      rcases List.infix_append_iff.mp hpart with h | h | ⟨l₁, l₂, hl, hl₁, hl₂⟩
      · exact hseen w hw (infix_of_map h)
      · rcases List.infix_cons_iff.mp h with h | h
        · have := hstart _ h fun v hv => hv
          simp at this
          simp [this] at hw
        · exact hafter h
      · have hnil := hstart l₂ hl₂ fun v hv => hl ▸ List.mem_append_right _ hv
        rw [hnil, List.append_nil] at hl
        exact hseen w hw (infix_of_map (hl ▸ hl₁.isInfix))

end Calls

/-! ## Frequencies -/

section Frequencies

variable {P} {t : List α} {order : ℕ}

/-- At how many places of the sequence the values stand. -/
def occurrences (w t : List α) : ℕ :=
  (List.range t.length).countP fun i => (t.drop i).take w.length = w

/-- Places behind the last one that counts do not matter. -/
theorem countP_range {p : ℕ → Bool} {n m : ℕ} (hnm : n ≤ m)
    (h : ∀ i, n ≤ i → i < m → p i = false) : (List.range m).countP p = (List.range n).countP p := by
  obtain ⟨j, rfl⟩ := Nat.exists_eq_add_of_le hnm
  have hzero : ((List.range j).map (n + ·)).countP p = 0 := by
    rw [List.countP_eq_zero]
    intro i hi
    obtain ⟨l, hl, rfl⟩ := List.mem_map.mp hi
    rw [h _ (Nat.le_add_right n l) (by simpa using List.mem_range.mp hl)]
    exact Bool.false_ne_true
  rw [List.range_add, List.countP_append, hzero, Nat.add_zero]

omit [DecidableEq α] in
/-- The windows that count, place by place. -/
theorem countP_windows {p : List α × α → Bool} {q : ℕ → Bool}
    (h : ∀ i v, t[i + order]? = some v → (p ((t.drop i).take order, v) ↔ q i)) :
    (windows order t).countP p = (List.range (t.length - order)).countP q := by
  rw [windows, List.countP_filterMap]
  refine List.countP_congr fun i hi => ?_
  have hlt : i + order < t.length := by
    have := List.mem_range.mp hi
    omega
  have hget := List.getElem?_eq_getElem hlt
  rw [hget]
  exact h i _ hget

theorem count_followers {ks : List α} (hks : ks.length = order) (v : α) :
    (followers (windows order t) ks).count v = occurrences (ks ++ [v]) t := by
  have hcount : (followers (windows order t) ks).count v =
      (windows order t).countP fun w => w.2 == v && decide (w.1 = ks) := by
    rw [followers, List.count, List.countP_map, List.countP_filter]
    rfl
  rw [hcount, occurrences, countP_range (Nat.sub_le t.length order)]
  · refine countP_windows fun i u hu => ?_
    have htake : (t.drop i).take (ks ++ [v]).length = (t.drop i).take order ++ [u] := by
      rw [List.length_append, hks, List.length_singleton, List.take_add_one, List.getElem?_drop, hu]
      rfl
    rw [htake, Bool.and_eq_true, beq_iff_eq, decide_eq_true_iff, decide_eq_true_iff]
    constructor
    · rintro ⟨rfl, rfl⟩
      rfl
    · intro heq
      obtain ⟨hl, hr⟩ := List.append_inj' heq rfl
      exact ⟨List.singleton_inj.mp hr, hl⟩
  · intro i hi _
    rw [decide_eq_false_iff_not]
    intro heq
    have := congrArg List.length heq
    simp only [List.length_take, List.length_drop, List.length_append, List.length_singleton] at this
    omega

theorem length_followers {ks : List α} (hks : ks.length = order) (horder : 0 < order) :
    (followers (windows order t) ks).length = occurrences ks t.dropLast := by
  have hcount : (followers (windows order t) ks).length =
      (windows order t).countP fun w => decide (w.1 = ks) := by
    rw [followers, List.length_map, List.countP_eq_length_filter]
  rw [hcount, occurrences, List.length_dropLast,
    countP_range (show t.length - order ≤ t.length - 1 by omega)]
  · refine countP_windows fun i u hu => ?_
    have hlt := (List.getElem?_eq_some_iff.mp hu).1
    have htake : (t.dropLast.drop i).take ks.length = (t.drop i).take order := by
      rw [hks, List.dropLast_eq_take, List.drop_take, List.take_take]
      congr 1
      omega
    rw [htake]
  · intro i hi _
    rw [decide_eq_false_iff_not]
    intro heq
    have := congrArg List.length heq
    simp only [List.length_take, List.length_drop, List.length_dropLast] at this
    omega

/-- **The weights are the relative frequencies** of what has followed. -/
theorem setmarkov_weights (vs : List α) {i : ℕ} {v : α} {q : ℚ}
    (hv : (setmarkov P (tally vs)).1[i]? = some v) (hq : (setmarkov P (tally vs)).2[i]? = some q) :
    q = (vs.count v : ℚ) / vs.length := by
  have hperm := P.counts_perm (tally vs).entries
  have hsum : ((P.counts (tally vs).entries).map Sigma.snd).sum = vs.length := by
    rw [(hperm.map Sigma.snd).sum_eq, sum_tally]
  unfold setmarkov Normalize at hv hq
  rw [hsum] at hq
  obtain ⟨e, he, rfl⟩ := Option.map_eq_some_iff.mp ((List.getElem?_map ..).symm.trans hv)
  rw [List.map_map, List.getElem?_map, he] at hq
  obtain rfl := Option.some.inj hq
  rw [← (mem_entries_tally (hperm.mem_iff.mp (List.mem_of_getElem? he))).2]
  rfl

/-- The weights add up to 1. -/
theorem setmarkov_sum {vs : List α} (hne : vs ≠ []) : (setmarkov P (tally vs)).2.sum = 1 := by
  have hperm := P.counts_perm (tally vs).entries
  have hsum : ((P.counts (tally vs).entries).map Sigma.snd).sum = vs.length := by
    rw [(hperm.map Sigma.snd).sum_eq, sum_tally]
  have hpos : (vs.length : ℚ) ≠ 0 := by
    simpa using hne
  have hdiv : ∀ (l : List ℕ) (n : ℚ), (l.map fun v : ℕ => (v : ℚ) / n).sum = (l.sum : ℕ) / n := by
    intro l n
    induction l with
    | nil => simp
    | cons v l ih =>
      rw [List.map_cons, List.sum_cons, ih, List.sum_cons, ← add_div]
      push_cast
      rfl
  unfold setmarkov Normalize
  rw [hdiv, hsum, div_self hpos]

end Frequencies

/-! ## The law -/

/-- What has been learned of `order` values in a row: each value that has followed them,
once, with its relative frequency. -/
structure Learned (t ks a : List α) (b : List ℚ) : Prop where
  length : a.length = b.length
  nodup : a.Nodup
  values : ∀ v, v ∈ a ↔ ks ++ [v] <:+: t
  weights : ∀ (i : ℕ) (v : α) (q : ℚ), a[i]? = some v → b[i]? = some q →
    q = (occurrences (ks ++ [v]) t : ℚ) / occurrences ks t.dropLast
  sum : b.sum = 1

/-- **A Markov stream of order k gives what has been learned**: whatever is drawn, every
window of k + 1 values that come one after the other between two resets is in the
sequence, and what has been learned of k values in a row are the relative frequencies of
the values that follow them. -/
theorem markov_windows (P : Pairs α) (t : List α) (order : ℕ) (horder : 0 < order)
    (hlt : order < t.length) :
    ∃ m, MarkovLearnO P t order = .ok m ∧
      (∀ (initable : Option (List α)) (draws : List Draw) (w : List α), w.length = order + 1 →
        w.map some <:+: outputs P m initable draws reset → w <:+: t) ∧
      (∀ (ks a : List α) (b : List ℚ), leaf m ks = some (a, b) → Learned t ks a b) ∧
      ∀ ks : List α, (leaf m ks).isSome ↔ ks.length = order ∧ ∃ v, ks ++ [v] <:+: t := by
  have hm : MarkovLearnO P t order =
      .ok (mapLeaves (setmarkov P) (learn order (windows order t))) := by
    rw [MarkovLearnO, luaAssert_true ⟨horder, hlt⟩]
    rfl
  have hleaf : ∀ ks, leaf (mapLeaves (setmarkov P) (learn order (windows order t))) ks =
      (if followers (windows order t) ks = [] then none
        else some (tally (followers (windows order t) ks))).map (setmarkov P) := by
    intro ks
    rw [leaf_mapLeaves, leaf_learn horder
      fun w hw => (mem_windows.mp (show (w.1, w.2) ∈ _ from hw)).1]
  refine ⟨_, hm, fun initable draws w hw hpart => ?_, fun ks a b h => ?_, fun ks => ?_⟩
  · refine outputs_seen hm draws recent_reset (fun v hv hnil => ?_) hw (by simpa using hpart)
    rw [List.infix_nil.mp hnil] at hv
    cases hv
  · obtain ⟨hne, hab⟩ := leaf_markov hm h
    obtain ⟨v, hv⟩ := List.exists_mem_of_ne_nil _ hne
    have hks := (mem_followers.mp hv).1
    have ha : a = (setmarkov P (tally (followers (windows order t) ks))).1 := congrArg Prod.fst hab
    have hb : b = (setmarkov P (tally (followers (windows order t) ks))).2 := congrArg Prod.snd hab
    subst ha hb
    refine ⟨by simp [setmarkov, Normalize], ?_, fun v => ?_, fun i v q hv hq => ?_,
      setmarkov_sum hne⟩
    · exact (setmarkov_values _).nodup_iff.mpr (List.nodup_dedup _)
    · rw [(setmarkov_values _).mem_iff, List.mem_dedup, mem_followers, and_iff_right hks]
    · rw [setmarkov_weights _ hv hq, count_followers hks, length_followers hks horder]
  · rw [hleaf, Option.isSome_map]
    constructor
    · intro h
      by_cases hnil : followers (windows order t) ks = []
      · rw [if_pos hnil] at h
        cases h
      · obtain ⟨v, hv⟩ := List.exists_mem_of_ne_nil _ hnil
        exact ⟨(mem_followers.mp hv).1, v, (mem_followers.mp hv).2⟩
    · rintro ⟨hks, v, hv⟩
      rw [if_neg (List.ne_nil_of_mem (mem_followers.mpr ⟨hks, hv⟩))]
      rfl

/-- A sequence of three values and order 2. -/
theorem markov_windows_three :
    ∃ m, MarkovLearnO (Pairs.same ℕ) [1, 2, 1] 2 = .ok m ∧
      (∀ (initable : Option (List ℕ)) (draws : List Draw) (w : List ℕ), w.length = 2 + 1 →
        w.map some <:+: outputs (Pairs.same ℕ) m initable draws reset → w <:+: [1, 2, 1]) ∧
      (∀ (ks a : List ℕ) (b : List ℚ), leaf m ks = some (a, b) → Learned [1, 2, 1] ks a b) ∧
      ∀ ks : List ℕ, (leaf m ks).isSome ↔ ks.length = 2 ∧ ∃ v, ks ++ [v] <:+: [1, 2, 1] :=
  markov_windows (Pairs.same ℕ) [1, 2, 1] 2 (by decide) (by decide)

end Lua2SC.Streams.Markov
