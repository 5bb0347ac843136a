import Mathlib.Data.Finset.Card
import Mathlib.Data.List.AList
import Mathlib.Data.List.Induction
import Mathlib.Data.List.Nodup

/-!
# Graphs of tables, written as assignments

A table has values under keys, and a value is a leaf or a table again, so tables make a
graph in which they can be shared and contain themselves. `emit` writes the graph below a
value as a list of assignments to paths from one variable: a table that is met for the
first time is made and filled, in the order in which its pairs are enumerated, and one
that was met before is read from the path where it was made.

`emit_iso` says that running the assignments builds an isomorphic graph, with the same
keys, leaves, sharing and cycles, for every order in which the pairs are enumerated and
whatever the variable held before. What
carries it is that no assignment overwrites anything: each goes to a key that is not there
yet (`Fresh`), so a path that has a value keeps it (`Le`), and a table is complete when its
own loop is over, whatever is met meanwhile (`Post`).
-/

namespace Lua2SC.TableGraph

/-- A value, with leaves and keys in `A`. -/
inductive Val (A : Type) where
  | leaf (a : A)
  | table (i : ℕ)
deriving DecidableEq, Repr

/-- Tables by other names. -/
def Val.map {A : Type} (f : ℕ → ℕ) (v : Val A) : Val A :=
  match v with
  | .leaf a => .leaf a
  | .table i => .table (f i)

/-- A table that is being filled. -/
abbrev Table (A : Type) := AList fun _ : A => Val A

/-- The variable and the tables there are. -/
structure State (A : Type) where
  root : Option (Val A)
  store : List (Table A)

/-- The right-hand side of an assignment. -/
inductive Rhs (A : Type) where
  | leaf (a : A)
  | new
  | path (p : List A)
deriving DecidableEq, Repr

/-- `variable[k₁]…[kₙ] = rhs`. -/
structure Assign (A : Type) where
  path : List A
  rhs : Rhs A
deriving DecidableEq, Repr

variable {A : Type} [DecidableEq A]

/-! ## Running the assignments -/

namespace State

variable (s : State A)

/-- `v[k]`. -/
def get (v : Val A) (k : A) : Option (Val A) :=
  match v with
  | .leaf _ => none
  | .table j => (s.store[j]?).bind fun t => t.lookup k

/-- `v[k₁]…[kₙ]`. -/
def walk (v : Val A) : List A → Option (Val A)
  | [] => some v
  | k :: p => (s.get v k).bind fun w => walk w p

/-- The value of a path. -/
def eval (p : List A) : Option (Val A) := s.root.bind fun v => s.walk v p

/-- Where a path assigns to: the variable, or a key of a table. -/
def slot (p : List A) : Option (Option (ℕ × A)) :=
  match p.getLast? with
  | none => some none
  | some k =>
    match s.eval p.dropLast with
    | some (.table j) => some (some (j, k))
    | _ => none

def put (slot : Option (ℕ × A)) (v : Val A) : State A :=
  match slot with
  | none => { s with root := some v }
  | some (j, k) => { s with store := s.store.modify j fun t => t.insert k v }

def assign (p : List A) (v : Val A) : Option (State A) := (s.slot p).map fun l => s.put l v

/-- The state with more tables. -/
def grow (new : List (Table A)) : State A := { s with store := s.store ++ new }

end State

def exec1 (s : State A) (a : Assign A) : Option (State A) :=
  match a.rhs with
  | .leaf x => s.assign a.path (.leaf x)
  | .new => (s.grow [∅]).assign a.path (.table s.store.length)
  | .path q => (s.eval q).bind (s.assign a.path)

def exec (s : State A) (prog : List (Assign A)) : Option (State A) := prog.foldlM exec1 s

/-! ## Writing them -/

/-- The places where tables were made. -/
abbrev Saved (A : Type) := AList fun _ : ℕ => List A

/-- The assignments that make a value at a path. -/
def emit (pairs : ℕ → List (A × Val A)) : ℕ → Val A → List A → Saved A →
    Option (List (Assign A) × Saved A)
  | 0, _, _, _ => none
  | _ + 1, .leaf x, p, saved => some ([⟨p, .leaf x⟩], saved)
  | fuel + 1, .table i, p, saved =>
    match saved.lookup i with
    | some q => some ([⟨p, .path q⟩], saved)
    | none =>
      (pairs i).foldlM (fun acc kv =>
        (emit pairs fuel kv.2 (p ++ [kv.1]) acc.2).map fun r => (acc.1 ++ r.1, r.2))
        ([⟨p, .new⟩], saved.insert i p)

/-! ## What an assignment changes -/

section Basics

variable {s s' : State A} {p : List A} {k : A} {v w : Val A} {slot : Option (ℕ × A)}

theorem walk_concat (v : Val A) (p : List A) (k : A) :
    s.walk v (p ++ [k]) = (s.walk v p).bind fun w => s.get w k := by
  induction p generalizing v with
  | nil =>
    show (s.get v k).bind (fun w => some w) = s.get v k
    exact Option.bind_fun_some _
  | cons k' p ih =>
    show (s.get v k').bind (fun w => s.walk w (p ++ [k])) = ((s.get v k').bind _).bind _
    rw [Option.bind_assoc]
    exact congrArg _ (funext ih)

theorem eval_concat (p : List A) (k : A) :
    s.eval (p ++ [k]) = (s.eval p).bind fun w => s.get w k := by
  unfold State.eval
  rw [Option.bind_assoc]
  exact congrArg _ (funext fun v => walk_concat v p k)

theorem slot_concat {j : ℕ} (h : s.eval p = some (.table j)) :
    s.slot (p ++ [k]) = some (some (j, k)) := by
  unfold State.slot
  rw [List.getLast?_concat, List.dropLast_concat]
  dsimp only
  rw [h]

/-- Everything that has a value has it still. -/
structure Le (s s' : State A) : Prop where
  root : ∀ v, s.root = some v → s'.root = some v
  get : ∀ v k w, s.get v k = some w → s'.get v k = some w

theorem Le.trans {s'' : State A} (h : Le s s') (h' : Le s' s'') : Le s s'' where
  root v hv := h'.root v (h.root v hv)
  get v k w hw := h'.get v k w (h.get v k w hw)

theorem Le.walk (h : Le s s') (v : Val A) (p : List A) {w : Val A} (hw : s.walk v p = some w) :
    s'.walk v p = some w := by
  induction p generalizing v with
  | nil => exact hw
  | cons k p ih =>
    obtain ⟨u, hu, hrest⟩ := Option.bind_eq_some_iff.mp hw
    exact Option.bind_eq_some_iff.mpr ⟨u, h.get v k u hu, ih u hrest⟩

theorem Le.eval (h : Le s s') (hw : s.eval p = some w) : s'.eval p = some w := by
  obtain ⟨v, hv, hwalk⟩ := Option.bind_eq_some_iff.mp hw
  exact Option.bind_eq_some_iff.mpr ⟨v, h.root v hv, h.walk v p hwalk⟩

/-- There is nothing where an assignment goes. -/
def Fresh (s : State A) (slot : Option (ℕ × A)) : Prop :=
  match slot with
  | none => s.root = none
  | some (j, k) => ∃ t, s.store[j]? = some t ∧ t.lookup k = none

theorem le_put (h : Fresh s slot) (v : Val A) : Le s (s.put slot v) := by
  cases slot with
  | none =>
    refine ⟨fun w hw => ?_, fun u k w hw => hw⟩
    rw [show s.root = none from h] at hw
    cases hw
  | some jk =>
    obtain ⟨j, k₀⟩ := jk
    obtain ⟨t, ht, hk₀⟩ := h
    refine ⟨fun w hw => hw, fun u k w hw => ?_⟩
    cases u with
    | leaf a => cases hw
    | table j' =>
      obtain ⟨t', ht', hw⟩ := Option.bind_eq_some_iff.mp hw
      show ((s.store.modify j _)[j']?).bind _ = some w
      rw [List.getElem?_modify]
      split
      next hj =>
        subst hj
        rw [ht] at ht' ⊢
        cases ht'
        have hne : k ≠ k₀ := by
          rintro rfl
          rw [hk₀] at hw
          cases hw
        show (t.insert k₀ v).lookup k = some w
        rw [AList.lookup_insert_ne hne]
        exact hw
      next =>
        rw [ht']
        exact hw

theorem le_grow (s : State A) (new : List (Table A)) : Le s (s.grow new) := by
  refine ⟨fun w hw => hw, fun u k w hw => ?_⟩
  cases u with
  | leaf a => cases hw
  | table j =>
    obtain ⟨t, ht, hw⟩ := Option.bind_eq_some_iff.mp hw
    refine Option.bind_eq_some_iff.mpr ⟨t, ?_, hw⟩
    show (s.store ++ new)[j]? = some t
    rw [List.getElem?_append_left (List.getElem?_eq_some_iff.mp ht).1]
    exact ht

theorem Le.place (h : Le s s') {l : Option (ℕ × A)} (hs : s.slot p = some l) :
    s'.slot p = some l := by
  cases p using List.reverseRecOn with
  | nil => exact hs
  | append_singleton p k =>
    unfold State.slot at hs
    rw [List.getLast?_concat, List.dropLast_concat] at hs
    dsimp only at hs
    split at hs
    next j hj =>
      cases hs
      exact slot_concat (h.eval hj)
    next => cases hs

/-- An assignment is read back. -/
theorem eval_put (hslot : s.slot p = some slot) (hfresh : Fresh s slot) (v : Val A) :
    (s.put slot v).eval p = some v := by
  cases p using List.reverseRecOn with
  | nil =>
    cases hslot
    rfl
  | append_singleton p k =>
    unfold State.slot at hslot
    rw [List.getLast?_concat, List.dropLast_concat] at hslot
    dsimp only at hslot
    split at hslot
    next j hj =>
      cases hslot
      have hle := le_put hfresh v
      obtain ⟨t, ht, -⟩ := hfresh
      rw [eval_concat, hle.eval hj]
      show ((s.store.modify j _)[j]?).bind _ = some v
      rw [List.getElem?_modify, ht]
      show (if j = j then t.insert k v else t).lookup k = some v
      rw [if_pos rfl]
      exact AList.lookup_insert _
    next => cases hslot

theorem put_grow (h : ∀ j k, slot = some (j, k) → j < s.store.length) (v : Val A)
    (new : List (Table A)) : (s.grow new).put slot v = (s.put slot v).grow new := by
  cases slot with
  | none => rfl
  | some jk =>
    obtain ⟨j, k⟩ := jk
    have hj := h j k rfl
    refine congrArg (State.mk s.root) (List.ext_getElem? fun i => ?_)
    show ((s.store ++ new).modify j _)[i]? = (s.store.modify j _ ++ new)[i]?
    rw [List.getElem?_modify]
    by_cases hi : i < s.store.length
    · rw [List.getElem?_append_left hi, List.getElem?_append_left (by simpa using hi),
        List.getElem?_modify]
    · rw [List.getElem?_append_right (not_lt.mp hi),
        List.getElem?_append_right (by simpa using hi), List.length_modify]
      have hne : j ≠ i := by omega
      simp [hne]

theorem get_table {s : State A} {i : ℕ} {k : A} {v : Val A} :
    s.get (.table i) k = some v ↔ ∃ t, s.store[i]? = some t ∧ t.lookup k = some v :=
  Option.bind_eq_some_iff

theorem get_lt {i : ℕ} (h : s.get (.table i) k = some v) : i < s.store.length := by
  obtain ⟨t, ht, -⟩ := get_table.mp h
  exact (List.getElem?_eq_some_iff.mp ht).1

theorem get_put {j : ℕ} (hj : j < s.store.length) (k : A) (v : Val A) (i : ℕ) (k' : A) :
    (s.put (some (j, k)) v).get (.table i) k' =
      if i = j ∧ k' = k then some v else s.get (.table i) k' := by
  show ((s.store.modify j _)[i]?).bind _ = if _ then _ else (s.store[i]?).bind _
  rw [List.getElem?_modify]
  by_cases hij : i = j
  · subst hij
    rw [List.getElem?_eq_getElem hj]
    show AList.lookup k' (if i = i then s.store[i].insert k v else s.store[i]) =
      if _ then _ else AList.lookup k' s.store[i]
    rw [if_pos rfl]
    by_cases hk : k' = k
    · rw [if_pos ⟨rfl, hk⟩, hk, AList.lookup_insert]
    · rw [if_neg fun h => hk h.2, AList.lookup_insert_ne hk]
  · have hji : j ≠ i := fun h => hij h.symm
    rw [if_neg fun h : i = j ∧ k' = k => hij h.1]
    simp only [if_neg hji]
    cases s.store[i]? with
    | none => rfl
    | some t => rfl

/-- Tables that come later change none that are there. -/
theorem get_grown (h : s.store <+: s'.store) {i : ℕ} (hi : i < s.store.length) (k : A) :
    s'.get (.table i) k = s.get (.table i) k := by
  obtain ⟨new, hnew⟩ := h
  show (s'.store[i]?).bind _ = (s.store[i]?).bind _
  rw [← hnew, List.getElem?_append_left hi]

end Basics

/-! ## What is written -/

section Emit

variable (pairs : ℕ → List (A × Val A))

/-- The tables made so far are where they were made. -/
structure Good (saved : Saved A) (f : ℕ → ℕ) (s : State A) : Prop where
  known : ∀ i p, saved.lookup i = some p → s.eval p = some (.table (f i)) ∧ f i < s.store.length
  inj : ∀ i j p q, saved.lookup i = some p → saved.lookup j = some q → f i = f j → i = j

/-- A table holds these pairs. -/
def Holds (f : ℕ → ℕ) (l : List (A × Val A)) (t : Table A) : Prop :=
  ∀ k w, t.lookup k = some w ↔ ∃ u, (k, u) ∈ l ∧ w = u.map f

/-- The tables in a list of pairs are made. -/
def Met (saved : Saved A) (l : List (A × Val A)) : Prop :=
  ∀ k j, (k, Val.table j) ∈ l → ∃ p, saved.lookup j = some p

/-- A table is complete. -/
structure Done (saved : Saved A) (f : ℕ → ℕ) (s : State A) (i : ℕ) : Prop where
  holds : ∃ t, s.store[f i]? = some t ∧ Holds f (pairs i) t
  met : Met saved (pairs i)

/-- What making a value does. -/
structure Post (slot : Option (ℕ × A)) (v : Val A) (saved : Saved A) (f : ℕ → ℕ) (s : State A)
    (saved' : Saved A) (f' : ℕ → ℕ) (s' : State A) : Prop where
  agree : ∀ i p, saved.lookup i = some p → saved'.lookup i = some p ∧ f' i = f i
  good : Good saved' f' s'
  shape : ∃ new, s' = (s.put slot (v.map f')).grow new
  here : ∀ i, v = .table i → ∃ p, saved'.lookup i = some p
  done : ∀ i p, saved'.lookup i = some p → saved.lookup i = none → Done pairs saved' f' s' i

variable {pairs} {saved saved' : Saved A} {f f' : ℕ → ℕ} {s s' : State A}
  {slot : Option (ℕ × A)} {p : List A} {v : Val A}

omit [DecidableEq A] in
theorem Val.map_congr (h : ∀ i, v = .table i → f' i = f i) : v.map f' = v.map f := by
  cases v with
  | leaf a => rfl
  | table i => exact congrArg Val.table (h i rfl)

theorem length_put (s : State A) (slot : Option (ℕ × A)) (v : Val A) :
    (s.put slot v).store.length = s.store.length := by
  cases slot with
  | none => rfl
  | some jk => exact List.length_modify _ _ _

theorem good_put_grow (h : Good saved f s) (hfresh : Fresh s slot) (v : Val A)
    (new : List (Table A)) : Good saved f ((s.put slot v).grow new) := by
  have hle : Le s ((s.put slot v).grow new) := (le_put hfresh v).trans (le_grow _ new)
  refine ⟨fun i p hp => ⟨hle.eval (h.known i p hp).1, ?_⟩, h.inj⟩
  show f i < ((s.put slot v).store ++ new).length
  rw [List.length_append, length_put]
  exact Nat.lt_add_right _ (h.known i p hp).2

theorem fresh_lt (h : Fresh s slot) (j : ℕ) (k : A) (hslot : slot = some (j, k)) :
    j < s.store.length := by
  subst hslot
  obtain ⟨t, ht, -⟩ := h
  exact (List.getElem?_eq_some_iff.mp ht).1

/-! ### One assignment -/

/-- A leaf. -/
theorem post_leaf (h : Good saved f s) (hfresh : Fresh s slot) (x : A) :
    Post pairs slot (.leaf x) saved f s saved f (s.put slot (.leaf x)) where
  agree i p hp := ⟨hp, rfl⟩
  good := by
    have hgood := good_put_grow h hfresh (.leaf x) []
    rw [State.grow, List.append_nil] at hgood
    exact hgood
  shape := ⟨[], by rw [State.grow, List.append_nil]; rfl⟩
  here i hi := by cases hi
  done i p hp hnone := by rw [hp] at hnone; cases hnone

/-- A table that was met before. -/
theorem post_path (h : Good saved f s) (hfresh : Fresh s slot) {i : ℕ} {q : List A}
    (hq : saved.lookup i = some q) :
    Post pairs slot (.table i) saved f s saved f (s.put slot (.table (f i))) where
  agree i p hp := ⟨hp, rfl⟩
  good := by
    have hgood := good_put_grow h hfresh (.table (f i)) []
    rw [State.grow, List.append_nil] at hgood
    exact hgood
  shape := ⟨[], by rw [State.grow, List.append_nil]; rfl⟩
  here j hj := by cases hj; exact ⟨q, hq⟩
  done i p hp hnone := by rw [hp] at hnone; cases hnone

/-! ### A table and its pairs -/

/-- What holds in the loop over the pairs of table `i`, behind the pairs `pre`. -/
structure Loop (pairs : ℕ → List (A × Val A)) (slot : Option (ℕ × A)) (i : ℕ) (p : List A)
    (saved : Saved A) (f : ℕ → ℕ) (s : State A) (pre : List (A × Val A)) (saved' : Saved A)
    (f' : ℕ → ℕ) (s' : State A) : Prop where
  agree : ∀ j q, saved.lookup j = some q → saved'.lookup j = some q ∧ f' j = f j
  good : Good saved' f' s'
  here : saved'.lookup i = some p ∧ f' i = s.store.length
  shape : ∃ t new, s' = (s.put slot (.table s.store.length)).grow (t :: new) ∧ Holds f' pre t
  met : Met saved' pre
  done : ∀ j q, saved'.lookup j = some q → saved.lookup j = none → j ≠ i → Done pairs saved' f' s' j

/-- The table is made. -/
theorem loop_new (h : Good saved f s) (hslot : s.slot p = some slot) (hfresh : Fresh s slot) {i : ℕ}
    (hnew : saved.lookup i = none) :
    Loop pairs slot i p saved f s [] (saved.insert i p) (Function.update f i s.store.length)
      ((s.put slot (.table s.store.length)).grow [∅]) := by
  have hne : ∀ {j q}, saved.lookup j = some q → j ≠ i := by
    rintro j q hq rfl
    rw [hnew] at hq
    cases hq
  have hsaved : ∀ {j q}, (saved.insert i p).lookup j = some q →
      (j = i ∧ q = p) ∨ (j ≠ i ∧ saved.lookup j = some q) := by
    intro j q hq
    by_cases hj : j = i
    · subst hj
      rw [AList.lookup_insert] at hq
      exact .inl ⟨rfl, (Option.some.inj hq).symm⟩
    · rw [AList.lookup_insert_ne hj] at hq
      exact .inr ⟨hj, hq⟩
  have hgood := good_put_grow h hfresh (.table s.store.length) [∅]
  refine ⟨fun j q hq => ⟨?_, ?_⟩, ⟨fun j q hq => ?_, fun j j' q q' hq hq' heq => ?_⟩, ⟨?_, ?_⟩,
    ⟨∅, [], rfl, fun k w => ?_⟩, fun k j hmem => ?_, fun j q hq hnone hj => ?_⟩
  · rw [AList.lookup_insert_ne (hne hq)]
    exact hq
  · exact Function.update_of_ne (hne hq) _ _
  · rcases hsaved hq with ⟨rfl, rfl⟩ | ⟨hj, hq⟩
    · rw [Function.update_self]
      refine ⟨(le_grow _ _).eval (eval_put hslot hfresh _), ?_⟩
      show s.store.length < ((s.put slot _).store ++ [∅]).length
      rw [List.length_append, length_put]
      exact Nat.lt_succ_self _
    · rw [Function.update_of_ne hj]
      exact hgood.known j q hq
  · -- the new table is behind all others
    rcases hsaved hq with ⟨hj, -⟩ | ⟨hj, hold⟩ <;> rcases hsaved hq' with ⟨hj', -⟩ | ⟨hj', hold'⟩
    · exact hj.trans hj'.symm
    · rw [hj, Function.update_self, Function.update_of_ne hj'] at heq
      exact absurd heq (Nat.ne_of_gt (h.known j' q' hold').2)
    · rw [hj', Function.update_self, Function.update_of_ne hj] at heq
      exact absurd heq (Nat.ne_of_lt (h.known j q hold).2)
    · rw [Function.update_of_ne hj, Function.update_of_ne hj'] at heq
      exact h.inj j j' q q' hold hold' heq
  · exact AList.lookup_insert _
  · exact Function.update_self _ _ _
  · constructor
    · intro hw
      cases hw
    · intro hu
      obtain ⟨u, hmem, -⟩ := hu
      cases hmem
  · cases hmem
  · rcases hsaved hq with ⟨rfl, -⟩ | ⟨-, hq⟩
    · exact absurd rfl hj
    · rw [hnone] at hq
      cases hq

omit [DecidableEq A] in
theorem grow_grow (s : State A) (new new' : List (Table A)) :
    (s.grow new).grow new' = s.grow (new ++ new') :=
  congrArg (State.mk s.root) (List.append_assoc _ _ _)

omit [DecidableEq A] in
/-- The table behind the first ones. -/
theorem modify_length (l : List (Table A)) (t : Table A) (new : List (Table A))
    (g : Table A → Table A) : (l ++ t :: new).modify l.length g = l ++ g t :: new := by
  induction l with
  | nil => rfl
  | cons x l ih => exact congrArg (x :: ·) ih

omit [DecidableEq A] in
/-- The values of pairs whose tables are made keep their names. -/
theorem Met.map_eq {saved : Saved A} {l : List (A × Val A)} (h : Met saved l)
    (hagree : ∀ j q, saved.lookup j = some q → f' j = f j) {k : A} {u : Val A} (hu : (k, u) ∈ l) :
    u.map f' = u.map f := by
  refine Val.map_congr fun j hj => ?_
  subst hj
  obtain ⟨q, hq⟩ := h k j hu
  exact hagree j q hq

/-- A table with one more pair. -/
theorem Holds.insert {l : List (A × Val A)} {t : Table A} (h : Holds f l t) {k : A}
    (hk : k ∉ l.map Prod.fst) (u : Val A) (hmap : ∀ k' u', (k', u') ∈ l → u'.map f' = u'.map f) :
    Holds f' (l ++ [(k, u)]) (t.insert k (u.map f')) := by
  intro k' w
  by_cases hkey : k' = k
  · subst hkey
    rw [AList.lookup_insert, Option.some.injEq]
    constructor
    · rintro rfl
      exact ⟨u, List.mem_append_right _ List.mem_cons_self, rfl⟩
    · intro hmem
      obtain ⟨u', hmem, rfl⟩ := hmem
      rcases List.mem_append.mp hmem with hmem | hmem
      · exact absurd (List.mem_map.mpr ⟨_, hmem, rfl⟩) hk
      · cases List.mem_singleton.mp hmem
        rfl
  · rw [AList.lookup_insert_ne hkey, h k' w]
    constructor
    · intro hmem
      obtain ⟨u', hmem, hw⟩ := hmem
      exact ⟨u', List.mem_append_left _ hmem, hw.trans (hmap k' u' hmem).symm⟩
    · intro hmem
      obtain ⟨u', hmem, hw⟩ := hmem
      rcases List.mem_append.mp hmem with hmem | hmem
      · exact ⟨u', hmem, hw.trans (hmap k' u' hmem)⟩
      · cases List.mem_singleton.mp hmem
        exact absurd rfl hkey

/-- A complete table stays so while another one is filled. -/
theorem Done.put {i j : ℕ} (h : Done pairs saved f s i) (hne : f i ≠ j) {k : A} {w : Val A}
    {new : List (Table A)} (hs' : s' = (s.put (some (j, k)) w).grow new)
    (hsaved : ∀ i p, saved.lookup i = some p → saved'.lookup i = some p ∧ f' i = f i)
    (hi : f' i = f i) : Done pairs saved' f' s' i where
  holds := by
    obtain ⟨t, ht, hholds⟩ := h.holds
    refine ⟨t, ?_, fun k' w => ?_⟩
    · rw [hi, hs']
      show ((s.store.modify j _) ++ new)[f i]? = some t
      have hlt := (List.getElem?_eq_some_iff.mp ht).1
      rw [List.getElem?_append_left (by simpa using hlt), List.getElem?_modify, ht]
      show some (if j = f i then _ else t) = some t
      rw [if_neg (Ne.symm hne)]
    · rw [hholds k' w]
      refine exists_congr fun u => and_congr_right fun hu => ?_
      rw [h.met.map_eq (fun j q hq => (hsaved j q hq).2) hu]
  met := by
    intro k' j' hmem
    obtain ⟨q, hq⟩ := h.met k' j' hmem
    exact ⟨q, (hsaved j' q hq).1⟩

/-- A pair is added. -/
theorem loop_step {s₁ s₂ : State A} {saved₁ saved₂ : Saved A} {f₁ f₂ : ℕ → ℕ} {i : ℕ}
    {pre : List (A × Val A)} {k : A} {u : Val A}
    (h : Loop pairs slot i p saved f s pre saved₁ f₁ s₁) (hk : k ∉ pre.map Prod.fst)
    (hpost : Post pairs (some (s.store.length, k)) u saved₁ f₁ s₁ saved₂ f₂ s₂) :
    Loop pairs slot i p saved f s (pre ++ [(k, u)]) saved₂ f₂ s₂ := by
  obtain ⟨t, new, hs₁, hholds⟩ := h.shape
  obtain ⟨new₂, hs₂⟩ := hpost.shape
  have hagree : ∀ j q, saved₁.lookup j = some q → f₂ j = f₁ j := fun j q hq => (hpost.agree j q hq).2
  -- the new pair goes to the table of the loop
  have hput : s₁.put (some (s.store.length, k)) (u.map f₂) =
      (s.put slot (.table s.store.length)).grow (t.insert k (u.map f₂) :: new) := by
    have hmodify := modify_length (s.put slot (.table s.store.length)).store t new
      fun t => t.insert k (u.map f₂)
    rw [length_put] at hmodify
    rw [hs₁]
    exact congrArg (State.mk _) hmodify
  refine ⟨fun j q hq => ?_, hpost.good, ?_, ⟨t.insert k (u.map f₂), new ++ new₂, ?_, ?_⟩,
    fun k' j hmem => ?_, fun j q hq hnone hj => ?_⟩
  · obtain ⟨hq₁, hf₁⟩ := h.agree j q hq
    obtain ⟨hq₂, hf₂⟩ := hpost.agree j q hq₁
    exact ⟨hq₂, hf₂.trans hf₁⟩
  · obtain ⟨hq, hf⟩ := hpost.agree i p h.here.1
    exact ⟨hq, hf.trans h.here.2⟩
  · rw [hs₂, hput, grow_grow]
    rfl
  · exact hholds.insert hk u fun k' u' hmem => h.met.map_eq hagree hmem
  · rcases List.mem_append.mp hmem with hmem | hmem
    · obtain ⟨q, hq⟩ := h.met k' j hmem
      exact ⟨q, (hpost.agree j q hq).1⟩
    · cases List.mem_singleton.mp hmem
      exact hpost.here j rfl
  · cases hq₁ : saved₁.lookup j with
    | none => exact hpost.done j q hq hq₁
    | some q₁ =>
      -- a table that was complete is not the one of the loop
      have hne : f₁ j ≠ s.store.length := by
        intro heq
        exact hj (h.good.inj j i q₁ p hq₁ h.here.1 (heq.trans h.here.2.symm))
      exact (h.done j q₁ hq₁ hnone hj).put hne hs₂ hpost.agree (hagree j q₁ hq₁)

/-- The table that is made is behind the ones there were. -/
theorem getElem?_made (s : State A) (slot : Option (ℕ × A)) (v : Val A) (t : Table A)
    (new : List (Table A)) : ((s.put slot v).grow (t :: new)).store[s.store.length]? = some t := by
  show ((s.put slot v).store ++ t :: new)[s.store.length]? = some t
  rw [List.getElem?_append_right (le_of_eq (length_put s slot v)), length_put, Nat.sub_self]
  rfl

/-- The loop is over. -/
theorem Loop.post {i : ℕ} (h : Loop pairs slot i p saved f s (pairs i) saved' f' s') :
    Post pairs slot (.table i) saved f s saved' f' s' := by
  obtain ⟨t, new, hs', hholds⟩ := h.shape
  have hmap : (Val.table i : Val A).map f' = .table s.store.length := congrArg Val.table h.here.2
  refine ⟨h.agree, h.good, ⟨t :: new, ?_⟩, fun j hj => ?_, fun j q hq hnone => ?_⟩
  · rw [hmap]
    exact hs'
  · cases hj
    exact ⟨p, h.here.1⟩
  · by_cases hj : j = i
    · subst hj
      refine ⟨⟨t, ?_, hholds⟩, h.met⟩
      rw [h.here.2, hs']
      exact getElem?_made ..
    · exact h.done j q hq hnone hj

/-- Where the next pair goes: a key that the table of the loop does not have. -/
theorem Loop.next {s₁ : State A} {saved₁ : Saved A} {f₁ : ℕ → ℕ} {i : ℕ} {pre : List (A × Val A)}
    {k : A} (h : Loop pairs slot i p saved f s pre saved₁ f₁ s₁) (hk : k ∉ pre.map Prod.fst) :
    s₁.slot (p ++ [k]) = some (some (s.store.length, k)) ∧
      Fresh s₁ (some (s.store.length, k)) := by
  obtain ⟨t, new, hs₁, hholds⟩ := h.shape
  refine ⟨?_, t, ?_, ?_⟩
  · have heval := (h.good.known i p h.here.1).1
    rw [h.here.2] at heval
    exact slot_concat heval
  · rw [hs₁]
    exact getElem?_made ..
  · cases hlookup : t.lookup k with
    | none => rfl
    | some w =>
      obtain ⟨u, hin, -⟩ := (hholds k w).mp hlookup
      exact absurd (List.mem_map.mpr ⟨_, hin, rfl⟩) hk

/-! ### All of it -/

theorem exec_append {prog prog' : List (Assign A)} (h : exec s prog = some s') :
    exec s (prog ++ prog') = exec s' prog' := by
  unfold exec at h ⊢
  rw [List.foldlM_append, h]
  rfl

theorem exec_singleton (s : State A) (a : Assign A) : exec s [a] = exec1 s a := by
  show (exec1 s a).bind some = exec1 s a
  exact Option.bind_fun_some _

/-- The tables that are not made yet. -/
def unsaved (ids : Finset ℕ) (saved : Saved A) : ℕ :=
  (ids.filter fun i => saved.lookup i = none).card

omit [DecidableEq A] in
theorem unsaved_le {ids : Finset ℕ} (h : ∀ i p, saved.lookup i = some p → saved'.lookup i = some p) :
    unsaved ids saved' ≤ unsaved ids saved := by
  refine Finset.card_le_card fun i hi => ?_
  rw [Finset.mem_filter] at hi ⊢
  refine ⟨hi.1, ?_⟩
  cases hsaved : saved.lookup i with
  | none => rfl
  | some p => exact absurd (hi.2.symm.trans (h i p hsaved)) (Option.some_ne_none p).symm

omit [DecidableEq A] in
theorem unsaved_insert {ids : Finset ℕ} {i : ℕ} (hi : i ∈ ids) (hnew : saved.lookup i = none) :
    unsaved ids (saved.insert i p) < unsaved ids saved := by
  have hi' : (saved.insert i p).lookup i ≠ none := by
    rw [AList.lookup_insert]
    exact Option.some_ne_none p
  refine Finset.card_lt_card (Finset.ssubset_iff_of_subset ?_ |>.mpr
    ⟨i, Finset.mem_filter.mpr ⟨hi, hnew⟩, fun hmem => hi' (Finset.mem_filter.mp hmem).2⟩)
  intro j hj
  rw [Finset.mem_filter] at hj ⊢
  refine ⟨hj.1, ?_⟩
  have hne : j ≠ i := by
    rintro rfl
    exact hi' hj.2
  rw [AList.lookup_insert_ne hne] at hj
  exact hj.2

/-- The assignment of a new table. -/
theorem exec_new (hslot : s.slot p = some slot) (hfresh : Fresh s slot) :
    exec s [⟨p, .new⟩] = some ((s.put slot (.table s.store.length)).grow [∅]) := by
  rw [exec_singleton]
  have hslot' : (s.grow [∅]).slot p = some slot := (le_grow s [∅]).place hslot
  show ((s.grow [∅]).slot p).map _ = _
  rw [hslot']
  exact congrArg some (put_grow (fresh_lt hfresh) _ _)

variable (pairs) in
/-- Every value with fewer tables to make than the fuel is made. -/
def Makes (ids : Finset ℕ) (fuel : ℕ) : Prop :=
  ∀ (v : Val A) (p : List A) (saved : Saved A) (f : ℕ → ℕ) (s : State A)
    (slot : Option (ℕ × A)), unsaved ids saved < fuel → (∀ i, v = .table i → i ∈ ids) →
    Good saved f s → s.slot p = some slot → Fresh s slot →
    ∃ prog saved' s' f', emit pairs fuel v p saved = some (prog, saved') ∧
      exec s prog = some s' ∧ Post pairs slot v saved f s saved' f' s'

/-- The loop over the pairs of a table, when their values are made. -/
theorem emit_loop {ids : Finset ℕ} {fuel : ℕ} (hmakes : Makes pairs ids fuel) {i : ℕ}
    (hids : ∀ k j, (k, Val.table j) ∈ pairs i → j ∈ ids)
    (hnodup : ((pairs i).map Prod.fst).Nodup) :
    ∀ (es pre : List (A × Val A)) (prog₁ : List (Assign A)) (saved₁ : Saved A)
      (f₁ : ℕ → ℕ) (s₁ : State A), pairs i = pre ++ es → exec s prog₁ = some s₁ →
      unsaved ids saved₁ < fuel → Loop pairs slot i p saved f s pre saved₁ f₁ s₁ →
      ∃ prog' saved' s' f', es.foldlM (fun acc kv =>
        (emit pairs fuel kv.2 (p ++ [kv.1]) acc.2).map fun r => (acc.1 ++ r.1, r.2))
          (prog₁, saved₁) = some (prog', saved') ∧ exec s prog' = some s' ∧
        Loop pairs slot i p saved f s (pairs i) saved' f' s' := by
  intro es
  induction es with
  | nil =>
    intro pre prog₁ saved₁ f₁ s₁ hpairs hexec _ hloop
    rw [List.append_nil] at hpairs
    exact ⟨prog₁, saved₁, s₁, f₁, rfl, hexec, hpairs ▸ hloop⟩
  | cons kv es ih =>
    intro pre prog₁ saved₁ f₁ s₁ hpairs hexec hcount hloop
    obtain ⟨k, u⟩ := kv
    have hmem : (k, u) ∈ pairs i := by
      rw [hpairs]
      exact List.mem_append_right _ List.mem_cons_self
    have hk : k ∉ pre.map Prod.fst := by
      rw [hpairs, List.map_append, List.map_cons] at hnodup
      exact fun hin => (List.nodup_append.mp hnodup).2.2 k hin k List.mem_cons_self rfl
    obtain ⟨hslot₁, hfresh₁⟩ := hloop.next hk
    obtain ⟨prog₂, saved₂, s₂, f₂, hemit, hexec₂, hpost⟩ := hmakes u (p ++ [k]) saved₁ f₁ s₁ _
      hcount (fun j hj => hids k j (hj ▸ hmem)) hloop.good hslot₁ hfresh₁
    have hcount₂ := (unsaved_le fun j q hq => (hpost.agree j q hq).1).trans_lt hcount
    obtain ⟨prog', saved', s', f', hfold, hexec', hpost'⟩ := ih (pre ++ [(k, u)])
      (prog₁ ++ prog₂) saved₂ f₂ s₂ (by rw [hpairs, List.append_assoc]; rfl)
      ((exec_append hexec).trans hexec₂) hcount₂ (loop_step hloop hk hpost)
    refine ⟨prog', saved', s', f', ?_, hexec', hpost'⟩
    rw [List.foldlM_cons, hemit]
    exact hfold

/-- **Every value is made.** -/
theorem emit_post {ids : Finset ℕ} (hids : ∀ i ∈ ids, ∀ k j, (k, Val.table j) ∈ pairs i → j ∈ ids)
    (hnodup : ∀ i ∈ ids, ((pairs i).map Prod.fst).Nodup) (fuel : ℕ) : Makes pairs ids fuel := by
  induction fuel with
  | zero => exact fun _ _ _ _ _ _ h => absurd h (Nat.not_lt_zero _)
  | succ fuel ih =>
    intro v p saved f s slot hfuel hv hgood hslot hfresh
    cases v with
    | leaf x =>
      refine ⟨_, _, _, _, rfl, ?_, post_leaf hgood hfresh x⟩
      rw [exec_singleton]
      show (s.slot p).map _ = _
      rw [hslot]
      rfl
    | table i =>
      cases hsaved : saved.lookup i with
      | some q =>
        refine ⟨[⟨p, .path q⟩], saved, _, _, ?_, ?_, post_path hgood hfresh hsaved⟩
        · rw [emit, hsaved]
        · rw [exec_singleton]
          show (s.eval q).bind (s.assign p) = _
          rw [(hgood.known i q hsaved).1]
          show (s.slot p).map _ = _
          rw [hslot]
          rfl
      | none =>
        have hi := hv i rfl
        have hless := unsaved_insert (p := p) hi hsaved
        obtain ⟨prog', saved', s', f', hfold, hexec, hpost⟩ := emit_loop ih (hids i hi)
          (hnodup i hi) (pairs i) [] _ _ _ _ rfl (exec_new hslot hfresh) (by omega)
          (loop_new hgood hslot hfresh hsaved)
        refine ⟨prog', saved', s', f', ?_, hexec, hpost.post⟩
        rw [emit, hsaved]
        exact hfold

/-- What the variable was before does not matter. -/
theorem exec_emit_root {fuel : ℕ} {prog : List (Assign A)} (r : Option (Val A))
    (old : List (Table A)) (h : emit pairs fuel v [] ∅ = some (prog, saved)) :
    exec ⟨r, old⟩ prog = exec ⟨none, old⟩ prog := by
  cases fuel with
  | zero => cases h
  | succ fuel =>
    cases v with
    | leaf x =>
      cases h
      rfl
    | table i =>
      rw [emit, AList.lookup_empty] at h
      -- the first assignment is to the variable, and the others come behind it
      have hfirst : ∀ (es : List (A × Val A)) (acc : List (Assign A) × Saved A),
          es.foldlM (fun acc kv =>
            (emit pairs fuel kv.2 ([] ++ [kv.1]) acc.2).map fun r => (acc.1 ++ r.1, r.2)) acc =
              some (prog, saved) → ∃ rest, prog = acc.1 ++ rest := by
        intro es
        induction es with
        | nil =>
          intro acc hacc
          cases hacc
          exact ⟨[], (List.append_nil _).symm⟩
        | cons kv es ih =>
          intro acc hacc
          obtain ⟨acc', hacc', hrest⟩ := Option.bind_eq_some_iff.mp hacc
          obtain ⟨r', -, rfl⟩ := Option.map_eq_some_iff.mp hacc'
          obtain ⟨rest, hprog⟩ := ih _ hrest
          exact ⟨r'.1 ++ rest, hprog.trans (List.append_assoc _ _ _)⟩
      obtain ⟨rest, rfl⟩ := hfirst _ _ h
      rfl

/-! ### The keys and leaves that are written -/

def Val.Forall (P : A → Prop) : Val A → Prop
  | .leaf a => P a
  | .table _ => True

def Rhs.Forall (P : A → Prop) : Rhs A → Prop
  | .leaf a => P a
  | .new => True
  | .path q => ∀ k ∈ q, P k

def Assign.Forall (P : A → Prop) (a : Assign A) : Prop := (∀ k ∈ a.path, P k) ∧ a.rhs.Forall P

/-- The keys on the way to the tables that are made. -/
def Saved.Forall (P : A → Prop) (saved : Saved A) : Prop :=
  ∀ i q, saved.lookup i = some q → ∀ k ∈ q, P k

variable (pairs) in
/-- What holds of the keys and leaves of a value and of where it goes holds of
those that are written. -/
def Writes (P : A → Prop) (ids : Finset ℕ) (fuel : ℕ) : Prop :=
  ∀ (v : Val A) (p : List A) (saved : Saved A) {prog : List (Assign A)} {saved' : Saved A},
    (∀ i, v = .table i → i ∈ ids) → v.Forall P → (∀ k ∈ p, P k) → Saved.Forall P saved →
    emit pairs fuel v p saved = some (prog, saved') →
    (∀ a ∈ prog, a.Forall P) ∧ Saved.Forall P saved'

omit [DecidableEq A] in
theorem forall_loop {P : A → Prop} {ids : Finset ℕ} {fuel i : ℕ}
    (hwrites : Writes pairs P ids fuel) (hids : ∀ k j, (k, Val.table j) ∈ pairs i → j ∈ ids)
    (hpairs : ∀ kv ∈ pairs i, P kv.1 ∧ kv.2.Forall P) (hp : ∀ k ∈ p, P k)
    {prog : List (Assign A)} (es : List (A × Val A)) (acc : List (Assign A) × Saved A)
    (hmem : ∀ kv ∈ es, kv ∈ pairs i) (hprog : ∀ a ∈ acc.1, a.Forall P)
    (hsaved : Saved.Forall P acc.2)
    (heq : es.foldlM (fun acc kv =>
      (emit pairs fuel kv.2 (p ++ [kv.1]) acc.2).map fun r => (acc.1 ++ r.1, r.2)) acc =
        some (prog, saved')) :
    (∀ a ∈ prog, a.Forall P) ∧ Saved.Forall P saved' := by
  induction es generalizing acc with
  | nil =>
    cases heq
    exact ⟨hprog, hsaved⟩
  | cons kv es ih =>
    have hkv := hmem kv List.mem_cons_self
    obtain ⟨hk, hu⟩ := hpairs kv hkv
    obtain ⟨acc', hstep, hrest⟩ := Option.bind_eq_some_iff.mp heq
    obtain ⟨r, hr, rfl⟩ := Option.map_eq_some_iff.mp hstep
    have hpath : ∀ k ∈ p ++ [kv.1], P k := by
      intro k hmem'
      rcases List.mem_append.mp hmem' with hmem' | hmem'
      · exact hp k hmem'
      · rw [List.mem_singleton.mp hmem']
        exact hk
    have hin : ∀ j, kv.2 = .table j → j ∈ ids := by
      intro j hj
      refine hids kv.1 j ?_
      rw [← hj]
      exact hkv
    obtain ⟨hprog', hsaved'⟩ := hwrites kv.2 (p ++ [kv.1]) acc.2 hin hu hpath hsaved hr
    refine ih (acc.1 ++ r.1, r.2) (fun kv' hkv' => hmem kv' (List.mem_cons_of_mem _ hkv')) ?_
      hsaved' hrest
    intro a ha
    rcases List.mem_append.mp ha with ha | ha
    · exact hprog a ha
    · exact hprog' a ha

omit [DecidableEq A] in
/-- **What holds of the pairs holds of what is written.** -/
theorem emit_forall {P : A → Prop} {ids : Finset ℕ}
    (hids : ∀ i ∈ ids, ∀ k j, (k, Val.table j) ∈ pairs i → j ∈ ids)
    (hpairs : ∀ i ∈ ids, ∀ kv ∈ pairs i, P kv.1 ∧ kv.2.Forall P) (fuel : ℕ) :
    Writes pairs P ids fuel := by
  induction fuel with
  | zero => exact fun _ _ _ _ _ _ _ _ _ h => by cases h
  | succ fuel ih =>
    intro v p saved prog saved' hv hleaf hp hsaved h
    cases v with
    | leaf x =>
      cases h
      refine ⟨fun a ha => ?_, hsaved⟩
      rw [List.mem_singleton.mp ha]
      exact ⟨hp, hleaf⟩
    | table i =>
      have hi := hv i rfl
      cases hlookup : saved.lookup i with
      | some q =>
        rw [emit, hlookup] at h
        cases h
        refine ⟨fun a ha => ?_, hsaved⟩
        rw [List.mem_singleton.mp ha]
        exact ⟨hp, hsaved i q hlookup⟩
      | none =>
        rw [emit, hlookup] at h
        refine forall_loop ih (hids i hi) (hpairs i hi) hp (pairs i) _ (fun kv hkv => hkv)
          (fun a ha => ?_) (fun j q hq => ?_) h
        · rw [List.mem_singleton.mp ha]
          exact ⟨hp, trivial⟩
        · by_cases hj : j = i
          · subst hj
            rw [AList.lookup_insert] at hq
            cases hq
            exact hp
          · rw [AList.lookup_insert_ne hj] at hq
            exact hsaved j q hq

end Emit

/-! ## The law -/

/-- The tables below a value. -/
inductive Below (store : List (Table A)) (v : Val A) : ℕ → Prop
  | top {i} (h : v = .table i) : Below store v i
  | inside {i j : ℕ} {t : Table A} {k : A} (hi : Below store v i) (ht : store[i]? = some t)
      (hk : t.lookup k = some (.table j)) : Below store v j

/-- **The graph below `v'` is the graph below `v`**, by the renaming `f`: no two tables become
one, and every table has the same keys with the same leaves and the renamed tables. -/
structure Iso (store : List (Table A)) (v : Val A) (store' : List (Table A)) (v' : Val A)
    (f : ℕ → ℕ) : Prop where
  value : v' = v.map f
  inj : ∀ i j, Below store v i → Below store v j → f i = f j → i = j
  table : ∀ i, Below store v i → ∃ t t' : Table A, store[i]? = some t ∧ store'[f i]? = some t' ∧
    ∀ k, t'.lookup k = (t.lookup k).map (Val.map f)

theorem Iso.get {s s' : State A} {v v' : Val A} {f : ℕ → ℕ} (h : Iso s.store v s'.store v' f)
    {i : ℕ} (hi : Below s.store v i) (k : A) :
    s'.get (.table (f i)) k = (s.get (.table i) k).map (Val.map f) := by
  obtain ⟨t, t', ht, ht', hlookup⟩ := h.table i hi
  show (s'.store[f i]?).bind _ = ((s.store[i]?).bind _).map _
  rw [ht, ht']
  exact hlookup k

theorem table_of_get {s s' : State A} {f : ℕ → ℕ} {i i' : ℕ} (hi : i < s.store.length)
    (hi' : i' < s'.store.length)
    (h : ∀ k, s'.get (.table i') k = (s.get (.table i) k).map (Val.map f)) :
    ∃ t t' : Table A, s.store[i]? = some t ∧ s'.store[i']? = some t' ∧
      ∀ k, t'.lookup k = (t.lookup k).map (Val.map f) := by
  refine ⟨_, _, List.getElem?_eq_getElem hi, List.getElem?_eq_getElem hi', fun k => ?_⟩
  have hk : (s'.store[i']?.bind fun t => t.lookup k) =
    (s.store[i]?.bind fun t => t.lookup k).map (Val.map f) := h k
  rw [List.getElem?_eq_getElem hi, List.getElem?_eq_getElem hi'] at hk
  exact hk

/-- A value with the tables below it. -/
structure Graph (A : Type) [DecidableEq A] where
  store : List (Table A)
  root : Val A
  root_lt : ∀ i, root = .table i → i < store.length
  store_lt : ∀ (i : ℕ) (t : Table A) (k : A) (j : ℕ), store[i]? = some t →
    t.lookup k = some (.table j) → j < store.length

/-- All keys and leaves are such. -/
structure Graph.Forall (P : A → Prop) (g : Graph A) : Prop where
  root : g.root.Forall P
  store : ∀ (i : ℕ) (t : Table A) (k : A) (v : Val A), g.store[i]? = some t →
    t.lookup k = some v → P k ∧ v.Forall P

/-- The pairs of every table, in any order. -/
structure Graph.Enumerates (g : Graph A) (pairs : ℕ → List (A × Val A)) : Prop where
  nodup : ∀ i < g.store.length, ((pairs i).map Prod.fst).Nodup
  mem : ∀ (i : ℕ) (t : Table A), g.store[i]? = some t → ∀ k v, (k, v) ∈ pairs i ↔ t.lookup k = some v

namespace Graph.Enumerates

variable {g : Graph A} {pairs : ℕ → List (A × Val A)} (h : g.Enumerates pairs)
include h

theorem pair {i : ℕ} (hi : i ∈ Finset.range g.store.length) {k : A} {v : Val A}
    (hmem : (k, v) ∈ pairs i) : ∃ t : Table A, g.store[i]? = some t ∧ t.lookup k = some v := by
  have hlt := Finset.mem_range.mp hi
  have ht : g.store[i]? = some g.store[i] := List.getElem?_eq_getElem hlt
  exact ⟨_, ht, (h.mem i _ ht k v).mp hmem⟩

theorem inside : ∀ i ∈ Finset.range g.store.length, ∀ k j, (k, Val.table j) ∈ pairs i →
    j ∈ Finset.range g.store.length := by
  intro i hi k j hmem
  obtain ⟨t, ht, hk⟩ := h.pair hi hmem
  exact Finset.mem_range.mpr (g.store_lt i t k j ht hk)

theorem written {P : A → Prop} (hP : g.Forall P) {fuel : ℕ} {prog : List (Assign A)}
    {saved : Saved A} (hemit : emit pairs fuel g.root [] ∅ = some (prog, saved)) :
    ∀ a ∈ prog, a.Forall P := by
  refine (emit_forall h.inside (fun i hi kv hkv => ?_) fuel g.root [] ∅
    (fun i hi => Finset.mem_range.mpr (g.root_lt i hi)) hP.root (fun k hk => ?_)
    (fun i q hq => ?_) hemit).1
  · obtain ⟨t, ht, hk⟩ := h.pair hi hkv
    exact hP.store i t kv.1 kv.2 ht hk
  · exact absurd hk List.not_mem_nil
  · rw [AList.lookup_empty] at hq
    cases hq

end Graph.Enumerates

/-- **The assignments build the graph**, in whatever order the pairs are enumerated, behind the
tables there are already. -/
theorem emit_iso {g : Graph A} {pairs : ℕ → List (A × Val A)} (h : g.Enumerates pairs) {fuel : ℕ}
    (hfuel : g.store.length < fuel) (r : Option (Val A)) (old : List (Table A)) :
    ∃ prog saved s v f, emit pairs fuel g.root [] ∅ = some (prog, saved) ∧
      exec ⟨r, old⟩ prog = some s ∧ s.root = some v ∧ old <+: s.store ∧
      Iso g.store g.root s.store v f := by
  have hgood : Good (∅ : Saved A) id ⟨none, old⟩ := by
    refine ⟨fun i p hp => ?_, fun i j p q hp => ?_⟩
    · cases hp
    · cases hp
  have hcount : unsaved (Finset.range g.store.length) (∅ : Saved A) < fuel := by
    refine (Finset.card_filter_le _ _).trans_lt ?_
    rw [Finset.card_range]
    exact hfuel
  obtain ⟨prog, saved, s, f, hemit, hexec, hpost⟩ := emit_post h.inside
    (fun i hi => h.nodup i (Finset.mem_range.mp hi)) fuel g.root [] ∅ id ⟨none, old⟩ none hcount
    (fun i hi => Finset.mem_range.mpr (g.root_lt i hi)) hgood rfl rfl
  obtain ⟨new, hs⟩ := hpost.shape
  have hsaved : ∀ i, Below g.store g.root i → i < g.store.length ∧ ∃ p, saved.lookup i = some p := by
    intro i hi
    induction hi with
    | top hi => exact ⟨g.root_lt _ hi, hpost.here _ hi⟩
    | @inside i j t k _ ht hk ih =>
      obtain ⟨-, p, hp⟩ := ih
      exact ⟨g.store_lt _ _ _ _ ht hk, (hpost.done i p hp rfl).met k j ((h.mem i t ht k _).mpr hk)⟩
  refine ⟨prog, saved, s, g.root.map f, f, hemit, (exec_emit_root r old hemit).trans hexec,
    by rw [hs]; rfl, ⟨new, by rw [hs]; rfl⟩, rfl, fun i j hi hj => ?_, fun i hi => ?_⟩
  · obtain ⟨-, p, hp⟩ := hsaved i hi
    obtain ⟨-, q, hq⟩ := hsaved j hj
    exact hpost.good.inj i j p q hp hq
  · obtain ⟨hlt, p, hp⟩ := hsaved i hi
    obtain ⟨t', ht', hholds⟩ := (hpost.done i p hp rfl).holds
    have ht : g.store[i]? = some g.store[i] := List.getElem?_eq_getElem hlt
    refine ⟨g.store[i], t', ht, ht', fun k => Option.ext fun w => ?_⟩
    rw [hholds k w, Option.map_eq_some_iff]
    refine exists_congr fun u => ?_
    rw [h.mem i _ ht k u]
    exact and_congr_right fun _ => eq_comm

end Lua2SC.TableGraph
