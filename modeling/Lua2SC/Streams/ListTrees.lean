import Lua2SC.Streams.ListStream

/-!
# Nested lists of streams

A list of `LS` may hold values and further lists, to any depth. What such a tree
gives is read off it (`Tree.flat`): every list gives the concatenation of what its
elements give, `r` times. `nested_lists` says that the code does the same, one
value at every call, then gives nil, and then all of it again; and that the loops
of a call end, within a number of turns that is read off the tree too
(`Tree.turns`).

The argument goes backwards through a list. At its end there is nothing left to
give (`leads_end`); before an element there is what it gives, and then what is
given behind it (`leads_atom`, `leads_stream`); behind the last element there is
what is given before the first one of the next round (`nextval_wrap`).
-/

namespace Lua2SC.Streams

open Lua2SC.Sources

variable {V E : Type}

/-! ## Trees -/

/-- A value, or `LS(t, r)` over a list that is not empty. -/
inductive Tree (V : Type) where
  | atom (v : V)
  | LS (len : ℕ) (t : Fin (len + 1) → Tree V) (r : ℕ)

/-- The tree as an element of a list: a value, or a new `ListStream`. -/
def Tree.item : Tree V → Item V E
  | .atom v => .atom v
  | .LS _ t r => .stream (Streams.LS (List.ofFn fun i => (t i).item) r)

/-- What it gives. -/
def Tree.flat : Tree V → List V
  | .atom v => [v]
  | .LS _ t r => (List.replicate r (List.ofFn fun i => (t i).flat).flatten).flatten

/-- A bound on the turns of its loops. -/
def Tree.turns : Tree V → ℕ
  | .atom _ => 0
  | .LS len t r => 2 * (len + 1) * r + 2 + (List.ofFn fun i => (t i).turns).sum

/-! ## One list -/

/-- What an element gives. -/
def Item.Gives (N : ℕ) : Item V E → List V → Prop
  | .atom v, xs => xs = [v]
  | .stream o, xs => o.Cycles N xs

theorem Item.Gives.restarts {N : ℕ} {it : Item V E} {xs : List V} (h : it.Gives N xs) :
    it.source.Restarts := by
  cases it with
  | atom v => exact fun _ => rfl
  | stream o => exact (show o.Cycles N xs from h).restarts

section OneList

variable {list : List (Item V E)} {r n : ℕ}

/-- Before element `i` in round `c`. -/
def before (list : List (Item V E)) (c i : ℕ) : ListState list := ⟨States.init _, i + 1, c, false⟩

/-- Within element `i` in round `c`. -/
def within (c i : ℕ) (s : (part (list.map Item.source) i).S) : ListState list :=
  ⟨Function.update (States.init _) i s, i + 2, c, true⟩

/-- With `m` turns the next call answers, and the list goes on to give `xs`. -/
def Leads (r n : ℕ) (s : ListState list) (xs : List V) (m : ℕ) : Prop :=
  ∀ turns, m ≤ turns → ∃ s',
    (∀ e, ListStream.nextval list (fun creps => (creps : ℤ) == (r : ℤ)) n turns e s =
      .ok (xs.head?, s', e)) ∧
    ((xs = [] ∧ s' = before list 0 0) ∨
      (xs ≠ [] ∧ (LS list r).Plays n s' xs.tail (before list 0 0)))

/-- With enough fuel for the next call the list gives `xs`. -/
theorem Leads.plays {s : ListState list} {xs : List V} {m : ℕ} (h : Leads r n s xs m)
    (hm : m ≤ n) : (LS list r).Plays n s xs (before list 0 0) := by
  obtain ⟨s', hnext, hthen⟩ := h n hm
  cases xs with
  | nil =>
    rcases hthen with ⟨-, rfl⟩ | ⟨hne, -⟩
    · exact hnext
    · exact absurd rfl hne
  | cons x xs =>
    rcases hthen with ⟨hnil, -⟩ | ⟨-, hrest⟩
    · cases hnil
    · exact ⟨s', hnext, hrest⟩

/-- What `pnext` finds at an element. -/
def Item.pulled : Item V E → Pulled V
  | .atom v => .atom v
  | .stream _ => .stream

/-- `pnext` before an element. -/
theorem pnext_item {c i : ℕ} (hc : c < r) {it : Item V E} (hi : list[i]? = some it) (turns : ℕ) :
    ListStream.pnext list (fun creps => (creps : ℤ) == (r : ℤ)) (turns + 1) (before list c i) =
      .ok (it.pulled, before list c (i + 1)) := by
  rw [ListStream.pnext, if_neg (by simpa [before] using hc.ne),
    show (before list c i).pos - 1 = i from rfl, hi]
  cases it <;> rfl

/-- `pnext` when all rounds are through. -/
theorem pnext_end (hrestarts : ∀ o ∈ list.map Item.source, o.Restarts) (turns : ℕ) :
    ListStream.pnext list (fun creps => (creps : ℤ) == (r : ℤ)) (turns + 1) (before list r 0) =
      .ok (.ended, before list 0 0) := by
  have hreset : (before list r 0).reset = before list 0 0 := by
    unfold ListState.reset before
    rw [States.reset_eq hrestarts]
  rw [ListStream.pnext, if_pos (by simp [before]), hreset]

/-- `pnext` behind the last element starts the next round. -/
theorem pnext_wrap {c : ℕ} (hc : c < r) (turns : ℕ) :
    ListStream.pnext list (fun creps => (creps : ℤ) == (r : ℤ)) (turns + 1)
        (before list c list.length) =
      ListStream.pnext list (fun creps => (creps : ℤ) == (r : ℤ)) turns
        (before list (c + 1) 0) := by
  rw [ListStream.pnext, if_neg (by simpa [before] using hc.ne),
    show (before list c list.length).pos - 1 = list.length from rfl,
    List.getElem?_eq_none le_rfl]
  rfl

/-- All rounds are through. -/
theorem leads_end (hrestarts : ∀ o ∈ list.map Item.source, o.Restarts) (hn : 0 < n) :
    Leads r n (before list r 0) [] 1 := by
  intro turns hturns
  obtain ⟨turns, rfl⟩ := Nat.exists_eq_succ_of_ne_zero (by omega : turns ≠ 0)
  obtain ⟨n, rfl⟩ := Nat.exists_eq_succ_of_ne_zero (by omega : n ≠ 0)
  refine ⟨before list 0 0, fun e => ?_, Or.inl ⟨rfl, rfl⟩⟩
  rw [ListStream.nextval, if_neg (by simp [before]), pnext_end hrestarts]
  rfl

/-- **The end of a round.** What is given there is what is given at the start of
the next one. -/
theorem leads_wrap {c : ℕ} (hc : c < r) (hrestarts : ∀ o ∈ list.map Item.source, o.Restarts)
    (hne : list ≠ []) (hn : 2 ≤ n) {xs : List V} {m : ℕ}
    (h : Leads r n (before list (c + 1) 0) xs m) :
    Leads r n (before list c list.length) xs m := by
  obtain ⟨n, rfl⟩ := Nat.exists_eq_add_of_le' hn
  have hpulled : ListStream.pnext list (fun creps => (creps : ℤ) == (r : ℤ)) (n + 2)
      (before list c list.length) =
        ListStream.pnext list (fun creps => (creps : ℤ) == (r : ℤ)) (n + 2)
          (before list (c + 1) 0) := by
    rw [pnext_wrap hc]
    rcases Nat.lt_or_ge (c + 1) r with hlt | hge
    · obtain ⟨it, rest, rfl⟩ := List.exists_cons_of_ne_nil hne
      rw [pnext_item hlt rfl, pnext_item hlt rfl]
    · obtain rfl : c + 1 = r := by omega
      rw [pnext_end hrestarts, pnext_end hrestarts]
  intro turns hturns
  obtain ⟨s', hnext, hthen⟩ := h turns hturns
  refine ⟨s', fun e => ?_, hthen⟩
  rw [← hnext e]
  cases turns with
  | zero => rfl
  | succ turns =>
    rw [ListStream.nextval, ListStream.nextval, hpulled]
    rfl

/-- **A value** is given at once. -/
theorem leads_atom {c i : ℕ} (hc : c < r) {v : V} (hi : list[i]? = some (.atom v)) (hn : 0 < n)
    {xs : List V} (h : (LS list r).Plays n (before list c (i + 1)) xs (before list 0 0)) :
    Leads r n (before list c i) (v :: xs) 1 := by
  intro turns hturns
  obtain ⟨turns, rfl⟩ := Nat.exists_eq_succ_of_ne_zero (by omega : turns ≠ 0)
  obtain ⟨n, rfl⟩ := Nat.exists_eq_succ_of_ne_zero (by omega : n ≠ 0)
  refine ⟨before list c (i + 1), fun e => ?_, Or.inr ⟨List.cons_ne_nil v xs, h⟩⟩
  rw [ListStream.nextval, if_neg (by simp [before]), pnext_item hc hi]
  rfl

/-- An element at its start. -/
theorem within_init (i : ℕ) : (Function.update (States.init _) i
    (part (list.map Item.source) i).init : States (list.map Item.source)) = States.init _ :=
  Function.update_eq_self _ _

/-- The element that is played is asked. -/
theorem nextval_within {c i : ℕ} {s s₁ : (part (list.map Item.source) i).S} {v : Option V}
    (h : ∀ e, (part (list.map Item.source) i).next n e s = .ok (v, s₁, e)) (turns : ℕ) (e : E) :
    ListStream.nextval list (fun creps => (creps : ℤ) == (r : ℤ)) n (turns + 1) e (within c i s) =
      match v with
      | none => ListStream.nextval list (fun creps => (creps : ℤ) == (r : ℤ)) n turns e
          { within c i s₁ with recur := false }
      | some v => .ok (some v, within c i s₁, e) := by
  rw [ListStream.nextval, if_pos (show (within c i s).recur = true from rfl),
    show (within c i s).pos - 2 = i from rfl,
    show (within c i s).children = Function.update (States.init _) i s from rfl,
    States.next_update (States.init _) (h e)]
  cases v <;> rfl

/-- **Within a stream**, what is left of it is given first. -/
theorem leads_within {c i : ℕ} {zs : List V} {m : ℕ} (h : Leads r n (before list c (i + 1)) zs m)
    (hm : m < n) {ys : List V} :
    ∀ {s : (part (list.map Item.source) i).S},
      (part (list.map Item.source) i).Plays n s ys (part (list.map Item.source) i).init →
      Leads r n (within c i s) (ys ++ zs) (m + 1) := by
  induction ys with
  | nil =>
    intro s hplays turns hturns
    obtain ⟨turns, rfl⟩ := Nat.exists_eq_succ_of_ne_zero (by omega : turns ≠ 0)
    obtain ⟨s', hnext, hthen⟩ := h turns (by omega)
    refine ⟨s', fun e => ?_, hthen⟩
    have hdone : ({ within c i (part (list.map Item.source) i).init with recur := false } :
        ListState list) = before list c (i + 1) := by
      unfold within before
      rw [within_init]
    rw [nextval_within hplays]
    dsimp only
    rw [hdone]
    exact hnext e
  | cons y ys ih =>
    intro s hplays turns hturns
    obtain ⟨turns, rfl⟩ := Nat.exists_eq_succ_of_ne_zero (by omega : turns ≠ 0)
    obtain ⟨s₁, hnext, hrest⟩ := hplays
    refine ⟨within c i s₁, fun e => ?_, Or.inr ⟨List.cons_ne_nil _ _, (ih hrest).plays hm⟩⟩
    rw [nextval_within hnext]
    rfl

/-- **A stream** in the list is played. -/
theorem leads_stream {c i : ℕ} (hc : c < r) {o : Source V E} (hi : list[i]? = some (.stream o))
    {ys zs : List V} {m : ℕ} (hplays : o.Plays n o.init ys o.init) (hm : m < n)
    (h : Leads r n (before list c (i + 1)) zs m) :
    Leads r n (before list c i) (ys ++ zs) (m + 2) := by
  have hpart : part (list.map Item.source) i = o := by
    rw [part, List.getElem?_map, hi]
    rfl
  rw [← hpart] at hplays
  intro turns hturns
  obtain ⟨turns, rfl⟩ := Nat.exists_eq_succ_of_ne_zero (by omega : turns ≠ 0)
  obtain ⟨n, rfl⟩ := Nat.exists_eq_succ_of_ne_zero (by omega : n ≠ 0)
  obtain ⟨s', hnext, hthen⟩ := leads_within h hm hplays turns (by omega)
  refine ⟨s', fun e => ?_, hthen⟩
  have hstart : (within c i (part (list.map Item.source) i).init : ListState list) =
      { before list c (i + 1) with recur := true } := by
    unfold within before
    rw [within_init]
  rw [ListStream.nextval, if_neg (by simp [before]), pnext_item hc hi, ← hnext e, hstart]
  rfl

/-- **A round**, from its end backwards. -/
theorem leads_round {N : ℕ} {vals : List (List V)} (hgives : List.Forall₂ (Item.Gives N) list vals)
    (hN : N ≤ n) {c : ℕ} (hc : c < r) {zs : List V} {m : ℕ} (hm : m + 2 * list.length < n)
    (h : Leads r n (before list c list.length) zs m) :
    ∀ j, j ≤ list.length → Leads r n (before list c (list.length - j))
      ((vals.drop (list.length - j)).flatten ++ zs) (m + 2 * j) := by
  intro j
  induction j with
  | zero =>
    intro _
    rw [Nat.sub_zero, hgives.length_eq, List.drop_length]
    rw [hgives.length_eq] at h
    exact h
  | succ j ih =>
    intro hj
    have hrest := ih (by omega)
    have hlt : list.length - (j + 1) < list.length := by omega
    have hlt' : list.length - (j + 1) < vals.length := hgives.length_eq ▸ hlt
    have hi : list[list.length - (j + 1)]? = some list[list.length - (j + 1)] :=
      List.getElem?_eq_getElem hlt
    have hitem := hgives.get hlt hlt'
    rw [List.get_eq_getElem, List.get_eq_getElem] at hitem
    have hnext : list.length - (j + 1) + 1 = list.length - j := by omega
    rw [List.drop_eq_getElem_cons hlt', List.flatten_cons, List.append_assoc, hnext]
    cases hit : list[list.length - (j + 1)] with
    | atom v =>
      rw [hit] at hi hitem
      rw [show vals[list.length - (j + 1)] = [v] from hitem]
      refine fun turns hturns => leads_atom hc hi (by omega) ?_ turns (by omega)
      rw [hnext]
      exact hrest.plays (by omega)
    | stream o =>
      rw [hit] at hi hitem
      refine fun turns hturns => leads_stream hc hi
        ((show o.Cycles N _ from hitem).plays n hN) (m := m + 2 * j) (by omega) ?_ turns (by omega)
      rw [hnext]
      exact hrest

/-- **All rounds**, from the last one backwards. -/
theorem leads_rounds {N : ℕ} {vals : List (List V)} (hgives : List.Forall₂ (Item.Gives N) list vals)
    (hrestarts : ∀ o ∈ list.map Item.source, o.Restarts) (hne : list ≠ []) (hN : N ≤ n)
    (hn : 2 * list.length * r + 2 ≤ n) :
    ∀ d, d ≤ r → Leads r n (before list (r - d) 0) (List.replicate d vals.flatten).flatten
      (2 * list.length * d + 1) := by
  intro d
  induction d with
  | zero => exact fun _ => leads_end hrestarts (by omega)
  | succ d ih =>
    intro hd
    have hrest := ih (by omega)
    have hc : r - (d + 1) < r := by omega
    have hnext : r - (d + 1) + 1 = r - d := by omega
    have hmul : 2 * list.length * (d + 1) ≤ 2 * list.length * r := Nat.mul_le_mul_left _ hd
    rw [Nat.mul_succ] at hmul
    rw [← hnext] at hrest
    have hround := leads_round hgives hN hc (by omega)
      (leads_wrap hc hrestarts hne (by omega) hrest) list.length le_rfl
    rw [Nat.sub_self, List.drop_zero] at hround
    rw [List.replicate_succ, List.flatten_cons]
    refine fun turns hturns => hround turns ?_
    rw [Nat.mul_succ] at hturns
    omega

/-- **A list** gives what its elements give, `r` times, and starts again. -/
theorem LS_cycles {N : ℕ} {vals : List (List V)} (hgives : List.Forall₂ (Item.Gives N) list vals)
    (hne : list ≠ []) :
    (LS list r).Cycles (N + (2 * list.length * r + 2)) (List.replicate r vals.flatten).flatten := by
  have hrestarts : ∀ o ∈ list.map Item.source, o.Restarts := by
    intro o ho
    obtain ⟨it, hit, rfl⟩ := List.mem_map.mp ho
    obtain ⟨i, hi, rfl⟩ := List.mem_iff_getElem.mp hit
    exact (hgives.get hi (hgives.length_eq ▸ hi)).restarts
  constructor
  · intro n hn
    have hleads := leads_rounds hgives hrestarts hne (n := n) (by omega) (by omega) r le_rfl
    rw [Nat.sub_self] at hleads
    exact hleads.plays (by omega)
  · intro s
    show s.reset = _
    unfold ListState.reset
    rw [States.reset_eq hrestarts]
    rfl

end OneList

/-! ## The tree -/

theorem Item.Gives.mono {N N' : ℕ} {it : Item V E} {xs : List V} (h : it.Gives N xs)
    (hN : N ≤ N') : it.Gives N' xs := by
  cases it with
  | atom v => exact h
  | stream o => exact Source.Cycles.mono h hN

/-- Every element of a tree gives what is read off it. -/
theorem Tree.gives (t : Tree V) : (t.item : Item V E).Gives t.turns t.flat := by
  induction t with
  | atom v => rfl
  | LS len t r ih =>
    have hgives : List.Forall₂ (Item.Gives (List.ofFn fun i => (t i).turns).sum)
        (List.ofFn fun i => ((t i).item : Item V E)) (List.ofFn fun i => (t i).flat) := by
      rw [List.forall₂_iff_get]
      refine ⟨by simp, fun i hi₁ hi₂ => ?_⟩
      rw [List.get_ofFn, List.get_ofFn]
      refine (ih _).mono (List.le_sum_of_mem ?_)
      exact List.mem_ofFn.mpr ⟨_, rfl⟩
    have hne : (List.ofFn fun i => ((t i).item : Item V E)) ≠ [] := by simp
    have hcycles := LS_cycles (r := r) hgives hne
    rw [List.length_ofFn] at hcycles
    exact Source.Cycles.mono hcycles (by rw [Tree.turns]; omega)

/-- **Nested lists of streams** give the flattening, then nil, and then the same
again, one answer a call, however often they are asked. -/
theorem nested_lists {len : ℕ} (t : Fin (len + 1) → Tree V) (r extra k : ℕ) (e : E) :
    ∃ s, (LS (List.ofFn fun i => (t i).item) r).calls ((Tree.LS len t r).turns + extra) k e
        (LS (List.ofFn fun i => (t i).item) r).init =
      .ok ((List.range k).map fun i =>
        (Tree.LS len t r).flat[i % ((Tree.LS len t r).flat.length + 1)]?, s, e) := by
  have hcycles : (LS (List.ofFn fun i => ((t i).item : Item V E)) r).Cycles
      (Tree.LS len t r).turns (Tree.LS len t r).flat := (Tree.LS len t r).gives
  obtain ⟨s, hcalls, -⟩ := Source.calls_of_cycles hcycles (Nat.le_add_right _ extra) e k
  exact ⟨s, hcalls⟩

/-- A value, a list that gives 2 twice, and one that gives nothing. -/
example : (Tree.LS 2 ![.atom 1, .LS 0 ![.atom 2] 2, .LS 0 ![.atom 3] 0] 2).flat =
    [1, 2, 2, 1, 2, 2] := by decide

end Lua2SC.Streams
