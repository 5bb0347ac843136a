import Mathlib

/-!
# Topological lists of a relation

`reads a b` says that `a` reads from `b`. A list is `Topological` when every
element has all it reads from strictly before it; `Acyclic` relations are the
ones that admit such lists. The facts a depth-first numbering needs:

- a node may be appended once all it reads from is listed (`Topological.snoc`);
- in a list without repetitions, "before" is a comparison of positions
  (`Topological.idxOf_lt`), and the list is closed under reading;
- in a finite acyclic relation every node is read, directly or through
  others, by a terminal one (`exists_terminal`), so starting from the
  terminals reaches everything.
-/

namespace Lua2SC.Topo

open Relation

variable {α : Type*} {reads : α → α → Prop}

/-- No node reads from itself, directly or through others. -/
def Acyclic (reads : α → α → Prop) : Prop := ∀ a, ¬ TransGen reads a a

/-- A rank that drops along reads excludes cycles. -/
theorem acyclic_of_rank (rank : α → ℕ) (h : ∀ a b, reads a b → rank b < rank a) :
    Acyclic reads := by
  intro a ha
  have hlt : ∀ b, TransGen reads a b → rank b < rank a := by
    intro b hb
    induction hb with
    | single hab => exact h _ _ hab
    | tail _ hbc ih => exact (h _ _ hbc).trans ih
  exact Nat.lt_irrefl _ (hlt a ha)

/-- What all nodes of a path read, through others, they still do when the path grows. -/
theorem transGen_push {path : List α} {a b : α} (h : ∀ s ∈ path, TransGen reads s a)
    (hab : reads a b) : ∀ s ∈ a :: path, TransGen reads s b := by
  intro s hs
  rcases List.mem_cons.mp hs with rfl | hs
  · exact TransGen.single hab
  · exact (h s hs).tail hab

/-- Every element of the list has all it reads from strictly before it. -/
def Topological (reads : α → α → Prop) (l : List α) : Prop :=
  ∀ l₁ a l₂, l = l₁ ++ a :: l₂ → ∀ b, reads a b → b ∈ l₁

theorem Topological.nil : Topological reads [] := by
  intro l₁ a l₂ h
  exact absurd h (by simp)

/-- A node may follow once everything it reads from is listed. -/
theorem Topological.snoc {l : List α} {v : α} (hl : Topological reads l)
    (hv : ∀ b, reads v b → b ∈ l) : Topological reads (l ++ [v]) := by
  intro l₁ a l₂ h b hb
  rcases List.eq_nil_or_concat l₂ with rfl | ⟨l₂', z, rfl⟩
  · -- the split is at the new last element
    have h' : l ++ [v] = l₁ ++ [a] := h
    obtain ⟨rfl, hva⟩ := List.append_inj' h' rfl
    have hva' : v = a := by simpa using hva
    exact hv b (hva' ▸ hb)
  · have h' : l ++ [v] = (l₁ ++ a :: l₂') ++ [z] := by simpa using h
    obtain ⟨rfl, -⟩ := List.append_inj' h' rfl
    exact hl l₁ a l₂' rfl b hb

/-- A listed node has what it reads from in the list too. -/
theorem Topological.closed {l : List α} (hl : Topological reads l) {a b : α}
    (ha : a ∈ l) (hab : reads a b) : b ∈ l := by
  obtain ⟨l₁, l₂, rfl⟩ := List.append_of_mem ha
  exact List.mem_append_left _ (hl l₁ a l₂ rfl b hab)

/-- Closure along chains of reads. -/
theorem Topological.closed_reflTransGen {l : List α} (hl : Topological reads l) {a b : α}
    (ha : a ∈ l) (hab : ReflTransGen reads a b) : b ∈ l := by
  induction hab with
  | refl => exact ha
  | tail _ hcd ih => exact hl.closed ih hcd

/-- Positions decrease along reads. -/
theorem Topological.idxOf_lt [DecidableEq α] {l : List α} (hl : Topological reads l)
    (hnd : l.Nodup) {a b : α} (ha : a ∈ l) (hab : reads a b) : l.idxOf b < l.idxOf a := by
  obtain ⟨l₁, l₂, rfl⟩ := List.append_of_mem ha
  have hb : b ∈ l₁ := hl l₁ a l₂ rfl b hab
  have ha₁ : a ∉ l₁ := by
    intro h
    exact (List.disjoint_of_nodup_append hnd) h (List.mem_cons_self ..)
  rw [List.idxOf_append_of_mem hb, List.idxOf_append_of_notMem ha₁]
  exact Nat.lt_add_right _ (List.idxOf_lt_length_iff.mpr hb)

/-- In a finite acyclic relation, every node of `s` is reached from a node of
`s` that no node of `s` reads from. -/
theorem exists_terminal (hac : Acyclic reads) (s : Finset α) :
    ∀ v ∈ s, ∃ t ∈ s, (∀ u ∈ s, ¬ reads u t) ∧ ReflTransGen reads t v := by
  have htrans : IsTrans α (TransGen reads) := ⟨fun _ _ _ => TransGen.trans⟩
  have hirr : Std.Irrefl (TransGen reads) := ⟨hac⟩
  have hso : IsStrictOrder α (TransGen reads) := { hirr, htrans with }
  have hwf : (s : Set α).WellFoundedOn (TransGen reads) := s.finite_toSet.wellFoundedOn
  intro v hv
  refine hwf.induction (P := fun v => ∃ t ∈ s, (∀ u ∈ s, ¬ reads u t) ∧ ReflTransGen reads t v)
    hv ?_
  intro v hv ih
  by_cases hterm : ∃ u ∈ s, reads u v
  · -- some node reads from `v`: go up to it
    obtain ⟨u, hu, huv⟩ := hterm
    obtain ⟨t, ht, htt, htu⟩ := ih u hu (TransGen.single huv)
    exact ⟨t, ht, htt, htu.tail huv⟩
  · exact ⟨v, hv, fun u hu huv => hterm ⟨u, hu, huv⟩, ReflTransGen.refl⟩

end Lua2SC.Topo
