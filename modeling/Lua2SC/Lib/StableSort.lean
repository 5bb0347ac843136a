import Mathlib

/-!
# Stable sorting

`stableSort key` orders a list by a key and leaves the elements of one key in the order
in which they stood. That is all that can be said of it: a list in the order of its
keys is determined by what it holds under each key (`eq_of_keys`), so whatever is in
order and keeps every key's elements is the stable sort (`eq_stableSort`).

A program that has no stable sort at hand collects the elements of one key in a group
of their own, and sorts the groups: no two of them have the same key, so that the
order of the groups is the only one. `Groups` says when this is done right, and
`Groups.flatten` that it gives the stable sort.
-/

namespace Lua2SC.StableSort

variable {α K : Type*} [LinearOrder K] (key : α → K)

/-- The elements of a key, in their order. -/
def under (k : K) (xs : List α) : List α := xs.filter fun a => key a = k

/-- In the order of the keys. -/
def Ordered (xs : List α) : Prop := xs.Pairwise fun a b => key a ≤ key b

/-- Merge sort, which is stable. -/
def stableSort (xs : List α) : List α := xs.mergeSort fun a b => decide (key a ≤ key b)

variable {key}

@[simp] theorem mem_under {k : K} {xs : List α} {a : α} : a ∈ under key k xs ↔ a ∈ xs ∧ key a = k := by
  simp [under]

theorem under_append (k : K) (xs ys : List α) :
    under key k (xs ++ ys) = under key k xs ++ under key k ys :=
  List.filter_append xs ys

theorem under_cons (k : K) (a : α) (xs : List α) :
    under key k (a :: xs) = if key a = k then a :: under key k xs else under key k xs := by
  unfold under
  rw [List.filter_cons]
  simp only [decide_eq_true_eq]

/-- A list of one key is kept whole. -/
theorem under_eq_self {k : K} {xs : List α} (h : ∀ a ∈ xs, key a = k) : under key k xs = xs := by
  unfold under
  rw [List.filter_eq_self]
  exact fun a ha => decide_eq_true (h a ha)

/-- Other keys find nothing in it. -/
theorem under_eq_nil {k : K} {xs : List α} (h : ∀ a ∈ xs, key a ≠ k) : under key k xs = [] := by
  unfold under
  rw [List.filter_eq_nil_iff]
  intro a ha
  rw [decide_eq_true_eq]
  exact h a ha

/-- The head of an ordered list has the least key. -/
theorem Ordered.head_le {a : α} {xs : List α} (h : Ordered key (a :: xs)) {b : α} (hb : b ∈ a :: xs) :
    key a ≤ key b := by
  rcases List.mem_cons.mp hb with rfl | hb
  · exact le_refl _
  · exact List.rel_of_pairwise_cons h hb

/-- **What an ordered list holds under each key determines it.** -/
theorem eq_of_keys {xs ys : List α} (hxs : Ordered key xs) (hys : Ordered key ys)
    (h : ∀ k, under key k xs = under key k ys) : xs = ys := by
  induction xs generalizing ys with
  | nil =>
    cases ys with
    | nil => rfl
    | cons b ys =>
      have hb : b ∈ under key (key b) [] := by
        rw [h]
        exact mem_under.mpr ⟨List.mem_cons_self, rfl⟩
      cases hb
  | cons a xs ih =>
    have ha : a ∈ under key (key a) ys := by
      rw [← h]
      exact mem_under.mpr ⟨List.mem_cons_self, rfl⟩
    cases ys with
    | nil => cases ha
    | cons b ys =>
      have hb : b ∈ under key (key b) (a :: xs) := by
        rw [h]
        exact mem_under.mpr ⟨List.mem_cons_self, rfl⟩
      have hkey : key b = key a :=
        le_antisymm (hys.head_le (mem_under.mp ha).1) (hxs.head_le (mem_under.mp hb).1)
      have hheads := h (key a)
      rw [under_cons, under_cons, if_pos rfl, if_pos hkey, List.cons.injEq] at hheads
      obtain ⟨rfl, -⟩ := hheads
      congr 1
      refine ih hxs.of_cons hys.of_cons fun k => ?_
      have hk := h k
      rw [under_cons, under_cons] at hk
      by_cases hak : key a = k
      · rw [if_pos hak, if_pos hak] at hk
        exact List.tail_eq_of_cons_eq hk
      · rwa [if_neg hak, if_neg hak] at hk

theorem key_trans (a b c : α) (hab : decide (key a ≤ key b) = true)
    (hbc : decide (key b ≤ key c) = true) : decide (key a ≤ key c) = true :=
  decide_eq_true (le_trans (of_decide_eq_true hab) (of_decide_eq_true hbc))

theorem key_total (a b : α) : (decide (key a ≤ key b) || decide (key b ≤ key a)) = true := by
  rw [Bool.or_eq_true, decide_eq_true_eq, decide_eq_true_eq]
  exact le_total _ _

theorem ordered_stableSort (xs : List α) : Ordered key (stableSort key xs) :=
  (List.pairwise_mergeSort key_trans key_total xs).imp of_decide_eq_true

theorem stableSort_perm (xs : List α) : (stableSort key xs).Perm xs := List.mergeSort_perm xs _

/-- The elements of one key keep their order. -/
theorem under_stableSort (k : K) (xs : List α) :
    under key k (stableSort key xs) = under key k xs := by
  have hsub : (under key k xs).Sublist (stableSort key xs) := by
    refine List.sublist_mergeSort key_trans key_total ?_ List.filter_sublist
    rw [List.pairwise_iff_forall_sublist]
    intro a b hab
    have ha := (mem_under.mp (hab.subset List.mem_cons_self)).2
    have hb := (mem_under.mp (hab.subset (List.mem_cons_of_mem a List.mem_cons_self))).2
    exact decide_eq_true (le_of_eq (ha.trans hb.symm))
  have hsub' : (under key k xs).Sublist (under key k (stableSort key xs)) := by
    have h := hsub.filter fun a => decide (key a = k)
    have hself : under key k (under key k xs) = under key k xs :=
      under_eq_self fun a ha => (mem_under.mp ha).2
    unfold under at hself h ⊢
    rwa [hself] at h
  exact (hsub'.eq_of_length ((stableSort_perm xs).filter _).length_eq.symm).symm

/-- **The stable sort** is the ordered list that keeps every key's elements. -/
theorem eq_stableSort {xs ys : List α} (hordered : Ordered key ys)
    (h : ∀ k, under key k ys = under key k xs) : ys = stableSort key xs :=
  eq_of_keys hordered (ordered_stableSort xs) fun k => (h k).trans (under_stableSort k xs).symm

/-! ## By groups -/

variable (key) in
/-- Every group holds the elements of its key, and every key its group. -/
structure Groups (xs : List α) (gs : List (List α)) : Prop where
  group : ∀ g ∈ gs, ∃ a ∈ g, g = under key (key a) xs
  complete : ∀ a ∈ xs, under key (key a) xs ∈ gs
  nodup : gs.Nodup

/-- In the order of the keys of their first elements. -/
def GroupsOrdered (key : α → K) (gs : List (List α)) : Prop :=
  gs.Pairwise fun g h => ∀ a ∈ g.head?, ∀ b ∈ h.head?, key a ≤ key b

theorem Groups.perm {xs : List α} {gs hs : List (List α)} (h : Groups key xs gs)
    (hperm : hs.Perm gs) : Groups key xs hs where
  group g hg := h.group g (hperm.subset hg)
  complete a ha := hperm.symm.subset (h.complete a ha)
  nodup := hperm.nodup_iff.mpr h.nodup

/-- All elements of a group have the key of the first. -/
theorem Groups.key_eq {xs : List α} {gs : List (List α)} (h : Groups key xs gs) {g : List α}
    (hg : g ∈ gs) {a b : α} (ha : a ∈ g) (hb : b ∈ g) : key a = key b := by
  obtain ⟨c, -, hc⟩ := h.group g hg
  rw [hc] at ha hb
  exact (mem_under.mp ha).2.trans (mem_under.mp hb).2.symm

/-- Among the groups those of a key are what the list holds under it. -/
theorem Groups.under_flatten {xs : List α} {gs : List (List α)} (h : Groups key xs gs) (k : K) :
    under key k gs.flatten = under key k xs := by
  have hsplit : under key k gs.flatten = (gs.map (under key k)).flatten := List.filter_flatten
  rw [hsplit]
  by_cases hk : ∃ a ∈ xs, key a = k
  · obtain ⟨a, ha, rfl⟩ := hk
    obtain ⟨before, after, rfl⟩ := List.append_of_mem (h.complete a ha)
    have hother : ∀ g ∈ before ++ after, under key (key a) g = [] := by
      intro g hg
      have hmem : g ∈ before ++ under key (key a) xs :: after := by
        rw [List.mem_append] at hg ⊢
        exact hg.imp_right (List.mem_cons_of_mem _)
      have hne : g ≠ under key (key a) xs := by
        intro heq
        have hnd := List.perm_middle.nodup_iff.mp h.nodup
        exact (List.nodup_cons.mp hnd).1 (heq ▸ hg)
      obtain ⟨c, hc, hgc⟩ := h.group g hmem
      refine under_eq_nil fun b hb hba => hne ?_
      rw [hgc, ← h.key_eq hmem hb hc, hba]
    have hbefore : (before.map (under key (key a))).flatten = [] := by
      rw [List.flatten_eq_nil_iff]
      intro l hl
      obtain ⟨g, hg, rfl⟩ := List.mem_map.mp hl
      exact hother g (List.mem_append_left _ hg)
    have hafter : (after.map (under key (key a))).flatten = [] := by
      rw [List.flatten_eq_nil_iff]
      intro l hl
      obtain ⟨g, hg, rfl⟩ := List.mem_map.mp hl
      exact hother g (List.mem_append_right _ hg)
    rw [List.map_append, List.map_cons, List.flatten_append, List.flatten_cons, hbefore, hafter,
      List.nil_append, List.append_nil]
    exact under_eq_self fun b hb => (mem_under.mp hb).2
  · -- no element has the key, so no group has one
    have hnone : under key k xs = [] := under_eq_nil fun a ha hak => hk ⟨a, ha, hak⟩
    rw [hnone, List.flatten_eq_nil_iff]
    intro l hl
    obtain ⟨g, hg, rfl⟩ := List.mem_map.mp hl
    obtain ⟨c, -, hgc⟩ := h.group g hg
    refine under_eq_nil fun b hb hbk => hk ⟨b, ?_, hbk⟩
    rw [hgc] at hb
    exact (mem_under.mp hb).1

/-- **The groups in the order of their keys** are the stable sort. -/
theorem Groups.flatten {xs : List α} {gs : List (List α)} (h : Groups key xs gs)
    (hordered : GroupsOrdered key gs) : gs.flatten = stableSort key xs := by
  refine eq_stableSort ?_ h.under_flatten
  unfold Ordered
  rw [List.pairwise_flatten]
  refine ⟨fun g hg => ?_, ?_⟩
  · rw [List.pairwise_iff_forall_sublist]
    intro a b hab
    have ha := hab.subset List.mem_cons_self
    have hb := hab.subset (List.mem_cons_of_mem a List.mem_cons_self)
    exact le_of_eq (h.key_eq hg ha hb)
  · refine hordered.imp_of_mem ?_
    intro g g' hg hg' hle a ha b hb
    have hfirst : ∀ {l : List α}, l ∈ gs → ∀ {c}, c ∈ l → ∃ d ∈ l.head?, key d = key c := by
      intro l hl c hc
      cases l with
      | nil => cases hc
      | cons d l => exact ⟨d, rfl, h.key_eq hl List.mem_cons_self hc⟩
    obtain ⟨c, hc, hca⟩ := hfirst hg ha
    obtain ⟨d, hd, hdb⟩ := hfirst hg' hb
    rw [← hca, ← hdb]
    exact hle c hc d hd

end Lua2SC.StableSort
