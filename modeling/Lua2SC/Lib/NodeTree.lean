import Mathlib.Data.List.Basic
import Mathlib.Data.List.Nodup
import Mathlib.Data.List.Perm.Basic

/-!
# Trees of groups that are run from front to back

A group holds nodes in an order, and a node is a synth or a group. The synths are run in the order
in which they come in the tree. Nodes are added at either end of a group or next to a node, and
freed, and each of that puts a list of nodes in the place of one (`editAll`).

In a tree that is `Placed` every group holds what belongs there, none of it in front of what has to
come before it. Then of two synths that are in different nodes of a group the one is run first
whose node has to come first (`Placed.synths_before`), however deep in these they are.
-/

namespace Lua2SC.NodeTree

variable {A : Type}

/-- A node of the tree. -/
inductive Node (A : Type) where
  | synth (a : A)
  | group (a : A) (nodes : List (Node A))

def Node.label : Node A → A
  | .synth a => a
  | .group a _ => a

mutual

/-- The node and all that is in it. -/
def Node.flat : Node A → List (Node A)
  | .synth a => [.synth a]
  | .group a ns => .group a ns :: flatAll ns

def flatAll : List (Node A) → List (Node A)
  | [] => []
  | n :: ns => n.flat ++ flatAll ns

end

mutual

/-- The synths in the order in which they are run. -/
def Node.synths : Node A → List A
  | .synth a => [a]
  | .group _ ns => synthsAll ns

def synthsAll : List (Node A) → List A
  | [] => []
  | n :: ns => n.synths ++ synthsAll ns

end

mutual

/-- `f n` in the place of every outermost node `n` whose label is one of `p`. -/
def Node.edit (p : A → Bool) (f : Node A → List (Node A)) : Node A → Node A
  | .synth a => .synth a
  | .group a ns => .group a (editAll p f ns)

def editAll (p : A → Bool) (f : Node A → List (Node A)) : List (Node A) → List (Node A)
  | [] => []
  | n :: ns => (if p n.label then f n else [n.edit p f]) ++ editAll p f ns

end

mutual

/-- Without the synths, its groups left empty. -/
def Node.prune : Node A → List (Node A)
  | .synth _ => []
  | .group a ns => [.group a (pruneAll ns)]

def pruneAll : List (Node A) → List (Node A)
  | [] => []
  | n :: ns => n.prune ++ pruneAll ns

end

/-- The labels of a tree. -/
def labels (t : List (Node A)) : List A := (flatAll t).map Node.label

/-! ## What is where -/

@[simp] theorem edit_label (p : A → Bool) (f : Node A → List (Node A)) (n : Node A) :
    (n.edit p f).label = n.label := by
  cases n with
  | synth a => rw [Node.edit]
  | group a ns =>
    rw [Node.edit]
    rfl

theorem flatAll_append (s t : List (Node A)) : flatAll (s ++ t) = flatAll s ++ flatAll t := by
  induction s with
  | nil => rw [List.nil_append, flatAll, List.nil_append]
  | cons n s ih => rw [List.cons_append, flatAll, flatAll, ih, List.append_assoc]

theorem flatAll_singleton (n : Node A) : flatAll [n] = n.flat := by
  rw [flatAll, flatAll, List.append_nil]

theorem labels_append (s t : List (Node A)) : labels (s ++ t) = labels s ++ labels t := by
  rw [labels, flatAll_append, List.map_append]
  rfl

theorem labels_cons (n : Node A) (t : List (Node A)) : labels (n :: t) = labels [n] ++ labels t :=
  labels_append [n] t

theorem labels_synth (a : A) : labels [Node.synth a] = [a] := by
  rw [labels, flatAll_singleton, Node.flat]
  rfl

theorem labels_group (a : A) (ns : List (Node A)) : labels [Node.group a ns] = a :: labels ns := by
  rw [labels, flatAll_singleton, Node.flat]
  rfl

theorem self_mem_flat (n : Node A) : n ∈ n.flat := by
  cases n with
  | synth a =>
    rw [Node.flat]
    exact List.mem_singleton_self _
  | group a ns =>
    rw [Node.flat]
    exact List.mem_cons_self

theorem flat_subset {n : Node A} {t : List (Node A)} (h : n ∈ t) : n.flat ⊆ flatAll t := by
  induction t with
  | nil => cases h
  | cons m t ih =>
    rw [flatAll]
    rcases List.mem_cons.mp h with rfl | h
    · exact List.subset_append_left _ _
    · exact List.Subset.trans (ih h) (List.subset_append_right _ _)

theorem mem_flatAll {n : Node A} {t : List (Node A)} (h : n ∈ t) : n ∈ flatAll t :=
  flat_subset h (self_mem_flat n)

theorem label_mem {n : Node A} {t : List (Node A)} (h : n ∈ flatAll t) : n.label ∈ labels t :=
  List.mem_map_of_mem h

mutual

theorem Node.flat_trans : ∀ {n m : Node A}, m ∈ n.flat → m.flat ⊆ n.flat
  | .synth a, m, h => by
    rw [Node.flat] at h
    rw [List.mem_singleton.mp h]
    exact List.Subset.refl _
  | .group a ns, m, h => by
    rw [Node.flat] at h
    rcases List.mem_cons.mp h with rfl | h
    · exact List.Subset.refl _
    · rw [Node.flat]
      exact List.Subset.trans (flatAll_trans h) (List.subset_cons_self _ _)

/-- What is in a node of the tree is in the tree. -/
theorem flatAll_trans : ∀ {t : List (Node A)} {m : Node A}, m ∈ flatAll t → m.flat ⊆ flatAll t
  | [], m, h => by
    rw [flatAll] at h
    cases h
  | n :: t, m, h => by
    rw [flatAll] at h ⊢
    rcases List.mem_append.mp h with h | h
    · exact List.Subset.trans (Node.flat_trans h) (List.subset_append_left _ _)
    · exact List.Subset.trans (flatAll_trans h) (List.subset_append_right _ _)

end

theorem child_mem {g : A} {ns t : List (Node A)} (h : Node.group g ns ∈ flatAll t) {n : Node A}
    (hn : n ∈ ns) : n ∈ flatAll t := by
  refine flatAll_trans h ?_
  rw [Node.flat]
  exact List.mem_cons_of_mem _ (mem_flatAll hn)

mutual

theorem Node.exists_group : ∀ {n m : Node A}, m ∈ n.flat →
    m = n ∨ ∃ g ns, Node.group g ns ∈ n.flat ∧ m ∈ ns
  | .synth a, m, h => by
    rw [Node.flat] at h
    exact .inl (List.mem_singleton.mp h)
  | .group a ns, m, h => by
    rw [Node.flat] at h ⊢
    rcases List.mem_cons.mp h with rfl | h
    · exact .inl rfl
    · rcases exists_group h with h | ⟨g, ms, hg, hm⟩
      · exact .inr ⟨a, ns, List.mem_cons_self, h⟩
      · exact .inr ⟨g, ms, List.mem_cons_of_mem _ hg, hm⟩

/-- A node that is not at the top is in a group. -/
theorem exists_group : ∀ {t : List (Node A)} {m : Node A}, m ∈ flatAll t →
    m ∈ t ∨ ∃ g ns, Node.group g ns ∈ flatAll t ∧ m ∈ ns
  | [], m, h => by
    rw [flatAll] at h
    cases h
  | n :: t, m, h => by
    rw [flatAll] at h ⊢
    rcases List.mem_append.mp h with h | h
    · rcases Node.exists_group h with rfl | ⟨g, ns, hg, hm⟩
      · exact .inl List.mem_cons_self
      · exact .inr ⟨g, ns, List.mem_append_left _ hg, hm⟩
    · rcases exists_group h with h | ⟨g, ns, hg, hm⟩
      · exact .inl (List.mem_cons_of_mem _ h)
      · exact .inr ⟨g, ns, List.mem_append_right _ hg, hm⟩

end

/-! ## The order in which synths are run -/

theorem synths_sublist_of_mem {n : Node A} {t : List (Node A)} (h : n ∈ t) :
    n.synths.Sublist (synthsAll t) := by
  induction t with
  | nil => cases h
  | cons m t ih =>
    rw [synthsAll]
    rcases List.mem_cons.mp h with rfl | h
    · exact List.sublist_append_left _ _
    · exact (ih h).trans (List.sublist_append_right _ _)

mutual

theorem Node.synths_sublist : ∀ {n m : Node A}, m ∈ n.flat → m.synths.Sublist n.synths
  | .synth a, m, h => by
    rw [Node.flat] at h
    rw [List.mem_singleton.mp h]
  | .group a ns, m, h => by
    rw [Node.flat] at h
    rcases List.mem_cons.mp h with rfl | h
    · exact List.Sublist.refl _
    · rw [Node.synths]
      exact synths_sublist h

/-- The synths of a node are run in the order that they have there. -/
theorem synths_sublist : ∀ {t : List (Node A)} {m : Node A}, m ∈ flatAll t →
    m.synths.Sublist (synthsAll t)
  | [], m, h => by
    rw [flatAll] at h
    cases h
  | n :: t, m, h => by
    rw [flatAll] at h
    rw [synthsAll]
    rcases List.mem_append.mp h with h | h
    · exact (Node.synths_sublist h).trans (List.sublist_append_left _ _)
    · exact (synths_sublist h).trans (List.sublist_append_right _ _)

end

mutual

theorem Node.synth_mem : ∀ {n : Node A} {a : A}, a ∈ n.synths → Node.synth a ∈ n.flat
  | .synth b, a, h => by
    rw [Node.synths] at h
    rw [Node.flat, List.mem_singleton.mp h]
    exact List.mem_singleton_self _
  | .group b ns, a, h => by
    rw [Node.synths] at h
    rw [Node.flat]
    exact List.mem_cons_of_mem _ (synth_mem h)

theorem synth_mem : ∀ {t : List (Node A)} {a : A}, a ∈ synthsAll t → Node.synth a ∈ flatAll t
  | [], a, h => by
    rw [synthsAll] at h
    cases h
  | n :: t, a, h => by
    rw [synthsAll] at h
    rw [flatAll]
    rcases List.mem_append.mp h with h | h
    · exact List.mem_append_left _ (Node.synth_mem h)
    · exact List.mem_append_right _ (synth_mem h)

end

mutual

theorem Node.synths_sublist_labels : ∀ n : Node A, n.synths.Sublist (labels [n])
  | .synth a => by
    rw [Node.synths, labels_synth]
  | .group a ns => by
    rw [Node.synths, labels_group]
    exact (synths_sublist_labels ns).trans (List.sublist_cons_self _ _)

theorem synths_sublist_labels : ∀ t : List (Node A), (synthsAll t).Sublist (labels t)
  | [] => by
    rw [synthsAll]
    exact List.nil_sublist _
  | n :: t => by
    rw [synthsAll, labels_cons n t]
    exact (Node.synths_sublist_labels n).append (synths_sublist_labels t)

end

/-- Of two different elements one comes first. -/
theorem pair_sublist {α : Type} {l : List α} {a b : α} (ha : a ∈ l) (hb : b ∈ l) (hne : a ≠ b) :
    [a, b].Sublist l ∨ [b, a].Sublist l := by
  induction l with
  | nil => cases ha
  | cons c l ih =>
    rcases List.mem_cons.mp ha with rfl | hal
    · have hbl := (List.mem_cons.mp hb).resolve_left (Ne.symm hne)
      exact .inl (List.cons_sublist_cons.mpr (List.singleton_sublist.mpr hbl))
    · rcases List.mem_cons.mp hb with rfl | hbl
      · exact .inr (List.cons_sublist_cons.mpr (List.singleton_sublist.mpr hal))
      · exact (ih hal hbl).imp (fun h => h.cons c) fun h => h.cons c

theorem synths_pair {t : List (Node A)} : ∀ {m n : Node A}, [m, n].Sublist t → ∀ {x y : A},
    x ∈ m.synths → y ∈ n.synths → [x, y].Sublist (synthsAll t) := by
  induction t with
  | nil =>
    intro m n h
    cases h
  | cons c t ih =>
    intro m n h x y hx hy
    rw [synthsAll]
    cases h with
    | cons _ h => exact (ih h hx hy).trans (List.sublist_append_right _ _)
    | cons_cons _ h =>
      have hn : n ∈ t := List.singleton_sublist.mp h
      have hy := (synths_sublist_of_mem hn).subset hy
      exact List.Sublist.append (List.singleton_sublist.mpr hx) (List.singleton_sublist.mpr hy)

mutual

theorem Node.labels_sublist : ∀ {n m : Node A}, m ∈ n.flat →
    (labels [m]).Sublist (labels [n])
  | .synth a, m, h => by
    rw [Node.flat] at h
    rw [List.mem_singleton.mp h]
  | .group a ns, m, h => by
    rw [Node.flat] at h
    rcases List.mem_cons.mp h with rfl | h
    · exact List.Sublist.refl _
    · rw [labels_group]
      exact (labels_sublist h).trans (List.sublist_cons_self _ _)

theorem labels_sublist : ∀ {t : List (Node A)} {m : Node A}, m ∈ flatAll t →
    (labels [m]).Sublist (labels t)
  | [], m, h => by
    rw [flatAll] at h
    cases h
  | n :: t, m, h => by
    rw [flatAll] at h
    rw [labels_cons n t]
    rcases List.mem_append.mp h with h | h
    · exact (Node.labels_sublist h).trans (List.sublist_append_left _ _)
    · exact (labels_sublist h).trans (List.sublist_append_right _ _)

end

/-! ## Trees in which everything is in its place -/

/-- Which nodes belong in a group, and which of two in one group has to come first. -/
structure Rules (A : Type) where
  within : A → A → Prop
  before : A → A → Prop

/-- The nodes of the group `g`. -/
structure Siblings (R : Rules A) (g : A) (as : List A) : Prop where
  within : ∀ a ∈ as, R.within g a
  order : as.Pairwise fun a b => ¬ R.before b a

/-- Every group of the tree holds what it should, in a right order. -/
def Placed (R : Rules A) (t : List (Node A)) : Prop :=
  ∀ g ns, Node.group g ns ∈ flatAll t → Siblings R g (ns.map Node.label)

variable {R : Rules A} {t : List (Node A)}

/-- **What has to come first is run first.** -/
theorem Placed.synths_before (h : Placed R t) {g : A} {ns : List (Node A)}
    (hg : Node.group g ns ∈ flatAll t) {m n : Node A} (hm : m ∈ ns) (hn : n ∈ ns)
    (hbefore : R.before m.label n.label) (hne : m ≠ n) {x y : A} (hx : x ∈ m.synths)
    (hy : y ∈ n.synths) : [x, y].Sublist (synthsAll t) := by
  have horder := (h g ns hg).order
  have hsub : [m, n].Sublist ns := by
    rcases pair_sublist hm hn hne with hsub | hsub
    · exact hsub
    · -- the other way round the group would not be in order
      have hpair := horder.sublist (hsub.map Node.label)
      exact absurd hbefore (List.rel_of_pairwise_cons hpair List.mem_cons_self)
  have hin := synths_sublist hg
  rw [Node.synths] at hin
  exact (synths_pair hsub hx hy).trans hin

theorem Siblings.sublist {g : A} {as bs : List A} (h : Siblings R g bs) (hsub : as.Sublist bs) :
    Siblings R g as :=
  ⟨fun a ha => h.within a (hsub.subset ha), h.order.sublist hsub⟩

theorem Siblings.head {g a : A} {as : List A} (h : Siblings R g as) (ha : R.within g a)
    (hfirst : ∀ b, R.within g b → ¬ R.before b a) : Siblings R g (a :: as) :=
  ⟨List.forall_mem_cons.mpr ⟨ha, h.within⟩,
    List.pairwise_cons.mpr ⟨fun b hb => hfirst b (h.within b hb), h.order⟩⟩

theorem Siblings.tail {g a : A} {as : List A} (h : Siblings R g as) (ha : R.within g a)
    (hlast : ∀ b, R.within g b → ¬ R.before a b) : Siblings R g (as ++ [a]) := by
  refine ⟨List.forall_mem_append.mpr ⟨h.within, fun b hb => ?_⟩, ?_⟩
  · rw [List.mem_singleton.mp hb]
    exact ha
  · refine List.pairwise_append.mpr ⟨h.order, List.pairwise_singleton _ _, fun b hb c hc => ?_⟩
    rw [List.mem_singleton.mp hc]
    exact hlast b (h.within b hb)

/-- In the middle: what is in front need not come after it, what is behind need not come before. -/
theorem Siblings.insert {g a : A} {as bs : List A} (h : Siblings R g (as ++ bs))
    (ha : R.within g a) (hfront : ∀ b ∈ as, ¬ R.before a b) (hbehind : ∀ b ∈ bs, ¬ R.before b a) :
    Siblings R g (as ++ a :: bs) := by
  obtain ⟨has, hbs⟩ := List.forall_mem_append.mp h.within
  obtain ⟨hoa, hob, hab⟩ := List.pairwise_append.mp h.order
  refine ⟨List.forall_mem_append.mpr ⟨has, List.forall_mem_cons.mpr ⟨ha, hbs⟩⟩, ?_⟩
  refine List.pairwise_append.mpr ⟨hoa, List.pairwise_cons.mpr ⟨hbehind, hob⟩, fun b hb c hc => ?_⟩
  rcases List.mem_cons.mp hc with rfl | hc
  · exact hfront b hb
  · exact hab b hb c hc

/-! ## Editing -/

section Edit

variable {p : A → Bool} {f : Node A → List (Node A)}

mutual

theorem Node.mem_edit : ∀ {n m : Node A}, m ∈ (n.edit p f).flat →
    (∃ k ∈ n.flat, m = k.edit p f) ∨ ∃ k ∈ n.flat, p k.label = true ∧ m ∈ flatAll (f k)
  | .synth a, m, h => by
    rw [Node.edit, Node.flat] at h
    refine .inl ⟨.synth a, self_mem_flat _, ?_⟩
    rw [Node.edit, List.mem_singleton.mp h]
  | .group a ns, m, h => by
    rw [Node.edit, Node.flat] at h
    rcases List.mem_cons.mp h with rfl | h
    · refine .inl ⟨.group a ns, self_mem_flat _, ?_⟩
      rw [Node.edit]
    · rw [Node.flat]
      rcases mem_editAll h with ⟨k, hk, hm⟩ | ⟨k, hk, hp, hm⟩
      · exact .inl ⟨k, List.mem_cons_of_mem _ hk, hm⟩
      · exact .inr ⟨k, List.mem_cons_of_mem _ hk, hp, hm⟩

/-- A node of the edited tree was there, or is in what was put in the place of one. -/
theorem mem_editAll : ∀ {t : List (Node A)} {m : Node A}, m ∈ flatAll (editAll p f t) →
    (∃ k ∈ flatAll t, m = k.edit p f) ∨ ∃ k ∈ flatAll t, p k.label = true ∧ m ∈ flatAll (f k)
  | [], m, h => by
    rw [editAll, flatAll] at h
    cases h
  | n :: t, m, h => by
    rw [editAll, flatAll_append] at h
    rw [flatAll]
    rcases List.mem_append.mp h with h | h
    · by_cases hp : p n.label = true
      · rw [if_pos hp] at h
        exact .inr ⟨n, List.mem_append_left _ (self_mem_flat n), hp, h⟩
      · rw [if_neg hp, flatAll_singleton] at h
        rcases Node.mem_edit h with ⟨k, hk, hm⟩ | ⟨k, hk, hp, hm⟩
        · exact .inl ⟨k, List.mem_append_left _ hk, hm⟩
        · exact .inr ⟨k, List.mem_append_left _ hk, hp, hm⟩
    · rcases mem_editAll h with ⟨k, hk, hm⟩ | ⟨k, hk, hp, hm⟩
      · exact .inl ⟨k, List.mem_append_right _ hk, hm⟩
      · exact .inr ⟨k, List.mem_append_right _ hk, hp, hm⟩

end

/-- **After an edit every node is in its place** if those of each group are and those that were put
in. -/
theorem placed_edit
    (hsiblings : ∀ g ns, Node.group g ns ∈ flatAll t →
      Siblings R g ((editAll p f ns).map Node.label))
    (hnew : ∀ n ∈ flatAll t, p n.label = true → Placed R (f n)) : Placed R (editAll p f t) := by
  intro g ns hg
  rcases mem_editAll hg with ⟨k, hk, hm⟩ | ⟨k, hk, hp, hm⟩
  · cases k with
    | synth a =>
      rw [Node.edit] at hm
      cases hm
    | group a ms =>
      rw [Node.edit] at hm
      cases hm
      exact hsiblings _ _ hk
  · exact hnew k hk hp g ns hm

/-- A group has no more nodes than it had where nothing else is put in the place of a node. -/
theorem labels_editAll_sublist (h : ∀ n : Node A, ((f n).map Node.label).Sublist [n.label])
    (ns : List (Node A)) : ((editAll p f ns).map Node.label).Sublist (ns.map Node.label) := by
  induction ns with
  | nil => rw [editAll]
  | cons n ns ih =>
    rw [editAll, List.map_append]
    have hn : ((if p n.label = true then f n else [n.edit p f]).map Node.label).Sublist
        [n.label] := by
      split_ifs
      · exact h n
      · rw [List.map_singleton, edit_label]
    exact hn.append ih

/-- The nodes of a group stay the same ones where each is put back with its label. -/
theorem labels_editAll_of_keep (h : ∀ n : Node A, p n.label = true → (f n).map Node.label = [n.label])
    (ns : List (Node A)) : (editAll p f ns).map Node.label = ns.map Node.label := by
  induction ns with
  | nil => rw [editAll]
  | cons n ns ih =>
    rw [editAll, List.map_append, ih, List.map_cons]
    by_cases hp : p n.label = true
    · rw [if_pos hp, h n hp]
      rfl
    · rw [if_neg hp, List.map_singleton, edit_label]
      rfl

theorem editAll_top {t : List (Node A)} (h : ∀ n ∈ t, p n.label = false) :
    (editAll p f t).map Node.label = t.map Node.label := by
  induction t with
  | nil => rw [editAll]
  | cons n t ih =>
    have hn : ¬ p n.label = true := by
      rw [h n List.mem_cons_self]
      exact Bool.false_ne_true
    rw [editAll, if_neg hn, List.map_append, ih fun m hm => h m (List.mem_cons_of_mem n hm),
      List.map_singleton, edit_label]
    rfl

mutual

theorem Node.edit_of_not_mem : ∀ {n : Node A}, (∀ m ∈ n.flat, p m.label = false) → n.edit p f = n
  | .synth a, _ => by rw [Node.edit]
  | .group a ns, h => by
    rw [Node.flat] at h
    rw [Node.edit, editAll_of_not_mem fun m hm => h m (List.mem_cons_of_mem _ hm)]

/-- Without such a node nothing is edited. -/
theorem editAll_of_not_mem : ∀ {t : List (Node A)}, (∀ m ∈ flatAll t, p m.label = false) →
    editAll p f t = t
  | [], _ => by rw [editAll]
  | n :: t, h => by
    rw [flatAll] at h
    have hn := h n (List.mem_append_left _ (self_mem_flat n))
    rw [editAll, if_neg (by rw [hn]; exact Bool.false_ne_true),
      Node.edit_of_not_mem fun m hm => h m (List.mem_append_left _ hm),
      editAll_of_not_mem fun m hm => h m (List.mem_append_right _ hm), List.singleton_append]

end

mutual

theorem Node.labels_edit_sublist (h : ∀ n, (labels (f n)).Sublist (labels [n])) :
    ∀ n : Node A, (labels [n.edit p f]).Sublist (labels [n])
  | .synth a => by rw [Node.edit]
  | .group a ns => by
    rw [Node.edit, labels_group, labels_group]
    exact (labels_edit_sublist h ns).cons_cons a

/-- An edit that puts in less takes nothing in. -/
theorem labels_edit_sublist (h : ∀ n, (labels (f n)).Sublist (labels [n])) :
    ∀ t : List (Node A), (labels (editAll p f t)).Sublist (labels t)
  | [] => by rw [editAll]
  | n :: t => by
    rw [editAll, labels_append, labels_cons n t]
    refine List.Sublist.append ?_ (labels_edit_sublist h t)
    split_ifs
    · exact h n
    · exact Node.labels_edit_sublist h n

end

mutual

theorem Node.labels_prune : ∀ n : Node A, (labels n.prune).Sublist (labels [n])
  | .synth a => by
    rw [Node.prune]
    exact List.nil_sublist _
  | .group a ns => by
    rw [Node.prune, labels_group, labels_group]
    exact (labels_pruneAll ns).cons_cons a

theorem labels_pruneAll : ∀ ns : List (Node A), (labels (pruneAll ns)).Sublist (labels ns)
  | [] => by rw [pruneAll]
  | n :: ns => by
    rw [pruneAll, labels_append, labels_cons n ns]
    exact (Node.labels_prune n).append (labels_pruneAll ns)

end

theorem prune_labels_sublist (n : Node A) : (n.prune.map Node.label).Sublist [n.label] := by
  cases n with
  | synth a =>
    rw [Node.prune]
    exact List.nil_sublist _
  | group a ns =>
    rw [Node.prune]
    exact List.Sublist.refl _

theorem pruneAll_labels_sublist (ns : List (Node A)) :
    ((pruneAll ns).map Node.label).Sublist (ns.map Node.label) := by
  induction ns with
  | nil => rw [pruneAll]
  | cons n ns ih =>
    rw [pruneAll, List.map_append]
    exact (prune_labels_sublist n).append ih

mutual

theorem Node.mem_prune : ∀ {n : Node A} {g : A} {ms : List (Node A)},
    Node.group g ms ∈ flatAll n.prune → ∃ ns, Node.group g ns ∈ n.flat ∧ ms = pruneAll ns
  | .synth a, g, ms, h => by
    rw [Node.prune, flatAll] at h
    cases h
  | .group a ns, g, ms, h => by
    rw [Node.prune, flatAll_singleton, Node.flat] at h
    rw [Node.flat]
    rcases List.mem_cons.mp h with h | h
    · cases h
      exact ⟨ns, List.mem_cons_self, rfl⟩
    · obtain ⟨ks, hk, hms⟩ := mem_pruneAll h
      exact ⟨ks, List.mem_cons_of_mem _ hk, hms⟩

theorem mem_pruneAll : ∀ {t : List (Node A)} {g : A} {ms : List (Node A)},
    Node.group g ms ∈ flatAll (pruneAll t) → ∃ ns, Node.group g ns ∈ flatAll t ∧ ms = pruneAll ns
  | [], g, ms, h => by
    rw [pruneAll, flatAll] at h
    cases h
  | n :: t, g, ms, h => by
    rw [pruneAll, flatAll_append] at h
    rw [flatAll]
    rcases List.mem_append.mp h with h | h
    · obtain ⟨ns, hn, hms⟩ := Node.mem_prune h
      exact ⟨ns, List.mem_append_left _ hn, hms⟩
    · obtain ⟨ns, hn, hms⟩ := mem_pruneAll h
      exact ⟨ns, List.mem_append_right _ hn, hms⟩

end

end Edit

/-! ## Adding one node -/

section Add

variable {I : Type} {key : A → I} {p : A → Bool} {f : Node A → List (Node A)}

/-- With an edited label in one part, the other part has none. -/
theorem unedited (hp : ∀ a b, p a = true → p b = true → key a = key b) {s u : List (Node A)}
    (hnd : ((labels s ++ labels u).map key).Nodup) {a : A} (ha : a ∈ labels s) (hpa : p a = true) :
    editAll p f u = u := by
  refine editAll_of_not_mem fun m hm => ?_
  by_contra hpm
  rw [List.map_append] at hnd
  have hkey := hp a m.label hpa (Bool.of_not_eq_false hpm)
  exact List.disjoint_of_nodup_append hnd (List.mem_map_of_mem ha)
    (hkey ▸ List.mem_map_of_mem (label_mem hm))

mutual

theorem Node.labels_add (hp : ∀ a b, p a = true → p b = true → key a = key b) {new : A}
    (hf : ∀ n, p n.label = true → (labels (f n)).Perm (new :: labels [n]) ∨ f n = [n]) :
    ∀ n : Node A, ((labels [n]).map key).Nodup →
      (labels [n.edit p f]).Perm (new :: labels [n]) ∨ n.edit p f = n
  | .synth a, _ => .inr (by rw [Node.edit])
  | .group a ns, hnd => by
    rw [labels_group, List.map_cons] at hnd
    rw [Node.edit, labels_group, labels_group]
    rcases labels_add hp hf ns (List.nodup_cons.mp hnd).2 with h | h
    · exact .inl ((h.cons a).trans (List.Perm.swap new a _))
    · exact .inr (by rw [h])

/-- **One more**: an edit that gives the one node it is about another label does so to the tree. -/
theorem labels_add (hp : ∀ a b, p a = true → p b = true → key a = key b) {new : A}
    (hf : ∀ n, p n.label = true → (labels (f n)).Perm (new :: labels [n]) ∨ f n = [n]) :
    ∀ t : List (Node A), ((labels t).map key).Nodup →
      (labels (editAll p f t)).Perm (new :: labels t) ∨ editAll p f t = t
  | [], _ => .inr (by rw [editAll])
  | n :: t, hnd => by
    rw [labels_cons] at hnd
    have hn : ((labels [n]).map key).Nodup := by
      rw [List.map_append] at hnd
      exact List.Nodup.of_append_left hnd
    have ht : ((labels t).map key).Nodup := by
      rw [List.map_append] at hnd
      exact List.Nodup.of_append_right hnd
    rw [editAll, labels_append, labels_cons n t]
    by_cases hedited : ∃ a ∈ labels [n], p a = true
    · obtain ⟨a, ha, hpa⟩ := hedited
      rw [unedited hp hnd ha hpa]
      by_cases hpn : p n.label = true
      · rw [if_pos hpn]
        rcases hf n hpn with h | h
        · exact .inl (h.append_right _)
        · exact .inr (by rw [h, List.singleton_append])
      · rw [if_neg hpn]
        rcases Node.labels_add hp hf n hn with h | h
        · exact .inl (h.append_right _)
        · exact .inr (by rw [h, List.singleton_append])
    · have hnone : ∀ m ∈ n.flat, p m.label = false := by
        intro m hm
        by_contra hpm
        refine hedited ⟨m.label, label_mem ?_, Bool.of_not_eq_false hpm⟩
        rwa [flatAll_singleton]
      have hpn : ¬ p n.label = true := by
        rw [hnone n (self_mem_flat n)]
        exact Bool.false_ne_true
      rw [if_neg hpn, Node.edit_of_not_mem hnone]
      rcases labels_add hp hf t ht with h | h
      · exact .inl ((h.append_left _).trans List.perm_middle)
      · exact .inr (by rw [h, List.singleton_append])

end

/-- The nodes of one group have different numbers if those of the tree have. -/
theorem nodup_children {g : A} {ns : List (Node A)} (hnd : ((labels t).map key).Nodup)
    (hg : Node.group g ns ∈ flatAll t) : ((ns.map Node.label).map key).Nodup := by
  have hchildren : ∀ ns : List (Node A), (ns.map Node.label).Sublist (labels ns) := by
    intro ns
    induction ns with
    | nil => exact List.nil_sublist _
    | cons n ns ih =>
      rw [labels_cons, List.map_cons, ← List.singleton_append]
      refine List.Sublist.append ?_ ih
      rw [labels, flatAll_singleton]
      exact List.singleton_sublist.mpr (List.mem_map_of_mem (self_mem_flat n))
  have hgroup := labels_sublist hg
  rw [labels_group] at hgroup
  exact hnd.sublist (((hchildren ns).trans ((List.sublist_cons_self _ _).trans hgroup)).map key)

end Add

/-! ## The commands of a server -/

/-- Where a new node goes, by the node that is named with it. -/
inductive AddAction where
  | head
  | tail
  | before
  | after
deriving DecidableEq, Repr

/-- A node with `new` in it or next to it; a synth holds nothing. -/
def place (new : Node A) : AddAction → Node A → List (Node A)
  | .head, .group a ns => [.group a (new :: ns)]
  | .tail, .group a ns => [.group a (ns ++ [new])]
  | .before, n => [new, n]
  | .after, n => [n, new]
  | _, .synth a => [.synth a]

section Commands

variable {I : Type} [DecidableEq I] (key : A → I)

/-- Nodes with this number. -/
def named (i : I) (a : A) : Bool := decide (key a = i)

/-- A new node; a number that there is already is refused. -/
def add (new : Node A) (action : AddAction) (target : I) (t : List (Node A)) : List (Node A) :=
  if key new.label ∈ (labels t).map key then t else editAll (named key target) (place new action) t

/-- What there is to free: a node with all that is in it, all that is in a group, or the synths in
a group, however deep. -/
inductive Removal where
  | free
  | freeAll
  | deepFree
deriving DecidableEq, Repr

/-- What is left of a node. -/
def Removal.left : Removal → Node A → List (Node A)
  | .free, _ => []
  | .freeAll, .group a _ => [.group a []]
  | .deepFree, .group a ns => [.group a (pruneAll ns)]
  | _, .synth a => [.synth a]

def remove (r : Removal) (i : I) (t : List (Node A)) : List (Node A) :=
  editAll (named key i) r.left t

/-- Where a new node may be put in a tree with the labels `as`: it belongs there, and it is on the
right side of whatever may be next to it. -/
def Legal (R : Rules A) (as : List A) (new : A) : AddAction → A → Prop
  | .head, g => R.within g new ∧ ∀ b, R.within g b → ¬ R.before b new
  | .tail, g => R.within g new ∧ ∀ b, R.within g b → ¬ R.before new b
  | .before, a => ∀ g, R.within g a → R.within g new ∧ ¬ R.before a new ∧
      ∀ b ∈ as, b ≠ a → R.within g b →
        (¬ R.before a b → ¬ R.before new b) ∧ (¬ R.before b a → ¬ R.before b new)
  | .after, a => ∀ g, R.within g a → R.within g new ∧ ¬ R.before new a ∧
      ∀ b ∈ as, b ≠ a → R.within g b →
        (¬ R.before a b → ¬ R.before new b) ∧ (¬ R.before b a → ¬ R.before b new)

variable {key} {i : I}

theorem named_inj (a b : A) (ha : named key i a = true) (hb : named key i b = true) :
    key a = key b :=
  (of_decide_eq_true ha).trans (of_decide_eq_true hb).symm

/-- In a list of nodes without a number twice, at most one is edited. -/
theorem labels_editAll_cases {f : Node A → List (Node A)} : ∀ {ns : List (Node A)},
    ((ns.map Node.label).map key).Nodup →
      (editAll (named key i) f ns).map Node.label = ns.map Node.label ∨
        ∃ ms n ks, ns = ms ++ n :: ks ∧ key n.label = i ∧
          (editAll (named key i) f ns).map Node.label =
            ms.map Node.label ++ (f n).map Node.label ++ ks.map Node.label := by
  intro ns
  induction ns with
  | nil =>
    intro _
    exact .inl (by rw [editAll])
  | cons n ns ih =>
    intro hnd
    rw [List.map_cons, List.map_cons] at hnd
    obtain ⟨hfresh, hnd'⟩ := List.nodup_cons.mp hnd
    rw [editAll, List.map_append]
    by_cases hn : named key i n.label = true
    · -- none of the others has the number
      have hrest : (editAll (named key i) f ns).map Node.label = ns.map Node.label := by
        rcases ih hnd' with h | ⟨ms, m, ks, rfl, hm, -⟩
        · exact h
        · refine absurd ?_ hfresh
          rw [of_decide_eq_true hn, ← hm]
          exact List.mem_map_of_mem (List.mem_map_of_mem (by simp))
      refine .inr ⟨[], n, ns, rfl, of_decide_eq_true hn, ?_⟩
      rw [if_pos hn, hrest]
      rfl
    · rw [if_neg hn, List.map_singleton, edit_label]
      rcases ih hnd' with h | ⟨ms, m, ks, rfl, hm, h⟩
      · exact .inl (by rw [h]; rfl)
      · refine .inr ⟨n :: ms, m, ks, rfl, hm, ?_⟩
        rw [h]
        rfl

/-! ### Adding -/

section New

variable {new : Node A} {action : AddAction} {target : I}

/-- A node that has just been made is a synth or an empty group. -/
inductive Made : Node A → Prop where
  | synth (a : A) : Made (.synth a)
  | group (a : A) : Made (.group a [])

theorem Made.labels (h : Made new) : NodeTree.labels [new] = [new.label] := by
  cases h with
  | synth a => exact labels_synth a
  | group a => exact labels_group a []

theorem Made.placed (h : Made new) : Placed R [new] := by
  intro g ns hg
  rw [flatAll_singleton] at hg
  cases h with
  | synth a =>
    rw [Node.flat] at hg
    cases List.mem_singleton.mp hg
  | group a =>
    rw [Node.flat, flatAll] at hg
    cases List.mem_singleton.mp hg
    exact ⟨fun b hb => (by cases hb), List.Pairwise.nil⟩

theorem Placed.subset {s : List (Node A)} (h : Placed R t) (hsub : flatAll s ⊆ flatAll t) :
    Placed R s := fun g ns hg => h g ns (hsub hg)

theorem Placed.append {s : List (Node A)} (hs : Placed R s) (ht : Placed R t) :
    Placed R (s ++ t) := by
  intro g ns hg
  rw [flatAll_append] at hg
  exact (List.mem_append.mp hg).elim (hs g ns) (ht g ns)

theorem Placed.group {a : A} {ns : List (Node A)} (h : Siblings R a (ns.map Node.label))
    (hns : Placed R ns) : Placed R [.group a ns] := by
  intro g ms hg
  rw [flatAll_singleton, Node.flat] at hg
  rcases List.mem_cons.mp hg with hg | hg
  · cases hg
    exact h
  · exact hns g ms hg

/-- A node of the tree, and all that is in it. -/
theorem Placed.of_mem (h : Placed R t) {n : Node A} (hn : n ∈ flatAll t) : Placed R [n] := by
  refine h.subset ?_
  rw [flatAll_singleton]
  exact flatAll_trans hn

theorem Placed.children (h : Placed R t) {a : A} {ns : List (Node A)}
    (hn : Node.group a ns ∈ flatAll t) : Placed R ns := by
  refine h.subset fun m hm => flatAll_trans hn ?_
  rw [Node.flat]
  exact List.mem_cons_of_mem _ hm

/-- What is put in the place of the node that the new one goes in or next to. -/
theorem placed_place (h : Placed R t) (hmade : Made new) {n : Node A} (hn : n ∈ flatAll t)
    (hlegal : Legal R (labels t) new.label action n.label) : Placed R (place new action n) := by
  cases action with
  | head =>
    cases n with
    | synth a => exact h.of_mem hn
    | group a ns =>
      refine Placed.group ((h a ns hn).head hlegal.1 hlegal.2) ?_
      exact hmade.placed.append (h.children hn)
  | tail =>
    cases n with
    | synth a => exact h.of_mem hn
    | group a ns =>
      refine Placed.group ?_ ((h.children hn).append hmade.placed)
      rw [List.map_append]
      exact (h a ns hn).tail hlegal.1 hlegal.2
  | before => exact hmade.placed.append (h.of_mem hn)
  | after => exact (h.of_mem hn).append hmade.placed

omit [DecidableEq I] in
/-- The node that the new one goes next to, between those in front of it and those behind. -/
theorem siblings_split (h : Placed R t) (hnd : ((labels t).map key).Nodup) {g : A}
    {ms ks : List (Node A)} {n : Node A} (hg : Node.group g (ms ++ n :: ks) ∈ flatAll t) :
    (∀ b ∈ ms.map Node.label, b ∈ labels t ∧ b ≠ n.label ∧ R.within g b ∧ ¬ R.before n.label b) ∧
      ∀ b ∈ ks.map Node.label, b ∈ labels t ∧ b ≠ n.label ∧ R.within g b ∧
        ¬ R.before b n.label := by
  have hsiblings := h g _ hg
  have hchildren := nodup_children hnd hg
  have hmem : ∀ b ∈ (ms ++ n :: ks).map Node.label, b ∈ labels t := by
    intro b hb
    obtain ⟨m, hm, rfl⟩ := List.mem_map.mp hb
    exact label_mem (child_mem hg hm)
  have hdiff := List.Nodup.of_map key hchildren
  rw [List.map_append, List.map_cons] at hsiblings hdiff hmem
  obtain ⟨-, hbehind, hfront⟩ := List.pairwise_append.mp hsiblings.order
  obtain ⟨-, hdiff', hdisj⟩ := List.nodup_append.mp hdiff
  refine ⟨fun b hb => ?_, fun b hb => ?_⟩
  · have hin := List.mem_append_left (n.label :: ks.map Node.label) hb
    exact ⟨hmem b hin, hdisj b hb _ List.mem_cons_self, hsiblings.within b hin,
      hfront b hb _ List.mem_cons_self⟩
  · have hin := List.mem_append_right (ms.map Node.label) (List.mem_cons_of_mem n.label hb)
    refine ⟨hmem b hin, fun heq => ?_, hsiblings.within b hin,
      List.rel_of_pairwise_cons hbehind hb⟩
    exact (List.nodup_cons.mp hdiff').1 (heq ▸ hb)

/-- **Adding a node in a legal place** leaves every node in its place. -/
theorem placed_add (h : Placed R t) (hnd : ((labels t).map key).Nodup) (hmade : Made new)
    (hlegal : ∀ a ∈ labels t, key a = target → Legal R (labels t) new.label action a) :
    Placed R (add key new action target t) := by
  unfold add
  split_ifs
  · exact h
  refine placed_edit (fun g ns hg => ?_) fun n hn hp =>
    placed_place h hmade hn (hlegal _ (label_mem hn) (of_decide_eq_true hp))
  rcases labels_editAll_cases (i := target) (f := place new action) (nodup_children hnd hg) with
    heq | ⟨ms, n, ks, rfl, hkey, heq⟩
  · rw [heq]
    exact h g ns hg
  have hmem : n ∈ ms ++ n :: ks := List.mem_append_right _ List.mem_cons_self
  have hn := hlegal _ (label_mem (child_mem hg hmem)) hkey
  have hsiblings := h g _ hg
  obtain ⟨hfront, hbehind⟩ := siblings_split h hnd hg
  rw [heq]
  rw [List.map_append, List.map_cons] at hsiblings
  cases action with
  | head =>
    have hsame : (place new .head n).map Node.label = [n.label] := by cases n <;> rfl
    rw [hsame, List.append_assoc, List.singleton_append]
    exact hsiblings
  | tail =>
    have hsame : (place new .tail n).map Node.label = [n.label] := by cases n <;> rfl
    rw [hsame, List.append_assoc, List.singleton_append]
    exact hsiblings
  | before =>
    obtain ⟨hnew, hafter, hother⟩ := hn g (hsiblings.within _ (by simp))
    have hins := hsiblings.insert hnew
      (fun b hb => ((hother b (hfront b hb).1 (hfront b hb).2.1 (hfront b hb).2.2.1).1
        (hfront b hb).2.2.2))
      (List.forall_mem_cons.mpr ⟨hafter, fun b hb =>
        (hother b (hbehind b hb).1 (hbehind b hb).2.1 (hbehind b hb).2.2.1).2
          (hbehind b hb).2.2.2⟩)
    rw [List.append_assoc]
    exact hins
  | after =>
    obtain ⟨hnew, hbefore, hother⟩ := hn g (hsiblings.within _ (by simp))
    rw [List.append_cons] at hsiblings
    have hins := hsiblings.insert hnew
      (List.forall_mem_append.mpr ⟨fun b hb =>
        (hother b (hfront b hb).1 (hfront b hb).2.1 (hfront b hb).2.2.1).1 (hfront b hb).2.2.2,
        fun b hb => List.mem_singleton.mp hb ▸ hbefore⟩)
      (fun b hb => (hother b (hbehind b hb).1 (hbehind b hb).2.1 (hbehind b hb).2.2.1).2
        (hbehind b hb).2.2.2)
    rw [List.append_assoc, List.singleton_append] at hins
    rw [List.append_assoc]
    exact hins

/-- A tree that something is added to has one more label, or is as it was. -/
theorem labels_add_cases (action : AddAction) (target : I) (hnd : ((labels t).map key).Nodup)
    (hmade : Made new) :
    ((labels (add key new action target t)).Perm (new.label :: labels t) ∧
      key new.label ∉ (labels t).map key) ∨ add key new action target t = t := by
  unfold add
  split_ifs with hfresh
  · exact .inr rfl
  refine (labels_add named_inj ?_ t hnd).imp (fun h => ⟨h, hfresh⟩) id
  intro n _
  cases action with
  | head =>
    cases n with
    | synth a => exact .inr rfl
    | group a ns =>
      refine .inl ?_
      rw [place, labels_group, labels_group, labels_cons, hmade.labels]
      exact List.Perm.swap _ _ _
  | tail =>
    cases n with
    | synth a => exact .inr rfl
    | group a ns =>
      refine .inl ?_
      rw [place, labels_group, labels_group, labels_append, hmade.labels]
      exact ((List.perm_append_singleton _ _).cons a).trans (List.Perm.swap _ _ _)
  | before =>
    refine .inl ?_
    rw [place, labels_cons, hmade.labels]
    exact List.Perm.refl _
  | after =>
    refine .inl ?_
    rw [place, labels_cons, hmade.labels]
    exact List.perm_append_singleton _ _

/-- The nodes at the top stay where nothing is added next to them. -/
theorem add_top (h : action = .head ∨ action = .tail ∨ ∀ n ∈ t, key n.label ≠ target) :
    (add key new action target t).map Node.label = t.map Node.label := by
  unfold add
  split_ifs
  · rfl
  rcases h with rfl | rfl | h
  · exact labels_editAll_of_keep (fun n _ => by cases n <;> rfl) t
  · exact labels_editAll_of_keep (fun n _ => by cases n <;> rfl) t
  · exact editAll_top fun n hn => decide_eq_false (h n hn)

end New

/-! ### Freeing -/

section Remove

variable (key i) (r : Removal)

theorem Removal.left_sublist (n : Node A) : ((r.left n).map Node.label).Sublist [n.label] := by
  cases r with
  | free => exact List.nil_sublist _
  | freeAll => cases n <;> exact List.Sublist.refl _
  | deepFree => cases n <;> exact List.Sublist.refl _

theorem Removal.labels_left (n : Node A) : (labels (r.left n)).Sublist (labels [n]) := by
  cases r with
  | free => exact List.nil_sublist _
  | freeAll =>
    cases n with
    | synth a => exact List.Sublist.refl _
    | group a ns =>
      rw [Removal.left, labels_group, labels_group]
      exact (List.nil_sublist _).cons_cons a
  | deepFree =>
    cases n with
    | synth a => exact List.Sublist.refl _
    | group a ns =>
      rw [Removal.left, labels_group, labels_group]
      exact (labels_pruneAll ns).cons_cons a

theorem placed_left (h : Placed R t) {n : Node A} (hn : n ∈ flatAll t) : Placed R (r.left n) := by
  cases r with
  | free =>
    intro g ns hg
    rw [Removal.left, flatAll] at hg
    cases hg
  | freeAll =>
    cases n with
    | synth a => exact h.of_mem hn
    | group a ns => exact (Made.group a).placed
  | deepFree =>
    cases n with
    | synth a => exact h.of_mem hn
    | group a ns =>
      refine Placed.group ((h a ns hn).sublist (pruneAll_labels_sublist ns)) fun g ms hg => ?_
      obtain ⟨ks, hk, rfl⟩ := mem_pruneAll hg
      exact (h.children hn g ks hk).sublist (pruneAll_labels_sublist ks)

/-- **Freeing** leaves what is left in its place. -/
theorem placed_remove (h : Placed R t) : Placed R (remove key r i t) :=
  placed_edit (fun g ns hg => (h g ns hg).sublist (labels_editAll_sublist r.left_sublist ns))
    fun _ hn _ => placed_left r h hn

theorem labels_remove : (labels (remove key r i t)).Sublist (labels t) :=
  labels_edit_sublist r.labels_left t

theorem remove_top (h : ∀ n ∈ t, key n.label ≠ i ∨ r ≠ .free) :
    (remove key r i t).map Node.label = t.map Node.label := by
  cases r with
  | free => exact editAll_top fun n hn => decide_eq_false ((h n hn).resolve_right (by simp))
  | freeAll => exact labels_editAll_of_keep (fun n _ => by cases n <;> rfl) t
  | deepFree => exact labels_editAll_of_keep (fun n _ => by cases n <;> rfl) t

end Remove

end Commands

end Lua2SC.NodeTree
