import Lua2SC.Lib.Topological

/-!
# Networks, and running their nodes one after the other

The value of a node is worked out from the values of the nodes it reads from, and it may have
none. A solution gives every node the value that its own equation asks for.

`run` does without the equations: it takes the nodes of a list in turn and works out the value of
each from what is there by then. In a topological list without repetitions that is all that is
needed: nothing a node reads from changes afterwards, so what `run` leaves behind is a solution
(`run_solves`), and there is no other one (`Solves.unique`). It does not get stuck where a node has
a value whenever all it reads from have good ones (`run_isSome`).
-/

namespace Lua2SC.Dataflow

open Lua2SC.Topo

variable {ι β : Type*}

/-- The nodes, and what each makes of the values of the others. -/
structure Network (ι β : Type*) where
  reads : ι → ι → Prop
  value : ι → (ι → Option β) → Option β
  /-- A node looks only at what it reads from. -/
  value_congr : ∀ {u : ι} {f f' : ι → Option β}, (∀ v, reads u v → f v = f' v) →
    value u f = value u f'

namespace Network

variable (N : Network ι β)

/-- Every node of the list has a value, the one its equation asks for. -/
def Solves (l : List ι) (f : ι → Option β) : Prop :=
  ∀ u ∈ l, (f u).isSome = true ∧ f u = N.value u f

/-- The nodes one after the other. -/
def run [DecidableEq ι] : List ι → (ι → Option β) → Option (ι → Option β)
  | [], m => some m
  | u :: us, m => (N.value u m).bind fun b => run us (Function.update m u (some b))

variable {N} {l : List ι}

/-- Two solutions are the same. -/
theorem Solves.unique (htopo : Topological N.reads l) {f f' : ι → Option β} (h : N.Solves l f)
    (h' : N.Solves l f') : ∀ u ∈ l, f u = f' u := by
  -- along the list: what a node reads from is in front of it
  have hfront : ∀ done todo, l = done ++ todo → ∀ u ∈ done, f u = f' u := by
    intro done
    induction done using List.reverseRecOn with
    | nil => intro _ _ u hu; cases hu
    | append_singleton done a ih =>
      intro todo hl u hu
      have hl' : l = done ++ a :: todo := by rw [hl, List.append_assoc, List.singleton_append]
      have ha : a ∈ l := by rw [hl']; exact List.mem_append_right _ List.mem_cons_self
      have hdone := ih (a :: todo) hl'
      rcases List.mem_append.mp hu with hu | hu
      · exact hdone u hu
      · rw [List.mem_singleton.mp hu, (h a ha).2, (h' a ha).2]
        exact N.value_congr fun v hv => hdone v (htopo done a todo hl' v hv)
  exact hfront l [] (List.append_nil l).symm

variable [DecidableEq ι]

/-- A node that is not run keeps what it has. -/
theorem run_frame {us : List ι} : ∀ {m m' : ι → Option β}, N.run us m = some m' →
    ∀ v, v ∉ us → m' v = m v := by
  induction us with
  | nil =>
    intro m m' h v _
    rw [← Option.some.inj h]
  | cons u us ih =>
    intro m m' h v hv
    obtain ⟨b, -, hrest⟩ := Option.bind_eq_some_iff.mp h
    obtain ⟨hne, hv⟩ := List.ne_and_not_mem_of_not_mem_cons hv
    rw [ih hrest v hv, Function.update_of_ne hne]

/-- **What `run` leaves behind is a solution.** -/
theorem run_solves (htopo : Topological N.reads l) (hnd : l.Nodup) {m m' : ι → Option β}
    (h : N.run l m = some m') : N.Solves l m' := by
  have hrest : ∀ todo done m, l = done ++ todo → N.run todo m = some m' →
      ∀ u ∈ todo, (m' u).isSome = true ∧ m' u = N.value u m' := by
    intro todo
    induction todo with
    | nil => intro _ _ _ _ u hu; cases hu
    | cons a todo ih =>
      intro done m hl hrun u hu
      obtain ⟨b, hb, hrun'⟩ := Option.bind_eq_some_iff.mp hrun
      have hl' : l = (done ++ [a]) ++ todo := by rw [hl, List.append_assoc, List.singleton_append]
      rcases List.mem_cons.mp hu with rfl | hu
      · -- its value was worked out from what the nodes in front still have
        have hnd' := hl ▸ hnd
        have hkeep : ∀ v ∈ done, m' v = m v := fun v hv =>
          run_frame hrun v fun hv' => List.disjoint_of_nodup_append hnd' hv hv'
        have hmine : m' u = some b := by
          rw [run_frame hrun' u (List.nodup_cons.mp (List.Nodup.of_append_right hnd')).1,
            Function.update_self]
        refine ⟨by rw [hmine]; rfl, ?_⟩
        rw [hmine, ← hb]
        exact N.value_congr fun v hv => (hkeep v (htopo done u todo hl v hv)).symm
      · exact ih (done ++ [a]) _ hl' hrun' u hu
  exact hrest l [] m rfl h

/-- **`run` gets to the end** where good values make a good value. -/
theorem run_isSome (Good : ι → β → Prop) (htopo : Topological N.reads l)
    (hgood : ∀ u ∈ l, ∀ f, (∀ v, N.reads u v → ∃ b, f v = some b ∧ Good v b) →
      ∃ b, N.value u f = some b ∧ Good u b) (m : ι → Option β) :
    ∃ m', N.run l m = some m' := by
  have hrest : ∀ todo done m, l = done ++ todo → (∀ v ∈ done, ∃ b, m v = some b ∧ Good v b) →
      ∃ m', N.run todo m = some m' := by
    intro todo
    induction todo with
    | nil => intro _ m _ _; exact ⟨m, rfl⟩
    | cons a todo ih =>
      intro done m hl hdone
      have ha : a ∈ l := by rw [hl]; exact List.mem_append_right _ List.mem_cons_self
      obtain ⟨b, hb, hbgood⟩ := hgood a ha m fun v hv => hdone v (htopo done a todo hl v hv)
      have hl' : l = (done ++ [a]) ++ todo := by rw [hl, List.append_assoc, List.singleton_append]
      obtain ⟨m', hm'⟩ := ih (done ++ [a]) (Function.update m a (some b)) hl' fun v hv => by
        by_cases hva : v = a
        · subst hva
          exact ⟨b, Function.update_self .., hbgood⟩
        · have hv' : v ∈ done := by simpa [hva] using hv
          rw [Function.update_of_ne hva]
          exact hdone v hv'
      refine ⟨m', ?_⟩
      rw [run, hb]
      exact hm'
  exact hrest l [] m rfl fun v hv => by cases hv

end Network

end Lua2SC.Dataflow
