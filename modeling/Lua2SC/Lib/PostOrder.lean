import Mathlib

/-!
# Where a depth-first walk lists a node

`kids a` is the ordered list of the nodes `a` points to. `Walks kids rs done done'`
says what a depth-first walk over the roots `rs` does to the list of finished
nodes: a root already listed is passed over, any other is listed right after
everything the walk over its kids lists. There are no marks and no stack in
it; a derivation is finite, so over a cycle there is none.

What a walk lists is what the roots reach (`Walks.mem_iff`), so the only
question is the order. `Ahead kids v rs u` answers it without walking: go down
from the roots to `v`, at each list into the first node that reaches `v`. The
nodes `u` ahead of `v` are those reached from something passed over on the left
of that way, and those `v` itself reaches. `Walks.split_at` is the main result:
exactly they are listed before `v`, so their number is the position of `v`
(`Walks.position`).
-/

namespace Lua2SC.Topo

open Relation

variable {α : Type*} {kids : α → List α}

/-- `b` is a kid of `a`. -/
def Kid (kids : α → List α) (a b : α) : Prop := b ∈ kids a

/-- A depth-first walk over `rs`, from the finished nodes `done` to `done'`. -/
inductive Walks (kids : α → List α) : List α → List α → List α → Prop where
  | nil (done : List α) : Walks kids [] done done
  | seen {r : α} {rs done done' : List α} (h : r ∈ done) (hrs : Walks kids rs done done') :
      Walks kids (r :: rs) done done'
  | visit {r : α} {rs done mid done' : List α} (h : r ∉ done) (hr : Walks kids (kids r) done mid)
      (hrs : Walks kids rs (mid ++ [r]) done') : Walks kids (r :: rs) done done'

/-- Everything a listed node points to is listed. -/
def ClosedUnder (kids : α → List α) (done : List α) : Prop :=
  ∀ a ∈ done, ∀ b ∈ kids a, b ∈ done

theorem ClosedUnder.reach {done : List α} (h : ClosedUnder kids done) {a b : α} (ha : a ∈ done)
    (hab : ReflTransGen (Kid kids) a b) : b ∈ done := by
  induction hab with
  | refl => exact ha
  | tail _ hcd ih => exact h _ ih _ hcd

/-- The first root, then the others. -/
theorem Walks.cons {r : α} {rs done mid done' : List α} (h₁ : Walks kids [r] done mid)
    (h₂ : Walks kids rs mid done') : Walks kids (r :: rs) done done' := by
  cases h₁ with
  | seen hr hnil => cases hnil; exact Walks.seen hr h₂
  | visit hr hkids hnil => cases hnil; exact Walks.visit hr hkids h₂

/-- A walk only appends. -/
theorem Walks.isPrefix {rs done done' : List α} (h : Walks kids rs done done') :
    done <+: done' := by
  induction h with
  | nil done => exact List.prefix_refl _
  | seen _ _ ih => exact ih
  | visit _ _ _ ihr ihrs => exact (ihr.trans (List.prefix_append _ _)).trans ihrs

/-- A node is reached from a node itself or through one of its kids. -/
theorem reach_iff {r u : α} : ReflTransGen (Kid kids) r u ↔
    r = u ∨ ∃ c ∈ kids r, ReflTransGen (Kid kids) c u :=
  ReflTransGen.cases_head_iff

/-- A node listed after its kids adds what it reaches. -/
theorem mem_snoc_iff {r : α} {done mid : List α}
    (hmid : ∀ u, u ∈ mid ↔ u ∈ done ∨ ∃ c ∈ kids r, ReflTransGen (Kid kids) c u) (u : α) :
    u ∈ mid ++ [r] ↔ u ∈ done ∨ ReflTransGen (Kid kids) r u := by
  rw [List.mem_append, hmid u, List.mem_singleton, reach_iff (r := r), eq_comm (a := u), or_assoc]
  exact or_congr_right or_comm

/-- What is listed after a walk: what was, and what the roots reach. -/
theorem Walks.mem_iff {rs done done' : List α} (h : Walks kids rs done done')
    (hdone : ClosedUnder kids done) : ClosedUnder kids done' ∧
      ∀ u, u ∈ done' ↔ u ∈ done ∨ ∃ r ∈ rs, ReflTransGen (Kid kids) r u := by
  induction h with
  | nil done => exact ⟨hdone, by simp⟩
  | @seen r rs done done' hr _ ih =>
    obtain ⟨hclosed, hmem⟩ := ih hdone
    refine ⟨hclosed, fun u => ?_⟩
    rw [hmem u, List.exists_mem_cons_iff]
    constructor
    · exact Or.imp_right Or.inr
    · rintro (hu | hru | hu)
      · exact Or.inl hu
      · exact Or.inl (hdone.reach hr hru)
      · exact Or.inr hu
  | @visit r rs done mid done' hr _ _ ihr ihrs =>
    obtain ⟨hmidc, hmid⟩ := ihr hdone
    -- the kids of `r` are listed by now, so `r` may follow
    have hsnoc : ClosedUnder kids (mid ++ [r]) := by
      intro a ha b hb
      refine List.mem_append_left _ ?_
      rcases List.mem_append.mp ha with ha' | ha'
      · exact hmidc a ha' b hb
      · rw [List.mem_singleton.mp ha'] at hb
        exact (hmid b).mpr (Or.inr ⟨b, hb, ReflTransGen.refl⟩)
    obtain ⟨hclosed, hmem⟩ := ihrs hsnoc
    refine ⟨hclosed, fun u => ?_⟩
    rw [hmem u, mem_snoc_iff hmid u, List.exists_mem_cons_iff, or_assoc]

/-! ## What is ahead of a node -/

/-- `u` is ahead of `v` in a walk over the roots. -/
inductive Ahead (kids : α → List α) (v : α) : List α → α → Prop where
  | under {rs : List α} {u : α} (h : TransGen (Kid kids) v u) : Ahead kids v (v :: rs) u
  | left {r : α} {rs : List α} {u : α} (hr : ¬ ReflTransGen (Kid kids) r v)
      (h : ReflTransGen (Kid kids) r u) : Ahead kids v (r :: rs) u
  | later {r : α} {rs : List α} {u : α} (hr : ¬ ReflTransGen (Kid kids) r v)
      (h : Ahead kids v rs u) : Ahead kids v (r :: rs) u
  | into {r : α} {rs : List α} {u : α} (hne : r ≠ v) (hr : ReflTransGen (Kid kids) r v)
      (h : Ahead kids v (kids r) u) : Ahead kids v (r :: rs) u

/-- At `v` itself: what `v` points to, directly or through others. -/
theorem ahead_self {v u : α} {rs : List α} :
    Ahead kids v (v :: rs) u ↔ TransGen (Kid kids) v u := by
  constructor
  · intro h
    cases h with
    | under h => exact h
    | left hr _ => exact absurd ReflTransGen.refl hr
    | later hr _ => exact absurd ReflTransGen.refl hr
    | into hne _ _ => exact absurd rfl hne
  · exact Ahead.under

/-- At a node that does not reach `v`: all it reaches, and what the others put ahead. -/
theorem ahead_of_not_reach {v r u : α} {rs : List α} (hr : ¬ ReflTransGen (Kid kids) r v) :
    Ahead kids v (r :: rs) u ↔ ReflTransGen (Kid kids) r u ∨ Ahead kids v rs u := by
  constructor
  · intro h
    cases h with
    | under _ => exact absurd ReflTransGen.refl hr
    | left _ h => exact Or.inl h
    | later _ h => exact Or.inr h
    | into _ hr' _ => exact absurd hr' hr
  · rintro (h | h)
    · exact Ahead.left hr h
    · exact Ahead.later hr h

/-- At a node above `v`: what its kids put ahead. -/
theorem ahead_of_reach {v r u : α} {rs : List α} (hne : r ≠ v)
    (hr : ReflTransGen (Kid kids) r v) :
    Ahead kids v (r :: rs) u ↔ Ahead kids v (kids r) u := by
  constructor
  · intro h
    cases h with
    | under _ => exact absurd rfl hne
    | left hr' _ => exact absurd hr hr'
    | later hr' _ => exact absurd hr hr'
    | into _ _ h => exact h
  · exact Ahead.into hne hr

/-- **A walk lists before `v` what is ahead of it.** The induction is on the
walk; at its first root the three cases are those of `Ahead`. -/
theorem Walks.split_at {rs done done' : List α}
    (h : Walks kids rs done done') (hdone : ClosedUnder kids done) {v : α} (hv : v ∉ done)
    (hreach : ∃ r ∈ rs, ReflTransGen (Kid kids) r v) :
    ∃ pre post, done' = pre ++ v :: post ∧
      ∀ u, u ∈ pre ↔ u ∈ done ∨ Ahead kids v rs u := by
  induction h with
  | nil done => obtain ⟨r, hr, _⟩ := hreach; exact absurd hr (by simp)
  | @seen r rs done done' hr _ ih =>
    -- a listed root does not reach what is not listed
    have hrv : ¬ ReflTransGen (Kid kids) r v := fun hrv => hv (hdone.reach hr hrv)
    have hrest : ∃ r ∈ rs, ReflTransGen (Kid kids) r v :=
      ((List.exists_mem_cons_iff ..).mp hreach).resolve_left hrv
    obtain ⟨pre, post, hsplit, hpre⟩ := ih hdone hv hrest
    refine ⟨pre, post, hsplit, fun u => ?_⟩
    rw [hpre u, ahead_of_not_reach hrv]
    have hru : ReflTransGen (Kid kids) r u → u ∈ done := hdone.reach hr
    tauto
  | @visit r rs done mid done' hr hkids hrs ihr ihrs =>
    obtain ⟨hmidc, hmid⟩ := hkids.mem_iff hdone
    obtain ⟨tail, htail⟩ := hrs.isPrefix
    by_cases hrv : ReflTransGen (Kid kids) r v
    · by_cases heq : r = v
      · -- `v` itself: the kids' walk is all that comes first
        subst heq
        refine ⟨mid, tail, by rw [← htail, List.append_assoc]; rfl, fun u => ?_⟩
        rw [hmid u, ahead_self, TransGen.head'_iff]
        rfl
      · -- above `v`: the kids' walk already lists it
        have hkid : ∃ c ∈ kids r, ReflTransGen (Kid kids) c v :=
          (reach_iff.mp hrv).resolve_left heq
        obtain ⟨pre, post, hsplit, hpre⟩ := ihr hdone hv hkid
        refine ⟨pre, post ++ [r] ++ tail, ?_, fun u => ?_⟩
        · rw [← htail, hsplit]
          simp
        · rw [hpre u, ahead_of_reach heq hrv]
    · -- off the way: everything below `r` comes first, then the others
      have hmem := mem_snoc_iff hmid
      have hclosed : ClosedUnder kids (mid ++ [r]) :=
        ((Walks.visit hr hkids (Walks.nil _)).mem_iff hdone).1
      have hv' : v ∉ mid ++ [r] := fun h => ((hmem v).mp h).elim hv hrv
      have hrest : ∃ r ∈ rs, ReflTransGen (Kid kids) r v :=
        ((List.exists_mem_cons_iff ..).mp hreach).resolve_left hrv
      obtain ⟨pre, post, hsplit, hpre⟩ := ihrs hclosed hv' hrest
      refine ⟨pre, post, hsplit, fun u => ?_⟩
      rw [hpre u, hmem u, ahead_of_not_reach hrv, or_assoc]

/-- The position of `v` is the number of nodes ahead of it. -/
theorem Walks.position {rs l : List α} (h : Walks kids rs [] l)
    (hnd : l.Nodup) {v : α} (hreach : ∃ r ∈ rs, ReflTransGen (Kid kids) r v) (i : ℕ) :
    l[i]? = some v ↔ {u | Ahead kids v rs u}.ncard = i := by
  obtain ⟨pre, post, rfl, hpre⟩ := h.split_at (by intro a ha; exact absurd ha (by simp))
    (by simp) hreach
  have hndpre : pre.Nodup := (List.nodup_append.mp hnd).1
  have hcard : {u | Ahead kids v rs u}.ncard = pre.length := by
    classical
    have hset : {u | Ahead kids v rs u} = (pre.toFinset : Set α) := by
      ext u
      simp [hpre u]
    rw [hset, Set.ncard_coe_finset, List.toFinset_card_of_nodup hndpre]
  have hv : (pre ++ v :: post)[pre.length]? = some v := by simp
  rw [hcard]
  constructor
  · intro hi
    have hlt : i < (pre ++ v :: post).length := (List.getElem?_eq_some_iff.mp hi).1
    exact ((List.getElem?_inj hlt hnd).mp (hi.trans hv.symm)).symm
  · rintro rfl
    exact hv

end Lua2SC.Topo
