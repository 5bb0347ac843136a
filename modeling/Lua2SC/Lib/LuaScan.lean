import Lua2SC.Lib.LuaPattern

/-!
# Lua patterns with captures

`s:match(p)` gives the captures of the first place where `p` matches, `s:gmatch(p)` those of
all places, each search going on behind the last match. What `p` does at one place is a
parameter, since a capture is read off most easily from the string itself: a class with `+`
takes a run of characters, `takeWhile`, whenever what follows it in the pattern is not in the
class.

Both searches pass over a stretch in which no match starts (`find_append`, `gmatch_append`).
`matchAt_pair` and `matchAt_pair_eq_none` are about the pattern `p+q p+` for one character
`q` that is itself in `p`: it matches where a run of `p` has a `q` inside.
-/

namespace Lua2SC.Pattern

variable {α β : Type}

/-! ## Runs -/

section Run

variable {p : α → Bool}

/-- A run ends where the string is over or a character is not in the class. -/
def Ends (p : α → Bool) (s : List α) : Prop := ∀ c ∈ s.head?, p c = false

theorem ends_cons {c : α} (h : p c = false) (s : List α) : Ends p (c :: s) := by
  intro d hd
  cases hd
  exact h

theorem takeWhile_append {s t : List α} (hs : ∀ c ∈ s, p c = true) (ht : Ends p t) :
    (s ++ t).takeWhile p = s := by
  rw [List.takeWhile_append_of_pos hs]
  cases t with
  | nil => rw [List.takeWhile_nil, List.append_nil]
  | cons c t => rw [List.takeWhile_cons_of_neg (by simp [ht c rfl]), List.append_nil]

theorem dropWhile_append {s t : List α} (hs : ∀ c ∈ s, p c = true) (ht : Ends p t) :
    (s ++ t).dropWhile p = t := by
  rw [List.dropWhile_append_of_pos hs]
  cases t with
  | nil => rfl
  | cons c t => rw [List.dropWhile_cons_of_neg (by simp [ht c rfl])]

theorem ends_dropWhile (s : List α) : Ends p (s.dropWhile p) := by
  intro c hc
  have h := List.head?_dropWhile_not p s
  rw [Option.mem_def.mp hc] at h
  exact h

/-- A run from a part of the string that is followed by an end stays in that part. -/
theorem mem_of_mem_takeWhile {s t : List α} (ht : Ends p t) {c : α}
    (hc : c ∈ (s ++ t).takeWhile p) : c ∈ s := by
  induction s with
  | nil =>
    cases t with
    | nil => exact hc
    | cons d t =>
      rw [List.nil_append, List.takeWhile_cons_of_neg (by simp [ht d rfl])] at hc
      exact hc
  | cons d s ih =>
    rw [List.cons_append, List.takeWhile_cons] at hc
    split at hc
    next =>
      rcases List.mem_cons.mp hc with rfl | hc
      · exact List.mem_cons_self ..
      · exact List.mem_cons_of_mem _ (ih hc)
    next => exact absurd hc List.not_mem_nil

end Run

/-! ## The first match -/

/-- `s:match(…)`, where `m` is the match at a place; it takes at least one character. -/
def find (m : List α → Option β) : List α → Option β
  | [] => none
  | c :: s => (m (c :: s)).or (find m s)

theorem find_append {m : List α → Option β} {pre s : List α}
    (h : ∀ t, t <:+ pre → t ≠ [] → m (t ++ s) = none) : find m (pre ++ s) = find m s := by
  induction pre with
  | nil => rfl
  | cons c pre ih =>
    have hnone := h (c :: pre) List.suffix_rfl (List.cons_ne_nil c pre)
    rw [List.cons_append] at hnone ⊢
    rw [find, hnone, Option.none_or]
    exact ih fun t ht => h t (ht.trans (List.suffix_cons c pre))

/-! ## All matches -/

/-- A match at a place: what it captures, and the rest of the string. -/
structure Capture (α β : Type) where
  take : List α → Option (β × List α)
  shrinks : ∀ {s b r}, take s = some (b, r) → r.length < s.length

namespace Capture

variable (C : Capture α β)

/-- `s:gmatch(…)`. -/
def gmatch (s : List α) : List β :=
  match _h : C.take s with
  | some (b, r) => b :: gmatch r
  | none =>
    match s with
    | [] => []
    | _ :: s => gmatch s
termination_by s.length
decreasing_by
  · exact C.shrinks _h
  · exact Nat.lt_succ_self _

theorem gmatch_match {s r : List α} {b : β} (h : C.take s = some (b, r)) :
    C.gmatch s = b :: C.gmatch r := by
  rw [gmatch]
  split
  next b' r' h' =>
    cases h'.symm.trans h
    rfl
  next h' => cases h'.symm.trans h

theorem gmatch_skip {c : α} {s : List α} (h : C.take (c :: s) = none) :
    C.gmatch (c :: s) = C.gmatch s := by
  rw [gmatch]
  split
  next b r h' => cases h'.symm.trans h
  next => rfl

theorem gmatch_nil : C.gmatch [] = [] := by
  rw [gmatch]
  split
  next b r h => exact absurd (C.shrinks h) (Nat.not_lt_zero _)
  next => rfl

theorem gmatch_append {pre s : List α}
    (h : ∀ t, t <:+ pre → t ≠ [] → C.take (t ++ s) = none) :
    C.gmatch (pre ++ s) = C.gmatch s := by
  induction pre with
  | nil => rfl
  | cons c pre ih =>
    have hnone := h (c :: pre) List.suffix_rfl (List.cons_ne_nil c pre)
    rw [List.cons_append] at hnone ⊢
    rw [C.gmatch_skip hnone]
    exact ih fun t ht => h t (ht.trans (List.suffix_cons c pre))

end Capture

/-! ## A run with a character inside -/

section Pair

variable {p : α → Bool}

theorem expand_some (s : List α) : expand p some s = some (s.dropWhile p) := by
  induction s with
  | nil => rfl
  | cons c s ih =>
    rw [expand]
    split
    next hc => rw [ih, Option.some_or, List.dropWhile_cons_of_pos hc]
    next hc => rw [List.dropWhile_cons_of_neg hc]

/-- The rest is matched somewhere in the run or at its end. -/
theorem expand_eq_some {rest : List α → Option (List α)} {s r : List α}
    (h : expand p rest s = some r) :
    ∃ a b, s = a ++ b ∧ (∀ c ∈ a, p c = true) ∧ rest b = some r := by
  induction s with
  | nil => exact ⟨[], [], rfl, by simp, h⟩
  | cons c s ih =>
    unfold expand at h
    split at h
    next hc =>
      rcases Option.or_eq_some_iff.mp h with h | ⟨-, h⟩
      · obtain ⟨a, b, hs, ha, hb⟩ := ih h
        refine ⟨c :: a, b, by rw [hs, List.cons_append], ?_, hb⟩
        intro d hd
        rcases List.mem_cons.mp hd with rfl | hd
        · exact hc
        · exact ha d hd
      · exact ⟨[], c :: s, rfl, by simp, h⟩
    next => exact ⟨[], c :: s, rfl, by simp, h⟩

variable [DecidableEq α]

/-- The pattern `p+q p+`. -/
def pair (p : α → Bool) (q : α) : List (Item α) := [.plus p, .one fun c => c == q, .plus p]

/-- It does not match where the run has no `q`. -/
theorem matchAt_pair_eq_none {q : α} (hq : p q = true) {s : List α}
    (h : q ∉ s.takeWhile p) : matchAt (pair p q) s = none := by
  cases s with
  | nil => rfl
  | cons c s =>
    by_contra hne
    obtain ⟨r, hr⟩ := Option.ne_none_iff_exists'.mp hne
    unfold pair matchAt at hr
    simp only [Option.ite_none_right_eq_some] at hr
    obtain ⟨hc, hr⟩ := hr
    obtain ⟨a, b, hs, ha, hb⟩ := expand_eq_some hr
    cases b with
    | nil => cases hb
    | cons d b =>
      unfold matchAt at hb
      simp only [Option.ite_none_right_eq_some, beq_iff_eq] at hb
      apply h
      rw [hs, List.takeWhile_cons_of_pos hc, List.takeWhile_append_of_pos ha, hb.1,
        List.takeWhile_cons_of_pos hq]
      simp

/-- With one `q` inside the run it takes the whole run. -/
theorem matchAt_pair {q : α} (hq : p q = true) {k v s : List α} (hk : k ≠ []) (hv : v ≠ [])
    (hkp : ∀ c ∈ k, p c = true) (hvp : ∀ c ∈ v, p c = true) (hvq : q ∉ v) (hs : Ends p s) :
    matchAt (pair p q) (k ++ q :: (v ++ s)) = some s := by
  -- at `q` the rest of the pattern matches, and nowhere further on in the run
  have hlast : matchAt [.one (fun c => c == q), .plus p] (q :: (v ++ s)) = some s := by
    obtain ⟨d, v, rfl⟩ := List.exists_cons_of_ne_nil hv
    have hd := hvp d (List.mem_cons_self ..)
    unfold matchAt
    simp only [beq_self_eq_true, if_true, List.cons_append]
    unfold matchAt
    simp only [hd, if_true]
    show expand p some (v ++ s) = some s
    rw [expand_some, dropWhile_append (fun c hc => hvp c (List.mem_cons_of_mem _ hc)) hs]
  have hbeyond : expand p (matchAt [.one (fun c => c == q), .plus p]) (v ++ s) = none := by
    by_contra hne
    obtain ⟨r, hr⟩ := Option.ne_none_iff_exists'.mp hne
    obtain ⟨a, b, hvs, ha, hb⟩ := expand_eq_some hr
    cases b with
    | nil => cases hb
    | cons d b =>
      unfold matchAt at hb
      simp only [Option.ite_none_right_eq_some, beq_iff_eq] at hb
      apply hvq
      refine mem_of_mem_takeWhile (p := p) hs ?_
      rw [hvs, List.takeWhile_append_of_pos ha, hb.1, List.takeWhile_cons_of_pos hq]
      simp
  have hexpand : ∀ k : List α, (∀ c ∈ k, p c = true) →
      expand p (matchAt [.one (fun c => c == q), .plus p]) (k ++ q :: (v ++ s)) = some s := by
    intro k hkp
    induction k with
    | nil =>
      rw [List.nil_append, expand, if_pos hq, hbeyond, Option.none_or, hlast]
    | cons c k ih =>
      rw [List.cons_append, expand, if_pos (hkp c (List.mem_cons_self ..)),
        ih fun d hd => hkp d (List.mem_cons_of_mem _ hd), Option.some_or]
  obtain ⟨c, k, rfl⟩ := List.exists_cons_of_ne_nil hk
  unfold pair matchAt
  simp only [List.cons_append, hkp c (List.mem_cons_self ..), if_true]
  exact hexpand k fun d hd => hkp d (List.mem_cons_of_mem _ hd)

end Pair

end Lua2SC.Pattern
