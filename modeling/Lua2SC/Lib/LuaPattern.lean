import Mathlib.Data.List.Infix
import Mathlib.Order.Basic

/-!
# Lua patterns

Patterns of items without captures, as `lstrlib.c` matches them: a class of characters
once, as often as it goes but at least once, or once if it goes, each giving back what it
took if the rest does not match.

`gsub` looks for a match at every place from the left and goes on behind what it has
replaced. A `Rule` is a pattern with a replacement that is shorter than whatever matches,
so that applying it again and again comes to an end: `settle` is the loop

    repeat s,k = s:gsub(pattern,repl) until k == 0

which leaves a string alone where the pattern matches nowhere in it (`Clean.settle`), and
makes any other string shorter (`settle_length`).

`behind` is `s:match(p.."(.+)")` for a pattern `p` that stands for itself: what follows the
first place where `p` is found with something after it.
-/

namespace Lua2SC.Pattern

variable {α : Type}

/-- An item: a class of characters, once (`c`), at least once (`c+`) or at most once (`c?`). -/
inductive Item (α : Type) where
  | one (p : α → Bool)
  | plus (p : α → Bool)
  | opt (p : α → Bool)

/-- `max_expand`: as many as there are, then the rest of the pattern, and fewer if that fails. -/
def expand (p : α → Bool) (rest : List α → Option (List α)) : List α → Option (List α)
  | [] => rest []
  | c :: s => if p c then (expand p rest s).or (rest (c :: s)) else rest (c :: s)

/-- What is left behind a match at the start of the string. -/
def matchAt : List (Item α) → List α → Option (List α)
  | [], s => some s
  | .one p :: items, s =>
    match s with
    | [] => none
    | c :: s => if p c then matchAt items s else none
  | .plus p :: items, s =>
    match s with
    | [] => none
    | c :: s => if p c then expand p (matchAt items) s else none
  | .opt p :: items, s =>
    match s with
    | [] => matchAt items []
    | c :: s => if p c then (matchAt items s).or (matchAt items (c :: s)) else matchAt items (c :: s)

/-- How many characters a match takes at least. -/
def need : List (Item α) → ℕ
  | [] => 0
  | .one _ :: items => need items + 1
  | .plus _ :: items => need items + 1
  | .opt _ :: items => need items

theorem expand_length {p : α → Bool} {rest : List α → Option (List α)} {n : ℕ}
    (hrest : ∀ s r, rest s = some r → r.length + n ≤ s.length) :
    ∀ s r, expand p rest s = some r → r.length + n ≤ s.length := by
  intro s
  induction s with
  | nil => exact hrest []
  | cons c s ih =>
    intro r h
    unfold expand at h
    split at h
    next =>
      rcases Option.or_eq_some_iff.mp h with h | ⟨-, h⟩
      · have hle := ih r h
        rw [List.length_cons]
        omega
      · exact hrest _ r h
    next => exact hrest _ r h

theorem matchAt_length : ∀ (items : List (Item α)) (s r : List α), matchAt items s = some r →
    r.length + need items ≤ s.length := by
  intro items
  induction items with
  | nil =>
    intro s r h
    cases h
    exact le_rfl
  | cons item items ih =>
    intro s r h
    cases item with
    | one p =>
      cases s with
      | nil => cases h
      | cons c s =>
        unfold matchAt at h
        simp only [Option.ite_none_right_eq_some] at h
        have hle := ih s r h.2
        rw [need, List.length_cons]
        omega
    | plus p =>
      cases s with
      | nil => cases h
      | cons c s =>
        unfold matchAt at h
        simp only [Option.ite_none_right_eq_some] at h
        have hle := expand_length ih s r h.2
        rw [need, List.length_cons]
        omega
    | opt p =>
      cases s with
      | nil => exact ih [] r h
      | cons c s =>
        unfold matchAt at h
        dsimp only at h
        split at h
        next =>
          rcases Option.or_eq_some_iff.mp h with h | ⟨-, h⟩
          · have hle := ih s r h
            rw [need, List.length_cons]
            omega
          · exact ih _ r h
        next => exact ih _ r h

/-- A pattern, and a replacement shorter than whatever matches. -/
structure Rule (α : Type) where
  items : List (Item α)
  repl : List α
  shrinks : repl.length < need items

namespace Rule

variable (R : Rule α)

theorem matched {s r : List α} (h : matchAt R.items s = some r) :
    R.repl.length + r.length < s.length := by
  have hle := matchAt_length R.items s r h
  have hlt := R.shrinks
  omega

/-- `s:gsub(pattern, repl)`: the string and how often there was a match. -/
def gsub (s : List α) : List α × ℕ :=
  match _h : matchAt R.items s with
  | some r =>
    let (t, k) := gsub r
    (R.repl ++ t, k + 1)
  | none =>
    match s with
    | [] => ([], 0)
    | c :: s =>
      let (t, k) := gsub s
      (c :: t, k)
termination_by s.length
decreasing_by
  · have hlt := R.matched _h
    omega
  · exact Nat.lt_succ_self _

theorem gsub_match {s r : List α} (h : matchAt R.items s = some r) :
    R.gsub s = (R.repl ++ (R.gsub r).1, (R.gsub r).2 + 1) := by
  rw [gsub]
  split
  next r' h' =>
    cases h'.symm.trans h
    rfl
  next h' => cases h'.symm.trans h

theorem gsub_skip {c : α} {s : List α} (h : matchAt R.items (c :: s) = none) :
    R.gsub (c :: s) = (c :: (R.gsub s).1, (R.gsub s).2) := by
  rw [gsub]
  split
  next r h' => cases h'.symm.trans h
  next => rfl

theorem gsub_nil (h : matchAt R.items [] = none) : R.gsub [] = ([], 0) := by
  rw [gsub]
  split
  next r h' => cases h'.symm.trans h
  next => rfl

/-- The pattern matches nowhere. -/
def Clean (s : List α) : Prop := ∀ t, t <:+ s → matchAt R.items t = none

variable {R}

theorem Clean.suffix {s t : List α} (h : R.Clean s) (hts : t <:+ s) : R.Clean t :=
  fun u hu => h u (hu.trans hts)

/-- A string shorter than the pattern needs. -/
theorem Clean.of_length {s : List α} (h : s.length < need R.items) : R.Clean s := by
  intro t ht
  have hle := ht.length_le
  cases hmatch : matchAt R.items t with
  | none => rfl
  | some r =>
    have hneed := matchAt_length R.items t r hmatch
    omega

variable (R)

/-- One pass: it changes nothing, or makes the string shorter by its matches. -/
theorem gsub_spec (s : List α) : (R.gsub s).1.length + (R.gsub s).2 ≤ s.length ∧
    ((R.gsub s).2 = 0 ↔ R.Clean s) ∧ (R.Clean s → (R.gsub s).1 = s) := by
  induction hn : s.length using Nat.strong_induction_on generalizing s with
  | _ n ih =>
    cases h : matchAt R.items s with
    | some r =>
      have hlt := R.matched h
      obtain ⟨hlen, -, -⟩ := ih r.length (by omega) r rfl
      rw [R.gsub_match h]
      have hdirty : ¬ R.Clean s := fun hclean =>
        Option.some_ne_none r (h.symm.trans (hclean s List.suffix_rfl))
      refine ⟨?_, ?_, fun hclean => absurd hclean hdirty⟩
      · rw [List.length_append]
        omega
      · exact iff_of_false (Nat.succ_ne_zero _) hdirty
    | none =>
      cases s with
      | nil =>
        rw [R.gsub_nil h]
        refine ⟨Nat.zero_le _, iff_of_true rfl fun t ht => ?_, fun _ => rfl⟩
        rw [List.suffix_nil.mp ht]
        exact h
      | cons c s =>
        rw [List.length_cons] at hn
        obtain ⟨hlen, hzero, hsame⟩ := ih s.length (by omega) s rfl
        rw [R.gsub_skip h]
        have hcons : R.Clean (c :: s) ↔ R.Clean s := by
          refine ⟨fun hclean => hclean.suffix (List.suffix_cons c s), fun hclean t ht => ?_⟩
          rcases List.suffix_cons_iff.mp ht with rfl | ht
          · exact h
          · exact hclean t ht
        refine ⟨?_, hzero.trans hcons.symm, fun hclean => ?_⟩
        · rw [List.length_cons]
          omega
        · rw [hsame (hcons.mp hclean)]

/-- What no match starts in is passed over. -/
theorem gsub_append {pre s : List α}
    (h : ∀ t, t <:+ pre → t ≠ [] → matchAt R.items (t ++ s) = none) :
    R.gsub (pre ++ s) = (pre ++ (R.gsub s).1, (R.gsub s).2) := by
  induction pre with
  | nil => rfl
  | cons c pre ih =>
    have hnone := h (c :: pre) List.suffix_rfl (List.cons_ne_nil c pre)
    have hrest := ih fun t ht => h t (ht.trans (List.suffix_cons c pre))
    rw [List.cons_append] at hnone ⊢
    rw [R.gsub_skip hnone, hrest]
    rfl

/-- `repeat s,k = s:gsub(pattern,repl) until k == 0`. -/
def settle (s : List α) : List α :=
  if _h : (R.gsub s).2 = 0 then (R.gsub s).1 else settle (R.gsub s).1
termination_by s.length
decreasing_by
  have hle := (R.gsub_spec s).1
  omega

/-- Once through, the loop goes on with what there is. -/
theorem settle_gsub (s : List α) : R.settle s = R.settle (R.gsub s).1 := by
  rw [settle]
  split
  next hzero =>
    have hclean := (R.gsub_spec s).2.1.mp hzero
    have hsame := (R.gsub_spec s).2.2 hclean
    rw [hsame, settle, dif_pos hzero, hsame]
  next => rfl

theorem settle_length (s : List α) : (R.settle s).length ≤ s.length ∧
    (¬ R.Clean s → (R.settle s).length < s.length) := by
  induction hn : s.length using Nat.strong_induction_on generalizing s with
  | _ n ih =>
    obtain ⟨hlen, hzero, hsame⟩ := R.gsub_spec s
    rw [settle]
    split
    next h =>
      have hclean := hzero.mp h
      rw [hsame hclean]
      exact ⟨hn.le, fun hdirty => absurd hclean hdirty⟩
    next h =>
      obtain ⟨hle, -⟩ := ih (R.gsub s).1.length (by omega) (R.gsub s).1 rfl
      exact ⟨by omega, fun _ => by omega⟩

variable {R}

theorem Clean.settle {s : List α} (h : R.Clean s) : R.settle s = s := by
  obtain ⟨-, hzero, hsame⟩ := R.gsub_spec s
  rw [Rule.settle, dif_pos (hzero.mpr h), hsame h]

end Rule

/-! ## What follows a string -/

section Behind

variable [DecidableEq α]

/-- The pattern that matches `p` only, every magic character escaped. -/
def literal (p : List α) : List (Item α) := p.map fun c => .one fun d => d == c

theorem matchAt_literal {p s r : List α} : matchAt (literal p) s = some r ↔ s = p ++ r := by
  induction p generalizing s with
  | nil => exact Option.some_inj
  | cons c p ih =>
    show matchAt (.one (fun d => d == c) :: literal p) s = some r ↔ _
    cases s with
    | nil =>
      refine iff_of_false (fun h => ?_) fun h => ?_
      · cases h
      · cases h
    | cons d s =>
      unfold matchAt
      simp only [Option.ite_none_right_eq_some, beq_iff_eq, ih, List.cons_append, List.cons.injEq]

/-- `s:match(p.."(.+)")`. -/
def behind (p : List α) : List α → Option (List α)
  | [] => none
  | c :: s =>
    match matchAt (literal p) (c :: s) with
    | some (d :: rest) => some (d :: rest)
    | _ => behind p s

theorem behind_of_append {p s rest : List α} (hs : s = p ++ rest) (hrest : rest ≠ []) :
    behind p s = some rest := by
  have hmatch := matchAt_literal.mpr hs
  cases s with
  | nil =>
    have hnil := (List.append_eq_nil_iff.mp hs.symm).2
    exact absurd hnil hrest
  | cons c s =>
    obtain ⟨d, rest', rfl⟩ := List.exists_cons_of_ne_nil hrest
    rw [behind, hmatch]

/-- One character further, when there is nothing behind a match here. -/
theorem behind_cons {p s : List α} {c : α} (h : ∀ rest, c :: s = p ++ rest → rest = []) :
    behind p (c :: s) = behind p s := by
  rw [behind]
  split
  next d rest hmatch => exact absurd (h _ (matchAt_literal.mp hmatch)) (List.cons_ne_nil d rest)
  next => rfl

/-- `p` is found with something behind it, or it is not. -/
theorem behind_spec (p s : List α) :
    (∃ pre rest, s = pre ++ (p ++ rest) ∧ rest ≠ [] ∧ behind p s = some rest) ∨
    ((∀ pre rest, s = pre ++ (p ++ rest) → rest = []) ∧ behind p s = none) := by
  induction s with
  | nil =>
    refine .inr ⟨fun pre rest h => ?_, rfl⟩
    exact (List.append_eq_nil_iff.mp (List.append_eq_nil_iff.mp h.symm).2).2
  | cons c s ih =>
    by_cases hhere : ∀ rest, c :: s = p ++ rest → rest = []
    · rw [behind_cons hhere]
      rcases ih with ⟨pre, rest, hs, hrest, hfound⟩ | ⟨hnone, hfound⟩
      · exact .inl ⟨c :: pre, rest, by rw [hs, List.cons_append], hrest, hfound⟩
      · refine .inr ⟨fun pre rest h => ?_, hfound⟩
        cases pre with
        | nil => exact hhere rest h
        | cons d pre =>
          rw [List.cons_append, List.cons.injEq] at h
          exact hnone pre rest h.2
    · obtain ⟨rest, hrest⟩ := not_forall.mp hhere
      obtain ⟨hs, hne⟩ := Classical.not_imp.mp hrest
      exact .inl ⟨[], rest, hs, hne, behind_of_append hs hne⟩

end Behind

end Lua2SC.Pattern
