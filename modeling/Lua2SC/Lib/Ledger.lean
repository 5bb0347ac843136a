import Mathlib

/-!
# Blocks handed out by a counter

A counter that only goes up hands out blocks of consecutive numbers: a request
for `count` numbers gets the ones from the counter on, and the counter moves
past them. `Grant` is one block with its owner, and a `Ledger` lists the
blocks handed out so far, in order. Numbers may also be skipped, when somebody
who is not in the ledger draws from the same counter.

No number is in two blocks (`Ledger.grant_eq`), so two owners never share one.
-/

namespace Lua2SC.Blocks

variable {O : Type*}

/-- A block of numbers and whom it was given to. -/
structure Grant (O : Type*) where
  owner : O
  first : ℕ
  count : ℕ
deriving DecidableEq, Repr

/-- The number is in the block. -/
def Grant.Holds (g : Grant O) (n : ℕ) : Prop := g.first ≤ n ∧ n < g.first + g.count

instance (g : Grant O) (n : ℕ) : Decidable (g.Holds n) :=
  inferInstanceAs (Decidable (g.first ≤ n ∧ n < g.first + g.count))

/-- A block of one number holds that number. -/
theorem holds_one (o : O) (n : ℕ) : (Grant.mk o n 1).Holds n := ⟨le_rfl, Nat.lt_succ_self n⟩

/-- The number was given to the owner. -/
def GivenTo (grants : List (Grant O)) (o : O) (n : ℕ) : Prop :=
  ∃ g ∈ grants, g.owner = o ∧ g.Holds n

instance [DecidableEq O] (grants : List (Grant O)) (o : O) (n : ℕ) :
    Decidable (GivenTo grants o n) :=
  inferInstanceAs (Decidable (∃ g ∈ grants, g.owner = o ∧ g.Holds n))

/-- What was given stays given. -/
theorem GivenTo.mono {grants grants' : List (Grant O)} {o : O} {n : ℕ}
    (h : GivenTo grants o n) (hsub : grants ⊆ grants') : GivenTo grants' o n := by
  obtain ⟨g, hg, howner, hholds⟩ := h
  exact ⟨g, hsub hg, howner, hholds⟩

/-- The blocks handed out before the counter stood at `next`. -/
structure Ledger (next : ℕ) (grants : List (Grant O)) : Prop where
  below : ∀ g ∈ grants, g.first + g.count ≤ next
  apart : grants.Pairwise fun g g' => g.first + g.count ≤ g'.first

/-- Nothing has been handed out. -/
theorem Ledger.nil (next : ℕ) : Ledger next ([] : List (Grant O)) :=
  ⟨by simp, List.Pairwise.nil⟩

variable {next : ℕ} {grants : List (Grant O)}

/-- Numbers are skipped. -/
theorem Ledger.skip (h : Ledger next grants) (n : ℕ) : Ledger (next + n) grants :=
  ⟨fun g hg => (h.below g hg).trans (Nat.le_add_right next n), h.apart⟩

/-- A block is handed out. -/
theorem Ledger.grant (h : Ledger next grants) (o : O) (n : ℕ) :
    Ledger (next + n) (grants ++ [⟨o, next, n⟩]) := by
  refine ⟨?_, ?_⟩
  · intro g hg
    rcases List.mem_append.mp hg with hold | hnew
    · exact (h.below g hold).trans (Nat.le_add_right next n)
    · rw [List.mem_singleton.mp hnew]
  · refine List.pairwise_append.mpr ⟨h.apart, List.pairwise_singleton _ _, ?_⟩
    intro g hg g' hg'
    rw [List.mem_singleton.mp hg']
    exact h.below g hg

/-- **No number is in two blocks.** -/
theorem Ledger.grant_eq (h : Ledger next grants) {g g' : Grant O} (hg : g ∈ grants)
    (hg' : g' ∈ grants) {n : ℕ} (hn : g.Holds n) (hn' : g'.Holds n) : g = g' := by
  let Disjoint : Grant O → Grant O → Prop := fun g₁ g₂ => ∀ n, g₁.Holds n → ¬ g₂.Holds n
  have hsymm : Std.Symm Disjoint := ⟨fun _ _ hdis n h₂ h₁ => hdis n h₁ h₂⟩
  have hapart : grants.Pairwise Disjoint := h.apart.imp fun hle n h₁ h₂ =>
    absurd (lt_of_lt_of_le h₁.2 hle) (not_lt.mpr h₂.1)
  by_contra hne
  exact hapart.forall hg hg' hne n hn hn'

end Lua2SC.Blocks
