import Lua2SC.Lib.Lua

/-!
# Formats: a writer, a reader, and what survives the trip

A writer is a list of pieces that may each raise; `concat` joins them. A
reader is a stateful computation over some cursor type `σ` that may raise,
and `mk pre post` is the cursor with `pre` behind it and `post` in front.

`Reads mk m bs a`: placed in front of `bs` in *any* surroundings, `m` returns
`a` and ends up behind `bs`. `Carries mk w m a`: the writer `w` succeeds and
`m` reads its bytes as `a`. Both are closed under sequencing and repetition,
so the round trip of a format is put together field by field, writer and
reader side by side.
-/

namespace Lua2SC.Format

variable {σ ε β α γ δ : Type}

/-- A reader over cursors `σ`. -/
abbrev Reader (σ ε α : Type) := StateT σ (Except ε) α

/-- Behind `pre`, `m` consumes exactly `bs` and returns `a`. -/
def ReadsAt (mk : List β → List β → σ) (pre : List β) (m : Reader σ ε α) (bs : List β) (a : α) :
    Prop :=
  ∀ post, m (mk pre (bs ++ post)) = .ok (a, mk (pre ++ bs) post)

/-- `m` consumes exactly `bs` and returns `a`, whatever surrounds `bs`. -/
def Reads (mk : List β → List β → σ) (m : Reader σ ε α) (bs : List β) (a : α) : Prop :=
  ∀ pre, ReadsAt mk pre m bs a

/-- Run `m` as many times as asked and collect the results. -/
def times (m : Reader σ ε α) : ℕ → Reader σ ε (List α)
  | 0 => pure []
  | n + 1 => do
    let a ← m
    let as ← times m n
    pure (a :: as)

/-- A part of the format that is there under a condition only. -/
def onlyIf (c : Prop) [Decidable c] (m : Reader σ ε α) : Reader σ ε (Option α) :=
  if c then do
    let a ← m
    pure (some a)
  else pure none

/-- The pieces written one after the other. -/
def concat : List (Except ε (List β)) → Except ε (List β)
  | [] => .ok []
  | w :: ws => do
    let s ← w
    let rest ← concat ws
    pure (s ++ rest)

/-- When the whole succeeds, each piece does. -/
theorem concat_ok {ws : List (Except ε (List β))} {s : List β} (h : concat ws = .ok s) :
    ∀ w ∈ ws, ∃ t, w = .ok t := by
  induction ws generalizing s with
  | nil => simp
  | cons w ws ih =>
    obtain ⟨t, ht, hrest⟩ := Lua.bind_ok.mp h
    obtain ⟨r, hr, -⟩ := Lua.bind_ok.mp hrest
    intro v hv
    rcases List.mem_cons.mp hv with rfl | hv'
    · exact ⟨t, ht⟩
    · exact ih hr v hv'

theorem concat_append {xs ys : List (Except ε (List β))} {a b : List β}
    (hx : concat xs = .ok a) (hy : concat ys = .ok b) : concat (xs ++ ys) = .ok (a ++ b) := by
  induction xs generalizing a with
  | nil => cases hx; exact hy
  | cons w ws ih =>
    obtain ⟨s, hs, hrest⟩ := Lua.bind_ok.mp hx
    obtain ⟨r, hr, hret⟩ := Lua.bind_ok.mp hrest
    cases hret
    rw [List.cons_append, concat, hs, ih hr, List.append_assoc]
    rfl

/-- What was written is cut where the pieces are. -/
theorem concat_append_ok {xs ys : List (Except ε (List β))} {s : List β}
    (h : concat (xs ++ ys) = .ok s) : ∃ a b, concat xs = .ok a ∧ concat ys = .ok b ∧ s = a ++ b := by
  induction xs generalizing s with
  | nil => exact ⟨[], s, rfl, h, rfl⟩
  | cons w ws ih =>
    obtain ⟨t, ht, hrest⟩ := Lua.bind_ok.mp h
    obtain ⟨r, hr, hret⟩ := Lua.bind_ok.mp hrest
    cases hret
    obtain ⟨a, b, ha, hb, rfl⟩ := ih hr
    refine ⟨t ++ a, b, ?_, hb, (List.append_assoc t a b).symm⟩
    rw [concat, ht, ha]
    rfl

section

variable {mk : List β → List β → σ}

theorem Reads.pure (a : α) : Reads mk (Pure.pure a : Reader σ ε α) [] a := by
  intro pre post
  rw [List.append_nil]
  rfl

theorem ReadsAt.bind {pre : List β} {m : Reader σ ε α} {f : α → Reader σ ε γ} {b₁ b₂ : List β}
    {a : α} {c : γ} (h₁ : ReadsAt mk pre m b₁ a) (h₂ : ReadsAt mk (pre ++ b₁) (f a) b₂ c) :
    ReadsAt mk pre (m >>= f) (b₁ ++ b₂) c := by
  intro post
  show (do let (a, s) ← m (mk pre (b₁ ++ b₂ ++ post)); f a s) = _
  rw [List.append_assoc, h₁ (b₂ ++ post)]
  show f a (mk (pre ++ b₁) (b₂ ++ post)) = _
  rw [h₂ post, List.append_assoc]

theorem Reads.bind {m : Reader σ ε α} {f : α → Reader σ ε γ} {b₁ b₂ : List β} {a : α} {c : γ}
    (h₁ : Reads mk m b₁ a) (h₂ : Reads mk (f a) b₂ c) :
    Reads mk (m >>= f) (b₁ ++ b₂) c :=
  fun pre => (h₁ pre).bind (h₂ (pre ++ b₁))

/-- A raising computation that does not touch the cursor. -/
theorem Reads.lift {x : Except ε α} {a : α} (h : x = .ok a) :
    Reads mk (StateT.lift x : Reader σ ε α) [] a := by
  subst h
  intro pre post
  rw [List.append_nil]
  rfl

/-- The writer succeeds, and the reader reads its bytes as `a`. -/
def Carries (mk : List β → List β → σ) (w : Except ε (List β)) (m : Reader σ ε α) (a : α) :
    Prop :=
  ∃ bs, w = .ok bs ∧ Reads mk m bs a

theorem Carries.nil (a : α) : Carries mk (concat []) (Pure.pure a : Reader σ ε α) a :=
  ⟨[], rfl, Reads.pure a⟩

/-- The last step may raise, reading nothing. -/
theorem Carries.lift {x : Except ε α} {a : α} (h : x = .ok a) :
    Carries mk (concat []) (StateT.lift x : Reader σ ε α) a :=
  ⟨[], rfl, Reads.lift h⟩

/-- A piece in front, read by the first step of the reader. -/
theorem Carries.cons {w : Except ε (List β)} {ws : List (Except ε (List β))}
    {m : Reader σ ε α} {f : α → Reader σ ε γ} {a : α} {c : γ}
    (h₁ : Carries mk w m a) (h₂ : Carries mk (concat ws) (f a) c) :
    Carries mk (concat (w :: ws)) (m >>= f) c := by
  obtain ⟨b₁, hw, hm⟩ := h₁
  obtain ⟨b₂, hws, hf⟩ := h₂
  refine ⟨b₁ ++ b₂, ?_, hm.bind hf⟩
  rw [concat, hw, hws]
  rfl

/-- A step of the reader that reads nothing. -/
theorem Carries.skip {w : Except ε (List β)} {m : Reader σ ε α} {f : α → Reader σ ε γ}
    {a : α} {c : γ} (h₁ : Reads mk m [] a) (h₂ : Carries mk w (f a) c) :
    Carries mk w (m >>= f) c := by
  obtain ⟨bs, hw, hf⟩ := h₂
  exact ⟨bs, hw, h₁.bind hf⟩

/-- The result may be post-processed. -/
theorem Carries.map {w : Except ε (List β)} {m : Reader σ ε α} {a : α}
    (h : Carries mk w m a) (f : α → γ) :
    Carries mk w (m >>= fun a => Pure.pure (f a)) (f a) := by
  obtain ⟨bs, hw, hm⟩ := h
  have hr : Reads mk (m >>= fun a => Pure.pure (f a)) (bs ++ []) (f a) := hm.bind (Reads.pure _)
  rw [List.append_nil] at hr
  exact ⟨bs, hw, hr⟩

/-- A list of pieces is read back, piece by piece, by the repeated reader. -/
theorem Carries.list {w : γ → Except ε (List β)} {m : Reader σ ε α} {R : γ → α → Prop} :
    ∀ {xs : List γ}, (∀ x ∈ xs, ∃ a, R x a ∧ Carries mk (w x) m a) →
      ∃ as, List.Forall₂ R xs as ∧ Carries mk (concat (xs.map w)) (times m xs.length) as := by
  intro xs
  induction xs with
  | nil => intro _; exact ⟨[], List.Forall₂.nil, Carries.nil []⟩
  | cons x xs ih =>
    intro h
    obtain ⟨a, hR, ha⟩ := h x (List.mem_cons_self ..)
    obtain ⟨as, hRs, has⟩ := ih fun y hy => h y (List.mem_cons_of_mem _ hy)
    exact ⟨a :: as, List.Forall₂.cons hR hRs, ha.cons (has.map _)⟩

end

end Lua2SC.Format
