import Lua2SC.Streams.Events

/-!
# Stream terms, and what a reset does to them

A `Term` is what a script writes: constants, and the stream constructors of
`stream.lua` over them; `Term.source` is the stream that it builds. A constant is
an element of a list as it is; the other constructors wrap it in a `ConstantStream`.

What a reset should do is lead back to where a new stream starts. Two things keep it
from that. `SSkip:reset` leaves 1 in `pos` where a new stream has 0, so a reset
changes even a new `SKIP` (`Term.Fixed` says that none is reached). And neither
`AlternateSt:reset` nor the reset that `PclumpSt` inherits reaches the streams
inside, so these go on from where they are. `Term.Alike` says that two states of a
term differ only where its reset puts things right; `reset_law` is the law for a
term of the first kind that has stopped in a state like its first one.

`ADV` resets its stream when it is made, so it does not mind a `SKIP`.
-/

namespace Lua2SC.Streams

open Lua2SC.Lua Lua2SC.Sources

/-- A stream as a script writes it, or a constant. -/
inductive Term (R : Type) where
  | const (v : Value R)
  | LS (len : ℕ) (t : Fin (len + 1) → Term R) (r : ℤ)
  | arith (Op : Value R → Value R → World R → Except Halt (Value R × World R)) (A B : Term R)
  | TUPLE (len : ℕ) (t : Fin len → Term R)
  | SF (pat : Term R) (func : Value R → World R → Except Halt (Option (Value R) × World R))
  | SKIP (ini endp : ℤ) (pat : Term R)
  | SKIPdur (dur : R) (pat : Term R)
  | REP (n pat : Term R)
  | AL (len : ℕ) (patlist : Fin len → Term R)
  | Pclump (n pat : Term R)
  | PS (len : ℕ) (streams : Fin len → Term R) (stlist : List Part)
  | ADV (st : Term R)
  | FinDur (findur : R) (pat : Term R)
  | ParS (len : ℕ) (t : Fin (len + 1) → Term R)
  | MERGE (len : ℕ) (stlist : Fin len → Term R)

variable {R : Type} [Ring R] [LinearOrder R]

namespace Term

/-- A term, that builds the stream `o`, as an element of a list. -/
def item (t : Term R) (o : Stream R) : Item (Value R) (World R) :=
  match t with
  | .const v => .atom v
  | _ => .stream o

/-- The stream that a term builds. -/
def source : Term R → Stream R
  | .const v => ConstantStream v
  | .LS _ t r => Streams.LS (List.ofFn fun i => (t i).item (t i).source) r
  | .arith Op A B => OpStreams Op A.source B.source
  | .TUPLE _ t => StreamTuple (List.ofFn fun i => (t i).source)
  | .SF pat func => StreamFunc pat.source func
  | .SKIP ini endp pat => SSkip ini endp pat.source
  | .SKIPdur dur pat => SSkipDur dur pat.source
  | .REP n pat => RepeaterSt n.source pat.source
  | .AL _ patlist => AlternateSt (List.ofFn fun i => (patlist i).source)
  | .Pclump n pat => PclumpSt n.source pat.source
  | .PS _ streams stlist => PairsStream (List.ofFn fun i => (streams i).source) stlist
  | .ADV st => AdvStream st.source
  | .FinDur findur pat => SFindur findur pat.source
  | .ParS _ t => ParalelStream (List.ofFn fun i => (t i).source)
  | .MERGE _ stlist => MergeStream (List.ofFn fun i => (stlist i).source)

theorem item_source (t : Term R) : (t.item t.source).source = t.source := by
  cases t <;> rfl

theorem part_item {len : ℕ} (t : Fin len → Term R) (i : Fin len) :
    part ((List.ofFn fun i => (t i).item (t i).source).map Item.source) i = (t i).source := by
  simp [part, item_source]

/-- A reset makes no difference to a new stream: it reaches no `SKIP`. -/
def Fixed : Term R → Prop
  | .const _ => True
  | .LS _ t _ => ∀ i, (t i).Fixed
  | .arith _ A B => A.Fixed ∧ B.Fixed
  | .TUPLE _ t => ∀ i, (t i).Fixed
  | .SF pat _ => pat.Fixed
  | .SKIP _ _ _ => False
  | .SKIPdur _ pat => pat.Fixed
  | .REP n pat => n.Fixed ∧ pat.Fixed
  | .AL _ _ => True
  | .Pclump _ _ => True
  | .PS _ streams _ => ∀ i, (streams i).Fixed
  | .ADV _ => True
  | .FinDur _ pat => pat.Fixed
  | .ParS _ t => ∀ i, (t i).Fixed
  | .MERGE _ stlist => ∀ i, (stlist i).Fixed

/-- Two states differ only where a reset puts things right: the streams within an
`AL` or a `Pclump` that it reaches are in the same states. -/
def Alike : (t : Term R) → t.source.S → t.source.S → Prop
  | .const _, _, _ => True
  | .LS _ t _, s, s' => ∀ i, (t i).Alike (Source.carry (part_item t i) (s.children i))
      (Source.carry (part_item t i) (s'.children i))
  | .arith _ A B, s, s' => A.Alike s.1 s'.1 ∧ B.Alike s.2 s'.2
  | .TUPLE _ t, s, s' => ∀ i, (t i).Alike (Source.carry (part_ofFn _ i) (s i))
      (Source.carry (part_ofFn _ i) (s' i))
  | .SF pat _, s, s' => pat.Alike s s'
  | .SKIP _ _ pat, s, s' => pat.Alike s.pat s'.pat
  | .SKIPdur _ pat, s, s' => pat.Alike s.pat s'.pat
  | .REP n pat, s, s' => n.Alike s.N s'.N ∧ pat.Alike s.pat s'.pat
  | .AL _ _, s, s' => s.patlist = s'.patlist
  | .Pclump _ _, s, s' => s = s'
  | .PS _ streams _, s, s' => ∀ i, (streams i).Alike (Source.carry (part_ofFn _ i) (s i))
      (Source.carry (part_ofFn _ i) (s' i))
  | .ADV st, s, s' => st.Alike s.stlist s'.stlist
  | .FinDur _ pat, s, s' => pat.Alike s.str s'.str
  | .ParS _ t, s, s' => ∀ i, (t i).Alike (Source.carry (part_ofFn _ i) (s.stlist i))
      (Source.carry (part_ofFn _ i) (s'.stlist i))
  | .MERGE _ stlist, s, s' => ∀ i, (stlist i).Alike (Source.carry (part_ofFn _ i) (s i))
      (Source.carry (part_ofFn _ i) (s' i))

/-! ## What a reset leads to -/

/-- The parts of a term, reset from two states. -/
theorem parts_alike {len : ℕ} {t : Fin len → Term R}
    (ih : ∀ i (s s' : (t i).source.S),
      (t i).source.reset s = (t i).source.reset s' ↔ (t i).Alike s s')
    {s s' : States (List.ofFn fun i => (t i).source)} : s.reset = s'.reset ↔
      ∀ i, (t i).Alike (Source.carry (part_ofFn _ i) (s i))
        (Source.carry (part_ofFn _ i) (s' i)) := by
  rw [States.reset_eq_reset_iff List.length_ofFn (part_ofFn _)]
  exact forall_congr' fun i => ih i _ _

/-- **A reset leads two states to the same one** exactly where they are alike. -/
theorem reset_eq_reset_iff (t : Term R) (s s' : t.source.S) :
    t.source.reset s = t.source.reset s' ↔ t.Alike s s' := by
  induction t with
  | const v => exact ⟨fun _ => trivial, fun _ => rfl⟩
  | LS len t r ih =>
    refine (ListState.mk.injEq ..).to_iff.trans ?_
    rw [States.reset_eq_reset_iff (by simp) (part_item t)]
    simp only [and_true]
    exact forall_congr' fun i => ih i _ _
  | arith Op A B ihA ihB => exact (Prod.mk.injEq ..).to_iff.trans (and_congr (ihA _ _) (ihB _ _))
  | TUPLE len t ih => exact parts_alike ih
  | SF pat func ih => exact ih _ _
  | SKIP ini endp pat ih =>
    refine (SkipState.mk.injEq ..).to_iff.trans ?_
    simp only [and_true]
    exact ih _ _
  | SKIPdur dur pat ih =>
    refine (SkipDurState.mk.injEq ..).to_iff.trans ?_
    simp only [and_true]
    exact ih _ _
  | REP n pat ihN ihP =>
    refine (RepeaterState.mk.injEq ..).to_iff.trans ?_
    simp only [and_true]
    exact and_congr (ihN _ _) (ihP _ _)
  | AL len patlist ih =>
    refine (AlternateState.mk.injEq ..).to_iff.trans ?_
    simp only [true_and]
    exact Iff.rfl
  | Pclump n pat ihN ihP => exact Iff.rfl
  | PS len streams stlist ih => exact parts_alike ih
  | ADV st ih =>
    refine (AdvState.mk.injEq ..).to_iff.trans ?_
    simp only [and_true]
    exact ih _ _
  | FinDur findur pat ih =>
    refine (FindurState.mk.injEq ..).to_iff.trans ?_
    simp only [and_true]
    exact ih _ _
  | ParS len t ih =>
    refine (ParalelState.mk.injEq ..).to_iff.trans ?_
    simp only [and_true]
    exact parts_alike ih
  | MERGE len stlist ih => exact parts_alike ih

/-- A second reset changes nothing. -/
theorem reset_reset (t : Term R) (s : t.source.S) :
    t.source.reset (t.source.reset s) = t.source.reset s := by
  induction t with
  | const v => rfl
  | LS len t r ih =>
    refine (ListState.mk.injEq ..).to_iff.mpr ⟨?_, rfl, rfl, rfl⟩
    exact States.reset_reset (by simp) (part_item t) (fun i => ih i) _
  | arith Op A B ihA ihB => exact Prod.ext (ihA _) (ihB _)
  | TUPLE len t ih => exact States.reset_reset List.length_ofFn (part_ofFn _) (fun i => ih i) s
  | SF pat func ih => exact ih s
  | SKIP ini endp pat ih => exact (SkipState.mk.injEq ..).to_iff.mpr ⟨ih _, rfl⟩
  | SKIPdur dur pat ih => exact (SkipDurState.mk.injEq ..).to_iff.mpr ⟨ih _, rfl⟩
  | REP n pat ihN ihP => exact (RepeaterState.mk.injEq ..).to_iff.mpr ⟨ihN _, ihP _, rfl⟩
  | AL len patlist ih => rfl
  | Pclump n pat ihN ihP => rfl
  | PS len streams stlist ih =>
    exact States.reset_reset List.length_ofFn (part_ofFn _) (fun i => ih i) s
  | ADV st ih => exact (AdvState.mk.injEq ..).to_iff.mpr ⟨ih _, rfl⟩
  | FinDur findur pat ih => exact (FindurState.mk.injEq ..).to_iff.mpr ⟨ih _, rfl, rfl⟩
  | ParS len t ih =>
    refine (ParalelState.mk.injEq ..).to_iff.mpr ⟨?_, rfl⟩
    exact States.reset_reset List.length_ofFn (part_ofFn _) (fun i => ih i) _
  | MERGE len stlist ih =>
    exact States.reset_reset List.length_ofFn (part_ofFn _) (fun i => ih i) s

/-- The parts of a new stream, reset. -/
theorem parts_fixed {len : ℕ} {t : Fin len → Term R}
    (ih : ∀ i, (t i).source.reset (t i).source.init = (t i).source.init ↔ (t i).Fixed) :
    (States.init (List.ofFn fun i => (t i).source)).reset = States.init _ ↔
      ∀ i, (t i).Fixed := by
  rw [States.reset_init_iff List.length_ofFn (part_ofFn _)]
  exact forall_congr' ih

/-- **A reset of a new stream** changes nothing exactly where it reaches no `SKIP`. -/
theorem reset_init_iff (t : Term R) :
    t.source.reset t.source.init = t.source.init ↔ t.Fixed := by
  induction t with
  | const v => exact ⟨fun _ => trivial, fun _ => rfl⟩
  | LS len t r ih =>
    have hparts := States.reset_init_iff (by simp) (part_item t)
    refine (ListState.mk.injEq ..).to_iff.trans (Iff.trans ?_ (hparts.trans (forall_congr' ih)))
    exact ⟨fun h => h.1, fun h => ⟨h, rfl, rfl, rfl⟩⟩
  | arith Op A B ihA ihB => exact (Prod.mk.injEq ..).to_iff.trans (and_congr ihA ihB)
  | TUPLE len t ih => exact parts_fixed ih
  | SF pat func ih => exact ih
  | SKIP ini endp pat ih =>
    refine (SkipState.mk.injEq ..).to_iff.trans ⟨fun h => ?_, False.elim⟩
    exact absurd h.2 (by decide)
  | SKIPdur dur pat ih =>
    refine (SkipDurState.mk.injEq ..).to_iff.trans ?_
    simp only [and_true]
    exact ih
  | REP n pat ihN ihP =>
    refine (RepeaterState.mk.injEq ..).to_iff.trans ?_
    simp only [and_true]
    exact and_congr ihN ihP
  | AL len patlist ih => exact ⟨fun _ => trivial, fun _ => rfl⟩
  | Pclump n pat ihN ihP => exact ⟨fun _ => trivial, fun _ => rfl⟩
  | PS len streams stlist ih => exact parts_fixed ih
  | ADV st ih =>
    refine ⟨fun _ => trivial, fun _ => ?_⟩
    exact (AdvState.mk.injEq ..).to_iff.mpr ⟨st.reset_reset _, rfl⟩
  | FinDur findur pat ih =>
    refine (FindurState.mk.injEq ..).to_iff.trans ?_
    simp only [and_true]
    exact ih
  | ParS len t ih =>
    refine (ParalelState.mk.injEq ..).to_iff.trans ?_
    simp only [and_true]
    exact parts_fixed ih
  | MERGE len stlist ih => exact parts_fixed ih

/-- **A reset leads to the start** exactly where it reaches no `SKIP` and the streams
within the `AL`s and `Pclump`s that it reaches are at their starts. -/
theorem reset_eq_init_iff (t : Term R) (s : t.source.S) :
    t.source.reset s = t.source.init ↔ t.Fixed ∧ t.Alike s t.source.init := by
  rw [← reset_init_iff, ← reset_eq_reset_iff]
  constructor
  · intro h
    have hinit : t.source.reset t.source.init = t.source.init := by
      rw [← h, reset_reset]
    exact ⟨hinit, h.trans hinit.symm⟩
  · exact fun ⟨hinit, h⟩ => h.trans hinit

/-! ## The law -/

/-- **The reset law.** A term whose reset reaches no `SKIP` has been asked `k` times.
If now the streams in the `AL`s and `Pclump`s that its reset reaches are at their
starts, and the tables it was made with are as they were, then a reset makes it
answer like a copy that is built anew, tables included. -/
theorem reset_law (t : Term R) {n k : ℕ} {e₀ e : World R} {vs : List (Option (Value R))}
    {s : t.source.S} (_hrun : t.source.calls n k e₀ t.source.init = .ok (vs, s, e))
    (hfixed : t.Fixed) (halike : t.Alike s t.source.init) {own : List ℕ}
    (hown : ∀ a ∈ own, e.fields a = e₀.fields a) (m j : ℕ) :
    t.source.calls m j e (t.source.reset s) =
      t.source.calls m j (e.rebuilt e₀ own) t.source.init := by
  rw [(t.reset_eq_init_iff s).mpr ⟨hfixed, halike⟩, World.rebuilt_eq hown]

/-- `LS({{a=5}, LS({7}, 2)}, 1)` after two questions; the table is at address 0. -/
theorem reset_law_twice : ∃ s,
    (LS 1 ![const (.table 0), LS 0 ![const (.num 7)] 2] 1 : Term ℤ).source.calls 9 2
        ⟨none, none, [[(.index 1, .num 5)]]⟩ (Term.source _).init =
      .ok ([some (.table 0), some (.num 7)], s, ⟨none, none, [[(.index 1, .num 5)]]⟩) ∧
    (LS 1 ![const (.table 0), LS 0 ![const (.num 7)] 2] 1 : Term ℤ).source.calls 9 4
        ⟨none, none, [[(.index 1, .num 5)]]⟩ ((Term.source _).reset s) =
      (Term.source _).calls 9 4
        (World.rebuilt ⟨none, none, [[(.index 1, .num 5)]]⟩
          ⟨none, none, [[(.index 1, .num 5)]]⟩ [0]) (Term.source _).init := by
  obtain ⟨s, hrun⟩ : ∃ s,
      (LS 1 ![const (.table 0), LS 0 ![const (.num 7)] 2] 1 : Term ℤ).source.calls 9 2
          ⟨none, none, [[(.index 1, .num 5)]]⟩ (Term.source _).init =
        .ok ([some (.table 0), some (.num 7)], s, ⟨none, none, [[(.index 1, .num 5)]]⟩) := ⟨_, rfl⟩
  have hfixed : (LS 1 ![const (.table 0), LS 0 ![const (.num 7)] 2] 1 : Term ℤ).Fixed := by
    simp [Fixed, Fin.forall_fin_two]
  have halike : (LS 1 ![const (.table 0), LS 0 ![const (.num 7)] 2] 1 : Term ℤ).Alike s
      (Term.source _).init := by
    refine Fin.forall_fin_two.mpr ⟨trivial, fun i => ?_⟩
    rw [Fin.fin_one_eq_zero i]
    trivial
  exact ⟨s, hrun, reset_law _ hrun hfixed halike (fun _ _ => rfl) 9 4⟩

/-- After a question and a reset, `AL(LS({1,2},1))` goes on with its second value, and
`SKIP(1, 2, LS({1,2,3},1))` skips at once; new ones start with their first value. -/
theorem reset_goes_on :
    (AL 1 ![LS 1 ![const (.num 1), const (.num 2)] 1] : Term ℤ).source.resetCalls 9 1 1
        ⟨none, none, []⟩ = .ok [some (.num 2)] ∧
    ((AL 1 ![LS 1 ![const (.num 1), const (.num 2)] 1] : Term ℤ).source.calls 9 1
        ⟨none, none, []⟩ (Term.source _).init).map Prod.fst = .ok [some (.num 1)] ∧
    (SKIP 1 2 (LS 2 ![const (.num 1), const (.num 2), const (.num 3)] 1) :
        Term ℤ).source.resetCalls 9 1 1 ⟨none, none, []⟩ = .ok [some (.num 2)] ∧
    ((SKIP 1 2 (LS 2 ![const (.num 1), const (.num 2), const (.num 3)] 1) :
        Term ℤ).source.calls 9 1 ⟨none, none, []⟩ (Term.source _).init).map Prod.fst =
      .ok [some (.num 1)] := by
  decide +kernel

end Term

end Lua2SC.Streams
