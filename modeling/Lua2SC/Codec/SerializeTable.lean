import Lua2SC.Lib.LuaLex
import Lua2SC.Lib.TableGraph

/-!
# `serializeTableF`

A table is written as a Lua chunk (`sc/utils.lua`): `SELFT = {}`, one assignment for every
pair below it, `return SELFT`. The chunk is Lua text, with numbers as `%0.17g` and strings
as `%q` write them, and `loadstring` reads it as Lua does: its words, its statements, and
these one after another.

`serializeTableF_returns` says that what comes back is the graph that was written, for
every graph of tables and every order in which `pairs` enumerates them.
-/

namespace Lua2SC.SerializeTable

open Lua2SC.Lua Lua2SC.LuaLex Lua2SC.Decimal Lua2SC.TableGraph

/-- What is written by `basicSerialize`. -/
inductive Scalar where
  | bool (b : Bool)
  | number (x : LuaNumber)
  | string (s : LString)
deriving DecidableEq, Repr

/-- Finite numbers. -/
def Scalar.Finite : Scalar → Prop
  | .number x => ∃ q, x = .finite q ∧ IsDouble q
  | .bool _ => True
  | .string _ => True

/-- A graph of tables with finite numbers. -/
structure Tables extends Graph Scalar where
  finite : toGraph.Forall Scalar.Finite

/-! ## Writing -/

/-- `string.format("%0.17g", x)`. -/
def format17g : LuaNumber → LString
  | .finite q => if q < 0 then 45 :: general 17 (-q) else general 17 q
  | .huge => ascii "inf"
  | .negHuge => ascii "-inf"

def basicSerialize : Scalar → LString
  | .number x => format17g x
  | .string s => addquoted s
  | .bool b => ascii (if b then "true" else "false")

/-- `string.format("%s[%s]", name, basicSerialize(k))`. -/
def fieldname (name : LString) (k : Scalar) : LString :=
  name ++ (ascii "[" ++ (basicSerialize k ++ ascii "]"))

/-- `serializeTableF(value, name, saved)`, and `saved` behind it. `fuel` bounds the depth. -/
def serialize (pairs : ℕ → List (Scalar × Val Scalar)) : ℕ → Val Scalar → LString →
    LuaTable ℕ LString → Option (LString × LuaTable ℕ LString)
  | 0, _, _, _ => none
  | _ + 1, .leaf a, name, saved =>
    some (name ++ (ascii " = " ++ (basicSerialize a ++ ascii "\n")), saved)
  | fuel + 1, .table i, name, saved =>
    match saved.lookup i with
    | some first => some (name ++ (ascii " = " ++ (first ++ ascii "\n")), saved)
    | none =>
      (pairs i).foldlM (fun acc kv =>
        (serialize pairs fuel kv.2 (fieldname name kv.1) acc.2).map fun r => (acc.1 ++ r.1, r.2))
        (name ++ (ascii " = " ++ ascii "{}\n"), saved.insert i name)

/-- `serializeTableF(value)`. -/
def serializeTableF (pairs : ℕ → List (Scalar × Val Scalar)) (fuel : ℕ) (value : Val Scalar) :
    Option LString :=
  (serialize pairs fuel value (ascii "SELFT") ∅).map fun r => r.1 ++ ascii "return SELFT"

/-! ## Reading -/

/-- A constant, with a sign or without. -/
def constant : List Token → Option (Scalar × List Token)
  | .string s :: ts => some (.string s, ts)
  | .number x :: ts => some (.number x, ts)
  | .minus :: .number (.finite q) :: ts => some (.number (.finite (-q)), ts)
  | .minus :: .number .huge :: ts => some (.number .negHuge, ts)
  | .name w :: ts =>
    if w = ascii "true" then some (.bool true, ts)
    else if w = ascii "false" then some (.bool false, ts)
    else none
  | _ => none

/-- The indices `[k]` behind a name, `n` of them at most. -/
def indices : ℕ → List Token → Option (List Scalar × List Token)
  | n + 1, .lbracket :: ts =>
    (constant ts).bind fun k =>
      match k.2 with
      | .rbracket :: ts' => (indices n ts').map fun p => (k.1 :: p.1, p.2)
      | _ => none
  | _, ts => some ([], ts)

/-- `SELFT[k₁]…[kₙ]`. -/
def path : List Token → Option (List Scalar × List Token)
  | .name w :: ts => if w = ascii "SELFT" then indices ts.length ts else none
  | _ => none

/-- What is assigned: a path, a new table or a constant. -/
def expr (ts : List Token) : Option (Rhs Scalar × List Token) :=
  match path ts with
  | some p => some (.path p.1, p.2)
  | none =>
    match ts with
    | .lbrace :: .rbrace :: ts' => some (.new, ts')
    | _ => (constant ts).map fun k => (.leaf k.1, k.2)

/-- Assignments up to `return`, and the path that is returned. `n` bounds their number. -/
def chunk : ℕ → List Token → Option (List (Assign Scalar) × List Scalar)
  | 0, _ => none
  | n + 1, ts =>
    if ts.head? = some (.name (ascii "return")) then
      (path ts.tail).bind fun p => if p.2 = [] then some ([], p.1) else none
    else
      (path ts).bind fun p =>
        match p.2 with
        | .assign :: ts' =>
          (expr ts').bind fun e => (chunk n e.2).map fun c => (⟨p.1, e.1⟩ :: c.1, c.2)
        | _ => none

/-- `loadstring(text)()`: what `SELFT` is and the tables there are then, and what is returned. -/
def load (s : State Scalar) (text : LString) : Option (State Scalar × Val Scalar) :=
  (lex text).bind fun ts => (chunk ts.length ts).bind fun c =>
    (exec s c.1).bind fun s => (s.eval c.2).map fun v => (s, v)

/-- `loadstring(text)()`, where `SELFT` has the value `r` before: the tables there are then,
and what is returned. -/
def loadstring (r : Option (Val Scalar)) (text : LString) : Option (State Scalar × Val Scalar) :=
  (lex text).bind fun ts => (chunk ts.length ts).bind fun c =>
    (exec ⟨r, []⟩ c.1).bind fun s => (s.eval c.2).map fun v => (s, v)

/-! ## The text is the assignments -/

def keyText (k : Scalar) : LString := ascii "[" ++ (basicSerialize k ++ ascii "]")

def pathText (p : List Scalar) : LString := ascii "SELFT" ++ p.flatMap keyText

def rhsText : Rhs Scalar → LString
  | .leaf a => basicSerialize a
  | .new => ascii "{}"
  | .path p => pathText p

def assignText (a : Assign Scalar) : LString :=
  pathText a.path ++ (ascii " = " ++ (rhsText a.rhs ++ ascii "\n"))

theorem fieldname_pathText (p : List Scalar) (k : Scalar) :
    fieldname (pathText p) k = pathText (p ++ [k]) := by
  unfold pathText
  rw [List.flatMap_append, List.flatMap_singleton, ← List.append_assoc]
  rfl

/-- The names of the tables that are saved. -/
def Named (saved : Saved Scalar) (names : LuaTable ℕ LString) : Prop :=
  ∀ i, names.lookup i = (saved.lookup i).map pathText

theorem Named.insert {saved : Saved Scalar} {names : LuaTable ℕ LString} (h : Named saved names)
    (i : ℕ) (p : List Scalar) : Named (saved.insert i p) (names.insert i (pathText p)) := by
  intro j
  by_cases hj : j = i
  · subst hj
    rw [AList.lookup_insert, AList.lookup_insert]
    rfl
  · rw [AList.lookup_insert_ne hj, AList.lookup_insert_ne hj]
    exact h j

/-- **What is written** are the assignments that make the value. -/
theorem serialize_emit {pairs : ℕ → List (Scalar × Val Scalar)} : ∀ (fuel : ℕ) (v : Val Scalar)
    (p : List Scalar) (saved : Saved Scalar) (names : LuaTable ℕ LString)
    (prog : List (Assign Scalar)) (saved' : Saved Scalar), Named saved names →
    emit pairs fuel v p saved = some (prog, saved') →
    ∃ names', serialize pairs fuel v (pathText p) names = some (prog.flatMap assignText, names') ∧
      Named saved' names' := by
  intro fuel
  induction fuel with
  | zero => exact fun _ _ _ _ _ _ _ h => by cases h
  | succ fuel ih =>
    intro v p saved names prog saved' hnamed h
    cases v with
    | leaf x =>
      cases h
      exact ⟨names, by rw [List.flatMap_singleton]; rfl, hnamed⟩
    | table i =>
      have hname := hnamed i
      cases hlookup : saved.lookup i with
      | some q =>
        rw [emit, hlookup] at h
        cases h
        rw [hlookup] at hname
        refine ⟨names, ?_, hnamed⟩
        rw [serialize, hname, List.flatMap_singleton]
        rfl
      | none =>
        rw [emit, hlookup] at h
        rw [hlookup] at hname
        dsimp only at h
        -- the loop over the pairs
        have hloop : ∀ (es : List (Scalar × Val Scalar)) (prog₁ : List (Assign Scalar))
            (saved₁ : Saved Scalar) (names₁ : LuaTable ℕ LString), Named saved₁ names₁ →
            es.foldlM (fun acc kv =>
              (emit pairs fuel kv.2 (p ++ [kv.1]) acc.2).map fun r => (acc.1 ++ r.1, r.2))
                (prog₁, saved₁) = some (prog, saved') →
            ∃ names', es.foldlM (fun acc kv =>
              (serialize pairs fuel kv.2 (fieldname (pathText p) kv.1) acc.2).map fun r =>
                (acc.1 ++ r.1, r.2)) (prog₁.flatMap assignText, names₁) =
              some (prog.flatMap assignText, names') ∧ Named saved' names' := by
          intro es
          induction es with
          | nil =>
            intro prog₁ saved₁ names₁ hnamed₁ heq
            cases heq
            exact ⟨names₁, rfl, hnamed₁⟩
          | cons kv es ihes =>
            intro prog₁ saved₁ names₁ hnamed₁ heq
            obtain ⟨acc, hstep, hrest⟩ := Option.bind_eq_some_iff.mp heq
            obtain ⟨r, hr, rfl⟩ := Option.map_eq_some_iff.mp hstep
            obtain ⟨names₂, hser, hnamed₂⟩ := ih _ _ _ names₁ r.1 r.2 hnamed₁ hr
            obtain ⟨names', hfold, hnamed'⟩ := ihes (prog₁ ++ r.1) r.2 names₂ hnamed₂ hrest
            refine ⟨names', ?_, hnamed'⟩
            rw [List.foldlM_cons, fieldname_pathText, hser]
            rw [List.flatMap_append] at hfold
            exact hfold
        obtain ⟨names', hfold, hnamed'⟩ := hloop (pairs i) _ _ _ (hnamed.insert i p) h
        refine ⟨names', ?_, hnamed'⟩
        rw [serialize, hname]
        rw [List.flatMap_singleton] at hfold
        exact hfold

/-! ## Its words -/

def constantTokens : Scalar → List Token
  | .bool b => [.name (ascii (if b then "true" else "false"))]
  | .number (.finite q) => if q < 0 then [.minus, .number (.finite (-q))] else [.number (.finite q)]
  | .number x => [.number x]
  | .string s => [.string s]

def keyTokens (k : Scalar) : List Token := .lbracket :: (constantTokens k ++ [.rbracket])

def pathTokens (p : List Scalar) : List Token := .name (ascii "SELFT") :: p.flatMap keyTokens

def rhsTokens : Rhs Scalar → List Token
  | .leaf a => constantTokens a
  | .new => [.lbrace, .rbrace]
  | .path p => pathTokens p

def assignTokens (a : Assign Scalar) : List Token :=
  pathTokens a.path ++ (.assign :: rhsTokens a.rhs)

section

variable {rest : LString}

theorem map_append (o : Option (List Token)) (xs ys : List Token) :
    (o.map (ys ++ ·)).map (xs ++ ·) = o.map (xs ++ ys ++ ·) := by
  cases o with
  | none => rfl
  | some zs =>
    show some (xs ++ (ys ++ zs)) = some (xs ++ ys ++ zs)
    rw [List.append_assoc]

theorem isDouble_neg {q : ℚ} (h : IsDouble q) : IsDouble (-q) := by
  unfold IsDouble at h ⊢
  rw [abs_neg]
  exact h

theorem lex_format {x : LuaNumber} (hx : (Scalar.number x).Finite) (h : Stops rest) :
    lex (format17g x ++ rest) = (lex rest).map (constantTokens (.number x) ++ ·) := by
  obtain ⟨q, rfl, hq⟩ := hx
  unfold format17g constantTokens
  dsimp only
  by_cases hneg : q < 0
  · have h0 : 0 ≤ -q := by linarith
    rw [if_pos hneg, if_pos hneg, List.cons_append]
    obtain ⟨c, hc, hdigit⟩ := head_general h0 rest
    have hminus : word 45 (general 17 (-q) ++ rest) = some (.minus, general 17 (-q) ++ rest) := by
      show (if _ then none else some _) = _
      rw [if_neg]
      rw [hc]
      intro heq
      rw [Option.some.inj heq] at hdigit
      exact absurd hdigit (by decide)
    rw [lex_word rfl hminus, lex_general (isDouble_neg hq) h0 h]
    exact map_append _ [.minus] [.number (.finite (-q))]
  · rw [if_neg hneg, if_neg hneg]
    exact lex_general hq (not_lt.mp hneg) h

/-- A constant is its words. -/
theorem lex_constant {k : Scalar} (hk : k.Finite) (h : Stops rest) :
    lex (basicSerialize k ++ rest) = (lex rest).map (constantTokens k ++ ·) := by
  cases k with
  | number x => exact lex_format hk h
  | string s => exact lex_quoted s rest
  | bool b =>
    have hstop : ∀ d, rest.head? = some d → nameByte d = false := fun d hd => (h d hd).2
    cases b with
    | true => exact lex_name (c := 116) (s := ascii "rue") rfl (List.all_eq_true.mp rfl) hstop
    | false => exact lex_name (c := 102) (s := ascii "alse") rfl (List.all_eq_true.mp rfl) hstop

/-- A constant does not begin like a long bracket. -/
theorem head_basicSerialize {k : Scalar} (hk : k.Finite) (rest : LString) :
    (basicSerialize k ++ rest).head? ≠ some 91 ∧ (basicSerialize k ++ rest).head? ≠ some 61 := by
  cases k with
  | string s => exact ⟨by simp [basicSerialize, addquoted], by simp [basicSerialize, addquoted]⟩
  | bool b =>
    cases b with
    | true => exact ⟨by simp [basicSerialize, ascii], by simp [basicSerialize, ascii]⟩
    | false => exact ⟨by simp [basicSerialize, ascii], by simp [basicSerialize, ascii]⟩
  | number x =>
    obtain ⟨q, rfl, hq⟩ := hk
    unfold basicSerialize format17g
    dsimp only
    by_cases hneg : q < 0
    · rw [if_pos hneg]
      exact ⟨by simp, by simp⟩
    · rw [if_neg hneg]
      obtain ⟨c, hc, hdigit⟩ := head_general (not_lt.mp hneg) rest
      rw [hc]
      refine ⟨fun heq => ?_, fun heq => ?_⟩
      · rw [Option.some.inj heq] at hdigit
        exact absurd hdigit (by decide)
      · rw [Option.some.inj heq] at hdigit
        exact absurd hdigit (by decide)

theorem lex_key {k : Scalar} (hk : k.Finite) :
    lex (keyText k ++ rest) = (lex rest).map (keyTokens k ++ ·) := by
  have hstops : Stops (ascii "]" ++ rest) := by
    intro c hc
    cases hc
    exact ⟨rfl, rfl⟩
  have hopen : word 91 (basicSerialize k ++ (ascii "]" ++ rest)) =
      some (.lbracket, basicSerialize k ++ (ascii "]" ++ rest)) := by
    obtain ⟨h91, h61⟩ := head_basicSerialize hk (ascii "]" ++ rest)
    show (if _ then none else some _) = _
    rw [if_neg (not_or.mpr ⟨h91, h61⟩)]
  have hclose : lex (ascii "]" ++ rest) = (lex rest).map (.rbracket :: ·) :=
    lex_word rfl rfl
  have htext : keyText k ++ rest = 91 :: (basicSerialize k ++ (ascii "]" ++ rest)) := by
    unfold keyText
    rw [List.append_assoc, List.append_assoc]
    rfl
  rw [htext, lex_word rfl hopen, lex_constant hk hstops, hclose]
  refine (congrArg _ (map_append _ _ [.rbracket])).trans ?_
  exact map_append _ [.lbracket] _

theorem lex_keys {p : List Scalar} (hp : ∀ k ∈ p, k.Finite) :
    lex (p.flatMap keyText ++ rest) = (lex rest).map (p.flatMap keyTokens ++ ·) := by
  induction p with
  | nil =>
    show lex rest = (lex rest).map fun ts => ts
    rw [Option.map_id']
  | cons k p ih =>
    rw [List.flatMap_cons, List.flatMap_cons, List.append_assoc, lex_key (hp k List.mem_cons_self),
      ih fun k' hk' => hp k' (List.mem_cons_of_mem _ hk')]
    exact map_append _ _ _

theorem lex_path {p : List Scalar} (hp : ∀ k ∈ p, k.Finite)
    (h : ∀ d, rest.head? = some d → nameByte d = false) :
    lex (pathText p ++ rest) = (lex rest).map (pathTokens p ++ ·) := by
  have hstop : ∀ d, (p.flatMap keyText ++ rest).head? = some d → nameByte d = false := by
    cases p with
    | nil => exact h
    | cons k p =>
      intro d hd
      cases hd
      rfl
  unfold pathText
  rw [List.append_assoc]
  refine (lex_name (c := 83) (s := ascii "ELFT") rfl (List.all_eq_true.mp rfl) hstop).trans ?_
  rw [lex_keys hp]
  exact map_append _ [.name (ascii "SELFT")] _

theorem lex_rhs {e : Rhs Scalar} (he : e.Forall Scalar.Finite) (h : Stops rest) :
    lex (rhsText e ++ rest) = (lex rest).map (rhsTokens e ++ ·) := by
  cases e with
  | leaf a => exact lex_constant he h
  | new =>
    show lex (123 :: 125 :: rest) = _
    rw [lex_word (c := 123) rfl rfl, lex_word (c := 125) rfl rfl]
    exact map_append _ [.lbrace] [.rbrace]
  | path p => exact lex_path he fun d hd => (h d hd).2

/-- An assignment is its words. -/
theorem lex_assign {a : Assign Scalar} (ha : a.Forall Scalar.Finite) :
    lex (assignText a ++ rest) = (lex rest).map (assignTokens a ++ ·) := by
  obtain ⟨hp, he⟩ := ha
  have hstops : Stops (ascii "\n" ++ rest) := by
    intro c hc
    cases hc
    exact ⟨rfl, rfl⟩
  have hnewline : lex (ascii "\n" ++ rest) = lex rest := lex_space rfl
  have htext : assignText a ++ rest =
      pathText a.path ++ (ascii " = " ++ (rhsText a.rhs ++ (ascii "\n" ++ rest))) := by
    simp only [assignText, List.append_assoc]
  have hequals : lex (ascii " = " ++ (rhsText a.rhs ++ (ascii "\n" ++ rest))) =
      (lex (rhsText a.rhs ++ (ascii "\n" ++ rest))).map (.assign :: ·) := by
    show lex (32 :: 61 :: 32 :: _) = _
    rw [lex_space rfl, lex_word (c := 61) rfl rfl, lex_space rfl]
    rfl
  rw [htext, lex_path hp, hequals, lex_rhs he hstops, hnewline]
  · refine (congrArg _ (map_append _ [.assign] _)).trans ?_
    exact map_append _ _ _
  · intro d hd
    cases hd
    rfl

theorem lex_prog {prog : List (Assign Scalar)} (h : ∀ a ∈ prog, a.Forall Scalar.Finite) :
    lex (prog.flatMap assignText ++ rest) = (lex rest).map (prog.flatMap assignTokens ++ ·) := by
  induction prog with
  | nil =>
    show lex rest = (lex rest).map fun ts => ts
    rw [Option.map_id']
  | cons a prog ih =>
    rw [List.flatMap_cons, List.flatMap_cons, List.append_assoc, lex_assign (h a List.mem_cons_self),
      ih fun a' ha' => h a' (List.mem_cons_of_mem _ ha')]
    exact map_append _ _ _

theorem lex_return : lex (ascii "return SELFT") =
    some [.name (ascii "return"), .name (ascii "SELFT")] := by
  have hstop : ∀ d, (ascii " SELFT").head? = some d → nameByte d = false := by
    intro d hd
    cases hd
    rfl
  have hend : ∀ d, ([] : LString).head? = some d → nameByte d = false := fun d hd => by cases hd
  refine (lex_name (c := 114) (s := ascii "eturn") rfl (List.all_eq_true.mp rfl) hstop).trans ?_
  have hself : lex (ascii "SELFT") = (lex []).map (.name (ascii "SELFT") :: ·) :=
    @lex_name 83 (ascii "ELFT") [] rfl (List.all_eq_true.mp rfl) hend
  have hspace : lex (ascii " SELFT") = lex (ascii "SELFT") := lex_space rfl
  rw [hspace, hself, lex]
  rfl

end

/-! ## Its statements -/

section

variable {rest : List Token}

theorem constant_tokens {k : Scalar} (hk : k.Finite) :
    constant (constantTokens k ++ rest) = some (k, rest) := by
  cases k with
  | string s => rfl
  | bool b =>
    cases b with
    | true => rfl
    | false => rfl
  | number x =>
    obtain ⟨q, rfl, -⟩ := hk
    unfold constantTokens
    dsimp only
    by_cases hneg : q < 0
    · rw [if_pos hneg]
      show some (Scalar.number (.finite (- -q)), rest) = _
      rw [neg_neg]
    · rw [if_neg hneg]
      rfl

/-- Indices up to something that is none. -/
theorem indices_tokens {p : List Scalar} (hp : ∀ k ∈ p, k.Finite) {n : ℕ} (hn : p.length ≤ n)
    (h : rest.head? ≠ some .lbracket) :
    indices n (p.flatMap keyTokens ++ rest) = some (p, rest) := by
  induction p generalizing n with
  | nil =>
    show indices n rest = some ([], rest)
    cases n with
    | zero => rfl
    | succ n =>
      cases rest with
      | nil => rfl
      | cons t rest =>
        cases t with
        | lbracket => exact absurd rfl h
        | _ => rfl
  | cons k p ih =>
    cases n with
    | zero => exact absurd hn (Nat.not_succ_le_zero _)
    | succ n =>
      have hrest := ih (fun k' hk' => hp k' (List.mem_cons_of_mem _ hk')) (Nat.le_of_succ_le_succ hn)
      have htext : (k :: p).flatMap keyTokens ++ rest =
          .lbracket :: (constantTokens k ++ (.rbracket :: (p.flatMap keyTokens ++ rest))) := by
        simp [List.flatMap_cons, keyTokens]
      rw [htext, indices, constant_tokens (hp k List.mem_cons_self)]
      show (indices n (p.flatMap keyTokens ++ rest)).map _ = _
      rw [hrest]
      rfl

theorem length_le_keys (p : List Scalar) : p.length ≤ (p.flatMap keyTokens).length := by
  induction p with
  | nil => exact le_rfl
  | cons k p ih =>
    rw [List.flatMap_cons, List.length_append, List.length_cons]
    show p.length + 1 ≤ ((constantTokens k ++ [Token.rbracket]).length + 1) + _
    omega

theorem path_tokens {p : List Scalar} (hp : ∀ k ∈ p, k.Finite)
    (h : rest.head? ≠ some .lbracket) : path (pathTokens p ++ rest) = some (p, rest) := by
  have hread : path (pathTokens p ++ rest) =
      indices (p.flatMap keyTokens ++ rest).length (p.flatMap keyTokens ++ rest) := by
    rw [pathTokens, List.cons_append, path, if_pos rfl]
  rw [hread]
  refine indices_tokens hp ?_ h
  show p.length ≤ (p.flatMap keyTokens ++ rest).length
  rw [List.length_append]
  exact Nat.le_add_right_of_le (length_le_keys p)

theorem expr_tokens {e : Rhs Scalar} (he : e.Forall Scalar.Finite)
    (h : rest.head? ≠ some .lbracket) : expr (rhsTokens e ++ rest) = some (e, rest) := by
  cases e with
  | path p =>
    unfold expr rhsTokens
    rw [path_tokens he h]
  | new => rfl
  | leaf a =>
    have hread : (constant (constantTokens a ++ rest)).map (fun k => (Rhs.leaf k.1, k.2)) =
        some (.leaf a, rest) := by
      rw [constant_tokens he]
      rfl
    cases a with
    | string s => exact hread
    | bool b =>
      cases b with
      | true => exact hread
      | false => exact hread
    | number x =>
      obtain ⟨q, rfl, -⟩ := he
      unfold rhsTokens
      unfold constantTokens at hread ⊢
      dsimp only at hread ⊢
      by_cases hneg : q < 0
      · rw [if_pos hneg] at hread ⊢
        exact hread
      · rw [if_neg hneg] at hread ⊢
        exact hread

/-- **The statements are read back.** -/
theorem chunk_tokens {prog : List (Assign Scalar)} (hprog : ∀ a ∈ prog, a.Forall Scalar.Finite)
    {n : ℕ} (hn : prog.length < n) :
    chunk n (prog.flatMap assignTokens ++ [.name (ascii "return"), .name (ascii "SELFT")]) =
      some (prog, []) := by
  induction prog generalizing n with
  | nil =>
    cases n with
    | zero => exact absurd hn (Nat.not_lt_zero _)
    | succ n => rfl
  | cons a prog ih =>
    cases n with
    | zero => exact absurd hn (Nat.not_lt_zero _)
    | succ n =>
      obtain ⟨hp, he⟩ := hprog a List.mem_cons_self
      have hrest := ih (fun a' ha' => hprog a' (List.mem_cons_of_mem _ ha'))
        (Nat.lt_of_succ_lt_succ hn)
      -- what follows an assignment begins with a name
      have hhead : (prog.flatMap assignTokens ++
          [Token.name (ascii "return"), .name (ascii "SELFT")]).head? ≠ some .lbracket := by
        cases prog with
        | nil => exact fun h => by cases h
        | cons a' prog => exact fun h => by cases h
      have htext : (a :: prog).flatMap assignTokens ++
            [Token.name (ascii "return"), .name (ascii "SELFT")] =
          pathTokens a.path ++ (.assign :: (rhsTokens a.rhs ++ (prog.flatMap assignTokens ++
            [Token.name (ascii "return"), .name (ascii "SELFT")]))) := by
        simp [List.flatMap_cons, assignTokens]
      have hself : ascii "SELFT" ≠ ascii "return" := fun h => by cases h
      rw [htext, chunk, if_neg, path_tokens hp]
      · show ((expr (rhsTokens a.rhs ++ _)).bind _) = _
        rw [expr_tokens he hhead]
        show (chunk n _).map _ = _
        rw [hrest]
        rfl
      · exact fun h => by cases h
      · intro h
        exact hself (Token.name.inj (Option.some.inj h))

end

/-- **A chunk of assignments is run.** -/
theorem load_text {prog : List (Assign Scalar)} (h : ∀ a ∈ prog, a.Forall Scalar.Finite)
    (s : State Scalar) :
    load s (prog.flatMap assignText ++ ascii "return SELFT") =
      (exec s prog).bind fun s => s.root.map fun v => (s, v) := by
  have hcount : prog.length ≤ (prog.flatMap assignTokens).length := by
    clear h
    induction prog with
    | nil => exact le_rfl
    | cons a prog ih =>
      rw [List.flatMap_cons, List.length_append, List.length_cons]
      show prog.length + 1 ≤ ((a.path.flatMap keyTokens ++ (.assign :: rhsTokens a.rhs)).length + 1)
        + _
      omega
  unfold load
  rw [lex_prog h, lex_return]
  show (chunk (prog.flatMap assignTokens ++ _).length (prog.flatMap assignTokens ++ _)).bind _ = _
  have hfuel : prog.length < (prog.flatMap assignTokens ++
      [Token.name (ascii "return"), .name (ascii "SELFT")]).length := by
    rw [List.length_append]
    exact hcount.trans_lt (Nat.lt_add_of_pos_right Nat.two_pos)
  rw [chunk_tokens h hfuel]
  show (exec s prog).bind _ = _
  refine congrArg _ (funext fun s => ?_)
  show (s.root.bind fun v => some v).map _ = _
  rw [Option.bind_fun_some]

/-! ## The law -/

/-- **The chunk is read back as the graph**, behind the tables there are already. -/
theorem serializeTableF_load {g : Tables} {pairs : ℕ → List (Scalar × Val Scalar)}
    (h : g.Enumerates pairs) {fuel : ℕ} (hfuel : g.store.length < fuel) :
    ∃ text, serializeTableF pairs fuel g.root = some text ∧ ∀ s₀ : State Scalar,
      ∃ s v f, load s₀ text = some (s, v) ∧ s₀.store <+: s.store ∧
        Iso g.store g.root s.store v f := by
  obtain ⟨prog, saved, -, -, -, hemit, -⟩ := emit_iso h hfuel none []
  have hnamed : Named ∅ ∅ := by
    intro i
    rw [AList.lookup_empty, AList.lookup_empty]
    rfl
  obtain ⟨names, hser, -⟩ := serialize_emit fuel g.root [] ∅ ∅ prog saved hnamed hemit
  refine ⟨prog.flatMap assignText ++ ascii "return SELFT", ?_, fun s₀ => ?_⟩
  · unfold serializeTableF
    rw [show ascii "SELFT" = pathText [] from (List.append_nil _).symm, hser]
    rfl
  · obtain ⟨prog', saved', s, v, f, hemit', hexec, hroot, hold, hiso⟩ :=
      emit_iso h hfuel s₀.root s₀.store
    obtain ⟨rfl, -⟩ := Prod.mk.inj (Option.some.inj (hemit.symm.trans hemit'))
    refine ⟨s, v, f, ?_, hold, hiso⟩
    rw [load_text (h.written g.finite hemit)]
    show (exec ⟨s₀.root, s₀.store⟩ prog).bind _ = _
    rw [hexec]
    show s.root.map _ = _
    rw [hroot]
    rfl

/-- **The chunk returns the graph**: every graph of tables, with what is shared and what
contains itself, in whatever order `pairs` goes through the tables. -/
theorem serializeTableF_returns {g : Tables} {pairs : ℕ → List (Scalar × Val Scalar)}
    (h : g.Enumerates pairs) {fuel : ℕ} (hfuel : g.store.length < fuel) (r : Option (Val Scalar)) :
    ∃ text s v f, serializeTableF pairs fuel g.root = some text ∧
      loadstring r text = some (s, v) ∧ Iso g.store g.root s.store v f := by
  obtain ⟨text, hser, hload⟩ := serializeTableF_load h hfuel
  obtain ⟨s, v, f, hs, -, hiso⟩ := hload ⟨r, []⟩
  exact ⟨text, s, v, f, hser, hs, hiso⟩

/-- Two tables that contain each other, the second of them twice in the first. -/
def ringPairs : ℕ → List (Scalar × Val Scalar)
  | 0 => [(.string (ascii "next"), .table 1), (.number (.finite (-1 / 2)), .table 1)]
  | 1 => [(.bool true, .leaf (.string (ascii "\"\n"))), (.string (ascii "prev"), .table 0)]
  | _ => []

theorem ringPairs_nodup (i : ℕ) : ((ringPairs i).map Prod.fst).Nodup := by
  unfold ringPairs
  split
  · simp
  · simp
  · exact List.nodup_nil

theorem ringPairs_spec (i : ℕ) : ∀ kv ∈ ringPairs i, kv.1.Finite ∧ kv.2.Forall Scalar.Finite ∧
    ∀ j, kv.2 = .table j → j < 2 := by
  have hhalf : IsDouble (-1 / 2) := by
    refine ⟨⟨1, -1, ?_, ?_, ?_⟩, ?_⟩
    · norm_num [binary64]
    · norm_num [binary64]
    · norm_num [binary64, abs_div]
    · have hone : |(-1 / 2 : ℚ)| < 1 := by norm_num [abs_div]
      exact hone.trans_le (one_le_pow₀ one_le_two)
  intro kv hkv
  unfold ringPairs at hkv
  split at hkv
  · simp only [List.mem_cons, List.not_mem_nil, or_false] at hkv
    rcases hkv with rfl | rfl
    · exact ⟨trivial, trivial, by simp⟩
    · exact ⟨⟨_, rfl, hhalf⟩, trivial, by simp⟩
  · simp only [List.mem_cons, List.not_mem_nil, or_false] at hkv
    rcases hkv with rfl | rfl
    · exact ⟨trivial, trivial, by simp⟩
    · exact ⟨trivial, trivial, by simp⟩
  · exact absurd hkv List.not_mem_nil

theorem ring_store {i : ℕ} {t : TableGraph.Table Scalar}
    (h : [ofPairs (ringPairs 0), ofPairs (ringPairs 1)][i]? = some t) :
    t = ofPairs (ringPairs i) := by
  cases i with
  | zero => exact (Option.some.inj h).symm
  | succ i =>
    cases i with
    | zero => exact (Option.some.inj h).symm
    | succ i => cases h

def ring : Tables where
  store := [ofPairs (ringPairs 0), ofPairs (ringPairs 1)]
  root := .table 0
  root_lt i h := by cases h; exact Nat.two_pos
  store_lt i t k j ht hk := by
    rw [ring_store ht] at hk
    exact (ringPairs_spec i _ ((lookup_ofPairs (ringPairs_nodup i) k _).mp hk)).2.2 j rfl
  finite := by
    refine ⟨trivial, fun i t k v ht hk => ?_⟩
    rw [ring_store ht] at hk
    obtain ⟨hkey, hval, -⟩ := ringPairs_spec i _ ((lookup_ofPairs (ringPairs_nodup i) k v).mp hk)
    exact ⟨hkey, hval⟩

theorem ring_enumerates : ring.Enumerates ringPairs where
  nodup i _ := ringPairs_nodup i
  mem i t ht k v := by
    rw [ring_store ht]
    exact (lookup_ofPairs (ringPairs_nodup i) k v).symm

theorem serializeTableF_returns_ring :
    ∃ text s v f, serializeTableF ringPairs 3 (.table 0) = some text ∧
      loadstring none text = some (s, v) ∧ Iso ring.store (.table 0) s.store v f :=
  serializeTableF_returns ring_enumerates (Nat.lt_succ_self 2) none

end Lua2SC.SerializeTable
