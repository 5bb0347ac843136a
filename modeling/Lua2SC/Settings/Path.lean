import Lua2SC.Lib.LuaPattern
import Lua2SC.Lib.Lua

/-!
# `file_settings.lua`: paths in and out of the settings file

`getportable` cuts a path off behind the base path, `getabs` puts the base path in front
of what is not absolute and normalises it. The pattern that `getportable` looks for is the
base path, every magic character escaped, followed by `(.+)`; it is not anchored, so that
the base path is found anywhere in a path.

A path comes back (`Survives`) if the base path stands at its start, with something behind
it that is not itself absolute, or if it stands nowhere in the path with something behind
it (`getabs_getportable_iff`). A path that holds the base path further inside comes back
as what follows it, below the base path. A base path of backslashes alone makes a server of
what is put behind it, so nothing comes back below it (`getabs_unnamed`).

`win` is `is_windows`. `np_pat1` and `np_pat2` are the patterns `[^SEP]+SEP%.%.SEP?` and
`SEP+%.?SEP`.
-/

namespace Lua2SC.Settings

open Lua2SC.Lua Lua2SC.Pattern

/-- `sep`. -/
def sep (win : Bool) : UInt8 := if win then 92 else 47

/-- The dot. -/
def dot : UInt8 := 46

/-- `isabs(P)`. -/
def isabs (win : Bool) (P : LString) : Bool :=
  if win then P.head? == some 47 || P.head? == some 92 || P[1]? == some 58
  else P.head? == some 47

/-- `P:gsub(np_pat2, sep)`. -/
def np2 (win : Bool) : Rule UInt8 where
  items := [.plus (· == sep win), .opt (· == dot), .one (· == sep win)]
  repl := [sep win]
  shrinks := Nat.lt_succ_self 1

/-- `P:gsub(np_pat1, '')`. -/
def np1 (win : Bool) : Rule UInt8 where
  items := [.plus (· != sep win), .one (· == sep win), .one (· == dot), .one (· == dot),
    .opt (· == sep win)]
  repl := []
  shrinks := Nat.zero_lt_succ 3

/-- The two loops of `normpath`, and `'.'` for nothing. -/
def normal (win : Bool) (P : LString) : LString :=
  let P := (np1 win).settle ((np2 win).settle P)
  if P = [] then [dot] else P

/-- `P:gsub('/','\\')`. -/
def backslashes (P : LString) : LString := P.map fun c => if c = 47 then 92 else c

/-- `normpath(P)`; two backslashes in front are kept. -/
def normpath (win : Bool) : LString → LString
  | a :: b :: P =>
    if win && a == 92 && b == 92 then 92 :: 92 :: normpath win P
    else normal win (if win then backslashes (a :: b :: P) else a :: b :: P)
  | P => normal win (if win then backslashes P else P)

/-- `abspath(P, pwd)`. -/
def abspath (win : Bool) (P pwd : LString) : LString :=
  let P :=
    if isabs win P = false then pwd ++ sep win :: P
    else if win && P[1]? != some 58 && P[1]? != some 92 then pwd.take 2 ++ P
    else P
  normpath win P

/-- A path that is absolute and normalised. -/
def IsPath (win : Bool) (P : LString) : Prop := isabs win P = true ∧ normpath win P = P

/-- The base path. -/
structure BasePath (win : Bool) where
  path : LString
  isPath : IsPath win path
  ends : ∃ dir, path = dir ++ [sep win]

/-- `file_settings:getportable(str)`. -/
def getportable {win : Bool} (base : BasePath win) (str : LString) : LString :=
  match behind base.path str with
  | some port_path => port_path
  | none => str

/-- `file_settings:getabs(str)`. -/
def getabs {win : Bool} (base : BasePath win) (str : LString) : LString :=
  if isabs win str then str else abspath win str base.path

/-! ## What normalising leaves alone -/

section

variable {win : Bool} {P b s rest : LString}

theorem sep_ne_dot (win : Bool) : sep win ≠ dot := by
  cases win <;> decide

theorem np2_sep_sep (s : LString) : matchAt (np2 win).items (sep win :: sep win :: s) ≠ none := by
  have hexp : expand (· == sep win) (matchAt [.opt (· == dot), .one (· == sep win)])
      (sep win :: s) ≠ none := by
    have hopt : matchAt [.opt (· == dot), .one (· == sep win)] (sep win :: s) = some s := by
      simp [matchAt, sep_ne_dot]
    rw [expand, if_pos (beq_self_eq_true _), hopt]
    simp
  show (if (sep win == sep win) = true then _ else none) ≠ none
  rw [if_pos (beq_self_eq_true _)]
  exact hexp

theorem np2_sep_dot_sep (s : LString) :
    matchAt (np2 win).items (sep win :: dot :: sep win :: s) ≠ none := by
  have hne : (dot == sep win) = false := beq_eq_false_iff_ne.mpr (sep_ne_dot win).symm
  simp [np2, matchAt, expand, hne]

/-- One separator and something else: that must be a dot with a separator behind. -/
theorem np2_sep_other {c : UInt8} (hc : c ≠ sep win)
    (hdot : ∀ s', c = dot → s ≠ sep win :: s') :
    matchAt [.opt (· == dot), .one (· == sep win)] (c :: s) = none := by
  have hne : (c == sep win) = false := beq_eq_false_iff_ne.mpr hc
  by_cases hcd : c = dot
  · subst hcd
    cases s with
    | nil => simp [matchAt, hne]
    | cons d s =>
      have hd : d ≠ sep win := fun h => hdot s rfl (by rw [h])
      simp [matchAt, hne, hd]
  · simp [matchAt, hne, hcd]

/-- What goes on behind a separator does not matter to a match that starts before it. -/
theorem np2_front {t u : LString} (ht : t ≠ [])
    (hclean : matchAt (np2 win).items (t ++ [sep win]) = none) :
    matchAt (np2 win).items (t ++ sep win :: u) = none := by
  obtain ⟨a, t, rfl⟩ := List.exists_cons_of_ne_nil ht
  by_cases ha : a = sep win
  · subst ha
    cases t with
    | nil => exact absurd hclean (np2_sep_sep [])
    | cons c t =>
      by_cases hc : c = sep win
      · subst hc
        exact absurd hclean (np2_sep_sep _)
      · have hdot : ∀ s', c = dot → t ++ sep win :: u ≠ sep win :: s' := by
          intro s' hcd htail
          subst hcd
          -- the separator behind the dot stands in `t` or right behind it
          cases t with
          | nil => exact np2_sep_dot_sep [] hclean
          | cons d t =>
            rw [List.cons_append, List.cons.injEq] at htail
            rw [htail.1] at hclean
            exact np2_sep_dot_sep _ hclean
        have hnone := np2_sep_other hc hdot
        show (if (sep win == sep win) = true then _ else none) = none
        rw [if_pos (beq_self_eq_true _)]
        show (if (c == sep win) = true then _ else _) = none
        rw [if_neg (by simpa using hc)]
        exact hnone
  · show (if (a == sep win) = true then _ else none) = none
    rw [if_neg (by simpa using ha)]

/-- Two separators become one. -/
theorem np2_doubled {c : UInt8} (hc : c ≠ sep win) (hdot : ∀ s', c = dot → s ≠ sep win :: s') :
    matchAt (np2 win).items (sep win :: sep win :: c :: s) = some (c :: s) := by
  have hnone := np2_sep_other hc hdot
  have hopt : matchAt [.opt (· == dot), .one (· == sep win)] (sep win :: c :: s) = some (c :: s) := by
    simp [matchAt, sep_ne_dot]
  show (if (sep win == sep win) = true then _ else none) = _
  rw [if_pos (beq_self_eq_true _)]
  show (if (sep win == sep win) = true then _ else _) = _
  rw [if_pos (beq_self_eq_true _)]
  show Option.or (if (c == sep win) = true then _ else _) _ = _
  rw [if_neg (by simpa using hc)]
  show Option.or (matchAt [.opt (· == dot), .one (· == sep win)] (c :: s)) _ = _
  rw [hnone]
  exact hopt

/-- A path that the two loops make no shorter has nothing for them to do. -/
theorem clean_of_normal (h : P.length ≤ (normal win P).length) :
    (np2 win).Clean P ∧ (np1 win).Clean P := by
  unfold normal at h
  dsimp only at h
  split at h
  next hnil =>
    -- nothing was left, so there was one character at most
    have h2 : P.length < need (np2 win).items := Nat.lt_of_le_of_lt h (Nat.lt_succ_self 1)
    have h1 : P.length < need (np1 win).items := Nat.lt_of_lt_of_le h2 (show 2 ≤ 4 by omega)
    exact ⟨.of_length h2, .of_length h1⟩
  next =>
    obtain ⟨hle2, hlt2⟩ := (np2 win).settle_length P
    obtain ⟨hle1, hlt1⟩ := (np1 win).settle_length ((np2 win).settle P)
    have h2 : (np2 win).Clean P := by
      by_contra hdirty
      have hlt := hlt2 hdirty
      omega
    rw [h2.settle] at h hlt1
    refine ⟨h2, ?_⟩
    by_contra hdirty
    have hlt := hlt1 hdirty
    omega

theorem normal_of_clean (h2 : (np2 win).Clean P) (h1 : (np1 win).Clean P) (hP : P ≠ []) :
    normal win P = P := by
  unfold normal
  rw [h2.settle, h1.settle]
  exact if_neg hP

theorem normpath_posix (P : LString) : normpath false P = normal false P := by
  unfold normpath
  split <;> rfl

/-- A path in which neither pattern matches. -/
theorem isPath_of_clean (habs : isabs false P = true)
    (h2 : ∀ t ∈ P.tails, matchAt (np2 false).items t = none)
    (h1 : ∀ t ∈ P.tails, matchAt (np1 false).items t = none) : IsPath false P := by
  refine ⟨habs, ?_⟩
  rw [normpath_posix]
  refine normal_of_clean (fun t ht => h2 t ((List.mem_tails _ _).mpr ht))
    (fun t ht => h1 t ((List.mem_tails _ _).mpr ht)) ?_
  rintro rfl
  cases habs

/-- Two separators in a row: the loops make the path shorter. -/
theorem normal_doubled_length (b rest : LString) :
    (normal win (b ++ sep win :: sep win :: rest)).length <
      (b ++ sep win :: sep win :: rest).length := by
  by_contra hle
  have hclean := (clean_of_normal (Nat.le_of_not_lt hle)).1
  exact np2_sep_sep rest (hclean _ (List.suffix_append b _))

/-- **Two separators where the path has one** are the same path. -/
theorem normal_doubled (hb : (np2 win).Clean (b ++ [sep win]))
    (h2 : (np2 win).Clean (b ++ sep win :: rest)) (h1 : (np1 win).Clean (b ++ sep win :: rest))
    (hne : rest ≠ []) (hhead : rest.head? ≠ some (sep win)) :
    normal win (b ++ sep win :: sep win :: rest) = b ++ sep win :: rest := by
  obtain ⟨c, r, rfl⟩ := List.exists_cons_of_ne_nil hne
  have hc : c ≠ sep win := fun h => hhead (by rw [h]; rfl)
  have hdot : ∀ s', c = dot → r ≠ sep win :: s' := by
    intro s' hcd hr
    subst hcd
    rw [hr] at h2
    exact np2_sep_dot_sep s' (h2 _ (List.suffix_append b _))
  have hfront : ∀ t, t <:+ b → t ≠ [] →
      matchAt (np2 win).items (t ++ sep win :: sep win :: c :: r) = none := by
    intro t ht htne
    refine np2_front htne (hb _ ?_)
    obtain ⟨pre, rfl⟩ := ht
    exact ⟨pre, (List.append_assoc pre t _).symm⟩
  have hrest : (np2 win).Clean (c :: r) :=
    h2.suffix ((List.suffix_cons _ _).trans (List.suffix_append b _))
  have hpass : ((np2 win).gsub (b ++ sep win :: sep win :: c :: r)).1 = b ++ sep win :: c :: r := by
    rw [(np2 win).gsub_append hfront, (np2 win).gsub_match (np2_doubled hc hdot)]
    show b ++ (sep win :: ((np2 win).gsub (c :: r)).1) = _
    rw [((np2 win).gsub_spec (c :: r)).2.2 hrest]
  unfold normal
  rw [(np2 win).settle_gsub, hpass, h2.settle, h1.settle]
  exact if_neg (by simp)

/-- What `normpath` hands to the loops. -/
def slashed (win : Bool) (P : LString) : LString := if win then backslashes P else P

theorem slashed_length (win : Bool) (P : LString) : (slashed win P).length = P.length := by
  cases win
  · rfl
  · exact List.length_map _

theorem slashed_append (win : Bool) (P Q : LString) :
    slashed win (P ++ Q) = slashed win P ++ slashed win Q := by
  cases win
  · rfl
  · exact List.map_append

theorem slashed_sep (win : Bool) (P : LString) :
    slashed win (sep win :: P) = sep win :: slashed win P := by
  cases win <;> rfl

theorem normpath_unc (P : LString) : normpath true (92 :: 92 :: P) = 92 :: 92 :: normpath true P :=
  rfl

theorem normpath_drive (P : LString) (h : ∀ Q, P ≠ 92 :: 92 :: Q) :
    normpath true P = normal true (backslashes P) := by
  unfold normpath
  split
  next a b P =>
    have hne : (a == 92 && b == 92) = false := by
      by_contra hab
      simp only [Bool.not_eq_false, Bool.and_eq_true, beq_iff_eq] at hab
      exact h P (by rw [hab.1, hab.2])
    simp [hne]
  next => rfl

/-- A path with a name in it: pairs of backslashes are taken off, then the loops run,
whatever follows the name. -/
theorem normpath_shape (b : LString) (hnamed : win = true → ∃ c ∈ b, c ≠ sep win) :
    ∃ u q, b = u ++ q ∧ ∀ x, normpath win (b ++ x) = u ++ normal win (slashed win (q ++ x)) := by
  cases win with
  | false => exact ⟨[], b, rfl, fun x => normpath_posix _⟩
  | true =>
    have hplain : (∀ x Q, b ++ x ≠ 92 :: 92 :: Q) → ∃ u q, b = u ++ q ∧
        ∀ x, normpath true (b ++ x) = u ++ normal true (slashed true (q ++ x)) :=
      fun h => ⟨[], b, rfl, fun x => normpath_drive _ (h x)⟩
    induction hn : b.length using Nat.strong_induction_on generalizing b with
    | _ n ih =>
      obtain ⟨d, hd, hne⟩ := hnamed rfl
      cases b with
      | nil => cases hd
      | cons c b =>
        cases b with
        | nil =>
          refine hplain fun x Q h => hne ?_
          rw [List.mem_singleton.mp hd]
          exact (List.cons.inj h).1
        | cons c' b =>
          by_cases hunc : c = 92 ∧ c' = 92
          · obtain ⟨rfl, rfl⟩ := hunc
            have hdb : d ∈ b := by
              rcases List.mem_cons.mp hd with rfl | hd
              · exact absurd rfl hne
              · rcases List.mem_cons.mp hd with rfl | hd
                · exact absurd rfl hne
                · exact hd
            obtain ⟨u, q, rfl, hshape⟩ := ih b.length (by rw [← hn]; simp) b
              (fun _ => ⟨d, hdb, hne⟩) (fun h => ⟨[], b, rfl, fun x => normpath_drive _ (h x)⟩) rfl
            refine ⟨92 :: 92 :: u, q, rfl, fun x => ?_⟩
            have hx := hshape x
            rw [List.append_assoc] at hx
            show normpath true (92 :: 92 :: (u ++ q ++ x)) = _
            rw [normpath_unc, List.append_assoc, hx]
            rfl
          · refine hplain fun x Q h => hunc ?_
            rw [List.cons_append, List.cons_append, List.cons.injEq, List.cons.injEq] at h
            exact ⟨h.1, h.2.1⟩

end

/-! ## There and back -/

section

variable {win : Bool} {base : BasePath win} {P rest : LString}

/-- On Windows, something besides separators: a drive, a server. -/
def BasePath.Named (base : BasePath win) : Prop := win = true → ∃ c ∈ base.path, c ≠ sep win

/-- The path comes back: the base path stands at its start, before something that is not
itself absolute, or nowhere before anything. -/
def Survives (base : BasePath win) (P : LString) : Prop :=
  (base.Named ∧ ∃ rest, P = base.path ++ rest ∧ rest ≠ [] ∧ isabs win rest = false) ∨
    ∀ pre rest, P = pre ++ (base.path ++ rest) → rest = []

theorem isabs_sep (P : LString) : isabs win (sep win :: P) = true := by
  cases win <;> rfl

theorem BasePath.Named.dir (h : base.Named) : ∃ dir, base.path = dir ++ [sep win] ∧
    (win = true → ∃ c ∈ dir, c ≠ sep win) := by
  obtain ⟨dir, hdir⟩ := base.ends
  refine ⟨dir, hdir, fun hwin => ?_⟩
  obtain ⟨c, hc, hne⟩ := h hwin
  rw [hdir] at hc
  rcases List.mem_append.mp hc with hc | hc
  · exact ⟨c, hc, hne⟩
  · exact absurd (List.mem_singleton.mp hc) hne

theorem getabs_of_relative (h : isabs win rest = false) {dir : LString}
    (hdir : base.path = dir ++ [sep win]) :
    getabs base rest = normpath win (dir ++ sep win :: sep win :: rest) := by
  unfold getabs abspath
  rw [if_neg (by rw [h]; exact Bool.false_ne_true)]
  dsimp only
  rw [if_pos h, hdir, List.append_assoc]
  rfl

/-- **Below the base path** a path comes back. -/
theorem getabs_below (hbase : base.Named) (hP : IsPath win (base.path ++ rest)) (hne : rest ≠ [])
    (h : isabs win rest = false) : getabs base rest = base.path ++ rest := by
  obtain ⟨dir, hdir, hnamed⟩ := hbase.dir
  have hbase := base.isPath.2
  have hnorm := hP.2
  rw [getabs_of_relative h hdir]
  rw [hdir] at hbase hnorm ⊢
  rw [List.append_assoc] at hnorm ⊢
  obtain ⟨u, q, rfl, hshape⟩ := normpath_shape dir hnamed
  -- the loops leave the base path and the path alone
  have hloops : ∀ x, normpath win (u ++ q ++ x) = u ++ q ++ x →
      (np2 win).Clean (q ++ x) ∧ (np1 win).Clean (q ++ x) ∧ slashed win (q ++ x) = q ++ x := by
    intro x hx
    rw [hshape, List.append_assoc] at hx
    have hsame := List.append_cancel_left hx
    have hlen : (slashed win (q ++ x)).length ≤ (normal win (slashed win (q ++ x))).length := by
      rw [hsame, slashed_length]
    obtain ⟨h2, h1⟩ := clean_of_normal hlen
    have hfix : slashed win (q ++ x) = q ++ x := by
      by_cases hnil : slashed win (q ++ x) = []
      · have hzero := slashed_length win (q ++ x)
        rw [hnil] at hzero
        rw [hnil, List.length_eq_zero_iff.mp hzero.symm]
      · rw [normal_of_clean h2 h1 hnil] at hsame
        exact hsame
    rw [hfix] at h2 h1
    exact ⟨h2, h1, hfix⟩
  obtain ⟨hb, -, -⟩ := hloops [sep win] hbase
  obtain ⟨h2, h1, hfix⟩ := hloops (sep win :: rest) hnorm
  have hhead : rest.head? ≠ some (sep win) := by
    intro hhead
    obtain ⟨r, hr⟩ := List.head?_eq_some_iff.mp hhead
    rw [hr, isabs_sep] at h
    cases h
  have hslash : slashed win (q ++ sep win :: sep win :: rest) = q ++ sep win :: sep win :: rest := by
    rw [slashed_append, slashed_sep, slashed_sep]
    rw [slashed_append, slashed_sep] at hfix
    obtain ⟨hq, hrest⟩ := List.append_inj hfix (slashed_length win q)
    rw [hq, hrest]
  rw [hshape, hslash, normal_doubled hb h2 h1 hne hhead, List.append_assoc]
  rfl

/-- Whatever is made absolute is no longer than with the base path in front. -/
theorem getabs_length (hbase : base.Named) (h : isabs win rest = false) :
    (getabs base rest).length ≤ base.path.length + rest.length := by
  obtain ⟨dir, hdir, hnamed⟩ := hbase.dir
  obtain ⟨u, q, rfl, hshape⟩ := normpath_shape dir hnamed
  rw [getabs_of_relative h hdir, hshape, hdir, slashed_append, slashed_sep, slashed_sep]
  have hlt := @normal_doubled_length win (slashed win q) (slashed win rest)
  simp only [List.length_append, List.length_cons, List.length_nil, slashed_length] at hlt ⊢
  omega

theorem BasePath.ne_nil (base : BasePath win) : base.path ≠ [] := by
  obtain ⟨dir, hdir⟩ := base.ends
  rw [hdir]
  exact List.append_ne_nil_of_right_ne_nil _ (List.cons_ne_nil _ _)

theorem normpath_pairs (m : ℕ) (x : LString) :
    normpath true (List.replicate (2 * m) 92 ++ x) =
      List.replicate (2 * m) 92 ++ normpath true x := by
  induction m with
  | zero => rfl
  | succ m ih =>
    rw [Nat.mul_succ, List.replicate_succ, List.replicate_succ, List.cons_append, List.cons_append,
      normpath_unc, ih]
    rfl

/-- A base path of separators makes a server of what is put behind it. -/
theorem getabs_unnamed (hbase : ¬base.Named) (h : isabs win rest = false) :
    ∃ x, getabs base rest = base.path ++ sep win :: x := by
  simp only [BasePath.Named, Classical.not_imp, not_exists, not_and, not_not] at hbase
  obtain ⟨rfl, hall⟩ := hbase
  have hpath : base.path = List.replicate base.path.length 92 :=
    List.eq_replicate_iff.mpr ⟨rfl, hall⟩
  -- two at a time they are left alone, so there is one more
  have hodd : ∃ m, base.path.length = 2 * m + 1 := by
    rcases Nat.even_or_odd' base.path.length with ⟨m, hm | hm⟩
    · have hnorm := base.isPath.2
      have hpairs := normpath_pairs m []
      rw [List.append_nil, ← hm, ← hpath, hnorm] at hpairs
      have hlen := congrArg List.length hpairs
      have hdot : normpath true [] = [dot] := by
        have h2 : (np2 true).Clean [] := .of_length (Nat.zero_lt_succ 1)
        have h1 : (np1 true).Clean [] := .of_length (Nat.zero_lt_succ 3)
        rw [normpath_drive [] fun Q hQ => by cases hQ]
        unfold normal
        show (if (np1 true).settle ((np2 true).settle []) = [] then _ else _) = _
        rw [h2.settle, h1.settle]
        rfl
      rw [hdot, List.length_append, List.length_singleton] at hlen
      omega
    · exact ⟨m, hm⟩
  obtain ⟨m, hm⟩ := hodd
  rw [hm] at hpath
  have hdir : base.path = List.replicate (2 * m) 92 ++ [sep true] := by
    rw [hpath, List.replicate_succ']
    rfl
  have hpairs := normpath_pairs (m + 1) rest
  rw [Nat.mul_succ, List.replicate_add, List.append_assoc, List.append_assoc] at hpairs
  refine ⟨normpath true rest, ?_⟩
  rw [getabs_of_relative h hdir, hdir, List.append_assoc]
  exact hpairs

/-- **Which paths come back.** -/
theorem getabs_getportable_iff (hP : IsPath win P) :
    getabs base (getportable base P) = P ↔ Survives base P := by
  have hpos := List.length_pos_iff.mpr base.ne_nil
  unfold getportable
  rcases behind_spec base.path P with ⟨pre, rest, hsplit, hne, hfound⟩ | ⟨hnone, hfound⟩
  · rw [hfound]
    dsimp only
    constructor
    · intro hback
      have hrel : isabs win rest = false := by
        by_contra habs
        rw [getabs, if_pos (by simpa using habs)] at hback
        have hlen := congrArg List.length (hback.trans hsplit)
        simp only [List.length_append] at hlen
        omega
      have hnamed : base.Named := by
        by_contra hbase
        obtain ⟨x, hx⟩ := getabs_unnamed hbase hrel
        -- what comes first behind the base path is a separator
        rw [behind_of_append (hback.symm.trans hx) (List.cons_ne_nil _ _)] at hfound
        rw [← Option.some.inj hfound, isabs_sep] at hrel
        cases hrel
      have hle := getabs_length hnamed hrel
      rw [hback, hsplit] at hle
      simp only [List.length_append] at hle
      have hpre : pre = [] := List.length_eq_zero_iff.mp (by omega)
      subst hpre
      exact .inl ⟨hnamed, rest, hsplit, hne, hrel⟩
    · intro hsurvives
      rcases hsurvives with ⟨hnamed, rest', hsplit', hne', hrel⟩ | hnowhere
      · rw [behind_of_append hsplit' hne'] at hfound
        obtain rfl := Option.some.inj hfound
        rw [hsplit'] at hP ⊢
        exact getabs_below hnamed hP hne' hrel
      · exact absurd (hnowhere pre rest hsplit) hne
  · rw [hfound]
    dsimp only
    rw [getabs, if_pos hP.1]
    exact iff_of_true rfl (.inr hnone)

end

end Lua2SC.Settings
