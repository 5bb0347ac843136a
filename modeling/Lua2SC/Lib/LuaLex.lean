import Lua2SC.Lib.Decimal

/-!
# The words of a Lua text

`lex` is `llex.c` of Lua 5.1 for names, numbers, strings in double quotes and the marks
`[ ] { } =` and `-`. A text with anything else in it (comments, long brackets, `==`) has no
words here.

The other way, `addquoted` is `string.format("%q", s)`, and `lex_quoted`, `lex_general` say
that a quoted string and the text of a double are one word each, which stands for what was
written, if nothing follows that a number would swallow.
-/

namespace Lua2SC.LuaLex

open Lua2SC.Lua Lua2SC.Decimal

inductive Token where
  | name (s : LString)
  | number (x : LuaNumber)
  | string (s : LString)
  | lbracket
  | rbracket
  | lbrace
  | rbrace
  | assign
  | minus
deriving DecidableEq, Repr

/-! ## Strings -/

/-- What `addquoted` makes of a byte. -/
def quoteByte (c : UInt8) : LString :=
  if c = 34 ∨ c = 92 ∨ c = 10 then [92, c]
  else if c = 13 then [92, 114]
  else if c = 0 then [92, 48, 48, 48]
  else [c]

/-- `string.format("%q", s)`. -/
def addquoted (s : LString) : LString := 34 :: (s.flatMap quoteByte ++ [34])

/-- Up to `n` digits of a `\ddd`, behind `c`. -/
def readDigits : ℕ → ℕ → LString → ℕ × LString
  | n + 1, c, d :: s => if isdigit d then readDigits n (10 * c + (d.toNat - 48)) s else (c, d :: s)
  | _, c, s => (c, s)

/-- What a letter behind a backslash stands for. -/
def control (c : UInt8) : Option UInt8 :=
  if c = 97 then some 7
  else if c = 98 then some 8
  else if c = 102 then some 12
  else if c = 110 then some 10
  else if c = 114 then some 13
  else if c = 116 then some 9
  else if c = 118 then some 11
  else none

/-- Behind a backslash: the byte that is meant and what follows. -/
def escape : LString → Option (UInt8 × LString)
  | [] => none
  | c :: s =>
    match control c with
    | some b => some (b, s)
    | none =>
      if c = 10 ∨ c = 13 then
        -- a line end of two bytes counts as one
        match s with
        | [] => some (10, [])
        | d :: s' => if (d = 10 ∨ d = 13) ∧ d ≠ c then some (10, s') else some (10, d :: s')
      else if isdigit c then
        let (n, r) := readDigits 3 0 (c :: s)
        if n ≤ 255 then some (UInt8.ofNat n, r) else none
      else some (c, s)

theorem readDigits_length (n c : ℕ) (s : LString) : (readDigits n c s).2.length ≤ s.length := by
  induction n generalizing c s with
  | zero => exact le_rfl
  | succ n ih =>
    cases s with
    | nil => exact le_rfl
    | cons d s =>
      unfold readDigits
      split
      · exact (ih _ s).trans (Nat.le_succ _)
      · exact le_rfl

theorem escape_length {s r : LString} {b : UInt8} (h : escape s = some (b, r)) :
    r.length < s.length := by
  cases s with
  | nil => cases h
  | cons c s =>
    unfold escape at h
    dsimp only at h
    cases hctl : control c with
    | some b' =>
      rw [hctl] at h
      cases h
      exact Nat.lt_succ_self _
    | none =>
      rw [hctl] at h
      dsimp only at h
      by_cases hend : c = 10 ∨ c = 13
      · rw [if_pos hend] at h
        cases s with
        | nil =>
          cases h
          exact Nat.lt_succ_self _
        | cons d s =>
          dsimp only at h
          split at h
          next =>
            cases h
            exact (Nat.lt_succ_self _).trans (Nat.lt_succ_self _)
          next =>
            cases h
            exact Nat.lt_succ_self _
      · rw [if_neg hend] at h
        by_cases hdigit : isdigit c = true
        · have hread : readDigits 3 0 (c :: s) = readDigits 2 (10 * 0 + (c.toNat - 48)) s :=
            if_pos hdigit
          rw [if_pos hdigit, hread] at h
          split at h
          next =>
            cases h
            exact Nat.lt_succ_of_le (readDigits_length _ _ s)
          next => cases h
        · rw [if_neg hdigit] at h
          cases h
          exact Nat.lt_succ_self _

/-- `read_string`, behind the quote. -/
def readString : LString → Option (LString × LString)
  | [] => none
  | c :: s =>
    if c = 34 then some ([], s)
    else if c = 10 ∨ c = 13 then none
    else if c = 92 then
      match _h : escape s with
      | none => none
      | some (b, r) => (readString r).map fun t => (b :: t.1, t.2)
    else (readString s).map fun t => (c :: t.1, t.2)
termination_by s => s.length
decreasing_by
  · exact (escape_length _h).trans (Nat.lt_succ_self _)
  · exact Nat.lt_succ_self _

/-- Nothing that is quoted begins with a carriage return. -/
theorem head_quoted (s rest : LString) : (s.flatMap quoteByte ++ 34 :: rest).head? ≠ some 13 := by
  cases s with
  | nil => simp
  | cons c s =>
    rw [List.flatMap_cons, List.append_assoc]
    unfold quoteByte
    split
    · simp
    · split
      · simp
      · split
        · simp
        next hcr _ => simpa using hcr

theorem escape_self {c : UInt8} (h : c = 34 ∨ c = 92) (s : LString) :
    escape (c :: s) = some (c, s) := by
  rcases h with rfl | rfl <;> rfl

theorem escape_newline {s : LString} (h : s.head? ≠ some 13) : escape (10 :: s) = some (10, s) := by
  cases s with
  | nil => rfl
  | cons d s =>
    have hd : d ≠ 13 := fun hd => h (congrArg some hd)
    show (if (d = 10 ∨ d = 13) ∧ d ≠ 10 then some (10, s) else some (10, d :: s)) = _
    rw [if_neg]
    intro hnew
    exact hnew.1.elim hnew.2 hd

theorem escape_zero (s : LString) : escape (48 :: 48 :: 48 :: s) = some (0, s) := rfl

/-- **A quoted string is read back.** -/
theorem readString_quoted (s rest : LString) :
    readString (s.flatMap quoteByte ++ 34 :: rest) = some (s, rest) := by
  induction s with
  | nil =>
    rw [List.flatMap_nil, List.nil_append, readString, if_pos rfl]
  | cons c s ih =>
    -- a byte behind a backslash
    have hescape : ∀ e, escape (e ++ (s.flatMap quoteByte ++ 34 :: rest)) =
        some (c, s.flatMap quoteByte ++ 34 :: rest) →
        readString (92 :: (e ++ (s.flatMap quoteByte ++ 34 :: rest))) = some (c :: s, rest) := by
      intro e he
      rw [readString, if_neg (by decide), if_neg (by decide), if_pos rfl]
      split
      next hnone =>
        rw [he] at hnone
        cases hnone
      next b r hsome =>
        rw [he] at hsome
        cases hsome
        rw [ih]
        rfl
    rw [List.flatMap_cons, List.append_assoc]
    by_cases h : c = 34 ∨ c = 92 ∨ c = 10
    · rw [show quoteByte c = [92, c] from if_pos h]
      refine hescape [c] ?_
      rcases h with h | h | h
      · exact escape_self (.inl h) _
      · exact escape_self (.inr h) _
      · subst h
        exact escape_newline (head_quoted s rest)
    · by_cases hcr : c = 13
      · subst hcr
        exact hescape [114] rfl
      · by_cases hzero : c = 0
        · subst hzero
          exact hescape [48, 48, 48] (escape_zero _)
        · -- any other byte stands for itself
          have hself : quoteByte c = [c] := by
            rw [quoteByte, if_neg h, if_neg hcr, if_neg hzero]
          push Not at h
          rw [hself, List.singleton_append, readString, if_neg h.1,
            if_neg (not_or.mpr ⟨h.2.2, hcr⟩), if_neg h.2.1, ih]
          rfl

/-! ## Numbers and names -/

/-- `isalpha` or `_`. -/
def nameStart (c : UInt8) : Bool := (65 ≤ c && c ≤ 90) || (97 ≤ c && c ≤ 122) || c = 95

/-- `isalnum` or `_`. -/
def nameByte (c : UInt8) : Bool := isdigit c || nameStart c

/-- `isspace`, line ends included. -/
def isspace (c : UInt8) : Bool := c = 32 || (9 ≤ c && c ≤ 13)

/-- `check_next` of `Ee`, and of `+-` behind it. -/
def exponentMark : LString → LString × LString
  | [] => ([], [])
  | c :: s =>
    if c = 101 ∨ c = 69 then
      match s with
      | [] => ([c], [])
      | d :: s' => if d = 43 ∨ d = 45 then ([c, d], s') else ([c], d :: s')
    else ([], c :: s)

/-- Digits and points, in front of an exponent. -/
def mantissaByte (c : UInt8) : Bool := isdigit c || c = 46

/-- `read_numeral` behind the first digit: the text of the number and what follows it. -/
def scanNumeral (s : LString) : LString × LString :=
  let e := exponentMark (s.dropWhile mantissaByte)
  (s.takeWhile mantissaByte ++ (e.1 ++ e.2.takeWhile nameByte), e.2.dropWhile nameByte)

/-- The word that begins with `c`. -/
def word (c : UInt8) (s : LString) : Option (Token × LString) :=
  if c = 34 then (readString s).map fun t => (.string t.1, t.2)
  else if isdigit c then
    (tonum (c :: (scanNumeral s).1)).map fun x => (.number x, (scanNumeral s).2)
  else if nameStart c then some (.name (c :: s.takeWhile nameByte), s.dropWhile nameByte)
  else if c = 91 then if s.head? = some 91 ∨ s.head? = some 61 then none else some (.lbracket, s)
  else if c = 93 then some (.rbracket, s)
  else if c = 123 then some (.lbrace, s)
  else if c = 125 then some (.rbrace, s)
  else if c = 61 then if s.head? = some 61 then none else some (.assign, s)
  else if c = 45 then if s.head? = some 45 then none else some (.minus, s)
  else none

theorem readString_length (s : LString) {t : LString × LString} (h : readString s = some t) :
    t.2.length ≤ s.length := by
  induction s using readString.induct generalizing t with
  | case1 =>
    rw [readString] at h
    cases h
  | case2 s =>
    rw [readString, if_pos rfl] at h
    cases h
    exact Nat.le_succ _
  | case3 c s h34 hend =>
    rw [readString, if_neg h34, if_pos hend] at h
    cases h
  | case4 s hnone =>
    rw [readString, if_neg (by decide), if_neg (by decide), if_pos rfl] at h
    split at h
    next => cases h
    next b r hsome => rw [hnone] at hsome; cases hsome
  | case5 s b r hescape _ _ ih =>
    rw [readString, if_neg (by decide), if_neg (by decide), if_pos rfl] at h
    split at h
    next => cases h
    next b' r' hsome =>
      rw [hescape] at hsome
      cases hsome
      obtain ⟨t', ht', rfl⟩ := Option.map_eq_some_iff.mp h
      exact (ih ht').trans ((escape_length hescape).le.trans (Nat.le_succ _))
  | case6 c s h34 hend hback ih =>
    rw [readString, if_neg h34, if_neg hend, if_neg hback] at h
    obtain ⟨t', ht', rfl⟩ := Option.map_eq_some_iff.mp h
    exact (ih ht').trans (Nat.le_succ _)

theorem exponentMark_length (s : LString) : (exponentMark s).2.length ≤ s.length := by
  cases s with
  | nil => exact le_rfl
  | cons c s =>
    unfold exponentMark
    dsimp only
    split
    · cases s with
      | nil => exact Nat.zero_le _
      | cons d s =>
        dsimp only
        split
        · exact (Nat.le_succ _).trans (Nat.le_succ _)
        · exact Nat.le_succ _
    · exact le_rfl

theorem scanNumeral_length (s : LString) : (scanNumeral s).2.length ≤ s.length := by
  have hdrop : ∀ (p : UInt8 → Bool) (t : LString), (t.dropWhile p).length ≤ t.length :=
    fun p t => (List.dropWhile_suffix p).length_le
  exact (hdrop _ _).trans ((exponentMark_length _).trans (hdrop _ _))

theorem word_length {c : UInt8} {s r : LString} {t : Token} (h : word c s = some (t, r)) :
    r.length ≤ s.length := by
  unfold word at h
  split at h
  · obtain ⟨t', ht', heq⟩ := Option.map_eq_some_iff.mp h
    cases heq
    exact readString_length s ht'
  · split at h
    · obtain ⟨x, -, heq⟩ := Option.map_eq_some_iff.mp h
      cases heq
      exact scanNumeral_length s
    · split at h
      · cases h
        exact (List.dropWhile_suffix _).length_le
      · -- a mark leaves all that is behind it
        have hmark : r = s := by grind
        exact hmark.symm ▸ le_rfl

/-- All the words. -/
def lex : LString → Option (List Token)
  | [] => some []
  | c :: s =>
    if isspace c then lex s
    else
      match _h : word c s with
      | none => none
      | some (t, r) => (lex r).map (t :: ·)
termination_by s => s.length
decreasing_by
  · exact Nat.lt_succ_self _
  · exact Nat.lt_succ_of_le (word_length _h)

/-! ## Words that are read back -/

section

variable {c : UInt8} {s rest : LString} {t : Token}

theorem lex_space (h : isspace c = true) : lex (c :: s) = lex s := by
  rw [lex, if_pos h]

theorem lex_word (hspace : isspace c = false) (h : word c s = some (t, rest)) :
    lex (c :: s) = (lex rest).map (t :: ·) := by
  rw [lex, if_neg (by simp [hspace])]
  split
  next hnone =>
    rw [h] at hnone
    cases hnone
  next t' r hsome =>
    rw [h] at hsome
    cases hsome
    rfl

/-- **A quoted string is one word.** -/
theorem lex_quoted (s rest : LString) :
    lex (addquoted s ++ rest) = (lex rest).map (.string s :: ·) := by
  have happ : addquoted s ++ rest = 34 :: (s.flatMap quoteByte ++ 34 :: rest) := by
    simp [addquoted]
  rw [happ]
  refine lex_word rfl ?_
  show (readString _).map _ = _
  rw [readString_quoted]
  rfl

/-- A name. -/
theorem lex_name (hc : nameStart c = true) (hs : ∀ d ∈ s, nameByte d = true)
    (hrest : ∀ d, rest.head? = some d → nameByte d = false) :
    lex (c :: (s ++ rest)) = (lex rest).map (.name (c :: s) :: ·) := by
  have hkind : isspace c = false ∧ isdigit c = false ∧ c ≠ 34 := by
    unfold nameStart at hc
    unfold isspace isdigit
    refine ⟨?_, ?_, ?_⟩
    all_goals grind
  obtain ⟨htake, hdrop⟩ := span_append hs hrest
  refine lex_word hkind.1 ?_
  rw [word, if_neg hkind.2.2, if_neg (by simp [hkind.2.1]), if_pos hc, htake, hdrop]

/-- What follows does not belong to a number. -/
def Stops (rest : LString) : Prop :=
  ∀ c, rest.head? = some c → mantissaByte c = false ∧ nameByte c = false

theorem exponentMark_stops (h : Stops rest) : exponentMark rest = ([], rest) := by
  cases rest with
  | nil => rfl
  | cons c rest =>
    have hne : ¬(c = 101 ∨ c = 69) := by
      have hc := (h c rfl).2
      intro he
      rcases he with rfl | rfl
      · exact absurd hc (by decide)
      · exact absurd hc (by decide)
    show (if _ then _ else _) = _
    rw [if_neg hne]

/-- The digits of an exponent end the number. -/
theorem scan_expText (e : Option ℤ) (h : Stops rest) :
    let m := exponentMark (Numeral.expText e ++ rest)
    m.1 ++ m.2.takeWhile nameByte = Numeral.expText e ∧ m.2.dropWhile nameByte = rest := by
  have hstop : ∀ d, rest.head? = some d → nameByte d = false := fun d hd => (h d hd).2
  cases e with
  | none =>
    show (exponentMark rest).1 ++ (exponentMark rest).2.takeWhile nameByte = [] ∧
      (exponentMark rest).2.dropWhile nameByte = rest
    rw [exponentMark_stops h]
    exact span_append (fun d hd => absurd hd List.not_mem_nil) hstop
  | some X =>
    have hdigits : ∀ d ∈ chars (Numeral.expDigits X.natAbs), nameByte d = true := by
      intro d hd
      rw [nameByte, isdigit_chars (expDigits_lt _) d hd]
      rfl
    obtain ⟨htake, hdrop⟩ := span_append hdigits hstop
    have hmark : exponentMark (Numeral.expText (some X) ++ rest) =
        ([101, if X < 0 then 45 else 43], chars (Numeral.expDigits X.natAbs) ++ rest) := by
      by_cases hX : X < 0
      · simp only [Numeral.expText, if_pos hX]
        rfl
      · simp only [Numeral.expText, if_neg hX]
        rfl
    rw [hmark]
    dsimp only
    rw [htake, hdrop]
    exact ⟨rfl, rfl⟩

/-- The text of a numeral ends where it ends. -/
theorem scanNumeral_text {is fs : List ℕ} (his : ∀ d ∈ is, d < 10) (hfs : ∀ d ∈ fs, d < 10)
    (e : Option ℤ) (h : Stops rest) :
    scanNumeral (chars is ++ (Numeral.fracText fs ++ (Numeral.expText e ++ rest))) =
      (chars is ++ (Numeral.fracText fs ++ Numeral.expText e), rest) := by
  have hmant : ∀ d ∈ chars is ++ Numeral.fracText fs, mantissaByte d = true := by
    intro d hd
    rcases List.mem_append.mp hd with hd | hd
    · rw [mantissaByte, isdigit_chars his d hd]
      rfl
    · unfold Numeral.fracText at hd
      split at hd
      · exact absurd hd List.not_mem_nil
      · rcases List.mem_cons.mp hd with rfl | hd
        · rfl
        · rw [mantissaByte, isdigit_chars hfs d hd]
          rfl
  have hstop : ∀ d, (Numeral.expText e ++ rest).head? = some d → mantissaByte d = false := by
    intro d hd
    cases e with
    | none => exact (h d hd).1
    | some X =>
      cases hd
      rfl
  obtain ⟨htake, hdrop⟩ := span_append hmant hstop
  obtain ⟨hexp, hend⟩ := scan_expText e h
  rw [← List.append_assoc]
  unfold scanNumeral
  rw [htake, hdrop]
  dsimp only at hexp hend ⊢
  rw [hexp, hend, List.append_assoc]

/-- **The text of a double is one word**, and stands for the double. -/
theorem lex_general {x : ℚ} (hx : IsDouble x) (h0 : 0 ≤ x) (h : Stops rest) :
    lex (general 17 x ++ rest) = (lex rest).map (.number (.finite x) :: ·) := by
  have hread := tonum_general hx h0
  obtain ⟨hne, hlt⟩ := numeral_ok (P := 17) (by norm_num) h0
  unfold general at hread ⊢
  unfold Numeral.text at hread ⊢
  generalize numeral 17 x = d at hread hne hlt ⊢
  obtain ⟨is, fs, e⟩ := d
  dsimp only at hread hne hlt ⊢
  cases is with
  | nil => exact absurd rfl hne
  | cons i is =>
    have hscan := scanNumeral_text (fun d hd => hlt d (List.mem_append_left _
      (List.mem_cons_of_mem _ hd))) (fun d hd => hlt d (List.mem_append_right _ hd)) e h
    have hdigit : isdigit (UInt8.ofNat (48 + i)) = true :=
      isdigit_char (hlt i List.mem_cons_self)
    have hkind : isspace (UInt8.ofNat (48 + i)) = false ∧ UInt8.ofNat (48 + i) ≠ 34 := by
      unfold isdigit at hdigit
      unfold isspace
      constructor
      all_goals grind
    show lex (UInt8.ofNat (48 + i) :: (chars is ++ (Numeral.fracText fs ++
      Numeral.expText e)) ++ rest) = _
    rw [List.cons_append, List.append_assoc, List.append_assoc]
    refine lex_word hkind.1 ?_
    rw [word, if_neg hkind.2, if_pos hdigit, hscan]
    dsimp only
    have htext : UInt8.ofNat (48 + i) :: (chars is ++ (Numeral.fracText fs ++ Numeral.expText e)) =
        chars (i :: is) ++ (Numeral.fracText fs ++ Numeral.expText e) := rfl
    rw [htext, hread]
    rfl

/-- A number begins with a digit. -/
theorem head_general {x : ℚ} (h0 : 0 ≤ x) (rest : LString) :
    ∃ c, (general 17 x ++ rest).head? = some c ∧ isdigit c = true := by
  obtain ⟨hne, hlt⟩ := numeral_ok (P := 17) (by norm_num) h0
  unfold general Numeral.text
  cases hint : (numeral 17 x).int with
  | nil => exact absurd hint hne
  | cons i is =>
    refine ⟨UInt8.ofNat (48 + i), rfl, isdigit_char (hlt i ?_)⟩
    rw [hint]
    exact List.mem_cons_self

end

end Lua2SC.LuaLex
