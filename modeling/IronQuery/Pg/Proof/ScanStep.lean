import IronQuery.Pg.Lexer

/-!
# One step of the scanner

* `scan_cons`: the scanner unfolded once, free of its fuel (`step_suffix`: a step leaves a suffix).
* `scanQuoted_escape`: reading a quoted token back gives its value (`escape` doubles the quote).
* `step_*`: what a step does at each class of character, as an equation a proof can rewrite with.
-/

namespace Pg

/-! ## Runs of a class -/

/-- The next character is outside the class `p` (or there is none). -/
def Stops (p : Char → Bool) (s : Text) : Prop := ∀ c, s.head? = some c → p c = false

theorem Stops.nil (p : Char → Bool) : Stops p [] := fun _ h => by simp at h

theorem stops_cons {p : Char → Bool} {c : Char} {s : Text} : Stops p (c :: s) ↔ p c = false := by
  simp [Stops]

/-- What all characters of `t` have, for one of them. -/
theorem all_of_contains {p : Char → Bool} {c : Char} {t : Text} (hc : t.contains c = true)
    (h : t.all p = true) : p c = true :=
  List.all_eq_true.1 h c (List.contains_iff_mem.1 hc)

theorem Stops.mono {p q : Char → Bool} {s : Text} (h : Stops q s) (hpq : ∀ c, p c → q c) :
    Stops p s := fun c hc => by
  have := h c hc
  cases hp : p c
  · rfl
  · rw [hpq c hp] at this
    cases this

theorem takeWhile_stops {p : Char → Bool} {r : Text} (h : Stops p r) :
    ∀ s : Text, (s ++ r).takeWhile p = s.takeWhile p
  | [] => by
    cases r with
    | nil => rfl
    | cons c r => simp [stops_cons.1 h]
  | c :: s => by
    cases hc : p c
    · simp [hc]
    · simp [hc, takeWhile_stops h s]

theorem dropWhile_stops {p : Char → Bool} {r : Text} (h : Stops p r) :
    ∀ s : Text, (s ++ r).dropWhile p = s.dropWhile p ++ r
  | [] => by
    cases r with
    | nil => rfl
    | cons c r => simp [stops_cons.1 h]
  | c :: s => by
    cases hc : p c
    · simp [hc]
    · simp [hc, dropWhile_stops h s]

theorem takeWhile_all {p : Char → Bool} :
    ∀ {w : Text}, w.all p = true → w.takeWhile p = w ∧ w.dropWhile p = []
  | [], _ => ⟨rfl, rfl⟩
  | c :: w, h => by
    simp only [List.all_cons, Bool.and_eq_true] at h
    simp [h.1, takeWhile_all h.2]

/-! ## What a step leaves -/

theorem scanQuoted_suffix {q : Char} {s v r : Text} (h : scanQuoted q s = some (v, r)) :
    r <:+ s := by
  induction s using scanQuoted.induct q generalizing v r with
  | case1 => simp [scanQuoted] at h
  | case2 => simp [scanQuoted] at h; simp [h]
  | case3 c hc => simp [scanQuoted, hc] at h
  | case4 s ih =>
    simp only [scanQuoted, if_true, Option.map_eq_some_iff, Prod.mk.injEq] at h
    obtain ⟨p, hp, -, rfl⟩ := h
    exact (ih hp).trans ⟨[q, q], rfl⟩
  | case5 d s hd =>
    simp only [scanQuoted, if_true, if_neg hd, Option.some.injEq, Prod.mk.injEq] at h
    obtain ⟨-, rfl⟩ := h
    exact ⟨[q], rfl⟩
  | case6 c d s hc ih =>
    simp only [scanQuoted, if_neg hc, Option.map_eq_some_iff, Prod.mk.injEq] at h
    obtain ⟨p, hp, -, rfl⟩ := h
    exact (ih hp).trans ⟨[c], rfl⟩

theorem continuation_suffix {g : Gap} {s r : Text} (h : continuation g s = some r) : r <:+ s := by
  have cons {c : Char} {t : Text} (ht : r <:+ t) : r <:+ c :: t := ht.trans ⟨[c], rfl⟩
  induction s generalizing g with
  | nil => simp [continuation] at h
  | cons c s ih =>
    cases g <;> simp only [continuation] at h
    all_goals
      repeat' split at h
      all_goals first
        | exact cons (ih h)
        | cases h
    exact ⟨[c], rfl⟩

theorem scanString_suffix {n : Nat} {s v r : Text} (h : scanString n s = some (v, r)) :
    r <:+ s := by
  induction n generalizing s v r with
  | zero => simp [scanString] at h
  | succ n ih =>
    simp only [scanString] at h
    split at h
    · cases h
    · rename_i v' r' hq
      have hr' := scanQuoted_suffix hq
      split at h
      · cases h; exact hr'
      · rename_i r'' hc
        simp only [Option.map_eq_some_iff, Prod.mk.injEq] at h
        obtain ⟨p, hp, -, rfl⟩ := h
        exact ((ih hp).trans (continuation_suffix hc)).trans hr'

theorem scanEscaped_suffix {s v r : Text} (h : scanEscaped s = some (v, r)) : r <:+ s := by
  induction s using scanEscaped.induct generalizing v r with
  | case1 => simp [scanEscaped] at h
  | case2 => simp [scanEscaped] at h; simp [h]
  | case3 c hc => simp [scanEscaped, hc] at h
  | case4 d s ih =>
    simp only [scanEscaped, if_true, Option.map_eq_some_iff, Prod.mk.injEq] at h
    obtain ⟨p, hp, -, rfl⟩ := h
    exact (ih hp).trans ⟨['\\', d], rfl⟩
  | case5 s h1 ih =>
    simp only [scanEscaped, if_neg h1, if_true, Option.map_eq_some_iff, Prod.mk.injEq] at h
    obtain ⟨p, hp, -, rfl⟩ := h
    exact (ih hp).trans ⟨['\'', '\''], rfl⟩
  | case6 d s h1 hd =>
    simp only [scanEscaped, if_neg h1, if_true, if_neg hd, Option.some.injEq, Prod.mk.injEq] at h
    obtain ⟨-, rfl⟩ := h
    exact ⟨['\''], rfl⟩
  | case7 c d s h1 hc ih =>
    simp only [scanEscaped, if_neg h1, if_neg hc, Option.map_eq_some_iff, Prod.mk.injEq] at h
    obtain ⟨p, hp, -, rfl⟩ := h
    exact (ih hp).trans ⟨[c], rfl⟩

theorem scanDollar_suffix {delim s v r : Text} (h : scanDollar delim s = some (v, r)) :
    r <:+ s := by
  induction s generalizing v r with
  | nil => simp [scanDollar] at h
  | cons c s ih =>
    simp only [scanDollar] at h
    split at h
    · simp only [Option.some.injEq, Prod.mk.injEq] at h
      obtain ⟨-, rfl⟩ := h
      exact List.drop_suffix _ _
    · simp only [Option.map_eq_some_iff, Prod.mk.injEq] at h
      obtain ⟨p, hp, -, rfl⟩ := h
      exact (ih hp).trans ⟨[c], rfl⟩

theorem skipBlock_suffix {d : Nat} {s r : Text} (h : skipBlock d s = some r) : r <:+ s := by
  induction d, s using skipBlock.induct generalizing r with
  | case1 d s ih =>
    rw [skipBlock] at h
    exact (ih h).trans ⟨['/', '*'], rfl⟩
  | case2 s =>
    simp only [skipBlock, if_true, Option.some.injEq] at h
    exact h ▸ ⟨['*', '/'], rfl⟩
  | case3 d s hd ih =>
    simp only [skipBlock, if_neg hd] at h
    exact (ih h).trans ⟨['*', '/'], rfl⟩
  | case4 d c s h1 h2 ih =>
    rw [skipBlock] at h
    · exact (ih h).trans ⟨[c], rfl⟩
    · exact h1
    · exact h2
  | case5 => simp [skipBlock] at h

theorem scanFraction_suffix (s : Text) : (scanFraction s).2 <:+ s := by
  unfold scanFraction
  split
  · split
    · exact List.suffix_rfl
    · exact (List.dropWhile_suffix _).trans ⟨['.'], rfl⟩
  · exact List.suffix_rfl

theorem scanExponent_suffix (s : Text) : (scanExponent s).2 <:+ s := by
  unfold scanExponent
  split
  · rename_i e s
    split
    · split
      · rename_i d s'
        split
        · exact (List.dropWhile_suffix _).trans ⟨[e], rfl⟩
        · split
          · exact (List.dropWhile_suffix _).trans ⟨[e, d], rfl⟩
          · exact List.suffix_rfl
      · exact List.suffix_rfl
    · exact List.suffix_rfl
  · exact List.suffix_rfl

/-- A number takes the digit, or the point before a digit, that it starts with. -/
theorem scanNumber_cons_suffix {c : Char} {s : Text}
    (h : c.isDigit = true ∨ (c = '.' ∧ s.head?.any Char.isDigit = true)) :
    (scanNumber (c :: s)).2 <:+ s := by
  refine (scanExponent_suffix _).trans ?_
  by_cases hc : c.isDigit = true
  · rw [List.dropWhile_cons_of_pos hc]
    exact (scanFraction_suffix _).trans (List.dropWhile_suffix _)
  · obtain ⟨rfl, hs⟩ := h.resolve_left hc
    have hdot : s.head? ≠ some '.' := by
      intro he
      rw [he] at hs
      cases hs
    rw [List.dropWhile_cons_of_neg (by decide), scanFraction, if_neg hdot]
    exact List.dropWhile_suffix _

theorem closeToken_suffix {t : Text → Token} {o : Option (Text × Text)} {s : Text}
    (h : ∀ v r, o = some (v, r) → r <:+ s) : (closeToken t o).2 <:+ s := by
  cases o with
  | none => exact List.nil_suffix
  | some p => exact h p.1 p.2 rfl

theorem stepWord_suffix (w r : Text) : (stepWord w r).2 <:+ r := by
  unfold stepWord
  split
  · split
    · exact (closeToken_suffix fun _ _ h => scanEscaped_suffix h).trans ⟨['\''], rfl⟩
    · split
      · exact (closeToken_suffix fun _ _ h => scanQuoted_suffix h).trans ⟨['\''], rfl⟩
      · exact List.suffix_rfl
  · rename_i c q r'
    split
    · exact (closeToken_suffix fun _ _ h => scanQuoted_suffix h).trans ⟨['&', q], rfl⟩
    · exact List.suffix_rfl
  · exact List.suffix_rfl

theorem stepDollar_suffix (s : Text) : (stepDollar s).2 <:+ s := by
  unfold stepDollar
  split
  · exact List.dropWhile_suffix _
  · split
    · rename_i r hr
      have hs : '$' :: r <:+ s := hr ▸ List.dropWhile_suffix _
      exact (closeToken_suffix fun _ _ h => scanDollar_suffix h).trans
        (List.IsSuffix.trans ⟨['$'], rfl⟩ hs)
    · exact List.suffix_rfl

theorem opToken_ne_nil {c : Char} {s : Text} (hc : isOpChar c = true)
    (h1 : c = '-' → s.head? ≠ some '-') (h2 : c = '/' → s.head? ≠ some '*') :
    opToken (c :: s) ≠ [] := by
  have drop : ∀ t : Text, t ≠ [] → dropSigns t ≠ [] := by
    intro t ht
    induction t using dropSigns.induct with
    | case1 c d s hs ih => rw [dropSigns, if_pos hs]; exact ih (by simp)
    | case2 c d s hs => rw [dropSigns, if_neg hs]; simp
    | case3 s hs => rw [dropSigns]; exact ht; exact hs
  have cut : cutComment ((c :: s).takeWhile isOpChar) ≠ [] := by
    rw [List.takeWhile_cons_of_pos hc]
    cases s with
    | nil => simp [cutComment]
    | cons d s =>
      have e1 : ¬ (c = '-' ∧ d = '-') := fun h => h1 h.1 (by simp [h.2])
      have e2 : ¬ (c = '/' ∧ d = '*') := fun h => h2 h.1 (by simp [h.2])
      cases hd : isOpChar d
      · simp [hd, cutComment]
      · rw [List.takeWhile_cons_of_pos hd, cutComment.eq_def]
        split
        · rename_i heq; simp only [List.cons.injEq] at heq; exact absurd ⟨heq.1, heq.2.1⟩ e1
        · rename_i heq; simp only [List.cons.injEq] at heq; exact absurd ⟨heq.1, heq.2.1⟩ e2
        · simp
        · rename_i heq; simp at heq
  unfold opToken trimSigns
  split
  · exact cut
  · simpa using drop _ (by simpa using cut)

theorem stepOp_suffix {c : Char} (s : Text) (hc : isOpChar c = true) :
    (stepOp (c :: s)).2 <:+ s := by
  unfold stepOp
  split
  · rename_i r heq
    simp only [List.cons.injEq] at heq
    obtain ⟨-, rfl⟩ := heq
    exact (List.dropWhile_suffix _).trans ⟨['-'], rfl⟩
  · rename_i r heq
    simp only [List.cons.injEq] at heq
    obtain ⟨-, rfl⟩ := heq
    split
    · rename_i hb; exact (skipBlock_suffix hb).trans ⟨['*'], rfl⟩
    · exact List.nil_suffix
  · rename_i h1 h2
    have hne : opToken (c :: s) ≠ [] := by
      refine opToken_ne_nil hc ?_ ?_
      · rintro rfl hs
        cases s with
        | nil => simp at hs
        | cons d s => simp only [List.head?_cons, Option.some.injEq] at hs; exact h1 s (by rw [hs])
      · rintro rfl hs
        cases s with
        | nil => simp at hs
        | cons d s => simp only [List.head?_cons, Option.some.injEq] at hs; exact h2 s (by rw [hs])
    obtain ⟨n, hn⟩ : ∃ n, (opToken (c :: s)).length = n + 1 :=
      ⟨(opToken (c :: s)).length - 1, by have := List.length_pos_iff.2 hne; omega⟩
    simp only [hn, List.drop_succ_cons]
    exact List.drop_suffix _ _

/-- **A step leaves a suffix of what followed its first character.** -/
theorem step_suffix (c : Char) (s : Text) : (step c s).2 <:+ s := by
  unfold step
  split
  · exact List.suffix_rfl
  split
  · exact closeToken_suffix fun _ _ h => scanString_suffix h
  split
  · exact closeToken_suffix fun _ _ h => scanQuoted_suffix h
  split
  · exact (stepWord_suffix _ _).trans (List.dropWhile_suffix _)
  split
  · rename_i hd
    exact scanNumber_cons_suffix hd
  split
  · exact stepDollar_suffix s
  split
  · rename_i hc; exact stepOp_suffix s hc
  · exact List.suffix_rfl

/-! ## The scanner without its fuel -/

theorem scanAux_fuel : ∀ (n m : Nat) (s : Text), s.length ≤ n → s.length ≤ m →
    scanAux n s = scanAux m s
  | 0, m, s, hn, _ => by
    obtain rfl : s = [] := List.length_eq_zero_iff.1 (by omega)
    cases m <;> rfl
  | n + 1, 0, s, _, hm => by
    obtain rfl : s = [] := List.length_eq_zero_iff.1 (by omega)
    rfl
  | n + 1, m + 1, [], _, _ => rfl
  | n + 1, m + 1, c :: s, hn, hm => by
    have hs := (step_suffix c s).length_le
    simp only [List.length_cons] at hn hm
    simp only [scanAux]
    rw [scanAux_fuel n m _ (by omega) (by omega)]

@[simp] theorem scan_nil : scan [] = [] := rfl

theorem scan_cons (c : Char) (s : Text) : scan (c :: s) = (step c s).1 ++ scan (step c s).2 := by
  show scanAux (s.length + 1) (c :: s) = _
  rw [scanAux]
  congr 1
  exact scanAux_fuel _ _ _ (step_suffix c s).length_le (Nat.le_refl _)

@[simp] theorem lex_nil : lex [] = [] := rfl

/-! ## Quoted tokens -/

@[simp] theorem escape_nil (q : Char) : escape q [] = [] := rfl

theorem escape_cons (q c : Char) (v : Text) :
    escape q (c :: v) = (if c = q then [q, q] else [c]) ++ escape q v := by
  simp [escape]

/-- **Reading back a quoted token**: the scanner after the opening quote finds the value, and stops
at the closing quote, whatever follows it that is not the same quote. -/
theorem scanQuoted_escape {q : Char} {s : Text} (hs : s.head? ≠ some q) :
    ∀ v : Text, scanQuoted q (escape q v ++ q :: s) = some (v, s)
  | [] => by
    cases s with
    | nil => simp [scanQuoted]
    | cons d s =>
      have hd : d ≠ q := fun h => hs (by simp [h])
      simp [scanQuoted, hd]
  | c :: v => by
    have ih := scanQuoted_escape hs v
    rw [escape_cons]
    by_cases hc : c = q
    · simp only [hc, if_true, List.cons_append, List.nil_append, scanQuoted, ih, Option.map_some]
    · -- the text after `c` is not empty: it holds the closing quote
      obtain ⟨d, t, ht⟩ : ∃ d t, escape q v ++ q :: s = d :: t := by
        cases hv : escape q v with
        | nil => exact ⟨q, s, rfl⟩
        | cons d t => exact ⟨d, t ++ q :: s, rfl⟩
      rw [ht] at ih
      simp only [if_neg hc, List.cons_append, List.nil_append, ht, scanQuoted, ih, Option.map_some]

theorem scanString_escape {s : Text} (hs : s.head? ≠ some '\'') (hc : continuation .before s = none)
    (v : Text) (n : Nat) : scanString (n + 1) (escape '\'' v ++ '\'' :: s) = some (v, s) := by
  simp only [scanString, scanQuoted_escape hs v, hc]

/-- The token a quoted text stands for. -/
def quotedToken (q : Char) (v : Text) : Token := if q = '"' then .quotedIdent v else .string v

/-- **A quoted token is read back whole**: one token with its value, and the scan goes on after
it. -/
theorem scan_quote {q : Char} {s : Text} (hq : isQuote q = true) (hs : s.head? ≠ some q)
    (hc : q = '\'' → continuation .before s = none) (v : Text) :
    scan (quote q v ++ s) = quotedToken q v :: scan s := by
  have hstep : step q (escape q v ++ q :: s) = ([quotedToken q v], s) := by
    simp only [isQuote, Bool.or_eq_true, beq_iff_eq] at hq
    rcases hq with rfl | rfl
    · simp only [step, show isSpace '\'' = false by decide, Bool.false_eq_true, if_false, if_true,
        scanString_escape hs (hc rfl) v, closeToken]
      rfl
    · simp only [step, show isSpace '"' = false by decide, Bool.false_eq_true, if_false,
        show ('"' : Char) ≠ '\'' by decide, if_true, scanQuoted_escape hs v, closeToken]
      rfl
  rw [show quote q v ++ s = q :: (escape q v ++ q :: s) by simp [quote], scan_cons, hstep]
  rfl

/-! ## The other steps -/

theorem step_space {c : Char} (h : isSpace c = true) (s : Text) : step c s = ([], s) := by
  simp [step, h]

/-- A character of a class of its own: not white space, quote, identifier start, digit, point,
dollar or operator character. -/
def isPunct (c : Char) : Bool :=
  !isSpace c && !isQuote c && !isIdentCont c && !isOpChar c && c != '.'

theorem isPunct_iff {c : Char} : isPunct c = true ↔ isSpace c = false ∧ isQuote c = false ∧
    isIdentCont c = false ∧ isOpChar c = false ∧ c ≠ '.' := by
  simp [isPunct, and_assoc]

theorem isQuote_false {c : Char} (h : isQuote c = false) : c ≠ '\'' ∧ c ≠ '"' := by
  simpa [isQuote] using h

theorem isIdentCont_false {c : Char} (h : isIdentCont c = false) :
    isIdentStart c = false ∧ c.isDigit = false ∧ c ≠ '$' := by
  simpa [isIdentCont, and_assoc] using h

theorem step_punct {c : Char} (h : isPunct c = true) (s : Text) : step c s = ([.punct c], s) := by
  obtain ⟨h1, h2, h3, h4, h5⟩ := isPunct_iff.1 h
  obtain ⟨h6, h7⟩ := isQuote_false h2
  obtain ⟨h8, h9, h10⟩ := isIdentCont_false h3
  simp [step, h1, h6, h7, h8, h9, h5, h10, h4]

/-- The point, when no digit follows. -/
theorem step_point {s : Text} (h : Stops Char.isDigit s) : step '.' s = ([.punct '.'], s) := by
  have hd : s.head?.any Char.isDigit = false := by
    cases s with
    | nil => rfl
    | cons d s => simpa using stops_cons.1 h
  have e : isSpace '.' = false ∧ isIdentStart '.' = false ∧ Char.isDigit '.' = false ∧
      isOpChar '.' = false := by decide
  simp [step, e, hd]

/-- A word that no quote, and no `&` with a quote, follows. -/
theorem stepWord_plain {w r : Text} (h1 : Stops isQuote r)
    (h2 : ∀ r', r = '&' :: r' → Stops isQuote r') : stepWord w r = ([.word w], r) := by
  unfold stepWord
  split
  · exact absurd (stops_cons.1 h1) (by decide)
  · rename_i c q r'
    have hq : isQuote q = false := stops_cons.1 (h2 _ rfl)
    simp [hq]
  · rfl

theorem isIdentStart_cases {c : Char} (h : isIdentStart c = true) :
    isSpace c = false ∧ isQuote c = false := by
  simp only [isIdentStart, Bool.or_eq_true, beq_iff_eq, decide_eq_true_eq] at h
  have hlt : ∀ d : Char, isSpace d = true ∨ isQuote d = true → c ≠ d := by
    rintro d hd rfl
    simp only [isSpace, isQuote, Bool.or_eq_true, beq_iff_eq] at hd
    rcases hd with (((((rfl | rfl) | rfl) | rfl) | rfl) | rfl) | rfl | rfl <;> revert h <;> decide
  refine ⟨?_, ?_⟩
  · cases hs : isSpace c
    · rfl
    · exact absurd rfl (hlt c (.inl hs))
  · cases hq : isQuote c
    · rfl
    · exact absurd rfl (hlt c (.inr hq))

theorem step_word {c : Char} {s : Text} (hc : isIdentStart c = true)
    (h1 : Stops isQuote (s.dropWhile isIdentCont))
    (h2 : ∀ r', s.dropWhile isIdentCont = '&' :: r' → Stops isQuote r') :
    step c s = ([.word (c :: s.takeWhile isIdentCont)], s.dropWhile isIdentCont) := by
  obtain ⟨hsp, hq⟩ := isIdentStart_cases hc
  obtain ⟨hq1, hq2⟩ := isQuote_false hq
  simp [step, hsp, hq1, hq2, hc, stepWord_plain h1 h2]

end Pg
