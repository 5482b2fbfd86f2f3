import IronQuery.Pg.Proof.Lexemes
import IronQuery.Pg.Proof.Units

/-!
# Digits and points that no token holds

The tokens of a text hold no more digits and points than the text (`lex_ink`), and its lexemes no
more than its tokens (`units_ink`). `Loses x`: whatever follows `x`, the tokens hold fewer. A comment
loses its digits (`loses_comment`), and a number the point it takes (`loses_fraction`,
`loses_point`); a loss stays one in a larger text, as long as what stands in front is read whole
(`Loses.behind`).
-/

namespace Pg

/-! ## Counting -/

theorem ink_append (s t : Text) : ink (s ++ t) = ink s + ink t := List.countP_append

theorem ink_cons (c : Char) (s : Text) : ink (c :: s) = ink [c] + ink s := ink_append [c] s

@[simp] theorem ink_nil : ink [] = 0 := rfl

theorem ink_sublist {s t : Text} (h : s.Sublist t) : ink s ≤ ink t := h.countP_le

theorem ink_digit {c : Char} (h : c.isDigit = true) : ink [c] = 1 := by
  simp [ink, isInk, h]

/-- The digits and points of tokens. -/
def tokensInk (ts : List Token) : Nat := (ts.map Token.ink).sum

@[simp] theorem tokensInk_nil : tokensInk [] = 0 := rfl

@[simp] theorem tokensInk_cons (t : Token) (ts : List Token) :
    tokensInk (t :: ts) = t.ink + tokensInk ts := by simp [tokensInk]

@[simp] theorem tokensInk_append (ts us : List Token) :
    tokensInk (ts ++ us) = tokensInk ts + tokensInk us := by simp [tokensInk]

/-! ## One step of the scanner -/

theorem scanQuoted_sublist {q : Char} {s v r : Text} (h : scanQuoted q s = some (v, r)) :
    (v ++ r).Sublist s := by
  induction s using scanQuoted.induct q generalizing v r with
  | case1 => simp [scanQuoted] at h
  | case2 => simp [scanQuoted] at h; simp [h]
  | case3 c hc => simp [scanQuoted, hc] at h
  | case4 s ih =>
    simp only [scanQuoted, if_true, Option.map_eq_some_iff, Prod.mk.injEq] at h
    obtain ⟨p, hp, rfl, rfl⟩ := h
    exact ((ih hp).cons_cons q).cons q
  | case5 d s hd =>
    simp only [scanQuoted, if_true, if_neg hd, Option.some.injEq, Prod.mk.injEq] at h
    obtain ⟨rfl, rfl⟩ := h
    exact List.sublist_cons_self _ _
  | case6 c d s hc ih =>
    simp only [scanQuoted, if_neg hc, Option.map_eq_some_iff, Prod.mk.injEq] at h
    obtain ⟨p, hp, rfl, rfl⟩ := h
    exact (ih hp).cons_cons c

theorem scanString_sublist {n : Nat} {s v r : Text} (h : scanString n s = some (v, r)) :
    (v ++ r).Sublist s := by
  induction n generalizing s v r with
  | zero => simp [scanString] at h
  | succ n ih =>
    simp only [scanString] at h
    split at h
    · cases h
    · rename_i v' r' hq
      have hv := scanQuoted_sublist hq
      split at h
      · cases h; exact hv
      · rename_i r'' hc
        simp only [Option.map_eq_some_iff, Prod.mk.injEq] at h
        obtain ⟨p, hp, rfl, rfl⟩ := h
        rw [List.append_assoc]
        exact (((ih hp).trans (continuation_suffix hc).sublist).append_left v').trans hv

theorem scanFraction_eq (s : Text) : (scanFraction s).1 ++ (scanFraction s).2 = s := by
  unfold scanFraction
  split
  · split
    · rfl
    · simp
  · rfl

theorem scanExponent_eq (s : Text) : (scanExponent s).1 ++ (scanExponent s).2 = s := by
  unfold scanExponent
  split
  · split
    · split
      · split
        · simp
        · split
          · simp
          · rfl
      · rfl
    · rfl
  · rfl

theorem scanNumber_eq (s : Text) : (scanNumber s).1 ++ (scanNumber s).2 = s := by
  simp only [scanNumber, List.append_assoc, scanExponent_eq, scanFraction_eq,
    List.takeWhile_append_dropWhile]

theorem number_ink (n : Text) : (Token.number n).ink ≤ ink n :=
  List.countP_mono_left fun c _ h => by simp [isInk, h]

/-- The tokens read from `s` and the rest of it hold no more digits and points than `s`. -/
def Within (s : Text) (p : List Token × Text) : Prop := tokensInk p.1 + ink p.2 ≤ ink s

theorem within_close {t : Text → Token} {o : Option (Text × Text)} {s : Text}
    (ht : ∀ v, (t v).ink ≤ ink v) (h : ∀ v r, o = some (v, r) → (v ++ r).Sublist s) :
    Within s (closeToken t o) := by
  cases o with
  | none => exact Nat.zero_le _
  | some p =>
    have hs := ink_sublist (h p.1 p.2 rfl)
    rw [ink_append] at hs
    exact Nat.le_trans (Nat.add_le_add_right (ht p.1) _) hs

/-- A token whose own digits and points do not count. -/
theorem within_special {o : Text} {p : Option (Text × Text)} {s : Text}
    (h : ∀ v r, p = some (v, r) → r.Sublist s) : Within s (closeToken (.special o) p) := by
  cases p with
  | none => exact Nat.zero_le _
  | some p => exact Nat.le_trans (Nat.le_of_eq (Nat.zero_add _)) (ink_sublist (h p.1 p.2 rfl))

theorem Within.mono {s t : Text} {p : List Token × Text} (h : Within s p) (hs : s.Sublist t) :
    Within t p := Nat.le_trans h (ink_sublist hs)

theorem within_word (w r : Text) : Within (w ++ r) (stepWord w r) := by
  have hplain : Within (w ++ r) ([.word w], r) := Nat.le_of_eq (ink_append w r).symm
  have hr : r.Sublist (w ++ r) := List.sublist_append_right w r
  unfold stepWord
  split
  · split
    · exact within_special fun _ _ h =>
        ((scanEscaped_suffix h).sublist.trans (List.sublist_cons_self _ _)).trans hr
    · split
      · exact within_special fun _ _ h =>
          ((scanQuoted_suffix h).sublist.trans (List.sublist_cons_self _ _)).trans hr
      · exact hplain
  · split
    · exact within_special fun _ _ h => (((scanQuoted_suffix h).sublist.trans
        (List.sublist_cons_self _ _)).trans (List.sublist_cons_self _ _)).trans hr
    · exact hplain
  · exact hplain

theorem within_dollar (s : Text) : Within s (stepDollar s) := by
  unfold stepDollar
  split
  · have h := ink_append (s.takeWhile Char.isDigit) (s.dropWhile Char.isDigit)
    rw [List.takeWhile_append_dropWhile] at h
    exact Nat.le_of_eq h.symm
  · split
    · rename_i r hr
      have hs : r.Sublist s :=
        (List.sublist_cons_self _ _).trans (hr ▸ List.dropWhile_sublist isTagChar)
      exact within_special fun _ _ h => (scanDollar_suffix h).sublist.trans hs
    · exact Nat.le_of_eq (Nat.zero_add _)

/-- An operator and a comment hold no digit and no point. -/
theorem stepOp_ink (s : Text) : tokensInk (stepOp s).1 = 0 := by
  unfold stepOp
  split
  · rfl
  · split <;> rfl
  · rfl

/-- **A step reads no digit and no point that is not there.** -/
theorem within_step (c : Char) (s : Text) : Within (c :: s) (step c s) := by
  have hs : s.Sublist (c :: s) := List.sublist_cons_self _ _
  unfold step
  split
  · exact Nat.le_trans (Nat.le_of_eq (Nat.zero_add _)) (ink_sublist hs)
  split
  · exact (within_close (fun _ => Nat.le_refl _) fun _ _ h => scanString_sublist h).mono hs
  split
  · exact (within_close (fun _ => Nat.le_refl _) fun _ _ h => scanQuoted_sublist h).mono hs
  split
  · have h := within_word (c :: s.takeWhile isIdentCont) (s.dropWhile isIdentCont)
    rwa [List.cons_append, List.takeWhile_append_dropWhile] at h
  split
  · have h := congrArg ink (scanNumber_eq (c :: s))
    rw [ink_append] at h
    exact Nat.le_trans (Nat.add_le_add_right (number_ink _) _) (Nat.le_of_eq h)
  split
  · exact (within_dollar s).mono hs
  split
  · rename_i hc
    rw [Within, stepOp_ink, Nat.zero_add]
    exact ink_sublist ((stepOp_suffix s hc).sublist.trans hs)
  · exact Nat.le_of_eq (ink_cons c s).symm

/-! ## The tokens of a text -/

theorem scan_ink : (s : Text) → tokensInk (scan s) ≤ ink s
  | [] => Nat.le_refl _
  | c :: s => by
    have hlen := (step_suffix c s).length_le
    have ih := scan_ink (step c s).2
    rw [scan_cons, tokensInk_append]
    exact Nat.le_trans (Nat.add_le_add_left ih _) (within_step c s)
termination_by s => s.length
decreasing_by exact Nat.lt_succ_of_le hlen

theorem filter_ink (ts : List Token) : tokensInk (ts.filter (· ≠ .comment)) = tokensInk ts := by
  induction ts with
  | nil => rfl
  | cons t ts ih =>
    rw [List.filter_cons, tokensInk_cons]
    split
    · rw [tokensInk_cons, ih]
    · rename_i h
      obtain rfl : t = .comment := by simpa using h
      rw [ih]
      exact (Nat.zero_add _).symm

/-- **The tokens of a text hold no more digits and points than the text.** -/
theorem lex_ink (s : Text) : tokensInk (lex s) ≤ ink s := by
  rw [lex, filter_ink]
  exact scan_ink s

theorem lexeme_ink (t : Token) : t.lexeme.ink ≤ t.ink := by
  cases t
  case word w =>
    simp only [Token.lexeme]
    cases Key.ofWord w <;> exact Nat.le_refl _
  all_goals exact Nat.le_refl _

theorem unitsAux_ink (n : Nat) (callee : Bool) (ts : List Token) :
    measure Lexeme.ink (unitsAux n callee ts) ≤ tokensInk ts := by
  induction n generalizing callee ts with
  | zero => exact Nat.zero_le _
  | succ n ih =>
    cases ts with
    | nil => exact Nat.zero_le _
    | cons t ts =>
      have hopen : measure Lexeme.ink (.punct '(' :: unitsAux n false ts) ≤ tokensInk ts := by
        rw [measure_cons]
        exact Nat.le_trans (Nat.le_of_eq (Nat.zero_add _)) (ih false ts)
      rw [unitsAux, tokensInk_cons]
      split
      · refine Nat.le_trans ?_ (Nat.le_add_left _ _)
        cases h : upTo 0 ts with
        | none => exact hopen
        | some p =>
          obtain ⟨inner, rest⟩ := p
          dsimp only
          split
          · rw [measure_cons, upTo_eq h, tokensInk_append, tokensInk_cons]
            exact Nat.add_le_add_left (Nat.le_trans (ih false rest) (Nat.le_add_left _ _)) _
          · exact hopen
      · rw [measure_cons]
        exact Nat.add_le_add (lexeme_ink t) (ih _ ts)

/-- The lexemes of tokens hold no more than the tokens, however the brackets are grouped. -/
theorem units_ink (ts : List Token) : measure Lexeme.ink (units ts) ≤ tokensInk ts :=
  unitsAux_ink _ _ ts

/-! ## Losses -/

/-- Whatever follows `x`, not every digit and point of the text is in a token. -/
def Loses (x : Text) : Prop := ∀ r, tokensInk (lex (x ++ r)) < ink (x ++ r)

theorem lex_loses {c : Char} {s : Text}
    (h : tokensInk (step c s).1 + ink (step c s).2 < ink (c :: s)) :
    tokensInk (lex (c :: s)) < ink (c :: s) := by
  rw [lex, filter_ink, scan_cons, tokensInk_append]
  exact Nat.lt_of_le_of_lt (Nat.add_le_add_left (scan_ink _) _) h

/-- A number takes its point for its own. -/
theorem number_loses {n : Text} (h : '.' ∈ n) : (Token.number n).ink < ink n := by
  obtain ⟨a, b, rfl⟩ := List.append_of_mem h
  have ha := number_ink a
  have hb := number_ink b
  simp only [Token.ink] at ha hb ⊢
  rw [List.countP_append, List.countP_cons, ink_append, ink_cons '.' b]
  have hpoint : ink ['.'] = 1 := by decide
  have hdigit : Char.isDigit '.' = false := by decide
  simp only [hpoint, hdigit, Bool.false_eq_true, if_false]
  omega

theorem step_number {c : Char} (h : c.isDigit = true ∨ c = '.') (s : Text)
    (hp : c = '.' → s.head?.any Char.isDigit = true) :
    step c s = ([.number (scanNumber (c :: s)).1], (scanNumber (c :: s)).2) := by
  have hc : isSpace c = false ∧ isIdentStart c = false ∧ c ≠ '\'' ∧ c ≠ '"' := by
    rcases h with h | rfl
    · have hq := isQuote_false (isDigit_not_quote c h)
      exact ⟨isDigit_not_space h, isDigit_not_start h, hq.1, hq.2⟩
    · decide
  have hd : c.isDigit = true ∨ (c = '.' ∧ s.head?.any Char.isDigit = true) :=
    h.imp_right fun e => ⟨e, hp e⟩
  simp only [step, hc.1, hc.2.1, hc.2.2.1, hc.2.2.2, Bool.false_eq_true, if_false, if_pos hd]

theorem lex_number_loses {c : Char} (h : c.isDigit = true ∨ c = '.') {s : Text}
    (hp : c = '.' → s.head?.any Char.isDigit = true) (hn : '.' ∈ (scanNumber (c :: s)).1) :
    tokensInk (lex (c :: s)) < ink (c :: s) := by
  refine lex_loses ?_
  have heq := congrArg ink (scanNumber_eq (c :: s))
  rw [ink_append] at heq
  rw [step_number h s hp, tokensInk_cons, tokensInk_nil, Nat.add_zero, ← heq]
  exact Nat.add_lt_add_right (number_loses hn) _

/-- The digit behind two minus signs is in a comment. -/
theorem loses_comment {d : Char} (hd : d.isDigit = true) (x : Text) :
    Loses ('-' :: '-' :: d :: x) := fun r => by
  refine lex_loses (c := '-') (s := '-' :: d :: (x ++ r)) ?_
  have hstep : step '-' ('-' :: d :: (x ++ r)) =
      ([.comment], (d :: (x ++ r)).dropWhile fun c => !isNewline c) := by
    simp [step, stepOp, isSpace, isIdentStart, isOpChar, Char.isAlpha, Char.isUpper, Char.isLower]
  have hnl : isNewline d = false := by
    cases h : isNewline d
    · rfl
    · simp only [isNewline, Bool.or_eq_true, beq_iff_eq] at h
      rcases h with rfl | rfl <;> cases hd
  rw [hstep, List.dropWhile_cons_of_pos (by simp [hnl])]
  have hrest := ink_sublist (List.dropWhile_sublist (fun c => !isNewline c) (l := x ++ r))
  have hink : ink ('-' :: '-' :: d :: (x ++ r)) = 1 + ink (x ++ r) := by
    rw [ink_cons _ ('-' :: _), ink_cons _ (d :: _), ink_cons d, ink_digit hd]
    exact (Nat.zero_add _).trans (Nat.zero_add _)
  rw [hink]
  simp only [tokensInk_cons, tokensInk_nil, Token.ink]
  omega

/-- The point behind a number is the number's. -/
theorem loses_fraction {n x : Text} (hne : n ≠ []) (hn : n.all Char.isDigit = true) (hx : x ≠ [])
    (hp : x.head? ≠ some '.') : Loses (n ++ '.' :: x) := fun r => by
  obtain ⟨d, s, rfl⟩ := List.exists_cons_of_ne_nil hne
  have hd : d.isDigit = true := by
    simp only [List.all_cons, Bool.and_eq_true] at hn
    exact hn.1
  obtain ⟨c, x, rfl⟩ := List.exists_cons_of_ne_nil hx
  have hdig : Stops Char.isDigit ('.' :: c :: (x ++ r)) := stops_cons.2 (by decide)
  have htake : (d :: s ++ '.' :: c :: (x ++ r)).takeWhile Char.isDigit = d :: s := by
    rw [takeWhile_stops hdig, (takeWhile_all hn).1]
  have hdrop : (d :: s ++ '.' :: c :: (x ++ r)).dropWhile Char.isDigit = '.' :: c :: (x ++ r) := by
    rw [dropWhile_stops hdig, (takeWhile_all hn).2, List.nil_append]
  have hnumber : '.' ∈ (scanNumber (d :: s ++ '.' :: c :: (x ++ r))).1 := by
    have hhead : (c :: (x ++ r)).head? ≠ some '.' := hp
    rw [scanNumber, htake, hdrop, scanFraction, if_neg hhead]
    simp
  rw [List.append_assoc]
  exact lex_number_loses (c := d) (s := s ++ '.' :: c :: (x ++ r)) (.inl hd)
    (fun e => by rw [e] at hd; cases hd) hnumber

/-- A point right in front of a digit is a number's. -/
theorem loses_point {d : Char} (hd : d.isDigit = true) (x : Text) : Loses ('.' :: d :: x) :=
  fun r => by
  refine lex_number_loses (c := '.') (s := d :: (x ++ r)) (.inr rfl) (fun _ => hd) ?_
  have hne : (d :: (x ++ r)).head? ≠ some '.' := by
    rintro he
    rw [Option.some.inj he] at hd
    cases hd
  rw [scanNumber, List.takeWhile_cons_of_neg (by decide), List.dropWhile_cons_of_neg (by decide),
    scanFraction, if_neg hne]
  simp

/-! ## A loss in a larger text -/

theorem Loses.append {x : Text} (h : Loses x) (y : Text) : Loses (x ++ y) := fun r => by
  rw [List.append_assoc]
  exact h (y ++ r)

/-- The tokens of what is read whole hold no more than its text. -/
theorem loses_behind {p x : Text} {t : List Token} (hp : lex p = t)
    (h : ∀ r, lex (p ++ (x ++ r)) = t ++ lex (x ++ r)) (hx : Loses x) : Loses (p ++ x) := fun r => by
  have hlex := lex_ink p
  rw [List.append_assoc, h r, tokensInk_append, ink_append, ← hp]
  exact Nat.add_lt_add_of_le_of_lt hlex (hx r)

section
variable {p x y : Text} {ts us : List Token}

theorem Loses.opens (hp : Opens lex p ts) (hx : Loses x) : Loses (p ++ x) :=
  loses_behind (hp.seals.reads.view_eq lex_nil) (fun r => hp (x ++ r)) hx

/-- What is read whole, a fragment, and then a loss. -/
theorem Loses.behind (hp : Reads lex p ts) (hl : leads y = true) (hy : Opens lex y us)
    (hx : Loses x) : Loses (p ++ (y ++ x)) := by
  rw [← List.append_assoc]
  exact hx.opens (hp.opens hl hy)

/-- What is read whole, and then a loss that may follow it. -/
theorem Loses.after (hp : Reads lex p ts) (hl : leads x = true) (hx : Loses x) : Loses (p ++ x) :=
  loses_behind (hp.view_eq lex_nil)
    (fun r => hp _ (stop_of_leads hl r).1 (stop_of_leads hl r).2) hx

/-- A loss that starts at a point. -/
theorem Loses.seals (hp : Seals lex p ts) (hx : Loses ('.' :: x)) : Loses (p ++ '.' :: x) :=
  loses_behind (hp.reads.view_eq lex_nil) (fun _ => hp _ (stop_point _)) hx

/-- A loss right behind a point. -/
theorem Loses.point (hne : x ≠ []) (hd : Stops Char.isDigit x) (hx : Loses x) :
    Loses ('.' :: x) := by
  refine loses_behind (p := ['.']) (t := [.punct '.']) (by decide) (fun r => ?_) hx
  have hstop : Stops Char.isDigit (x ++ r) := by
    obtain ⟨c, x, rfl⟩ := List.exists_cons_of_ne_nil hne
    exact hd
  exact lex_point hstop

/-- A loss right behind a sign. -/
theorem Loses.minus (hne : x ≠ []) (ho : Stops isOpChar x) (hx : Loses x) : Loses ('-' :: x) := by
  refine loses_behind (p := ['-']) (t := [.op ['-']]) (by decide) (fun r => ?_) hx
  have hstop : Stops isOpChar (x ++ r) := by
    obtain ⟨c, x, rfl⟩ := List.exists_cons_of_ne_nil hne
    exact ho
  have hs : scan (['-'] ++ (x ++ r)) = [.op ['-']] ++ scan (x ++ r) := scan_sign hstop
  exact lex_of_scan hs

end

end Pg
