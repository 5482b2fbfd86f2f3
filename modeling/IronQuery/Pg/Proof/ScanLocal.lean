import IronQuery.Pg.Proof.ScanStep
import Mathlib.Data.List.Basic

/-!
# Neat texts and the locality of the scanner

`Neat w s`: `s` is a sequence of quoted tokens and of characters outside them in which no two
neighbours open a comment or prefix a string, in which no string constant can go on after its
closing quote, and in which a `$` is a part of a word or of a parameter. That depends on what `s`
stands behind, a word or a number (the `Stem` `w`). `scan_append`: the scanner cuts a neat text off
whatever follows it (`Ends`): `scan (s ++ r) = scan s ++ scan r`.
-/

namespace Pg

/-! ## Neighbours -/

/-- A character that may belong to the prefix of a string. -/
def isWordy (c : Char) : Bool := isIdentCont c || c == '&'

/-- `c` and `d` may stand next to each other outside quotes. -/
def adj (c d : Char) : Bool :=
  !(c == '-' && d == '-') && !(c == '/' && d == '*') && !(isWordy c && isQuote d)

/-- What a text ends in, as far as a `$` behind it is concerned: `a$b` is one word, and in `1$a$`
the `$a$` opens a string. -/
inductive Stem
  | none
  /-- In an identifier: a `$` is a part of it. -/
  | ident
  | number
  /-- Behind a number and its point. -/
  | point
  /-- Behind a number and an `e`, which starts its exponent or a word. -/
  | exponent
  deriving DecidableEq, Repr

/-- A `$` goes on with a word. -/
def Stem.word : Stem → Bool
  | ident | exponent => true
  | _ => false

def Stem.next (c : Char) (w : Stem) : Stem :=
  if c = '.' then if w = .number then .point else .none
  else if isIdentStart c then
    if (c = 'e' ∨ c = 'E') ∧ (w = .number ∨ w = .point) then .exponent else .ident
  else if isIdentCont c then
    if w = .ident ∨ (w = .exponent ∧ c.isDigit = false) then .ident else .number
  else .none

/-- What may stand behind `w` may stand behind `w'`. -/
def Stem.le (w w' : Stem) : Prop :=
  w = w' ∨ w' = .ident ∨ (w' = .none ∧ (w = .number ∨ w = .point))

/-- What may stand after a string constant: nothing, or a text whose first character that is not
white space is not a quote. -/
def after (s : Text) : Bool :=
  s.isEmpty || (s.dropWhile isSpace).head?.any fun c => !isQuote c

/-- What may stand after a token quoted by `q`. -/
def follows (q : Char) (s : Text) : Bool :=
  if q = '"' then !s.head?.any isQuote else after s

/-- `s` is neat behind a text that ends in `w`. -/
inductive Neat : Stem → Text → Prop
  | nil {w : Stem} : Neat w []
  | cons {w : Stem} {c : Char} {s : Text} : isQuote c = false →
      (∀ d, s.head? = some d → adj c d = true) →
      (c = '$' → w.word = true ∨ s.head?.any Char.isDigit = true) → Neat (w.next c) s →
      Neat w (c :: s)
  | quoted {w : Stem} {q : Char} {v s : Text} : isQuote q = true → follows q s = true →
      Neat .none s → Neat w (quote q v ++ s)

/-- `r` may follow `s`: it starts with a character that no token of `s` can take in. -/
structure Ends (s r : Text) : Prop where
  op : Stops isOpChar r
  ident : Stops isIdentCont r
  point : r.head? ≠ some '.'
  wordy : ∀ c, s.getLast? = some c → isWordy c = true → Stops isQuote r
  quote : ∀ c, s.getLast? = some c → isQuote c = true →
    Stops isQuote r ∧ continuation .before r = none

theorem adj_dash {d : Char} (h : adj '-' d = true) : d ≠ '-' := by
  rintro rfl; revert h; decide

theorem adj_slash {d : Char} (h : adj '/' d = true) : d ≠ '*' := by
  rintro rfl; revert h; decide

theorem adj_wordy {c d : Char} (h : adj c d = true) (hc : isWordy c = true) :
    isQuote d = false := by
  simp only [adj, hc, Bool.true_and, Bool.and_eq_true, Bool.not_eq_true'] at h
  exact h.2

theorem isWordy_of_ident {c : Char} (h : isIdentCont c = true) : isWordy c = true := by
  simp [isWordy, h]

theorem isIdentStart_cont {c : Char} (h : isIdentStart c = true) : isIdentCont c = true := by
  simp [isIdentCont, h]

theorem isDigit_cont {c : Char} (h : c.isDigit = true) : isIdentCont c = true := by
  simp [isIdentCont, h]

theorem isDigit_not_start {d : Char} (h : d.isDigit = true) : isIdentStart d = false := by
  rw [Char.isDigit_iff_toNat] at h
  have h1 : d.val.toNat ≤ 57 := h.2
  have h2 : d ≠ '_' := by rintro rfl; revert h1; decide
  have h3 : d.isAlpha = false := by
    have hA : ¬ 'A'.val.toNat ≤ d.val.toNat := fun h => absurd (Nat.le_trans h h1) (by decide)
    have ha : ¬ 'a'.val.toNat ≤ d.val.toNat := fun h => absurd (Nat.le_trans h h1) (by decide)
    simp only [Char.isAlpha, Char.isUpper, Char.isLower, ge_iff_le, UInt32.le_iff_toNat_le, hA, ha,
      decide_false, Bool.false_and, Bool.or_self, false_and]
  have h4 : ¬ 128 ≤ d.toNat := fun h => absurd (Nat.le_trans h h1) (by decide)
  simp [isIdentStart, h2, h3, h4]

theorem isSpace_not_cont {c : Char} (h : isSpace c = true) : isIdentCont c = false := by
  simp only [isSpace, Bool.or_eq_true, beq_iff_eq] at h
  rcases h with ((((rfl | rfl) | rfl) | rfl) | rfl) | rfl <;> decide

theorem isOpChar_not_cont {c : Char} (h : isOpChar c = true) : isIdentCont c = false := by
  revert h
  simp only [isOpChar, List.contains_iff_mem]
  intro h
  fin_cases h <;> decide

theorem stops_dropWhile (p : Char → Bool) (s : Text) : Stops p (s.dropWhile p) := by
  intro c hc
  have := List.head?_dropWhile_not p s
  rw [hc] at this
  exact this

/-! ## Words and numbers -/

theorem Stem.next_le {w w' : Stem} (h : w.le w') (c : Char) : (w.next c).le (w'.next c) := by
  unfold Stem.next
  split
  · revert h
    cases w <;> cases w' <;> simp [Stem.le]
  split
  · rcases h with rfl | rfl | ⟨rfl, -⟩
    · exact .inl rfl
    all_goals exact .inr (.inl (by simp))
  split
  · revert h
    cases hd : c.isDigit <;> cases w <;> cases w' <;> simp [Stem.le]
  · exact .inl rfl

theorem Stem.word_le {w w' : Stem} (h : w.le w') (hw : w.word = true) : w'.word = true := by
  revert h hw
  cases w <;> cases w' <;> simp [Stem.le, Stem.word]

/-- Behind an identifier there are no more conditions than behind any other character. -/
theorem Neat.mono {w w' : Stem} {s : Text} (h : Neat w s) (hw : w.le w') : Neat w' s := by
  induction h generalizing w' with
  | nil => exact .nil
  | cons hc ha hd _ ih =>
    exact .cons hc ha (fun e => (hd e).imp_left (Stem.word_le hw)) (ih (Stem.next_le hw _))
  | quoted hq hf hs => exact .quoted hq hf hs

theorem not_isIdentStart {c : Char} (h : isIdentCont c = false) : isIdentStart c = false := by
  cases hs : isIdentStart c
  · rfl
  · rw [isIdentStart_cont hs] at h; cases h

theorem Stem.none_other {c : Char} (h : isIdentCont c = false) : Stem.next c .none = .none := by
  simp [Stem.next, not_isIdentStart h, h]

theorem Stem.ident_cont {c : Char} (h : isIdentCont c = true) : Stem.next c .ident = .ident := by
  have hdot : c ≠ '.' := by rintro rfl; revert h; decide
  simp [Stem.next, hdot, h]

theorem Stem.next_other {c : Char} (h : isIdentCont c = false) (w : Stem) :
    w.next c = .none ∨ w.next c = .point := by
  unfold Stem.next
  rw [not_isIdentStart h, h]
  split
  · split
    · exact .inr rfl
    · exact .inl rfl
  · exact .inl rfl

/-- A token does not go on with a text that starts with no character of a word. -/
theorem Neat.fresh {w : Stem} {s : Text} (h : Neat w s) (hs : Stops isIdentCont s) :
    Neat .none s := by
  cases h with
  | nil => exact .nil
  | @cons _ c s hc ha hd h =>
    have hcont := stops_cons.1 hs
    refine .cons hc ha (fun e => ?_) ?_
    · rw [e] at hcont
      exact absurd hcont (by decide)
    · rw [Stem.none_other hcont]
      exact h.mono ((Stem.next_other hcont w).imp_right fun he => .inr ⟨rfl, .inr he⟩)
  | quoted hq hf h => exact .quoted hq hf h

/-! ## Inverting neatness -/

theorem Neat.of_cons {w : Stem} {c : Char} {s : Text} (h : Neat w (c :: s))
    (hc : isQuote c = false) :
    Neat (w.next c) s ∧ (∀ d, s.head? = some d → adj c d = true) ∧
      (c = '$' → w.word = true ∨ s.head?.any Char.isDigit = true) := by
  generalize ht : c :: s = t at h
  cases h with
  | nil => cases ht
  | cons hc' ha hd hs => cases ht; exact ⟨hs, ha, hd⟩
  | @quoted _ q v s' hq _ _ =>
    simp only [Pg.quote, List.cons_append, List.cons.injEq] at ht
    rw [ht.1, hq] at hc
    cases hc

theorem Neat.drop {s p : Text} {w : Stem} (h : Neat w (p ++ s)) (hp : ∀ d ∈ p, isQuote d = false) :
    Neat (p.foldl (fun w c => w.next c) w) s := by
  induction p generalizing w with
  | nil => exact h
  | cons c p ih =>
    exact ih (h.of_cons (hp c (.head _))).1 fun d hd => hp d (.tail _ hd)

/-- Behind characters that all leave `w` as it is. -/
theorem Neat.drop_same {w : Stem} {p : Char → Bool} (hw : ∀ c, p c = true → w.next c = w)
    (hq : ∀ c, p c = true → isQuote c = false) {u s : Text} (h : Neat w (u ++ s))
    (hu : ∀ c ∈ u, p c = true) : Neat w s := by
  have hfold : u.foldl (fun w c => Stem.next c w) w = w := by
    clear h
    induction u with
    | nil => rfl
    | cons c u ih =>
      rw [List.foldl_cons, hw c (hu c (.head _))]
      exact ih fun d hd => hu d (.tail _ hd)
  have := h.drop fun c hc => hq c (hu c hc)
  rwa [hfold] at this

theorem Neat.dropWhile_same {w : Stem} {p : Char → Bool} (hw : ∀ c, p c = true → w.next c = w)
    (hq : ∀ c, p c = true → isQuote c = false) {s : Text} (h : Neat w s) :
    Neat w (s.dropWhile p) := by
  rw [← List.takeWhile_append_dropWhile (p := p) (l := s)] at h
  exact h.drop_same hw hq fun c hc => List.mem_takeWhile_imp hc

/-- A run of identifier characters in a neat text does not end at a quote. -/
theorem Neat.run_stops {w : Stem} {c : Char} {s : Text} (h : Neat w (c :: s))
    (hq : isQuote c = false) (hc : isWordy c = true) :
    Stops isQuote (s.dropWhile isIdentCont) := by
  induction s generalizing w c with
  | nil => exact Stops.nil _
  | cons d s ih =>
    obtain ⟨hs, ha, -⟩ := h.of_cons hq
    have hd := adj_wordy (ha d rfl) hc
    cases hi : isIdentCont d
    · simpa [hi, stops_cons] using hd
    · simpa [hi] using ih hs hd (isWordy_of_ident hi)

/-! ## A step inside a neat text -/

theorem scanFraction_other {s : Text} (h : s.head? ≠ some '.') : scanFraction s = ([], s) := by
  unfold scanFraction
  split
  · exact absurd rfl h
  · rfl

theorem scanFraction_local {r : Text} (hr : Stops isIdentCont r) (hp : r.head? ≠ some '.')
    (s : Text) : scanFraction (s ++ r) = ((scanFraction s).1, (scanFraction s).2 ++ r) := by
  have hdig : Stops Char.isDigit r := hr.mono fun _ => isDigit_cont
  cases s with
  | nil => exact scanFraction_other hp
  | cons c s =>
    by_cases hc : c = '.'
    · subst hc
      have hh : (s ++ r).head? = some '.' ↔ s.head? = some '.' := by
        cases s with
        | nil => simpa using hp
        | cons d s => simp
      simp only [List.cons_append, scanFraction, hh]
      split
      · rfl
      · rw [takeWhile_stops hdig, dropWhile_stops hdig]
    · rw [scanFraction_other (s := c :: s) (by simpa using hc),
        scanFraction_other (by simpa using hc)]

theorem scanExponent_other {s : Text} (h : ∀ c, s.head? = some c → c ≠ 'e' ∧ c ≠ 'E') :
    scanExponent s = ([], s) := by
  cases s with
  | nil => rfl
  | cons c s =>
    obtain ⟨h1, h2⟩ := h c rfl
    simp [scanExponent, h1, h2]

theorem scanExponent_local {r : Text} (hr : Stops isIdentCont r) (ho : Stops isOpChar r)
    (s : Text) : scanExponent (s ++ r) = ((scanExponent s).1, (scanExponent s).2 ++ r) := by
  have hdig : Stops Char.isDigit r := hr.mono fun _ => isDigit_cont
  have hsign : Stops isSign r := ho.mono fun c hc => by
    simp only [isSign, Bool.or_eq_true, beq_iff_eq] at hc
    rcases hc with rfl | rfl <;> decide
  have he : ∀ c, r.head? = some c → c ≠ 'e' ∧ c ≠ 'E' := fun c hc => by
    have := hr c hc
    constructor <;> (rintro rfl; revert this; decide)
  cases s with
  | nil => exact scanExponent_other he
  | cons e s =>
    by_cases hee : e = 'e' ∨ e = 'E'
    · cases s with
      | nil =>
        cases r with
        | nil => rw [List.append_nil, List.append_nil]
        | cons d r =>
          have h1 : d.isDigit = false := stops_cons.1 hdig
          have h2 : isSign d = false := stops_cons.1 hsign
          simp [scanExponent, hee, h1, h2]
      | cons d s =>
        have hany : ((s ++ r).head?.any Char.isDigit) = (s.head?.any Char.isDigit) := by
          cases s with
          | cons => rfl
          | nil =>
            cases r with
            | nil => rfl
            | cons c r => simpa using stops_cons.1 hdig
        have htk := takeWhile_stops hdig (d :: s)
        have hdr := dropWhile_stops hdig (d :: s)
        simp only [List.cons_append] at htk hdr
        simp only [List.cons_append, scanExponent, if_pos hee, hany]
        split
        · rw [htk, hdr]
        · split
          · rw [takeWhile_stops hdig, dropWhile_stops hdig]
          · rfl
    · rw [scanExponent_other (s := e :: s) (by simpa using hee),
        scanExponent_other (by simpa using hee)]

theorem scanNumber_local {r : Text} (hr : Stops isIdentCont r) (ho : Stops isOpChar r)
    (hp : r.head? ≠ some '.') (s : Text) :
    scanNumber (s ++ r) = ((scanNumber s).1, (scanNumber s).2 ++ r) := by
  have hdig : Stops Char.isDigit r := hr.mono fun _ => isDigit_cont
  simp only [scanNumber, takeWhile_stops hdig, dropWhile_stops hdig, scanFraction_local hr hp,
    scanExponent_local hr ho]

theorem opToken_local {r : Text} (ho : Stops isOpChar r) (s : Text) :
    opToken (s ++ r) = opToken s := by
  rw [opToken, opToken, takeWhile_stops ho]

/-- A token takes its text off the front of `s`: what it takes holds no quote. -/
def Takes (s s' : Text) : Prop := ∃ p, s = p ++ s' ∧ ∀ d ∈ p, isQuote d = false

theorem Takes.refl (s : Text) : Takes s s := ⟨[], rfl, by simp⟩

theorem Takes.trans {s t u : Text} (h1 : Takes s t) (h2 : Takes t u) : Takes s u := by
  obtain ⟨p, rfl, hp⟩ := h1
  obtain ⟨p', rfl, hp'⟩ := h2
  exact ⟨p ++ p', by simp, fun d hd => (List.mem_append.1 hd).elim (hp d) (hp' d)⟩

theorem takes_cons {c : Char} (s : Text) (h : isQuote c = false) : Takes (c :: s) s :=
  ⟨[c], rfl, by simpa using h⟩

theorem takes_dropWhile {p : Char → Bool} (hp : ∀ c, p c = true → isQuote c = false) (s : Text) :
    Takes s (s.dropWhile p) :=
  ⟨s.takeWhile p, List.takeWhile_append_dropWhile.symm, fun d hd =>
    hp d (List.mem_takeWhile_imp hd)⟩

theorem isDigit_not_quote (c : Char) (h : c.isDigit = true) : isQuote c = false := by
  cases hq : isQuote c
  · rfl
  · simp only [isQuote, Bool.or_eq_true, beq_iff_eq] at hq
    rcases hq with rfl | rfl <;> revert h <;> decide

theorem isIdentCont_not_quote (c : Char) (h : isIdentCont c = true) : isQuote c = false := by
  cases hq : isQuote c
  · rfl
  · simp only [isQuote, Bool.or_eq_true, beq_iff_eq] at hq
    rcases hq with rfl | rfl <;> revert h <;> decide

theorem isOpChar_not_quote (c : Char) (h : isOpChar c = true) : isQuote c = false := by
  cases hq : isQuote c
  · rfl
  · simp only [isQuote, Bool.or_eq_true, beq_iff_eq] at hq
    rcases hq with rfl | rfl <;> revert h <;> decide

theorem scanFraction_takes (s : Text) : Takes s (scanFraction s).2 := by
  by_cases h : s.head? = some '.'
  · cases s with
    | nil => cases h
    | cons c s =>
      simp only [List.head?_cons, Option.some.injEq] at h
      subst h
      rw [scanFraction]
      split
      · exact .refl _
      · exact (takes_cons s (by decide)).trans (takes_dropWhile isDigit_not_quote s)
  · rw [scanFraction_other h]; exact .refl s

theorem scanExponent_takes (s : Text) : Takes s (scanExponent s).2 := by
  unfold scanExponent
  split
  · rename_i e s
    split
    · rename_i he
      have hq : isQuote e = false := by rcases he with rfl | rfl <;> decide
      split
      · rename_i d s'
        split
        · exact (takes_cons _ hq).trans (takes_dropWhile isDigit_not_quote _)
        · split
          · rename_i hd
            have hqd : isQuote d = false := by
              have := hd.1
              simp only [isSign, Bool.or_eq_true, beq_iff_eq] at this
              rcases this with rfl | rfl <;> decide
            exact ((takes_cons _ hq).trans (takes_cons _ hqd)).trans
              (takes_dropWhile isDigit_not_quote _)
          · exact .refl _
      · exact .refl _
    · exact .refl _
  · exact .refl _

theorem scanNumber_takes {c : Char} {s : Text}
    (h : c.isDigit = true ∨ (c = '.' ∧ s.head?.any Char.isDigit = true)) :
    Takes s (scanNumber (c :: s)).2 := by
  refine Takes.trans ?_ (scanExponent_takes _)
  by_cases hc : c.isDigit = true
  · rw [List.dropWhile_cons_of_pos hc]
    exact (takes_dropWhile isDigit_not_quote s).trans (scanFraction_takes _)
  · obtain ⟨rfl, hs⟩ := h.resolve_left hc
    have hdot : s.head? ≠ some '.' := by
      intro he
      rw [he] at hs
      cases hs
    rw [List.dropWhile_cons_of_neg (by decide), scanFraction, if_neg hdot]
    exact takes_dropWhile isDigit_not_quote s

theorem opToken_length_le (s : Text) : (opToken s).length ≤ (s.takeWhile isOpChar).length := by
  have hcut : ∀ t : Text, (cutComment t).length ≤ t.length := by
    intro t
    induction t using cutComment.induct with
    | case1 => simp [cutComment]
    | case2 => simp [cutComment]
    | case3 c s h1 h2 ih =>
      rw [cutComment]
      · simpa using ih
      · exact h1
      · exact h2
    | case4 => simp [cutComment]
  have hdrop : ∀ t : Text, (dropSigns t).length ≤ t.length := by
    intro t
    induction t using dropSigns.induct with
    | case1 c d s hs ih =>
      rw [dropSigns, if_pos hs]
      exact Nat.le_succ_of_le ih
    | case2 c d s hs => rw [dropSigns, if_neg hs]
    | case3 s hs => rw [dropSigns]; exact hs
  unfold opToken trimSigns
  split
  · exact hcut _
  · rw [List.length_reverse]
    exact Nat.le_trans (hdrop _) (by simpa using hcut _)

theorem mem_take_takeWhile {p : Char → Bool} {s : Text} {n : Nat} {d : Char}
    (h : n ≤ (s.takeWhile p).length) (hd : d ∈ s.take n) : p d = true := by
  have : s.take n = (s.takeWhile p).take n := by
    conv => lhs; rw [← List.takeWhile_append_dropWhile (p := p) (l := s)]
    rw [List.take_append_of_le_length h]
  rw [this] at hd
  exact List.mem_takeWhile_imp (List.mem_of_mem_take hd)

theorem drop_takes {p : Char → Bool} (hp : ∀ c, p c = true → isQuote c = false) {s : Text} {n : Nat}
    (h : n ≤ (s.takeWhile p).length) : Takes s (s.drop n) :=
  ⟨s.take n, (List.take_append_drop n s).symm, fun d hd => hp d (mem_take_takeWhile h hd)⟩

/-! ### What a number leaves is neat -/

theorem Stem.next_digit {w : Stem} {c : Char} (h : c.isDigit = true) (hw : w ≠ .ident) :
    w.next c = .number := by
  have hdot : c ≠ '.' := by rintro rfl; revert h; decide
  simp [Stem.next, h, hdot, isDigit_not_start h, isDigit_cont h, hw]

/-- A number may end behind `w`. -/
def Stem.numeric (w : Stem) : Prop := w = .number ∨ w = .point

theorem Stem.numeric.le_none {w : Stem} (h : w.numeric) : w.le .none := .inr (.inr ⟨rfl, h⟩)

theorem Neat.digits {w : Stem} {d : Char} {s : Text} (h : Neat w (d :: s))
    (hd : d.isDigit = true) (hw : w ≠ .ident) :
    Neat .number ((d :: s).dropWhile Char.isDigit) := by
  have hs := (h.of_cons (isDigit_not_quote d hd)).1
  rw [Stem.next_digit hd hw] at hs
  rw [List.dropWhile_cons_of_pos hd]
  exact hs.dropWhile_same (fun c hc => Stem.next_digit hc (by decide)) isDigit_not_quote

theorem Neat.dropDigits {w : Stem} {s : Text} (h : Neat w s) (hw : w.numeric) :
    ∃ w', w'.numeric ∧ Neat w' (s.dropWhile Char.isDigit) := by
  cases s with
  | nil => exact ⟨w, hw, h⟩
  | cons d s =>
    cases hd : d.isDigit
    · exact ⟨w, hw, by rwa [List.dropWhile_cons_of_neg (by simp [hd])]⟩
    · exact ⟨.number, .inl rfl, h.digits hd (by rcases hw with rfl | rfl <;> decide)⟩

theorem Neat.fraction {s : Text} (h : Neat .number s) :
    ∃ w, w.numeric ∧ Neat w (scanFraction s).2 := by
  unfold scanFraction
  split
  · split
    · exact ⟨_, .inl rfl, h⟩
    · exact (h.of_cons (by decide)).1.dropDigits (.inr rfl)
  · exact ⟨_, .inl rfl, h⟩

theorem Neat.exponent {w : Stem} {s : Text} (h : Neat w s) (hw : w.numeric) :
    ∃ w', w'.numeric ∧ Neat w' (scanExponent s).2 := by
  unfold scanExponent
  split
  · rename_i e s
    split
    · rename_i he
      have hq : isQuote e = false := by rcases he with rfl | rfl <;> decide
      have hs := (h.of_cons hq).1
      have hnext : w.next e = .exponent := by
        rcases he with rfl | rfl <;> rcases hw with rfl | rfl <;> decide
      rw [hnext] at hs
      split
      · rename_i d s'
        split
        · rename_i hd
          exact ⟨_, .inl rfl, hs.digits hd (by decide)⟩
        · split
          · rename_i hd
            obtain ⟨x, s', rfl⟩ : ∃ x t, s' = x :: t := by
              cases s' with
              | nil => cases hd.2
              | cons x t => exact ⟨x, t, rfl⟩
            have hsign : d = '+' ∨ d = '-' := by simpa [isSign] using hd.1
            have ht := (hs.of_cons (by rcases hsign with rfl | rfl <;> decide)).1
            exact ⟨_, .inl rfl, ht.digits (by simpa using hd.2)
              (by rcases hsign with rfl | rfl <;> decide)⟩
          · exact ⟨w, hw, h⟩
      · exact ⟨w, hw, h⟩
    · exact ⟨w, hw, h⟩
  · exact ⟨w, hw, h⟩

/-- A number in front of a neat text. -/
theorem Neat.afterNumber {c : Char} {s : Text} (h : Neat .none (c :: s))
    (hc : c.isDigit = true ∨ (c = '.' ∧ s.head?.any Char.isDigit = true)) :
    Neat .none (scanNumber (c :: s)).2 := by
  obtain ⟨w, hw, hf⟩ : ∃ w : Stem, w.numeric ∧
      Neat w (scanFraction ((c :: s).dropWhile Char.isDigit)).2 := by
    by_cases hd : c.isDigit = true
    · exact (h.digits hd (by decide)).fraction
    · obtain ⟨rfl, hs⟩ := hc.resolve_left hd
      cases s with
      | nil => cases hs
      | cons d s =>
        have hd : d.isDigit = true := hs
        have hdot : (d :: s).head? ≠ some '.' := by
          intro he
          rw [Option.some.inj he] at hd
          exact absurd hd (by decide)
        rw [List.dropWhile_cons_of_neg (by decide), scanFraction, if_neg hdot]
        exact ⟨_, .inl rfl, (h.of_cons (by decide)).1.digits hd (by decide)⟩
  obtain ⟨w', hw', he⟩ := hf.exponent hw
  exact he.mono hw'.le_none

/-- Behind operator characters. -/
theorem Neat.dropOps {s : Text} {n : Nat} (h : Neat .none s)
    (hn : n ≤ (s.takeWhile isOpChar).length) : Neat .none (s.drop n) := by
  rw [← List.take_append_drop n s] at h
  exact h.drop_same (fun c hc => Stem.none_other (isOpChar_not_cont hc)) isOpChar_not_quote
    fun c hc => mem_take_takeWhile hn hc

/-- **A step inside a neat text is local**: what follows the text is left alone. -/
theorem step_local {c : Char} {s r : Text} (hn : Neat .none (c :: s)) (hc : isQuote c = false)
    (hr : Ends (c :: s) r) :
    ∃ t s', Takes s s' ∧ Neat .none s' ∧ step c s = (t, s') ∧
      step c (s ++ r) = (t, s' ++ r) := by
  obtain ⟨hs, ha, hdollar⟩ := hn.of_cons hc
  obtain ⟨hq1, hq2⟩ := isQuote_false hc
  have hdig : Stops Char.isDigit r := hr.ident.mono fun _ => isDigit_cont
  -- behind a character of no word everything starts anew
  have hfresh (h : isIdentCont c = false) : Neat .none s := by rwa [Stem.none_other h] at hs
  by_cases hsp : isSpace c = true
  · exact ⟨[], s, .refl s, hfresh (isSpace_not_cont hsp), step_space hsp s, step_space hsp _⟩
  by_cases hid : isIdentStart c = true
  · -- a word: neither the text nor what follows it puts a quote after its last character
    have hw := isWordy_of_ident (isIdentStart_cont hid)
    have htk := takes_dropWhile isIdentCont_not_quote s
    have hrun := hn.run_stops hc hw
    have hident : Stem.next c .none = .ident := by
      have hdot : c ≠ '.' := by rintro rfl; revert hid; decide
      simp [Stem.next, hid, hdot]
    rw [hident] at hs
    have hrest : Neat .ident (s.dropWhile isIdentCont) :=
      hs.dropWhile_same (fun d hd => Stem.ident_cont hd) isIdentCont_not_quote
    refine ⟨[.word (c :: s.takeWhile isIdentCont)], s.dropWhile isIdentCont, htk,
      hrest.fresh (stops_dropWhile _ _), ?_, ?_⟩
    · refine step_word hid hrun fun r' he => ?_
      obtain ⟨p, hp, hpq⟩ := htk
      rw [he] at hp
      rw [he] at hrest
      exact fun d hd => adj_wordy ((hrest.of_cons (by decide)).2.1 d hd) (by decide)
    · rw [step_word hid]
      · rw [takeWhile_stops hr.ident, dropWhile_stops hr.ident]
      · rw [dropWhile_stops hr.ident]
        cases hd : s.dropWhile isIdentCont with
        | cons d t => rw [hd] at hrun; exact hrun
        | nil =>
          -- the word runs to the end of the text
          have hall : s = s.takeWhile isIdentCont := by
            conv => lhs; rw [← List.takeWhile_append_dropWhile (p := isIdentCont) (l := s), hd]
            simp
          obtain ⟨l, hl⟩ : ∃ l, (c :: s).getLast? = some l := ⟨_, List.getLast?_eq_some_getLast (by simp)⟩
          refine hr.wordy l hl (isWordy_of_ident ?_)
          have hm : l ∈ c :: s := List.mem_of_getLast? hl
          rcases List.mem_cons.1 hm with rfl | hm
          · exact isIdentStart_cont hid
          · rw [hall] at hm
            exact List.mem_takeWhile_imp hm
      · rw [dropWhile_stops hr.ident]
        intro r' he
        cases hd : s.dropWhile isIdentCont with
        | nil =>
          rw [hd, List.nil_append] at he
          exact absurd (hr.op '&' (by rw [he]; rfl)) (by decide)
        | cons d t =>
          rw [hd, List.cons_append, List.cons.injEq] at he
          obtain ⟨rfl, rfl⟩ := he
          obtain ⟨p, hp, hpq⟩ := htk
          rw [hd] at hp
          rw [hd] at hrest
          cases t with
          | cons e t =>
            have he := adj_wordy ((hrest.of_cons (by decide)).2.1 e rfl) (by decide)
            exact stops_cons.2 he
          | nil =>
            refine hr.wordy '&' ?_ (by decide)
            rw [hp, ← List.cons_append, List.getLast?_concat]
  by_cases hnum : c.isDigit = true ∨ (c = '.' ∧ s.head?.any Char.isDigit = true)
  · have hnum' : c.isDigit = true ∨ (c = '.' ∧ (s ++ r).head?.any Char.isDigit = true) := by
      refine hnum.imp id fun h => ⟨h.1, ?_⟩
      cases s with
      | nil => cases h.2
      | cons => exact h.2
    have e1 : ∀ t : Text, (c.isDigit = true ∨ (c = '.' ∧ t.head?.any Char.isDigit = true)) →
        step c t = ([.number (scanNumber (c :: t)).1], (scanNumber (c :: t)).2) := fun t ht => by
      simp only [step, hsp, hq1, hq2, hid, if_false, if_pos ht, Bool.false_eq_true]
    refine ⟨_, _, scanNumber_takes hnum, hn.afterNumber hnum, e1 s hnum, ?_⟩
    rw [e1 _ hnum', ← List.cons_append, scanNumber_local hr.ident hr.op hr.point]
  have hnd : c.isDigit = false := by
    cases h : c.isDigit
    · rfl
    · exact absurd (.inl h) hnum
  by_cases hpt : c = '.'
  · subst hpt
    have hs' : Stops Char.isDigit s := by
      intro d hd
      cases hdd : d.isDigit
      · rfl
      · exact absurd (.inr ⟨rfl, by rw [hd]; simpa using hdd⟩) hnum
    refine ⟨_, s, .refl s, hfresh (by decide), step_point hs', step_point ?_⟩
    cases s with
    | nil => exact hdig
    | cons d s => exact hs'
  by_cases hdl : c = '$'
  · -- a parameter: a digit follows
    subst hdl
    have hhead : s.head?.any Char.isDigit = true := (hdollar rfl).resolve_left (by decide)
    obtain ⟨d, s, rfl⟩ : ∃ d t, s = d :: t := by
      cases s with
      | nil => cases hhead
      | cons d t => exact ⟨d, t, rfl⟩
    have hd : d.isDigit = true := hhead
    have hrest := (hs.digits hd (by decide)).mono (Stem.numeric.le_none (.inl rfl))
    refine ⟨[.param ((d :: s).takeWhile Char.isDigit)], _, takes_dropWhile isDigit_not_quote _,
      hrest, ?_, ?_⟩
    · simp [step, hsp, hid, stepDollar, hd, show Char.isDigit '$' = false by decide]
    · rw [← dropWhile_stops hdig, ← takeWhile_stops hdig]
      simp [step, hsp, hid, stepDollar, hd, show Char.isDigit '$' = false by decide]
  by_cases hop : isOpChar c = true
  · have hx : ∀ t : Text, (∀ d, t.head? = some d → adj c d = true ∨ isOpChar d = false) →
        step c t = ([.op (opToken (c :: t))], (c :: t).drop (opToken (c :: t)).length) := by
      intro t ht
      have h1 : ∀ t', c :: t ≠ '-' :: '-' :: t' := by
        rintro t' he
        cases he
        rcases ht '-' rfl with h | h <;> revert h <;> decide
      have h2 : ∀ t', c :: t ≠ '/' :: '*' :: t' := by
        rintro t' he
        cases he
        rcases ht '*' rfl with h | h <;> revert h <;> decide
      have h3 : stepOp (c :: t) = ([.op (opToken (c :: t))], (c :: t).drop (opToken (c :: t)).length) := by
        unfold stepOp
        split
        · rename_i t' he; exact absurd he (h1 t')
        · rename_i t' he; exact absurd he (h2 t')
        · rfl
      simp only [step, hsp, hq1, hq2, hid, if_false, hnd, hpt, hdl, hop, if_true, h3,
        Bool.false_eq_true, false_and, or_false]
    have hne : opToken (c :: s) ≠ [] := opToken_ne_nil hop
      (by rintro rfl he; exact adj_dash (ha _ he) rfl)
      (by rintro rfl he; exact adj_slash (ha _ he) rfl)
    obtain ⟨n, hn'⟩ : ∃ n, (opToken (c :: s)).length = n + 1 :=
      ⟨(opToken (c :: s)).length - 1, by have := List.length_pos_iff.2 hne; omega⟩
    have hlen : n ≤ (s.takeWhile isOpChar).length := by
      have := opToken_length_le (c :: s)
      rw [hn', List.takeWhile_cons_of_pos hop, List.length_cons] at this
      omega
    have hle : n ≤ s.length :=
      Nat.le_trans hlen (List.takeWhile_prefix (p := isOpChar) (l := s)).length_le
    refine ⟨_, _, ?_, ?_, hx s fun d hd => .inl (ha d hd), ?_⟩
    · rw [hn', List.drop_succ_cons]
      exact drop_takes isOpChar_not_quote hlen
    · rw [hn', List.drop_succ_cons]
      exact (hfresh (isOpChar_not_cont hop)).dropOps hlen
    · rw [hx, ← List.cons_append, opToken_local hr.op, hn']
      · rw [List.cons_append, List.drop_succ_cons, List.drop_succ_cons,
          List.drop_append_of_le_length hle]
      · intro d hd
        cases s with
        | nil => exact .inr (hr.op d hd)
        | cons e s => exact .inl (ha d hd)
  · have hcont : isIdentCont c = false := by
      simp only [isIdentCont, Bool.or_eq_false_iff, beq_eq_false_iff_ne]
      exact ⟨⟨by simpa using hid, hnd⟩, hdl⟩
    have hp : isPunct c = true := by
      simp only [isPunct_iff]
      exact ⟨by simpa using hsp, hc, hcont, by simpa using hop, hpt⟩
    exact ⟨_, s, .refl s, hfresh hcont, step_punct hp s, step_punct hp _⟩

theorem after_space {c : Char} {s : Text} (h : after (c :: s) = true) (hc : isSpace c = true) :
    after s = true ∧ s ≠ [] := by
  simp only [after, List.isEmpty_cons, List.dropWhile_cons_of_pos hc, Bool.false_or] at h
  refine ⟨by simp [after, h], ?_⟩
  rintro rfl
  cases h

theorem after_plain {c : Char} {s : Text} (h : after (c :: s) = true) (hc : isSpace c = false) :
    isQuote c = false := by
  simpa [after, hc] using h

/-- No string constant goes on in a text that starts with a plain character. -/
theorem continuation_plain {c : Char} {s : Text} (g : Gap) (hg : g = .before ∨ g = .after)
    (hsp : isSpace c = false) (hq : isQuote c = false) (hd : c = '-' → s.head? ≠ some '-') :
    continuation g (c :: s) = none := by
  have hnl : isNewline c = false := by
    cases h : isNewline c
    · rfl
    · simp only [isNewline, Bool.or_eq_true, beq_iff_eq] at h
      rcases h with rfl | rfl <;> revert hsp <;> decide
  have hdd : ¬ (c = '-' ∧ s.head? = some '-') := fun h => hd h.1 h.2
  rcases hg with rfl | rfl
  · simp only [continuation, hnl, hsp, Bool.false_eq_true, if_false, if_neg hdd]
  · simp only [continuation, hsp, (isQuote_false hq).1, Bool.false_eq_true, if_false, if_neg hdd]

theorem continuation_after {w : Stem} {s : Text} (hn : Neat w s) (ha : after s = true) (hne : s ≠ [])
    {r : Text} (hr : Stops isOpChar r) (g : Gap) (hg : g = .before ∨ g = .after) :
    continuation g (s ++ r) = none := by
  induction s generalizing w g with
  | nil => exact absurd rfl hne
  | cons c s ih =>
    cases hsp : isSpace c
    · have hq := after_plain ha hsp
      refine continuation_plain g hg hsp hq ?_
      rintro rfl hh
      cases s with
      | nil => exact absurd (hr '-' hh) (by decide)
      | cons d s =>
        have hd : d = '-' := Option.some.inj hh
        exact adj_dash ((hn.of_cons hq).2.1 d rfl) hd
    · have hq : isQuote c = false := by
        cases h : isQuote c
        · rfl
        · simp only [isQuote, Bool.or_eq_true, beq_iff_eq] at h
          rcases h with rfl | rfl <;> revert hsp <;> decide
      obtain ⟨ha', hne'⟩ := after_space ha hsp
      have ih := ih (hn.of_cons hq).1 ha' hne'
      rcases hg with rfl | rfl
      · cases hnl : isNewline c
        · simpa only [List.cons_append, continuation, hnl, hsp, Bool.false_eq_true, if_false,
            if_true] using ih .before (.inl rfl)
        · simpa only [List.cons_append, continuation, hnl, if_true] using ih .after (.inr rfl)
      · simpa only [List.cons_append, continuation, hsp, if_true] using ih .after (.inr rfl)

theorem after_head {s : Text} (h : after s = true) : Stops isQuote s := by
  cases s with
  | nil => exact Stops.nil _
  | cons c s =>
    cases hsp : isSpace c
    · exact stops_cons.2 (after_plain h hsp)
    · refine stops_cons.2 ?_
      cases hq : isQuote c
      · rfl
      · simp only [isQuote, Bool.or_eq_true, beq_iff_eq] at hq
        rcases hq with rfl | rfl <;> revert hsp <;> decide

theorem follows_of_after {q : Char} {s : Text} (h : after s = true) : follows q s = true := by
  unfold follows
  split
  · cases s with
    | nil => rfl
    | cons c s => simpa using stops_cons.1 (after_head h)
  · exact h

theorem follows_head {q : Char} {s : Text} (h : follows q s = true) : Stops isQuote s := by
  unfold follows at h
  split at h
  · intro c hc
    simpa [hc] using h
  · exact after_head h

theorem continuation_follows {w : Stem} {q : Char} {s : Text} (hn : Neat w s) (h : follows q s = true)
    (hne : s ≠ []) {r : Text} (hr : Stops isOpChar r) (hq : q = '\'') :
    continuation .before (s ++ r) = none :=
  continuation_after hn (by subst hq; exact h) hne hr .before (.inl rfl)

theorem head_ne_quote {q : Char} {s : Text} (hq : isQuote q = true) (h : Stops isQuote s) :
    s.head? ≠ some q := fun he => by
  rw [h q he] at hq
  cases hq

theorem Ends.suffix {p s r : Text} (h : Ends (p ++ s) r) (hs : s ≠ []) : Ends s r where
  op := h.op
  ident := h.ident
  point := h.point
  wordy c hc := h.wordy c (by rwa [List.getLast?_append_of_ne_nil _ hs])
  quote c hc := h.quote c (by rwa [List.getLast?_append_of_ne_nil _ hs])

theorem quote_ne_nil (q : Char) (v : Text) : quote q v ≠ [] := by simp [quote]

theorem quote_getLast (q : Char) (v : Text) : (quote q v).getLast? = some q := by
  rw [quote, ← List.cons_append, List.getLast?_concat]

/-- **The scanner is local on neat texts**: a neat text is cut into its own tokens whatever follows
it, and what follows is scanned on its own. -/
theorem scan_append {s r : Text} (hs : Neat .none s) (hr : Ends s r) :
    scan (s ++ r) = scan s ++ scan r := by
  obtain ⟨n, hn⟩ : ∃ n, s.length ≤ n := ⟨_, Nat.le_refl _⟩
  induction n generalizing s with
  | zero =>
    obtain rfl : s = [] := List.length_eq_zero_iff.1 (by omega)
    rfl
  | succ n ih =>
    -- the rest of the text after its first token, with the same last character
    have rest {p s' : Text} (h : s = p ++ s') (hp : p ≠ []) (hs' : Neat .none s') :
        scan (s' ++ r) = scan s' ++ scan r := by
      by_cases hnil : s' = []
      · subst hnil; rfl
      · refine ih hs' (Ends.suffix (h ▸ hr) hnil) ?_
        have := List.length_pos_iff.2 hp
        rw [h, List.length_append] at hn
        omega
    cases hs with
    | nil => rfl
    | @quoted _ q v s hq ha hs =>
      have hhead := head_ne_quote hq (follows_head ha)
      by_cases hnil : s = []
      · subst hnil
        obtain ⟨h1, h2⟩ := hr.quote q (by rw [List.append_nil, quote_getLast]) hq
        rw [List.append_nil, scan_quote hq (head_ne_quote hq h1) fun _ => h2,
          ← List.append_nil (quote q v), scan_quote hq (by simp) fun _ => rfl]
        rfl
      · have hh : (s ++ r).head? ≠ some q := by
          cases s with
          | nil => exact absurd rfl hnil
          | cons c s => exact hhead
        have hcs : q = '\'' → continuation .before s = none := fun e => by
          have := continuation_follows hs ha hnil (Stops.nil isOpChar) e
          rwa [List.append_nil] at this
        rw [List.append_assoc, scan_quote hq hh (continuation_follows hs ha hnil hr.op),
          scan_quote hq hhead hcs, rest rfl (quote_ne_nil q v) hs]
        rfl
    | @cons _ c s hc ha hd hs =>
      obtain ⟨t, s', htk, hrest, h1, h2⟩ := step_local (.cons hc ha hd hs) hc hr
      obtain ⟨p, rfl, hp⟩ := htk
      rw [List.cons_append, scan_cons, scan_cons, h1, h2, List.append_assoc,
        rest (p := c :: p) rfl (by simp) hrest]

end Pg
