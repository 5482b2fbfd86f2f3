import IronQuery.Pg.Proof.Mode

/-!
# Reading a text token by token

`Reads scan x ts`: the scanner cuts `x` into `ts` whatever follows it (`Stop`: something that
neither goes on with the last token nor is a point); `Seals scan x ts`: also before a point;
`Opens scan x ts`: before anything at all. The three compose (`Opens.reads`, `Reads.opens`,
`Reads.append`), so the tokens of a text are found piece by piece, and a constant piece is read by
evaluating the scanner on it (`opens_of`, `reads_of`). In place of `scan` stands any reading of a
text as a list.
-/

namespace Pg

/-- `r` may follow a finished token, whatever the token is. -/
structure Stop (r : Text) : Prop where
  op : Stops isOpChar r
  ident : Stops isIdentCont r
  quote : Stops isQuote r
  cont : continuation .before r = none

section
variable {α : Type} (view : Text → List α)

/-- `view` finds `ts` in `x`, and goes on with what follows. -/
def Reads (x : Text) (ts : List α) : Prop :=
  ∀ r, Stop r → r.head? ≠ some '.' → view (x ++ r) = ts ++ view r

def Seals (x : Text) (ts : List α) : Prop := ∀ r, Stop r → view (x ++ r) = ts ++ view r

def Opens (x : Text) (ts : List α) : Prop := ∀ r, view (x ++ r) = ts ++ view r

end

theorem Stop.nil : Stop [] := ⟨Stops.nil _, Stops.nil _, Stops.nil _, rfl⟩

section
variable {α : Type} {view : Text → List α} {x y : Text} {ts us : List α}

theorem Seals.reads (h : Seals view x ts) : Reads view x ts := fun r hr _ => h r hr

theorem Opens.seals (h : Opens view x ts) : Seals view x ts := fun r _ => h r

theorem Opens.nil : Opens view [] [] := fun _ => rfl

theorem Reads.view_eq (h : Reads view x ts) (h0 : view [] = []) : view x = ts := by
  have := h [] Stop.nil (by simp)
  rwa [h0, List.append_nil, List.append_nil] at this

end

/-! ## Pieces -/

/-- A text that may follow any token, whatever comes after it. -/
def leads : Text → Bool
  | [] => false
  | c :: s =>
    !isOpChar c && !isIdentCont c && !isQuote c && c != '.' &&
      (!isSpace c || match s with
        | [] => false
        | d :: s' => !isSpace d && !isQuote d && (d != '-' || s'.head?.any (· != '-')))

theorem stop_of_leads {x : Text} (h : leads x = true) (r : Text) :
    Stop (x ++ r) ∧ (x ++ r).head? ≠ some '.' := by
  cases x with
  | nil => cases h
  | cons c s =>
    simp only [leads, Bool.and_eq_true, Bool.not_eq_true', bne_iff_ne, ne_eq] at h
    obtain ⟨⟨⟨⟨h1, h2⟩, h3⟩, h4⟩, h5⟩ := h
    refine ⟨⟨stops_cons.2 h1, stops_cons.2 h2, stops_cons.2 h3, ?_⟩, by simpa using h4⟩
    cases hsp : isSpace c
    · refine continuation_plain .before (.inl rfl) hsp h3 ?_
      exact fun he => absurd (he ▸ h1) (by decide)
    · simp only [hsp, Bool.not_true, Bool.false_or] at h5
      cases s with
      | nil => cases h5
      | cons d s' =>
        simp only [Bool.and_eq_true, Bool.not_eq_true', Bool.or_eq_true, bne_iff_ne, ne_eq] at h5
        obtain ⟨⟨h6, h7⟩, h8⟩ := h5
        have hd : d = '-' → (s' ++ r).head? ≠ some '-' := by
          rintro rfl he
          rcases h8 with h8 | h8
          · exact h8 rfl
          · cases s' with
            | nil => cases h8
            | cons e s' =>
              obtain rfl : e = '-' := Option.some.inj he
              cases h8
        cases hnl : isNewline c
        · simpa only [List.cons_append, continuation, hnl, hsp, Bool.false_eq_true, if_false,
            if_true] using continuation_plain .before (.inl rfl) h6 h7 hd
        · simpa only [List.cons_append, continuation, hnl, if_true]
            using continuation_plain .after (.inr rfl) h6 h7 hd

section
variable {α : Type} {view : Text → List α} {x y : Text} {ts us : List α}

theorem Opens.append (hx : Opens view x ts) (hy : Opens view y us) :
    Opens view (x ++ y) (ts ++ us) := fun r => by
  rw [List.append_assoc, hx, hy, List.append_assoc]

theorem Opens.seal (hx : Opens view x ts) (hy : Seals view y us) :
    Seals view (x ++ y) (ts ++ us) := fun r hr => by
  rw [List.append_assoc, hx, hy r hr, List.append_assoc]

theorem Opens.reads (hx : Opens view x ts) (hy : Reads view y us) :
    Reads view (x ++ y) (ts ++ us) := fun r hr hp => by
  rw [List.append_assoc, hx, hy r hr hp, List.append_assoc]

theorem Reads.opens (hx : Reads view x ts) (hl : leads y = true) (hy : Opens view y us) :
    Opens view (x ++ y) (ts ++ us) := fun r => by
  obtain ⟨h1, h2⟩ := stop_of_leads hl r
  rw [List.append_assoc, hx _ h1 h2, hy, List.append_assoc]

theorem Reads.append (hx : Reads view x ts) (hl : leads y = true) (hy : Reads view y us) :
    Reads view (x ++ y) (ts ++ us) := fun r hr hp => by
  obtain ⟨h1, h2⟩ := stop_of_leads hl r
  rw [List.append_assoc, hx _ h1 h2, hy r hr hp, List.append_assoc]

end

/-! ## Constant pieces -/

/-- A fragment that ends in white space or in a character of its own, and holds no quote. -/
def isOpener (x : Text) : Bool :=
  x.all (fun c => !isQuote c && c != '\x00') &&
    ((Mode.free.run '\x00' x.dropLast).any Mode.ends) &&
    x.getLast?.any fun c => isSpace c || isPunct c

theorem opens_of {x : Text} (h : isOpener x = true) : Opens scan x (scan x) := by
  intro r
  simp only [isOpener, Bool.and_eq_true] at h
  obtain ⟨⟨hall, hrun⟩, hlast⟩ := h
  obtain ⟨c, hc, hcl⟩ := (Option.any_eq_true _ _).1 hlast
  obtain ⟨g, rfl⟩ := List.getLast?_eq_some_iff.1 hc
  rw [List.dropLast_concat] at hrun
  obtain ⟨e, he, hends⟩ := (Option.any_eq_true _ _).1 hrun
  simp only [List.all_append, Bool.and_eq_true, List.all_eq_true, Bool.not_eq_true',
    bne_iff_ne] at hall
  have hneat : Neat .none g := neat_of_run (fun hm => (hall.1 _ hm).2 rfl) he hends
  have hcls : isOpChar c = false ∧ isIdentCont c = false ∧ c ≠ '.' ∧ isQuote c = false := by
    simp only [Bool.or_eq_true] at hcl
    rcases hcl with hcl | hcl
    · refine ⟨?_, ?_, ?_, isSpace_not_quote hcl⟩ <;>
      · simp only [isSpace, Bool.or_eq_true, beq_iff_eq] at hcl
        rcases hcl with ((((rfl | rfl) | rfl) | rfl) | rfl) | rfl <;> decide
    · obtain ⟨-, h2, h3, h4, h5⟩ := isPunct_iff.1 hcl
      exact ⟨h4, h3, h5, h2⟩
  have hends : ∀ t, Ends g (c :: t) := fun t =>
    ⟨stops_cons.2 hcls.1, stops_cons.2 hcls.2.1, by simpa using hcls.2.2.1,
      fun _ _ _ => stops_cons.2 hcls.2.2.2,
      fun d hd hq => by rw [(hall.1 d (List.mem_of_getLast? hd)).1] at hq; cases hq⟩
  have hstep : ∀ t, scan (c :: t) = scan [c] ++ scan t := by
    intro t
    simp only [Bool.or_eq_true] at hcl
    rcases hcl with hcl | hcl
    · simp only [scan_cons, step_space hcl, scan_nil, List.nil_append]
    · simp only [scan_cons, step_punct hcl, scan_nil, List.append_nil, List.cons_append,
        List.nil_append]
  rw [List.append_assoc, List.cons_append, List.nil_append, scan_append hneat (hends r),
    scan_append hneat (hends []), hstep r, List.append_assoc]

/-- A neat text without marks, read before anything that may follow a token. -/
theorem reads_of_neat {x : Text} (h : Neat .none x) : Reads scan x (scan x) := fun _ hr hp =>
  scan_append h ⟨hr.op, hr.ident, hp, fun _ _ _ => hr.quote, fun _ _ _ => ⟨hr.quote, hr.cont⟩⟩

def isNeat (x : Text) : Bool := !x.contains '\x00' && (Mode.free.run '\x00' x).any Mode.ends

theorem reads_of {x : Text} (h : isNeat x = true) : Reads scan x (scan x) := by
  simp only [isNeat, Bool.and_eq_true, Bool.not_eq_true', List.contains_eq_mem,
    decide_eq_false_iff_not] at h
  obtain ⟨e, he, hends⟩ := (Option.any_eq_true _ _).1 h.2
  exact reads_of_neat (neat_of_run h.1 he hends)

/-! ## Tokens -/

theorem seals_quote {q : Char} (hq : isQuote q = true) (v : Text) :
    Seals scan (quote q v) [quotedToken q v] := fun _ hr => by
  rw [scan_quote hq (head_ne_quote hq hr.quote) fun _ => hr.cont]
  rfl

theorem seals_word {w : Text} {c : Char} {s : Text} (hw : w = c :: s) (hc : isIdentStart c = true)
    (hs : s.all isIdentCont = true) : Seals scan w [.word w] := by
  subst hw
  intro r hr
  have h1 : (s ++ r).takeWhile isIdentCont = s ∧ (s ++ r).dropWhile isIdentCont = r := by
    rw [takeWhile_stops hr.ident, dropWhile_stops hr.ident, (takeWhile_all hs).1,
      (takeWhile_all hs).2]
    exact ⟨rfl, rfl⟩
  rw [List.cons_append, scan_cons, step_word hc, h1.1, h1.2]
  · rw [h1.2]; exact hr.quote
  · rw [h1.2]
    rintro r' rfl
    exact absurd (hr.op '&' rfl) (by decide)

theorem seals_param {n : Text} (hne : n ≠ []) (hn : n.all Char.isDigit = true) :
    Seals scan ('$' :: n) [.param n] := by
  intro r hr
  obtain ⟨d, s, rfl⟩ := List.exists_cons_of_ne_nil hne
  have hd : d.isDigit = true := by
    simp only [List.all_cons, Bool.and_eq_true] at hn
    exact hn.1
  have hdig : Stops Char.isDigit r := hr.ident.mono fun _ => isDigit_cont
  have htk := takeWhile_stops hdig (d :: s)
  have hdr := dropWhile_stops hdig (d :: s)
  rw [(takeWhile_all hn).1] at htk
  rw [(takeWhile_all hn).2] at hdr
  simp only [List.cons_append, List.nil_append] at htk hdr
  have hstep : step '$' (d :: s ++ r) = ([.param (d :: s)], r) := by
    simp only [step, show isSpace '$' = false by decide, show isIdentStart '$' = false by decide,
      show Char.isDigit '$' = false by decide, Bool.false_eq_true, if_false,
      show ('$' : Char) ≠ '\'' by decide, show ('$' : Char) ≠ '"' by decide,
      show ('$' : Char) ≠ '.' by decide, false_and, or_self, if_true, stepDollar, List.cons_append,
      List.head?_cons, Option.any_some, hd, htk, hdr]
  rw [List.cons_append, scan_cons, hstep]

theorem isDigit_not_space {d : Char} (hd : d.isDigit = true) : isSpace d = false := by
  cases h : isSpace d
  · rfl
  · simp only [isSpace, Bool.or_eq_true, beq_iff_eq] at h
    rcases h with ((((rfl | rfl) | rfl) | rfl) | rfl) | rfl <;> revert hd <;> decide

theorem reads_number {n : Text} (hne : n ≠ []) (hn : n.all Char.isDigit = true) :
    Reads scan n [.number n] := by
  intro r hr hp
  have hdig : Stops Char.isDigit r := hr.ident.mono fun _ => isDigit_cont
  have hnum : scanNumber (n ++ r) = (n, r) := by
    have he : ∀ c, r.head? = some c → c ≠ 'e' ∧ c ≠ 'E' := fun c hc => by
      have := hr.ident c hc
      constructor <;> (rintro rfl; revert this; decide)
    simp only [scanNumber, takeWhile_stops hdig, dropWhile_stops hdig, (takeWhile_all hn).1,
      (takeWhile_all hn).2, List.nil_append, scanFraction_other hp, scanExponent_other he,
      List.append_nil]
  obtain ⟨d, s, rfl⟩ := List.exists_cons_of_ne_nil hne
  have hd : d.isDigit = true := by
    simp only [List.all_cons, Bool.and_eq_true] at hn
    exact hn.1
  have hstep : step d (s ++ r) = ([.number (d :: s)], r) := by
    have hnq := isQuote_false (isDigit_not_quote d hd)
    simp only [step, isDigit_not_space hd, hnq.1, hnq.2, isDigit_not_start hd, hd, true_or, if_true,
      if_false, Bool.false_eq_true, ← List.cons_append, hnum]
  rw [List.cons_append, scan_cons, hstep]

/-- One operator character that no other follows, and that opens no comment. -/
theorem scan_sign {r : Text} (hr : Stops isOpChar r) : scan ('-' :: r) = .op ['-'] :: scan r := by
  have h : opToken ('-' :: r) = ['-'] := (opToken_local hr ['-']).trans (by decide)
  have hstep : step '-' r = ([.op ['-']], r) := by
    simp only [step, show isSpace '-' = false by decide, show isIdentStart '-' = false by decide,
      show Char.isDigit '-' = false by decide, Bool.false_eq_true, if_false,
      show ('-' : Char) ≠ '\'' by decide, show ('-' : Char) ≠ '"' by decide,
      show ('-' : Char) ≠ '.' by decide, false_and, or_self, show ('-' : Char) ≠ '$' by decide,
      show isOpChar '-' = true by decide, if_true]
    unfold stepOp
    split
    · rename_i r' he
      cases he
      exact absurd (hr '-' rfl) (by decide)
    · rename_i he; cases he
    · rw [h]; rfl
  rw [scan_cons, hstep]
  rfl

end Pg
