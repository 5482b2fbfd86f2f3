import IronQuery.Pg.Tokens
import IronQuery.Pg.Proof.Reads

/-!
# Reading a text by the tokens the grammar sees

The pieces of `IronQuery.Pg.Proof.Reads` at `lex`: constants by evaluation (`opens_const`,
`reads_const`), names, quoted tokens, numbers and parameters, and the two places where a character
meets the next piece without white space (`Seals.point`, `Reads.minus`).
-/

namespace Pg

/-- What the grammar sees of tokens. -/
def ofScan (ts : List Token) : List Token := ts.filter (· ≠ .comment)

theorem lex_of_scan {x r : Text} {ts : List Token} (h : scan (x ++ r) = ts ++ scan r) :
    lex (x ++ r) = ofScan ts ++ lex r := by
  simp only [lex, h, List.filter_append, ofScan]

section
variable {x : Text} {ts ls : List Token}

theorem Reads.at_lex (h : Reads scan x ts) : Reads lex x (ofScan ts) :=
  fun r hr hp => lex_of_scan (h r hr hp)

theorem Seals.at_lex (h : Seals scan x ts) : Seals lex x (ofScan ts) :=
  fun r hr => lex_of_scan (h r hr)

theorem Opens.at_lex (h : Opens scan x ts) : Opens lex x (ofScan ts) :=
  fun r => lex_of_scan (h r)

theorem opens_const (h : isOpener x = true) (e : lex x = ls) : Opens lex x ls :=
  e ▸ (opens_of h).at_lex

theorem reads_const (h : isNeat x = true) (e : lex x = ls) : Reads lex x ls :=
  e ▸ (reads_of h).at_lex

end

/-! ## Tokens -/

theorem seals_string (v : Text) : Seals lex (quote '\'' v) [.string v] :=
  (seals_quote rfl v).at_lex

theorem seals_quoted (v : Text) : Seals lex (quote '"' v) [.quotedIdent v] :=
  (seals_quote rfl v).at_lex

theorem seals_name {w : Text} {c : Char} {s : Text} (hw : w = c :: s) (hc : isIdentStart c = true)
    (hs : s.all isIdentCont = true) : Seals lex w [.word w] :=
  (seals_word hw hc hs).at_lex

theorem seals_parameter {n : Text} (hne : n ≠ []) (hn : n.all Char.isDigit = true) :
    Seals lex ('$' :: n) [.param n] := (seals_param hne hn).at_lex

theorem reads_digits {n : Text} (hne : n ≠ []) (hn : n.all Char.isDigit = true) :
    Reads lex n [.number n] := (reads_number hne hn).at_lex

/-! ## Joints -/

theorem stop_point (r : Text) : Stop ('.' :: r) :=
  ⟨stops_cons.2 (by decide), stops_cons.2 (by decide), stops_cons.2 (by decide), rfl⟩

theorem lex_point {r : Text} (h : Stops Char.isDigit r) :
    lex ('.' :: r) = .punct '.' :: lex r := by
  have hs : scan (['.'] ++ r) = [.punct '.'] ++ scan r := by
    rw [List.cons_append, List.nil_append, scan_cons, step_point h]
  exact lex_of_scan hs

section
variable {x y : Text} {ls ks : List Token}

theorem Stops.append {p : Char → Bool} (h : Stops p x) {r : Text} (hr : Stops p r) :
    Stops p (x ++ r) := by
  cases x with
  | nil => exact hr
  | cons c x => exact h

/-- A point between two operands: no digit may follow it. -/
theorem Seals.point (hx : Seals lex x ls) (hy : Reads lex y ks)
    (hd : Stops Char.isDigit y) : Reads lex (x ++ '.' :: y) (ls ++ .punct '.' :: ks) := by
  intro r hr hp
  rw [List.append_assoc, List.cons_append, hx _ (stop_point _),
    lex_point (hd.append (hr.ident.mono fun _ => isDigit_cont)), hy r hr hp, List.append_assoc]
  rfl

theorem Seals.point_seals (hx : Seals lex x ls) (hy : Seals lex y ks)
    (hd : Stops Char.isDigit y) : Seals lex (x ++ '.' :: y) (ls ++ .punct '.' :: ks) := by
  intro r hr
  rw [List.append_assoc, List.cons_append, hx _ (stop_point _),
    lex_point (hd.append (hr.ident.mono fun _ => isDigit_cont)), hy r hr, List.append_assoc]
  rfl

/-- A sign right in front of an operand: no operator character may follow it. -/
theorem Reads.minus (hx : Reads lex x ls) (ho : Stops isOpChar x) :
    Reads lex ('-' :: x) (.op ['-'] :: ls) := by
  intro r hr hp
  have hs : scan (['-'] ++ (x ++ r)) = [.op ['-']] ++ scan (x ++ r) := scan_sign (ho.append hr.op)
  rw [List.cons_append, List.cons_append, ← hx r hr hp]
  exact lex_of_scan hs

theorem Reads.paren (hx : Reads lex x ls) :
    Opens lex ('(' :: (x ++ [')'])) (.punct '(' :: (ls ++ [.punct ')'])) :=
  have hopen : Opens lex ['('] [.punct '('] := opens_const (by decide) (by decide)
  have hclose : Opens lex [')'] [.punct ')'] := opens_const (by decide) (by decide)
  hopen.append (hx.opens (by decide) hclose)

end

end Pg
