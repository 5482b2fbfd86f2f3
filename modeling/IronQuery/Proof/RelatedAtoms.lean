import IronQuery.Proof.Related

/-!
# The atoms of a program, and what may stand behind a unary minus

* `atom_rel`: an atom is rendered alike in both runs, each of its strings being escaped, checked, or
  closed.
* `head_of_atom`: an atom that is no `Atom.minus` does not start with a minus.
-/

namespace IronQuery

open OperatorPrecedence Pg

section
variable {u : Text}

theorem raw_rel {s s' : Text} (h : Filled u s s') (p : OperatorPrecedence) :
    ExprRel u (Expr.fromRaw s p) (Expr.fromRaw s' p) :=
  NodeRel.leaf h p

theorem placeholder_closed (n : Fin 10) :
    isClosed (placeholder n).toString = true ∧ (placeholder n).toString.head? ≠ some '-' := by
  revert n
  decide

/-- A double is digits, with signs in front of them and of those of its exponent. -/
theorem toChars_filled (negative : Bool) (whole : Digits) (fraction : Option Digits)
    (exponent : Option (Bool × Digits)) : Filled u (toChars negative whole fraction exponent)
      (toChars negative whole fraction exponent) := by
  have digits (d : Digits) : Piece mark u unslashed unslashed d.val d.val :=
    Piece.calm (List.all_eq_true.2 fun c hc =>
      isCalm_of_path (isDigit_path (List.all_eq_true.1 d.digits c hc))) fun hm => by
        have := List.all_eq_true.1 d.digits _ hm
        revert this
        decide
  unfold toChars
  refine Piece.append (T := unslashed) (Piece.append (T := unslashed)
    (Piece.append (T := unslashed) ?_ (digits whole)) ?_) ?_
  · cases negative <;> exact Piece.fragment (by decide)
  · cases fraction with
    | none => exact Piece.nil (by decide)
    | some f =>
      exact (Piece.fragment (S := unslashed) (x := ['.']) (by decide)).append (digits f)
  · rcases exponent with - | ⟨neg, e⟩
    · exact Piece.nil (by decide)
    · have sign : Piece mark u unslashed unslashed
          ['e', if neg then '-' else '+'] ['e', if neg then '-' else '+'] :=
        Piece.fragment (by cases neg <;> decide)
      exact (sign.append (digits e)).mono (fun _ h => h) (by decide)

theorem fromDouble_rel (d : Double) : Agree (ExprRel u) (Expr.fromDouble d) (Expr.fromDouble d) := by
  cases d with
  | nonFinite text => exact Agree.error _
  | finite negative whole fraction exponent =>
    refine raw_rel ?_ kSymbol
    have h := toChars_filled (u := u) negative whole fraction exponent
    split
    · exact h
    · exact h.trail ".0".toList (by decide)

theorem literal_rel {v : Text} (hv : isBytes v = true) :
    Agree (ExprRel u) (Expr.literal v) (Expr.literal v) := by
  unfold Expr.literal
  split
  · exact Agree.error _
  · rw [escaped_eq]
    exact raw_rel (Filled.quote (by decide) hv) _

theorem ident_rel {v : Text} (hv : isBytes v = true) :
    Agree (ExprRel u) (Expr.ident v) (Expr.ident v) := by
  unfold Expr.ident
  split
  · exact Agree.error _
  · rw [escaped_eq]
    exact raw_rel (Filled.quote (by decide) hv) _

theorem atom_rel (a : Atom) (h : ∀ l ∈ a.leaves, l.WF) :
    Agree (ExprRel u) a.build a.build := by
  cases a with
  | null => exact raw_rel (Filled.const _ (by decide)) _
  | bool value => cases value <;> exact raw_rel (Filled.const _ (by decide)) _
  | placeholder n =>
    obtain ⟨ht, -⟩ := placeholder_closed n
    exact ⟨rfl, Filled.of_closed ht⟩
  | integer value => exact raw_rel (Filled.int value) _
  | double value => exact fromDouble_rel value
  | literal value => exact literal_rel (h (.quoted value) (.head _))
  | ident name => exact ident_rel (h (.quoted name) (.head _))
  | countAll => exact raw_rel (Filled.const _ (by decide)) _
  | column name => exact raw_rel (Filled.of_closed (h (.code name) (.head _))) _
  | dot aliasName column =>
    refine Agree.bind (R := fun t t' => t' = t ∧ t.alias_.all isPathChar = true) ?_ ?_
    · exact Agree.guard fun ha => ⟨rfl, path_of_ok ha⟩
    · rintro t t' ⟨rfl, ht⟩
      have hc := Filled.of_closed (u := u) (h (.code column) (.head _))
      refine raw_rel ?_ kDot
      rw [List.append_assoc]
      exact (Filled.path ht).link _ hc (by decide)
  | raw s precedence => exact raw_rel (Filled.of_closed (h (.code s) (.head _))) _

end

/-! ## The first character -/

theorem head_append {x y : Text} {c : Char} (hx : x.head? ≠ some c) (hy : x = [] → y.head? ≠ some c) :
    (x ++ y).head? ≠ some c := by
  cases x with
  | nil => exact hy rfl
  | cons d x => exact hx

theorem minusText_none {s : Text} {p : OperatorPrecedence} (h : minusText s p = none)
    (hp : p.toNat < kUnaryPlus.toNat) : s.head? ≠ some '-' := fun hs => by
  rw [minusText, if_pos ⟨hp, hs⟩] at h
  cases h

theorem minusText_some {s : Text} {p q : OperatorPrecedence} (h : minusText s p = some q) :
    p = q := by
  unfold minusText at h
  split at h
  · exact Option.some.inj h
  · cases h

/-- An atom without a minus. -/
theorem head_of_atom {a : Atom} (hm : a.minus = none) {e : Expr} (he : a.build = .ok e)
    (hp : e.node.precedence.toNat < kUnaryPlus.toNat) : e.toString.head? ≠ some '-' := by
  have raw {s : Text} {p : OperatorPrecedence} (hs : s.head? ≠ some '-') :
      (Expr.fromRaw s p).toString.head? ≠ some '-' := hs
  cases a with
  | null | countAll => cases he; exact raw (by decide)
  | bool value => cases he; cases value <;> exact raw (by decide)
  | placeholder n => cases he; exact (placeholder_closed n).2
  | integer value => cases he; exact raw (minusText_none hm hp)
  | double value =>
    cases value with
    | nonFinite text => cases he
    | finite negative whole fraction exponent =>
      cases he
      obtain rfl : negative = false := by
        cases negative
        · rfl
        · cases hm
      obtain ⟨d, s, hd⟩ := List.exists_cons_of_ne_nil whole.nonempty
      have hdig : d ≠ '-' := by
        rintro rfl
        have := whole.digits
        rw [hd] at this
        revert this
        simp
      refine raw ?_
      have hh : (toChars false whole fraction exponent).head? = some d := by simp [toChars, hd]
      split
      · rw [hh]; simpa using hdig
      · rw [List.head?_append, hh]; simpa using hdig
  | literal value =>
    simp only [Atom.build, Expr.literal] at he
    split at he
    · cases he
    · cases he; exact raw (by rw [escaped_eq]; simp [quote])
  | ident name =>
    simp only [Atom.build, Expr.ident] at he
    split at he
    · cases he
    · cases he; exact raw (by rw [escaped_eq]; simp [quote])
  | column name => cases he; exact raw (minusText_none hm hp)
  | dot aliasName column =>
    simp only [Atom.build, bind_ok, pure_ok, TableAlias.from] at he
    obtain ⟨t, ⟨r, hr, rfl⟩, rfl⟩ := he
    refine raw ?_
    rw [List.append_assoc]
    exact head_append (head_of_path (path_of_ok hr)) fun _ => by simp
  | raw s precedence => cases he; exact raw (minusText_none hm hp)

end IronQuery
