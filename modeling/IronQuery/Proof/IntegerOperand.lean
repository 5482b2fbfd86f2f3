import IronQuery.Proof.TreeSigns
import IronQuery.Proof.TreeLoses

/-!
# Integers as operands

The renderer takes an integer of any sign for an atom. `integer_operand`: under the named operators
the text of a negative integer is read as one operand, of its own value, if and only if it stands
neither behind a unary minus nor in front of `[`. Behind a minus the two open a comment, and in front
of `[` its own minus is the looser of the two.
-/

namespace IronQuery

open OperatorPrecedence Pg

/-- An integer of either sign. -/
def Tree.ofInt : Int → Tree
  | .ofNat n => .int n
  | .negSucc n => .negative n

/-- The number that a constant denotes, with the sign in front of it. -/
def constantValue : Sql → Option Int
  | .number s => some (Nat.ofDigitChars 10 s 0)
  | .pre op (.number s) => if op = "-".toList then some (-Nat.ofDigitChars 10 s 0) else none
  | _ => none

/-- A named operator or a value, of either sign. -/
def Tree.isSigned : Tree → Bool
  | .negative _ => true
  | t => t.isNamed

/-! ## Numbers -/

theorem ofInt_build (v : Int) : (Tree.ofInt v).build = .ok (.fromInteger v) := by
  cases v <;> rfl

theorem ofInt_value (v : Int) : constantValue (Tree.ofInt v).toSql = some v := by
  cases v with
  | ofNat n => exact congrArg (some ∘ Int.ofNat) Nat.ofDigitChars_ten_toDigits
  | negSucc n =>
    show some (-(Nat.ofDigitChars 10 (natToString (n + 1)) 0 : Int)) = _
    rw [natToString, Nat.ofDigitChars_ten_toDigits]
    rfl

/-! ## Reading back -/

theorem isSigned_loose {t : Tree} (h : t.isSigned = true) : t.looseRow ≤ Level.sign := by
  cases t <;> first | exact Nat.zero_le _ | exact Nat.le_refl _ | cases h

theorem isSigned_not_binaryOp {t : Tree} (h : t.isSigned = true) : t.isBinaryOp = false := by
  cases t <;> first | rfl | cases h

theorem isSigned_clean {t : Tree} (h : t.isSigned = true) : t.clean = true := by
  cases t <;> first | rfl | cases h

theorem spelt_of_isSigned {t : Tree} (h : t.All (·.isSigned = true)) : t.spelt = true := by
  have hscalar (q : Subquery) (hq : (Tree.scalar q).All (·.isSigned = true)) : False :=
    absurd hq.root Bool.false_ne_true
  unfold Tree.spelt
  split
  · exact absurd h.root Bool.false_ne_true
  · exact absurd h.root Bool.false_ne_true
  · exact (hscalar _ ((all_isIn.1 h).2.2 _ (.head _))).elim
  · exact (hscalar _ ((all_two rfl).1 h).2.2).elim
  · exact (hscalar _ ((all_two rfl).1 h).2.2).elim
  · rfl

/-- **An integer is a safe operand where its sign stands alone.** -/
theorem integer_operand {t : Tree} {e : Expr} (hn : t.Named) (hc : t.All (·.callable = true))
    (hs : t.All (·.isSigned = true)) (hp : t.All (·.pointAt = true)) (h : t.build = .ok e) :
    (∀ v, (Tree.ofInt v).build = .ok (.fromInteger v) ∧
      constantValue (Tree.ofInt v).toSql = some v) ∧
    (readExpr e.toString = some t.toSql ↔ t.All (·.signAt = true)) := by
  refine ⟨fun v => ⟨ofInt_build v, ofInt_value v⟩, ?_⟩
  have hspelt : t.All (·.spelt = true) := (t.all_all hs).mono fun _ => spelt_of_isSigned
  rw [built_reads_iff hn hc (hs.mono fun _ => isSigned_clean) h, fits_iff hspelt]
  constructor
  · rintro ⟨hi, -, hf⟩ s hm
    exact signAt_of_fits (hi s hm) (hf s hm).1
  · intro hsign
    refine ⟨fun s hm => intactAt_of_sign (hp s hm) (t.all_all hsign s hm), hspelt, fun s hm => ?_⟩
    have hss := t.all_all hs s hm
    have hbin : s.All (·.isBinaryOp = false) := hss.mono fun _ => isSigned_not_binaryOp
    have hrows := rowsFit_of_not_binaryOp hbin.root
    have hloose : s.All (·.looseRow ≤ Level.sign) := hss.mono fun _ => isSigned_loose
    have hor : s.All (·.signOrNot = true) := hloose.mono fun _ h => by simp [Tree.signOrNot, h]
    exact ⟨edgesFit_of_sign hor (t.all_all hp s hm) hrows (hsign s hm)
      (notAt_of_loose hloose hrows), hrows, comparesFit_of_not_binaryOp hbin⟩

/-- `-5 ^ a`: the sign is tighter than the power. -/
theorem integer_operand_power :
    let t : Tree := .bin .exp (.ofInt (-5)) (.column "a".toList)
    ∃ e, t.build = .ok e ∧ e.toString = "-5 ^ a".toList ∧
      readExpr e.toString = some (.bin "^".toList
        (.pre "-".toList (.number "5".toList)) (.column "a".toList)) :=
  ⟨_, rfl, by decide, (integer_operand (t := .bin .exp (.ofInt (-5)) (.column "a".toList))
    (by unfold Tree.Named; decide) (by decide) (by decide) (by decide) rfl).2.2 (by decide)⟩

/-- The minus of `-Expr(-5)` opens a comment, and the index of `Expr(-5)[1]` is of `5`. -/
theorem negative_not_operand :
    (∃ e, (Tree.neg (.ofInt (-5))).build = .ok e ∧ e.toString = "--5".toList ∧
      readExpr e.toString = none ∧ readExpr e.toString ≠ some (Tree.neg (.ofInt (-5))).toSql) ∧
    ∃ e, (Tree.index (.ofInt (-5)) (.ofInt 1)).build = .ok e ∧ e.toString = "-5[1]".toList ∧
      readExpr e.toString = some (.pre "-".toList
        (.index (.number "5".toList) (.number "1".toList))) ∧
      readExpr e.toString ≠ some (Tree.index (.ofInt (-5)) (.ofInt 1)).toSql := by
  have hneg : readExpr (Expr.fromInteger (.negSucc 4)).neg.toString = none := rfl
  have hindex : readExpr ((Expr.fromInteger (.negSucc 4)).index (.fromInteger 1)).toString =
      some (.pre "-".toList (.index (.number "5".toList) (.number "1".toList))) := rfl
  exact ⟨⟨_, rfl, by decide, hneg, fun h => nomatch hneg.symm.trans h⟩, _, rfl, by decide, hindex,
    fun h => nomatch hindex.symm.trans h⟩

end IronQuery
