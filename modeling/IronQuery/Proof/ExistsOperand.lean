import IronQuery.Proof.TreeGroups
import IronQuery.Proof.TreeSigns

/-!
# EXISTS and NOT EXISTS as operands

Both are built as atoms, and PostgreSQL reads the `NOT` of the second as the prefix operator it is.
`exists_operand`: where no `PrefixOp` stands in the tree, the predicates are read as operands if and
only if no operand that a `NOT EXISTS` ends stands in no brackets in front of an operator tighter
than `NOT` (`Tree.notAt`), and the operators of the rest group as built.
-/

namespace IronQuery

open OperatorPrecedence Pg

def Tree.isPrefixOp : Tree → Bool
  | .prefixOp _ _ => true
  | _ => false

/-- No `NOT` of the root is open in front of a tighter operator, and the rest of it is read as
built. -/
def Tree.existsAt (t : Tree) : Bool :=
  t.notAt && t.signAt && t.spelt && t.rowsFit && t.comparesFit

theorem isPrefixOp_signOrNot {t : Tree} (h : t.isPrefixOp = false) : t.signOrNot = true := by
  cases t
  case prefixOp op a => cases h
  case «exists» neg q => cases neg <;> rfl
  all_goals rfl

theorem groups_exists {t : Tree} (hd : t.All (·.pointAt = true))
    (hp : t.All (·.isPrefixOp = false)) :
    (t.Intact ∧ t.All (·.groupsAt = true)) ↔ t.All (·.existsAt = true) := by
  have hsign : t.All (·.signOrNot = true) := hp.mono fun _ => isPrefixOp_signOrNot
  simp only [Tree.groupsAt, Tree.existsAt, Bool.and_eq_true]
  constructor
  · rintro ⟨hi, hg⟩ s hm
    obtain ⟨⟨⟨hs, he⟩, hr⟩, hc⟩ := hg s hm
    exact ⟨⟨⟨⟨notAt_of_fits he, signAt_of_fits (hi s hm) he⟩, hs⟩, hr⟩, hc⟩
  · intro hx
    have hsigns : t.All (·.signAt = true) := hx.mono fun _ h => h.1.1.1.2
    refine ⟨fun s hm => intactAt_of_sign (hd s hm) (t.all_all hsigns s hm), fun s hm => ?_⟩
    obtain ⟨⟨⟨⟨hnot, hsg⟩, hs⟩, hr⟩, hc⟩ := hx s hm
    have he := edgesFit_of_sign (t.all_all hsign s hm) (t.all_all hd s hm) hr hsg hnot
    exact ⟨⟨⟨hs, he⟩, hr⟩, hc⟩

/-- **`EXISTS` and `NOT EXISTS` are safe operands where nothing tighter follows the `NOT`.** The
condition is enough whatever the queries say, and needed where they hold no comments. -/
theorem exists_operand {t : Tree} {e : Expr} (hn : t.Named) (hc : t.All (·.callable = true))
    (hd : t.All (·.pointAt = true)) (hp : t.All (·.isPrefixOp = false)) (h : t.build = .ok e) :
    (t.All (·.existsAt = true) → readExpr e.toString = some t.toSql) ∧
    (t.All (·.clean = true) → readExpr e.toString = some t.toSql →
      t.All (·.existsAt = true)) := by
  rw [← groups_exists hd hp]
  exact ⟨fun hg => groups_reads hn hc h hg.1 hg.2, fun hq => reads_groups hn hc hq h⟩

/-- `(NOT EXISTS (SELECT 1 FROM t)) AND a`, and the brackets it does without. -/
theorem exists_operand_and :
    let t : Tree := .and (.exists true oneRow) (.column "a".toList)
    ∃ e, t.build = .ok e ∧ e.toString = "NOT EXISTS (SELECT 1 FROM t) AND a".toList ∧
      (readExpr e.toString = some (.and (.not (.exists oneRow.tokens)) (.column "a".toList))) ∧
      t.All (·.existsAt = true) := by
  have hboth := exists_operand (e := _) (t := .and (.exists true oneRow) (.column "a".toList))
    (by unfold Tree.Named; decide) (by decide) (by decide) (by decide) rfl
  have hread := hboth.1 (by decide)
  exact ⟨_, rfl, by decide, hread, hboth.2 (by decide) hread⟩

/-- `IS NULL` of `NOT EXISTS` is read as the negation of a test of `EXISTS`. -/
theorem notExists_isNull :
    let t : Tree := .is .isNull (.exists true oneRow)
    ∃ e, t.build = .ok e ∧ e.toString = "NOT EXISTS (SELECT 1 FROM t) IS NULL".toList ∧
      readExpr e.toString = some (.not (.is false .null (.exists oneRow.tokens))) ∧
      readExpr e.toString ≠ some t.toSql :=
  ⟨_, rfl, misread (a := .not (.is _ _ (.exists _))) (by decide) (by decide) trivial
    ⟨⟨trivial, by decide⟩, by decide⟩ nofun⟩

end IronQuery
