import IronQuery.Proof.TreeGroups

/-!
# Infix operators of any name

`BinaryOp` is built with the precedence of "any other operator", and PostgreSQL gives that row to
the names that no other row holds. `binary_operand`: the text is read as built if and only if
nothing is lost on the way (`Tree.Intact`, `Tree.spelt`), no prefix operator is open in front of a
tighter one (`Tree.edgesFit`), the bare operands of a `BinaryOp` are as tight as the row of its name
asks (`Tree.rowsFit`), and none that compares is an operand of a comparison (`Tree.comparesFit`).
-/

namespace IronQuery

open OperatorPrecedence Pg

/-- **An infix operator groups its operands as built where they fit the row of its name.** The
condition is enough whatever the queries in the tree say, and needed where they hold no comments. -/
theorem binary_operand {t : Tree} {e : Expr} (hn : t.Named) (hc : t.All (·.callable = true))
    (h : t.build = .ok e) :
    (t.Intact ∧ t.All (·.groupsAt = true) → readExpr e.toString = some t.toSql) ∧
    (t.All (·.clean = true) → readExpr e.toString = some t.toSql →
      t.Intact ∧ t.All (·.groupsAt = true)) :=
  ⟨fun hg => groups_reads hn hc h hg.1 hg.2, fun hq => reads_groups hn hc hq h⟩

/-- `(a = b) -> c`: the comparison is put in brackets. -/
theorem binary_operand_compare :
    let t : Tree := .binaryOp "->".toList
      (.compare .eq (.column "a".toList) (.column "b".toList)) (.column "c".toList)
    ∃ e, t.build = .ok e ∧ e.toString = "(a = b) -> c".toList ∧
      (readExpr e.toString = some (.bin "->".toList
        (.bin "=".toList (.column "a".toList) (.column "b".toList)) (.column "c".toList))) ∧
      t.Intact ∧ t.All (·.groupsAt = true) := by
  have hboth := binary_operand (e := _) (t := .binaryOp "->".toList
    (.compare .eq (.column "a".toList) (.column "b".toList)) (.column "c".toList))
    (by unfold Tree.Named; decide) (by decide) rfl
  have hread := hboth.1 ⟨by unfold Tree.Intact; decide, by decide⟩
  exact ⟨_, rfl, by decide, hread, hboth.2 (by decide) hread⟩

/-- `(a + b).BinaryOp("*", c)` is read as the sum of `a` and `b * c`. -/
theorem times_takes_summand :
    let t : Tree := .binaryOp "*".toList
      (.bin .add (.column "a".toList) (.column "b".toList)) (.column "c".toList)
    ∃ e, t.build = .ok e ∧ e.toString = "a + b * c".toList ∧
      readExpr e.toString = some (.bin "+".toList (.column "a".toList)
        (.bin "*".toList (.column "b".toList) (.column "c".toList))) ∧
      readExpr e.toString ≠ some t.toSql :=
  ⟨_, rfl, misread (a := .bin _ (.column _) (.bin _ (.column _) (.column _))) (by decide)
    (by decide) ⟨(by decide : isName "a".toList = true), (by decide : isName "b".toList = true),
      (by decide : isName "c".toList = true)⟩
    ⟨trivial, ⟨trivial, trivial, by decide, by decide⟩, by decide, by decide⟩
    fun h => absurd (Sql.bin.inj h).1 (by decide)⟩

end IronQuery
