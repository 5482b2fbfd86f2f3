import IronQuery.Proof.TreeGroups

/-!
# Prefix operators of any name

`PrefixOp` is built with the precedence of a unary plus, and PostgreSQL gives that row to `+` and `-`
alone. `prefix_operand`: where no `BinaryOp` stands in the tree, the text is read as built if and
only if nothing is lost on the way (`Tree.Intact`, `Tree.spelt`), and no prefix operator is open at
the right edge of an operand in front of an operator that is tighter (`Tree.edgesFit`).
-/

namespace IronQuery

open OperatorPrecedence Pg

/-- **A prefix operator is applied to its operand where nothing behind it is tighter.** The
condition is enough whatever the queries in the tree say, and needed where they hold no comments. -/
theorem prefix_operand {t : Tree} {e : Expr} (hn : t.Named) (hc : t.All (·.callable = true))
    (hb : t.All (·.isBinaryOp = false)) (h : t.build = .ok e) :
    (t.Intact ∧ t.All (·.spelt = true) ∧ t.All (·.edgesFit = true) →
      readExpr e.toString = some t.toSql) ∧
    (t.All (·.clean = true) → readExpr e.toString = some t.toSql →
      t.Intact ∧ t.All (·.spelt = true) ∧ t.All (·.edgesFit = true)) := by
  constructor
  · rintro ⟨hi, hs, hf⟩
    refine (reads_iff (t.rendered hn hi h) hc).2 ⟨hs, (fits_iff hs).2 fun s hm => ?_⟩
    have hbin := t.all_all hb s hm
    exact ⟨hf s hm, rowsFit_of_not_binaryOp hbin.root, comparesFit_of_not_binaryOp hbin⟩
  · intro hq hr
    obtain ⟨hi, hs, hf⟩ := (built_reads_iff hn hc hq h).1 hr
    exact ⟨hi, hs, ((fits_iff hs).1 hf).mono fun _ hfit => hfit.1⟩

/-- `a || @ b`: the operator stands behind one of its own row. -/
theorem prefix_operand_concat :
    let t : Tree := .bin .concat (.column "a".toList) (.prefixOp "@".toList (.column "b".toList))
    ∃ e, t.build = .ok e ∧ e.toString = "a || @ b".toList ∧
      (readExpr e.toString = some (.bin "||".toList (.column "a".toList)
        (.pre "@".toList (.column "b".toList)))) ∧
      t.Intact ∧ t.All (·.spelt = true) ∧ t.All (·.edgesFit = true) := by
  have hboth := prefix_operand (e := _) (t := .bin .concat (.column "a".toList)
    (.prefixOp "@".toList (.column "b".toList))) (by unfold Tree.Named; decide) (by decide)
    (by decide) rfl
  have hfit : (Tree.bin .concat (.column "a".toList)
      (.prefixOp "@".toList (.column "b".toList))).Intact := by
    unfold Tree.Intact
    decide
  have hread := hboth.1 ⟨hfit, by decide, by decide⟩
  exact ⟨_, rfl, by decide, hread, hboth.2 (by decide) hread⟩

/-- `PrefixOp("@", a) + b` is read as `@` applied to `a + b`. -/
theorem prefix_takes_sum :
    let t : Tree := .bin .add (.prefixOp "@".toList (.column "a".toList)) (.column "b".toList)
    ∃ e, t.build = .ok e ∧ e.toString = "@ a + b".toList ∧
      readExpr e.toString = some (.pre "@".toList
        (.bin "+".toList (.column "a".toList) (.column "b".toList))) ∧
      readExpr e.toString ≠ some t.toSql :=
  ⟨_, rfl, misread (a := .pre _ (.bin _ (.column _) (.column _))) (by decide) (by decide)
    ⟨(by decide : isName "a".toList = true), (by decide : isName "b".toList = true)⟩
    ⟨⟨trivial, trivial, by decide, by decide⟩, by decide⟩ nofun⟩

end IronQuery
