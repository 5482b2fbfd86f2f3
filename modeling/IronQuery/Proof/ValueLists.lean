import IronQuery.Proof.TreeGroups

/-!
# Value lists, arrays and subqueries

A scalar subquery is an expression in brackets, and `IN`, `ANY` and `ALL` write brackets of their
own: `x IN ((SELECT 1))`. PostgreSQL takes a query in any number of brackets there for the subquery
form. `value_lists`: the forms are told apart if and only if no list is one subquery and no array is
one (`Tree.listAt`), and the operators around them group as built.
-/

namespace IronQuery

open Pg

/-- The list or the array of the root is more than a subquery. -/
def Tree.listAt : Tree → Bool
  | .isIn _ _ [.scalar _] | .eqAny _ (.scalar _) | .neAll _ (.scalar _) => false
  | _ => true

/-- PostgreSQL cuts no sign off the operator of the root. -/
def Tree.nameAt : Tree → Bool
  | .prefixOp op _ | .binaryOp op _ _ => !losesSign op
  | _ => true

theorem spelt_eq (t : Tree) : t.spelt = (t.nameAt && t.listAt) := by
  cases t
  case isIn neg a l =>
    rcases l with _ | ⟨b, _ | ⟨_, _⟩⟩
    · rfl
    · cases b <;> rfl
    · cases b <;> rfl
  case eqAny a b => cases b <;> rfl
  case neAll a b => cases b <;> rfl
  case prefixOp op a => exact (Bool.and_true _).symm
  case binaryOp op a b => exact (Bool.and_true _).symm
  all_goals rfl

theorem groups_lists {t : Tree} : t.All (·.groupsAt = true) ↔
    (t.All (·.nameAt = true) ∧ t.All Tree.FitsAt) ∧ t.All (·.listAt = true) := by
  rw [groups_iff]
  simp only [spelt_eq, Bool.and_eq_true]
  constructor
  · exact fun h => ⟨⟨h.1.mono fun _ hs => hs.1, h.2⟩, h.1.mono fun _ hs => hs.2⟩
  · exact fun h => ⟨fun s hm => ⟨h.1.1 s hm, h.2 s hm⟩, h.1.2⟩

/-- **The forms are told apart where no list and no array is one subquery.** The condition is enough
whatever the queries say, and needed where they hold no comments. -/
theorem value_lists {t : Tree} {e : Expr} (hn : t.Named) (hc : t.All (·.callable = true))
    (h : t.build = .ok e) :
    (t.Intact ∧ (t.All (·.nameAt = true) ∧ t.All Tree.FitsAt) ∧ t.All (·.listAt = true) →
      readExpr e.toString = some t.toSql) ∧
    (t.All (·.clean = true) → readExpr e.toString = some t.toSql →
      t.Intact ∧ (t.All (·.nameAt = true) ∧ t.All Tree.FitsAt) ∧ t.All (·.listAt = true)) := by
  rw [← groups_lists]
  exact ⟨fun hg => groups_reads hn hc h hg.1 hg.2, fun hq => reads_groups hn hc hq h⟩

/-- A subquery and a number are a list of two values. -/
theorem value_lists_two :
    let t : Tree := .isIn false (.column "x".toList) [.scalar oneRow, .int 2]
    ∃ e, t.build = .ok e ∧ e.toString = "x IN ((SELECT 1 FROM t), 2)".toList ∧
      (readExpr e.toString = some (.inList false (.column "x".toList)
        [.subquery oneRow.tokens, .number "2".toList])) ∧
      t.All (·.listAt = true) := by
  have hboth := value_lists (e := _)
    (t := .isIn false (.column "x".toList) [.scalar oneRow, .int 2])
    (by unfold Tree.Named; decide) (by decide) rfl
  have hread := hboth.1 ⟨by unfold Tree.Intact; decide, ⟨by decide, by decide⟩, by decide⟩
  exact ⟨_, rfl, by decide, hread, (hboth.2 (by decide) hread).2.2⟩

/-- The list of one scalar subquery is read as the subquery form. -/
theorem one_subquery_not_list :
    let t : Tree := .isIn false (.column "x".toList) [.scalar oneRow]
    ∃ e, t.build = .ok e ∧ e.toString = "x IN ((SELECT 1 FROM t))".toList ∧
      readExpr e.toString = some (.inQuery false (.column "x".toList)
        (bracketed oneRow.tokens)) ∧
      readExpr e.toString ≠ some t.toSql :=
  ⟨_, rfl, misread (a := .inQuery _ (.column _) _) (by decide) (by decide)
    (by decide : isName "x".toList = true) ⟨trivial, by decide⟩ nofun⟩

end IronQuery
