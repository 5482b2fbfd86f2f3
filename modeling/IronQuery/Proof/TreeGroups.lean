import IronQuery.Proof.TreeEdges
import IronQuery.Proof.TreeLoses

/-!
# The texts that are read as built

`groups_reads`, `reads_groups`: the text of a tree is read as what the tree means if and only if
nothing is lost on the way (`Tree.Intact`) and the operators of every tree in it group as built
(`Tree.groupsAt`). The condition is enough whatever the queries in the tree say, and needed where
they hold no comments.
-/

namespace IronQuery

open Pg

/-- The operators of the root group as built. -/
def Tree.groupsAt (t : Tree) : Bool := t.spelt && t.edgesFit && t.rowsFit && t.comparesFit

theorem groups_iff {t : Tree} : t.All (·.groupsAt = true) ↔
    t.All (·.spelt = true) ∧ t.All Tree.FitsAt := by
  have hsplit (s : Tree) : s.groupsAt = true ↔
      s.spelt = true ∧ s.edgesFit = true ∧ s.rowsFit = true ∧ s.comparesFit = true := by
    simp only [Tree.groupsAt, Bool.and_eq_true, and_assoc]
  constructor
  · intro h
    have hs : t.All (·.spelt = true) := h.mono fun s hg => ((hsplit s).1 hg).1
    exact ⟨hs, (fits_iff hs).2 (h.mono fun s hg => ((hsplit s).1 hg).2)⟩
  · rintro ⟨hs, hf⟩ s hm
    exact (hsplit s).2 ⟨hs s hm, (fits_iff hs).1 hf s hm⟩

section
variable {t : Tree} {e : Expr}

theorem groups_reads (hn : t.Named) (hc : t.All (·.callable = true)) (h : t.build = .ok e)
    (hi : t.Intact) (hg : t.All (·.groupsAt = true)) : readExpr e.toString = some t.toSql :=
  (reads_iff (t.rendered hn hi h) hc).2 (groups_iff.1 hg)

theorem reads_groups (hn : t.Named) (hc : t.All (·.callable = true))
    (hq : t.All (·.clean = true)) (h : t.build = .ok e)
    (hr : readExpr e.toString = some t.toSql) : t.Intact ∧ t.All (·.groupsAt = true) := by
  obtain ⟨hi, hs⟩ := (built_reads_iff hn hc hq h).1 hr
  exact ⟨hi, groups_iff.2 hs⟩

/-- A text that spells another syntax tree, and is read as that. -/
theorem misread {s : Text} {a b : Sql} (ht : e.toString = s) (hu : units (lex s) = a.lexemes)
    (hf : a.Formed) (hfit : a.Fits) (hne : a.strip ≠ b) :
    e.toString = s ∧ readExpr e.toString = some a.strip ∧ readExpr e.toString ≠ some b := by
  subst ht
  have hr : readExpr e.toString = some a.strip := by rw [readExpr, hu, parse_lexemes hf hfit]
  exact ⟨rfl, hr, fun h => hne (Option.some.inj (hr.symm.trans h))⟩

end

/-- `SELECT 1 FROM t`. -/
def oneRow : Subquery where
  table := .select { from_ := "t".toList, select_ := some [⟨"1".toList⟩] }
  text := "SELECT 1 FROM t".toList
  tokens := [.word "SELECT".toList, .number "1".toList, .word "FROM".toList, .word "t".toList]
  bracketed := rfl
  reads := opens_const (by decide) (by decide)
  closes _ := rfl
  query := by decide

end IronQuery
