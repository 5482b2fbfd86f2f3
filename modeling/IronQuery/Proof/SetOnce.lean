import IronQuery.Proof.Setters

/-!
# Which clauses are set at most once

For each builder, `…Call.marks` is the step condition under which its clauses are set once: the
value leaves a mark in its storage, so that the next setter sees it, and a setter that does not look
finds its clause unset. `set_once` has the runs of all six builders.
-/

namespace IronQuery

/-! ## SELECT -/

/-- The objects agree on the clause (a flag that was set stays set). -/
def SelectClause.same : SelectClause → SelectExpr → SelectExpr → Prop
  | distinct, s, t => s.distinct_ = true → t.distinct_ = true
  | distinctOn, s, t => s.distinctOn_ = t.distinctOn_
  | select, s, t => s.select_ = t.select_
  | .where, s, t => s.where_ = t.where_
  | groupBy, s, t => s.groupBy_ = t.groupBy_
  | having, s, t => s.having_ = t.having_
  | orderBy, s, t => s.orderBy_ = t.orderBy_
  | limit, s, t => s.limit_ = t.limit_
  | offset, s, t => s.offset_ = t.offset_

/-- An optional tells every value from none: no condition. -/
theorem select_setsOnce :
    SetsOnce SelectCall.apply SelectCall.valueClause SelectClause.same fun _ _ => True := by
  have h : SetStep SelectCall.apply SelectCall.valueClause SelectClause.same (fun _ _ => True)
      fun k s => k.isSet s = true := by
    refine select_setter.setStep (fun c s k hk => ?_) (fun s c k _ hk => ?_)
      (fun s c k _ hk hs => ⟨nofun, fun _ => ?_⟩) (fun k s => ?_) (fun k s t u h h' => ?_)
      (fun k s t h hs => ?_)
    · cases c <;> cases k <;>
        first | exact absurd rfl hk | rfl | exact fun h => h | exact fun _ => rfl
    · cases c <;> cases hk <;> rfl
    · rw [SelectCall.blocked, hk]
      exact hs
    · cases k <;> first | rfl | exact fun h => h
    · cases k <;> first | exact Eq.trans h h' | exact h' ∘ h
    · cases k
      case distinct => exact h hs
      all_goals
        simp only [SelectClause.isSet, SelectClause.same] at *
        rw [← h]
        exact hs
  exact .of_step h

/-! ## INSERT -/

def InsertClause.same : InsertClause → InsertInto → InsertInto → Prop
  | columns, s, t => s.columns_ = t.columns_
  | rows, s, t => s.rows_ = t.rows_
  | returning, s, t => s.returning_ = t.returning_
  | onConflict, s, t => s.onConflict_ = t.onConflict_

/-- The value leaves a mark, and an `ON CONFLICT` setter finds none. -/
def InsertCall.marks (s : InsertInto) : InsertCall → Prop
  | columns cols => cols ≠ []
  | values _ => True
  | rows r => r ≠ []
  | returning items => joinCsv (items.map SelectItem.toString) ≠ []
  | onConflictDoNothing | onConflictDoNothingAt _ | onConflictDoUpdate _ _ => s.onConflict_ = []

theorem isSet_list {α : Type} {l : List α} : isSet l = true ↔ l ≠ [] := by
  cases l <;> simp [isSet]

theorem insert_setsOnce : SetsOnce InsertCall.apply InsertCall.clause InsertClause.same
    InsertCall.marks := by
  have h : SetStep InsertCall.apply InsertCall.clause InsertClause.same InsertCall.marks
      fun k s => k.isSet s = true := by
    refine insert_setter.setStep (fun c s k hk => ?_) (fun s c k hok hk => ?_)
      (fun s c k hok hk hs => ?_) (fun k s => ?_) (fun k s t u h h' => ?_) (fun k s t h hs => ?_)
    · cases c <;> cases k <;> first | rfl | exact absurd rfl hk
    · cases c <;> cases hk <;> refine isSet_list.2 ?_
      case columns.refl cols => exact fun h => hok (List.map_eq_nil_iff.1 h)
      case values.refl vals => exact List.cons_ne_nil _ _
      case rows.refl r => exact fun h => hok (List.map_eq_nil_iff.1 h)
      case returning.refl items => exact hok
      all_goals exact List.cons_ne_nil _ _
    · cases c <;> cases hk
      case columns.refl | values.refl | rows.refl | returning.refl => exact ⟨nofun, fun _ => hs⟩
      -- an `ON CONFLICT` setter met a clause that was set
      all_goals exact absurd hok (isSet_list.1 hs)
    · cases k <;> rfl
    · cases k <;> exact Eq.trans h h'
    · cases k <;> simp only [InsertClause.isSet, InsertClause.same] at * <;> rw [← h] <;> exact hs
  exact .of_step h

/-! ## UPDATE and DELETE -/

def UpdateClause.same : UpdateClause → Update → Update → Prop
  | .from, s, t => s.from_ = t.from_
  | .where, s, t => s.where_ = t.where_
  | returning, s, t => s.returning_ = t.returning_

def UpdateCall.marks (_ : Update) : UpdateCall → Prop
  | set _ _ => True
  | .from tbl => tbl.fromText ≠ []
  | .where exp => exp.toString ≠ []
  | returning items => joinCsv (items.map SelectItem.toString) ≠ []

theorem update_setsOnce : SetsOnce UpdateCall.apply UpdateCall.clause UpdateClause.same
    UpdateCall.marks := by
  have h : SetStep UpdateCall.apply UpdateCall.clause UpdateClause.same UpdateCall.marks
      fun k s => k.isSet s = true := by
    refine update_setter.setStep (fun c s k hk => ?_) (fun s c k hok hk => ?_)
      (fun s c k hok hk hs => ⟨fun e he => ?_, fun _ => ?_⟩) (fun k s => ?_)
      (fun k s t u h h' => ?_) (fun k s t h hs => ?_)
    · cases c <;> cases k <;> first | rfl | exact absurd rfl hk
    · cases c <;> cases hk <;> exact isSet_list.2 hok
    · cases c
      case «from» tbl => exact fromError_isLogicError he
      all_goals cases he
    · rw [UpdateCall.blocked, hk]
      exact hs
    · cases k <;> rfl
    · cases k <;> exact Eq.trans h h'
    · cases k <;> simp only [UpdateClause.isSet, UpdateClause.same] at * <;> rw [← h] <;> exact hs
  exact .of_step h

def DeleteClause.same : DeleteClause → DeleteFrom → DeleteFrom → Prop
  | .using, s, t => s.using_ = t.using_
  | .where, s, t => s.where_ = t.where_
  | returning, s, t => s.returning_ = t.returning_

def DeleteCall.marks (_ : DeleteFrom) : DeleteCall → Prop
  | .using tbl => tbl.fromText ≠ []
  | .where exp => exp.toString ≠ []
  | returning items => joinCsv (items.map SelectItem.toString) ≠ []

theorem delete_setsOnce : SetsOnce DeleteCall.apply DeleteCall.clause DeleteClause.same
    DeleteCall.marks := by
  have h : SetStep DeleteCall.apply DeleteCall.clause DeleteClause.same DeleteCall.marks
      fun k s => k.isSet s = true := by
    refine delete_setter.setStep (fun c s k hk => ?_) (fun s c k hok hk => ?_)
      (fun s c k hok hk hs => ⟨fun e he => ?_, fun _ => ?_⟩) (fun k s => ?_)
      (fun k s t u h h' => ?_) (fun k s t h hs => ?_)
    · cases c <;> cases k <;> first | rfl | exact absurd rfl hk
    · cases c <;> cases hk <;> exact isSet_list.2 hok
    · cases c
      case «using» tbl => exact fromError_isLogicError he
      all_goals cases he
    · rw [DeleteCall.blocked, hk]
      exact hs
    · cases k <;> rfl
    · cases k <;> exact Eq.trans h h'
    · cases k <;> simp only [DeleteClause.isSet, DeleteClause.same] at * <;> rw [← h] <;> exact hs
  exact .of_step h

/-! ## Joins and CASE -/

def JoinClause.same : JoinClause → Join → Join → Prop
  | on, s, t => s.on_ = t.on_
  | .using, s, t => s.using_ = t.using_

/-- No columns at all throw `InvalidArgument`, whatever was set before. -/
def JoinCall.marks (_ : Join) : JoinCall → Prop
  | on exp => exp.toString ≠ []
  | .using columns => columns ≠ [] ∧ joinCsv (columns.map Expr.toString) ≠ []

theorem join_bad_isLogicError {s : Join} {c : JoinCall} {e : Exception} (hok : c.marks s)
    (h : c.bad s = some e) : e.isLogicError = true := by
  cases c with
  | on exp =>
    simp only [JoinCall.bad] at h
    repeat' split at h
    all_goals cases h
    all_goals rfl
  | «using» columns =>
    simp only [JoinCall.bad, List.length_eq_zero_iff, hok.1, if_false] at h
    repeat' split at h
    all_goals cases h
    all_goals rfl

theorem join_setsOnce : SetsOnce JoinCall.apply JoinCall.clause JoinClause.same
    fun s c => c.marks s := by
  have h : SetStep JoinCall.apply JoinCall.clause JoinClause.same (fun s c => c.marks s)
      fun k s => k.isSet s = true := by
    refine join_setter.setStep (fun c s k hk => ?_) (fun s c k hok hk => ?_)
      (fun s c k hok hk hs => ⟨fun e he => join_bad_isLogicError hok he, fun _ => ?_⟩)
      (fun k s => ?_) (fun k s t u h h' => ?_) (fun k s t h hs => ?_)
    · cases c <;> cases k <;> first | rfl | exact absurd rfl hk
    · cases c <;> cases hk
      · exact isSet_list.2 hok
      · exact isSet_list.2 hok.2
    · rw [JoinCall.blocked, hk]
      exact hs
    · cases k <;> rfl
    · cases k <;> exact Eq.trans h h'
    · cases k <;> simp only [JoinClause.isSet, JoinClause.same] at * <;> rw [← h] <;> exact hs
  exact .of_step h

/-- `Else` has no guard at all. -/
def CaseCall.marks (s : CaseBuilder) : CaseCall → Prop
  | when _ | .then _ => True
  | .else result => s.else_ = [] ∧ result.toString ≠ []

theorem case_setsOnce : SetsOnce CaseCall.apply CaseCall.clause
    (fun _ s t => s.else_ = t.else_) fun s c => c.marks s := by
  have h : SetStep CaseCall.apply CaseCall.clause (fun _ s t => s.else_ = t.else_)
      (fun s c => c.marks s) fun _ s => s.else_ ≠ [] := by
    refine case_setter.setStep (fun c s k hk => ?_) (fun s c k hok hk => ?_)
      (fun s c k hok hk hs => ?_) (fun k s => rfl) (fun k s t u h h' => h.trans h')
      (fun k s t h hs => h ▸ hs)
    · cases c
      case «else» result => exact absurd rfl hk
      all_goals rfl
    · cases c <;> cases hk
      exact hok.2
    · cases c <;> cases hk
      exact absurd hok.1 hs
  exact .of_step h

/-! ## All builders -/

/-- The clauses of the builder are set once, in every run whose calls leave a mark. -/
def Builder.setsOnce : Builder → Prop
  | select => SetsOnce SelectCall.apply SelectCall.valueClause SelectClause.same fun _ _ => True
  | insert => SetsOnce InsertCall.apply InsertCall.clause InsertClause.same InsertCall.marks
  | update => SetsOnce UpdateCall.apply UpdateCall.clause UpdateClause.same UpdateCall.marks
  | delete => SetsOnce DeleteCall.apply DeleteCall.clause DeleteClause.same DeleteCall.marks
  | join => SetsOnce JoinCall.apply JoinCall.clause JoinClause.same JoinCall.marks
  | case =>
    SetsOnce CaseCall.apply CaseCall.clause (fun _ s t => s.else_ = t.else_) CaseCall.marks

/-- **Set-once for every clause of every builder**, over every run whose calls leave a mark. -/
theorem set_once (b : Builder) : b.setsOnce := by
  cases b with
  | select => exact select_setsOnce
  | insert => exact insert_setsOnce
  | update => exact update_setsOnce
  | delete => exact delete_setsOnce
  | join => exact join_setsOnce
  | case => exact case_setsOnce

/-- A second `WHERE` on a DELETE. -/
theorem set_once_where : ∃ e, (DeleteCall.apply (.where (.fromRaw "b".toList))
    (after DeleteCall.apply [.where (.fromRaw "a".toList)] (.new (.fromRaw "t".toList)))).thrown =
      some e ∧ e.isLogicError = true :=
  (set_once .delete).second (.new (.fromRaw "t".toList)) [] [] (.where (.fromRaw "a".toList))
    (.where (.fromRaw "b".toList)) .where ⟨List.cons_ne_nil _ _, List.cons_ne_nil _ _, trivial⟩
    rfl rfl rfl

/-- Without the condition it fails: a second `ON CONFLICT` replaces the first. -/
theorem not_set_once_onConflict :
    ¬ SetsOnce InsertCall.apply InsertCall.clause InsertClause.same fun _ _ => True := by
  intro h
  obtain ⟨e, he, -⟩ := h.second (InsertInto.new (.fromRaw "t".toList)) [] []
    .onConflictDoNothing (.onConflictDoNothingAt [Column.toExpr ⟨"id".toList⟩]) .onConflict
    ⟨trivial, trivial, trivial⟩ rfl rfl rfl
  cases he

end IronQuery
