import IronQuery.Calls

/-!
# What each setter does

For each builder: `…Clause.isSet` tells whether the clause is set, `…Call.put` is what a setter
writes, and `…_setter` says that it is written unless the clause is set (`Setter`).
-/

namespace IronQuery

/-! ## SELECT -/

def SelectClause.isSet : SelectClause → SelectExpr → Bool
  | distinct, s => s.distinct_
  | distinctOn, s => IronQuery.isSet s.distinctOn_
  | select, s => IronQuery.isSet s.select_
  | .where, s => IronQuery.isSet s.where_
  | groupBy, s => IronQuery.isSet s.groupBy_
  | having, s => IronQuery.isSet s.having_
  | orderBy, s => IronQuery.isSet s.orderBy_
  | limit, s => IronQuery.isSet s.limit_
  | offset, s => IronQuery.isSet s.offset_

namespace SelectCall

def put : SelectCall → SelectExpr → SelectExpr
  | distinct, s => { s with distinct_ := true }
  | distinctOn exps, s => { s with distinctOn_ := some exps }
  | select items, s => { s with select_ := some items }
  | .where exp, s => { s with where_ := some exp }
  | groupBy exps, s => { s with groupBy_ := some exps }
  | having exp, s => { s with having_ := some exp }
  | orderBy terms, s => { s with orderBy_ := some terms }
  | limit n, s => { s with limit_ := some n }
  | offset n, s => { s with offset_ := some n }

/-- The clauses but `DISTINCT`, a flag that may be set again. -/
def valueClause : SelectCall → Option SelectClause
  | distinct => none
  | c => c.clause

def blocked (c : SelectCall) (s : SelectExpr) : Bool := c.valueClause.any fun k => k.isSet s

end SelectCall

theorem select_setter : Setter SelectCall.apply SelectCall.put (fun _ _ => none) SelectCall.blocked
    fun _ _ => none where
  rejects _ _ _ h := by cases h
  blocks c s _ hb := by
    cases c with
    | distinct => cases hb
    | distinctOn exps => exact setOnce_of_set (show isSet s.distinctOn_ = true from hb)
    | select items => exact setOnce_of_set (show isSet s.select_ = true from hb)
    | «where» exp => exact setOnce_of_set (show isSet s.where_ = true from hb)
    | groupBy exps => exact setOnce_of_set (show isSet s.groupBy_ = true from hb)
    | having exp => exact setOnce_of_set (show isSet s.having_ = true from hb)
    | orderBy terms => exact setOnce_of_set (show isSet s.orderBy_ = true from hb)
    | limit n => exact setOnce_of_set (show isSet s.limit_ = true from hb)
    | offset n => exact setOnce_of_set (show isSet s.offset_ = true from hb)
  writes c s _ hb := by
    cases c with
    | distinct => rfl
    | distinctOn exps => exact setOnce_of_not (show isSet s.distinctOn_ = false from hb)
    | select items => exact setOnce_of_not (show isSet s.select_ = false from hb)
    | «where» exp => exact setOnce_of_not (show isSet s.where_ = false from hb)
    | groupBy exps => exact setOnce_of_not (show isSet s.groupBy_ = false from hb)
    | having exp => exact setOnce_of_not (show isSet s.having_ = false from hb)
    | orderBy terms => exact setOnce_of_not (show isSet s.orderBy_ = false from hb)
    | limit n => exact setOnce_of_not (show isSet s.limit_ = false from hb)
    | offset n => exact setOnce_of_not (show isSet s.offset_ = false from hb)

/-! ## INSERT -/

def InsertClause.isSet : InsertClause → InsertInto → Bool
  | columns, s => IronQuery.isSet s.columns_
  | rows, s => IronQuery.isSet s.rows_
  | returning, s => IronQuery.isSet s.returning_
  | onConflict, s => IronQuery.isSet s.onConflict_

namespace InsertCall

/-- The text of an `ON CONFLICT` call. -/
def conflictText : InsertCall → Text
  | onConflictDoNothing => "ON CONFLICT DO NOTHING".toList
  | onConflictDoNothingAt cols =>
    "ON CONFLICT (".toList ++ joinCsv (cols.map Expr.toString) ++ ") DO NOTHING".toList
  | onConflictDoUpdate cols assignments =>
    "ON CONFLICT (".toList ++ joinCsv (cols.map Expr.toString) ++ ") DO UPDATE SET ".toList ++
      InsertInto.assignmentCsv assignments
  | _ => []

/-- The rows a call gives. -/
def rowsText : InsertCall → List (List Text)
  | values vals => [vals.map Expr.toString]
  | rows r => r.map fun row => row.map Expr.toString
  | _ => []

def put (c : InsertCall) (s : InsertInto) : InsertInto :=
  match c with
  | columns cols => { s with columns_ := cols.map Expr.toString }
  | values _ | rows _ => { s with rows_ := c.rowsText }
  | returning items => { s with returning_ := joinCsv (items.map SelectItem.toString) }
  | onConflictDoNothing | onConflictDoNothingAt _ | onConflictDoUpdate _ _ =>
    { s with onConflict_ := c.conflictText }

def bad : InsertCall → InsertInto → Option Exception
  | onConflictDoUpdate _ [], _ =>
    some (.invalidArgument "ON CONFLICT DO UPDATE needs at least one assignment".toList)
  | _, _ => none

/-- The `ON CONFLICT` setters do not look. -/
def blocked (c : InsertCall) (s : InsertInto) : Bool :=
  c.clause.any fun k => k != .onConflict && k.isSet s

def check : InsertCall → InsertInto → Option Exception
  | columns _, s | values _, s | rows _, s => InsertInto.ensureSameArity s.columns_ s.rows_
  | _, _ => none

end InsertCall

theorem checkArity_eq (s : InsertInto) :
    s.checkArity = ⟨InsertInto.ensureSameArity s.columns_ s.rows_, s⟩ := by
  unfold InsertInto.checkArity
  cases InsertInto.ensureSameArity s.columns_ s.rows_ <;> rfl

theorem insert_setter :
    Setter InsertCall.apply InsertCall.put InsertCall.bad InsertCall.blocked InsertCall.check where
  rejects c s e hb := by
    cases c
    case onConflictDoUpdate cols assignments =>
      cases assignments <;> cases hb
      rfl
    all_goals cases hb
  blocks c s _ hb := by
    cases c
    case onConflictDoNothing | onConflictDoNothingAt | onConflictDoUpdate => cases hb
    case returning => exact setOnce_of_set (show isSet s.returning_ = true from hb)
    case columns =>
      exact andThen_of_throw _ (setOnce_of_set (show isSet s.columns_ = true from hb))
    case values => exact andThen_of_throw _ (setOnce_of_set (show isSet s.rows_ = true from hb))
    case rows =>
      rw [InsertCall.apply, InsertInto.rows]
      exact andThen_of_throw _ (ensureNotSet_of_set (show isSet s.rows_ = true from hb))
  writes c s hbad hb := by
    cases c
    case onConflictDoNothing | onConflictDoNothingAt => rfl
    case onConflictDoUpdate cols assignments =>
      cases assignments
      · cases hbad
      · rfl
    case returning => exact setOnce_of_not hb
    case columns cols =>
      rw [InsertCall.apply, InsertInto.columns, setOnce_of_not hb, Outcome.andThen_ok, checkArity_eq]
      rfl
    case values vals =>
      rw [InsertCall.apply, InsertInto.values, setOnce_of_not hb, Outcome.andThen_ok, checkArity_eq]
      rfl
    case rows r =>
      have hnil : s.rows_ = [] := List.isEmpty_iff.1 (Bool.not_eq_false' _ ▸ hb)
      rw [InsertCall.apply, InsertInto.rows, ensureNotSet_of_not hb, Outcome.andThen_ok,
        checkArity_eq, hnil]
      rfl

/-! ## UPDATE -/

def UpdateClause.isSet : UpdateClause → Update → Bool
  | .from, s => IronQuery.isSet s.from_
  | .where, s => IronQuery.isSet s.where_
  | returning, s => IronQuery.isSet s.returning_

/-- The text of a table as a FROM item; a query without an alias has none. -/
def VirtualTable.fromText (t : VirtualTable) : Text :=
  match t.toStringAsFromItem with
  | .ok s => s
  | .error _ => []

/-- The exception of a table that cannot be a FROM item. -/
def VirtualTable.fromError (t : VirtualTable) : Option Exception :=
  match t.toStringAsFromItem with
  | .ok _ => none
  | .error e => some e

theorem fromError_isLogicError {t : VirtualTable} {e : Exception} (h : t.fromError = some e) :
    e.isLogicError = true := by
  cases t <;> cases h <;> rfl

theorem given_fromItem {σ : Type} (t : VirtualTable) (s : σ) (f : Text → Outcome σ) :
    Outcome.given t.toStringAsFromItem s f =
      match t.fromError with
      | none => f t.fromText
      | some e => .throw e s := by
  unfold VirtualTable.fromError VirtualTable.fromText
  cases t.toStringAsFromItem <;> rfl

namespace UpdateCall

/-- The assignment of a `Set`. -/
def assignment (column value : Expr) : Text := column.toString ++ " = ".toList ++ value.toString

def put : UpdateCall → Update → Update
  | set column value, s =>
    { s with
      set_ := (if s.set_.isEmpty then s.set_ else s.set_ ++ ", ".toList) ++ assignment column value }
  | .from tbl, s => { s with from_ := tbl.fromText }
  | .where exp, s => { s with where_ := exp.toString }
  | returning items, s => { s with returning_ := joinCsv (items.map SelectItem.toString) }

def bad : UpdateCall → Update → Option Exception
  | .from tbl, _ => tbl.fromError
  | _, _ => none

def blocked (c : UpdateCall) (s : Update) : Bool := c.clause.any fun k => k.isSet s

end UpdateCall

theorem update_setter :
    Setter UpdateCall.apply UpdateCall.put UpdateCall.bad UpdateCall.blocked fun _ _ => none where
  rejects c s e hb := by
    cases c
    case «from» tbl =>
      simp only [UpdateCall.bad] at hb
      simp only [UpdateCall.apply, Update.from, given_fromItem, hb]
    all_goals cases hb
  blocks c s hbad hb := by
    cases c
    case set => cases hb
    case «from» tbl =>
      simp only [UpdateCall.bad] at hbad
      simp only [UpdateCall.apply, Update.from, given_fromItem, hbad]
      exact setOnce_of_set hb
    all_goals exact setOnce_of_set hb
  writes c s hbad hb := by
    cases c
    case set => rfl
    case «from» tbl =>
      simp only [UpdateCall.bad] at hbad
      simp only [UpdateCall.apply, Update.from, given_fromItem, hbad]
      exact setOnce_of_not hb
    all_goals exact setOnce_of_not hb

/-! ## DELETE -/

def DeleteClause.isSet : DeleteClause → DeleteFrom → Bool
  | .using, s => IronQuery.isSet s.using_
  | .where, s => IronQuery.isSet s.where_
  | returning, s => IronQuery.isSet s.returning_

namespace DeleteCall

def put : DeleteCall → DeleteFrom → DeleteFrom
  | .using tbl, s => { s with using_ := tbl.fromText }
  | .where exp, s => { s with where_ := exp.toString }
  | returning items, s => { s with returning_ := joinCsv (items.map SelectItem.toString) }

def bad : DeleteCall → DeleteFrom → Option Exception
  | .using tbl, _ => tbl.fromError
  | _, _ => none

def blocked (c : DeleteCall) (s : DeleteFrom) : Bool := c.clause.any fun k => k.isSet s

end DeleteCall

theorem delete_setter :
    Setter DeleteCall.apply DeleteCall.put DeleteCall.bad DeleteCall.blocked fun _ _ => none where
  rejects c s e hb := by
    cases c
    case «using» tbl =>
      simp only [DeleteCall.bad] at hb
      simp only [DeleteCall.apply, DeleteFrom.using, given_fromItem, hb]
    all_goals cases hb
  blocks c s hbad hb := by
    cases c
    case «using» tbl =>
      simp only [DeleteCall.bad] at hbad
      simp only [DeleteCall.apply, DeleteFrom.using, given_fromItem, hbad]
      exact setOnce_of_set hb
    all_goals exact setOnce_of_set hb
  writes c s hbad hb := by
    cases c
    case «using» tbl =>
      simp only [DeleteCall.bad] at hbad
      simp only [DeleteCall.apply, DeleteFrom.using, given_fromItem, hbad]
      exact setOnce_of_not hb
    all_goals exact setOnce_of_not hb

/-! ## Joins -/

def JoinClause.isSet : JoinClause → Join → Bool
  | on, s => IronQuery.isSet s.on_
  | .using, s => IronQuery.isSet s.using_

namespace JoinCall

def put : JoinCall → Join → Join
  | on exp, s => { s with on_ := exp.toString }
  | .using columns, s => { s with using_ := joinCsv (columns.map Expr.toString) }

def bad : JoinCall → Join → Option Exception
  | on _, s =>
    if s.natural_ then some (.logicError "NATURAL JOIN cannot have an ON clause".toList)
    else if !s.using_.isEmpty then
      some (.logicError "JOIN cannot have both ON and USING clauses".toList)
    else none
  | .using columns, s =>
    if s.natural_ then some (.logicError "NATURAL JOIN cannot have a USING clause".toList)
    else if !s.on_.isEmpty then
      some (.logicError "JOIN cannot have both ON and USING clauses".toList)
    else if columns.length = 0 then
      some (.invalidArgument "USING clause needs at least one column".toList)
    else none

def blocked (c : JoinCall) (s : Join) : Bool := c.clause.any fun k => k.isSet s

/-- What a join's setter does once its arguments are good. -/
theorem apply_eq (c : JoinCall) (s : Join) : c.apply s =
    match c.bad s with
    | some e => .throw e s
    | none => match c with
      | on exp => setOnce s.on_ "ON clause".toList s { s with on_ := exp.toString }
      | .using columns => setOnce s.using_ "USING clause".toList s
          { s with using_ := joinCsv (columns.map Expr.toString) } := by
  cases c with
  | on exp =>
    simp only [apply, Join.on, bad]
    cases s.natural_ <;> cases s.using_.isEmpty <;> rfl
  | «using» columns =>
    simp only [apply, Join.using, bad]
    by_cases hl : columns.length = 0 <;> cases s.natural_ <;> cases s.on_.isEmpty <;> simp [hl]

end JoinCall

theorem join_setter :
    Setter JoinCall.apply JoinCall.put JoinCall.bad JoinCall.blocked fun _ _ => none where
  rejects c s e hb := by rw [JoinCall.apply_eq, hb]
  blocks c s hbad hb := by
    rw [JoinCall.apply_eq, hbad]
    cases c with
    | on exp => exact setOnce_of_set (show isSet s.on_ = true from hb)
    | «using» columns => exact setOnce_of_set (show isSet s.using_ = true from hb)
  writes c s hbad hb := by
    rw [JoinCall.apply_eq, hbad]
    cases c with
    | on exp => exact setOnce_of_not (show isSet s.on_ = false from hb)
    | «using» columns => exact setOnce_of_not (show isSet s.using_ = false from hb)

/-! ## WITH -/

/-- What an accepted `With` has checked, and what it writes. -/
theorem with_accepted {c : WithCall} {b b' : WithBuilder} (h : (c.apply b).accepted = some b') :
    ∃ r body formatted, validateIdentifier c.name = .ok r ∧ c.name ∉ b.cteNames_ ∧
      c.query.toStringBracketed = .ok body ∧ c.query.toStringFormatted = .ok formatted ∧
      b' = { ctes_ := b.ctes_ ++ (", ".toList ++ cteText c.name body)
             ctesFormatted_ :=
               b.ctesFormatted_ ++ (",\n".toList ++ cteTextFormatted c.name formatted)
             cteNames_ := b.cteNames_ ++ [c.name] } := by
  rw [WithCall.apply, WithBuilder.with] at h
  cases hn : validateIdentifier c.name with
  | error e => rw [hn] at h; cases h
  | ok r =>
    rw [hn, Outcome.given_ok] at h
    split at h
    · cases h
    · rename_i hdup
      cases hx : c.query.toStringBracketed with
      | error e => rw [hx] at h; cases h
      | ok body =>
        cases hy : c.query.toStringFormatted with
        | error e => rw [hx, hy] at h; cases h
        | ok formatted =>
          rw [hx, hy] at h
          cases h
          exact ⟨r, body, formatted, rfl, by simpa using hdup, rfl, rfl, rfl⟩

/-! ## CASE -/

namespace CaseCall

def put : CaseCall → CaseBuilder → CaseBuilder
  | when cond, s => { s with pendingWhen_ := cond.toString, hasPendingWhen_ := true }
  | .then result, s =>
    { s with
      whens_ := s.whens_ ++ ("WHEN ".toList ++ s.pendingWhen_ ++ " THEN ".toList ++
        result.toString ++ [' '])
      hasPendingWhen_ := false }
  | .else result, s => { s with else_ := result.toString }

def bad : CaseCall → CaseBuilder → Option Exception
  | when _, s =>
    if s.hasPendingWhen_ then
      some (.logicError "When() called twice without a matching Then()".toList)
    else none
  | .then _, s =>
    if !s.hasPendingWhen_ then
      some (.logicError "Then() called without a preceding When()".toList)
    else none
  | .else _, _ => none

end CaseCall

/-- `Else` does not look. -/
theorem case_setter : Setter CaseCall.apply CaseCall.put CaseCall.bad (fun _ _ => false)
    fun _ _ => none where
  rejects c s e hb := by
    cases c with
    | when cond =>
      cases hp : s.hasPendingWhen_ <;> simp only [CaseCall.bad, hp] at hb <;> cases hb
      simp only [CaseCall.apply, CaseBuilder.when, hp, if_true]
    | «then» result =>
      cases hp : s.hasPendingWhen_ <;> simp only [CaseCall.bad, hp] at hb <;> cases hb
      simp only [CaseCall.apply, CaseBuilder.then, hp, Bool.not_false, if_true]
    | «else» result => cases hb
  blocks _ _ _ hb := by cases hb
  writes c s hbad _ := by
    cases c with
    | when cond =>
      cases hp : s.hasPendingWhen_ <;> simp only [CaseCall.bad, hp] at hbad
      · simp only [CaseCall.apply, CaseBuilder.when, hp]
        rfl
      · cases hbad
    | «then» result =>
      cases hp : s.hasPendingWhen_ <;> simp only [CaseCall.bad, hp] at hbad
      · cases hbad
      · simp only [CaseCall.apply, CaseBuilder.then, hp]
        rfl
    | «else» result => rfl

end IronQuery
