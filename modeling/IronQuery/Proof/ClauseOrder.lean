import IronQuery.Proof.Setters

/-!
# The order of the setter calls does not matter

`…_commutes`: setters of different clauses commute. `…Clause.text` is what the renderer makes of one
clause, and `…_text` that a run's clauses stand in the text in the order of SQL, each as its call
alone would leave it. `clause_order_free` has all four statements.
-/

namespace IronQuery

/-! ## SELECT -/

theorem select_commutes (c d : SelectCall) (h : c.clause ≠ d.clause) :
    Commutes SelectCall.apply c d := by
  refine select_setter.commutes (fun s => ?_) (fun _ => rfl) (fun _ => rfl) (fun s => ?_)
    (fun s => ?_) (fun _ _ _ => and_comm)
  all_goals cases c <;> cases d <;> first | exact absurd rfl h | rfl

open SelectExpr (clause joinCsvIndented)

/-- A clause of the one-line text. -/
def SelectClause.text : SelectClause → SelectExpr → Text
  | distinct, s => if s.distinct_ then "DISTINCT ".toList else []
  | distinctOn, s =>
    clause (fun l => "DISTINCT ON (".toList ++ joinCsv (l.map Expr.toString) ++ ") ".toList)
      s.distinctOn_
  | select, s => clause (fun l => joinCsv (l.map SelectItem.toString)) s.select_
  | .where, s => clause (fun c => " WHERE ".toList ++ c.toString) s.where_
  | groupBy, s => clause (fun l => " GROUP BY ".toList ++ joinCsv (l.map Expr.toString)) s.groupBy_
  | having, s => clause (fun c => " HAVING ".toList ++ c.toString) s.having_
  | orderBy, s =>
    clause (fun l => " ORDER BY ".toList ++ joinCsv (l.map OrderByTerm.render)) s.orderBy_
  | limit, s => clause (fun n => " LIMIT ".toList ++ intToString n) s.limit_
  | offset, s => clause (fun n => " OFFSET ".toList ++ intToString n) s.offset_

/-- A clause of the formatted text. -/
def SelectClause.textFormatted : SelectClause → SelectExpr → Text
  | distinct, s => if s.distinct_ then " DISTINCT".toList else []
  | distinctOn, s =>
    clause (fun l => " DISTINCT ON (".toList ++ joinCsv (l.map Expr.toString) ++ ")".toList)
      s.distinctOn_
  | select, s => clause (fun l => joinCsvIndented (l.map SelectItem.toString)) s.select_
  | .where, s => clause (fun c => "\nWHERE\n    ".toList ++ c.toString) s.where_
  | groupBy, s =>
    clause (fun l => "\nGROUP BY\n".toList ++ joinCsvIndented (l.map Expr.toString)) s.groupBy_
  | having, s => clause (fun c => "\nHAVING\n    ".toList ++ c.toString) s.having_
  | orderBy, s =>
    clause (fun l => "\nORDER BY\n".toList ++ joinCsvIndented (l.map OrderByTerm.render)) s.orderBy_
  | limit, s => clause (fun n => "\nLIMIT\n    ".toList ++ intToString n) s.limit_
  | offset, s => clause (fun n => "\nOFFSET\n    ".toList ++ intToString n) s.offset_

/-- What a call alone makes of its clause. -/
def SelectCall.piece (text : SelectClause → SelectExpr → Text) (c : SelectCall) : Text :=
  (c.clause.map fun k => text k (c.put { from_ := [] })).getD []

theorem ensureValid_ok {s : SelectExpr} {items : List SelectItem} (h : s.ensureValid = .ok items) :
    s.select_ = some items ∧ (s.distinct_ = true → s.distinctOn_ = none) := by
  unfold SelectExpr.ensureValid at h
  split at h
  · cases h
  · rename_i l hl
    split at h
    · cases h
    · split at h
      · cases h
      · rename_i hd
        cases h
        refine ⟨hl, fun h => ?_⟩
        rw [h, Bool.true_and, Option.not_isSome_iff_eq_none] at hd
        exact hd

theorem select_toString {s : SelectExpr} {x : Text} (h : s.toString = .ok x) :
    x = "SELECT ".toList ++ [.distinct, .distinctOn, .select].flatMap (SelectClause.text · s) ++
      " FROM ".toList ++ s.from_ ++
      [.where, .groupBy, .having, .orderBy, .limit, .offset].flatMap (SelectClause.text · s) := by
  simp only [SelectExpr.toString, bind_ok, pure_ok] at h
  obtain ⟨items, hv, rfl⟩ := h
  obtain ⟨hsel, hdis⟩ := ensureValid_ok hv
  simp only [List.flatMap_cons, List.flatMap_nil, SelectClause.text, hsel]
  cases hon : s.distinctOn_ <;> cases hd : s.distinct_ <;> simp [clause]
  rw [hdis hd] at hon
  cases hon

theorem select_toStringFormatted {s : SelectExpr} {x : Text} (h : s.toStringFormatted = .ok x) :
    x = "SELECT".toList ++ [.distinct, .distinctOn].flatMap (SelectClause.textFormatted · s) ++
      "\n".toList ++ SelectClause.select.textFormatted s ++ "\nFROM\n    ".toList ++ s.from_ ++
      [.where, .groupBy, .having, .orderBy, .limit, .offset].flatMap
        (SelectClause.textFormatted · s) := by
  simp only [SelectExpr.toStringFormatted, bind_ok, pure_ok] at h
  obtain ⟨items, hv, rfl⟩ := h
  obtain ⟨hsel, hdis⟩ := ensureValid_ok hv
  simp only [List.flatMap_cons, List.flatMap_nil, SelectClause.textFormatted, hsel]
  cases hon : s.distinctOn_ <;> cases hd : s.distinct_ <;> simp [clause]
  rw [hdis hd] at hon
  cases hon

section
variable {calls : List SelectCall} {tbl : VirtualTable} {s₀ s : SelectExpr}

theorem select_from (hrun : chain SelectCall.apply calls s₀ = some s) : s.from_ = s₀.from_ := by
  refine chain_inv _ (fun s => s.from_ = s₀.from_) (fun c _ s s' ha hs => ?_) hrun rfl
  obtain ⟨-, -, rfl⟩ := select_setter.put_of_accepted ha
  rw [← hs]
  cases c <;> rfl

/-- Every clause of a run holds what its call alone would make of it. -/
theorem select_clauses {x : Text} {text : SelectClause → SelectExpr → Text}
    (hfresh : ∀ k, text k { from_ := x } = [])
    (hput : ∀ c s k, text k (SelectCall.put c s) =
      if c.clause = some k then text k (c.put { from_ := [] }) else text k s)
    (h : Once SelectCall.clause calls)
    (hrun : chain SelectCall.apply calls { from_ := x } = some s) (k : SelectClause) :
    text k s = pieces SelectCall.clause (SelectCall.piece text) calls k := by
  refine chain_text hfresh (fun c s s' k ha hk => ?_) (fun c s s' k ha hk => ?_) h hrun k
  · obtain ⟨-, -, rfl⟩ := select_setter.put_of_accepted ha
    rw [hput, if_pos hk, SelectCall.piece, hk]
    rfl
  · obtain ⟨-, -, rfl⟩ := select_setter.put_of_accepted ha
    rw [hput, if_neg hk]

theorem fromTable_ok (h : SelectExpr.fromTable tbl = .ok s) : s = { from_ := tbl.fromText } := by
  simp only [SelectExpr.fromTable, bind_ok, pure_ok] at h
  obtain ⟨t, ht, rfl⟩ := h
  rw [VirtualTable.fromText, ht]

/-- **The clauses of a SELECT stand in the order of SQL**, whatever the order of the calls. -/
theorem select_text (hnew : SelectExpr.fromTable tbl = .ok s₀) (h : Once SelectCall.clause calls)
    (hrun : chain SelectCall.apply calls s₀ = some s) {x : Text} (hx : s.toString = .ok x) :
    x = "SELECT ".toList ++ [.distinct, .distinctOn, .select].flatMap
        (pieces SelectCall.clause (SelectCall.piece SelectClause.text) calls) ++
      " FROM ".toList ++ tbl.fromText ++
      [.where, .groupBy, .having, .orderBy, .limit, .offset].flatMap
        (pieces SelectCall.clause (SelectCall.piece SelectClause.text) calls) := by
  obtain rfl := fromTable_ok hnew
  have hp : (SelectClause.text · s) = pieces SelectCall.clause (SelectCall.piece SelectClause.text)
      calls := funext fun k =>
    select_clauses (fun k => by cases k <;> rfl) (fun c s k => by cases c <;> cases k <;> rfl) h hrun k
  rw [select_toString hx, hp, select_from hrun]

theorem select_textFormatted (hnew : SelectExpr.fromTable tbl = .ok s₀)
    (h : Once SelectCall.clause calls) (hrun : chain SelectCall.apply calls s₀ = some s) {x : Text}
    (hx : s.toStringFormatted = .ok x) :
    x = "SELECT".toList ++ [.distinct, .distinctOn].flatMap
        (pieces SelectCall.clause (SelectCall.piece SelectClause.textFormatted) calls) ++
      "\n".toList ++
      pieces SelectCall.clause (SelectCall.piece SelectClause.textFormatted) calls .select ++
      "\nFROM\n    ".toList ++ tbl.fromText ++
      [.where, .groupBy, .having, .orderBy, .limit, .offset].flatMap
        (pieces SelectCall.clause (SelectCall.piece SelectClause.textFormatted) calls) := by
  obtain rfl := fromTable_ok hnew
  have hp : (SelectClause.textFormatted · s) =
      pieces SelectCall.clause (SelectCall.piece SelectClause.textFormatted) calls := funext fun k =>
    select_clauses (fun k => by cases k <;> rfl) (fun c s k => by cases c <;> cases k <;> rfl) h hrun k
  rw [select_toStringFormatted hx, hp, select_from hrun, ← congrFun hp .select]

end

/-! ## INSERT -/

theorem ensureSameArity_columns (rows : List (List Text)) :
    InsertInto.ensureSameArity [] rows = none := rfl

theorem ensureSameArity_rows (columns : List Text) :
    InsertInto.ensureSameArity columns [] = none := by
  simp [InsertInto.ensureSameArity]

theorem insert_commutes (c d : InsertCall) (h : c.clause ≠ d.clause) :
    Commutes InsertCall.apply c d := by
  refine insert_setter.commutes (fun s => ?_) (fun s => ?_) (fun s => ?_) (fun s => ?_)
    (fun s => ?_) (fun s hc hd => ?_)
  · cases c <;> cases d <;> first | exact absurd rfl h | rfl
  · cases c <;> try rfl
    rename_i l
    cases l <;> rfl
  · cases d <;> try rfl
    rename_i l
    cases l <;> rfl
  · cases c <;> cases d <;> first | exact absurd rfl h | rfl
  · cases c <;> cases d <;> first | exact absurd rfl h | rfl
  · -- of the two arity checks only the second sees both lists
    have hrows : ∀ e : InsertCall, e.clause = some .rows → e.blocked s = false → s.rows_ = [] :=
      fun e he hb => by
        rw [InsertCall.blocked, he] at hb
        exact List.isEmpty_iff.1 (Bool.not_eq_false' _ ▸ hb)
    have hcols : ∀ e : InsertCall, e.clause = some .columns → e.blocked s = false →
        s.columns_ = [] := fun e he hb => by
      rw [InsertCall.blocked, he] at hb
      exact List.isEmpty_iff.1 (Bool.not_eq_false' _ ▸ hb)
    cases c <;> cases d <;> first
      | exact absurd rfl h
      | exact and_comm
      | simp only [InsertCall.check, InsertCall.put, hrows _ rfl hd, hcols _ rfl hc,
          ensureSameArity_columns, ensureSameArity_rows]
      | simp only [InsertCall.check, InsertCall.put, hrows _ rfl hc, hcols _ rfl hd,
          ensureSameArity_columns, ensureSameArity_rows]

/-- A clause of the text. -/
def InsertClause.text : InsertClause → InsertInto → Text
  | columns, s => joinCsv s.columns_
  | rows, s => InsertInto.rowsText s.rows_
  | returning, s => if s.returning_.isEmpty then [] else " RETURNING ".toList ++ s.returning_
  | onConflict, s => if s.onConflict_.isEmpty then [] else ' ' :: s.onConflict_

def InsertCall.piece (c : InsertCall) : Text :=
  (c.clause.map fun k => k.text (c.put { into_ := [] })).getD []

theorem insert_toString {s : InsertInto} {x : Text} (h : s.toString = .ok x) :
    x = "INSERT INTO ".toList ++ s.into_ ++ " (".toList ++ InsertClause.columns.text s ++
      ") VALUES ".toList ++ [.rows, .onConflict, .returning].flatMap (InsertClause.text · s) := by
  unfold InsertInto.toString at h
  split at h
  · cases h
  split at h
  · cases h
  split at h
  · cases h
  · cases h
    cases hc : s.onConflict_ <;> cases hr : s.returning_ <;>
      simp only [InsertClause.text, List.flatMap_cons, List.flatMap_nil, hc, hr, List.isEmpty_nil,
        List.isEmpty_cons, Bool.not_true, Bool.not_false, Bool.false_eq_true, if_true, if_false,
        List.append_assoc, List.append_nil] <;> rfl

section
variable {calls : List InsertCall} {tbl : Table} {s : InsertInto}

theorem insert_into (hrun : chain InsertCall.apply calls (.new tbl) = some s) :
    s.into_ = tbl.toString := by
  refine chain_inv _ (fun s => s.into_ = tbl.toString) (fun c _ s s' ha hs => ?_) hrun rfl
  obtain ⟨-, -, rfl⟩ := insert_setter.put_of_accepted ha
  rw [← hs]
  cases c <;> rfl

theorem insert_clauses (h : Once InsertCall.clause calls)
    (hrun : chain InsertCall.apply calls (.new tbl) = some s) (k : InsertClause) :
    k.text s = pieces InsertCall.clause InsertCall.piece calls k := by
  have hput : ∀ (c : InsertCall) (s : InsertInto) (k : InsertClause), k.text (c.put s) =
      if c.clause = some k then k.text (c.put { into_ := [] }) else k.text s := fun c s k => by
    cases c <;> cases k <;> rfl
  refine chain_text (fun k => by cases k <;> rfl) (fun c s s' k ha hk => ?_)
    (fun c s s' k ha hk => ?_) h hrun k
  · obtain ⟨-, -, rfl⟩ := insert_setter.put_of_accepted ha
    rw [hput, if_pos hk, InsertCall.piece, hk]
    rfl
  · obtain ⟨-, -, rfl⟩ := insert_setter.put_of_accepted ha
    rw [hput, if_neg hk]

theorem insert_text (h : Once InsertCall.clause calls)
    (hrun : chain InsertCall.apply calls (.new tbl) = some s) {x : Text} (hx : s.toString = .ok x) :
    x = "INSERT INTO ".toList ++ tbl.toString ++ " (".toList ++
      pieces InsertCall.clause InsertCall.piece calls .columns ++ ") VALUES ".toList ++
      [.rows, .onConflict, .returning].flatMap
        (pieces InsertCall.clause InsertCall.piece calls) := by
  have hp : (InsertClause.text · s) = pieces InsertCall.clause InsertCall.piece calls :=
    funext (insert_clauses h hrun)
  rw [insert_toString hx, hp, insert_into hrun, insert_clauses h hrun]

end

/-! ## UPDATE -/

theorem update_commutes (c d : UpdateCall) (h : c.clause ≠ d.clause) :
    Commutes UpdateCall.apply c d := by
  refine update_setter.commutes (fun s => ?_) (fun s => ?_) (fun s => ?_) (fun s => ?_)
    (fun s => ?_) (fun _ _ _ => and_comm)
  all_goals cases c <;> cases d <;> first | exact absurd rfl h | rfl

def UpdateClause.text : UpdateClause → Update → Text
  | .from, s => if s.from_.isEmpty then [] else " FROM ".toList ++ s.from_
  | .where, s => if s.where_.isEmpty then [] else " WHERE ".toList ++ s.where_
  | returning, s => if s.returning_.isEmpty then [] else " RETURNING ".toList ++ s.returning_

def UpdateCall.piece (c : UpdateCall) : Text :=
  (c.clause.map fun k => k.text (c.put { table_ := [] })).getD []

/-- The assignments of a run, in call order. -/
def assignments (calls : List UpdateCall) : List Text :=
  calls.filterMap fun
    | .set column value => some (UpdateCall.assignment column value)
    | _ => none

theorem update_toString {s : Update} {x : Text} (h : s.toString = .ok x) :
    x = "UPDATE ".toList ++ s.table_ ++ " SET ".toList ++ s.set_ ++
      [.from, .where, .returning].flatMap (UpdateClause.text · s) := by
  unfold Update.toString at h
  split at h
  · cases h
  · cases h
    cases hf : s.from_ <;> cases hw : s.where_ <;> cases hr : s.returning_ <;>
      simp only [UpdateClause.text, List.flatMap_cons, List.flatMap_nil, hf, hw, hr,
        List.isEmpty_nil, List.isEmpty_cons, Bool.not_true, Bool.not_false, Bool.false_eq_true,
        if_true, if_false, List.append_assoc, List.append_nil, List.nil_append]

section
variable {calls : List UpdateCall} {tbl : Table} {s₀ s : Update}

theorem update_table (hrun : chain UpdateCall.apply calls (.new tbl) = some s) :
    s.table_ = tbl.toString := by
  refine chain_inv _ (fun s => s.table_ = tbl.toString) (fun c _ s s' ha hs => ?_) hrun rfl
  obtain ⟨-, -, rfl⟩ := update_setter.put_of_accepted ha
  rw [← hs]
  cases c <;> rfl

/-- **The SET list holds all assignments in call order.** -/
theorem update_assignments {pre : List Text} (hs : s₀.set_ = joinCsv pre)
    (hrun : chain UpdateCall.apply calls s₀ = some s) :
    s.set_ = joinCsv (pre ++ assignments calls) := by
  induction calls generalizing s₀ pre with
  | nil =>
    cases hrun
    rw [assignments, List.filterMap_nil, List.append_nil, hs]
  | cons c calls ih =>
    obtain ⟨s₁, ha, hrest⟩ := Option.bind_eq_some_iff.1 hrun
    obtain ⟨-, -, rfl⟩ := update_setter.put_of_accepted ha
    cases c with
    | set column value =>
      have hstep : (UpdateCall.put (.set column value) s₀).set_ =
          joinCsv (pre ++ [UpdateCall.assignment column value]) := by
        rw [joinCsv_concat, ← hs, UpdateCall.put]
        cases s₀.set_ <;> rfl
      rw [ih hstep hrest, List.append_assoc]
      rfl
    | «from» tbl => exact ih (show (UpdateCall.put (.from tbl) s₀).set_ = _ from hs) hrest
    | «where» exp => exact ih (show (UpdateCall.put (.where exp) s₀).set_ = _ from hs) hrest
    | returning items => exact ih (show (UpdateCall.put (.returning items) s₀).set_ = _ from hs) hrest

theorem update_clauses (h : Once UpdateCall.clause calls)
    (hrun : chain UpdateCall.apply calls (.new tbl) = some s) (k : UpdateClause) :
    k.text s = pieces UpdateCall.clause UpdateCall.piece calls k := by
  have hput : ∀ (c : UpdateCall) (s : Update) (k : UpdateClause), k.text (c.put s) =
      if c.clause = some k then k.text (c.put { table_ := [] }) else k.text s := fun c s k => by
    cases c <;> cases k <;> rfl
  refine chain_text (fun k => by cases k <;> rfl) (fun c s s' k ha hk => ?_)
    (fun c s s' k ha hk => ?_) h hrun k
  · obtain ⟨-, -, rfl⟩ := update_setter.put_of_accepted ha
    rw [hput, if_pos hk, UpdateCall.piece, hk]
    rfl
  · obtain ⟨-, -, rfl⟩ := update_setter.put_of_accepted ha
    rw [hput, if_neg hk]

theorem update_text (h : Once UpdateCall.clause calls)
    (hrun : chain UpdateCall.apply calls (.new tbl) = some s) {x : Text} (hx : s.toString = .ok x) :
    x = "UPDATE ".toList ++ tbl.toString ++ " SET ".toList ++ joinCsv (assignments calls) ++
      [.from, .where, .returning].flatMap (pieces UpdateCall.clause UpdateCall.piece calls) := by
  have hp : (UpdateClause.text · s) = pieces UpdateCall.clause UpdateCall.piece calls :=
    funext (update_clauses h hrun)
  have hset : s.set_ = joinCsv ([] ++ assignments calls) := update_assignments rfl hrun
  rw [update_toString hx, hp, update_table hrun, hset, List.nil_append]

end

/-! ## DELETE -/

theorem delete_commutes (c d : DeleteCall) (h : c.clause ≠ d.clause) :
    Commutes DeleteCall.apply c d := by
  refine delete_setter.commutes (fun s => ?_) (fun s => ?_) (fun s => ?_) (fun s => ?_)
    (fun s => ?_) (fun _ _ _ => and_comm)
  all_goals cases c <;> cases d <;> first | exact absurd rfl h | rfl

def DeleteClause.text : DeleteClause → DeleteFrom → Text
  | .using, s => if s.using_.isEmpty then [] else " USING ".toList ++ s.using_
  | .where, s => if s.where_.isEmpty then [] else " WHERE ".toList ++ s.where_
  | returning, s => if s.returning_.isEmpty then [] else " RETURNING ".toList ++ s.returning_

def DeleteCall.piece (c : DeleteCall) : Text :=
  (c.clause.map fun k => k.text (c.put { from_ := [] })).getD []

theorem delete_toString {s : DeleteFrom} {x : Text} (h : s.toString = .ok x) :
    x = "DELETE FROM ".toList ++ s.from_ ++
      [.using, .where, .returning].flatMap (DeleteClause.text · s) := by
  unfold DeleteFrom.toString at h
  split at h
  · cases h
  · cases h
    cases hu : s.using_ <;> cases hw : s.where_ <;> cases hr : s.returning_ <;>
      simp only [DeleteClause.text, List.flatMap_cons, List.flatMap_nil, hu, hw, hr,
        List.isEmpty_nil, List.isEmpty_cons, Bool.not_true, Bool.not_false, Bool.false_eq_true,
        if_true, if_false, List.append_assoc, List.append_nil, List.nil_append]

section
variable {calls : List DeleteCall} {tbl : Table} {s : DeleteFrom}

theorem delete_from (hrun : chain DeleteCall.apply calls (.new tbl) = some s) :
    s.from_ = tbl.toString := by
  refine chain_inv _ (fun s => s.from_ = tbl.toString) (fun c _ s s' ha hs => ?_) hrun rfl
  obtain ⟨-, -, rfl⟩ := delete_setter.put_of_accepted ha
  rw [← hs]
  cases c <;> rfl

theorem delete_clauses (h : Once DeleteCall.clause calls)
    (hrun : chain DeleteCall.apply calls (.new tbl) = some s) (k : DeleteClause) :
    k.text s = pieces DeleteCall.clause DeleteCall.piece calls k := by
  have hput : ∀ (c : DeleteCall) (s : DeleteFrom) (k : DeleteClause), k.text (c.put s) =
      if c.clause = some k then k.text (c.put { from_ := [] }) else k.text s := fun c s k => by
    cases c <;> cases k <;> rfl
  refine chain_text (fun k => by cases k <;> rfl) (fun c s s' k ha hk => ?_)
    (fun c s s' k ha hk => ?_) h hrun k
  · obtain ⟨-, -, rfl⟩ := delete_setter.put_of_accepted ha
    rw [hput, if_pos hk, DeleteCall.piece, hk]
    rfl
  · obtain ⟨-, -, rfl⟩ := delete_setter.put_of_accepted ha
    rw [hput, if_neg hk]

theorem delete_text (h : Once DeleteCall.clause calls)
    (hrun : chain DeleteCall.apply calls (.new tbl) = some s) {x : Text} (hx : s.toString = .ok x) :
    x = "DELETE FROM ".toList ++ tbl.toString ++ [.using, .where, .returning].flatMap
      (pieces DeleteCall.clause DeleteCall.piece calls) := by
  have hp : (DeleteClause.text · s) = pieces DeleteCall.clause DeleteCall.piece calls :=
    funext (delete_clauses h hrun)
  rw [delete_toString hx, hp, delete_from hrun]

end

/-! ## All four statements -/

/-- **Clause order does not matter.** For each statement, permuted runs that set no clause twice
throw alike or give the same texts (`Update::Set` keeps its order); and in the text the clauses
stand in the order of SQL, the assignments of an UPDATE in call order. -/
theorem clause_order_free :
    OrderFree SelectCall.apply SelectCall.clause (fun s => (s.toString, s.toStringFormatted)) ∧
    OrderFree InsertCall.apply InsertCall.clause InsertInto.toString ∧
    OrderFree UpdateCall.apply UpdateCall.clause Update.toString ∧
    OrderFree DeleteCall.apply DeleteCall.clause DeleteFrom.toString ∧
    (∀ (tbl : VirtualTable) (calls : List SelectCall) (s₀ s : SelectExpr),
      SelectExpr.fromTable tbl = .ok s₀ → Once SelectCall.clause calls →
      chain SelectCall.apply calls s₀ = some s →
      (∀ x, s.toString = .ok x → x = "SELECT ".toList ++
        [.distinct, .distinctOn, .select].flatMap
          (pieces SelectCall.clause (SelectCall.piece SelectClause.text) calls) ++
        " FROM ".toList ++ tbl.fromText ++
        [.where, .groupBy, .having, .orderBy, .limit, .offset].flatMap
          (pieces SelectCall.clause (SelectCall.piece SelectClause.text) calls)) ∧
      ∀ x, s.toStringFormatted = .ok x → x = "SELECT".toList ++
        [.distinct, .distinctOn].flatMap
          (pieces SelectCall.clause (SelectCall.piece SelectClause.textFormatted) calls) ++
        "\n".toList ++
        pieces SelectCall.clause (SelectCall.piece SelectClause.textFormatted) calls .select ++
        "\nFROM\n    ".toList ++ tbl.fromText ++
        [.where, .groupBy, .having, .orderBy, .limit, .offset].flatMap
          (pieces SelectCall.clause (SelectCall.piece SelectClause.textFormatted) calls)) ∧
    (∀ (tbl : Table) (calls : List InsertCall) (s : InsertInto), Once InsertCall.clause calls →
      chain InsertCall.apply calls (.new tbl) = some s → ∀ x, s.toString = .ok x →
      x = "INSERT INTO ".toList ++ tbl.toString ++ " (".toList ++
        pieces InsertCall.clause InsertCall.piece calls .columns ++ ") VALUES ".toList ++
        [.rows, .onConflict, .returning].flatMap
          (pieces InsertCall.clause InsertCall.piece calls)) ∧
    (∀ (tbl : Table) (calls : List UpdateCall) (s : Update), Once UpdateCall.clause calls →
      chain UpdateCall.apply calls (.new tbl) = some s → ∀ x, s.toString = .ok x →
      x = "UPDATE ".toList ++ tbl.toString ++ " SET ".toList ++ joinCsv (assignments calls) ++
        [.from, .where, .returning].flatMap (pieces UpdateCall.clause UpdateCall.piece calls)) ∧
    (∀ (tbl : Table) (calls : List DeleteCall) (s : DeleteFrom), Once DeleteCall.clause calls →
      chain DeleteCall.apply calls (.new tbl) = some s → ∀ x, s.toString = .ok x →
      x = "DELETE FROM ".toList ++ tbl.toString ++ [.using, .where, .returning].flatMap
        (pieces DeleteCall.clause DeleteCall.piece calls)) :=
  ⟨.of_commutes select_commutes _, .of_commutes insert_commutes _, .of_commutes update_commutes _,
    .of_commutes delete_commutes _,
    fun _ _ _ _ hnew h hrun => ⟨fun _ => select_text hnew h hrun,
      fun _ => select_textFormatted hnew h hrun⟩,
    fun _ _ _ h hrun _ => insert_text h hrun, fun _ _ _ h hrun _ => update_text h hrun,
    fun _ _ _ h hrun _ => delete_text h hrun⟩

/-- `USING` before or after `WHERE`. -/
theorem clause_order_free_delete :
    let calls : List DeleteCall := [.where (.fromRaw "a".toList), .using (.table ⟨"u".toList⟩)]
    (chain DeleteCall.apply calls (.new (.fromRaw "t".toList))).map DeleteFrom.toString =
        some (.ok "DELETE FROM t USING u WHERE a".toList) ∧
      (chain DeleteCall.apply calls (.new (.fromRaw "t".toList))).map DeleteFrom.toString =
        (chain DeleteCall.apply calls.reverse (.new (.fromRaw "t".toList))).map DeleteFrom.toString :=
  ⟨rfl, clause_order_free.2.2.2.1 _ _ _ (by decide) (List.reverse_perm _).symm rfl⟩

end IronQuery
