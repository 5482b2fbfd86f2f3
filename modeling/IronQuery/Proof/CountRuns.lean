import IronQuery.Proof.ClauseOrder
import IronQuery.Proof.Counts
import Mathlib.Algebra.Order.BigOperators.Group.List
import Mathlib.Algebra.Order.Ring.Nat

/-!
# What the text of a program is made of

* `virtual_text_count`: a rendered table holds as many of a foreign character as the value.
* `count_kept`: a built value holds the mark of each hole of its program, but of those that a later
  call threw away.
-/

namespace IronQuery

open OperatorPrecedence Pg

/-! ## Setters that did not throw -/

/-- The field was empty. -/
theorem setOnce_ok {β σ : Type} [Clause β] {f : β} {what : Text} {s s' t : σ}
    (h : (setOnce f what s s').result = .ok t) : Clause.isEmpty f = true ∧ t = s' := by
  rw [setOnce_eq] at h
  split at h
  · exact ⟨‹_›, (Except.ok.inj h).symm⟩
  · cases h

theorem given_result {α σ : Type} {r : Result α} {s : σ} {f : α → Outcome σ} {t : σ}
    (h : (Outcome.given r s f).result = .ok t) : ∃ x, r = .ok x ∧ (f x).result = .ok t := by
  cases r with
  | error e => cases h
  | ok x => exact ⟨x, rfl, h⟩

theorem text_empty {c : Char} {x : Text} (h : Clause.isEmpty x = true) : x.count c = 0 := by
  rw [List.isEmpty_iff.1 h]
  rfl

theorem option_empty {α : Type} {o : Option α} (f : α → Nat) (h : Clause.isEmpty o = true) :
    VirtualTable.count.sum f o = 0 := by
  rw [Option.isNone_iff_eq_none.1 h]
  rfl

theorem list_empty {α : Type} {l : List α} (f : α → Nat) (h : Clause.isEmpty l = true) :
    (l.map f).sum = 0 := by
  rw [List.isEmpty_iff.1 h]
  rfl

theorem checkArity_ok {s t : InsertInto} (h : s.checkArity.result = .ok t) : t = s := by
  unfold InsertInto.checkArity at h
  split at h
  · exact (Except.ok.inj h).symm
  · cases h

/-- The number of `c` in the arguments of the call. -/
def SelectCall.count (c : Char) : SelectCall → Nat
  | distinct | limit _ | offset _ => 0
  | distinctOn l | groupBy l => (l.map fun e => e.toString.count c).sum
  | select l => (l.map fun e => e.toString.count c).sum
  | .where q | having q => q.toString.count c
  | orderBy l => (l.map fun e => e.expr.toString.count c).sum

section
variable {c : Char} (hc : Foreign c)
include hc

/-! ## Terms and CASE -/

theorem count_as {e : Expr} {name : Text} {i : SelectItem} (h : e.as name = .ok i) :
    i.s_.count c = e.toString.count c := by
  unfold Expr.as at h
  split at h
  · cases h
  · rename_i hn
    cases h
    have hname : name.all isPathChar = true := path_of_plain (by simpa using hn)
    simp (disch := decide) only [List.count_append, count_printable hc, count_path hc hname]
    omega

theorem count_order (x : OrderByTerm) : x.render.count c = x.expr.toString.count c := by
  rcases x with ⟨e, d, n⟩
  cases d <;> cases n <;>
    simp (disch := decide) only [OrderByTerm.render, List.count_append, count_printable hc] <;>
    omega

omit hc in
theorem count_when {b b' : CaseBuilder} {x : Condition} (h : (b.when x).result = .ok b') :
    Ty.caseBuilder.tally c b' =
      (Ty.caseBuilder.tally c b).awaiting (.plain (x.toString.count c)) := by
  unfold CaseBuilder.when at h
  split at h
  · cases h
  · rename_i hp
    cases h
    refine Tally.ext ?_ rfl rfl
    simp only [Tally.awaiting, Ty.tally, Ty.count, Outcome.object_ok, if_true, hp, if_false,
      Bool.false_eq_true]
    omega

theorem count_then {b b' : CaseBuilder} {x : Expr} (h : (b.then x).result = .ok b') :
    Ty.caseBuilder.tally c b' =
      (Ty.caseBuilder.tally c b).adding (.plain (x.toString.count c)) := by
  unfold CaseBuilder.then at h
  split at h
  · cases h
  · rename_i hp
    cases h
    have hp : b.hasPendingWhen_ = true := by simpa using hp
    refine Tally.ext ?_ rfl rfl
    simp (disch := decide) only [Tally.adding, Ty.tally, Ty.count, Outcome.object_ok, hp, if_true,
      List.count_append, count_printable hc, Bool.false_eq_true, if_false]
    omega

omit hc in
theorem count_else {b b' : CaseBuilder} {x : Expr} (h : (b.else x).result = .ok b') :
    Ty.caseBuilder.tally c b' =
      (Ty.caseBuilder.tally c b).replacing (.plain (x.toString.count c)) := by
  cases h
  refine Tally.ext ?_ rfl rfl
  show b.whens_.count c + (if b.hasPendingWhen_ then b.pendingWhen_.count c else 0) +
    x.toString.count c =
    b.whens_.count c + (if b.hasPendingWhen_ then b.pendingWhen_.count c else 0) +
    b.else_.count c - b.else_.count c + x.toString.count c
  rw [Nat.add_sub_cancel]

theorem count_end {b : CaseBuilder} {e : Expr} (h : b.end = .ok e) :
    e.toString.count c = (Ty.caseBuilder.tally c b).all - (Ty.caseBuilder.tally c b).pending := by
  unfold CaseBuilder.end at h
  split at h
  · cases h
  · cases h
    have helse (s : Text) :
        (if !b.else_.isEmpty then s ++ ("ELSE ".toList ++ b.else_ ++ " ".toList) else s).count c =
          s.count c + b.else_.count c := by
      split
      · simp (disch := decide) only [List.count_append, count_printable hc]
        omega
      · rename_i he
        rw [text_empty (x := b.else_) (by simpa using he)]
        rfl
    rw [fromRaw_text, List.count_append, helse]
    simp (disch := decide) only [List.count_append, count_printable hc, Ty.tally, Ty.count]
    omega

/-! ## Tables -/

theorem count_selectArgAll (t : TableWithColumns) :
    t.selectArgAll.toString.count c ≤ Ty.tableWithColumns.count c t := by
  have := count_fold hc Column.name t.columns_ []
  simp only [List.count_nil] at this
  rw [TableWithColumns.selectArgAll, fromRaw_text, this]
  simp only [Ty.count]
  omega

theorem count_tableDot {t : TableWithColumns} {column : Text} {e : Expr}
    (h : t.dot column = .ok e) : e.toString.count c ≤ Ty.tableWithColumns.count c t := by
  unfold TableWithColumns.dot at h
  split at h
  · cases h
  split at h
  · cases h
  · rename_i hmem
    simp only [Bool.not_eq_true', Bool.not_eq_false, List.any_eq_true, beq_iff_eq] at hmem
    obtain ⟨col, hcol, rfl⟩ := hmem
    cases h
    have hle := List.le_sum_of_mem (List.mem_map_of_mem (f := fun col => col.name.count c) hcol)
    rw [fromRaw_text]
    simp (disch := decide) only [Ty.count, List.count_append, count_printable hc]
    omega

theorem count_aliasedColumns {t t' : TableWithColumns} {name : Text} (h : t.as name = .ok t') :
    Ty.tableWithColumns.count c t' ≤ Ty.tableWithColumns.count c t := by
  obtain ⟨_, hn, h⟩ := bind_ok.1 h
  cases h
  simp (disch := decide) only [Ty.count, List.count_append, count_printable hc,
    count_path hc (path_of_ok hn)]
  omega

/-! ### Their texts -/

theorem count_clause {α : Type} (k : Text) (hk : isPrintable k = true) (f : α → Text)
    (o : Option α) : (SelectExpr.clause (fun x => k ++ f x) o).count c =
      VirtualTable.count.sum (fun x => (f x).count c) o := by
  cases o with
  | none => rfl
  | some x =>
    simp only [SelectExpr.clause, List.count_append, count_printable hc hk, Nat.zero_add,
      VirtualTable.count.sum, Option.map_some, Option.getD_some]

theorem count_clause_int (o : Option Int) :
    VirtualTable.count.sum (fun n => (intToString n).count c) o = 0 := by
  cases o with
  | none => rfl
  | some n => exact count_int hc n

/-- The texts of the clauses. -/
theorem count_selectClause (k : SelectClause) (x : SelectExpr) : (k.text x).count c = match k with
    | .distinct | .limit | .offset => 0
    | .distinctOn => VirtualTable.count.sum (fun l => (l.map fun e => e.toString.count c).sum)
      x.distinctOn_
    | .select => VirtualTable.count.sum (fun l => (l.map fun e => e.toString.count c).sum) x.select_
    | .where => VirtualTable.count.sum (fun e => e.toString.count c) x.where_
    | .groupBy => VirtualTable.count.sum (fun l => (l.map fun e => e.toString.count c).sum)
      x.groupBy_
    | .having => VirtualTable.count.sum (fun e => e.toString.count c) x.having_
    | .orderBy => VirtualTable.count.sum (fun l => (l.map fun e => e.expr.toString.count c).sum)
      x.orderBy_ := by
  cases k with
  | distinct =>
    simp only [SelectClause.text]
    split
    · exact count_printable hc (by decide)
    · rfl
  | distinctOn =>
    simp only [SelectClause.text]
    cases x.distinctOn_ with
    | none => rfl
    | some l =>
      simp (disch := decide) only [SelectExpr.clause, List.count_append, count_printable hc,
        count_csv_map hc, VirtualTable.count.sum, Option.map_some, Option.getD_some]
      omega
  | select =>
    simp only [SelectClause.text]
    cases x.select_ with
    | none => rfl
    | some l => exact count_csv_map hc _ l
  | «where» => exact count_clause hc _ (by decide) _ _
  | groupBy =>
    refine (count_clause hc _ (by decide) _ _).trans ?_
    simp only [count_csv_map hc]
  | having => exact count_clause hc _ (by decide) _ _
  | orderBy =>
    refine (count_clause hc _ (by decide) _ _).trans ?_
    simp only [count_csv_map hc, count_order hc]
  | limit => exact (count_clause hc _ (by decide) _ _).trans (count_clause_int hc _)
  | offset => exact (count_clause hc _ (by decide) _ _).trans (count_clause_int hc _)

/-- A clause that is left out when it is empty. -/
theorem count_optional (s x k : Text) (hk : isPrintable k = true) :
    (if !x.isEmpty then s ++ (k ++ x) else s).count c = s.count c + x.count c := by
  split
  · rw [List.count_append, List.count_append, count_printable hc hk]
    omega
  · rename_i he
    rw [text_empty (x := x) (by simpa using he)]
    rfl

theorem join_count (j : Join) : j.toString.count c = (VirtualTable.join j).count c := by
  unfold Join.toString
  have hon := count_optional hc (j.a_ ++ " ".toList ++ j.kind_ ++ " JOIN ".toList ++ j.b_) j.on_
    " ON ".toList (by decide)
  simp (disch := decide) only [List.count_append, count_printable hc] at hon
  simp only [VirtualTable.count]
  split
  · simp (disch := decide) only [List.count_append, count_printable hc]
    omega
  · rename_i he
    rw [text_empty (x := j.using_) (by simpa using he)]
    omega

theorem delete_count {d : DeleteFrom} {s : Text} (h : d.toString = .ok s) :
    s.count c = (VirtualTable.deleteFrom d).count c := by
  unfold DeleteFrom.toString at h
  split at h
  · cases h
  · cases h
    simp only [VirtualTable.count]
    rw [count_optional hc _ _ _ (by decide), count_optional hc _ _ _ (by decide),
      count_optional hc _ _ _ (by decide), List.count_append, count_printable hc (by decide),
      Nat.zero_add]

theorem select_count {x : SelectExpr} {s : Text} (h : x.toString = .ok s) :
    s.count c = (VirtualTable.select x).count c := by
  have hselect : "SELECT ".toList.count c = 0 := count_printable hc (by decide)
  have hfrom : " FROM ".toList.count c = 0 := count_printable hc (by decide)
  rw [select_toString h]
  simp only [List.flatMap_cons, List.flatMap_nil, List.count_append, hselect, hfrom,
    count_selectClause hc, List.count_nil, VirtualTable.count]
  omega

theorem virtual_text_count {v : VirtualTable} {s : Text} (h : v.toString = .ok s) :
    s.count c = v.count c := by
  cases v with
  | table t | tableWithColumns t => cases h; rfl
  | join j => cases h; exact join_count hc j
  | select x => exact select_count hc h
  | setOp x =>
    cases h
    simp (disch := decide) only [SetOp.toString, VirtualTable.count, List.count_append,
      count_printable hc]
    omega
  | «with» w =>
    cases h
    simp (disch := decide) only [WithQuery.toString, VirtualTable.count, List.count_append,
      count_printable hc]
    omega
  | deleteFrom d => exact delete_count hc h

theorem bracketed_count {v : VirtualTable} {s : Text} (h : v.toStringBracketed = .ok s) :
    s.count c = v.count c := by
  have wrap (h : (do return "(".toList ++ (← v.toString) ++ ")".toList) = Except.ok s) :
      s.count c = v.count c := by
    obtain ⟨x, hx, h⟩ := bind_ok.1 h
    cases h
    have := virtual_text_count hc hx
    simp (disch := decide) only [List.count_append, count_printable hc]
    omega
  cases v with
  | table t | tableWithColumns t => cases h; rfl
  | join | select | setOp | «with» | deleteFrom => exact wrap h

theorem fromItem_count {v : VirtualTable} {s : Text} (h : v.toStringAsFromItem = .ok s) :
    s.count c = v.count c := by
  cases v with
  | table t | tableWithColumns t => cases h; rfl
  | join j => cases h; exact join_count hc j
  | select | setOp | «with» | deleteFrom => cases h

theorem aliased_count {v : VirtualTable} {name : Text} {t : Table} (h : v.as name = .ok t) :
    t.name_.count c = v.count c := by
  obtain ⟨_, hn, h⟩ := bind_ok.1 h
  obtain ⟨s, hs, h⟩ := bind_ok.1 h
  cases h
  have := bracketed_count hc hs
  simp (disch := decide) only [List.count_append, count_printable hc, count_path hc (path_of_ok hn)]
  omega

theorem subquery_count {v : VirtualTable} {e : Expr} (h : v.toExpr = .ok e) :
    e.toString.count c = v.count c := by
  obtain ⟨s, hs, h⟩ := bind_ok.1 h
  cases h
  exact bracketed_count hc hs

theorem exists_count {neg : Bool} {v : VirtualTable} {x : Condition}
    (h : (if neg then Expr.notExists v else Expr.exists v) = .ok x) :
    x.toString.count c = v.count c := by
  have leaf (k : Text) (hk : isPrintable k = true) {s : Text} (hs : v.toStringBracketed = .ok s) :
      (k ++ s).count c = v.count c := by
    rw [List.count_append, count_printable hc hk, Nat.zero_add]
    exact bracketed_count hc hs
  cases neg
  all_goals
    obtain ⟨s, hs, h⟩ := bind_ok.1 h
    cases h
  · exact leaf "EXISTS ".toList (by decide) hs
  · exact leaf "NOT EXISTS ".toList (by decide) hs

theorem subqueryOp_count {op : SubqueryOp} {e : Expr} {v : VirtualTable} {x : Condition}
    (h : op.apply e v = .ok x) : x.toString.count c = e.toString.count c + v.count c := by
  have node (p : OperatorPrecedence) (k : Text) (hk : isPrintable k = true)
      (h : Expr.subqueryNode p k e v = .ok x) :
      x.toString.count c = e.toString.count c + v.count c := by
    obtain ⟨s, hs, h⟩ := bind_ok.1 h
    cases h
    have := bracketed_count hc hs
    show (render _).count c = _
    simp only [render_makeNode, List.flatMap_cons, List.flatMap_nil, render_text, render_child,
      List.append_nil, List.count_append, count_extract hc, count_printable hc hk]
    omega
  cases op <;> exact node _ _ (by decide) h

theorem csv_count (l : List Expr) :
    (joinCsv (l.map Expr.toString)).count c = (l.map fun e => e.toString.count c).sum :=
  count_csv_map hc _ l

theorem assignments_count (l : List (Expr × Expr)) : (InsertInto.assignmentCsv l).count c =
    (l.map fun p => p.1.toString.count c + p.2.toString.count c).sum := by
  have := count_fold hc (fun p : Expr × Expr => renderBinary p.1.toString "=".toList p.2.toString)
    l []
  rw [InsertInto.assignmentCsv, this, List.count_nil, Nat.zero_add]
  refine congrArg List.sum (List.map_congr_left fun p _ => ?_)
  simp (disch := decide) only [renderBinary, List.count_append, count_printable hc]
  omega

/-! ### Their setters -/

omit hc in
theorem checked_ok {s s' t : InsertInto} {β : Type} [Clause β] {f : β} {what : Text}
    (h : ((setOnce f what s s').andThen InsertInto.checkArity).result = .ok t) :
    Clause.isEmpty f = true ∧ t = s' := by
  rw [andThen_result] at h
  obtain ⟨s₁, h₁, h₂⟩ := bind_ok.1 h
  obtain ⟨he, rfl⟩ := setOnce_ok h₁
  exact ⟨he, checkArity_ok h₂⟩

theorem newJoin_count {a b : VirtualTable} {kind : JoinKind} {j : Join}
    (h : Join.new a b kind = .ok j) : Ty.join.count c j = a.count c + b.count c := by
  obtain ⟨x, hx, h⟩ := bind_ok.1 h
  obtain ⟨y, hy, h⟩ := bind_ok.1 h
  cases h
  have ha := bracketed_count hc hx
  have hb := bracketed_count hc hy
  have hk : kind.toString.count c = 0 := count_printable hc (by cases kind <;> decide)
  simp only [Ty.count, VirtualTable.count, List.count_nil, hk, Nat.add_zero, ha, hb]

theorem newSetOp_count {a b : VirtualTable} {kind : SetOpKind} {j : SetOp}
    (h : SetOp.new a b kind = .ok j) : Ty.setOp.count c j = a.count c + b.count c := by
  obtain ⟨x, hx, h⟩ := bind_ok.1 h
  obtain ⟨y, hy, h⟩ := bind_ok.1 h
  cases h
  have ha := bracketed_count hc hx
  have hb := bracketed_count hc hy
  have hk : kind.toString.count c = 0 := count_printable hc (by cases kind <;> decide)
  simp only [Ty.count, VirtualTable.count, hk, Nat.add_zero, ha, hb]

omit hc in
theorem on_count {j j' : Join} {x : Condition} (h : (j.on x).result = .ok j') :
    Ty.join.count c j' = Ty.join.count c j + x.toString.count c := by
  unfold Join.on at h
  split at h
  · cases h
  split at h
  · cases h
  · obtain ⟨he, rfl⟩ := setOnce_ok h
    simp only [Ty.count, VirtualTable.count, text_empty he]
    omega

theorem using_count {j j' : Join} {l : List Expr} (h : (j.using l).result = .ok j') :
    Ty.join.count c j' = Ty.join.count c j + (l.map fun e => e.toString.count c).sum := by
  unfold Join.using at h
  split at h
  · cases h
  split at h
  · cases h
  split at h
  · cases h
  · obtain ⟨he, rfl⟩ := setOnce_ok h
    simp only [Ty.count, VirtualTable.count, csv_count hc, text_empty he]
    omega

theorem fromTable_count {v : VirtualTable} {x : SelectExpr} (h : SelectExpr.fromTable v = .ok x) :
    Ty.select.count c x = v.count c := by
  obtain ⟨s, hs, h⟩ := bind_ok.1 h
  cases h
  exact fromItem_count hc hs

omit hc in
/-- What a setter's arguments add. -/
theorem select_call_count {k : SelectCall} {s t : SelectExpr}
    (h : (k.apply s).result = .ok t) :
    Ty.select.count c t = Ty.select.count c s + k.count c := by
  cases k with
  | distinct => cases h; rfl
  | limit n | offset n => obtain ⟨-, rfl⟩ := setOnce_ok h; rfl
  | distinctOn l | select l | «where» q | groupBy l | having q | orderBy l =>
    obtain ⟨he, rfl⟩ := setOnce_ok h
    have hsum {α : Type} (f : α → Nat) (x : α) : VirtualTable.count.sum f (some x) = f x := rfl
    simp only [Ty.count, VirtualTable.count, SelectCall.count, hsum, option_empty _ he]
    omega

theorem deleteUsing_count {d d' : DeleteFrom} {v : VirtualTable}
    (h : (d.using v).result = .ok d') :
    Ty.deleteFrom.count c d' = Ty.deleteFrom.count c d + v.count c := by
  obtain ⟨x, hx, h⟩ := given_result h
  have hx := fromItem_count hc hx
  obtain ⟨he, rfl⟩ := setOnce_ok h
  rw [← hx]
  simp only [Ty.count, VirtualTable.count, text_empty he]
  omega

theorem updateFrom_count {s t : Update} {v : VirtualTable} (h : (s.from v).result = .ok t) :
    Ty.update.count c t = Ty.update.count c s + v.count c := by
  obtain ⟨x, hx, h⟩ := given_result h
  have hx := fromItem_count hc hx
  obtain ⟨he, rfl⟩ := setOnce_ok h
  simp only [Ty.count, text_empty he, hx]
  omega

omit hc in
theorem deleteWhere_count {d d' : DeleteFrom} {q : Condition} (h : (d.where q).result = .ok d') :
    Ty.deleteFrom.count c d' = Ty.deleteFrom.count c d + q.toString.count c := by
  obtain ⟨he, rfl⟩ := setOnce_ok h
  simp only [Ty.count, VirtualTable.count, text_empty he]
  omega

omit hc in
theorem updateWhere_count {s t : Update} {q : Condition} (h : (s.where q).result = .ok t) :
    Ty.update.count c t = Ty.update.count c s + q.toString.count c := by
  obtain ⟨he, rfl⟩ := setOnce_ok h
  simp only [Ty.count, text_empty he]
  omega

theorem returning_count (l : List SelectItem) :
    (joinCsv (l.map SelectItem.toString)).count c = (l.map fun i => i.s_.count c).sum :=
  count_csv_map hc _ l

theorem deleteReturning_count {d d' : DeleteFrom} {l : List SelectItem}
    (h : (d.returning l).result = .ok d') :
    Ty.deleteFrom.count c d' = Ty.deleteFrom.count c d + (l.map fun i => i.s_.count c).sum := by
  obtain ⟨he, rfl⟩ := setOnce_ok h
  simp only [Ty.count, VirtualTable.count, returning_count hc, text_empty he]
  omega

theorem insertReturning_count {s t : InsertInto} {l : List SelectItem}
    (h : (s.returning l).result = .ok t) :
    Ty.insertInto.tally c t =
      (Ty.insertInto.tally c s).adding (.plain (l.map fun i => i.s_.count c).sum) := by
  obtain ⟨he, rfl⟩ := setOnce_ok h
  refine Tally.ext ?_ rfl rfl
  simp only [Tally.adding, Ty.tally, Ty.count, returning_count hc, text_empty he]
  omega

theorem updateReturning_count {s t : Update} {l : List SelectItem}
    (h : (s.returning l).result = .ok t) :
    Ty.update.count c t = Ty.update.count c s + (l.map fun i => i.s_.count c).sum := by
  obtain ⟨he, rfl⟩ := setOnce_ok h
  simp only [Ty.count, returning_count hc, text_empty he]
  omega

theorem onConflictDoNothing_count {s t : InsertInto} (h : s.onConflictDoNothing.result = .ok t) :
    Ty.insertInto.tally c t = (Ty.insertInto.tally c s).replacing (.plain 0) := by
  cases h
  have hn : "ON CONFLICT DO NOTHING".toList.count c = 0 := count_printable hc (by decide)
  refine Tally.ext ?_ hn rfl
  simp only [Tally.replacing, Ty.tally, Ty.count, InsertInto.onConflictDoNothing,
    Outcome.object_ok, hn]
  omega

theorem onConflictDoNothingAt_count {s t : InsertInto} {l : List Expr}
    (h : (s.onConflictDoNothingAt l).result = .ok t) :
    Ty.insertInto.tally c t =
      (Ty.insertInto.tally c s).replacing (.plain (l.map fun e => e.toString.count c).sum) := by
  cases h
  have hn : ("ON CONFLICT (".toList ++ joinCsv (l.map Expr.toString) ++
      ") DO NOTHING".toList).count c = (l.map fun e => e.toString.count c).sum := by
    simp (disch := decide) only [List.count_append, count_printable hc, csv_count hc]
    omega
  refine Tally.ext ?_ hn rfl
  simp only [Tally.replacing, Ty.tally, Ty.count, InsertInto.onConflictDoNothingAt,
    Outcome.object_ok, hn]
  omega

omit hc in
theorem columns_count {s t : InsertInto} {l : List Expr} (h : (s.columns l).result = .ok t) :
    Ty.insertInto.tally c t =
      (Ty.insertInto.tally c s).adding (.plain (l.map fun e => e.toString.count c).sum) := by
  obtain ⟨he, rfl⟩ := checked_ok h
  refine Tally.ext ?_ rfl rfl
  simp only [Tally.adding, Ty.tally, Ty.count, List.map_map, Function.comp_def, list_empty _ he]
  omega

omit hc in
theorem values_count {s t : InsertInto} {l : List Expr} (h : (s.values l).result = .ok t) :
    Ty.insertInto.tally c t =
      (Ty.insertInto.tally c s).adding (.plain (l.map fun e => e.toString.count c).sum) := by
  obtain ⟨he, rfl⟩ := checked_ok h
  refine Tally.ext ?_ rfl rfl
  simp only [Tally.adding, Ty.tally, Ty.count, List.map_map, Function.comp_def, List.map_cons,
    List.map_nil, List.sum_cons, List.sum_nil, list_empty _ he]
  omega

omit hc in
theorem rows_count {s t : InsertInto} {l : List (List Expr)} (h : (s.rows l).result = .ok t) :
    Ty.insertInto.tally c t = (Ty.insertInto.tally c s).adding
      (.plain (l.map fun row => (row.map fun e => e.toString.count c).sum).sum) := by
  rw [InsertInto.rows, andThen_result] at h
  obtain ⟨s₁, h₁, h₂⟩ := bind_ok.1 h
  obtain rfl : s₁ = s := by
    unfold ensureNotSet at h₁
    split at h₁
    · exact (Except.ok.inj h₁).symm
    · cases h₁
  obtain rfl := checkArity_ok h₂
  have hrows : ((s₁.rows_ ++ l.map fun row => row.map Expr.toString).map
      fun row => (row.map (List.count c)).sum).sum =
      (s₁.rows_.map fun row => (row.map (List.count c)).sum).sum +
        (l.map fun row => (row.map fun e => e.toString.count c).sum).sum := by
    rw [List.map_append, List.sum_append, List.map_map]
    refine congrArg _ (congrArg List.sum (List.map_congr_left fun row _ => ?_))
    exact congrArg List.sum (List.map_map ..)
  refine Tally.ext ?_ rfl rfl
  simp only [Tally.adding, Ty.tally, Ty.count, hrows]
  omega

theorem onConflictDoUpdate_count {s t : InsertInto} {l : List Expr} {p : List (Expr × Expr)}
    (h : (s.onConflictDoUpdate l p).result = .ok t) :
    Ty.insertInto.tally c t =
      (Ty.insertInto.tally c s).replacing (.plain ((l.map fun e => e.toString.count c).sum +
        (p.map fun p => p.1.toString.count c + p.2.toString.count c).sum)) := by
  unfold InsertInto.onConflictDoUpdate at h
  split at h
  · cases h
  · cases h
    have hn : ("ON CONFLICT (".toList ++ joinCsv (l.map Expr.toString) ++
        ") DO UPDATE SET ".toList ++ InsertInto.assignmentCsv p).count c =
        (l.map fun e => e.toString.count c).sum +
          (p.map fun p => p.1.toString.count c + p.2.toString.count c).sum := by
      simp (disch := decide) only [List.count_append, count_printable hc, csv_count hc,
        assignments_count hc]
      omega
    refine Tally.ext ?_ hn rfl
    simp only [Tally.replacing, Ty.tally, Ty.count, Outcome.object_ok, hn]
    omega

theorem set_count {s t : Update} {a b : Expr} (h : (s.set a b).result = .ok t) :
    Ty.update.count c t = Ty.update.count c s + (a.toString.count c + b.toString.count c) := by
  cases h
  have hsep : (if s.set_.isEmpty then s.set_ else s.set_ ++ ", ".toList).count c =
      s.set_.count c := by
    split
    · rfl
    · rw [List.count_append, count_printable hc (s := ", ".toList) (by decide), Nat.add_zero]
  have hset : ((if s.set_.isEmpty then s.set_ else s.set_ ++ ", ".toList) ++
      (a.toString ++ " = ".toList ++ b.toString)).count c =
      s.set_.count c + (a.toString.count c + b.toString.count c) := by
    rw [List.count_append, hsep]
    simp (disch := decide) only [List.count_append, count_printable hc]
    omega
  simp only [Ty.count, Update.set, Outcome.object_ok, hset]
  omega

theorem cteText_count {name x : Text} (hn : name.all isPathChar = true) :
    (cteText name x).count c = x.count c := by
  simp (disch := decide) only [cteText, List.count_append, count_path hc hn, count_printable hc]
  omega

theorem with_count {b b' : WithBuilder} {name : Text} {v : VirtualTable}
    (h : (b.with name v).result = .ok b') :
    Ty.withBuilder.count c b' = Ty.withBuilder.count c b + v.count c := by
  unfold WithBuilder.with at h
  obtain ⟨_, hn, h⟩ := given_result h
  split at h
  · cases h
  · obtain ⟨x, hx, h⟩ := given_result h
    obtain ⟨y, -, h⟩ := given_result h
    cases h
    have := bracketed_count hc hx
    simp (disch := decide) only [Ty.count, Outcome.object_ok, List.count_append,
      count_printable hc, cteText_count hc (path_of_ok hn)]
    omega

theorem withCte_count {b : WithBuilder} {name : Text} {v : VirtualTable}
    (h : withCte name v = .ok b) : Ty.withBuilder.count c b = v.count c := by
  obtain ⟨_, hn, h⟩ := bind_ok.1 h
  obtain ⟨x, hx, h⟩ := bind_ok.1 h
  obtain ⟨y, -, h⟩ := bind_ok.1 h
  cases h
  simp only [Ty.count, cteText_count hc (path_of_ok hn)]
  exact bracketed_count hc hx

theorem main_count {b : WithBuilder} {w : WithQuery} {v : VirtualTable} (h : b.main v = .ok w) :
    Ty.withQuery.count c w = Ty.withBuilder.count c b + v.count c := by
  obtain ⟨x, hx, h⟩ := bind_ok.1 h
  obtain ⟨y, -, h⟩ := bind_ok.1 h
  cases h
  exact congrArg _ (virtual_text_count hc hx)

theorem insert_text_count {s : InsertInto} {x : Text} (h : s.toString = .ok x) :
    x.count c = Ty.insertInto.count c s := by
  have rows : (InsertInto.rowsText s.rows_).count c =
      (s.rows_.map fun row => (row.map (List.count c)).sum).sum := by
    have row (r : List Text) : ("(".toList ++ joinCsv r ++ ")".toList).count c =
        (r.map (List.count c)).sum := by
      simp (disch := decide) only [List.count_append, count_printable hc, count_joinCsv hc]
      omega
    cases s.rows_ with
    | nil => rfl
    | cons r l =>
      rw [InsertInto.rowsText, List.count_append, row, List.map_cons, List.sum_cons,
        List.count_flatMap]
      refine congrArg _ (congrArg List.sum (List.map_congr_left fun r' _ => ?_))
      rw [Function.comp_apply, List.count_append, row, count_printable hc (by decide), Nat.zero_add]
  unfold InsertInto.toString at h
  split at h
  · cases h
  split at h
  · cases h
  split at h
  · cases h
  · cases h
    rw [count_optional hc _ _ _ (by decide), count_optional hc _ _ " ".toList (by decide)]
    simp (disch := decide) only [List.count_append, count_printable hc, count_joinCsv hc, rows,
      Ty.count]
    omega

theorem update_text_count {s : Update} {x : Text} (h : s.toString = .ok x) :
    x.count c = Ty.update.count c s := by
  unfold Update.toString at h
  split at h
  · cases h
  · cases h
    rw [count_optional hc _ _ _ (by decide), count_optional hc _ _ _ (by decide),
      count_optional hc _ _ _ (by decide)]
    simp (disch := decide) only [List.count_append, count_printable hc, Ty.count]
    omega

theorem double_count {d : Double} {e : Expr} (he : Expr.fromDouble d = .ok e) :
    e.toString.count c = 0 := by
  have digits (d : Digits) : d.val.count c = 0 := count_path hc <| List.all_eq_true.2 fun x hx =>
    isDigit_path (List.all_eq_true.1 d.digits x hx)
  cases d with
  | nonFinite text => cases he
  | finite negative whole fraction exponent =>
    have hsign : (if negative then ['-'] else []).count c = 0 := by
      cases negative <;> exact count_printable hc (by decide)
    have hchars : (toChars negative whole fraction exponent).count c = 0 := by
      unfold toChars
      rw [List.count_append, List.count_append, List.count_append, hsign, digits whole]
      have hfraction (f : Digits) : ('.' :: f.val).count c = 0 :=
        (count_cons hc f.val (by decide)).trans (digits f)
      have hexponent (neg : Bool) (e : Digits) :
          ('e' :: (if neg then '-' else '+') :: e.val).count c = 0 := by
        rw [count_cons hc _ (by decide), count_cons hc _ (by cases neg <;> decide), digits e]
      rcases fraction with - | f <;> rcases exponent with - | ⟨neg, e⟩ <;>
        simp only [hfraction, hexponent, List.count_nil]
    cases he
    rw [fromRaw_text]
    split
    · exact hchars
    · rw [List.count_append, hchars, count_printable hc (by decide)]

end

/-! ## The mark -/

/-- The mark as an expression. -/
def marked : Expr := .fromRaw [mark]

theorem mark_foreign : Foreign mark := .inr (by decide)

theorem count_of_bytes {s : Text} (h : isBytes s = true) : s.count mark = 0 := by
  refine List.count_eq_zero.2 fun hm => ?_
  have := List.all_eq_true.1 h mark hm
  revert this
  decide

theorem count_of_closed {s : Text} (h : isClosed s = true) : s.count mark = 0 := by
  rw [isClosed, Bool.and_eq_true] at h
  exact count_of_bytes h.1

theorem count_of_table {s : Text} (h : isTableName s = true) : s.count mark = 0 := by
  simp only [isTableName, Bool.and_eq_true] at h
  exact count_of_closed h.1.1

theorem placeholder_printable (n : Fin 10) : isPrintable (placeholder n).toString = true := by
  revert n
  decide

theorem atom_count {a : Atom} (ha : ∀ l ∈ a.leaves, l.WF) {e : Expr} (he : a.build = .ok e) :
    e.toString.count mark = 0 := by
  have constant (hp : isPrintable e.toString = true) : e.toString.count mark = 0 :=
    count_printable mark_foreign hp
  cases a with
  | null | countAll => cases he; exact constant (by decide)
  | bool value => cases he; cases value <;> exact constant (by decide)
  | placeholder n =>
    cases he
    exact constant (placeholder_printable n)
  | integer value => cases he; exact count_int mark_foreign value
  | double value => exact double_count mark_foreign he
  | literal value =>
    obtain ⟨-, rfl⟩ := literal_ok he
    exact (count_escape mark_foreign (q := '\'') rfl value).trans (count_of_bytes (ha _ (.head _)))
  | ident name =>
    obtain ⟨-, rfl⟩ := ident_ok he
    exact (count_escape mark_foreign (q := '"') rfl name).trans (count_of_bytes (ha _ (.head _)))
  | column name | raw s => cases he; exact count_of_closed (ha _ (.head _))
  | dot aliasName column =>
    obtain ⟨t, ht, he⟩ := bind_ok.1 he
    obtain ⟨_, hn, ht⟩ := bind_ok.1 ht
    cases ht
    cases he
    rw [TableAlias.dot, fromRaw_text, List.count_append, List.count_append,
      count_path mark_foreign (path_of_ok hn), count_printable mark_foreign (by decide),
      count_of_closed (ha (.code column) (.head _))]

/-! ## Runs -/

section
variable {t t₁ t₂ t₃ : Ty} {r : Program t} {p : Program t₁} {q : Program t₂} {s : Program t₃}
  {x : t.Val}

/-- A call on one value. -/
theorem tally_one {f : t₁.Val → Result t.Val}
    (ih : ∀ {y}, p.run marked = .ok y → t₁.tally mark y = p.tally)
    (hx : (p.run marked >>= f) = .ok x)
    (hf : ∀ y, f y = .ok x → t.count mark x = (t₁.tally mark y).all) :
    Tally.plain (t.count mark x) = .plain p.tally.all := by
  obtain ⟨y, hy, hx⟩ := bind_ok.1 hx
  rw [hf y hx, ih hy]

/-- A call on two values, `g` of whose tallies the result holds. -/
theorem tally_parts {f : t₁.Val → t₂.Val → Result t.Val} {g : Tally → Tally → Tally}
    (hr : r.WF) (he : r.leaves = p.leaves ++ q.leaves)
    (ihp : p.WF → ∀ {y}, p.run marked = .ok y → t₁.tally mark y = p.tally)
    (ihq : q.WF → ∀ {z}, q.run marked = .ok z → t₂.tally mark z = q.tally)
    (hx : (p.run marked >>= fun y => q.run marked >>= fun z => f y z) = .ok x)
    (hf : ∀ y z, f y z = .ok x → t.tally mark x = g (t₁.tally mark y) (t₂.tally mark z)) :
    t.tally mark x = g p.tally q.tally := by
  obtain ⟨y, hy, hx⟩ := bind_ok.1 hx
  obtain ⟨z, hz, hx⟩ := bind_ok.1 hx
  rw [Program.WF, he] at hr
  obtain ⟨hp, hq⟩ := List.forall_mem_append.1 hr
  rw [hf y z hx, ihp hp hy, ihq hq hz]

/-- A call on two values. -/
theorem tally_two {f : t₁.Val → t₂.Val → Result t.Val} (hr : r.WF)
    (he : r.leaves = p.leaves ++ q.leaves)
    (ihp : p.WF → ∀ {y}, p.run marked = .ok y → t₁.tally mark y = p.tally)
    (ihq : q.WF → ∀ {z}, q.run marked = .ok z → t₂.tally mark z = q.tally)
    (hx : (p.run marked >>= fun y => q.run marked >>= fun z => f y z) = .ok x)
    (hf : ∀ y z, f y z = .ok x →
      t.count mark x = (t₁.tally mark y).all + (t₂.tally mark z).all) :
    Tally.plain (t.count mark x) = .plain (p.tally.all + q.tally.all) := by
  obtain ⟨y, hy, hx⟩ := bind_ok.1 hx
  obtain ⟨z, hz, hx⟩ := bind_ok.1 hx
  rw [Program.WF, he] at hr
  obtain ⟨hp, hq⟩ := List.forall_mem_append.1 hr
  rw [hf y z hx, ihp hp hy, ihq hq hz]

/-- A call on three values. -/
theorem tally_three {f : t₁.Val → t₂.Val → t₃.Val → Result t.Val}
    {g : Tally → Tally → Tally → Tally}
    (hr : r.WF) (he : r.leaves = p.leaves ++ (q.leaves ++ s.leaves))
    (ihp : p.WF → ∀ {y}, p.run marked = .ok y → t₁.tally mark y = p.tally)
    (ihq : q.WF → ∀ {z}, q.run marked = .ok z → t₂.tally mark z = q.tally)
    (ihs : s.WF → ∀ {w}, s.run marked = .ok w → t₃.tally mark w = s.tally)
    (hx : (p.run marked >>= fun y => q.run marked >>= fun z => s.run marked >>= fun w =>
      f y z w) = .ok x)
    (hf : ∀ y z w, f y z w = .ok x →
      t.tally mark x = g (t₁.tally mark y) (t₂.tally mark z) (t₃.tally mark w)) :
    t.tally mark x = g p.tally q.tally s.tally := by
  obtain ⟨y, hy, hx⟩ := bind_ok.1 hx
  obtain ⟨z, hz, hx⟩ := bind_ok.1 hx
  obtain ⟨w, hw, hx⟩ := bind_ok.1 hx
  rw [Program.WF, he] at hr
  obtain ⟨hp, hqs⟩ := List.forall_mem_append.1 hr
  obtain ⟨hq, hs⟩ := List.forall_mem_append.1 hqs
  rw [hf y z w hx, ihp hp hy, ihq hq hz, ihs hs hw]

end

theorem tally_all (c : Char) (t : Ty) (x : t.Val) : (t.tally c x).all = t.count c x := by
  cases t <;> rfl

/-- A table with columns has no holes. -/
theorem columns_tally (p : Program .tableWithColumns) : p.tally = .plain 0 := by
  cases p <;> rfl

/-- A call on a table with columns. -/
theorem tally_columns {t : Ty} {p : Program .tableWithColumns} {x : t.Val}
    {f : TableWithColumns → Result t.Val}
    (ih : ∀ {y}, p.run marked = .ok y → Ty.tableWithColumns.tally mark y = p.tally)
    (hx : (p.run marked >>= f) = .ok x)
    (hf : ∀ y, f y = .ok x → t.count mark x ≤ Ty.tableWithColumns.count mark y) :
    Tally.plain (t.count mark x) = .plain p.tally.all := by
  obtain ⟨y, hy, hx⟩ := bind_ok.1 hx
  have h0 : Ty.tableWithColumns.count mark y = 0 :=
    congrArg Tally.all ((ih hy).trans (columns_tally p))
  have hle := hf y hx
  rw [h0] at hle
  rw [Nat.le_zero.1 hle, columns_tally]

/-- **A built value holds one mark for each hole whose text no call threw away.** -/
theorem count_kept {t : Ty} (p : Program t) (hp : p.WF) {x : t.Val} (hx : p.run marked = .ok x) :
    t.tally mark x = p.tally := by
  have hc := mark_foreign
  induction p with
  | hole => cases hx; rfl
  | atom a => exact congrArg Tally.plain (atom_count hp hx)
  | call f args ih => exact tally_one (ih hp) hx fun _ hy => count_function hc hy
  | unary op a ih =>
    obtain ⟨hop, ha⟩ := List.forall_mem_append.1 hp
    refine tally_one (ih ha) hx fun _ hy => count_unary hc hy ?_
    rintro type rfl
    exact count_of_closed (hop (.code type) (.head _))
  | binary op a b iha ihb =>
    exact tally_two hp rfl iha ihb hx fun _ _ hy => count_binary hc hy
  | ofCondition q ih => exact tally_one (ih hp) hx fun _ hy => by cases hy; rfl
  | subquery q ih => exact tally_one (ih hp) hx fun _ hy => subquery_count hc hy
  | caseEnd b ih =>
    obtain ⟨y, hy, hx⟩ := bind_ok.1 hx
    refine congrArg Tally.plain ((count_end hc hx).trans ?_)
    rw [ih hp hy]
  | selectArgAll q ih =>
    exact tally_columns (ih hp) hx fun y hy => by cases hy; exact count_selectArgAll hc y
  | tableDot q column ih => exact tally_columns (ih hp) hx fun _ hy => count_tableDot hc hy
  | rawCondition s =>
    cases hx
    exact congrArg Tally.plain (count_of_closed (hp (.code s) (.head _)))
  | relation op a b iha ihb =>
    exact tally_two hp rfl iha ihb hx fun y z hy => by
      cases hy; exact count_relation hc op y z
  | test op a ih =>
    exact tally_one (ih hp) hx fun y hy => by cases hy; exact count_test hc op y
  | between neg e a b ihe iha ihb =>
    exact tally_three (g := fun m n k => .plain (m.all + (n.all + k.all))) hp rfl ihe iha ihb hx
      fun y z w hy => by cases hy; exact congrArg Tally.plain (count_between hc neg y z w)
  | isIn neg e l ihe ihl =>
    exact tally_two hp rfl ihe ihl hx fun _ _ hy => count_isIn hc hy
  | subqueryOp op e q ihe ihq =>
    exact tally_two hp rfl ihe ihq hx fun _ _ hy => subqueryOp_count hc hy
  | «exists» neg q ih => exact tally_one (ih hp) hx fun _ hy => exists_count hc hy
  | connective op a b iha ihb =>
    exact tally_two hp rfl iha ihb hx fun y z hy => by
      cases hy; exact count_connective hc op y z
  | conditionNot a ih =>
    exact tally_one (ih hp) hx fun y hy => by cases hy; exact count_conditionNot hc y
  | selectItem e ih => exact tally_one (ih hp) hx fun _ hy => by cases hy; rfl
  | selectItemAs e name ih => exact tally_one (ih hp) hx fun _ hy => count_as hc hy
  | orderByTerm e direction nulls ih =>
    exact tally_one (ih hp) hx fun _ hy => by cases hy; rfl
  | assignment a b iha ihb =>
    exact tally_two hp rfl iha ihb hx fun _ _ hy => by cases hy; rfl
  | nil => cases hx; rfl
  | cons a b iha ihb =>
    exact tally_two hp rfl iha ihb hx fun _ _ hy => by cases hy; rw [tally_all]; rfl
  | caseNew => cases hx; rfl
  | caseWhen b q ihb ihq =>
    exact tally_parts (g := .awaiting) hp rfl ihb ihq hx fun _ _ hy => count_when hy
  | caseThen b r ihb ihr =>
    exact tally_parts (g := .adding) hp rfl ihb ihr hx fun _ _ hy => count_then hc hy
  | caseElse b r ihb ihr =>
    exact tally_parts (g := .replacing) hp rfl ihb ihr hx fun _ _ hy => count_else hy
  | table name =>
    cases hx
    exact congrArg Tally.plain (count_of_table (hp (.table name) (.head _)))
  | aliased q name ih => exact tally_one (ih hp) hx fun _ hy => aliased_count hc hy
  | tableWithColumns name columns =>
    cases hx
    obtain ⟨hname, hcols⟩ := List.forall_mem_cons.1 hp
    have hsum : (columns.map fun col => col.name.count mark).sum = 0 := by
      refine List.sum_eq_zero fun n hn => ?_
      obtain ⟨col, hcol, rfl⟩ := List.mem_map.1 hn
      exact count_of_closed (hcols (.code col.name) (List.mem_map_of_mem hcol))
    refine congrArg Tally.plain ?_
    simp only [Ty.count, TableWithColumns.fromRaw, count_of_table hname, hsum, List.count_nil]
  | aliasedColumns q name ih =>
    refine (tally_columns (ih hp) hx fun _ hy => count_aliasedColumns hc hy).trans ?_
    rw [columns_tally]
    rfl
  | upcast q ih =>
    refine tally_columns (ih hp) hx fun y hy => ?_
    cases hy
    simp only [Ty.count, VirtualTable.count]
    omega
  | ofTableWithColumns q ih =>
    refine tally_columns (ih hp) hx fun y hy => ?_
    cases hy
    simp only [Ty.count, VirtualTable.count]
    omega
  | ofTable q ih | ofJoin q ih | ofSelect q ih | ofSetOp q ih
  | ofWith q ih | ofDeleteFrom q ih =>
    exact tally_one (ih hp) hx fun _ hy => by cases hy; rfl
  | join a b kind iha ihb => exact tally_two hp rfl iha ihb hx fun _ _ hy => newJoin_count hc hy
  | joinOn j q ihj ihq => exact tally_two hp rfl ihj ihq hx fun _ _ hy => on_count hy
  | joinUsing j l ihj ihl => exact tally_two hp rfl ihj ihl hx fun _ _ hy => using_count hc hy
  | setOp a b kind iha ihb => exact tally_two hp rfl iha ihb hx fun _ _ hy => newSetOp_count hc hy
  | select tbl ih => exact tally_one (ih hp) hx fun _ hy => fromTable_count hc hy
  | distinct s ih => exact tally_one (ih hp) hx fun _ hy => select_call_count (k := .distinct) hy
  | distinctOn s l ihs ihl =>
    exact tally_two hp rfl ihs ihl hx fun _ l hy => select_call_count (k := .distinctOn l) hy
  | selectItems s l ihs ihl =>
    exact tally_two hp rfl ihs ihl hx fun _ l hy => select_call_count (k := .select l) hy
  | «where» s q ihs ihq =>
    exact tally_two hp rfl ihs ihq hx fun _ q hy => select_call_count (k := .where q) hy
  | groupBy s l ihs ihl =>
    exact tally_two hp rfl ihs ihl hx fun _ l hy => select_call_count (k := .groupBy l) hy
  | having s q ihs ihq =>
    exact tally_two hp rfl ihs ihq hx fun _ q hy => select_call_count (k := .having q) hy
  | orderBy s l ihs ihl =>
    exact tally_two hp rfl ihs ihl hx fun _ l hy => select_call_count (k := .orderBy l) hy
  | limit s n ih => exact tally_one (ih hp) hx fun _ hy => select_call_count (k := .limit n) hy
  | offset s n ih => exact tally_one (ih hp) hx fun _ hy => select_call_count (k := .offset n) hy
  | deleteFrom q ih =>
    exact tally_one (ih hp) hx fun y hy => by
      cases hy
      simp only [Ty.tally, Ty.count, VirtualTable.count, DeleteFrom.new, Table.toString,
        List.count_nil]
      omega
  | deleteUsing d q ihd ihq =>
    exact tally_two hp rfl ihd ihq hx fun _ _ hy => deleteUsing_count hc hy
  | deleteWhere d q ihd ihq => exact tally_two hp rfl ihd ihq hx fun _ _ hy => deleteWhere_count hy
  | deleteReturning d l ihd ihl =>
    exact tally_two hp rfl ihd ihl hx fun _ _ hy => deleteReturning_count hc hy
  | insertInto q ih =>
    obtain ⟨y, hy, hx⟩ := bind_ok.1 hx
    cases hx
    refine Tally.ext ?_ rfl rfl
    have hq : y.name_.count mark = q.tally.all := congrArg Tally.all (ih hp hy)
    exact hq
  | columns s l ihs ihl =>
    exact tally_parts (g := .adding) hp rfl ihs ihl hx fun _ _ hy => columns_count hy
  | values s l ihs ihl =>
    exact tally_parts (g := .adding) hp rfl ihs ihl hx fun _ _ hy => values_count hy
  | rows s l ihs ihl =>
    exact tally_parts (g := .adding) hp rfl ihs ihl hx fun _ _ hy => rows_count hy
  | insertReturning s l ihs ihl =>
    exact tally_parts (g := .adding) hp rfl ihs ihl hx fun _ _ hy => insertReturning_count hc hy
  | onConflictDoNothing s ih =>
    obtain ⟨y, hy, hx⟩ := bind_ok.1 hx
    rw [onConflictDoNothing_count hc hx, ih hp hy]
    rfl
  | onConflictDoNothingAt s l ihs ihl =>
    exact tally_parts (g := .replacing) hp rfl ihs ihl hx fun _ _ hy =>
      onConflictDoNothingAt_count hc hy
  | onConflictDoUpdate s l a ihs ihl iha =>
    exact tally_three (g := fun m n k => m.replacing (.plain (n.all + k.all))) hp rfl ihs ihl iha
      hx fun _ _ _ hy => onConflictDoUpdate_count hc hy
  | update q ih =>
    exact tally_one (ih hp) hx fun y hy => by
      cases hy
      simp only [Ty.tally, Ty.count, VirtualTable.count, Update.new, Table.toString, List.count_nil]
      omega
  | set s a b ihs iha ihb =>
    exact tally_three (g := fun m n k => .plain (m.all + (n.all + k.all))) hp rfl ihs iha ihb hx
      fun _ _ _ hy => congrArg Tally.plain (set_count hc hy)
  | updateFrom s q ihs ihq => exact tally_two hp rfl ihs ihq hx fun _ _ hy => updateFrom_count hc hy
  | updateWhere s q ihs ihq => exact tally_two hp rfl ihs ihq hx fun _ _ hy => updateWhere_count hy
  | updateReturning s l ihs ihl =>
    exact tally_two hp rfl ihs ihl hx fun _ _ hy => updateReturning_count hc hy
  | withNew name q ih => exact tally_one (ih hp) hx fun _ hy => withCte_count hc hy
  | «with» b name q ihb ihq => exact tally_two hp rfl ihb ihq hx fun _ _ hy => with_count hc hy
  | main b q ihb ihq => exact tally_two hp rfl ihb ihq hx fun _ _ hy => main_count hc hy
  | exprText e ih | conditionText e ih =>
    exact tally_one (ih hp) hx fun _ hy => by cases hy; rfl
  | virtualTableText q ih => exact tally_one (ih hp) hx fun _ hy => virtual_text_count hc hy
  | insertText s ih => exact tally_one (ih hp) hx fun _ hy => insert_text_count hc hy
  | updateText s ih => exact tally_one (ih hp) hx fun _ hy => update_text_count hc hy

end IronQuery
