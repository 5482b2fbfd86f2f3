import IronQuery.Proof.RelatedAtoms

/-!
# Two runs of the table API

The relation of two runs at each record of the table API, field by field (`VirtualRel` for the base
class), and one lemma for each constructor, setter and rendering that it is kept. The formatted
texts are not related: two runs agree on whether there is one (`formatted_rel`).
-/

namespace IronQuery

open OperatorPrecedence Pg

/-! ## Lists, clauses and setters -/

theorem forall₂_map {α β γ δ : Type} {R : α → β → Prop} {S : γ → δ → Prop} {f : α → γ} {g : β → δ}
    (hf : ∀ a b, R a b → S (f a) (g b)) {l : List α} {l' : List β} (h : List.Forall₂ R l l') :
    List.Forall₂ S (l.map f) (l'.map g) := by
  induction h with
  | nil => exact .nil
  | cons hab _ ih => exact .cons (hf _ _ hab) ih

theorem isNone_rel {α β : Type} {R : α → β → Prop} {o : Option α} {o' : Option β}
    (h : Option.Rel R o o') : o'.isNone = o.isNone := by
  cases h <;> rfl

theorem isEmpty_rel {α β : Type} {R : α → β → Prop} {l : List α} {l' : List β}
    (h : List.Forall₂ R l l') : l'.isEmpty = l.isEmpty := by
  cases h <;> rfl

theorem setOnce_rel {β β' σ σ' : Type} [Clause β] [Clause β'] {R : σ → σ' → Prop} {f : β} {f' : β'}
    {what : Text} {s t : σ} {s' t' : σ'} (he : Clause.isEmpty f' = Clause.isEmpty f) (h : R t t') :
    Agree R (setOnce f what s t).result (setOnce f' what s' t').result := by
  rw [setOnce_eq, setOnce_eq, he]
  split
  · exact h
  · exact Agree.error _

theorem given_rel {α β σ σ' : Type} {R : α → β → Prop} {S : σ → σ' → Prop} {r : Result α}
    {r' : Result β} {s : σ} {s' : σ'} {f : α → Outcome σ} {f' : β → Outcome σ'} (h : Agree R r r')
    (hf : ∀ a b, R a b → Agree S (f a).result (f' b).result) :
    Agree S (Outcome.given r s f).result (Outcome.given r' s' f').result := by
  cases r with
  | error e => obtain rfl := h.error_left rfl; exact Agree.error _
  | ok a =>
    obtain ⟨b, rfl, hab⟩ := h.ok_left rfl
    exact hf a b hab

/-! ## The relations -/

section
variable (u : Text)

abbrev ItemRel (x y : SelectItem) : Prop := Filled u x.s_ y.s_

structure OrderRel (x y : OrderByTerm) : Prop where
  expr : ExprRel u x.expr y.expr
  direction : y.direction = x.direction
  nullsOrder : y.nullsOrder = x.nullsOrder

structure AssignmentRel (x y : Expr × Expr) : Prop where
  column : ExprRel u x.1 y.1
  value : ExprRel u x.2 y.2

structure CaseRel (x y : CaseBuilder) : Prop where
  whens : Piece mark u ready spaced x.whens_ y.whens_
  pending : Filled u x.pendingWhen_ y.pendingWhen_
  els : Filled u x.else_ y.else_
  hasPending : y.hasPendingWhen_ = x.hasPendingWhen_

abbrev TableRel (x y : Table) : Prop := Named u x.name_ y.name_

structure ColumnsRel (x y : TableWithColumns) : Prop where
  name : Named u x.name_ y.name_
  columns : y.columns_ = x.columns_
  closed : ∀ c ∈ x.columns_, isClosed c.name = true
  alias_eq : y.alias_ = x.alias_
  path : x.alias_.all isPathChar = true

structure JoinRel (x y : Join) : Prop where
  a : Filled u x.a_ y.a_
  b : Filled u x.b_ y.b_
  kind_eq : y.kind_ = x.kind_
  kind : ∃ k : JoinKind, x.kind_ = k.toString
  natural : y.natural_ = x.natural_
  on_ : Filled u x.on_ y.on_
  using_ : Filled u x.using_ y.using_

structure SetOpRel (x y : SetOp) : Prop where
  a : Filled u x.a_ y.a_
  b : Filled u x.b_ y.b_
  kind_eq : y.kind_ = x.kind_
  kind : ∃ k : SetOpKind, x.kind_ = k.toString

structure DeleteRel (x y : DeleteFrom) : Prop where
  from_ : Filled u x.from_ y.from_
  using_ : Filled u x.using_ y.using_
  where_ : Filled u x.where_ y.where_
  returning : Filled u x.returning_ y.returning_

structure WithRel (x y : WithQuery) : Prop where
  ctes : Named u x.ctes_ y.ctes_
  main : Filled u x.main_ y.main_

structure SelectRel (x y : SelectExpr) : Prop where
  distinct : y.distinct_ = x.distinct_
  distinctOn : Option.Rel (List.Forall₂ (ExprRel u)) x.distinctOn_ y.distinctOn_
  from_ : Filled u x.from_ y.from_
  select : Option.Rel (List.Forall₂ (ItemRel u)) x.select_ y.select_
  where_ : Option.Rel (ConditionRel u) x.where_ y.where_
  groupBy : Option.Rel (List.Forall₂ (ExprRel u)) x.groupBy_ y.groupBy_
  having : Option.Rel (ConditionRel u) x.having_ y.having_
  orderBy : Option.Rel (List.Forall₂ (OrderRel u)) x.orderBy_ y.orderBy_
  limit : y.limit_ = x.limit_
  offset : y.offset_ = x.offset_

structure InsertRel (x y : InsertInto) : Prop where
  into : Filled u x.into_ y.into_
  columns : List.Forall₂ (Filled u) x.columns_ y.columns_
  rows : List.Forall₂ (List.Forall₂ (Filled u)) x.rows_ y.rows_
  returning : Filled u x.returning_ y.returning_
  onConflict : Filled u x.onConflict_ y.onConflict_

structure UpdateRel (x y : Update) : Prop where
  table : Filled u x.table_ y.table_
  set : Filled u x.set_ y.set_
  from_ : Filled u x.from_ y.from_
  where_ : Filled u x.where_ y.where_
  returning : Filled u x.returning_ y.returning_

structure WithBuilderRel (x y : WithBuilder) : Prop where
  ctes : Named u x.ctes_ y.ctes_
  names : y.cteNames_ = x.cteNames_

inductive VirtualRel : VirtualTable → VirtualTable → Prop
  | table {x y : Table} : TableRel u x y → VirtualRel (.table x) (.table y)
  | tableWithColumns {x y : TableWithColumns} : ColumnsRel u x y →
    VirtualRel (.tableWithColumns x) (.tableWithColumns y)
  | join {x y : Join} : JoinRel u x y → VirtualRel (.join x) (.join y)
  | select {x y : SelectExpr} : SelectRel u x y → VirtualRel (.select x) (.select y)
  | setOp {x y : SetOp} : SetOpRel u x y → VirtualRel (.setOp x) (.setOp y)
  | with {x y : WithQuery} : WithRel u x y → VirtualRel (.with x) (.with y)
  | deleteFrom {x y : DeleteFrom} : DeleteRel u x y → VirtualRel (.deleteFrom x) (.deleteFrom y)

/-- The relation at every type. -/
def Ty.Rel : (t : Ty) → t.Val → t.Val → Prop
  | .expr => ExprRel u
  | .condition => ConditionRel u
  | .selectItem => ItemRel u
  | .orderByTerm => OrderRel u
  | .assignment => AssignmentRel u
  | .caseBuilder => CaseRel u
  | .table => TableRel u
  | .tableWithColumns => ColumnsRel u
  | .join => JoinRel u
  | .setOp => SetOpRel u
  | .select => SelectRel u
  | .deleteFrom => DeleteRel u
  | .virtualTable => VirtualRel u
  | .insertInto => InsertRel u
  | .update => UpdateRel u
  | .withBuilder => WithBuilderRel u
  | .withQuery => WithRel u
  | .text => Filled u
  | .list t => List.Forall₂ t.Rel

end

section
variable {u : Text}

/-! ## Terms -/

theorem as_rel {a a' : Expr} (name : Text) (ha : ExprRel u a a') :
    Agree (ItemRel u) (a.as name) (a'.as name) := by
  unfold Expr.as
  split
  · exact Agree.error _
  · rename_i hn
    have hname : name.all isPathChar = true := path_of_plain (by simpa using hn)
    show Filled u (a.toString ++ " AS ".toList ++ name) (a'.toString ++ " AS ".toList ++ name)
    rw [List.append_assoc, List.append_assoc]
    exact ha.toString.link _ (Filled.path hname) (by decide)

theorem order_rel {x y : OrderByTerm} (h : OrderRel u x y) : Filled u x.render y.render := by
  unfold OrderByTerm.render
  rw [h.direction, h.nullsOrder]
  refine Filled.trail _ (Filled.trail _ h.expr.toString ?_) ?_
  · cases x.direction <;> decide
  · cases x.nullsOrder <;> decide

theorem empty_rel : Filled u [] [] := Piece.nil (by decide)

variable (hu : u ≠ [])
include hu

theorem csv_step {acc acc' x x' : Text} (h : Filled u acc acc') (hx : Filled u x x') :
    Filled u ((if acc.isEmpty then acc else acc ++ ", ".toList) ++ x)
      ((if acc'.isEmpty then acc' else acc' ++ ", ".toList) ++ x') := by
  rw [h.isEmpty hu]
  split
  · rename_i he
    rw [List.isEmpty_iff] at he
    rw [he, (h.eq_nil hu).2 he]
    exact hx
  · rw [List.append_assoc, List.append_assoc]
    exact h.link _ hx (by decide)

theorem joinCsv_rel {l l' : List Text} (h : List.Forall₂ (Filled u) l l') :
    Filled u (joinCsv l) (joinCsv l') := by
  unfold joinCsv
  have key : ∀ acc acc' : Text, Filled u acc acc' →
      Filled u (l.foldl (fun s item => (if s.isEmpty then s else s ++ ", ".toList) ++ item) acc)
        (l'.foldl (fun s item => (if s.isEmpty then s else s ++ ", ".toList) ++ item) acc') := by
    induction h with
    | nil => exact fun _ _ h => h
    | cons hx _ ih => exact fun acc acc' ha => ih _ _ (csv_step hu ha hx)
  exact key [] [] empty_rel

theorem csv_exprs {l l' : List Expr} (h : List.Forall₂ (ExprRel u) l l') :
    Filled u (joinCsv (l.map Expr.toString)) (joinCsv (l'.map Expr.toString)) :=
  joinCsv_rel hu (forall₂_map (fun _ _ h => h.toString) h)

theorem csv_items {l l' : List SelectItem} (h : List.Forall₂ (ItemRel u) l l') :
    Filled u (joinCsv (l.map SelectItem.toString)) (joinCsv (l'.map SelectItem.toString)) :=
  joinCsv_rel hu (forall₂_map (f := SelectItem.toString) (g := SelectItem.toString)
    (fun _ _ h => h) h)

/-! ## CASE -/

omit hu in
theorem case_rel : CaseRel u case case := ⟨Piece.nil (by decide), empty_rel, empty_rel, rfl⟩

omit hu in
theorem when_rel {b b' : CaseBuilder} {c c' : Condition} (hb : CaseRel u b b')
    (hc : ConditionRel u c c') : Agree (CaseRel u) (b.when c).result (b'.when c').result := by
  unfold CaseBuilder.when
  rw [hb.hasPending]
  split
  · exact Agree.error _
  · exact ⟨hb.whens, hc.text, hb.els, rfl⟩

omit hu in
theorem then_rel {b b' : CaseBuilder} {r r' : Expr} (hb : CaseRel u b b') (hr : ExprRel u r r') :
    Agree (CaseRel u) (b.then r).result (b'.then r').result := by
  unfold CaseBuilder.then
  rw [hb.hasPending]
  split
  · exact Agree.error _
  · refine ⟨hb.whens.append ?_, hb.pending, hb.els, rfl⟩
    have hlead : Piece mark u spaced ready "WHEN ".toList "WHEN ".toList :=
      Piece.fragment (by decide)
    have hlink : Piece mark u whole ready " THEN ".toList " THEN ".toList :=
      Piece.fragment (by decide)
    have htrail : Piece mark u whole spaced [' '] [' '] := Piece.fragment (by decide)
    exact (((hlead.append hb.pending).append hlink).append hr.toString).append htrail

omit hu in
theorem else_rel {b b' : CaseBuilder} {r r' : Expr} (hb : CaseRel u b b') (hr : ExprRel u r r') :
    Agree (CaseRel u) (b.else r).result (b'.else r').result :=
  ⟨hb.whens, hb.pending, hr.toString, hb.hasPending⟩

theorem end_rel {b b' : CaseBuilder} (hb : CaseRel u b b') :
    Agree (ExprRel u) b.end b'.end := by
  unfold CaseBuilder.end
  rw [hb.whens.isEmpty hu, hb.els.isEmpty hu]
  split
  · exact Agree.error _
  · refine raw_rel ?_ kSymbol
    have hcase : Piece mark u ready ready "CASE ".toList "CASE ".toList :=
      Piece.fragment (by decide)
    have hend : Piece mark u spaced whole "END".toList "END".toList := Piece.fragment (by decide)
    have helse : Piece mark u spaced ready "ELSE ".toList "ELSE ".toList :=
      Piece.fragment (by decide)
    have hspace : Piece mark u whole spaced " ".toList " ".toList := Piece.fragment (by decide)
    split
    · exact ((hcase.append hb.whens).append ((helse.append hb.els).append hspace)).append hend
    · exact (hcase.append hb.whens).append hend

/-! ## Named tables -/

theorem selectArgAll_rel {t t' : TableWithColumns} (h : ColumnsRel u t t') :
    ExprRel u t.selectArgAll t'.selectArgAll := by
  have e (t : TableWithColumns) : t.columns_.foldl
      (fun s col => (if s.isEmpty then s else s ++ ", ".toList) ++ col.name) [] =
      joinCsv (t.columns_.map Column.name) := by
    rw [joinCsv, List.foldl_map]
  refine raw_rel ?_ kSymbol
  rw [e, e, h.columns]
  refine joinCsv_rel hu ?_
  rw [List.forall₂_same]
  intro x hx
  obtain ⟨c, hc, rfl⟩ := List.mem_map.1 hx
  exact Filled.of_closed (h.closed c hc)

omit hu in
theorem aliasedColumns_rel {t t' : TableWithColumns} (name : Text) (h : ColumnsRel u t t') :
    Agree (ColumnsRel u) (t.as name) (t'.as name) :=
  Agree.guard fun hn => by
    refine ⟨?_, h.columns, h.closed, rfl, path_of_ok hn⟩
    exact Named.alias " AS ".toList h.name.filled (by decide) (Named.path (path_of_ok hn))

omit hu in
theorem tableDot_rel {t t' : TableWithColumns} (column : Text) (h : ColumnsRel u t t') :
    Agree (ExprRel u) (t.dot column) (t'.dot column) := by
  unfold TableWithColumns.dot
  rw [h.alias_eq, h.columns]
  split
  · exact Agree.error _
  split
  · exact Agree.error _
  · rename_i hmem
    simp only [Bool.not_eq_true', Bool.not_eq_false, List.any_eq_true, beq_iff_eq] at hmem
    obtain ⟨c, hc, rfl⟩ := hmem
    refine raw_rel ?_ kDot
    rw [List.append_assoc]
    exact (Filled.path h.path).link _ (Filled.of_closed (h.closed c hc)) (by decide)

/-! ## The texts of the records -/

omit hu in
/-- A keyword and what follows it. -/
theorem clause_rel {x x' : Text} (c : Text) (hx : Filled u x x')
    (hc : isFragment mark whole ready c = true) :
    Piece mark u whole whole (c ++ x) (c ++ x') :=
  (Piece.fragment hc).append hx

/-- A clause that is left out when it is empty. -/
theorem optional_rel {s s' x x' p p' : Text} (h : Filled u s s') (hx : Filled u x x')
    (hp : Piece mark u whole whole p p') :
    Filled u (if !x.isEmpty then s ++ p else s) (if !x'.isEmpty then s' ++ p' else s') := by
  rw [hx.isEmpty hu]
  split
  · exact h.append hp
  · exact h

theorem join_text_rel {x y : Join} (h : JoinRel u x y) : Filled u x.toString y.toString := by
  have hkind : isFragment mark whole ready (" ".toList ++ x.kind_ ++ " JOIN ".toList) = true := by
    obtain ⟨k, hk⟩ := h.kind
    rw [hk]
    cases k <;> decide
  have hbase : Filled u (x.a_ ++ " ".toList ++ x.kind_ ++ " JOIN ".toList ++ x.b_)
      (y.a_ ++ " ".toList ++ y.kind_ ++ " JOIN ".toList ++ y.b_) := by
    rw [h.kind_eq]
    have := h.a.link _ h.b hkind
    simpa only [List.append_assoc] using this
  have husing := clause_rel " USING (".toList
    (h.using_.trail ")".toList (by decide)) (by decide)
  rw [← List.append_assoc, ← List.append_assoc] at husing
  exact optional_rel hu (optional_rel hu hbase h.on_ (clause_rel _ h.on_ (by decide))) h.using_ husing

omit hu in
theorem setOp_text_rel {x y : SetOp} (h : SetOpRel u x y) : Filled u x.toString y.toString := by
  have hkind : isFragment mark whole ready (" ".toList ++ x.kind_ ++ " ".toList) = true := by
    obtain ⟨k, hk⟩ := h.kind
    rw [hk]
    cases k <;> decide
  have := h.a.link _ h.b hkind
  unfold SetOp.toString
  rw [h.kind_eq]
  simpa only [List.append_assoc] using this

theorem delete_text_rel {x y : DeleteFrom} (h : DeleteRel u x y) :
    Agree (Filled u) x.toString y.toString := by
  unfold DeleteFrom.toString
  rw [h.from_.isEmpty hu]
  split
  · exact Agree.error _
  · refine optional_rel hu ?_ h.returning (clause_rel _ h.returning (by decide))
    refine optional_rel hu ?_ h.where_ (clause_rel _ h.where_ (by decide))
    refine optional_rel hu ?_ h.using_ (clause_rel _ h.using_ (by decide))
    exact h.from_.lead _ (by decide)

omit hu in
theorem with_text_rel {x y : WithQuery} (h : WithRel u x y) : Filled u x.toString y.toString := by
  have hlead : Piece mark u ready ready "WITH ".toList "WITH ".toList :=
    Piece.fragment (by decide)
  have hspace : Piece mark u named ready " ".toList " ".toList := Piece.fragment (by decide)
  exact ((hlead.append h.ctes).append hspace).append h.main

/-! ### SELECT -/

omit hu in
theorem optionClause_rel {α β : Type} {R : α → β → Prop} {o : Option α} {o' : Option β}
    {f : α → Text} {g : β → Text} (h : Option.Rel R o o')
    (hf : ∀ a b, R a b → Piece mark u whole whole (f a) (g b)) :
    Piece mark u whole whole (SelectExpr.clause f o) (SelectExpr.clause g o') := by
  cases h with
  | none => exact Piece.nil fun _ h => h
  | some hab => exact hf _ _ hab

omit hu in
theorem intClause_rel (c : Text) (hc : isFragment mark whole ready c = true) (o : Option Int) :
    Piece mark u whole whole (SelectExpr.clause (fun n => c ++ intToString n) o)
      (SelectExpr.clause (fun n => c ++ intToString n) o) := by
  cases o with
  | none => exact Piece.nil fun _ h => h
  | some n => exact clause_rel c (Filled.int n) hc

theorem ensureValid_rel {x y : SelectExpr} (h : SelectRel u x y) :
    Agree (List.Forall₂ (ItemRel u)) x.ensureValid y.ensureValid := by
  unfold SelectExpr.ensureValid
  have hs := h.select
  generalize x.select_ = o at hs
  generalize y.select_ = o' at hs
  cases hs with
  | none => exact Agree.error _
  | some hl =>
    have hon : y.distinctOn_.isSome = x.distinctOn_.isSome := by
      rw [← Option.not_isNone, ← Option.not_isNone, isNone_rel h.distinctOn]
    simp only [h.from_.isEmpty hu, h.distinct, hon]
    split
    · exact Agree.error _
    split
    · exact Agree.error _
    · exact hl

theorem select_text_rel {x y : SelectExpr} (h : SelectRel u x y) :
    Agree (Filled u) x.toString y.toString := by
  refine Agree.bind (ensureValid_rel hu h) fun l l' hl => Agree.pure ?_
  refine Piece.append (T := whole) (Piece.append (T := whole) (Piece.append (T := whole)
    (Piece.append (T := whole) (Piece.append (T := whole) (Piece.append (T := whole)
    (Piece.append (T := ready) ?_ ?_) ?_) ?_) ?_) ?_) ?_) ?_
  · have hon := h.distinctOn
    generalize x.distinctOn_ = o at hon
    generalize y.distinctOn_ = o' at hon
    cases hon with
    | none =>
      rw [h.distinct]
      refine Piece.fragment ?_
      cases x.distinct_ <;> decide
    | some hl =>
      have hlead : Piece mark u ready ready "SELECT DISTINCT ON (".toList
        "SELECT DISTINCT ON (".toList := Piece.fragment (by decide)
      have htrail : Piece mark u whole ready ") ".toList ") ".toList := Piece.fragment (by decide)
      exact (hlead.append (csv_exprs hu hl)).append htrail
  · have hlink : Piece mark u whole ready " FROM ".toList " FROM ".toList :=
      Piece.fragment (by decide)
    exact ((csv_items hu hl).append hlink).append h.from_
  · exact optionClause_rel h.where_ fun _ _ hc => clause_rel _ hc.text (by decide)
  · exact optionClause_rel h.groupBy fun _ _ hl => clause_rel _ (csv_exprs hu hl) (by decide)
  · exact optionClause_rel h.having fun _ _ hc => clause_rel _ hc.text (by decide)
  · exact optionClause_rel h.orderBy fun _ _ hl =>
      clause_rel _ (joinCsv_rel hu (forall₂_map (fun _ _ h => order_rel h) hl)) (by decide)
  · rw [h.limit]
    exact intClause_rel _ (by decide) _
  · rw [h.offset]
    exact intClause_rel _ (by decide) _

/-! ### The base class -/

theorem virtual_text_rel {v v' : VirtualTable} (h : VirtualRel u v v') :
    Agree (Filled u) v.toString v'.toString := by
  cases h with
  | table h => exact Named.filled h
  | tableWithColumns h => exact h.name.filled
  | join h => exact join_text_rel hu h
  | select h => exact select_text_rel hu h
  | setOp h => exact setOp_text_rel h
  | «with» h => exact with_text_rel h
  | deleteFrom h => exact delete_text_rel hu h

theorem bracketed_rel {v v' : VirtualTable} (h : VirtualRel u v v') :
    Agree (Named u) v.toStringBracketed v'.toStringBracketed := by
  have wrap {v v' : VirtualTable} (h : Agree (Filled u) v.toString v'.toString) :
      Agree (Named u) (do return "(".toList ++ (← v.toString) ++ ")".toList)
        (do return "(".toList ++ (← v'.toString) ++ ")".toList) := by
    refine h.bind fun x x' hx => Agree.pure ?_
    have hopen : Piece mark u ready ready "(".toList "(".toList := Piece.fragment (by decide)
    have hclose : Piece mark u whole named ")".toList ")".toList := Piece.fragment (by decide)
    exact (hopen.append hx).append hclose
  have ht := virtual_text_rel hu h
  cases h with
  | table h => exact h
  | tableWithColumns h => exact h.name
  | join | select | setOp | «with» | deleteFrom => exact wrap ht

theorem fromItem_rel {v v' : VirtualTable} (h : VirtualRel u v v') :
    Agree (Filled u) v.toStringAsFromItem v'.toStringAsFromItem := by
  cases h with
  | table h => exact Named.filled h
  | tableWithColumns h => exact h.name.filled
  | join h => exact join_text_rel hu h
  | select | setOp | «with» | deleteFrom => exact Agree.error _

/-- The two runs agree on whether there is a formatted text. -/
theorem formatted_rel {v v' : VirtualTable} (h : VirtualRel u v v') :
    Agree (fun _ _ => True) v.toStringFormatted v'.toStringFormatted := by
  have weaken {r r' : Result Text} (h : Agree (Filled u) r r') : Agree (fun _ _ => True) r r' := by
    cases r with
    | error e => rw [h.error_left rfl]; exact Agree.error _
    | ok x => obtain ⟨x', rfl, -⟩ := h.ok_left rfl; trivial
  have ht := virtual_text_rel hu h
  cases h with
  | select h =>
    exact (ensureValid_rel hu h).bind fun _ _ _ => trivial
  | «with» h => trivial
  | table | tableWithColumns | join | setOp | deleteFrom => exact weaken ht

theorem aliased_rel {v v' : VirtualTable} (name : Text) (h : VirtualRel u v v') :
    Agree (TableRel u) (v.as name) (v'.as name) :=
  Agree.guard fun hn => (bracketed_rel hu h).bind fun _ _ hx =>
    Named.alias " AS ".toList hx.filled (by decide) (Named.path (path_of_ok hn))

theorem subquery_rel {v v' : VirtualTable} (h : VirtualRel u v v') :
    Agree (ExprRel u) v.toExpr v'.toExpr :=
  (bracketed_rel hu h).bind fun _ _ hx => raw_rel hx.filled _

/-! ### Predicates over a subquery -/

theorem exists_rel {v v' : VirtualTable} (neg : Bool) (h : VirtualRel u v v') :
    Agree (ConditionRel u) (if neg then Expr.notExists v else Expr.exists v)
      (if neg then Expr.notExists v' else Expr.exists v') := by
  cases neg
  · exact (bracketed_rel hu h).bind fun _ _ hx => NodeRel.leaf (hx.filled.lead _ (by decide)) _
  · exact (bracketed_rel hu h).bind fun _ _ hx => NodeRel.leaf (hx.filled.lead _ (by decide)) _

theorem subqueryNode_rel (p : OperatorPrecedence) (connector : Text)
    (hc : isFragment mark whole ready connector = true) {e e' : Expr} {v v' : VirtualTable}
    (he : ExprRel u e e') (h : VirtualRel u v v') :
    Agree (ConditionRel u) (Expr.subqueryNode p connector e v)
      (Expr.subqueryNode p connector e' v') :=
  (bracketed_rel hu h).bind fun x x' hx => by
    refine NodeRel.of_parts ?_
    simp only [List.flatMap_cons, List.flatMap_nil, render_text, render_child, List.append_nil]
    exact (he.child p).link _ hx.filled hc

theorem subqueryOp_rel (op : SubqueryOp) {e e' : Expr} {v v' : VirtualTable} (he : ExprRel u e e')
    (h : VirtualRel u v v') : Agree (ConditionRel u) (op.apply e v) (op.apply e' v') := by
  cases op <;> exact subqueryNode_rel hu _ _ (by decide) he h

end

end IronQuery
