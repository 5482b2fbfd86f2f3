import IronQuery.Proof.RelatedQueries

/-!
# Two runs of the builders

Every constructor and every setter keeps the relation of its record; `related` puts the calls of a
whole program together.
-/

namespace IronQuery

open OperatorPrecedence Pg

theorem andThen_result {σ : Type} (o : Outcome σ) (f : σ → Outcome σ) :
    (o.andThen f).result = o.result >>= fun s => (f s).result := by
  rcases o with ⟨- | e, s⟩ <;> rfl

section
variable {u : Text} (hu : u ≠ [])
include hu

/-! ## SELECT -/

theorem fromTable_rel {v v' : VirtualTable} (h : VirtualRel u v v') :
    Agree (SelectRel u) (SelectExpr.fromTable v) (SelectExpr.fromTable v') :=
  (fromItem_rel hu h).bind fun _ _ hx => ⟨rfl, .none, hx, .none, .none, .none, .none, .none, rfl, rfl⟩

omit hu in
theorem distinct_rel {s s' : SelectExpr} (h : SelectRel u s s') :
    Agree (SelectRel u) s.distinct.result s'.distinct.result :=
  { h with distinct := rfl }

omit hu in
theorem distinctOn_rel {s s' : SelectExpr} {l l' : List Expr} (h : SelectRel u s s')
    (hl : List.Forall₂ (ExprRel u) l l') :
    Agree (SelectRel u) (s.distinctOn l).result (s'.distinctOn l').result :=
  setOnce_rel (isNone_rel h.distinctOn) { h with distinctOn := .some hl }

omit hu in
theorem select_rel {s s' : SelectExpr} {l l' : List SelectItem} (h : SelectRel u s s')
    (hl : List.Forall₂ (ItemRel u) l l') :
    Agree (SelectRel u) (s.select l).result (s'.select l').result :=
  setOnce_rel (isNone_rel h.select) { h with select := .some hl }

omit hu in
theorem selectWhere_rel {s s' : SelectExpr} {c c' : Condition} (h : SelectRel u s s')
    (hc : ConditionRel u c c') : Agree (SelectRel u) (s.where c).result (s'.where c').result :=
  setOnce_rel (isNone_rel h.where_) { h with where_ := .some hc }

omit hu in
theorem groupBy_rel {s s' : SelectExpr} {l l' : List Expr} (h : SelectRel u s s')
    (hl : List.Forall₂ (ExprRel u) l l') :
    Agree (SelectRel u) (s.groupBy l).result (s'.groupBy l').result :=
  setOnce_rel (isNone_rel h.groupBy) { h with groupBy := .some hl }

omit hu in
theorem having_rel {s s' : SelectExpr} {c c' : Condition} (h : SelectRel u s s')
    (hc : ConditionRel u c c') : Agree (SelectRel u) (s.having c).result (s'.having c').result :=
  setOnce_rel (isNone_rel h.having) { h with having := .some hc }

omit hu in
theorem orderBy_rel {s s' : SelectExpr} {l l' : List OrderByTerm} (h : SelectRel u s s')
    (hl : List.Forall₂ (OrderRel u) l l') :
    Agree (SelectRel u) (s.orderBy l).result (s'.orderBy l').result :=
  setOnce_rel (isNone_rel h.orderBy) { h with orderBy := .some hl }

omit hu in
theorem limit_rel {s s' : SelectExpr} (n : Int) (h : SelectRel u s s') :
    Agree (SelectRel u) (s.limit n).result (s'.limit n).result :=
  setOnce_rel (congrArg Option.isNone h.limit) { h with limit := rfl }

omit hu in
theorem offset_rel {s s' : SelectExpr} (n : Int) (h : SelectRel u s s') :
    Agree (SelectRel u) (s.offset n).result (s'.offset n).result :=
  setOnce_rel (congrArg Option.isNone h.offset) { h with offset := rfl }

/-! ## DELETE -/

omit hu in
theorem newDelete_rel {t t' : Table} (h : TableRel u t t') :
    DeleteRel u (DeleteFrom.new t) (DeleteFrom.new t') :=
  ⟨h.filled, empty_rel, empty_rel, empty_rel⟩

theorem deleteUsing_rel {s s' : DeleteFrom} {v v' : VirtualTable} (h : DeleteRel u s s')
    (hv : VirtualRel u v v') : Agree (DeleteRel u) (s.using v).result (s'.using v').result :=
  given_rel (fromItem_rel hu hv) fun _ _ hx =>
    setOnce_rel (h.using_.isEmpty hu) { h with using_ := hx }

theorem deleteWhere_rel {s s' : DeleteFrom} {c c' : Condition} (h : DeleteRel u s s')
    (hc : ConditionRel u c c') : Agree (DeleteRel u) (s.where c).result (s'.where c').result :=
  setOnce_rel (h.where_.isEmpty hu) { h with where_ := hc.text }

theorem deleteReturning_rel {s s' : DeleteFrom} {l l' : List SelectItem} (h : DeleteRel u s s')
    (hl : List.Forall₂ (ItemRel u) l l') :
    Agree (DeleteRel u) (s.returning l).result (s'.returning l').result :=
  setOnce_rel (h.returning.isEmpty hu) { h with returning := csv_items hu hl }

/-! ## UPDATE -/

omit hu in
theorem newUpdate_rel {t t' : Table} (h : TableRel u t t') :
    UpdateRel u (Update.new t) (Update.new t') :=
  ⟨h.filled, empty_rel, empty_rel, empty_rel, empty_rel⟩

theorem set_rel {s s' : Update} {a a' b b' : Expr} (h : UpdateRel u s s') (ha : ExprRel u a a')
    (hb : ExprRel u b b') : Agree (UpdateRel u) (s.set a b).result (s'.set a' b').result := by
  have hpair : Filled u (a.toString ++ " = ".toList ++ b.toString)
      (a'.toString ++ " = ".toList ++ b'.toString) := by
    rw [List.append_assoc, List.append_assoc]
    exact ha.toString.link _ hb.toString (by decide)
  exact { h with set := csv_step hu h.set hpair }

theorem updateFrom_rel {s s' : Update} {v v' : VirtualTable} (h : UpdateRel u s s')
    (hv : VirtualRel u v v') : Agree (UpdateRel u) (s.from v).result (s'.from v').result :=
  given_rel (fromItem_rel hu hv) fun _ _ hx =>
    setOnce_rel (h.from_.isEmpty hu) { h with from_ := hx }

theorem updateWhere_rel {s s' : Update} {c c' : Condition} (h : UpdateRel u s s')
    (hc : ConditionRel u c c') : Agree (UpdateRel u) (s.where c).result (s'.where c').result :=
  setOnce_rel (h.where_.isEmpty hu) { h with where_ := hc.text }

theorem updateReturning_rel {s s' : Update} {l l' : List SelectItem} (h : UpdateRel u s s')
    (hl : List.Forall₂ (ItemRel u) l l') :
    Agree (UpdateRel u) (s.returning l).result (s'.returning l').result :=
  setOnce_rel (h.returning.isEmpty hu) { h with returning := csv_items hu hl }

theorem update_text_rel {s s' : Update} (h : UpdateRel u s s') :
    Agree (Filled u) s.toString s'.toString := by
  unfold Update.toString
  rw [h.set.isEmpty hu]
  split
  · exact Agree.error _
  · have hset : Filled u ("UPDATE ".toList ++ s.table_ ++ " SET ".toList ++ s.set_)
        ("UPDATE ".toList ++ s'.table_ ++ " SET ".toList ++ s'.set_) := by
      simp only [List.append_assoc]
      exact Filled.lead _ (h.table.link _ h.set (by decide)) (by decide)
    refine optional_rel hu ?_ h.returning (clause_rel _ h.returning (by decide))
    refine optional_rel hu ?_ h.where_ (clause_rel _ h.where_ (by decide))
    exact optional_rel hu hset h.from_ (clause_rel _ h.from_ (by decide))

/-! ## INSERT -/

omit hu in
theorem newInsert_rel {t t' : Table} (h : TableRel u t t') :
    InsertRel u (InsertInto.new t) (InsertInto.new t') :=
  ⟨h.filled, .nil, .nil, empty_rel, empty_rel⟩

omit hu in
/-- The width check sees no more than the lengths. -/
theorem arity_rel {c c' : List Text} {rows rows' : List (List Text)}
    (hc : List.Forall₂ (Filled u) c c') (hr : List.Forall₂ (List.Forall₂ (Filled u)) rows rows') :
    InsertInto.ensureSameArity c' rows' = InsertInto.ensureSameArity c rows := by
  have hfind (n : Nat) (f : Nat → Exception) :
      (rows'.find? fun row => row.length != n).map (fun row => f row.length) =
        (rows.find? fun row => row.length != n).map fun row => f row.length := by
    induction hr with
    | nil => rfl
    | @cons row row' _ _ hrow _ ih =>
      rw [List.find?_cons, List.find?_cons, hrow.length_eq]
      split
      · simp only [Option.map_some, hrow.length_eq]
      · exact ih
  unfold InsertInto.ensureSameArity
  rw [isEmpty_rel hc, isEmpty_rel hr, hc.length_eq]
  split
  · rfl
  · exact hfind _ fun n => .logicError (natToString c'.length ++ " columns but a row with ".toList ++
      natToString n ++ " values".toList)

omit hu in
theorem checkArity_rel {s s' : InsertInto} (h : InsertRel u s s') :
    Agree (InsertRel u) s.checkArity.result s'.checkArity.result := by
  unfold InsertInto.checkArity
  rw [arity_rel h.columns h.rows]
  cases InsertInto.ensureSameArity s.columns_ s.rows_ with
  | none => exact h
  | some e => exact Agree.error _

omit hu in
theorem texts_rel {l l' : List Expr} (h : List.Forall₂ (ExprRel u) l l') :
    List.Forall₂ (Filled u) (l.map Expr.toString) (l'.map Expr.toString) :=
  forall₂_map (fun _ _ h => h.toString) h

omit hu in
theorem columns_rel {s s' : InsertInto} {l l' : List Expr} (h : InsertRel u s s')
    (hl : List.Forall₂ (ExprRel u) l l') :
    Agree (InsertRel u) (s.columns l).result (s'.columns l').result := by
  rw [InsertInto.columns, InsertInto.columns, andThen_result, andThen_result]
  exact (setOnce_rel (isEmpty_rel h.columns) { h with columns := texts_rel hl }).bind
    fun _ _ h => checkArity_rel h

omit hu in
theorem values_rel {s s' : InsertInto} {l l' : List Expr} (h : InsertRel u s s')
    (hl : List.Forall₂ (ExprRel u) l l') :
    Agree (InsertRel u) (s.values l).result (s'.values l').result := by
  rw [InsertInto.values, InsertInto.values, andThen_result, andThen_result]
  exact (setOnce_rel (isEmpty_rel h.rows) { h with rows := .cons (texts_rel hl) .nil }).bind
    fun _ _ h => checkArity_rel h

omit hu in
theorem rows_rel {s s' : InsertInto} {l l' : List (List Expr)} (h : InsertRel u s s')
    (hl : List.Forall₂ (List.Forall₂ (ExprRel u)) l l') :
    Agree (InsertRel u) (s.rows l).result (s'.rows l').result := by
  have hguard : Agree (InsertRel u) (ensureNotSet s.rows_ "row values".toList s).result
      (ensureNotSet s'.rows_ "row values".toList s').result := by
    unfold ensureNotSet
    rw [isEmpty_list, isEmpty_list, isEmpty_rel h.rows]
    split
    · exact h
    · exact Agree.error _
  rw [InsertInto.rows, InsertInto.rows, andThen_result, andThen_result]
  refine hguard.bind fun _ _ h => checkArity_rel { h with rows := ?_ }
  exact List.rel_append h.rows (forall₂_map (fun _ _ h => texts_rel h) hl)

theorem insertReturning_rel {s s' : InsertInto} {l l' : List SelectItem} (h : InsertRel u s s')
    (hl : List.Forall₂ (ItemRel u) l l') :
    Agree (InsertRel u) (s.returning l).result (s'.returning l').result :=
  setOnce_rel (h.returning.isEmpty hu) { h with returning := csv_items hu hl }

omit hu in
theorem onConflictDoNothing_rel {s s' : InsertInto} (h : InsertRel u s s') :
    Agree (InsertRel u) s.onConflictDoNothing.result s'.onConflictDoNothing.result :=
  { h with onConflict := Filled.const "ON CONFLICT DO NOTHING".toList (by decide) }

/-- The target of an `ON CONFLICT`. -/
theorem target_rel {l l' : List Expr} (hl : List.Forall₂ (ExprRel u) l l') :
    Filled u ("ON CONFLICT (".toList ++ joinCsv (l.map Expr.toString))
      ("ON CONFLICT (".toList ++ joinCsv (l'.map Expr.toString)) :=
  Filled.lead _ (csv_exprs hu hl) (by decide)

theorem onConflictDoNothingAt_rel {s s' : InsertInto} {l l' : List Expr} (h : InsertRel u s s')
    (hl : List.Forall₂ (ExprRel u) l l') :
    Agree (InsertRel u) (s.onConflictDoNothingAt l).result (s'.onConflictDoNothingAt l').result :=
  { h with onConflict := (target_rel hu hl).trail _ (by decide) }

theorem assignmentCsv_rel {l l' : List (Expr × Expr)} (hl : List.Forall₂ (AssignmentRel u) l l') :
    Filled u (InsertInto.assignmentCsv l) (InsertInto.assignmentCsv l') := by
  unfold InsertInto.assignmentCsv
  generalize hacc : ([] : Text) = acc
  have ha : Filled u acc acc := hacc ▸ empty_rel
  clear hacc
  revert ha
  suffices key : ∀ acc acc' : Text, Filled u acc acc' →
      Filled u (l.foldl (fun set p => (if set.isEmpty then set else set ++ ", ".toList) ++
        renderBinary p.1.toString "=".toList p.2.toString) acc)
      (l'.foldl (fun set p => (if set.isEmpty then set else set ++ ", ".toList) ++
        renderBinary p.1.toString "=".toList p.2.toString) acc') from key acc acc
  induction hl with
  | nil => exact fun _ _ h => h
  | cons hp _ ih =>
    refine fun acc acc' ha => ih _ _ (csv_step hu ha ?_)
    simp only [renderBinary, List.append_assoc]
    exact hp.column.toString.link " = ".toList hp.value.toString (by decide)

theorem onConflictDoUpdate_rel {s s' : InsertInto} {l l' : List Expr} {p p' : List (Expr × Expr)}
    (h : InsertRel u s s') (hl : List.Forall₂ (ExprRel u) l l')
    (hp : List.Forall₂ (AssignmentRel u) p p') :
    Agree (InsertRel u) (s.onConflictDoUpdate l p).result (s'.onConflictDoUpdate l' p').result := by
  unfold InsertInto.onConflictDoUpdate
  rw [hp.length_eq]
  split
  · exact Agree.error _
  · refine { h with onConflict := ?_ }
    have := (target_rel hu hl).link ") DO UPDATE SET ".toList (assignmentCsv_rel hu hp) (by decide)
    rwa [← List.append_assoc, ← List.append_assoc] at this

theorem rowsText_rel {rows rows' : List (List Text)}
    (h : List.Forall₂ (List.Forall₂ (Filled u)) rows rows') :
    Piece mark u ready ready (InsertInto.rowsText rows) (InsertInto.rowsText rows') := by
  have row {r r' : List Text} (h : List.Forall₂ (Filled u) r r') :
      Piece mark u ready ready ("(".toList ++ joinCsv r ++ ")".toList)
        ("(".toList ++ joinCsv r' ++ ")".toList) := by
    have hopen : Piece mark u ready ready "(".toList "(".toList := Piece.fragment (by decide)
    have hclose : Piece mark u whole ready ")".toList ")".toList := Piece.fragment (by decide)
    exact (hopen.append (joinCsv_rel hu h)).append hclose
  cases h with
  | nil => exact Piece.nil (by decide)
  | cons hr hrows =>
    refine (row hr).append ?_
    induction hrows with
    | nil => exact Piece.nil (by decide)
    | cons hr' _ ih =>
      have hcomma : Piece mark u ready ready ", ".toList ", ".toList :=
        Piece.fragment (by decide)
      exact (hcomma.append (row hr')).append ih

theorem insert_text_rel {s s' : InsertInto} (h : InsertRel u s s') :
    Agree (Filled u) s.toString s'.toString := by
  unfold InsertInto.toString
  rw [isEmpty_rel h.columns, isEmpty_rel h.rows, arity_rel h.columns h.rows]
  split
  · exact Agree.error _
  split
  · exact Agree.error _
  cases InsertInto.ensureSameArity s.columns_ s.rows_ with
  | some e => exact Agree.error _
  | none =>
    have hhead : Piece mark u ready ready
        ("INSERT INTO ".toList ++ s.into_ ++ " (".toList ++ joinCsv s.columns_ ++ ") VALUES ".toList ++
          InsertInto.rowsText s.rows_)
        ("INSERT INTO ".toList ++ s'.into_ ++ " (".toList ++ joinCsv s'.columns_ ++
          ") VALUES ".toList ++ InsertInto.rowsText s'.rows_) := by
      have hlead : Piece mark u ready ready "INSERT INTO ".toList "INSERT INTO ".toList :=
        Piece.fragment (by decide)
      have hopen : Piece mark u whole ready " (".toList " (".toList := Piece.fragment (by decide)
      have hvalues : Piece mark u whole ready ") VALUES ".toList ") VALUES ".toList :=
        Piece.fragment (by decide)
      exact ((((hlead.append h.into).append hopen).append (joinCsv_rel hu h.columns)).append
        hvalues).append (rowsText_rel hu h.rows)
    refine optional_rel hu ?_ h.returning (clause_rel _ h.returning (by decide))
    rw [h.onConflict.isEmpty hu]
    split
    · have hspace : Piece mark u ready ready " ".toList " ".toList := Piece.fragment (by decide)
      exact hhead.append (hspace.append h.onConflict)
    · exact hhead.mono (fun _ h => h) (by decide)

/-! ## Joins and set operations -/

theorem newJoin_rel {a a' b b' : VirtualTable} (kind : JoinKind) (ha : VirtualRel u a a')
    (hb : VirtualRel u b b') : Agree (JoinRel u) (Join.new a b kind) (Join.new a' b' kind) :=
  (bracketed_rel hu ha).bind fun _ _ hx => (bracketed_rel hu hb).bind fun _ _ hy =>
    ⟨hx.filled, hy.filled, rfl, ⟨kind, rfl⟩, rfl, empty_rel, empty_rel⟩

theorem on_rel {j j' : Join} {c c' : Condition} (h : JoinRel u j j') (hc : ConditionRel u c c') :
    Agree (JoinRel u) (j.on c).result (j'.on c').result := by
  unfold Join.on
  rw [h.natural, h.using_.isEmpty hu]
  split
  · exact Agree.error _
  split
  · exact Agree.error _
  · exact setOnce_rel (h.on_.isEmpty hu) { h with on_ := hc.text, natural := rfl }

theorem using_rel {j j' : Join} {l l' : List Expr} (h : JoinRel u j j')
    (hl : List.Forall₂ (ExprRel u) l l') :
    Agree (JoinRel u) (j.using l).result (j'.using l').result := by
  unfold Join.using
  rw [h.natural, h.on_.isEmpty hu, hl.length_eq]
  split
  · exact Agree.error _
  split
  · exact Agree.error _
  split
  · exact Agree.error _
  · exact setOnce_rel (h.using_.isEmpty hu) { h with using_ := csv_exprs hu hl, natural := rfl }

theorem newSetOp_rel {a a' b b' : VirtualTable} (kind : SetOpKind) (ha : VirtualRel u a a')
    (hb : VirtualRel u b b') : Agree (SetOpRel u) (SetOp.new a b kind) (SetOp.new a' b' kind) :=
  (bracketed_rel hu ha).bind fun _ _ hx => (bracketed_rel hu hb).bind fun _ _ hy =>
    ⟨hx.filled, hy.filled, rfl, ⟨kind, rfl⟩⟩

/-! ## WITH -/

omit hu in
theorem cteText_rel {name x x' : Text} (hn : name.all isPathChar = true) (hx : Named u x x') :
    Named u (cteText name x) (cteText name x') :=
  ((Named.path hn).append (Piece.fragment (by decide))).append hx

theorem withCte_rel {v v' : VirtualTable} (name : Text) (h : VirtualRel u v v') :
    Agree (WithBuilderRel u) (withCte name v) (withCte name v') :=
  Agree.guard fun hn => (bracketed_rel hu h).bind fun _ _ hx => (formatted_rel hu h).bind fun _ _ _ =>
    ⟨cteText_rel (path_of_ok hn) hx, rfl⟩

theorem with_rel {b b' : WithBuilder} {v v' : VirtualTable} (name : Text)
    (hb : WithBuilderRel u b b') (h : VirtualRel u v v') :
    Agree (WithBuilderRel u) (b.with name v).result (b'.with name v').result := by
  unfold WithBuilder.with
  cases hn : validateIdentifier name with
  | error e => exact Agree.error _
  | ok =>
    rw [Outcome.given_ok, Outcome.given_ok, hb.names]
    split
    · exact Agree.error _
    · refine given_rel (bracketed_rel hu h) fun x x' hx => given_rel (formatted_rel hu h)
        fun _ _ _ => ⟨?_, rfl⟩
      have hcomma : Piece mark u named ready ", ".toList ", ".toList := Piece.fragment (by decide)
      exact hb.ctes.append (hcomma.append (cteText_rel (path_of_ok hn) hx))

theorem main_rel {b b' : WithBuilder} {v v' : VirtualTable} (hb : WithBuilderRel u b b')
    (h : VirtualRel u v v') : Agree (WithRel u) (b.main v) (b'.main v') :=
  (virtual_text_rel hu h).bind fun _ _ hx => (formatted_rel hu h).bind fun _ _ _ => ⟨hb.ctes, hx⟩

end

end IronQuery
