import IronQuery.Proof.InsertWidth
import IronQuery.Proof.SelectRead

/-!
# INSERT, UPDATE and DELETE are read back

For each of the three: what a builder's texts spell (`InsertSpells` and its like), that a call of a
setter keeps it, and from the two that the text of a run is read as the statement that is meant.
-/

namespace IronQuery

open Pg

/-! ## The tables that statements change -/

/-- A name that no word of the statement behind it can be taken for. -/
def isTargetPath (name : Text) : Bool :=
  isPlainPath name && (dotParts name).all fun p => !endsTarget (.word p)

def TargetTree.Sound (t : TargetTree) : Prop :=
  isTargetPath t.name = true ∧ t.label.all isTargetPath = true

instance (t : TargetTree) : Decidable t.Sound := inferInstanceAs (Decidable (_ ∧ _))

theorem target_passes {name : Text} (h : isTargetPath name = true) :
    Passes endsTarget (nameTokens name) := by
  rw [isTargetPath, Bool.and_eq_true, List.all_eq_true] at h
  rw [nameTokens, pathTokens_dotted]
  refine passes_dotted (fun t ht => ?_) (by decide)
  obtain ⟨p, hp, rfl⟩ := List.mem_map.1 ht
  exact ⟨rfl, by simpa using h.2 p hp, (isBoundary_name (isPlainPath_part h.1 hp).2).2⟩

/-- The name of the table, and its alias, are read as the table that is meant. -/
theorem TargetTree.target {t : TargetTree} {tbl : Table} (ht : t.Sound) (h : t.build = .ok tbl) :
    Whole tbl.toString ∧ Target (readRef readTerm) (lex tbl.toString) t.ref := by
  obtain ⟨name, label⟩ := t
  obtain ⟨hn, hl⟩ := ht
  have hpath : isPlainPath name = true := by
    rw [isTargetPath, Bool.and_eq_true] at hn
    exact hn.1
  have hname := (name_reads hpath).reads
  cases label with
  | none =>
    cases h
    have hlex : lex name = nameTokens name := hname.lex_eq
    refine ⟨hname.whole, ?_⟩
    rw [Table.toString, Table.fromRaw, hlex]
    exact ⟨target_passes hn, readRef_spelt (.inl (.named (table_name hpath)))⟩
  | some al =>
    have hl : isTargetPath al = true := hl
    have hal : isPlainPath al = true := by
      rw [isTargetPath, Bool.and_eq_true] at hl
      exact hl.1
    have h : (VirtualTable.table (.fromRaw name)).as al = .ok tbl := h
    simp only [VirtualTable.as, bind_ok, pure_ok] at h
    obtain ⟨_, -, x, hx, rfl⟩ := h
    cases hx
    have hr : Reads lex (name ++ (" AS ".toList ++ al)) _ := hname.trails (alias_trails hal)
    rw [Table.toString, List.append_assoc]
    refine ⟨hr.whole, ?_⟩
    rw [Table.toString, Table.fromRaw, hr.lex_eq]
    refine ⟨(target_passes hn).append ((target_passes hl).cons (by decide) (by decide) (by decide)),
      readRef_spelt (.inl (.namedAs (table_name hpath) (alias_name hal)))⟩

/-! ## INSERT -/

/-- The terms of the call are read as what they mean. -/
def InsertStep.Sound : InsertStep → Prop
  | columns l | values l => ∀ t ∈ l, t.Sound
  | rows l => ∀ row ∈ l, ∀ t ∈ row, t.Sound
  | returning items => SoundList ItemTree.Sound items
  | onConflictDoNothing => True
  | onConflictDoNothingAt cols => SoundList Tree.Sound cols
  | onConflictDoUpdate cols assignments =>
    SoundList Tree.Sound cols ∧ ∀ p ∈ assignments, AssignmentSound p

instance (p : Tree × Tree) : Decidable (AssignmentSound p) :=
  decidable_of_iff (p.1.Sound ∧ p.2.Sound ∧ p.1.isColumn = true)
    ⟨fun h => ⟨h.1, h.2.1, h.2.2⟩, fun h => ⟨h.1, h.2, h.3⟩⟩

instance decidableInsertStepSound : (step : InsertStep) → Decidable step.Sound
  | .columns l | .values l => inferInstanceAs (Decidable (∀ t ∈ l, t.Sound))
  | .rows l => inferInstanceAs (Decidable (∀ row ∈ l, ∀ t ∈ row, t.Sound))
  | .returning items => inferInstanceAs (Decidable (SoundList ItemTree.Sound items))
  | .onConflictDoNothing => inferInstanceAs (Decidable True)
  | .onConflictDoNothingAt cols => inferInstanceAs (Decidable (SoundList Tree.Sound cols))
  | .onConflictDoUpdate cols assignments => inferInstanceAs (Decidable
      (SoundList Tree.Sound cols ∧ ∀ p ∈ assignments, AssignmentSound p))

/-- The conflict clause that a builder keeps, with its `ON`. -/
inductive KeptConflict : Text → Option (Conflict Sql) → Prop
  | unset : KeptConflict [] none
  | set {x : Text} {ts : List Token} {c : Conflict Sql} (hr : Reads lex x ts)
    (h : ConflictReads readTerm ts c) : KeptConflict ("ON ".toList ++ x) (some c)

/-- Every clause of the builder spells that of the statement. -/
structure InsertSpells (s : InsertInto) (q : InsertStmt Sql (TableRef Sql)) : Prop where
  whole : Whole s.into_
  into : Target (readRef readTerm) (lex s.into_) q.into
  columns : List.Forall₂ (Spells readTerm) s.columns_ q.columns
  rows : List.Forall₂ (List.Forall₂ (Spells readTerm)) s.rows_ q.rows
  conflict : KeptConflict s.onConflict_ q.conflict
  returning : Kept (Listing (readItem readTerm)) s.returning_ q.returning

theorem exprs_spell {l : List Tree} {es : List Expr} (h : buildAll Tree.build l = .ok es)
    (hs : ∀ t ∈ l, t.Sound) :
    List.Forall₂ (Spells readTerm) (es.map Expr.toString) (l.map Tree.toSql) :=
  List.forall₂_map_left_iff.2 (built_spells h hs fun _ _ ht he => ht.spells he)

theorem rows_spell {l : List (List Tree)} {rs : List (List Expr)}
    (h : buildAll (buildAll Tree.build) l = .ok rs) (hs : ∀ row ∈ l, ∀ t ∈ row, t.Sound) :
    List.Forall₂ (List.Forall₂ (Spells readTerm)) (rs.map fun row => row.map Expr.toString)
      (l.map (List.map Tree.toSql)) := by
  refine List.forall₂_map_left_iff.2 ?_
  have hall := buildAll_ok h
  clear h
  induction hall with
  | nil => exact .nil
  | cons hx _ ih =>
    exact .cons (exprs_spell hx (hs _ (.head _))) (ih fun row hrow => hs row (.tail _ hrow))

theorem renderBinary_eq (x y : Text) :
    renderBinary x "=".toList y = x ++ " = ".toList ++ y := by
  simp [renderBinary]

theorem assignmentCsv_eq (l : List (Expr × Expr)) : InsertInto.assignmentCsv l =
    joinCsv (l.map fun p => UpdateCall.assignment p.1 p.2) := by
  simp only [InsertInto.assignmentCsv, joinCsv, List.foldl_map, renderBinary_eq,
    UpdateCall.assignment]

theorem assignments_entries {l : List (Tree × Tree)} {as : List (Expr × Expr)}
    (h : buildAll buildAssignment l = .ok as) (hl : SoundList AssignmentSound l) :
    Entries (readAssignment readTerm) (fun p => UpdateCall.assignment p.1 p.2) as
      (l.map meantAssignment) := by
  refine built_entries h hl fun p q hp hq => ?_
  simp only [buildAssignment, bind_ok, pure_ok] at hq
  obtain ⟨c, hc, v, hv, rfl⟩ := hq
  exact hp.spells hc hv

/-- The target of a conflict in brackets, and the action behind it. -/
theorem conflict_target {x y : Text} {us : List Token} (hx : Whole x) (hy : Reads lex y us) :
    Reads lex ("CONFLICT (".toList ++ (x ++ (") ".toList ++ y)))
      (conflictWord :: (bracketed (lex x) ++ us)) := by
  have hclose : Opens lex ") ".toList [.punct ')'] := opens_const (by decide) (by decide)
  have hopen : Opens lex "CONFLICT (".toList [conflictWord, .punct '('] :=
    opens_const (by decide) (by decide)
  have := hopen.reads (hx.append (by rfl) (hclose.reads hy))
  simpa [bracketed] using this

/-- What the three conflict setters leave behind. -/
theorem conflict_kept {step : InsertStep} {c : InsertCall} (hs : step.Sound)
    (hc : step.call = .ok c) {s : InsertInto} (hbad : c.bad s = none)
    (hclause : c.clause = some .onConflict) (q : InsertStmt Sql (TableRef Sql)) :
    KeptConflict c.conflictText (step.meant q).conflict := by
  have hnothing : Reads lex "DO NOTHING".toList (doTokens "NOTHING".toList) :=
    reads_const (by decide) (by decide)
  have hset : Opens lex "DO UPDATE SET ".toList (doTokens "UPDATE".toList ++ [Key.set.token]) :=
    opens_const (by decide) (by decide)
  have hon : "ON CONFLICT (".toList = "ON ".toList ++ "CONFLICT (".toList := rfl
  cases step with
  | onConflictDoNothing =>
    cases hc
    have hr : Reads lex "CONFLICT DO NOTHING".toList (conflictWord :: doTokens "NOTHING".toList) :=
      reads_const (by decide) (by decide)
    exact .set hr .nothing
  | onConflictDoNothingAt cols =>
    simp only [InsertStep.call, bind_ok, pure_ok] at hc
    obtain ⟨es, hes, rfl⟩ := hc
    have hl := (exprs_entries hes hs).list
    have htext : InsertCall.conflictText (.onConflictDoNothingAt es) = "ON ".toList ++
        ("CONFLICT (".toList ++ (joinCsv (es.map Expr.toString) ++ (") ".toList ++
          "DO NOTHING".toList))) := by
      have hend : ") DO NOTHING".toList = ") ".toList ++ "DO NOTHING".toList := rfl
      unfold InsertCall.conflictText
      simp only [hon, hend, List.append_assoc]
    have hr := conflict_target hl.whole hnothing
    have hc := ConflictReads.nothingAt hl.listing
    rw [htext]
    exact .set hr hc
  | onConflictDoUpdate cols assignments =>
    simp only [InsertStep.call, bind_ok, pure_ok] at hc
    obtain ⟨es, hes, as, has, rfl⟩ := hc
    have hl := (exprs_entries hes hs.1).list
    have hne : assignments ≠ [] := by
      rintro rfl
      cases has
      cases hbad
    have hm := (assignments_entries has ⟨hne, hs.2⟩).list
    have htext : InsertCall.conflictText (.onConflictDoUpdate es as) = "ON ".toList ++
        ("CONFLICT (".toList ++ (joinCsv (es.map Expr.toString) ++ (") ".toList ++
          ("DO UPDATE SET ".toList ++
            joinCsv (as.map fun p => UpdateCall.assignment p.1 p.2))))) := by
      have hend : ") DO UPDATE SET ".toList = ") ".toList ++ "DO UPDATE SET ".toList := rfl
      unfold InsertCall.conflictText
      simp only [assignmentCsv_eq, hon, hend, List.append_assoc]
    have hr := conflict_target hl.whole (hset.reads hm.whole)
    have hc := ConflictReads.update hl.listing hm.listing
    rw [List.append_assoc] at hr
    rw [htext]
    exact .set hr hc
  | _ =>
    simp only [InsertStep.call, bind_ok, pure_ok] at hc
    obtain ⟨_, _, rfl⟩ := hc
    cases hclause

/-- **One call of a setter** does to the builder what it means for the statement; of the conflict
clauses the last one stays. -/
theorem insert_step_spells {step : InsertStep} {c : InsertCall} {s s' : InsertInto}
    {q : InsertStmt Sql (TableRef Sql)} (hs : step.Sound) (hc : step.call = .ok c)
    (ha : (c.apply s).result = .ok s') (h : InsertSpells s q) : InsertSpells s' (step.meant q) := by
  obtain ⟨hbad, -, rfl⟩ := insert_setter.put_of_accepted (accepted_of_result ha)
  have hconflict := conflict_kept hs hc hbad
  cases step with
  | columns cols =>
    simp only [InsertStep.call, bind_ok, pure_ok] at hc
    obtain ⟨es, hes, rfl⟩ := hc
    exact ⟨h.whole, h.into, exprs_spell hes hs, h.rows, h.conflict, h.returning⟩
  | values vals =>
    simp only [InsertStep.call, bind_ok, pure_ok] at hc
    obtain ⟨es, hes, rfl⟩ := hc
    exact ⟨h.whole, h.into, h.columns, .cons (exprs_spell hes hs) .nil, h.conflict, h.returning⟩
  | rows l =>
    simp only [InsertStep.call, bind_ok, pure_ok] at hc
    obtain ⟨rs, hrs, rfl⟩ := hc
    exact ⟨h.whole, h.into, h.columns, rows_spell hrs hs, h.conflict, h.returning⟩
  | returning items =>
    simp only [InsertStep.call, bind_ok, pure_ok] at hc
    obtain ⟨is, his, rfl⟩ := hc
    exact ⟨h.whole, h.into, h.columns, h.rows, h.conflict, (items_entries his hs).list.kept⟩
  | onConflictDoNothing =>
    cases hc
    exact ⟨h.whole, h.into, h.columns, h.rows, hconflict rfl q, h.returning⟩
  | onConflictDoNothingAt cols =>
    simp only [InsertStep.call, bind_ok, pure_ok] at hc
    obtain ⟨es, hes, rfl⟩ := hc
    exact ⟨h.whole, h.into, h.columns, h.rows, hconflict rfl q, h.returning⟩
  | onConflictDoUpdate cols assignments =>
    simp only [InsertStep.call, bind_ok, pure_ok] at hc
    obtain ⟨es, hes, as, has, rfl⟩ := hc
    exact ⟨h.whole, h.into, h.columns, h.rows, hconflict rfl q, h.returning⟩

theorem insert_spells {table : TargetTree} {steps : List InsertStep} {s : InsertInto}
    (htable : table.Sound) (hsteps : ∀ step ∈ steps, step.Sound)
    (h : buildInsert table steps = .ok s) : InsertSpells s (meantInsert table steps) := by
  simp only [buildInsert, bind_ok] at h
  obtain ⟨tbl, htbl, hrun⟩ := h
  obtain ⟨hw, ht⟩ := table.target htable htbl
  exact runSteps_inv (fun _ _ _ _ _ => insert_step_spells) hsteps hrun
    ⟨hw, ht, .nil, .nil, .unset, .unset⟩

/-! ### The text -/

section
variable {s : InsertInto} {q : InsertStmt Sql (TableRef Sql)}

theorem KeptConflict.trails {x : Text} {c : Option (Conflict Sql)} (h : KeptConflict x c) :
    ∃ ts, Trails (if x.isEmpty then [] else ' ' :: x) (clauseTokens [([.on], ts)]) ∧
      Option.Rel (ConflictReads readTerm) ts c := by
  cases h with
  | unset => exact ⟨none, .nil, .none⟩
  | set hr hc => exact ⟨some _, connector_on.clause (m := [.on]) hr, .some hc⟩

theorem row_spells {row : List Text} {as : List Sql} (h : Entries readTerm id row as) :
    Spells (readRow readTerm) (rowText row) as := by
  have hl := h.list
  rw [List.map_id] at hl
  exact .of hl.whole.paren.seals.reads (.of (by simp [Token.key]) _) hl.listing.row

theorem rowsText_eq (rows : List (List Text)) :
    InsertInto.rowsText rows = joinCsv (rows.map rowText) := by
  cases rows with
  | nil => rfl
  | cons row rows =>
    have hfilled := joinCsv_filled (List.cons_ne_nil '(' (joinCsv row ++ [')'])) (rows.map rowText)
    have hsep := intercalate_cons ", ".toList rowText row rows
    rw [List.map_cons]
    exact (hfilled.trans hsep).symm

theorem insert_pieces {x : Text} (hx : s.toString = .ok x) :
    x = "INSERT INTO ".toList ++ (s.into_ ++ ((" (".toList ++ joinCsv s.columns_) ++
      ((") VALUES ".toList ++ InsertInto.rowsText s.rows_) ++
        (InsertClause.onConflict.text s ++ InsertClause.returning.text s)))) := by
  rw [insert_toString hx]
  simp only [List.flatMap_cons, List.flatMap_nil, List.append_nil, List.append_assoc]
  rfl

/-- The rows of a builder that renders: each has as many values as there are columns. -/
theorem InsertSpells.rowEntries (h : InsertSpells s q) {x : Text} (hx : s.toString = .ok x) :
    Entries (readRow readTerm) rowText s.rows_ q.rows := by
  obtain ⟨hcols, hrows, harity⟩ := insert_ok hx
  have hlength := sameArity_ok harity hcols
  have hne : ∀ row ∈ s.rows_, row ≠ [] := by
    rintro row hrow rfl
    exact hcols (List.length_eq_zero_iff.1 (hlength [] hrow).symm)
  refine ⟨hrows, ?_⟩
  have hall := h.rows
  clear hrows harity hlength hx
  generalize s.rows_ = rows, q.rows = qs at hall hne
  induction hall with
  | nil => exact .nil
  | cons hrow _ ih =>
    exact .cons (row_spells ⟨hne _ (.head _), hrow⟩) (ih fun row hr => hne row (.tail _ hr))

/-- **The text of an INSERT is read as the clauses of the statement.** -/
theorem InsertSpells.reads (h : InsertSpells s q) {x : Text} (hx : s.toString = .ok x) :
    ∃ S : InsertTokens, S.Reads readTerm (readRef readTerm) q ∧
      Reads lex x (clauseTokens S.clauses) := by
  have hcolumns : Entries readTerm id s.columns_ q.columns := ⟨(insert_ok hx).1, h.columns⟩
  have hlist := hcolumns.list
  rw [List.map_id] at hlist
  have hrows := (h.rowEntries hx).list
  rw [← rowsText_eq] at hrows
  obtain ⟨cc, hct, hcr⟩ := h.conflict.trails
  have hinsert : Opens lex "INSERT INTO ".toList [Key.insert.token, Key.into.token] :=
    opens_const (by decide) (by decide)
  have hopen : Connector " (".toList [.punct '('] :=
    connector_const (fun _ => rfl) (by decide) (by decide)
  have hvalues : Connector ") VALUES ".toList [.punct ')', Key.values.token] :=
    connector_const (fun _ => rfl) (by decide) (by decide)
  have hreturning : Connector " RETURNING ".toList ([Key.returning].map Key.token) :=
    connector_const (fun _ => rfl) (by decide) (by decide)
  refine ⟨⟨lex s.into_, lex (joinCsv s.columns_), lex (InsertInto.rowsText s.rows_), cc,
    keptTokens s.returning_⟩,
    ⟨h.into, hlist.listing, hrows.listing, hcr, h.returning.rel⟩, ?_⟩
  have htail : Trails (InsertClause.onConflict.text s ++ InsertClause.returning.text s)
      (clauseTokens [([.on], cc)] ++ clauseTokens [([.returning], keptTokens s.returning_)]) :=
    hct.append (hreturning.kept h.returning.whole)
  have hbody := hinsert.reads (h.whole.trails ((hopen.trails hlist.whole).append
    ((hvalues.trails hrows.whole).append htail)))
  rw [insert_pieces hx]
  simpa only [clauseTokens, InsertTokens.clauses, bracketed, List.flatMap_cons, List.flatMap_nil,
    List.append_nil, List.append_assoc, List.cons_append, List.nil_append, Option.elim_some,
    List.map_cons, List.map_nil] using hbody

/-- **A rendered INSERT is read back as the statement that was built**, its rows as rows, with the
conflict clause that was set last. -/
theorem insert_read_back (table : TargetTree) (steps : List InsertStep) (s : InsertInto) (x : Text)
    (htable : table.Sound) (hsteps : ∀ step ∈ steps, step.Sound)
    (h : buildInsert table steps = .ok s) (hx : s.toString = .ok x) :
    readInsert readTerm (readRef readTerm) (lex x) = some (meantInsert table steps) := by
  obtain ⟨S, hS, hr⟩ := (insert_spells htable hsteps h).reads hx
  rw [hr.lex_eq]
  exact readInsert_tokens hS

end

/-- `INSERT INTO t AS u (a, b) VALUES (1, $1), (-2, 'VALUES') ON CONFLICT (a) DO UPDATE SET
b = a + 1 RETURNING a AS x`. -/
theorem insert_read_back_conflict :
    let table : TargetTree := ⟨"t".toList, some "u".toList⟩
    let steps : List InsertStep := [.returning [⟨.column "a".toList, some "x".toList⟩],
      .columns [.column "a".toList, .column "b".toList],
      .onConflictDoUpdate [.column "a".toList]
        [(.column "b".toList, .bin .add (.column "a".toList) (.int 1))],
      .rows [[.int 1, .placeholder 0], [.negative 1, .literal "VALUES".toList]]]
    ∃ s x, buildInsert table steps = .ok s ∧ s.toString = .ok x ∧
      x = ("INSERT INTO t AS u (a, b) VALUES (1, $1), (-2, 'VALUES') " ++
        "ON CONFLICT (a) DO UPDATE SET b = a + 1 RETURNING a AS x").toList ∧
      readInsert readTerm (readRef readTerm) (lex x) = some (meantInsert table steps) :=
  ⟨_, _, rfl, rfl, by decide, insert_read_back _ _ _ _ (by decide) (by decide) rfl rfl⟩

/-! ## UPDATE and DELETE -/

/-- A table that a clause keeps as the text of a FROM item. -/
theorem tables_kept {t : TableTree} {v : VirtualTable} (ht : t.Sound) (h : t.build = .ok v)
    (hv : v.fromError = none) : Kept (Tables (readRef readTerm)) v.fromText (some t.ref) := by
  unfold VirtualTable.fromError at hv
  split at hv
  · rename_i x hx
    obtain ⟨ts, hr, htables⟩ := t.tables ht h hx
    obtain rfl := hr.lex_eq
    have htext : v.fromText = x := by rw [VirtualTable.fromText, hx]
    rw [htext]
    refine .set ?_ hr htables
    rintro rfl
    have hread := htables.read
    rw [lex_nil] at hread
    cases hread
  · cases hv

/-- The terms and tables of the call are read as what they mean. -/
def UpdateStep.Sound : UpdateStep → Prop
  | set column value => AssignmentSound (column, value)
  | .from tbl => tbl.Sound
  | .where exp => exp.Sound
  | returning items => SoundList ItemTree.Sound items

def DeleteStep.Sound : DeleteStep → Prop
  | .using tbl => tbl.Sound
  | .where exp => exp.Sound
  | returning items => SoundList ItemTree.Sound items

instance decidableUpdateStepSound : (step : UpdateStep) → Decidable step.Sound
  | .set column value => inferInstanceAs (Decidable (AssignmentSound (column, value)))
  | .from tbl => inferInstanceAs (Decidable tbl.Sound)
  | .where exp => inferInstanceAs (Decidable exp.Sound)
  | .returning items => inferInstanceAs (Decidable (SoundList ItemTree.Sound items))

instance decidableDeleteStepSound : (step : DeleteStep) → Decidable step.Sound
  | .using tbl => inferInstanceAs (Decidable tbl.Sound)
  | .where exp => inferInstanceAs (Decidable exp.Sound)
  | .returning items => inferInstanceAs (Decidable (SoundList ItemTree.Sound items))

/-- Every clause of the builder spells that of the statement. -/
structure UpdateSpells (s : Update) (q : UpdateStmt Sql (TableRef Sql)) : Prop where
  whole : Whole s.table_
  table : Target (readRef readTerm) (lex s.table_) q.table
  assignments : ∃ xs, s.set_ = joinCsv xs ∧
    List.Forall₂ (Spells (readAssignment readTerm)) xs q.assignments
  source : Kept (Tables (readRef readTerm)) s.from_ q.source
  condition : Kept (Entry readTerm) s.where_ q.condition
  returning : Kept (Listing (readItem readTerm)) s.returning_ q.returning

structure DeleteSpells (s : DeleteFrom) (q : DeleteStmt Sql (TableRef Sql)) : Prop where
  whole : Whole s.from_
  table : Target (readRef readTerm) (lex s.from_) q.table
  source : Kept (Tables (readRef readTerm)) s.using_ q.source
  condition : Kept (Entry readTerm) s.where_ q.condition
  returning : Kept (Listing (readItem readTerm)) s.returning_ q.returning

/-- `Set` puts its assignment behind the others. -/
theorem put_set {s : Update} {xs : List Text} (column value : Expr) (h : s.set_ = joinCsv xs) :
    (UpdateCall.put (.set column value) s).set_ =
      joinCsv (xs ++ [UpdateCall.assignment column value]) := by
  rw [joinCsv_concat, ← h, UpdateCall.put]
  cases s.set_ <;> rfl

/-- **One call of a setter** does to the builder what it means for the statement; a `Set` adds its
assignment to those before it. -/
theorem update_step_spells {step : UpdateStep} {c : UpdateCall} {s s' : Update}
    {q : UpdateStmt Sql (TableRef Sql)} (hs : step.Sound) (hc : step.call = .ok c)
    (ha : (c.apply s).result = .ok s') (h : UpdateSpells s q) : UpdateSpells s' (step.meant q) := by
  obtain ⟨hbad, -, rfl⟩ := update_setter.put_of_accepted (accepted_of_result ha)
  cases step with
  | set column value =>
    simp only [UpdateStep.call, buildAssignment, bind_ok, pure_ok] at hc
    obtain ⟨_, ⟨c, hcol, v, hval, rfl⟩, rfl⟩ := hc
    have hs : AssignmentSound (column, value) := hs
    obtain ⟨xs, hset, hxs⟩ := h.assignments
    have hlast := hs.spells hcol hval
    refine ⟨h.whole, h.table, ⟨_, put_set c v hset, ?_⟩, h.source, h.condition, h.returning⟩
    exact List.rel_append hxs (.cons hlast .nil)
  | «from» tbl =>
    simp only [UpdateStep.call, bind_ok, pure_ok] at hc
    obtain ⟨v, hv, rfl⟩ := hc
    exact ⟨h.whole, h.table, h.assignments, tables_kept hs hv hbad, h.condition, h.returning⟩
  | «where» exp =>
    simp only [UpdateStep.call, bind_ok, pure_ok] at hc
    obtain ⟨b, hb, rfl⟩ := hc
    exact ⟨h.whole, h.table, h.assignments, h.source, (condition_spells hb hs).kept, h.returning⟩
  | returning items =>
    simp only [UpdateStep.call, bind_ok, pure_ok] at hc
    obtain ⟨is, his, rfl⟩ := hc
    exact ⟨h.whole, h.table, h.assignments, h.source, h.condition,
      (items_entries his hs).list.kept⟩

theorem delete_step_spells {step : DeleteStep} {c : DeleteCall} {s s' : DeleteFrom}
    {q : DeleteStmt Sql (TableRef Sql)} (hs : step.Sound) (hc : step.call = .ok c)
    (ha : (c.apply s).result = .ok s') (h : DeleteSpells s q) : DeleteSpells s' (step.meant q) := by
  obtain ⟨hbad, -, rfl⟩ := delete_setter.put_of_accepted (accepted_of_result ha)
  cases step with
  | «using» tbl =>
    simp only [DeleteStep.call, bind_ok, pure_ok] at hc
    obtain ⟨v, hv, rfl⟩ := hc
    exact ⟨h.whole, h.table, tables_kept hs hv hbad, h.condition, h.returning⟩
  | «where» exp =>
    simp only [DeleteStep.call, bind_ok, pure_ok] at hc
    obtain ⟨b, hb, rfl⟩ := hc
    exact ⟨h.whole, h.table, h.source, (condition_spells hb hs).kept, h.returning⟩
  | returning items =>
    simp only [DeleteStep.call, bind_ok, pure_ok] at hc
    obtain ⟨is, his, rfl⟩ := hc
    exact ⟨h.whole, h.table, h.source, h.condition, (items_entries his hs).list.kept⟩

theorem update_spells {table : TargetTree} {steps : List UpdateStep} {s : Update}
    (htable : table.Sound) (hsteps : ∀ step ∈ steps, step.Sound)
    (h : buildUpdate table steps = .ok s) : UpdateSpells s (meantUpdate table steps) := by
  simp only [buildUpdate, bind_ok] at h
  obtain ⟨tbl, htbl, hrun⟩ := h
  obtain ⟨hw, ht⟩ := table.target htable htbl
  exact runSteps_inv (fun _ _ _ _ _ => update_step_spells) hsteps hrun
    ⟨hw, ht, ⟨[], rfl, .nil⟩, .unset, .unset, .unset⟩

theorem delete_spells {table : TargetTree} {steps : List DeleteStep} {s : DeleteFrom}
    (htable : table.Sound) (hsteps : ∀ step ∈ steps, step.Sound)
    (h : buildDelete table steps = .ok s) : DeleteSpells s (meantDelete table steps) := by
  simp only [buildDelete, bind_ok] at h
  obtain ⟨tbl, htbl, hrun⟩ := h
  obtain ⟨hw, ht⟩ := table.target htable htbl
  exact runSteps_inv (fun _ _ _ _ _ => delete_step_spells) hsteps hrun
    ⟨hw, ht, .unset, .unset, .unset⟩

/-! ### The texts -/

theorem connector_where : Connector " WHERE ".toList ([Key.where].map Key.token) :=
  connector_const (fun _ => rfl) (by decide) (by decide)

theorem connector_returning : Connector " RETURNING ".toList ([Key.returning].map Key.token) :=
  connector_const (fun _ => rfl) (by decide) (by decide)

theorem set_ne_nil {s : Update} {x : Text} (hx : s.toString = .ok x) : s.set_ ≠ [] := by
  unfold Update.toString at hx
  split at hx
  · cases hx
  · rename_i hne
    simpa using hne

/-- **The text of an UPDATE is read as the clauses of the statement.** -/
theorem UpdateSpells.reads {s : Update} {q : UpdateStmt Sql (TableRef Sql)} (h : UpdateSpells s q)
    {x : Text} (hx : s.toString = .ok x) :
    ∃ S : UpdateTokens, S.Reads readTerm (readRef readTerm) q ∧
      Reads lex x (clauseTokens S.clauses) := by
  obtain ⟨xs, hset, hxs⟩ := h.assignments
  have hentries : Entries (readAssignment readTerm) id xs q.assignments := by
    refine ⟨?_, hxs⟩
    rintro rfl
    exact set_ne_nil hx hset
  have hlist := hentries.list
  rw [List.map_id, ← hset] at hlist
  have hupdate : Opens lex "UPDATE ".toList [Key.update.token] :=
    opens_const (by decide) (by decide)
  have hsetWord : Connector " SET ".toList ([Key.set].map Key.token) :=
    connector_const (fun _ => rfl) (by decide) (by decide)
  have hfrom : Connector " FROM ".toList ([Key.from].map Key.token) :=
    connector_const (fun _ => rfl) (by decide) (by decide)
  refine ⟨⟨lex s.table_, lex s.set_, keptTokens s.from_, keptTokens s.where_,
    keptTokens s.returning_⟩,
    ⟨h.table, hlist.listing, h.source.rel, h.condition.rel, h.returning.rel⟩, ?_⟩
  have hnil : Trails [] (clauseTokens []) := .nil
  have htail := (hfrom.kept h.source.whole).clauses ((connector_where.kept
    h.condition.whole).clauses ((connector_returning.kept h.returning.whole).clauses hnil))
  have hbody := hupdate.reads (h.whole.trails ((hsetWord.clause hlist.whole).clauses htail))
  rw [update_toString hx]
  simp only [List.append_assoc]
  exact hbody

/-- **The text of a DELETE is read as the clauses of the statement.** -/
theorem DeleteSpells.reads {s : DeleteFrom} {q : DeleteStmt Sql (TableRef Sql)}
    (h : DeleteSpells s q) {x : Text} (hx : s.toString = .ok x) :
    ∃ S : DeleteTokens, S.Reads readTerm (readRef readTerm) q ∧
      Reads lex x (clauseTokens S.clauses) := by
  have hdelete : Opens lex "DELETE FROM ".toList [Key.delete.token, Key.from.token] :=
    opens_const (by decide) (by decide)
  have husing : Connector " USING ".toList ([Key.using].map Key.token) :=
    connector_const (fun _ => rfl) (by decide) (by decide)
  refine ⟨⟨lex s.from_, keptTokens s.using_, keptTokens s.where_, keptTokens s.returning_⟩,
    ⟨h.table, h.source.rel, h.condition.rel, h.returning.rel⟩, ?_⟩
  have hnil : Trails [] (clauseTokens []) := .nil
  have htail := (husing.kept h.source.whole).clauses ((connector_where.kept
    h.condition.whole).clauses ((connector_returning.kept h.returning.whole).clauses hnil))
  have hbody := hdelete.reads (h.whole.trails htail)
  rw [delete_toString hx]
  simp only [List.append_assoc]
  exact hbody

/-- **A rendered UPDATE is read back as the statement that was built**: all assignments of its `Set`
calls in call order, and the other clauses as they were set. -/
theorem update_read_back (table : TargetTree) (steps : List UpdateStep) (s : Update) (x : Text)
    (htable : table.Sound) (hsteps : ∀ step ∈ steps, step.Sound)
    (h : buildUpdate table steps = .ok s) (hx : s.toString = .ok x) :
    readUpdate readTerm (readRef readTerm) (lex x) = some (meantUpdate table steps) := by
  obtain ⟨S, hS, hr⟩ := (update_spells htable hsteps h).reads hx
  rw [hr.lex_eq]
  exact readUpdate_tokens hS

/-- `UPDATE t SET a = b = c, d = NULL FROM u INNER JOIN v ON x WHERE e`. -/
theorem update_read_back_join :
    let table : TargetTree := ⟨"t".toList, none⟩
    let steps : List UpdateStep := [
      .set (.column "a".toList) (.compare .eq (.column "b".toList) (.column "c".toList)),
      .from (.join (.named "u".toList none) (.named "v".toList none) .Inner
        [.on (.column "x".toList)]),
      .where (.column "e".toList),
      .set (.column "d".toList) .null]
    ∃ s x, buildUpdate table steps = .ok s ∧ s.toString = .ok x ∧
      x = "UPDATE t SET a = b = c, d = NULL FROM u INNER JOIN v ON x WHERE e".toList ∧
      readUpdate readTerm (readRef readTerm) (lex x) = some (meantUpdate table steps) :=
  ⟨_, _, rfl, rfl, by decide, update_read_back _ _ _ _ (by decide) (by decide) rfl rfl⟩

/-- **A rendered DELETE is read back as the statement that was built.** -/
theorem delete_read_back (table : TargetTree) (steps : List DeleteStep) (s : DeleteFrom) (x : Text)
    (htable : table.Sound) (hsteps : ∀ step ∈ steps, step.Sound)
    (h : buildDelete table steps = .ok s) (hx : s.toString = .ok x) :
    readDelete readTerm (readRef readTerm) (lex x) = some (meantDelete table steps) := by
  obtain ⟨S, hS, hr⟩ := (delete_spells htable hsteps h).reads hx
  rw [hr.lex_eq]
  exact readDelete_tokens hS

/-- `DELETE FROM t AS u USING v INNER JOIN w USING (x) WHERE y IS NOT NULL RETURNING z`. -/
theorem delete_read_back_using :
    let table : TargetTree := ⟨"t".toList, some "u".toList⟩
    let steps : List DeleteStep := [
      .using (.join (.named "v".toList none) (.named "w".toList none) .Inner
        [.using [.column "x".toList]]),
      .returning [⟨.column "z".toList, none⟩],
      .where (.is .isNotNull (.column "y".toList))]
    ∃ s x, buildDelete table steps = .ok s ∧ s.toString = .ok x ∧
      x = ("DELETE FROM t AS u USING v INNER JOIN w USING (x) WHERE y IS NOT NULL " ++
        "RETURNING z").toList ∧
      readDelete readTerm (readRef readTerm) (lex x) = some (meantDelete table steps) :=
  ⟨_, _, rfl, rfl, by decide, delete_read_back _ _ _ _ (by decide) (by decide) rfl rfl⟩

end IronQuery
