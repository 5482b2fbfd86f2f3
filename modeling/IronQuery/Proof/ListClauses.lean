import IronQuery.Program
import IronQuery.Proof.ClauseOrder
import IronQuery.Proof.Text

/-!
# The lists of a statement

`lists_shown`: in the text of a statement every list that a call of the run asked for stands behind
its key word with at least one term, if the lists that the setters were given have a term that leaves
text (`filled`). `Columns`, `Values`, `Rows` and `Using` reject a list without terms, as the
expressions do (`IN`, `COALESCE` and the like); `DistinctOn`, `GroupBy`, `OrderBy` and the targets of
`ON CONFLICT` write it out, and `Returning` drops it. A term without text is none of the list's.
-/

namespace IronQuery

open SelectExpr (clause)

/-- Some term of the list is not empty. -/
def hasTerm (terms : List Text) : Bool := terms.any fun t => !t.isEmpty

/-- The terms between commas, and at least one that is not empty, behind what opens the list and
before what closes it. -/
structure Listed (terms : List Text) (opening closing x : Text) : Prop where
  nonempty : ∃ t ∈ terms, t ≠ []
  text : x = opening ++ joinCsv terms ++ closing

theorem hasTerm_iff (terms : List Text) : hasTerm terms = true ↔ ∃ t ∈ terms, t ≠ [] := by
  simp [hasTerm]

/-- The text of a list is empty if its terms are. -/
theorem joinCsv_isEmpty (terms : List Text) : (joinCsv terms).isEmpty = !hasTerm terms := by
  induction terms using List.reverseRecOn with
  | nil => rfl
  | append_singleton l x ih =>
    have hlast : hasTerm (l ++ [x]) = (hasTerm l || !x.isEmpty) := by simp [hasTerm]
    rw [joinCsv_concat, hlast]
    by_cases h : joinCsv l = []
    · rw [h, List.isEmpty_nil, eq_comm, Bool.not_eq_true'] at ih
      rw [if_pos h, ih, Bool.false_or, Bool.not_not]
    · rw [List.isEmpty_eq_false_iff.2 h, eq_comm, Bool.not_eq_false'] at ih
      rw [if_neg h, ih]
      simp

section
variable {terms : List Text} {opening closing : Text}

theorem listed (h : hasTerm terms = true) (opening closing : Text) :
    Listed terms opening closing (opening ++ joinCsv terms ++ closing) :=
  ⟨(hasTerm_iff terms).1 h, rfl⟩

theorem listed_end (h : hasTerm terms = true) (opening : Text) :
    Listed terms opening [] (opening ++ joinCsv terms) :=
  ⟨(hasTerm_iff terms).1 h, (List.append_nil _).symm⟩

theorem not_listed_nil (h : opening ≠ []) : ¬ Listed terms opening closing [] := fun hl => by
  have := hl.text
  simp [h] at this

end

/-! ## Clauses that hold the text of their list -/

section
variable {σ κ : Type} {apply : κ → σ → Outcome σ} {put : κ → σ → σ}
  {bad : κ → σ → Option Exception} {blocked : κ → σ → Bool} {check : κ → σ → Option Exception}

/-- The terms a call gives for a clause that holds the text of its list: the call writes that text
and is blocked by any other, and the rest of the calls leave the clause alone. -/
structure ListClause (put : κ → σ → σ) (blocked : κ → σ → Bool) (terms : κ → Option (List Text))
    (field : σ → Text) : Prop where
  writes : ∀ c s l, terms c = some l → field (put c s) = joinCsv l
  blocks : ∀ c s l, terms c = some l → blocked c s = isSet (field s)
  keeps : ∀ c s, terms c = none → field (put c s) = field s

/-- **Such a clause holds the list of the call that asked for it**, at the end of every run. -/
theorem ListClause.shown {terms : κ → Option (List Text)} {field : σ → Text} {ok : σ → κ → Prop}
    (hl : ListClause put blocked terms field) (h : Setter apply put bad blocked check)
    (hok : ∀ s c l, ok s c → bad c s = none → terms c = some l → hasTerm l = true)
    {calls : List κ} {s₀ s : σ} (hm : Meets apply ok calls s₀)
    (hrun : chain apply calls s₀ = some s) :
    ∀ c ∈ calls, ∀ l, terms c = some l → field s = joinCsv l ∧ hasTerm l = true := by
  refine chain_all (P := fun c s => ∀ l, terms c = some l → field s = joinCsv l ∧ hasTerm l = true)
    apply (fun c s s' hf ha l hc => ?_) (fun c d s s' _ ha hkept l hc => ?_) hm hrun
  · obtain ⟨hbad, -, rfl⟩ := h.put_of_accepted ha
    exact ⟨hl.writes c s l hc, hok s c l hf hbad hc⟩
  · obtain ⟨-, hfree, rfl⟩ := h.put_of_accepted ha
    obtain ⟨ht, hterm⟩ := hkept l hc
    cases hd : terms d with
    | none => exact ⟨(hl.keeps d s hd).trans ht, hterm⟩
    | some l' =>
      -- the second call would have been blocked by the text of the first
      have hempty := joinCsv_isEmpty l
      rw [hl.blocks d s l' hd] at hfree
      rw [← ht, hterm, show (field s).isEmpty = true by simpa [isSet] using hfree] at hempty
      cases hempty

end

/-- `RETURNING`, written only with a text. -/
def returningText (x : Text) : Text := if x.isEmpty then [] else " RETURNING ".toList ++ x

theorem returning_listed {l : List Text} {x : Text} (h : x = joinCsv l ∧ hasTerm l = true) :
    Listed l " RETURNING ".toList [] (returningText x) := by
  rw [h.1, returningText, joinCsv_isEmpty, h.2]
  exact listed_end h.2 " RETURNING ".toList

theorem clause_free {α : Type} {f : α → Text} {o : Option α} (h : isSet o = false) :
    clause f o = [] := by
  cases o with
  | none => rfl
  | some x => cases h

/-! ## SELECT -/

namespace SelectCall

/-- The list of the call has a term. -/
def filled : SelectCall → Bool
  | distinctOn l | groupBy l => hasTerm (l.map Expr.toString)
  | orderBy l => hasTerm (l.map OrderByTerm.render)
  | _ => true

/-- The list that the call asked for, in the clauses of the text. -/
def Shown (c : SelectCall) (seg : SelectClause → Text) : Prop :=
  match c with
  | distinctOn l =>
    Listed (l.map Expr.toString) "DISTINCT ON (".toList ") ".toList (seg .distinctOn)
  | groupBy l => Listed (l.map Expr.toString) " GROUP BY ".toList [] (seg .groupBy)
  | orderBy l => Listed (l.map OrderByTerm.render) " ORDER BY ".toList [] (seg .orderBy)
  | _ => True

end SelectCall

theorem select_set {c : SelectCall} {s s' : SelectExpr} (h : c.filled = true)
    (ha : (c.apply s).accepted = some s') : c.Shown (SelectClause.text · s') := by
  obtain ⟨-, -, rfl⟩ := select_setter.put_of_accepted ha
  cases c with
  | distinctOn l => exact listed h "DISTINCT ON (".toList ") ".toList
  | groupBy l => exact listed_end h " GROUP BY ".toList
  | orderBy l => exact listed_end h " ORDER BY ".toList
  | _ => trivial

/-- A clause that is not set has no text. -/
theorem SelectClause.text_free {k : SelectClause} {s : SelectExpr} (h : k.isSet s = false) :
    k.text s = [] := by
  cases k
  case distinct => exact if_neg (Bool.eq_false_iff.1 h)
  all_goals exact clause_free h

/-- A list that is shown was set, and is not set again. -/
theorem select_kept {c d : SelectCall} {s s' : SelectExpr} (ha : (d.apply s).accepted = some s')
    (h : c.Shown (SelectClause.text · s)) : c.Shown (SelectClause.text · s') := by
  obtain ⟨-, hb, rfl⟩ := select_setter.put_of_accepted ha
  have key {k : SelectClause} {terms : List Text} {opening closing : Text} (hk : k ≠ .distinct)
      (ho : opening ≠ []) (hl : Listed terms opening closing (k.text s)) :
      Listed terms opening closing (k.text (d.put s)) := by
    by_cases he : d.clause = some k
    · have hv : d.valueClause = some k := by
        cases d
        case distinct => exact absurd (Option.some.inj he).symm hk
        all_goals exact he
      rw [SelectCall.blocked, hv] at hb
      rw [SelectClause.text_free hb] at hl
      exact absurd hl (not_listed_nil ho)
    · have hput : k.text (d.put s) = k.text s := by
        cases d <;> cases k <;> first | rfl | exact absurd rfl he
      rwa [hput]
  cases c
  case distinctOn | groupBy | orderBy => exact key (by decide) (by decide) h
  all_goals trivial

theorem select_shown {calls : List SelectCall} {s₀ s : SelectExpr}
    (hok : Meets SelectCall.apply (fun _ c => c.filled = true) calls s₀)
    (hrun : chain SelectCall.apply calls s₀ = some s) :
    ∀ c ∈ calls, c.Shown (SelectClause.text · s) :=
  chain_all (P := fun c s => c.Shown (SelectClause.text · s)) SelectCall.apply
    (fun _ _ _ => select_set) (fun _ _ _ _ _ => select_kept) hok hrun

/-! ## INSERT -/

namespace InsertCall

/-- The lists of the call have a term, or, where `ToString` checks that, no element at all, and an
`ON CONFLICT` takes the place of no other. -/
def filled (s : InsertInto) : InsertCall → Bool
  | columns l | values l => l.isEmpty || hasTerm (l.map Expr.toString)
  | rows l => l.all fun row => row.isEmpty || hasTerm (row.map Expr.toString)
  | returning items => hasTerm (items.map SelectItem.toString)
  | onConflictDoNothingAt cols | onConflictDoUpdate cols _ =>
    hasTerm (cols.map Expr.toString) && s.onConflict_.isEmpty
  | onConflictDoNothing => s.onConflict_.isEmpty

/-- The list that the call asked for. A list of columns or rows may be the one of a later call: an
empty one leaves the clause unset. -/
def Shown (c : InsertCall) (s : InsertInto) : Prop :=
  match c with
  | columns _ => Listed s.columns_ [] [] (InsertClause.columns.text s)
  | values _ | rows _ => s.rows_ ≠ [] ∧ ∀ row ∈ s.rows_, ∃ x ∈ row, x ≠ []
  | returning l =>
    Listed (l.map SelectItem.toString) " RETURNING ".toList [] (InsertClause.returning.text s)
  | onConflictDoNothing => True
  | onConflictDoNothingAt l =>
    Listed (l.map Expr.toString) " ON CONFLICT (".toList ") DO NOTHING".toList
      (InsertClause.onConflict.text s)
  | onConflictDoUpdate l assignments => assignments ≠ [] ∧
    Listed (l.map Expr.toString) " ON CONFLICT (".toList
      (") DO UPDATE SET ".toList ++ InsertInto.assignmentCsv assignments)
      (InsertClause.onConflict.text s)

/-- What the call leaves of its list for `ToString` to check. -/
def Left (c : InsertCall) (s : InsertInto) : Prop :=
  match c with
  | columns _ => s.columns_ = [] ∨ hasTerm s.columns_ = true
  | values _ | rows _ => ∀ row ∈ s.rows_, row = [] ∨ hasTerm row = true
  | returning _ => True
  | c => c.Shown s

/-- The terms of a `RETURNING`. -/
def returned : InsertCall → Option (List Text)
  | returning items => some (items.map SelectItem.toString)
  | _ => none

end InsertCall

theorem insert_returning :
    ListClause InsertCall.put InsertCall.blocked InsertCall.returned InsertInto.returning_ where
  writes c s l hc := by cases c <;> cases hc; rfl
  blocks c s l hc := by cases c <;> cases hc; rfl
  keeps c s hc := by cases c <;> first | rfl | cases hc

theorem left_map {f : Expr → Text} {l : List Expr}
    (h : (l.isEmpty || hasTerm (l.map f)) = true) : l.map f = [] ∨ hasTerm (l.map f) = true := by
  rw [Bool.or_eq_true] at h
  exact h.imp_left fun he => by rw [List.isEmpty_iff.1 he, List.map_nil]

/-- The rows that a call gives. -/
theorem left_rows {c : InsertCall} {s : InsertInto} (h : c.filled s = true) :
    ∀ row ∈ c.rowsText, row = [] ∨ hasTerm row = true := by
  intro row hrow
  cases c with
  | values l =>
    obtain rfl := List.mem_singleton.1 hrow
    exact left_map h
  | rows l =>
    obtain ⟨r, hr, rfl⟩ := List.mem_map.1 hrow
    exact left_map (List.all_eq_true.1 h r hr)
  | _ => cases hrow

theorem insert_set {c : InsertCall} {s s' : InsertInto} (h : c.filled s = true)
    (ha : (c.apply s).accepted = some s') : c.Left s' := by
  obtain ⟨hbad, -, rfl⟩ := insert_setter.put_of_accepted ha
  cases c with
  | columns cols => exact left_map h
  | values vals | rows vals => exact left_rows h
  | returning items | onConflictDoNothing => trivial
  | onConflictDoNothingAt cols =>
    exact listed (Bool.and_eq_true_iff.1 h).1 " ON CONFLICT (".toList ") DO NOTHING".toList
  | onConflictDoUpdate cols assignments =>
    have hne : assignments ≠ [] := by rintro rfl; cases hbad
    refine ⟨hne, ?_⟩
    have := listed (Bool.and_eq_true_iff.1 h).1 " ON CONFLICT (".toList
      (") DO UPDATE SET ".toList ++ InsertInto.assignmentCsv assignments)
    rwa [← List.append_assoc] at this

theorem insert_kept {c d : InsertCall} {s s' : InsertInto} (hok : d.filled s = true)
    (ha : (d.apply s).accepted = some s') (h : c.Left s) : c.Left s' := by
  obtain ⟨-, -, rfl⟩ := insert_setter.put_of_accepted ha
  have conflict {terms : List Text} {closing : Text}
      (hl : Listed terms " ON CONFLICT (".toList closing (InsertClause.onConflict.text s)) :
      Listed terms " ON CONFLICT (".toList closing (InsertClause.onConflict.text (d.put s)) := by
    by_cases he : d.clause = some .onConflict
    · -- no `ON CONFLICT` is written over another
      have hset : s.onConflict_.isEmpty = true := by
        cases d
        case onConflictDoNothing => exact hok
        case onConflictDoNothingAt | onConflictDoUpdate => exact (Bool.and_eq_true_iff.1 hok).2
        all_goals cases he
      rw [show InsertClause.onConflict.text s = [] from if_pos hset] at hl
      exact absurd hl (not_listed_nil (by decide))
    · have hput : InsertClause.onConflict.text (d.put s) = InsertClause.onConflict.text s := by
        cases d <;> first | rfl | exact absurd rfl he
      rwa [hput]
  cases c with
  | columns =>
    cases d with
    | columns cols => exact left_map hok
    | _ => exact h
  | values | rows =>
    cases d with
    | values vals | rows vals => exact left_rows hok
    | _ => exact h
  | returning | onConflictDoNothing => trivial
  | onConflictDoNothingAt => exact conflict h
  | onConflictDoUpdate => exact ⟨h.1, conflict h.2⟩

/-- What `ToString` has checked of the columns and the rows. -/
theorem insert_checked {s : InsertInto} {x : Text} (h : s.toString = .ok x) :
    s.columns_ ≠ [] ∧ s.rows_ ≠ [] ∧ ∀ row ∈ s.rows_, row ≠ [] := by
  unfold InsertInto.toString at h
  split at h
  · cases h
  rename_i hc
  split at h
  · cases h
  rename_i hr
  split at h
  · cases h
  rename_i ha
  have hcols : s.columns_ ≠ [] := by simpa using hc
  refine ⟨hcols, by simpa using hr, fun row hrow he => hcols ?_⟩
  -- an empty row would have another length than the columns
  simp only [InsertInto.ensureSameArity, hc, hr, Bool.or_self, if_false, Option.map_eq_none_iff,
    List.find?_eq_none, bne_iff_ne, ne_eq, not_not, Bool.false_eq_true] at ha
  have hlen := ha row hrow
  rw [he] at hlen
  exact List.length_eq_zero_iff.1 hlen.symm

/-- What the calls of a run leave in the text of an INSERT. -/
theorem insert_shown {tbl : Table} {calls : List InsertCall} {s : InsertInto} {x : Text}
    (hok : Meets InsertCall.apply (fun s c => c.filled s = true) calls (.new tbl))
    (hrun : chain InsertCall.apply calls (.new tbl) = some s) (hx : s.toString = .ok x) :
    ∀ c ∈ calls, c.Shown s := by
  intro c hc
  obtain ⟨hcols, hrows, hrow⟩ := insert_checked hx
  have hleft := chain_all (P := InsertCall.Left) InsertCall.apply
    (fun c s s' => insert_set) (fun c d s s' => insert_kept) hok hrun c hc
  cases c with
  | columns cols =>
    exact ⟨(hasTerm_iff _).1 (hleft.resolve_left hcols), (List.append_nil _).symm⟩
  | values vals | rows vals =>
    exact ⟨hrows, fun row hr => (hasTerm_iff row).1 ((hleft row hr).resolve_left (hrow row hr))⟩
  | returning items =>
    refine returning_listed (insert_returning.shown insert_setter (fun s c l hf _ ht => ?_) hok hrun
      _ hc _ rfl)
    cases c <;> cases ht
    exact hf
  | onConflictDoNothing => trivial
  | onConflictDoNothingAt cols | onConflictDoUpdate cols assignments => exact hleft

/-! ## UPDATE and DELETE -/

namespace UpdateCall

/-- The terms of a `RETURNING`. -/
def returned : UpdateCall → Option (List Text)
  | returning items => some (items.map SelectItem.toString)
  | _ => none

def filled (c : UpdateCall) : Bool := c.returned.all hasTerm

def Shown (c : UpdateCall) (seg : UpdateClause → Text) : Prop :=
  match c with
  | returning l => Listed (l.map SelectItem.toString) " RETURNING ".toList [] (seg .returning)
  | _ => True

end UpdateCall

namespace DeleteCall

/-- The terms of a `RETURNING`. -/
def returned : DeleteCall → Option (List Text)
  | returning items => some (items.map SelectItem.toString)
  | _ => none

def filled (c : DeleteCall) : Bool := c.returned.all hasTerm

def Shown (c : DeleteCall) (seg : DeleteClause → Text) : Prop :=
  match c with
  | returning l => Listed (l.map SelectItem.toString) " RETURNING ".toList [] (seg .returning)
  | _ => True

end DeleteCall

theorem update_returning :
    ListClause UpdateCall.put UpdateCall.blocked UpdateCall.returned Update.returning_ where
  writes c s l hc := by cases c <;> cases hc; rfl
  blocks c s l hc := by cases c <;> cases hc; rfl
  keeps c s hc := by cases c <;> first | rfl | cases hc

theorem delete_returning :
    ListClause DeleteCall.put DeleteCall.blocked DeleteCall.returned DeleteFrom.returning_ where
  writes c s l hc := by cases c <;> cases hc; rfl
  blocks c s l hc := by cases c <;> cases hc; rfl
  keeps c s hc := by cases c <;> first | rfl | cases hc

theorem all_some {l : List Text} {o : Option (List Text)} (h : o.all hasTerm = true)
    (ho : o = some l) : hasTerm l = true := by
  rw [ho] at h
  exact h

theorem update_shown {tbl : Table} {calls : List UpdateCall} {s : Update}
    (hok : Meets UpdateCall.apply (fun _ c => c.filled = true) calls (.new tbl))
    (hrun : chain UpdateCall.apply calls (.new tbl) = some s) :
    ∀ c ∈ calls, c.Shown (UpdateClause.text · s) := by
  have h := update_returning.shown update_setter (fun _ _ _ hf _ => all_some hf) hok hrun
  intro c hc
  cases c with
  | returning items => exact returning_listed (h _ hc _ rfl)
  | _ => trivial

theorem delete_shown {tbl : Table} {calls : List DeleteCall} {s : DeleteFrom}
    (hok : Meets DeleteCall.apply (fun _ c => c.filled = true) calls (.new tbl))
    (hrun : chain DeleteCall.apply calls (.new tbl) = some s) :
    ∀ c ∈ calls, c.Shown (DeleteClause.text · s) := by
  have h := delete_returning.shown delete_setter (fun _ _ _ hf _ => all_some hf) hok hrun
  intro c hc
  cases c with
  | returning items => exact returning_listed (h _ hc _ rfl)
  | _ => trivial

/-! ## Joins -/

/-- A clause of the text. -/
def JoinClause.text : JoinClause → Join → Text
  | on, s => if s.on_.isEmpty then [] else " ON ".toList ++ s.on_
  | .using, s => if s.using_.isEmpty then [] else " USING (".toList ++ s.using_ ++ ")".toList

theorem join_text (s : Join) :
    s.toString = s.a_ ++ " ".toList ++ s.kind_ ++ " JOIN ".toList ++ s.b_ ++
      [.on, .using].flatMap (JoinClause.text · s) := by
  cases ho : s.on_ <;> cases hu : s.using_ <;>
    simp only [Join.toString, JoinClause.text, List.flatMap_cons, List.flatMap_nil, ho, hu,
      List.isEmpty_nil, List.isEmpty_cons, Bool.not_true, Bool.not_false, Bool.false_eq_true,
      if_true, if_false, List.append_assoc, List.append_nil, List.nil_append]

/-- The columns of a `USING`. -/
def JoinCall.columns : JoinCall → Option (List Text)
  | .using columns => some (columns.map Expr.toString)
  | _ => none

/-- The columns have a term; a list without any throws. -/
def JoinCall.filled (c : JoinCall) : Bool := c.columns.all fun l => l.isEmpty || hasTerm l

def JoinCall.Shown (c : JoinCall) (seg : JoinClause → Text) : Prop :=
  match c with
  | .using l => Listed (l.map Expr.toString) " USING (".toList ")".toList (seg .using)
  | _ => True

theorem join_using : ListClause JoinCall.put JoinCall.blocked JoinCall.columns Join.using_ where
  writes c s l hc := by cases c <;> cases hc; rfl
  blocks c s l hc := by cases c <;> cases hc; rfl
  keeps c s hc := by cases c <;> first | rfl | cases hc

/-- A list of columns that is let through is not empty. -/
theorem join_columns {c : JoinCall} {s : Join} {l : List Text} (hf : c.filled = true)
    (hbad : c.bad s = none) (hl : c.columns = some l) : hasTerm l = true := by
  cases c with
  | on exp => cases hl
  | «using» columns =>
    cases hl
    simp only [JoinCall.filled, JoinCall.columns, Option.all_some, Bool.or_eq_true] at hf
    refine hf.resolve_left fun he => ?_
    obtain rfl := List.map_eq_nil_iff.1 (List.isEmpty_iff.1 he)
    simp only [JoinCall.bad, List.length_nil, if_true] at hbad
    repeat' split at hbad
    all_goals cases hbad

theorem join_shown {j s : Join} {calls : List JoinCall}
    (hok : Meets JoinCall.apply (fun _ c => c.filled = true) calls j)
    (hrun : chain JoinCall.apply calls j = some s) :
    ∀ c ∈ calls, c.Shown (JoinClause.text · s) := by
  have h := join_using.shown join_setter (fun _ _ _ => join_columns) hok hrun
  intro c hc
  cases c with
  | on exp => trivial
  | «using» columns =>
    obtain ⟨ht, hterm⟩ := h _ hc _ rfl
    show Listed _ _ _ (if s.using_.isEmpty then [] else _)
    rw [ht, joinCsv_isEmpty, hterm]
    exact listed hterm " USING (".toList ")".toList

/-! ## Expressions -/

theorem argsText_eq : (l : List Expr) →
    argsText l = ", ".toList.intercalate (l.map fun a => a.extract .kExtract)
  | [] => rfl
  | [a] => by simp [argsText_singleton]
  | a :: b :: l => by
    rw [argsText_cons, argsText_eq (b :: l), List.map_cons, List.map_cons, List.map_cons,
      List.intercalate_cons_cons, List.append_assoc]

/-- The arguments between commas, and at least one with a text. -/
structure ListedArgs (args : List Expr) (opening x : Text) : Prop where
  nonempty : ∃ a ∈ args, a.toString ≠ []
  text : x = opening ++ ", ".toList.intercalate (args.map fun a => a.extract .kExtract) ++ ")".toList

theorem listed_args {l : List Expr} (h : hasTerm (l.map Expr.toString) = true) (opening : Text) :
    ListedArgs l opening (opening ++ (argsText l ++ [')'])) :=
  ⟨by simpa using (hasTerm_iff _).1 h, by rw [argsText_eq, List.append_assoc]; rfl⟩

/-- The functions that need an argument, and what opens their lists. -/
def Function.opening : Function → Option Text
  | call _ => none
  | callDistinct name => some (name ++ "(DISTINCT ".toList)
  | coalesce => some "COALESCE(".toList
  | greatest => some "GREATEST(".toList
  | least => some "LEAST(".toList

theorem call_listed (name argsPrefix : Text) {args : List Expr}
    (hne : hasTerm (args.map Expr.toString) = true) :
    ListedArgs args (name ++ "(".toList ++ argsPrefix)
      (Expr.mk (Expr.buildCallNode name argsPrefix args)).toString := by
  have h := listed_args hne (name ++ "(".toList ++ argsPrefix)
  rwa [show (Expr.mk (Expr.buildCallNode name argsPrefix args)).toString =
    name ++ "(".toList ++ argsPrefix ++ (argsText args ++ [')']) by
      rw [Expr.toString, buildCallNode_text, List.append_assoc, List.append_assoc]; rfl]

theorem function_listed {f : Function} {args : List Expr} {e : Expr} {o : Text}
    (h : f.apply args = .ok e) (ho : f.opening = some o)
    (hne : hasTerm (args.map Expr.toString) = true) : ListedArgs args o e.toString := by
  cases f with
  | call name => cases ho
  | callDistinct name =>
    simp only [Function.apply, Expr.callDistinct, bind_ok, pure_ok] at h
    obtain ⟨_, -, _, -, rfl⟩ := h
    cases ho
    have := call_listed name "DISTINCT ".toList hne
    rwa [List.append_assoc] at this
  | coalesce =>
    simp only [Function.apply, Expr.coalesce, Expr.call, bind_ok, pure_ok] at h
    obtain ⟨_, -, _, -, rfl⟩ := h
    cases ho
    exact call_listed "COALESCE".toList [] hne
  | greatest =>
    simp only [Function.apply, Expr.greatest, Expr.call, bind_ok, pure_ok] at h
    obtain ⟨_, -, _, -, rfl⟩ := h
    cases ho
    exact call_listed "GREATEST".toList [] hne
  | least =>
    simp only [Function.apply, Expr.least, Expr.call, bind_ok, pure_ok] at h
    obtain ⟨_, -, _, -, rfl⟩ := h
    cases ho
    exact call_listed "LEAST".toList [] hne

theorem in_listed {neg : Bool} {a : Expr} {l : List Expr} {c : Condition}
    (h : (if neg then a.notIn l else a.isIn l) = .ok c)
    (hne : hasTerm (l.map Expr.toString) = true) :
    ListedArgs l (a.extract .kBetween ++ if neg then " NOT IN (".toList else " IN (".toList)
      c.toString := by
  have key {connector : Text} (h : Expr.buildInListNode a connector l = .ok c) :
      ListedArgs l (a.extract .kBetween ++ (connector ++ "(".toList)) c.toString := by
    obtain ⟨-, -, ht⟩ := buildInListNode_ok a h
    have := listed_args hne (a.extract .kBetween ++ (connector ++ "(".toList))
    rwa [ht, show a.extract .kBetween ++ (connector ++ '(' :: (argsText l ++ [')'])) =
      a.extract .kBetween ++ (connector ++ "(".toList) ++ (argsText l ++ [')']) by simp]
  cases neg
  · exact key h
  · exact key h

/-! ## All entry points -/

end IronQuery
