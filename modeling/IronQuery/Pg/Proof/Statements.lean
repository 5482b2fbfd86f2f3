import IronQuery.Pg.Proof.Terms

/-!
# Statements are read back

The tokens of a statement are given clause by clause (`SelectTokens` and its like), and `Reads` says
of each clause what its tokens are read as, by the readers of expressions and tables that are given.
`readSelect_tokens` and its like: the statement is then read as the clauses that were written, each
with what it holds.
-/

namespace Pg

section
variable {α β τ φ : Type} {term : List Token → Option τ} {ref : List Token → Option φ}
  {rd : List Token → Option α} {stop : Token → Bool} {p : Spot} {q : Spot} {t : Token}
  {ts us r : List Token} {as : List α}

/-! ## Clauses that hold a list, an expression or a table -/

/-- A list with at least one entry, which is read as `as`. -/
def Listing (rd : List Token → Option α) (ts : List Token) (as : List α) : Prop :=
  ∃ l, l ≠ [] ∧ ts = csv l ∧ List.Forall₂ (Entry rd) l as

theorem Listing.read (h : Listing rd ts as) : (terms .top ts).mapM rd = some as := by
  obtain ⟨l, hne, rfl, hl⟩ := h
  exact read_csv hne hl

theorem Listing.passes (h : Listing rd ts as) : Passes endsList ts := by
  obtain ⟨l, -, rfl, hl⟩ := h
  exact csv_passes hl

theorem Listing.row (h : Listing rd ts as) : Entry (readRow rd) (bracketed ts) as := by
  obtain ⟨l, hne, rfl, hl⟩ := h
  exact row_entry hne hl

theorem Entry.in_list {a : α} (h : Entry rd ts a) : Passes endsList ts :=
  h.passes.mono fun t ht => by rw [endsClause, ht, Bool.or_true]

/-- The tables of a clause. -/
structure Tables (ref : List Token → Option φ) (ts : List Token) (a : φ) : Prop where
  passes : Passes endsTable ts
  read : ref ts = some a

theorem mapM_rel {R : List Token → α → Prop} {o : Option (List Token)} {a : Option α}
    (h : Option.Rel R o a) (hr : ∀ ts x, R ts x → rd ts = some x) : o.mapM rd = some a := by
  cases h with
  | none => rfl
  | some h =>
    rw [Option.mapM_some, hr _ _ h]
    rfl

/-- A clause that is a list, if it is there. -/
theorem mapM_listing {o : Option (List Token)} {a : Option (List α)}
    (h : Option.Rel (Listing rd) o a) : (o.mapM fun ts => (terms .top ts).mapM rd) = some a :=
  mapM_rel h fun _ _ h => h.read

/-- A clause belongs to one part among heads that end it. -/
theorem passes_heads {heads : List (List Key)} {p : Key → Bool}
    (h : Passes (fun t => t.key.any p) ts)
    (hh : heads.all (fun h => h.head?.all p) = true) : Passes (startsOne heads) ts :=
  h.mono fun _ => startsOne_of hh

theorem passes_rel {R : List Token → α → Prop} {heads : List (List Key)} {p : Key → Bool}
    {o : Option (List Token)} {a : Option α} (h : Option.Rel R o a)
    (hr : ∀ ts x, R ts x → Passes (fun t => t.key.any p) ts)
    (hh : heads.all (fun h => h.head?.all p) = true) :
    ∀ ts, o = some ts → Passes (startsOne heads) ts := by
  intro ts ho
  cases h with
  | none => cases ho
  | some h =>
    cases ho
    exact passes_heads (hr _ _ h) hh

/-! ## `DISTINCT` in front of a list -/

/-- The first token of a part does not end it. -/
theorem Passes.head (h : Passes stop (t :: ts)) : stop t = false := by
  rw [Passes, Spot.run] at h
  split at h
  · rename_i hk
    simp only [Spot.keeps, Spot.top, bne_self_eq_false, Bool.false_or, Bool.false_and,
      Bool.or_false, Bool.and_eq_true, Bool.not_eq_true'] at hk
    exact hk.2
  · cases h

/-- Behind `DISTINCT` a part goes on as it would from its start. -/
theorem Passes.distinct (h : Passes stop ts) (hne : ts ≠ []) (hs : stop Key.distinct.token = false) :
    Passes stop (Key.distinct.token :: ts) := by
  obtain ⟨t, ts, rfl⟩ := List.exists_cons_of_ne_nil hne
  have hn : Spot.top.next Key.distinct.token = ⟨0, true⟩ := by decide
  rw [Passes, Spot.run, if_pos (Spot.keeps_plain (by decide) hs _), hn]
  have hd := h.head
  rw [Passes, Spot.run] at h
  split at h
  · rename_i hk
    have hk' : (⟨0, true⟩ : Spot).keeps stop t = true := by
      simp only [Spot.keeps, Spot.top, bne_self_eq_false, Bool.false_or, Bool.and_eq_true, hd,
        Bool.not_false, Bool.true_or, and_true] at hk ⊢
      exact hk
    rw [Spot.run, if_pos hk']
    exact h
  · cases h

/-- What `SELECT` has in front of its items. -/
inductive DistinctReads (term : List Token → Option τ) : List Token → Distinct τ → Prop
  | all : DistinctReads term [] .all
  | distinct : DistinctReads term [Key.distinct.token] .distinct
  | on {l : List Token} {exprs : List τ} (h : Listing term l exprs) :
    DistinctReads term (Key.distinct.token :: Key.on.token :: bracketed l) (.on exprs)

theorem behind_head {k : Key} {ks : List Key} (h : ∀ t, ts.head? = some t → t.key ≠ some k) :
    behind (k :: ks) ts = none := by
  cases ts with
  | nil => rfl
  | cons t ts => rw [behind, if_neg (h t rfl)]

theorem readDistinct_tokens {d : Distinct τ} (h : DistinctReads term ts d) (hu : Opening us)
    (hp : Passes endsList us) : readDistinct term (ts ++ us) = some (d, us) := by
  obtain ⟨t, r, rfl, ht⟩ := hu
  have hon : t.key ≠ some .on := by
    intro hk
    have := hp.head
    rw [endsList, hk] at this
    cases this
  have hno : behind [.distinct, .on] (t :: r) = none := behind_head fun x hx => by
    cases hx
    exact ht
  cases h with
  | all =>
    have hplain : behind [.distinct] (t :: r) = none := behind_head fun x hx => by
      cases hx
      exact ht
    rw [List.nil_append, readDistinct, hno]
    simp only [hplain]
  | distinct =>
    have h2 : behind [.distinct, .on] (Key.distinct.token :: t :: r) = none := by
      rw [behind, key_token, if_pos rfl, behind, if_neg hon]
    have h1 : behind [.distinct] (Key.distinct.token :: t :: r) = some (t :: r) :=
      behind_tokens [.distinct] _
    rw [List.cons_append, List.nil_append, readDistinct, h2]
    simp only [h1]
  | on hl =>
    rename_i l exprs
    have hb : behind [.distinct, .on]
        (Key.distinct.token :: Key.on.token :: bracketed l ++ t :: r) =
        some (.punct '(' :: (l ++ .punct ')' :: t :: r)) := by
      have := behind_tokens [.distinct, .on] (bracketed l ++ t :: r)
      rw [show bracketed l ++ t :: r = .punct '(' :: (l ++ .punct ')' :: t :: r) by
        simp [bracketed]] at this
      simpa [bracketed] using this
    rw [readDistinct, hb]
    simp only [hl.passes.closed.upTo, hl.read, Option.bind_eq_bind, Option.bind_some]
    rfl

theorem passes_distinct {d : Distinct τ} (h : DistinctReads term ts d) (hs : stop Key.on.token = false)
    (hd : stop Key.distinct.token = false) (ho : stop (.punct '(') = false) (hu : Passes stop us)
    (hne : us ≠ []) : Passes stop (ts ++ us) := by
  cases h with
  | all => exact hu
  | distinct => exact hu.distinct hne hd
  | on hl =>
    exact (((Passes.bracketed ho hl.passes.closed).append hu).cons (by decide) hs
      (by decide)).distinct (List.cons_ne_nil _ _) hd

/-! ## SELECT -/

/-- The tokens of a SELECT, clause by clause. -/
structure SelectTokens where
  distinct : List Token
  items : List Token
  source : List Token
  condition : Option (List Token)
  groupBy : Option (List Token)
  having : Option (List Token)
  orderBy : Option (List Token)
  limit : Option (List Token)
  offset : Option (List Token)

def SelectTokens.clauses (s : SelectTokens) : List (List Key × Option (List Token)) :=
  [([.select], some (s.distinct ++ s.items)), ([.from], some s.source), ([.where], s.condition),
    ([.group, .by], s.groupBy), ([.having], s.having), ([.order, .by], s.orderBy),
    ([.limit], s.limit), ([.offset], s.offset)]

structure SelectTokens.Reads (term : List Token → Option τ) (ref : List Token → Option φ)
    (s : SelectTokens) (q : SelectStmt τ φ) : Prop where
  distinct : DistinctReads term s.distinct q.distinct
  items : Listing (readItem term) s.items q.items
  opening : Opening s.items
  source : Tables ref s.source q.source
  condition : Option.Rel (Entry term) s.condition q.condition
  groupBy : Option.Rel (Listing term) s.groupBy q.groupBy
  having : Option.Rel (Entry term) s.having q.having
  orderBy : Option.Rel (Listing (readSort term)) s.orderBy q.orderBy
  limit : Option.Rel (Entry term) s.limit q.limit
  offset : Option.Rel (Entry term) s.offset q.offset

theorem Opening.ne_nil (h : Opening ts) : ts ≠ [] := by
  obtain ⟨t, r, rfl, -⟩ := h
  exact List.cons_ne_nil _ _

theorem SelectTokens.Reads.separate {s : SelectTokens} {q : SelectStmt τ φ} (h : s.Reads term ref q) :
    Separate s.clauses := by
  have hhead : Passes (startsOne [[.from], [.where], [.group, .by], [.having], [.order, .by],
      [.limit], [.offset]]) (s.distinct ++ s.items) :=
    passes_distinct h.distinct (by decide) (by decide) (by decide)
      (passes_heads h.items.passes (by decide)) h.opening.ne_nil
  refine ⟨fun ts ht => ?_, fun ts ht => ?_, ?_, ?_, ?_, ?_, ?_, ?_, trivial⟩
  · cases ht
    exact hhead
  · cases ht
    exact passes_heads h.source.passes rfl
  · exact passes_rel h.condition (fun _ _ h => h.in_list) rfl
  · exact passes_rel h.groupBy (fun _ _ h => h.passes) rfl
  · exact passes_rel h.having (fun _ _ h => h.in_list) rfl
  · exact passes_rel h.orderBy (fun _ _ h => h.passes) rfl
  · exact passes_rel h.limit (fun _ _ h => h.in_list) rfl
  · exact passes_rel h.offset (fun _ _ h => h.in_list) rfl

/-- **A SELECT is read as the clauses that were written**, each with its terms in their order. -/
theorem readSelect_tokens {s : SelectTokens} {q : SelectStmt τ φ} (h : s.Reads term ref q) :
    readSelect term ref (clauseTokens s.clauses) = some q := by
  have hc : readClauses selectHeads (clauseTokens s.clauses) = some (s.clauses.map Prod.snd) :=
    readClauses_tokens (l := s.clauses) (by decide : Headed selectHeads) h.separate
  have hw := mapM_rel h.condition fun _ _ h => h.read
  have hg := mapM_listing h.groupBy
  have hh := mapM_rel h.having fun _ _ h => h.read
  have ho := mapM_listing h.orderBy
  have hl := mapM_rel h.limit fun _ _ h => h.read
  have hf := mapM_rel h.offset fun _ _ h => h.read
  rw [readSelect, hc]
  simp only [SelectTokens.clauses, List.map_cons, List.map_nil, Option.bind_eq_bind,
    Option.bind_some, readDistinct_tokens h.distinct h.opening h.items.passes, h.items.read,
    h.source.read, hw, hg, hh, ho, hl, hf]
  rfl

/-! ## INSERT -/

/-- A word or a bracket that ends the table of an INSERT, UPDATE or DELETE. -/
def endsTarget (t : Token) : Bool :=
  t == .punct '(' || t.key.any fun k => k == .values || k == .set || k.endsClause

/-- The table that a statement changes. -/
structure Target (ref : List Token → Option φ) (ts : List Token) (a : φ) : Prop where
  passes : Passes endsTarget ts
  read : ref ts = some a

theorem Target.heads {a : φ} {heads : List (List Key)} (h : Target ref ts a)
    (hh : heads.all (fun h => h.head?.all fun k => k == .values || k == .set || k.endsClause) =
      true) : Passes (startsOne heads) ts :=
  h.passes.mono fun t ht => by rw [endsTarget, startsOne_of hh ht, Bool.or_true]

def conflictWord : Token := .word "CONFLICT".toList
def doTokens (action : Text) : List Token := [.word "DO".toList, .word action]

/-- The tokens of a conflict clause, behind its `ON`. -/
inductive ConflictReads (term : List Token → Option τ) : List Token → Conflict τ → Prop
  | nothing : ConflictReads term (conflictWord :: doTokens "NOTHING".toList) (.nothing none)
  | nothingAt {l : List Token} {target : List τ} (h : Listing term l target) :
    ConflictReads term (conflictWord :: (bracketed l ++ doTokens "NOTHING".toList))
      (.nothing (some target))
  | update {l m : List Token} {target : List τ} {set : List (τ × τ)} (h : Listing term l target)
    (hs : Listing (readAssignment term) m set) :
    ConflictReads term
      (conflictWord :: (bracketed l ++ (doTokens "UPDATE".toList ++ Key.set.token :: m)))
      (.update target set)

theorem readConflict_tokens {c : Conflict τ} (h : ConflictReads term ts c) :
    readConflict term ts = some c := by
  have hopen (l r : List Token) : readConflict term (conflictWord :: (bracketed l ++ r)) =
      (upTo 0 (l ++ .punct ')' :: r)).bind fun p =>
        ((terms .top p.1).mapM term).bind fun as => readAction term (some as) p.2 := by
    rw [show bracketed l ++ r = .punct '(' :: (l ++ .punct ')' :: r) by simp [bracketed]]
    rfl
  cases h with
  | nothing => rfl
  | nothingAt hl =>
    rw [hopen, hl.passes.closed.upTo]
    simp only [Option.bind_some, hl.read]
    rfl
  | update hl hs =>
    rename_i l m target set
    have hset : behindWords ["DO".toList, "UPDATE".toList, "SET".toList]
        (doTokens "UPDATE".toList ++ Key.set.token :: m) = some m := rfl
    have hdo : behindWords ["DO".toList, "NOTHING".toList]
        (doTokens "UPDATE".toList ++ Key.set.token :: m) = none := rfl
    rw [hopen, hl.passes.closed.upTo]
    simp only [Option.bind_some, hl.read, readAction, hdo, hset, hs.read, Option.bind_eq_bind]
    rfl

theorem ConflictReads.passes {c : Conflict τ} (h : ConflictReads term ts c) :
    Passes endsList ts := by
  have hdo : Passes endsList (doTokens "NOTHING".toList) := by decide
  have hbr {l : List Token} {target : List τ} (h : Listing term l target) :
      Passes endsList (bracketed l) := .bracketed rfl h.passes.closed
  cases h with
  | nothing => decide
  | nothingAt hl => exact ((hbr hl).append hdo).cons (by decide) (by decide) (by decide)
  | update hl hs =>
    have hu : Passes endsList (doTokens "UPDATE".toList) := by decide
    exact ((hbr hl).append (hu.append (hs.passes.cons (by decide) (by decide) (by decide)))).cons
      (by decide) (by decide) (by decide)

/-- The tokens of an INSERT, clause by clause. -/
structure InsertTokens where
  table : List Token
  columns : List Token
  rows : List Token
  conflict : Option (List Token)
  returning : Option (List Token)

def InsertTokens.clauses (s : InsertTokens) : List (List Key × Option (List Token)) :=
  [([.insert, .into], some (s.table ++ bracketed s.columns)), ([.values], some s.rows),
    ([.on], s.conflict), ([.returning], s.returning)]

structure InsertTokens.Reads (term : List Token → Option τ) (ref : List Token → Option φ)
    (s : InsertTokens) (q : InsertStmt τ φ) : Prop where
  table : Target ref s.table q.into
  columns : Listing term s.columns q.columns
  rows : Listing (readRow term) s.rows q.rows
  conflict : Option.Rel (ConflictReads term) s.conflict q.conflict
  returning : Option.Rel (Listing (readItem term)) s.returning q.returning

/-- **An INSERT is read as the clauses that were written**, with its rows as rows. -/
theorem readInsert_tokens {s : InsertTokens} {q : InsertStmt τ φ} (h : s.Reads term ref q) :
    readInsert term ref (clauseTokens s.clauses) = some q := by
  have hsep : Separate s.clauses := by
    refine ⟨fun ts ht => ?_, fun ts ht => ?_, ?_, ?_, trivial⟩
    · cases ht
      exact (h.table.heads rfl).append (.bracketed rfl h.columns.passes.closed)
    · cases ht
      exact passes_heads h.rows.passes rfl
    · exact passes_rel h.conflict (fun _ _ h => h.passes) rfl
    · exact passes_rel h.returning (fun _ _ h => h.passes) rfl
  have hc : readClauses insertHeads (clauseTokens s.clauses) = some (s.clauses.map Prod.snd) :=
    readClauses_tokens (l := s.clauses) (by decide : Headed insertHeads) hsep
  have hcut : outside (· == .punct '(') .top (s.table ++ bracketed s.columns) =
      (s.table, bracketed s.columns) :=
    Passes.outside_cons (h.table.passes.mono fun t ht => by rw [endsTarget, ht, Bool.true_or]) rfl _
  have ho := mapM_rel h.conflict fun _ _ h => readConflict_tokens h
  have hr := mapM_listing h.returning
  rw [readInsert, hc]
  simp only [InsertTokens.clauses, List.map_cons, List.map_nil, Option.bind_eq_bind,
    Option.bind_some, hcut, h.table.read, h.columns.row.read, h.rows.read, ho, hr]
  rfl

/-! ## UPDATE and DELETE -/

/-- The tokens of an UPDATE, clause by clause. -/
structure UpdateTokens where
  table : List Token
  assignments : List Token
  source : Option (List Token)
  condition : Option (List Token)
  returning : Option (List Token)

def UpdateTokens.clauses (s : UpdateTokens) : List (List Key × Option (List Token)) :=
  [([.update], some s.table), ([.set], some s.assignments), ([.from], s.source),
    ([.where], s.condition), ([.returning], s.returning)]

structure UpdateTokens.Reads (term : List Token → Option τ) (ref : List Token → Option φ)
    (s : UpdateTokens) (q : UpdateStmt τ φ) : Prop where
  table : Target ref s.table q.table
  assignments : Listing (readAssignment term) s.assignments q.assignments
  source : Option.Rel (Tables ref) s.source q.source
  condition : Option.Rel (Entry term) s.condition q.condition
  returning : Option.Rel (Listing (readItem term)) s.returning q.returning

/-- **An UPDATE is read as the clauses that were written**, with its assignments in their order. -/
theorem readUpdate_tokens {s : UpdateTokens} {q : UpdateStmt τ φ} (h : s.Reads term ref q) :
    readUpdate term ref (clauseTokens s.clauses) = some q := by
  have hsep : Separate s.clauses := by
    refine ⟨fun ts ht => ?_, fun ts ht => ?_, ?_, ?_, ?_, trivial⟩
    · cases ht
      exact h.table.heads rfl
    · cases ht
      exact passes_heads h.assignments.passes rfl
    · exact passes_rel h.source (fun _ _ h => h.passes) rfl
    · exact passes_rel h.condition (fun _ _ h => h.in_list) rfl
    · exact passes_rel h.returning (fun _ _ h => h.passes) rfl
  have hc : readClauses updateHeads (clauseTokens s.clauses) = some (s.clauses.map Prod.snd) :=
    readClauses_tokens (l := s.clauses) (by decide : Headed updateHeads) hsep
  have hf := mapM_rel h.source fun _ _ h => h.read
  have hw := mapM_rel h.condition fun _ _ h => h.read
  have hr := mapM_listing h.returning
  rw [readUpdate, hc]
  simp only [UpdateTokens.clauses, List.map_cons, List.map_nil, Option.bind_eq_bind,
    Option.bind_some, h.table.read, h.assignments.read, hf, hw, hr]
  rfl

/-- The tokens of a DELETE, clause by clause. -/
structure DeleteTokens where
  table : List Token
  source : Option (List Token)
  condition : Option (List Token)
  returning : Option (List Token)

def DeleteTokens.clauses (s : DeleteTokens) : List (List Key × Option (List Token)) :=
  [([.delete, .from], some s.table), ([.using], s.source), ([.where], s.condition),
    ([.returning], s.returning)]

structure DeleteTokens.Reads (term : List Token → Option τ) (ref : List Token → Option φ)
    (s : DeleteTokens) (q : DeleteStmt τ φ) : Prop where
  table : Target ref s.table q.table
  source : Option.Rel (Tables ref) s.source q.source
  condition : Option.Rel (Entry term) s.condition q.condition
  returning : Option.Rel (Listing (readItem term)) s.returning q.returning

/-- **A DELETE is read as the clauses that were written.** -/
theorem readDelete_tokens {s : DeleteTokens} {q : DeleteStmt τ φ} (h : s.Reads term ref q) :
    readDelete term ref (clauseTokens s.clauses) = some q := by
  have hsep : Separate s.clauses := by
    refine ⟨fun ts ht => ?_, ?_, ?_, ?_, trivial⟩
    · cases ht
      exact h.table.heads rfl
    · exact passes_rel h.source (fun _ _ h => h.passes) rfl
    · exact passes_rel h.condition (fun _ _ h => h.in_list) rfl
    · exact passes_rel h.returning (fun _ _ h => h.passes) rfl
  have hc : readClauses deleteHeads (clauseTokens s.clauses) = some (s.clauses.map Prod.snd) :=
    readClauses_tokens (l := s.clauses) (by decide : Headed deleteHeads) hsep
  have hf := mapM_rel h.source fun _ _ h => h.read
  have hw := mapM_rel h.condition fun _ _ h => h.read
  have hr := mapM_listing h.returning
  rw [readDelete, hc]
  simp only [DeleteTokens.clauses, List.map_cons, List.map_nil, Option.bind_eq_bind,
    Option.bind_some, h.table.read, hf, hw, hr]
  rfl

end

end Pg
