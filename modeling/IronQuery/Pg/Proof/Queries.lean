import IronQuery.Pg.Proof.Tables

/-!
# Queries are read back with their clauses

`StmtSpelt ts q`: the tokens `ts` spell the query `q`: the clauses of a SELECT or DELETE, a set
operation with both operands in brackets, or CTEs with a main query behind them. `readStmt_spelt`:
they are read as `q`, by induction on how they are spelt.
-/

namespace Pg

section
variable {τ φ : Type} {term : List Token → Option τ} {ref : List Token → Option φ}
  {ts us r : List Token} {stop : Token → Bool} {q a b : QueryStmt τ φ}

/-! ## The clauses of one statement -/

/-- Clauses belong to one part if their words and what they hold do. -/
theorem passes_clauses {l : List (List Key × Option (List Token))}
    (hk : ∀ c ∈ l, ∀ k ∈ c.1, stop k.token = false ∧ k ≠ .distinct)
    (ht : ∀ c ∈ l, ∀ ts, c.2 = some ts → Passes stop ts) : Passes stop (clauseTokens l) := by
  have hwords {ks : List Key} {ts : List Token}
      (h : ∀ k ∈ ks, stop k.token = false ∧ k ≠ .distinct) (hp : Passes stop ts) :
      Passes stop (ks.map Key.token ++ ts) := by
    induction ks with
    | nil => exact hp
    | cons k ks ih =>
      obtain ⟨hs, hd⟩ := h k (.head _)
      exact (ih fun x hx => h x (.tail _ hx)).cons rfl hs (by simpa using hd)
  induction l with
  | nil => exact .nil
  | cons c l ih =>
    have hl := ih (fun x hx => hk x (.tail _ hx)) fun x hx => ht x (.tail _ hx)
    have hc : Passes stop (c.2.elim [] fun ts => c.1.map Key.token ++ ts) := by
      cases ho : c.2 with
      | none => exact .nil
      | some ts => exact hwords (hk c (.head _)) (ht c (.head _) ts ho)
    exact hc.append hl

theorem setWord_endsTable {t : Token} (h : isSetWord t = true) : endsTable t = true := by
  unfold isSetWord Token.setKind at h
  split at h
  case h_4 => cases h
  all_goals
    rename_i hk
    rw [endsTable, hk]
    rfl

theorem rel_passes {α : Type} {R : List Token → α → Prop} {o : Option (List Token)} {x : Option α}
    (h : Option.Rel R o x) (hp : ∀ ts y, R ts y → Passes endsTable ts) (hts : o = some ts) :
    Passes isSetWord ts := by
  cases h with
  | none => cases hts
  | some h =>
    cases hts
    exact (hp _ _ h).mono fun _ => setWord_endsTable

theorem Passes.table (h : Passes endsList ts) : Passes endsTable ts := h.mono fun t ht => by
  obtain ⟨k, hk, hc⟩ := (Option.any_eq_true _ _).1 ht
  refine (Option.any_eq_true _ _).2 ⟨k, hk, ?_⟩
  cases k <;> first | rfl | cases hc

/-- No set operation stands in a SELECT outside brackets. -/
theorem SelectTokens.Reads.one {s : SelectTokens} {q : SelectStmt τ φ} (h : s.Reads term ref q) :
    Passes isSetWord (clauseTokens s.clauses) := by
  have hitems : Passes isSetWord (s.distinct ++ s.items) :=
    passes_distinct h.distinct (by decide) (by decide) (by decide)
      (h.items.passes.table.mono fun _ => setWord_endsTable) h.opening.ne_nil
  refine passes_clauses ?_ ?_
  · simp only [SelectTokens.clauses, List.forall_mem_cons]
    decide
  · simp only [SelectTokens.clauses, List.forall_mem_cons]
    refine ⟨?_, ?_, fun ts => ?_, fun ts => ?_, fun ts => ?_, fun ts => ?_, fun ts => ?_,
      fun ts => ?_, by rintro _ ⟨⟩⟩
    · rintro _ ⟨⟩
      exact hitems
    · rintro _ ⟨⟩
      exact h.source.passes.mono fun _ => setWord_endsTable
    · exact rel_passes h.condition fun _ _ h => h.in_list.table
    · exact rel_passes h.groupBy fun _ _ h => h.passes.table
    · exact rel_passes h.having fun _ _ h => h.in_list.table
    · exact rel_passes h.orderBy fun _ _ h => h.passes.table
    · exact rel_passes h.limit fun _ _ h => h.in_list.table
    · exact rel_passes h.offset fun _ _ h => h.in_list.table

theorem DeleteTokens.Reads.one {s : DeleteTokens} {q : DeleteStmt τ φ} (h : s.Reads term ref q) :
    Passes isSetWord (clauseTokens s.clauses) := by
  refine passes_clauses ?_ ?_
  · simp only [DeleteTokens.clauses, List.forall_mem_cons]
    decide
  · simp only [DeleteTokens.clauses, List.forall_mem_cons]
    refine ⟨?_, fun ts => ?_, fun ts => ?_, fun ts => ?_, by rintro _ ⟨⟩⟩
    · rintro _ ⟨⟩
      refine h.table.passes.mono fun t ht => ?_
      obtain ⟨k, hk, hc⟩ := (Option.any_eq_true _ _).1 (setWord_endsTable ht)
      have hc : k.endsClause = true := by cases k <;> first | rfl | cases hc
      rw [endsTarget, hk, Option.any_some, hc, Bool.or_true, Bool.or_true]
    · exact rel_passes h.source fun _ _ h => h.passes
    · exact rel_passes h.condition fun _ _ h => h.in_list.table
    · exact rel_passes h.returning fun _ _ h => h.passes.table

/-! ## Spelling -/

def QueryStmt.isWith : QueryStmt τ φ → Bool
  | .with _ _ _ => true
  | _ => false

def QueryStmt.isDelete : QueryStmt τ φ → Bool
  | delete _ => true
  | _ => false

mutual

/-- The tokens of a whole query, or of what stands in one bracket. -/
inductive StmtSpelt (term : List Token → Option τ) (ref : List Token → Option φ) :
    List Token → QueryStmt τ φ → Prop
  | select {s : SelectTokens} {q : SelectStmt τ φ} (h : s.Reads term ref q) :
    StmtSpelt term ref (clauseTokens s.clauses) (.select q)
  | delete {s : DeleteTokens} {q : DeleteStmt τ φ} (h : s.Reads term ref q) :
    StmtSpelt term ref (clauseTokens s.clauses) (.delete q)
  | op {x y : List Token} {a b : QueryStmt τ φ} (kind : SetKind) (all : Bool)
    (ha : StmtSpelt term ref x a) (hb : StmtSpelt term ref y b) (hda : a.isDelete = false)
    (hdb : b.isDelete = false) :
    StmtSpelt term ref (bracketed x ++ (setTokens kind all ++ bracketed y)) (.op a kind all b)
  | with {x : List Token} {q : QueryStmt τ φ} (h : CtesSpelt term ref x q) :
    StmtSpelt term ref (Key.with.token :: x) q

/-- The tokens behind `WITH`, or behind the comma of a CTE. -/
inductive CtesSpelt (term : List Token → Option τ) (ref : List Token → Option φ) :
    List Token → QueryStmt τ φ → Prop
  | cte {name : Token} {x r : List Token} {q main : QueryStmt τ φ} (hn : isLabel name = true)
    (hx : StmtSpelt term ref x q) (hr : Continues term ref r main) :
    CtesSpelt term ref (name :: Key.as.token :: (bracketed x ++ r)) (.with name q main)

/-- The tokens behind a CTE. -/
inductive Continues (term : List Token → Option τ) (ref : List Token → Option φ) :
    List Token → QueryStmt τ φ → Prop
  | main {x : List Token} {q : QueryStmt τ φ} (h : StmtSpelt term ref x q)
    (hw : q.isWith = false) : Continues term ref x q
  | next {x : List Token} {q : QueryStmt τ φ} (h : CtesSpelt term ref x q) :
    Continues term ref (.punct ',' :: x) q

end

theorem plain_label {t : Token} (h : isLabel t = true) : isPlain t = true := by
  cases t <;> first | rfl | cases h

mutual

theorem StmtSpelt.closed : {ts : List Token} → {q : QueryStmt τ φ} → StmtSpelt term ref ts q →
    Closed ts
  | _, _, .select h => h.one.closed
  | _, _, .delete h => h.one.closed
  | _, _, .op kind all ha hb _ _ =>
    ha.closed.bracketed.append
      ((closed_const (by cases kind <;> cases all <;> decide)).append hb.closed.bracketed)
  | _, _, .with h => h.closed.cons (by decide)

theorem CtesSpelt.closed : {ts : List Token} → {q : QueryStmt τ φ} → CtesSpelt term ref ts q →
    Closed ts
  | _, _, .cte hn hx hr =>
    ((hx.closed.bracketed.append hr.closed).cons (by decide)).cons (plain_label hn)

theorem Continues.closed : {ts : List Token} → {q : QueryStmt τ φ} → Continues term ref ts q →
    Closed ts
  | _, _, .main h _ => h.closed
  | _, _, .next h => h.closed.cons (by decide)

end

/-- The first token tells a query that starts with `WITH`, and a DELETE, from the others. -/
theorem StmtSpelt.head (h : StmtSpelt term ref ts q) : ∃ t u, ts = t :: u ∧ t ≠ .punct ',' ∧
    (q.isWith = false → t.key ≠ some .with) ∧ (q.isDelete = false → t.key ≠ some .delete) := by
  cases h with
  | select h => exact ⟨_, _, rfl, by decide, fun _ => by decide, fun _ => by decide⟩
  | delete h => exact ⟨_, _, rfl, by decide, fun _ => by decide, by rintro ⟨⟩⟩
  | op => exact ⟨_, _, rfl, by decide, fun _ => by decide, fun _ => by decide⟩
  | «with» h =>
    refine ⟨_, _, rfl, by decide, ?_, fun _ => by decide⟩
    cases h
    rintro ⟨⟩

/-! ## Reading -/

/-- The tokens as a part of a set operation: `QueryExpr` has the query as its operand, or its
operands. -/
def PartReads (term : List Token → Option τ) (ref : List Token → Option φ) (ts : List Token)
    (q : QueryStmt τ φ) : Prop :=
  ∃ e, QuerySpelt ts e ∧ ∀ n, ts.length < n →
    e.resolve (readLeaf term ref (readStmtAux term ref n)) = some q

theorem resolve_op {leaf : List Token → Option (QueryStmt τ φ)} {e f : QueryExpr} (kind : SetKind)
    (all : Bool) (ha : e.resolve leaf = some a) (hb : f.resolve leaf = some b) :
    (QueryExpr.op e kind all f).resolve leaf = some (.op a kind all b) := by
  rw [QueryExpr.resolve, ha, hb]
  rfl

theorem behind_with (x : List Token) : behind [.with] (Key.with.token :: x) = some x :=
  behind_tokens [.with] x

theorem behind_as (x r : List Token) : behind [.as] (Key.as.token :: (bracketed x ++ r)) =
    some (.punct '(' :: (x ++ .punct ')' :: r)) := by
  have := behind_tokens [.as] (bracketed x ++ r)
  simpa [bracketed] using this

/-- A whole query that starts with neither `WITH` nor `DELETE`. -/
theorem readStmtAux_parts {n : Nat} {e : QueryExpr} (he : QuerySpelt ts e)
    (hw : ∀ t, ts.head? = some t → t.key ≠ some .with ∧ t.key ≠ some .delete)
    (h : e.resolve (readLeaf term ref (readStmtAux term ref n)) = some q) :
    readStmtAux term ref (n + 1) ts = some q := by
  have h1 : behind [.with] ts = none := behind_head fun t ht => (hw t ht).1
  have h2 : behind [.delete, .from] ts = none := behind_head fun t ht => (hw t ht).2
  rw [readStmtAux, h1, h2]
  simp only [readQuery_spelt he, Option.bind_eq_bind, Option.bind_some, h]

theorem select_part {s : SelectTokens} {q : SelectStmt τ φ} (h : s.Reads term ref q) :
    ∃ e, QuerySpelt (clauseTokens s.clauses) e ∧
      ∀ whole, e.resolve (readLeaf term ref whole) = some (.select q) := by
  refine ⟨_, .select h.one, fun whole => ?_⟩
  have hw : behind [.with] (clauseTokens s.clauses) = none := behind_head fun t ht => by
    cases ht
    decide
  have hread := readSelect_tokens h
  change readLeaf term ref whole (clauseTokens s.clauses) = _
  rw [readLeaf, hw, hread]
  rfl

mutual

theorem StmtSpelt.part : {ts : List Token} → {q : QueryStmt τ φ} → StmtSpelt term ref ts q →
    q.isDelete = false → PartReads term ref ts q
  | _, _, .select h, _ => by
    obtain ⟨e, he, hr⟩ := select_part h
    exact ⟨e, he, fun n _ => hr _⟩
  | _, _, .op kind all ha hb hda hdb, _ => by
    obtain ⟨e, he, hr⟩ := ha.part hda
    obtain ⟨f, hf, hs⟩ := hb.part hdb
    refine ⟨_, .op kind all he hf, fun n hn => ?_⟩
    simp only [bracketed, List.length_append, List.length_cons] at hn
    exact resolve_op kind all (hr n (by omega)) (hs n (by omega))
  | _, _, .with h, _ => by
    refine ⟨_, .with h.closed, fun n hn => ?_⟩
    obtain ⟨m, rfl⟩ : ∃ m, n = m + 1 := ⟨n - 1, by omega⟩
    rw [QueryExpr.resolve, readLeaf, behind_with]
    simp only [readStmtAux, behind_with]
    exact h.reads m (by simpa using hn)

/-- **A query is read as it was spelt**, given a step for each token. -/
theorem StmtSpelt.reads : {ts : List Token} → {q : QueryStmt τ φ} → StmtSpelt term ref ts q →
    (n : Nat) → ts.length < n → readStmtAux term ref n ts = some q
  | _, _, .select h, n + 1, _ => by
    obtain ⟨e, he, hr⟩ := select_part h
    refine readStmtAux_parts he (fun t ht => ?_) (hr _)
    cases ht
    exact ⟨by decide, by decide⟩
  | _, _, .delete (s := s) h, n + 1, _ => by
    have hw : behind [.with] (clauseTokens s.clauses) = none := behind_head fun t ht => by
      cases ht
      decide
    obtain ⟨r, hd⟩ : ∃ r, behind [.delete, .from] (clauseTokens s.clauses) = some r :=
      ⟨_, behind_tokens [.delete, .from] _⟩
    rw [readStmtAux, hw, hd]
    simp only [readDelete_tokens h, Option.map_some]
  | _, _, .op kind all ha hb hda hdb, n + 1, hn => by
    obtain ⟨e, he, hr⟩ := ha.part hda
    obtain ⟨f, hf, hs⟩ := hb.part hdb
    simp only [bracketed, List.length_append, List.length_cons] at hn
    refine readStmtAux_parts (.op kind all he hf) (fun t ht => ?_)
      (resolve_op kind all (hr n (by omega)) (hs n (by omega)))
    cases ht
    exact ⟨by decide, by decide⟩
  | _, _, .with h, n + 1, hn => by
    rw [readStmtAux, behind_with]
    exact h.reads n (by simpa using hn)

theorem CtesSpelt.reads : {ts : List Token} → {q : QueryStmt τ φ} → CtesSpelt term ref ts q →
    (n : Nat) → ts.length < n → readCtes term ref n ts = some q
  | _, _, .cte hn hx (.main h hw), n + 1, hlen => by
    simp only [bracketed, List.length_append, List.length_cons] at hlen
    obtain ⟨t, u, rfl, hcomma, hwith, -⟩ := h.head
    have hmain : behind [.with] (t :: u) = none := behind_head fun x hx => by
      cases hx
      exact hwith hw
    rw [readCtes, hn, behind_as]
    rw [List.length_cons] at hlen
    have hread := h.reads n (by rw [List.length_cons]; omega)
    simp only [hx.closed.upTo, hx.reads n (by omega), Option.bind_eq_bind, Option.bind_some]
    split
    · rename_i he
      cases he
      exact absurd rfl hcomma
    · simp only [hmain, hread, Option.map_some]
  | _, _, .cte hn hx (.next h), n + 1, hlen => by
    simp only [bracketed, List.length_append, List.length_cons] at hlen
    rw [readCtes, hn, behind_as]
    simp only [hx.closed.upTo, hx.reads n (by omega), h.reads n (by omega),
      Option.bind_eq_bind, Option.bind_some, Option.map_some]

end

/-- **A query is read as it was spelt**: the clauses of every SELECT, the tree of the set operations,
and every CTE with its own query. -/
theorem readStmt_spelt (h : StmtSpelt term ref ts q) : readStmt term ref ts = some q :=
  h.reads _ (Nat.lt_succ_self _)

theorem goesOn_set (kind : SetKind) (all : Bool) (r : List Token) :
    goesOn (setTokens kind all ++ r) = true := by
  cases kind <;> rfl

theorem QuerySpelt.isQuery {e : QueryExpr} (h : QuerySpelt ts e) : isQuery ts = true := by
  induction h with
  | select => rfl
  | «with» => rfl
  | op kind all hx _ ihx _ => rw [isQuery_bracketed hx.closed, ihx, goesOn_set, Bool.true_and]

/-- What may stand in a bracket as a query. -/
theorem StmtSpelt.query (h : StmtSpelt term ref ts q) (hd : q.isDelete = false) : Query ts := by
  obtain ⟨e, he, -⟩ := h.part hd
  exact ⟨h.closed, he.isQuery⟩

end

end Pg
