import IronQuery.Proof.ClauseOrder
import IronQuery.Proof.TableRead

/-!
# A SELECT is read back

`SelectSpells s q`: every clause that the builder `s` holds spells the clause of the statement `q`.
One call keeps it (`select_step_spells`), so a run that starts with `From` has it of the statement that is
meant (`select_spells`), and the two texts are then read as that statement, clause by clause
(`SelectSpells.reads`, `select_read_back`).
-/

namespace IronQuery

open Pg SelectExpr

/-- The terms of the call are read as what they mean, and its list is not empty. -/
def SelectStep.Sound : SelectStep → Prop
  | distinct | limit _ | offset _ => True
  | distinctOn exps | groupBy exps => SoundList Tree.Sound exps
  | select items => SoundList ItemTree.Sound items
  | .where exp | having exp => exp.Sound
  | orderBy terms => SoundList (fun t => t.expr.Sound) terms

instance decidableSelectStepSound : (step : SelectStep) → Decidable step.Sound
  | .distinct | .limit _ | .offset _ => inferInstanceAs (Decidable True)
  | .distinctOn exps | .groupBy exps => inferInstanceAs (Decidable (SoundList Tree.Sound exps))
  | .select items => inferInstanceAs (Decidable (SoundList ItemTree.Sound items))
  | .where exp | .having exp => inferInstanceAs (Decidable exp.Sound)
  | .orderBy terms => inferInstanceAs (Decidable (SoundList (fun t => t.expr.Sound) terms))

/-- Every clause of the builder spells that of the statement. -/
structure SelectSpells (s : SelectExpr) (q : SelectStmt Sql (TableRef Sql)) : Prop where
  source : ∃ ts, Reads lex s.from_ ts ∧ Tables (readRef readTerm) ts q.source
  plain : s.distinctOn_ = none → q.distinct = if s.distinct_ then .distinct else .all
  on : ∀ es, s.distinctOn_ = some es → ∃ as, Entries readTerm Expr.toString es as ∧
    (s.distinct_ = false → q.distinct = .on as)
  items : ∀ l, s.select_ = some l → Entries (readItem readTerm) SelectItem.toString l q.items
  condition : Option.Rel (fun c a => Spells readTerm c.toString a) s.where_ q.condition
  groupBy : Option.Rel (Entries readTerm Expr.toString) s.groupBy_ q.groupBy
  having : Option.Rel (fun c a => Spells readTerm c.toString a) s.having_ q.having
  orderBy : Option.Rel (Entries (readSort readTerm) OrderByTerm.render) s.orderBy_ q.orderBy
  limit : Option.Rel (fun n a => Spells readTerm (intToString n) a) s.limit_ q.limit
  offset : Option.Rel (fun n a => Spells readTerm (intToString n) a) s.offset_ q.offset

/-! ## Runs -/

theorem exprs_entries {l : List Tree} {es : List Expr} (h : buildAll Tree.build l = .ok es)
    (hs : SoundList Tree.Sound l) : Entries readTerm Expr.toString es (l.map Tree.toSql) :=
  built_entries h hs fun _ _ ht he => ht.spells he

theorem items_entries {l : List ItemTree} {is : List SelectItem}
    (h : buildAll ItemTree.build l = .ok is) (hs : SoundList ItemTree.Sound l) :
    Entries (readItem readTerm) SelectItem.toString is (l.map ItemTree.meant) :=
  built_entries h hs fun _ _ ht he => ht.spells he

theorem condition_spells {t : Tree} {c : Condition} (h : t.condition = .ok c) (hs : t.Sound) :
    Spells readTerm c.toString t.toSql := by
  simp only [Tree.condition, bind_ok, pure_ok] at h
  obtain ⟨e, he, rfl⟩ := h
  exact hs.spells he

/-- **One call of a setter** does to the builder what it means for the statement. -/
theorem select_step_spells {step : SelectStep} {c : SelectCall} {s s' : SelectExpr}
    {q : SelectStmt Sql (TableRef Sql)} (hs : step.Sound) (hc : step.call = .ok c)
    (ha : (c.apply s).result = .ok s') (h : SelectSpells s q) : SelectSpells s' (step.meant q) := by
  obtain ⟨-, -, rfl⟩ := select_setter.put_of_accepted (accepted_of_result ha)
  cases step with
  | distinct =>
    cases hc
    refine ⟨h.source, fun _ => rfl, fun es hes => ?_, h.items, h.condition, h.groupBy, h.having,
      h.orderBy, h.limit, h.offset⟩
    obtain ⟨as, has, -⟩ := h.on es hes
    exact ⟨as, has, by rintro ⟨⟩⟩
  | distinctOn exps =>
    simp only [SelectStep.call, bind_ok, pure_ok] at hc
    obtain ⟨es, hes, rfl⟩ := hc
    refine ⟨h.source, by rintro ⟨⟩, ?_, h.items, h.condition, h.groupBy, h.having, h.orderBy,
      h.limit, h.offset⟩
    rintro _ ⟨⟩
    exact ⟨_, exprs_entries hes hs, fun _ => rfl⟩
  | select items =>
    simp only [SelectStep.call, bind_ok, pure_ok] at hc
    obtain ⟨is, his, rfl⟩ := hc
    refine ⟨h.source, h.plain, h.on, ?_, h.condition, h.groupBy, h.having, h.orderBy, h.limit,
      h.offset⟩
    rintro _ ⟨⟩
    exact items_entries his hs
  | «where» exp =>
    simp only [SelectStep.call, bind_ok, pure_ok] at hc
    obtain ⟨b, hb, rfl⟩ := hc
    exact ⟨h.source, h.plain, h.on, h.items, .some (condition_spells hb hs), h.groupBy, h.having,
      h.orderBy, h.limit, h.offset⟩
  | groupBy exps =>
    simp only [SelectStep.call, bind_ok, pure_ok] at hc
    obtain ⟨es, hes, rfl⟩ := hc
    exact ⟨h.source, h.plain, h.on, h.items, h.condition, .some (exprs_entries hes hs), h.having,
      h.orderBy, h.limit, h.offset⟩
  | having exp =>
    simp only [SelectStep.call, bind_ok, pure_ok] at hc
    obtain ⟨b, hb, rfl⟩ := hc
    exact ⟨h.source, h.plain, h.on, h.items, h.condition, h.groupBy,
      .some (condition_spells hb hs), h.orderBy, h.limit, h.offset⟩
  | orderBy terms =>
    simp only [SelectStep.call, bind_ok, pure_ok] at hc
    obtain ⟨ts, hts, rfl⟩ := hc
    exact ⟨h.source, h.plain, h.on, h.items, h.condition, h.groupBy, h.having,
      .some (built_entries hts hs fun _ _ ht he => SortTree.spells ht he), h.limit,
      h.offset⟩
  | limit n =>
    cases hc
    exact ⟨h.source, h.plain, h.on, h.items, h.condition, h.groupBy, h.having, h.orderBy,
      .some (int_spells n), h.offset⟩
  | offset n =>
    cases hc
    exact ⟨h.source, h.plain, h.on, h.items, h.condition, h.groupBy, h.having, h.orderBy, h.limit,
      .some (int_spells n)⟩

/-- What a run keeps that every step keeps. -/
theorem runSteps_inv {κ γ σ μ : Type} {call : κ → Result γ} {apply : γ → σ → Outcome σ}
    {meant : κ → μ → μ} {inv : σ → μ → Prop} {ok : κ → Prop}
    (hstep : ∀ k c s s' q, ok k → call k = .ok c → (apply c s).result = .ok s' → inv s q →
      inv s' (meant k q)) :
    {steps : List κ} → {s s' : σ} → {q : μ} → (∀ k ∈ steps, ok k) →
      runSteps call apply steps s = .ok s' → inv s q →
      inv s' (steps.foldl (fun q k => meant k q) q)
  | [], _, _, _, _, h, hi => by
    cases h
    exact hi
  | k :: steps, _, _, _, hok, h, hi => by
    simp only [runSteps, bind_ok] at h
    obtain ⟨c, hc, s₁, ha, h⟩ := h
    rw [List.foldl_cons]
    exact runSteps_inv hstep (fun x hx => hok x (.tail _ hx)) h
      (hstep k c _ _ _ (hok k (.head _)) hc ha hi)

theorem select_spells {source : TableTree} {steps : List SelectStep} {s : SelectExpr}
    (hsource : source.Sound) (hsteps : ∀ k ∈ steps, k.Sound)
    (h : buildSelect source steps = .ok s) : SelectSpells s (meantSelect source steps) := by
  simp only [buildSelect, bind_ok] at h
  obtain ⟨v, hv, s₀, hnew, hrun⟩ := h
  simp only [SelectExpr.fromTable, bind_ok, pure_ok] at hnew
  obtain ⟨x, hx, rfl⟩ := hnew
  refine runSteps_inv (fun _ _ _ _ _ => select_step_spells) hsteps hrun ?_
  exact ⟨source.tables hsource hv hx, fun _ => rfl, by rintro _ ⟨⟩, by rintro _ ⟨⟩, .none, .none,
    .none, .none, .none, .none⟩

/-! ## The texts -/

/-- Every term and the tables of the SELECT are whole texts, no term is empty. -/
structure SelectExpr.Whole (s : SelectExpr) : Prop where
  from_ : Pg.Whole s.from_
  on : ∀ l, s.distinctOn_ = some l → ∀ x ∈ l.map Expr.toString, x ≠ [] ∧ Pg.Whole x
  items : ∀ l, s.select_ = some l → ∀ x ∈ l.map SelectItem.toString, x ≠ [] ∧ Pg.Whole x
  condition : ∀ c, s.where_ = some c → Pg.Whole c.toString
  groupBy : ∀ l, s.groupBy_ = some l → ∀ x ∈ l.map Expr.toString, x ≠ [] ∧ Pg.Whole x
  having : ∀ c, s.having_ = some c → Pg.Whole c.toString
  orderBy : ∀ l, s.orderBy_ = some l → ∀ x ∈ l.map OrderByTerm.render, x ≠ [] ∧ Pg.Whole x

/-- The tokens of a SELECT, clause by clause. -/
def SelectExpr.tokens (s : SelectExpr) : SelectTokens where
  distinct := match s.distinctOn_ with
    | some l => Key.distinct.token :: Key.on.token :: bracketed (csvTokens (l.map Expr.toString))
    | none => if s.distinct_ then [Key.distinct.token] else []
  items := csvTokens ((s.select_.getD []).map SelectItem.toString)
  source := lex s.from_
  condition := s.where_.map fun c => lex c.toString
  groupBy := s.groupBy_.map fun l => csvTokens (l.map Expr.toString)
  having := s.having_.map fun c => lex c.toString
  orderBy := s.orderBy_.map fun l => csvTokens (l.map OrderByTerm.render)
  limit := s.limit_.map fun n => lex (intToString n)
  offset := s.offset_.map fun n => lex (intToString n)

section
variable {s : SelectExpr}

/-- `SELECT` and its `DISTINCT`. -/
theorem SelectExpr.Whole.head (h : s.Whole) (hd : s.distinct_ = true → s.distinctOn_ = none) :
    Opens lex ("SELECT ".toList ++ [.distinct, .distinctOn].flatMap (SelectClause.text · s))
        (Key.select.token :: s.tokens.distinct) ∧
      Opens lex ("SELECT".toList ++
        [.distinct, .distinctOn].flatMap (SelectClause.textFormatted · s) ++ "\n".toList)
        (Key.select.token :: s.tokens.distinct) := by
  simp only [List.flatMap_cons, List.flatMap_nil, List.append_nil, SelectClause.text,
    SelectClause.textFormatted, SelectExpr.tokens]
  cases hon : s.distinctOn_ with
  | none =>
    cases s.distinct_ with
    | false => exact ⟨opens_const (by decide) (by decide), opens_const (by decide) (by decide)⟩
    | true => exact ⟨opens_const (by decide) (by decide), opens_const (by decide) (by decide)⟩
  | some l =>
    have hf : s.distinct_ = false := by
      cases ht : s.distinct_ with
      | false => rfl
      | true => rw [hd ht] at hon; cases hon
    have hr := (csv_reads (h.on l hon)).1
    have hopen : Opens lex "SELECT DISTINCT ON (".toList
        [Key.select.token, Key.distinct.token, Key.on.token, .punct '('] :=
      opens_const (by decide) (by decide)
    have hspace : Opens lex ") ".toList [.punct ')'] := opens_const (by decide) (by decide)
    have hline : Opens lex ")\n".toList [.punct ')'] := opens_const (by decide) (by decide)
    rw [hf]
    refine ⟨hopen.append (hr.opens (by rfl) hspace), ?_⟩
    have := hopen.append (hr.opens (by rfl) hline)
    simpa [clause, bracketed] using this

theorem term_trails {β : Type} {text : β → Text} {o : Option β} {m : List Key} {j k : Text}
    (hk : Connector k (m.map Key.token)) (hj : Connector j (m.map Key.token))
    (h : ∀ c, o = some c → Pg.Whole (text c)) :
    Trails (clause (fun b => k ++ text b) o) (clauseTokens [(m, o.map fun b => lex (text b))]) ∧
      Trails (clause (fun b => j ++ text b) o) (clauseTokens [(m, o.map fun b => lex (text b))]) :=
  clause_trails hk hj fun c hc => ⟨h c hc, h c hc⟩

theorem list_trails {β : Type} {text : β → Text} {o : Option (List β)} {m : List Key}
    {j k : Text} (hk : Connector k (m.map Key.token)) (hj : Connector j (m.map Key.token))
    (h : ∀ l, o = some l → ∀ x ∈ l.map text, x ≠ [] ∧ Pg.Whole x) :
    Trails (clause (fun l => k ++ joinCsv (l.map text)) o)
        (clauseTokens [(m, o.map fun l => csvTokens (l.map text))]) ∧
      Trails (clause (fun l => j ++ joinCsvIndented (l.map text)) o)
        (clauseTokens [(m, o.map fun l => csvTokens (l.map text))]) :=
  clause_trails hk hj fun l hl => csv_reads (h l hl)

theorem int_whole (n : Int) : Pg.Whole (intToString n) := (int_spells n).whole

/-- The clauses behind the tables, in both formats. -/
theorem SelectExpr.Whole.tail (h : s.Whole) :
    Trails ([.where, .groupBy, .having, .orderBy, .limit, .offset].flatMap
      (SelectClause.text · s)) (clauseTokens (s.tokens.clauses.drop 2)) ∧
    Trails ([.where, .groupBy, .having, .orderBy, .limit, .offset].flatMap
      (SelectClause.textFormatted · s)) (clauseTokens (s.tokens.clauses.drop 2)) := by
  obtain ⟨hw, hw'⟩ := term_trails (m := [.where]) (k := " WHERE ".toList)
    (j := "\nWHERE\n    ".toList) (connector_const (fun _ => rfl) (by decide) (by decide))
    (connector_const (fun _ => rfl) (by decide) (by decide)) h.condition
  obtain ⟨hg, hg'⟩ := list_trails (m := [.group, .by]) (k := " GROUP BY ".toList)
    (j := "\nGROUP BY\n".toList) (connector_const (fun _ => rfl) (by decide) (by decide))
    (connector_const (fun _ => rfl) (by decide) (by decide)) h.groupBy
  obtain ⟨hh, hh'⟩ := term_trails (m := [.having]) (k := " HAVING ".toList)
    (j := "\nHAVING\n    ".toList) (connector_const (fun _ => rfl) (by decide) (by decide))
    (connector_const (fun _ => rfl) (by decide) (by decide)) h.having
  obtain ⟨ho, ho'⟩ := list_trails (m := [.order, .by]) (k := " ORDER BY ".toList)
    (j := "\nORDER BY\n".toList) (connector_const (fun _ => rfl) (by decide) (by decide))
    (connector_const (fun _ => rfl) (by decide) (by decide)) h.orderBy
  obtain ⟨hl, hl'⟩ := term_trails (m := [.limit]) (k := " LIMIT ".toList)
    (j := "\nLIMIT\n    ".toList) (connector_const (fun _ => rfl) (by decide) (by decide))
    (connector_const (fun _ => rfl) (by decide) (by decide)) (o := s.limit_) fun n _ => int_whole n
  obtain ⟨hf, hf'⟩ := term_trails (m := [.offset]) (k := " OFFSET ".toList)
    (j := "\nOFFSET\n    ".toList) (connector_const (fun _ => rfl) (by decide) (by decide))
    (connector_const (fun _ => rfl) (by decide) (by decide)) (o := s.offset_) fun n _ => int_whole n
  simp only [List.flatMap_cons, List.flatMap_nil]
  exact ⟨hw.clauses (hg.clauses (hh.clauses (ho.clauses (hl.clauses (hf.clauses .nil))))),
    hw'.clauses (hg'.clauses (hh'.clauses (ho'.clauses (hl'.clauses (hf'.clauses .nil)))))⟩

theorem select_pieces {items : List SelectItem} {x : Text} (hsel : s.select_ = some items)
    (h : s.toString = .ok x) :
    x = ("SELECT ".toList ++ [.distinct, .distinctOn].flatMap (SelectClause.text · s)) ++
      (joinCsv (items.map SelectItem.toString) ++ ((" FROM ".toList ++ s.from_) ++
        [.where, .groupBy, .having, .orderBy, .limit, .offset].flatMap
          (SelectClause.text · s))) := by
  have hitems : SelectClause.select.text s = joinCsv (items.map SelectItem.toString) := by
    rw [SelectClause.text, hsel, clause]
  rw [select_toString h]
  simp only [List.flatMap_cons, List.flatMap_nil, List.append_nil, hitems, List.append_assoc]

theorem select_piecesFormatted {items : List SelectItem} {x : Text}
    (hsel : s.select_ = some items) (h : s.toStringFormatted = .ok x) :
    x = ("SELECT".toList ++ [.distinct, .distinctOn].flatMap (SelectClause.textFormatted · s) ++
        "\n".toList) ++ (joinCsvIndented (items.map SelectItem.toString) ++
          (("\nFROM\n    ".toList ++ s.from_) ++
            [.where, .groupBy, .having, .orderBy, .limit, .offset].flatMap
              (SelectClause.textFormatted · s))) := by
  have hitems : SelectClause.select.textFormatted s =
      joinCsvIndented (items.map SelectItem.toString) := by
    rw [SelectClause.textFormatted, hsel, clause]
  rw [select_toStringFormatted h]
  simp only [List.flatMap_cons, List.flatMap_nil, List.append_nil, hitems, List.append_assoc]

/-- **Both texts are read as the clauses of the builder.** -/
theorem SelectExpr.Whole.reads (h : s.Whole) {items : List SelectItem}
    (hv : s.ensureValid = .ok items) :
    (∀ x, s.toString = .ok x → Reads lex x (clauseTokens s.tokens.clauses)) ∧
      ∀ x, s.toStringFormatted = .ok x → Reads lex x (clauseTokens s.tokens.clauses) := by
  obtain ⟨hsel, hd⟩ := ensureValid_ok hv
  obtain ⟨hhead, hhead'⟩ := h.head hd
  obtain ⟨hitems, hitems'⟩ := csv_reads (h.items items hsel)
  obtain ⟨htail, htail'⟩ := h.tail
  have hfrom : Connector " FROM ".toList [Key.from.token] :=
    connector_const (fun _ => rfl) (by decide) (by decide)
  have hfrom' : Connector "\nFROM\n    ".toList [Key.from.token] :=
    connector_const (fun _ => rfl) (by decide) (by decide)
  have htokens : clauseTokens s.tokens.clauses = (Key.select.token :: s.tokens.distinct) ++
      (csvTokens (items.map SelectItem.toString) ++ (([Key.from.token] ++ lex s.from_) ++
        clauseTokens (s.tokens.clauses.drop 2))) := by
    simp [clauseTokens, SelectTokens.clauses, SelectExpr.tokens, hsel]
  rw [htokens]
  constructor
  · intro x hx
    rw [select_pieces hsel hx]
    exact hhead.reads (hitems.trails ((hfrom.trails h.from_).append htail))
  · intro x hx
    rw [select_piecesFormatted hsel hx]
    exact hhead'.reads (hitems'.trails ((hfrom'.trails h.from_).append htail'))

/-- **The two texts of a SELECT are the same SQL**: whatever clauses it has, and whatever stands in
its terms, it throws in both or both have the same tokens. -/
theorem select_formats_agree (s : SelectExpr) (h : s.Whole) :
    lex <$> s.toString = lex <$> s.toStringFormatted := by
  cases hv : s.ensureValid with
  | error e =>
    have h1 : s.toString = .error e := by rw [SelectExpr.toString, hv]; rfl
    have h2 : s.toStringFormatted = .error e := by rw [SelectExpr.toStringFormatted, hv]; rfl
    rw [h1, h2]
  | ok items =>
    obtain ⟨hr, hr'⟩ := h.reads hv
    obtain ⟨x, hx⟩ : ∃ x, s.toString = .ok x := by
      rw [SelectExpr.toString, hv]
      exact ⟨_, rfl⟩
    obtain ⟨y, hy⟩ : ∃ y, s.toStringFormatted = .ok y := by
      rw [SelectExpr.toStringFormatted, hv]
      exact ⟨_, rfl⟩
    rw [hx, hy]
    exact congrArg Except.ok (((hr x hx).lex_eq).trans ((hr' y hy).lex_eq).symm)

end

/-- A literal with a line break, as `Select{a}.Where(b)` holds it. -/
theorem select_formats_agree_lines :
    let s : SelectExpr := {
      from_ := "t".toList
      select_ := some [⟨"a".toList⟩]
      limit_ := some (-3)
      where_ := some (.fromRaw "b = 'FROM\n  u'".toList) }
    s.Whole ∧ lex <$> s.toString = lex <$> s.toStringFormatted := by
  intro s
  have hs : s.Whole := by
    refine ⟨reads_const (by decide) (by decide), by rintro _ ⟨⟩, ?_, ?_, by rintro _ ⟨⟩,
      by rintro _ ⟨⟩, by rintro _ ⟨⟩⟩
    · rintro _ ⟨⟩ x hx
      rcases List.mem_singleton.1 hx with rfl
      exact ⟨by decide, reads_const (by decide) (by decide)⟩
    · rintro _ ⟨⟩
      exact reads_const (by decide) (by decide)
  exact ⟨hs, select_formats_agree s hs⟩

/-! ## Reading back -/

section
variable {s : SelectExpr} {q : SelectStmt Sql (TableRef Sql)}

theorem SelectSpells.whole (h : SelectSpells s q) : s.Whole where
  from_ := by
    obtain ⟨ts, hr, -⟩ := h.source
    exact hr.whole
  on l hl := by
    obtain ⟨as, has, -⟩ := h.on l hl
    exact has.texts
  items l hl := (h.items l hl).texts
  condition c hc := by
    obtain ⟨a, -, ha⟩ := rel_some h.condition hc
    exact ha.whole
  groupBy l hl := by
    obtain ⟨a, -, ha⟩ := rel_some h.groupBy hl
    exact ha.texts
  having c hc := by
    obtain ⟨a, -, ha⟩ := rel_some h.having hc
    exact ha.whole
  orderBy l hl := by
    obtain ⟨a, -, ha⟩ := rel_some h.orderBy hl
    exact ha.texts

theorem SelectSpells.distinct (h : SelectSpells s q)
    (hd : s.distinct_ = true → s.distinctOn_ = none) :
    DistinctReads readTerm s.tokens.distinct q.distinct := by
  simp only [SelectExpr.tokens]
  cases hon : s.distinctOn_ with
  | none =>
    rw [h.plain hon]
    cases s.distinct_ with
    | false => exact .all
    | true => exact .distinct
  | some l =>
    obtain ⟨as, has, hq⟩ := h.on l hon
    have hf : s.distinct_ = false := by
      cases ht : s.distinct_ with
      | false => rfl
      | true => rw [hd ht] at hon; cases hon
    rw [hq hf]
    exact .on has.tokens.2

/-- The clauses of the builder are read as those of the statement. -/
theorem SelectSpells.reads (h : SelectSpells s q) {items : List SelectItem}
    (hv : s.ensureValid = .ok items) : s.tokens.Reads readTerm (readRef readTerm) q := by
  obtain ⟨hsel, hd⟩ := ensureValid_ok hv
  have hitems : Opening s.tokens.items ∧ Listing (readItem readTerm) s.tokens.items q.items := by
    have := (h.items items hsel).tokens
    simpa only [SelectExpr.tokens, hsel, Option.getD_some] using this
  obtain ⟨_, hr, ht⟩ := h.source
  obtain rfl := hr.lex_eq
  have hterm {β : Type} {text : β → Text} {o : Option β} {a : Option Sql}
      (h : Option.Rel (fun c a => Spells readTerm (text c) a) o a) :
      Option.Rel (Entry readTerm) (o.map fun c => lex (text c)) a :=
    rel_map h fun _ _ hs => hs.entry
  have hlist {α β : Type} {rd : List Token → Option α} {text : β → Text} {o : Option (List β)}
      {a : Option (List α)} (h : Option.Rel (Entries rd text) o a) :
      Option.Rel (Listing rd) (o.map fun l => csvTokens (l.map text)) a :=
    rel_map h fun _ _ hs => hs.tokens.2
  exact {
    distinct := h.distinct hd
    items := hitems.2
    opening := hitems.1
    source := ht
    condition := hterm h.condition
    groupBy := hlist h.groupBy
    having := hterm h.having
    orderBy := hlist h.orderBy
    limit := hterm h.limit
    offset := hterm h.offset }

theorem valid_of_toString {x : Text} (h : s.toString = .ok x) :
    ∃ items, s.ensureValid = .ok items := by
  simp only [SelectExpr.toString, bind_ok] at h
  obtain ⟨items, hv, -⟩ := h
  exact ⟨items, hv⟩

/-- **A rendered SELECT is read back as the query that was built**: after any run of setters that
none of the calls ends, the text holds exactly the clauses that were set, each with its terms in
their order, with every label, direction and integer, and with the tables that were given. -/
theorem select_read_back (source : TableTree) (steps : List SelectStep) (s : SelectExpr) (x : Text)
    (hsource : source.Sound) (hsteps : ∀ step ∈ steps, step.Sound)
    (h : buildSelect source steps = .ok s) (hx : s.toString = .ok x) :
    readSelect readTerm (readRef readTerm) (lex x) = some (meantSelect source steps) := by
  have hs := select_spells hsource hsteps h
  obtain ⟨items, hv⟩ := valid_of_toString hx
  rw [((hs.whole.reads hv).1 x hx).lex_eq]
  exact readSelect_tokens (hs.reads hv)

end

/-- `SELECT DISTINCT a AS x, b IS DISTINCT FROM $1 FROM t AS u WHERE c = 'FROM' ORDER BY a DESC
NULLS LAST LIMIT 10`, built with its clauses in another order. -/
theorem select_read_back_order :
    let source : TableTree := .alias (.named "t".toList none) "u".toList
    let steps : List SelectStep := [.limit 10,
      .orderBy [⟨.column "a".toList, .kDescending, .kLast⟩], .distinct,
      .where (.compare .eq (.column "c".toList) (.literal "FROM".toList)),
      .select [⟨.column "a".toList, some "x".toList⟩,
        ⟨.distinctFrom false (.column "b".toList) (.placeholder 0), none⟩]]
    ∃ s x, buildSelect source steps = .ok s ∧ s.toString = .ok x ∧
      x = ("SELECT DISTINCT a AS x, b IS DISTINCT FROM $1 FROM t AS u WHERE c = 'FROM' " ++
        "ORDER BY a DESC NULLS LAST LIMIT 10").toList ∧
      readSelect readTerm (readRef readTerm) (lex x) = some (meantSelect source steps) :=
  ⟨_, _, rfl, rfl, by decide, select_read_back _ _ _ _ (by decide) (by decide) rfl rfl⟩

end IronQuery
