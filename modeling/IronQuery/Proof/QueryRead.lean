import IronQuery.Pg.Proof.Queries
import IronQuery.Proof.ChangeRead

/-!
# Queries over queries are read back

`QueryTree.spelt`: the text of a query that is built of SELECTs, DELETEs, set operations and `With`,
in any nesting, is spelt as the query that is meant, by induction on the tree. So the text is read as
that query (`query_read_back`), and the query may stand in any term or table of another one
(`query_nests`).
-/

namespace IronQuery

open Pg

/-! ## Sound queries -/

def QueryTree.isDelete : QueryTree → Bool
  | delete _ _ => true
  | _ => false

def QueryTree.isWith : QueryTree → Bool
  | .with _ _ => true
  | _ => false

/-- A name without dots that is no key word. -/
def isCteName (name : Text) : Bool := isPlainIdentifier name && isName name

mutual

/-- The parts are read as what they mean; no DELETE is an operand of a set operation, and no main
query has a `WITH` of its own. -/
def QueryTree.Sound : QueryTree → Prop
  | .select source steps => source.Sound ∧ ∀ step ∈ steps, step.Sound
  | .delete table steps => table.Sound ∧ ∀ step ∈ steps, step.Sound
  | .setOp a b _ => (a.isDelete = false ∧ b.isDelete = false) ∧ a.Sound ∧ b.Sound
  | .with ctes main => main.isWith = false ∧ ctes.Sound ∧ main.Sound

def CteTree.Sound : CteTree → Prop
  | .start name query => isCteName name = true ∧ query.Sound
  | .next before name query => isCteName name = true ∧ before.Sound ∧ query.Sound

end

mutual

instance decidableQueryTreeSound : (t : QueryTree) → Decidable t.Sound
  | .select source steps => inferInstanceAs (Decidable (source.Sound ∧ ∀ step ∈ steps, step.Sound))
  | .delete table steps => inferInstanceAs (Decidable (table.Sound ∧ ∀ step ∈ steps, step.Sound))
  | .setOp a b _ =>
    have := decidableQueryTreeSound a
    have := decidableQueryTreeSound b
    inferInstanceAs (Decidable ((_ ∧ _) ∧ a.Sound ∧ b.Sound))
  | .with ctes main =>
    have := decidableCteTreeSound ctes
    have := decidableQueryTreeSound main
    inferInstanceAs (Decidable (_ ∧ ctes.Sound ∧ main.Sound))

instance decidableCteTreeSound : (c : CteTree) → Decidable c.Sound
  | .start _ query =>
    have := decidableQueryTreeSound query
    inferInstanceAs (Decidable (_ ∧ query.Sound))
  | .next before _ query =>
    have := decidableCteTreeSound before
    have := decidableQueryTreeSound query
    inferInstanceAs (Decidable (_ ∧ before.Sound ∧ query.Sound))

end

/-! ## What is built -/

section
variable {t : QueryTree} {v : VirtualTable} {x : Text}

/-- A built query is no table: in brackets it is its text in brackets. -/
theorem QueryTree.bracketed_eq (h : t.build = .ok v) : v.toStringBracketed = do
    let s ← v.toString
    return "(".toList ++ s ++ ")".toList := by
  cases t with
  | select source steps =>
    simp only [QueryTree.build, bind_ok, pure_ok] at h
    obtain ⟨_, -, rfl⟩ := h
    rfl
  | delete table steps =>
    simp only [QueryTree.build, bind_ok, pure_ok] at h
    obtain ⟨_, -, rfl⟩ := h
    rfl
  | setOp a b kind =>
    simp only [QueryTree.build, bind_ok, pure_ok] at h
    obtain ⟨_, -, _, -, _, -, rfl⟩ := h
    rfl
  | «with» ctes main =>
    simp only [QueryTree.build, bind_ok, pure_ok] at h
    obtain ⟨_, -, _, -, _, -, rfl⟩ := h
    rfl

theorem QueryTree.bracketed (h : t.build = .ok v) (hx : v.toStringBracketed = .ok x) :
    ∃ y, v.toString = .ok y ∧ x = '(' :: (y ++ [')']) := by
  rw [QueryTree.bracketed_eq h] at hx
  simp only [bind_ok, pure_ok] at hx
  obtain ⟨y, hy, rfl⟩ := hx
  exact ⟨y, hy, rfl⟩

theorem CteTree.around_with : (c : CteTree) → (q : QueryStmt Sql (TableRef Sql)) →
    ∃ name a b, c.around q = .with name a b
  | .start name query, q => ⟨_, _, _, by rw [CteTree.around]⟩
  | .next before name query, q => by
    rw [CteTree.around]
    exact before.around_with _

theorem QueryTree.meant_delete (h : t.isDelete = false) : t.meant.isDelete = false := by
  cases t with
  | select source steps => rw [QueryTree.meant]; rfl
  | delete table steps => cases h
  | setOp a b kind => rw [QueryTree.meant]; rfl
  | «with» ctes main =>
    obtain ⟨_, _, _, he⟩ := ctes.around_with main.meant
    rw [QueryTree.meant, he]
    rfl

theorem QueryTree.meant_with (h : t.isWith = false) : t.meant.isWith = false := by
  cases t with
  | select source steps => rw [QueryTree.meant]; rfl
  | delete table steps => rw [QueryTree.meant]; rfl
  | setOp a b kind => rw [QueryTree.meant]; rfl
  | «with» ctes main => cases h

end

/-! ## What the texts spell -/

/-- The tokens of the text spell the query. -/
def QuerySpells (x : Text) (q : QueryStmt Sql (TableRef Sql)) : Prop :=
  ∃ ts, Reads lex x ts ∧ StmtSpelt readTerm (readRef readTerm) ts q

/-- The tokens of the text spell CTEs, in front of what `around` puts them around. -/
def CtesSpell (x : Text)
    (around : QueryStmt Sql (TableRef Sql) → QueryStmt Sql (TableRef Sql)) : Prop :=
  ∃ ts, Opens lex x ts ∧ ∀ r q, Continues readTerm (readRef readTerm) r q →
    CtesSpelt readTerm (readRef readTerm) (ts ++ r) (around q)

section
variable {x y : Text} {q a b : QueryStmt Sql (TableRef Sql)}

theorem select_query {source : TableTree} {steps : List SelectStep} {s : SelectExpr}
    (hsource : source.Sound) (hsteps : ∀ step ∈ steps, step.Sound)
    (h : buildSelect source steps = .ok s) (hx : s.toString = .ok x) :
    QuerySpells x (.select (meantSelect source steps)) := by
  have hs := select_spells hsource hsteps h
  obtain ⟨items, hv⟩ := valid_of_toString hx
  exact ⟨_, (hs.whole.reads hv).1 x hx, .select (hs.reads hv)⟩

theorem delete_query {table : TargetTree} {steps : List DeleteStep} {s : DeleteFrom}
    (htable : table.Sound) (hsteps : ∀ step ∈ steps, step.Sound)
    (h : buildDelete table steps = .ok s) (hx : s.toString = .ok x) :
    QuerySpells x (.delete (meantDelete table steps)) := by
  obtain ⟨S, hS, hr⟩ := (delete_spells htable hsteps h).reads hx
  exact ⟨_, hr, .delete hS⟩

theorem connector_set (kind : SetOpKind) :
    Connector (" ".toList ++ kind.toString ++ " ".toList) (setTokens kind.set kind.all) where
  leads _ := by cases kind <;> rfl
  opens := by cases kind <;> exact opens_const (by decide) (by decide)

theorem setOp_query (kind : SetOpKind) (ha : QuerySpells x a) (hb : QuerySpells y b)
    (hda : a.isDelete = false) (hdb : b.isDelete = false) :
    QuerySpells ('(' :: (x ++ [')']) ++ " ".toList ++ kind.toString ++ " ".toList ++
      '(' :: (y ++ [')'])) (.op a kind.set kind.all b) := by
  obtain ⟨ts, hr, hs⟩ := ha
  obtain ⟨us, hu, ht⟩ := hb
  have := hr.paren.seals.reads.trails ((connector_set kind).trails hu.paren.seals.reads)
  refine ⟨_, ?_, .op kind.set kind.all hs ht hda hdb⟩
  simpa only [List.append_assoc, List.cons_append, List.nil_append, bracketed] using this

/-- The name of a CTE, and its query in brackets. -/
theorem cte_opens {name : Text} {ts : List Token} (hn : isCteName name = true)
    (hr : Reads lex x ts) : Opens lex (cteText name ('(' :: (x ++ [')'])))
      (.word name :: Key.as.token :: bracketed ts) := by
  rw [isCteName, Bool.and_eq_true] at hn
  rw [cteText, List.append_assoc]
  exact (seals_plain hn.1).reads.opens (connector_as.leads _) (connector_as.opens.append hr.paren)

theorem cte_start {name : Text} (hn : isCteName name = true) (h : QuerySpells x q) :
    CtesSpell (cteText name ('(' :: (x ++ [')']))) (.with (.word name) q) := by
  obtain ⟨ts, hr, hs⟩ := h
  exact ⟨_, cte_opens hn hr, fun r m hm => .cte rfl hs hm⟩

theorem cte_next {name : Text} {around : QueryStmt Sql (TableRef Sql) → QueryStmt Sql (TableRef Sql)}
    (hn : isCteName name = true) (h : CtesSpell x around) (hq : QuerySpells y q) :
    CtesSpell (x ++ (", ".toList ++ cteText name ('(' :: (y ++ [')']))))
      (fun m => around (.with (.word name) q m)) := by
  obtain ⟨ts, hr, hs⟩ := h
  obtain ⟨us, hu, ht⟩ := hq
  refine ⟨_, hr.append (connector_comma.opens.append (cte_opens hn hu)), fun r m hm => ?_⟩
  have hname : isLabel (.word name) = true := rfl
  rw [List.append_assoc]
  exact hs _ _ (.next (.cte hname ht hm))

theorem with_query {around : QueryStmt Sql (TableRef Sql) → QueryStmt Sql (TableRef Sql)}
    (h : CtesSpell x around) (hq : QuerySpells y q) (hw : q.isWith = false) :
    QuerySpells ("WITH ".toList ++ x ++ " ".toList ++ y) (around q) := by
  obtain ⟨ts, hr, hs⟩ := h
  obtain ⟨us, hu, ht⟩ := hq
  have hwith : Opens lex "WITH ".toList [Key.with.token] := opens_const (by decide) (by decide)
  have hspace : Opens lex " ".toList [] := opens_const (by decide) (by decide)
  have := hwith.reads (hr.reads (hspace.reads hu))
  refine ⟨_, ?_, .with (hs _ _ (.main ht hw))⟩
  simpa only [List.append_assoc, List.cons_append, List.nil_append] using this

end

mutual

/-- **The text of a query spells the query that is meant.** -/
theorem QueryTree.spelt : (t : QueryTree) → {v : VirtualTable} → {x : Text} → t.Sound →
    t.build = .ok v → v.toString = .ok x → QuerySpells x t.meant
  | .select source steps, v, x, ht, h, hx => by
    simp only [QueryTree.build, bind_ok, pure_ok] at h
    obtain ⟨s, hs, rfl⟩ := h
    rw [QueryTree.meant]
    rw [QueryTree.Sound] at ht
    exact select_query ht.1 ht.2 hs hx
  | .delete table steps, v, x, ht, h, hx => by
    simp only [QueryTree.build, bind_ok, pure_ok] at h
    obtain ⟨s, hs, rfl⟩ := h
    rw [QueryTree.meant]
    rw [QueryTree.Sound] at ht
    exact delete_query ht.1 ht.2 hs hx
  | .setOp a b kind, v, x, ht, h, hx => by
    simp only [QueryTree.build, SetOp.new, bind_ok, pure_ok] at h
    obtain ⟨va, hva, vb, hvb, s, ⟨y, hy, z, hz, rfl⟩, rfl⟩ := h
    rw [QueryTree.Sound] at ht
    obtain ⟨⟨hda, hdb⟩, hta, htb⟩ := ht
    obtain ⟨xa, hxa, rfl⟩ := QueryTree.bracketed hva hy
    obtain ⟨xb, hxb, rfl⟩ := QueryTree.bracketed hvb hz
    cases hx
    rw [QueryTree.meant]
    exact setOp_query kind (a.spelt hta hva hxa) (b.spelt htb hvb hxb) (QueryTree.meant_delete hda)
      (QueryTree.meant_delete hdb)
  | .with ctes main, v, x, ht, h, hx => by
    simp only [QueryTree.build, WithBuilder.main, bind_ok, pure_ok] at h
    obtain ⟨w, hw, vm, hvm, _, ⟨y, hy, z, -, rfl⟩, rfl⟩ := h
    rw [QueryTree.Sound] at ht
    obtain ⟨hwith, hc, hm⟩ := ht
    cases hx
    rw [QueryTree.meant]
    exact with_query (ctes.spelt hc hw) (main.spelt hm hvm hy) (QueryTree.meant_with hwith)

theorem CteTree.spelt : (c : CteTree) → {w : WithBuilder} → c.Sound → c.build = .ok w →
    CtesSpell w.ctes_ c.around
  | .start name query, w, hc, h => by
    simp only [CteTree.build, withCte, bind_ok, pure_ok] at h
    obtain ⟨v, hv, _, -, y, hy, z, -, rfl⟩ := h
    rw [CteTree.Sound] at hc
    obtain ⟨x, hx, rfl⟩ := QueryTree.bracketed hv hy
    have haround : CteTree.around (.start name query) = .with (.word name) query.meant := by
      funext q
      rw [CteTree.around]
    rw [haround]
    exact cte_start hc.1 (query.spelt hc.2 hv hx)
  | .next before name query, w, hc, h => by
    simp only [CteTree.build, bind_ok] at h
    obtain ⟨b, hb, v, hv, hw⟩ := h
    rw [CteTree.Sound] at hc
    obtain ⟨hn, hbefore, hq⟩ := hc
    obtain ⟨_, y, _, -, -, hy, -, rfl⟩ := with_accepted (c := ⟨name, v⟩) (accepted_of_result hw)
    obtain ⟨x, hx, rfl⟩ := QueryTree.bracketed hv hy
    have haround : CteTree.around (.next before name query) =
        fun q => before.around (.with (.word name) query.meant q) := by
      funext q
      rw [CteTree.around]
    rw [haround]
    exact cte_next hn (before.spelt hbefore hb) (query.spelt hq hv hx)

end

/-! ## Reading back -/

/-- **A rendered query is read back as it was built**: every set operation with its two operands and
its `ALL`, every CTE with its name, its own query and what it is in scope of, and every SELECT and
DELETE with its clauses, in any nesting. -/
theorem query_read_back (t : QueryTree) (v : VirtualTable) (x : Text) (ht : t.Sound)
    (h : t.build = .ok v) (hx : v.toString = .ok x) :
    readStmt readTerm (readRef readTerm) (lex x) = some t.meant := by
  obtain ⟨ts, hr, hs⟩ := t.spelt ht h hx
  rw [hr.lex_eq]
  exact readStmt_spelt hs

/-- `WITH a AS (DELETE FROM t), b AS (SELECT x FROM a) (SELECT y FROM b) UNION ALL (SELECT z FROM c)`.
-/
theorem query_read_back_ctes :
    let select (name table : Char) : QueryTree :=
      .select (.named [table] none) [.select [⟨.column [name], none⟩]]
    let t : QueryTree := .with
      (.next (.start ['a'] (.delete ⟨['t'], none⟩ [])) ['b'] (select 'x' 'a'))
      (.setOp (select 'y' 'b') (select 'z' 'c') .UnionAll)
    ∃ v x, t.build = .ok v ∧ v.toString = .ok x ∧
      x = ("WITH a AS (DELETE FROM t), b AS (SELECT x FROM a) " ++
        "(SELECT y FROM b) UNION ALL (SELECT z FROM c)").toList ∧
      readStmt readTerm (readRef readTerm) (lex x) = some t.meant :=
  ⟨_, _, rfl, rfl, by decide, query_read_back _ _ _ (by decide) rfl rfl⟩

/-- **A query may stand in any other one**: what is built of sound parts is a subquery that terms and
tables accept, and in its brackets it is still read as itself. -/
theorem query_nests (t : QueryTree) (v : VirtualTable) (x : Text) (ht : t.Sound)
    (hd : t.isDelete = false) (h : t.build = .ok v) (hx : v.toString = .ok x) :
    ∃ q : Subquery, q.table = v ∧ q.text = x ∧
      readStmt readTerm (readRef readTerm) q.tokens = some t.meant := by
  obtain ⟨ts, hr, hs⟩ := t.spelt ht h hx
  have hquery := hs.query (QueryTree.meant_delete hd)
  have hb : v.toStringBracketed = .ok ("(".toList ++ x ++ ")".toList) := by
    rw [QueryTree.bracketed_eq h, hx]
    rfl
  have hclose : Opens lex [')'] [.punct ')'] := opens_const (by decide) (by decide)
  exact ⟨⟨v, x, ts, hb, hr.opens (by decide) hclose, hquery.closed.upTo, hquery.isQuery⟩, rfl, rfl,
    readStmt_spelt hs⟩

/-- `(SELECT y FROM b) INTERSECT (SELECT z FROM c)`. -/
theorem query_nests_set :
    let select (name table : Char) : QueryTree :=
      .select (.named [table] none) [.select [⟨.column [name], none⟩]]
    let t : QueryTree := .setOp (select 'y' 'b') (select 'z' 'c') .Intersect
    ∃ (v : VirtualTable) (q : Subquery), t.build = .ok v ∧ q.table = v ∧
      q.text = "(SELECT y FROM b) INTERSECT (SELECT z FROM c)".toList ∧
      readStmt readTerm (readRef readTerm) q.tokens = some t.meant := by
  intro select t
  obtain ⟨q, hq⟩ := query_nests t _ _ (by decide) rfl rfl rfl
  exact ⟨_, q, rfl, hq⟩

end IronQuery
