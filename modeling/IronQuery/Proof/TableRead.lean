import IronQuery.Proof.FromItems
import IronQuery.Proof.Spelling

/-!
# Tables are read back

`TableTree.Sound`: the names are no key words, no alias has another behind it, and no query is an
operand without an alias. `TableTree.spelt`: the texts of such a table, as a FROM item and as an
operand, are spelt as the reference that is meant, every join with its own qualifier. So
`From`, `Join` and `As` keep the nesting of joins (`join_read_back`).
-/

namespace IronQuery

open Pg

section
variable {name : Text} {ts : List Token}

/-! ## Names -/

/-- Plain identifiers between dots, none of which is a key word. -/
def isPlainPath (name : Text) : Bool :=
  (dotParts name).all fun p => isPlainIdentifier p && isName p

theorem isPlainPath_of (h : validateIdentifier name = .ok ()) (hn : isPathName name = true) :
    isPlainPath name = true := by
  rw [isPlainPath, List.all_eq_true]
  intro p hp
  rw [Bool.and_eq_true]
  exact ⟨validateIdentifier_ok h p hp, List.all_eq_true.1 hn p hp⟩

theorem isPlainPath_part (h : isPlainPath name = true) {p : Text} (hp : p ∈ dotParts name) :
    isPlainIdentifier p = true ∧ isName p = true := by
  have := List.all_eq_true.1 h p hp
  rwa [Bool.and_eq_true] at this

theorem name_reads (h : isPlainPath name = true) : Seals lex name (nameTokens name) := by
  have := seals_path (dotParts_ne_nil name) fun p hp => (isPlainPath_part h hp).1
  rwa [joinDots_dotParts] at this

theorem pathTokens_dotted : (ps : List Text) → pathTokens ps = dotted (ps.map .word)
  | [] | [_] => rfl
  | p :: q :: l => by rw [pathTokens, pathTokens_dotted (q :: l)]; rfl

theorem name_spelt {part : Token → Bool} (hpart : ∀ w, isName w = true → part (.word w) = true)
    (h : isPlainPath name = true) : Name part (nameTokens name) where
  spelt := by
    refine ⟨(dotParts name).map .word, by simpa using dotParts_ne_nil name, ?_, pathTokens_dotted _⟩
    intro t ht
    obtain ⟨p, hp, rfl⟩ := List.mem_map.1 ht
    exact hpart p (isPlainPath_part h hp).2
  passes := by
    rw [nameTokens, pathTokens_dotted]
    refine passes_dotted (fun t ht => ?_) rfl
    obtain ⟨p, hp, rfl⟩ := List.mem_map.1 ht
    exact ⟨rfl, isBoundary_name (isPlainPath_part h hp).2⟩

theorem table_name (h : isPlainPath name = true) : Name isNamePart (nameTokens name) :=
  name_spelt (fun _ hw => hw) h

theorem alias_name (h : isPlainPath name = true) : Name isLabel (nameTokens name) :=
  name_spelt (fun _ _ => rfl) h

theorem alias_trails (h : isPlainPath name = true) :
    Trails (" AS ".toList ++ name) (Key.as.token :: nameTokens name) :=
  connector_as.trails (name_reads h).reads

end

/-! ## Joins -/

/-- The key words between the operands of a join. -/
def JoinKind.keys : JoinKind → List Key
  | Inner => [.inner, .join]
  | Cross => [.cross, .join]
  | LeftOuter => [.left, .outer, .join]
  | RightOuter => [.right, .outer, .join]
  | FullOuter => [.full, .outer, .join]
  | NaturalInner => [.natural, .inner, .join]
  | NaturalLeftOuter => [.natural, .left, .outer, .join]
  | NaturalRightOuter => [.natural, .right, .outer, .join]
  | NaturalFullOuter => [.natural, .full, .outer, .join]

theorem connector_join (kind : JoinKind) :
    Connector (" ".toList ++ kind.toString ++ " JOIN ".toList) (kind.keys.map Key.token) where
  leads _ := by cases kind <;> rfl
  opens := by cases kind <;> exact opens_const (by decide) (by decide)

theorem joinWords (kind : JoinKind) : JoinWords (kind.keys.map Key.token) kind.type where
  read _ := by cases kind <;> rfl
  head := by cases kind <;> exact ⟨_, _, rfl, by decide⟩
  passes := by cases kind <;> decide

/-- The terms of the call are read as what they mean. -/
def JoinStep.Sound : JoinStep → Prop
  | on c => c.Sound
  | .using cols => ∀ c ∈ cols, c.Sound

instance decidableJoinStepSound : (s : JoinStep) → Decidable s.Sound
  | .on c => inferInstanceAs (Decidable c.Sound)
  | .using cols => inferInstanceAs (Decidable (∀ c ∈ cols, c.Sound))

theorem accepted_of_result {σ : Type} {o : Outcome σ} {s : σ} (h : o.result = .ok s) :
    o.accepted = some s := by
  rw [Outcome.result_eq_ok.1 h, Outcome.accepted_ok]

theorem connector_on : Connector " ON ".toList [Key.on.token] :=
  connector_const (fun _ => rfl) (by decide) (by decide)

theorem connector_using : Connector " USING ".toList [Key.using.token] :=
  connector_const (fun _ => rfl) (by decide) (by decide)

section
variable {step : JoinStep} {c : JoinCall} {j j' : Join}

/-- What an accepted call has checked. -/
theorem JoinCall.checked (hbad : c.bad j = none) (hblk : c.blocked j = false) :
    j.on_ = [] ∧ j.using_ = [] ∧ ∀ columns, c = .using columns → columns ≠ [] := by
  cases c with
  | on exp =>
    have hon : j.on_ = [] := by
      simpa [JoinCall.blocked, JoinCall.clause, JoinClause.isSet, isSet] using hblk
    simp only [JoinCall.bad] at hbad
    split at hbad
    · cases hbad
    · split at hbad
      · cases hbad
      · rename_i hu
        exact ⟨hon, by simpa using hu, by rintro _ ⟨⟩⟩
  | «using» columns =>
    have husing : j.using_ = [] := by
      simpa [JoinCall.blocked, JoinCall.clause, JoinClause.isSet, isSet] using hblk
    simp only [JoinCall.bad] at hbad
    split at hbad
    · cases hbad
    · split at hbad
      · cases hbad
      · rename_i ho
        split at hbad
        · cases hbad
        · rename_i hl
          refine ⟨by simpa using ho, husing, ?_⟩
          rintro _ ⟨⟩ rfl
          exact hl rfl

/-- A call that is accepted leaves its qualifier behind, on a join that had none. -/
theorem step_qualified (hs : step.Sound) (hc : step.call = .ok c)
    (h : (c.apply j).result = .ok j') :
    j.on_ = [] ∧ j.using_ = [] ∧ ¬ (j'.on_ = [] ∧ j'.using_ = []) ∧
      ∃ ts, Trails j'.rest ts ∧ Pg.Qualified readTerm ts (some step.qualifier) := by
  obtain ⟨hbad, hblk, rfl⟩ := join_setter.put_of_accepted (accepted_of_result h)
  obtain ⟨hon, husing, hcols⟩ := JoinCall.checked hbad hblk
  refine ⟨hon, husing, ?_⟩
  cases step with
  | on t =>
    simp only [JoinStep.call, Tree.condition, bind_ok, pure_ok] at hc
    obtain ⟨_, ⟨e, he, rfl⟩, rfl⟩ := hc
    have hs : t.Sound := hs
    have hne : e.toCondition.toString ≠ [] := hs.nonempty he
    obtain ⟨ts, hr, ht, hread⟩ := hs.term he
    refine ⟨fun h => hne h.1, Key.on.token :: ts, ?_, .on ⟨ht.in_clause, hread⟩⟩
    have hrest : (JoinCall.put (.on e.toCondition) j).rest = " ON ".toList ++ e.toString := by
      simp only [Join.rest, JoinCall.put, husing, List.isEmpty_nil, if_true, List.append_nil]
      rw [if_neg (by simpa using hne)]
      rfl
    rw [hrest]
    exact connector_on.trails hr
  | «using» cols =>
    simp only [JoinStep.call, bind_ok, pure_ok] at hc
    obtain ⟨es, hes, rfl⟩ := hc
    have hne := hcols es rfl
    have hlist : cols ≠ [] := by
      rintro rfl
      cases hes
      exact hne rfl
    have hlist := (built_entries hes ⟨hlist, hs⟩ fun t e ht he => Tree.Sound.spells ht he).list
    have htext := hlist.opening.text
    refine ⟨fun h => htext h.2, _, ?_, .using hlist.listing⟩
    have hrest : (JoinCall.put (.using es) j).rest =
        " USING ".toList ++ '(' :: (joinCsv (es.map Expr.toString) ++ [')']) := by
      simp only [Join.rest, JoinCall.put, hon, List.isEmpty_nil, if_true, List.nil_append]
      rw [if_neg (by simpa using htext)]
      rfl
    rw [hrest]
    exact connector_using.trails hlist.whole.paren.seals.reads

/-- **A join keeps the qualifier of the one call that it accepts.** -/
theorem applyAll_qualified {steps : List JoinStep} {calls : List JoinCall}
    (hs : ∀ s ∈ steps, s.Sound) (hc : buildAll JoinStep.call steps = .ok calls)
    (hj : j.on_ = [] ∧ j.using_ = []) (h : JoinCall.applyAll calls j = .ok j') :
    ∃ ts, Trails j'.rest ts ∧
      Pg.Qualified readTerm ts (steps.head?.map JoinStep.qualifier) := by
  cases buildAll_ok hc with
  | nil =>
    cases h
    refine ⟨[], ?_, .none⟩
    rw [Join.rest, hj.1, hj.2]
    exact .nil
  | cons h1 hrest =>
    simp only [JoinCall.applyAll, bind_ok] at h
    obtain ⟨j₁, ha, h⟩ := h
    obtain ⟨-, -, hset, ts, ht, hq⟩ := step_qualified (hs _ (.head _)) h1 ha
    cases hrest with
    | nil =>
      cases h
      exact ⟨ts, ht, hq⟩
    | cons h2 _ =>
      simp only [JoinCall.applyAll, bind_ok] at h
      obtain ⟨j₂, hb, -⟩ := h
      obtain ⟨hon, husing, -⟩ := step_qualified (hs _ (.tail _ (.head _))) h2 hb
      exact absurd ⟨hon, husing⟩ hset

end

/-! ## Table references -/

def TableTree.isQuery : TableTree → Bool
  | query _ => true
  | _ => false

def TableTree.isAlias : TableTree → Bool
  | .alias _ _ => true
  | _ => false

/-- The names are no key words, no alias has another behind it, and every query has one. -/
def TableTree.Sound : TableTree → Prop
  | named name _ => isPlainPath name = true
  | query _ => False
  | .alias t name => (t.isQuery = true ∨ t.Sound) ∧ t.isAlias = false ∧ isPathName name = true
  | join a b _ steps => a.Sound ∧ b.Sound ∧ ∀ s ∈ steps, s.Sound

instance decidableTableTreeSound : (t : TableTree) → Decidable t.Sound
  | .named name _ => inferInstanceAs (Decidable (isPlainPath name = true))
  | .query _ => inferInstanceAs (Decidable False)
  | .alias t _ =>
    have := decidableTableTreeSound t
    inferInstanceAs (Decidable ((t.isQuery = true ∨ t.Sound) ∧ _ ∧ _))
  | .join a b _ steps =>
    have := decidableTableTreeSound a
    have := decidableTableTreeSound b
    inferInstanceAs (Decidable (a.Sound ∧ b.Sound ∧ ∀ s ∈ steps, s.Sound))

/-- What the texts of a built table are read as: as an operand, with an alias behind it, and as a
FROM item. -/
structure TableTree.Spelt (t : TableTree) (v : VirtualTable) : Prop where
  operand : t.isQuery = false → ∀ x, v.toStringBracketed = .ok x →
    ∃ ts, Reads lex x ts ∧ Operand readTerm ts t.ref
  aliased : t.isAlias = false → ∀ x name, isPlainPath name = true → v.toStringBracketed = .ok x →
    ∃ ts, Reads lex (x ++ (" AS ".toList ++ name)) ts ∧
      Operand readTerm ts (.aliased t.ref (nameTokens name))
  item : t.isQuery = false → ∀ x, v.toStringAsFromItem = .ok x →
    ∃ ts, Reads lex x ts ∧ RefSpelt readTerm ts t.ref

theorem aliased_valid {v v' : VirtualTable} {name : Text} (h : v.aliased name = .ok v') :
    validateIdentifier name = .ok () := by
  cases v with
  | tableWithColumns t =>
    simp only [VirtualTable.aliased, TableWithColumns.as, bind_ok, pure_ok] at h
    obtain ⟨_, ⟨_, hv, -⟩, -⟩ := h
    exact hv
  | table t | join t | select t | setOp t | «with» t | deleteFrom t =>
    simp only [VirtualTable.aliased, VirtualTable.as, bind_ok, pure_ok] at h
    obtain ⟨_, ⟨_, hv, -⟩, -⟩ := h
    exact hv

theorem named_spelt {name : Text} (columns : Option (List Column)) {v : VirtualTable}
    (hn : isPlainPath name = true) (hb : v.toStringBracketed = .ok name)
    (hf : v.toStringAsFromItem = .ok name) : (TableTree.named name columns).Spelt v where
  operand _ x hx := by
    cases hb.symm.trans hx
    exact ⟨_, (name_reads hn).reads, .named (table_name hn)⟩
  aliased _ x al hal hx := by
    cases hb.symm.trans hx
    exact ⟨_, (name_reads hn).reads.trails (alias_trails hal), .namedAs (table_name hn) (alias_name hal)⟩
  item _ x hx := by
    cases hf.symm.trans hx
    exact ⟨_, (name_reads hn).reads, .inl (.named (table_name hn))⟩

/-- A table under an alias, which no alias stands behind. -/
theorem TableTree.Spelt.of_alias {t : TableTree} {v v' : VirtualTable} {name : Text}
    (h : t.Spelt v) (ht : t.isAlias = false) (hn : isPlainPath name = true)
    (ha : v.aliased name = .ok v') : (TableTree.alias t name).Spelt v' := by
  obtain ⟨x, hx, hb, hf⟩ := aliased_text ha
  obtain ⟨ts, hr, hop⟩ := h.aliased ht x name hn hx
  rw [List.append_assoc] at hb hf
  constructor
  · intro _ y hy
    cases hb.symm.trans hy
    exact ⟨ts, hr, hop⟩
  · rintro ⟨⟩
  · intro _ y hy
    cases hf.symm.trans hy
    exact ⟨ts, hr, .inl hop⟩

theorem query_spelt (q : Subquery) : (TableTree.query q).Spelt q.table where
  operand h := by cases h
  aliased _ x name hn hx := by
    cases q.bracketed.symm.trans hx
    exact ⟨_, q.opens.seals.reads.trails (alias_trails hn), .queryAs q.isQuery (alias_name hn)⟩
  item h := by cases h

theorem join_spelt {a b : TableTree} {va vb v : VirtualTable} {kind : JoinKind}
    {steps : List JoinStep} (ha : a.Spelt va) (hb : b.Spelt vb) (hqa : a.isQuery = false)
    (hqb : b.isQuery = false) (hva : a.build = .ok va) (hvb : b.build = .ok vb)
    (hs : ∀ s ∈ steps, s.Sound) (h : (TableTree.join a b kind steps).build = .ok v) :
    (TableTree.join a b kind steps).Spelt v := by
  simp only [TableTree.build, hva, hvb, Join.new, bind_ok, pure_ok, Except.ok.injEq] at h
  obtain ⟨_, rfl, _, rfl, j₀, ⟨x, hx, y, hy, rfl⟩, calls, hc, j, hj, rfl⟩ := h
  obtain ⟨h1, h2, h3⟩ := applyAll_operands hj
  obtain ⟨xs, hxr, hxo⟩ := ha.operand hqa x hx
  obtain ⟨ys, hyr, hyo⟩ := hb.operand hqb y hy
  obtain ⟨zs, hzt, hzq⟩ := applyAll_qualified hs hc ⟨rfl, rfl⟩ hj
  have htext : j.toString = x ++ ((" ".toList ++ kind.toString ++ " JOIN ".toList) ++ y ++ j.rest) := by
    rw [join_toString, h1, h2, h3]
    simp only [List.append_assoc]
  have hread : Reads lex j.toString (xs ++ (kind.keys.map Key.token ++ ys ++ zs)) := by
    rw [htext]
    exact hxr.trails (((connector_join kind).trails hyr).append hzt)
  rw [List.append_assoc] at hread
  have hspelt : JoinRef readTerm (xs ++ (kind.keys.map Key.token ++ (ys ++ zs)))
      (TableTree.join a b kind steps).ref := .join hxo (joinWords kind) hyo hzq
  have hb : ∀ z, (VirtualTable.join j).toStringBracketed = .ok z →
      z = '(' :: (j.toString ++ [')']) := by
    rintro _ ⟨⟩
    rfl
  constructor
  · intro _ z hz
    rw [hb z hz]
    exact ⟨_, hread.paren.seals.reads, .bracketed hspelt⟩
  · intro _ z name hn hz
    rw [hb z hz]
    exact ⟨_, hread.paren.seals.reads.trails (alias_trails hn), .bracketedAs hspelt (alias_name hn)⟩
  · rintro _ z ⟨⟩
    exact ⟨_, hread, .inr hspelt⟩

theorem TableTree.Sound.not_query {t : TableTree} (h : t.Sound) : t.isQuery = false := by
  cases t with
  | query q => exact h.elim
  | _ => rfl

/-- **The texts of a table are spelt as the reference that is meant.** -/
theorem TableTree.spelt (t : TableTree) {v : VirtualTable} (ht : t.isQuery = true ∨ t.Sound)
    (h : t.build = .ok v) : t.Spelt v := by
  induction t generalizing v with
  | named name columns =>
    have hn : isPlainPath name = true := by
      rcases ht with ht | ht
      · cases ht
      · exact ht
    cases columns with
    | none =>
      cases h
      exact named_spelt none hn rfl rfl
    | some columns =>
      cases h
      exact named_spelt (some columns) hn rfl rfl
  | query q =>
    cases h
    exact query_spelt q
  | «alias» t name ih =>
    rcases ht with ht | ⟨ht, hal, hn⟩
    · cases ht
    simp only [TableTree.build, bind_ok] at h
    obtain ⟨u, hu, ha⟩ := h
    exact (ih ht hu).of_alias hal (isPlainPath_of (aliased_valid ha) hn) ha
  | join a b kind steps iha ihb =>
    rcases ht with ht | ⟨hta, htb, hs⟩
    · cases ht
    have hbuild := h
    simp only [TableTree.build, bind_ok] at h
    obtain ⟨va, hva, vb, hvb, -⟩ := h
    exact join_spelt (iha (.inr hta) hva) (ihb (.inr htb) hvb) hta.not_query htb.not_query hva hvb
      hs hbuild

/-- A table as the tables of a clause. -/
theorem TableTree.tables {t : TableTree} {v : VirtualTable} {x : Text} (ht : t.Sound)
    (h : t.build = .ok v) (hx : v.toStringAsFromItem = .ok x) :
    ∃ ts, Reads lex x ts ∧ Tables (readRef readTerm) ts t.ref := by
  obtain ⟨ts, hr, hs⟩ := (t.spelt (.inr ht) h).item ht.not_query x hx
  exact ⟨ts, hr, hs.tables⟩

/-- **Nesting of joins survives rendering**: for a tree of joins of any kinds over names and aliased
tables, queries and joins, the text that stands in a FROM clause is read as that very tree, every
`ON` and `USING` at its own join. -/
theorem join_read_back (t : TableTree) (v : VirtualTable) (x : Text) (ht : t.Sound)
    (h : t.build = .ok v) (hx : v.toStringAsFromItem = .ok x) :
    readRef readTerm (lex x) = some t.ref := by
  obtain ⟨ts, hr, hs⟩ := t.tables ht h hx
  rw [hr.lex_eq]
  exact hs.read

/-- `a CROSS JOIN (b AS c LEFT OUTER JOIN d ON x = $1)`. -/
theorem join_read_back_nested :
    let t : TableTree := .join (.named "a".toList none)
      (.join (.alias (.named "b".toList none) "c".toList) (.named "d".toList none) .LeftOuter
        [.on (.compare .eq (.column "x".toList) (.placeholder 0))]) .Cross []
    ∃ v x, t.build = .ok v ∧ v.toStringAsFromItem = .ok x ∧
      x = "a CROSS JOIN (b AS c LEFT OUTER JOIN d ON x = $1)".toList ∧
      readRef readTerm (lex x) = some t.ref :=
  ⟨_, _, rfl, rfl, by decide, join_read_back _ _ _ (by decide) rfl rfl⟩

end IronQuery
