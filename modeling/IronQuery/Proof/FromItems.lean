import IronQuery.Proof.Setters
import IronQuery.Source

/-!
# Which sources may stand in a FROM clause

`Source.operand_text` and `Source.from_text`: the two texts of a built source are those of its item.
`from_items`: what `From`, `Update::From` and `DeleteFrom::Using` accept has no query without an
alias in it exactly when no join has one as its operand.
-/

namespace IronQuery

/-! ## The text of a join -/

theorem join_toString (j : Join) :
    j.toString = j.a_ ++ " ".toList ++ j.kind_ ++ " JOIN ".toList ++ j.b_ ++ j.rest := by
  unfold Join.toString Join.rest
  cases j.on_ <;> cases j.using_ <;>
    simp only [List.isEmpty_nil, List.isEmpty_cons, Bool.not_true, Bool.not_false,
      Bool.false_eq_true, if_true, if_false, List.append_assoc, List.append_nil, List.nil_append]

/-- The setters of a join leave its operands alone. -/
theorem applyAll_operands {calls : List JoinCall} {j j' : Join}
    (h : JoinCall.applyAll calls j = .ok j') :
    j'.a_ = j.a_ ∧ j'.b_ = j.b_ ∧ j'.kind_ = j.kind_ := by
  induction calls generalizing j with
  | nil => cases h; exact ⟨rfl, rfl, rfl⟩
  | cons c calls ih =>
    simp only [JoinCall.applyAll, bind_ok] at h
    obtain ⟨j₁, h1, h2⟩ := h
    have hstep : j₁ = c.put j := by
      rcases join_setter.cases c j with ⟨e, -, ha⟩ | ⟨-, -, e, -, ha⟩ | ⟨-, -, ha⟩ <;>
        rw [ha] at h1 <;> cases h1
      rfl
    obtain ⟨ha, hb, hk⟩ := ih h2
    rw [ha, hb, hk, hstep]
    cases c <;> exact ⟨rfl, rfl, rfl⟩

/-! ## The text of a source -/

theorem aliased_text {v v' : VirtualTable} {name : Text} (h : v.aliased name = .ok v') :
    ∃ x, v.toStringBracketed = .ok x ∧
      v'.toStringBracketed = .ok (x ++ " AS ".toList ++ name) ∧
      v'.toStringAsFromItem = .ok (x ++ " AS ".toList ++ name) := by
  cases v with
  | tableWithColumns t =>
    simp only [VirtualTable.aliased, TableWithColumns.as, bind_ok, pure_ok] at h
    obtain ⟨_, ⟨_, -, rfl⟩, rfl⟩ := h
    exact ⟨t.name_, rfl, rfl, rfl⟩
  | table t | join t | select t | setOp t | «with» t | deleteFrom t =>
    simp only [VirtualTable.aliased, VirtualTable.as, bind_ok, pure_ok] at h
    obtain ⟨_, ⟨_, -, x, hx, rfl⟩, rfl⟩ := h
    exact ⟨x, hx, rfl, rfl⟩

/-- What a join was built from. -/
theorem join_build {a b : Source} {kind : JoinKind} {calls : List JoinCall} {v : VirtualTable}
    (h : (Source.join a b kind calls).build = .ok v) :
    ∃ va vb x y j, a.build = .ok va ∧ b.build = .ok vb ∧ va.toStringBracketed = .ok x ∧
      vb.toStringBracketed = .ok y ∧ v = .join j ∧
      j.toString = x ++ " ".toList ++ kind.toString ++ " JOIN ".toList ++ y ++ j.rest := by
  simp only [Source.build, Join.new, bind_ok, pure_ok] at h
  obtain ⟨va, ha, vb, hb, j₀, ⟨x, hx, y, hy, rfl⟩, j, hj, rfl⟩ := h
  obtain ⟨h1, h2, h3⟩ := applyAll_operands hj
  refine ⟨va, vb, x, y, j, ha, hb, hx, hy, rfl, ?_⟩
  rw [join_toString, h1, h2, h3]

/-- **The text of a source as an operand is that of its item.** -/
theorem Source.operand_text : (s : Source) → {v : VirtualTable} → {x : Text} → s.build = .ok v →
    v.toStringBracketed = .ok x → x = FromItem.bracketed s.item.isJoin s.item.text
  | .table name, _, _, h, hx => by cases h; cases hx; rfl
  | .tableWithColumns name _, _, _, h, hx => by cases h; cases hx; rfl
  | .query q, _, x, h, hx => by
    have key : ∀ y, q.toVirtualTable.toString = .ok y → "(".toList ++ y ++ ")".toList =
        (Source.query q).item.text := fun y hy => by
      rw [Source.item, FromItem.text, Query.text, hy]
    cases h
    have hb : ∃ y, q.toVirtualTable.toString = .ok y ∧ "(".toList ++ y ++ ")".toList = x := by
      cases q <;> simpa only [Query.toVirtualTable, VirtualTable.toStringBracketed, bind_ok, pure_ok]
        using hx
    obtain ⟨y, hy, rfl⟩ := hb
    exact key y hy
  | .alias s name, _, _, h, hx => by
    simp only [Source.build, bind_ok] at h
    obtain ⟨v, hv, ha⟩ := h
    obtain ⟨y, hy, hb, -⟩ := aliased_text ha
    cases hb.symm.trans hx
    rw [Source.item, FromItem.text, ← s.operand_text hv hy]
    rfl
  | .join a b kind calls, _, _, h, hx => by
    obtain ⟨va, vb, x, y, j, ha, hb, hxa, hyb, rfl, ht⟩ := join_build h
    simp only [VirtualTable.toStringBracketed, VirtualTable.toString, bind_ok, pure_ok] at hx
    obtain ⟨_, hj, rfl⟩ := hx
    cases hj
    rw [Source.item, FromItem.isJoin, FromItem.bracketed, if_pos rfl, FromItem.text, h, ht,
      a.operand_text ha hxa, b.operand_text hb hyb]

/-- **What a source is as a FROM item**: its item's text, or, for a query, an exception. -/
theorem Source.from_text {s : Source} {v : VirtualTable} (h : s.build = .ok v) :
    if s.isQuery then ∃ e, v.toStringAsFromItem = .error e
    else v.toStringAsFromItem = .ok s.item.text := by
  cases s with
  | table name => cases h; rfl
  | tableWithColumns name _ => cases h; rfl
  | query q => cases h; cases q <;> exact ⟨_, rfl⟩
  | «alias» s name =>
    have hx := fun x => Source.operand_text (.alias s name) (x := x) h
    simp only [Source.build, bind_ok] at h
    obtain ⟨v, hv, ha⟩ := h
    obtain ⟨y, -, hb, hf⟩ := aliased_text ha
    exact hf.trans (congrArg _ (hx _ hb))
  | join a b kind calls =>
    obtain ⟨va, vb, x, y, j, ha, hb, hxa, hyb, rfl, ht⟩ := join_build h
    refine congrArg Except.ok (ht.trans ?_)
    rw [Source.item, FromItem.text, h, a.operand_text ha hxa, b.operand_text hb hyb]

/-! ## Which items have a query without an alias in them -/

theorem Source.item_isSubquery (s : Source) : s.item.isSubquery = s.isQuery := by
  cases s <;> rfl

theorem Source.not_query_of_bareOperand {s : Source} (h : s.bareOperand = true) :
    s.isQuery = false := by
  cases s <;> first | rfl | cases h

theorem Source.proper_iff (s : Source) :
    s.item.Proper ↔ s.isQuery = false ∧ s.bareOperand = false := by
  induction s with
  | table name => exact ⟨fun _ => ⟨rfl, rfl⟩, fun _ => trivial⟩
  | tableWithColumns name columns => exact ⟨fun _ => ⟨rfl, rfl⟩, fun _ => trivial⟩
  | query q => exact ⟨fun h => absurd h id, fun h => absurd h.1 (by simp [Source.isQuery])⟩
  | «alias» s name ih =>
    rw [Source.item, FromItem.Proper, Source.item_isSubquery, ih, Source.bareOperand]
    constructor
    · rintro (hq | ⟨-, hb⟩)
      · refine ⟨rfl, ?_⟩
        by_contra hb
        rw [Source.not_query_of_bareOperand (Bool.not_eq_false _ ▸ hb)] at hq
        cases hq
      · exact ⟨rfl, hb⟩
    · rintro ⟨-, hb⟩
      cases hq : s.isQuery
      · exact .inr ⟨rfl, hb⟩
      · exact .inl rfl
  | join a b kind calls iha ihb =>
    rw [Source.item, FromItem.Proper, iha, ihb]
    simp only [Source.isQuery, Source.bareOperand, Bool.or_eq_false_iff, true_and]
    constructor
    · rintro ⟨⟨h1, h2⟩, h3, h4⟩
      exact ⟨⟨⟨h1, h3⟩, h2⟩, h4⟩
    · rintro ⟨⟨⟨h1, h3⟩, h2⟩, h4⟩
      exact ⟨⟨h1, h2⟩, h3, h4⟩

/-- A setter that takes a FROM item, as a partial function to the text it stores. -/
theorem accepted_iff {s : Source} {v : VirtualTable} (h : s.build = .ok v) {P : Text → Prop}
    (hP : P s.item.text) :
    (∀ x, v.toStringAsFromItem = .ok x → P x ∧ s.item.Proper) ↔ s.bareOperand = false := by
  have ht := Source.from_text h
  constructor
  · intro hall
    cases hb : s.bareOperand
    · rfl
    · rw [Source.not_query_of_bareOperand hb, if_neg (by decide)] at ht
      have := (s.proper_iff.1 (hall _ ht).2).2
      rw [hb] at this
      cases this
  · intro hb x hx
    cases hq : s.isQuery
    · rw [hq, if_neg (by decide)] at ht
      cases ht.symm.trans hx
      exact ⟨hP, s.proper_iff.2 ⟨hq, hb⟩⟩
    · rw [hq, if_pos rfl] at ht
      obtain ⟨e, he⟩ := ht
      rw [he] at hx
      cases hx

/-- **What is accepted as a FROM item has no query without an alias in it**, at any level of its
joins, exactly when no join, under an alias or not, has a query without an alias as its operand:
joins embed their operands without asking. -/
theorem from_items (s : Source) (v : VirtualTable) (h : s.build = .ok v) :
    ((∀ q, SelectExpr.fromTable v = .ok q → q.from_ = s.item.text ∧ s.item.Proper) ↔
      s.bareOperand = false) ∧
    ((∀ u : Update, (u.from v).thrown = none →
      (u.from v).object.from_ = s.item.text ∧ s.item.Proper) ↔ s.bareOperand = false) ∧
    ((∀ d : DeleteFrom, (d.using v).thrown = none →
      (d.using v).object.using_ = s.item.text ∧ s.item.Proper) ↔ s.bareOperand = false) := by
  have key := accepted_iff h (P := fun x => x = s.item.text) rfl
  refine ⟨.trans ⟨fun hall x hx => ?_, fun hall q hq => ?_⟩ key,
    .trans ⟨fun hall x hx => ?_, fun hall u hu => ?_⟩ key,
    .trans ⟨fun hall x hx => ?_, fun hall d hd => ?_⟩ key⟩
  · exact hall { from_ := x } (by rw [SelectExpr.fromTable, hx]; rfl)
  · simp only [SelectExpr.fromTable, bind_ok, pure_ok] at hq
    obtain ⟨x, hx, rfl⟩ := hq
    exact hall x hx
  · have := hall { table_ := [] } (by rw [Update.from, hx]; rfl)
    rw [Update.from, hx] at this
    exact this
  · cases hx : v.toStringAsFromItem with
    | error e => rw [Update.from, hx] at hu; cases hu
    | ok x =>
      rw [Update.from, hx, Outcome.given_ok] at hu ⊢
      cases hs : isSet u.from_
      · rw [setOnce_of_not hs]
        exact hall x hx
      · obtain ⟨e, -, he⟩ := setOnce_of_set hs
        rw [he] at hu
        cases hu
  · have := hall { from_ := [] } (by rw [DeleteFrom.using, hx]; rfl)
    rw [DeleteFrom.using, hx] at this
    exact this
  · cases hx : v.toStringAsFromItem with
    | error e => rw [DeleteFrom.using, hx] at hd; cases hd
    | ok x =>
      rw [DeleteFrom.using, hx, Outcome.given_ok] at hd ⊢
      cases hs : isSet d.using_
      · rw [setOnce_of_not hs]
        exact hall x hx
      · obtain ⟨e, -, he⟩ := setOnce_of_set hs
        rw [he] at hd
        cases hd

/-- A query without an alias as the operand of a join, accepted by `From`. -/
def bareJoin : Source :=
  .join (.query (.select { from_ := "t".toList, select_ := some [⟨"a".toList⟩] })) (.table "u".toList)
    .Inner []

/-- With the query under an alias the join is a FROM item as it should be. -/
theorem from_items_aliased :
    ∃ v, (Source.join (.alias (.query (.select
        { from_ := "t".toList, select_ := some [⟨"a".toList⟩] })) "s".toList) (.table "u".toList)
        .Inner []).build = .ok v ∧
      ∃ q, SelectExpr.fromTable v = .ok q ∧
        q.from_ = "(SELECT a FROM t) AS s INNER JOIN u".toList ∧
        q.from_ = (Source.join (.alias (.query (.select
          { from_ := "t".toList, select_ := some [⟨"a".toList⟩] })) "s".toList) (.table "u".toList)
          .Inner []).item.text :=
  ⟨_, rfl, _, rfl, by decide, (((from_items _ _ rfl).1.2 rfl) _ rfl).1⟩

/-- `(SELECT a FROM t) INNER JOIN u` becomes a FROM item. -/
theorem bareJoin_accepted :
    ∃ v q, bareJoin.build = .ok v ∧ SelectExpr.fromTable v = .ok q ∧
      q.from_ = "(SELECT a FROM t) INNER JOIN u".toList ∧ ¬ bareJoin.item.Proper :=
  ⟨_, _, rfl, rfl, by decide, fun h => h.1⟩

end IronQuery
