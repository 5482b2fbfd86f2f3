import IronQuery.Proof.RelatedBuilders

/-!
# What may stand behind a unary minus

`headed`: an operand that is no `Program.minus` and that a unary minus does not put in brackets does
not start with a minus.
-/

namespace IronQuery

open OperatorPrecedence Pg

/-- The text does not start with a minus. -/
abbrev NoMinus (x : Text) : Prop := x.head? ≠ some '-'

/-- What the built value's text starts with. -/
def Headed : (t : Ty) → Program t → t.Val → Prop
  | .expr, p, e =>
    (p.minus = none → e.node.precedence.toNat < kUnaryPlus.toNat → NoMinus e.toString) ∧
      ∀ q, p.minus = some q → e.node.precedence = q
  | .condition, p, c =>
    (p.rawMinus = none → c.node.precedence.toNat < kUnaryPlus.toNat → NoMinus c.toString) ∧
      ∀ q, p.rawMinus = some q → c.node.precedence = q
  | .table, _, t => NoMinus t.name_
  | .tableWithColumns, p, t =>
    NoMinus t.name_ ∧ t.alias_.all isPathChar = true ∧ t.columns_.map Column.name = p.columnNames
  | .virtualTable, _, v => ∀ s, v.toStringBracketed = .ok s → NoMinus s
  | _, _, _ => True

theorem noMinus_of_table {s : Text} (h : isTableName s = true) : NoMinus s := by
  simp only [isTableName, Bool.and_eq_true, bne_iff_ne] at h
  exact h.1.2

/-- A constant in front. -/
theorem noMinus_lead {c x : Text} (h : c.head?.any (· != '-') = true) : NoMinus (c ++ x) := by
  cases c with
  | nil => cases h
  | cons d c => simpa [NoMinus] using h

/-! ## Calls -/

theorem buildCallNode_head {name pre : Text} {l : List Expr} (h : name.all isPathChar = true) :
    NoMinus (render (Expr.buildCallNode name pre l)) := by
  rw [buildCallNode_text]
  exact head_append (head_of_path h) fun _ => by simp

theorem call_head {name : Text} {l : List Expr} {e : Expr} (h : Expr.call name l = .ok e) :
    NoMinus e.toString := by
  simp only [Expr.call, bind_ok, pure_ok] at h
  obtain ⟨r, hn, rfl⟩ := h
  exact buildCallNode_head (path_of_ok hn)

theorem callDistinct_head {name : Text} {l : List Expr} {e : Expr}
    (h : Expr.callDistinct name l = .ok e) : NoMinus e.toString := by
  simp only [Expr.callDistinct, bind_ok, pure_ok] at h
  obtain ⟨r, hn, _, -, rfl⟩ := h
  exact buildCallNode_head (path_of_ok hn)

theorem function_head {f : Function} {l : List Expr} {e : Expr} (h : f.apply l = .ok e) :
    NoMinus e.toString := by
  cases f with
  | call name => exact call_head h
  | callDistinct name => exact callDistinct_head h
  | coalesce | greatest | least =>
    obtain ⟨_, -, h⟩ := bind_ok.1 h
    exact call_head h

/-! ## Operators -/

theorem atom_precedence {a : Atom} {q : OperatorPrecedence} (ha : a.minus = some q) {e : Expr}
    (h : a.build = .ok e) : e.node.precedence = q := by
  cases a with
  | integer | column | raw => cases h; exact minusText_some ha
  | double value =>
    cases value with
    | nonFinite text => cases ha
    | finite negative =>
      cases h
      cases negative
      · cases ha
      · exact Option.some.inj ha
  | _ => cases ha

theorem loose {n : Node} (p : OperatorPrecedence) (h : n.precedence = p)
    (hp : kUnaryPlus.toNat ≤ p.toNat) : kUnaryPlus.toNat ≤ n.precedence.toNat := by
  rwa [h]

theorem unary_head {op : Unary} {a : Program .expr} {e e' : Expr}
    (h : op.apply e = .ok e') (hm : (Program.unary op a).minus = none)
    (hp : e'.node.precedence.toNat < kUnaryPlus.toNat) : NoMinus e'.toString := by
  cases op with
  | neg => cases h; exact absurd hp (Nat.not_lt.2 (loose kUnaryPlus rfl (by decide)))
  | not => cases h; exact absurd hp (Nat.not_lt.2 (loose kNot rfl (by decide)))
  | collate coll => cases h; exact absurd hp (Nat.not_lt.2 (loose kCollate rfl (by decide)))
  | castRaw type =>
    cases h
    rw [castRaw_text]
    exact noMinus_lead (by decide)
  | prefixOp op p =>
    simp only [Unary.apply, Expr.prefixOp, bind_ok, pure_ok] at h
    obtain ⟨_, -, rfl⟩ := h
    rw [Program.minus] at hm
    show NoMinus (render _)
    rw [prefixOp_text, List.append_assoc]
    exact head_append (minusText_none hm hp) fun _ => by simp
  | countDistinct => exact callDistinct_head h
  | count | sum | avg | min | max => exact call_head h

theorem unary_minus {op : Unary} {a : Program .expr} {e e' : Expr} (h : op.apply e = .ok e')
    {q : OperatorPrecedence} (hm : (Program.unary op a).minus = some q) :
    e'.node.precedence = q := by
  cases op with
  | prefixOp op p =>
    simp only [Unary.apply, Expr.prefixOp, bind_ok, pure_ok] at h
    obtain ⟨_, -, rfl⟩ := h
    rw [Program.minus] at hm
    exact minusText_some hm
  | _ => simp [Program.minus] at hm

/-- An infix operator starts with its left operand, or with the bracket around it. -/
theorem binary_cases {op : Binary} {a b e : Expr} (h : op.apply a b = .ok e) :
    op = .nullIf ∨ e.node.precedence = op.precedence ∧
      ∃ c rest, c ≠ '-' ∧ e.toString = a.extract op.precedence ++ c :: rest := by
  have named {name : Text} {p : OperatorPrecedence} (h : a.binaryOp name b p = .ok e) :
      e.node.precedence = p ∧ ∃ c rest, c ≠ '-' ∧ e.toString = a.extract p ++ c :: rest := by
    simp only [Expr.binaryOp, bind_ok, pure_ok] at h
    obtain ⟨_, -, rfl⟩ := h
    exact ⟨rfl, ' ', _, by decide, binaryNode_text ..⟩
  cases op with
  | dot => cases h; exact .inr ⟨rfl, '.', _, by decide, dot_text ..⟩
  | index => cases h; exact .inr ⟨rfl, '[', _, by decide, index_text ..⟩
  | named op => cases op <;> exact .inr (named h)
  | binaryOp name p => exact .inr (named h)
  | nullIf => exact .inl rfl

theorem binary_head {op : Binary} {a b : Program .expr} {e₁ e₂ e : Expr}
    (ha : Headed .expr a e₁) (h : op.apply e₁ e₂ = .ok e) :
    Headed .expr (.binary op a b) e := by
  rcases binary_cases h with rfl | ⟨hp, c, rest, hc, ht⟩
  · refine ⟨fun _ _ => call_head h, fun q hq => ?_⟩
    simp only [Program.minus] at hq
    split at hq
    · rw [if_neg fun h => absurd h.1 (Nat.not_lt_zero _)] at hq
      cases hq
    · cases hq
  refine ⟨fun hm hlt => ?_, fun q hq => ?_⟩
  · rw [ht]
    refine head_append ?_ fun _ => by simpa using hc
    rw [extract_eq]
    split
    · simp
    · -- the operand stands without brackets: it is tighter than the operator
      rename_i hb
      rw [hp] at hlt
      cases hma : a.minus with
      | none => exact ha.1 hma (by omega)
      | some q =>
        have hq := ha.2 q hma
        simp only [Program.minus, hma] at hm
        rw [if_pos ⟨by rw [← hq]; omega, hlt⟩] at hm
        cases hm
  · simp only [Program.minus] at hq
    split at hq
    · split at hq
      · rw [hp]; exact Option.some.inj hq
      · cases hq
    · cases hq

/-! ## Conditions -/

theorem headed_test {p : Program .condition} (hp : p.rawMinus = none) {c : Condition}
    (h : c.node.precedence.toNat < kUnaryPlus.toNat → NoMinus c.toString) :
    Headed .condition p c :=
  ⟨fun _ => h, fun q hq => by rw [hp] at hq; cases hq⟩

theorem loose_condition {p : Program .condition} (hp : p.rawMinus = none) {c : Condition}
    (h : kUnaryPlus.toNat ≤ c.node.precedence.toNat) : Headed .condition p c :=
  headed_test hp fun h' => by omega

theorem isIn_loose {neg : Bool} {e : Expr} {l : List Expr} {c : Condition}
    (h : (if neg then e.notIn l else e.isIn l) = .ok c) :
    kUnaryPlus.toNat ≤ c.node.precedence.toNat := by
  have hp : c.node.precedence = kBetween := by
    cases neg
    · exact (buildInListNode_ok (a := e) h).2.1
    · exact (buildInListNode_ok (a := e) h).2.1
  rw [hp]
  decide

theorem subqueryOp_loose {op : SubqueryOp} {e : Expr} {v : VirtualTable} {c : Condition}
    (h : op.apply e v = .ok c) : kUnaryPlus.toNat ≤ c.node.precedence.toNat := by
  cases op
  all_goals
    obtain ⟨x, -, h⟩ := bind_ok.1 h
    cases h
  · exact loose kBetween rfl (by decide)
  · exact loose kBetween rfl (by decide)
  · exact loose kCompare rfl (by decide)
  · exact loose kCompare rfl (by decide)

theorem exists_head {neg : Bool} {v : VirtualTable} {c : Condition}
    (h : (if neg then Expr.notExists v else Expr.exists v) = .ok c) : NoMinus c.toString := by
  cases neg
  all_goals
    obtain ⟨x, -, h⟩ := bind_ok.1 h
    cases h
  · exact noMinus_lead (c := "EXISTS ".toList) (by decide)
  · exact noMinus_lead (c := "NOT EXISTS ".toList) (by decide)

/-! ## Tables -/

/-- A query is put in brackets. -/
theorem bracket_head {r : Result Text} {s : Text}
    (h : (do return "(".toList ++ (← r) ++ ")".toList) = Except.ok s) : NoMinus s := by
  simp only [bind_ok, pure_ok] at h
  obtain ⟨x, -, rfl⟩ := h
  rw [List.append_assoc]
  exact noMinus_lead (by decide)

theorem as_head {v : VirtualTable} {name : Text} {t : Table}
    (hv : ∀ s, v.toStringBracketed = .ok s → NoMinus s) (h : v.as name = .ok t) :
    NoMinus t.name_ := by
  simp only [VirtualTable.as, bind_ok, pure_ok] at h
  obtain ⟨_, -, s, hs, rfl⟩ := h
  exact head_append (head_append (hv s hs) (by simp)) (by simp)

/-! ## Programs -/

theorem headed {h : Expr} (hh : NoMinus h.toString) {t : Ty} (p : Program t)
    (hwf : ∀ l ∈ p.leaves, l.WF) {x : t.Val} (hx : p.run h = .ok x) : Headed t p x := by
  induction p with
  | hole =>
    cases hx
    exact ⟨fun _ _ => hh, fun q hq => by simp [Program.minus] at hq⟩
  | atom a =>
    simp only [Headed, Program.minus]
    exact ⟨fun hm => head_of_atom hm hx, fun q hq => atom_precedence hq hx⟩
  | call f args ih =>
    obtain ⟨l, -, hx⟩ := bind_ok.1 hx
    exact ⟨fun _ _ => function_head hx, fun q hq => by simp [Program.minus] at hq⟩
  | unary op a ih =>
    obtain ⟨e, -, hx⟩ := bind_ok.1 hx
    exact ⟨unary_head hx, fun _ => unary_minus hx⟩
  | binary op a b iha ihb =>
    obtain ⟨e₁, h₁, hx⟩ := bind_ok.1 hx
    obtain ⟨e₂, -, hx⟩ := bind_ok.1 hx
    exact binary_head (iha (List.forall_mem_append.1 hwf).1 h₁) hx
  | ofCondition c ih =>
    obtain ⟨c, hc, hx⟩ := bind_ok.1 hx
    cases hx
    simp only [Headed, Program.minus]
    exact ih hwf hc
  | subquery q ih =>
    obtain ⟨v, hv, hx⟩ := bind_ok.1 hx
    obtain ⟨s, hs, hx⟩ := bind_ok.1 hx
    cases hx
    exact ⟨fun _ _ => ih hwf hv s hs, fun q hq => by simp [Program.minus] at hq⟩
  | caseEnd b ih =>
    obtain ⟨b, -, hx⟩ := bind_ok.1 hx
    refine ⟨fun _ _ => ?_, fun q hq => by simp [Program.minus] at hq⟩
    unfold CaseBuilder.end at hx
    split at hx
    · cases hx
    · cases hx
      refine noMinus_lead (x := "END".toList) ?_
      split <;> rfl
  | selectArgAll t ih =>
    obtain ⟨t, ht, hx⟩ := bind_ok.1 hx
    cases hx
    simp only [Headed, Program.minus, ← (ih hwf ht).2.2]
    refine ⟨fun h hp => ?_, fun q => minusText_some⟩
    exact t.selectArgAll_eq.symm ▸ minusText_none h hp
  | tableDot t column ih =>
    obtain ⟨t, ht, hx⟩ := bind_ok.1 hx
    refine ⟨fun _ _ => ?_, fun q hq => by simp [Program.minus] at hq⟩
    unfold TableWithColumns.dot at hx
    split at hx
    · cases hx
    split at hx
    · cases hx
    · cases hx
      have hhead : NoMinus (t.alias_ ++ ".".toList) :=
        head_append (head_of_path (ih hwf ht).2.1) fun _ => by decide
      exact head_append (y := column) hhead (by simp)
  | rawCondition s =>
    cases hx
    simp only [Headed, Program.rawMinus]
    exact ⟨minusText_none, fun q => minusText_some⟩
  | relation op a b =>
    obtain ⟨e₁, -, hx⟩ := bind_ok.1 hx
    obtain ⟨e₂, -, hx⟩ := bind_ok.1 hx
    cases hx
    refine loose_condition rfl ?_
    cases op with
    | like op neg => cases op <;> cases neg <;> exact loose kBetween rfl (by decide)
    | compare op => cases op <;> exact loose kCompare rfl (by decide)
    | eqAny | neAll => exact loose kCompare rfl (by decide)
    | distinctFrom neg => cases neg <;> exact loose kIs rfl (by decide)
  | test op a =>
    obtain ⟨e, -, hx⟩ := bind_ok.1 hx
    cases hx
    cases op <;> exact loose_condition rfl (loose kIs rfl (by decide))
  | between neg e a b =>
    obtain ⟨e, -, hx⟩ := bind_ok.1 hx
    obtain ⟨a, -, hx⟩ := bind_ok.1 hx
    obtain ⟨b, -, hx⟩ := bind_ok.1 hx
    cases hx
    cases neg <;> exact loose_condition rfl (loose kBetween rfl (by decide))
  | isIn neg e l =>
    obtain ⟨e, -, hx⟩ := bind_ok.1 hx
    obtain ⟨l, -, hx⟩ := bind_ok.1 hx
    exact loose_condition rfl (isIn_loose hx)
  | subqueryOp op e q =>
    obtain ⟨e, -, hx⟩ := bind_ok.1 hx
    obtain ⟨v, -, hx⟩ := bind_ok.1 hx
    exact loose_condition rfl (subqueryOp_loose hx)
  | «exists» neg q =>
    obtain ⟨v, -, hx⟩ := bind_ok.1 hx
    exact headed_test rfl fun _ => exists_head hx
  | connective op c d =>
    obtain ⟨c, -, hx⟩ := bind_ok.1 hx
    obtain ⟨d, -, hx⟩ := bind_ok.1 hx
    cases hx
    cases op
    · exact loose_condition rfl (loose kAnd rfl (by decide))
    · exact loose_condition rfl (loose kOr rfl (by decide))
  | conditionNot c =>
    obtain ⟨c, -, hx⟩ := bind_ok.1 hx
    cases hx
    exact loose_condition rfl (loose kNot rfl (by decide))
  | table name =>
    cases hx
    exact noMinus_of_table (hwf _ (.head _))
  | aliased q name ih =>
    obtain ⟨v, hv, hx⟩ := bind_ok.1 hx
    exact as_head (ih hwf hv) hx
  | tableWithColumns name columns =>
    cases hx
    obtain ⟨hname, hcols⟩ := List.forall_mem_cons.1 hwf
    exact ⟨noMinus_of_table hname, rfl, by rw [Program.columnNames]; rfl⟩
  | aliasedColumns t name ih =>
    obtain ⟨t, ht, hx⟩ := bind_ok.1 hx
    obtain ⟨_, hn, hx⟩ := bind_ok.1 hx
    cases hx
    obtain ⟨h1, -, h3⟩ := ih hwf ht
    exact ⟨head_append (head_append h1 fun _ => by decide) (by simp), path_of_ok hn,
      by rw [Program.columnNames]; exact h3⟩
  | upcast t ih =>
    obtain ⟨t, ht, hx⟩ := bind_ok.1 hx
    cases hx
    exact (ih hwf ht).1
  | ofTable t ih =>
    obtain ⟨t, ht, hx⟩ := bind_ok.1 hx
    cases hx
    rintro s ⟨⟩
    exact ih hwf ht
  | ofTableWithColumns t ih =>
    obtain ⟨t, ht, hx⟩ := bind_ok.1 hx
    cases hx
    rintro s ⟨⟩
    exact (ih hwf ht).1
  | ofJoin | ofSelect | ofSetOp | ofWith | ofDeleteFrom =>
    obtain ⟨v, -, hx⟩ := bind_ok.1 hx
    cases hx
    exact fun _ hs => bracket_head hs
  | _ => trivial

end IronQuery
