import IronQuery.Pg.Proof.Ink
import IronQuery.Proof.TreeRendered

/-!
# The digits and points of a built text

`Tree.ink_text`: the text of a built tree holds no more digits and points than what the tree means,
if the tokens of every query in it hold the query's (`Tree.clean`).
-/

namespace IronQuery

open OperatorPrecedence Pg

/-! ## Queries -/

/-- No comment of the query holds a digit or a point, and no number of it a point. -/
def Subquery.clean (q : Subquery) : Bool := ink q.text ≤ tokensInk q.tokens

/-- The query that the root stands on, if any, is clean. -/
def Tree.clean : Tree → Bool
  | .exists _ q | .scalar q | .inQuery _ _ q | .eqAnyQuery _ q | .neAllQuery _ q => q.clean
  | _ => true

/-! ## Texts -/

theorem ink_none {s : Text} (h : s.all fun c => !isInk c) : ink s = 0 :=
  List.countP_eq_zero.2 fun c hc => by
    have := List.all_eq_true.1 h c hc
    simpa using this

theorem ink_escape {q : Char} (hq : isInk q = false) (v : Text) : ink (escape q v) = ink v := by
  induction v with
  | nil => rfl
  | cons c v ih =>
    rw [escape_cons, ink_append, ih, ink_cons c v]
    split
    · rename_i h
      have hc : ink [c] = 0 := by rw [h]; simp [ink, hq]
      rw [ink_cons, ← h, hc]
    · rfl

theorem ink_quote {q : Char} (hq : isInk q = false) (v : Text) : ink (quote q v) = ink v := by
  have h : ink [q] = 0 := by simp [ink, hq]
  rw [quote, ink_cons, ink_append, ink_escape hq, h, Nat.zero_add, Nat.add_zero]

theorem ink_digits {n : Text} (h : n.all Char.isDigit = true) : ink n ≤ n.countP Char.isDigit := by
  rw [List.countP_eq_length.2 (List.all_eq_true.1 h)]
  exact List.countP_le_length

theorem ink_operator {op : Text} (h : op.all isOpChar = true) : ink op = 0 := by
  refine ink_none (List.all_eq_true.2 fun c hc => ?_)
  have hop := List.all_eq_true.1 h c hc
  cases hi : isInk c
  · rfl
  · simp only [isInk, Bool.or_eq_true, beq_iff_eq] at hi
    rcases hi with hi | rfl
    · rw [(isOpChar_classes hop).2.2.2.2.1] at hi
      cases hi
    · cases hop

theorem ink_space (s : Text) : ink (' ' :: s) = ink s := by
  rw [ink_cons]
  exact Nat.zero_add _

@[simp] theorem ink_extract (e : Expr) (ctx : OperatorPrecedence) :
    ink (e.extract ctx) = ink e.toString := by
  rw [extract_eq]
  split
  · rw [ink_cons, ink_append]
    exact Nat.zero_add _
  · rfl

/-! ## Syntax trees -/

/-- The digits and points of a syntax tree. -/
def sqlInk (s : Sql) : Nat := measure Lexeme.ink s.lexemes

@[simp] theorem word_ink (w : Text) : (Token.word w).lexeme.ink = ink w := by
  simp only [Token.lexeme]
  cases Key.ofWord w <;> rfl

theorem subquery_ink (ts : List Token) : (Lexeme.subquery ts).ink = tokensInk ts := rfl

theorem op_ink (o : Text) : (Lexeme.op o).ink = 0 := rfl

@[simp] theorem not_ink (neg : Bool) : measure Lexeme.ink (notLexemes neg) = 0 := by
  cases neg <;> decide

@[simp] theorem like_ink (op : LikeOp) : measure Lexeme.ink op.lexemes = 0 := by cases op <;> decide

@[simp] theorem quant_ink (all : Bool) : (quantLexeme all).ink = 0 := by cases all <;> decide

@[simp] theorem test_ink (t : Test) : t.lexeme.ink = 0 := by cases t <;> decide

section
variable (a b c : Sql) (o : Text) (neg all : Bool) (ts : List Token)

theorem sqlInk_cast (w : Text) : sqlInk (.cast a w) = sqlInk a + ink w := by
  have h : (Lexeme.punct '(').ink = 0 ∧ (Lexeme.punct ')').ink = 0 := by decide
  simp [sqlInk, Sql.lexemes, key_ink, h]

theorem sqlInk_index : sqlInk (.index a b) = sqlInk a + sqlInk b := by
  have h : (Lexeme.punct '[').ink = 0 ∧ (Lexeme.punct ']').ink = 0 := by decide
  simp [sqlInk, Sql.lexemes, h]

theorem sqlInk_collate (w : Text) : sqlInk (.collate a w) = sqlInk a + ink w := by
  have h : (Lexeme.quoted w).ink = ink w := rfl
  simp [sqlInk, Sql.lexemes, key_ink, h]

theorem sqlInk_pre : sqlInk (.pre o a) = sqlInk a := by simp [sqlInk, Sql.lexemes, op_ink]

theorem sqlInk_bin : sqlInk (.bin o a b) = sqlInk a + sqlInk b := by
  simp [sqlInk, Sql.lexemes, op_ink]

theorem sqlInk_between : sqlInk (.between neg a b c) = sqlInk a + (sqlInk b + sqlInk c) := by
  simp [sqlInk, Sql.lexemes, key_ink]

theorem sqlInk_like (op : LikeOp) : sqlInk (.like op neg a b) = sqlInk a + sqlInk b := by
  simp [sqlInk, Sql.lexemes]

theorem sqlInk_inList (l : List Sql) :
    sqlInk (.inList neg a l) = sqlInk a + measure Lexeme.ink (listLexemes l) := by
  have h : (Lexeme.punct '(').ink = 0 ∧ (Lexeme.punct ')').ink = 0 := by decide
  simp [sqlInk, Sql.lexemes, key_ink, h]

theorem sqlInk_inQuery : sqlInk (.inQuery neg a ts) = sqlInk a + tokensInk ts := by
  simp [sqlInk, Sql.lexemes, key_ink, subquery_ink]

theorem sqlInk_quant : sqlInk (.quant o all a b) = sqlInk a + sqlInk b := by
  have h : (Lexeme.punct '(').ink = 0 ∧ (Lexeme.punct ')').ink = 0 := by decide
  simp [sqlInk, Sql.lexemes, op_ink, h]

theorem sqlInk_quantQuery : sqlInk (.quantQuery o all a ts) = sqlInk a + tokensInk ts := by
  simp [sqlInk, Sql.lexemes, op_ink, subquery_ink]

theorem sqlInk_is (t : Test) : sqlInk (.is neg t a) = sqlInk a := by
  simp [sqlInk, Sql.lexemes, key_ink]

theorem sqlInk_distinctFrom : sqlInk (.distinctFrom neg a b) = sqlInk a + sqlInk b := by
  simp [sqlInk, Sql.lexemes, key_ink]

theorem sqlInk_not : sqlInk (.not a) = sqlInk a := by simp [sqlInk, Sql.lexemes, key_ink]

theorem sqlInk_and : sqlInk (.and a b) = sqlInk a + sqlInk b := by
  simp [sqlInk, Sql.lexemes, key_ink]

theorem sqlInk_or : sqlInk (.or a b) = sqlInk a + sqlInk b := by
  simp [sqlInk, Sql.lexemes, key_ink]

theorem sqlInk_call (f : Text) (d : Bool) (l : List Sql) :
    sqlInk (.call f d l) = ink f + measure Lexeme.ink (listLexemes l) := by
  have h : (Lexeme.punct '(').ink = 0 ∧ (Lexeme.punct ')').ink = 0 := by decide
  cases d <;> simp [sqlInk, Sql.lexemes, key_ink, h]

theorem sqlInk_exists : sqlInk (.exists ts) = tokensInk ts := by
  simp [sqlInk, Sql.lexemes, key_ink, subquery_ink]

theorem sqlInk_case (whens : List (Sql × Sql)) (els : Option Sql) : sqlInk (.case whens els) =
    measure Lexeme.ink (whenLexemes whens) + measure Lexeme.ink (elseLexemes els) := by
  simp [sqlInk, Sql.lexemes, key_ink]

end

theorem sqlInk_dot (a b : Sql) : sqlInk (.dot a b) = sqlInk a + 1 + sqlInk b := by
  have h : (Lexeme.punct '.').ink = 1 := by decide
  simp [sqlInk, Sql.lexemes, h, Nat.add_assoc]

/-- The digits and points in front of a member. -/
def recvInk : Option Sql → Nat
  | none => 0
  | some a => sqlInk a + 1

theorem sqlInk_link (recv : Option Sql) (s : Sql) :
    sqlInk (link recv s) = recvInk recv + sqlInk s := by
  cases recv with
  | none => rw [link, recvInk, Nat.zero_add]
  | some a => rw [link, sqlInk_dot, recvInk]

/-- The names of a path with a point between each two, and what the last of them has on it. -/
theorem sqlInk_path {k : Text → Sql} {n : Nat} (h : ∀ f, sqlInk (k f) = ink f + n) :
    (recv : Option Sql) → (ps : List Text) → ps ≠ [] →
      sqlInk (path k recv ps) = recvInk recv + (ink (joinDots ps) + n)
  | _, [], hne => absurd rfl hne
  | recv, [p], _ => by rw [path, sqlInk_link, h, joinDots]
  | recv, p :: q :: l, _ => by
    have hcol : sqlInk (.column p) = ink p := by simp [sqlInk, Sql.lexemes, word_ink]
    have hpoint : ink ['.'] = 1 := by decide
    rw [path, sqlInk_path h _ (q :: l) (by simp), recvInk, sqlInk_link, hcol, joinDots, ink_append,
      ink_cons, hpoint]
    omega

theorem sqlInk_some (t : Tree) (a : Sql) :
    sqlInk (t.meaning (some a)) = sqlInk a + 1 + sqlInk t.toSql := by
  cases t
  case call name distinct args =>
    have h := sqlInk_path (fun f => sqlInk_call f distinct (meanings args))
    rw [Tree.toSql, Tree.meaning, Tree.meaning, h _ _ (dotParts_ne_nil name),
      h _ _ (dotParts_ne_nil name), recvInk, recvInk, Nat.zero_add]
  all_goals exact sqlInk_dot a _

/-! ## Built texts -/

/-- The digits and points of arguments are those between the commas. -/
theorem argsText_ink {l : List Tree} {es : List Expr}
    (h : List.Forall₂ (fun t e => ink e.toString ≤ sqlInk t.toSql) l es) :
    ink (argsText es) ≤ measure Lexeme.ink (listLexemes (meanings l)) := by
  have hcomma : ink ", ".toList = 0 ∧ (Lexeme.punct ',').ink = 0 := by decide
  induction h with
  | nil => exact Nat.zero_le _
  | @cons t e l es ht hl ih =>
    cases hl with
    | nil =>
      rw [argsText_singleton, ink_extract]
      exact ht
    | @cons t' e' l es ht' hl' =>
      rw [argsText_cons, ink_append, ink_append, ink_extract, hcomma.1, Nat.zero_add]
      simp only [meanings, listLexemes, measure_append, measure_cons, hcomma.2, Nat.zero_add] at ih ⊢
      exact Nat.add_le_add ht ih

theorem whensText_ink {l : List (Tree × Tree)} {ps : List (Expr × Expr)}
    (h : List.Forall₂ (fun w p => ink p.1.toString ≤ sqlInk w.1.toSql ∧
      ink p.2.toString ≤ sqlInk w.2.toSql) l ps) :
    ink (whensText ps) ≤ measure Lexeme.ink (whenLexemes (meaningWhens l)) := by
  have htext : ink "WHEN ".toList = 0 ∧ ink " THEN ".toList = 0 := by decide
  induction h with
  | nil => exact Nat.zero_le _
  | @cons w p l ps hw hl ih =>
    obtain ⟨c, r⟩ := w
    obtain ⟨ec, er⟩ := p
    simp only [whensText, meaningWhens, whenLexemes, ink_append, ink_space, measure_append,
      measure_cons, key_ink, htext, Nat.zero_add] at ih ⊢
    exact Nat.add_le_add hw.1 (Nat.add_le_add hw.2 ih)

theorem elseText_ink {els : Option Tree} {eo : Option Expr}
    (h : Option.Rel (fun t e => ink e.toString ≤ sqlInk t.toSql) els eo) :
    ink (elseText (keptElse eo)) ≤ measure Lexeme.ink (elseLexemes (meaningElse els)) := by
  have htext : ink "ELSE ".toList = 0 ∧ ink " END".toList = 0 ∧ ink "END".toList = 0 := by decide
  cases h with
  | none => exact Nat.zero_le _
  | @some t e he =>
    cases hk : keptElse (some e) with
    | none => exact Nat.zero_le _
    | some x =>
      obtain rfl : e = x := (Option.filter_eq_some_iff.1 hk).1 |> Option.some.inj
      simp only [elseText, meaningElse, elseLexemes, ink_append, measure_cons, key_ink, htext,
        Nat.zero_add]
      exact he

section
variable {a b c : Tree} {ea eb ec : Expr}

/-- A query in brackets. -/
theorem ink_query {q : Subquery} (h : q.clean = true) :
    ink ('(' :: (q.text ++ [')'])) ≤ tokensInk q.tokens := by
  have hopen : ink ['('] = 0 ∧ ink [')'] = 0 := by decide
  rw [ink_cons, ink_append, hopen.1, hopen.2, Nat.zero_add, Nat.add_zero]
  simpa [Subquery.clean] using h

/-- A fragment with no digit and no point between two operands. -/
theorem ink_around {x : Text} (ha : ink ea.toString ≤ sqlInk a.toSql)
    (hb : ink eb.toString ≤ sqlInk b.toSql) (hx : ink x = 0) (ctx : OperatorPrecedence) :
    ink (ea.extract ctx ++ (x ++ eb.extract ctx)) ≤ sqlInk a.toSql + sqlInk b.toSql := by
  rw [ink_append, ink_append, ink_extract, ink_extract, hx, Nat.zero_add]
  exact Nat.add_le_add ha hb

/-- A predicate with a query on its right. -/
theorem ink_subquery {p : OperatorPrecedence} {x : Text} {q : Subquery} {r : Condition}
    (ha : ink ea.toString ≤ sqlInk a.toSql) (hq : q.clean = true) (hx : ink x = 0)
    (h : Expr.subqueryNode p x ea q.table = .ok r) :
    ink r.toExpr.toString ≤ sqlInk a.toSql + tokensInk q.tokens := by
  refine Nat.le_trans (Nat.le_of_eq (congrArg ink (subqueryNode_eq h).2)) ?_
  rw [ink_append, ink_append, ink_extract, hx, Nat.zero_add]
  exact Nat.add_le_add ha (ink_query hq)

/-- A fragment with no digit and no point behind an operand. -/
theorem ink_behind {x : Text} (ha : ink ea.toString ≤ sqlInk a.toSql) (hx : ink x = 0)
    (ctx : OperatorPrecedence) : ink (ea.extract ctx ++ x) ≤ sqlInk a.toSql := by
  rw [ink_append, ink_extract, hx, Nat.add_zero]
  exact ha

end

mutual

/-- **The text of a built tree holds no more digits and points than what the tree means.** -/
theorem Tree.ink_text : (t : Tree) → {e : Expr} → t.All (·.clean = true) → t.build = .ok e →
    ink e.toString ≤ sqlInk t.toSql
  | .null, _, _, h | .bool true, _, _, h | .bool false, _, _, h | .countAll, _, _, h => by
    cases h
    exact Nat.zero_le _
  | .placeholder n, _, _, h => by
    cases h
    rw [(placeholder_text n).1, ink_cons]
    simp [Tree.toSql, Tree.meaning, link, sqlInk, Sql.lexemes, Lexeme.ink, ink, isInk]
  | .literal v, _, _, h => by
    obtain ⟨-, rfl⟩ := literal_ok h
    exact Nat.le_of_eq (ink_quote (by decide) v)
  | .ident v, _, _, h => by
    obtain ⟨-, rfl⟩ := ident_ok h
    exact Nat.le_of_eq (ink_quote (by decide) v)
  | .int v, _, _, h => by
    cases h
    exact ink_digits (natToString_digits v).2
  | .negative n, _, _, h => by
    cases h
    have hd := ink_digits (natToString_digits (n + 1)).2
    have hminus : ink ('-' :: natToString (n + 1)) = ink (natToString (n + 1)) := by
      rw [ink_cons]
      exact Nat.zero_add _
    exact Nat.le_trans (Nat.le_of_eq hminus)
      (by simpa [Tree.toSql, Tree.meaning, link, sqlInk, Sql.lexemes, Lexeme.ink] using hd)
  | .column name, _, _, h => by
    cases h
    exact Nat.le_of_eq (word_ink name).symm
  | .qualified table col, _, _, h => by
    simp only [Tree.build, TableAlias.from, bind_ok, pure_ok] at h
    obtain ⟨_, ⟨_, -, rfl⟩, rfl⟩ := h
    have hcol (f : Text) : sqlInk (.column f) = ink f + 0 := by simp [sqlInk, Sql.lexemes]
    have hpath := sqlInk_path hcol none (dotParts table ++ [col]) (by simp)
    rw [joinDots_concat _ (dotParts_ne_nil table), joinDots_dotParts] at hpath
    have htext : table ++ ".".toList ++ col = table ++ '.' :: col := by simp
    refine Nat.le_of_eq ((congrArg ink htext).trans ?_)
    rw [Tree.toSql, Tree.meaning, link, hpath, recvInk, Nat.zero_add, Nat.add_zero]
  | .scalar q, _, hc, h => by
    simp only [Tree.build, VirtualTable.toExpr, bind_ok, pure_ok, q.bracketed, Except.ok.injEq] at h
    obtain ⟨_, rfl, rfl⟩ := h
    exact ink_query hc.root
  | .exists n q, _, hc, h => by
    have hexists : ink "EXISTS ".toList = 0 ∧ ink "NOT EXISTS ".toList = 0 := by decide
    have hq := ink_query hc.root
    cases n with
    | false =>
      obtain ⟨_, hx, he⟩ := bind_ok.1 h
      cases he
      rw [applyExists_eq (b := false) hx]
      refine Nat.le_trans (Nat.le_of_eq ?_) (Nat.le_trans hq (Nat.le_of_eq (sqlInk_exists _).symm))
      exact (ink_append "EXISTS ".toList _).trans (by rw [hexists.1, Nat.zero_add])
    | true =>
      obtain ⟨_, hx, he⟩ := bind_ok.1 h
      cases he
      rw [applyExists_eq (b := true) hx]
      refine Nat.le_trans (Nat.le_of_eq ?_) (Nat.le_trans hq (Nat.le_of_eq ?_))
      · exact (ink_append "NOT EXISTS ".toList _).trans (by rw [hexists.2, Nat.zero_add])
      · exact ((sqlInk_not _).trans (sqlInk_exists _)).symm
  | .dot a b, _, hc, h => by
    obtain ⟨-, hca, hcb⟩ := (all_two rfl).1 hc
    simp only [Tree.build, bind_ok, pure_ok] at h
    obtain ⟨_, ha, _, hb, rfl⟩ := h
    have hmeaning := sqlInk_some b a.toSql
    have hpoint : ink ['.'] = 1 := by decide
    rw [dot_text, ink_append, ink_cons, ink_extract, ink_extract, hpoint]
    refine Nat.le_trans ?_ (Nat.le_of_eq hmeaning.symm)
    rw [Nat.add_assoc]
    exact Nat.add_le_add (a.ink_text hca ha) (Nat.add_le_add_left (b.ink_text hcb hb) 1)
  | .castRaw a type, _, hc, h => by
    obtain ⟨-, hca⟩ := (all_one rfl).1 hc
    simp only [Tree.build, bind_ok, pure_ok] at h
    obtain ⟨_, ha, rfl⟩ := h
    have hfrag : ink "CAST (".toList = 0 ∧ ink " AS ".toList = 0 ∧ ink [')'] = 0 := by decide
    refine Nat.le_trans (Nat.le_of_eq ?_) (Nat.le_trans
      (Nat.add_le_add_right (a.ink_text hca ha) (ink type)) (Nat.le_of_eq (sqlInk_cast _ _).symm))
    simp only [castRaw_text, ink_append, ink_extract, hfrag, Nat.zero_add, Nat.add_zero]
  | .index a b, _, hc, h => by
    obtain ⟨-, hca, hcb⟩ := (all_two rfl).1 hc
    simp only [Tree.build, bind_ok, pure_ok] at h
    obtain ⟨_, ha, _, hb, rfl⟩ := h
    have hfrag : ink ['['] = 0 ∧ ink [']'] = 0 := by decide
    refine Nat.le_trans (Nat.le_of_eq ?_) (Nat.le_trans
      (Nat.add_le_add (a.ink_text hca ha) (b.ink_text hcb hb)) (Nat.le_of_eq (sqlInk_index _ _).symm))
    simp only [index_text, ink_append, ink_cons '[' (_ ++ _), ink_extract, hfrag, Nat.zero_add,
      Nat.add_zero]
  | .collate a coll, _, hc, h => by
    obtain ⟨-, hca⟩ := (all_one rfl).1 hc
    simp only [Tree.build, bind_ok, pure_ok] at h
    obtain ⟨_, ha, rfl⟩ := h
    have hx : ink (" COLLATE ".toList ++ coll.collation.name) = 0 := by cases coll <;> decide
    rw [collate_text]
    exact Nat.le_trans (ink_behind (a.ink_text hca ha) hx kCollate)
      (Nat.le_trans (Nat.le_add_right _ _) (Nat.le_of_eq (sqlInk_collate _ _).symm))
  | .neg a, _, hc, h => by
    obtain ⟨-, hca⟩ := (all_one rfl).1 hc
    simp only [Tree.build, bind_ok, pure_ok] at h
    obtain ⟨_, ha, rfl⟩ := h
    have hminus : ink ['-'] = 0 := by decide
    refine Nat.le_trans (Nat.le_of_eq ?_) (Nat.le_trans (a.ink_text hca ha)
      (Nat.le_of_eq (sqlInk_pre _ _).symm))
    rw [neg_text, ink_cons, hminus, Nat.zero_add, ink_extract]
  | .prefixOp op a, _, hc, h => by
    obtain ⟨-, hca⟩ := (all_one rfl).1 hc
    simp only [Tree.build, Expr.prefixOp, bind_ok, pure_ok] at h
    obtain ⟨_, ha, _, hv, rfl⟩ := h
    have hx : ink (op ++ [' ']) = 0 := by
      rw [ink_append, ink_operator (operator_of_ok hv).2.1]
      rfl
    refine Nat.le_trans (Nat.le_of_eq ?_) (Nat.le_trans (a.ink_text hca ha)
      (Nat.le_of_eq (sqlInk_pre _ _).symm))
    rw [Expr.toString, prefixOp_text, ink_append, hx, Nat.zero_add, ink_extract]
  | .bin op a b, _, hc, h => by
    obtain ⟨-, hca, hcb⟩ := (all_two rfl).1 hc
    simp only [Tree.build, bind_ok, applyBin_eq, Except.ok.injEq] at h
    obtain ⟨_, ha, _, hb, rfl⟩ := h
    have hx : ink (' ' :: (op.name ++ [' '])) = 0 := by cases op <;> decide
    rw [Expr.toString, binaryNode_text]
    exact Nat.le_trans (ink_around (a.ink_text hca ha) (b.ink_text hcb hb) hx op.prec)
      (Nat.le_of_eq (sqlInk_bin _ _ _).symm)
  | .binaryOp op a b, _, hc, h => by
    obtain ⟨-, hca, hcb⟩ := (all_two rfl).1 hc
    simp only [Tree.build, Expr.binaryOp, bind_ok, pure_ok] at h
    obtain ⟨_, ha, _, hb, _, hv, rfl⟩ := h
    have hx : ink (' ' :: (op ++ [' '])) = 0 := by
      rw [ink_space, ink_append, ink_operator (operator_of_ok hv).2.1]
      rfl
    rw [Expr.toString, binaryNode_text]
    exact Nat.le_trans (ink_around (a.ink_text hca ha) (b.ink_text hcb hb) hx kAnyOther)
      (Nat.le_of_eq (sqlInk_bin _ _ _).symm)
  | .compare op a b, _, hc, h => by
    obtain ⟨-, hca, hcb⟩ := (all_two rfl).1 hc
    simp only [Tree.build, bind_ok, pure_ok] at h
    obtain ⟨ea, ha, eb, hb, rfl⟩ := h
    have hx : ink (' ' :: (op.name ++ [' '])) = 0 := by cases op <;> decide
    have hnode := (congrArg render (applyCompare_text op ea eb)).trans
      (binaryNode_text ea eb kCompare op.name)
    refine Nat.le_trans (Nat.le_of_eq (congrArg ink hnode)) ?_
    exact Nat.le_trans (ink_around (a.ink_text hca ha) (b.ink_text hcb hb) hx kCompare)
      (Nat.le_of_eq (sqlInk_bin _ _ _).symm)
  | .between n a b c, _, hc, h => by
    obtain ⟨-, hca, hcb, hcc⟩ := (all_three rfl).1 hc
    simp only [Tree.build, bind_ok, pure_ok] at h
    obtain ⟨_, ha, _, hb, _, hc, rfl⟩ := h
    have hand : ink " AND ".toList = 0 := by decide
    have hx : ink " BETWEEN ".toList = 0 ∧ ink " NOT BETWEEN ".toList = 0 := by decide
    have hin := Nat.add_le_add (a.ink_text hca ha)
      (ink_around (b.ink_text hcb hb) (c.ink_text hcc hc) hand kBetween)
    refine Nat.le_trans (Nat.le_of_eq ?_) (Nat.le_trans hin
      (Nat.le_of_eq (sqlInk_between _ _ _ _).symm))
    cases n
    · exact (congrArg ink (betweenNode_text _ _ _ _)).trans
        (by rw [ink_append, ink_extract, ink_append, hx.1, Nat.zero_add])
    · exact (congrArg ink (betweenNode_text _ _ _ _)).trans
        (by rw [ink_append, ink_extract, ink_append, hx.2, Nat.zero_add])
  | .like op n a b, _, hc, h => by
    obtain ⟨-, hca, hcb⟩ := (all_two rfl).1 hc
    simp only [Tree.build, bind_ok, pure_ok, applyLike_eq] at h
    obtain ⟨_, ha, _, hb, rfl⟩ := h
    have hx : ink (likeText op n) = 0 := by cases op <;> cases n <;> decide
    refine Nat.le_trans (Nat.le_of_eq (congrArg ink (likeNode_text _ _ _))) ?_
    exact Nat.le_trans (ink_around (a.ink_text hca ha) (b.ink_text hcb hb) hx kBetween)
      (Nat.le_of_eq (sqlInk_like _ _ _ _).symm)
  | .isIn n a l, _, hc, h => by
    obtain ⟨-, hca, hcl⟩ := all_isIn.1 hc
    simp only [Tree.build, bind_ok] at h
    obtain ⟨ea, ha, es, hl, h⟩ := h
    have hlist := argsText_ink (ink_list l hcl (buildList_ok hl))
    have hx : ink " IN ".toList = 0 ∧ ink " NOT IN ".toList = 0 ∧ ink ['('] = 0 ∧ ink [')'] = 0 := by
      decide
    have hin {x : Text} (hx0 : ink x = 0) : ink (ea.extract kBetween ++ (x ++ ('(' ::
        (argsText es ++ [')'])))) ≤ sqlInk (Tree.isIn n a l).toSql := by
      rw [ink_append, ink_extract, ink_append, hx0, ink_cons, ink_append, hx.2.2.1, hx.2.2.2,
        Nat.zero_add, Nat.zero_add, Nat.add_zero]
      exact Nat.le_trans (Nat.add_le_add (a.ink_text hca ha) hlist)
        (Nat.le_of_eq (sqlInk_inList _ _ _).symm)
    cases n with
    | false =>
      obtain ⟨_, hr, he⟩ := bind_ok.1 h
      cases he
      exact Nat.le_trans (Nat.le_of_eq (congrArg ink (buildInListNode_ok _ hr).2.2)) (hin hx.1)
    | true =>
      obtain ⟨_, hr, he⟩ := bind_ok.1 h
      cases he
      exact Nat.le_trans (Nat.le_of_eq (congrArg ink (buildInListNode_ok _ hr).2.2)) (hin hx.2.1)
  | .eqAny a b, _, hc, h => by
    obtain ⟨-, hca, hcb⟩ := (all_two rfl).1 hc
    simp only [Tree.build, bind_ok, pure_ok] at h
    obtain ⟨ea, ha, eb, hb, rfl⟩ := h
    have hx : ink " = ANY (".toList = 0 ∧ ink [')'] = 0 := by decide
    refine Nat.le_trans (Nat.le_of_eq ?_) (Nat.le_trans
      (Nat.add_le_add (a.ink_text hca ha) (b.ink_text hcb hb))
      (Nat.le_of_eq (sqlInk_quant _ _ _ _).symm))
    exact (congrArg ink (quantNode_text ea eb _)).trans (by
      rw [ink_append, ink_append, ink_append, ink_extract, ink_extract, hx.1, hx.2, Nat.zero_add,
        Nat.add_zero])
  | .neAll a b, _, hc, h => by
    obtain ⟨-, hca, hcb⟩ := (all_two rfl).1 hc
    simp only [Tree.build, bind_ok, pure_ok] at h
    obtain ⟨ea, ha, eb, hb, rfl⟩ := h
    have hx : ink " <> ALL (".toList = 0 ∧ ink [')'] = 0 := by decide
    refine Nat.le_trans (Nat.le_of_eq ?_) (Nat.le_trans
      (Nat.add_le_add (a.ink_text hca ha) (b.ink_text hcb hb))
      (Nat.le_of_eq (sqlInk_quant _ _ _ _).symm))
    exact (congrArg ink (quantNode_text ea eb _)).trans (by
      rw [ink_append, ink_append, ink_append, ink_extract, ink_extract, hx.1, hx.2, Nat.zero_add,
        Nat.add_zero])
  | .is op a, _, hc, h => by
    obtain ⟨-, hca⟩ := (all_one rfl).1 hc
    simp only [Tree.build, bind_ok, pure_ok, applyIs_eq] at h
    obtain ⟨ea, ha, rfl⟩ := h
    have hx : ink (isText op) = 0 := by cases op <;> decide
    refine Nat.le_trans (Nat.le_of_eq (congrArg ink (isNode_text ea _))) ?_
    exact Nat.le_trans (ink_behind (a.ink_text hca ha) hx kIs)
      (Nat.le_of_eq (sqlInk_is _ _ _).symm)
  | .distinctFrom n a b, _, hc, h => by
    obtain ⟨-, hca, hcb⟩ := (all_two rfl).1 hc
    simp only [Tree.build, bind_ok, pure_ok] at h
    obtain ⟨ea, ha, eb, hb, rfl⟩ := h
    have hx : ink " IS DISTINCT FROM ".toList = 0 ∧ ink " IS NOT DISTINCT FROM ".toList = 0 := by
      decide
    have hin {x : Text} (hx0 : ink x = 0) := Nat.le_trans
      (ink_around (a.ink_text hca ha) (b.ink_text hcb hb) hx0 kIs)
      (Nat.le_of_eq (sqlInk_distinctFrom _ _ n).symm)
    cases n
    · exact Nat.le_trans (Nat.le_of_eq (congrArg ink (distinctNode_text ea eb _))) (hin hx.1)
    · exact Nat.le_trans (Nat.le_of_eq (congrArg ink (distinctNode_text ea eb _))) (hin hx.2)
  | .exprNot a, _, hc, h => by
    obtain ⟨-, hca⟩ := (all_one rfl).1 hc
    simp only [Tree.build, bind_ok, pure_ok] at h
    obtain ⟨ea, ha, rfl⟩ := h
    have hx : ink "NOT ".toList = 0 := by decide
    refine Nat.le_trans (Nat.le_of_eq ?_) (Nat.le_trans (a.ink_text hca ha)
      (Nat.le_of_eq (sqlInk_not _).symm))
    rw [not_text, ink_append, hx, Nat.zero_add, ink_extract]
  | .condNot a, _, hc, h => by
    obtain ⟨-, hca⟩ := (all_one rfl).1 hc
    simp only [Tree.build, bind_ok, pure_ok] at h
    obtain ⟨ea, ha, rfl⟩ := h
    have hx : ink "NOT ".toList = 0 := by decide
    refine Nat.le_trans (Nat.le_of_eq ?_) (Nat.le_trans (a.ink_text hca ha)
      (Nat.le_of_eq (sqlInk_not _).symm))
    exact (congrArg ink (condition_not_text ea.toCondition)).trans
      ((ink_append _ _).trans (by rw [hx, Nat.zero_add]; exact ink_extract ea kNot))
  | .and a b, _, hc, h => by
    obtain ⟨-, hca, hcb⟩ := (all_two rfl).1 hc
    simp only [Tree.build, bind_ok, pure_ok] at h
    obtain ⟨ea, ha, eb, hb, rfl⟩ := h
    have hx : ink " AND ".toList = 0 := by decide
    refine Nat.le_trans (Nat.le_of_eq (congrArg ink (and_text ea.toCondition eb.toCondition))) ?_
    exact Nat.le_trans (ink_around (a.ink_text hca ha) (b.ink_text hcb hb) hx kAnd)
      (Nat.le_of_eq (sqlInk_and _ _).symm)
  | .or a b, _, hc, h => by
    obtain ⟨-, hca, hcb⟩ := (all_two rfl).1 hc
    simp only [Tree.build, bind_ok, pure_ok] at h
    obtain ⟨ea, ha, eb, hb, rfl⟩ := h
    have hx : ink " OR ".toList = 0 := by decide
    refine Nat.le_trans (Nat.le_of_eq (congrArg ink (or_text ea.toCondition eb.toCondition))) ?_
    exact Nat.le_trans (ink_around (a.ink_text hca ha) (b.ink_text hcb hb) hx kOr)
      (Nat.le_of_eq (sqlInk_or _ _).symm)
  | .inQuery n a q, _, hc, h => by
    obtain ⟨hq, hca⟩ := (all_one rfl).1 hc
    simp only [Tree.build, bind_ok] at h
    obtain ⟨ea, ha, h⟩ := h
    have hx : ink " IN ".toList = 0 ∧ ink " NOT IN ".toList = 0 := by decide
    have hsql := Nat.le_of_eq (sqlInk_inQuery a.toSql n q.tokens).symm
    cases n with
    | false =>
      obtain ⟨_, hr, he⟩ := bind_ok.1 h
      cases he
      exact Nat.le_trans (ink_subquery (a.ink_text hca ha) hq hx.1 hr) hsql
    | true =>
      obtain ⟨_, hr, he⟩ := bind_ok.1 h
      cases he
      exact Nat.le_trans (ink_subquery (a.ink_text hca ha) hq hx.2 hr) hsql
  | .eqAnyQuery a q, _, hc, h => by
    obtain ⟨hq, hca⟩ := (all_one rfl).1 hc
    simp only [Tree.build, bind_ok, pure_ok] at h
    obtain ⟨_, ha, _, hr, rfl⟩ := h
    have hx : ink " = ANY ".toList = 0 := by decide
    exact Nat.le_trans (ink_subquery (a.ink_text hca ha) hq hx hr)
      (Nat.le_of_eq (sqlInk_quantQuery _ _ _ _).symm)
  | .neAllQuery a q, _, hc, h => by
    obtain ⟨hq, hca⟩ := (all_one rfl).1 hc
    simp only [Tree.build, bind_ok, pure_ok] at h
    obtain ⟨_, ha, _, hr, rfl⟩ := h
    have hx : ink " <> ALL ".toList = 0 := by decide
    exact Nat.le_trans (ink_subquery (a.ink_text hca ha) hq hx hr)
      (Nat.le_of_eq (sqlInk_quantQuery _ _ _ _).symm)
  | .call name distinct l, _, hc, h => by
    obtain ⟨-, hcl⟩ := all_call.1 hc
    simp only [Tree.build, bind_ok] at h
    obtain ⟨es, hl, h⟩ := h
    have hlist := argsText_ink (ink_list l hcl (buildList_ok hl))
    have hx : ink ['('] = 0 ∧ ink [')'] = 0 ∧ ink "DISTINCT ".toList = 0 := by decide
    have hpath := sqlInk_path (fun f => sqlInk_call f distinct (meanings l)) none _
      (dotParts_ne_nil name)
    rw [joinDots_dotParts, recvInk, Nat.zero_add] at hpath
    have hin {pre : Text} (hpre : ink pre = 0) :
        ink (render (Expr.buildCallNode name pre es)) ≤ sqlInk (Tree.call name distinct l).toSql := by
      rw [buildCallNode_text, ink_append, ink_cons, ink_append, ink_append, hx.1, hx.2.1, hpre,
        Nat.zero_add, Nat.zero_add, Nat.add_zero]
      exact Nat.le_trans (Nat.add_le_add_left hlist _) (Nat.le_of_eq hpath.symm)
    cases distinct with
    | false =>
      simp only [Bool.false_eq_true, if_false, Expr.call, bind_ok, pure_ok] at h
      obtain ⟨_, -, rfl⟩ := h
      exact hin rfl
    | true =>
      simp only [if_true, Expr.callDistinct, bind_ok, pure_ok] at h
      obtain ⟨_, -, _, -, rfl⟩ := h
      exact hin hx.2.2
  | .case whens els, _, hc, h => by
    obtain ⟨-, hcw, hce⟩ := all_case.1 hc
    obtain ⟨ps, eo, hps, heo, -, rfl⟩ := case_built h
    have hx : ink "CASE ".toList = 0 := by decide
    rw [fromRaw_text, ink_append, ink_append, hx, Nat.zero_add]
    exact Nat.le_trans (Nat.add_le_add (whensText_ink (ink_whens whens hcw hps))
      (elseText_ink (ink_else els hce heo))) (Nat.le_of_eq (sqlInk_case _ _).symm)

theorem ink_list : (l : List Tree) → {es : List Expr} → (∀ t ∈ l, t.All (·.clean = true)) →
    List.Forall₂ (fun t e => t.build = .ok e) l es →
    List.Forall₂ (fun t e => ink e.toString ≤ sqlInk t.toSql) l es
  | [], _, _, h => by cases h; exact .nil
  | t :: l, _, hc, h => by
    obtain _ | ⟨ht, hl⟩ := h
    exact .cons (t.ink_text (hc t (.head _)) ht) (ink_list l (fun s hs => hc s (.tail _ hs)) hl)

theorem ink_whens : (l : List (Tree × Tree)) → {ps : List (Expr × Expr)} →
    (∀ w ∈ l, w.1.All (·.clean = true) ∧ w.2.All (·.clean = true)) →
    List.Forall₂ BuiltWhen l ps → List.Forall₂ (fun w p => ink p.1.toString ≤ sqlInk w.1.toSql ∧
      ink p.2.toString ≤ sqlInk w.2.toSql) l ps
  | [], _, _, h => by cases h; exact .nil
  | (c, r) :: l, _, hc, h => by
    obtain _ | ⟨hw, hl⟩ := h
    have hcr := hc (c, r) (.head _)
    exact .cons ⟨c.ink_text hcr.1 hw.1, r.ink_text hcr.2 hw.2⟩
      (ink_whens l (fun w hw => hc w (.tail _ hw)) hl)

theorem ink_else : (o : Option Tree) → {eo : Option Expr} →
    (∀ e, o = some e → e.All (·.clean = true)) →
    Option.Rel (fun t e => t.build = .ok e) o eo →
    Option.Rel (fun t e => ink e.toString ≤ sqlInk t.toSql) o eo
  | none, _, _, h => by cases h; exact .none
  | some e, _, hc, h => by
    obtain he | _ := h
    exact .some (e.ink_text (hc e rfl) he)

end

end IronQuery
