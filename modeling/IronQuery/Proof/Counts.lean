import IronQuery.Proof.RelatedBuilders

/-!
# What a text is made of

A character that no fragment of the library and no checked name holds (`Foreign`: the mark of a
hole) comes into a text from the strings and the holes of its program only. `Ty.tally` counts it in
a value, and in the parts of it that a later call may leave out.
-/

namespace IronQuery

open OperatorPrecedence Pg

/-! ## Texts -/

/-- The characters that fragments, checked names and numbers are made of. -/
def isPrintable (s : Text) : Bool := s.all fun d => 32 ≤ d.toNat && d.toNat ≤ 126

def Foreign (c : Char) : Prop := c.toNat < 32 ∨ 126 < c.toNat

section
variable {c : Char} (hc : Foreign c)
include hc

theorem count_printable {s : Text} (h : isPrintable s = true) : s.count c = 0 := by
  refine List.count_eq_zero.2 fun hm => ?_
  have := List.all_eq_true.1 h c hm
  simp only [Bool.and_eq_true, decide_eq_true_eq] at this
  rcases hc with hc | hc <;> omega

theorem count_cons {d : Char} (s : Text) (h : isPrintable [d] = true) :
    (d :: s).count c = s.count c := by
  rw [← List.singleton_append, List.count_append, count_printable hc h, Nat.zero_add]

theorem count_path {s : Text} (h : s.all isPathChar = true) : s.count c = 0 :=
  count_printable hc <| List.all_eq_true.2 fun d hd => by
    have := isPathChar_lt (List.all_eq_true.1 h d hd)
    simp only [Bool.and_eq_true, decide_eq_true_eq]
    omega

theorem count_nat (n : Nat) : (natToString n).count c = 0 := count_path hc (natToString_path n)

theorem count_int (n : Int) : (intToString n).count c = 0 := by
  cases n with
  | ofNat n => exact count_nat hc n
  | negSucc n =>
    have hne : ¬ ('-' == c) = true := by
      intro h
      obtain rfl : '-' = c := by simpa using h
      rcases hc with hc | hc <;> revert hc <;> decide
    rw [intToString, List.count_cons, if_neg hne, count_nat hc]

theorem count_operator {s : Text} (h : s.all isOpChar = true) : s.count c = 0 :=
  count_printable hc <| List.all_eq_true.2 fun d hd =>
    all_of_contains (p := fun d => 32 ≤ d.toNat && d.toNat ≤ 126) (List.all_eq_true.1 h d hd)
      (by decide)

theorem count_escape {q : Char} (hq : isQuote q = true) (v : Text) :
    (quote q v).count c = v.count c := by
  have hne : ¬ (q == c) = true := by
    intro h
    obtain rfl : q = c := by simpa using h
    simp only [isQuote, Bool.or_eq_true, beq_iff_eq] at hq
    rcases hq with rfl | rfl <;> rcases hc with hc | hc <;> revert hc <;> decide
  have key : (escape q v).count c = v.count c := by
    induction v with
    | nil => rfl
    | cons d v ih =>
      rw [escape_cons, List.count_append, ih, List.count_cons]
      by_cases hd : d = q
      · simp only [hd, if_true, List.count_cons, List.count_nil, if_neg hne]
        omega
      · simp only [hd, if_false, List.count_cons, List.count_nil]
        omega
  rw [quote, List.count_cons, List.count_append, key, if_neg hne, List.count_cons, List.count_nil,
    if_neg hne]
  rfl

theorem count_extract (e : Expr) (ctx : OperatorPrecedence) :
    (e.extract ctx).count c = e.toString.count c := by
  have hparens : "(".toList.count c = 0 ∧ ")".toList.count c = 0 :=
    ⟨count_printable hc (by decide), count_printable hc (by decide)⟩
  rw [extract_eq]
  split
  · rw [show '(' :: (e.toString ++ [')']) = "(".toList ++ (e.toString ++ ")".toList) from rfl,
      List.count_append, List.count_append, hparens.1, hparens.2]
    omega
  · rfl

theorem count_extract_condition (x : Condition) (ctx : OperatorPrecedence) :
    (x.extract ctx).count c = x.toString.count c := count_extract hc x.toExpr ctx

/-- Joining adds no character of its own. -/
theorem count_fold {α : Type} (f : α → Text) (l : List α) (acc : Text) :
    (l.foldl (fun s x => (if s.isEmpty then s else s ++ ", ".toList) ++ f x) acc).count c =
      acc.count c + (l.map fun x => (f x).count c).sum := by
  induction l generalizing acc with
  | nil => simp
  | cons x l ih =>
    have hsep : ", ".toList.count c = 0 := count_printable hc (by decide)
    rw [List.foldl_cons, ih, List.count_append, List.map_cons, List.sum_cons]
    split
    · omega
    · rw [List.count_append, hsep]
      omega

theorem count_joinCsv (l : List Text) : (joinCsv l).count c = (l.map (List.count c)).sum := by
  have := count_fold hc id l []
  simpa [joinCsv] using this

theorem count_csv_map {α : Type} (f : α → Text) (l : List α) :
    (joinCsv (l.map f)).count c = (l.map fun x => (f x).count c).sum := by
  rw [count_joinCsv hc, List.map_map]
  rfl

theorem count_argsText (l : List Expr) :
    (argsText l).count c = (l.map fun e => e.toString.count c).sum := by
  have hsep : ", ".toList.count c = 0 := count_printable hc (by decide)
  induction l with
  | nil => rfl
  | cons a l ih =>
    cases l with
    | nil => rw [argsText_singleton, count_extract hc]; simp
    | cons b l =>
      simp only [List.map_cons, List.sum_cons] at ih ⊢
      rw [argsText_cons, List.count_append, List.count_append, ih, hsep, count_extract hc]
      omega

end

/-! ## Values -/

/-- The number of `c` in the texts that a value can still put into a query. -/
def VirtualTable.count (c : Char) : VirtualTable → Nat
  | table t => t.name_.count c
  | tableWithColumns t => t.name_.count c
  | join j => j.a_.count c + j.b_.count c + j.kind_.count c + j.on_.count c + j.using_.count c
  | select s =>
    s.from_.count c + sum (fun l => (l.map fun e => e.toString.count c).sum) s.distinctOn_ +
      sum (fun l => (l.map fun e => e.toString.count c).sum) s.select_ +
      sum (fun e => e.toString.count c) s.where_ +
      sum (fun l => (l.map fun e => e.toString.count c).sum) s.groupBy_ +
      sum (fun e => e.toString.count c) s.having_ +
      sum (fun l => (l.map fun e => e.expr.toString.count c).sum) s.orderBy_
  | setOp s => s.a_.count c + s.b_.count c + s.kind_.count c
  | .with w => w.ctes_.count c + w.main_.count c
  | deleteFrom d => d.from_.count c + d.using_.count c + d.where_.count c + d.returning_.count c
where
  /-- A clause that may be missing. -/
  sum {α : Type} (f : α → Nat) (o : Option α) : Nat := (o.map f).getD 0

def Ty.count (c : Char) : (t : Ty) → t.Val → Nat
  | .expr, e => e.toString.count c
  | .condition, x => x.toString.count c
  | .selectItem, x => x.s_.count c
  | .orderByTerm, x => x.expr.toString.count c
  | .assignment, x => x.1.toString.count c + x.2.toString.count c
  | .caseBuilder, b =>
    b.whens_.count c + (if b.hasPendingWhen_ then b.pendingWhen_.count c else 0) + b.else_.count c
  | .table, t => (VirtualTable.table t).count c
  | .tableWithColumns, t =>
    t.name_.count c + t.alias_.count c + (t.columns_.map fun col => col.name.count c).sum
  | .join, j => (VirtualTable.join j).count c
  | .setOp, s => (VirtualTable.setOp s).count c
  | .select, s => (VirtualTable.select s).count c
  | .deleteFrom, d => (VirtualTable.deleteFrom d).count c
  | .virtualTable, v => v.count c
  | .insertInto, s =>
    s.into_.count c + (s.columns_.map (List.count c)).sum +
      (s.rows_.map fun row => (row.map (List.count c)).sum).sum + s.returning_.count c +
      s.onConflict_.count c
  | .update, s =>
    s.table_.count c + s.set_.count c + s.from_.count c + s.where_.count c + s.returning_.count c
  | .withBuilder, b => b.ctes_.count c
  | .withQuery, w => (VirtualTable.with w).count c
  | .text, s => s.count c
  | .list t, l => (l.map (t.count c)).sum

/-- The number of `c` in the value, and in its parts. -/
def Ty.tally (c : Char) : (t : Ty) → t.Val → Tally
  | .caseBuilder, b => ⟨Ty.caseBuilder.count c b, b.else_.count c,
    if b.hasPendingWhen_ then b.pendingWhen_.count c else 0⟩
  | .insertInto, s => ⟨Ty.insertInto.count c s, s.onConflict_.count c, 0⟩
  | t, x => .plain (t.count c x)

section
variable {c : Char} (hc : Foreign c)
include hc

/-! ## Expressions -/

theorem count_binaryNode {op : Text} (hop : validateOperatorName op = .ok ()) (a b : Expr)
    (p : OperatorPrecedence) :
    (render (Expr.binaryNode p op a b)).count c = a.toString.count c + b.toString.count c := by
  rw [binaryNode_text]
  simp (disch := decide) only [List.count_append, count_cons hc, List.count_nil, count_extract hc,
    count_operator hc (operator_of_ok hop).2.1]
  omega

theorem count_binaryOp {op : Text} {a b e : Expr} {p : OperatorPrecedence}
    (h : a.binaryOp op b p = .ok e) :
    e.toString.count c = a.toString.count c + b.toString.count c := by
  obtain ⟨_, hop, h⟩ := bind_ok.1 h
  cases h
  exact count_binaryNode hc hop a b p

theorem count_prefixOp {op : Text} {a e : Expr} {p : OperatorPrecedence}
    (h : Expr.prefixOp op a p = .ok e) : e.toString.count c = a.toString.count c := by
  obtain ⟨_, hop, h⟩ := bind_ok.1 h
  cases h
  show (render _).count c = _
  rw [prefixOp_text]
  simp (disch := decide) only [List.count_append, count_cons hc, List.count_nil, count_extract hc,
    count_operator hc (operator_of_ok hop).2.1]
  omega

theorem count_buildCallNode {name pre : Text} (hname : name.all isPathChar = true)
    (hpre : isPrintable pre = true) (l : List Expr) :
    (render (Expr.buildCallNode name pre l)).count c = (l.map fun e => e.toString.count c).sum := by
  rw [buildCallNode_text]
  simp (disch := decide) only [List.count_append, count_cons hc, List.count_nil, count_argsText hc,
    count_path hc hname, count_printable hc hpre]
  omega

theorem count_call {name : Text} {l : List Expr} {e : Expr} (h : Expr.call name l = .ok e) :
    e.toString.count c = (l.map fun e => e.toString.count c).sum := by
  obtain ⟨_, hn, h⟩ := bind_ok.1 h
  cases h
  exact count_buildCallNode hc (path_of_ok hn) (by decide) l

theorem count_callDistinct {name : Text} {l : List Expr} {e : Expr}
    (h : Expr.callDistinct name l = .ok e) :
    e.toString.count c = (l.map fun e => e.toString.count c).sum := by
  obtain ⟨_, hn, h⟩ := bind_ok.1 h
  obtain ⟨_, -, h⟩ := bind_ok.1 h
  cases h
  exact count_buildCallNode hc (path_of_ok hn) (by decide) l

theorem count_function {f : Function} {l : List Expr} {e : Expr} (h : f.apply l = .ok e) :
    e.toString.count c = (l.map fun e => e.toString.count c).sum := by
  cases f with
  | call name => exact count_call hc h
  | callDistinct name => exact count_callDistinct hc h
  | coalesce | greatest | least =>
    obtain ⟨_, -, h⟩ := bind_ok.1 h
    exact count_call hc h

/-- A type name is the only text of a unary call that is not checked. -/
theorem count_unary {op : Unary} {e e' : Expr} (h : op.apply e = .ok e')
    (hop : ∀ type, op = .castRaw type → type.count c = 0) :
    e'.toString.count c = e.toString.count c := by
  have single (h : ∀ l : List Expr, l = [e] →
      e'.toString.count c = (l.map fun e => e.toString.count c).sum) :
      e'.toString.count c = e.toString.count c := by
    simpa only [List.map_cons, List.map_nil, List.sum_cons, List.sum_nil, Nat.add_zero] using
      h [e] rfl
  cases op with
  | neg =>
    cases h
    rw [neg_text, count_cons hc _ (by decide), count_extract hc]
  | not =>
    cases h
    rw [not_text, List.count_append, count_printable hc (by decide), count_extract hc]
    omega
  | collate coll =>
    cases h
    rw [collate_text, List.count_append, count_extract hc,
      count_printable hc (s := _ ++ coll.collation.name) (by cases coll <;> decide)]
    omega
  | castRaw type =>
    cases h
    rw [castRaw_text]
    simp (disch := decide) only [List.count_append, count_cons hc, count_extract hc,
      count_printable hc, hop type rfl]
    omega
  | prefixOp op p => exact count_prefixOp hc h
  | countDistinct => exact single fun l hl => by subst hl; exact count_callDistinct hc h
  | count | sum | avg | min | max => exact single fun l hl => by subst hl; exact count_call hc h

theorem count_binary {op : Binary} {a b e : Expr} (h : op.apply a b = .ok e) :
    e.toString.count c = a.toString.count c + b.toString.count c := by
  cases op with
  | dot =>
    cases h
    rw [dot_text, List.count_append, count_cons hc _ (by decide), count_extract hc,
      count_extract hc]
  | index =>
    cases h
    rw [index_text]
    simp (disch := decide) only [List.count_append, count_cons hc, List.count_nil, count_extract hc]
    omega
  | named op => cases op <;> exact count_binaryOp hc h
  | binaryOp op p => exact count_binaryOp hc h
  | nullIf =>
    have := count_call hc h
    simp only [List.map_cons, List.map_nil, List.sum_cons, List.sum_nil] at this
    omega

/-! ## Conditions -/

theorem count_relation (op : Relation) (a b : Expr) :
    (op.apply a b).toString.count c = a.toString.count c + b.toString.count c := by
  have like (connector : Text) (h : isPrintable connector = true) :
      (Expr.likeNode connector a b).toString.count c = a.toString.count c + b.toString.count c := by
    rw [likeNode_text]
    simp only [List.count_append, count_extract hc, count_printable hc h]
    omega
  have quant (connector : Text) (h : isPrintable connector = true) :
      (Expr.quantNode connector a b).toString.count c = a.toString.count c + b.toString.count c := by
    rw [quantNode_text]
    simp (disch := decide) only [List.count_append, count_cons hc, List.count_nil, count_extract hc,
      count_printable hc h]
    omega
  have distinct (connector : Text) (h : isPrintable connector = true) :
      (Expr.distinctNode connector a b).toString.count c =
        a.toString.count c + b.toString.count c := by
    rw [distinctNode_text]
    simp only [List.count_append, count_extract hc, count_printable hc h]
    omega
  cases op with
  | like op neg => cases op <;> cases neg <;> exact like _ (by decide)
  | compare op => cases op <;> exact count_binaryNode hc (by decide) a b _
  | eqAny => exact quant _ (by decide)
  | neAll => exact quant _ (by decide)
  | distinctFrom neg => cases neg <;> exact distinct _ (by decide)

theorem count_test (op : IsOp) (a : Expr) : (op.apply a).toString.count c = a.toString.count c := by
  have test (t : Text) (h : isPrintable t = true) :
      (Expr.isNode t a).toString.count c = a.toString.count c := by
    rw [isNode_text, List.count_append, count_printable hc h, count_extract hc]
    omega
  cases op <;> exact test _ (by decide)

theorem count_between (neg : Bool) (e a b : Expr) :
    (if neg then e.notBetween a b else e.between a b).toString.count c =
      e.toString.count c + (a.toString.count c + b.toString.count c) := by
  have node (connector : Text) (h : isPrintable connector = true) :
      (Expr.betweenNode connector e a b).toString.count c =
        e.toString.count c + (a.toString.count c + b.toString.count c) := by
    rw [betweenNode_text]
    simp (disch := decide) only [List.count_append, count_extract hc, count_printable hc h,
      count_printable hc]
    omega
  cases neg <;> exact node _ (by decide)

theorem count_isIn {neg : Bool} {e : Expr} {l : List Expr} {x : Condition}
    (h : (if neg then e.notIn l else e.isIn l) = .ok x) :
    x.toString.count c = e.toString.count c + (l.map fun e => e.toString.count c).sum := by
  have node {connector : Text} (hp : isPrintable connector = true)
      (h : Expr.buildInListNode e connector l = .ok x) :
      x.toString.count c = e.toString.count c + (l.map fun e => e.toString.count c).sum := by
    rw [(buildInListNode_ok (a := e) h).2.2]
    simp (disch := decide) only [List.count_append, count_cons hc, List.count_nil, count_extract hc,
      count_argsText hc, count_printable hc hp]
    omega
  cases neg
  · exact node (by decide) h
  · exact node (by decide) h

theorem count_connective (op : Connective) (x y : Condition) :
    (op.apply x y).toString.count c = x.toString.count c + y.toString.count c := by
  cases op with
  | and =>
    simp (disch := decide) only [Connective.apply, and_text, List.count_append,
      count_extract_condition hc, count_printable hc]
    omega
  | or =>
    simp (disch := decide) only [Connective.apply, or_text, List.count_append,
      count_extract_condition hc, count_printable hc]
    omega

theorem count_conditionNot (x : Condition) : x.not.toString.count c = x.toString.count c := by
  rw [condition_not_text, List.count_append, count_printable hc (by decide),
    count_extract_condition hc]
  omega

end

end IronQuery
