import IronQuery.Proof.TreeReads

/-!
# The text of a built tree is its syntax tree's

One lemma `Rendered.*` for each constructor of `Tree`: if the operands' texts are read as the tokens
of their syntax trees, so is the node's. `Tree.rendered` puts them together over a whole tree whose
names are names and whose numbers meet no sign and no point.
-/

namespace IronQuery

open OperatorPrecedence Pg

/-! ## Texts of the families -/

theorem applyBin_eq (op : BinOp) (a b : Expr) :
    op.apply a b = .ok ⟨Expr.binaryNode op.prec op.name a b⟩ := by
  cases op <;> rfl

theorem applyCompare_text (op : CompareOp) (a b : Expr) :
    (op.apply a b).node = Expr.binaryNode kCompare op.name a b := by
  cases op <;> rfl

/-- What a pattern match writes between its operands. -/
def likeText : LikeOp → Bool → Text
  | .like, false => " LIKE ".toList
  | .like, true => " NOT LIKE ".toList
  | .ilike, false => " ILIKE ".toList
  | .ilike, true => " NOT ILIKE ".toList
  | .similarTo, false => " SIMILAR TO ".toList
  | .similarTo, true => " NOT SIMILAR TO ".toList

theorem applyLike_eq (op : LikeOp) (neg : Bool) (a b : Expr) :
    applyLike op neg a b = Expr.likeNode (likeText op neg) a b := by
  cases op <;> cases neg <;> rfl

def isText : IsOp → Text
  | .isTrue => " IS TRUE".toList
  | .isFalse => " IS FALSE".toList
  | .isNull => " IS NULL".toList
  | .isNotNull => " IS NOT NULL".toList

theorem applyIs_eq (op : IsOp) (a : Expr) : op.apply a = Expr.isNode (isText op) a := by
  cases op <;> rfl

theorem collation_eq (coll : BuiltinCollation) :
    coll.collation.name = quote '"' coll.name := by
  cases coll <;> decide

theorem placeholder_text (n : Fin 10) :
    (placeholder n).toString = '$' :: natToString (n + 1) ∧
      (placeholder n).node.precedence = kSymbol := by
  revert n
  decide

theorem applyExists_eq {b : Bool} {q : Subquery} {c : Condition}
    (h : (if b then Expr.notExists q.table else Expr.exists q.table) = .ok c) :
    c = ⟨makeLeaf ((if b then "NOT EXISTS ".toList else "EXISTS ".toList) ++
      ('(' :: (q.text ++ [')']))) kSymbol⟩ := by
  cases b
  · simp only [Expr.exists, bind_ok, pure_ok, Bool.false_eq_true, if_false, q.bracketed,
      Except.ok.injEq] at h
    obtain ⟨_, rfl, rfl⟩ := h
    rfl
  · simp only [Expr.notExists, bind_ok, pure_ok, if_true, q.bracketed, Except.ok.injEq] at h
    obtain ⟨_, rfl, rfl⟩ := h
    rfl

theorem subqueryNode_eq {p : OperatorPrecedence} {connector : Text} {e : Expr} {q : Subquery}
    {c : Condition} (h : Expr.subqueryNode p connector e q.table = .ok c) :
    c.node.precedence = p ∧
      c.toString = e.extract p ++ (connector ++ ('(' :: (q.text ++ [')']))) := by
  simp only [Expr.subqueryNode, bind_ok, pure_ok, q.bracketed, Except.ok.injEq] at h
  obtain ⟨_, rfl, rfl⟩ := h
  exact ⟨rfl, by simp [Condition.toString]⟩

/-! ## Tokens of the forms -/

theorem foldr_tokens (ops : List Text) (a : Sql) :
    (ops.foldr .pre a).tokens = ops.map .op ++ a.tokens := by
  induction ops with
  | nil => rfl
  | cons o ops ih => rw [List.foldr_cons, Sql.tokens, ih]; rfl

theorem binForm_tokens (op : Text) (a b : Sql) :
    (binForm op a b).tokens = a.tokens ++ ((opPieces op).map .op ++ b.tokens) := by
  rw [binForm, Sql.tokens, foldr_tokens]
  rfl

/-- A list of one query is spelt like a query. -/
theorem inForm_tokens (neg : Bool) (a : Sql) (l : List Sql) :
    (inForm neg a l).tokens = (Sql.inList neg a l).tokens := by
  unfold inForm
  split <;> rfl

theorem quantForm_tokens (op : Text) (all : Bool) (a b : Sql) :
    (quantForm op all a b).tokens = (Sql.quant op all a b).tokens := by
  unfold quantForm
  split <;> rfl

theorem foldr_formed (ops : List Text) {a : Sql} (h : a.Formed) : (ops.foldr .pre a).Formed := by
  induction ops with
  | nil => exact h
  | cons o ops ih => exact ih

theorem inForm_formed {neg : Bool} {a : Sql} {l : List Sql} (h : (Sql.inList neg a l).Formed) :
    (inForm neg a l).Formed := by
  unfold inForm
  split
  · exact h.1
  · exact h

theorem quantForm_formed {op : Text} {all : Bool} {a b : Sql} (h : (Sql.quant op all a b).Formed) :
    (quantForm op all a b).Formed := by
  unfold quantForm
  split
  · exact h.1
  · exact h

theorem tokens_ne_nil (s : Sql) : s.tokens ≠ [] := by
  cases s
  case like op neg a b => cases op <;> simp [Sql.tokens, LikeOp.tokens]
  all_goals simp [Sql.tokens, bracketed]

theorem Subquery.opens (q : Subquery) :
    Opens lex ('(' :: (q.text ++ [')'])) (Pg.bracketed q.tokens) :=
  have hopen : Opens lex ['('] [.punct '('] := opens_const (by decide) (by decide)
  hopen.append q.reads

/-- An accepted name with a space in front of it. -/
theorem operator_leads {op : Text} {u : Unit} (h : validateOperatorName op = .ok u) (r : Text) :
    leads (' ' :: (op ++ [' ']) ++ r) = true := by
  obtain ⟨hne, ho, hc⟩ := operator_of_ok h
  obtain ⟨c, s, rfl⟩ := List.exists_cons_of_ne_nil hne
  simp only [List.all_cons, Bool.and_eq_true] at ho
  obtain ⟨hsp, hq, hdq, -⟩ := isOpChar_classes ho.1
  simp only [noComment, Bool.and_eq_true, Bool.not_eq_true', Bool.and_eq_false_iff,
    beq_eq_false_iff_ne, ne_eq] at hc
  have hquote : isQuote c = false := by simp [isQuote, hq, hdq]
  have hnext : (c != '-' || (s ++ [' '] ++ r).head?.any (· != '-')) = true := by
    rw [Bool.or_eq_true, bne_iff_ne]
    refine or_iff_not_imp_left.2 fun hm => ?_
    have hs := hc.1.1.resolve_left hm
    cases s with
    | nil => rfl
    | cons d s => simpa using hs
  simp only [List.cons_append, leads, hsp, hquote, hnext]
  rfl

namespace Rendered

/-! ## Atoms -/

theorem atom_word {t : Tree} {e : Expr} {w : Text} (hw : isPlainIdentifier w = true)
    (he : e = .fromRaw w) (ht : t.prec = kSymbol) (hl : (t.surf none).tokens = [.word w])
    (hf : (t.surf none).Formed) : Rendered t e := by
  subst he
  exact of_atom rfl hf rfl ht rfl (by rw [hl]; exact seals_plain hw) (plain_head hw).1 (plain_head hw).2

theorem null : Rendered .null .null := atom_word (w := "NULL".toList) rfl rfl rfl rfl trivial

theorem bool (value : Bool) : Rendered (.bool value) (.bool value) := by
  cases value
  · exact atom_word (w := "FALSE".toList) rfl rfl rfl rfl trivial
  · exact atom_word (w := "TRUE".toList) rfl rfl rfl rfl trivial

theorem column {name : Text} (h : isColumnName name = true) :
    Rendered (.column name) (Column.toExpr ⟨name⟩) := by
  rw [isColumnName, Bool.and_eq_true] at h
  exact atom_word h.1 rfl rfl rfl h.2

theorem placeholder (n : Fin 10) : Rendered (.placeholder n) (IronQuery.placeholder n) := by
  obtain ⟨ht, hp⟩ := placeholder_text n
  obtain ⟨hne, hd⟩ := natToString_digits (n + 1)
  exact of_atom rfl trivial hp rfl ht (seals_parameter hne hd) (stops_cons.2 (by decide))
    (stops_cons.2 (by decide))

theorem literal {value : Text} {e : Expr} (h : Expr.literal value = .ok e) :
    Rendered (.literal value) e := by
  obtain ⟨-, rfl⟩ := literal_ok h
  exact of_atom rfl trivial rfl rfl rfl (seals_string value) (stops_cons.2 (by decide))
    (stops_cons.2 (by decide))

theorem ident {name : Text} {e : Expr} (h : Expr.ident name = .ok e) :
    Rendered (.ident name) e := by
  obtain ⟨-, rfl⟩ := ident_ok h
  exact of_atom rfl trivial rfl rfl rfl (seals_quoted name) (stops_cons.2 (by decide))
    (stops_cons.2 (by decide))

/-- A number is the one atom that a point may not follow. -/
theorem int (value : Nat) : Rendered (.int value) (.fromInteger value) where
  prec := rfl
  formed := trivial
  reads := reads_digits (natToString_digits value).1 (natToString_digits value).2
  seals _ h := by cases h
  digit _ h := by cases h
  sign _ _ := natToString_head value

theorem negative (n : Nat) : Rendered (.negative n) (.fromInteger (.negSucc n)) where
  prec := rfl
  formed := trivial
  reads := by
    obtain ⟨hne, hd⟩ := natToString_digits (n + 1)
    exact (reads_digits hne hd).minus (natToString_head (n + 1))
  seals _ h := by cases h
  digit _ _ := stops_cons.2 (by decide)
  sign _ h := by cases h

theorem countAll : Rendered .countAll .countAll :=
  of_atom rfl (show isName "COUNT".toList = true by decide) rfl rfl rfl
    (s := .callStar "COUNT".toList)
    (opens_const (by decide) (by decide)).seals (stops_cons.2 (by decide))
    (stops_cons.2 (by decide))

theorem scalar (q : Subquery) {e : Expr} (h : q.table.toExpr = .ok e) :
    Rendered (.scalar q) e := by
  simp only [VirtualTable.toExpr, bind_ok, pure_ok, q.bracketed, Except.ok.injEq] at h
  obtain ⟨_, rfl, rfl⟩ := h
  exact of_atom rfl trivial rfl rfl rfl q.opens.seals (stops_cons.2 (by decide)) (stops_cons.2 (by decide))

theorem «exists» (neg : Bool) (q : Subquery) {c : Condition}
    (h : (if neg then Expr.notExists q.table else Expr.exists q.table) = .ok c) :
    Rendered (.exists neg q) c.toExpr := by
  rw [applyExists_eq h]
  cases neg
  · have ho : Opens lex "EXISTS ".toList [Key.exists.token] := opens_const (by decide) (by decide)
    exact of_atom rfl trivial rfl rfl rfl (ho.append q.opens).seals (stops_cons.2 (by decide))
      (stops_cons.2 (by decide))
  · have ho : Opens lex "NOT EXISTS ".toList [Key.not.token, Key.exists.token] :=
      opens_const (by decide) (by decide)
    exact of_atom rfl trivial rfl rfl rfl (ho.append q.opens).seals (stops_cons.2 (by decide))
      (stops_cons.2 (by decide))

end Rendered

/-! ## Paths -/

theorem joinDots_concat (ps : List Text) (h : ps ≠ []) (q : Text) :
    joinDots (ps ++ [q]) = joinDots ps ++ '.' :: q := by
  induction ps with
  | nil => exact absurd rfl h
  | cons p l ih =>
    cases l with
    | nil => rfl
    | cons r l =>
      rw [List.cons_append, List.cons_append, joinDots, ← List.cons_append, ih (by simp), joinDots]
      simp

namespace Rendered

theorem qualified {table column : Text} {e : Expr}
    (h : Tree.build (.qualified table column) = .ok e) (ht : isPathName table = true)
    (hc : isColumnName column = true) : Rendered (.qualified table column) e := by
  simp only [Tree.build, TableAlias.from, bind_ok, pure_ok] at h
  obtain ⟨t, ⟨_, hv, rfl⟩, rfl⟩ := h
  rw [isColumnName, Bool.and_eq_true] at hc
  have hne : dotParts table ++ [column] ≠ [] := by simp
  have hp : ∀ p ∈ dotParts table ++ [column], isPlainIdentifier p = true := fun p hp => by
    rcases List.mem_append.1 hp with hp | hp
    · exact validateIdentifier_ok hv p hp
    · rw [List.mem_singleton.1 hp]; exact hc.1
  have hn : ∀ p ∈ dotParts table ++ [column], isName p = true := fun p hp => by
    rcases List.mem_append.1 hp with hp | hp
    · exact List.all_eq_true.1 ht p hp
    · rw [List.mem_singleton.1 hp]; exact hc.2
  have hformed := path_formed (k := .column) (fun _ hf => hf) none _ (by rintro _ ⟨⟩) hne hn
  have htext : table ++ ".".toList ++ column = joinDots (dotParts table ++ [column]) := by
    rw [joinDots_concat _ (dotParts_ne_nil table), joinDots_dotParts]
    simp
  have htok := path_tokens .column [] (fun _ => rfl) none _ hne
  rw [recvTokens, List.nil_append, List.append_nil] at htok
  refine of_postfix kDot rfl rfl (by rintro ⟨⟩) rfl hformed htext ?_ fun _ => ?_
  · exact htok ▸ (seals_path hne hp).reads
  · obtain ⟨p, ps, hps⟩ := List.exists_cons_of_ne_nil hne
    rw [hps] at hp ⊢
    have hpl := hp p (.head _)
    exact joinDots_head (plain_head hpl).1 (plain_ne_nil hpl) ps

theorem call {name pre : Text} {distinct : Bool} {l : List Tree} {es : List Expr} {u : Unit}
    (hv : validateIdentifier name = .ok u) (hn : isPathName name = true)
    (hl : List.Forall₂ Rendered l es) (hne : distinct = true → l ≠ [])
    (hpre : Opens lex ('(' :: pre) (.punct '(' :: if distinct then [Key.distinct.token] else [])) :
    Rendered (.call name distinct l) ⟨Expr.buildCallNode name pre es⟩ := by
  have hplain := validateIdentifier_ok hv
  have hpne := dotParts_ne_nil name
  have htok := path_tokens (Sql.call · distinct (surfs l)) _ (fun _ => rfl) none _ hpne
  have htext : Seals lex (name ++ ('(' :: pre ++ (argsText es ++ [')']))) (pathTokens
      (dotParts name) ++ (.punct '(' :: (if distinct then [Key.distinct.token] else []) ++
        (listTokens (surfs l) ++ [.punct ')']))) := by
    have := seals_path hpne hplain
    rw [joinDots_dotParts] at this
    exact (this.reads.opens (by rfl) (hpre.append (argsText_opens hl))).seals
  have hhead {p : Char → Bool} (hp : ∀ q, isPlainIdentifier q = true → Stops p q) (r : Text) :
      Stops p (name ++ r) := by
    obtain ⟨q, qs, hq⟩ := List.exists_cons_of_ne_nil hpne
    have hpl := hplain q (by rw [hq]; exact .head _)
    have hj : name = joinDots (q :: qs) := by rw [← hq, joinDots_dotParts]
    have h1 := joinDots_head (hp q hpl) (plain_ne_nil hpl) qs
    have h2 : name ≠ [] := by
      obtain ⟨c, s, hqc, -⟩ := plain_cons hpl
      rw [hj, hqc]
      cases qs <;> simp [joinDots]
    rw [← hj] at h1
    obtain ⟨c, s, rfl⟩ := List.exists_cons_of_ne_nil h2
    exact h1
  have hformed := path_formed (k := (Sql.call · distinct (surfs l)))
    (fun _ hf => ⟨hf, surfs_formed hl, fun h => surfs_ne_nil (hne h)⟩) none _ (by rintro _ ⟨⟩) hpne
    (List.all_eq_true.1 hn)
  refine of_atom rfl hformed rfl rfl (buildCallNode_text name pre es) ?_
    (hhead (fun q hq => (plain_head hq).1) _) (hhead (fun q hq => (plain_head hq).2) _)
  rw [Tree.surf, htok, recvTokens, List.nil_append]
  simpa [bracketed] using htext

/-! ## Operators -/

variable {a b c : Tree} {ea eb ec : Expr}

/-- Two operands with a fragment between them. -/
theorem around (ha : Rendered a ea) (hb : Rendered b eb) (ctx : OperatorPrecedence) {x : Text}
    {ts : List Token} (hx : ∀ r, leads (x ++ r) = true) (ho : Opens lex x ts) :
    Reads lex (ea.extract ctx ++ (x ++ eb.extract ctx))
      ((bracket ctx a.prec (a.surf none)).tokens ++
        (ts ++ (bracket ctx b.prec (b.surf none)).tokens)) :=
  (ha.operand ctx).append (hx _) (ho.reads (hb.operand ctx))

theorem dot (ha : Rendered a ea) (hb : Rendered b eb) (hai : a.isNumber = false)
    (hbi : b.isInt = false) (hn : b.namesOk = true) : Rendered (.dot a b) (ea.dot eb) := by
  have hs := ha.before_point hai
  have hsigned : a.prec.toNat < kDot.toNat → a.signed = false := fun hlt => by
    have hsym := symbol_of_lt (Nat.not_le.2 hlt)
    cases a
    case negative n => cases hai
    case index a b => cases hsym
    all_goals rfl
  have hhead : Stops isOpChar (ea.extract kDot ++ '.' :: eb.extract kDot) :=
    (ha.head_tight (by decide) hsigned).append (stops_cons.2 (by decide))
  by_cases hc : kDot.toNat ≤ b.prec.toNat
  · refine of_postfix kDot rfl rfl nofun (by rw [Tree.surf, if_pos hc]; rfl)
      (show Sql.Formed (.dot _ (.paren _)) from ⟨ha.inner kDot, hb.formed⟩) (dot_text ea eb) ?_
      fun _ => hhead
    rw [extract_eq eb, hb.prec, if_pos hc]
    exact hs.point hb.reads.paren.seals.reads (stops_cons.2 (by decide))
  · refine of_postfix kDot rfl rfl nofun (by rw [Tree.surf, if_neg hc]; rfl)
      (Tree.formed_recv hn (ha.inner kDot) hb.formed) (dot_text ea eb) ?_
      fun _ => hhead
    show Reads lex _ (b.surf (some _)).tokens
    rw [extract_eq eb, hb.prec, if_neg hc, b.tokens_recv]
    exact hs.point hb.reads (hb.digit (symbol_of_lt hc) hbi)

theorem castRaw (ha : Rendered a ea) {type : Text} (ht : isPlainIdentifier type = true) :
    Rendered (.castRaw a type) (ea.castRaw type) := by
  have hclose : Opens lex [')'] [.punct ')'] := opens_const (by decide) (by decide)
  have has : Opens lex " AS ".toList [Key.as.token] := opens_const (by decide) (by decide)
  have hcast : Opens lex "CAST (".toList [Key.cast.token, .punct '('] :=
    opens_const (by decide) (by decide)
  have htail := has.append ((seals_plain ht).reads.opens (by rfl) hclose)
  refine of_postfix kTypecast rfl rfl nofun rfl (ha.inner kTypecast) (castRaw_text ea type) ?_
    fun _ => stops_cons.2 (by decide)
  have := (hcast.append ((ha.operand kTypecast).opens (by rfl) htail)).seals.reads
  simpa [Tree.surf, link, Sql.tokens, bracketed] using this

theorem index (ha : Rendered a ea) (hb : Rendered b eb) : Rendered (.index a b) (ea.index eb) := by
  have hopen : Opens lex ['['] [.punct '['] := opens_const (by decide) (by decide)
  have hclose : Opens lex [']'] [.punct ']'] := opens_const (by decide) (by decide)
  refine of_postfix kIndex rfl rfl nofun rfl ⟨ha.inner kIndex, hb.formed⟩ (index_text ea eb) ?_ fun hs => ?_
  · rw [hb.extract_arg]
    exact ((ha.operand kIndex).opens (by rfl)
      (hopen.append (hb.reads.opens (by rfl) hclose))).seals.reads
  · refine (ha.head_tight (by decide) fun hlt => ?_).append (stops_cons.2 (by decide))
    cases a
    case negative n => cases hs
    case index a b => exact absurd hlt (Nat.lt_irrefl _)
    all_goals rfl

theorem collate (ha : Rendered a ea) (coll : BuiltinCollation) :
    Rendered (.collate a coll) (ea.collate coll.collation) := by
  have hcollate : Opens lex " COLLATE ".toList [Key.collate.token] :=
    opens_const (by decide) (by decide)
  refine of_loose kCollate rfl rfl (by decide) rfl (ha.inner kCollate) (collate_text ea _) ?_
  rw [collation_eq]
  exact (ha.operand kCollate).append (by rfl) (hcollate.seal (seals_quoted coll.name)).reads

theorem neg (ha : Rendered a ea) (hs : a.signed = false) : Rendered (.neg a) ea.neg :=
  of_loose kUnaryPlus rfl rfl (by decide) rfl (ha.inner kUnaryPlus) (neg_text ea)
    ((ha.operand kUnaryPlus).minus (ha.head_tight (Nat.le_refl _) fun _ => hs))

theorem prefixOp (ha : Rendered a ea) {op : Text} {e : Expr} (h : Expr.prefixOp op ea = .ok e) :
    Rendered (.prefixOp op a) e := by
  simp only [Expr.prefixOp, bind_ok, pure_ok] at h
  obtain ⟨_, hv, rfl⟩ := h
  obtain ⟨hne, ho, hc⟩ := operator_of_ok hv
  have hformed : (prefixForm op (bracket kUnaryPlus a.prec (a.surf none))).Formed :=
    foldr_formed _ (ha.inner kUnaryPlus)
  refine of_loose kUnaryPlus rfl rfl (by decide) rfl hformed (prefixOp_text ea op kUnaryPlus) ?_
  show Reads lex _ (prefixForm op _).tokens
  rw [prefixForm, foldr_tokens]
  exact (opens_pieces hne ho hc).reads (ha.operand kUnaryPlus)

theorem bin (op : BinOp) (ha : Rendered a ea) (hb : Rendered b eb) :
    Rendered (.bin op a b) ⟨Expr.binaryNode op.prec op.name ea eb⟩ := by
  have ho : Opens lex (' ' :: (op.name ++ [' '])) [.op op.name] := by
    cases op <;> exact opens_const (by decide) (by decide)
  have hx : ∀ r, leads (' ' :: (op.name ++ [' ']) ++ r) = true := fun r => by cases op <;> rfl
  exact of_loose op.prec rfl rfl (by cases op <;> decide) rfl ⟨ha.inner op.prec, hb.inner op.prec⟩
    (binaryNode_text ea eb _ _)
    (ha.around hb op.prec hx ho)

theorem binaryOp (ha : Rendered a ea) (hb : Rendered b eb) {op : Text} {e : Expr}
    (h : ea.binaryOp op eb = .ok e) : Rendered (.binaryOp op a b) e := by
  simp only [Expr.binaryOp, bind_ok, pure_ok] at h
  obtain ⟨_, hv, rfl⟩ := h
  obtain ⟨hne, ho, hc⟩ := operator_of_ok hv
  have hspace : Opens lex [' '] [] := opens_const (by decide) (by decide)
  refine of_loose kAnyOther rfl rfl (by decide) rfl
    ⟨ha.inner kAnyOther, foldr_formed _ (hb.inner kAnyOther)⟩ (binaryNode_text ea eb _ _) ?_
  show Reads lex _ (binForm op _ _).tokens
  rw [binForm_tokens]
  exact ha.around hb kAnyOther (operator_leads hv) (hspace.append (opens_pieces hne ho hc))

theorem compare (op : CompareOp) (ha : Rendered a ea) (hb : Rendered b eb) :
    Rendered (.compare op a b) (op.apply ea eb).toExpr := by
  have hnode : (op.apply ea eb).toExpr = ⟨Expr.binaryNode kCompare op.name ea eb⟩ :=
    congrArg Expr.mk (applyCompare_text op ea eb)
  have ho : Opens lex (' ' :: (op.name ++ [' '])) [.op op.name] := by
    cases op <;> exact opens_const (by decide) (by decide)
  have hx : ∀ r, leads (' ' :: (op.name ++ [' ']) ++ r) = true := fun r => by cases op <;> rfl
  rw [hnode]
  exact of_loose kCompare rfl rfl (by decide) rfl ⟨ha.inner kCompare, hb.inner kCompare⟩
    (binaryNode_text ea eb _ _)
    (ha.around hb kCompare hx ho)

theorem between (neg : Bool) (ha : Rendered a ea) (hb : Rendered b eb) (hc : Rendered c ec) :
    Rendered (.between neg a b c)
      (if neg then ea.notBetween eb ec else ea.between eb ec).toExpr := by
  have hr := ha.operand kBetween
  have hand : Opens lex " AND ".toList [Key.and.token] := opens_const (by decide) (by decide)
  have htail := hb.around hc kBetween (fun _ => by rfl) hand
  cases neg
  · have ho : Opens lex " BETWEEN ".toList [Key.between.token] :=
      opens_const (by decide) (by decide)
    exact of_loose kBetween rfl rfl (by decide) rfl
      ⟨ha.inner kBetween, hb.inner kBetween, hc.inner kBetween⟩ (betweenNode_text ea eb ec _)
      (hr.append (by rfl) (ho.reads htail))
  · have ho : Opens lex " NOT BETWEEN ".toList [Key.not.token, Key.between.token] :=
      opens_const (by decide) (by decide)
    exact of_loose kBetween rfl rfl (by decide) rfl
      ⟨ha.inner kBetween, hb.inner kBetween, hc.inner kBetween⟩ (betweenNode_text ea eb ec _)
      (hr.append (by rfl) (ho.reads htail))

theorem like (op : LikeOp) (neg : Bool) (ha : Rendered a ea) (hb : Rendered b eb) :
    Rendered (.like op neg a b) (applyLike op neg ea eb).toExpr := by
  have ho : Opens lex (likeText op neg) (notTokens neg ++ op.tokens) := by
    cases op <;> cases neg <;> exact opens_const (by decide) (by decide)
  have hx : ∀ r, leads (likeText op neg ++ r) = true := fun r => by
    cases op <;> cases neg <;> rfl
  have hreads := ha.around hb kBetween hx ho
  rw [List.append_assoc] at hreads
  rw [applyLike_eq]
  exact of_loose kBetween rfl rfl (by decide) rfl ⟨ha.inner kBetween, hb.inner kBetween⟩
    (likeNode_text ea eb _) hreads

/-- `IN` and `NOT IN`, by what stands between the operand and the bracket. -/
theorem inList {l : List Tree} {es : List Expr} {x : Text} {r : Condition} (neg : Bool)
    (ha : Rendered a ea) (hl : List.Forall₂ Rendered l es)
    (ho : Opens lex x (notTokens neg ++ [Key.in.token])) (hx : ∀ y, leads (x ++ y) = true)
    (h : Expr.buildInListNode ea x es = .ok r) : Rendered (.isIn neg a l) r.toExpr := by
  obtain ⟨hne, hp, ht⟩ := buildInListNode_ok ea h
  have hopen : Opens lex ['('] [.punct '('] := opens_const (by decide) (by decide)
  have hreads := (ha.operand kBetween).append (hx _)
    (ho.append (hopen.append (argsText_opens hl))).seals.reads
  rw [List.append_assoc] at hreads
  have hne' : surfs l ≠ [] := by
    refine surfs_ne_nil ?_
    rintro rfl
    cases hl
    exact hne rfl
  refine of_loose kBetween hp rfl (by decide) rfl
    (inForm_formed ⟨ha.inner kBetween, surfs_formed hl, hne'⟩) ht ?_
  show Reads lex _ (inForm neg _ _).tokens
  rw [inForm_tokens]
  exact hreads

theorem isIn {l : List Tree} {es : List Expr} (neg : Bool) (ha : Rendered a ea)
    (hl : List.Forall₂ Rendered l es) {r : Condition}
    (h : (if neg then ea.notIn es else ea.isIn es) = .ok r) :
    Rendered (.isIn neg a l) r.toExpr := by
  cases neg
  · exact ha.inList false hl (x := " IN ".toList) (opens_const (by decide) (by decide))
      (fun _ => by rfl) h
  · exact ha.inList true hl (x := " NOT IN ".toList) (opens_const (by decide) (by decide))
      (fun _ => by rfl) h

/-- A predicate with a query on its right, by what stands between. -/
theorem query {t : Tree} (p : OperatorPrecedence) {x : Text} {ts : List Token} {q : Subquery}
    {r : Condition} (ha : Rendered a ea) (ht : t.prec = p) (hl : kUnaryPlus.toNat ≤ p.toNat)
    (hf : (t.surf none).Formed) (htok : (t.surf none).tokens = (bracket p a.prec (a.surf none)).tokens ++
      (ts ++ bracketed q.tokens)) (ho : Opens lex x ts) (hx : ∀ y, leads (x ++ y) = true)
    (h : Expr.subqueryNode p x ea q.table = .ok r) : Rendered t r.toExpr := by
  obtain ⟨hp, hr⟩ := subqueryNode_eq h
  refine of_loose p hp ht hl rfl hf hr ?_
  rw [htok]
  exact (ha.operand p).append (hx _) (ho.append q.opens).seals.reads

theorem inQuery (neg : Bool) (q : Subquery) {r : Condition} (ha : Rendered a ea)
    (h : (if neg then ea.notInSubquery q.table else ea.inSubquery q.table) = .ok r) :
    Rendered (.inQuery neg a q) r.toExpr := by
  cases neg
  · have ho : Opens lex " IN ".toList [Key.in.token] := opens_const (by decide) (by decide)
    exact ha.query kBetween rfl (by decide) (ha.inner kBetween) rfl ho (fun _ => by rfl) h
  · have ho : Opens lex " NOT IN ".toList [Key.not.token, Key.in.token] :=
      opens_const (by decide) (by decide)
    exact ha.query kBetween rfl (by decide) (ha.inner kBetween) rfl ho (fun _ => by rfl) h

theorem eqAnyQuery (q : Subquery) {r : Condition} (ha : Rendered a ea)
    (h : ea.eqAnySubquery q.table = .ok r) : Rendered (.eqAnyQuery a q) r.toExpr := by
  have ho : Opens lex " = ANY ".toList [.op "=".toList, Key.any.token] :=
    opens_const (by decide) (by decide)
  exact ha.query kCompare rfl (by decide) (ha.inner kCompare) rfl ho (fun _ => by rfl) h

theorem neAllQuery (q : Subquery) {r : Condition} (ha : Rendered a ea)
    (h : ea.neAllSubquery q.table = .ok r) : Rendered (.neAllQuery a q) r.toExpr := by
  have ho : Opens lex " <> ALL ".toList [.op "<>".toList, Key.all.token] :=
    opens_const (by decide) (by decide)
  exact ha.query kCompare rfl (by decide) (ha.inner kCompare) rfl ho (fun _ => by rfl) h

theorem eqAny (ha : Rendered a ea) (hb : Rendered b eb) :
    Rendered (.eqAny a b) (ea.eqAny eb).toExpr := by
  have hclose : Opens lex [')'] [.punct ')'] := opens_const (by decide) (by decide)
  have ho : Opens lex " = ANY (".toList [.op "=".toList, Key.any.token, .punct '('] :=
    opens_const (by decide) (by decide)
  refine of_loose kCompare rfl rfl (by decide) rfl (quantForm_formed ⟨ha.inner kCompare, hb.formed⟩)
    (quantNode_text ea eb _) ?_
  have := (ha.operand kCompare).opens (by rfl) (ho.append (hb.reads.opens (by rfl) hclose))
  rw [← hb.extract_arg] at this
  show Reads lex _ (quantForm _ _ _ _).tokens
  rw [quantForm_tokens]
  exact this.seals.reads

theorem neAll (ha : Rendered a ea) (hb : Rendered b eb) :
    Rendered (.neAll a b) (ea.neAll eb).toExpr := by
  have hclose : Opens lex [')'] [.punct ')'] := opens_const (by decide) (by decide)
  have ho : Opens lex " <> ALL (".toList [.op "<>".toList, Key.all.token, .punct '('] :=
    opens_const (by decide) (by decide)
  refine of_loose kCompare rfl rfl (by decide) rfl (quantForm_formed ⟨ha.inner kCompare, hb.formed⟩)
    (quantNode_text ea eb _) ?_
  have := (ha.operand kCompare).opens (by rfl) (ho.append (hb.reads.opens (by rfl) hclose))
  rw [← hb.extract_arg] at this
  show Reads lex _ (quantForm _ _ _ _).tokens
  rw [quantForm_tokens]
  exact this.seals.reads

theorem is (op : IsOp) (ha : Rendered a ea) : Rendered (.is op a) (op.apply ea).toExpr := by
  have ho : Reads lex (isText op) (Key.is.token :: (notTokens op.negated ++ [op.test.token])) := by
    cases op <;> exact reads_const (by decide) (by decide)
  rw [applyIs_eq]
  exact of_loose kIs rfl rfl (by decide) rfl (ha.inner kIs) (isNode_text ea _)
    ((ha.operand kIs).append (by cases op <;> rfl) ho)

theorem distinctFrom (neg : Bool) (ha : Rendered a ea) (hb : Rendered b eb) :
    Rendered (.distinctFrom neg a b)
      (if neg then ea.isNotDistinctFrom eb else ea.isDistinctFrom eb).toExpr := by
  cases neg
  · have ho : Opens lex " IS DISTINCT FROM ".toList [Key.is.token, Key.distinct.token,
        Key.from.token] := opens_const (by decide) (by decide)
    exact of_loose kIs rfl rfl (by decide) rfl ⟨ha.inner kIs, hb.inner kIs⟩
      (distinctNode_text ea eb _)
      (ha.around hb kIs (fun _ => by rfl) ho)
  · have ho : Opens lex " IS NOT DISTINCT FROM ".toList [Key.is.token, Key.not.token,
        Key.distinct.token, Key.from.token] := opens_const (by decide) (by decide)
    exact of_loose kIs rfl rfl (by decide) rfl ⟨ha.inner kIs, hb.inner kIs⟩
      (distinctNode_text ea eb _)
      (ha.around hb kIs (fun _ => by rfl) ho)

theorem not_reads (ha : Rendered a ea) :
    Reads lex ("NOT ".toList ++ ea.extract kNot)
      (Key.not.token :: (bracket kNot a.prec (a.surf none)).tokens) := by
  have ho : Opens lex "NOT ".toList [Key.not.token] := opens_const (by decide) (by decide)
  exact ho.reads (ha.operand kNot)

theorem exprNot (ha : Rendered a ea) : Rendered (.exprNot a) ea.not :=
  of_loose kNot rfl rfl (by decide) rfl (ha.inner kNot) (not_text ea) ha.not_reads

theorem condNot (ha : Rendered a ea) : Rendered (.condNot a) ea.toCondition.not.toExpr :=
  of_loose kNot rfl rfl (by decide) rfl (ha.inner kNot) (condition_not_text ea.toCondition) ha.not_reads

theorem and (ha : Rendered a ea) (hb : Rendered b eb) :
    Rendered (.and a b) (ea.toCondition.and eb.toCondition).toExpr := by
  have ho : Opens lex " AND ".toList [Key.and.token] := opens_const (by decide) (by decide)
  exact of_loose kAnd rfl rfl (by decide) rfl ⟨ha.inner kAnd, hb.inner kAnd⟩
    (and_text ea.toCondition eb.toCondition)
    (ha.around hb kAnd (fun _ => by rfl) ho)

theorem or (ha : Rendered a ea) (hb : Rendered b eb) :
    Rendered (.or a b) (ea.toCondition.or eb.toCondition).toExpr := by
  have ho : Opens lex " OR ".toList [Key.or.token] := opens_const (by decide) (by decide)
  exact of_loose kOr rfl rfl (by decide) rfl ⟨ha.inner kOr, hb.inner kOr⟩
    (or_text ea.toCondition eb.toCondition)
    (ha.around hb kOr (fun _ => by rfl) ho)

theorem call_plain {name : Text} {l : List Tree} {es : List Expr} {e : Expr}
    (hn : isPathName name = true) (hl : List.Forall₂ Rendered l es) (h : Expr.call name es = .ok e) :
    Rendered (.call name false l) e := by
  simp only [Expr.call, bind_ok, pure_ok] at h
  obtain ⟨_, hv, rfl⟩ := h
  exact call hv hn hl nofun (opens_const (by decide) (by decide))

theorem call_distinct {name : Text} {l : List Tree} {es : List Expr} {e : Expr}
    (hn : isPathName name = true) (hl : List.Forall₂ Rendered l es) (h : Expr.callDistinct name es = .ok e) :
    Rendered (.call name true l) e := by
  simp only [Expr.callDistinct, bind_ok, pure_ok] at h
  obtain ⟨_, hv, _, hargs, rfl⟩ := h
  have hne : l ≠ [] := by
    rintro rfl
    cases hl
    cases hargs
  exact call hv hn hl (fun _ => hne) (opens_const (by decide) (by decide))

theorem text_ne_nil (h : Rendered a ea) : ea.toString ≠ [] := fun he => by
  have hr := h.reads.view_eq lex_nil
  rw [he] at hr
  exact tokens_ne_nil (a.surf none) hr.symm

theorem keptElse {els : Option Tree} {eo : Option Expr} (h : Option.Rel Rendered els eo) :
    IronQuery.keptElse eo = eo := by
  cases h with
  | none => rfl
  | some hx => simp [IronQuery.keptElse, Option.filter, hx.text_ne_nil]

theorem case {whens : List (Tree × Tree)} {els : Option Tree} {ps : List (Expr × Expr)}
    {eo : Option Expr} (hne : whens ≠ []) (hw : List.Forall₂ RenderedWhen whens ps)
    (he : Option.Rel Rendered els eo) : Rendered (.case whens els)
      (.fromRaw ("CASE ".toList ++ (whensText ps ++ elseText (IronQuery.keptElse eo)))) := by
  have hcase : Opens lex "CASE ".toList [Key.case.token] := opens_const (by decide) (by decide)
  have hseals := hcase.seal (whensText_seals hw (elseText_seals he))
  have helse : formedElse (surfElse els) := by
    cases he with
    | none => trivial
    | some hx => exact hx.formed
  have hwne : surfWhens whens ≠ [] := by
    obtain ⟨w, l, rfl⟩ := List.exists_cons_of_ne_nil hne
    simp [surfWhens]
  rw [keptElse he]
  exact of_atom rfl ⟨surfWhens_formed hw, helse, hwne⟩ rfl rfl rfl hseals
    (stops_cons.2 (by decide)) (stops_cons.2 (by decide))

end Rendered

/-! ## Whole trees -/

mutual

/-- **The text of a built tree is its syntax tree's.** -/
theorem Tree.rendered : (t : Tree) → {e : Expr} → t.Named → t.Intact → t.build = .ok e →
    Rendered t e
  | .null, _, _, _, h => by cases h; exact .null
  | .bool value, _, _, _, h => by cases h; exact .bool value
  | .placeholder n, _, _, _, h => by cases h; exact .placeholder n
  | .literal _, _, _, _, h => .literal h
  | .ident _, _, _, _, h => .ident h
  | .int value, _, _, _, h => by cases h; exact .int value
  | .negative n, _, _, _, h => by cases h; exact .negative n
  | .column _, _, hn, _, h => by cases h; exact .column hn.root
  | .qualified _ _, _, hn, _, h => by
    have hroot := hn.root
    simp only [Tree.namesOk, Bool.and_eq_true] at hroot
    exact .qualified h hroot.1 hroot.2
  | .countAll, _, _, _, h => by cases h; exact .countAll
  | .scalar q, _, _, _, h => .scalar q h
  | .exists n q, _, _, _, h => by
    cases n with
    | false =>
      obtain ⟨_, hc, hx⟩ := bind_ok.1 h
      cases hx
      exact .exists false q hc
    | true =>
      obtain ⟨_, hc, hx⟩ := bind_ok.1 h
      cases hx
      exact .exists true q hc
  | .dot a b, _, hn, hi, h => by
    obtain ⟨-, hna, hnb⟩ := (all_two rfl).1 hn
    obtain ⟨hroot, hia, hib⟩ := (all_two rfl).1 hi
    simp only [Tree.intactAt, Bool.and_eq_true, Bool.not_eq_true'] at hroot
    simp only [Tree.build, bind_ok, pure_ok] at h
    obtain ⟨_, ha, _, hb, rfl⟩ := h
    exact (a.rendered hna hia ha).dot (b.rendered hnb hib hb) hroot.1 hroot.2 hnb.root
  | .castRaw a _, _, hn, hi, h => by
    obtain ⟨hroot, hna⟩ := (all_one rfl).1 hn
    obtain ⟨-, hia⟩ := (all_one rfl).1 hi
    simp only [Tree.build, bind_ok, pure_ok] at h
    obtain ⟨_, ha, rfl⟩ := h
    exact (a.rendered hna hia ha).castRaw hroot
  | .index a b, _, hn, hi, h => by
    obtain ⟨-, hna, hnb⟩ := (all_two rfl).1 hn
    obtain ⟨-, hia, hib⟩ := (all_two rfl).1 hi
    simp only [Tree.build, bind_ok, pure_ok] at h
    obtain ⟨_, ha, _, hb, rfl⟩ := h
    exact (a.rendered hna hia ha).index (b.rendered hnb hib hb)
  | .collate a coll, _, hn, hi, h => by
    obtain ⟨-, hna⟩ := (all_one rfl).1 hn
    obtain ⟨-, hia⟩ := (all_one rfl).1 hi
    simp only [Tree.build, bind_ok, pure_ok] at h
    obtain ⟨_, ha, rfl⟩ := h
    exact (a.rendered hna hia ha).collate coll
  | .neg a, _, hn, hi, h => by
    obtain ⟨-, hna⟩ := (all_one rfl).1 hn
    obtain ⟨hroot, hia⟩ := (all_one rfl).1 hi
    simp only [Tree.build, bind_ok, pure_ok] at h
    obtain ⟨_, ha, rfl⟩ := h
    exact (a.rendered hna hia ha).neg (by simpa [Tree.intactAt] using hroot)
  | .prefixOp op a, _, hn, hi, h => by
    obtain ⟨-, hna⟩ := (all_one rfl).1 hn
    obtain ⟨-, hia⟩ := (all_one rfl).1 hi
    simp only [Tree.build, bind_ok] at h
    obtain ⟨_, ha, h⟩ := h
    exact (a.rendered hna hia ha).prefixOp h
  | .bin op a b, _, hn, hi, h => by
    obtain ⟨-, hna, hnb⟩ := (all_two rfl).1 hn
    obtain ⟨-, hia, hib⟩ := (all_two rfl).1 hi
    simp only [Tree.build, bind_ok, applyBin_eq, Except.ok.injEq] at h
    obtain ⟨_, ha, _, hb, rfl⟩ := h
    exact (a.rendered hna hia ha).bin op (b.rendered hnb hib hb)
  | .binaryOp op a b, _, hn, hi, h => by
    obtain ⟨-, hna, hnb⟩ := (all_two rfl).1 hn
    obtain ⟨-, hia, hib⟩ := (all_two rfl).1 hi
    simp only [Tree.build, bind_ok] at h
    obtain ⟨_, ha, _, hb, h⟩ := h
    exact (a.rendered hna hia ha).binaryOp (b.rendered hnb hib hb) h
  | .between n a b c, _, hn, hi, h => by
    obtain ⟨-, hna, hnb, hnc⟩ := (all_three rfl).1 hn
    obtain ⟨-, hia, hib, hic⟩ := (all_three rfl).1 hi
    simp only [Tree.build, bind_ok, pure_ok] at h
    obtain ⟨_, ha, _, hb, _, hc, rfl⟩ := h
    exact (a.rendered hna hia ha).between n (b.rendered hnb hib hb) (c.rendered hnc hic hc)
  | .like op n a b, _, hn, hi, h => by
    obtain ⟨-, hna, hnb⟩ := (all_two rfl).1 hn
    obtain ⟨-, hia, hib⟩ := (all_two rfl).1 hi
    simp only [Tree.build, bind_ok, pure_ok] at h
    obtain ⟨_, ha, _, hb, rfl⟩ := h
    exact (a.rendered hna hia ha).like op n (b.rendered hnb hib hb)
  | .isIn n a values, _, hn, hi, h => by
    obtain ⟨-, hna, hnl⟩ := all_isIn.1 hn
    obtain ⟨-, hia, hil⟩ := all_isIn.1 hi
    simp only [Tree.build, bind_ok] at h
    obtain ⟨_, ha, _, hl, h⟩ := h
    have hlist := rendered_list values hnl hil (buildList_ok hl)
    cases n with
    | false =>
      obtain ⟨_, hr, hx⟩ := bind_ok.1 h
      cases hx
      exact (a.rendered hna hia ha).isIn false hlist hr
    | true =>
      obtain ⟨_, hr, hx⟩ := bind_ok.1 h
      cases hx
      exact (a.rendered hna hia ha).isIn true hlist hr
  | .compare op a b, _, hn, hi, h => by
    obtain ⟨-, hna, hnb⟩ := (all_two rfl).1 hn
    obtain ⟨-, hia, hib⟩ := (all_two rfl).1 hi
    simp only [Tree.build, bind_ok, pure_ok] at h
    obtain ⟨_, ha, _, hb, rfl⟩ := h
    exact (a.rendered hna hia ha).compare op (b.rendered hnb hib hb)
  | .eqAny a b, _, hn, hi, h => by
    obtain ⟨-, hna, hnb⟩ := (all_two rfl).1 hn
    obtain ⟨-, hia, hib⟩ := (all_two rfl).1 hi
    simp only [Tree.build, bind_ok, pure_ok] at h
    obtain ⟨_, ha, _, hb, rfl⟩ := h
    exact (a.rendered hna hia ha).eqAny (b.rendered hnb hib hb)
  | .neAll a b, _, hn, hi, h => by
    obtain ⟨-, hna, hnb⟩ := (all_two rfl).1 hn
    obtain ⟨-, hia, hib⟩ := (all_two rfl).1 hi
    simp only [Tree.build, bind_ok, pure_ok] at h
    obtain ⟨_, ha, _, hb, rfl⟩ := h
    exact (a.rendered hna hia ha).neAll (b.rendered hnb hib hb)
  | .inQuery n a q, _, hn, hi, h => by
    obtain ⟨-, hna⟩ := (all_one rfl).1 hn
    obtain ⟨-, hia⟩ := (all_one rfl).1 hi
    simp only [Tree.build, bind_ok] at h
    obtain ⟨_, ha, h⟩ := h
    cases n with
    | false =>
      obtain ⟨_, hr, hx⟩ := bind_ok.1 h
      cases hx
      exact (a.rendered hna hia ha).inQuery false q hr
    | true =>
      obtain ⟨_, hr, hx⟩ := bind_ok.1 h
      cases hx
      exact (a.rendered hna hia ha).inQuery true q hr
  | .eqAnyQuery a q, _, hn, hi, h => by
    obtain ⟨-, hna⟩ := (all_one rfl).1 hn
    obtain ⟨-, hia⟩ := (all_one rfl).1 hi
    simp only [Tree.build, bind_ok, pure_ok] at h
    obtain ⟨_, ha, _, hc, rfl⟩ := h
    exact (a.rendered hna hia ha).eqAnyQuery q hc
  | .neAllQuery a q, _, hn, hi, h => by
    obtain ⟨-, hna⟩ := (all_one rfl).1 hn
    obtain ⟨-, hia⟩ := (all_one rfl).1 hi
    simp only [Tree.build, bind_ok, pure_ok] at h
    obtain ⟨_, ha, _, hc, rfl⟩ := h
    exact (a.rendered hna hia ha).neAllQuery q hc
  | .is op a, _, hn, hi, h => by
    obtain ⟨-, hna⟩ := (all_one rfl).1 hn
    obtain ⟨-, hia⟩ := (all_one rfl).1 hi
    simp only [Tree.build, bind_ok, pure_ok] at h
    obtain ⟨_, ha, rfl⟩ := h
    exact (a.rendered hna hia ha).is op
  | .distinctFrom n a b, _, hn, hi, h => by
    obtain ⟨-, hna, hnb⟩ := (all_two rfl).1 hn
    obtain ⟨-, hia, hib⟩ := (all_two rfl).1 hi
    simp only [Tree.build, bind_ok, pure_ok] at h
    obtain ⟨_, ha, _, hb, rfl⟩ := h
    exact (a.rendered hna hia ha).distinctFrom n (b.rendered hnb hib hb)
  | .exprNot a, _, hn, hi, h => by
    obtain ⟨-, hna⟩ := (all_one rfl).1 hn
    obtain ⟨-, hia⟩ := (all_one rfl).1 hi
    simp only [Tree.build, bind_ok, pure_ok] at h
    obtain ⟨_, ha, rfl⟩ := h
    exact (a.rendered hna hia ha).exprNot
  | .condNot a, _, hn, hi, h => by
    obtain ⟨-, hna⟩ := (all_one rfl).1 hn
    obtain ⟨-, hia⟩ := (all_one rfl).1 hi
    simp only [Tree.build, bind_ok, pure_ok] at h
    obtain ⟨_, ha, rfl⟩ := h
    exact (a.rendered hna hia ha).condNot
  | .and a b, _, hn, hi, h => by
    obtain ⟨-, hna, hnb⟩ := (all_two rfl).1 hn
    obtain ⟨-, hia, hib⟩ := (all_two rfl).1 hi
    simp only [Tree.build, bind_ok, pure_ok] at h
    obtain ⟨_, ha, _, hb, rfl⟩ := h
    exact (a.rendered hna hia ha).and (b.rendered hnb hib hb)
  | .or a b, _, hn, hi, h => by
    obtain ⟨-, hna, hnb⟩ := (all_two rfl).1 hn
    obtain ⟨-, hia, hib⟩ := (all_two rfl).1 hi
    simp only [Tree.build, bind_ok, pure_ok] at h
    obtain ⟨_, ha, _, hb, rfl⟩ := h
    exact (a.rendered hna hia ha).or (b.rendered hnb hib hb)
  | .call name distinct args, _, hn, hi, h => by
    obtain ⟨hroot, hnl⟩ := all_call.1 hn
    obtain ⟨-, hil⟩ := all_call.1 hi
    simp only [Tree.build, bind_ok] at h
    obtain ⟨_, hl, hcall⟩ := h
    have hargs := rendered_list args hnl hil (buildList_ok hl)
    cases distinct with
    | false => exact .call_plain hroot hargs hcall
    | true => exact .call_distinct hroot hargs hcall
  | .case whens els, _, hn, hi, h => by
    obtain ⟨-, hnw, hne⟩ := all_case.1 hn
    obtain ⟨-, hiw, hie⟩ := all_case.1 hi
    obtain ⟨ps, eo, hps, heo, hwne, rfl⟩ := case_built h
    exact .case hwne (rendered_whens whens hnw hiw hps) (rendered_else els hne hie heo)

theorem rendered_list : (l : List Tree) → {es : List Expr} → (∀ t ∈ l, t.Named) →
    (∀ t ∈ l, t.Intact) → List.Forall₂ (fun t e => t.build = .ok e) l es →
    List.Forall₂ Rendered l es
  | [], _, _, _, h => by cases h; exact .nil
  | t :: l, _, hn, hi, h => by
    obtain _ | ⟨ht, hl⟩ := h
    exact .cons (t.rendered (hn t (.head _)) (hi t (.head _)) ht)
      (rendered_list l (fun s hs => hn s (.tail _ hs)) (fun s hs => hi s (.tail _ hs)) hl)

theorem rendered_whens : (l : List (Tree × Tree)) → {ps : List (Expr × Expr)} →
    (∀ w ∈ l, w.1.Named ∧ w.2.Named) → (∀ w ∈ l, w.1.Intact ∧ w.2.Intact) →
    List.Forall₂ BuiltWhen l ps → List.Forall₂ RenderedWhen l ps
  | [], _, _, _, h => by cases h; exact .nil
  | (c, r) :: l, _, hn, hi, h => by
    obtain _ | ⟨hw, hl⟩ := h
    obtain ⟨hnc, hnr⟩ := hn (c, r) (.head _)
    obtain ⟨hic, hir⟩ := hi (c, r) (.head _)
    exact .cons ⟨c.rendered hnc hic hw.1, r.rendered hnr hir hw.2⟩
      (rendered_whens l (fun w hw => hn w (.tail _ hw)) (fun w hw => hi w (.tail _ hw)) hl)

theorem rendered_else : (o : Option Tree) → {eo : Option Expr} → (∀ e, o = some e → e.Named) →
    (∀ e, o = some e → e.Intact) → Option.Rel (fun t e => t.build = .ok e) o eo →
    Option.Rel Rendered o eo
  | none, _, _, _, h => by cases h; exact .none
  | some e, _, hn, hi, h => by
    obtain he | _ := h
    exact .some (e.rendered (hn e rfl) (hi e rfl) he)

end

end IronQuery
