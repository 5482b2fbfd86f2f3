import IronQuery.Proof.TreeFits

/-!
# What is open at the edges of an operand

The renderer brackets an operand by the precedence it was built with. Three things it does not see
decide whether what stands without brackets fits PostgreSQL's table:

* a prefix operator that is open at the right edge of an operand, in front of a tighter operator
  (`Tree.edgesFit`);
* an operand of a `BinaryOp` that is no tighter than the row of its name (`Tree.rowsFit`);
* a `BinaryOp` that compares, as an operand of a comparison or of `BETWEEN`, `LIKE` or `IN`
  (`Tree.comparesFit`).

`fits_iff`: they are all there is to it.
-/

namespace IronQuery

open OperatorPrecedence Pg

/-- The operand stands in no brackets. -/
def Place.bare (p : Place) : Bool := p.operand.prec.toNat < p.context.toNat

/-- PostgreSQL's row of the operator at the root: the name of a `BinaryOp` decides on its. -/
def Tree.row : Tree → Level
  | .binaryOp op _ _ => opLevel op
  | t => t.prec.toNat

/-- What an operand of precedence `p` leaves open in the context `ctx`, if it leaves `n` open on its
own. -/
def edgeIn (ctx p : OperatorPrecedence) (n : Level) : Level := if ctx.toNat ≤ p.toNat then 0 else n

/-- The loosest prefix operator that the text of the tree leaves open at its right edge, outside
brackets. -/
def Tree.edge : Tree → Level
  | .negative _ => Level.sign
  | .exists true _ => Level.not
  | .neg a => max Level.sign (edgeIn kUnaryPlus a.prec a.edge)
  | .prefixOp op a => max (prefixLevel op) (edgeIn kUnaryPlus a.prec a.edge)
  | .exprNot a | .condNot a => max Level.not (edgeIn kNot a.prec a.edge)
  | .dot _ b => edgeIn kDot b.prec b.edge
  | .bin op _ b => edgeIn op.prec b.prec b.edge
  | .binaryOp _ _ b => edgeIn kAnyOther b.prec b.edge
  | .between _ _ _ b | .like _ _ _ b => edgeIn kBetween b.prec b.edge
  | .compare _ _ b => edgeIn kCompare b.prec b.edge
  | .distinctFrom _ _ b => edgeIn kIs b.prec b.edge
  | .and _ b => edgeIn kAnd b.prec b.edge
  | .or _ b => edgeIn kOr b.prec b.edge
  | _ => 0

/-- No operand leaves a prefix operator open in front of a tighter operator. -/
def Tree.edgesFit (t : Tree) : Bool := t.left.all fun p => !p.bare || p.operand.edge ≤ p.row

/-- The operands of a `BinaryOp` that stand in no brackets are tighter than the row of its name, the
one in front no looser. -/
def Tree.rowsFit (t : Tree) : Bool :=
  !t.isBinaryOp ||
    ((t.left.all fun p => !p.bare || p.operand.prec.toNat ≤ p.row) &&
      t.right.all fun p => !p.bare || p.operand.prec.toNat < p.row)

/-- A `BinaryOp` in the row of the comparisons. -/
def Tree.compares : Tree → Bool
  | .binaryOp op _ _ => opLevel op == Level.compare
  | _ => false

/-- No `BinaryOp` that compares is an operand of `BETWEEN`, `LIKE`, `IN` or a comparison. -/
def Tree.comparesFit (t : Tree) : Bool :=
  (t.left ++ t.right).all fun p =>
    !p.operand.compares || !(p.context == kBetween || p.context == kCompare)

/-! ## Rows -/

theorem bin_row (op : BinOp) : opLevel op.name = op.prec.toNat := by cases op <;> decide

theorem compare_row (op : CompareOp) : opLevel op.name = Level.compare := by cases op <;> decide

/-- The row of a name is one of the five of the table. -/
theorem opLevel_cases (op : Text) : Level.exp ≤ opLevel op ∧
    (opLevel op ≤ Level.other ∨ opLevel op = Level.compare) := by
  unfold opLevel
  repeat' split
  all_goals decide

/-- PostgreSQL's row of an operator is the context the renderer gives to its first operand. -/
theorem left_row {t : Tree} (h : t.isBinaryOp = false) {p : Place} (hp : p ∈ t.left) :
    p.row = p.context.toNat := by
  cases t
  case binaryOp op a b => cases h
  case bin op a b => rw [List.mem_singleton.1 hp]; exact bin_row op
  case compare op a b => rw [List.mem_singleton.1 hp]; exact compare_row op
  all_goals first
    | (rw [List.mem_singleton.1 hp]; rfl)
    | cases hp

theorem prefixLevel_ge (op : Text) : kUnaryPlus.toNat ≤ prefixLevel op := by
  unfold prefixLevel
  split <;> decide

/-- It is no tighter than the context of an operand behind it. -/
theorem right_row {t : Tree} (h : t.isBinaryOp = false) {p : Place} (hp : p ∈ t.right) :
    Level.dot < p.context.toNat ∧ p.context.toNat ≤ p.row := by
  cases t
  case binaryOp op a b => cases h
  case bin op a b =>
    rw [List.mem_singleton.1 hp]
    exact ⟨by cases op <;> (dsimp only; decide), Nat.le_of_eq (bin_row op).symm⟩
  case compare op a b =>
    rw [List.mem_singleton.1 hp]
    exact ⟨by dsimp only; decide, Nat.le_of_eq (compare_row op).symm⟩
  case prefixOp op a =>
    rw [List.mem_singleton.1 hp]
    exact ⟨by dsimp only; decide, prefixLevel_ge op⟩
  case between neg a b c =>
    simp only [Tree.right, List.mem_cons, List.not_mem_nil, or_false] at hp
    rcases hp with rfl | rfl <;> (dsimp only; decide)
  all_goals first
    | (rw [List.mem_singleton.1 hp]; dsimp only; decide)
    | cases hp

/-- An operand in no brackets is tighter than its context, in PostgreSQL's rows too. -/
theorem bare_row {t : Tree} (ht : t.comparesFit = true) {p : Place} (hp : p ∈ t.left ++ t.right)
    (hb : p.bare = true) : p.operand.row < p.context.toNat := by
  have hbare : p.operand.prec.toNat < p.context.toNat := of_decide_eq_true hb
  have hfit := List.all_eq_true.1 ht p hp
  obtain ⟨ctx, operand, row⟩ := p
  cases operand
  case binaryOp op a b =>
    rcases (opLevel_cases op).2 with h | h
    · exact Nat.lt_of_le_of_lt h hbare
    · show opLevel op < ctx.toNat
      have hcmp : (Tree.binaryOp op a b).compares = true := by simp [Tree.compares, h]
      simp only [hcmp, Bool.not_true, Bool.false_or, Bool.not_eq_true', Bool.or_eq_false_iff,
        beq_eq_false_iff_ne] at hfit
      rw [h]
      revert hbare hfit
      cases ctx <;> simp [Tree.prec, OperatorPrecedence.toNat, Level.compare]
  all_goals exact hbare

/-- The operands of a `BinaryOp` in no brackets are none. -/
theorem bare_binaryOp {t : Tree} (ht : t.isBinaryOp = true) {p : Place} (hp : p ∈ t.left ++ t.right)
    (hb : p.bare = true) : p.operand.row = p.operand.prec.toNat := by
  have hbare : p.operand.prec.toNat < p.context.toNat := of_decide_eq_true hb
  cases t
  case binaryOp op a b =>
    have hctx : p.context = kAnyOther := by
      simp only [Tree.left, Tree.right, List.cons_append, List.nil_append, List.mem_cons,
        List.not_mem_nil, or_false] at hp
      rcases hp with rfl | rfl <;> rfl
    rw [hctx] at hbare
    cases hop : p.operand
    case binaryOp op' a' b' =>
      rw [hop] at hbare
      exact absurd hbare (Nat.lt_irrefl _)
    all_goals rfl
  all_goals cases ht

theorem left_pos {t : Tree} {p : Place} (hp : p ∈ t.left) : 0 < p.context.toNat := by
  cases t <;> simp only [Tree.left, List.mem_singleton, List.not_mem_nil] at hp <;> subst hp
  case bin op a b => cases op <;> (dsimp only; decide)
  all_goals dsimp only; decide

/-! ## The left edge -/

theorem path_head {k : Text → Sql} (hl : ∀ f, (k f).head = 0) :
    (recv : Option Sql) → (ps : List Text) → (∀ a, recv = some a → a.head ≤ Level.dot) →
      (path k recv ps).head ≤ Level.dot
  | none, [], _ | none, [_], _ => by rw [path, link, hl]; decide
  | some a, [], h | some a, [_], h => Nat.max_le.2 ⟨Nat.le_refl _, h a rfl⟩
  | none, _ :: q :: l, _ => path_head hl _ (q :: l) fun a ha => by
    cases ha
    exact Nat.zero_le _
  | some a, _ :: q :: l, h => path_head hl _ (q :: l) fun b hb => by
    cases hb
    exact Nat.max_le.2 ⟨Nat.le_refl _, h a rfl⟩

theorem path_tail {k : Text → Sql} (hl : ∀ f, (k f).tail = 0) :
    (recv : Option Sql) → (ps : List Text) → (path k recv ps).tail ≤ Level.dot
  | none, [] | none, [_] => by rw [path, link, hl]; decide
  | some _, [] | some _, [_] => Nat.max_le.2 ⟨Nat.le_refl _, by rw [hl]; decide⟩
  | _, _ :: q :: l => path_tail hl _ (q :: l)

theorem Tree.head_recv {t : Tree} {a : Sql} (ht : t.prec = kSymbol) (ha : a.head ≤ Level.dot) :
    (t.surf (some a)).head ≤ Level.dot := by
  have hr : ∀ b, some a = some b → b.head ≤ Level.dot := fun b hb => by cases hb; exact ha
  cases t
  case call name distinct args =>
    exact path_head (k := (Sql.call · distinct (surfs args))) (fun _ => rfl) _ _ hr
  all_goals exact Nat.max_le.2 ⟨Nat.le_refl _, ha⟩

theorem foldr_head (op : Text) (ops : List Text) (a : Sql) :
    ((op :: ops).foldr .pre a).head = 0 := rfl

theorem inForm_head (neg : Bool) (a : Sql) (l : List Sql) :
    (inForm neg a l).head = max Level.between a.head := by
  unfold inForm
  split <;> rfl

theorem quantForm_head (op : Text) (all : Bool) (a b : Sql) :
    (quantForm op all a b).head = max (opLevel op) a.head := by
  unfold quantForm
  split <;> rfl

/-- Of every tree in it nothing but a prefix operator is looser at an edge than its own row
(`Tree.head_le`, `Tree.tail_iff`). -/
def Tree.Sorted (t : Tree) : Prop := t.All fun s =>
  s.spelt = true ∧ s.rowsFit = true ∧ s.comparesFit = true

section
variable {t a b c : Tree}

theorem Tree.Sorted.left (h : t.Sorted) {p : Place} (hp : p ∈ t.left) : p.operand.Sorted :=
  fun s hs => h s (.tail _ (under_of_left hp hs))

theorem Tree.Sorted.right (h : t.Sorted) {p : Place} (hp : p ∈ t.right) : p.operand.Sorted :=
  fun s hs => h s (.tail _ (under_of_right hp hs))

/-- An operand in brackets shows nothing, and another is tighter than its context. -/
theorem head_place {p : Place} {n : Nat} (hn : Level.dot ≤ n)
    (hhead : (p.operand.surf none).head ≤ max Level.dot p.operand.row)
    (hrow : p.bare = true → p.operand.row ≤ n) : p.surf.head ≤ n := by
  rw [Place.surf, bracket]
  split
  · exact Nat.zero_le _
  · rename_i hc
    exact Nat.le_trans hhead (Nat.max_le.2 ⟨hn, hrow (decide_eq_true (Nat.not_le.1 hc))⟩)

/-- The operator of a root that is no `BinaryOp`, and the operand in front of it. -/
theorem head_infix {p : Place} (h : t.Sorted) (ht : t.isBinaryOp = false) (hp : p ∈ t.left)
    (hctx : p.context = t.prec) (hhead : (p.operand.surf none).head ≤ max Level.dot p.operand.row) :
    max p.row p.surf.head ≤ max Level.dot t.prec.toNat := by
  have hpos : Level.dot ≤ t.prec.toNat := hctx ▸ left_pos hp
  rw [left_row ht hp, hctx]
  refine Nat.le_trans (Nat.max_le.2 ⟨Nat.le_refl _, head_place hpos hhead fun hb => ?_⟩)
    (Nat.le_max_right _ _)
  rw [← hctx]
  exact Nat.le_of_lt (bare_row h.root.2.2 (List.mem_append_left _ hp) hb)

/-- What `rowsFit` says of the operands of a `BinaryOp`. -/
theorem binaryOp_rows (h : t.rowsFit = true) (ht : t.isBinaryOp = true) :
    (∀ p ∈ t.left, p.bare = true → p.operand.prec.toNat ≤ p.row) ∧
      ∀ p ∈ t.right, p.bare = true → p.operand.prec.toNat < p.row := by
  simpa [Tree.rowsFit, ht, or_iff_not_imp_left] using h

end

/-- **Nothing looser than the tree's row is on its left edge.** -/
theorem Tree.head_le : (t : Tree) → t.Sorted → (t.surf none).head ≤ max Level.dot t.row
  | .null, _ | .bool _, _ | .placeholder _, _ | .literal _, _ | .ident _, _ | .int _, _
  | .column _, _ | .countAll, _ | .scalar _, _ | .negative _, _ | .castRaw _ _, _ | .neg _, _
  | .exprNot _, _ | .condNot _, _ | .case _ _, _ => Nat.zero_le _
  | .exists n _, _ => by cases n <;> exact Nat.zero_le _
  | .prefixOp op a, _ => by
    show (prefixForm op _).head ≤ _
    rw [prefixForm, opPieces, foldr_head]
    exact Nat.zero_le _
  | .qualified table col, _ => Nat.le_trans
      (path_head (k := .column) (fun _ => rfl) none (dotParts table ++ [col]) nofun)
      (Nat.le_max_left _ _)
  | .call name distinct args, _ => Nat.le_trans
      (path_head (k := (Sql.call · distinct (surfs args))) (fun _ => rfl) none _ nofun)
      (Nat.le_max_left _ _)
  | .dot a b, h => by
    have hmax := head_infix (p := ⟨kDot, a, Level.dot⟩) h rfl (.head _) rfl
      (a.head_le (h.left (.head _)))
    have hrecv : (bracket kDot a.prec (a.surf none)).head ≤ Level.dot :=
      Nat.le_trans (Nat.le_max_right _ _) hmax
    refine Nat.le_trans ?_ (Nat.le_max_left _ _)
    rw [Tree.surf, link]
    split
    · exact Nat.max_le.2 ⟨Nat.le_refl _, hrecv⟩
    · rename_i hc
      exact Tree.head_recv (symbol_of_lt hc) hrecv
  | .index a _, h => head_infix (p := ⟨kIndex, a, _⟩) h rfl (.head _) rfl (a.head_le (h.left (.head _)))
  | .collate a _, h =>
    head_infix (p := ⟨kCollate, a, _⟩) h rfl (.head _) rfl (a.head_le (h.left (.head _)))
  | .bin op a _, h =>
    head_infix (p := ⟨op.prec, a, opLevel op.name⟩) h rfl (.head _) rfl (a.head_le (h.left (.head _)))
  | .compare op a _, h =>
    head_infix (p := ⟨kCompare, a, opLevel op.name⟩) h rfl (.head _) rfl
      (a.head_le (h.left (.head _)))
  | .like _ _ a _, h | .between _ a _ _, h | .inQuery _ a _, h =>
    head_infix (p := ⟨kBetween, a, _⟩) h rfl (.head _) rfl (a.head_le (h.left (.head _)))
  | .is _ a, h | .distinctFrom _ a _, h =>
    head_infix (p := ⟨kIs, a, _⟩) h rfl (.head _) rfl (a.head_le (h.left (.head _)))
  | .and a _, h => head_infix (p := ⟨kAnd, a, _⟩) h rfl (.head _) rfl (a.head_le (h.left (.head _)))
  | .or a _, h => head_infix (p := ⟨kOr, a, _⟩) h rfl (.head _) rfl (a.head_le (h.left (.head _)))
  | .eqAnyQuery a _, h | .neAllQuery a _, h =>
    head_infix (p := ⟨kCompare, a, _⟩) h rfl (.head _) rfl (a.head_le (h.left (.head _)))
  | .isIn n a l, h => by
    show (inForm n _ _).head ≤ _
    rw [inForm_head]
    exact head_infix (p := ⟨kBetween, a, _⟩) h rfl (.head _) rfl (a.head_le (h.left (.head _)))
  | .eqAny a _, h | .neAll a _, h => by
    show (quantForm _ _ _ _).head ≤ _
    rw [quantForm_head]
    exact head_infix (p := ⟨kCompare, a, _⟩) h rfl (.head _) rfl (a.head_le (h.left (.head _)))
  | .binaryOp op a b, h => by
    have hspelt : losesSign op = false := by simpa [Tree.spelt] using h.root.1
    have hrow := (binaryOp_rows h.root.2.1 rfl).1 ⟨kAnyOther, a, opLevel op⟩ (.head _)
    show (binForm op _ _).head ≤ _
    rw [binForm_eq hspelt]
    refine Nat.le_trans (Nat.max_le.2 ⟨Nat.le_refl _, ?_⟩) (Nat.le_max_right _ _)
    refine head_place (p := ⟨kAnyOther, a, opLevel op⟩)
      (Nat.le_trans (by decide) (opLevel_cases op).1) (a.head_le (h.left (.head _))) fun hb => ?_
    rw [bare_binaryOp (t := .binaryOp op a b) rfl (.head _) hb]
    exact hrow hb

/-! ## The right edge -/

theorem tail_recv {n : Nat} (hn : Level.dot ≤ n) (a : Sql) (t : Tree) :
    (t.surf (some a)).tail ≤ n ↔ (t.surf none).tail ≤ n := by
  cases t
  case call name distinct args =>
    have htail := path_tail (k := (Sql.call · distinct (surfs args))) (fun _ => rfl)
    exact iff_of_true (Nat.le_trans (htail _ _) hn) (Nat.le_trans (htail _ _) hn)
  all_goals exact Nat.max_le.trans (and_iff_right hn)

section
variable {t : Tree} {n : Nat}

/-- An operand in brackets leaves nothing open. -/
theorem tail_place {p : Place} (hrow : p.bare = true → p.operand.row ≤ n)
    (htail : p.operand.row ≤ n → ((p.operand.surf none).tail ≤ n ↔ p.operand.edge ≤ n)) :
    p.surf.tail ≤ n ↔ edgeIn p.context p.operand.prec p.operand.edge ≤ n := by
  rw [Place.surf, bracket, edgeIn]
  split
  · exact iff_of_true (Nat.zero_le _) (Nat.zero_le _)
  · rename_i hc
    exact htail (hrow (decide_eq_true (Nat.not_le.1 hc)))

/-- The operator of a root that is no `BinaryOp`, and the operand behind it. -/
theorem tail_right {p : Place} (h : t.Sorted) (hp : p ∈ t.right)
    (hctx : p.context.toNat ≤ n) (hrow : p.row ≤ n)
    (htail : p.operand.row ≤ n → ((p.operand.surf none).tail ≤ n ↔ p.operand.edge ≤ n)) :
    max p.row p.surf.tail ≤ n ↔ edgeIn p.context p.operand.prec p.operand.edge ≤ n := by
  rw [Nat.max_le, and_iff_right hrow]
  refine tail_place (fun hb => ?_) htail
  exact Nat.le_trans (Nat.le_of_lt (bare_row h.root.2.2 (List.mem_append_right _ hp) hb)) hctx

/-- A prefix operator, and the operand behind it. -/
theorem tail_prefix {p : Place} (h : t.Sorted) (ht : t.isBinaryOp = false) (hp : p ∈ t.right)
    (htail : p.operand.row ≤ n → ((p.operand.surf none).tail ≤ n ↔ p.operand.edge ≤ n)) :
    max p.row p.surf.tail ≤ n ↔
      max p.row (edgeIn p.context p.operand.prec p.operand.edge) ≤ n := by
  by_cases hrow : p.row ≤ n
  · rw [tail_right h hp (Nat.le_trans (right_row ht hp).2 hrow) hrow htail, Nat.max_le,
      and_iff_right hrow]
  · rw [Nat.max_le, Nat.max_le]
    exact iff_of_false (fun hx => hrow hx.1) fun hx => hrow hx.1

end

/-- **Nothing looser than the tree's row is open at its right edge but a prefix operator.** -/
theorem Tree.tail_iff {n : Nat} (hn : Level.dot ≤ n) : (t : Tree) → t.Sorted → t.row ≤ n →
    ((t.surf none).tail ≤ n ↔ t.edge ≤ n)
  | .null, _, _ | .bool _, _, _ | .placeholder _, _, _ | .literal _, _, _ | .ident _, _, _
  | .int _, _, _ | .column _, _, _ | .countAll, _, _ | .scalar _, _, _ | .castRaw _ _, _, _
  | .case _ _, _, _ | .index _ _, _, _ | .collate _ _, _, _ | .is _ _, _, _ | .inQuery _ _ _, _, _
  | .eqAnyQuery _ _, _, _ | .neAllQuery _ _, _, _ | .exists false _, _, _ => Iff.rfl
  | .negative _, _, _ => Nat.max_le.trans (and_iff_left (Nat.zero_le _))
  | .exists true _, _, _ => Nat.max_le.trans (and_iff_left (Nat.zero_le _))
  | .isIn _ a l, h, _ => by
    show (inForm _ _ _).tail ≤ _ ↔ _
    rw [inForm_eq (surfs_ne h.root.1)]
    exact Iff.rfl
  | .eqAny a b, _, _ | .neAll a b, _, _ => by
    show (quantForm _ _ _ _).tail ≤ _ ↔ _
    unfold quantForm
    split <;> exact Iff.rfl
  | .qualified table col, _, _ => iff_of_true (Nat.le_trans
      (path_tail (k := .column) (fun _ => rfl) none (dotParts table ++ [col])) hn) (Nat.zero_le _)
  | .call name distinct args, _, _ => iff_of_true (Nat.le_trans
      (path_tail (k := (Sql.call · distinct (surfs args))) (fun _ => rfl) none _) hn)
      (Nat.zero_le _)
  | .dot a b, h, _ => by
    have hb := b.tail_iff hn ((all_two rfl).1 h).2.2
    rw [Tree.surf, link, Tree.edge, edgeIn]
    split
    · exact iff_of_true (Nat.max_le.2 ⟨hn, Nat.zero_le _⟩) (Nat.zero_le _)
    · rename_i hc
      have hsym := symbol_of_lt hc
      have hrow : b.row = 0 := by
        cases b
        case binaryOp op c d => cases hsym
        all_goals exact congrArg OperatorPrecedence.toNat hsym
      exact (tail_recv hn _ b).trans (hb (by rw [hrow]; exact Nat.zero_le _))
  | .neg a, h, _ => tail_prefix (p := ⟨kUnaryPlus, a, Level.sign⟩) h rfl (.head _)
      (a.tail_iff hn (h.right (.head _)))
  | .prefixOp op a, h, _ => by
    have hspelt : losesSign op = false := by simpa [Tree.spelt] using h.root.1
    show (prefixForm op _).tail ≤ _ ↔ _
    rw [prefixForm_eq hspelt]
    exact tail_prefix (p := ⟨kUnaryPlus, a, prefixLevel op⟩) h rfl (.head _)
      (a.tail_iff hn (h.right (.head _)))
  | .exprNot a, h, _ | .condNot a, h, _ => tail_prefix (p := ⟨kNot, a, Level.not⟩) h rfl (.head _)
      (a.tail_iff hn (h.right (.head _)))
  | .bin op _ b, h, hr => tail_right (p := ⟨op.prec, b, opLevel op.name⟩) h (.head _) hr
      (Nat.le_trans (Nat.le_of_eq (bin_row op)) hr) (b.tail_iff hn (h.right (.head _)))
  | .compare op _ b, h, hr => tail_right (p := ⟨kCompare, b, opLevel op.name⟩) h (.head _) hr
      (Nat.le_trans (Nat.le_of_eq (compare_row op)) hr) (b.tail_iff hn (h.right (.head _)))
  | .like _ _ _ b, h, hr => tail_right (p := ⟨kBetween, b, Level.between⟩) h (.head _) hr hr
      (b.tail_iff hn (h.right (.head _)))
  | .between _ _ _ c, h, hr => tail_right (p := ⟨kBetween, c, Level.between⟩) h
      (.tail _ (.head _)) hr hr (c.tail_iff hn (h.right (.tail _ (.head _))))
  | .distinctFrom _ _ b, h, hr => tail_right (p := ⟨kIs, b, Level.is⟩) h (.head _) hr hr
      (b.tail_iff hn (h.right (.head _)))
  | .and _ b, h, hr => tail_right (p := ⟨kAnd, b, Level.and⟩) h (.head _) hr hr
      (b.tail_iff hn (h.right (.head _)))
  | .or _ b, h, hr => tail_right (p := ⟨kOr, b, Level.or⟩) h (.head _) hr hr
      (b.tail_iff hn (h.right (.head _)))
  | .binaryOp op a b, h, hr => by
    have hspelt : losesSign op = false := by simpa [Tree.spelt] using h.root.1
    have hrow := (binaryOp_rows h.root.2.1 rfl).2 ⟨kAnyOther, b, opLevel op⟩ (.head _)
    show (binForm op _ _).tail ≤ _ ↔ _
    rw [binForm_eq hspelt]
    refine (Nat.max_le.trans (and_iff_right hr)).trans ?_
    refine tail_place (p := ⟨kAnyOther, b, opLevel op⟩) (fun hb => ?_)
      (b.tail_iff hn (h.right (.head _)))
    rw [bare_binaryOp (t := .binaryOp op a b) rfl (.tail _ (.head _)) hb]
    exact Nat.le_trans (Nat.le_of_lt (hrow hb)) hr

/-! ## Operators that the renderer takes for atoms, or for tighter ones -/

/-- The row of a prefix operator at the root that is looser than the precedence of the tree. -/
def Tree.looseRow : Tree → Level
  | .negative _ => Level.sign
  | .exists true _ => Level.not
  | .prefixOp op _ => prefixLevel op
  | _ => 0

theorem edgeIn_le {ctx p : OperatorPrecedence} {e n m : Level} (h : e < m → e ≤ max n p.toNat)
    (he : edgeIn ctx p e < m) : edgeIn ctx p e ≤ max n ctx.toNat := by
  unfold edgeIn at he ⊢
  split
  · exact Nat.zero_le _
  · rename_i hc
    rw [if_neg hc] at he
    have hp : p.toNat ≤ ctx.toNat := Nat.le_of_lt (Nat.not_le.1 hc)
    exact Nat.le_trans (h he)
      (Nat.max_le.2 ⟨Nat.le_max_left _ _, Nat.le_trans hp (Nat.le_max_right _ _)⟩)

/-- The other operators leave nothing looser than themselves open. -/
theorem Tree.edge_le_of_lt {n m : Level} : (t : Tree) →
    (t.All fun s => s.looseRow ≤ n ∨ m ≤ s.looseRow) → t.edge < m → t.edge ≤ max n t.prec.toNat
  | .null, _, _ | .bool _, _, _ | .placeholder _, _, _ | .literal _, _, _ | .ident _, _, _
  | .int _, _, _ | .column _, _, _ | .qualified _ _, _, _ | .countAll, _, _ | .scalar _, _, _
  | .exists false _, _, _ | .castRaw _ _, _, _ | .call _ _ _, _, _ | .case _ _, _, _
  | .index _ _, _, _ | .collate _ _, _, _ | .is _ _, _, _ | .isIn _ _ _, _, _
  | .inQuery _ _ _, _, _ | .eqAny _ _, _, _ | .neAll _ _, _, _ | .eqAnyQuery _ _, _, _
  | .neAllQuery _ _, _, _ => Nat.zero_le _
  | .negative _, h, hm | .exists true _, h, hm =>
    Nat.le_trans (h.root.resolve_right (Nat.not_le.2 hm)) (Nat.le_max_left _ _)
  | .prefixOp _ a, h, hm => by
    obtain ⟨hop, ha⟩ := (all_one rfl).1 h
    obtain ⟨hrow, hedge⟩ := Nat.max_lt.1 hm
    exact Nat.max_le.2
      ⟨Nat.le_trans (hop.resolve_right (Nat.not_le.2 hrow)) (Nat.le_max_left _ _),
        edgeIn_le (a.edge_le_of_lt ha) hedge⟩
  | .neg a, h, hm | .exprNot a, h, hm | .condNot a, h, hm => Nat.max_le.2 ⟨Nat.le_max_right _ _,
      edgeIn_le (a.edge_le_of_lt ((all_one rfl).1 h).2) (Nat.max_lt.1 hm).2⟩
  | .dot _ b, h, hm | .bin _ _ b, h, hm | .binaryOp _ _ b, h, hm | .like _ _ _ b, h, hm
  | .compare _ _ b, h, hm | .distinctFrom _ _ b, h, hm | .and _ b, h, hm | .or _ b, h, hm =>
    edgeIn_le (b.edge_le_of_lt ((all_two rfl).1 h).2.2) hm
  | .between _ _ _ c, h, hm => edgeIn_le (c.edge_le_of_lt ((all_three rfl).1 h).2.2.2) hm

theorem Tree.edge_le {n : Level} (t : Tree) (h : t.All (·.looseRow ≤ n)) :
    t.edge ≤ max n t.prec.toNat :=
  t.edge_le_of_lt (h.mono fun _ => .inl) (Nat.lt_succ_self _)

/-! ## Rows that do not associate -/

theorem path_last {k : Text → Sql} (hl : ∀ f, (k f).last = 0) :
    (recv : Option Sql) → (ps : List Text) → (path k recv ps).last = 0
  | none, [] | none, [_] => hl _
  | some _, [] | some _, [_] => rfl
  | _, _ :: q :: l => path_last hl _ (q :: l)

/-- A row that does not associate is the tree's own. -/
theorem Tree.last_eq {t : Tree} (hs : t.spelt = true) :
    (t.surf none).last = 0 ∨ ((t.surf none).last = t.row ∧ Level.other < t.row) := by
  cases t
  case binaryOp op a b =>
    have hspelt : losesSign op = false := by simpa [Tree.spelt] using hs
    show (binForm op _ _).last = 0 ∨ (binForm op _ _).last = opLevel op ∧ _
    rw [binForm_eq hspelt, Sql.last, Sql.level]
    rcases (opLevel_cases op).2 with h | h
    · refine .inl (if_neg fun hn => ?_)
      simp only [Level.nonassoc, Bool.or_eq_true, beq_iff_eq] at hn
      rcases hn with (hn | hn) | hn <;> (rw [hn] at h; exact absurd h (by decide))
    · rw [Tree.row, h]
      exact .inr ⟨rfl, by decide⟩
  case bin op a b => cases op <;> exact .inl rfl
  case compare op a b => cases op <;> exact .inr ⟨rfl, by dsimp only [Tree.row, Tree.prec]; decide⟩
  case «exists» neg q => cases neg <;> exact .inl rfl
  case qualified table column => exact .inl (path_last (k := .column) (fun _ => rfl) none _)
  case call name distinct args =>
    exact .inl (path_last (k := (Sql.call · distinct (surfs args))) (fun _ => rfl) none _)
  case dot a b =>
    refine .inl ?_
    rw [Tree.surf, link]
    split
    · rfl
    · obtain ⟨x, y, hxy⟩ := b.surf_some (bracket kDot a.prec (a.surf none))
      rw [hxy]
      rfl
  case isIn neg a l =>
    refine .inr ⟨?_, by dsimp only [Tree.row, Tree.prec]; decide⟩
    show (inForm _ _ _).last = _
    unfold inForm
    split <;> rfl
  case eqAny a b =>
    refine .inr ⟨?_, by dsimp only [Tree.row, Tree.prec]; decide⟩
    show (quantForm _ _ _ _).last = _
    unfold quantForm
    split <;> rfl
  case neAll a b =>
    refine .inr ⟨?_, by dsimp only [Tree.row, Tree.prec]; decide⟩
    show (quantForm _ _ _ _).last = _
    unfold quantForm
    split <;> rfl
  case prefixOp op a => exact .inl (last_pre _ _)
  all_goals first
    | exact .inl rfl
    | exact .inr ⟨rfl, by dsimp only [Tree.row, Tree.prec]; decide⟩

/-! ## Operands that fit -/

section
variable {t : Tree}

/-- In no brackets, the operand in front of an operator is no looser. -/
theorem left_bare (h : t.Sorted) {p : Place} (hp : p ∈ t.left) (hb : p.bare = true) :
    p.operand.row ≤ p.row := by
  cases ht : t.isBinaryOp
  · rw [left_row ht hp]
    exact Nat.le_of_lt (bare_row h.root.2.2 (List.mem_append_left _ hp) hb)
  · rw [bare_binaryOp ht (List.mem_append_left _ hp) hb]
    exact (binaryOp_rows h.root.2.1 ht).1 p hp hb

/-- In no brackets, the operand behind an operator is tighter. -/
theorem right_bare (h : t.Sorted) {p : Place} (hp : p ∈ t.right) (hb : p.bare = true) :
    p.operand.row < p.row := by
  cases ht : t.isBinaryOp
  · exact Nat.lt_of_lt_of_le (bare_row h.root.2.2 (List.mem_append_right _ hp) hb)
      (right_row ht hp).2
  · rw [bare_binaryOp ht (List.mem_append_right _ hp) hb]
    exact (binaryOp_rows h.root.2.1 ht).2 p hp hb

theorem binaryOp_place (ht : t.isBinaryOp = true) {p : Place} (hp : p ∈ t.left ++ t.right) :
    Level.exp ≤ p.row ∧ p.context = kAnyOther := by
  cases t
  case binaryOp op a b =>
    simp only [Tree.left, Tree.right, List.cons_append, List.nil_append, List.mem_cons,
      List.not_mem_nil, or_false] at hp
    rcases hp with rfl | rfl <;> exact ⟨(opLevel_cases op).1, rfl⟩
  all_goals cases ht

theorem left_dot {p : Place} (hp : p ∈ t.left) : Level.dot ≤ p.row := by
  cases ht : t.isBinaryOp
  · rw [left_row ht hp]
    exact left_pos hp
  · exact Nat.le_trans (by decide) (binaryOp_place ht (List.mem_append_left _ hp)).1

theorem right_dot {p : Place} (hp : p ∈ t.right) : Level.dot < p.row := by
  cases ht : t.isBinaryOp
  · exact Nat.lt_of_lt_of_le (right_row ht hp).1 (right_row ht hp).2
  · exact Nat.lt_of_lt_of_le (by decide) (binaryOp_place ht (List.mem_append_right _ hp)).1

/-- The operator in front of which an operand stands does not meet its own row again. -/
theorem left_last (h : t.Sorted) {p : Place} (hp : p ∈ t.left) : p.row ≠ p.surf.last := by
  have hdot : 0 < p.row := left_dot hp
  rw [Place.surf, bracket]
  split
  · exact Nat.ne_of_gt hdot
  · rename_i hc
    have hb : p.bare = true := decide_eq_true (Nat.not_le.1 hc)
    rcases Tree.last_eq (h.left hp).root.1 with hl | ⟨hl, hother⟩
    · rw [hl]
      exact Nat.ne_of_gt hdot
    · rw [hl]
      cases ht : t.isBinaryOp
      · rw [left_row ht hp]
        exact Nat.ne_of_gt (bare_row h.root.2.2 (List.mem_append_left _ hp) hb)
      · -- the rows that do not associate are bracketed in a `BinaryOp`
        rw [bare_binaryOp ht (List.mem_append_left _ hp) hb] at hother
        rw [(binaryOp_place ht (List.mem_append_left _ hp)).2] at hc
        exact absurd hother (Nat.not_lt.2 (Nat.le_of_lt (Nat.not_le.1 hc)))

/-- **Where the rows are sorted only the prefix operators decide.** -/
theorem fitsAt_iff (h : t.Sorted) : t.FitsAt ↔ t.edgesFit = true := by
  have hright : ∀ p ∈ t.right, p.surf.head < p.row := fun p hp => by
    rw [Place.surf, bracket]
    split
    · exact Nat.lt_trans Nat.zero_lt_one (right_dot hp)
    · rename_i hc
      exact Nat.lt_of_le_of_lt (p.operand.head_le (h.right hp))
        (Nat.max_lt.2 ⟨right_dot hp, right_bare h hp (decide_eq_true (Nat.not_le.1 hc))⟩)
  have hleft : ∀ p ∈ t.left,
      (p.surf.tail ≤ p.row ↔ (!p.bare || decide (p.operand.edge ≤ p.row)) = true) := fun p hp => by
    rw [tail_place (fun hb => left_bare h hp hb)
      (p.operand.tail_iff (left_dot hp) (h.left hp)), edgeIn, Place.bare]
    split
    · rename_i hc
      simp [Nat.not_lt.2 hc]
    · rename_i hc
      simp [Nat.not_le.1 hc]
  rw [Tree.edgesFit, List.all_eq_true]
  constructor
  · exact fun hf p hp => (hleft p hp).1 (hf.1 p hp).1
  · exact fun hf => ⟨fun p hp => ⟨(hleft p hp).2 (hf p hp), left_last h hp⟩, hright⟩

/-- A looser operand of a `BinaryOp` in no brackets is one of the infix operators on numbers. -/
theorem edge_row {a : Tree} (h : kExp.toNat ≤ a.prec.toNat) (hlt : a.prec.toNat < kAnyOther.toNat) :
    a.prec.toNat ≤ (a.surf none).tail ∧ a.prec.toNat ≤ (a.surf none).head := by
  cases a
  case bin op a b =>
    have hrow := Nat.le_of_eq (bin_row op).symm
    exact ⟨Nat.le_trans hrow (Nat.le_max_left _ _), Nat.le_trans hrow (Nat.le_max_left _ _)⟩
  all_goals exact absurd (And.intro h hlt) (by dsimp only [Tree.prec]; decide)

theorem rowsFit_of_fits (h : t.FitsAt) : t.rowsFit = true := by
  cases t
  case binaryOp op a b =>
    have hexp := (opLevel_cases op).1
    simp only [Tree.rowsFit, Tree.isBinaryOp, Tree.left, Tree.right, Bool.not_true, Bool.false_or,
      List.all_cons, List.all_nil, Bool.and_true, Bool.and_eq_true, Bool.or_eq_true,
      Bool.not_eq_true', decide_eq_true_eq]
    constructor
    · refine or_iff_not_imp_left.2 fun hb => Nat.not_lt.1 fun hlt => ?_
      have hbare : a.prec.toNat < kAnyOther.toNat := of_decide_eq_true (Bool.not_eq_false _ ▸ hb)
      have htail := (h.1 ⟨kAnyOther, a, opLevel op⟩ (.head _)).1
      rw [Place.surf, bracket, if_neg (Nat.not_le.2 hbare)] at htail
      have hrow := (edge_row (Nat.le_trans hexp (Nat.le_of_lt hlt)) hbare).1
      exact absurd hlt (Nat.not_lt.2 (Nat.le_trans hrow htail))
    · refine or_iff_not_imp_left.2 fun hb => Nat.not_le.1 fun hle => ?_
      have hbare : b.prec.toNat < kAnyOther.toNat := of_decide_eq_true (Bool.not_eq_false _ ▸ hb)
      have hhead := h.2 ⟨kAnyOther, b, opLevel op⟩ (.head _)
      rw [Place.surf, bracket, if_neg (Nat.not_le.2 hbare)] at hhead
      have hrow := (edge_row (Nat.le_trans hexp hle) hbare).2
      exact absurd (Nat.le_trans hle hrow) (Nat.not_le.2 hhead)
  all_goals rfl

/-- A comparison in no brackets shows its row at both edges, and does not associate. -/
theorem compares_edges {a : Tree} (h : a.compares = true) (hs : a.spelt = true) :
    Level.compare ≤ (a.surf none).tail ∧ Level.compare ≤ (a.surf none).head ∧
      (a.surf none).last = Level.compare ∧ a.prec = kAnyOther := by
  cases a
  case binaryOp op b c =>
    have hspelt : losesSign op = false := by simpa [Tree.spelt] using hs
    have hop : opLevel op = Level.compare := by simpa [Tree.compares] using h
    show Level.compare ≤ (binForm op _ _).tail ∧ Level.compare ≤ (binForm op _ _).head ∧
      (binForm op _ _).last = Level.compare ∧ _
    rw [binForm_eq hspelt, Sql.tail, Sql.head, Sql.last, Sql.level, hop]
    exact ⟨Nat.le_max_left _ _, Nat.le_max_left _ _, rfl, rfl⟩
  all_goals cases h

theorem right_compare {p : Place} (hp : p ∈ t.right)
    (hctx : p.context = kBetween ∨ p.context = kCompare) : p.row ≤ Level.compare := by
  cases t
  case between neg a b c =>
    simp only [Tree.right, List.mem_cons, List.not_mem_nil, or_false] at hp
    rcases hp with rfl | rfl <;> (dsimp only; decide)
  case bin op a b =>
    obtain rfl := List.mem_singleton.1 hp
    cases op <;> rcases hctx with h | h <;> cases h
  case compare op a b =>
    obtain rfl := List.mem_singleton.1 hp
    exact Nat.le_of_eq (compare_row op)
  all_goals simp only [Tree.right, List.mem_singleton, List.not_mem_nil] at hp
  all_goals subst hp
  all_goals first
    | (dsimp only; decide)
    | (rcases hctx with h | h <;> cases h)

theorem comparesFit_of_fits (h : t.FitsAt) (hs : t.All (·.spelt = true)) :
    t.comparesFit = true := by
  refine List.all_eq_true.2 fun p hp => ?_
  by_contra hn
  simp only [Bool.or_eq_true, Bool.not_eq_true', Bool.or_eq_false_iff, beq_eq_false_iff_ne,
    not_or, Bool.not_eq_false, not_and_or, not_ne_iff] at hn
  obtain ⟨hcmp, hctx⟩ := hn
  have hbin : t.isBinaryOp = false := by
    cases ht : t.isBinaryOp
    · rfl
    · rw [(binaryOp_place ht hp).2] at hctx
      rcases hctx with hctx | hctx <;> cases hctx
  have hle : Level.between ≤ p.context.toNat ∧ p.context.toNat ≤ Level.compare := by
    rcases hctx with hctx | hctx <;> (rw [hctx]; decide)
  have hsurf (hop : p.operand.spelt = true) : p.surf = p.operand.surf none := by
    rw [Place.surf, bracket, (compares_edges hcmp hop).2.2.2, if_neg (Nat.not_le.2 ?_)]
    exact Nat.lt_of_lt_of_le (by decide) hle.1
  rcases List.mem_append.1 hp with hp | hp
  · have hop := (hs.left hp).root
    obtain ⟨htail, -, hlast, -⟩ := compares_edges hcmp hop
    have hleft := h.1 p hp
    rw [left_row hbin hp, hsurf hop, Sql.leftOf, hlast] at hleft
    exact hleft.2 (Nat.le_antisymm hle.2 (Nat.le_trans htail hleft.1))
  · have hop := (hs.right hp).root
    obtain ⟨-, hhead, -⟩ := compares_edges hcmp hop
    have hright := h.2 p hp
    rw [hsurf hop] at hright
    exact absurd (Nat.lt_of_lt_of_le hright (right_compare hp hctx)) (Nat.not_lt.2 hhead)

end

/-- **What decides whether the text of a tree fits the precedence table.** -/
theorem fits_iff {t : Tree} (hs : t.All (·.spelt = true)) : t.All Tree.FitsAt ↔
    t.All fun s => s.edgesFit = true ∧ s.rowsFit = true ∧ s.comparesFit = true := by
  constructor
  · intro h
    have hsorted : t.Sorted := fun s hm =>
      ⟨hs s hm, rowsFit_of_fits (h s hm), comparesFit_of_fits (h s hm) (t.all_all hs s hm)⟩
    exact fun s hm => ⟨(fitsAt_iff (t.all_all hsorted s hm)).1 (h s hm), (hsorted s hm).2⟩
  · intro h
    have hsorted : t.Sorted := fun s hm => ⟨hs s hm, (h s hm).2⟩
    exact fun s hm => (fitsAt_iff (t.all_all hsorted s hm)).2 (h s hm).1

/-! ## Trees that cannot go wrong -/

theorem rowsFit_of_not_binaryOp {t : Tree} (h : t.isBinaryOp = false) : t.rowsFit = true := by
  simp [Tree.rowsFit, h]

theorem compares_isBinaryOp {t : Tree} (h : t.compares = true) : t.isBinaryOp = true := by
  cases t <;> first | rfl | cases h

theorem comparesFit_of_not_binaryOp {t : Tree} (h : t.All (·.isBinaryOp = false)) :
    t.comparesFit = true := by
  refine List.all_eq_true.2 fun p hp => ?_
  have hop : p.operand.isBinaryOp = false := by
    rcases List.mem_append.1 hp with hp | hp
    · exact (h.left hp).root
    · exact (h.right hp).root
  cases hc : p.operand.compares
  · rfl
  · exact absurd (compares_isBinaryOp hc) (by simp [hop])

/-- An operand in no brackets is no looser than the operator behind it. -/
theorem bare_le_row {t : Tree} (hr : t.rowsFit = true) {p : Place} (hp : p ∈ t.left)
    (hb : p.bare = true) : p.operand.prec.toNat ≤ p.row := by
  cases ht : t.isBinaryOp
  · rw [left_row ht hp]
    exact Nat.le_of_lt (of_decide_eq_true hb)
  · exact (binaryOp_rows hr ht).1 p hp hb

/-- Where all the prefix operators are tighter than the operator at the root, none is open in front
of it. -/
theorem edgesFit_of_le {t : Tree} {n : Level} (h : t.All (·.looseRow ≤ n)) (hr : t.rowsFit = true)
    (hn : ∀ p ∈ t.left, n ≤ p.row) : t.edgesFit = true := by
  refine List.all_eq_true.2 fun p hp => ?_
  cases hb : p.bare
  · rfl
  · have hedge := p.operand.edge_le (h.left hp)
    exact decide_eq_true (Nat.le_trans hedge (Nat.max_le.2 ⟨hn p hp, bare_le_row hr hp hb⟩))

end IronQuery
