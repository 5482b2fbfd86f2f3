import IronQuery.Tree
import IronQuery.Pg.Proof.Operators
import IronQuery.Pg.Proof.Unique

/-!
# The syntax tree that a text spells

`Tree.surf` is the syntax tree that the tokens of a tree's text are: with the brackets the renderer
puts, with the signs PostgreSQL cuts off an operator's name, and with a bracket around nothing but a
query taken as a subquery's.

* `Tree.strip_surf`: without its brackets it is the tree's meaning, unless one of the last two
  happened (`Tree.spelt`).
* `Tree.grows`: where it did, the text spells a larger tree.
-/

namespace IronQuery

open OperatorPrecedence Pg

/-! ## The brackets the renderer puts -/

/-- The precedence a tree is built with. -/
def Tree.prec : Tree → OperatorPrecedence
  | .qualified _ _ | .dot _ _ => kDot
  | .castRaw _ _ => kTypecast
  | .index _ _ => kIndex
  | .collate _ _ => kCollate
  | .neg _ => kUnaryPlus
  | .bin op _ _ => op.prec
  | .between _ _ _ _ | .like _ _ _ _ | .isIn _ _ _ => kBetween
  | .compare _ _ _ | .eqAny _ _ | .neAll _ _ => kCompare
  | .is _ _ | .distinctFrom _ _ _ => kIs
  | .exprNot _ | .condNot _ => kNot
  | .and _ _ => kAnd
  | .or _ _ => kOr
  | .prefixOp _ _ => kUnaryPlus
  | .binaryOp _ _ _ => kAnyOther
  | .inQuery _ _ _ => kBetween
  | .eqAnyQuery _ _ | .neAllQuery _ _ => kCompare
  | _ => kSymbol

/-- An operand of precedence `prec` in the context `ctx`. -/
def bracket (ctx prec : OperatorPrecedence) (s : Sql) : Sql :=
  if ctx.toNat ≤ prec.toNat then .paren s else s

theorem symbol_of_lt {p : OperatorPrecedence} (h : ¬kDot.toNat ≤ p.toNat) : p = kSymbol := by
  cases p <;> simp [OperatorPrecedence.toNat] at h ⊢

/-- A prefix operator of any name. -/
def prefixForm (op : Text) (a : Sql) : Sql := (opPieces op).foldr .pre a

/-- An infix operator of any name. -/
def binForm (op : Text) (a b : Sql) : Sql :=
  .bin (trimSigns op) a ((opPieces op).tail.foldr .pre b)

/-- A list in brackets behind `IN`. -/
def inForm (neg : Bool) (a : Sql) : List Sql → Sql
  | [.subquery ts] => .inQuery neg a (bracketed ts)
  | l => .inList neg a l

/-- An array in brackets behind `ANY` or `ALL`. -/
def quantForm (op : Text) (all : Bool) (a : Sql) : Sql → Sql
  | .subquery ts => .quantQuery op all a (bracketed ts)
  | b => .quant op all a b

mutual

/-- The syntax tree that the text spells, as a member of `recv`. -/
def Tree.surf (recv : Option Sql) : Tree → Sql
  | .call name distinct args => path (.call · distinct (surfs args)) recv (dotParts name)
  | .dot a b =>
    let a := some (bracket kDot a.prec (a.surf none))
    link recv (if kDot.toNat ≤ b.prec.toNat then link a (.paren (b.surf none)) else b.surf a)
  | .null => link recv .null
  | .bool value => link recv (.bool value)
  | .placeholder n => link recv (.param (natToString (n + 1)))
  | .literal value => link recv (.string value)
  | .ident name => link recv (.quoted name)
  | .int value => link recv (.number (natToString value))
  | .column name => link recv (.column name)
  | .qualified table column => link recv (path .column none (dotParts table ++ [column]))
  | .countAll => link recv (.callStar "COUNT".toList)
  | .castRaw a type => link recv (.cast (bracket kTypecast a.prec (a.surf none)) type)
  | .index a b => link recv (.index (bracket kIndex a.prec (a.surf none)) (b.surf none))
  | .collate a coll => link recv (.collate (bracket kCollate a.prec (a.surf none)) coll.name)
  | .neg a => link recv (.pre "-".toList (bracket kUnaryPlus a.prec (a.surf none)))
  | .bin op a b => link recv (.bin op.name (bracket op.prec a.prec (a.surf none))
      (bracket op.prec b.prec (b.surf none)))
  | .between neg a b c => link recv (.between neg (bracket kBetween a.prec (a.surf none))
      (bracket kBetween b.prec (b.surf none)) (bracket kBetween c.prec (c.surf none)))
  | .like op neg a b => link recv (.like op neg (bracket kBetween a.prec (a.surf none))
      (bracket kBetween b.prec (b.surf none)))
  | .isIn neg a values =>
    link recv (inForm neg (bracket kBetween a.prec (a.surf none)) (surfs values))
  | .compare op a b => link recv (.bin op.name (bracket kCompare a.prec (a.surf none))
      (bracket kCompare b.prec (b.surf none)))
  | .eqAny a b =>
    link recv (quantForm "=".toList false (bracket kCompare a.prec (a.surf none)) (b.surf none))
  | .neAll a b =>
    link recv (quantForm "<>".toList true (bracket kCompare a.prec (a.surf none)) (b.surf none))
  | .is op a => link recv (.is op.negated op.test (bracket kIs a.prec (a.surf none)))
  | .distinctFrom neg a b => link recv (.distinctFrom neg (bracket kIs a.prec (a.surf none))
      (bracket kIs b.prec (b.surf none)))
  | .exprNot a | .condNot a => link recv (.not (bracket kNot a.prec (a.surf none)))
  | .and a b => link recv (.and (bracket kAnd a.prec (a.surf none)) (bracket kAnd b.prec (b.surf none)))
  | .or a b => link recv (.or (bracket kOr a.prec (a.surf none)) (bracket kOr b.prec (b.surf none)))
  | .case whens els => link recv (.case (surfWhens whens) (surfElse els))
  | .negative n => link recv (.pre "-".toList (.number (natToString (n + 1))))
  | .prefixOp op a => link recv (prefixForm op (bracket kUnaryPlus a.prec (a.surf none)))
  | .binaryOp op a b => link recv (binForm op (bracket kAnyOther a.prec (a.surf none))
      (bracket kAnyOther b.prec (b.surf none)))
  | .exists neg q => link recv (if neg then .not (.exists q.tokens) else .exists q.tokens)
  | .scalar q => link recv (.subquery q.tokens)
  | .inQuery neg a q => link recv (.inQuery neg (bracket kBetween a.prec (a.surf none)) q.tokens)
  | .eqAnyQuery a q =>
    link recv (.quantQuery "=".toList false (bracket kCompare a.prec (a.surf none)) q.tokens)
  | .neAllQuery a q =>
    link recv (.quantQuery "<>".toList true (bracket kCompare a.prec (a.surf none)) q.tokens)

def surfs : List Tree → List Sql
  | [] => []
  | t :: l => t.surf none :: surfs l

def surfWhens : List (Tree × Tree) → List (Sql × Sql)
  | [] => []
  | (c, r) :: l => (c.surf none, r.surf none) :: surfWhens l

def surfElse : Option Tree → Option Sql
  | none => none
  | some e => some (e.surf none)

end

/-! ## Without the brackets it is the tree's meaning -/

/-- PostgreSQL cuts no sign off the name of the root, and takes no list of it for a subquery. -/
def Tree.spelt : Tree → Bool
  | .prefixOp op _ | .binaryOp op _ _ => !losesSign op
  | .isIn _ _ [.scalar _] | .eqAny _ (.scalar _) | .neAll _ (.scalar _) => false
  | _ => true

theorem prefixForm_eq {op : Text} (h : losesSign op = false) (a : Sql) :
    prefixForm op a = .pre op a := by
  rw [prefixForm, opPieces_eq h]
  rfl

theorem binForm_eq {op : Text} (h : losesSign op = false) (a b : Sql) :
    binForm op a b = .bin op a b := by
  rw [binForm, opPieces_eq h, trimSigns_eq.2 h]
  rfl

theorem inForm_eq {l : List Sql} (h : ∀ ts, l ≠ [.subquery ts]) (neg : Bool) (a : Sql) :
    inForm neg a l = .inList neg a l := by
  unfold inForm
  split
  · rename_i ts
    exact absurd rfl (h ts)
  · rfl

theorem quantForm_eq {b : Sql} (h : ∀ ts, b ≠ .subquery ts) (op : Text) (all : Bool) (a : Sql) :
    quantForm op all a b = .quant op all a b := by
  unfold quantForm
  split
  · rename_i ts
    exact absurd rfl (h ts)
  · rfl

theorem path_bare {k : Text → Sql} (hl : ∀ f, (k f).bare = false) :
    (recv : Option Sql) → (ps : List Text) → (path k recv ps).bare = false
  | none, [] => hl []
  | none, [p] => hl p
  | some _, [] | some _, [_] => rfl
  | _, _ :: q :: l => path_bare hl _ (q :: l)

theorem path_some {k : Text → Sql} : (a : Sql) → (ps : List Text) →
    ∃ x y, path k (some a) ps = .dot x y
  | _, [] | _, [_] => ⟨_, _, rfl⟩
  | _, _ :: q :: l => path_some _ (q :: l)

/-- A member is behind a point. -/
theorem Tree.surf_some (t : Tree) (a : Sql) : ∃ x y, t.surf (some a) = .dot x y := by
  cases t
  case call name distinct args => exact path_some _ _
  all_goals exact ⟨_, _, rfl⟩

/-- Only a scalar subquery is one, in any brackets. -/
theorem surf_bare {t : Tree} (h : (t.surf none).bare = true) : ∃ q, t = .scalar q := by
  cases t
  case scalar q => exact ⟨q, rfl⟩
  case call name distinct args =>
    have hpath := path_bare (k := (Sql.call · distinct (surfs args))) (fun _ => rfl) none
      (dotParts name)
    exact nomatch hpath.symm.trans h
  case qualified table column =>
    have hpath := path_bare (k := .column) (fun _ => rfl) none (dotParts table ++ [column])
    exact nomatch hpath.symm.trans h
  case dot a b =>
    simp only [Tree.surf, link] at h
    split at h
    · cases h
    · obtain ⟨x, y, hxy⟩ := b.surf_some (bracket kDot a.prec (a.surf none))
      rw [hxy] at h
      cases h
  case isIn neg a l =>
    simp only [Tree.surf, link, inForm] at h
    split at h <;> cases h
  case eqAny a b =>
    simp only [Tree.surf, link, quantForm] at h
    split at h <;> cases h
  case neAll a b =>
    simp only [Tree.surf, link, quantForm] at h
    split at h <;> cases h
  case «exists» neg q => cases neg <;> cases h
  all_goals cases h

theorem surf_subquery {t : Tree} {ts : List Token} (h : t.surf none = .subquery ts) :
    ∃ q, t = .scalar q := surf_bare (by rw [h]; rfl)

theorem surfs_ne {neg : Bool} {a : Tree} {l : List Tree} (h : (Tree.isIn neg a l).spelt = true)
    (ts : List Token) : surfs l ≠ [.subquery ts] := by
  intro he
  match l with
  | [] => cases he
  | [t] =>
    obtain ⟨q, rfl⟩ := surf_subquery (List.cons.inj he).1
    cases h
  | _ :: _ :: _ => cases (List.cons.inj he).2

theorem strip_bracket (ctx p : OperatorPrecedence) (s : Sql) : (bracket ctx p s).strip = s.strip := by
  unfold bracket
  split <;> rfl

theorem strip_link (recv : Option Sql) (s : Sql) :
    (link recv s).strip = link (recv.map Sql.strip) s.strip := by
  cases recv <;> rfl

theorem strip_path {last last' : Text → Sql} (h : ∀ p, (last p).strip = last' p) :
    (recv : Option Sql) → (ps : List Text) →
      (path last recv ps).strip = path last' (recv.map Sql.strip) ps
  | recv, [] => by rw [path, path, strip_link, h]
  | recv, [p] => by rw [path, path, strip_link, h]
  | recv, p :: q :: l => by
    rw [path, path, strip_path h, Option.map_some, strip_link]
    rfl

theorem meaning_some {t : Tree} (h : kDot.toNat ≤ t.prec.toNat) (a : Sql) :
    t.meaning (some a) = .dot a (t.meaning none) := by
  cases t
  case call name distinct args => exact absurd h (by decide : ¬kDot.toNat ≤ kSymbol.toNat)
  all_goals rfl

mutual

/-- **Without its brackets the syntax tree is what the tree means.** -/
theorem Tree.strip_surf (recv : Option Sql) : (t : Tree) → t.All (·.spelt = true) →
    (t.surf recv).strip = t.meaning (recv.map Sql.strip)
  | .null, _ | .bool _, _ | .placeholder _, _ | .literal _, _ | .ident _, _ | .int _, _
  | .column _, _ | .countAll, _ | .negative _, _ | .scalar _, _ => by
    rw [Tree.surf, Tree.meaning, strip_link]
    rfl
  | .exists n _, _ => by
    cases n <;> rw [Tree.surf, Tree.meaning, strip_link] <;> rfl
  | .qualified table column, _ => by
    rw [Tree.surf, Tree.meaning, strip_link, strip_path fun _ => rfl]
    rfl
  | .dot a b, h => by
    obtain ⟨-, ha, hb⟩ := (all_two rfl).1 h
    rw [Tree.surf, Tree.meaning, strip_link]
    congr 1
    split
    · rename_i hc
      rw [strip_link, Option.map_some, strip_bracket, a.strip_surf none ha, Sql.strip,
        b.strip_surf none hb, meaning_some hc]
      rfl
    · rw [b.strip_surf _ hb, Option.map_some, strip_bracket, a.strip_surf none ha]
      rfl
  | .castRaw a _, h | .collate a _, h | .neg a, h | .is _ a, h | .exprNot a, h | .condNot a, h
  | .inQuery _ a _, h | .eqAnyQuery a _, h | .neAllQuery a _, h => by
    obtain ⟨-, ha⟩ := (all_one rfl).1 h
    rw [Tree.surf, Tree.meaning, strip_link, Sql.strip, strip_bracket, a.strip_surf none ha]
    rfl
  | .index a b, h => by
    obtain ⟨-, ha, hb⟩ := (all_two rfl).1 h
    rw [Tree.surf, Tree.meaning, strip_link, Sql.strip, strip_bracket, a.strip_surf none ha,
      b.strip_surf none hb]
    rfl
  | .bin _ a b, h | .like _ _ a b, h | .compare _ a b, h | .distinctFrom _ a b, h | .and a b, h
  | .or a b, h => by
    obtain ⟨-, ha, hb⟩ := (all_two rfl).1 h
    rw [Tree.surf, Tree.meaning, strip_link, Sql.strip, strip_bracket, strip_bracket,
      a.strip_surf none ha, b.strip_surf none hb]
    rfl
  | .between _ a b c, h => by
    obtain ⟨-, ha, hb, hc⟩ := (all_three rfl).1 h
    rw [Tree.surf, Tree.meaning, strip_link, Sql.strip, strip_bracket, strip_bracket, strip_bracket,
      a.strip_surf none ha, b.strip_surf none hb, c.strip_surf none hc]
    rfl
  | .eqAny a b, h => by
    obtain ⟨hs, ha, hb⟩ := (all_two rfl).1 h
    have hne (ts : List Token) : b.surf none ≠ .subquery ts := fun he => by
      obtain ⟨q, rfl⟩ := surf_subquery he
      cases hs
    rw [Tree.surf, Tree.meaning, strip_link, quantForm_eq hne, Sql.strip, strip_bracket,
      a.strip_surf none ha, b.strip_surf none hb]
    rfl
  | .neAll a b, h => by
    obtain ⟨hs, ha, hb⟩ := (all_two rfl).1 h
    have hne (ts : List Token) : b.surf none ≠ .subquery ts := fun he => by
      obtain ⟨q, rfl⟩ := surf_subquery he
      cases hs
    rw [Tree.surf, Tree.meaning, strip_link, quantForm_eq hne, Sql.strip, strip_bracket,
      a.strip_surf none ha, b.strip_surf none hb]
    rfl
  | .isIn _ a l, h => by
    obtain ⟨hs, ha, hl⟩ := all_isIn.1 h
    rw [Tree.surf, Tree.meaning, strip_link, inForm_eq (surfs_ne hs), Sql.strip, strip_bracket,
      a.strip_surf none ha, strip_surfs l hl]
    rfl
  | .call _ _ l, h => by
    obtain ⟨-, hl⟩ := all_call.1 h
    rw [Tree.surf, Tree.meaning]
    exact strip_path (fun p => by rw [Sql.strip, strip_surfs l hl]) recv _
  | .case whens els, h => by
    obtain ⟨-, hw, he⟩ := all_case.1 h
    rw [Tree.surf, Tree.meaning, strip_link, Sql.strip, strip_surfWhens whens hw,
      strip_surfElse els he]
  | .prefixOp _ a, h => by
    obtain ⟨hs, ha⟩ := (all_one rfl).1 h
    rw [Tree.surf, Tree.meaning, strip_link, prefixForm_eq (by simpa [Tree.spelt] using hs), Sql.strip,
      strip_bracket, a.strip_surf none ha]
    rfl
  | .binaryOp _ a b, h => by
    obtain ⟨hs, ha, hb⟩ := (all_two rfl).1 h
    rw [Tree.surf, Tree.meaning, strip_link, binForm_eq (by simpa [Tree.spelt] using hs), Sql.strip,
      strip_bracket, strip_bracket, a.strip_surf none ha, b.strip_surf none hb]
    rfl

theorem strip_surfs : (l : List Tree) → (∀ t ∈ l, t.All (·.spelt = true)) →
    stripList (surfs l) = meanings l
  | [], _ => rfl
  | t :: l, h => by
    rw [surfs, stripList, meanings, t.strip_surf none (h t (.head _)),
      strip_surfs l fun s hs => h s (.tail _ hs)]
    rfl

theorem strip_surfWhens : (l : List (Tree × Tree)) →
    (∀ w ∈ l, w.1.All (·.spelt = true) ∧ w.2.All (·.spelt = true)) →
    stripWhens (surfWhens l) = meaningWhens l
  | [], _ => rfl
  | (c, r) :: l, h => by
    obtain ⟨hc, hr⟩ := h (c, r) (.head _)
    rw [surfWhens, stripWhens, meaningWhens, c.strip_surf none hc, r.strip_surf none hr,
      strip_surfWhens l fun w hw => h w (.tail _ hw)]
    rfl

theorem strip_surfElse : (o : Option Tree) → (∀ e, o = some e → e.All (·.spelt = true)) →
    stripElse (surfElse o) = meaningElse o
  | none, _ => rfl
  | some e, h => by
    rw [surfElse, stripElse, meaningElse, e.strip_surf none (h e rfl)]
    rfl

end

/-! ## Where it is not, the text spells a larger tree -/

/-- The size of a syntax tree: its lexemes without the brackets, subqueries with their tokens. -/
def bulk (s : Sql) : Nat := measure Lexeme.bulk s.lexemes

theorem bulk_bracket (ctx p : OperatorPrecedence) (s : Sql) : bulk (bracket ctx p s) = bulk s := by
  unfold bracket
  split
  · simp [bulk, Sql.lexemes, blind_bulk.1, blind_bulk.2]
  · rfl

theorem bulk_dot (a b : Sql) : bulk (.dot a b) = bulk a + 1 + bulk b := by
  simp [bulk, Sql.lexemes, Nat.add_assoc, Lexeme.bulk]

/-- The size of what a member stands behind. -/
def recvBulk : Option Sql → Nat
  | none => 0
  | some a => bulk a + 1

theorem bulk_link (recv : Option Sql) (s : Sql) : bulk (link recv s) = recvBulk recv + bulk s := by
  cases recv with
  | none => rw [link, recvBulk, Nat.zero_add]
  | some a => rw [link, bulk_dot, recvBulk]

theorem bulk_path (last : Text → Sql) : (recv : Option Sql) → (ps : List Text) →
    bulk (path last recv ps) = recvBulk recv + bulk (path last none ps)
  | recv, [] | recv, [_] => bulk_link recv _
  | recv, p :: q :: l => by
    rw [path, path, bulk_path last _ (q :: l), bulk_path last (some (link none _)) (q :: l), recvBulk,
      recvBulk, bulk_link, link, Nat.add_assoc, Nat.add_assoc, Nat.add_assoc]

theorem bulk_path_congr {k j : Text → Sql} {n m : Nat}
    (h : ∀ p, bulk (k p) + m = bulk (j p) + n) :
    (recv : Option Sql) → (ps : List Text) →
      bulk (path k recv ps) + m = bulk (path j recv ps) + n
  | recv, [] => by rw [path, path, bulk_link, bulk_link, Nat.add_assoc, h, Nat.add_assoc]
  | recv, [p] => by rw [path, path, bulk_link, bulk_link, Nat.add_assoc, h, Nat.add_assoc]
  | recv, p :: q :: l => bulk_path_congr h _ (q :: l)

theorem Tree.bulk_recv (a : Sql) (t : Tree) :
    bulk (t.surf (some a)) = bulk a + 1 + bulk (t.surf none) := by
  cases t
  case call name distinct args => exact bulk_path _ _ _
  all_goals exact bulk_link (some a) _

theorem Tree.bulk_meaning_recv (a : Sql) (t : Tree) :
    bulk (t.meaning (some a)) = bulk a + 1 + bulk (t.meaning none) := by
  cases t
  case call name distinct args => exact bulk_path _ _ _
  all_goals exact bulk_link (some a) _

/-- The text spells a tree no smaller than the meaning, and larger unless the tree is spelt. -/
def Grows (t : Tree) : Prop :=
  bulk (t.meaning none) ≤ bulk (t.surf none) ∧
    (bulk (t.surf none) = bulk (t.meaning none) → t.All (·.spelt = true))

theorem Grows.leaf {t : Tree} (h : bulk (t.surf none) = bulk (t.meaning none))
    (hu : t.under = []) (hs : t.spelt = true) : Grows t :=
  ⟨Nat.le_of_eq h.symm, fun _ => by rw [all_iff, hu]; exact ⟨hs, nofun⟩⟩

theorem Grows.one {t a : Tree} {n : Nat} (ha : Grows a) (hu : t.under = a :: a.under)
    (hs : t.spelt = true) (hm : bulk (t.meaning none) = bulk (a.meaning none) + n)
    (ht : bulk (t.surf none) = bulk (a.surf none) + n) : Grows t := by
  refine ⟨by have := ha.1; omega, fun he => (all_one hu).2 ⟨hs, ha.2 (by omega)⟩⟩

theorem Grows.two {t a b : Tree} {n m : Nat} (ha : Grows a) (hb : Grows b)
    (hu : t.under = (a :: a.under) ++ (b :: b.under)) (hm : bulk (t.meaning none) =
      bulk (a.meaning none) + bulk (b.meaning none) + n)
    (ht : bulk (t.surf none) = bulk (a.surf none) + bulk (b.surf none) + n + m)
    (hs : m = 0 → t.spelt = true) : Grows t := by
  have h1 := ha.1
  have h2 := hb.1
  exact ⟨by omega, fun he => (all_two hu).2 ⟨hs (by omega), ha.2 (by omega), hb.2 (by omega)⟩⟩

/-- The same of a list. -/
def GrowList (l : List Tree) : Prop :=
  measure Lexeme.bulk (listLexemes (meanings l)) ≤ measure Lexeme.bulk (listLexemes (surfs l)) ∧
    (measure Lexeme.bulk (listLexemes (surfs l)) = measure Lexeme.bulk (listLexemes (meanings l)) →
      ∀ t ∈ l, t.All (·.spelt = true))

def GrowWhens (l : List (Tree × Tree)) : Prop :=
  measure Lexeme.bulk (whenLexemes (meaningWhens l)) ≤
      measure Lexeme.bulk (whenLexemes (surfWhens l)) ∧
    (measure Lexeme.bulk (whenLexemes (surfWhens l)) =
        measure Lexeme.bulk (whenLexemes (meaningWhens l)) →
      ∀ w ∈ l, w.1.All (·.spelt = true) ∧ w.2.All (·.spelt = true))

def GrowElse (o : Option Tree) : Prop :=
  measure Lexeme.bulk (elseLexemes (meaningElse o)) ≤
      measure Lexeme.bulk (elseLexemes (surfElse o)) ∧
    (measure Lexeme.bulk (elseLexemes (surfElse o)) =
        measure Lexeme.bulk (elseLexemes (meaningElse o)) →
      ∀ e, o = some e → e.All (·.spelt = true))

theorem bulk_inForm (neg : Bool) (a : Sql) (l : List Sql) :
    ∃ m, bulk (inForm neg a l) = bulk a + measure Lexeme.bulk (notLexemes neg) + 1 +
      measure Lexeme.bulk (listLexemes l) + m ∧ (m = 0 → ∀ ts, l ≠ [.subquery ts]) := by
  unfold inForm
  split
  · refine ⟨2, ?_, nofun⟩
    simp [bulk, Sql.lexemes, listLexemes, Lexeme.bulk, Key.lexeme, bracketed]
    omega
  · rename_i hl
    refine ⟨0, ?_, fun _ => hl⟩
    simp [bulk, Sql.lexemes, Lexeme.bulk, Key.lexeme]
    omega

theorem bulk_quantForm (op : Text) (all : Bool) (a b : Sql) :
    ∃ m, bulk (quantForm op all a b) = bulk a + bulk b + 2 + m ∧
      (m = 0 → ∀ ts, b ≠ .subquery ts) := by
  unfold quantForm
  split
  · refine ⟨2, ?_, nofun⟩
    cases all <;> simp [bulk, Sql.lexemes, Lexeme.bulk, bracketed, quantLexeme, Key.lexeme]
      <;> omega
  · rename_i hl
    refine ⟨0, ?_, fun _ => hl⟩
    cases all <;> simp [bulk, Sql.lexemes, Lexeme.bulk, quantLexeme, Key.lexeme] <;> omega

theorem bulk_pre (op : Text) (a : Sql) : bulk (.pre op a) = bulk a + 1 := by
  simp [bulk, Sql.lexemes, Lexeme.bulk, Nat.add_comm]

theorem bulk_foldr (ops : List Text) (a : Sql) : bulk (ops.foldr .pre a) = bulk a + ops.length := by
  induction ops with
  | nil => rfl
  | cons o ops ih => rw [List.foldr_cons, bulk_pre, ih, List.length_cons, Nat.add_assoc]

theorem bulk_bin (op : Text) (a b : Sql) : bulk (.bin op a b) = bulk a + bulk b + 1 := by
  simp [bulk, Sql.lexemes, Lexeme.bulk]
  omega

theorem Grows.call {name : Text} {distinct : Bool} {l : List Tree} (h : GrowList l) :
    Grows (.call name distinct l) := by
  have hlast (f : Text) (l' : List Sql) : bulk (.call f distinct l') =
      bulk (.call [] distinct []) + measure Lexeme.bulk (listLexemes l') := by
    have hword (w : Text) : (Token.word w).lexeme.bulk = 1 := by
      simp only [Token.lexeme]
      cases Key.ofWord w <;> rfl
    simp [bulk, Sql.lexemes, hword, listLexemes]
    omega
  have hpath := bulk_path_congr (k := (Sql.call · distinct (surfs l)))
    (j := (Sql.call · distinct (meanings l))) (n := measure Lexeme.bulk (listLexemes (surfs l)))
    (m := measure Lexeme.bulk (listLexemes (meanings l))) (fun f => by
      rw [hlast, hlast f]
      omega) none (dotParts name)
  have h1 := h.1
  refine ⟨?_, fun he => all_call.2 ⟨rfl, h.2 ?_⟩⟩
  · rw [Tree.surf, Tree.meaning]
    omega
  · rw [Tree.surf, Tree.meaning] at he
    omega

theorem Grows.isIn {neg : Bool} {a : Tree} {l : List Tree} (ha : Grows a) (hl : GrowList l) :
    Grows (.isIn neg a l) := by
  have h1 := ha.1
  have h2 := hl.1
  have hm : bulk ((Tree.isIn neg a l).meaning none) = bulk (a.meaning none) +
      measure Lexeme.bulk (notLexemes neg) + 1 + measure Lexeme.bulk (listLexemes (meanings l)) := by
    simp [Tree.meaning, link, bulk, Sql.lexemes, Lexeme.bulk, Key.lexeme]
    omega
  obtain ⟨m, ht, hs⟩ := bulk_inForm neg (bracket kBetween a.prec (a.surf none)) (surfs l)
  rw [bulk_bracket] at ht
  have ht : bulk ((Tree.isIn neg a l).surf none) = _ := ht
  refine ⟨by omega, fun he => all_isIn.2 ⟨?_, ha.2 (by omega), hl.2 (by omega)⟩⟩
  have hne := hs (by omega)
  unfold Tree.spelt
  split
  · rename_i he
    cases he
  · rename_i he
    cases he
  · rename_i he
    cases he
    exact absurd rfl (hne _)
  · rename_i he
    cases he
  · rename_i he
    cases he
  · rfl

theorem Grows.eqAny {a b : Tree} (ha : Grows a) (hb : Grows b) : Grows (.eqAny a b) := by
  obtain ⟨m, ht, hs⟩ := bulk_quantForm "=".toList false (bracket kCompare a.prec (a.surf none))
    (b.surf none)
  rw [bulk_bracket] at ht
  refine ha.two hb rfl (n := 2) (m := m) ?_ ht fun hm => ?_
  · simp [Tree.meaning, link, bulk, Sql.lexemes, Lexeme.bulk, quantLexeme, Key.lexeme]
    omega
  · cases b
    case scalar q => exact absurd rfl (hs hm q.tokens)
    all_goals rfl

theorem Grows.neAll {a b : Tree} (ha : Grows a) (hb : Grows b) : Grows (.neAll a b) := by
  obtain ⟨m, ht, hs⟩ := bulk_quantForm "<>".toList true (bracket kCompare a.prec (a.surf none))
    (b.surf none)
  rw [bulk_bracket] at ht
  refine ha.two hb rfl (n := 2) (m := m) ?_ ht fun hm => ?_
  · simp [Tree.meaning, link, bulk, Sql.lexemes, Lexeme.bulk, quantLexeme, Key.lexeme]
    omega
  · cases b
    case scalar q => exact absurd rfl (hs hm q.tokens)
    all_goals rfl

theorem Grows.prefixOp {op : Text} {a : Tree} (ha : Grows a) : Grows (.prefixOp op a) := by
  have h1 := ha.1
  have hm : bulk ((Tree.prefixOp op a).meaning none) = _ := bulk_pre op (a.meaning none)
  have ht : bulk ((Tree.prefixOp op a).surf none) = _ :=
    bulk_foldr (opPieces op) (bracket kUnaryPlus a.prec (a.surf none))
  rw [bulk_bracket] at ht
  have hlen : 1 ≤ (opPieces op).length := Nat.succ_le_succ (Nat.zero_le _)
  refine ⟨by omega, fun he => (all_one rfl).2 ⟨?_, ha.2 (by omega)⟩⟩
  cases hs : losesSign op
  · simp [Tree.spelt, hs]
  · have := opPieces_length hs
    omega

theorem Grows.binaryOp {op : Text} {a b : Tree} (ha : Grows a) (hb : Grows b) :
    Grows (.binaryOp op a b) := by
  have h1 := ha.1
  have h2 := hb.1
  have hm : bulk ((Tree.binaryOp op a b).meaning none) = _ :=
    bulk_bin op (a.meaning none) (b.meaning none)
  have ht : bulk ((Tree.binaryOp op a b).surf none) = _ :=
    bulk_bin (trimSigns op) (bracket kAnyOther a.prec (a.surf none))
      ((opPieces op).tail.foldr .pre (bracket kAnyOther b.prec (b.surf none)))
  rw [bulk_foldr, bulk_bracket, bulk_bracket] at ht
  refine ⟨by omega, fun he => (all_two rfl).2 ⟨?_, ha.2 (by omega), hb.2 (by omega)⟩⟩
  cases hs : losesSign op
  · simp [Tree.spelt, hs]
  · have := opPieces_length hs
    rw [List.length_tail] at ht
    omega

theorem Grows.dot {a b : Tree} (ha : Grows a) (hb : Grows b) : Grows (.dot a b) := by
  refine ha.two hb rfl (n := 1) (m := 0) ?_ ?_ fun _ => rfl
  · rw [Tree.meaning, link, Tree.bulk_meaning_recv, Nat.add_right_comm]
  · rw [Tree.surf, link, Nat.add_zero]
    split
    · rw [link, bulk_dot, bulk_bracket, Nat.add_right_comm]
      simp [bulk, Sql.lexemes, blind_bulk.1, blind_bulk.2]
    · rw [Tree.bulk_recv, bulk_bracket, Nat.add_right_comm]

section
variable {t a b c : Tree} {ctx ctx' ctx'' : OperatorPrecedence} (n : Nat)

theorem Grows.of_one {f : Sql → Sql} (hf : ∀ s, bulk (f s) = bulk s + n) (ha : Grows a)
    (hu : t.under = a :: a.under) (hs : t.spelt = true) (hm : t.meaning none = f (a.meaning none))
    (ht : t.surf none = f (bracket ctx a.prec (a.surf none))) : Grows t :=
  ha.one hu hs (by rw [hm, hf]) (by rw [ht, hf, bulk_bracket])

theorem Grows.of_two {f : Sql → Sql → Sql} (hf : ∀ s r, bulk (f s r) = bulk s + bulk r + n)
    (ha : Grows a) (hb : Grows b) (hu : t.under = (a :: a.under) ++ (b :: b.under))
    (hs : t.spelt = true) (hm : t.meaning none = f (a.meaning none) (b.meaning none))
    (ht : t.surf none = f (bracket ctx a.prec (a.surf none)) (bracket ctx b.prec (b.surf none))) :
    Grows t :=
  ha.two hb hu (m := 0) (by rw [hm, hf]) (by rw [ht, hf, bulk_bracket, bulk_bracket]; rfl) fun _ => hs

end

@[simp] theorem bulk_key (k : Key) : k.lexeme.bulk = 1 := by
  cases k with
  | _ => rfl

@[simp] theorem bulk_punct {c : Char} (h : c ≠ '(') (h' : c ≠ ')') : (Lexeme.punct c).bulk = 1 := by
  rw [Lexeme.bulk, if_neg (by simp [h, h'])]

@[simp] theorem bulk_word (w : Text) : (Token.word w).lexeme.bulk = 1 := by
  simp only [Token.lexeme]
  cases Key.ofWord w <;> rfl

mutual

/-- **The text spells a larger tree unless the tree is spelt.** -/
theorem Tree.grows : (t : Tree) → Grows t
  | .null | .bool _ | .placeholder _ | .literal _ | .ident _ | .int _ | .column _ | .qualified _ _
  | .countAll | .negative _ | .scalar _ => .leaf rfl rfl rfl
  | .exists n _ => by cases n <;> exact .leaf rfl rfl rfl
  | .dot a b => a.grows.dot b.grows
  | .castRaw a w => .of_one 3 (f := (.cast · w)) (fun s => by
      simp [bulk, Sql.lexemes, blind_bulk.1, blind_bulk.2]
      omega) a.grows rfl rfl rfl rfl
  | .index a b => by
    refine a.grows.two b.grows rfl (n := 2) (m := 0) ?_ ?_ fun _ => rfl
    · simp [Tree.meaning, link, bulk, Sql.lexemes]
      omega
    · simp only [Tree.surf, link]
      rw [← bulk_bracket kIndex a.prec (a.surf none)]
      simp [bulk, Sql.lexemes]
      omega
  | .collate a coll => .of_one 2 (f := (.collate · coll.name)) (fun s => by
      simp [bulk, Sql.lexemes, Lexeme.bulk, Key.lexeme]) a.grows rfl rfl rfl rfl
  | .neg a => .of_one 1 (bulk_pre _) a.grows rfl rfl rfl rfl
  | .bin op a b => .of_two 1 (bulk_bin op.name) a.grows b.grows rfl rfl rfl rfl
  | .compare op a b => .of_two 1 (bulk_bin op.name) a.grows b.grows rfl rfl rfl rfl
  | .like op n a b =>
    .of_two (measure Lexeme.bulk (notLexemes n) + measure Lexeme.bulk op.lexemes)
      (f := .like op n) (fun s r => by simp [bulk, Sql.lexemes]; omega) a.grows b.grows rfl rfl rfl rfl
  | .distinctFrom n a b => .of_two (measure Lexeme.bulk (notLexemes n) + 3) (f := .distinctFrom n)
      (fun s r => by simp [bulk, Sql.lexemes]; omega) a.grows b.grows rfl rfl rfl rfl
  | .and a b => .of_two 1 (f := .and) (fun s r => by simp [bulk, Sql.lexemes]; omega)
      a.grows b.grows rfl rfl rfl rfl
  | .or a b => .of_two 1 (f := .or) (fun s r => by simp [bulk, Sql.lexemes]; omega)
      a.grows b.grows rfl rfl rfl rfl
  | .between n a b c => by
    have ha := a.grows
    have hb := b.grows
    have hc := c.grows
    have hf (x y z : Sql) : bulk (.between n x y z) =
        bulk x + bulk y + bulk z + (measure Lexeme.bulk (notLexemes n) + 2) := by
      simp [bulk, Sql.lexemes]
      omega
    have hm : bulk ((Tree.between n a b c).meaning none) = _ := hf _ _ _
    have ht : bulk ((Tree.between n a b c).surf none) = _ := hf _ _ _
    rw [bulk_bracket, bulk_bracket, bulk_bracket] at ht
    have h1 := ha.1
    have h2 := hb.1
    have h3 := hc.1
    exact ⟨by omega, fun he => (all_three rfl).2
      ⟨rfl, ha.2 (by omega), hb.2 (by omega), hc.2 (by omega)⟩⟩
  | .isIn _ a l => a.grows.isIn (grow_list l)
  | .eqAny a b => a.grows.eqAny b.grows
  | .neAll a b => a.grows.neAll b.grows
  | .is op a => .of_one (measure Lexeme.bulk (notLexemes op.negated) + 1 + op.test.lexeme.bulk)
      (f := .is op.negated op.test) (fun s => by simp [bulk, Sql.lexemes]; omega)
      a.grows rfl rfl rfl rfl
  | .exprNot a => .of_one 1 (f := .not) (fun s => by simp [bulk, Sql.lexemes]; omega)
      a.grows rfl rfl rfl rfl
  | .condNot a => .of_one 1 (f := .not) (fun s => by simp [bulk, Sql.lexemes]; omega)
      a.grows rfl rfl rfl rfl
  | .call _ _ l => .call (grow_list l)
  | .case whens els => by
    have hw := grow_whens whens
    have he := grow_else els
    have hf (x : List (Sql × Sql)) (y : Option Sql) : bulk (.case x y) =
        measure Lexeme.bulk (whenLexemes x) + measure Lexeme.bulk (elseLexemes y) + 2 := by
      simp [bulk, Sql.lexemes]
      omega
    have hm : bulk ((Tree.case whens els).meaning none) = _ := hf _ _
    have ht : bulk ((Tree.case whens els).surf none) = _ := hf _ _
    have h1 := hw.1
    have h2 := he.1
    exact ⟨by omega, fun e => all_case.2 ⟨rfl, hw.2 (by omega), he.2 (by omega)⟩⟩
  | .prefixOp _ a => a.grows.prefixOp
  | .binaryOp _ a b => a.grows.binaryOp b.grows
  | .inQuery n a q => .of_one (measure Lexeme.bulk (notLexemes n) + 2 + q.tokens.length)
      (f := (.inQuery n · q.tokens))
      (fun s => by simp [bulk, Sql.lexemes, Lexeme.bulk, Key.lexeme]; omega)
      a.grows rfl rfl rfl rfl
  | .eqAnyQuery a q => .of_one (3 + q.tokens.length) (f := (.quantQuery "=".toList false · q.tokens))
      (fun s => by simp [bulk, Sql.lexemes, Lexeme.bulk, quantLexeme, Key.lexeme]; omega)
      a.grows rfl rfl rfl rfl
  | .neAllQuery a q => .of_one (3 + q.tokens.length) (f := (.quantQuery "<>".toList true · q.tokens))
      (fun s => by simp [bulk, Sql.lexemes, Lexeme.bulk, quantLexeme, Key.lexeme]; omega)
      a.grows rfl rfl rfl rfl

theorem grow_list : (l : List Tree) → GrowList l
  | [] => ⟨Nat.le_refl _, fun _ => nofun⟩
  | [t] => by
    have ht := t.grows
    exact ⟨ht.1, fun he s hs => by rw [List.mem_singleton.1 hs]; exact ht.2 he⟩
  | t :: u :: l => by
    have ht := t.grows
    have hl := grow_list (u :: l)
    have hf (x y : Sql) (z : List Sql) : measure Lexeme.bulk (listLexemes (x :: y :: z)) =
        bulk x + 1 + measure Lexeme.bulk (listLexemes (y :: z)) := by
      simp [bulk, listLexemes]
      omega
    have h1 := ht.1
    have h2 := hl.1
    unfold GrowList
    simp only [meanings, surfs] at h2 hl ⊢
    rw [hf, hf]
    refine ⟨by omega, fun he => List.forall_mem_cons.2 ⟨ht.2 (by omega), hl.2 ?_⟩⟩
    simp only [meanings, surfs]
    omega

theorem grow_whens : (l : List (Tree × Tree)) → GrowWhens l
  | [] => ⟨Nat.le_refl _, fun _ => nofun⟩
  | (c, r) :: l => by
    have hc := c.grows
    have hr := r.grows
    have hl := grow_whens l
    have hf (x y : Sql) (z : List (Sql × Sql)) : measure Lexeme.bulk (whenLexemes ((x, y) :: z)) =
        bulk x + bulk y + measure Lexeme.bulk (whenLexemes z) + 2 := by
      simp [bulk, whenLexemes]
      omega
    have h1 := hc.1
    have h2 := hr.1
    have h3 := hl.1
    unfold GrowWhens
    simp only [meaningWhens, surfWhens]
    rw [hf, hf]
    exact ⟨by omega, fun he => List.forall_mem_cons.2
      ⟨⟨hc.2 (by omega), hr.2 (by omega)⟩, hl.2 (by omega)⟩⟩

theorem grow_else : (o : Option Tree) → GrowElse o
  | none => ⟨Nat.le_refl _, fun _ => nofun⟩
  | some e => by
    have he := e.grows
    have hf (x : Sql) : measure Lexeme.bulk (elseLexemes (some x)) = bulk x + 1 := by
      simp [bulk, elseLexemes, Nat.add_comm]
    have h1 := he.1
    unfold GrowElse
    simp only [meaningElse, surfElse]
    rw [hf, hf]
    exact ⟨by omega, fun h e' h' => by cases h'; exact he.2 (by omega)⟩

end

end IronQuery
