import IronQuery.Proof.TreeSurf

/-!
# Where the operands of a tree stand

A `Place` is an operand of the root: the context the renderer puts it in, and the row PostgreSQL
gives to the operator there. `Tree.left` and `Tree.right` are the places in front of the operator
and behind it. `Tree.FitsAt`: what the operands leave open at their edges, outside brackets, admits
the operator.

`Tree.fits_surf`: the syntax tree that the text spells fits the precedence table if and only if
every operand of the tree does.
-/

namespace IronQuery

open OperatorPrecedence Pg

/-! ## Places -/

structure Place where
  context : OperatorPrecedence
  operand : Tree
  row : Level

/-- The operand as the text spells it, with the brackets the context asks for. -/
def Place.surf (p : Place) : Sql := bracket p.context p.operand.prec (p.operand.surf none)

/-- The operand in front of the operator at the root. -/
def Tree.left : Tree → List Place
  | .dot a _ => [⟨kDot, a, Level.dot⟩]
  | .index a _ => [⟨kIndex, a, Level.index⟩]
  | .collate a _ => [⟨kCollate, a, Level.collate⟩]
  | .bin op a _ => [⟨op.prec, a, opLevel op.name⟩]
  | .binaryOp op a _ => [⟨kAnyOther, a, opLevel op⟩]
  | .between _ a _ _ | .like _ _ a _ | .isIn _ a _ | .inQuery _ a _ =>
    [⟨kBetween, a, Level.between⟩]
  | .compare op a _ => [⟨kCompare, a, opLevel op.name⟩]
  | .eqAny a _ | .neAll a _ | .eqAnyQuery a _ | .neAllQuery a _ => [⟨kCompare, a, Level.compare⟩]
  | .is _ a | .distinctFrom _ a _ => [⟨kIs, a, Level.is⟩]
  | .and a _ => [⟨kAnd, a, Level.and⟩]
  | .or a _ => [⟨kOr, a, Level.or⟩]
  | _ => []

/-- The operands behind it that no bracket or key word closes off. -/
def Tree.right : Tree → List Place
  | .neg a => [⟨kUnaryPlus, a, Level.sign⟩]
  | .prefixOp op a => [⟨kUnaryPlus, a, prefixLevel op⟩]
  | .bin op _ b => [⟨op.prec, b, opLevel op.name⟩]
  | .binaryOp op _ b => [⟨kAnyOther, b, opLevel op⟩]
  | .between _ _ b c => [⟨kBetween, b, Level.between⟩, ⟨kBetween, c, Level.between⟩]
  | .like _ _ _ b => [⟨kBetween, b, Level.between⟩]
  | .compare op _ b => [⟨kCompare, b, opLevel op.name⟩]
  | .distinctFrom _ _ b => [⟨kIs, b, Level.is⟩]
  | .exprNot a | .condNot a => [⟨kNot, a, Level.not⟩]
  | .and _ b => [⟨kAnd, b, Level.and⟩]
  | .or _ b => [⟨kOr, b, Level.or⟩]
  | _ => []

/-- The operands of the root leave open what the precedence table lets stand there. -/
def Tree.FitsAt (t : Tree) : Prop :=
  (∀ p ∈ t.left, p.surf.leftOf p.row) ∧ ∀ p ∈ t.right, p.surf.head < p.row

instance (a : Sql) (l : Level) : Decidable (a.leftOf l) :=
  inferInstanceAs (Decidable (a.tail ≤ l ∧ l ≠ a.last))

instance (t : Tree) : Decidable t.FitsAt :=
  inferInstanceAs (Decidable
    ((∀ p ∈ t.left, p.surf.leftOf p.row) ∧ ∀ p ∈ t.right, p.surf.head < p.row))

/-! ## Members -/

theorem bracket_fits (ctx p : OperatorPrecedence) (s : Sql) : (bracket ctx p s).Fits ↔ s.Fits := by
  unfold bracket
  split
  · rw [Sql.Fits]
  · rfl

/-- A member may stand behind it. -/
def RecvFits (recv : Option Sql) : Prop := ∀ a, recv = some a → a.Fits ∧ a.leftOf Level.dot

theorem link_fits {recv : Option Sql} {s : Sql} (hs : s.head = 0) :
    (link recv s).Fits ↔ RecvFits recv ∧ s.Fits := by
  cases recv with
  | none => simp [link, RecvFits]
  | some a =>
    simp only [link, Sql.Fits, RecvFits, Option.some.injEq, forall_eq', hs]
    exact ⟨fun h => ⟨⟨h.1, h.2.2.1⟩, h.2.1⟩, fun h => ⟨h.1.1, h.2, h.1.2, by decide⟩⟩

theorem recvFits_dot {recv : Option Sql} {s : Sql} (hs : s.head = 0) (ht : s.tail = 0)
    (hl : s.last = 0) (hf : s.Fits) : RecvFits (some (link recv s)) ↔ RecvFits recv := by
  have hleft : (link recv s).leftOf Level.dot := by
    cases recv with
    | none => exact ⟨by rw [link, ht]; decide, by rw [link, hl]; decide⟩
    | some a => exact ⟨by simp only [link, Sql.tail, ht]; decide, nofun⟩
  refine ⟨fun h => ((link_fits hs).1 (h _ rfl).1).1, fun h a ha => ?_⟩
  cases ha
  exact ⟨(link_fits hs).2 ⟨h, hf⟩, hleft⟩

theorem path_fits {k : Text → Sql} {P : Prop} (hh : ∀ f, (k f).head = 0)
    (hl : ∀ f, (k f).Fits ↔ P) : (recv : Option Sql) → (ps : List Text) →
      ((path k recv ps).Fits ↔ RecvFits recv ∧ P)
  | recv, [] => by rw [path, link_fits (hh _), hl]
  | recv, [p] => by rw [path, link_fits (hh _), hl]
  | recv, p :: q :: l => by
    have hcol : (Sql.column p).Fits := trivial
    rw [path, path_fits hh hl _ (q :: l), recvFits_dot rfl rfl rfl hcol]

theorem recvFits_none : RecvFits none := nofun

/-- An atom may be a member of anything that a point may follow. -/
theorem Tree.fits_recv {t : Tree} (a : Sql) (h : t.prec = kSymbol) :
    (t.surf (some a)).Fits ↔ (a.Fits ∧ a.leftOf Level.dot) ∧ (t.surf none).Fits := by
  have hrecv : RecvFits (some a) ↔ a.Fits ∧ a.leftOf Level.dot := by
    simp [RecvFits]
  rw [← hrecv]
  cases t
  case call name distinct args =>
    have hpath := path_fits (k := (Sql.call · distinct (surfs args))) (P := fitList (surfs args))
      (fun _ => rfl) (fun _ => Iff.rfl)
    rw [Tree.surf, Tree.surf, hpath, hpath]
    simp [recvFits_none]
  case «exists» neg q => cases neg <;> exact link_fits rfl
  case bin op a b => cases op <;> cases h
  all_goals first | exact link_fits rfl | cases h

/-! ## Whole trees -/

section
variable {t a b : Tree} {p q : Place}

theorem Place.fits (h : (a.surf none).Fits ↔ a.All Tree.FitsAt) (hp : p.operand = a) :
    p.surf.Fits ↔ a.All Tree.FitsAt := by
  rw [Place.surf, bracket_fits, hp, h]

theorem fitsAt_left (hl : t.left = [p]) (hr : t.right = []) :
    t.FitsAt ↔ p.surf.leftOf p.row := by
  rw [Tree.FitsAt, hl, hr, List.forall_mem_singleton]
  exact ⟨fun h => h.1, fun h => ⟨h, nofun⟩⟩

theorem fits_leaf (hu : t.under = []) (hl : t.left = []) (hr : t.right = [])
    (hf : (t.surf none).Fits) : (t.surf none).Fits ↔ t.All Tree.FitsAt := by
  rw [all_iff, Tree.FitsAt, hu, hl, hr]
  exact ⟨fun _ => ⟨⟨nofun, nofun⟩, nofun⟩, fun _ => hf⟩

theorem fits_closed (hu : t.under = a :: a.under) (hl : t.left = []) (hr : t.right = [])
    (hf : (t.surf none).Fits ↔ (a.surf none).Fits)
    (ha : (a.surf none).Fits ↔ a.All Tree.FitsAt) : (t.surf none).Fits ↔ t.All Tree.FitsAt := by
  rw [all_one hu, Tree.FitsAt, hl, hr, hf, ha]
  exact ⟨fun h => ⟨⟨nofun, nofun⟩, h⟩, fun h => h.2⟩

theorem fits_postfix (hu : t.under = a :: a.under) (hl : t.left = [p]) (hr : t.right = [])
    (hp : p.operand = a) (hf : (t.surf none).Fits ↔ p.surf.Fits ∧ p.surf.leftOf p.row)
    (ha : (a.surf none).Fits ↔ a.All Tree.FitsAt) : (t.surf none).Fits ↔ t.All Tree.FitsAt := by
  rw [all_one hu, Tree.FitsAt, hl, hr, hf, Place.fits ha hp, List.forall_mem_singleton]
  exact ⟨fun h => ⟨⟨h.2, nofun⟩, h.1⟩, fun h => ⟨h.2, h.1.1⟩⟩

theorem fits_prefix (hu : t.under = a :: a.under) (hl : t.left = []) (hr : t.right = [p])
    (hp : p.operand = a) (hf : (t.surf none).Fits ↔ p.surf.Fits ∧ p.surf.head < p.row)
    (ha : (a.surf none).Fits ↔ a.All Tree.FitsAt) : (t.surf none).Fits ↔ t.All Tree.FitsAt := by
  rw [all_one hu, Tree.FitsAt, hl, hr, hf, Place.fits ha hp, List.forall_mem_singleton]
  exact ⟨fun h => ⟨⟨nofun, h.2⟩, h.1⟩, fun h => ⟨h.2, h.1.2⟩⟩

theorem fits_infix (hu : t.under = (a :: a.under) ++ (b :: b.under)) (hl : t.left = [p])
    (hr : t.right = [q]) (hp : p.operand = a) (hq : q.operand = b) (hf : (t.surf none).Fits ↔
      p.surf.Fits ∧ q.surf.Fits ∧ p.surf.leftOf p.row ∧ q.surf.head < q.row)
    (ha : (a.surf none).Fits ↔ a.All Tree.FitsAt) (hb : (b.surf none).Fits ↔ b.All Tree.FitsAt) :
    (t.surf none).Fits ↔ t.All Tree.FitsAt := by
  rw [all_two hu, Tree.FitsAt, hl, hr, hf, Place.fits ha hp, Place.fits hb hq,
    List.forall_mem_singleton, List.forall_mem_singleton]
  exact ⟨fun h => ⟨h.2.2, h.1, h.2.1⟩, fun h => ⟨h.2.1, h.2.2, h.1⟩⟩

end

theorem quant_fits {op : Text} {all : Bool} {p : Place} {t a b : Tree}
    (hu : t.under = (a :: a.under) ++ (b :: b.under)) (hl : t.left = [p]) (hr : t.right = [])
    (hp : p.operand = a) (hrow : p.row = opLevel op)
    (hs : t.surf none = .quant op all p.surf (b.surf none))
    (ha : (a.surf none).Fits ↔ a.All Tree.FitsAt) (hb : (b.surf none).Fits ↔ b.All Tree.FitsAt) :
    (t.surf none).Fits ↔ t.All Tree.FitsAt := by
  rw [all_two hu, Tree.FitsAt, hl, hr, hs, Sql.Fits, ← hrow, Place.fits ha hp, hb,
    List.forall_mem_singleton]
  exact ⟨fun h => ⟨⟨h.2.2, nofun⟩, h.1, h.2.1⟩, fun h => ⟨h.2.1, h.2.2, h.1.1⟩⟩

mutual

/-- **The text's syntax tree fits if and only if every operand does.** -/
theorem Tree.fits_surf : (t : Tree) → t.All (·.spelt = true) →
    ((t.surf none).Fits ↔ t.All Tree.FitsAt)
  | .null, _ | .bool _, _ | .placeholder _, _ | .literal _, _ | .ident _, _ | .int _, _
  | .column .., _ | .countAll, _ | .scalar _, _ => fits_leaf rfl rfl rfl trivial
  | .negative _, _ => fits_leaf rfl rfl rfl ⟨trivial, (by decide : 0 < Level.sign)⟩
  | .exists n _, _ => by
    cases n
    · exact fits_leaf rfl rfl rfl trivial
    · exact fits_leaf rfl rfl rfl ⟨trivial, (by decide : 0 < Level.not)⟩
  | .qualified table col, _ => by
    have hpath := path_fits (k := .column) (P := True) (fun _ => rfl) (fun _ => Iff.rfl) none
      (dotParts table ++ [col])
    exact fits_leaf rfl rfl rfl (hpath.2 ⟨recvFits_none, trivial⟩)
  | .dot a b, h => by
    obtain ⟨-, ha, hb⟩ := (all_two rfl).1 h
    have hroot : (Tree.dot a b).FitsAt ↔
        (bracket kDot a.prec (a.surf none)).leftOf Level.dot :=
      fitsAt_left (p := ⟨kDot, a, Level.dot⟩) rfl rfl
    rw [all_two rfl, hroot, ← a.fits_surf ha, ← b.fits_surf hb, Tree.surf, link]
    split
    · rw [link, Sql.Fits, Sql.Fits, bracket_fits]
      exact ⟨fun h => ⟨h.2.2.1, h.1, h.2.1⟩,
        fun h => ⟨h.2.1, h.2.2, h.1, (by decide : 0 < Level.dot)⟩⟩
    · rename_i hc
      rw [Tree.fits_recv _ (symbol_of_lt hc), bracket_fits]
      exact ⟨fun h => ⟨h.1.2, h.1.1, h.2⟩, fun h => ⟨⟨h.2.1, h.1⟩, h.2.2⟩⟩
  | .castRaw a _, h =>
    fits_closed rfl rfl rfl (bracket_fits _ _ _) (a.fits_surf ((all_one rfl).1 h).2)
  | .index a b, h => by
    obtain ⟨-, ha, hb⟩ := (all_two rfl).1 h
    rw [all_two rfl, fitsAt_left rfl rfl, ← a.fits_surf ha, ← b.fits_surf hb, Tree.surf, link,
      Sql.Fits, bracket_fits]
    exact ⟨fun h => ⟨h.2.2, h.1, h.2.1⟩, fun h => ⟨h.2.1, h.2.2, h.1⟩⟩
  | .collate a _, h => fits_postfix rfl rfl rfl rfl Iff.rfl (a.fits_surf ((all_one rfl).1 h).2)
  | .is _ a, h => fits_postfix rfl rfl rfl rfl Iff.rfl (a.fits_surf ((all_one rfl).1 h).2)
  | .inQuery _ a _, h => fits_postfix rfl rfl rfl rfl Iff.rfl (a.fits_surf ((all_one rfl).1 h).2)
  | .eqAnyQuery a _, h =>
    fits_postfix rfl rfl rfl rfl Iff.rfl (a.fits_surf ((all_one rfl).1 h).2)
  | .neAllQuery a _, h =>
    fits_postfix rfl rfl rfl rfl Iff.rfl (a.fits_surf ((all_one rfl).1 h).2)
  | .neg a, h => fits_prefix rfl rfl rfl rfl Iff.rfl (a.fits_surf ((all_one rfl).1 h).2)
  | .exprNot a, h => fits_prefix rfl rfl rfl rfl Iff.rfl (a.fits_surf ((all_one rfl).1 h).2)
  | .condNot a, h => fits_prefix rfl rfl rfl rfl Iff.rfl (a.fits_surf ((all_one rfl).1 h).2)
  | .prefixOp op a, h => by
    obtain ⟨hs, ha⟩ := (all_one rfl).1 h
    refine fits_prefix rfl rfl rfl rfl ?_ (a.fits_surf ha)
    rw [Tree.surf, link, prefixForm_eq (by simpa [Tree.spelt] using hs)]
    rfl
  | .bin _ a b, h => by
    obtain ⟨-, ha, hb⟩ := (all_two rfl).1 h
    exact fits_infix rfl rfl rfl rfl rfl Iff.rfl (a.fits_surf ha) (b.fits_surf hb)
  | .binaryOp op a b, h => by
    obtain ⟨hs, ha, hb⟩ := (all_two rfl).1 h
    refine fits_infix rfl rfl rfl rfl rfl ?_ (a.fits_surf ha) (b.fits_surf hb)
    rw [Tree.surf, link, binForm_eq (by simpa [Tree.spelt] using hs)]
    rfl
  | .compare _ a b, h => by
    obtain ⟨-, ha, hb⟩ := (all_two rfl).1 h
    exact fits_infix rfl rfl rfl rfl rfl Iff.rfl (a.fits_surf ha) (b.fits_surf hb)
  | .like _ _ a b, h => by
    obtain ⟨-, ha, hb⟩ := (all_two rfl).1 h
    exact fits_infix rfl rfl rfl rfl rfl Iff.rfl (a.fits_surf ha) (b.fits_surf hb)
  | .distinctFrom _ a b, h => by
    obtain ⟨-, ha, hb⟩ := (all_two rfl).1 h
    exact fits_infix rfl rfl rfl rfl rfl Iff.rfl (a.fits_surf ha) (b.fits_surf hb)
  | .and a b, h => by
    obtain ⟨-, ha, hb⟩ := (all_two rfl).1 h
    exact fits_infix rfl rfl rfl rfl rfl Iff.rfl (a.fits_surf ha) (b.fits_surf hb)
  | .or a b, h => by
    obtain ⟨-, ha, hb⟩ := (all_two rfl).1 h
    exact fits_infix rfl rfl rfl rfl rfl Iff.rfl (a.fits_surf ha) (b.fits_surf hb)
  | .between _ a b c, h => by
    obtain ⟨-, ha, hb, hc⟩ := (all_three rfl).1 h
    rw [all_three rfl, ← a.fits_surf ha, ← b.fits_surf hb, ← c.fits_surf hc, Tree.surf, link,
      Sql.Fits, bracket_fits, bracket_fits, bracket_fits, Tree.FitsAt, Tree.left, Tree.right,
      List.forall_mem_singleton, List.forall_mem_cons, List.forall_mem_singleton]
    exact ⟨fun h => ⟨⟨h.2.2.2.1, h.2.2.2.2⟩, h.1, h.2.1, h.2.2.1⟩,
      fun h => ⟨h.2.1, h.2.2.1, h.2.2.2, h.1.1, h.1.2⟩⟩
  | .isIn n a l, h => by
    obtain ⟨hs, ha, hl⟩ := all_isIn.1 h
    rw [all_isIn, fitsAt_left rfl rfl, ← a.fits_surf ha, ← fits_surfs l hl, Tree.surf, link,
      inForm_eq (surfs_ne hs), Sql.Fits, bracket_fits]
    exact ⟨fun h => ⟨h.2.2, h.1, h.2.1⟩, fun h => ⟨h.2.1, h.2.2, h.1⟩⟩
  | .eqAny a b, h => by
    obtain ⟨hs, ha, hb⟩ := (all_two rfl).1 h
    have hne (ts : List Token) : b.surf none ≠ .subquery ts := fun he => by
      obtain ⟨q, rfl⟩ := surf_subquery he
      cases hs
    exact quant_fits rfl rfl rfl rfl rfl (quantForm_eq hne _ _ _) (a.fits_surf ha) (b.fits_surf hb)
  | .neAll a b, h => by
    obtain ⟨hs, ha, hb⟩ := (all_two rfl).1 h
    have hne (ts : List Token) : b.surf none ≠ .subquery ts := fun he => by
      obtain ⟨q, rfl⟩ := surf_subquery he
      cases hs
    exact quant_fits rfl rfl rfl rfl rfl (quantForm_eq hne _ _ _) (a.fits_surf ha) (b.fits_surf hb)
  | .call name distinct l, h => by
    obtain ⟨-, hl⟩ := all_call.1 h
    have hpath := path_fits (k := (Sql.call · distinct (surfs l))) (P := fitList (surfs l))
      (fun _ => rfl) (fun _ => Iff.rfl) none (dotParts name)
    rw [all_call, ← fits_surfs l hl, Tree.surf, hpath]
    exact ⟨fun h => ⟨⟨nofun, nofun⟩, h.2⟩, fun h => ⟨recvFits_none, h.2⟩⟩
  | .case whens els, h => by
    obtain ⟨-, hw, he⟩ := all_case.1 h
    rw [all_case, ← fits_surfWhens whens hw, ← fits_surfElse els he, Tree.surf, link, Sql.Fits]
    exact ⟨fun h => ⟨⟨nofun, nofun⟩, h⟩, fun h => h.2⟩

theorem fits_surfs : (l : List Tree) → (∀ t ∈ l, t.All (·.spelt = true)) →
    (fitList (surfs l) ↔ ∀ t ∈ l, t.All Tree.FitsAt)
  | [], _ => ⟨fun _ => nofun, fun _ => trivial⟩
  | t :: l, h => by
    rw [surfs, fitList, t.fits_surf (h t (.head _)), fits_surfs l fun s hs => h s (.tail _ hs),
      List.forall_mem_cons]

theorem fits_surfWhens : (l : List (Tree × Tree)) →
    (∀ w ∈ l, w.1.All (·.spelt = true) ∧ w.2.All (·.spelt = true)) →
    (fitWhens (surfWhens l) ↔ ∀ w ∈ l, w.1.All Tree.FitsAt ∧ w.2.All Tree.FitsAt)
  | [], _ => ⟨fun _ => nofun, fun _ => trivial⟩
  | (c, r) :: l, h => by
    obtain ⟨hc, hr⟩ := h (c, r) (.head _)
    rw [surfWhens, fitWhens, c.fits_surf hc, r.fits_surf hr,
      fits_surfWhens l fun w hw => h w (.tail _ hw), List.forall_mem_cons, and_assoc]

theorem fits_surfElse : (o : Option Tree) → (∀ e, o = some e → e.All (·.spelt = true)) →
    (fitElse (surfElse o) ↔ ∀ e, o = some e → e.All Tree.FitsAt)
  | none, _ => ⟨fun _ => nofun, fun _ => trivial⟩
  | some e, h => by
    rw [surfElse, fitElse, e.fits_surf (h e rfl)]
    simp

end

/-! ## The trees at the places -/

theorem under_of_left {t s : Tree} {p : Place} (hp : p ∈ t.left)
    (hs : s ∈ p.operand :: p.operand.under) : s ∈ t.under := by
  cases t <;> simp only [Tree.left, List.mem_singleton, List.not_mem_nil] at hp <;> subst hp <;>
    simp only [Tree.under, List.mem_append, hs, true_or]

theorem under_of_right {t s : Tree} {p : Place} (hp : p ∈ t.right)
    (hs : s ∈ p.operand :: p.operand.under) : s ∈ t.under := by
  cases t
  case between neg a b c =>
    simp only [Tree.right, List.mem_cons, List.not_mem_nil, or_false] at hp
    rcases hp with rfl | rfl <;> simp only [Tree.under, List.mem_append, hs, true_or, or_true]
  all_goals simp only [Tree.right, List.mem_singleton, List.not_mem_nil] at hp
  all_goals
    subst hp
    simp only [Tree.under, List.mem_append, hs, or_true]

theorem Tree.All.left {q : Tree → Prop} {t : Tree} (h : t.All q) {p : Place} (hp : p ∈ t.left) :
    p.operand.All q := fun s hs => h s (.tail _ (under_of_left hp hs))

theorem Tree.All.right {q : Tree → Prop} {t : Tree} (h : t.All q) {p : Place} (hp : p ∈ t.right) :
    p.operand.All q := fun s hs => h s (.tail _ (under_of_right hp hs))

end IronQuery
