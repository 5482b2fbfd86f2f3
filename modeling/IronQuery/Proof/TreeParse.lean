import IronQuery.Proof.TreeEdges
import IronQuery.Proof.TreeRendered

/-!
# A built tree is read back as it was built

`parse_build`: the parser reads the text of a built tree as the tree's meaning, for the trees of
named operators on no subqueries (`Tree.WF`). `callee_not_readable`: what no reader can tell from the
text is whether a function's dotted name was one name.
-/

namespace IronQuery

open OperatorPrecedence Pg

/-! ## Trees on no query -/

theorem bracket_flat {ctx p : OperatorPrecedence} {s : Sql} (h : s.Flat) : (bracket ctx p s).Flat := by
  unfold bracket
  split
  · exact h
  · exact h

theorem link_flat {recv : Option Sql} {s : Sql} (hr : ∀ a, recv = some a → a.Flat) (hs : s.Flat) :
    (link recv s).Flat := by
  cases recv with
  | none => exact hs
  | some a => exact ⟨hr a rfl, hs⟩

theorem path_flat {k : Text → Sql} (hl : ∀ f, (k f).Flat) :
    (recv : Option Sql) → (ps : List Text) → (∀ a, recv = some a → a.Flat) →
      (path k recv ps).Flat
  | _, [], hr | _, [_], hr => link_flat hr (hl _)
  | _, p :: q :: l, hr => path_flat hl _ (q :: l) fun a ha => by
    cases ha
    exact link_flat (s := .column p) hr trivial

theorem foldr_flat (ops : List Text) {a : Sql} (h : a.Flat) : (ops.foldr .pre a).Flat := by
  induction ops with
  | nil => exact h
  | cons o ops ih => exact ih

theorem inForm_flat {neg : Bool} {a : Sql} {l : List Sql} (ha : a.Flat) (hl : flatList l) :
    (inForm neg a l).Flat := by
  unfold inForm
  split
  · exact hl.1.elim
  · exact ⟨ha, hl⟩

theorem quantForm_flat {op : Text} {all : Bool} {a b : Sql} (ha : a.Flat) (hb : b.Flat) :
    (quantForm op all a b).Flat := by
  unfold quantForm
  split
  · exact hb.elim
  · exact ⟨ha, hb⟩

mutual

theorem Tree.flat_surf (recv : Option Sql) (hr : ∀ a, recv = some a → a.Flat) : (t : Tree) →
    t.All (·.onQuery = false) → (t.surf recv).Flat
  | .null, _ | .bool _, _ | .placeholder _, _ | .literal _, _ | .ident _, _ | .int _, _
  | .column .., _ | .countAll, _ | .negative _, _ => link_flat hr trivial
  | .qualified table col, _ =>
    link_flat hr (path_flat (k := .column) (fun _ => trivial) none _ nofun)
  | .dot a b, h => by
    obtain ⟨-, ha, hb⟩ := (all_two rfl).1 h
    have hrecv : ∀ s, some (bracket kDot a.prec (a.surf none)) = some s → s.Flat := fun s hs => by
      cases hs
      exact bracket_flat (a.flat_surf none nofun ha)
    rw [Tree.surf]
    refine link_flat hr ?_
    split
    · exact link_flat hrecv (s := .paren _) (b.flat_surf none nofun hb)
    · exact b.flat_surf _ hrecv hb
  | .castRaw a _, h | .collate a _, h | .neg a, h | .is _ a, h | .exprNot a, h | .condNot a, h =>
    link_flat hr (bracket_flat (a.flat_surf none nofun ((all_one rfl).1 h).2))
  | .prefixOp op a, h =>
    link_flat hr (foldr_flat _ (bracket_flat (a.flat_surf none nofun ((all_one rfl).1 h).2)))
  | .index a b, h =>
    have hu := (all_two rfl).1 h
    link_flat hr ⟨bracket_flat (a.flat_surf none nofun hu.2.1), b.flat_surf none nofun hu.2.2⟩
  | .bin _ a b, h | .like _ _ a b, h | .compare _ a b, h | .distinctFrom _ a b, h | .and a b, h
  | .or a b, h =>
    have hu := (all_two rfl).1 h
    link_flat hr ⟨bracket_flat (a.flat_surf none nofun hu.2.1),
      bracket_flat (b.flat_surf none nofun hu.2.2)⟩
  | .binaryOp _ a b, h =>
    have hu := (all_two rfl).1 h
    link_flat hr ⟨bracket_flat (a.flat_surf none nofun hu.2.1),
      foldr_flat _ (bracket_flat (b.flat_surf none nofun hu.2.2))⟩
  | .between _ a b c, h =>
    have hu := (all_three rfl).1 h
    link_flat hr ⟨bracket_flat (a.flat_surf none nofun hu.2.1),
      bracket_flat (b.flat_surf none nofun hu.2.2.1), bracket_flat (c.flat_surf none nofun hu.2.2.2)⟩
  | .isIn _ a l, h =>
    have hu := all_isIn.1 h
    link_flat hr (inForm_flat (bracket_flat (a.flat_surf none nofun hu.2.1)) (flat_surfs l hu.2.2))
  | .eqAny a b, h | .neAll a b, h =>
    have hu := (all_two rfl).1 h
    link_flat hr (quantForm_flat (bracket_flat (a.flat_surf none nofun hu.2.1))
      (b.flat_surf none nofun hu.2.2))
  | .call name distinct l, h =>
    path_flat (k := (Sql.call · distinct (surfs l))) (fun _ => flat_surfs l (all_call.1 h).2) _ _ hr
  | .case whens els, h =>
    have hu := all_case.1 h
    link_flat hr ⟨flat_surfWhens whens hu.2.1, flat_surfElse els hu.2.2⟩
  | .exists _ _, h | .scalar _, h | .inQuery _ _ _, h | .eqAnyQuery _ _, h | .neAllQuery _ _, h =>
    nomatch h.root

theorem flat_surfs : (l : List Tree) → (∀ t ∈ l, t.All (·.onQuery = false)) → flatList (surfs l)
  | [], _ => trivial
  | t :: l, h => ⟨t.flat_surf none nofun (h t (.head _)), flat_surfs l fun s hs => h s (.tail _ hs)⟩

theorem flat_surfWhens : (l : List (Tree × Tree)) →
    (∀ w ∈ l, w.1.All (·.onQuery = false) ∧ w.2.All (·.onQuery = false)) → flatWhens (surfWhens l)
  | [], _ => trivial
  | (c, r) :: l, h =>
    have hw := h (c, r) (.head _)
    ⟨c.flat_surf none nofun hw.1, r.flat_surf none nofun hw.2,
      flat_surfWhens l fun w hw => h w (.tail _ hw)⟩

theorem flat_surfElse : (o : Option Tree) → (∀ e, o = some e → e.All (·.onQuery = false)) →
    flatElse (surfElse o)
  | none, _ => trivial
  | some e, h => e.flat_surf none nofun (h e rfl)

end

/-- On no query the lexemes of the text are its tokens, one by one. -/
theorem lexemes_rendered {t : Tree} {e : Expr} (h : Rendered t e) (hq : t.All (·.onQuery = false)) :
    lexemes e.toString = (t.surf none).lexemes := by
  rw [lexemes, h.reads.view_eq lex_nil]
  exact (t.surf none).lexemes_tokens (t.flat_surf none nofun hq)

/-! ## Trees of named operators -/

/-- What `WF` says of the root. -/
def Tree.wfAt (t : Tree) : Prop :=
  t.namesOk = true ∧ t.intactAt = true ∧ t.isNamed = true

theorem Tree.WF.isNumber {t : Tree} (h : t.WF) (hi : t.isInt = false) : t.isNumber = false := by
  cases t
  case int value => cases hi
  case negative n => exact h.elim
  all_goals rfl

theorem Tree.WF.signed {t : Tree} (h : t.WF) : t.signed = false := by
  cases t
  case negative n => exact h.elim
  case index a b =>
    cases a
    case negative n => exact h.1.elim
    all_goals rfl
  all_goals rfl

mutual

theorem Tree.all_wfAt : (t : Tree) → t.WF → t.All Tree.wfAt
  | .null, _ | .bool _, _ | .placeholder _, _ | .literal _, _ | .ident _, _ | .int _, _
  | .countAll, _ => all_iff.2 ⟨⟨rfl, rfl, rfl⟩, nofun⟩
  | .column _, h => all_iff.2 ⟨⟨h, rfl, rfl⟩, nofun⟩
  | .qualified _ _, h =>
    all_iff.2 ⟨⟨(Bool.and_eq_true _ _).mpr h, rfl, rfl⟩, nofun⟩
  | .dot a b, h => by
    have hroot : (Tree.dot a b).intactAt = true := by
      simp [Tree.intactAt, h.1.isNumber h.2.2.1, h.2.2.2]
    exact (all_two rfl).2 ⟨⟨rfl, hroot, rfl⟩, a.all_wfAt h.1, b.all_wfAt h.2.1⟩
  | .castRaw a _, h => (all_one rfl).2 ⟨⟨h.2, rfl, rfl⟩, a.all_wfAt h.1⟩
  | .collate a _, h | .is _ a, h | .exprNot a, h | .condNot a, h =>
    (all_one rfl).2 ⟨⟨rfl, rfl, rfl⟩, a.all_wfAt h⟩
  | .neg a, h => by
    have hroot : (Tree.neg a).intactAt = true := by simp [Tree.intactAt, Tree.WF.signed (t := a) h]
    exact (all_one rfl).2 ⟨⟨rfl, hroot, rfl⟩, a.all_wfAt h⟩
  | .index a b, h | .bin _ a b, h | .like _ _ a b, h | .compare _ a b, h | .eqAny a b, h
  | .neAll a b, h | .distinctFrom _ a b, h | .and a b, h | .or a b, h =>
    (all_two rfl).2 ⟨⟨rfl, rfl, rfl⟩, a.all_wfAt h.1, b.all_wfAt h.2⟩
  | .between _ a b c, h =>
    (all_three rfl).2 ⟨⟨rfl, rfl, rfl⟩, a.all_wfAt h.1, b.all_wfAt h.2.1, c.all_wfAt h.2.2⟩
  | .isIn _ a l, h => all_isIn.2 ⟨⟨rfl, rfl, rfl⟩, a.all_wfAt h.1, wfTrees_all l h.2⟩
  | .call _ _ l, h => all_call.2 ⟨⟨h.1, rfl, rfl⟩, wfTrees_all l h.2⟩
  | .case whens els, h =>
    all_case.2 ⟨⟨rfl, rfl, rfl⟩, wfTreeWhens_all whens h.1, wfTreeElse_all els h.2⟩
  | .negative _, h | .prefixOp _ _, h | .binaryOp _ _ _, h | .exists _ _, h | .scalar _, h
  | .inQuery _ _ _, h | .eqAnyQuery _ _, h | .neAllQuery _ _, h => h.elim

theorem wfTrees_all : (l : List Tree) → wfTrees l → ∀ t ∈ l, t.All Tree.wfAt
  | [], _ => nofun
  | t :: l, h => List.forall_mem_cons.2 ⟨t.all_wfAt h.1, wfTrees_all l h.2⟩

theorem wfTreeWhens_all : (l : List (Tree × Tree)) → wfTreeWhens l →
    ∀ w ∈ l, w.1.All Tree.wfAt ∧ w.2.All Tree.wfAt
  | [], _ => nofun
  | (c, r) :: l, h =>
    List.forall_mem_cons.2 ⟨⟨c.all_wfAt h.1, r.all_wfAt h.2.1⟩, wfTreeWhens_all l h.2.2⟩

theorem wfTreeElse_all : (o : Option Tree) → wfTreeElse o → ∀ e, o = some e → e.All Tree.wfAt
  | none, _ => nofun
  | some e, h => fun _ he => by cases he; exact e.all_wfAt h

end

theorem spelt_of_isNamed {t : Tree} (h : t.All (·.isNamed = true)) : t.spelt = true := by
  have hscalar (q : Subquery) (hq : (Tree.scalar q).All (·.isNamed = true)) : False :=
    absurd hq.root Bool.false_ne_true
  unfold Tree.spelt
  split
  · exact absurd h.root Bool.false_ne_true
  · exact absurd h.root Bool.false_ne_true
  · exact (hscalar _ ((all_isIn.1 h).2.2 _ (.head _))).elim
  · exact (hscalar _ ((all_two rfl).1 h).2.2).elim
  · exact (hscalar _ ((all_two rfl).1 h).2.2).elim
  · rfl

/-- **Named operators fit the precedence table.** -/
theorem fits_of_isNamed {t : Tree} (h : t.All (·.isNamed = true)) : (t.surf none).Fits := by
  have hspelt : t.All (·.spelt = true) := (t.all_all h).mono fun _ => spelt_of_isNamed
  refine (t.fits_surf hspelt).2 ((fits_iff hspelt).2 ((t.all_all h).mono fun s hs => ?_))
  have hloose : s.All (·.looseRow ≤ 0) := hs.mono fun r hr => by
    cases r <;> first | exact Nat.le_refl _ | cases hr
  have hbin : s.All (·.isBinaryOp = false) :=
    hs.mono fun r hr => by cases r <;> first | rfl | cases hr
  have hrows := rowsFit_of_not_binaryOp hbin.root
  exact ⟨edgesFit_of_le hloose hrows fun _ _ => Nat.zero_le _, hrows,
    comparesFit_of_not_binaryOp hbin⟩

/-! ## Reading back -/

/-- **The parser reads the text of a built tree as what the tree means.** -/
theorem parse_build (t : Tree) (e : Expr) (hw : t.WF) (h : t.build = .ok e) :
    parse (lexemes e.toString) = some t.toSql := by
  have hall := t.all_wfAt hw
  have hnamed : t.All (·.isNamed = true) := hall.mono fun _ hs => hs.2.2
  have hquery : t.All (·.onQuery = false) := hnamed.mono fun s hs => by
    cases s <;> first | rfl | cases hs
  have hspelt : t.All (·.spelt = true) := (t.all_all hnamed).mono fun _ => spelt_of_isNamed
  have hr := t.rendered (hall.mono fun _ hs => hs.1) (hall.mono fun _ hs => hs.2.1) h
  rw [lexemes_rendered hr hquery, parse_lexemes hr.formed (fits_of_isNamed hnamed),
    t.strip_surf none hspelt]
  rfl

theorem columnName_a : isColumnName "a".toList = true := by decide

/-- `-(a + 1) ^ $1`, and the tree it is read as. -/
theorem parse_build_power :
    let t : Tree := .bin .exp (.neg (.bin .add (.column "a".toList) (.int 1))) (.placeholder 0)
    ∃ e, t.build = .ok e ∧ e.toString = "-(a + 1) ^ $1".toList ∧
      parse (lexemes e.toString) = some (.bin "^".toList
        (.pre "-".toList (.bin "+".toList (.column "a".toList) (.number "1".toList)))
        (.param "1".toList)) :=
  ⟨_, rfl, by decide, parse_build (.bin .exp (.neg (.bin .add (.column "a".toList) (.int 1)))
    (.placeholder 0)) _ ⟨⟨columnName_a, trivial⟩, trivial⟩ rfl⟩

/-- The function that a tree calls at its root, by the name it was built with. -/
def Tree.callee : Tree → Option Text
  | .call name _ _ => some name
  | _ => none

/-- A dotted function name and a member access render alike: no reader of the text `a.f()` can tell
the call of `a.f` from the member `f()` of `a`. -/
theorem callee_not_readable : ¬ ∃ read : Text → Option (Option Text),
    ∀ (t : Tree) (e : Expr), t.WF → t.build = .ok e → read e.toString = some t.callee := by
  rintro ⟨read, h⟩
  have hcall := h (.call "a.f".toList false []) _ ⟨by decide, trivial⟩ rfl
  have hdot := h (.dot (.column "a".toList) (.call "f".toList false [])) _
    ⟨columnName_a, ⟨by decide, trivial⟩, rfl, rfl⟩ rfl
  exact absurd (hcall.symm.trans hdot) (by decide)

end IronQuery
