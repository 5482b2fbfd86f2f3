import IronQuery.Pg.Proof.Units
import IronQuery.Proof.TreeFits
import IronQuery.Proof.TreeRendered

/-!
# When the text of a tree is read as what the tree means

`reads_iff`: **the text of a rendered tree is read as what the tree means if and only if every tree
in it is spelt and fits.** The brackets of a text that open no subquery are those of the syntax tree
(`Tree.grouped_surf`), so its lexemes are that tree's; where a name lost a sign or a list became a
query the parser reads more than the tree means (`Tree.grows`), and elsewhere it reads the tree if
and only if the tree fits (`parse_iff`).
-/

namespace IronQuery

open OperatorPrecedence Pg

/-! ## Grouping -/

theorem Subquery.isQuery (q : Subquery) : Pg.Query q.tokens :=
  ⟨closed_of_upTo (q.closes []), q.query⟩

theorem query_bracketed {ts : List Token} (h : Pg.Query ts) : Pg.Query (bracketed ts) := by
  refine ⟨h.closed.bracketed, ?_⟩
  have := isQuery_bracketed h.closed []
  rw [List.append_nil] at this
  rw [this, h.isQuery]
  rfl

theorem bracket_grouped {ctx : OperatorPrecedence} {t : Tree} (hctx : 0 < ctx.toNat)
    (h : (t.surf none).Grouped) : (bracket ctx t.prec (t.surf none)).Grouped := by
  unfold bracket
  split
  · rename_i hc
    refine ⟨h, ?_⟩
    cases hb : (t.surf none).bare
    · rfl
    · obtain ⟨q, rfl⟩ := surf_bare hb
      exact absurd (Nat.lt_of_lt_of_le hctx hc) (Nat.lt_irrefl _)
  · exact h

theorem link_grouped {recv : Option Sql} {s : Sql} (hr : ∀ a, recv = some a → a.Grouped)
    (hs : s.Grouped) : (link recv s).Grouped := by
  cases recv with
  | none => exact hs
  | some a => exact ⟨hr a rfl, hs⟩

theorem path_grouped {k : Text → Sql} {P : Text → Prop} (hl : ∀ f, P f → (k f).Grouped) :
    (recv : Option Sql) → (ps : List Text) → (∀ a, recv = some a → a.Grouped) → ps ≠ [] →
      (∀ f, ps.getLast? = some f → P f) → (path k recv ps).Grouped
  | _, [], _, hne, _ => absurd rfl hne
  | _, [p], hr, _, hp => link_grouped hr (hl p (hp p rfl))
  | _, p :: q :: l, hr, _, hp => by
    have hcol := link_grouped (s := .column p) hr trivial
    exact path_grouped hl _ (q :: l) (fun a ha => by cases ha; exact hcol) (by simp)
      fun f hf => hp f hf

theorem foldr_grouped (ops : List Text) {a : Sql} (h : a.Grouped) :
    (ops.foldr .pre a).Grouped := by
  induction ops with
  | nil => exact h
  | cons o ops ih => exact ih

theorem inForm_grouped {neg : Bool} {a : Sql} {l : List Tree} (ha : a.Grouped)
    (hl : groupedList (surfs l)) : (inForm neg a (surfs l)).Grouped := by
  unfold inForm
  split
  · rename_i ts hs
    rw [hs] at hl
    exact ⟨ha, query_bracketed hl.1⟩
  · rename_i hs
    refine ⟨ha, hl, fun b hb => ?_⟩
    match l, hb with
    | [t], hb =>
      cases hb
      cases hbare : (t.surf none).bare
      · rfl
      · obtain ⟨q, rfl⟩ := surf_bare hbare
        exact absurd rfl (hs q.tokens)

theorem quantForm_grouped {op : Text} {all : Bool} {a : Sql} {b : Tree} (ha : a.Grouped)
    (hb : (b.surf none).Grouped) : (quantForm op all a (b.surf none)).Grouped := by
  unfold quantForm
  split
  · rename_i ts hs
    rw [hs] at hb
    exact ⟨ha, query_bracketed hb⟩
  · rename_i hs
    refine ⟨ha, hb, ?_⟩
    cases hbare : (b.surf none).bare
    · rfl
    · obtain ⟨q, rfl⟩ := surf_bare hbare
      exact absurd rfl (hs q.tokens)

mutual

/-- **The brackets that the renderer puts open no subquery.** -/
theorem Tree.grouped_surf (recv : Option Sql) (hr : ∀ a, recv = some a → a.Grouped) : (t : Tree) →
    t.All (·.callable = true) → (t.surf recv).Grouped
  | .null, _ | .bool _, _ | .placeholder _, _ | .literal _, _ | .ident _, _ | .int _, _
  | .column .., _ | .negative _, _ => link_grouped hr trivial
  | .countAll, _ => link_grouped hr (show isCallee (.word "COUNT".toList) = true by decide)
  | .qualified table col, _ => link_grouped hr (path_grouped (k := .column) (P := fun _ => True)
      (fun _ _ => trivial) none (dotParts table ++ [col]) nofun (by simp) fun _ _ => trivial)
  | .scalar q, _ => link_grouped hr q.isQuery
  | .exists n q, _ => by cases n <;> exact link_grouped hr q.isQuery
  | .dot a b, h => by
    obtain ⟨-, ha, hb⟩ := (all_two rfl).1 h
    have hrecv : ∀ s, some (bracket kDot a.prec (a.surf none)) = some s → s.Grouped := fun s hs => by
      cases hs
      exact bracket_grouped (by decide) (a.grouped_surf none nofun ha)
    rw [Tree.surf]
    refine link_grouped hr ?_
    split
    · rename_i hc
      refine link_grouped hrecv (s := .paren _) ⟨b.grouped_surf none nofun hb, ?_⟩
      cases hbare : (b.surf none).bare
      · rfl
      · obtain ⟨q, rfl⟩ := surf_bare hbare
        exact absurd hc (by decide : ¬kDot.toNat ≤ kSymbol.toNat)
    · exact b.grouped_surf _ hrecv hb
  | .castRaw a _, h | .collate a _, h | .neg a, h | .is _ a, h | .exprNot a, h | .condNot a, h =>
    link_grouped hr (bracket_grouped (by decide) (a.grouped_surf none nofun ((all_one rfl).1 h).2))
  | .inQuery _ a q, h | .eqAnyQuery a q, h | .neAllQuery a q, h =>
    link_grouped hr ⟨bracket_grouped (by decide) (a.grouped_surf none nofun ((all_one rfl).1 h).2),
      q.isQuery⟩
  | .prefixOp op a, h => link_grouped hr (foldr_grouped _
      (bracket_grouped (by decide) (a.grouped_surf none nofun ((all_one rfl).1 h).2)))
  | .index a b, h =>
    have hu := (all_two rfl).1 h
    link_grouped hr ⟨bracket_grouped (by decide) (a.grouped_surf none nofun hu.2.1),
      b.grouped_surf none nofun hu.2.2⟩
  | .bin op a b, h =>
    have hu := (all_two rfl).1 h
    have hctx : 0 < op.prec.toNat := by cases op <;> decide
    link_grouped hr ⟨bracket_grouped hctx (a.grouped_surf none nofun hu.2.1),
      bracket_grouped hctx (b.grouped_surf none nofun hu.2.2)⟩
  | .like _ _ a b, h | .compare _ a b, h | .distinctFrom _ a b, h | .and a b, h | .or a b, h =>
    have hu := (all_two rfl).1 h
    link_grouped hr ⟨bracket_grouped (by decide) (a.grouped_surf none nofun hu.2.1),
      bracket_grouped (by decide) (b.grouped_surf none nofun hu.2.2)⟩
  | .binaryOp _ a b, h =>
    have hu := (all_two rfl).1 h
    link_grouped hr ⟨bracket_grouped (by decide) (a.grouped_surf none nofun hu.2.1),
      foldr_grouped _ (bracket_grouped (by decide) (b.grouped_surf none nofun hu.2.2))⟩
  | .between _ a b c, h =>
    have hu := (all_three rfl).1 h
    link_grouped hr ⟨bracket_grouped (by decide) (a.grouped_surf none nofun hu.2.1),
      bracket_grouped (by decide) (b.grouped_surf none nofun hu.2.2.1),
      bracket_grouped (by decide) (c.grouped_surf none nofun hu.2.2.2)⟩
  | .isIn _ a l, h =>
    have hu := all_isIn.1 h
    link_grouped hr (inForm_grouped (bracket_grouped (by decide) (a.grouped_surf none nofun hu.2.1))
      (grouped_surfs l hu.2.2))
  | .eqAny a b, h | .neAll a b, h =>
    have hu := (all_two rfl).1 h
    link_grouped hr (quantForm_grouped
      (bracket_grouped (by decide) (a.grouped_surf none nofun hu.2.1))
      (b.grouped_surf none nofun hu.2.2))
  | .call name distinct l, h => by
    obtain ⟨hc, hl⟩ := all_call.1 h
    exact path_grouped (k := (Sql.call · distinct (surfs l)))
      (P := fun f => isCallee (.word f) = true) (fun f hf => ⟨hf, grouped_surfs l hl⟩) _ _ hr
      (dotParts_ne_nil name) fun f hf => by
        simp only [Tree.callable, isFunctionName, hf, Option.all_some] at hc
        exact hc
  | .case whens els, h =>
    have hu := all_case.1 h
    link_grouped hr ⟨grouped_surfWhens whens hu.2.1, grouped_surfElse els hu.2.2⟩

theorem grouped_surfs : (l : List Tree) → (∀ t ∈ l, t.All (·.callable = true)) →
    groupedList (surfs l)
  | [], _ => trivial
  | t :: l, h =>
    ⟨t.grouped_surf none nofun (h t (.head _)), grouped_surfs l fun s hs => h s (.tail _ hs)⟩

theorem grouped_surfWhens : (l : List (Tree × Tree)) →
    (∀ w ∈ l, w.1.All (·.callable = true) ∧ w.2.All (·.callable = true)) →
    groupedWhens (surfWhens l)
  | [], _ => trivial
  | (c, r) :: l, h =>
    have hw := h (c, r) (.head _)
    ⟨c.grouped_surf none nofun hw.1, r.grouped_surf none nofun hw.2,
      grouped_surfWhens l fun w hw => h w (.tail _ hw)⟩

theorem grouped_surfElse : (o : Option Tree) → (∀ e, o = some e → e.All (·.callable = true)) →
    groupedElse (surfElse o)
  | none, _ => trivial
  | some e, h => e.grouped_surf none nofun (h e rfl)

end

/-! ## Reading back -/

/-- The text of a rendered tree, every subquery as one, are the lexemes of its syntax tree. -/
theorem units_rendered {t : Tree} {e : Expr} (h : Rendered t e) (hc : t.All (·.callable = true)) :
    units (lex e.toString) = (t.surf none).lexemes := by
  rw [h.reads.view_eq lex_nil]
  exact Sql.units_tokens h.formed (t.grouped_surf none nofun hc)

/-- **When a text is read as what its tree means.** -/
theorem reads_iff {t : Tree} {e : Expr} (h : Rendered t e) (hc : t.All (·.callable = true)) :
    readExpr e.toString = some t.toSql ↔ t.All (·.spelt = true) ∧ t.All Tree.FitsAt := by
  rw [readExpr, units_rendered h hc]
  constructor
  · intro hp
    have hspelt : t.All (·.spelt = true) := t.grows.2 (bulk_of_parse hp)
    have hmeaning := t.strip_surf none hspelt
    rw [Option.map_none] at hmeaning
    rw [Tree.toSql, ← hmeaning] at hp
    exact ⟨hspelt, (t.fits_surf hspelt).1 ((parse_iff h.formed).1 hp)⟩
  · rintro ⟨hspelt, hfits⟩
    have hmeaning := t.strip_surf none hspelt
    rw [Option.map_none] at hmeaning
    rw [Tree.toSql, ← hmeaning]
    exact (parse_iff h.formed).2 ((t.fits_surf hspelt).2 hfits)

end IronQuery
