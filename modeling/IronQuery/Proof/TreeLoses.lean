import IronQuery.Proof.TreeInk
import IronQuery.Proof.TreeIff

/-!
# A sign or a point next to a number is not read back

Two minus signs in a row open a comment, and a number takes the point next to it. So where a tree is
not intact its text loses digits or points (`Tree.loses`), and what is left of it is read as
something else: `built_reads_iff`, **the text of a built tree is read as what the tree means if and
only if the tree is intact, spelt, and fits.**
-/

namespace IronQuery

open OperatorPrecedence Pg

/-! ## The front of a text -/

/-- The text starts with no point, and with no operator but the sign of a number. -/
def Front (x : Text) : Prop :=
  ∃ c s, x = c :: s ∧ c ≠ '.' ∧
    (isOpChar c = false ∨ (c = '-' ∧ ∃ d r, s = d :: r ∧ d.isDigit = true))

theorem Front.ne_nil {x : Text} (h : Front x) : x ≠ [] := by
  obtain ⟨c, s, rfl, -⟩ := h
  exact List.cons_ne_nil _ _

theorem Front.head_ne {x : Text} (h : Front x) : x.head? ≠ some '.' := by
  obtain ⟨c, s, rfl, hc, -⟩ := h
  exact fun he => hc (Option.some.inj he)

theorem Front.append {x : Text} (h : Front x) (y : Text) : Front (x ++ y) := by
  obtain ⟨c, s, rfl, hc, hop⟩ := h
  refine ⟨c, s ++ y, rfl, hc, hop.imp_right ?_⟩
  rintro ⟨rfl, d, r, rfl, hd⟩
  exact ⟨rfl, d, r ++ y, rfl, hd⟩

theorem front_cons {c : Char} (h : isOpChar c = false) (hc : c ≠ '.') (s : Text) : Front (c :: s) :=
  ⟨c, s, rfl, hc, .inl h⟩

theorem front_ident {c : Char} (h : isIdentStart c = true) (s : Text) : Front (c :: s) :=
  front_cons (isIdentStart_not_op h).1 (by rintro rfl; cases h) s

theorem front_digits (n : Nat) : Front (natToString n) := by
  obtain ⟨hne, hd⟩ := natToString_digits n
  obtain ⟨d, s, hds⟩ := List.exists_cons_of_ne_nil hne
  have hhead := natToString_head n
  rw [hds] at hd hhead ⊢
  simp only [List.all_cons, Bool.and_eq_true] at hd
  exact front_cons (stops_cons.1 hhead) (by rintro rfl; cases hd.1) s

theorem front_negative (n : Nat) : Front ('-' :: natToString n) := by
  obtain ⟨hne, hd⟩ := natToString_digits n
  obtain ⟨d, s, hds⟩ := List.exists_cons_of_ne_nil hne
  rw [hds] at hd ⊢
  simp only [List.all_cons, Bool.and_eq_true] at hd
  exact ⟨'-', d :: s, rfl, by decide, .inr ⟨rfl, d, s, rfl, hd.1⟩⟩

/-- An accepted name starts as an identifier. -/
theorem name_cons {name : Text} {u : Unit} (h : validateIdentifier name = .ok u) :
    ∃ c s, name = c :: s ∧ isIdentStart c = true := by
  obtain ⟨p, ps, hps⟩ := List.exists_cons_of_ne_nil (dotParts_ne_nil name)
  have hname := joinDots_dotParts name
  obtain ⟨c, s, rfl, hc, -⟩ := plain_cons (validateIdentifier_ok h p (by rw [hps]; exact .head _))
  rw [hps] at hname
  cases ps with
  | nil => exact ⟨c, s, hname.symm, hc⟩
  | cons q l => exact ⟨c, s ++ '.' :: joinDots (q :: l), hname.symm, hc⟩

theorem front_extract {e : Expr} {ctx : OperatorPrecedence}
    (h : e.node.precedence.toNat < ctx.toNat → Front e.toString) : Front (e.extract ctx) := by
  rw [extract_eq]
  split
  · exact front_cons (by decide) (by decide) _
  · rename_i hc
    exact h (Nat.not_le.1 hc)

/-- A tree is built with its precedence. -/
theorem built_prec {t : Tree} {e : Expr} (h : t.build = .ok e) : e.node.precedence = t.prec := by
  cases t
  case placeholder n => cases h; exact (placeholder_text n).2
  case bool b => cases b <;> (cases h; rfl)
  case literal v => rw [(literal_ok h).2]; rfl
  case ident v => rw [(ident_ok h).2]; rfl
  case qualified table col =>
    simp only [Tree.build, bind_ok, pure_ok] at h
    obtain ⟨_, -, rfl⟩ := h
    rfl
  case bin op a b =>
    simp only [Tree.build, bind_ok, applyBin_eq, Except.ok.injEq] at h
    obtain ⟨_, -, _, -, rfl⟩ := h
    rfl
  case between n a b c =>
    simp only [Tree.build, bind_ok, pure_ok] at h
    obtain ⟨_, -, _, -, _, -, rfl⟩ := h
    cases n <;> rfl
  case like op n a b =>
    simp only [Tree.build, bind_ok, pure_ok, applyLike_eq] at h
    obtain ⟨_, -, _, -, rfl⟩ := h
    rfl
  case compare op a b =>
    simp only [Tree.build, bind_ok, pure_ok] at h
    obtain ⟨_, -, _, -, rfl⟩ := h
    exact congrArg Node.precedence (applyCompare_text op _ _)
  case is op a =>
    simp only [Tree.build, bind_ok, pure_ok, applyIs_eq] at h
    obtain ⟨_, -, rfl⟩ := h
    rfl
  case distinctFrom n a b =>
    simp only [Tree.build, bind_ok, pure_ok] at h
    obtain ⟨_, -, _, -, rfl⟩ := h
    cases n <;> rfl
  case isIn n a l =>
    simp only [Tree.build, bind_ok] at h
    obtain ⟨_, -, _, -, h⟩ := h
    cases n
    · obtain ⟨_, hr, he⟩ := bind_ok.1 h
      cases he
      exact (buildInListNode_ok _ hr).2.1
    · obtain ⟨_, hr, he⟩ := bind_ok.1 h
      cases he
      exact (buildInListNode_ok _ hr).2.1
  case inQuery n a q =>
    simp only [Tree.build, bind_ok] at h
    obtain ⟨_, -, h⟩ := h
    cases n
    · obtain ⟨_, hr, he⟩ := bind_ok.1 h
      cases he
      exact (subqueryNode_eq hr).1
    · obtain ⟨_, hr, he⟩ := bind_ok.1 h
      cases he
      exact (subqueryNode_eq hr).1
  case eqAnyQuery a q =>
    simp only [Tree.build, bind_ok, pure_ok] at h
    obtain ⟨_, -, _, hr, rfl⟩ := h
    exact (subqueryNode_eq hr).1
  case neAllQuery a q =>
    simp only [Tree.build, bind_ok, pure_ok] at h
    obtain ⟨_, -, _, hr, rfl⟩ := h
    exact (subqueryNode_eq hr).1
  case «exists» n q =>
    cases n
    · obtain ⟨_, hx, he⟩ := bind_ok.1 h
      cases he
      rw [applyExists_eq (b := false) hx]
      rfl
    · obtain ⟨_, hx, he⟩ := bind_ok.1 h
      cases he
      rw [applyExists_eq (b := true) hx]
      rfl
  case scalar q =>
    simp only [Tree.build, VirtualTable.toExpr, bind_ok, pure_ok] at h
    obtain ⟨_, -, rfl⟩ := h
    rfl
  case call name d l =>
    simp only [Tree.build, bind_ok] at h
    obtain ⟨_, -, h⟩ := h
    cases d
    · simp only [Bool.false_eq_true, if_false, Expr.call, bind_ok, pure_ok] at h
      obtain ⟨_, -, rfl⟩ := h
      rfl
    · simp only [if_true, Expr.callDistinct, bind_ok, pure_ok] at h
      obtain ⟨_, -, _, -, rfl⟩ := h
      rfl
  case «case» whens els =>
    obtain ⟨_, _, -, -, -, rfl⟩ := case_built h
    rfl
  case prefixOp op a =>
    simp only [Tree.build, Expr.prefixOp, bind_ok, pure_ok] at h
    obtain ⟨_, -, _, -, rfl⟩ := h
    rfl
  case binaryOp op a b =>
    simp only [Tree.build, Expr.binaryOp, bind_ok, pure_ok] at h
    obtain ⟨_, -, _, -, _, -, rfl⟩ := h
    rfl
  all_goals first
    | (cases h; rfl)
    | (simp only [Tree.build, bind_ok, pure_ok] at h
       obtain ⟨_, -, rfl⟩ := h
       rfl)
    | (simp only [Tree.build, bind_ok, pure_ok] at h
       obtain ⟨_, -, _, -, rfl⟩ := h
       rfl)

/-- **What is tighter than a sign starts with no operator but a number's sign.** -/
theorem Tree.front : (t : Tree) → {e : Expr} → t.Named → t.build = .ok e →
    t.prec.toNat < kUnaryPlus.toNat → Front e.toString
  | .null, _, _, h, _ | .bool true, _, _, h, _ | .bool false, _, _, h, _ | .countAll, _, _, h, _ => by
    cases h
    exact front_ident (by decide) _
  | .placeholder n, _, _, h, _ => by
    cases h
    rw [(placeholder_text n).1]
    exact front_cons (by decide) (by decide) _
  | .literal v, _, _, h, _ => by
    obtain ⟨-, rfl⟩ := literal_ok h
    exact front_cons (by decide) (by decide) _
  | .ident v, _, _, h, _ => by
    obtain ⟨-, rfl⟩ := ident_ok h
    exact front_cons (by decide) (by decide) _
  | .int v, _, _, h, _ => by
    cases h
    exact front_digits v
  | .negative n, _, _, h, _ => by
    cases h
    exact front_negative (n + 1)
  | .column name, _, hn, h, _ => by
    cases h
    have hroot : isColumnName name = true := hn.root
    rw [isColumnName, Bool.and_eq_true] at hroot
    obtain ⟨c, s, rfl, hc, -⟩ := plain_cons hroot.1
    exact front_ident hc s
  | .qualified table col, _, _, h, _ => by
    simp only [Tree.build, TableAlias.from, bind_ok, pure_ok] at h
    obtain ⟨_, ⟨_, hv, rfl⟩, rfl⟩ := h
    obtain ⟨c, s, rfl, hc⟩ := name_cons hv
    exact front_ident hc _
  | .scalar q, _, _, h, _ => by
    simp only [Tree.build, VirtualTable.toExpr, bind_ok, pure_ok, q.bracketed, Except.ok.injEq] at h
    obtain ⟨_, rfl, rfl⟩ := h
    exact front_cons (by decide) (by decide) _
  | .exists false q, _, _, h, _ => by
    obtain ⟨_, hx, he⟩ := bind_ok.1 h
    cases he
    rw [applyExists_eq (b := false) hx]
    exact front_ident (c := 'E') (by decide) _
  | .exists true q, _, _, h, _ => by
    obtain ⟨_, hx, he⟩ := bind_ok.1 h
    cases he
    rw [applyExists_eq (b := true) hx]
    exact front_ident (c := 'N') (by decide) _
  | .castRaw a type, _, _, h, _ => by
    simp only [Tree.build, bind_ok, pure_ok] at h
    obtain ⟨_, -, rfl⟩ := h
    rw [castRaw_text]
    exact front_ident (c := 'C') (by decide) _
  | .dot a b, _, hn, h, _ => by
    obtain ⟨-, hna, -⟩ := (all_two rfl).1 hn
    simp only [Tree.build, bind_ok, pure_ok] at h
    obtain ⟨_, ha, _, -, rfl⟩ := h
    rw [dot_text]
    refine (front_extract fun hp => ?_).append _
    rw [built_prec ha] at hp
    exact a.front hna ha (Nat.lt_trans hp (by decide))
  | .index a b, _, hn, h, _ => by
    obtain ⟨-, hna, -⟩ := (all_two rfl).1 hn
    simp only [Tree.build, bind_ok, pure_ok] at h
    obtain ⟨_, ha, _, -, rfl⟩ := h
    rw [index_text]
    refine (front_extract fun hp => ?_).append _
    rw [built_prec ha] at hp
    exact a.front hna ha (Nat.lt_trans hp (by decide))
  | .call name true l, _, _, h, _ => by
    simp only [Tree.build, if_true, Expr.callDistinct, bind_ok, pure_ok] at h
    obtain ⟨_, -, _, hv, _, -, rfl⟩ := h
    obtain ⟨c, s, rfl, hc⟩ := name_cons hv
    rw [Expr.toString, buildCallNode_text]
    exact front_ident hc _
  | .call name false l, _, _, h, _ => by
    simp only [Tree.build, Bool.false_eq_true, if_false, Expr.call, bind_ok, pure_ok] at h
    obtain ⟨_, -, _, hv, rfl⟩ := h
    obtain ⟨c, s, rfl, hc⟩ := name_cons hv
    rw [Expr.toString, buildCallNode_text]
    exact front_ident hc _
  | .case _ _, _, _, h, _ => by
    obtain ⟨_, _, -, -, -, rfl⟩ := case_built h
    exact front_ident (c := 'C') (by decide) _
  | .collate _ _, _, _, _, hp | .neg _, _, _, _, hp | .is _ _, _, _, _, hp | .exprNot _, _, _, _, hp
  | .condNot _, _, _, _, hp | .prefixOp _ _, _, _, _, hp | .inQuery _ _ _, _, _, _, hp
  | .eqAnyQuery _ _, _, _, _, hp | .neAllQuery _ _, _, _, _, hp | .like _ _ _ _, _, _, _, hp
  | .compare _ _ _, _, _, _, hp | .eqAny _ _, _, _, _, hp | .neAll _ _, _, _, _, hp
  | .distinctFrom _ _ _, _, _, _, hp | .and _ _, _, _, _, hp | .or _ _, _, _, _, hp
  | .binaryOp _ _ _, _, _, _, hp | .between _ _ _ _, _, _, _, hp | .isIn _ _ _, _, _, _, hp =>
    absurd hp (by dsimp only [Tree.prec]; decide)
  | .bin op _ _, _, _, _, hp => absurd hp (by cases op <;> (dsimp only [Tree.prec, BinOp.prec]; decide))

/-- A text that starts with a sign in front of a number. -/
theorem signed_cons {t : Tree} {e : Expr} (hs : t.signed = true) (h : t.build = .ok e) :
    ∃ d s, e.toString = '-' :: d :: s ∧ d.isDigit = true := by
  have hnumber (n : Nat) : ∃ d s, intToString (.negSucc n) = '-' :: d :: s ∧ d.isDigit = true := by
    obtain ⟨hne, hd⟩ := natToString_digits (n + 1)
    obtain ⟨d, s, hds⟩ := List.exists_cons_of_ne_nil hne
    rw [hds] at hd
    simp only [List.all_cons, Bool.and_eq_true] at hd
    exact ⟨d, s, congrArg ('-' :: ·) hds, hd.1⟩
  cases t
  case negative n => cases h; exact hnumber n
  case index a b =>
    cases a
    case negative n =>
      simp only [Tree.build, bind_ok, pure_ok] at h
      obtain ⟨_, he, _, -, rfl⟩ := h
      cases he
      obtain ⟨d, s, hs, hd⟩ := hnumber n
      have hprec : ¬kIndex.toNat ≤ kSymbol.toNat := by decide
      rw [index_text, extract_eq, if_neg (by exact hprec)]
      exact ⟨d, _, congrArg (· ++ _) hs, hd⟩
    all_goals cases hs
  all_goals cases hs

/-- An atom that is no number starts with no digit. -/
theorem atom_front {t : Tree} {e : Expr} (hn : t.Named) (h : t.build = .ok e)
    (ht : t.prec = kSymbol) (hi : t.isInt = false) : Stops Char.isDigit e.toString := by
  by_cases hx : t.Intact
  · exact (t.rendered hn hx h).digit ht hi
  -- only calls and `CASE` have trees under them
  have hleaf (hu : t.under = []) (hroot : t.intactAt = true) : False :=
    hx (all_iff.2 ⟨hroot, by rw [hu]; nofun⟩)
  cases t
  case call name d l =>
    simp only [Tree.build, bind_ok] at h
    obtain ⟨_, -, h⟩ := h
    cases d
    · simp only [Bool.false_eq_true, if_false, Expr.call, bind_ok, pure_ok] at h
      obtain ⟨_, hv, rfl⟩ := h
      obtain ⟨c, s, rfl, hc⟩ := name_cons hv
      rw [Expr.toString, buildCallNode_text]
      exact stops_cons.2 (isIdentStart_not_op hc).2
    · simp only [if_true, Expr.callDistinct, bind_ok, pure_ok] at h
      obtain ⟨_, hv, _, -, rfl⟩ := h
      obtain ⟨c, s, rfl, hc⟩ := name_cons hv
      rw [Expr.toString, buildCallNode_text]
      exact stops_cons.2 (isIdentStart_not_op hc).2
  case «case» whens els =>
    obtain ⟨_, _, -, -, -, rfl⟩ := case_built h
    exact stops_cons.2 (by decide)
  case bin op a b => cases op <;> cases ht
  all_goals first
    | exact (hleaf rfl rfl).elim
    | cases ht

/-! ## Operands -/

/-- What is known of the text of an operand. -/
structure Seen (t : Tree) (e : Expr) : Prop where
  rendered : t.Intact → Rendered t e
  loses : ¬t.Intact → Loses e.toString

theorem loses_extract {e : Expr} (h : Loses e.toString) (ctx : OperatorPrecedence) :
    Loses (e.extract ctx) := by
  have hopen : Opens lex ['('] [.punct '('] := opens_const (by decide) (by decide)
  rw [extract_eq]
  split
  · exact (h.append [')']).opens hopen
  · exact h

namespace Seen

variable {a b c : Tree} {ea eb ec : Expr}

/-- Two operands with a fragment between them, and whatever stands behind. -/
theorem both (ha : Seen a ea) (hb : Seen b eb) (ctx ctx' : OperatorPrecedence) {x : Text}
    {ts : List Token} (hx : leads x = true) (ho : Opens lex x ts) (h : ¬(a.Intact ∧ b.Intact))
    (y : Text) : Loses (ea.extract ctx ++ (x ++ (eb.extract ctx' ++ y))) := by
  by_cases hi : a.Intact
  · have hloses := loses_extract (hb.loses fun hj => h ⟨hi, hj⟩) ctx'
    exact (hloses.append y).behind ((ha.rendered hi).operand ctx) hx ho
  · exact (loses_extract (ha.loses hi) ctx).append _

theorem around (ha : Seen a ea) (hb : Seen b eb) (ctx : OperatorPrecedence) {x : Text}
    {ts : List Token} (hx : leads x = true) (ho : Opens lex x ts) (h : ¬(a.Intact ∧ b.Intact)) :
    Loses (ea.extract ctx ++ (x ++ eb.extract ctx)) := by
  have := ha.both hb ctx ctx hx ho h []
  rwa [List.append_nil] at this

end Seen

theorem argsText_loses {l : List Tree} {es : List Expr} (h : List.Forall₂ Seen l es)
    (hl : ¬∀ t ∈ l, t.Intact) : Loses (argsText es) := by
  induction h with
  | nil => exact absurd (by simp) hl
  | @cons t e l es ht hs ih =>
    have hcomma : Opens lex ", ".toList [.punct ','] := opens_const (by decide) (by decide)
    by_cases hi : t.Intact
    · have hl' : ¬∀ s ∈ l, s.Intact := fun hl' => hl (List.forall_mem_cons.2 ⟨hi, hl'⟩)
      cases hs with
      | nil => exact absurd (by simp) hl'
      | cons _ _ =>
        rw [argsText_cons]
        exact (ih hl').behind ((ht.rendered hi).operand kExtract) (by decide) hcomma
    · have hloses := loses_extract (ht.loses hi) kExtract
      cases hs with
      | nil => rwa [argsText_singleton]
      | cons _ _ =>
        rw [argsText_cons]
        exact hloses.append _

/-- A loss in a branch, or behind the branches. -/
theorem whensText_loses {l : List (Tree × Tree)} {ps : List (Expr × Expr)} {y : Text}
    (h : List.Forall₂ (fun w p => Seen w.1 p.1 ∧ Seen w.2 p.2) l ps)
    (hy : ∃ s, y = 'W' :: s ∨ y = 'E' :: s)
    (hl : (∀ w ∈ l, w.1.Intact ∧ w.2.Intact) → Loses y) : Loses (whensText ps ++ y) := by
  induction h with
  | nil => exact hl (by simp)
  | @cons w p l ps hw hs ih =>
    obtain ⟨c, r⟩ := w
    obtain ⟨ec, er⟩ := p
    have hwhen : Opens lex "WHEN ".toList [Key.when.token] := opens_const (by decide) (by decide)
    have hthen : Opens lex " THEN ".toList [Key.then.token] := opens_const (by decide) (by decide)
    have hspace : Opens lex [' '] [] := opens_const (by decide) (by decide)
    have htext : whensText ((ec, er) :: ps) ++ y = "WHEN ".toList ++ (ec.toString ++
        (" THEN ".toList ++ (er.toString ++ (' ' :: (whensText ps ++ y))))) := by
      simp [whensText]
    rw [htext]
    refine Loses.opens hwhen ?_
    by_cases hc : c.Intact
    · refine Loses.behind (hw.1.rendered hc).reads (by decide) hthen ?_
      by_cases hr : r.Intact
      · have hrest := ih fun hl' => hl (List.forall_mem_cons.2 ⟨⟨hc, hr⟩, hl'⟩)
        have hhead : ∃ s, whensText ps ++ y = 'W' :: s ∨ whensText ps ++ y = 'E' :: s := by
          cases ps with
          | nil => exact hy
          | cons p ps => exact ⟨_, .inl rfl⟩
        refine (hrest.opens hspace).after (hw.2.rendered hr).reads ?_
        obtain ⟨s, hs | hs⟩ := hhead <;> rw [hs] <;> rfl
      · exact (hw.2.loses hr).append _
    · exact (hw.1.loses hc).append _

theorem elseText_head (eo : Option Expr) : ∃ s, elseText eo = 'W' :: s ∨ elseText eo = 'E' :: s := by
  cases eo <;> exact ⟨_, .inr rfl⟩

theorem elseText_loses {els : Option Tree} {eo : Option Expr} (h : Option.Rel Seen els eo)
    (hl : ¬∀ t, els = some t → t.Intact) : Loses (elseText (keptElse eo)) := by
  cases h with
  | none => exact absurd (by simp) hl
  | @some t e he =>
    have hloses := he.loses fun hi => hl fun s hs => by cases hs; exact hi
    -- a text that loses something is not empty
    have hne : e.toString.isEmpty = false := by
      cases hx : e.toString with
      | nil => rw [hx] at hloses; exact absurd (hloses []) (by decide)
      | cons c s => rfl
    have hkept : keptElse (some e) = some e := by simp [keptElse, Option.filter, hne]
    have helse : Opens lex "ELSE ".toList [Key.else.token] := opens_const (by decide) (by decide)
    rw [hkept]
    exact (hloses.append _).opens helse

theorem subquery_loses {p : OperatorPrecedence} {x : Text} {e : Expr} {q : Subquery} {r : Condition}
    (he : Loses e.toString) (h : Expr.subqueryNode p x e q.table = .ok r) :
    Loses r.toExpr.toString := by
  have htext : r.toExpr.toString = _ := (subqueryNode_eq h).2
  rw [htext]
  exact (loses_extract he p).append _

theorem call_loses {name p : Text} {es : List Expr} {u : Unit} {ts : List Token}
    (hv : validateIdentifier name = .ok u) (hpre : Opens lex ('(' :: p) ts)
    (hl : leads ('(' :: p) = true) (h : Loses (argsText es)) :
    Loses (Expr.mk (Expr.buildCallNode name p es)).toString := by
  have hname := seals_path (dotParts_ne_nil name) (validateIdentifier_ok hv)
  rw [joinDots_dotParts] at hname
  rw [Expr.toString, buildCallNode_text]
  exact (h.append [')']).behind hname.reads hl hpre

/-! ## Whole trees -/

theorem dot_loses {a b : Tree} {ea eb : Expr} (ha : Seen a ea) (hb : Seen b eb) (hna : a.Named)
    (hnb : b.Named) (hba : a.build = .ok ea) (hbb : b.build = .ok eb) (h : ¬(Tree.dot a b).Intact) :
    Loses (ea.dot eb).toString := by
  have hfront : Front (eb.extract kDot) := front_extract fun hp => by
    rw [built_prec hbb] at hp
    exact b.front hnb hbb (Nat.lt_trans hp (by decide))
  rw [dot_text]
  by_cases hi : a.Intact
  · cases hn : a.isNumber
    · -- the first operand is read whole, up to the point
      refine Loses.seals ((ha.rendered hi).before_point hn) ?_
      by_cases hint : b.isInt
      · cases b
        case int n =>
          cases hbb
          obtain ⟨hne, hd⟩ := natToString_digits n
          obtain ⟨d, s, hds⟩ := List.exists_cons_of_ne_nil hne
          have htext : (Expr.fromInteger n).extract kDot = d :: s := by
            rw [extract_eq, if_neg (by exact (by decide : ¬kDot.toNat ≤ kSymbol.toNat))]
            exact hds
          rw [hds] at hd
          simp only [List.all_cons, Bool.and_eq_true] at hd
          rw [htext]
          exact loses_point hd.1 s
        all_goals cases hint
      · have hj : ¬b.Intact := fun hj => h ((all_two rfl).2 ⟨by
          simp [Tree.intactAt, hn, Bool.eq_false_iff.2 hint], hi, hj⟩)
        have hdigit : Stops Char.isDigit (eb.extract kDot) := by
          rw [extract_eq]
          split
          · exact stops_cons.2 (by decide)
          · rename_i hc
            rw [built_prec hbb] at hc
            exact atom_front hnb hbb (symbol_of_lt hc) (Bool.eq_false_iff.2 hint)
        exact (loses_extract (hb.loses hj) kDot).point hfront.ne_nil hdigit
    · cases a
      case int n =>
        cases hba
        obtain ⟨hne, hd⟩ := natToString_digits n
        exact loses_fraction hne hd hfront.ne_nil hfront.head_ne
      case negative n =>
        cases hba
        obtain ⟨hne, hd⟩ := natToString_digits (n + 1)
        exact (loses_fraction hne hd hfront.ne_nil hfront.head_ne).minus (by simp)
          ((natToString_head (n + 1)).append (stops_cons.2 (by decide)))
      all_goals cases hn
  · exact (loses_extract (ha.loses hi) kDot).append _

theorem neg_loses {a : Tree} {ea : Expr} (ha : Seen a ea) (hna : a.Named) (hba : a.build = .ok ea)
    (h : ¬(Tree.neg a).Intact) : Loses ea.neg.toString := by
  rw [neg_text]
  cases hs : a.signed
  · have hi : ¬a.Intact := fun hi => h ((all_one rfl).2 ⟨by simp [Tree.intactAt, hs], hi⟩)
    have hloses := loses_extract (ha.loses hi) kUnaryPlus
    obtain ⟨c, s, hx, -, hc | ⟨rfl, d, r, rfl, hd⟩⟩ : Front (ea.extract kUnaryPlus) :=
      front_extract fun hp => a.front hna hba (built_prec hba ▸ hp)
    · exact hloses.minus (by rw [hx]; simp) (by rw [hx]; exact stops_cons.2 hc)
    · rw [hx]
      exact loses_comment hd r
  · have hprec : ¬kUnaryPlus.toNat ≤ ea.node.precedence.toNat := by
      rw [built_prec hba]
      cases a
      case negative n => dsimp only [Tree.prec]; decide
      case index a b => dsimp only [Tree.prec]; decide
      all_goals cases hs
    obtain ⟨d, s, hx, hd⟩ := signed_cons hs hba
    rw [extract_eq, if_neg hprec, hx]
    exact loses_comment hd s

/-- Two operands of a root that is intact itself. -/
theorem not_both {t a b : Tree} (hu : t.under = (a :: a.under) ++ (b :: b.under))
    (hr : t.intactAt = true) (h : ¬t.Intact) : ¬(a.Intact ∧ b.Intact) :=
  fun hi => h ((all_two hu).2 ⟨hr, hi⟩)

theorem not_one {t a : Tree} (hu : t.under = a :: a.under) (hr : t.intactAt = true)
    (h : ¬t.Intact) : ¬a.Intact := fun hi => h ((all_one hu).2 ⟨hr, hi⟩)

theorem intact_leaf {t : Tree} (hu : t.under = []) (hr : t.intactAt = true) : t.Intact :=
  all_iff.2 ⟨hr, by rw [hu]; nofun⟩

mutual

/-- **The text of a tree that is not intact loses digits or points.** -/
theorem Tree.loses : (t : Tree) → {e : Expr} → t.Named → t.build = .ok e → ¬t.Intact →
    Loses e.toString
  | .null, _, _, _, hi | .bool _, _, _, _, hi | .placeholder _, _, _, _, hi | .literal _, _, _, _, hi
  | .ident _, _, _, _, hi | .int _, _, _, _, hi | .negative _, _, _, _, hi | .column _, _, _, _, hi
  | .qualified _ _, _, _, _, hi | .countAll, _, _, _, hi | .scalar _, _, _, _, hi
  | .exists _ _, _, _, _, hi => absurd (intact_leaf rfl rfl) hi
  | .dot a b, _, hn, h, hi => by
    obtain ⟨-, hna, hnb⟩ := (all_two rfl).1 hn
    simp only [Tree.build, bind_ok, pure_ok] at h
    obtain ⟨_, ha, _, hb, rfl⟩ := h
    exact dot_loses ⟨fun hx => a.rendered hna hx ha, a.loses hna ha⟩
      ⟨fun hx => b.rendered hnb hx hb, b.loses hnb hb⟩ hna hnb ha hb hi
  | .neg a, _, hn, h, hi => by
    obtain ⟨-, hna⟩ := (all_one rfl).1 hn
    simp only [Tree.build, bind_ok, pure_ok] at h
    obtain ⟨_, ha, rfl⟩ := h
    exact neg_loses ⟨fun hx => a.rendered hna hx ha, a.loses hna ha⟩ hna ha hi
  | .castRaw a type, _, hn, h, hi => by
    obtain ⟨-, hna⟩ := (all_one rfl).1 hn
    simp only [Tree.build, bind_ok, pure_ok] at h
    obtain ⟨_, ha, rfl⟩ := h
    have ho : Opens lex "CAST (".toList [Key.cast.token, .punct '('] :=
      opens_const (by decide) (by decide)
    rw [castRaw_text]
    exact ((loses_extract (a.loses hna ha (not_one rfl rfl hi)) _).append _).opens ho
  | .index a b, _, hn, h, hi => by
    obtain ⟨-, hna, hnb⟩ := (all_two rfl).1 hn
    simp only [Tree.build, bind_ok, pure_ok] at h
    obtain ⟨_, ha, _, hb, rfl⟩ := h
    have ho : Opens lex ['['] [.punct '['] := opens_const (by decide) (by decide)
    rw [index_text]
    exact Seen.both ⟨fun hx => a.rendered hna hx ha, a.loses hna ha⟩
      ⟨fun hx => b.rendered hnb hx hb, b.loses hnb hb⟩ _ _ (x := ['[']) (by decide) ho
      (not_both rfl rfl hi) _
  | .collate a coll, _, hn, h, hi => by
    obtain ⟨-, hna⟩ := (all_one rfl).1 hn
    simp only [Tree.build, bind_ok, pure_ok] at h
    obtain ⟨_, ha, rfl⟩ := h
    rw [collate_text]
    exact (loses_extract (a.loses hna ha (not_one rfl rfl hi)) _).append _
  | .prefixOp op a, _, hn, h, hi => by
    obtain ⟨-, hna⟩ := (all_one rfl).1 hn
    simp only [Tree.build, Expr.prefixOp, bind_ok, pure_ok] at h
    obtain ⟨_, ha, _, hv, rfl⟩ := h
    obtain ⟨hne, ho, hc⟩ := operator_of_ok hv
    rw [Expr.toString, prefixOp_text]
    exact (loses_extract (a.loses hna ha (not_one rfl rfl hi)) _).opens (opens_pieces hne ho hc)
  | .bin op a b, _, hn, h, hi => by
    obtain ⟨-, hna, hnb⟩ := (all_two rfl).1 hn
    simp only [Tree.build, bind_ok, applyBin_eq, Except.ok.injEq] at h
    obtain ⟨_, ha, _, hb, rfl⟩ := h
    have ho : Opens lex (' ' :: (op.name ++ [' '])) [.op op.name] := by
      cases op <;> exact opens_const (by decide) (by decide)
    rw [Expr.toString, binaryNode_text]
    exact Seen.around ⟨fun hx => a.rendered hna hx ha, a.loses hna ha⟩
      ⟨fun hx => b.rendered hnb hx hb, b.loses hnb hb⟩ _ (by cases op <;> rfl) ho
      (not_both rfl rfl hi)
  | .binaryOp op a b, _, hn, h, hi => by
    obtain ⟨-, hna, hnb⟩ := (all_two rfl).1 hn
    simp only [Tree.build, Expr.binaryOp, bind_ok, pure_ok] at h
    obtain ⟨_, ha, _, hb, _, hv, rfl⟩ := h
    obtain ⟨hne, ho, hc⟩ := operator_of_ok hv
    have hspace : Opens lex [' '] [] := opens_const (by decide) (by decide)
    have hleads : leads (' ' :: (op ++ [' '])) = true := by
      have := operator_leads hv []
      rwa [List.append_nil] at this
    rw [Expr.toString, binaryNode_text]
    exact Seen.around ⟨fun hx => a.rendered hna hx ha, a.loses hna ha⟩
      ⟨fun hx => b.rendered hnb hx hb, b.loses hnb hb⟩ _ hleads
      (hspace.append (opens_pieces hne ho hc)) (not_both rfl rfl hi)
  | .compare op a b, _, hn, h, hi => by
    obtain ⟨-, hna, hnb⟩ := (all_two rfl).1 hn
    simp only [Tree.build, bind_ok, pure_ok] at h
    obtain ⟨ea, ha, eb, hb, rfl⟩ := h
    have ho : Opens lex (' ' :: (op.name ++ [' '])) [.op op.name] := by
      cases op <;> exact opens_const (by decide) (by decide)
    have htext : (op.apply ea eb).toExpr.toString =
        ea.extract kCompare ++ ((' ' :: (op.name ++ [' '])) ++ eb.extract kCompare) :=
      (congrArg render (applyCompare_text op ea eb)).trans (binaryNode_text ea eb kCompare op.name)
    rw [htext]
    exact Seen.around ⟨fun hx => a.rendered hna hx ha, a.loses hna ha⟩
      ⟨fun hx => b.rendered hnb hx hb, b.loses hnb hb⟩ _ (by cases op <;> rfl) ho
      (not_both rfl rfl hi)
  | .between n a b c, _, hn, h, hi => by
    obtain ⟨-, hna, hnb, hnc⟩ := (all_three rfl).1 hn
    simp only [Tree.build, bind_ok, pure_ok] at h
    obtain ⟨ea, ha, eb, hb, ec, hc, rfl⟩ := h
    have hand : Opens lex " AND ".toList [Key.and.token] := opens_const (by decide) (by decide)
    have hin {x : Text} {ts : List Token} (hx : leads x = true) (ho : Opens lex x ts) :
        Loses (Expr.betweenNode x ea eb ec).toString := by
      rw [betweenNode_text]
      by_cases hia : a.Intact
      · refine Loses.behind ((a.rendered hna hia ha).operand kBetween) hx ho ?_
        refine Seen.around ⟨fun hx => b.rendered hnb hx hb, b.loses hnb hb⟩
          ⟨fun hx => c.rendered hnc hx hc, c.loses hnc hc⟩ _ (by decide) hand fun hbc => hi ?_
        exact (all_three rfl).2 ⟨rfl, hia, hbc⟩
      · exact (loses_extract (a.loses hna ha hia) _).append _
    cases n
    · have ho : Opens lex " BETWEEN ".toList [Key.between.token] :=
        opens_const (by decide) (by decide)
      exact hin (by decide) ho
    · have ho : Opens lex " NOT BETWEEN ".toList [Key.not.token, Key.between.token] :=
        opens_const (by decide) (by decide)
      exact hin (by decide) ho
  | .like op n a b, _, hn, h, hi => by
    obtain ⟨-, hna, hnb⟩ := (all_two rfl).1 hn
    simp only [Tree.build, bind_ok, pure_ok, applyLike_eq] at h
    obtain ⟨ea, ha, eb, hb, rfl⟩ := h
    have ho : Opens lex (likeText op n) (notTokens n ++ op.tokens) := by
      cases op <;> cases n <;> exact opens_const (by decide) (by decide)
    have htext : (Expr.likeNode (likeText op n) ea eb).toExpr.toString = _ :=
      likeNode_text ea eb (likeText op n)
    rw [htext]
    exact Seen.around ⟨fun hx => a.rendered hna hx ha, a.loses hna ha⟩
      ⟨fun hx => b.rendered hnb hx hb, b.loses hnb hb⟩ _ (by cases op <;> cases n <;> rfl) ho
      (not_both rfl rfl hi)
  | .isIn n a l, _, hn, h, hi => by
    obtain ⟨-, hna, hnl⟩ := all_isIn.1 hn
    simp only [Tree.build, bind_ok] at h
    obtain ⟨ea, ha, es, hl, h⟩ := h
    have hopen : Opens lex ['('] [.punct '('] := opens_const (by decide) (by decide)
    have hin {x : Text} {ts : List Token} {r : Condition} (hx : leads x = true) (ho : Opens lex x ts)
        (hr : Expr.buildInListNode ea x es = .ok r) : Loses r.toString := by
      rw [(buildInListNode_ok ea hr).2.2]
      by_cases hia : a.Intact
      · refine Loses.behind ((a.rendered hna hia ha).operand kBetween) hx ho ?_
        refine Loses.opens hopen ((argsText_loses (seen_list l hnl (buildList_ok hl)) ?_).append _)
        exact fun hil => hi (all_isIn.2 ⟨rfl, hia, hil⟩)
      · exact (loses_extract (a.loses hna ha hia) _).append _
    cases n with
    | false =>
      obtain ⟨_, hr, he⟩ := bind_ok.1 h
      cases he
      exact hin (x := " IN ".toList) (by decide) (opens_const (by decide) rfl) hr
    | true =>
      obtain ⟨_, hr, he⟩ := bind_ok.1 h
      cases he
      exact hin (x := " NOT IN ".toList) (by decide) (opens_const (by decide) rfl) hr
  | .eqAny a b, _, hn, h, hi => by
    obtain ⟨-, hna, hnb⟩ := (all_two rfl).1 hn
    simp only [Tree.build, bind_ok, pure_ok] at h
    obtain ⟨ea, ha, eb, hb, rfl⟩ := h
    have ho : Opens lex " = ANY (".toList [.op "=".toList, Key.any.token, .punct '('] :=
      opens_const (by decide) (by decide)
    have htext : (ea.eqAny eb).toExpr.toString = _ := quantNode_text ea eb " = ANY (".toList
    rw [htext]
    exact Seen.both ⟨fun hx => a.rendered hna hx ha, a.loses hna ha⟩
      ⟨fun hx => b.rendered hnb hx hb, b.loses hnb hb⟩ _ _ (by decide) ho (not_both rfl rfl hi) _
  | .neAll a b, _, hn, h, hi => by
    obtain ⟨-, hna, hnb⟩ := (all_two rfl).1 hn
    simp only [Tree.build, bind_ok, pure_ok] at h
    obtain ⟨ea, ha, eb, hb, rfl⟩ := h
    have ho : Opens lex " <> ALL (".toList [.op "<>".toList, Key.all.token, .punct '('] :=
      opens_const (by decide) (by decide)
    have htext : (ea.neAll eb).toExpr.toString = _ := quantNode_text ea eb " <> ALL (".toList
    rw [htext]
    exact Seen.both ⟨fun hx => a.rendered hna hx ha, a.loses hna ha⟩
      ⟨fun hx => b.rendered hnb hx hb, b.loses hnb hb⟩ _ _ (by decide) ho (not_both rfl rfl hi) _
  | .is op a, _, hn, h, hi => by
    obtain ⟨-, hna⟩ := (all_one rfl).1 hn
    simp only [Tree.build, bind_ok, pure_ok, applyIs_eq] at h
    obtain ⟨ea, ha, rfl⟩ := h
    have htext : (Expr.isNode (isText op) ea).toExpr.toString = _ := isNode_text ea (isText op)
    rw [htext]
    exact (loses_extract (a.loses hna ha (not_one rfl rfl hi)) _).append _
  | .distinctFrom n a b, _, hn, h, hi => by
    obtain ⟨-, hna, hnb⟩ := (all_two rfl).1 hn
    simp only [Tree.build, bind_ok, pure_ok] at h
    obtain ⟨ea, ha, eb, hb, rfl⟩ := h
    have hin {x : Text} {ts : List Token} (hx : leads x = true) (ho : Opens lex x ts) :
        Loses (Expr.distinctNode x ea eb).toString := by
      rw [distinctNode_text]
      exact Seen.around ⟨fun hx => a.rendered hna hx ha, a.loses hna ha⟩
        ⟨fun hx => b.rendered hnb hx hb, b.loses hnb hb⟩ _ hx ho (not_both rfl rfl hi)
    cases n
    · exact hin (x := " IS DISTINCT FROM ".toList) (by decide) (opens_const (by decide) rfl)
    · exact hin (x := " IS NOT DISTINCT FROM ".toList) (by decide) (opens_const (by decide) rfl)
  | .exprNot a, _, hn, h, hi => by
    obtain ⟨-, hna⟩ := (all_one rfl).1 hn
    simp only [Tree.build, bind_ok, pure_ok] at h
    obtain ⟨ea, ha, rfl⟩ := h
    rw [not_text]
    exact (loses_extract (a.loses hna ha (not_one rfl rfl hi)) _).opens
      (opens_const (by decide) rfl)
  | .condNot a, _, hn, h, hi => by
    obtain ⟨-, hna⟩ := (all_one rfl).1 hn
    simp only [Tree.build, bind_ok, pure_ok] at h
    obtain ⟨ea, ha, rfl⟩ := h
    have htext : ea.toCondition.not.toExpr.toString = _ := condition_not_text ea.toCondition
    rw [htext]
    exact (loses_extract (a.loses hna ha (not_one rfl rfl hi)) kNot).opens
      (opens_const (by decide) rfl)
  | .and a b, _, hn, h, hi => by
    obtain ⟨-, hna, hnb⟩ := (all_two rfl).1 hn
    simp only [Tree.build, bind_ok, pure_ok] at h
    obtain ⟨ea, ha, eb, hb, rfl⟩ := h
    have htext : (ea.toCondition.and eb.toCondition).toExpr.toString = _ :=
      and_text ea.toCondition eb.toCondition
    have ho : Opens lex " AND ".toList [Key.and.token] := opens_const (by decide) (by decide)
    rw [htext]
    have hsa : Seen a ea := ⟨fun hx => a.rendered hna hx ha, a.loses hna ha⟩
    have hsb : Seen b eb := ⟨fun hx => b.rendered hnb hx hb, b.loses hnb hb⟩
    exact hsa.around hsb kAnd (by decide) ho (not_both rfl rfl hi)
  | .or a b, _, hn, h, hi => by
    obtain ⟨-, hna, hnb⟩ := (all_two rfl).1 hn
    simp only [Tree.build, bind_ok, pure_ok] at h
    obtain ⟨ea, ha, eb, hb, rfl⟩ := h
    have htext : (ea.toCondition.or eb.toCondition).toExpr.toString = _ :=
      or_text ea.toCondition eb.toCondition
    have ho : Opens lex " OR ".toList [Key.or.token] := opens_const (by decide) (by decide)
    rw [htext]
    have hsa : Seen a ea := ⟨fun hx => a.rendered hna hx ha, a.loses hna ha⟩
    have hsb : Seen b eb := ⟨fun hx => b.rendered hnb hx hb, b.loses hnb hb⟩
    exact hsa.around hsb kOr (by decide) ho (not_both rfl rfl hi)
  | .inQuery n a q, _, hn, h, hi => by
    obtain ⟨-, hna⟩ := (all_one rfl).1 hn
    simp only [Tree.build, bind_ok] at h
    obtain ⟨ea, ha, h⟩ := h
    have hloses := a.loses hna ha (not_one rfl rfl hi)
    cases n with
    | false =>
      obtain ⟨_, hr, he⟩ := bind_ok.1 h
      cases he
      exact subquery_loses hloses hr
    | true =>
      obtain ⟨_, hr, he⟩ := bind_ok.1 h
      cases he
      exact subquery_loses hloses hr
  | .eqAnyQuery a q, _, hn, h, hi | .neAllQuery a q, _, hn, h, hi => by
    obtain ⟨-, hna⟩ := (all_one rfl).1 hn
    simp only [Tree.build, bind_ok, pure_ok] at h
    obtain ⟨ea, ha, _, hr, rfl⟩ := h
    exact subquery_loses (a.loses hna ha (not_one rfl rfl hi)) hr
  | .call name d l, _, hn, h, hi => by
    obtain ⟨-, hnl⟩ := all_call.1 hn
    simp only [Tree.build, bind_ok] at h
    obtain ⟨es, hl, h⟩ := h
    have hloses := argsText_loses (seen_list l hnl (buildList_ok hl)) fun hil =>
      hi (all_call.2 ⟨rfl, hil⟩)
    cases d with
    | false =>
      simp only [Bool.false_eq_true, if_false, Expr.call, bind_ok, pure_ok] at h
      obtain ⟨_, hv, rfl⟩ := h
      exact call_loses (p := []) hv (opens_const (by decide) rfl) (by decide) hloses
    | true =>
      simp only [if_true, Expr.callDistinct, bind_ok, pure_ok] at h
      obtain ⟨_, hv, _, -, rfl⟩ := h
      exact call_loses hv (opens_const (by decide) rfl) (by decide) hloses
  | .case whens els, _, hn, h, hi => by
    obtain ⟨-, hnw, hne⟩ := all_case.1 hn
    obtain ⟨ps, eo, hps, heo, -, rfl⟩ := case_built h
    have hcase : Opens lex "CASE ".toList [Key.case.token] := opens_const (by decide) rfl
    rw [fromRaw_text]
    refine Loses.opens hcase (whensText_loses (seen_whens whens hnw hps) (elseText_head _)
      fun hw => ?_)
    exact elseText_loses (seen_else els hne heo) fun he => hi (all_case.2 ⟨rfl, hw, he⟩)

theorem seen_list : (l : List Tree) → {es : List Expr} → (∀ t ∈ l, t.Named) →
    List.Forall₂ (fun t e => t.build = .ok e) l es → List.Forall₂ Seen l es
  | [], _, _, h => by cases h; exact .nil
  | t :: l, _, hn, h => by
    obtain _ | ⟨ht, hl⟩ := h
    have hnt := hn t (.head _)
    exact .cons ⟨fun hx => t.rendered hnt hx ht, t.loses hnt ht⟩
      (seen_list l (fun s hs => hn s (.tail _ hs)) hl)

theorem seen_whens : (l : List (Tree × Tree)) → {ps : List (Expr × Expr)} →
    (∀ w ∈ l, w.1.Named ∧ w.2.Named) → List.Forall₂ BuiltWhen l ps →
    List.Forall₂ (fun w p => Seen w.1 p.1 ∧ Seen w.2 p.2) l ps
  | [], _, _, h => by cases h; exact .nil
  | (c, r) :: l, _, hn, h => by
    obtain _ | ⟨hw, hl⟩ := h
    obtain ⟨hnc, hnr⟩ := hn (c, r) (.head _)
    exact .cons ⟨⟨fun hx => c.rendered hnc hx hw.1, c.loses hnc hw.1⟩,
      ⟨fun hx => r.rendered hnr hx hw.2, r.loses hnr hw.2⟩⟩
      (seen_whens l (fun w hw => hn w (.tail _ hw)) hl)

theorem seen_else : (o : Option Tree) → {eo : Option Expr} → (∀ e, o = some e → e.Named) →
    Option.Rel (fun t e => t.build = .ok e) o eo → Option.Rel Seen o eo
  | none, _, _, h => by cases h; exact .none
  | some t, _, hn, h => by
    obtain he | _ := h
    have hnt := hn t rfl
    exact .some ⟨fun hx => t.rendered hnt hx he, t.loses hnt he⟩

end

/-! ## Reading back -/

/-- A text that is read as what its tree means loses nothing. -/
theorem intact_of_reads {t : Tree} {e : Expr} (hn : t.Named) (hq : t.All (·.clean = true))
    (h : t.build = .ok e) (hr : readExpr e.toString = some t.toSql) : t.Intact := by
  by_contra hi
  have hlost := t.loses hn h hi []
  rw [List.append_nil] at hlost
  have hread : sqlInk t.toSql ≤ ink e.toString - 1 := by
    have h1 := ink_of_parse hr
    have h2 := units_ink (lex e.toString)
    exact Nat.le_sub_one_of_lt (Nat.lt_of_le_of_lt (Nat.le_trans h1 h2) hlost)
  have htext := t.ink_text hq h
  omega

/-- **When the text of a built tree is read as what the tree means.** -/
theorem built_reads_iff {t : Tree} {e : Expr} (hn : t.Named) (hc : t.All (·.callable = true))
    (hq : t.All (·.clean = true)) (h : t.build = .ok e) : readExpr e.toString = some t.toSql ↔
      t.Intact ∧ t.All (·.spelt = true) ∧ t.All Tree.FitsAt := by
  refine ⟨fun hr => ?_, fun hr => (reads_iff (t.rendered hn hr.1 h) hc).2 hr.2⟩
  have hi := intact_of_reads hn hq h hr
  exact ⟨hi, (reads_iff (t.rendered hn hi h) hc).1 hr⟩

end IronQuery
