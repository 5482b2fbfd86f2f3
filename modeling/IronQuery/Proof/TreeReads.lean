import IronQuery.Proof.Text
import IronQuery.Proof.TreeSurf

/-!
# The text of a tree of operators

`Rendered t e`: the text of `e` is read as the tokens of the syntax tree that `t` spells, and what
may stand next to it without white space. Here are the parts that the operators share: operands in
their brackets, members behind points, argument lists and the branches of `CASE`.
-/

namespace IronQuery

open OperatorPrecedence Pg

/-! ## Paths -/

/-- The tokens in front of a member. -/
def recvTokens : Option Sql → List Token
  | none => []
  | some a => a.tokens ++ [.punct '.']

theorem link_tokens (recv : Option Sql) (s : Sql) :
    (link recv s).tokens = recvTokens recv ++ s.tokens := by
  cases recv <;> simp [link, recvTokens, Sql.tokens]

theorem path_tokens (last : Text → Sql) (tail : List Token)
    (h : ∀ f, (last f).tokens = .word f :: tail) :
    (recv : Option Sql) → (ps : List Text) → ps ≠ [] →
      (path last recv ps).tokens = recvTokens recv ++ (pathTokens ps ++ tail)
  | _, [], hne => absurd rfl hne
  | recv, [p], _ => by simp [path, link_tokens, h, pathTokens]
  | recv, p :: q :: l, _ => by
    rw [path, path_tokens last tail h _ (q :: l) (by simp)]
    simp [recvTokens, link_tokens, Sql.tokens, pathTokens]

/-- A member is behind its receiver and a point. -/
theorem Tree.tokens_recv (a : Sql) (t : Tree) :
    (t.surf (some a)).tokens = a.tokens ++ .punct '.' :: (t.surf none).tokens := by
  cases t
  case call name distinct args =>
    have h := path_tokens (Sql.call · distinct (surfs args)) _ (fun _ => rfl)
    rw [Tree.surf, Tree.surf, h _ _ (dotParts_ne_nil name), h _ _ (dotParts_ne_nil name)]
    simp [recvTokens]
  all_goals exact (link_tokens (some a) _).trans (by simp only [recvTokens, List.append_assoc]; rfl)

/-! ## Rendered trees -/

theorem bracket_formed {ctx p : OperatorPrecedence} {s : Sql} (h : s.Formed) :
    (bracket ctx p s).Formed := by
  unfold bracket
  split
  · exact h
  · exact h

theorem link_formed {recv : Option Sql} {s : Sql} (hr : ∀ a, recv = some a → a.Formed)
    (hs : s.Formed) : (link recv s).Formed := by
  cases recv with
  | none => exact hs
  | some a => exact ⟨hr a rfl, hs⟩

theorem path_formed {k : Text → Sql} (hl : ∀ f, isName f = true → (k f).Formed) :
    (recv : Option Sql) → (ps : List Text) → (∀ a, recv = some a → a.Formed) → ps ≠ [] →
      (∀ p ∈ ps, isName p = true) → (path k recv ps).Formed
  | _, [], _, hne, _ => absurd rfl hne
  | _, [p], hr, _, hp => link_formed hr (hl p (hp p (.head _)))
  | _, p :: q :: l, hr, _, hp => by
    have hcol := link_formed (s := .column p) hr (hp p (.head _))
    exact path_formed hl _ (q :: l) (fun a ha => by cases ha; exact hcol) (by simp)
      fun r hr => hp r (.tail _ hr)

/-- A member is formed with its receiver. -/
theorem Tree.formed_recv {t : Tree} {a : Sql} (hn : t.namesOk = true) (ha : a.Formed)
    (ht : (t.surf none).Formed) : (t.surf (some a)).Formed := by
  have hr : ∀ b, some a = some b → b.Formed := fun b hb => by cases hb; exact ha
  cases t
  case call name distinct args =>
    have hsome : (recv : Option Sql) → (ps : List Text) → ps ≠ [] →
        (path (Sql.call · distinct (surfs args)) recv ps).Formed →
          formedList (surfs args) ∧ (distinct = true → surfs args ≠ []) :=
      fun recv ps => path.induct (motive := fun recv ps => ps ≠ [] →
        (path (Sql.call · distinct (surfs args)) recv ps).Formed →
          formedList (surfs args) ∧ (distinct = true → surfs args ≠ []))
        (fun _ h => absurd rfl h) (fun recv p _ h => by
          cases recv with
          | none => exact h.2
          | some b => exact h.2.2) (fun recv p q l ih _ h => ih (by simp) h) recv ps
    have h := hsome none _ (dotParts_ne_nil name) ht
    exact path_formed (k := (Sql.call · distinct (surfs args))) (fun f hf => ⟨hf, h⟩) _ _ hr
      (dotParts_ne_nil name) (List.all_eq_true.1 hn)
  all_goals exact link_formed hr ht

/-- The text of the expression `e` that the tree `t` was built into, as the lexer sees it. -/
structure Rendered (t : Tree) (e : Expr) : Prop where
  prec : e.node.precedence = t.prec
  formed : (t.surf none).Formed
  reads : Reads lex e.toString (t.surf none).tokens
  /-- What a point may follow. -/
  seals : t.prec = kSymbol → t.isNumber = false → Seals lex e.toString (t.surf none).tokens
  /-- What may follow a point. -/
  digit : t.prec = kSymbol → t.isInt = false → Stops Char.isDigit e.toString
  /-- What may follow a sign. -/
  sign : t.prec.toNat < kUnaryPlus.toNat → t.signed = false → Stops isOpChar e.toString

theorem prec_lt_extract (t : Tree) : t.prec.toNat < kExtract.toNat := by
  cases t
  case bin op a b => cases op <;> simp [Tree.prec, BinOp.prec, OperatorPrecedence.toNat]
  all_goals simp [Tree.prec, OperatorPrecedence.toNat]

namespace Rendered

variable {t : Tree} {e : Expr}

theorem inner (h : Rendered t e) (ctx : OperatorPrecedence) :
    (bracket ctx t.prec (t.surf none)).Formed := bracket_formed h.formed

theorem extract_arg (h : Rendered t e) : e.extract kExtract = e.toString := by
  rw [extract_eq, h.prec, if_neg (Nat.not_le.2 (prec_lt_extract t))]

theorem operand (h : Rendered t e) (ctx : OperatorPrecedence) :
    Reads lex (e.extract ctx) (bracket ctx t.prec (t.surf none)).tokens := by
  rw [extract_eq, h.prec, bracket]
  split
  · exact h.reads.paren.seals.reads
  · exact h.reads

/-- The operand in front of a point. -/
theorem before_point (h : Rendered t e) (hi : t.isNumber = false) :
    Seals lex (e.extract kDot) (bracket kDot t.prec (t.surf none)).tokens := by
  rw [extract_eq, h.prec, bracket]
  split
  · exact h.reads.paren.seals
  · rename_i hc
    exact h.seals (symbol_of_lt hc) hi

/-- The first operand of a form as tight as a sign, or tighter. -/
theorem head_tight (h : Rendered t e) {ctx : OperatorPrecedence}
    (hctx : ctx.toNat ≤ kUnaryPlus.toNat) (hs : t.prec.toNat < ctx.toNat → t.signed = false) :
    Stops isOpChar (e.extract ctx) := by
  rw [extract_eq, h.prec]
  split
  · exact stops_cons.2 (by decide)
  · rename_i hc
    exact h.sign (Nat.lt_of_lt_of_le (Nat.not_le.1 hc) hctx) (hs (Nat.not_le.1 hc))

section
variable {x : Text} {s : Sql} (p : OperatorPrecedence)

/-- A tree no tighter than a sign. -/
theorem of_loose (hp : e.node.precedence = p) (ht : t.prec = p) (hl : kUnaryPlus.toNat ≤ p.toNat)
    (hsurf : t.surf none = s) (hf : s.Formed) (hx : e.toString = x) (hr : Reads lex x s.tokens) :
    Rendered t e where
  prec := by rw [hp, ht]
  formed := by rw [hsurf]; exact hf
  reads := by rw [hx, hsurf]; exact hr
  seals h := by rw [← ht, h] at hl; exact absurd hl (by decide)
  digit h := by rw [← ht, h] at hl; exact absurd hl (by decide)
  sign h := by rw [ht] at h; exact absurd h (Nat.not_lt.2 hl)

/-- A form that is no atom. -/
theorem of_postfix (hp : e.node.precedence = p) (ht : t.prec = p) (hl : p ≠ kSymbol)
    (hsurf : t.surf none = s) (hf : s.Formed) (hx : e.toString = x) (hr : Reads lex x s.tokens)
    (hs : t.signed = false → Stops isOpChar x) : Rendered t e where
  prec := by rw [hp, ht]
  formed := by rw [hsurf]; exact hf
  reads := by rw [hx, hsurf]; exact hr
  seals h := absurd (ht ▸ h) hl
  digit h := absurd (ht ▸ h) hl
  sign _ h := by rw [hx]; exact hs h

/-- An atom that is no number. -/
theorem of_atom (hsurf : t.surf none = s) (hf : s.Formed) (hp : e.node.precedence = kSymbol)
    (ht : t.prec = kSymbol) (hx : e.toString = x) (hr : Seals lex x s.tokens)
    (hs : Stops isOpChar x) (hd : Stops Char.isDigit x) : Rendered t e where
  prec := by rw [hp, ht]
  formed := by rw [hsurf]; exact hf
  reads := by rw [hx, hsurf]; exact hr.reads
  seals _ _ := by rw [hx, hsurf]; exact hr
  digit _ _ := by rw [hx]; exact hd
  sign _ _ := by rw [hx]; exact hs

end

end Rendered

/-! ## Lists of arguments -/

theorem argsText_reads {l : List Tree} {es : List Expr} (h : List.Forall₂ Rendered l es)
    (hne : l ≠ []) : Reads lex (argsText es) (listTokens (surfs l)) := by
  induction h with
  | nil => exact absurd rfl hne
  | @cons t e l es ht hl ih =>
    cases hl with
    | nil =>
      rw [argsText_singleton, ht.extract_arg]
      simpa [surfs, listTokens] using ht.reads
    | cons ht' hl' =>
      rw [argsText_cons, ht.extract_arg]
      have := ht.reads.append (y := ", ".toList ++ _) (by rfl)
        ((show Opens lex ", ".toList [.punct ','] from
          opens_const (by decide) (by decide)).reads (ih (by simp)))
      simpa [surfs, listTokens] using this

theorem argsText_opens {l : List Tree} {es : List Expr} (h : List.Forall₂ Rendered l es) :
    Opens lex (argsText es ++ [')']) (listTokens (surfs l) ++ [.punct ')']) := by
  have hclose : Opens lex [')'] [.punct ')'] := opens_const (by decide) (by decide)
  cases h with
  | nil => exact hclose
  | cons ht hl => exact (argsText_reads (.cons ht hl) (by simp)).opens rfl hclose

theorem surfs_formed {l : List Tree} {es : List Expr} (h : List.Forall₂ Rendered l es) :
    formedList (surfs l) := by
  induction h with
  | nil => trivial
  | cons ht _ ih => exact ⟨ht.formed, ih⟩

theorem surfs_ne_nil {l : List Tree} (h : l ≠ []) : surfs l ≠ [] := by
  cases l with
  | nil => exact absurd rfl h
  | cons t l => simp [surfs]

/-! ## The text of a CASE -/

/-- The branches as `Then` accumulates them. -/
def whensText : List (Expr × Expr) → Text
  | [] => []
  | (c, r) :: l => "WHEN ".toList ++ (c.toString ++ (" THEN ".toList ++ (r.toString ++ (' ' ::
      whensText l))))

def RenderedWhen (w : Tree × Tree) (p : Expr × Expr) : Prop := Rendered w.1 p.1 ∧ Rendered w.2 p.2

/-- What `End` writes behind the branches. -/
def elseText : Option Expr → Text
  | none => "END".toList
  | some e => "ELSE ".toList ++ (e.toString ++ " END".toList)

/-- The branches that `When` and `Then` took, as they were built. -/
def BuiltWhen (w : Tree × Tree) (p : Expr × Expr) : Prop :=
  w.1.build = .ok p.1 ∧ w.2.build = .ok p.2

theorem buildList_ok {l : List Tree} {es : List Expr} (h : buildList l = .ok es) :
    List.Forall₂ (fun t e => t.build = .ok e) l es := by
  induction l generalizing es with
  | nil => cases h; exact .nil
  | cons t l ih =>
    simp only [buildList, bind_ok, pure_ok] at h
    obtain ⟨_, ht, _, hl, rfl⟩ := h
    exact .cons ht (ih hl)

theorem when_ok {b b' : CaseBuilder} {c : Condition} (h : (b.when c).result = .ok b') :
    b' = { b with pendingWhen_ := c.toString, hasPendingWhen_ := true } := by
  unfold CaseBuilder.when at h
  split at h
  · cases h
  · cases h; rfl

theorem then_ok {b b' : CaseBuilder} {r : Expr} (h : (b.then r).result = .ok b') :
    b' = { b with
      whens_ := b.whens_ ++ ("WHEN ".toList ++ b.pendingWhen_ ++ " THEN ".toList ++ r.toString ++
        [' '])
      hasPendingWhen_ := false } := by
  unfold CaseBuilder.then at h
  split at h
  · cases h
  · cases h; rfl

/-- The branches are accumulated in order, and the `ELSE` is left alone. -/
theorem buildWhens_ok {l : List (Tree × Tree)} {b b' : CaseBuilder} (h : buildWhens l b = .ok b') :
    ∃ ps, List.Forall₂ BuiltWhen l ps ∧ b'.whens_ = b.whens_ ++ whensText ps ∧
      b'.else_ = b.else_ := by
  induction l generalizing b with
  | nil => cases h; exact ⟨[], .nil, by simp [whensText], rfl⟩
  | cons w l ih =>
    obtain ⟨c, r⟩ := w
    simp only [buildWhens, bind_ok] at h
    obtain ⟨ec, hc, _, hwhen, er, hr, _, hthen, hl⟩ := h
    obtain ⟨ps, hps, htext, helse⟩ := ih hl
    rw [then_ok hthen, when_ok hwhen] at htext helse
    refine ⟨(ec, er) :: ps, .cons ⟨hc, hr⟩ hps, ?_, helse⟩
    rw [htext]
    simp [whensText, Expr.toCondition, Condition.toString, Expr.toString]

theorem buildElse_ok {o : Option Tree} {b b' : CaseBuilder} (h : buildElse o b = .ok b') :
    ∃ eo, Option.Rel (fun t e => t.build = .ok e) o eo ∧ b'.whens_ = b.whens_ ∧
      b'.else_ = (eo.map Expr.toString).getD b.else_ := by
  cases o with
  | none => cases h; exact ⟨none, .none, rfl, rfl⟩
  | some t =>
    simp only [buildElse, bind_ok] at h
    obtain ⟨e, he, h⟩ := h
    cases h
    exact ⟨some e, .some he, rfl, rfl⟩

/-- `End` drops an `ELSE` of no text. -/
def keptElse (eo : Option Expr) : Option Expr := eo.filter fun e => !e.toString.isEmpty

/-- **The text of a `CASE`**: its branches in order, and its `ELSE`. -/
theorem case_built {whens : List (Tree × Tree)} {els : Option Tree} {e : Expr}
    (h : Tree.build (.case whens els) = .ok e) :
    ∃ ps eo, List.Forall₂ BuiltWhen whens ps ∧ Option.Rel (fun t e => t.build = .ok e) els eo ∧
      whens ≠ [] ∧ e = .fromRaw ("CASE ".toList ++ (whensText ps ++ elseText (keptElse eo))) := by
  simp only [Tree.build, bind_ok] at h
  obtain ⟨_, hwhens, _, hels, hend⟩ := h
  obtain ⟨ps, hps, htext, helse⟩ := buildWhens_ok hwhens
  obtain ⟨eo, heo, htext', helse'⟩ := buildElse_ok hels
  rw [htext] at htext'
  rw [helse] at helse'
  rw [CaseBuilder.end, htext', helse'] at hend
  split at hend
  · cases hend
  · rename_i hemp
    cases hend
    refine ⟨ps, eo, hps, heo, ?_, ?_⟩
    · rintro rfl
      cases hps
      exact hemp rfl
    · cases eo with
      | none => simp [keptElse, elseText, IronQuery.case]
      | some x =>
        cases hx : x.toString.isEmpty <;>
          simp_all [keptElse, elseText, IronQuery.case, Option.filter]

theorem whensText_head (l : List (Expr × Expr)) (els : Option Expr) :
    ∃ x, whensText l ++ elseText els = 'W' :: x ∨ whensText l ++ elseText els = 'E' :: x := by
  cases l with
  | nil => cases els <;> exact ⟨_, .inr rfl⟩
  | cons p l => exact ⟨_, .inl rfl⟩

theorem elseText_seals {els : Option Tree} {eo : Option Expr} (h : Option.Rel Rendered els eo) :
    Seals lex (elseText eo) (elseTokens (surfElse els) ++ [Key.end.token]) := by
  have hend : Seals lex "END".toList [Key.end.token] :=
    seals_name (c := 'E') (s := "ND".toList) rfl rfl rfl
  cases h with
  | none => exact hend
  | @some t x hx =>
    have helse : Opens lex "ELSE ".toList [Key.else.token] :=
      opens_const (by decide) (by decide)
    have hspace : Opens lex [' '] [] := opens_const (by decide) (by decide)
    have htail : Seals lex (x.toString ++ (' ' :: "END".toList))
        ((t.surf none).tokens ++ [Key.end.token]) := fun r hr => by
      have h1 : Stop (' ' :: "END".toList ++ r) ∧ (' ' :: "END".toList ++ r).head? ≠ some '.' :=
        stop_of_leads (by rfl) r
      rw [List.append_assoc, hx.reads _ h1.1 h1.2, List.append_assoc, ← hend r hr]
      exact congrArg _ (hspace _)
    exact helse.seal htail

theorem whensText_seals {l : List (Tree × Tree)} {ps : List (Expr × Expr)} {els : Option Expr}
    {ks : List Token} (h : List.Forall₂ RenderedWhen l ps)
    (he : Seals lex (elseText els) ks) :
    Seals lex (whensText ps ++ elseText els) (whenTokens (surfWhens l) ++ ks) := by
  induction h with
  | nil => exact he
  | @cons w p l ps hw hl ih =>
    obtain ⟨c, r⟩ := w
    obtain ⟨ec, er⟩ := p
    obtain ⟨hc, hr⟩ := hw
    have hwhen : Opens lex "WHEN ".toList [Key.when.token] :=
      opens_const (by decide) (by decide)
    have hthen : Opens lex " THEN ".toList [Key.then.token] :=
      opens_const (by decide) (by decide)
    have hspace : Opens lex [' '] [] := opens_const (by decide) (by decide)
    have htail : Seals lex (er.toString ++ (' ' :: (whensText ps ++ elseText els)))
        ((r.surf none).tokens ++ (whenTokens (surfWhens l) ++ ks)) := fun u hu => by
      have h1 : Stop (' ' :: (whensText ps ++ elseText els) ++ u) ∧
          (' ' :: (whensText ps ++ elseText els) ++ u).head? ≠ some '.' := by
        obtain ⟨x, hx | hx⟩ := whensText_head ps els <;> rw [hx] <;>
          exact stop_of_leads (by rfl) u
      rw [List.append_assoc, hr.reads _ h1.1 h1.2, List.append_assoc, ← ih u hu]
      exact congrArg _ (hspace _)
    have := hwhen.seal (((hc.reads.opens (by rfl) hthen)).seal htail)
    simpa [whensText, surfWhens, whenTokens] using this

theorem surfWhens_formed {l : List (Tree × Tree)} {ps : List (Expr × Expr)}
    (h : List.Forall₂ RenderedWhen l ps) : formedWhens (surfWhens l) := by
  induction h with
  | nil => trivial
  | cons hw _ ih => exact ⟨hw.1.formed, hw.2.formed, ih⟩

end IronQuery
