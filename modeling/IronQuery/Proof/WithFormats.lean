import IronQuery.Pg.Proof.Closing
import IronQuery.Proof.QueryRead

/-!
# The two formats of `WITH`

`WithQuery::ToStringFormatted` indents the rendered text of every CTE, the insides of its quotes
included, once for the CTE and once for the list. `query_formats_agree`: the formats have the same
tokens if and only if no quoted token of a CTE holds a line feed. By induction on the query: the
formatted text of a part has the tokens of the plain one, but for spaces behind line feeds
(`FormatsAs`), and each `WITH` around it adds eight more of them.
-/

namespace IronQuery

open Pg

/-! ## The queries of a WITH -/

/-- The queries of the CTEs, in their order. -/
def CteTree.queries : CteTree → List QueryTree
  | .start _ query => [query]
  | .next before _ query => before.queries ++ [query]

/-- The CTEs of a query; a main query has none of its own. -/
def QueryTree.cteQueries : QueryTree → List QueryTree
  | .with ctes _ => ctes.queries
  | _ => []

/-- No quoted token of the text holds a line feed. -/
def QueryTree.OneLine (t : QueryTree) : Prop :=
  ∀ v x, t.build = .ok v → v.toString = .ok x → ∀ u ∈ lex x, '\n' ∉ u.body

/-! ## What the texts are -/

/-- Both texts are whole, and the formatted one has the tokens of the other but for spaces behind
line feeds. -/
structure FormatsAs (x y : Text) : Prop where
  whole : Whole x
  formatted : Whole y
  drifts : List.Forall₂ Drifts (lex x) (lex y)

section
variable {x y : Text} {name : Text} {ts us : List Token}

theorem plain_no_line (h : isPlainIdentifier x = true) : '\n' ∉ x := by
  obtain ⟨c, s, rfl, hc, hs⟩ := plain_cons h
  intro hmem
  rcases List.mem_cons.1 hmem with rfl | hmem
  · exact absurd hc (by decide)
  · exact absurd (List.all_eq_true.1 hs _ hmem) (by decide)

/-- A CTE as it stands in the formatted list, which is indented once more. -/
theorem cteTextFormatted_eq (hn : isPlainIdentifier name = true) (y : Text) :
    indented 4 (cteTextFormatted name y) =
      name ++ (" AS (\n        ".toList ++ (indented 8 y ++ "\n    )".toList)) := by
  have hopen : indented 4 " AS (\n".toList = " AS (\n    ".toList := by decide
  have hclose : indented 4 "\n)".toList = "\n    )".toList := by decide
  rw [cteTextFormatted, indentBlock_indented, indented_append, indented_append, indented_append,
    indented_append, indented_eq (plain_no_line hn), hopen, hclose, indented_spaces,
    indented_indented]
  simp only [List.append_assoc]
  rfl

theorem cte_formatted (hn : isCteName name = true) (h : Whole y) :
    Opens lex (indented 4 (cteTextFormatted name y))
      (.word name :: Key.as.token :: bracketed ((lex y).map (Token.indented 8))) := by
  rw [isCteName, Bool.and_eq_true] at hn
  rw [cteTextFormatted_eq hn.1]
  have hopen : Opens lex " AS (\n        ".toList [Key.as.token, .punct '('] :=
    opens_const (by decide) (by decide)
  have hclose : Opens lex "\n    )".toList [.punct ')'] := opens_const (by decide) (by decide)
  have hbody : Opens lex (indented 8 y ++ "\n    )".toList)
      ((lex y).map (Token.indented 8) ++ [.punct ')']) := by
    intro r
    have hr : Shuts ("\n    )".toList ++ r) := ⟨"\n    ".toList, r, by decide, rfl⟩
    rw [List.append_assoc, h.indented hr, hclose r, List.append_assoc]
  have := (seals_plain hn.1).reads.opens (y := " AS (\n        ".toList ++ _) rfl
    (hopen.append hbody)
  simpa only [bracketed, List.cons_append, List.nil_append, List.append_assoc] using this

/-- The two lists of a `WithBuilder` with the same CTEs: the formatted one has the tokens of the
other if and only if the CTEs are on one line each. -/
def CtesFormatAs (x y : Text) (queries : List QueryTree) : Prop :=
  ∃ ts us, Opens lex x ts ∧ Opens lex (indented 4 y) us ∧ List.Forall₂ Drifts ts us ∧
    (us = ts ↔ ∀ q ∈ queries, q.OneLine)

theorem oneLine_iff {t : QueryTree} {v : VirtualTable} (h : t.build = .ok v)
    (hx : v.toString = .ok x) : t.OneLine ↔ ∀ u ∈ lex x, '\n' ∉ u.body := by
  constructor
  · intro ht
    exact ht v x h hx
  · intro hu w z hw hz
    rw [h] at hw
    cases hw
    rw [hx] at hz
    cases hz
    exact hu

/-- The tokens of a CTE around those of its query. -/
theorem cte_drifts (name : Text) (h : List.Forall₂ Drifts ts us) :
    List.Forall₂ Drifts (.word name :: Key.as.token :: bracketed ts)
      (.word name :: Key.as.token :: bracketed us) :=
  .cons (.refl _) (.cons (.refl _) (.cons (.refl _)
    (List.rel_append h (drifts_refl [.punct ')']))))

theorem cte_same (name : Text) (h : List.Forall₂ Drifts ts us) :
    Token.word name :: Key.as.token :: bracketed us = .word name :: Key.as.token :: bracketed ts ↔
      us = ts := by
  simp only [bracketed, List.cons.injEq, true_and]
  exact (append_iff h).trans (and_iff_left rfl)

theorem start_formats {t : QueryTree} {v : VirtualTable} (hn : isCteName name = true)
    (hb : t.build = .ok v) (hx : v.toString = .ok x) (h : FormatsAs x y) :
    CtesFormatAs (cteText name ('(' :: (x ++ [')']))) (cteTextFormatted name y) [t] := by
  have hd := drifts_indented (n := 8) h.drifts
  refine ⟨_, _, cte_opens hn h.whole, cte_formatted hn h.formatted, cte_drifts name hd, ?_⟩
  rw [cte_same name hd, map_indented_iff (by decide) h.drifts, List.forall_mem_singleton,
    oneLine_iff hb hx]

theorem next_formats {x' y' : Text} {l : List QueryTree} {t : QueryTree} {v : VirtualTable}
    (hn : isCteName name = true) (hb : t.build = .ok v) (hx : v.toString = .ok x)
    (hl : CtesFormatAs x' y' l) (h : FormatsAs x y) :
    CtesFormatAs (x' ++ (", ".toList ++ cteText name ('(' :: (x ++ [')']))))
      (y' ++ (",\n".toList ++ cteTextFormatted name y)) (l ++ [t]) := by
  obtain ⟨ts, us, hts, hus, hd, hiff⟩ := hl
  obtain ⟨ts', us', hts', hus', hd', hiff'⟩ := start_formats hn hb hx h
  have hline : indented 4 ",\n".toList = ",\n    ".toList := by decide
  have hcomma : Opens lex ",\n    ".toList [.punct ','] := opens_const (by decide) (by decide)
  refine ⟨_, _, hts.append (connector_comma.opens.append hts'), ?_,
    List.rel_append hd (.cons (.refl _) hd'), ?_⟩
  · rw [indented_append, indented_append, hline]
    exact hus.append (hcomma.append hus')
  · rw [append_iff hd, hiff]
    simp only [List.cons_append, List.nil_append, List.cons.injEq, true_and, hiff',
      List.forall_mem_append]

theorem with_formats {x' y' : Text} {l : List QueryTree} (hl : CtesFormatAs x' y' l)
    (h : FormatsAs x y) (hsame : lex y = lex x) :
    FormatsAs ("WITH ".toList ++ x' ++ " ".toList ++ x)
        ("WITH\n".toList ++ indentBlock y' 4 ++ "\n".toList ++ y) ∧
      (lex ("WITH\n".toList ++ indentBlock y' 4 ++ "\n".toList ++ y) =
        lex ("WITH ".toList ++ x' ++ " ".toList ++ x) ↔ ∀ q ∈ l, q.OneLine) := by
  obtain ⟨ts, us, hts, hus, hd, hiff⟩ := hl
  have hwith : Opens lex "WITH ".toList [Key.with.token] := opens_const (by decide) (by decide)
  have hspace : Opens lex " ".toList [] := opens_const (by decide) (by decide)
  have hlines : Opens lex "WITH\n    ".toList [Key.with.token] :=
    opens_const (by decide) (by decide)
  have hline : Opens lex "\n".toList [] := opens_const (by decide) (by decide)
  have hx : Reads lex ("WITH ".toList ++ x' ++ " ".toList ++ x)
      ([Key.with.token] ++ (ts ++ lex x)) := by
    have := hwith.reads (hts.reads (hspace.reads h.whole))
    simpa only [List.append_assoc, List.nil_append] using this
  have hy : Reads lex ("WITH\n".toList ++ indentBlock y' 4 ++ "\n".toList ++ y)
      ([Key.with.token] ++ (us ++ lex y)) := by
    have := hlines.reads (hus.reads (hline.reads h.formatted))
    have htext : "WITH\n".toList ++ List.replicate 4 ' ' = "WITH\n    ".toList := by decide
    rw [indentBlock_indented, ← List.append_assoc, htext]
    simpa only [List.append_assoc, List.nil_append] using this
  rw [hx.lex_eq, hy.lex_eq]
  refine ⟨⟨hx.whole, hy.whole, ?_⟩, ?_⟩
  · rw [hx.lex_eq, hy.lex_eq]
    exact .cons (.refl _) (List.rel_append hd h.drifts)
  · rw [List.append_right_inj, append_iff hd, hiff, hsame]
    exact and_iff_left rfl

/-- A query whose texts have the same tokens. -/
theorem FormatsAs.of_same (hx : Whole x) (hy : Whole y) (h : lex y = lex x) : FormatsAs x y :=
  ⟨hx, hy, by rw [h]; exact drifts_refl _⟩

end

/-! ## Queries that are no WITH -/

section
variable {t : QueryTree} {v : VirtualTable} {x y : Text}

/-- Only a WITH may have two formats that differ. -/
theorem QueryTree.same (ht : t.Sound) (hw : t.isWith = false) (h : t.build = .ok v) :
    lex <$> v.toStringFormatted = lex <$> v.toString := by
  cases t with
  | select source steps =>
    simp only [QueryTree.build, bind_ok, pure_ok] at h
    obtain ⟨s, hs, rfl⟩ := h
    rw [QueryTree.Sound] at ht
    exact (select_formats_agree s (select_spells ht.1 ht.2 hs).whole).symm
  | delete table steps =>
    simp only [QueryTree.build, bind_ok, pure_ok] at h
    obtain ⟨s, -, rfl⟩ := h
    rfl
  | setOp a b kind =>
    simp only [QueryTree.build, bind_ok, pure_ok] at h
    obtain ⟨_, -, _, -, s, -, rfl⟩ := h
    rfl
  | «with» ctes main => cases hw

theorem QueryTree.formatted_whole (ht : t.Sound) (hw : t.isWith = false) (h : t.build = .ok v)
    (hx : v.toString = .ok x) (hy : v.toStringFormatted = .ok y) : Whole y := by
  have hplain : Whole x := by
    obtain ⟨_, hr, -⟩ := t.spelt ht h hx
    exact hr.whole
  cases t with
  | select source steps =>
    simp only [QueryTree.build, bind_ok, pure_ok] at h
    obtain ⟨s, hs, rfl⟩ := h
    rw [QueryTree.Sound] at ht
    obtain ⟨items, hv⟩ := valid_of_toString hx
    exact (((select_spells ht.1 ht.2 hs).whole.reads hv).2 y hy).whole
  | delete table steps =>
    simp only [QueryTree.build, bind_ok, pure_ok] at h
    obtain ⟨s, -, rfl⟩ := h
    cases hx.symm.trans hy
    exact hplain
  | setOp a b kind =>
    simp only [QueryTree.build, bind_ok, pure_ok] at h
    obtain ⟨_, -, _, -, s, -, rfl⟩ := h
    cases hx.symm.trans hy
    exact hplain
  | «with» ctes main => cases hw

theorem QueryTree.formats_same (ht : t.Sound) (hw : t.isWith = false) (h : t.build = .ok v)
    (hx : v.toString = .ok x) (hy : v.toStringFormatted = .ok y) :
    FormatsAs x y ∧ lex y = lex x := by
  have hlex := QueryTree.same ht hw h
  rw [hx, hy] at hlex
  obtain ⟨_, hr, -⟩ := t.spelt ht h hx
  have hsame : lex y = lex x := Except.ok.inj hlex
  exact ⟨.of_same hr.whole (QueryTree.formatted_whole ht hw h hx hy) hsame, hsame⟩

theorem QueryTree.cteQueries_nil (hw : t.isWith = false) : t.cteQueries = [] := by
  cases t with
  | «with» ctes main => cases hw
  | _ => rfl

theorem QueryTree.formats_plain (ht : t.Sound) (hw : t.isWith = false) (h : t.build = .ok v)
    (hx : v.toString = .ok x) (hy : v.toStringFormatted = .ok y) :
    FormatsAs x y ∧ (lex y = lex x ↔ ∀ q ∈ t.cteQueries, q.OneLine) := by
  obtain ⟨hf, hs⟩ := QueryTree.formats_same ht hw h hx hy
  rw [QueryTree.cteQueries_nil hw]
  exact ⟨hf, iff_of_true hs (List.forall_mem_nil _)⟩

end

/-! ## Queries with CTEs -/

mutual

/-- **The two formats of a query**: the tokens are the same but for spaces behind line feeds, and
the same altogether if and only if the query of every CTE is on one line. -/
theorem QueryTree.formats : (t : QueryTree) → {v : VirtualTable} → {x y : Text} → t.Sound →
    t.build = .ok v → v.toString = .ok x → v.toStringFormatted = .ok y →
    FormatsAs x y ∧ (lex y = lex x ↔ ∀ q ∈ t.cteQueries, q.OneLine)
  | .select _ _, _, _, _, ht, h, hx, hy => QueryTree.formats_plain ht rfl h hx hy
  | .delete _ _, _, _, _, ht, h, hx, hy => QueryTree.formats_plain ht rfl h hx hy
  | .setOp _ _ _, _, _, _, ht, h, hx, hy => QueryTree.formats_plain ht rfl h hx hy
  | .with ctes main, v, x, y, ht, h, hx, hy => by
    simp only [QueryTree.build, WithBuilder.main, bind_ok, pure_ok] at h
    obtain ⟨w, hw, vm, hvm, _, ⟨xm, hxm, ym, hym, rfl⟩, rfl⟩ := h
    rw [QueryTree.Sound] at ht
    obtain ⟨hwith, hc, hm⟩ := ht
    cases hx
    cases hy
    obtain ⟨hf, hsame⟩ := QueryTree.formats_same hm hwith hvm hxm hym
    exact with_formats (ctes.formats hc hw) hf hsame

theorem CteTree.formats : (c : CteTree) → {w : WithBuilder} → c.Sound → c.build = .ok w →
    CtesFormatAs w.ctes_ w.ctesFormatted_ c.queries
  | .start name query, w, hc, h => by
    simp only [CteTree.build, withCte, bind_ok, pure_ok] at h
    obtain ⟨v, hv, _, -, y, hy, z, hz, rfl⟩ := h
    rw [CteTree.Sound] at hc
    obtain ⟨x, hx, rfl⟩ := QueryTree.bracketed hv hy
    exact start_formats hc.1 hv hx (query.formats hc.2 hv hx hz).1
  | .next before name query, w, hc, h => by
    simp only [CteTree.build, bind_ok] at h
    obtain ⟨b, hb, v, hv, hw⟩ := h
    rw [CteTree.Sound] at hc
    obtain ⟨hn, hbefore, hq⟩ := hc
    obtain ⟨_, y, z, -, -, hy, hz, rfl⟩ := with_accepted (c := ⟨name, v⟩) (accepted_of_result hw)
    obtain ⟨x, hx, rfl⟩ := QueryTree.bracketed hv hy
    exact next_formats hn hv hx (before.formats hbefore hb) (query.formats hq hv hx hz).1

end

/-- **The two formats of a query are the same SQL** if and only if no string, quoted identifier or
prefixed string of a CTE holds a line feed: the formatted text indents what is inside them. -/
theorem query_formats_agree (t : QueryTree) (v : VirtualTable) (ht : t.Sound)
    (h : t.build = .ok v) :
    lex <$> v.toStringFormatted = lex <$> v.toString ↔ ∀ q ∈ t.cteQueries, q.OneLine := by
  cases hw : t.isWith with
  | false =>
    rw [QueryTree.cteQueries_nil hw]
    exact iff_of_true (QueryTree.same ht hw h) (List.forall_mem_nil _)
  | true =>
    cases t with
    | «with» ctes main =>
      have hv := h
      simp only [QueryTree.build, bind_ok, pure_ok] at hv
      obtain ⟨_, -, _, -, w, -, rfl⟩ := hv
      rw [← (QueryTree.formats _ ht h rfl rfl).2]
      constructor
      · intro he
        exact Except.ok.inj he
      · intro he
        exact congrArg Except.ok he
    | _ => cases hw

/-- `WITH a AS (SELECT '⏎' FROM t) SELECT b FROM a`: the string becomes another one. -/
theorem query_formats_agree_line :
    let select (item : Tree) (table : Char) : QueryTree :=
      .select (.named [table] none) [.select [⟨item, none⟩]]
    let t : QueryTree :=
      .with (.start ['a'] (select (.literal ['\n']) 't')) (select (.column ['b']) 'a')
    ∃ v, t.build = .ok v ∧ lex <$> v.toStringFormatted ≠ lex <$> v.toString := by
  intro select t
  refine ⟨_, rfl, fun he => ?_⟩
  have hline := (query_formats_agree t _ (by decide) rfl).1 he _ (.head _) _ _ rfl rfl
  exact absurd (hline (.string ['\n']) (by decide)) (by decide)

end IronQuery
