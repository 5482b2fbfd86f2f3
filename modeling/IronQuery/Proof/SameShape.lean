import IronQuery.Proof.CountRuns
import IronQuery.Proof.TwoRuns

/-!
# Escaped values do not touch the shape of a query

A program with one hole, filled by `Expr::Literal(v)` or `Expr::Ident(v)`: of the tokens of its text
one is the string constant or the quoted identifier with the value `v`, and the others do not depend
on `v` (`same_shape`), unless a unary minus stands right before another one and opens a comment, or
`v` is no name that the server keeps.
-/

namespace IronQuery

open OperatorPrecedence Pg

/-- The entry points that escape a value. -/
inductive Escaping
  | literal | ident
  deriving DecidableEq, Repr

namespace Escaping

def apply : Escaping → Text → Result Expr
  | literal => Expr.literal
  | ident => Expr.ident

/-- The token that the value is to be. -/
def token : Escaping → Text → Token
  | literal => .string
  | ident => .quotedIdent

def quoteChar : Escaping → Char
  | literal => '\''
  | ident => '"'

end Escaping

/-- The program with the value in its holes. -/
def Program.fillWith (c : Program .text) (k : Escaping) (v : Text) : Result Text := do
  c.run (← k.apply v)

/-- A value that the server takes: no NUL in it, and a name is not empty and not cut. -/
def Escaping.Fits (k : Escaping) (v : Text) : Prop :=
  '\x00' ∉ v ∧ (k = .ident → v ≠ [] ∧ v.length < nameDataLen)

instance (k : Escaping) (v : Text) : Decidable (k.Fits v) := by
  unfold Escaping.Fits
  infer_instance

/-- The texts have the same tokens but for one, which is `x` in the first and `y` in the second. -/
def DifferIn (x y : Token) (s s' : Text) : Prop :=
  ∃ pre post, served s = pre ++ some x :: post ∧ served s' = pre ++ some y :: post

/-- With both values the program throws the same, or its texts differ in the token of the value
alone; they do not differ where a later call threw away the text of the hole. -/
def SameShape (c : Program .text) (k : Escaping) (v v' : Text) : Prop :=
  (∃ e, c.fillWith k v = .error e ∧ c.fillWith k v' = .error e) ∨
  ∃ s s', c.fillWith k v = .ok s ∧ c.fillWith k v' = .ok s' ∧
    if c.kept = 0 then served s = served s' else DifferIn (k.token v) (k.token v') s s'

/-! ## The text with a mark in place of the value -/

theorem escaping_ok (k : Escaping) {v : Text} (hv : '\x00' ∉ v) :
    k.apply v = .ok (.fromRaw (quote k.quoteChar v)) := by
  cases k <;> simp [Escaping.apply, Escaping.quoteChar, Expr.literal, Expr.ident, hv, escaped_eq]

theorem quoteChar_isQuote (k : Escaping) : isQuote k.quoteChar = true := by
  cases k <;> rfl

theorem quotedToken_eq (k : Escaping) (v : Text) : quotedToken k.quoteChar v = k.token v := by
  cases k <;> rfl

theorem marked_rel (u : Text) : ExprRel u marked (.fromRaw u) :=
  raw_rel (Piece.hole.mono (by decide) fun _ h => h) _

/-- The value's token is what the server makes of it. -/
theorem finish_token {k : Escaping} {v : Text} (hv : k.Fits v) :
    (k.token v).finish = some (k.token v) := by
  cases k with
  | literal => rfl
  | ident =>
    obtain ⟨hne, hlen⟩ := hv.2 rfl
    simp only [Escaping.token, Token.finish, List.isEmpty_iff, hne, if_false, clipName, hlen,
      if_true]

/-- Calls throw holes away, they make none. -/
theorem kept_le {t : Ty} (p : Program t) : p.tally.all ≤ p.leaves.count .hole := by
  induction p with
  | hole => exact Nat.le_refl _
  | _ =>
    simp only [Program.tally, Program.leaves, Tally.awaiting, Tally.adding, Tally.replacing,
      List.count_append, List.count_nil]
    omega

/-! ## One hole -/

/-- The run with the value is related to the run with the mark. -/
theorem fill_related (c : Program .text) {k : Escaping} {v : Text} (hwf : c.WF) (hg : c.Unglued)
    (hv : k.Fits v) :
    Agree (Filled (quote k.quoteChar v)) (c.run marked) (c.fillWith k v) := by
  rw [Program.fillWith, escaping_ok k hv.1]
  exact related (by simp [quote]) (marked_rel _) (by decide) c (Program.sound hwf hg)

/-- **The value in the hole is one token of the text, and no other token depends on it**, if no
unary minus meets another. -/
theorem same_shape (c : Program .text) (k : Escaping) (v v' : Text) (hwf : c.WF) (hg : c.Unglued)
    (hh : c.holes = 1) (hv : k.Fits v) (hv' : k.Fits v') : SameShape c k v v' := by
  have hr := fill_related c hwf hg hv
  have hr' := fill_related c hwf hg hv'
  cases hx : c.run marked with
  | error e =>
    exact .inl ⟨e, hr.error_left hx, hr'.error_left hx⟩
  | ok x =>
    obtain ⟨s, hs, hp⟩ := hr.ok_left hx
    obtain ⟨s', hs', hp'⟩ := hr'.ok_left hx
    have hcount : List.count mark x = c.kept := congrArg Tally.all (count_kept c hwf hx)
    refine .inr ⟨s, s', hs, hs', ?_⟩
    split
    · -- the value is not in the text
      rename_i h0
      have hnone := List.count_eq_zero.1 (hcount.trans h0)
      rw [hp.fill, hp'.fill, fill_eq hnone, fill_eq hnone]
    · rename_i h0
      have hle : c.kept ≤ 1 := hh ▸ kept_le c
      obtain ⟨pre, post, hscan⟩ := scan_piece hp (by omega)
      refine ⟨pre.map Token.finish, post.map Token.finish, ?_, ?_⟩
      · rw [hp.fill, served, hscan _ v (quoteChar_isQuote k), quotedToken_eq, List.map_append,
          List.map_cons, finish_token hv]
      · rw [hp'.fill, served, hscan _ v' (quoteChar_isQuote k), quotedToken_eq, List.map_append,
          List.map_cons, finish_token hv']

/-- `$1 = 'v'`. -/
def placeholderIs : Program .text :=
  .exprText (.ofCondition (.relation (.compare .eq) (.atom (.placeholder 0)) .hole))

theorem same_shape_placeholder : SameShape placeholderIs .literal "a".toList "'; b".toList :=
  same_shape placeholderIs .literal "a".toList "'; b".toList (by decide) (by decide) (by decide)
    (by decide) (by decide)

/-- `-Expr(-5) == v`, whose text is `--5 = 'v'`. -/
def negatedIs : Program .text :=
  .exprText (.ofCondition
    (.relation (.compare .eq) (.unary .neg (.atom (.integer (-5)))) .hole))

/-- The value is swallowed by the comment that `--5` opens. -/
theorem not_same_shape_negated : ¬ SameShape negatedIs .literal "a".toList "b".toList := by
  have ha : negatedIs.fillWith .literal "a".toList = .ok "--5 = 'a'".toList := by rfl
  rintro (⟨e, h, -⟩ | ⟨s, s', h, -, hd⟩)
  · rw [ha] at h
    cases h
  · rw [ha] at h
    cases h
    rw [if_neg (by decide)] at hd
    obtain ⟨pre, post, hpre, -⟩ := hd
    have hmem : some (Token.string "a".toList) ∈ served "--5 = 'a'".toList := by
      rw [hpre]
      exact List.mem_append_right _ (.head _)
    exact absurd hmem (by decide)

end IronQuery
