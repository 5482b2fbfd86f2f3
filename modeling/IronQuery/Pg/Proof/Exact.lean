import IronQuery.Pg.Proof.Parse
import IronQuery.Pg.Tokens
import Mathlib.Data.List.Forall2

/-!
# What the parser accepts, and as what

The converse of `IronQuery.Pg.Proof.Parse`. `Exact n`: whatever a part of the parser reads with `n`
of fuel are the lexemes of a tree that fits, and its result is that tree without its brackets.
`Spelt ls ts r`: the lexemes in front of `r` in `ts` are `ls`, up to the spelling of key words.
`parse_exact`: whatever parses is a tree that fits.
-/

namespace Pg

/-! ## Lexemes up to the spelling of key words -/

inductive Shape
  | opening | closing | plain
  deriving DecidableEq

def shape : Lexeme → Shape
  | .punct c => if c = '(' then .opening else if c = ')' then .closing else .plain
  | _ => .plain

/-- A digit or a point. -/
def isInk (c : Char) : Bool := c.isDigit || c == '.'

/-- The digits and points of a text. -/
def ink (s : Text) : Nat := s.countP isInk

/-- The digits and points of a token: a point inside a number does not count. -/
def Token.ink : Token → Nat
  | .word w | .quotedIdent w | .string w | .param w => Pg.ink w
  | .number n => n.countP Char.isDigit
  | .punct c => Pg.ink [c]
  | _ => 0

def Lexeme.ink : Lexeme → Nat
  | .key _ w | .name w | .quoted w | .string w | .param w => Pg.ink w
  | .number n => n.countP Char.isDigit
  | .punct c => Pg.ink [c]
  | .subquery ts => (ts.map Token.ink).sum
  | .op _ | .other => 0

/-- The size of a lexeme: a subquery counts with its tokens, a bracket does not count. -/
def Lexeme.bulk : Lexeme → Nat
  | .subquery ts => ts.length + 1
  | .punct c => if c = '(' ∨ c = ')' then 0 else 1
  | _ => 1

/-- `x` counts as `y` does: the same bracket or none, and no fewer digits. -/
structure Alike (x y : Lexeme) : Prop where
  shape : shape x = shape y
  bulk : x.bulk = y.bulk
  ink : y.ink ≤ x.ink

theorem Alike.rfl {x : Lexeme} : Alike x x := ⟨Eq.refl _, Eq.refl _, Nat.le_refl _⟩

theorem key_ink (k : Key) : k.lexeme.ink = 0 := by cases k <;> decide

theorem Alike.keys (k k' : Key) (w : Text) : Alike (.key k w) k'.lexeme :=
  ⟨Eq.refl _, Eq.refl _, by rw [key_ink]; exact Nat.zero_le _⟩

theorem Alike.key (k : Key) (w : Text) : Alike (.key k w) k.lexeme := .keys k k w

/-- `SOME` is another word for `ANY`. -/
theorem Alike.some (w : Text) : Alike (.key .some w) Key.any.lexeme := .keys .some .any w

theorem Alike.word {w : Text} {x : Lexeme} (h : x = .name w ∨ ∃ k, x = .key k w) :
    Alike x (Token.word w).lexeme := by
  have hw : Pg.shape (Token.word w).lexeme = Shape.plain ∧ (Token.word w).lexeme.bulk = 1 ∧
      (Token.word w).lexeme.ink = Pg.ink w := by
    simp only [Token.lexeme]
    cases Key.ofWord w <;> exact ⟨Eq.refl _, Eq.refl _, Eq.refl _⟩
  rcases h with rfl | ⟨k, rfl⟩ <;> exact ⟨hw.1.symm, hw.2.1.symm, Nat.le_of_eq hw.2.2⟩

/-- `ts` is `ls`, up to the spelling of key words, and then `r`. -/
def Spelt (ls ts r : List Lexeme) : Prop := ∃ pre, ts = pre ++ r ∧ List.Forall₂ Alike pre ls

theorem Spelt.nil (r : List Lexeme) : Spelt [] r r := ⟨[], rfl, .nil⟩

theorem Spelt.cons {x y : Lexeme} {ls ts r : List Lexeme} (hx : Alike x y) (h : Spelt ls ts r) :
    Spelt (y :: ls) (x :: ts) r := by
  obtain ⟨pre, rfl, hp⟩ := h
  exact ⟨x :: pre, rfl, .cons hx hp⟩

theorem Spelt.append {ls ks ts r u : List Lexeme} (h : Spelt ls ts r) (h' : Spelt ks r u) :
    Spelt (ls ++ ks) ts u := by
  obtain ⟨pre, rfl, hp⟩ := h
  obtain ⟨pre', rfl, hp'⟩ := h'
  exact ⟨pre ++ pre', by rw [List.append_assoc], List.rel_append hp hp'⟩

theorem Spelt.same (x : Lexeme) {ls ts r : List Lexeme} (h : Spelt ls ts r) :
    Spelt (x :: ls) (x :: ts) r := h.cons .rfl

/-! ## The infix operators -/

/-- The lexemes of an operator in front of its operands on the right. -/
def Infix.lexemes : Infix → List Lexeme
  | .dot => [.punct '.']
  | .index => [.punct '[']
  | .collate => [Key.collate.lexeme]
  | .op o => [.op o]
  | .between neg => notLexemes neg ++ [Key.between.lexeme]
  | .like o neg => notLexemes neg ++ o.lexemes
  | .isIn neg => notLexemes neg ++ [Key.in.lexeme]
  | .quant o all => [.op o, quantLexeme all]
  | .is => [Key.is.lexeme]
  | .and => [Key.and.lexeme]
  | .or => [Key.or.lexeme]

theorem readInfix_exact {ts r : List Lexeme} {i : Infix} (h : readInfix ts = some (i, r)) :
    Spelt i.lexemes ts r := by
  have one {x y : Lexeme} (hx : Alike x y) (r : List Lexeme) : Spelt [y] (x :: r) r :=
    (Spelt.nil r).cons hx
  have two {x y x' y' : Lexeme} (hx : Alike x y) (hx' : Alike x' y') (r : List Lexeme) :
      Spelt [y, y'] (x :: x' :: r) r := (one hx' r).cons hx
  unfold readInfix at h
  split at h
  all_goals first
    | (cases h; first
        | exact one .rfl _
        | exact one (.key _ _) _
        | exact two .rfl (.key _ _) _
        | exact two .rfl (.some _) _
        | exact two (.key _ _) (.key _ _) _
        | exact (two (.key _ _) (.key _ _) _).cons (.key _ _))
    | cases h

/-- No operator tighter than `l` follows. -/
def Halts (l : Level) (r : List Lexeme) : Prop := ∀ i r', readInfix r = some (i, r') → l ≤ i.level

theorem opLevel_pos (o : Text) : 0 < opLevel o := by
  unfold opLevel
  repeat' split
  all_goals decide

theorem Halts.zero (r : List Lexeme) : Halts 0 r := fun _ _ _ => Nat.zero_le _

theorem Halts.max {l l' : Level} {r : List Lexeme} (h : Halts l r) (h' : Halts l' r) :
    Halts (max l l') r := fun i r' hi => Nat.max_le.2 ⟨h i r' hi, h' i r' hi⟩

theorem expect_eq {x : Lexeme → Bool} {ts r : List Lexeme} (h : expect x ts = some r) :
    ∃ t, ts = t :: r ∧ x t = true := by
  cases ts with
  | nil => cases h
  | cons t ts =>
    rw [expect] at h
    split at h
    · rename_i ht
      exact ⟨t, by rw [Option.some.inj h], ht⟩
    · cases h

theorem expect_key_eq {k : Key} {ts r : List Lexeme} (h : expect (isKey k) ts = some r) :
    Spelt [k.lexeme] ts r := by
  obtain ⟨t, rfl, ht⟩ := expect_eq h
  cases t with
  | key k' w =>
    obtain rfl := beq_iff_eq.1 ht
    exact (Spelt.nil _).cons (.key _ _)
  | _ => cases ht

theorem expect_punct_eq {c : Char} {ts r : List Lexeme}
    (h : expect (· == .punct c) ts = some r) : Spelt [.punct c] ts r := by
  obtain ⟨t, rfl, ht⟩ := expect_eq h
  rw [beq_iff_eq.1 ht]
  exact (Spelt.nil _).same _

/-! ## What each part of the parser reads -/

def ExactExpr (n : Nat) : Prop :=
  ∀ lim ts a r, 0 < lim → pExpr n lim ts = some (a, r) →
    ∃ s : Sql, s.Fits ∧ s.strip = a ∧ s.head < lim ∧ Spelt s.lexemes ts r ∧
      Halts (max lim s.tail) r

def ExactLoop (n : Nat) : Prop :=
  ∀ lim ts b r (s : Sql), pLoop n lim s.last s.strip ts = some (b, r) → s.Fits → s.head < lim →
    Halts s.tail ts → ∃ (s' : Sql) (ls : List Lexeme), s'.Fits ∧ s'.strip = b ∧ s'.head < lim ∧
      s'.lexemes = s.lexemes ++ ls ∧ Spelt ls ts r ∧ Halts (max lim s'.tail) r

def ExactRight (n : Nat) : Prop :=
  ∀ i ts b r (s : Sql), pRight n i s.strip ts = some (b, r) → s.Fits → s.leftOf i.level →
    ∃ (s' : Sql) (ls : List Lexeme), s'.Fits ∧ s'.strip = b ∧ s'.head = max i.level s.head ∧
      s'.level = i.level ∧ s'.lexemes = s.lexemes ++ (i.lexemes ++ ls) ∧ Spelt ls ts r ∧
      Halts s'.tail r

def ExactOperand (n : Nat) : Prop :=
  ∀ ts a r, pOperand n ts = some (a, r) → ∃ s : Sql, s.Fits ∧ s.strip = a ∧ s.head = 0 ∧
    s.last = 0 ∧ Spelt s.lexemes ts r ∧ Halts s.tail r

def ExactName (n : Nat) : Prop :=
  ∀ w ts a r, pName n w ts = some (a, r) → ∃ (s : Sql) (ls : List Lexeme), s.Fits ∧ s.strip = a ∧
    s.head = 0 ∧ s.last = 0 ∧ s.tail = 0 ∧ s.lexemes = (Token.word w).lexeme :: ls ∧ Spelt ls ts r

def ExactList (n : Nat) : Prop :=
  ∀ ts l r, pList n ts = some (l, r) → ∃ ss, fitList ss ∧ stripList ss = l ∧ ss ≠ [] ∧
    Spelt (listLexemes ss ++ [.punct ')']) ts r

def ExactCase (n : Nat) : Prop :=
  ∀ ts whens els r, pCase n ts = some (whens, els, r) → ∃ ws e, fitWhens ws ∧ fitElse e ∧
    stripWhens ws = whens ∧ stripElse e = els ∧
    Spelt (whenLexemes ws ++ (elseLexemes e ++ [Key.end.lexeme])) ts r

structure Exact (n : Nat) : Prop where
  expr : ExactExpr n
  loop : ExactLoop n
  right : ExactRight n
  operand : ExactOperand n
  name : ExactName n
  list : ExactList n
  case : ExactCase n

theorem exact_zero : Exact 0 where
  expr _ _ _ _ _ h := by simp [pExpr] at h
  loop _ _ _ _ _ h := by simp [pLoop] at h
  right _ _ _ _ _ h := by simp [pRight] at h
  operand _ _ _ h := by simp [pOperand] at h
  name _ _ _ _ h := by simp [pName] at h
  list _ _ _ h := by simp [pList] at h
  case _ _ _ _ h := by simp [pCase] at h

section
variable {n : Nat}

theorem exact_expr (h : Exact n) : ExactExpr (n + 1) := by
  intro lim ts a r hlim he
  simp only [pExpr, Option.bind_eq_bind, Option.bind_eq_some_iff, Prod.exists] at he
  obtain ⟨b, u, ho, hl⟩ := he
  obtain ⟨s, hf, rfl, hhead, hlast, hs, hh⟩ := h.operand _ _ _ ho
  rw [← hlast] at hl
  obtain ⟨s', ls, hf', rfl, hhead', hls, hs', hh'⟩ := h.loop _ _ _ _ s hl hf (hhead ▸ hlim) hh
  exact ⟨s', hf', rfl, hhead', hls ▸ hs.append hs', hh'⟩

theorem exact_loop (h : Exact n) : ExactLoop (n + 1) := by
  intro lim ts b r s he hf hhead hh
  rw [pLoop] at he
  split at he
  · rename_i hi
    cases he
    exact ⟨s, [], hf, rfl, hhead, (List.append_nil _).symm, Spelt.nil _,
      fun i r' hi' => by rw [hi] at hi'; cases hi'⟩
  · rename_i i u hi
    split at he
    · rename_i hlim
      cases he
      refine ⟨s, [], hf, rfl, hhead, (List.append_nil _).symm, Spelt.nil _, Halts.max ?_ hh⟩
      intro i' r' hi'
      rw [hi] at hi'
      cases hi'
      exact hlim
    · rename_i hlim
      split at he
      · cases he
      · rename_i hne
        simp only [Option.bind_eq_bind, Option.bind_eq_some_iff, Prod.exists] at he
        obtain ⟨c, v, hr, hl⟩ := he
        obtain ⟨s₁, ls, hf₁, rfl, hhead₁, hlev, hls, hs, hh₁⟩ :=
          h.right _ _ _ _ s hr hf ⟨hh _ _ hi, hne⟩
        have hlast : s₁.last = if i.level.nonassoc then i.level else 0 := by rw [Sql.last, hlev]
        rw [← hlast] at hl
        obtain ⟨s₂, ks, hf₂, rfl, hhead₂, hks, hs', hh₂⟩ := h.loop _ _ _ _ s₁ hl hf₁
          (hhead₁ ▸ Nat.max_lt.2 ⟨Nat.not_le.1 hlim, hhead⟩) hh₁
        refine ⟨s₂, i.lexemes ++ ls ++ ks, hf₂, rfl, hhead₂, ?_, ?_, hh₂⟩
        · rw [hks, hls, List.append_assoc]
        · exact ((readInfix_exact hi).append hs).append hs'

/-- What may stand behind `IS` and its `NOT`. -/
def pIs (n : Nat) (neg : Bool) (a : Sql) (ts : List Lexeme) : Option (Sql × List Lexeme) :=
  match ts with
  | .key .distinct _ :: .key .from _ :: r => do
    let (b, r) ← pExpr n Level.is r
    some (.distinctFrom neg a b, r)
  | _ => do
    let (t, r) ← readTest ts
    some (.is neg t a, r)

theorem pRight_is (n : Nat) (a : Sql) (ts : List Lexeme) :
    (∃ w u, ts = .key .not w :: u ∧ pRight (n + 1) .is a ts = pIs n true a u) ∨
      pRight (n + 1) .is a ts = pIs n false a ts := by
  match ts with
  | .key k w :: u =>
    by_cases hk : k = .not
    · subst hk
      exact .inl ⟨w, u, rfl, rfl⟩
    · right
      cases k <;> first | exact absurd rfl hk | rfl
  | [] | .name _ :: _ | .quoted _ :: _ | .string _ :: _ | .number _ :: _ | .param _ :: _
  | .op _ :: _ | .punct _ :: _ | .subquery _ :: _ | .other :: _ => exact .inr rfl

theorem exact_is (h : Exact n) (neg : Bool) {ts r : List Lexeme} {b : Sql} (s : Sql)
    (he : pIs n neg s.strip ts = some (b, r)) (hf : s.Fits) (hl : s.leftOf Level.is) :
    ∃ (s' : Sql) (ls : List Lexeme), s'.Fits ∧ s'.strip = b ∧ s'.head = max Level.is s.head ∧
      s'.level = Level.is ∧ s'.lexemes = s.lexemes ++ Key.is.lexeme :: (notLexemes neg ++ ls) ∧
      Spelt ls ts r ∧ Halts s'.tail r := by
  unfold pIs at he
  split at he
  · simp only [Option.bind_eq_bind, Option.bind_eq_some_iff, Prod.exists] at he
    obtain ⟨c, u, hc, he⟩ := he
    cases he
    obtain ⟨s₁, hf₁, rfl, hhead, hs, hh⟩ := h.expr _ _ _ _ (by decide) hc
    exact ⟨.distinctFrom neg s s₁, _, ⟨hf, hf₁, hl, hhead⟩, rfl, rfl, rfl, rfl,
      (hs.cons (.key _ _)).cons (.key _ _), hh⟩
  · simp only [Option.bind_eq_bind, Option.bind_eq_some_iff, Prod.exists] at he
    obtain ⟨t, u, ht, he⟩ := he
    cases he
    refine ⟨.is neg t s, [t.lexeme], ⟨hf, hl⟩, rfl, rfl, rfl, rfl, ?_, Halts.zero _⟩
    unfold readTest at ht
    split at ht
    all_goals first
      | (cases ht; exact (Spelt.nil _).cons (.key _ _))
      | cases ht

theorem exact_right (h : Exact n) : ExactRight (n + 1) := by
  intro i ts b r s he hf hl
  cases i with
  | dot =>
    simp only [pRight, Option.bind_eq_bind, Option.bind_eq_some_iff, Prod.exists] at he
    obtain ⟨c, u, hc, he⟩ := he
    cases he
    obtain ⟨s₁, hf₁, rfl, hhead, hs, hh⟩ := h.expr _ _ _ _ (by decide) hc
    exact ⟨.dot s s₁, _, ⟨hf, hf₁, hl, hhead⟩, rfl, rfl, rfl, rfl, hs, hh⟩
  | and =>
    simp only [pRight, Option.bind_eq_bind, Option.bind_eq_some_iff, Prod.exists] at he
    obtain ⟨c, u, hc, he⟩ := he
    cases he
    obtain ⟨s₁, hf₁, rfl, hhead, hs, hh⟩ := h.expr _ _ _ _ (by decide) hc
    exact ⟨.and s s₁, _, ⟨hf, hf₁, hl, hhead⟩, rfl, rfl, rfl, rfl, hs, hh⟩
  | or =>
    simp only [pRight, Option.bind_eq_bind, Option.bind_eq_some_iff, Prod.exists] at he
    obtain ⟨c, u, hc, he⟩ := he
    cases he
    obtain ⟨s₁, hf₁, rfl, hhead, hs, hh⟩ := h.expr _ _ _ _ (by decide) hc
    exact ⟨.or s s₁, _, ⟨hf, hf₁, hl, hhead⟩, rfl, rfl, rfl, rfl, hs, hh⟩
  | op o =>
    simp only [pRight, Option.bind_eq_bind, Option.bind_eq_some_iff, Prod.exists] at he
    obtain ⟨c, u, hc, he⟩ := he
    cases he
    obtain ⟨s₁, hf₁, rfl, hhead, hs, hh⟩ := h.expr _ _ _ _ (opLevel_pos o) hc
    exact ⟨.bin o s s₁, _, ⟨hf, hf₁, hl, hhead⟩, rfl, rfl, rfl, rfl, hs, hh⟩
  | like op neg =>
    simp only [pRight, Option.bind_eq_bind, Option.bind_eq_some_iff, Prod.exists] at he
    obtain ⟨c, u, hc, he⟩ := he
    cases he
    obtain ⟨s₁, hf₁, rfl, hhead, hs, hh⟩ := h.expr _ _ _ _ (by decide) hc
    exact ⟨.like op neg s s₁, _, ⟨hf, hf₁, hl, hhead⟩, rfl, rfl, rfl,
      by simp [Sql.lexemes, Infix.lexemes], hs, hh⟩
  | index =>
    simp only [pRight, Option.bind_eq_bind, Option.bind_eq_some_iff, Prod.exists] at he
    obtain ⟨c, u, hc, v, hv, he⟩ := he
    cases he
    obtain ⟨s₁, hf₁, rfl, -, hs, -⟩ := h.expr _ _ _ _ (by decide) hc
    exact ⟨.index s s₁, _, ⟨hf, hf₁, hl⟩, rfl, rfl, rfl, rfl, hs.append (expect_punct_eq hv),
      Halts.zero _⟩
  | collate =>
    simp only [pRight] at he
    split at he
    · rename_i c u
      cases he
      exact ⟨.collate s c, _, ⟨hf, hl⟩, rfl, rfl, rfl, rfl, (Spelt.nil _).same _, Halts.zero _⟩
    · cases he
  | between neg =>
    simp only [pRight, Option.bind_eq_bind, Option.bind_eq_some_iff, Prod.exists] at he
    obtain ⟨c, u, hc, v, hv, d, w, hd, he⟩ := he
    cases he
    obtain ⟨s₁, hf₁, rfl, hhead₁, hs₁, -⟩ := h.expr _ _ _ _ (by decide) hc
    obtain ⟨s₂, hf₂, rfl, hhead₂, hs₂, hh⟩ := h.expr _ _ _ _ (by decide) hd
    exact ⟨.between neg s s₁ s₂, _, ⟨hf, hf₁, hf₂, hl, hhead₁, hhead₂⟩, rfl, rfl, rfl,
      by simp [Sql.lexemes, Infix.lexemes], hs₁.append ((expect_key_eq hv).append hs₂), hh⟩
  | isIn neg =>
    simp only [pRight] at he
    split at he
    · rename_i q u
      cases he
      exact ⟨.inQuery neg s q, _, ⟨hf, hl⟩, rfl, rfl, rfl, by simp [Sql.lexemes, Infix.lexemes],
        (Spelt.nil _).same (.subquery q), Halts.zero _⟩
    · simp only [Option.bind_eq_bind, Option.bind_eq_some_iff, Prod.exists] at he
      obtain ⟨l, v, hv, he⟩ := he
      cases he
      obtain ⟨ss, hfs, rfl, -, hs⟩ := h.list _ _ _ hv
      exact ⟨.inList neg s ss, _, ⟨hf, hfs, hl⟩, rfl, rfl, rfl,
        by simp [Sql.lexemes, Infix.lexemes], hs.same (.punct '('), Halts.zero _⟩
    · cases he
  | quant o all =>
    simp only [pRight] at he
    split at he
    · rename_i q u
      cases he
      exact ⟨.quantQuery o all s q, _, ⟨hf, hl⟩, rfl, rfl, rfl, rfl,
        (Spelt.nil _).same (.subquery q), Halts.zero _⟩
    · simp only [Option.bind_eq_bind, Option.bind_eq_some_iff, Prod.exists] at he
      obtain ⟨c, u, hc, v, hv, he⟩ := he
      cases he
      obtain ⟨s₁, hf₁, rfl, -, hs, -⟩ := h.expr _ _ _ _ (by decide) hc
      exact ⟨.quant o all s s₁, _, ⟨hf, hf₁, hl⟩, rfl, rfl, rfl, rfl,
        (hs.append (expect_punct_eq hv)).same (.punct '('), Halts.zero _⟩
    · cases he
  | is =>
    rcases pRight_is n s.strip ts with ⟨w, u, rfl, hp⟩ | hp <;> rw [hp] at he
    · obtain ⟨s', ls, hf', hb, hhead, hlev, hlex, hs, hh⟩ := exact_is h true s he hf hl
      exact ⟨s', _, hf', hb, hhead, hlev, hlex, hs.cons (.key _ _), hh⟩
    · obtain ⟨s', ls, hf', hb, hhead, hlev, hlex, hs, hh⟩ := exact_is h false s he hf hl
      exact ⟨s', _, hf', hb, hhead, hlev, hlex, hs, hh⟩

theorem exact_operand (h : Exact n) : ExactOperand (n + 1) := by
  intro ts a r he
  unfold pOperand at he
  split at he
  · cases he
    rename_i v
    exact ⟨.string v, trivial, rfl, rfl, rfl, (Spelt.nil _).same _, Halts.zero _⟩
  · cases he
    rename_i v
    exact ⟨.quoted v, trivial, rfl, rfl, rfl, (Spelt.nil _).same _, Halts.zero _⟩
  · cases he
    rename_i v
    exact ⟨.number v, trivial, rfl, rfl, rfl, (Spelt.nil _).same _, Halts.zero _⟩
  · cases he
    rename_i v
    exact ⟨.param v, trivial, rfl, rfl, rfl, (Spelt.nil _).same _, Halts.zero _⟩
  · cases he
    rename_i q
    exact ⟨.subquery q, trivial, rfl, rfl, rfl, (Spelt.nil _).same _, Halts.zero _⟩
  · rename_i o u
    simp only [Option.bind_eq_bind, Option.bind_eq_some_iff, Prod.exists] at he
    obtain ⟨c, v, hc, he⟩ := he
    cases he
    have hpos : 0 < prefixLevel o := by unfold prefixLevel; split <;> decide
    obtain ⟨s, hf, rfl, hhead, hs, hh⟩ := h.expr _ _ _ _ hpos hc
    exact ⟨.pre o s, ⟨hf, hhead⟩, rfl, rfl, last_pre o s, hs.same (.op o), hh⟩
  · simp only [Option.bind_eq_bind, Option.bind_eq_some_iff, Prod.exists] at he
    obtain ⟨c, v, hc, w, hw, he⟩ := he
    cases he
    obtain ⟨s, hf, rfl, -, hs, -⟩ := h.expr _ _ _ _ (by decide) hc
    exact ⟨.paren s, hf, rfl, rfl, rfl, (hs.append (expect_punct_eq hw)).same (.punct '('),
      Halts.zero _⟩
  · rename_i w u
    obtain ⟨s, ls, hf, hs, hhead, hlast, htail, hls, hsp⟩ := h.name _ _ _ _ he
    exact ⟨s, hf, hs, hhead, hlast, hls ▸ hsp.cons (.word (.inl rfl)), htail ▸ Halts.zero _⟩
  · cases he
    exact ⟨.null, trivial, rfl, rfl, rfl, (Spelt.nil _).cons (.key _ _), Halts.zero _⟩
  · cases he
    exact ⟨.bool true, trivial, rfl, rfl, rfl, (Spelt.nil _).cons (.key _ _), Halts.zero _⟩
  · cases he
    exact ⟨.bool false, trivial, rfl, rfl, rfl, (Spelt.nil _).cons (.key _ _), Halts.zero _⟩
  · simp only [Option.bind_eq_bind, Option.bind_eq_some_iff, Prod.exists] at he
    obtain ⟨c, v, hc, he⟩ := he
    cases he
    obtain ⟨s, hf, rfl, hhead, hs, hh⟩ := h.expr _ _ _ _ (by decide) hc
    exact ⟨.not s, ⟨hf, hhead⟩, rfl, rfl, rfl, hs.cons (.key _ _), hh⟩
  · simp only [Option.bind_eq_bind, Option.bind_eq_some_iff, Prod.exists] at he
    obtain ⟨u, hu, c, v, hc, w, hw, he⟩ := he
    obtain ⟨s, hf, rfl, -, hs, -⟩ := h.expr _ _ _ _ (by decide) hc
    have hty : ∃ x, a = .cast s.strip x ∧ Spelt [(Token.word x).lexeme, .punct ')'] w r := by
      unfold readType at he
      split at he
      · cases he
        rename_i x
        exact ⟨x, rfl, ((Spelt.nil _).same _).cons (.word (.inl rfl))⟩
      · cases he
        rename_i k x
        exact ⟨x, rfl, ((Spelt.nil _).same _).cons (.word (.inr ⟨k, rfl⟩))⟩
      · cases he
    obtain ⟨x, rfl, hx⟩ := hty
    refine ⟨.cast s x, hf, rfl, rfl, rfl, ?_, Halts.zero _⟩
    exact ((expect_punct_eq hu).append (hs.append ((expect_key_eq hw).append hx))).cons (.key _ _)
  · simp only [Option.bind_eq_bind, Option.bind_eq_some_iff, Prod.exists] at he
    obtain ⟨whens, els, u, hc, he⟩ := he
    cases he
    obtain ⟨ws, e, hw, he, rfl, rfl, hs⟩ := h.case _ _ _ _ hc
    exact ⟨.case ws e, ⟨hw, he⟩, rfl, rfl, rfl, hs.cons (.key _ _), Halts.zero _⟩
  · cases he
    rename_i q
    exact ⟨.exists q, trivial, rfl, rfl, rfl, ((Spelt.nil _).same _).cons (.key _ _),
      Halts.zero _⟩
  · rename_i k w u _ _ _ _ _ _ _
    split at he
    · cases he
    · obtain ⟨s, ls, hf, hs, hhead, hlast, htail, hls, hsp⟩ := h.name _ _ _ _ he
      exact ⟨s, hf, hs, hhead, hlast, hls ▸ hsp.cons (.word (.inr ⟨k, rfl⟩)), htail ▸ Halts.zero _⟩
  · cases he

theorem exact_name (h : Exact n) : ExactName (n + 1) := by
  intro w ts a r he
  unfold pName at he
  split at he
  · cases he
    exact ⟨.call w false [], _, trivial, rfl, rfl, rfl, rfl, rfl, ((Spelt.nil _).same _).same _⟩
  · cases he
    exact ⟨.callStar w, _, trivial, rfl, rfl, rfl, rfl, rfl,
      (((Spelt.nil _).same _).same _).same _⟩
  · simp only [Option.bind_eq_bind, Option.bind_eq_some_iff, Prod.exists] at he
    obtain ⟨l, v, hl, he⟩ := he
    cases he
    obtain ⟨ss, hf, rfl, -, hs⟩ := h.list _ _ _ hl
    exact ⟨.call w true ss, _, hf, rfl, rfl, rfl, rfl, rfl,
      (hs.cons (.key .distinct _)).same (.punct '(')⟩
  · simp only [Option.bind_eq_bind, Option.bind_eq_some_iff, Prod.exists] at he
    obtain ⟨l, v, hl, he⟩ := he
    cases he
    obtain ⟨ss, hf, rfl, -, hs⟩ := h.list _ _ _ hl
    exact ⟨.call w false ss, _, hf, rfl, rfl, rfl, rfl, rfl, hs.same (.punct '(')⟩
  · cases he
    exact ⟨.column w, [], trivial, rfl, rfl, rfl, rfl, rfl, Spelt.nil _⟩

theorem exact_list (h : Exact n) : ExactList (n + 1) := by
  intro ts l r he
  simp only [pList, Option.bind_eq_bind, Option.bind_eq_some_iff, Prod.exists] at he
  obtain ⟨a, u, ha, he⟩ := he
  obtain ⟨s, hf, rfl, -, hs, -⟩ := h.expr _ _ _ _ (by decide) ha
  split at he
  · simp only [Option.bind_eq_some_iff, Prod.exists] at he
    obtain ⟨l', v, hl, he⟩ := he
    cases he
    obtain ⟨ss, hfs, rfl, hne, hss⟩ := h.list _ _ _ hl
    obtain ⟨s', ss, rfl⟩ := List.exists_cons_of_ne_nil hne
    refine ⟨s :: s' :: ss, ⟨hf, hfs⟩, rfl, by simp, ?_⟩
    rw [listLexemes, List.append_assoc]
    exact hs.append (hss.same (.punct ','))
  · cases he
    exact ⟨[s], ⟨hf, trivial⟩, rfl, by simp, hs.append ((Spelt.nil _).same _)⟩
  · cases he

theorem exact_case (h : Exact n) : ExactCase (n + 1) := by
  intro ts whens els r he
  simp only [pCase, Option.bind_eq_bind, Option.bind_eq_some_iff, Prod.exists] at he
  obtain ⟨u, hu, c, v, hc, w, hw, a, x, ha, he⟩ := he
  obtain ⟨sc, hfc, rfl, -, hsc, -⟩ := h.expr _ _ _ _ (by decide) hc
  obtain ⟨sa, hfa, rfl, -, hsa, -⟩ := h.expr _ _ _ _ (by decide) ha
  have hwhen := (expect_key_eq hu).append (hsc.append ((expect_key_eq hw).append hsa))
  simp only [List.cons_append, List.nil_append] at hwhen
  split at he
  · cases he
    refine ⟨[(sc, sa)], none, ⟨hfc, hfa, trivial⟩, trivial, rfl, rfl, ?_⟩
    have := hwhen.append ((Spelt.nil r).cons (.key .end _))
    simpa [whenLexemes, elseLexemes] using this
  · simp only [Option.bind_eq_some_iff, Prod.exists] at he
    obtain ⟨e, y, he', z, hz, he⟩ := he
    cases he
    obtain ⟨se, hfe, rfl, -, hse, -⟩ := h.expr _ _ _ _ (by decide) he'
    refine ⟨[(sc, sa)], some se, ⟨hfc, hfa, trivial⟩, hfe, rfl, rfl, ?_⟩
    have := hwhen.append ((hse.append (expect_key_eq hz)).cons (.key .else _))
    simpa [whenLexemes, elseLexemes] using this
  · simp only [Option.bind_eq_some_iff, Prod.exists] at he
    obtain ⟨ws, e, y, hcase, he⟩ := he
    cases he
    obtain ⟨ss, se, hfs, hfe, rfl, rfl, hs⟩ := h.case _ _ _ _ hcase
    refine ⟨(sc, sa) :: ss, se, ⟨hfc, hfa, hfs⟩, hfe, rfl, rfl, ?_⟩
    have := hwhen.append hs
    simpa [whenLexemes] using this

end

theorem exact : (n : Nat) → Exact n
  | 0 => exact_zero
  | n + 1 =>
    have h := exact n
    ⟨exact_expr h, exact_loop h, exact_right h, exact_operand h, exact_name h, exact_list h,
      exact_case h⟩

/-- **Whatever parses is a tree that fits.** -/
theorem parse_exact {ts : List Lexeme} {a : Sql} (h : parse ts = some a) :
    ∃ s : Sql, s.Fits ∧ s.strip = a ∧ List.Forall₂ Alike ts s.lexemes := by
  unfold parse at h
  split at h
  · rename_i hp
    cases h
    obtain ⟨s, hf, hs, -, ⟨pre, hpre, hall⟩, -⟩ := (exact _).expr _ _ _ _ (by decide) hp
    rw [List.append_nil] at hpre
    exact ⟨s, hf, hs, hpre ▸ hall⟩
  · cases h

end Pg
