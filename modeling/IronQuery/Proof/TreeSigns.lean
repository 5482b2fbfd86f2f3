import IronQuery.Proof.TreeEdges

/-!
# Signs of integers

A negative integer is an atom to the renderer, and a prefix operator to PostgreSQL. Of all the
operators only a minus and an index go wrong with it (`Tree.signAt`): the first makes a comment, the
second is tighter. The points next to numbers are left out (`Tree.pointAt`).
-/

namespace IronQuery

open OperatorPrecedence Pg

def Tree.isNegative : Tree → Bool
  | .negative _ => true
  | _ => false

/-- The root puts no point next to a number. -/
def Tree.pointAt : Tree → Bool
  | .dot a b => !a.isNumber && !b.isNumber
  | _ => true

/-- The root puts neither a minus in front of a negative integer nor an index behind one. -/
def Tree.signAt : Tree → Bool
  | .neg a | .index a _ => !a.isNegative
  | _ => true

variable {t : Tree}

/-- Signs that stand alone are no comments. -/
theorem intactAt_of_sign (hp : t.pointAt = true) (hs : t.All (·.signAt = true)) :
    t.intactAt = true := by
  cases t
  case dot a b =>
    simp only [Tree.pointAt, Bool.and_eq_true, Bool.not_eq_true'] at hp
    have hint : b.isInt = false := by cases b <;> first | rfl | exact hp.2
    simp [Tree.intactAt, hp.1, hint]
  case neg a =>
    obtain ⟨hneg, ha⟩ := (all_one rfl).1 hs
    cases a
    case negative n => exact hneg
    case index b c =>
      have hb := ha.root
      cases b
      case negative n => exact hb
      all_goals rfl
    all_goals rfl
  all_goals rfl

/-- An atom or a path of members leaves no sign open, but for a negative integer. -/
theorem edge_member (hn : t.isNegative = false) (hp : t.All (·.pointAt = true))
    (hprec : t.prec.toNat < kIndex.toNat) (hedge : t.edge < Level.not) : t.edge = 0 := by
  have hatom (s : Tree) (hs : s.isNegative = false) (hsym : s.prec = kSymbol)
      (hlt : s.edge < Level.not) : s.edge = 0 := by
    cases s
    case negative n => cases hs
    case «exists» neg q =>
      cases neg
      · rfl
      · exact absurd hlt (Nat.lt_irrefl _)
    case bin op c d => cases op <;> cases hsym
    all_goals first | rfl | cases hsym
  cases t
  case dot a b =>
    have hroot : (!a.isNumber && !b.isNumber) = true := hp.root
    have hb : b.isNegative = false := by
      cases b <;> first | rfl | simp [Tree.isNumber] at hroot
    change edgeIn kDot b.prec b.edge < Level.not at hedge
    show edgeIn kDot b.prec b.edge = 0
    unfold edgeIn at hedge ⊢
    split
    · rfl
    · rename_i hc
      rw [if_neg hc] at hedge
      exact hatom b hb (symbol_of_lt hc) hedge
  case bin op a b => cases op <;> exact absurd hprec (by dsimp only [Tree.prec, BinOp.prec]; decide)
  case qualified table col | castRaw a type => rfl
  all_goals first
    | exact hatom _ hn rfl hedge
    | exact absurd hprec (by dsimp only [Tree.prec]; decide)

/-- The rows in front of which a sign may not be open. -/
theorem left_tight {p : Place} (hp : p ∈ t.left) (h : ¬Level.sign ≤ p.row) :
    (∃ a b, t = .dot a b) ∨ ∃ a b, t = .index a b := by
  cases t
  case dot a b => exact .inl ⟨a, b, rfl⟩
  case index a b => exact .inr ⟨a, b, rfl⟩
  case bin op a b =>
    obtain rfl := List.mem_singleton.1 hp
    exact absurd (by cases op <;> (dsimp only; decide)) h
  case binaryOp op a b =>
    obtain rfl := List.mem_singleton.1 hp
    exact absurd (Nat.le_trans (by decide) (opLevel_cases op).1) h
  case compare op a b =>
    obtain rfl := List.mem_singleton.1 hp
    exact absurd (by cases op <;> (dsimp only; decide)) h
  all_goals simp only [Tree.left, List.mem_singleton, List.not_mem_nil] at hp
  all_goals
    subst hp
    exact absurd (by dsimp only; decide) h

/-- The operand in front of the operator at the root leaves no `NOT` open, or none that is looser. -/
def Tree.notAt (t : Tree) : Bool :=
  t.left.all fun p => !p.bare || p.operand.edge < Level.not || p.operand.edge ≤ p.row

/-- The prefix operators that are looser than a sign are `NOT`s. -/
def Tree.signOrNot (t : Tree) : Bool := t.looseRow ≤ Level.sign || Level.not ≤ t.looseRow

/-- Signs that stand alone and `NOT`s in front of nothing tighter fit. -/
theorem edgesFit_of_sign (hl : t.All (·.signOrNot = true)) (hp : t.All (·.pointAt = true))
    (hrows : t.rowsFit = true) (hsign : t.signAt = true) (hnot : t.notAt = true) :
    t.edgesFit = true := by
  refine List.all_eq_true.2 fun p hm => ?_
  cases hb : p.bare
  · rfl
  · refine decide_eq_true ?_
    have hprec : p.operand.prec.toNat < p.context.toNat := of_decide_eq_true hb
    have hloose : p.operand.All fun s => s.looseRow ≤ Level.sign ∨ Level.not ≤ s.looseRow :=
      (hl.left hm).mono fun s hs => by simpa [Tree.signOrNot] using hs
    have hopen : p.operand.edge < Level.not ∨ p.operand.edge ≤ p.row := by
      simpa [hb] using List.all_eq_true.1 hnot p hm
    rcases hopen with hopen | hopen
    · by_cases hrow : Level.sign ≤ p.row
      · exact Nat.le_trans (p.operand.edge_le_of_lt hloose hopen)
          (Nat.max_le.2 ⟨hrow, bare_le_row hrows hm hb⟩)
      · have hmember (hn : p.operand.isNegative = false)
            (hctx : p.context.toNat ≤ kIndex.toNat) : p.operand.edge ≤ p.row := by
          rw [edge_member hn (hp.left hm) (Nat.lt_of_lt_of_le hprec hctx) hopen]
          exact Nat.zero_le _
        rcases left_tight hm hrow with ⟨a, b, rfl⟩ | ⟨a, b, rfl⟩
        · obtain rfl := List.mem_singleton.1 hm
          have hroot : (!a.isNumber && !b.isNumber) = true := hp.root
          refine hmember ?_ (by dsimp only; decide)
          cases a <;> first | rfl | simp [Tree.isNumber] at hroot
        · obtain rfl := List.mem_singleton.1 hm
          exact hmember (by simpa [Tree.signAt] using hsign) (by dsimp only; decide)
    · exact hopen

/-- Without `NOT`s none is open. -/
theorem notAt_of_loose (hl : t.All (·.looseRow ≤ Level.sign)) (hrows : t.rowsFit = true) :
    t.notAt = true := by
  refine List.all_eq_true.2 fun p hm => ?_
  cases hb : p.bare
  · rfl
  · have hedge := p.operand.edge_le (hl.left hm)
    have hrow := bare_le_row hrows hm hb
    have hor : p.operand.edge < Level.not ∨ p.operand.edge ≤ p.row := by
      rcases Nat.le_total p.operand.prec.toNat Level.sign with h | h
      · rw [Nat.max_eq_left h] at hedge
        exact .inl (Nat.lt_of_le_of_lt hedge (by decide))
      · rw [Nat.max_eq_right h] at hedge
        exact .inr (Nat.le_trans hedge hrow)
    simpa using hor

theorem notAt_of_fits (h : t.edgesFit = true) : t.notAt = true := by
  refine List.all_eq_true.2 fun p hm => ?_
  have hfit := List.all_eq_true.1 h p hm
  simp only [Bool.or_eq_true] at hfit ⊢
  exact hfit.imp .inl id

theorem signAt_of_fits (hi : t.intactAt = true) (hf : t.edgesFit = true) : t.signAt = true := by
  cases t
  case neg a =>
    cases a
    case negative n => exact hi
    all_goals rfl
  case index a b =>
    cases a
    case negative n => exact hf
    all_goals rfl
  all_goals rfl

end IronQuery
