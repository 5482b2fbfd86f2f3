import IronQuery.Pg.Proof.Exact

/-!
# A tree is known by its brackets

`Sql.same`: a tree is known by where its brackets stand (`shape`) and by what it is without them.
An operand ends where its number of lexemes does (`split_tree`), and a bracket at both ends of a
tree is one around it (`paren_ne`), since the brackets in a tree are balanced.

With `parse_exact`, `parse_iff`: **the lexemes of a tree parse to what the tree is without its
brackets, if and only if it fits.**
-/

namespace Pg

/-! ## Brackets are balanced -/

/-- The depth after the brackets of `l`, from the depth `n`; none where one closes too early. -/
def depth : Nat → List Shape → Option Nat
  | n, [] => some n
  | n, .opening :: l => depth (n + 1) l
  | n, .plain :: l => depth n l
  | 0, .closing :: _ => none
  | n + 1, .closing :: l => depth n l

theorem depth_append (l r : List Shape) (n : Nat) :
    depth n (l ++ r) = (depth n l).bind fun m => depth m r := by
  induction l generalizing n with
  | nil => rfl
  | cons x l ih =>
    cases x with
    | opening => exact ih _
    | plain => exact ih _
    | closing =>
      cases n with
      | zero => rfl
      | succ n => exact ih _

theorem depth_succ {l : List Shape} {n m : Nat} (h : depth n l = some m) :
    depth (n + 1) l = some (m + 1) := by
  induction l generalizing n with
  | nil => rw [← Option.some.inj h]; rfl
  | cons x l ih =>
    cases x with
    | opening | plain => exact ih h
    | closing =>
      cases n with
      | zero => cases h
      | succ n => exact ih h

/-- Every bracket of `l` is closed in it. -/
def Balanced (l : List Shape) : Prop := ∀ n, depth n l = some n

/-- What stands in brackets does not start with something balanced. -/
theorem Balanced.not_prefix {l p q : List Shape} (hl : Balanced l) (hp : Balanced p) (hne : p ≠ [])
    (hq : q ≠ []) : .opening :: (l ++ [.closing]) ≠ p ++ q := by
  intro he
  obtain ⟨x, p', rfl⟩ := List.exists_cons_of_ne_nil hne
  rw [List.cons_append, List.cons.injEq] at he
  obtain ⟨rfl, he⟩ := he
  rw [← List.dropLast_append_getLast hq, ← List.append_assoc] at he
  have hpre : l = p' ++ q.dropLast := (List.append_inj' he rfl).1
  -- a start of what is balanced has a depth, and one more behind the bracket
  have h0 := hl 0
  rw [hpre, depth_append, Option.bind_eq_some_iff] at h0
  obtain ⟨m, hm, -⟩ := h0
  have h1 := hp 0
  rw [depth, depth_succ hm] at h1
  cases h1

/-! ## The shape of a tree -/

@[simp] theorem shape_opening : shape (.punct '(') = .opening := rfl

@[simp] theorem shape_closing : shape (.punct ')') = .closing := rfl

@[simp] theorem shape_punct {c : Char} (h : c ≠ '(') (h' : c ≠ ')') :
    shape (.punct c) = .plain := by
  rw [shape, if_neg h, if_neg h']

@[simp] theorem shape_key (k : Key) : shape k.lexeme = .plain := rfl

@[simp] theorem shape_op (o : Text) : shape (.op o) = .plain := rfl

@[simp] theorem shape_quoted (v : Text) : shape (.quoted v) = .plain := rfl

@[simp] theorem shape_subquery (ts : List Token) : shape (.subquery ts) = .plain := rfl

@[simp] theorem shape_word (w : Text) : shape (Token.word w).lexeme = .plain := by
  simp only [Token.lexeme]
  cases Key.ofWord w <;> rfl

@[simp] theorem shape_quant (all : Bool) : shape (quantLexeme all) = .plain := by
  cases all <;> rfl

@[simp] theorem shape_test (t : Test) : shape t.lexeme = .plain := by cases t <;> rfl

mutual

theorem Sql.depth_lexemes (n : Nat) (r : List Shape) : (s : Sql) →
    depth n (s.lexemes.map shape ++ r) = depth n r
  | .bool b => by cases b <;> rfl
  | .null | .param _ | .number _ | .string _ | .column _ | .quoted _ | .subquery _
  | .callStar _ | .exists _ => by
    simp [Sql.lexemes, depth, show ∀ n, shape (.number n) = .plain from fun _ => rfl,
      show ∀ n, shape (.param n) = .plain from fun _ => rfl,
      show ∀ n, shape (.string n) = .plain from fun _ => rfl]
  | .paren a | .collate a _ | .pre _ a | .quantQuery _ _ a _ | .not a | .cast a _ => by
    simp [Sql.lexemes, depth, a.depth_lexemes]
  | .dot a b | .index a b | .bin _ a b | .quant _ _ a b | .and a b | .or a b => by
    simp [Sql.lexemes, depth, a.depth_lexemes, b.depth_lexemes]
  | .inQuery neg a _ | .is neg _ a => by
    cases neg <;> simp [Sql.lexemes, depth, a.depth_lexemes, notLexemes]
  | .distinctFrom neg a b => by
    cases neg <;> simp [Sql.lexemes, depth, a.depth_lexemes, b.depth_lexemes, notLexemes]
  | .like op neg a b => by
    cases op <;> cases neg <;>
      simp [Sql.lexemes, LikeOp.lexemes, depth, a.depth_lexemes, b.depth_lexemes, notLexemes]
  | .between neg a b c => by
    cases neg <;>
      simp [Sql.lexemes, depth, a.depth_lexemes, b.depth_lexemes, c.depth_lexemes, notLexemes]
  | .inList neg a l => by
    cases neg <;>
      simp [Sql.lexemes, depth, a.depth_lexemes, depth_listLexemes _ _ l, notLexemes]
  | .call _ d l => by
    cases d <;> simp [Sql.lexemes, depth, depth_listLexemes _ _ l]
  | .case whens els => by
    simp [Sql.lexemes, depth, depth_whenLexemes _ _ whens, depth_elseLexemes _ _ els]

theorem depth_listLexemes (n : Nat) (r : List Shape) : (l : List Sql) →
    depth n ((listLexemes l).map shape ++ r) = depth n r
  | [] => by simp [listLexemes]
  | [a] => by simp [listLexemes, a.depth_lexemes]
  | a :: b :: l => by
    simp [listLexemes, depth, a.depth_lexemes, depth_listLexemes _ _ (b :: l)]

theorem depth_whenLexemes (n : Nat) (r : List Shape) : (l : List (Sql × Sql)) →
    depth n ((whenLexemes l).map shape ++ r) = depth n r
  | [] => by simp [whenLexemes]
  | (c, a) :: l => by
    simp [whenLexemes, depth, c.depth_lexemes, a.depth_lexemes, depth_whenLexemes _ _ l]

theorem depth_elseLexemes (n : Nat) (r : List Shape) : (o : Option Sql) →
    depth n ((elseLexemes o).map shape ++ r) = depth n r
  | none => by simp [elseLexemes]
  | some e => by simp [elseLexemes, depth, e.depth_lexemes]

end

theorem Sql.balanced (s : Sql) : Balanced (s.lexemes.map shape) := fun n => by
  have := s.depth_lexemes n []
  rwa [List.append_nil] at this

/-! ## What the brackets do not change -/

section
variable (f : Lexeme → Nat)

/-- The sum of `f` over the lexemes. -/
def measure (ls : List Lexeme) : Nat := (ls.map f).sum

@[simp] theorem measure_nil : measure f [] = 0 := rfl

@[simp] theorem measure_cons (x : Lexeme) (ls : List Lexeme) :
    measure f (x :: ls) = f x + measure f ls := by simp [measure]

@[simp] theorem measure_append (ls ks : List Lexeme) :
    measure f (ls ++ ks) = measure f ls + measure f ks := by simp [measure]

/-- The brackets do not count. -/
def Blind : Prop := f (.punct '(') = 0 ∧ f (.punct ')') = 0

variable {f}

mutual

theorem Sql.measure_strip (h : Blind f) : (s : Sql) → measure f s.lexemes = measure f s.strip.lexemes
  | .bool _ | .null | .param _ | .number _ | .string _ | .column _ | .quoted _ | .subquery _
  | .callStar _ | .exists _ => by simp [Sql.strip]
  | .paren a => by simp [Sql.lexemes, Sql.strip, h.1, h.2, a.measure_strip h]
  | .collate a _ | .pre _ a | .quantQuery _ _ a _ | .not a | .cast a _ | .inQuery _ a _
  | .is _ _ a => by
    simp [Sql.lexemes, Sql.strip, a.measure_strip h]
  | .dot a b | .index a b | .bin _ a b | .quant _ _ a b | .and a b | .or a b
  | .distinctFrom _ a b | .like _ _ a b => by
    simp [Sql.lexemes, Sql.strip, a.measure_strip h, b.measure_strip h]
  | .between _ a b c => by
    simp [Sql.lexemes, Sql.strip, a.measure_strip h, b.measure_strip h, c.measure_strip h]
  | .inList _ a l => by
    simp [Sql.lexemes, Sql.strip, a.measure_strip h, measure_stripList h l]
  | .call _ _ l => by simp [Sql.lexemes, Sql.strip, measure_stripList h l]
  | .case whens els => by
    simp [Sql.lexemes, Sql.strip, measure_stripWhens h whens, measure_stripElse h els]

theorem measure_stripList (h : Blind f) : (l : List Sql) →
    measure f (listLexemes l) = measure f (listLexemes (stripList l))
  | [] => rfl
  | [a] => by simp [listLexemes, stripList, a.measure_strip h]
  | a :: b :: l => by
    have := measure_stripList h (b :: l)
    simp only [stripList] at this
    simp [listLexemes, stripList, a.measure_strip h, this]

theorem measure_stripWhens (h : Blind f) : (l : List (Sql × Sql)) →
    measure f (whenLexemes l) = measure f (whenLexemes (stripWhens l))
  | [] => rfl
  | (c, a) :: l => by
    simp [whenLexemes, stripWhens, c.measure_strip h, a.measure_strip h, measure_stripWhens h l]

theorem measure_stripElse (h : Blind f) : (o : Option Sql) →
    measure f (elseLexemes o) = measure f (elseLexemes (stripElse o))
  | none => rfl
  | some e => by simp [elseLexemes, stripElse, e.measure_strip h]

end

end

/-! ## A tree is known by its shape -/

/-- The lexemes that are no brackets. -/
def plains (ls : List Lexeme) : Nat := measure (fun x => if shape x = .plain then 1 else 0) ls

theorem count_plain (ls : List Lexeme) : (ls.map shape).count .plain = plains ls := by
  induction ls with
  | nil => rfl
  | cons x ls ih =>
    rw [List.map_cons, List.count_cons, ih, plains, plains, measure_cons, Nat.add_comm]
    simp only [beq_iff_eq]

theorem split_plain {x x' y y' : List Shape} (h : x ++ .plain :: y = x' ++ .plain :: y')
    (hc : x.count .plain = x'.count .plain) : x = x' ∧ y = y' := by
  induction x generalizing x' with
  | nil =>
    cases x' with
    | nil => exact ⟨rfl, (List.cons.inj h).2⟩
    | cons z x' =>
      obtain ⟨rfl, -⟩ := List.cons.inj h
      simp at hc
  | cons z x ih =>
    cases x' with
    | nil =>
      obtain ⟨rfl, -⟩ := List.cons.inj h
      simp at hc
    | cons z' x' =>
      obtain ⟨rfl, h'⟩ := List.cons.inj h
      obtain ⟨rfl, rfl⟩ := ih h' (by simpa [List.count_cons] using hc)
      exact ⟨rfl, rfl⟩

/-- An operand ends where its number of lexemes does. -/
theorem split_tree {a a' : Sql} {y y' : List Shape}
    (h : a.lexemes.map shape ++ .plain :: y = a'.lexemes.map shape ++ .plain :: y')
    (e : a.strip = a'.strip) : a.lexemes.map shape = a'.lexemes.map shape ∧ y = y' := by
  refine split_plain h ?_
  have hs (s : Sql) : plains s.lexemes = plains s.strip.lexemes :=
    Sql.measure_strip ⟨rfl, rfl⟩ s
  rw [count_plain, count_plain, hs, hs a', e]

@[simp] theorem LikeOp.lexemes_ne_nil (op : LikeOp) : op.lexemes ≠ [] := by
  cases op <;> simp [LikeOp.lexemes]

/-- An operand with a fragment and something else behind it. -/
theorem split_fragment {a a' : Sql} {x : List Lexeme} {y y' : List Shape}
    (hx : ∃ z, x.map shape = .plain :: z)
    (h : a.lexemes.map shape ++ (x.map shape ++ y) = a'.lexemes.map shape ++ (x.map shape ++ y'))
    (e : a.strip = a'.strip) : a.lexemes.map shape = a'.lexemes.map shape ∧ y = y' := by
  obtain ⟨z, hz⟩ := hx
  rw [hz] at h
  obtain ⟨ha, hr⟩ := split_tree h e
  exact ⟨ha, List.append_cancel_left hr⟩

theorem not_plain (neg : Bool) {x : List Lexeme} (hx : ∃ z, x.map shape = .plain :: z) :
    ∃ z, (notLexemes neg ++ x).map shape = .plain :: z := by
  cases neg
  · exact hx
  · exact ⟨_, rfl⟩

theorem Sql.lexemes_ne_nil (s : Sql) : s.lexemes ≠ [] := by
  cases s <;> simp [Sql.lexemes]

/-- Only a bracketed tree starts and ends with one bracket. -/
theorem paren_ne {a s : Sql} (hs : ∀ b, s ≠ .paren b) :
    (Sql.paren a).lexemes.map shape ≠ s.lexemes.map shape := by
  intro h
  simp only [Sql.lexemes, List.map_cons, List.map_append, List.map_nil, shape_opening,
    shape_closing] at h
  have infix_ne (b : Sql) (q : List Lexeme) (hq : q ≠ []) (hb : s.lexemes = b.lexemes ++ q) :
      False := by
    rw [hb, List.map_append] at h
    exact a.balanced.not_prefix b.balanced (by simpa using b.lexemes_ne_nil) (by simpa using hq) h
  cases s with
  | paren b => exact hs b rfl
  | dot b _ | index b _ | collate b _ | bin _ b _ | between _ b _ _ | like _ _ b _ | inList _ b _
  | inQuery _ b _ | quant _ _ b _ | quantQuery _ _ b _ | is _ _ b | distinctFrom _ b _ | and b _
  | or b _ =>
    exact infix_ne b _ (by simp) rfl
  | bool b => cases b <;> cases h
  | column _ | call _ _ _ | callStar _ =>
    simp only [Sql.lexemes, List.map_cons, shape_word, List.map_nil] at h
    cases h
  | _ => cases h

theorem strip_ctor {s : Sql} (hs : ∀ b, s ≠ .paren b) : s.strip.ctorIdx = s.ctorIdx := by
  cases s <;> first | rfl | exact absurd rfl (hs _)

/-- Two trees of one shape that are the same without brackets are the same form. -/
theorem ctor_eq {s s' : Sql} (h : s.lexemes.map shape = s'.lexemes.map shape)
    (e : s.strip = s'.strip) (hs : ∀ b, s ≠ .paren b) : s.ctorIdx = s'.ctorIdx := by
  have hs' : ∀ b, s' ≠ .paren b := fun b hb => paren_ne hs (hb ▸ h.symm)
  rw [← strip_ctor hs, e, strip_ctor hs']

/-- `s` is the only tree of its shape that is the same without brackets. -/
def SameAs (s : Sql) : Prop :=
  ∀ s' : Sql, s.lexemes.map shape = s'.lexemes.map shape → s.strip = s'.strip → s = s'

def SameList (l : List Sql) : Prop :=
  ∀ l', (listLexemes l).map shape = (listLexemes l').map shape → stripList l = stripList l' → l = l'

section
variable {a b c : Sql}

theorem same_dot (ha : SameAs a) (hb : SameAs b) : SameAs (.dot a b) :=
  fun s' h e => match s', h, e, ctor_eq h e nofun with
  | .dot a' b', h, e, _ => by
    obtain ⟨ea, eb⟩ := Sql.dot.inj e
    simp only [Sql.lexemes, List.map_append, List.map_cons] at h
    obtain ⟨sa, sb⟩ := split_tree h ea
    rw [ha a' sa ea, hb b' sb eb]

theorem same_bin (o : Text) (ha : SameAs a) (hb : SameAs b) : SameAs (.bin o a b) :=
  fun s' h e => match s', h, e, ctor_eq h e nofun with
  | .bin o' a' b', h, e, _ => by
    obtain ⟨rfl, ea, eb⟩ := Sql.bin.inj e
    simp only [Sql.lexemes, List.map_append, List.map_cons] at h
    obtain ⟨sa, sb⟩ := split_tree h ea
    rw [ha a' sa ea, hb b' sb eb]

theorem same_and (ha : SameAs a) (hb : SameAs b) : SameAs (.and a b) :=
  fun s' h e => match s', h, e, ctor_eq h e nofun with
  | .and a' b', h, e, _ => by
    obtain ⟨ea, eb⟩ := Sql.and.inj e
    simp only [Sql.lexemes, List.map_append, List.map_cons] at h
    obtain ⟨sa, sb⟩ := split_tree h ea
    rw [ha a' sa ea, hb b' sb eb]

theorem same_or (ha : SameAs a) (hb : SameAs b) : SameAs (.or a b) :=
  fun s' h e => match s', h, e, ctor_eq h e nofun with
  | .or a' b', h, e, _ => by
    obtain ⟨ea, eb⟩ := Sql.or.inj e
    simp only [Sql.lexemes, List.map_append, List.map_cons] at h
    obtain ⟨sa, sb⟩ := split_tree h ea
    rw [ha a' sa ea, hb b' sb eb]

theorem same_index (ha : SameAs a) (hb : SameAs b) : SameAs (.index a b) :=
  fun s' h e => match s', h, e, ctor_eq h e nofun with
  | .index a' b', h, e, _ => by
    obtain ⟨ea, eb⟩ := Sql.index.inj e
    simp only [Sql.lexemes, List.map_append, List.map_cons] at h
    obtain ⟨sa, sb⟩ := split_tree h ea
    rw [ha a' sa ea, hb b' (List.append_cancel_right sb) eb]

theorem same_collate (c : Text) (ha : SameAs a) : SameAs (.collate a c) :=
  fun s' h e => match s', h, e, ctor_eq h e nofun with
  | .collate a' c', h, e, _ => by
    obtain ⟨ea, rfl⟩ := Sql.collate.inj e
    simp only [Sql.lexemes, List.map_append] at h
    rw [ha a' (List.append_cancel_right h) ea]

theorem same_pre (o : Text) (ha : SameAs a) : SameAs (.pre o a) :=
  fun s' h e => match s', h, e, ctor_eq h e nofun with
  | .pre o' a', h, e, _ => by
    obtain ⟨rfl, ea⟩ := Sql.pre.inj e
    rw [ha a' (List.cons.inj h).2 ea]

theorem same_not (ha : SameAs a) : SameAs (.not a) :=
  fun s' h e => match s', h, e, ctor_eq h e nofun with
  | .not a', h, e, _ => by
    rw [ha a' (List.cons.inj h).2 (Sql.not.inj e)]

theorem same_between (neg : Bool) (ha : SameAs a) (hb : SameAs b) (hc : SameAs c) :
    SameAs (.between neg a b c) := fun s' h e => match s', h, e, ctor_eq h e nofun with
  | .between neg' a' b' c', h, e, _ => by
    obtain ⟨rfl, ea, eb, ec⟩ := Sql.between.inj e
    obtain ⟨sa, sr⟩ := split_fragment (x := notLexemes neg ++ [Key.between.lexeme])
      (not_plain neg ⟨_, rfl⟩) (by simpa only [Sql.lexemes, List.map_append, List.map_cons,
        List.map_nil, List.append_assoc, List.cons_append, List.nil_append] using h) ea
    obtain ⟨sb, sc⟩ := split_tree sr eb
    rw [ha a' sa ea, hb b' sb eb, hc c' sc ec]

theorem same_like (op : LikeOp) (neg : Bool) (ha : SameAs a) (hb : SameAs b) :
    SameAs (.like op neg a b) := fun s' h e => match s', h, e, ctor_eq h e nofun with
  | .like op' neg' a' b', h, e, _ => by
    obtain ⟨rfl, rfl, ea, eb⟩ := Sql.like.inj e
    obtain ⟨sa, sb⟩ := split_fragment (x := notLexemes neg ++ op.lexemes)
      (not_plain neg (by cases op <;> exact ⟨_, rfl⟩)) (by simpa only [Sql.lexemes,
        List.map_append, List.append_assoc] using h) ea
    rw [ha a' sa ea, hb b' sb eb]

theorem same_inList (neg : Bool) (ha : SameAs a) {l : List Sql} (hl : SameList l) :
    SameAs (.inList neg a l) := fun s' h e => match s', h, e, ctor_eq h e nofun with
  | .inList neg' a' l', h, e, _ => by
    obtain ⟨rfl, ea, el⟩ := Sql.inList.inj e
    obtain ⟨sa, sl⟩ := split_fragment (x := notLexemes neg ++ [Key.in.lexeme, .punct '('])
      (not_plain neg ⟨_, rfl⟩) (by simpa only [Sql.lexemes, List.map_append, List.map_cons,
        List.map_nil, List.append_assoc, List.cons_append, List.nil_append] using h) ea
    rw [ha a' sa ea, hl l' (List.append_cancel_right sl) el]

theorem same_inQuery (neg : Bool) (q : List Token) (ha : SameAs a) : SameAs (.inQuery neg a q) :=
  fun s' h e => match s', h, e, ctor_eq h e nofun with
  | .inQuery neg' a' q', h, e, _ => by
    obtain ⟨rfl, ea, rfl⟩ := Sql.inQuery.inj e
    simp only [Sql.lexemes, List.map_append] at h
    rw [ha a' (List.append_cancel_right h) ea]

theorem same_quant (o : Text) (all : Bool) (ha : SameAs a) (hb : SameAs b) :
    SameAs (.quant o all a b) := fun s' h e => match s', h, e, ctor_eq h e nofun with
  | .quant o' all' a' b', h, e, _ => by
    obtain ⟨rfl, rfl, ea, eb⟩ := Sql.quant.inj e
    obtain ⟨sa, sb⟩ := split_fragment (x := [.op o, quantLexeme all, .punct '(']) ⟨_, rfl⟩
      (by simpa only [Sql.lexemes, List.map_append, List.map_cons, List.map_nil,
        List.cons_append, List.nil_append] using h) ea
    rw [ha a' sa ea, hb b' (List.append_cancel_right sb) eb]

theorem same_quantQuery (o : Text) (all : Bool) (q : List Token) (ha : SameAs a) :
    SameAs (.quantQuery o all a q) := fun s' h e => match s', h, e, ctor_eq h e nofun with
  | .quantQuery o' all' a' q', h, e, _ => by
    obtain ⟨rfl, rfl, ea, rfl⟩ := Sql.quantQuery.inj e
    simp only [Sql.lexemes, List.map_append] at h
    rw [ha a' (List.append_cancel_right h) ea]

theorem same_is (neg : Bool) (t : Test) (ha : SameAs a) : SameAs (.is neg t a) :=
  fun s' h e => match s', h, e, ctor_eq h e nofun with
  | .is neg' t' a', h, e, _ => by
    obtain ⟨rfl, rfl, ea⟩ := Sql.is.inj e
    simp only [Sql.lexemes, List.map_append] at h
    rw [ha a' (List.append_cancel_right h) ea]

theorem same_distinctFrom (neg : Bool) (ha : SameAs a) (hb : SameAs b) :
    SameAs (.distinctFrom neg a b) := fun s' h e => match s', h, e, ctor_eq h e nofun with
  | .distinctFrom neg' a' b', h, e, _ => by
    obtain ⟨rfl, ea, eb⟩ := Sql.distinctFrom.inj e
    obtain ⟨sa, sb⟩ := split_fragment (x := Key.is.lexeme :: (notLexemes neg ++
        [Key.distinct.lexeme, Key.from.lexeme])) ⟨_, rfl⟩
      (by simpa only [Sql.lexemes, List.map_append, List.map_cons, List.map_nil,
        List.append_assoc, List.cons_append, List.nil_append] using h) ea
    rw [ha a' sa ea, hb b' sb eb]

theorem same_cast (w : Text) (ha : SameAs a) : SameAs (.cast a w) :=
  fun s' h e => match s', h, e, ctor_eq h e nofun with
  | .cast a' w', h, e, _ => by
    obtain ⟨ea, rfl⟩ := Sql.cast.inj e
    simp only [Sql.lexemes, List.map_append, List.map_cons, List.cons.injEq, true_and] at h
    rw [ha a' (List.append_cancel_right h) ea]

theorem same_call (f : Text) (d : Bool) {l : List Sql} (hl : SameList l) : SameAs (.call f d l) :=
  fun s' h e => match s', h, e, ctor_eq h e nofun with
  | .call f' d' l', h, e, _ => by
    obtain ⟨rfl, rfl, el⟩ := Sql.call.inj e
    simp only [Sql.lexemes, List.map_append, List.map_cons, List.cons.injEq, true_and] at h
    rw [hl l' (List.append_cancel_right (List.append_cancel_left h)) el]

theorem same_paren (ha : SameAs a) : SameAs (.paren a) := by
  intro s' h e
  by_cases hs : ∃ b, s' = .paren b
  · obtain ⟨b, rfl⟩ := hs
    simp only [Sql.lexemes, List.map_cons, List.map_append, List.cons.injEq, true_and] at h
    rw [ha b (List.append_cancel_right h) e]
  · exact absurd h (paren_ne fun b hb => hs ⟨b, hb⟩)

/-- The branches of a `CASE`, in front of a key word. -/
theorem same_whens : {l l' : List (Sql × Sql)} → {y y' : List Shape} →
    (∀ c a, (c, a) ∈ l → SameAs c ∧ SameAs a) → (∃ z, y = .plain :: z) →
    (∃ z, y' = .plain :: z) → (whenLexemes l).map shape ++ y = (whenLexemes l').map shape ++ y' →
    stripWhens l = stripWhens l' → l = l' ∧ y = y'
  | [], [], _, _, _, _, _, h, _ => ⟨rfl, h⟩
  | [], (_, _) :: _, _, _, _, _, _, _, e | (_, _) :: _, [], _, _, _, _, _, _, e => by cases e
  | (c, a) :: l, (c', a') :: l', y, y', hs, hy, hy', h, e => by
    obtain ⟨eca, el⟩ := List.cons.inj e
    obtain ⟨ec, ea⟩ := Prod.mk.inj eca
    obtain ⟨hc, ha⟩ := hs c a (.head _)
    simp only [whenLexemes, List.map_append, List.map_cons, List.cons_append, List.append_assoc,
      List.cons.injEq, true_and] at h
    obtain ⟨sc, h⟩ := split_tree h ec
    -- a key word follows the result of a branch
    have hplain (l : List (Sql × Sql)) (y : List Shape) (hy : ∃ z, y = .plain :: z) :
        ∃ z, (whenLexemes l).map shape ++ y = .plain :: z := by
      cases l with
      | nil => exact hy
      | cons w l => exact ⟨_, rfl⟩
    obtain ⟨z, hz⟩ := hplain l y hy
    obtain ⟨z', hz'⟩ := hplain l' y' hy'
    rw [hz, hz'] at h
    obtain ⟨sa, h⟩ := split_tree h ea
    obtain ⟨rfl, hyy⟩ := same_whens (fun c a hm => hs c a (.tail _ hm)) hy hy'
      (by rw [hz, hz', h]) el
    rw [hc c' sc ec, ha a' sa ea]
    exact ⟨rfl, hyy⟩

theorem same_case {whens : List (Sql × Sql)} {els : Option Sql}
    (hw : ∀ c a, (c, a) ∈ whens → SameAs c ∧ SameAs a) (he : ∀ x, els = some x → SameAs x) :
    SameAs (.case whens els) := fun s' h e => match s', h, e, ctor_eq h e nofun with
  | .case whens' els', h, e, _ => by
    obtain ⟨ew, ee⟩ := Sql.case.inj e
    simp only [Sql.lexemes, List.map_append, List.map_cons, List.cons.injEq, true_and] at h
    have hend (o : Option Sql) : ∃ z, (elseLexemes o).map shape ++ [shape Key.end.lexeme] =
        .plain :: z := by cases o <;> exact ⟨_, rfl⟩
    obtain ⟨rfl, h'⟩ := same_whens hw (hend els) (hend els') h ew
    have helse : els = els' := by
      cases els with
      | none =>
        cases els' with
        | none => rfl
        | some x => cases ee
      | some x =>
        cases els' with
        | none => cases ee
        | some x' =>
          have hx := (List.cons.inj (List.append_cancel_right h')).2
          rw [he x rfl x' hx (Option.some.inj ee)]
    rw [helse]

end

mutual

/-- **A tree is known by where its brackets stand, and by what it is without them.** -/
theorem Sql.same : (s : Sql) → SameAs s
  | .null => fun s' h e => match s', e, ctor_eq h e nofun with
    | .null, _, _ => rfl
  | .bool _ => fun s' h e => match s', e, ctor_eq h e nofun with
    | .bool _, e, _ => e
  | .param _ => fun s' h e => match s', e, ctor_eq h e nofun with
    | .param _, e, _ => e
  | .number _ => fun s' h e => match s', e, ctor_eq h e nofun with
    | .number _, e, _ => e
  | .string _ => fun s' h e => match s', e, ctor_eq h e nofun with
    | .string _, e, _ => e
  | .column _ => fun s' h e => match s', e, ctor_eq h e nofun with
    | .column _, e, _ => e
  | .quoted _ => fun s' h e => match s', e, ctor_eq h e nofun with
    | .quoted _, e, _ => e
  | .subquery _ => fun s' h e => match s', e, ctor_eq h e nofun with
    | .subquery _, e, _ => e
  | .callStar _ => fun s' h e => match s', e, ctor_eq h e nofun with
    | .callStar _, e, _ => e
  | .exists _ => fun s' h e => match s', e, ctor_eq h e nofun with
    | .exists _, e, _ => e
  | .paren a => same_paren a.same
  | .dot a b => same_dot a.same b.same
  | .index a b => same_index a.same b.same
  | .collate a c => same_collate c a.same
  | .pre o a => same_pre o a.same
  | .bin o a b => same_bin o a.same b.same
  | .between neg a b c => same_between neg a.same b.same c.same
  | .like op neg a b => same_like op neg a.same b.same
  | .inList neg a l => same_inList neg a.same (same_list l)
  | .inQuery neg a q => same_inQuery neg q a.same
  | .quant o all a b => same_quant o all a.same b.same
  | .quantQuery o all a q => same_quantQuery o all q a.same
  | .is neg t a => same_is neg t a.same
  | .distinctFrom neg a b => same_distinctFrom neg a.same b.same
  | .not a => same_not a.same
  | .and a b => same_and a.same b.same
  | .or a b => same_or a.same b.same
  | .cast a w => same_cast w a.same
  | .call f d l => same_call f d (same_list l)
  | .case whens els => same_case (same_branches whens) (same_default els)

theorem same_list : (l : List Sql) → SameList l
  | [], [], _, _ => rfl
  | [], _ :: _, _, e | _ :: _, [], _, e => by cases e
  | [a], [a'], h, e => by
    rw [a.same a' h (List.cons.inj e).1]
  | [_], _ :: _ :: _, _, e | _ :: _ :: _, [_], _, e => by cases (List.cons.inj e).2
  | a :: b :: l, a' :: b' :: l', h, e => by
    obtain ⟨ea, el⟩ := List.cons.inj e
    simp only [listLexemes, List.map_append, List.map_cons] at h
    obtain ⟨sa, sl⟩ := split_tree h ea
    rw [a.same a' sa ea, same_list (b :: l) (b' :: l') sl el]

theorem same_branches : (l : List (Sql × Sql)) → ∀ c a, (c, a) ∈ l → SameAs c ∧ SameAs a
  | [], _, _, h => nomatch h
  | (c, a) :: l, _, _, h => by
    rcases List.mem_cons.1 h with h | h
    · cases h
      exact ⟨c.same, a.same⟩
    · exact same_branches l _ _ h

theorem same_default : (o : Option Sql) → ∀ x, o = some x → SameAs x
  | none, _, h => nomatch h
  | some x, _, h => Option.some.inj h ▸ x.same

end

/-! ## Exactness -/

theorem shapes_eq {ts ls : List Lexeme} (h : List.Forall₂ Alike ts ls) :
    ts.map shape = ls.map shape := by
  induction h with
  | nil => rfl
  | cons hx _ ih => rw [List.map_cons, List.map_cons, hx.shape, ih]

theorem ink_le {ts ls : List Lexeme} (h : List.Forall₂ Alike ts ls) :
    measure Lexeme.ink ls ≤ measure Lexeme.ink ts := by
  induction h with
  | nil => exact Nat.le_refl _
  | cons hx _ ih =>
    rw [measure_cons, measure_cons]
    exact Nat.add_le_add hx.ink ih

/-- **The lexemes of a tree parse to what the tree is without its brackets, if and only if it
fits.** -/
theorem parse_iff {s : Sql} (h : s.Formed) : parse s.lexemes = some s.strip ↔ s.Fits := by
  refine ⟨fun hp => ?_, parse_lexemes h⟩
  obtain ⟨s', hf, hs, hall⟩ := parse_exact hp
  rwa [s.same s' (shapes_eq hall) hs.symm]

theorem bulk_eq {ts ls : List Lexeme} (h : List.Forall₂ Alike ts ls) :
    measure Lexeme.bulk ts = measure Lexeme.bulk ls := by
  induction h with
  | nil => rfl
  | cons hx _ ih => rw [measure_cons, measure_cons, hx.bulk, ih]

theorem blind_bulk : Blind Lexeme.bulk := ⟨rfl, rfl⟩

/-- No tree is read from more lexemes than it has, nor from fewer. -/
theorem bulk_of_parse {ts : List Lexeme} {a : Sql} (h : parse ts = some a) :
    measure Lexeme.bulk ts = measure Lexeme.bulk a.lexemes := by
  obtain ⟨s, -, rfl, hall⟩ := parse_exact h
  rw [bulk_eq hall]
  exact s.measure_strip blind_bulk

/-- No tree is read from fewer digits and points than it has. -/
theorem ink_of_parse {ts : List Lexeme} {a : Sql} (h : parse ts = some a) :
    measure Lexeme.ink a.lexemes ≤ measure Lexeme.ink ts := by
  obtain ⟨s, -, rfl, hall⟩ := parse_exact h
  rw [← s.measure_strip ⟨rfl, rfl⟩]
  exact ink_le hall

end Pg
