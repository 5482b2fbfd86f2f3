import IronQuery.Pg.Proof.Clauses

/-!
# The tokens of an expression belong to one clause

`IsTerm ts`: no word of `ts` ends a clause, heads a join or a set operation, or says how to sort;
`Sql.isTerm`: so it is with the tokens of every syntax tree. What surrounds an expression in a list
is read off it again: the label of an item (`readItem_tokens`), the direction of a sort term
(`readSort_tokens`), the column of an assignment (`readAssignment_tokens`).
-/

namespace Pg

/-! ## Words that no expression has outside brackets -/

/-- A word that ends the tables of a `FROM` or `USING`. -/
def Key.endsTable : Key → Bool
  | .where | .group | .having | .order | .limit | .offset | .returning | .union | .intersect
  | .except => Bool.true
  | _ => Bool.false

/-- A word that ends a list of terms. -/
def Key.endsClause : Key → Bool
  | .select | .from | .on | .using | .join | .inner | .cross | .left | .right | .full | .natural
  | .with | .into => Bool.true
  | k => k.endsTable

/-- A word that ends an expression. -/
def Key.boundary : Key → Bool
  | .as | .asc | .desc => Bool.true
  | k => k.endsClause

def endsTable (t : Token) : Bool := t.key.any Key.endsTable

def endsList (t : Token) : Bool := t.key.any Key.endsClause

def endsClause (t : Token) : Bool := isComma t || endsList t

def isBoundary (t : Token) : Bool := isComma t || t.key.any Key.boundary

/-- The tokens of an expression, as far as clauses go. -/
structure IsTerm (ts : List Token) : Prop where
  nonempty : ts ≠ []
  passes : Passes isBoundary ts
  head : ∀ t, ts.head? = some t → t.key ≠ some .distinct
  nulls : ∀ r u t, ts = r ++ [u, t] → u.key = some .nulls →
    t.key ≠ some .first ∧ t.key ≠ some .last

section
variable {stop : Token → Bool} {t u : Token} {ts us r : List Token}

theorem boundary_of_endsClause {k : Key} (h : k.endsClause = true) : k.boundary = true := by
  cases k <;> first | rfl | cases h

theorem reserved_of_boundary {k : Key} (h : k.boundary = true) : k.reserved = true := by
  cases k <;> first | rfl | cases h

theorem isBoundary_of_endsClause (h : endsClause t = true) : isBoundary t = true := by
  simp only [endsClause, endsList, isBoundary, Bool.or_eq_true] at h ⊢
  refine h.imp_right fun h => ?_
  obtain ⟨k, hk, hc⟩ := (Option.any_eq_true _ _).1 h
  exact (Option.any_eq_true _ _).2 ⟨k, hk, boundary_of_endsClause hc⟩

theorem endsClause_of_endsTable (h : endsTable t = true) : endsClause t = true := by
  obtain ⟨k, hk, hc⟩ := (Option.any_eq_true _ _).1 h
  simp only [endsClause, endsList, Bool.or_eq_true]
  refine .inr ((Option.any_eq_true _ _).2 ⟨k, hk, ?_⟩)
  cases k <;> first | rfl | cases hc

/-- The heads of clauses are among the words that end one. -/
theorem startsOne_of {heads : List (List Key)} {p : Key → Bool}
    (hh : heads.all (fun h => h.head?.all p) = true) (ht : startsOne heads t = true) :
    t.key.any p = true := by
  obtain ⟨h, hm, hk⟩ := List.any_eq_true.1 ht
  simp only [Bool.and_eq_true, beq_iff_eq, Option.isSome_iff_exists] at hk
  obtain ⟨⟨k, hk⟩, he⟩ := hk
  have := List.all_eq_true.1 hh h hm
  rw [he, hk] at this
  rw [hk]
  exact this

theorem IsTerm.in_clause (h : IsTerm ts) : Passes endsClause ts :=
  h.passes.mono fun _ => isBoundary_of_endsClause

theorem Passes.in_list (h : Passes endsClause ts) : Passes isComma ts :=
  h.mono fun t ht => by simp [endsClause, ht]

/-! ## Syntax trees -/

theorem isBoundary_name {w : Text} (h : isName w = true) :
    isBoundary (.word w) = false ∧ (Token.word w).key ≠ some .distinct := by
  have hk (k : Key) (hk : Key.ofWord w = some k) : k.reserved = false := by
    rw [isName, hk] at h
    simpa using h
  constructor
  · simp only [isBoundary, isComma, Token.key, Bool.or_eq_false_iff]
    refine ⟨by simp, ?_⟩
    cases hw : Key.ofWord w with
    | none => rfl
    | some k =>
      by_contra hb
      have := reserved_of_boundary (k := k) (by simpa using hb)
      rw [hk k hw] at this
      cases this
  · intro he
    have := hk _ he
    cases this

theorem passes_const {ts : List Token} (h : ts.all (fun t => isPlain t && !isBoundary t &&
    t.key != some .distinct) = true) : Passes isBoundary ts := by
  induction ts with
  | nil => exact .nil
  | cons t ts ih =>
    simp only [List.all_cons, Bool.and_eq_true, Bool.not_eq_true', bne_iff_ne] at h
    exact (ih h.2).cons h.1.1.1 h.1.1.2 h.1.2

theorem passes_name {w : Text} (h : isName w = true) (hr : Passes isBoundary r) :
    Passes isBoundary (.word w :: r) :=
  hr.cons rfl (isBoundary_name h).1 (isBoundary_name h).2

theorem passes_not (neg : Bool) : Passes isBoundary (notTokens neg) :=
  passes_const (by cases neg <;> decide)

theorem bracketed_passes (h : Closed ts) : Passes isBoundary (bracketed ts) := .bracketed rfl h

/-- A token of a kind that no clause asks about. -/
theorem Passes.sign (hr : Passes isBoundary r) (t : Token)
    (h : (isPlain t && !isBoundary t && t.key != some .distinct) = true) :
    Passes isBoundary (t :: r) := by
  simp only [Bool.and_eq_true, Bool.not_eq_true', bne_iff_ne] at h
  exact hr.cons h.1.1 h.1.2 h.2

mutual

/-- **The tokens of a syntax tree belong to one clause.** -/
theorem Sql.passes : (s : Sql) → s.Formed → s.Grouped → Passes isBoundary s.tokens
  | .null, _, _ => passes_const (by decide)
  | .bool b, _, _ => passes_const (by cases b <;> decide)
  | .param _, _, _ | .number _, _, _ | .string _, _, _ | .quoted _, _, _ => passes_const rfl
  | .column _, h, _ => passes_name h .nil
  | .callStar _, h, _ => passes_name h (bracketed_passes (closed_const rfl))
  | .subquery _, _, hg => bracketed_passes hg.closed
  | .exists _, _, hg => (bracketed_passes hg.closed).sign _ (by decide)
  | .paren a, _, hg => bracketed_passes (a.closed hg.1)
  | .inQuery neg a _, h, hg => (a.passes h hg.1).append
      ((passes_not neg).append ((bracketed_passes hg.2.closed).sign _ (by decide)))
  | .quantQuery _ all a _, h, hg => (a.passes h hg.1).append
      (((bracketed_passes hg.2.closed).sign _ (by cases all <;> decide)).sign _ rfl)
  | .collate a _, h, hg => (a.passes h hg).append (passes_const rfl)
  | .pre _ a, h, hg => (a.passes h hg).sign _ rfl
  | .not a, h, hg => (a.passes h hg).sign _ (by decide)
  | .is neg t a, h, hg => (a.passes h hg).append
      (((passes_not neg).append (passes_const (by cases t <;> decide))).sign _ (by decide))
  | .cast a w, _, hg => (bracketed_passes ((a.closed hg).append (closed_const rfl))).sign _
      (by decide)
  | .dot a b, h, hg | .bin _ a b, h, hg =>
    (a.passes h.1 hg.1).append ((b.passes h.2 hg.2).sign _ rfl)
  | .and a b, h, hg | .or a b, h, hg =>
    (a.passes h.1 hg.1).append ((b.passes h.2 hg.2).sign _ (by decide))
  | .index a b, h, hg => (a.passes h.1 hg.1).append
      (((b.passes h.2 hg.2).append (passes_const rfl)).sign _ rfl)
  | .like op neg a b, h, hg => (a.passes h.1 hg.1).append ((passes_not neg).append
      ((passes_const (by cases op <;> decide)).append (b.passes h.2 hg.2)))
  | .distinctFrom neg a b, h, hg => (a.passes h.1 hg.1).append
      (((passes_not neg).append (.distinctFrom (by decide) (b.passes h.2 hg.2))).sign _ (by decide))
  | .quant _ all a b, h, hg => (a.passes h.1 hg.1).append
      (((bracketed_passes (b.closed hg.2.1)).sign _ (by cases all <;> decide)).sign _ rfl)
  | .between neg a b c, h, hg => (a.passes h.1 hg.1).append ((passes_not neg).append
      (((b.passes h.2.1 hg.2.1).append ((c.passes h.2.2 hg.2.2).sign _ (by decide))).sign _
        (by decide)))
  | .inList neg a l, h, hg => (a.passes h.1 hg.1).append ((passes_not neg).append
      ((bracketed_passes (closed_list l hg.2.1)).sign _ (by decide)))
  | .call _ d l, h, hg => passes_name h.1 (bracketed_passes
      (.append (by cases d <;> exact closed_const (by decide)) (closed_list l hg.2)))
  | .case whens els, h, hg => ((passes_whens whens h.1 hg.1).append
      ((passes_else els h.2.1 hg.2).append (passes_const (by decide)))).sign _ (by decide)

theorem passes_whens : (l : List (Sql × Sql)) → formedWhens l → groupedWhens l →
    Passes isBoundary (whenTokens l)
  | [], _, _ => .nil
  | (c, a) :: l, h, hg => ((c.passes h.1 hg.1).append (((a.passes h.2.1 hg.2.1).append
      (passes_whens l h.2.2 hg.2.2)).sign _ (by decide))).sign _ (by decide)

theorem passes_else : (o : Option Sql) → formedElse o → groupedElse o →
    Passes isBoundary (elseTokens o)
  | none, _, _ => .nil
  | some e, h, hg => (e.passes h hg).sign _ (by decide)

end

/-! ### The first token -/

/-- The first token is there, and is not `DISTINCT`. -/
def Opening (ts : List Token) : Prop := ∃ t r, ts = t :: r ∧ t.key ≠ some .distinct

theorem Opening.append (h : Opening ts) (us : List Token) : Opening (ts ++ us) := by
  obtain ⟨t, r, rfl, ht⟩ := h
  exact ⟨t, r ++ us, rfl, ht⟩

theorem Opening.of (h : t.key ≠ some .distinct) (ts : List Token) : Opening (t :: ts) :=
  ⟨t, ts, rfl, h⟩

theorem Sql.opening : (s : Sql) → s.Formed → Opening s.tokens
  | .null, _ => .of (by decide) _
  | .bool b, _ => .of (by cases b <;> decide) _
  | .param _, _ | .number _, _ | .string _, _ | .quoted _, _ | .subquery _, _ | .paren _, _
  | .pre _ _, _ => .of (by simp [Token.key]) _
  | .column _, h | .callStar _, h => .of (isBoundary_name h).2 _
  | .call _ _ _, h => .of (isBoundary_name h.1).2 _
  | .exists _, _ | .not _, _ | .cast _ _, _ | .case _ _, _ => .of (by decide) _
  | .collate a _, h | .is _ _ a, h | .inQuery _ a _, h | .quantQuery _ _ a _, h =>
    (a.opening h).append _
  | .dot a _, h | .index a _, h | .bin _ a _, h | .between _ a _ _, h | .like _ _ a _, h
  | .inList _ a _, h | .quant _ _ a _, h | .distinctFrom _ a _, h | .and a _, h | .or a _, h =>
    (a.opening h.1).append _

/-! ### The last two tokens -/

/-- The tokens do not end in `NULLS FIRST` or `NULLS LAST`. -/
def Unsorted (ts : List Token) : Prop :=
  ∀ r u t, ts = r ++ [u, t] → u.key = some .nulls → t.key ≠ some .first ∧ t.key ≠ some .last

theorem Unsorted.last (h : t.key ≠ some .first ∧ t.key ≠ some .last) (ts : List Token) :
    Unsorted (ts ++ [t]) := by
  intro r u x he _
  rw [show r ++ [u, x] = (r ++ [u]) ++ [x] by simp] at he
  obtain ⟨-, he⟩ := List.append_inj' he rfl
  cases he
  exact h

theorem Unsorted.single (t : Token) : Unsorted [t] := by
  intro r u x he
  cases r with
  | nil => cases he
  | cons y r => cases r <;> cases he

/-- Behind a token that is not `NULLS`. -/
theorem Unsorted.behind (h : Unsorted ts) (hne : ts ≠ []) (ht : t.key ≠ some .nulls)
    (us : List Token) : Unsorted (us ++ t :: ts) := by
  intro r u x he hu
  obtain ⟨a, y, rfl⟩ : ∃ a y, ts = a ++ [y] := ⟨_, _, (List.dropLast_append_getLast hne).symm⟩
  rw [show us ++ t :: (a ++ [y]) = (us ++ t :: a) ++ [y] by simp,
    show r ++ [u, x] = (r ++ [u]) ++ [x] by simp] at he
  obtain ⟨hi, hl⟩ := List.append_inj' he rfl
  cases hl
  cases a using List.reverseRec with
  | nil =>
    rw [show us ++ [t] = us ++ [t] from rfl] at hi
    obtain ⟨-, hi⟩ := List.append_inj' hi rfl
    cases hi
    exact absurd hu ht
  | append_singleton a z =>
    rw [show us ++ t :: (a ++ [z]) = (us ++ t :: a) ++ [z] by simp] at hi
    obtain ⟨-, hi⟩ := List.append_inj' hi rfl
    cases hi
    exact h a u x (by simp) hu

theorem Unsorted.ends {p : List Token} (h : t.key ≠ some .first ∧ t.key ≠ some .last)
    (he : ts = p ++ [t]) : Unsorted ts := he ▸ Unsorted.last h p

theorem Unsorted.brackets {p : List Token} (he : ts = p ++ bracketed r) : Unsorted ts :=
  Unsorted.ends (t := .punct ')') (p := p ++ .punct '(' :: r) (by simp [Token.key])
    (by rw [he, bracketed]; simp)

theorem Sql.nonempty {s : Sql} (h : s.Formed) : s.tokens ≠ [] := by
  obtain ⟨t, r, he, -⟩ := s.opening h
  rw [he]
  exact List.cons_ne_nil _ _

/-- Behind an operand's last connective. -/
theorem Unsorted.operand {s : Sql} {p : List Token} (h : Unsorted s.tokens) (hf : s.Formed)
    (ht : t.key ≠ some .nulls) (he : ts = p ++ t :: s.tokens) : Unsorted ts :=
  he ▸ h.behind (Sql.nonempty hf) ht p

theorem Sql.unsorted : (s : Sql) → s.Formed → Unsorted s.tokens
  | .null, _ | .bool _, _ | .param _, _ | .number _, _ | .string _, _ | .quoted _, _
  | .column _, _ => .single _
  | .callStar f, _ => .brackets (p := [.word f]) rfl
  | .call f _ _, _ => .brackets (p := [.word f]) rfl
  | .subquery _, _ | .paren _, _ => .brackets (p := []) rfl
  | .exists _, _ => .brackets (p := [Key.exists.token]) rfl
  | .cast _ _, _ => .brackets (p := [Key.cast.token]) rfl
  | .inQuery neg a ts, _ => .brackets (r := ts)
      (p := a.tokens ++ (notTokens neg ++ [Key.in.token])) (by simp [Sql.tokens])
  | .inList neg a l, _ => .brackets (r := listTokens l)
      (p := a.tokens ++ (notTokens neg ++ [Key.in.token])) (by simp [Sql.tokens])
  | .quantQuery o all a ts, _ => .brackets (r := ts)
      (p := a.tokens ++ [.op o, quantToken all]) (by simp [Sql.tokens])
  | .quant o all a b, _ => .brackets (r := b.tokens)
      (p := a.tokens ++ [.op o, quantToken all]) (by simp [Sql.tokens])
  | .collate a c, _ => .ends (t := .quotedIdent c) (p := a.tokens ++ [Key.collate.token])
      (by simp [Token.key]) (by simp [Sql.tokens])
  | .index a b, _ => .ends (t := .punct ']') (p := a.tokens ++ .punct '[' :: b.tokens)
      (by simp [Token.key]) (by simp [Sql.tokens])
  | .is neg t a, _ => .ends (t := t.token) (p := a.tokens ++ Key.is.token :: notTokens neg)
      (by cases t <;> decide) (by simp [Sql.tokens])
  | .case whens els, _ => .ends (t := Key.end.token)
      (p := Key.case.token :: (whenTokens whens ++ elseTokens els)) (by decide)
      (by simp [Sql.tokens])
  | .pre o a, h => (a.unsorted h).operand (p := []) (t := .op o) h (by simp [Token.key]) rfl
  | .not a, h => (a.unsorted h).operand (p := []) (t := Key.not.token) h (by decide) rfl
  | .dot _ b, h | .bin _ _ b, h =>
    (b.unsorted h.2).operand h.2 (by simp [Token.key]) rfl
  | .and _ b, h | .or _ b, h => (b.unsorted h.2).operand h.2 (by decide) rfl
  | .between neg a b c, h => (c.unsorted h.2.2).operand h.2.2 (t := Key.and.token)
      (p := a.tokens ++ (notTokens neg ++ Key.between.token :: b.tokens)) (by decide)
      (by simp [Sql.tokens])
  | .distinctFrom neg a b, h => (b.unsorted h.2).operand h.2 (t := Key.from.token)
      (p := a.tokens ++ Key.is.token :: (notTokens neg ++ [Key.distinct.token])) (by decide)
      (by simp [Sql.tokens])
  | .like .like neg a b, h => (b.unsorted h.2).operand h.2 (t := Key.like.token)
      (p := a.tokens ++ notTokens neg) (by decide) (by simp [Sql.tokens, LikeOp.tokens])
  | .like .ilike neg a b, h => (b.unsorted h.2).operand h.2 (t := Key.ilike.token)
      (p := a.tokens ++ notTokens neg) (by decide) (by simp [Sql.tokens, LikeOp.tokens])
  | .like .similarTo neg a b, h => (b.unsorted h.2).operand h.2 (t := Key.to.token)
      (p := a.tokens ++ (notTokens neg ++ [Key.similar.token])) (by decide)
      (by simp [Sql.tokens, LikeOp.tokens])

/-- **The tokens of a syntax tree are a term's.** -/
theorem Sql.isTerm {s : Sql} (h : s.Formed) (hg : s.Grouped) : IsTerm s.tokens where
  nonempty := Sql.nonempty h
  passes := s.passes h hg
  head t ht := by
    obtain ⟨u, r, he, hu⟩ := s.opening h
    rw [he] at ht
    cases ht
    exact hu
  nulls := s.unsorted h

/-! ## What surrounds a term -/

variable {τ : Type} {term : List Token → Option τ} {a b : τ}

/-- The items of a list, as tokens. -/
def Item.tokens (i : Item (List Token)) : List Token :=
  i.expr ++ i.label.elim [] fun t => [Key.as.token, t]

/-- What may be a label: no word that says anything to a clause. -/
def isPlainLabel (t : Token) : Bool :=
  isLabel t && !isBoundary t && t.key != some .distinct

theorem readItem_tokens {label : Option Token} (h : IsTerm ts) (ha : term ts = some a)
    (hl : label.all isPlainLabel = true) :
    readItem term (Item.tokens ⟨ts, label⟩) = some ⟨a, label⟩ := by
  have hs : Passes (fun t => t.key == some .as) ts := h.passes.mono fun t ht => by
    rw [isBoundary, beq_iff_eq.1 ht]
    exact Bool.or_true _
  cases label with
  | none =>
    rw [Item.tokens, Option.elim_none, List.append_nil, readItem, hs.outside_nil]
    simp only [ha, Option.map_some]
  | some t =>
    simp only [Option.all_some, isPlainLabel, Bool.and_eq_true] at hl
    rw [Item.tokens, Option.elim_some, readItem, hs.outside_cons (by decide)]
    simp only [hl.1.1, if_true, ha, Option.map_some]

theorem passes_item {label : Option Token} (h : IsTerm ts) (hl : label.all isPlainLabel = true) :
    Passes endsClause (Item.tokens ⟨ts, label⟩) := by
  refine h.in_clause.append ?_
  cases label with
  | none => exact .nil
  | some t =>
    simp only [Option.all_some, isPlainLabel, Bool.and_eq_true, Bool.not_eq_true', bne_iff_ne] at hl
    have hp : isPlain t = true := by
      cases t <;> first | rfl | cases hl.1.1
    have he : endsClause t = false := by
      by_contra hne
      rw [isBoundary_of_endsClause (by simpa using hne)] at hl
      exact absurd hl.1.2 (by decide)
    exact (Passes.nil.cons hp he hl.2).cons (by decide) (by decide) (by decide)

def NullsPlace.token : NullsPlace → Token
  | first => Key.first.token
  | last => Key.last.token

def descTokens (d : Bool) : List Token := if d then [Key.desc.token] else []

def nullsTokens (n : Option NullsPlace) : List Token :=
  n.elim [] fun n => [Key.nulls.token, n.token]

/-- A sort term of a list, as tokens. -/
def SortTerm.tokens (s : SortTerm (List Token)) : List Token :=
  s.expr ++ (descTokens s.descending ++ nullsTokens s.nulls)

theorem readNulls_none (h : Unsorted ts) : readNulls ts = (ts, none) := by
  unfold readNulls
  split
  · rename_i t u r he
    have he : ts = r.reverse ++ [u, t] := by
      rw [← List.reverse_reverse ts, he]
      simp
    split
    · rename_i hu
      obtain ⟨h1, h2⟩ := h _ _ _ he hu
      rw [if_neg h1, if_neg h2]
    · rfl
  · rfl

theorem readNulls_some (ts : List Token) (n : NullsPlace) :
    readNulls (ts ++ [Key.nulls.token, n.token]) = (ts, some n) := by
  have hr : (ts ++ [Key.nulls.token, n.token]).reverse =
      n.token :: Key.nulls.token :: ts.reverse := by simp
  unfold readNulls
  rw [hr]
  simp only [key_token, if_true, List.reverse_reverse]
  cases n
  · rw [if_pos (by decide)]
  · rw [if_neg (by decide), if_pos (by decide)]

/-- The last token of a part does not end it. -/
theorem Passes.getLast (h : Passes stop ts) {t : Token} (ht : ts.getLast? = some t)
    (hc : t ≠ .punct ')') (hf : t.key ≠ some .from) : stop t = false := by
  obtain ⟨us, rfl⟩ := List.getLast?_eq_some_iff.1 ht
  rw [Passes, Spot.run_append, Option.bind_eq_some_iff] at h
  obtain ⟨p, -, h⟩ := h
  rw [Spot.run] at h
  split at h
  · rename_i hk
    have hd : p.depth = 0 := by
      have hn : p.next t = .top := by simpa [Spot.run] using h
      rw [Spot.next, if_neg hc] at hn
      split at hn
      · exact absurd (congrArg Spot.depth hn) (Nat.succ_ne_zero _)
      · exact congrArg Spot.depth hn
    simpa [Spot.keeps, hd, hc, hf] using hk
  · cases h

theorem readDirection_none (h : IsTerm ts) : readDirection ts = (ts, false) := by
  unfold readDirection
  split
  · rename_i t ht
    have hb (k : Key) (hk : t.key = some k) (hkb : k.boundary = true) (hkf : k ≠ .from) : False := by
      have hc : t ≠ .punct ')' := by
        rintro rfl
        cases hk
      have := h.passes.getLast ht hc (by rw [hk]; simpa using hkf)
      rw [isBoundary, hk, Option.any_some, hkb, Bool.or_true] at this
      cases this
    rw [if_neg fun hk => hb _ hk rfl (by decide), if_neg fun hk => hb _ hk rfl (by decide)]
  · rfl

theorem readSort_tokens (h : IsTerm ts) (ha : term ts = some a) (d : Bool) (n : Option NullsPlace) :
    readSort term (SortTerm.tokens ⟨ts, d, n⟩) = some ⟨a, d, n⟩ := by
  have hdir : readDirection (ts ++ descTokens d) = (ts, d) := by
    cases d with
    | false =>
      rw [descTokens, if_neg Bool.false_ne_true, List.append_nil]
      exact readDirection_none h
    | true =>
      rw [descTokens, if_pos rfl, readDirection, List.getLast?_concat]
      simp only [key_token, if_true, List.dropLast_concat]
  have hnulls : readNulls (SortTerm.tokens ⟨ts, d, n⟩) = (ts ++ descTokens d, n) := by
    rw [SortTerm.tokens, ← List.append_assoc]
    cases n with
    | some n => exact readNulls_some _ n
    | none =>
      rw [nullsTokens, Option.elim_none, List.append_nil]
      refine readNulls_none ?_
      cases d with
      | false =>
        rw [descTokens, if_neg Bool.false_ne_true, List.append_nil]
        exact h.nulls
      | true => exact .last (by decide) ts
  rw [readSort, hnulls]
  simp only [hdir, ha, Option.map_some]

theorem passes_sort (h : IsTerm ts) (d : Bool) (n : Option NullsPlace) :
    Passes endsClause (SortTerm.tokens ⟨ts, d, n⟩) := by
  have hd : Passes endsClause (descTokens d) := by cases d <;> decide
  have hn : Passes endsClause (nullsTokens n) := by
    cases n with
    | none => exact .nil
    | some n => cases n <;> decide
  exact h.in_clause.append (hd.append hn)

/-- An assignment of a list, as tokens. -/
def assignmentTokens (p : List Token × List Token) : List Token := p.1 ++ .op "=".toList :: p.2

/-- A column that something is assigned to: there is no equality in it. -/
def isTarget (ts : List Token) : Prop := Passes (· == .op "=".toList) ts

theorem readAssignment_tokens (ht : isTarget ts) (ha : term ts = some a) (hb : term us = some b) :
    readAssignment term (assignmentTokens (ts, us)) = some (a, b) := by
  rw [assignmentTokens, readAssignment, ht.outside_cons (by decide)]
  simp only [ha, hb, Option.bind_eq_bind, Option.bind_some]
  rfl

theorem passes_assignment (ht : IsTerm ts) (hu : IsTerm us) :
    Passes endsClause (assignmentTokens (ts, us)) :=
  ht.in_clause.append (hu.in_clause.cons rfl (by decide) (by decide))

/-! ## Lists -/

variable {α : Type} {rd : List Token → Option α} {l : List (List Token)} {as : List α}

/-- The tokens of an entry of a list, which are read as `a`. -/
structure Entry (rd : List Token → Option α) (ts : List Token) (a : α) : Prop where
  passes : Passes endsClause ts
  read : rd ts = some a

theorem entries_pass (h : List.Forall₂ (Entry rd) l as) : ∀ ts ∈ l, Passes endsClause ts := by
  induction h with
  | nil => exact List.forall_mem_nil _
  | cons hx _ ih => exact List.forall_mem_cons.2 ⟨hx.passes, ih⟩

theorem mapM_entries (h : List.Forall₂ (Entry rd) l as) : l.mapM rd = some as := by
  induction h with
  | nil => rfl
  | cons hx _ ih => rw [List.mapM_cons, hx.read, ih]; rfl

/-- **The entries of a list are read back.** -/
theorem read_csv (hne : l ≠ []) (h : List.Forall₂ (Entry rd) l as) :
    (terms .top (csv l)).mapM rd = some as := by
  rw [terms_csv hne fun ts hts => (entries_pass h ts hts).in_list, mapM_entries h]

theorem csv_passes (h : List.Forall₂ (Entry rd) l as) : Passes endsList (csv l) := by
  refine passes_csv (fun ts hts => (entries_pass h ts hts).mono fun t ht => ?_) rfl
  rw [endsClause, ht, Bool.or_true]

theorem readRow_csv (hne : l ≠ []) (h : List.Forall₂ (Entry rd) l as) :
    readRow rd (bracketed (csv l)) = some as := by
  have hup : upTo 0 (csv l ++ [.punct ')']) = some (csv l, []) := (csv_passes h).closed.upTo []
  rw [bracketed, readRow, hup]
  exact read_csv hne h

theorem row_entry (hne : l ≠ []) (h : List.Forall₂ (Entry rd) l as) :
    Entry (readRow rd) (bracketed (csv l)) as :=
  ⟨.bracketed rfl (csv_passes h).closed, readRow_csv hne h⟩

end

end Pg
