import IronQuery.Pg.Proof.Unique
import IronQuery.Pg.Subquery
import IronQuery.Pg.Tokens

/-!
# The subqueries of a tree's tokens

`Sql.Grouped`: the queries in the tree are queries, functions have names that may be called, and no
bracket stands around nothing but a subquery.

`Sql.units_tokens`: the tokens of such a tree, every subquery as one, are its lexemes. It rests on
`Sql.closed` (the brackets in a tree's tokens match) and `Sql.isQuery_tokens` (only a subquery
starts like a query in brackets and ends there).
-/

namespace Pg

/-! ## Matching brackets -/

/-- The brackets of `ts` match: a search for a closing bracket goes past it. -/
def Closed (ts : List Token) : Prop :=
  ∀ d r, upTo d (ts ++ r) = (upTo d r).map fun p => (ts ++ p.1, p.2)

theorem Closed.nil : Closed [] := fun d r => by
  rw [List.nil_append]
  exact Option.map_id'.symm ▸ rfl

theorem Closed.append {ts us : List Token} (ht : Closed ts) (hu : Closed us) : Closed (ts ++ us) :=
  fun d r => by
    rw [List.append_assoc, ht, hu, Option.map_map]
    simp only [Function.comp_def, List.append_assoc]

/-- A token that is no bracket. -/
def isPlain : Token → Bool
  | .punct c => c != '(' && c != ')'
  | _ => true

theorem upTo_plain {t : Token} (h : isPlain t = true) (d : Nat) (ts : List Token) :
    upTo d (t :: ts) = (upTo d ts).map fun p => (t :: p.1, p.2) := by
  cases t with
  | punct c =>
    simp only [isPlain, Bool.and_eq_true, bne_iff_ne, ne_eq] at h
    rw [upTo, if_neg h.1, if_neg h.2]
  | _ => rw [upTo]; exact nofun

theorem upTo_open (d : Nat) (ts : List Token) :
    upTo d (.punct '(' :: ts) = (upTo (d + 1) ts).map fun p => (.punct '(' :: p.1, p.2) := by
  rw [upTo, if_pos rfl]

theorem upTo_close (d : Nat) (ts : List Token) :
    upTo (d + 1) (.punct ')' :: ts) = (upTo d ts).map fun p => (.punct ')' :: p.1, p.2) := by
  rw [upTo, if_neg (by decide), if_pos rfl, if_neg (Nat.succ_ne_zero d), Nat.add_sub_cancel]

theorem upTo_end (ts : List Token) : upTo 0 (.punct ')' :: ts) = some ([], ts) := by
  rw [upTo, if_neg (by decide), if_pos rfl, if_pos rfl]

theorem Closed.cons {t : Token} {ts : List Token} (h : isPlain t = true) (ht : Closed ts) :
    Closed (t :: ts) := fun d r => by
  rw [List.cons_append, upTo_plain h, ht, Option.map_map]
  rfl

theorem Closed.bracketed {ts : List Token} (h : Closed ts) : Closed (bracketed ts) := fun d r => by
  rw [Pg.bracketed, List.cons_append, upTo_open, List.append_assoc, h, List.cons_append, upTo_close]
  simp only [Option.map_map, Function.comp_def, List.nil_append, List.append_assoc, List.cons_append]

theorem Closed.upTo {ts : List Token} (h : Closed ts) (r : List Token) :
    Pg.upTo 0 (ts ++ .punct ')' :: r) = some (ts, r) := by
  rw [h, upTo_end, Option.map_some, List.append_nil]

theorem closed_from {ts y : List Token} {d : Nat}
    (h : upTo d (ts ++ .punct ')' :: y) = some (ts, y)) (e : Nat) (r : List Token) :
    upTo (d + e) (ts ++ r) = (upTo e r).map fun p => (ts ++ p.1, p.2) := by
  induction ts generalizing d with
  | nil =>
    cases d with
    | zero => rw [Nat.zero_add]; exact Closed.nil e r
    | succ d =>
      rw [List.nil_append, upTo_close, Option.map_eq_some_iff] at h
      obtain ⟨_, _, he⟩ := h
      cases he
  | cons t ts ih =>
    rw [List.cons_append] at h ⊢
    by_cases ho : t = .punct '('
    · subst ho
      rw [upTo_open, Option.map_eq_some_iff] at h
      obtain ⟨⟨x, z⟩, hx, he⟩ := h
      cases he
      rw [upTo_open, Nat.add_right_comm, ih hx, Option.map_map]
      rfl
    · by_cases hc : t = .punct ')'
      · subst hc
        cases d with
        | zero => rw [upTo_end] at h; cases h
        | succ d =>
          rw [upTo_close, Option.map_eq_some_iff] at h
          obtain ⟨⟨x, z⟩, hx, he⟩ := h
          cases he
          rw [Nat.add_right_comm, upTo_close, ih hx, Option.map_map]
          rfl
      · have hp : isPlain t = true := by
          cases t with
          | punct c =>
            simp only [isPlain, Bool.and_eq_true, bne_iff_ne]
            exact ⟨fun e => ho (by rw [e]), fun e => hc (by rw [e])⟩
          | _ => rfl
        rw [upTo_plain hp, Option.map_eq_some_iff] at h
        obtain ⟨⟨x, z⟩, hx, he⟩ := h
        cases he
        rw [upTo_plain hp, ih hx, Option.map_map]
        rfl

/-- What ends where a closing bracket is found has matching brackets. -/
theorem closed_of_upTo {ts y : List Token} (h : upTo 0 (ts ++ .punct ')' :: y) = some (ts, y)) :
    Closed ts := fun d r => by
  have := closed_from h d r
  rwa [Nat.zero_add] at this

theorem upTo_eq {d : Nat} {ts x r : List Token} (h : upTo d ts = some (x, r)) :
    ts = x ++ .punct ')' :: r := by
  induction ts generalizing d x with
  | nil => cases d <;> cases h
  | cons t ts ih =>
    have hstep {d' : Nat} (h : (upTo d' ts).map (fun p => (t :: p.1, p.2)) = some (x, r)) :
        t :: ts = x ++ .punct ')' :: r := by
      rw [Option.map_eq_some_iff] at h
      obtain ⟨⟨y, z⟩, hy, he⟩ := h
      cases he
      rw [ih hy]
      rfl
    cases t with
    | punct c =>
      rw [upTo] at h
      split at h
      · exact hstep h
      · split at h
        · rename_i hc
          split at h
          · cases h
            rw [hc]
            rfl
          · exact hstep h
        · exact hstep h
    | _ => rw [upTo] at h; exacts [hstep h, nofun]

/-! ## Queries -/

theorem isQueryAux_eq : (n m : Nat) → (ts : List Token) → ts.length < n → ts.length < m →
    isQueryAux n ts = isQueryAux m ts
  | n + 1, m + 1, [], _, _ => rfl
  | n + 1, m + 1, .word w :: r, _, _ => rfl
  | n + 1, m + 1, .punct c :: r, hn, hm => by
    rw [isQueryAux, isQueryAux]
    cases h : upTo 0 r with
    | none => rfl
    | some p =>
      obtain ⟨inner, rest⟩ := p
      have hlen := congrArg List.length (upTo_eq h)
      simp only [List.length_append, List.length_cons] at hlen hn hm
      simp only [isQueryAux_eq n m inner (by omega) (by omega)]
  | n + 1, m + 1, .quotedIdent _ :: r, _, _ | n + 1, m + 1, .string _ :: r, _, _
  | n + 1, m + 1, .special _ _ :: r, _, _ | n + 1, m + 1, .number _ :: r, _, _
  | n + 1, m + 1, .param _ :: r, _, _ | n + 1, m + 1, .op _ :: r, _, _
  | n + 1, m + 1, .comment :: r, _, _ | n + 1, m + 1, .unterminated :: r, _, _ => rfl

/-- A bracket starts a query if a query stands in it and what follows goes on from there. -/
theorem isQuery_bracketed {ts : List Token} (h : Closed ts) (r : List Token) :
    isQuery (bracketed ts ++ r) = (isQuery ts && goesOn r) := by
  have hcons : bracketed ts ++ r = .punct '(' :: (ts ++ .punct ')' :: r) := by
    simp [bracketed]
  rw [hcons, isQuery, isQueryAux]
  simp only [beq_self_eq_true, Bool.true_and, h.upTo]
  have hlen : ts.length < (Token.punct '(' :: (ts ++ .punct ')' :: r)).length := by
    rw [List.length_cons, List.length_append]
    omega
  rw [isQuery, isQueryAux_eq _ (ts.length + 1) ts hlen (Nat.lt_succ_self _)]

/-- A query whose brackets match. -/
structure Query (ts : List Token) : Prop where
  closed : Closed ts
  isQuery : isQuery ts = true

/-! ## The grouping of tokens -/

/-- The grouping goes on behind a token that may be called, or not. -/
def unitsFrom (callee : Bool) (ts : List Token) : List Lexeme := unitsAux ts.length callee ts

theorem unitsAux_eq (n m : Nat) (callee : Bool) (ts : List Token) (hn : ts.length ≤ n)
    (hm : ts.length ≤ m) : unitsAux n callee ts = unitsAux m callee ts := by
  induction n generalizing m callee ts with
  | zero =>
    obtain rfl := List.length_eq_zero_iff.1 (Nat.le_zero.1 hn)
    cases m <;> rfl
  | succ n ih =>
    cases ts with
    | nil => cases m <;> rfl
    | cons t ts =>
      cases m with
      | zero => cases hm
      | succ m =>
        rw [List.length_cons] at hn hm
        rw [unitsAux, unitsAux, ih m _ ts (by omega) (by omega), ih m _ ts (by omega) (by omega)]
        split
        · cases h : upTo 0 ts with
          | none => rfl
          | some p =>
            obtain ⟨inner, rest⟩ := p
            have hlen := congrArg List.length (upTo_eq h)
            simp only [List.length_append, List.length_cons] at hlen
            simp only [ih m _ rest (by omega) (by omega)]
        · rfl

theorem unitsFrom_nil (callee : Bool) : unitsFrom callee [] = [] := rfl

/-- A token that opens no subquery. -/
theorem unitsFrom_cons {callee : Bool} {t : Token} (h : t ≠ .punct '(' ∨ callee = true)
    (ts : List Token) : unitsFrom callee (t :: ts) = t.lexeme :: unitsFrom (isCallee t) ts := by
  rw [unitsFrom, List.length_cons, unitsAux, if_neg]
  · rfl
  · rintro ⟨rfl, rfl⟩
    rcases h with h | h
    · exact h rfl
    · cases h

/-- What may be called matters to a bracket only. -/
theorem unitsFrom_flag {ts : List Token} (h : ts.head? ≠ some (.punct '(')) (callee : Bool) :
    unitsFrom callee ts = unitsFrom false ts := by
  cases ts with
  | nil => rfl
  | cons t ts =>
    have ht : t ≠ .punct '(' := fun e => h (by rw [e]; rfl)
    rw [unitsFrom_cons (.inl ht), unitsFrom_cons (.inl ht)]

theorem unitsFrom_query {ts : List Token} (h : Query ts) (r : List Token) :
    unitsFrom false (bracketed ts ++ r) = .subquery ts :: unitsFrom false r := by
  have hcons : bracketed ts ++ r = .punct '(' :: (ts ++ .punct ')' :: r) := by
    simp [bracketed]
  rw [hcons, unitsFrom, List.length_cons, unitsAux, if_pos ⟨rfl, rfl⟩, h.closed.upTo]
  simp only [h.isQuery, if_true]
  rw [unitsAux_eq _ r.length false r (by simp; omega) (Nat.le_refl _), unitsFrom]

theorem unitsFrom_open {ts : List Token} (hc : Closed ts) (hq : isQuery ts = false)
    (r : List Token) : unitsFrom false (bracketed ts ++ r) =
      .punct '(' :: unitsFrom false (ts ++ .punct ')' :: r) := by
  have hcons : bracketed ts ++ r = .punct '(' :: (ts ++ .punct ')' :: r) := by
    simp [bracketed]
  rw [hcons, unitsFrom, List.length_cons, unitsAux, if_pos ⟨rfl, rfl⟩, hc.upTo]
  simp only [hq, Bool.false_eq_true, if_false]
  rfl

/-! ## Trees -/

mutual

/-- Queries are queries, functions may be called, and no bracket is around nothing but a subquery. -/
def Sql.Grouped : Sql → Prop
  | .subquery ts | .exists ts => Query ts
  | .inQuery _ a ts | .quantQuery _ _ a ts => a.Grouped ∧ Query ts
  | .paren a => a.Grouped ∧ a.bare = false
  | .collate a _ | .pre _ a | .is _ _ a | .not a | .cast a _ => a.Grouped
  | .dot a b | .index a b | .bin _ a b | .like _ _ a b | .distinctFrom _ a b | .and a b
  | .or a b => a.Grouped ∧ b.Grouped
  | .quant _ _ a b => a.Grouped ∧ b.Grouped ∧ b.bare = false
  | .between _ a b c => a.Grouped ∧ b.Grouped ∧ c.Grouped
  | .inList _ a l => a.Grouped ∧ groupedList l ∧ ∀ b, l = [b] → b.bare = false
  | .call f _ l => isCallee (.word f) = true ∧ groupedList l
  | .callStar f => isCallee (.word f) = true
  | .case whens els => groupedWhens whens ∧ groupedElse els
  | _ => True

def groupedList : List Sql → Prop
  | [] => True
  | a :: l => a.Grouped ∧ groupedList l

def groupedWhens : List (Sql × Sql) → Prop
  | [] => True
  | (c, a) :: l => c.Grouped ∧ a.Grouped ∧ groupedWhens l

def groupedElse : Option Sql → Prop
  | none => True
  | some e => e.Grouped

end

theorem closed_const {ts : List Token} (h : ts.all isPlain = true) : Closed ts := by
  induction ts with
  | nil => exact .nil
  | cons t ts ih =>
    simp only [List.all_cons, Bool.and_eq_true] at h
    exact (ih h.2).cons h.1

theorem closed_not (neg : Bool) : Closed (notTokens neg) := closed_const (by cases neg <;> decide)

mutual

/-- **The brackets in a tree's tokens match.** -/
theorem Sql.closed : (s : Sql) → s.Grouped → Closed s.tokens
  | .null, _ => closed_const (by decide)
  | .bool b, _ => closed_const (by cases b <;> decide)
  | .param _, _ | .number _, _ | .string _, _ | .column _, _ | .quoted _, _ => closed_const rfl
  | .subquery _, h => h.closed.bracketed
  | .exists _, h => .cons rfl h.closed.bracketed
  | .paren a, h => (a.closed h.1).bracketed
  | .inQuery neg a _, h =>
    (a.closed h.1).append ((closed_not neg).append (.cons rfl h.2.closed.bracketed))
  | .quantQuery _ all a _, h => by
    cases all <;> exact (a.closed h.1).append (.cons rfl (.cons rfl h.2.closed.bracketed))
  | .collate a _, h => (a.closed h).append (closed_const rfl)
  | .pre _ a, h => .cons rfl (a.closed h)
  | .not a, h => .cons rfl (a.closed h)
  | .is neg t a, h => (a.closed h).append (.cons rfl ((closed_not neg).append
      (closed_const (by cases t <;> decide))))
  | .cast a _, h => .cons rfl ((a.closed h).append (closed_const rfl)).bracketed
  | .dot a b, h | .bin _ a b, h | .and a b, h | .or a b, h =>
    (a.closed h.1).append (.cons rfl (b.closed h.2))
  | .index a b, h => (a.closed h.1).append (.cons rfl ((b.closed h.2).append (closed_const rfl)))
  | .like op neg a b, h => (a.closed h.1).append ((closed_not neg).append
      ((closed_const (by cases op <;> decide)).append (b.closed h.2)))
  | .distinctFrom neg a b, h => (a.closed h.1).append (.cons rfl ((closed_not neg).append
      (.cons rfl (.cons rfl (b.closed h.2)))))
  | .quant _ all a b, h => by
    cases all <;> exact (a.closed h.1).append (.cons rfl (.cons rfl (b.closed h.2.1).bracketed))
  | .between neg a b c, h => (a.closed h.1).append ((closed_not neg).append (.cons rfl
      ((b.closed h.2.1).append (.cons rfl (c.closed h.2.2)))))
  | .inList neg a l, h => (a.closed h.1).append ((closed_not neg).append (.cons rfl
      (closed_list l h.2.1).bracketed))
  | .call _ d l, h => .cons rfl (.bracketed (.append (closed_const (by cases d <;> decide))
      (closed_list l h.2)))
  | .callStar _, _ => .cons rfl (.bracketed (closed_const rfl))
  | .case whens els, h => .cons rfl ((closed_whens whens h.1).append ((closed_else els h.2).append
      (closed_const rfl)))

theorem closed_list : (l : List Sql) → groupedList l → Closed (listTokens l)
  | [], _ => .nil
  | [a], h => a.closed h.1
  | a :: b :: l, h => (a.closed h.1).append (.cons rfl (closed_list (b :: l) h.2))

theorem closed_whens : (l : List (Sql × Sql)) → groupedWhens l → Closed (whenTokens l)
  | [], _ => .nil
  | (c, a) :: l, h => .cons rfl ((c.closed h.1).append (.cons rfl ((a.closed h.2.1).append
      (closed_whens l h.2.2))))

theorem closed_else : (o : Option Sql) → groupedElse o → Closed (elseTokens o)
  | none, _ => .nil
  | some e, h => .cons rfl (e.closed h)

end

theorem isQuery_key (k : Key) (h : (k != .select && k != .with && k != .values) = true)
    (r : List Token) : isQuery (k.token :: r) = false := by
  rw [isQuery, Key.token, isQueryAux, ofWord_text]
  cases k <;> first | rfl | cases h

/-- A name in front of no bracket, or one that may be called, starts no query. -/
theorem isQuery_name {w : Text} (h : isName w = true) {r : List Token}
    (hr : isCallee (.word w) = true ∨ r.head? ≠ some (.punct '(')) :
    isQuery (.word w :: r) = false := by
  rw [isName] at h
  simp only [isCallee] at hr
  rw [isQuery, isQueryAux]
  cases hk : Key.ofWord w with
  | none => rfl
  | some k =>
    rw [hk] at h hr
    cases k with
    | values => simpa using hr
    | select | «with» => cases h
    | _ => rfl

/-- A token that is neither a word nor an opening bracket. -/
def isInert : Token → Bool
  | .word _ => false
  | .punct c => c != '('
  | _ => true

theorem isQuery_inert {t : Token} (h : isInert t = true) (r : List Token) :
    isQuery (t :: r) = false := by
  cases t with
  | word w => cases h
  | punct c =>
    rw [isQuery, isQueryAux]
    simp only [Bool.and_eq_false_iff, beq_eq_false_iff_ne]
    exact .inl (by simpa [isInert] using h)
  | _ => rfl

/-- The tree starts a query only if it is a subquery, where what follows may go on from there. -/
def StartsAs (s : Sql) : Prop :=
  ∀ r : List Token, r.head? ≠ some (.punct '(') → isQuery (s.tokens ++ r) = (s.bare && goesOn r)

/-- Behind an operand no query goes on. -/
theorem StartsAs.left {a s : Sql} {x : List Token} (ha : StartsAs a) (hs : s.tokens = a.tokens ++ x)
    (hb : s.bare = false) (hx : ∀ r, (x ++ r).head? ≠ some (.punct '('))
    (hg : ∀ r, goesOn (x ++ r) = false) : StartsAs s := fun r _ => by
  rw [hs, List.append_assoc, ha _ (hx r), hg, hb, Bool.and_false, Bool.false_and]

/-- **Only a subquery starts like a query in brackets.** -/
theorem Sql.startsAs : (s : Sql) → s.Formed → s.Grouped → StartsAs s
  | .null, _, _ => fun _ _ => isQuery_key .null rfl _
  | .bool true, _, _ => fun _ _ => isQuery_key .true rfl _
  | .bool false, _, _ => fun _ _ => isQuery_key .false rfl _
  | .param _, _, _ | .number _, _, _ | .string _, _, _ | .quoted _, _, _ | .pre _ _, _, _ =>
    fun _ _ => isQuery_inert rfl _
  | .column _, h, _ => fun _ hr => isQuery_name h (.inr hr)
  | .callStar _, h, hg => fun _ _ => isQuery_name h (.inl hg)
  | .call _ _ _, h, hg => fun _ _ => isQuery_name h.1 (.inl hg.1)
  | .exists _, _, _ => fun _ _ => isQuery_key .exists rfl _
  | .not _, _, _ => fun _ _ => isQuery_key .not rfl _
  | .cast _ _, _, _ => fun _ _ => isQuery_key .cast rfl _
  | .case _ _, _, _ => fun _ _ => isQuery_key .case rfl _
  | .subquery _, _, hg => fun r _ => by
    rw [Sql.tokens, isQuery_bracketed hg.closed, hg.isQuery]
    rfl
  | .paren a, h, hg => fun r _ => by
    have ha := a.startsAs h hg.1 [] nofun
    rw [List.append_nil] at ha
    rw [Sql.tokens, isQuery_bracketed (a.closed hg.1), ha, Sql.bare, hg.2]
    rfl
  | .dot a _, h, hg | .index a _, h, hg | .bin _ a _, h, hg | .quant _ _ a _, h, hg
  | .distinctFrom _ a _, h, hg | .and a _, h, hg | .or a _, h, hg =>
    (a.startsAs h.1 hg.1).left rfl rfl (fun _ => nofun) fun _ => rfl
  | .quantQuery _ _ a _, h, hg => (a.startsAs h hg.1).left rfl rfl (fun _ => nofun) fun _ => rfl
  | .collate a _, h, hg | .is _ _ a, h, hg =>
    (a.startsAs h hg).left rfl rfl (fun _ => nofun) fun _ => rfl
  | .between neg a _ _, h, hg | .inList neg a _, h, hg =>
    (a.startsAs h.1 hg.1).left rfl rfl (fun _ => by cases neg <;> nofun)
      fun _ => by cases neg <;> rfl
  | .like op neg a _, h, hg =>
    (a.startsAs h.1 hg.1).left rfl rfl (fun _ => by cases neg <;> cases op <;> nofun)
      fun _ => by cases neg <;> cases op <;> rfl
  | .inQuery neg a _, h, hg =>
    (a.startsAs h hg.1).left rfl rfl (fun _ => by cases neg <;> nofun)
      fun _ => by cases neg <;> rfl

theorem Sql.isQuery_tokens {s : Sql} (h : s.Formed) (hg : s.Grouped) : isQuery s.tokens = s.bare := by
  have := s.startsAs h hg [] nofun
  rw [List.append_nil] at this
  rw [this]
  exact Bool.and_true _

/-! ## The lexemes of a tree -/

/-- The tokens of `ts` are grouped as `ls`, whatever follows that is no opening bracket. -/
def Groups (ts : List Token) (ls : List Lexeme) : Prop :=
  ∀ r : List Token, r.head? ≠ some (.punct '(') →
    unitsFrom false (ts ++ r) = ls ++ unitsFrom false r

section
variable {ts us : List Token} {ls ks : List Lexeme}

theorem Groups.nil : Groups [] [] := fun _ _ => rfl

theorem Groups.cons {t : Token} (ht : isCallee t = false) (hp : t ≠ .punct '(') (h : Groups ts ls) :
    Groups (t :: ts) (t.lexeme :: ls) := fun r hr => by
  rw [List.cons_append, unitsFrom_cons (.inl hp), ht, h r hr]
  rfl

theorem Groups.key (k : Key) (hk : isCallee k.token = false) (h : Groups ts ls) :
    Groups (k.token :: ts) (k.lexeme :: ls) := by
  rw [← lexeme_token]
  exact h.cons hk (by simp [Key.token])

theorem Groups.one {t : Token} (hp : t ≠ .punct '(') : Groups [t] [t.lexeme] := fun r hr => by
  rw [List.cons_append, unitsFrom_cons (.inl hp), List.nil_append, unitsFrom_flag hr]
  rfl

theorem Groups.lastKey (k : Key) : Groups [k.token] [k.lexeme] := by
  rw [← lexeme_token]
  exact .one (by simp [Key.token])

theorem Groups.op (o : Text) (h : Groups ts ls) : Groups (.op o :: ts) (.op o :: ls) :=
  h.cons (t := .op o) rfl nofun

theorem Groups.append (ht : Groups ts ls) (hu : Groups us ks)
    (hs : us.head? ≠ some (.punct '(')) : Groups (ts ++ us) (ls ++ ks) := fun r hr => by
  have hhead : (us ++ r).head? ≠ some (.punct '(') := by
    cases us with
    | nil => exact hr
    | cons u us => exact hs
  rw [List.append_assoc, ht _ hhead, hu r hr, List.append_assoc]

theorem Groups.not (neg : Bool) (h : Groups ts ls) :
    Groups (notTokens neg ++ ts) (notLexemes neg ++ ls) := by
  cases neg
  · exact h
  · exact h.key .not rfl

theorem Groups.query (h : Query ts) : Groups (bracketed ts) [.subquery ts] :=
  fun r _ => unitsFrom_query h r

theorem closing_head (r : List Token) : (Token.punct ')' :: r).head? ≠ some (.punct '(') := by simp

/-- A bracket around more than a query. -/
theorem Groups.bracketed (hc : Closed ts) (hq : isQuery ts = false) (h : Groups ts ls) :
    Groups (bracketed ts) (.punct '(' :: (ls ++ [.punct ')'])) := fun r _ => by
  rw [unitsFrom_open hc hq, h _ (closing_head r), unitsFrom_cons (.inl (by decide))]
  simp only [List.cons_append, List.append_assoc]
  rfl

/-- A bracket around arguments. -/
theorem Groups.call {t : Token} (hp : t ≠ .punct '(') (ht : isCallee t = true) (h : Groups ts ls) :
    Groups (t :: Pg.bracketed ts) (t.lexeme :: .punct '(' :: (ls ++ [.punct ')'])) := fun r _ => by
  rw [Pg.bracketed, List.cons_append, unitsFrom_cons (.inl hp), ht, List.cons_append,
    unitsFrom_cons (.inr rfl), List.append_assoc, show isCallee (.punct '(') = false from rfl]
  rw [show [Token.punct ')'] ++ r = .punct ')' :: r from rfl, h _ (closing_head r),
    unitsFrom_cons (.inl (by decide))]
  simp only [List.cons_append, List.append_assoc]
  rfl

end

theorem isQuery_list : {l : List Sql} → formedList l → groupedList l →
    (∀ b, l = [b] → b.bare = false) → isQuery (listTokens l) = false
  | [], _, _, _ => rfl
  | [b], h, hg, hb => by
    rw [listTokens, Sql.isQuery_tokens h.1 hg.1]
    exact hb b rfl
  | a :: b :: l, h, hg, _ => by
    rw [listTokens, a.startsAs h.1 hg.1 _ (by simp)]
    exact Bool.and_false _

theorem not_head (neg : Bool) (k : Key) (ts : List Token) :
    (notTokens neg ++ k.token :: ts).head? ≠ some (.punct '(') := by
  cases neg <;> simp [notTokens, Key.token]

theorem Groups.test (t : Test) : Groups [t.token] [t.lexeme] := by
  cases t
  · exact .lastKey .true
  · exact .lastKey .false
  · exact .lastKey .null
  · exact .lastKey .unknown

theorem Groups.like (op : LikeOp) (h : Groups ts ls) :
    Groups (op.tokens ++ ts) (op.lexemes ++ ls) := by
  cases op
  · exact h.key .like rfl
  · exact h.key .ilike rfl
  · exact (h.key .to rfl).key .similar rfl

theorem Groups.quant (o : Text) (all : Bool) (h : Groups ts ls) :
    Groups (.op o :: quantToken all :: ts) (.op o :: quantLexeme all :: ls) := by
  cases all
  · exact (h.key .any rfl).op o
  · exact (h.key .all rfl).op o

mutual

/-- **The tokens of a tree, every subquery as one, are its lexemes.** -/
theorem Sql.groups : (s : Sql) → s.Formed → s.Grouped → Groups s.tokens s.lexemes
  | .null, _, _ => .lastKey .null
  | .bool true, _, _ => .lastKey .true
  | .bool false, _, _ => .lastKey .false
  | .param n, _, _ => .one (t := .param n) nofun
  | .number n, _, _ => .one (t := .number n) nofun
  | .string v, _, _ => .one (t := .string v) nofun
  | .column w, _, _ => .one (t := .word w) nofun
  | .quoted v, _, _ => .one (t := .quotedIdent v) nofun
  | .subquery _, _, hg => .query hg
  | .exists _, _, hg => (Groups.query hg).key .exists rfl
  | .paren a, h, hg => (a.groups h hg.1).bracketed (a.closed hg.1)
      ((Sql.isQuery_tokens (s := a) h hg.1).trans hg.2)
  | .dot a b, h, hg => (a.groups h.1 hg.1).append
      ((b.groups h.2 hg.2).cons (t := .punct '.') rfl (by decide)) (by simp)
  | .index a b, h, hg => (a.groups h.1 hg.1).append
      (((b.groups h.2 hg.2).append (.one (t := .punct ']') (by decide)) (by decide)).cons
        (t := .punct '[') rfl (by decide)) (by simp)
  | .collate a c, h, hg => (a.groups h hg).append
      ((Groups.one (t := .quotedIdent c) nofun).key .collate rfl) nofun
  | .pre o a, h, hg => (a.groups h hg).op o
  | .bin o a b, h, hg => (a.groups h.1 hg.1).append ((b.groups h.2 hg.2).op o) nofun
  | .between neg a b c, h, hg => (a.groups h.1 hg.1).append
      (.not neg (((b.groups h.2.1 hg.2.1).append ((c.groups h.2.2 hg.2.2).key .and rfl) nofun).key
        .between rfl)) (not_head neg _ _)
  | .like op neg a b, h, hg => (a.groups h.1 hg.1).append (.not neg ((b.groups h.2 hg.2).like op))
      (by cases neg <;> cases op <;> nofun)
  | .inList neg a l, h, hg => (a.groups h.1 hg.1).append (.not neg (((groups_list l h.2.1 hg.2.1).bracketed
      (closed_list l hg.2.1) (isQuery_list h.2.1 hg.2.1 hg.2.2)).key .in rfl)) (not_head neg _ _)
  | .inQuery neg a _, h, hg => (a.groups h hg.1).append (.not neg ((Groups.query hg.2).key .in rfl))
      (not_head neg _ _)
  | .quant o all a b, h, hg => (a.groups h.1 hg.1).append (((b.groups h.2 hg.2.1).bracketed
      (b.closed hg.2.1) ((Sql.isQuery_tokens h.2 hg.2.1).trans hg.2.2)).quant o all) nofun
  | .quantQuery o all a _, h, hg => (a.groups h hg.1).append ((Groups.query hg.2).quant o all) nofun
  | .is neg t a, h, hg => (a.groups h hg).append ((Groups.not neg (.test t)).key .is rfl) nofun
  | .distinctFrom neg a b, h, hg => (a.groups h.1 hg.1).append ((Groups.not neg
      (((b.groups h.2 hg.2).key .from rfl).key .distinct rfl)).key .is rfl) nofun
  | .not a, h, hg => (a.groups h hg).key .not rfl
  | .and a b, h, hg => (a.groups h.1 hg.1).append ((b.groups h.2 hg.2).key .and rfl) nofun
  | .or a b, h, hg => (a.groups h.1 hg.1).append ((b.groups h.2 hg.2).key .or rfl) nofun
  | .cast a w, h, hg => by
    have hinner := (a.groups h hg).append ((Groups.one (t := .word w) nofun).key .as rfl) nofun
    have := hinner.call (t := Key.cast.token) nofun rfl
    rw [lexeme_token] at this
    simpa [Sql.tokens, Sql.lexemes] using this
  | .call f d l, h, hg => by
    have hlist := groups_list l h.2.1 hg.2
    cases d
    · have := hlist.call (t := .word f) nofun hg.1
      simpa [Sql.tokens, Sql.lexemes] using this
    · have := (hlist.key .distinct rfl).call (t := .word f) nofun hg.1
      simpa [Sql.tokens, Sql.lexemes] using this
  | .callStar f, _, hg => (Groups.nil.op ['*']).call (t := .word f) nofun hg
  | .case whens els, h, hg => (groups_whens whens h.1 hg.1
      (groups_else els h.2.1 hg.2 (.lastKey .end) nofun)
      (by cases els <;> nofun)).key .case rfl

theorem groups_list : (l : List Sql) → formedList l → groupedList l →
    Groups (listTokens l) (listLexemes l)
  | [], _, _ => .nil
  | [a], h, hg => a.groups h.1 hg.1
  | a :: b :: l, h, hg => (a.groups h.1 hg.1).append
      ((groups_list (b :: l) h.2 hg.2).cons (t := .punct ',') rfl (by decide)) (by simp)

theorem groups_whens : (l : List (Sql × Sql)) → formedWhens l → groupedWhens l →
    {ts : List Token} → {ls : List Lexeme} → Groups ts ls → ts.head? ≠ some (.punct '(') →
      Groups (whenTokens l ++ ts) (whenLexemes l ++ ls)
  | [], _, _, _, _, ht, _ => ht
  | (c, a) :: l, h, hg, ts, ls, ht, hs => by
    have htail := groups_whens l h.2.2 hg.2.2 ht hs
    have hhead : (whenTokens l ++ ts).head? ≠ some (.punct '(') := by
      cases l with
      | nil => exact hs
      | cons w l => nofun
    have := ((c.groups h.1 hg.1).append (((a.groups h.2.1 hg.2.1).append htail hhead).key .then rfl)
      nofun).key .when rfl
    simpa [whenTokens, whenLexemes] using this

theorem groups_else : (o : Option Sql) → formedElse o → groupedElse o →
    {ts : List Token} → {ls : List Lexeme} → Groups ts ls → ts.head? ≠ some (.punct '(') →
      Groups (elseTokens o ++ ts) (elseLexemes o ++ ls)
  | none, _, _, _, _, ht, _ => ht
  | some e, h, hg, _, _, ht, hs => ((e.groups h hg).append ht hs).key .else rfl

end

theorem Sql.units_tokens {s : Sql} (h : s.Formed) (hg : s.Grouped) : units s.tokens = s.lexemes := by
  have := s.groups h hg [] nofun
  rw [List.append_nil, unitsFrom_nil, List.append_nil] at this
  exact this

end Pg
