import IronQuery.Pg.Proof.Statements
import IronQuery.Pg.Tables

/-!
# Joins and set operations are read back

`Operand ts a`, `JoinRef ts a`: the tokens `ts` spell the operand, or the join, `a`, a join that is
an operand in brackets. `readRef_spelt`: they are read as `a`, by induction on how they are spelt.
`QuerySpelt` and `readQuery_spelt` do the same for set operations, whose operands are all in
brackets.
-/

namespace Pg

section
variable {τ : Type} {term : List Token → Option τ} {a b : TableRef τ} {ts us r : List Token}
  {stop : Token → Bool}

/-! ## Names -/

/-- Parts with dots between them. -/
def dotted : List Token → List Token
  | [] => []
  | [t] => [t]
  | t :: u :: l => t :: .punct '.' :: dotted (u :: l)

theorem readPath_dotted {part : Token → Bool} {l : List Token} (hne : l ≠ [])
    (hl : ∀ t ∈ l, part t = true) (hr : r.head? ≠ some (.punct '.')) :
    readPath part (dotted l ++ r) = some (dotted l, r) := by
  induction l with
  | nil => exact absurd rfl hne
  | cons t l ih =>
    have ht := hl t (.head _)
    cases l with
    | nil =>
      rw [dotted, List.cons_append, List.nil_append]
      unfold readPath
      split
      · rename_i he
        cases he
        exact absurd rfl hr
      · rename_i he
        cases he
        rw [if_pos ht]
      · rename_i he
        cases he
    | cons u l =>
      have hl' := ih (List.cons_ne_nil _ _) fun x hx => hl x (.tail _ hx)
      rw [dotted, List.cons_append, List.cons_append, readPath, if_pos ht, hl']
      rfl

theorem passes_dotted {l : List Token} (hl : ∀ t ∈ l, isPlain t = true ∧ stop t = false ∧
    t.key ≠ some .distinct) (hd : stop (.punct '.') = false) : Passes stop (dotted l) := by
  induction l with
  | nil => exact .nil
  | cons t l ih =>
    obtain ⟨h1, h2, h3⟩ := hl t (.head _)
    have ht := ih fun x hx => hl x (.tail _ hx)
    cases l with
    | nil => exact Passes.nil.cons h1 h2 h3
    | cons u l => exact (ht.cons rfl hd (by simp [Token.key])).cons h1 h2 h3

/-- The name of a table, or of an alias. -/
structure Name (part : Token → Bool) (ts : List Token) : Prop where
  spelt : ∃ l, l ≠ [] ∧ (∀ t ∈ l, part t = true) ∧ ts = dotted l
  passes : Passes isBoundary ts

/-! ## Spelling -/

/-- The key words of a join that SQL reads as the given type. -/
structure JoinWords (ts : List Token) (type : JoinType) : Prop where
  read : ∀ r, readJoin (ts ++ r) = some (type, r)
  head : ∃ t u, ts = t :: u ∧ isJoinWord t = true
  passes : Passes endsTable ts

/-- What stands behind a join. -/
inductive Qualified (term : List Token → Option τ) : List Token → Option (Qualifier τ) → Prop
  | none : Qualified term [] none
  | on {x : List Token} {c : τ} (h : Entry term x c) :
    Qualified term (Key.on.token :: x) (some (.on c))
  | using {x : List Token} {cols : List τ} (h : Listing term x cols) :
    Qualified term (Key.using.token :: bracketed x) (some (.using cols))

mutual

/-- An operand of a join. -/
inductive Operand (term : List Token → Option τ) : List Token → TableRef τ → Prop
  | named {x : List Token} (h : Name isNamePart x) : Operand term x (.named x)
  | namedAs {x y : List Token} (h : Name isNamePart x) (ha : Name isLabel y) :
    Operand term (x ++ Key.as.token :: y) (.aliased (.named x) y)
  | queryAs {x y : List Token} (h : Query x) (ha : Name isLabel y) :
    Operand term (bracketed x ++ Key.as.token :: y) (.aliased (.subquery x) y)
  | bracketed {x : List Token} {a : TableRef τ} (h : JoinRef term x a) :
    Operand term (bracketed x) a
  | bracketedAs {x y : List Token} {a : TableRef τ} (h : JoinRef term x a)
    (ha : Name isLabel y) : Operand term (bracketed x ++ Key.as.token :: y) (.aliased a y)

/-- A join of two operands. -/
inductive JoinRef (term : List Token → Option τ) : List Token → TableRef τ → Prop
  | join {x y k z : List Token} {a b : TableRef τ} {type : JoinType}
    {q : Option (Qualifier τ)} (ha : Operand term x a) (hk : JoinWords k type)
    (hb : Operand term y b) (hq : Qualified term z q) :
    JoinRef term (x ++ (k ++ (y ++ z))) (.join a type b q)

end

/-- A table reference: an operand, or a join without brackets. -/
def RefSpelt (term : List Token → Option τ) (ts : List Token) (a : TableRef τ) : Prop :=
  Operand term ts a ∨ JoinRef term ts a

/-! ### A reference belongs to one clause -/

theorem Passes.of_boundary (h : Passes isBoundary ts) : Passes endsTable ts :=
  h.mono fun _ ht => isBoundary_of_endsClause (endsClause_of_endsTable ht)

theorem Qualified.passes {q : Option (Qualifier τ)} (h : Qualified term ts q) :
    Passes endsTable ts := by
  cases h with
  | none => exact .nil
  | on h =>
    exact (h.passes.mono fun _ => endsClause_of_endsTable).cons (by decide) (by decide) (by decide)
  | «using» h =>
    exact (Passes.bracketed rfl h.passes.closed).cons (by decide) (by decide) (by decide)

theorem Name.aliased {part : Token → Bool} (h : Name part ts) :
    Passes endsTable (Key.as.token :: ts) :=
  h.passes.of_boundary.cons (by decide) (by decide) (by decide)

mutual

theorem Operand.passes : {ts : List Token} → {a : TableRef τ} → Operand term ts a →
    Passes endsTable ts
  | _, _, .named h => h.passes.of_boundary
  | _, _, .namedAs h ha => h.passes.of_boundary.append ha.aliased
  | _, _, .queryAs h ha => (Passes.bracketed rfl h.closed).append ha.aliased
  | _, _, .bracketed h => .bracketed rfl h.passes.closed
  | _, _, .bracketedAs h ha => (Passes.bracketed rfl h.passes.closed).append ha.aliased

theorem JoinRef.passes : {ts : List Token} → {a : TableRef τ} → JoinRef term ts a →
    Passes endsTable ts
  | _, _, .join ha hk hb hq => ha.passes.append (hk.passes.append (hb.passes.append hq.passes))

end

/-! ### A reference is no query -/

/-- What may stand behind an operand: nothing, a join or its qualifier. -/
def Follows (r : List Token) : Prop := ∀ t, r.head? = some t → isJoinWord t = true

theorem Follows.nil : Follows [] := fun _ h => by cases h

theorem JoinWords.follows {ks : List Token} {type : JoinType} (h : JoinWords ks type)
    (r : List Token) : Follows (ks ++ r) := by
  obtain ⟨t, u, rfl, ht⟩ := h.head
  intro x hx
  cases hx
  exact ht

theorem Qualified.follows {q : Option (Qualifier τ)} (h : Qualified term ts q) : Follows ts := by
  cases h with
  | none => exact .nil
  | on h =>
    intro x hx
    cases hx
    decide
  | «using» h =>
    intro x hx
    cases hx
    decide

theorem isJoinWord_key {t : Token} (h : isJoinWord t = true) :
    ∃ k, t.key = some k ∧ k ≠ .as ∧ k.endsClause = true := by
  unfold isJoinWord at h
  split at h
  case h_10 => cases h
  all_goals
    rename_i hk
    exact ⟨_, hk, by decide, rfl⟩

theorem Follows.not_punct (h : Follows r) (c : Char) : r.head? ≠ some (.punct c) := by
  intro hr
  obtain ⟨k, hk, -⟩ := isJoinWord_key (h _ hr)
  cases hk

theorem Follows.not_alias (h : Follows r) : behind [.as] r = none := behind_head fun t ht hk => by
  obtain ⟨k, hk', hne, -⟩ := isJoinWord_key (h t ht)
  rw [hk] at hk'
  exact hne (Option.some.inj hk').symm

theorem goesOn_join {t : Token} (h : isJoinWord t = true) (r : List Token) :
    goesOn (t :: r) = false := by
  cases t with
  | word w =>
    obtain ⟨k, hk, -⟩ := isJoinWord_key h
    have hk : Key.ofWord w = some k := hk
    unfold isJoinWord at h
    simp only [Token.key, hk] at h
    simp only [goesOn, hk]
    cases k <;> first | rfl | cases h
  | _ => rfl

theorem goesOn_as (r : List Token) : goesOn (Key.as.token :: r) = false := by
  have : Key.ofWord Key.as.text = some .as := ofWord_text _
  simp only [Key.token, goesOn, this]

/-- A name in front of something that is no bracket is no query. -/
theorem Name.isQuery (h : Name isNamePart ts) (hr : ∀ c, r.head? ≠ some (.punct c)) :
    isQuery (ts ++ r) = false := by
  obtain ⟨l, hne, hl, rfl⟩ := h.spelt
  obtain ⟨t, l, rfl⟩ := List.exists_cons_of_ne_nil hne
  have ht := hl t (.head _)
  obtain ⟨u, hu, hp⟩ : ∃ u, dotted (t :: l) ++ r = t :: u ∧ u.head? ≠ some (.punct '(') := by
    cases l with
    | nil => exact ⟨r, rfl, hr '('⟩
    | cons x l => exact ⟨_, rfl, by simp⟩
  rw [hu, Pg.isQuery]
  cases t with
  | word w =>
    have hw : isName w = true := ht
    cases hk : Key.ofWord w with
    | none => simp only [isQueryAux, hk]
    | some k =>
      rw [isName, hk, Option.all_some, Bool.not_eq_true'] at hw
      cases k <;> first
        | (simp only [isQueryAux, hk]; done)
        | (simp only [isQueryAux, hk]; exact beq_false_of_ne hp)
        | cases hw
  | quotedIdent v => rfl
  | _ => cases ht

theorem Operand.isQuery (h : Operand term ts a) (hr : r ≠ []) (hf : Follows r) :
    isQuery (ts ++ r) = false := by
  have hword : goesOn r = false := by
    obtain ⟨t, u, rfl⟩ := List.exists_cons_of_ne_nil hr
    exact goesOn_join (hf t rfl) u
  have hbracket {ts us : List Token} (hc : Closed ts) (hg : goesOn us = false) :
      Pg.isQuery (Pg.bracketed ts ++ us) = false := by
    rw [isQuery_bracketed hc, hg, Bool.and_false]
  cases h with
  | named h => exact h.isQuery fun c => hf.not_punct c
  | namedAs h ha =>
    rw [List.append_assoc]
    exact h.isQuery fun c => by simp [Key.token]
  | queryAs h ha =>
    rw [List.append_assoc]
    exact hbracket h.closed (goesOn_as _)
  | bracketed h => exact hbracket h.passes.closed hword
  | bracketedAs h ha =>
    rw [List.append_assoc]
    exact hbracket h.passes.closed (goesOn_as _)

theorem JoinRef.isQuery (h : JoinRef term ts a) : isQuery ts = false := by
  cases h with
  | join ha hk hb hq =>
    obtain ⟨t, u, rfl, -⟩ := hk.head
    exact ha.isQuery (List.cons_ne_nil _ _) (hk.follows _)

/-! ## Reading -/

theorem readAlias_name {name : List Token} (h : Name isLabel name) (hf : Follows r)
    (a : TableRef τ) : readAlias a (Key.as.token :: name ++ r) = some (.aliased a name, r) := by
  obtain ⟨l, hne, hl, rfl⟩ := h.spelt
  have hb : behind [.as] (Key.as.token :: dotted l ++ r) = some (dotted l ++ r) :=
    behind_tokens [.as] _
  rw [readAlias, hb]
  simp only [readPath_dotted hne hl (hf.not_punct '.'), Option.map_some]

theorem readAlias_none (hf : Follows r) (a : TableRef τ) : readAlias a r = some (a, r) := by
  rw [readAlias, hf.not_alias]

theorem readQualifier_spelt {q : Qualifier τ} (h : Qualified term ts (some q)) :
    readQualifier term ts = some (q, []) := by
  cases h with
  | on h =>
    have hcut : outside isJoinWord .top _ = _ := (h.passes.mono fun t ht => by
      obtain ⟨k, hk, -, he⟩ := isJoinWord_key ht
      rw [endsClause, endsList, hk, Option.any_some, he, Bool.or_true]).outside_nil
    simp only [readQualifier, key_token, hcut, h.read, Option.map_some]
  | «using» h =>
    simp only [readQualifier, key_token, bracketed, h.passes.closed.upTo, h.read,
      Option.bind_eq_bind, Option.bind_some]
    rfl

theorem attach_one (type : JoinType) (b : TableRef τ) (q : Qualifier τ) :
    attach q [⟨type, b, none⟩] = some [⟨type, b, some q⟩] := by
  unfold attach
  cases h : type.qualified
  · simp [attachTo, h, chainLinks]
  · simp [attachTo, h, chainLinks]

theorem readJoin_qualified {q : Option (Qualifier τ)} (h : Qualified term ts q) :
    readJoin ts = none := by
  have hno (k : Key) (hk : k ≠ .natural) (r : List Token) :
      behind [.natural] (k.token :: r) = none := behind_head fun t ht => by
    cases ht
    rw [key_token]
    exact fun he => hk (Option.some.inj he)
  cases h with
  | none => rfl
  | on h =>
    rw [readJoin, hno .on (by decide)]
    simp only [readSide, key_token, Option.map_none]
  | «using» h =>
    rw [readJoin, hno .using (by decide)]
    simp only [readSide, key_token, Option.map_none]

/-- The joins behind an operand: one, and its qualifier. -/
theorem readLinks_one {n : Nat} {q : Option (Qualifier τ)} (type : JoinType)
    (h : Qualified term ts q) :
    readLinks term (n + 2) a [⟨type, b, none⟩] ts = some (.join a type b q) := by
  cases q with
  | none =>
    cases h
    rw [readLinks]
    rfl
  | some q =>
    have hne : ts ≠ [] := by
      rintro rfl
      cases h
    obtain ⟨t, u, rfl⟩ := List.exists_cons_of_ne_nil hne
    simp only [readLinks, readJoin_qualified h, readQualifier_spelt h, attach_one,
      Option.bind_eq_bind, Option.bind_some]
    rfl

theorem readOperand_bracket {n : Nat} {t : TableRef τ} (hc : Closed ts)
    (ht : (if isQuery ts then some (.subquery ts) else readRefAux term n ts) = some t) :
    readOperand term (n + 1) (bracketed ts ++ r) = readAlias t r := by
  rw [show bracketed ts ++ r = .punct '(' :: (ts ++ .punct ')' :: r) by simp [bracketed],
    readOperand]
  simp only [hc.upTo, Option.bind_eq_bind, Option.bind_some]
  split at ht
  · rename_i hq
    cases ht
    simp only [hq, if_true]
  · rename_i hq
    simp only [hq, if_false, ht, Option.bind_some, Bool.false_eq_true]

theorem readOperand_name {n : Nat} (h : Name isNamePart ts) (hr : r.head? ≠ some (.punct '.')) :
    readOperand term (n + 1) (ts ++ r) = readAlias (.named ts) r := by
  obtain ⟨l, hne, hl, rfl⟩ := h.spelt
  have hpath := readPath_dotted hne hl hr
  obtain ⟨t, l, rfl⟩ := List.exists_cons_of_ne_nil hne
  have ht := hl t (.head _)
  have hp : t ≠ .punct '(' := by
    rintro rfl
    cases ht
  unfold readOperand
  split
  · rename_i he
    cases l <;> (cases he; exact absurd rfl hp)
  · simp only [hpath, Option.bind_eq_bind, Option.bind_some]

mutual

theorem Operand.reads : {ts : List Token} → {a : TableRef τ} → Operand term ts a → (n : Nat) →
    ts.length + 1 < n → (r : List Token) → Follows r → readOperand term n (ts ++ r) = some (a, r)
  | _, _, .named h, n + 1, _, r, hf => by
    rw [readOperand_name h (hf.not_punct '.'), readAlias_none hf]
  | _, _, .namedAs h ha, n + 1, _, r, hf => by
    rw [List.append_assoc, readOperand_name h (by simp [Key.token]), readAlias_name ha hf]
  | _, _, .queryAs h ha, n + 1, _, r, hf => by
    rw [List.append_assoc, readOperand_bracket h.closed (if_pos h.isQuery), readAlias_name ha hf]
  | _, _, .bracketed (x := ts) h, n + 1, hn, r, hf => by
    have hlen : ts.length + 2 < n := by
      simp only [bracketed, List.length_cons, List.length_append] at hn
      omega
    rw [readOperand_bracket h.passes.closed
      ((if_neg (by rw [h.isQuery]; decide)).trans (h.reads n hlen)), readAlias_none hf]
  | _, _, .bracketedAs (x := ts) h ha, n + 1, hn, r, hf => by
    have hlen : ts.length + 2 < n := by
      simp only [bracketed, List.length_cons, List.length_append] at hn
      omega
    rw [List.append_assoc, readOperand_bracket h.passes.closed
      ((if_neg (by rw [h.isQuery]; decide)).trans (h.reads n hlen)), readAlias_name ha hf]

theorem JoinRef.reads : {ts : List Token} → {a : TableRef τ} → JoinRef term ts a → (n : Nat) →
    ts.length + 2 < n → readRefAux term n ts = some a
  | _, _, .join (x := ts) (y := us) (k := ks) (z := qs) ha hk hb hq, n, hn => by
    obtain ⟨t, u, hks, -⟩ := hk.head
    have hlen : (ts ++ (ks ++ (us ++ qs))).length =
        ts.length + (u.length + 1 + (us.length + qs.length)) := by
      simp [hks]
      omega
    obtain ⟨m, rfl⟩ : ∃ m, n = m + 4 := ⟨n - 4, by omega⟩
    have h1 := ha.reads (m + 3) (by omega) _ (hk.follows (us ++ qs))
    have h2 := hb.reads (m + 2) (by omega) _ hq.follows
    have h3 := hk.read (us ++ qs)
    rw [readRefAux, h1]
    rw [hks] at h3 ⊢
    simp only [Option.bind_eq_bind, Option.bind_some, List.cons_append, readLinks]
    rw [← List.cons_append, h3]
    simp only [h2, Option.bind_some]
    exact readLinks_one _ hq

end

/-- **A table reference is read as it was spelt**: every operand, every join and every qualifier at
its place. -/
theorem readRef_spelt (h : RefSpelt term ts a) : readRef term ts = some a := by
  rcases h with h | h
  · have := h.reads (ts.length + 2) (by omega) [] .nil
    rw [List.append_nil] at this
    rw [readRef, readRefAux, this]
    simp only [Option.bind_eq_bind, Option.bind_some, readLinks]
    rfl
  · exact h.reads _ (by omega)

theorem RefSpelt.tables (h : RefSpelt term ts a) : Tables (readRef term) ts a :=
  ⟨h.elim Operand.passes JoinRef.passes, readRef_spelt h⟩

end

/-! ## Set operations -/

def isSetWord (t : Token) : Bool := t.setKind.isSome

def SetKind.key : SetKind → Key
  | union => .union
  | intersect => .intersect
  | except => .except

/-- A set operation, with its `ALL`. -/
def setTokens (kind : SetKind) (all : Bool) : List Token :=
  kind.key.token :: if all then [Key.all.token] else []

/-- The tokens of a whole query, or of what stands in one bracket. -/
inductive QuerySpelt : List Token → QueryExpr → Prop
  | select {x : List Token} (h : Passes isSetWord (Key.select.token :: x)) :
    QuerySpelt (Key.select.token :: x) (.query (Key.select.token :: x))
  | with {x : List Token} (h : Closed x) :
    QuerySpelt (Key.with.token :: x) (.query (Key.with.token :: x))
  | op {x y : List Token} {a b : QueryExpr} (kind : SetKind) (all : Bool) (ha : QuerySpelt x a)
    (hb : QuerySpelt y b) :
    QuerySpelt (bracketed x ++ (setTokens kind all ++ bracketed y)) (.op a kind all b)

section
variable {ts : List Token} {q : QueryExpr}

theorem QuerySpelt.closed (h : QuerySpelt ts q) : Closed ts := by
  induction h with
  | select h => exact h.closed
  | «with» h => exact h.cons (by decide)
  | op kind all _ _ iha ihb =>
    refine iha.bracketed.append (.append ?_ ihb.bracketed)
    exact closed_const (by cases kind <;> cases all <;> decide)

theorem readSetKind_tokens (kind : SetKind) (all : Bool) {r : List Token}
    (hr : ∀ t, r.head? = some t → t.key ≠ some .all) :
    readSetKind (setTokens kind all ++ r) = some (kind, all, r) := by
  have hset : kind.key.token.setKind = some kind := by cases kind <;> decide
  have hall : behind [.all] ((if all = true then [Key.all.token] else []) ++ r) =
      if all then some r else none := by
    cases all with
    | true => exact behind_tokens [.all] r
    | false => exact behind_head hr
  rw [setTokens, List.cons_append, readSetKind, hset, hall]
  cases all <;> rfl

theorem readBlock_bracket {n : Nat} {x : List Token} {a : QueryExpr} (hc : Closed x)
    (h : readQueryAux n x = some a) (r : List Token) :
    readBlock (n + 1) (bracketed x ++ r) = some (a, r) := by
  rw [show bracketed x ++ r = .punct '(' :: (x ++ .punct ')' :: r) by simp [bracketed], readBlock]
  simp only [hc.upTo, h, Option.bind_eq_bind, Option.bind_some]

/-- **A query is read as it was spelt**, set operations as the tree that they were built as. -/
theorem QuerySpelt.reads (h : QuerySpelt ts q) {n : Nat} (hn : ts.length + 2 < n) :
    readQueryAux n ts = some q := by
  induction h generalizing n with
  | select h =>
    rename_i x
    obtain ⟨m, rfl⟩ : ∃ m, n = m + 2 := ⟨n - 2, by omega⟩
    have hw : behind [.with] (Key.select.token :: x) = none := behind_head fun t ht => by
      cases ht
      decide
    have hs : behind [.select] (Key.select.token :: x) = some x := behind_tokens [.select] x
    have hb : readBlock (m + 1) (Key.select.token :: x) =
        some (.query (Key.select.token :: x), []) := by
      have hcut : outside (·.setKind.isSome) .top (Key.select.token :: x) = _ := h.outside_nil
      unfold readBlock
      split
      · rename_i he
        cases he
      · simp only [hs, hcut, Option.bind_eq_bind, Option.bind_some]
    rw [readQueryAux, hw]
    simp only [hb, Option.bind_eq_bind, Option.bind_some, readOps]
    rfl
  | «with» h =>
    rename_i x
    obtain ⟨m, rfl⟩ : ∃ m, n = m + 1 := ⟨n - 1, by omega⟩
    have hw : behind [.with] (Key.with.token :: x) = some x := behind_tokens [.with] x
    rw [readQueryAux, hw]
  | op kind all ha hb iha ihb =>
    rename_i x y a b
    simp only [bracketed, setTokens, List.length_append, List.length_cons] at hn
    obtain ⟨m, rfl⟩ : ∃ m, n = m + 4 := ⟨n - 4, by omega⟩
    have hw : behind [.with] (bracketed x ++ (setTokens kind all ++ bracketed y)) = none :=
      behind_head fun t ht => by
        cases ht
        decide
    have hx := readBlock_bracket (n := m + 2) ha.closed (iha (by omega))
      (setTokens kind all ++ bracketed y)
    have hy := readBlock_bracket (n := m + 1) hb.closed (ihb (by omega)) []
    rw [List.append_nil] at hy
    have hk := readSetKind_tokens kind all (r := bracketed y) fun t ht => by
      cases ht
      decide
    obtain ⟨t, u, hcons⟩ : ∃ t u, setTokens kind all ++ bracketed y = t :: u := ⟨_, _, rfl⟩
    rw [readQueryAux, hw]
    simp only [hx, Option.bind_eq_bind, Option.bind_some]
    rw [hcons] at hk ⊢
    simp only [readOps, hk, hy, Option.bind_eq_bind, Option.bind_some]
    split <;> rfl

theorem readQuery_spelt (h : QuerySpelt ts q) : readQuery ts = some q := h.reads (by omega)

end

end Pg
