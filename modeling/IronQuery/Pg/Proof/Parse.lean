import IronQuery.Pg.Grammar

/-!
# The parser reads back a tree whose brackets respect the precedence table

The edges of a tree: `Sql.head` is the loosest row of the operators on its left edge, which the
parser takes in one loop; `Sql.tail` the loosest row it is still reading at the right edge, where a
tighter operator would go to the operand there. `Sql.Fits`: the edges of every operand admit the
operators around it. `Sql.Formed`: names are names and lists have members.

`parse_lexemes`: the lexemes of a tree that is formed and fits parse to the tree without its
brackets. `Reaches s`: from the lexemes of `s` the parser arrives at its loop with `s` read, having
spent no more than four steps on each lexeme; `reaches_infix` is the step that every infix and
postfix operator shares.
-/

namespace Pg

/-! ## The edges of a tree -/

/-- The row of the operator at the top of a tree; 0 for a bracketed form. -/
def Sql.level : Sql → Level
  | .dot _ _ => Level.dot
  | .index _ _ => Level.index
  | .collate _ _ => Level.collate
  | .pre o _ => prefixLevel o
  | .bin o _ _ | .quant o _ _ _ | .quantQuery o _ _ _ => opLevel o
  | .between _ _ _ _ | .like _ _ _ _ | .inList _ _ _ | .inQuery _ _ _ => Level.between
  | .is _ _ _ | .distinctFrom _ _ _ => Level.is
  | .not _ => Level.not
  | .and _ _ => Level.and
  | .or _ _ => Level.or
  | _ => 0

/-- The loosest row of the operators on the left edge. -/
def Sql.head : Sql → Level
  | .dot a _ => max Level.dot a.head
  | .index a _ => max Level.index a.head
  | .collate a _ => max Level.collate a.head
  | .bin o a _ | .quant o _ a _ | .quantQuery o _ a _ => max (opLevel o) a.head
  | .between _ a _ _ | .like _ _ a _ | .inList _ a _ | .inQuery _ a _ => max Level.between a.head
  | .is _ _ a | .distinctFrom _ a _ => max Level.is a.head
  | .and a _ => max Level.and a.head
  | .or a _ => max Level.or a.head
  | _ => 0

/-- The loosest row that is open at the right edge. -/
def Sql.tail : Sql → Level
  | .dot _ b => max Level.dot b.tail
  | .pre o a => max (prefixLevel o) a.tail
  | .bin o _ b => max (opLevel o) b.tail
  | .between _ _ _ b | .like _ _ _ b => max Level.between b.tail
  | .distinctFrom _ _ b => max Level.is b.tail
  | .not a => max Level.not a.tail
  | .and _ b => max Level.and b.tail
  | .or _ b => max Level.or b.tail
  | _ => 0

/-- The row the parser may not meet again behind `s`. -/
def Sql.last (s : Sql) : Level := if s.level.nonassoc then s.level else 0

/-- `a` may stand on the left of an operator of the row `l`. -/
def Sql.leftOf (a : Sql) (l : Level) : Prop := a.tail ≤ l ∧ l ≠ a.last

mutual

/-- Every operand is where its edges admit it. -/
def Sql.Fits : Sql → Prop
  | .paren a => a.Fits
  | .dot a b => a.Fits ∧ b.Fits ∧ a.leftOf Level.dot ∧ b.head < Level.dot
  | .index a b => a.Fits ∧ b.Fits ∧ a.leftOf Level.index
  | .collate a _ => a.Fits ∧ a.leftOf Level.collate
  | .pre o a => a.Fits ∧ a.head < prefixLevel o
  | .bin o a b => a.Fits ∧ b.Fits ∧ a.leftOf (opLevel o) ∧ b.head < opLevel o
  | .between _ a b c => a.Fits ∧ b.Fits ∧ c.Fits ∧ a.leftOf Level.between ∧
      b.head < Level.between ∧ c.head < Level.between
  | .like _ _ a b => a.Fits ∧ b.Fits ∧ a.leftOf Level.between ∧ b.head < Level.between
  | .inList _ a l => a.Fits ∧ fitList l ∧ a.leftOf Level.between
  | .inQuery _ a _ => a.Fits ∧ a.leftOf Level.between
  | .quant o _ a b => a.Fits ∧ b.Fits ∧ a.leftOf (opLevel o)
  | .quantQuery o _ a _ => a.Fits ∧ a.leftOf (opLevel o)
  | .is _ _ a => a.Fits ∧ a.leftOf Level.is
  | .distinctFrom _ a b => a.Fits ∧ b.Fits ∧ a.leftOf Level.is ∧ b.head < Level.is
  | .not a => a.Fits ∧ a.head < Level.not
  | .and a b => a.Fits ∧ b.Fits ∧ a.leftOf Level.and ∧ b.head < Level.and
  | .or a b => a.Fits ∧ b.Fits ∧ a.leftOf Level.or ∧ b.head < Level.or
  | .cast a _ => a.Fits
  | .call _ _ l => fitList l
  | .case whens els => fitWhens whens ∧ fitElse els
  | _ => True

def fitList : List Sql → Prop
  | [] => True
  | a :: l => a.Fits ∧ fitList l

def fitWhens : List (Sql × Sql) → Prop
  | [] => True
  | (c, a) :: l => c.Fits ∧ a.Fits ∧ fitWhens l

def fitElse : Option Sql → Prop
  | none => True
  | some e => e.Fits

end

mutual

/-- The names are names, and the lists that may not be empty are not. -/
def Sql.Formed : Sql → Prop
  | .column w | .callStar w => isName w = true
  | .paren a | .collate a _ | .pre _ a | .inQuery _ a _ | .quantQuery _ _ a _ | .is _ _ a | .not a
  | .cast a _ => a.Formed
  | .dot a b | .index a b | .bin _ a b | .like _ _ a b | .quant _ _ a b | .distinctFrom _ a b
  | .and a b | .or a b => a.Formed ∧ b.Formed
  | .between _ a b c => a.Formed ∧ b.Formed ∧ c.Formed
  | .inList _ a l => a.Formed ∧ formedList l ∧ l ≠ []
  | .call f d l => isName f = true ∧ formedList l ∧ (d = true → l ≠ [])
  | .case whens els => formedWhens whens ∧ formedElse els ∧ whens ≠ []
  | _ => True

def formedList : List Sql → Prop
  | [] => True
  | a :: l => a.Formed ∧ formedList l

def formedWhens : List (Sql × Sql) → Prop
  | [] => True
  | (c, a) :: l => c.Formed ∧ a.Formed ∧ formedWhens l

def formedElse : Option Sql → Prop
  | none => True
  | some e => e.Formed

end

theorem opLevel_lt_all (o : Text) : opLevel o < Level.all := by
  unfold opLevel
  repeat' split
  all_goals decide

theorem head_lt_all : (s : Sql) → s.head < Level.all
  | .dot a _ | .index a _ | .collate a _ | .between _ a _ _ | .like _ _ a _ | .inList _ a _
  | .inQuery _ a _ | .is _ _ a | .distinctFrom _ a _ | .and a _ | .or a _ =>
    Nat.max_lt.2 ⟨by decide, head_lt_all a⟩
  | .bin o a _ | .quant o _ a _ | .quantQuery o _ a _ =>
    Nat.max_lt.2 ⟨opLevel_lt_all o, head_lt_all a⟩
  | .null | .bool _ | .param _ | .number _ | .string _ | .column _ | .quoted _ | .subquery _
  | .paren _ | .pre _ _ | .not _ | .cast _ _ | .call _ _ _ | .callStar _ | .exists _
  | .case _ _ => (by decide : 0 < Level.all)

theorem prefixLevel_le_not (o : Text) : prefixLevel o ≤ Level.not := by
  unfold prefixLevel
  split <;> decide

theorem tail_le_of_infix {l head tail right bound : Nat} (h : tail ≤ max right bound)
    (hr : right < l) : max l tail ≤ max (max l head) bound := by omega

theorem tail_le_of_prefix {l tail right bound : Nat} (h : tail ≤ max right bound) (hr : right < l)
    (hl : l ≤ bound) : max l tail ≤ max 0 bound := by omega

/-- What is open at the right edge is on the left edge, or is behind a prefix operator. -/
theorem tail_le : (s : Sql) → s.Fits → s.tail ≤ max s.head Level.not
  | .pre o a, h => tail_le_of_prefix (tail_le a h.1) h.2 (prefixLevel_le_not o)
  | .not a, h => tail_le_of_prefix (tail_le a h.1) h.2 (Nat.le_refl Level.not)
  | .dot _ b, h | .bin _ _ b, h | .like _ _ _ b, h | .distinctFrom _ _ b, h | .and _ b, h
  | .or _ b, h => tail_le_of_infix (tail_le b h.2.1) h.2.2.2
  | .between _ _ _ c, h => tail_le_of_infix (tail_le c h.2.2.1) h.2.2.2.2.2
  | .null, _ | .bool _, _ | .param _, _ | .number _, _ | .string _, _ | .column _, _
  | .quoted _, _ | .subquery _, _ | .paren _, _ | .index _ _, _ | .collate _ _, _
  | .inList _ _ _, _ | .inQuery _ _ _, _ | .quant _ _ _ _, _ | .quantQuery _ _ _ _, _
  | .is _ _ _, _ | .cast _ _, _ | .call _ _ _, _ | .callStar _, _ | .exists _, _
  | .case _ _, _ => Nat.zero_le _

theorem opLevel_le_not (o : Text) : opLevel o ≤ Level.not := by
  unfold opLevel
  repeat' split
  all_goals decide

theorem head_le_of_tight {l head left tail : Nat} (h : head ≤ max left Level.not) (hl : left ≤ l)
    (hn : l ≤ Level.not) : max l head ≤ max tail Level.not := by omega

theorem head_le_of_loose {l head left right : Nat} (h : head ≤ max left Level.not)
    (hl : left ≤ l) : max l head ≤ max (max l right) Level.not := by omega

/-- What is on the left edge of a tree that fits is open at the right, or is tighter than `NOT`. -/
theorem head_le : (s : Sql) → s.Fits → s.head ≤ max s.tail Level.not
  | .collate a _, h => head_le_of_tight (head_le a h.1) h.2.1 (by decide)
  | .inQuery _ a _, h | .is _ _ a, h => head_le_of_tight (head_le a h.1) h.2.1 (by decide)
  | .quantQuery o _ a _, h => head_le_of_tight (head_le a h.1) h.2.1 (opLevel_le_not o)
  | .index a _, h | .inList _ a _, h => head_le_of_tight (head_le a h.1) h.2.2.1 (by decide)
  | .quant o _ a _, h => head_le_of_tight (head_le a h.1) h.2.2.1 (opLevel_le_not o)
  | .dot a _, h | .like _ _ a _, h | .distinctFrom _ a _, h =>
    head_le_of_tight (head_le a h.1) h.2.2.1.1 (by decide)
  | .bin o a _, h => head_le_of_tight (head_le a h.1) h.2.2.1.1 (opLevel_le_not o)
  | .between _ a _ _, h => head_le_of_tight (head_le a h.1) h.2.2.2.1.1 (by decide)
  | .and a _, h | .or a _, h => head_le_of_loose (head_le a h.1) h.2.2.1.1
  | .null, _ | .bool _, _ | .param _, _ | .number _, _ | .string _, _ | .column _, _
  | .quoted _, _ | .subquery _, _ | .paren _, _ | .pre _ _, _ | .not _, _ | .cast _ _, _
  | .call _ _ _, _ | .callStar _, _ | .exists _, _ | .case _ _, _ => Nat.zero_le _

/-! ## What may stand first, and next -/

/-- A lexeme an expression can start with. -/
def isStart : Lexeme → Bool
  | .key k _ => !k.reserved || k == .null || k == .true || k == .false || k == .not || k == .cast ||
      k == .case
  | .punct c => c == '('
  | .other => false
  | _ => true

/-- The lexemes start an expression; behind a prefix operator its operand starts. -/
def Starts (ts : List Lexeme) : Prop :=
  ∃ x r, ts = x :: r ∧ isStart x = true ∧ (∀ o, x = .op o → ∃ y, r.head? = some y ∧ isStart y = true)

theorem Starts.append {ts : List Lexeme} (h : Starts ts) (us : List Lexeme) : Starts (ts ++ us) := by
  obtain ⟨x, r, rfl, hx, ho⟩ := h
  refine ⟨x, r ++ us, rfl, hx, fun o e => ?_⟩
  obtain ⟨y, hy, hs⟩ := ho o e
  cases r with
  | nil => cases hy
  | cons z r => exact ⟨y, hy, hs⟩

theorem starts_cons {x : Lexeme} {r : List Lexeme} (hx : isStart x = true) (ho : ∀ o, x ≠ .op o) :
    Starts (x :: r) := ⟨x, r, rfl, hx, fun o e => absurd e (ho o)⟩

theorem lexeme_name {w : Text} (h : isName w = true) :
    (Token.word w).lexeme = .name w ∨
      ∃ k, (Token.word w).lexeme = .key k w ∧ k.reserved = false := by
  unfold isName at h
  simp only [Token.lexeme]
  cases hk : Key.ofWord w with
  | none => exact .inl rfl
  | some k => rw [hk] at h; exact .inr ⟨k, rfl, by simpa using h⟩

theorem starts_name {w : Text} (h : isName w = true) : Starts [(Token.word w).lexeme] := by
  rcases lexeme_name h with e | ⟨k, e, hk⟩ <;> rw [e]
  · exact starts_cons rfl (by simp)
  · have hstart : isStart (.key k w) = true := by
      unfold isStart
      simp [hk]
    exact starts_cons hstart (by simp)

theorem Sql.starts : (s : Sql) → s.Formed → Starts s.lexemes
  | .null, _ => starts_cons (by decide) (by simp [Key.lexeme])
  | .bool b, _ => starts_cons (by cases b <;> decide) (by cases b <;> simp [Key.lexeme])
  | .param _, _ | .number _, _ | .string _, _ | .quoted _, _ | .subquery _, _ | .paren _, _ =>
    starts_cons rfl (by simp)
  | .column _, h => starts_name h
  | .collate a _, h | .inQuery _ a _, h | .quantQuery _ _ a _, h | .is _ _ a, h =>
    (a.starts h).append _
  | .dot a _, h | .index a _, h | .bin _ a _, h | .between _ a _ _, h | .like _ _ a _, h
  | .inList _ a _, h | .quant _ _ a _, h | .distinctFrom _ a _, h | .and a _, h | .or a _, h =>
    (a.starts h.1).append _
  | .pre o a, h => by
    obtain ⟨x, r, e, hx, -⟩ := a.starts h
    exact ⟨_, _, rfl, rfl, fun _ _ => ⟨x, by rw [e]; rfl, hx⟩⟩
  | .not _, _ | .cast _ _, _ | .case _ _, _ | .exists _, _ =>
    starts_cons (by decide) (by simp [Key.lexeme])
  | .call _ _ _, h => (starts_name h.1).append _
  | .callStar _, h => (starts_name h).append _

/-- What follows an expression of the row `l` read on its own: no tighter operator, and neither a
bracket nor a subquery (a name before them would be a function's). -/
structure Follow (l : Level) (r : List Lexeme) : Prop where
  level : ∀ i r', readInfix r = some (i, r') → l ≤ i.level
  bracket : r.head? ≠ some (.punct '(')
  subquery : ∀ q, r.head? ≠ some (.subquery q)

theorem Follow.mono {l l' : Level} {r : List Lexeme} (h : Follow l r) (hl : l' ≤ l) :
    Follow l' r :=
  ⟨fun i r' hi => Nat.le_trans hl (h.level i r' hi), h.bracket, h.subquery⟩

theorem Follow.of_none {x : Lexeme} {r : List Lexeme} (l : Level) (h : readInfix (x :: r) = none)
    (hb : x ≠ .punct '(') (hq : ∀ q, x ≠ .subquery q) : Follow l (x :: r) :=
  ⟨fun _ _ hi => absurd (h.symm.trans hi) (by simp), by simpa using hb, fun q => by simpa using hq q⟩

theorem Follow.nil (l : Level) : Follow l [] :=
  ⟨fun _ _ hi => absurd hi (by simp [readInfix]), by simp, by simp⟩

/-! ## Reading a tree -/

/-- **From the lexemes of `s` the parser arrives at its loop**, with `s` read and enough fuel
left. -/
def Reaches (s : Sql) : Prop :=
  ∀ lim r, s.head < lim → Follow s.tail r → ∀ n, 4 * s.lexemes.length ≤ n →
    ∃ n', n ≤ n' + 4 * s.lexemes.length ∧
      pExpr n lim (s.lexemes ++ r) = pLoop n' lim s.last s.strip r

theorem last_pre (o : Text) (a : Sql) : (Sql.pre o a).last = 0 := by
  simp only [Sql.last, Sql.level, prefixLevel]
  split <;> rfl

theorem pLoop_stop {n : Nat} {lim last : Level} {a : Sql} {r : List Lexeme}
    (h : ∀ i r', readInfix r = some (i, r') → lim ≤ i.level) :
    pLoop (n + 1) lim last a r = some (a, r) := by
  rw [pLoop]
  split
  · rfl
  · rename_i i r' hi
    rw [if_pos (h i r' hi)]

/-- Where no operator of the row `lim` or tighter follows, `s` is all the parser reads. -/
theorem Reaches.reads {s : Sql} (h : Reaches s) {lim : Level} {r : List Lexeme}
    (hl : s.head < lim) (hr : Follow (max lim s.tail) r) {n : Nat}
    (hn : 4 * s.lexemes.length + 1 ≤ n) :
    pExpr n lim (s.lexemes ++ r) = some (s.strip, r) := by
  obtain ⟨n', hn', he⟩ := h lim r hl (hr.mono (Nat.le_max_right _ _)) n (by omega)
  obtain ⟨k, rfl⟩ : ∃ k, n' = k + 1 := ⟨n' - 1, by omega⟩
  rw [he, pLoop_stop (hr.mono (Nat.le_max_left _ _)).level]

theorem reaches_operand {s : Sql} (hlast : s.last = 0) (hlen : 1 ≤ s.lexemes.length)
    (h : ∀ r, Follow s.tail r → ∀ m, 4 * s.lexemes.length ≤ m + 1 →
      pOperand m (s.lexemes ++ r) = some (s.strip, r)) : Reaches s := by
  intro lim r hl hr n hn
  obtain ⟨k, rfl⟩ : ∃ k, n = k + 1 := ⟨n - 1, by omega⟩
  refine ⟨k, by omega, ?_⟩
  rw [pExpr, h r hr k (by omega), hlast]
  rfl

/-- **The step of every infix and postfix operator**: the parser takes the operator behind its
left operand, and reads the rest of it. -/
theorem reaches_infix {a s : Sql} {i : Infix} {x : List Lexeme} (ha : Reaches a)
    (hleft : a.leftOf i.level) (hlex : s.lexemes = a.lexemes ++ x) (hlev : s.level = i.level)
    (hhead : s.head = max i.level a.head) (hne : x ≠ [])
    (hx : ∀ r, Follow s.tail r → ∃ y, readInfix (x ++ r) = some (i, y) ∧
      ∀ m, 4 * x.length ≤ m + 1 → pRight m i a.strip y = some (s.strip, r)) : Reaches s := by
  intro lim r hl hr n hn
  rw [hhead, Nat.max_lt] at hl
  obtain ⟨y, hy, hright⟩ := hx r hr
  have hfollow : Follow a.tail (x ++ r) := by
    refine ⟨fun i' r' hi' => ?_, fun hh => ?_, fun q hh => ?_⟩
    · rw [hy] at hi'; cases hi'; exact hleft.1
    all_goals
      cases hxr : x ++ r with
      | nil => rw [hxr] at hh; cases hh
      | cons t u =>
        rw [hxr] at hh hy
        cases hh
        simp [readInfix] at hy
  rw [hlex, List.length_append] at hn
  obtain ⟨n1, hn1, he⟩ := ha lim (x ++ r) hl.2 hfollow n (by omega)
  have hxpos := List.length_pos_iff.2 hne
  obtain ⟨k, rfl⟩ : ∃ k, n1 = k + 1 := ⟨n1 - 1, by omega⟩
  refine ⟨k, by rw [hlex, List.length_append]; omega, ?_⟩
  rw [hlex, List.append_assoc, he, pLoop, hy]
  simp only [if_neg (Nat.not_le.2 hl.1), if_neg hleft.2, hright k (by omega)]
  simp only [Sql.last, hlev]
  rfl

/-! ### The pieces between operands -/

theorem readInfix_op {o : Text} {ts : List Lexeme} (h : Starts ts) :
    readInfix (.op o :: ts) = some (.op o, ts) := by
  obtain ⟨x, r, rfl, hx, -⟩ := h
  cases x with
  | key k w => cases k <;> first | rfl | cases hx
  | _ => rfl

theorem follow_punct {c : Char} (hc : c = ')' ∨ c = ']' ∨ c = ',') (l : Level) (r : List Lexeme) :
    Follow l (.punct c :: r) := by
  rcases hc with rfl | rfl | rfl <;> exact Follow.of_none l rfl (by simp) (by simp)

theorem follow_key {k : Key} (hk : k = .as ∨ k = .when ∨ k = .then ∨ k = .else ∨ k = .end)
    (l : Level) (w : Text) (r : List Lexeme) : Follow l (.key k w :: r) := by
  rcases hk with rfl | rfl | rfl | rfl | rfl <;> exact Follow.of_none l rfl (by simp) (by simp)

theorem follow_and (w : Text) (r : List Lexeme) : Follow Level.and (.key .and w :: r) :=
  ⟨fun i r' hi => by cases hi; decide, by simp, by simp⟩

/-- A name that no bracket follows is a column. -/
theorem pName_column {n : Nat} {w : Text} {r : List Lexeme} (h : r.head? ≠ some (.punct '(')) :
    pName (n + 1) w r = some (.column w, r) := by
  rw [pName]
  all_goals
    intros
    rename_i he
    exact h (by rw [he]; rfl)

theorem pOperand_name {n : Nat} {w : Text} {r : List Lexeme} (hw : isName w = true)
    (h : ∀ q, r.head? ≠ some (.subquery q)) :
    pOperand (n + 1) ((Token.word w).lexeme :: r) = pName n w r := by
  rcases lexeme_name hw with e | ⟨k, e, hk⟩ <;> rw [e]
  · rw [pOperand]
  · have hex : ∀ (q : List Token) (r' : List Lexeme), r = .subquery q :: r' → False :=
      fun q r' he => h q (by rw [he]; rfl)
    cases k <;> first
      | (simp [Key.reserved] at hk; done)
      | (rw [pOperand]
         · rfl
         all_goals simp
         try exact hex)

/-! ### Every tree -/

/-- The list of arguments, up to its closing bracket. -/
def ListReads (l : List Sql) : Prop :=
  ∀ r n, 4 * (listLexemes l).length + 2 ≤ n →
    pList n (listLexemes l ++ .punct ')' :: r) = some (stripList l, r)

/-- The branches of a `CASE`, up to its `END`. -/
def CaseReads (whens : List (Sql × Sql)) (els : Option Sql) : Prop :=
  ∀ r n, 4 * ((whenLexemes whens).length + (elseLexemes els).length) + 2 ≤ n →
    pCase n (whenLexemes whens ++ (elseLexemes els ++ Key.end.lexeme :: r)) =
      some (stripWhens whens, stripElse els, r)

theorem lexeme_key (k : Key) : k.lexeme = .key k k.text := rfl

theorem expect_closing (r : List Lexeme) : expect closing (.punct ')' :: r) = some r := rfl

/-- An infix operator whose right side is one operand of a tighter row. -/
theorem reaches_bin {a b s : Sql} {i : Infix} {x : List Lexeme} (ha : Reaches a) (hb : Reaches b)
    (hleft : a.leftOf i.level) (hright : b.head < i.level)
    (hlex : s.lexemes = a.lexemes ++ (x ++ b.lexemes)) (hlev : s.level = i.level)
    (hhead : s.head = max i.level a.head) (htail : s.tail = max i.level b.tail) (hne : x ≠ [])
    (hx : ∀ r, readInfix (x ++ b.lexemes ++ r) = some (i, b.lexemes ++ r))
    (hp : ∀ m r, pExpr m i.level (b.lexemes ++ r) = some (b.strip, r) →
      pRight (m + 1) i a.strip (b.lexemes ++ r) = some (s.strip, r)) : Reaches s := by
  refine reaches_infix ha hleft hlex hlev hhead (by simp [hne]) fun r hr =>
    ⟨_, hx r, fun m hm => ?_⟩
  rw [htail] at hr
  have := List.length_pos_iff.2 hne
  rw [List.length_append] at hm
  obtain ⟨k, rfl⟩ : ∃ k, m = k + 1 := ⟨m - 1, by omega⟩
  exact hp k r (hb.reads hright hr (by omega))

theorem readInfix_quant (o : Text) (all : Bool) (r : List Lexeme) :
    readInfix (.op o :: quantLexeme all :: r) = some (.quant o all, r) := by cases all <;> rfl

theorem listLexemes_starts : {l : List Sql} → formedList l → l ≠ [] → Starts (listLexemes l)
  | [], _, h => absurd rfl h
  | [a], h, _ => a.starts h.1
  | a :: _ :: _, h, _ => (a.starts h.1).append _

/-- A bracket behind a name, and an argument in it: a call. -/
theorem pName_call {n : Nat} {w : Text} {ts r : List Lexeme} {l : List Sql} (h : Starts ts)
    (hl : pList n ts = some (l, r)) :
    pName (n + 1) w (.punct '(' :: ts) = some (.call w false l, r) := by
  obtain ⟨x, u, rfl, hx, ho⟩ := h
  rw [pName]
  · rw [hl]; rfl
  · rintro r' he
    cases he
    cases hx
  · rintro r' he
    cases he
    obtain ⟨y, hy, hs⟩ := ho _ rfl
    cases hy
    cases hs
  · rintro w' r' he
    cases he
    cases hx

mutual

/-- **The parser reads every tree that is formed and fits.** -/
theorem Sql.reaches : (s : Sql) → s.Formed → s.Fits → Reaches s
  | .null, _, _ => reaches_operand rfl (by simp [Sql.lexemes]) fun r _ m hm => by
    obtain ⟨k, rfl⟩ : ∃ k, m = k + 1 := ⟨m - 1, by simp [Sql.lexemes] at hm; omega⟩
    rfl
  | .bool b, _, _ => reaches_operand rfl (by simp [Sql.lexemes]) fun r _ m hm => by
    obtain ⟨k, rfl⟩ : ∃ k, m = k + 1 := ⟨m - 1, by simp [Sql.lexemes] at hm; omega⟩
    cases b <;> rfl
  | .param _, _, _ | .number _, _, _ | .string _, _, _ | .quoted _, _, _ | .subquery _, _, _ =>
    reaches_operand rfl (by simp [Sql.lexemes]) fun r _ m hm => by
      obtain ⟨k, rfl⟩ : ∃ k, m = k + 1 := ⟨m - 1, by simp [Sql.lexemes] at hm; omega⟩
      rfl
  | .column w, h, _ => reaches_operand rfl (by simp [Sql.lexemes]) fun r hr m hm => by
    obtain ⟨k, rfl⟩ : ∃ k, m = k + 2 := ⟨m - 2, by simp [Sql.lexemes] at hm; omega⟩
    exact (pOperand_name h hr.subquery).trans (pName_column hr.bracket)
  | .exists q, _, _ => reaches_operand rfl (by simp [Sql.lexemes]) fun r _ m hm => by
    obtain ⟨k, rfl⟩ : ∃ k, m = k + 1 := ⟨m - 1, by simp [Sql.lexemes] at hm; omega⟩
    rfl
  | .callStar f, h, _ => reaches_operand rfl (by simp [Sql.lexemes]) fun r _ m hm => by
    obtain ⟨k, rfl⟩ : ∃ k, m = k + 2 := ⟨m - 2, by simp [Sql.lexemes] at hm; omega⟩
    exact (pOperand_name h (by simp)).trans rfl
  | .paren a, h, hf => reaches_operand rfl (by simp [Sql.lexemes]) fun r _ m hm => by
    simp only [Sql.lexemes, List.length_cons, List.length_append] at hm
    obtain ⟨k, rfl⟩ : ∃ k, m = k + 1 := ⟨m - 1, by omega⟩
    have hr := (a.reaches h hf).reads (n := k) (r := .punct ')' :: r) (head_lt_all a)
      (follow_punct (.inl rfl) _ _) (by omega)
    simp only [Sql.lexemes, List.cons_append, List.append_assoc, List.nil_append, Sql.strip]
    simp only [pOperand, hr, expect_closing, bind, Option.bind]
  | .cast a w, h, hf => reaches_operand rfl (by simp [Sql.lexemes]) fun r _ m hm => by
    simp only [Sql.lexemes, List.length_cons, List.length_append] at hm
    obtain ⟨k, rfl⟩ : ∃ k, m = k + 1 := ⟨m - 1, by omega⟩
    have hr := (a.reaches h hf).reads (n := k) (head_lt_all a)
      (follow_key (.inl rfl) _ (Key.text .as) ((Token.word w).lexeme :: .punct ')' :: r))
      (by omega)
    have hty : readType a.strip ((Token.word w).lexeme :: .punct ')' :: r) =
        some (.cast a.strip w, r) := by
      simp only [Token.lexeme]
      cases Key.ofWord w <;> rfl
    have hcast : Key.cast.lexeme = .key .cast Key.cast.text := rfl
    simp only [Sql.lexemes, List.cons_append, List.append_assoc, List.nil_append, Sql.strip, hcast]
    simp only [pOperand, expect, beq_self_eq_true, if_true, lexeme_key, hr, isKey, hty, bind,
      Option.bind]
  | .dot a b, h, hf => reaches_bin (i := .dot) (x := [.punct '.']) (a.reaches h.1 hf.1)
      (b.reaches h.2 hf.2.1) hf.2.2.1 hf.2.2.2 rfl rfl rfl rfl (by simp) (fun _ => rfl)
      fun m r hb => by
    simp only [pRight, show Infix.level .dot = Level.dot from rfl] at hb ⊢
    rw [hb]; rfl
  | .bin o a b, h, hf => reaches_bin (i := .op o) (x := [.op o]) (a.reaches h.1 hf.1)
      (b.reaches h.2 hf.2.1) hf.2.2.1 hf.2.2.2 rfl rfl rfl rfl (by simp)
      (fun r => readInfix_op ((b.starts h.2).append r)) fun m r hb => by
    simp only [pRight, show Infix.level (.op o) = opLevel o from rfl] at hb ⊢
    rw [hb]; rfl
  | .and a b, h, hf => reaches_bin (i := .and) (x := [Key.and.lexeme]) (a.reaches h.1 hf.1)
      (b.reaches h.2 hf.2.1) hf.2.2.1 hf.2.2.2 rfl rfl rfl rfl (by simp) (fun _ => rfl)
      fun m r hb => by
    simp only [pRight, show Infix.level .and = Level.and from rfl] at hb ⊢
    rw [hb]; rfl
  | .or a b, h, hf => reaches_bin (i := .or) (x := [Key.or.lexeme]) (a.reaches h.1 hf.1)
      (b.reaches h.2 hf.2.1) hf.2.2.1 hf.2.2.2 rfl rfl rfl rfl (by simp) (fun _ => rfl)
      fun m r hb => by
    simp only [pRight, show Infix.level .or = Level.or from rfl] at hb ⊢
    rw [hb]; rfl
  | .like op neg a b, h, hf => reaches_bin (i := .like op neg) (x := notLexemes neg ++ op.lexemes)
      (a.reaches h.1 hf.1) (b.reaches h.2 hf.2.1) hf.2.2.1 hf.2.2.2 (by simp [Sql.lexemes]) rfl rfl
      rfl (by cases op <;> simp [LikeOp.lexemes]) (fun _ => by cases op <;> cases neg <;> rfl)
      fun m r hb => by
    simp only [pRight, show Infix.level (.like op neg) = Level.between from rfl] at hb ⊢
    rw [hb]; rfl
  | .is neg t a, h, hf => reaches_infix (i := .is) (a.reaches h hf.1) hf.2 rfl rfl rfl (by simp)
      fun r _ => ⟨_, rfl, fun m hm => by
        obtain ⟨k, rfl⟩ : ∃ k, m = k + 1 := ⟨m - 1, by simp at hm; omega⟩
        cases neg <;> cases t <;> rfl⟩
  | .distinctFrom neg a b, h, hf => reaches_infix (i := .is) (a.reaches h.1 hf.1) hf.2.2.1 rfl rfl
      rfl (by simp) fun r hr => ⟨_, rfl, fun m hm => by
        simp only [List.length_cons, List.length_append] at hm
        obtain ⟨k, rfl⟩ : ∃ k, m = k + 1 := ⟨m - 1, by omega⟩
        have hb := (b.reaches h.2 hf.2.1).reads (n := k) hf.2.2.2 hr (by omega)
        cases neg <;> simp only [notLexemes, lexeme_key, List.append_eq, List.cons_append,
          List.nil_append, Bool.false_eq_true, if_true, if_false, pRight, hb, bind, Option.bind,
          Sql.strip]⟩
  | .collate a c, h, hf => reaches_infix (i := .collate) (a.reaches h hf.1) hf.2 rfl rfl rfl
      (by simp) fun r _ => ⟨_, rfl, fun m hm => by
        obtain ⟨k, rfl⟩ : ∃ k, m = k + 1 := ⟨m - 1, by simp at hm; omega⟩
        rfl⟩
  | .index a b, h, hf => reaches_infix (i := .index) (a.reaches h.1 hf.1) hf.2.2 rfl rfl rfl
      (by simp) fun r hr => ⟨_, rfl, fun m hm => by
        simp only [List.length_cons, List.length_append] at hm
        obtain ⟨k, rfl⟩ : ∃ k, m = k + 1 := ⟨m - 1, by omega⟩
        have hb := (b.reaches h.2 hf.2.1).reads (n := k) (r := .punct ']' :: r) (head_lt_all b)
          (follow_punct (.inr (.inl rfl)) _ _) (by omega)
        simp only [List.append_eq, List.append_assoc, List.cons_append, List.nil_append, pRight, hb,
          bind, Option.bind, expect, beq_self_eq_true, if_true, Sql.strip]⟩
  | .between neg a b c, h, hf => reaches_infix (i := .between neg) (a.reaches h.1 hf.1)
      hf.2.2.2.1 rfl rfl rfl (by simp) fun r hr => ⟨b.lexemes ++ (Key.and.lexeme :: (c.lexemes ++ r)),
        by cases neg <;> simp [notLexemes, lexeme_key, readInfix], fun m hm => by
        simp only [List.length_cons, List.length_append] at hm
        obtain ⟨k, rfl⟩ : ∃ k, m = k + 1 := ⟨m - 1, by omega⟩
        -- no operator left open in the middle operand is looser than its `AND`
        have hnot : max b.head Level.not ≤ Level.and :=
          Nat.max_le.2 ⟨Nat.le_of_lt (Nat.lt_trans hf.2.2.2.2.1 (by decide)), by decide⟩
        have htail : max Level.between b.tail ≤ Level.and :=
          Nat.max_le.2 ⟨by decide, Nat.le_trans (tail_le b hf.2.1) hnot⟩
        have hb := (b.reaches h.2.1 hf.2.1).reads (n := k) hf.2.2.2.2.1
          ((follow_and Key.and.text (c.lexemes ++ r)).mono htail) (by omega)
        have hc := (c.reaches h.2.2 hf.2.2.1).reads (n := k) hf.2.2.2.2.2 hr (by omega)
        simp only [lexeme_key, pRight, hb, expect, isKey, beq_self_eq_true, if_true, hc, bind,
          Option.bind, Sql.strip]⟩
  | .inList neg a l, h, hf => reaches_infix (i := .isIn neg) (a.reaches h.1 hf.1) hf.2.2 rfl rfl
      rfl (by simp) fun r _ => ⟨.punct '(' :: (listLexemes l ++ .punct ')' :: r),
        by cases neg <;> simp [notLexemes, lexeme_key, readInfix], fun m hm => by
        simp only [List.length_cons, List.length_append] at hm
        obtain ⟨k, rfl⟩ : ∃ k, m = k + 1 := ⟨m - 1, by omega⟩
        have hl := listReads l h.2.1 hf.2.1 h.2.2 r k (by omega)
        simp only [pRight, hl, bind, Option.bind, Sql.strip]⟩
  | .inQuery neg a q, h, hf => reaches_infix (i := .isIn neg) (a.reaches h hf.1) hf.2 rfl rfl rfl
      (by simp) fun r _ => ⟨.subquery q :: r, by cases neg <;> rfl, fun m hm => by
        obtain ⟨k, rfl⟩ : ∃ k, m = k + 1 := ⟨m - 1, by simp at hm; omega⟩
        rfl⟩
  | .quant o all a b, h, hf => reaches_infix (i := .quant o all) (a.reaches h.1 hf.1) hf.2.2 rfl
      rfl rfl (by simp) fun r _ => ⟨_, readInfix_quant o all _, fun m hm => by
        simp only [List.length_cons, List.length_append] at hm
        obtain ⟨k, rfl⟩ : ∃ k, m = k + 1 := ⟨m - 1, by omega⟩
        have hb := (b.reaches h.2 hf.2.1).reads (n := k) (r := .punct ')' :: r) (head_lt_all b)
          (follow_punct (.inl rfl) _ _) (by omega)
        simp only [List.append_eq, List.append_assoc, List.cons_append, List.nil_append, pRight, hb,
          expect_closing, bind, Option.bind, Sql.strip]⟩
  | .quantQuery o all a q, h, hf => reaches_infix (i := .quant o all) (a.reaches h hf.1) hf.2 rfl
      rfl rfl (by simp) fun r _ => ⟨_, readInfix_quant o all _, fun m hm => by
        obtain ⟨k, rfl⟩ : ∃ k, m = k + 1 := ⟨m - 1, by simp at hm; omega⟩
        rfl⟩
  | .pre o a, h, hf => reaches_operand (last_pre o a) (by simp [Sql.lexemes]) fun r hr m hm => by
    simp only [Sql.lexemes, List.length_cons] at hm
    obtain ⟨k, rfl⟩ : ∃ k, m = k + 1 := ⟨m - 1, by omega⟩
    have ha := (a.reaches h hf.1).reads (n := k) hf.2 hr (by omega)
    simp only [Sql.lexemes, List.cons_append, pOperand, ha, bind, Option.bind, Sql.strip]
  | .not a, h, hf => reaches_operand rfl (by simp [Sql.lexemes]) fun r hr m hm => by
    simp only [Sql.lexemes, List.length_cons] at hm
    obtain ⟨k, rfl⟩ : ∃ k, m = k + 1 := ⟨m - 1, by omega⟩
    have ha := (a.reaches h hf.1).reads (n := k) hf.2 hr (by omega)
    simp only [Sql.lexemes, List.cons_append, lexeme_key, pOperand, ha, bind, Option.bind,
      Sql.strip]
  | .call f d l, h, hf => reaches_operand rfl (by simp [Sql.lexemes]) fun r _ m hm => by
    simp only [Sql.lexemes, List.length_cons, List.length_append] at hm
    obtain ⟨k, rfl⟩ : ∃ k, m = k + 2 := ⟨m - 2, by omega⟩
    simp only [Sql.lexemes, List.cons_append, List.append_assoc, List.nil_append]
    rw [pOperand_name h.1 (by simp)]
    by_cases hl : l = []
    · subst hl
      cases d
      · rfl
      · exact absurd rfl (h.2.2 rfl)
    · have hread := listReads l h.2.1 hf hl r k (by cases d <;> simp at hm <;> omega)
      cases d
      · exact pName_call ((listLexemes_starts h.2.1 hl).append _) hread
      · simp only [if_true, lexeme_key, List.cons_append, List.nil_append, pName, hread, bind,
          Option.bind, Sql.strip]
  | .case whens els, h, hf => reaches_operand rfl (by simp [Sql.lexemes]) fun r _ m hm => by
    simp only [Sql.lexemes, List.length_cons, List.length_append] at hm
    obtain ⟨k, rfl⟩ : ∃ k, m = k + 1 := ⟨m - 1, by omega⟩
    have he : ∀ e, els = some e → Reaches e := match els, h.2.1, hf.2 with
      | none, _, _ => fun e he => nomatch he
      | some e, h, hf => fun e' he => Option.some.inj he ▸ e.reaches h hf
    have hc := caseReads whens els h.1 hf.1 he h.2.2 r k (by omega)
    simp only [Sql.lexemes, List.cons_append, List.append_assoc, List.nil_append, lexeme_key,
      pOperand, bind, Option.bind, Sql.strip] at hc ⊢
    simp only [hc]

theorem listReads : (l : List Sql) → formedList l → fitList l → l ≠ [] → ListReads l
  | [], _, _, h => absurd rfl h
  | [a], h, hf, _ => fun r n hn => by
    obtain ⟨k, rfl⟩ : ∃ k, n = k + 1 := ⟨n - 1, by omega⟩
    have hr := (a.reaches h.1 hf.1).reads (n := k) (r := .punct ')' :: r) (head_lt_all a)
      (follow_punct (.inl rfl) _ _) (by simp only [listLexemes] at hn; omega)
    simp only [listLexemes, pList, hr, stripList, bind, Option.bind]
  | a :: b :: l, h, hf, _ => fun r n hn => by
    obtain ⟨k, rfl⟩ : ∃ k, n = k + 1 := ⟨n - 1, by omega⟩
    simp only [listLexemes, List.length_append, List.length_cons] at hn
    have hr := (a.reaches h.1 hf.1).reads (n := k) (r := .punct ',' :: (listLexemes (b :: l) ++
      .punct ')' :: r)) (head_lt_all a) (follow_punct (.inr (.inr rfl)) _ _) (by omega)
    have hl := listReads (b :: l) h.2 hf.2 (by simp) r k (by omega)
    simp only [listLexemes, pList, List.append_assoc, List.cons_append, hr, hl, stripList, bind,
      Option.bind]

theorem caseReads : (whens : List (Sql × Sql)) → (els : Option Sql) → formedWhens whens →
    fitWhens whens → (∀ e, els = some e → Reaches e) → whens ≠ [] → CaseReads whens els
  | [], _, _, _, _, h => absurd rfl h
  | [(c, a)], els, h, hf, he, _ => fun r n hn => by
    obtain ⟨k, rfl⟩ : ∃ k, n = k + 1 := ⟨n - 1, by omega⟩
    simp only [whenLexemes, List.length_append, List.length_cons, List.length_nil] at hn
    have hc := fun u => (c.reaches h.1 hf.1).reads (n := k) (head_lt_all c)
      (follow_key (.inr (.inr (.inl rfl))) _ Key.then.text u) (by omega)
    cases els with
    | none =>
      have ha := (a.reaches h.2.1 hf.2.1).reads (n := k) (head_lt_all a)
        (follow_key (.inr (.inr (.inr (.inr rfl)))) _ Key.end.text r) (by omega)
      simp only [whenLexemes, elseLexemes, lexeme_key, List.cons_append, List.append_assoc,
        List.nil_append, pCase, expect, isKey, beq_self_eq_true, if_true, hc, ha, bind, Option.bind,
        stripWhens, stripElse]
    | some e =>
      simp only [elseLexemes, List.length_cons] at hn
      have ha := fun u => (a.reaches h.2.1 hf.2.1).reads (n := k) (head_lt_all a)
        (follow_key (.inr (.inr (.inr (.inl rfl)))) _ Key.else.text u) (by omega)
      have he := (he e rfl).reads (n := k) (head_lt_all e)
        (follow_key (.inr (.inr (.inr (.inr rfl)))) _ Key.end.text r) (by omega)
      simp only [whenLexemes, elseLexemes, lexeme_key, List.cons_append, List.append_assoc,
        List.nil_append, pCase, expect, isKey, beq_self_eq_true, if_true, hc, ha, he, bind,
        Option.bind, stripWhens, stripElse]
  | (c, a) :: w :: l, els, h, hf, he, _ => fun r n hn => by
    obtain ⟨k, rfl⟩ : ∃ k, n = k + 1 := ⟨n - 1, by omega⟩
    have hl := caseReads (w :: l) els h.2.2 hf.2.2 he (by simp) r k (by
      simp only [whenLexemes, List.length_append, List.length_cons] at hn ⊢; omega)
    obtain ⟨c', a'⟩ := w
    simp only [whenLexemes, List.length_append, List.length_cons] at hn
    have hc := fun u => (c.reaches h.1 hf.1).reads (n := k) (head_lt_all c)
      (follow_key (.inr (.inr (.inl rfl))) _ Key.then.text u) (by omega)
    have ha := fun u => (a.reaches h.2.1 hf.2.1).reads (n := k) (head_lt_all a)
      (follow_key (.inr (.inl rfl)) _ Key.when.text u) (by omega)
    simp only [whenLexemes, lexeme_key, List.cons_append, List.append_assoc, stripWhens] at hl ⊢
    simp only [pCase, expect, isKey, beq_self_eq_true, if_true, hc, ha, hl, bind, Option.bind]

end

/-- **Reading back a written tree.** -/
theorem parse_lexemes {s : Sql} (h : s.Formed) (hf : s.Fits) : parse s.lexemes = some s.strip := by
  have := (s.reaches h hf).reads (n := 4 * s.lexemes.length + 4) (head_lt_all s)
    (Follow.nil _) (by omega)
  rw [List.append_nil] at this
  simp only [parse, this]

end Pg
