import IronQuery.Pg.Grammar

/-!
# A tree as tokens

`Sql.tokens` writes a tree the way its text spells it: a subquery as a query in brackets, a key word
as a word. `lexemes_tokens`: the lexemes of a tree without subqueries are its tokens, one by one.
-/

namespace Pg

/-- The word that spells the key word, in upper case. -/
def Key.token (k : Key) : Token := .word k.text

/-- The key word the token is, if any. -/
def Token.key : Token → Option Key
  | .word w => Key.ofWord w
  | _ => none

theorem ofWord_text (k : Key) : Key.ofWord k.text = some k := by cases k <;> decide

@[simp] theorem key_token (k : Key) : k.token.key = some k := ofWord_text k

@[simp] theorem lexeme_token (k : Key) : k.token.lexeme = k.lexeme := by
  simp only [Key.token, Token.lexeme, ofWord_text, Key.lexeme]

@[simp] theorem lexeme_punct (c : Char) : (Token.punct c).lexeme = .punct c := rfl

@[simp] theorem lexeme_op (o : Text) : (Token.op o).lexeme = .op o := rfl

@[simp] theorem lexeme_quoted (v : Text) : (Token.quotedIdent v).lexeme = .quoted v := rfl

@[simp] theorem lexeme_string (v : Text) : (Token.string v).lexeme = .string v := rfl

@[simp] theorem lexeme_number (n : Text) : (Token.number n).lexeme = .number n := rfl

@[simp] theorem lexeme_param (n : Text) : (Token.param n).lexeme = .param n := rfl

def notTokens (neg : Bool) : List Token := if neg then [Key.not.token] else []

def LikeOp.tokens : LikeOp → List Token
  | .like => [Key.like.token]
  | .ilike => [Key.ilike.token]
  | .similarTo => [Key.similar.token, Key.to.token]

def Test.token : Test → Token
  | .true => Key.true.token
  | .false => Key.false.token
  | .null => Key.null.token
  | .unknown => Key.unknown.token

def quantToken (all : Bool) : Token := if all then Key.all.token else Key.any.token

/-- Tokens in brackets. -/
def bracketed (ts : List Token) : List Token := .punct '(' :: (ts ++ [.punct ')'])

mutual

def Sql.tokens : Sql → List Token
  | .null => [Key.null.token]
  | .bool b => [if b then Key.true.token else Key.false.token]
  | .param n => [.param n]
  | .number n => [.number n]
  | .string v => [.string v]
  | .column w => [.word w]
  | .quoted v => [.quotedIdent v]
  | .subquery ts => bracketed ts
  | .paren a => bracketed a.tokens
  | .dot a b => a.tokens ++ .punct '.' :: b.tokens
  | .index a b => a.tokens ++ .punct '[' :: (b.tokens ++ [.punct ']'])
  | .collate a c => a.tokens ++ [Key.collate.token, .quotedIdent c]
  | .pre o a => .op o :: a.tokens
  | .bin o a b => a.tokens ++ .op o :: b.tokens
  | .between neg a b c =>
    a.tokens ++ (notTokens neg ++ Key.between.token :: (b.tokens ++ Key.and.token :: c.tokens))
  | .like op neg a b => a.tokens ++ (notTokens neg ++ (op.tokens ++ b.tokens))
  | .inList neg a l => a.tokens ++ (notTokens neg ++ Key.in.token :: bracketed (listTokens l))
  | .inQuery neg a ts => a.tokens ++ (notTokens neg ++ Key.in.token :: bracketed ts)
  | .quant o all a b => a.tokens ++ .op o :: quantToken all :: bracketed b.tokens
  | .quantQuery o all a ts => a.tokens ++ .op o :: quantToken all :: bracketed ts
  | .is neg t a => a.tokens ++ Key.is.token :: (notTokens neg ++ [t.token])
  | .distinctFrom neg a b =>
    a.tokens ++ Key.is.token :: (notTokens neg ++ Key.distinct.token :: Key.from.token :: b.tokens)
  | .not a => Key.not.token :: a.tokens
  | .and a b => a.tokens ++ Key.and.token :: b.tokens
  | .or a b => a.tokens ++ Key.or.token :: b.tokens
  | .cast a w => Key.cast.token :: bracketed (a.tokens ++ [Key.as.token, .word w])
  | .call f d l =>
    .word f :: bracketed ((if d then [Key.distinct.token] else []) ++ listTokens l)
  | .callStar f => .word f :: bracketed [.op ['*']]
  | .exists ts => Key.exists.token :: bracketed ts
  | .case whens els =>
    Key.case.token :: (whenTokens whens ++ (elseTokens els ++ [Key.end.token]))

def listTokens : List Sql → List Token
  | [] => []
  | [a] => a.tokens
  | a :: b :: l => a.tokens ++ .punct ',' :: listTokens (b :: l)

def whenTokens : List (Sql × Sql) → List Token
  | [] => []
  | (c, a) :: l => Key.when.token :: (c.tokens ++ Key.then.token :: (a.tokens ++ whenTokens l))

def elseTokens : Option Sql → List Token
  | none => []
  | some e => Key.else.token :: e.tokens

end

/-! ## Trees without subqueries -/

/-- A subquery, in any brackets. -/
def Sql.bare : Sql → Bool
  | .subquery _ => true
  | .paren a => a.bare
  | _ => false

mutual

/-- No subquery stands in the tree. -/
def Sql.Flat : Sql → Prop
  | .subquery _ | .inQuery _ _ _ | .quantQuery _ _ _ _ | .exists _ => False
  | .paren a | .collate a _ | .pre _ a | .is _ _ a | .not a | .cast a _ => a.Flat
  | .dot a b | .index a b | .bin _ a b | .like _ _ a b | .quant _ _ a b | .distinctFrom _ a b
  | .and a b | .or a b => a.Flat ∧ b.Flat
  | .between _ a b c => a.Flat ∧ b.Flat ∧ c.Flat
  | .inList _ a l => a.Flat ∧ flatList l
  | .call _ _ l => flatList l
  | .case whens els => flatWhens whens ∧ flatElse els
  | _ => True

def flatList : List Sql → Prop
  | [] => True
  | a :: l => a.Flat ∧ flatList l

def flatWhens : List (Sql × Sql) → Prop
  | [] => True
  | (c, a) :: l => c.Flat ∧ a.Flat ∧ flatWhens l

def flatElse : Option Sql → Prop
  | none => True
  | some e => e.Flat

end

theorem notLexemes_eq (neg : Bool) : (notTokens neg).map Token.lexeme = notLexemes neg := by
  cases neg <;> simp [notTokens, notLexemes]

theorem LikeOp.lexemes_eq (op : LikeOp) : op.tokens.map Token.lexeme = op.lexemes := by
  cases op <;> simp [LikeOp.tokens, LikeOp.lexemes]

theorem quantLexeme_eq (all : Bool) : (quantToken all).lexeme = quantLexeme all := by
  cases all <;> simp [quantToken, quantLexeme]

theorem Test.lexeme_eq (t : Test) : t.token.lexeme = t.lexeme := by
  cases t <;> simp [Test.token, Test.lexeme]

mutual

theorem Sql.lexemes_tokens : (s : Sql) → s.Flat → s.tokens.map Token.lexeme = s.lexemes
  | .null, _ | .param _, _ | .number _, _ | .string _, _ | .column _, _ | .quoted _, _
  | .callStar _, _ => by
    simp [Sql.tokens, Sql.lexemes, bracketed]
  | .bool b, _ => by cases b <;> simp [Sql.tokens, Sql.lexemes]
  | .paren a, h | .collate a _, h | .pre _ a, h | .not a, h | .cast a _, h => by
    simp [Sql.tokens, Sql.lexemes, bracketed, a.lexemes_tokens h]
  | .is neg t a, h => by
    simp [Sql.tokens, Sql.lexemes, notLexemes_eq, Test.lexeme_eq, a.lexemes_tokens h]
  | .dot a b, h | .index a b, h | .bin _ a b, h | .and a b, h | .or a b, h => by
    simp [Sql.tokens, Sql.lexemes, a.lexemes_tokens h.1, b.lexemes_tokens h.2]
  | .like op neg a b, h => by
    simp [Sql.tokens, Sql.lexemes, notLexemes_eq, LikeOp.lexemes_eq, a.lexemes_tokens h.1,
      b.lexemes_tokens h.2]
  | .quant o all a b, h => by
    simp [Sql.tokens, Sql.lexemes, bracketed, quantLexeme_eq, a.lexemes_tokens h.1,
      b.lexemes_tokens h.2]
  | .distinctFrom neg a b, h => by
    simp [Sql.tokens, Sql.lexemes, notLexemes_eq, a.lexemes_tokens h.1, b.lexemes_tokens h.2]
  | .between neg a b c, h => by
    simp [Sql.tokens, Sql.lexemes, notLexemes_eq, a.lexemes_tokens h.1, b.lexemes_tokens h.2.1,
      c.lexemes_tokens h.2.2]
  | .inList neg a l, h => by
    simp [Sql.tokens, Sql.lexemes, bracketed, notLexemes_eq, a.lexemes_tokens h.1,
      listLexemes_tokens l h.2]
  | .call f d l, h => by
    cases d <;> simp [Sql.tokens, Sql.lexemes, bracketed, listLexemes_tokens l h]
  | .case whens els, h => by
    simp [Sql.tokens, Sql.lexemes, whenLexemes_tokens whens h.1, elseLexemes_tokens els h.2]

theorem listLexemes_tokens : (l : List Sql) → flatList l →
    (listTokens l).map Token.lexeme = listLexemes l
  | [], _ => rfl
  | [a], h => by simp [listTokens, listLexemes, a.lexemes_tokens h.1]
  | a :: b :: l, h => by
    simp [listTokens, listLexemes, a.lexemes_tokens h.1,
      listLexemes_tokens (b :: l) h.2]

theorem whenLexemes_tokens : (l : List (Sql × Sql)) → flatWhens l →
    (whenTokens l).map Token.lexeme = whenLexemes l
  | [], _ => rfl
  | (c, a) :: l, h => by
    simp [whenTokens, whenLexemes, c.lexemes_tokens h.1, a.lexemes_tokens h.2.1,
      whenLexemes_tokens l h.2.2]

theorem elseLexemes_tokens : (o : Option Sql) → flatElse o →
    (elseTokens o).map Token.lexeme = elseLexemes o
  | none, _ => rfl
  | some e, h => by simp [elseTokens, elseLexemes, e.lexemes_tokens h]

end

end Pg
