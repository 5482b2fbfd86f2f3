import IronQuery.Pg.Lexer

/-!
# A reader of PostgreSQL's expressions

`Pg.parse` reads a sequence of lexemes as one expression, by operator precedence: the rows of the
documented precedence table are the numbers of `Level` (the tighter the smaller), `pExpr lim` reads
an expression whose operators outside brackets are all tighter than `lim`, and `pLoop` takes the
infix and postfix operators behind an operand as long as they are. Operators of one row associate
to the left, or not at all (`Infix.nonassoc`). `BETWEEN` takes its own `AND`, and the bracketed
forms (`CAST`, calls, subscripts, `IN`, `ANY`/`ALL`, `CASE`) start afresh inside their brackets.
`NOT`, a sign and any other prefix operator are read wherever an operand may stand.

The reader is wider than PostgreSQL's grammar: a subscript may stand behind any operand, `f(a)[1]`
too, and a word that is none of `Key.table` is a name, `user` and `array` too.

`Sql.lexemes` writes a tree back, with its brackets (`Sql.paren`) where the tree has them.
-/

namespace Pg

/-! ## Key words -/

inductive Key
  | and | or | not | null | true | false | unknown | case | when | then | else | end | cast | as
  | between | like | ilike | similar | to | in | is | distinct | from | any | some | all | collate
  | exists | select | where | group | by | having | order | limit | offset | asc | desc | nulls
  | first | last | on | using | join | inner | cross | left | right | full | outer | natural
  | union | intersect | except | with | insert | into | values | update | set | delete | returning
  deriving DecidableEq, Repr

/-- How a key word is spelt, in upper case. -/
def Key.table : List (Text × Key) :=
  [("AND".toList, .and), ("OR".toList, .or), ("NOT".toList, .not), ("NULL".toList, .null),
    ("TRUE".toList, .true), ("FALSE".toList, .false), ("UNKNOWN".toList, .unknown),
    ("CASE".toList, .case), ("WHEN".toList, .when), ("THEN".toList, .then),
    ("ELSE".toList, .else), ("END".toList, .end), ("CAST".toList, .cast), ("AS".toList, .as),
    ("BETWEEN".toList, .between), ("LIKE".toList, .like), ("ILIKE".toList, .ilike),
    ("SIMILAR".toList, .similar), ("TO".toList, .to), ("IN".toList, .in), ("IS".toList, .is),
    ("DISTINCT".toList, .distinct), ("FROM".toList, .from), ("ANY".toList, .any),
    ("SOME".toList, .some), ("ALL".toList, .all), ("COLLATE".toList, .collate),
    ("EXISTS".toList, .exists), ("SELECT".toList, .select), ("WHERE".toList, .where),
    ("GROUP".toList, .group), ("BY".toList, .by), ("HAVING".toList, .having),
    ("ORDER".toList, .order), ("LIMIT".toList, .limit), ("OFFSET".toList, .offset),
    ("ASC".toList, .asc), ("DESC".toList, .desc), ("NULLS".toList, .nulls),
    ("FIRST".toList, .first), ("LAST".toList, .last), ("ON".toList, .on),
    ("USING".toList, .using), ("JOIN".toList, .join), ("INNER".toList, .inner),
    ("CROSS".toList, .cross), ("LEFT".toList, .left), ("RIGHT".toList, .right),
    ("FULL".toList, .full), ("OUTER".toList, .outer), ("NATURAL".toList, .natural),
    ("UNION".toList, .union), ("INTERSECT".toList, .intersect), ("EXCEPT".toList, .except),
    ("WITH".toList, .with), ("INSERT".toList, .insert), ("INTO".toList, .into),
    ("VALUES".toList, .values), ("UPDATE".toList, .update), ("SET".toList, .set),
    ("DELETE".toList, .delete), ("RETURNING".toList, .returning)]

/-- The key word a word is, whatever its case. -/
def Key.ofWord (w : Text) : Option Key := Key.table.lookup (w.map Char.toUpper)

/-- A key word that cannot name a column. -/
def Key.reserved : Key → Bool
  | .unknown | .between | .exists | .by | .nulls | .first | .last | .insert | .values | .update
  | .set | .delete => Bool.false
  | _ => Bool.true

/-- A word that names a column or a function. -/
def isName (w : Text) : Bool := (Key.ofWord w).all fun k => !k.reserved

/-! ## Lexemes -/

/-- A token with the key words told apart, and a bracketed subquery taken as one. -/
inductive Lexeme
  | key (k : Key) (w : Text)
  | name (w : Text)
  | quoted (v : Text)
  | string (v : Text)
  | number (n : Text)
  | param (n : Text)
  | op (o : Text)
  | punct (c : Char)
  | subquery (ts : List Token)
  | other
  deriving DecidableEq, Repr

def Token.lexeme : Token → Lexeme
  | .word w => match Key.ofWord w with
    | some k => .key k w
    | none => .name w
  | .quotedIdent v => .quoted v
  | .string v => .string v
  | .number n => .number n
  | .param n => .param n
  | .op o => .op o
  | .punct c => .punct c
  | _ => .other

/-- The lexemes of a text. -/
def lexemes (s : Text) : List Lexeme := (lex s).map Token.lexeme

/-! ## Syntax trees -/

inductive LikeOp
  | like | ilike | similarTo
  deriving DecidableEq, Repr

/-- What `IS` may ask. -/
inductive Test
  | true | false | null | unknown
  deriving DecidableEq, Repr

inductive Sql
  | null
  | bool (b : Bool)
  | param (n : Text)
  | number (n : Text)
  | string (v : Text)
  | column (w : Text)
  | quoted (v : Text)
  | subquery (ts : List Token)
  | paren (a : Sql)
  | dot (a b : Sql)
  | index (a b : Sql)
  | collate (a : Sql) (collation : Text)
  | pre (op : Text) (a : Sql)
  | bin (op : Text) (a b : Sql)
  | between (neg : Bool) (a b c : Sql)
  | like (op : LikeOp) (neg : Bool) (a b : Sql)
  | inList (neg : Bool) (a : Sql) (values : List Sql)
  | inQuery (neg : Bool) (a : Sql) (ts : List Token)
  | quant (op : Text) (all : Bool) (a b : Sql)
  | quantQuery (op : Text) (all : Bool) (a : Sql) (ts : List Token)
  | is (neg : Bool) (test : Test) (a : Sql)
  | distinctFrom (neg : Bool) (a b : Sql)
  | not (a : Sql)
  | and (a b : Sql)
  | or (a b : Sql)
  | cast (a : Sql) (type : Text)
  | call (f : Text) (distinct : Bool) (args : List Sql)
  | callStar (f : Text)
  | exists (ts : List Token)
  | case (whens : List (Sql × Sql)) (els : Option Sql)
  deriving Repr

/-! ## The precedence table -/

/-- A row of the table: the tighter its operators bind the smaller. -/
abbrev Level := Nat

namespace Level

def dot : Level := 1
def index : Level := 3
def sign : Level := 4
def collate : Level := 5
def exp : Level := 7
def mul : Level := 8
def plus : Level := 9
def other : Level := 10
def between : Level := 11
def compare : Level := 12
def is : Level := 13
def not : Level := 14
def and : Level := 15
def or : Level := 16
/-- Looser than every operator. -/
def all : Level := 17

end Level

/-- The row of an infix operator, by its name. -/
def opLevel (o : Text) : Level :=
  if o = "^".toList then Level.exp
  else if o = "*".toList ∨ o = "/".toList ∨ o = "%".toList then Level.mul
  else if o = "+".toList ∨ o = "-".toList then Level.plus
  else if o = "<".toList ∨ o = ">".toList ∨ o = "=".toList ∨ o = "<=".toList ∨ o = ">=".toList ∨
    o = "<>".toList ∨ o = "!=".toList then Level.compare
  else Level.other

/-- The row of a prefix operator: a sign has its own. -/
def prefixLevel (o : Text) : Level :=
  if o = "+".toList ∨ o = "-".toList then Level.sign else Level.other

/-- What may stand behind an operand. -/
inductive Infix
  | dot
  | index
  | collate
  | op (o : Text)
  | between (neg : Bool)
  | like (op : LikeOp) (neg : Bool)
  | isIn (neg : Bool)
  | quant (o : Text) (all : Bool)
  | is
  | and
  | or
  deriving DecidableEq, Repr

def Infix.level : Infix → Level
  | .dot => Level.dot
  | .index => Level.index
  | .collate => Level.collate
  | .op o | .quant o _ => opLevel o
  | .between _ | .like _ _ | .isIn _ => Level.between
  | .is => Level.is
  | .and => Level.and
  | .or => Level.or

/-- The rows whose operators do not associate. -/
def Level.nonassoc (l : Level) : Bool := l == Level.between || l == Level.compare || l == Level.is

/-- The operator at the front of the lexemes behind an operand. -/
def readInfix : List Lexeme → Option (Infix × List Lexeme)
  | .punct '.' :: r => some (.dot, r)
  | .punct '[' :: r => some (.index, r)
  | .op o :: .key .any _ :: r => some (.quant o false, r)
  | .op o :: .key .some _ :: r => some (.quant o false, r)
  | .op o :: .key .all _ :: r => some (.quant o true, r)
  | .op o :: r => some (.op o, r)
  | .key .collate _ :: r => some (.collate, r)
  | .key .between _ :: r => some (.between false, r)
  | .key .like _ :: r => some (.like .like false, r)
  | .key .ilike _ :: r => some (.like .ilike false, r)
  | .key .similar _ :: .key .to _ :: r => some (.like .similarTo false, r)
  | .key .in _ :: r => some (.isIn false, r)
  | .key .not _ :: .key .between _ :: r => some (.between true, r)
  | .key .not _ :: .key .like _ :: r => some (.like .like true, r)
  | .key .not _ :: .key .ilike _ :: r => some (.like .ilike true, r)
  | .key .not _ :: .key .similar _ :: .key .to _ :: r => some (.like .similarTo true, r)
  | .key .not _ :: .key .in _ :: r => some (.isIn true, r)
  | .key .is _ :: r => some (.is, r)
  | .key .and _ :: r => some (.and, r)
  | .key .or _ :: r => some (.or, r)
  | _ => none

/-- `NULL`, `TRUE`, `FALSE` or `UNKNOWN`, behind `IS`. -/
def readTest : List Lexeme → Option (Test × List Lexeme)
  | .key .null _ :: r => some (.null, r)
  | .key .true _ :: r => some (.true, r)
  | .key .false _ :: r => some (.false, r)
  | .key .unknown _ :: r => some (.unknown, r)
  | _ => none

/-- The lexemes behind the lexeme `x`. -/
def expect (x : Lexeme → Bool) : List Lexeme → Option (List Lexeme)
  | t :: r => if x t then some r else none
  | [] => none

def isKey (k : Key) : Lexeme → Bool
  | .key k' _ => k == k'
  | _ => false

def closing : Lexeme → Bool := (· == .punct ')')

/-- The type's name that ends a `CAST`, and its bracket. -/
def readType (a : Sql) : List Lexeme → Option (Sql × List Lexeme)
  | .name w :: .punct ')' :: r => some (.cast a w, r)
  | .key _ w :: .punct ')' :: r => some (.cast a w, r)
  | _ => none

/-! ## The parser -/

mutual

/-- An expression whose operators outside brackets are tighter than `lim`. -/
def pExpr : Nat → Level → List Lexeme → Option (Sql × List Lexeme)
  | 0, _, _ => none
  | n + 1, lim, ts => do
    let (a, r) ← pOperand n ts
    pLoop n lim 0 a r

/-- The operators behind the operand `a`; `last` is the row of the last one if it does not
associate. -/
def pLoop : Nat → Level → Level → Sql → List Lexeme → Option (Sql × List Lexeme)
  | 0, _, _, _, _ => none
  | n + 1, lim, last, a, ts =>
    match readInfix ts with
    | none => some (a, ts)
    | some (i, r) =>
      if lim ≤ i.level then some (a, ts)
      else if i.level = last then none
      else do
        let (b, r') ← pRight n i a r
        pLoop n lim (if i.level.nonassoc then i.level else 0) b r'

/-- The rest of an operator that stands behind `a`. -/
def pRight : Nat → Infix → Sql → List Lexeme → Option (Sql × List Lexeme)
  | 0, _, _, _ => none
  | n + 1, .dot, a, ts => do
    let (b, r) ← pExpr n Level.dot ts
    some (.dot a b, r)
  | n + 1, .index, a, ts => do
    let (b, r) ← pExpr n Level.all ts
    let r ← expect (· == .punct ']') r
    some (.index a b, r)
  | _ + 1, .collate, a, ts =>
    match ts with
    | .quoted c :: r => some (.collate a c, r)
    | _ => none
  | n + 1, .op o, a, ts => do
    let (b, r) ← pExpr n (opLevel o) ts
    some (.bin o a b, r)
  | n + 1, .between neg, a, ts => do
    let (b, r) ← pExpr n Level.between ts
    let r ← expect (isKey .and) r
    let (c, r) ← pExpr n Level.between r
    some (.between neg a b c, r)
  | n + 1, .like op neg, a, ts => do
    let (b, r) ← pExpr n Level.between ts
    some (.like op neg a b, r)
  | n + 1, .isIn neg, a, ts =>
    match ts with
    | .subquery q :: r => some (.inQuery neg a q, r)
    | .punct '(' :: r => do
      let (l, r) ← pList n r
      some (.inList neg a l, r)
    | _ => none
  | n + 1, .quant o all, a, ts =>
    match ts with
    | .subquery q :: r => some (.quantQuery o all a q, r)
    | .punct '(' :: r => do
      let (b, r) ← pExpr n Level.all r
      let r ← expect closing r
      some (.quant o all a b, r)
    | _ => none
  | n + 1, .is, a, ts =>
    let (neg, ts) := match ts with
      | .key .not _ :: r => (true, r)
      | _ => (false, ts)
    match ts with
    | .key .distinct _ :: .key .from _ :: r => do
      let (b, r) ← pExpr n Level.is r
      some (.distinctFrom neg a b, r)
    | _ => do
      let (t, r) ← readTest ts
      some (.is neg t a, r)
  | n + 1, .and, a, ts => do
    let (b, r) ← pExpr n Level.and ts
    some (.and a b, r)
  | n + 1, .or, a, ts => do
    let (b, r) ← pExpr n Level.or ts
    some (.or a b, r)

/-- An operand, with the prefix operators in front of it. -/
def pOperand : Nat → List Lexeme → Option (Sql × List Lexeme)
  | 0, _ => none
  | n + 1, ts =>
    match ts with
    | .string v :: r => some (.string v, r)
    | .quoted v :: r => some (.quoted v, r)
    | .number v :: r => some (.number v, r)
    | .param v :: r => some (.param v, r)
    | .subquery q :: r => some (.subquery q, r)
    | .op o :: r => do
      let (a, r) ← pExpr n (prefixLevel o) r
      some (.pre o a, r)
    | .punct '(' :: r => do
      let (a, r) ← pExpr n Level.all r
      let r ← expect closing r
      some (a, r)
    | .name w :: r => pName n w r
    | .key .null _ :: r => some (.null, r)
    | .key .true _ :: r => some (.bool true, r)
    | .key .false _ :: r => some (.bool false, r)
    | .key .not _ :: r => do
      let (a, r) ← pExpr n Level.not r
      some (.not a, r)
    | .key .cast _ :: r => do
      let r ← expect (· == .punct '(') r
      let (a, r) ← pExpr n Level.all r
      let r ← expect (isKey .as) r
      readType a r
    | .key .case _ :: r => do
      let (whens, els, r) ← pCase n r
      some (.case whens els, r)
    | .key .exists _ :: .subquery q :: r => some (.exists q, r)
    | .key k w :: r => if k.reserved then none else pName n w r
    | _ => none

/-- A name: a function's, if its arguments follow, else a column's. -/
def pName : Nat → Text → List Lexeme → Option (Sql × List Lexeme)
  | 0, _, _ => none
  | n + 1, w, ts =>
    match ts with
    | .punct '(' :: .punct ')' :: r => some (.call w false [], r)
    | .punct '(' :: .op ['*'] :: .punct ')' :: r => some (.callStar w, r)
    | .punct '(' :: .key .distinct _ :: r => do
      let (l, r) ← pList n r
      some (.call w true l, r)
    | .punct '(' :: r => do
      let (l, r) ← pList n r
      some (.call w false l, r)
    | _ => some (.column w, ts)

/-- Expressions between commas, up to the closing bracket. -/
def pList : Nat → List Lexeme → Option (List Sql × List Lexeme)
  | 0, _ => none
  | n + 1, ts => do
    let (a, r) ← pExpr n Level.all ts
    match r with
    | .punct ',' :: r => do
      let (l, r) ← pList n r
      some (a :: l, r)
    | .punct ')' :: r => some ([a], r)
    | _ => none

/-- The branches of a `CASE`, up to its `END`. -/
def pCase : Nat → List Lexeme → Option (List (Sql × Sql) × Option Sql × List Lexeme)
  | 0, _ => none
  | n + 1, ts => do
    let r ← expect (isKey .when) ts
    let (c, r) ← pExpr n Level.all r
    let r ← expect (isKey .then) r
    let (a, r) ← pExpr n Level.all r
    match r with
    | .key .end _ :: r => some ([(c, a)], none, r)
    | .key .else _ :: r => do
      let (e, r) ← pExpr n Level.all r
      let r ← expect (isKey .end) r
      some ([(c, a)], some e, r)
    | _ => do
      let (whens, els, r) ← pCase n r
      some ((c, a) :: whens, els, r)

end

/-- The lexemes of one expression. -/
def parse (ts : List Lexeme) : Option Sql :=
  match pExpr (4 * ts.length + 4) Level.all ts with
  | some (a, []) => some a
  | _ => none

/-! ## Writing a tree -/

/-- The key word, in upper case. -/
def Key.text (k : Key) : Text := ((Key.table.find? fun p => p.2 == k).map Prod.fst).getD []

def Key.lexeme (k : Key) : Lexeme := .key k k.text

def notLexemes (neg : Bool) : List Lexeme := if neg then [Key.not.lexeme] else []

def LikeOp.lexemes : LikeOp → List Lexeme
  | .like => [Key.like.lexeme]
  | .ilike => [Key.ilike.lexeme]
  | .similarTo => [Key.similar.lexeme, Key.to.lexeme]

def Test.lexeme : Test → Lexeme
  | .true => Key.true.lexeme
  | .false => Key.false.lexeme
  | .null => Key.null.lexeme
  | .unknown => Key.unknown.lexeme

def quantLexeme (all : Bool) : Lexeme := if all then Key.all.lexeme else Key.any.lexeme

mutual

def Sql.lexemes : Sql → List Lexeme
  | .null => [Key.null.lexeme]
  | .bool b => [if b then Key.true.lexeme else Key.false.lexeme]
  | .param n => [.param n]
  | .number n => [.number n]
  | .string v => [.string v]
  | .column w => [(Token.word w).lexeme]
  | .quoted v => [.quoted v]
  | .subquery ts => [.subquery ts]
  | .paren a => .punct '(' :: (a.lexemes ++ [.punct ')'])
  | .dot a b => a.lexemes ++ .punct '.' :: b.lexemes
  | .index a b => a.lexemes ++ .punct '[' :: (b.lexemes ++ [.punct ']'])
  | .collate a c => a.lexemes ++ [Key.collate.lexeme, .quoted c]
  | .pre o a => .op o :: a.lexemes
  | .bin o a b => a.lexemes ++ .op o :: b.lexemes
  | .between neg a b c =>
    a.lexemes ++ (notLexemes neg ++ Key.between.lexeme :: (b.lexemes ++
      Key.and.lexeme :: c.lexemes))
  | .like op neg a b => a.lexemes ++ (notLexemes neg ++ (op.lexemes ++ b.lexemes))
  | .inList neg a l =>
    a.lexemes ++ (notLexemes neg ++ Key.in.lexeme :: .punct '(' :: (listLexemes l ++
      [.punct ')']))
  | .inQuery neg a ts => a.lexemes ++ (notLexemes neg ++ [Key.in.lexeme, .subquery ts])
  | .quant o all a b =>
    a.lexemes ++ .op o :: quantLexeme all :: .punct '(' :: (b.lexemes ++ [.punct ')'])
  | .quantQuery o all a ts => a.lexemes ++ [.op o, quantLexeme all, .subquery ts]
  | .is neg t a => a.lexemes ++ Key.is.lexeme :: (notLexemes neg ++ [t.lexeme])
  | .distinctFrom neg a b =>
    a.lexemes ++ Key.is.lexeme :: (notLexemes neg ++ Key.distinct.lexeme :: Key.from.lexeme ::
      b.lexemes)
  | .not a => Key.not.lexeme :: a.lexemes
  | .and a b => a.lexemes ++ Key.and.lexeme :: b.lexemes
  | .or a b => a.lexemes ++ Key.or.lexeme :: b.lexemes
  | .cast a w =>
    Key.cast.lexeme :: .punct '(' :: (a.lexemes ++ [Key.as.lexeme, (Token.word w).lexeme,
      .punct ')'])
  | .call f d l =>
    (Token.word f).lexeme :: .punct '(' :: ((if d then [Key.distinct.lexeme] else []) ++
      (listLexemes l ++ [.punct ')']))
  | .callStar f => [(Token.word f).lexeme, .punct '(', .op ['*'], .punct ')']
  | .exists ts => [Key.exists.lexeme, .subquery ts]
  | .case whens els =>
    Key.case.lexeme :: (whenLexemes whens ++ (elseLexemes els ++ [Key.end.lexeme]))

def listLexemes : List Sql → List Lexeme
  | [] => []
  | [a] => a.lexemes
  | a :: b :: l => a.lexemes ++ .punct ',' :: listLexemes (b :: l)

def whenLexemes : List (Sql × Sql) → List Lexeme
  | [] => []
  | (c, a) :: l =>
    Key.when.lexeme :: (c.lexemes ++ Key.then.lexeme :: (a.lexemes ++ whenLexemes l))

def elseLexemes : Option Sql → List Lexeme
  | none => []
  | some e => Key.else.lexeme :: e.lexemes

end

mutual

/-- The tree without its brackets: what it means. -/
def Sql.strip : Sql → Sql
  | .paren a => a.strip
  | .dot a b => .dot a.strip b.strip
  | .index a b => .index a.strip b.strip
  | .collate a c => .collate a.strip c
  | .pre o a => .pre o a.strip
  | .bin o a b => .bin o a.strip b.strip
  | .between neg a b c => .between neg a.strip b.strip c.strip
  | .like op neg a b => .like op neg a.strip b.strip
  | .inList neg a l => .inList neg a.strip (stripList l)
  | .inQuery neg a ts => .inQuery neg a.strip ts
  | .quant o all a b => .quant o all a.strip b.strip
  | .quantQuery o all a ts => .quantQuery o all a.strip ts
  | .is neg t a => .is neg t a.strip
  | .distinctFrom neg a b => .distinctFrom neg a.strip b.strip
  | .not a => .not a.strip
  | .and a b => .and a.strip b.strip
  | .or a b => .or a.strip b.strip
  | .cast a w => .cast a.strip w
  | .call f d l => .call f d (stripList l)
  | .case whens els => .case (stripWhens whens) (stripElse els)
  | .null => .null
  | .bool b => .bool b
  | .param n => .param n
  | .number n => .number n
  | .string v => .string v
  | .column w => .column w
  | .quoted v => .quoted v
  | .subquery ts => .subquery ts
  | .callStar f => .callStar f
  | .exists ts => .exists ts

def stripList : List Sql → List Sql
  | [] => []
  | a :: l => a.strip :: stripList l

def stripWhens : List (Sql × Sql) → List (Sql × Sql)
  | [] => []
  | (c, a) :: l => (c.strip, a.strip) :: stripWhens l

def stripElse : Option Sql → Option Sql
  | none => none
  | some e => some e.strip

end

end Pg
