import Mathlib

/-!
# PostgreSQL's lexical structure

`Pg.scan` cuts a query text into tokens the way PostgreSQL's scanner does with
`standard_conforming_strings` on: white space, `--` and (nested) `/* */` comments, string constants
with doubled quotes and their continuation across a line end, quoted identifiers, `E''`/`B''`/`X''`/
`U&''`/`U&""` and dollar-quoted strings, identifiers and key words (one lexical class: `word`),
decimal numbers, `$n` parameters, and operators with the two rules that shorten a run of operator
characters (a comment opener inside it; a trailing `+`/`-`). A comment is kept as a token of its own
in `scan`; `Pg.lex` drops it, as the grammar does.

A text is the list of its bytes, each a `Char`. What the server checks of a token once it is cut off
(an empty or over-long identifier, an over-long operator, a token that does not end) is
`Token.finish`, and `Pg.served` is the scan with every token finished.
-/

namespace Pg

/-- A query text. -/
abbrev Text := List Char

/-! ## Character classes -/

def isSpace (c : Char) : Bool :=
  c == ' ' || c == '\t' || c == '\n' || c == '\r' || c == '\x0b' || c == '\x0c'

def isNewline (c : Char) : Bool := c == '\n' || c == '\r'

/-- A letter, an underscore or a byte outside ASCII: what an identifier starts with. -/
def isIdentStart (c : Char) : Bool := c.isAlpha || c == '_' || 128 ≤ c.toNat

def isIdentCont (c : Char) : Bool := isIdentStart c || c.isDigit || c == '$'

/-- A character of a dollar-quote tag. -/
def isTagChar (c : Char) : Bool := isIdentStart c || c.isDigit

def isOpChar (c : Char) : Bool := "~!@#^&|`?+-*/%<>=".toList.contains c

/-- The operator characters that let an operator end in `+` or `-`. -/
def isSpecialOpChar (c : Char) : Bool := "~!@#^&|`?%".toList.contains c

def isSign (c : Char) : Bool := c == '+' || c == '-'

def isQuote (c : Char) : Bool := c == '\'' || c == '"'

/-! ## Tokens -/

inductive Token
  /-- An identifier or a key word: the two have one lexical structure. -/
  | word (w : Text)
  | quotedIdent (v : Text)
  | string (v : Text)
  /-- A prefixed or dollar-quoted string, or a `U&` identifier: its opener and its raw body. -/
  | special (opener body : Text)
  | number (n : Text)
  | param (n : Text)
  | op (o : Text)
  | punct (c : Char)
  | comment
  /-- A quote or a block comment that the text does not close. -/
  | unterminated
  deriving DecidableEq, Repr

/-! ## Quoted tokens -/

/-- The text of a quoted token: `v` between two `q`, every `q` inside it doubled. -/
def escape (q : Char) (v : Text) : Text := v.flatMap fun c => if c = q then [q, q] else [c]

def quote (q : Char) (v : Text) : Text := q :: (escape q v ++ [q])

/-- Reads the rest of a quoted token after its opening `q`: its value and what follows it. -/
def scanQuoted (q : Char) : Text → Option (Text × Text)
  | [] => none
  | [c] => if c = q then some ([], []) else none
  | c :: d :: s =>
    if c = q then
      if d = q then (scanQuoted q s).map fun p => (q :: p.1, p.2) else some ([], d :: s)
    else (scanQuoted q (d :: s)).map fun p => (c :: p.1, p.2)

/-- Where a search for a string's continuation stands: before the line end it needs, inside a
comment before it, after it, inside a comment after it. -/
inductive Gap
  | before | beforeComment | after | afterComment

/-- A string constant goes on after its closing quote when white space with a line end in it, and
then a quote, follow: the text after that quote. -/
def continuation : Gap → Text → Option Text
  | _, [] => none
  | .before, c :: s =>
    if isNewline c then continuation .after s
    else if isSpace c then continuation .before s
    else if c = '-' ∧ s.head? = some '-' then continuation .beforeComment s
    else none
  | .beforeComment, c :: s =>
    if isNewline c then continuation .after s else continuation .beforeComment s
  | .after, c :: s =>
    if isSpace c then continuation .after s
    else if c = '\'' then some s
    else if c = '-' ∧ s.head? = some '-' then continuation .afterComment s
    else none
  | .afterComment, c :: s =>
    if isNewline c then continuation .after s else continuation .afterComment s

/-- A string constant after its opening quote, its continuations included. -/
def scanString : Nat → Text → Option (Text × Text)
  | 0, _ => none
  | n + 1, s =>
    match scanQuoted '\'' s with
    | none => none
    | some (v, r) =>
      match continuation .before r with
      | none => some (v, r)
      | some r' => (scanString n r').map fun p => (v ++ p.1, p.2)

/-- The rest of an `E''` string: a backslash takes the next character with it. -/
def scanEscaped : Text → Option (Text × Text)
  | [] => none
  | [c] => if c = '\'' then some ([], []) else none
  | c :: d :: s =>
    if c = '\\' then (scanEscaped s).map fun p => (c :: d :: p.1, p.2)
    else if c = '\'' then
      if d = '\'' then (scanEscaped s).map fun p => (c :: p.1, p.2) else some ([], d :: s)
    else (scanEscaped (d :: s)).map fun p => (c :: p.1, p.2)

/-- The rest of a dollar-quoted string whose delimiter is `delim`. -/
def scanDollar (delim : Text) : Text → Option (Text × Text)
  | [] => none
  | c :: s =>
    if delim.isPrefixOf (c :: s) then some ([], (c :: s).drop delim.length)
    else (scanDollar delim s).map fun p => (c :: p.1, p.2)

/-! ## Comments and operators -/

/-- The rest of a block comment at nesting depth `d`, after its `/*`. -/
def skipBlock (d : Nat) : Text → Option Text
  | '/' :: '*' :: s => skipBlock (d + 1) s
  | '*' :: '/' :: s => if d = 0 then some s else skipBlock (d - 1) s
  | _ :: s => skipBlock d s
  | [] => none

/-- A run of operator characters up to the first comment opener in it. -/
def cutComment : Text → Text
  | '-' :: '-' :: _ => []
  | '/' :: '*' :: _ => []
  | c :: s => c :: cutComment s
  | [] => []

/-- Drops signs from the front (of a reversed operator), keeping one character. -/
def dropSigns : Text → Text
  | c :: d :: s => if isSign c then dropSigns (d :: s) else c :: d :: s
  | s => s

/-- An operator of several characters ends in a sign only when it holds a special character. -/
def trimSigns (o : Text) : Text :=
  if o.any isSpecialOpChar then o else (dropSigns o.reverse).reverse

/-- The operator at the front of a text. -/
def opToken (s : Text) : Text := trimSigns (cutComment (s.takeWhile isOpChar))

/-! ## Numbers -/

/-- The fraction of a number: a point (not one of two in a row) and the digits after it. -/
def scanFraction : Text → Text × Text
  | '.' :: s =>
    if s.head? = some '.' then ([], '.' :: s)
    else ('.' :: s.takeWhile Char.isDigit, s.dropWhile Char.isDigit)
  | s => ([], s)

/-- The exponent of a number: `e`, a sign or none, and at least one digit. -/
def scanExponent : Text → Text × Text
  | e :: s =>
    if e = 'e' ∨ e = 'E' then
      match s with
      | d :: s' =>
        if d.isDigit then (e :: s.takeWhile Char.isDigit, s.dropWhile Char.isDigit)
        else if isSign d ∧ (s'.head?.any Char.isDigit) then
          (e :: d :: s'.takeWhile Char.isDigit, s'.dropWhile Char.isDigit)
        else ([], e :: s)
      | [] => ([], [e])
    else ([], e :: s)
  | [] => ([], [])

/-- The number at the front of a text. -/
def scanNumber (s : Text) : Text × Text :=
  let f := scanFraction (s.dropWhile Char.isDigit)
  let e := scanExponent f.2
  (s.takeWhile Char.isDigit ++ f.1 ++ e.1, e.2)

/-! ## The scanner -/

/-- A quoted token that ended, or did not. -/
def closeToken (t : Text → Token) : Option (Text × Text) → List Token × Text
  | some (v, r) => ([t v], r)
  | none => ([.unterminated], [])

/-- After the word `w`: a word, unless `w` is the prefix of a string. -/
def stepWord (w : Text) (r : Text) : List Token × Text :=
  match w, r with
  | [c], '\'' :: r' =>
    if c = 'e' ∨ c = 'E' then closeToken (.special [c]) (scanEscaped r')
    else if c = 'b' ∨ c = 'B' ∨ c = 'x' ∨ c = 'X' then
      closeToken (.special [c]) (scanQuoted '\'' r')
    else ([.word w], r)
  | [c], '&' :: q :: r' =>
    if (c = 'u' ∨ c = 'U') ∧ isQuote q then closeToken (.special [c, '&', q]) (scanQuoted q r')
    else ([.word w], r)
  | _, _ => ([.word w], r)

/-- After a `$`: a parameter, a dollar-quoted string or a lone `$`. -/
def stepDollar (s : Text) : List Token × Text :=
  if s.head?.any Char.isDigit then
    ([.param (s.takeWhile Char.isDigit)], s.dropWhile Char.isDigit)
  else
    let tag := s.takeWhile isTagChar
    match s.dropWhile isTagChar with
    | '$' :: r =>
      let delim := '$' :: (tag ++ ['$'])
      closeToken (.special delim) (scanDollar delim r)
    | _ => ([.punct '$'], s)

/-- A comment or an operator, at an operator character. -/
def stepOp (s : Text) : List Token × Text :=
  match s with
  | '-' :: '-' :: r => ([.comment], r.dropWhile fun c => !isNewline c)
  | '/' :: '*' :: r =>
    match skipBlock 0 r with
    | some r' => ([.comment], r')
    | none => ([.unterminated], [])
  | _ => ([.op (opToken s)], s.drop (opToken s).length)

/-- One step of the scanner at the character `c`: the token read, if any, and the rest. -/
def step (c : Char) (s : Text) : List Token × Text :=
  if isSpace c then ([], s)
  else if c = '\'' then closeToken .string (scanString (s.length + 1) s)
  else if c = '"' then closeToken .quotedIdent (scanQuoted '"' s)
  else if isIdentStart c then
    stepWord (c :: s.takeWhile isIdentCont) (s.dropWhile isIdentCont)
  else if c.isDigit ∨ (c = '.' ∧ s.head?.any Char.isDigit) then
    ([.number (scanNumber (c :: s)).1], (scanNumber (c :: s)).2)
  else if c = '$' then stepDollar s
  else if isOpChar c then stepOp (c :: s)
  else ([.punct c], s)

/-- The scanner, with `n` steps to spend. -/
def scanAux : Nat → Text → List Token
  | n + 1, c :: s => (step c s).1 ++ scanAux n (step c s).2
  | _, _ => []

/-- The tokens of a text, comments included. -/
def scan (s : Text) : List Token := scanAux s.length s

/-- The tokens the grammar sees. -/
def lex (s : Text) : List Token := (scan s).filter (· ≠ .comment)

/-! ## Finished tokens -/

/-- PostgreSQL's bound for a name, `NAMEDATALEN`. -/
def nameDataLen : Nat := 64

/-- A byte inside a character of several bytes. -/
def isTrailing (c : Char) : Bool := 128 ≤ c.toNat && c.toNat < 192

/-- At most `n` bytes of a name, cut where a character ends. -/
def clip (w : Text) : Nat → Text
  | 0 => []
  | n + 1 => if w[n + 1]?.any isTrailing then clip w n else w.take (n + 1)

/-- A name as the server keeps it. -/
def clipName (w : Text) : Text := if w.length < nameDataLen then w else clip w (nameDataLen - 1)

/-- The token as the grammar is given it, if the server takes it: a name is cut, an empty quoted
one, an operator with as many characters as a name has bytes and a token without an end are
errors. -/
def Token.finish : Token → Option Token
  | .word w => some (.word (clipName w))
  | .quotedIdent v => if v.isEmpty then none else some (.quotedIdent (clipName v))
  | .op o => if o.length < nameDataLen then some (.op o) else none
  | .unterminated => none
  | t => some t

/-- An operator to the grammar: `=>` is a token of its own there. -/
def Token.isOperator : Token → Bool
  | .op o => o != "=>".toList
  | _ => false

/-- The tokens of a text as the server has them, comments included. -/
def served (s : Text) : List (Option Token) := (scan s).map Token.finish

example : lex "a.b >= $1 -- x\n  AND 'it''s' <> \"N\"".toList =
    [.word "a".toList, .punct '.', .word "b".toList, .op ">=".toList, .param "1".toList,
      .word "AND".toList, .string "it's".toList, .op "<>".toList, .quotedIdent "N".toList] := by
  decide

end Pg
