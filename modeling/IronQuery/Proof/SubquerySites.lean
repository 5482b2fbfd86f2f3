import IronQuery.Program
import IronQuery.Pg.Proof.Units
import IronQuery.Proof.Setters
import IronQuery.Proof.Text
import Mathlib.Data.List.Induction

/-!
# Table values in the place of a subquery

A table value is embedded at nine places (`Site`), all through `ToStringBracketed`.
`subquery_bracketed`: what stands there is one bracket around the value's own text if and only if
the value is no named table: `Table` overrides the method for `FROM` items.

`Closes x`: `x` closes the quotes, comments and brackets that it opens. A bracket around such a text
is one group of tokens (`Closes.group`), and the text of a value closes when its parts do
(`VirtualTable.closes`), so groups nest to any depth.
-/

namespace Pg

/-- The text is one bracket, from its first token to its last. -/
def IsGroup (s : Text) : Prop := ∃ ts, lex s = bracketed ts ∧ Closed ts

/-- The text closes what it opens, and no string constant in front of it goes on in it. -/
structure Closes (x : Text) : Prop where
  reads : Reads lex x (lex x)
  fresh : ∀ r, Stop r → continuation .before (x ++ r) = none
  closed : Closed (lex x)

/-- The text starts with a character that is neither white space nor a minus. -/
def isFront (x : Text) : Bool := x.head?.any fun c => !isSpace c && c != '-'

section
variable {x y : Text} {ts : List Token}

theorem fresh_front (h : isFront x = true) (r : Text) : continuation .before (x ++ r) = none := by
  obtain ⟨c, hc, h⟩ := (Option.any_eq_true _ _).1 h
  simp only [Bool.and_eq_true, Bool.not_eq_true', bne_iff_ne] at h
  cases x with
  | nil => cases hc
  | cons d x =>
    obtain rfl := Option.some.inj hc
    have hnl : isNewline d = false := by
      cases hn : isNewline d
      · rfl
      · simp only [isNewline, Bool.or_eq_true, beq_iff_eq] at hn
        rcases hn with rfl | rfl <;> exact absurd h.1 (by decide)
    simp only [List.cons_append, continuation, hnl, h.1, h.2, false_and, Bool.false_eq_true,
      if_false]

theorem Closes.of_reads (hr : Reads lex x ts)
    (hf : ∀ r, Stop r → continuation .before (x ++ r) = none) (hc : Closed ts) : Closes x := by
  obtain rfl : lex x = ts := hr.view_eq rfl
  exact ⟨hr, hf, hc⟩

theorem Closes.nil : Closes [] := ⟨Opens.nil.seals.reads, fun _ hr => hr.cont, Closed.nil⟩

/-- Key words in front of a text. -/
def isLead (c : Text) : Bool := isFront c && isOpener c && (lex c).all isPlain

/-- Key words and signs between two texts. -/
def isLink (c : Text) : Bool := leads c && isOpener c && (lex c).all isPlain

theorem Closes.lead (c : Text) (hc : isLead c = true) (hx : Closes x) : Closes (c ++ x) := by
  simp only [isLead, Bool.and_eq_true] at hc
  obtain ⟨⟨hf, ho⟩, hp⟩ := hc
  refine .of_reads ((opens_const ho rfl).reads hx.reads) (fun r _ => ?_)
    ((closed_const hp).append hx.closed)
  rw [List.append_assoc]
  exact fresh_front hf _

theorem Closes.link (c : Text) (hc : isLink c = true) (hx : Closes x) (hy : Closes y) :
    Closes (x ++ c ++ y) := by
  simp only [isLink, Bool.and_eq_true] at hc
  obtain ⟨⟨hl, ho⟩, hp⟩ := hc
  refine .of_reads ((hx.reads.opens hl (opens_const ho rfl)).reads hy.reads) (fun r _ => ?_)
    ((hx.closed.append (closed_const hp)).append hy.closed)
  rw [List.append_assoc, List.append_assoc]
  exact hx.fresh _ (stop_of_leads hl _).1

theorem Closes.space (hx : Closes x) (hy : Closes y) : Closes (x ++ ' ' :: y) := by
  have hstop (r : Text) (hr : Stop r) : Stop (' ' :: (y ++ r)) :=
    ⟨stops_cons.2 (by decide), stops_cons.2 (by decide), stops_cons.2 (by decide), hy.fresh r hr⟩
  have hsp : Opens lex [' '] [] := opens_const (by decide) (by decide)
  have hreads : Reads lex (x ++ ' ' :: y) (lex x ++ lex y) := fun r hr hp => by
    rw [List.append_assoc, List.cons_append, hx.reads _ (hstop r hr) (by simp), List.append_assoc,
      ← hy.reads r hr hp]
    exact congrArg (lex x ++ ·) (hsp (y ++ r))
  refine .of_reads hreads (fun r hr => ?_) (hx.closed.append hy.closed)
  · rw [List.append_assoc, List.cons_append]
    exact hx.fresh _ (hstop r hr)

theorem Closes.paren (hx : Closes x) : Closes ('(' :: (x ++ [')'])) :=
  .of_reads hx.reads.paren.seals.reads
    (fun r _ => fresh_front (x := '(' :: (x ++ [')'])) rfl r) hx.closed.bracketed

theorem Closes.ite {b : Bool} (hx : Closes x) (hy : Closes y) : Closes (if b then y else x) := by
  split
  · exact hy
  · exact hx

/-- A clause in brackets. -/
theorem Closes.brackets (c : Text) (hc : isLink c = true) (hx : Closes x) (hy : Closes y) :
    Closes (x ++ (c ++ '(' :: (y ++ [')']))) := by
  rw [← List.append_assoc]
  exact hx.link c hc hy.paren

theorem Closes.behind (c : Text) (hc : isLink c = true) (hx : Closes x) (hy : Closes y) :
    Closes (x ++ (c ++ y)) := by
  rw [← List.append_assoc]
  exact hx.link c hc hy

/-- A bracket around a text that closes is one group. -/
theorem Closes.group (hx : Closes x) : IsGroup ('(' :: (x ++ [')'])) := by
  have h := hx.reads.paren []
  rw [List.append_nil, show lex [] = [] from rfl, List.append_nil] at h
  exact ⟨lex x, h, hx.closed⟩

end

end Pg

namespace IronQuery

open Pg

/-! ## The places -/

/-- Where a table value stands for a subquery, with the values around it. -/
inductive Site
  | operand (op : SubqueryOp) (e : Expr)
  | exists
  | notExists
  | setOpLeft (kind : SetOpKind) (b : VirtualTable)
  | setOpRight (a : VirtualTable) (kind : SetOpKind)
  | firstCte (name : Text)
  | nextCte (s : WithBuilder) (name : Text)
  /-- `operator Expr`. -/
  | scalar

namespace Site

/-- The text that the call makes, with the value in its place. -/
def call : Site → VirtualTable → Result Text
  | operand op e, v => do return (← op.apply e v).toString
  | .exists, v => do return (← Expr.exists v).toString
  | notExists, v => do return (← Expr.notExists v).toString
  | setOpLeft kind b, v => do return (← SetOp.new v b kind).toString
  | setOpRight a kind, v => do return (← SetOp.new a v kind).toString
  | firstCte name, v => do return (← withCte name v).ctes_
  | nextCte s name, v => do return (← (s.with name v).result).ctes_
  | scalar, v => do return (← v.toExpr).toString

/-- The precedence and the name of the operator on a subquery. -/
def opText : SubqueryOp → OperatorPrecedence × Text
  | .isIn => (.kBetween, " IN ".toList)
  | .notIn => (.kBetween, " NOT IN ".toList)
  | .eqAny => (.kCompare, " = ANY ".toList)
  | .neAll => (.kCompare, " <> ALL ".toList)

/-- The bracketed text of a value that has one. -/
def textOf (v : VirtualTable) : Text := (v.toStringBracketed.toOption).getD []

/-- What stands in front of the value. -/
def before : Site → Text
  | operand op e => e.extract (opText op).1 ++ (opText op).2
  | .exists => "EXISTS ".toList
  | notExists => "NOT EXISTS ".toList
  | setOpLeft _ _ | scalar => []
  | setOpRight a kind => textOf a ++ " ".toList ++ kind.toString ++ " ".toList
  | firstCte name => name ++ " AS ".toList
  | nextCte s name => s.ctes_ ++ ", ".toList ++ name ++ " AS ".toList

/-- What stands behind it. -/
def after : Site → Text
  | setOpLeft kind b => " ".toList ++ kind.toString ++ " ".toList ++ textOf b
  | _ => []

end Site

/-- A value whose text is a name. -/
def VirtualTable.isNamed : VirtualTable → Bool
  | table _ | tableWithColumns _ => true
  | _ => false

/-! ## Values whose parts close -/

/-- The texts that a call puts into the statement close. -/
def SelectCall.Closes : SelectCall → Prop
  | distinct | limit _ | offset _ => True
  | distinctOn exps | groupBy exps => ∀ e ∈ exps, Pg.Closes e.toString
  | select items => ∀ i ∈ items, Pg.Closes i.toString
  | .where exp | having exp => Pg.Closes exp.toString
  | orderBy terms => ∀ t ∈ terms, Pg.Closes t.render

def JoinCall.Closes : JoinCall → Prop
  | on exp => Pg.Closes exp.toString
  | .using columns => ∀ e ∈ columns, Pg.Closes e.toString

/-- A value that the API builds of names and expressions that close, to any depth. -/
inductive Nested : VirtualTable → Prop
  | table {name : Text} (h : Closes name) : Nested (.table (.fromRaw name))
  | columns {name : Text} (h : Closes name) (cols : List Column) :
    Nested (.tableWithColumns (.fromRaw name cols))
  | aliased {v : VirtualTable} {name : Text} {t : Table} (h : Nested v) (e : v.as name = .ok t) :
    Nested (.table t)
  | aliasedColumns {t t' : TableWithColumns} {name : Text} (h : Nested (.tableWithColumns t))
    (e : t.as name = .ok t') : Nested (.tableWithColumns t')
  | join {a b : VirtualTable} {kind : JoinKind} {j j' : Join} {calls : List JoinCall}
    (ha : Nested a) (hb : Nested b) (hj : Join.new a b kind = .ok j)
    (hc : ∀ c ∈ calls, c.Closes) (hrun : chain JoinCall.apply calls j = some j') :
    Nested (.join j')
  | setOp {a b : VirtualTable} {kind : SetOpKind} {s : SetOp} (ha : Nested a) (hb : Nested b)
    (hs : SetOp.new a b kind = .ok s) : Nested (.setOp s)
  | select {v : VirtualTable} {s s' : SelectExpr} {calls : List SelectCall} (h : Nested v)
    (hs : SelectExpr.fromTable v = .ok s) (hc : ∀ c ∈ calls, c.Closes)
    (hrun : chain SelectCall.apply calls s = some s') : Nested (.select s')
  | with {v m : VirtualTable} {name : Text} {b b' : WithBuilder} {calls : List WithCall}
    {w : WithQuery} (h : Nested v) (hb : withCte name v = .ok b) (hc : ∀ c ∈ calls, Nested c.query)
    (hrun : chain WithCall.apply calls b = some b') (hm : Nested m) (hw : b'.main m = .ok w) :
    Nested (.with w)
  | deleteFrom {t : Table} {calls : List DeleteCall} {d : DeleteFrom} (h : Nested (.table t))
    (hc : ∀ c ∈ calls, ∀ u, c = .using u → Nested u)
    (hw : ∀ c ∈ calls, ∀ e, c = .where e → Closes e.toString)
    (hr : ∀ c ∈ calls, ∀ l, c = .returning l → ∀ i ∈ l, Closes i.toString)
    (hrun : chain DeleteCall.apply calls (.new t) = some d) : Nested (.deleteFrom d)

/-- `s` is one bracket around the value's own text, and one group of tokens. -/
structure Grouped (v : VirtualTable) (s : Text) : Prop where
  encloses : ∃ x, v.toString = .ok x ∧ s = '(' :: (x ++ [')'])
  group : Nested v → IsGroup s

/-! ## The texts of nested values -/

/-- A text that starts with a word's or a number's character. -/
theorem front_of_cont {c : Char} {x : Text} (h : isIdentCont c = true) : isFront (c :: x) = true := by
  cases hs : isSpace c
  · have hm : c ≠ '-' := by rintro rfl; exact absurd h (by decide)
    simp [isFront, hs, hm]
  · simp only [isSpace, Bool.or_eq_true, beq_iff_eq] at hs
    rcases hs with ((((rfl | rfl) | rfl) | rfl) | rfl) | rfl <;> exact absurd h (by decide)

theorem closes_int (n : Int) : Closes (intToString n) := by
  cases n with
  | ofNat n =>
    obtain ⟨hne, hd⟩ := natToString_digits n
    refine .of_reads (reads_digits hne hd) (fun r _ => ?_) (closed_const rfl)
    obtain ⟨c, x, he⟩ := List.exists_cons_of_ne_nil hne
    rw [he, List.all_cons, Bool.and_eq_true] at hd
    rw [intToString, he]
    exact fresh_front (front_of_cont (isDigit_cont hd.1)) r
  | negSucc n =>
    obtain ⟨hne, hd⟩ := natToString_digits (n + 1)
    refine .of_reads ((reads_digits hne hd).minus (natToString_head _)) (fun r _ => ?_)
      (closed_const rfl)
    obtain ⟨c, x, he⟩ := List.exists_cons_of_ne_nil hne
    have hc : c ≠ '-' := by
      rintro rfl
      rw [he, List.all_cons, Bool.and_eq_true] at hd
      exact absurd hd.1 (by decide)
    rw [intToString, he]
    simp [continuation, isNewline, isSpace, hc]

theorem closes_csv {l : List Text} (h : ∀ x ∈ l, Closes x) : Closes (joinCsv l) := by
  induction l using List.reverseRec with
  | nil => exact .nil
  | append_singleton l x ih =>
    have hx := h x (by simp)
    have hl := ih fun y hy => h y (by simp [hy])
    rw [joinCsv_concat]
    split
    · exact hx
    · exact hl.link ", ".toList (by decide) hx

theorem closes_map {α : Type} {f : α → Text} {l : List α} (h : ∀ x ∈ l, Closes (f x)) :
    Closes (joinCsv (l.map f)) :=
  closes_csv fun y hy => by
    obtain ⟨x, hx, rfl⟩ := List.mem_map.1 hy
    exact h x hx

theorem closed_path : (ps : List Text) → Closed (pathTokens ps)
  | [] => .nil
  | [_] => .cons rfl .nil
  | _ :: q :: l => .cons rfl (.cons rfl (closed_path (q :: l)))

theorem closes_identifier {name : Text} {r : Unit} (h : validateIdentifier name = .ok r) :
    Closes name := by
  have hplain := validateIdentifier_ok h
  have hne := dotParts_ne_nil name
  have hr := (seals_path hne hplain).reads
  rw [joinDots_dotParts] at hr
  refine .of_reads hr (fun r _ => fresh_front ?_ r) (closed_path _)
  -- the name starts as its first part does
  obtain ⟨p, l, he⟩ := List.exists_cons_of_ne_nil hne
  obtain ⟨c, s, hp, hc, -⟩ := plain_cons (hplain p (by rw [he]; exact .head _))
  have hstop : Stops (fun d => d != c) (joinDots (p :: l)) :=
    joinDots_head (by rw [hp]; exact stops_cons.2 (by simp)) (by rw [hp]; simp) l
  rw [← he, joinDots_dotParts] at hstop
  cases hn : name with
  | nil =>
    rw [hn] at he
    obtain rfl : p = [] := (List.cons.inj he).1.symm
    cases hp
  | cons d t =>
    rw [hn] at hstop
    obtain rfl : d = c := by simpa using stops_cons.1 hstop
    exact front_of_cont (isIdentStart_cont hc)

theorem closes_clause {α : Type} {f : α → Text} {x : Text} {o : Option α} (c : Text)
    (hc : isLink c = true) (hx : Closes x) (hy : ∀ a, o = some a → Closes (f a)) :
    Closes (x ++ SelectExpr.clause (fun a => c ++ f a) o) := by
  cases o with
  | none => rwa [SelectExpr.clause, List.append_nil]
  | some a => exact hx.behind c hc (hy a rfl)

/-! ## The records -/

theorem closes_join {j : Join} {kind : JoinKind} (hk : j.kind_ = kind.toString)
    (ha : Closes j.a_) (hb : Closes j.b_) (ho : Closes j.on_) (hu : Closes j.using_) :
    Closes j.toString := by
  have hhead : Closes (j.a_ ++ " ".toList ++ j.kind_ ++ " JOIN ".toList ++ j.b_) := by
    have h : Closes (j.a_ ++ (" ".toList ++ kind.toString ++ " JOIN ".toList) ++ j.b_) := by
      cases kind <;> exact ha.link _ (by decide) hb
    simpa only [hk, List.append_assoc] using h
  have hon := hhead.ite (b := !j.on_.isEmpty) (hhead.behind " ON ".toList (by decide) ho)
  exact hon.ite (hon.brackets " USING ".toList (by decide) hu)

theorem closes_setOp {s : SetOp} {kind : SetOpKind} (hk : s.kind_ = kind.toString)
    (ha : Closes s.a_) (hb : Closes s.b_) : Closes s.toString := by
  have h : Closes (s.a_ ++ (" ".toList ++ kind.toString ++ " ".toList) ++ s.b_) := by
    cases kind <;> exact ha.link _ (by decide) hb
  simpa only [SetOp.toString, hk, List.append_assoc] using h

theorem closes_deleteFrom {d : DeleteFrom} (hf : Closes d.from_) (hu : Closes d.using_)
    (hw : Closes d.where_) (hr : Closes d.returning_) {x : Text} (h : d.toString = .ok x) :
    Closes x := by
  unfold DeleteFrom.toString at h
  split at h
  · cases h
  · cases h
    have h1 := Closes.lead "DELETE FROM ".toList (by decide) hf
    have h2 := h1.ite (b := !d.using_.isEmpty) (h1.behind " USING ".toList (by decide) hu)
    have h3 := h2.ite (b := !d.where_.isEmpty) (h2.behind " WHERE ".toList (by decide) hw)
    exact h3.ite (h3.behind " RETURNING ".toList (by decide) hr)

theorem closes_with {w : WithQuery} (hc : Closes w.ctes_) (hm : Closes w.main_) :
    Closes w.toString :=
  have h : Closes ("WITH ".toList ++ w.ctes_ ++ ' ' :: w.main_) :=
    (Closes.lead "WITH ".toList (by decide) hc).space hm
  by simpa [WithQuery.toString] using h

/-- The texts of a SELECT close. -/
structure SelectCloses (s : SelectExpr) : Prop where
  from_ : Closes s.from_
  distinctOn : ∀ l, s.distinctOn_ = some l → ∀ e ∈ l, Closes e.toString
  select : ∀ l, s.select_ = some l → ∀ i ∈ l, Closes i.toString
  where_ : ∀ e, s.where_ = some e → Closes e.toString
  groupBy : ∀ l, s.groupBy_ = some l → ∀ e ∈ l, Closes e.toString
  having : ∀ e, s.having_ = some e → Closes e.toString
  orderBy : ∀ l, s.orderBy_ = some l → ∀ t ∈ l, Closes t.render

theorem closes_select {s : SelectExpr} (hs : SelectCloses s) {x : Text} (h : s.toString = .ok x) :
    Closes x := by
  simp only [SelectExpr.toString, bind_ok, pure_ok] at h
  obtain ⟨items, hv, rfl⟩ := h
  have hi : ∀ i ∈ items, Closes i.toString := by
    refine hs.select _ ?_
    unfold SelectExpr.ensureValid at hv
    split at hv
    · cases hv
    · rename_i hsel
      repeat' split at hv
      all_goals cases hv
      exact hsel
  have hitems := (closes_map hi).link " FROM ".toList (by decide) hs.from_
  have hgroup : ∀ l, s.groupBy_ = some l → Closes (joinCsv (l.map Expr.toString)) :=
    fun l hl => closes_map (hs.groupBy l hl)
  have horder : ∀ l, s.orderBy_ = some l → Closes (joinCsv (l.map OrderByTerm.render)) :=
    fun l hl => closes_map (hs.orderBy l hl)
  refine closes_clause _ (by decide) (closes_clause _ (by decide) ?_ fun n _ => closes_int n)
    fun n _ => closes_int n
  refine closes_clause _ (by decide) (closes_clause _ (by decide) ?_ hs.having) horder
  refine closes_clause _ (by decide) (closes_clause _ (by decide) ?_ hs.where_) hgroup
  split
  · rename_i exps he
    have hexps := (closes_map (hs.distinctOn exps he)).paren
    have hhead := (Closes.lead "SELECT DISTINCT ON ".toList (by decide) hexps).space hitems
    simpa using hhead
  · split
    · exact Closes.lead "SELECT DISTINCT ".toList (by decide) hitems
    · exact Closes.lead "SELECT ".toList (by decide) hitems

/-! ## Nested values -/

theorem bracketed_named {v : VirtualTable} (h : v.isNamed = true) :
    v.toStringBracketed = v.toString := by
  cases v <;> first | rfl | cases h

theorem bracketed_other {v : VirtualTable} (h : v.isNamed = false) {s : Text}
    (hs : v.toStringBracketed = .ok s) : ∃ x, v.toString = .ok x ∧ s = '(' :: (x ++ [')']) := by
  have key : v.toStringBracketed = v.toString >>= fun x => pure ("(".toList ++ x ++ ")".toList) := by
    cases v <;> first | rfl | cases h
  rw [key] at hs
  simp only [bind_ok, pure_ok] at hs
  obtain ⟨x, hx, rfl⟩ := hs
  exact ⟨x, hx, rfl⟩

/-- What stands for a value whose text closes, closes too. -/
theorem closes_bracketed {v : VirtualTable} (h : ∀ x, v.toString = .ok x → Closes x) {s : Text}
    (hs : v.toStringBracketed = .ok s) : Closes s := by
  cases hn : v.isNamed
  · obtain ⟨x, hx, rfl⟩ := bracketed_other hn hs
    exact (h x hx).paren
  · exact h s ((bracketed_named hn).symm.trans hs)

theorem closes_fromItem {v : VirtualTable} (h : ∀ x, v.toString = .ok x → Closes x) {s : Text}
    (hs : v.toStringAsFromItem = .ok s) : Closes s := by
  refine h s ?_
  cases v <;> first | exact hs | cases hs

theorem closes_as {v : VirtualTable} {name : Text} {t : Table}
    (h : ∀ x, v.toString = .ok x → Closes x) (e : v.as name = .ok t) : Closes t.name_ := by
  simp only [VirtualTable.as, bind_ok, pure_ok] at e
  obtain ⟨_, hname, s, hs, rfl⟩ := e
  exact (closes_bracketed h hs).link " AS ".toList (by decide) (closes_identifier hname)

theorem join_run {a b : VirtualTable} {kind : JoinKind} {j j' : Join} {calls : List JoinCall}
    (ha : ∀ x, a.toString = .ok x → Closes x) (hb : ∀ x, b.toString = .ok x → Closes x)
    (hj : Join.new a b kind = .ok j) (hc : ∀ c ∈ calls, c.Closes)
    (hrun : chain JoinCall.apply calls j = some j') : Closes j'.toString := by
  simp only [Join.new, bind_ok, pure_ok] at hj
  obtain ⟨s, hs, t, ht, rfl⟩ := hj
  have hinv := chain_inv JoinCall.apply (fun j => j.kind_ = kind.toString ∧ Closes j.a_ ∧
    Closes j.b_ ∧ Closes j.on_ ∧ Closes j.using_) (fun c hmem j j' hacc hj => ?_) hrun
    ⟨rfl, closes_bracketed ha hs, closes_bracketed hb ht, .nil, .nil⟩
  · exact closes_join hinv.1 hinv.2.1 hinv.2.2.1 hinv.2.2.2.1 hinv.2.2.2.2
  · obtain ⟨-, -, rfl⟩ := join_setter.put_of_accepted hacc
    obtain ⟨hk, h1, h2, h3, h4⟩ := hj
    cases c with
    | on exp => exact ⟨hk, h1, h2, hc _ hmem, h4⟩
    | «using» columns => exact ⟨hk, h1, h2, h3, closes_map (hc _ hmem)⟩

theorem select_run {v : VirtualTable} {s s' : SelectExpr} {calls : List SelectCall}
    (h : ∀ x, v.toString = .ok x → Closes x) (hs : SelectExpr.fromTable v = .ok s)
    (hc : ∀ c ∈ calls, c.Closes) (hrun : chain SelectCall.apply calls s = some s') :
    SelectCloses s' := by
  simp only [SelectExpr.fromTable, bind_ok, pure_ok] at hs
  obtain ⟨t, ht, rfl⟩ := hs
  refine chain_inv SelectCall.apply SelectCloses (fun c hmem s s' hacc hs => ?_) hrun
    ⟨closes_fromItem h ht, nofun, nofun, nofun, nofun, nofun, nofun⟩
  obtain ⟨-, -, rfl⟩ := select_setter.put_of_accepted hacc
  have hterms := hc c hmem
  cases c with
  | distinct | limit n | offset n => exact { hs with }
  | distinctOn exps => exact { hs with distinctOn := fun l hl => by cases hl; exact hterms }
  | select items => exact { hs with select := fun l hl => by cases hl; exact hterms }
  | «where» exp => exact { hs with where_ := fun l hl => by cases hl; exact hterms }
  | groupBy exps => exact { hs with groupBy := fun l hl => by cases hl; exact hterms }
  | having exp => exact { hs with having := fun l hl => by cases hl; exact hterms }
  | orderBy terms => exact { hs with orderBy := fun l hl => by cases hl; exact hterms }

theorem delete_run {t : Table} {d : DeleteFrom} {calls : List DeleteCall} (ht : Closes t.name_)
    (hu : ∀ c ∈ calls, ∀ u, c = .using u → ∀ x, u.toString = .ok x → Closes x)
    (hw : ∀ c ∈ calls, ∀ e, c = .where e → Closes e.toString)
    (hr : ∀ c ∈ calls, ∀ l, c = .returning l → ∀ i ∈ l, Closes i.toString)
    (hrun : chain DeleteCall.apply calls (.new t) = some d) :
    Closes d.from_ ∧ Closes d.using_ ∧ Closes d.where_ ∧ Closes d.returning_ := by
  refine chain_inv DeleteCall.apply (fun d => Closes d.from_ ∧ Closes d.using_ ∧ Closes d.where_ ∧
    Closes d.returning_) (fun c hmem d d' hacc hd => ?_) hrun ⟨ht, .nil, .nil, .nil⟩
  obtain ⟨hbad, -, rfl⟩ := delete_setter.put_of_accepted hacc
  obtain ⟨h1, h2, h3, h4⟩ := hd
  cases c with
  | «using» u =>
    refine ⟨h1, ?_, h3, h4⟩
    cases hf : u.toStringAsFromItem with
    | error e => simp [DeleteCall.bad, VirtualTable.fromError, hf] at hbad
    | ok s =>
      simp only [DeleteCall.put, VirtualTable.fromText, hf]
      exact closes_fromItem (hu _ hmem u rfl) hf
  | «where» exp => exact ⟨h1, h2, hw _ hmem exp rfl, h4⟩
  | returning items => exact ⟨h1, h2, h3, closes_map (hr _ hmem items rfl)⟩

theorem closes_cte {name body : Text} {r : Unit} (hn : validateIdentifier name = .ok r)
    (hb : Closes body) : Closes (cteText name body) :=
  (closes_identifier hn).link " AS ".toList (by decide) hb

theorem with_run {v m : VirtualTable} {name : Text} {b b' : WithBuilder} {calls : List WithCall}
    {w : WithQuery} (h : ∀ x, v.toString = .ok x → Closes x) (hb : withCte name v = .ok b)
    (hc : ∀ c ∈ calls, ∀ x, c.query.toString = .ok x → Closes x)
    (hrun : chain WithCall.apply calls b = some b') (hm : ∀ x, m.toString = .ok x → Closes x)
    (hw : b'.main m = .ok w) : Closes w.toString := by
  simp only [withCte, bind_ok, pure_ok] at hb
  obtain ⟨_, hname, body, hbody, formatted, -, rfl⟩ := hb
  simp only [WithBuilder.main, bind_ok, pure_ok] at hw
  obtain ⟨main, hmain, _, -, rfl⟩ := hw
  refine closes_with (w := ⟨_, _, _, _⟩) ?_ (hm main hmain)
  refine chain_inv WithCall.apply (fun b => Closes b.ctes_) (fun c hmem b b' hacc hb => ?_) hrun
    (closes_cte hname (closes_bracketed h hbody))
  obtain ⟨_, body, _, hname, -, hbody, -, rfl⟩ := with_accepted hacc
  have := hb.link ", ".toList (by decide) (closes_cte hname (closes_bracketed (hc c hmem) hbody))
  rwa [List.append_assoc] at this

/-- **The text of a nested value closes what it opens.** -/
theorem Nested.closes {v : VirtualTable} (h : Nested v) :
    ∀ x, v.toString = .ok x → Closes x := by
  induction h with
  | table h => exact fun x hx => by cases hx; exact h
  | columns h cols => exact fun x hx => by cases hx; exact h
  | aliased _ e ih => exact fun x hx => by cases hx; exact closes_as ih e
  | aliasedColumns _ e ih =>
    simp only [TableWithColumns.as, bind_ok, pure_ok] at e
    obtain ⟨_, hname, rfl⟩ := e
    exact fun x hx => by cases hx; exact (ih _ rfl).link " AS ".toList (by decide) (closes_identifier hname)
  | join _ _ hj hc hrun iha ihb => exact fun x hx => by cases hx; exact join_run iha ihb hj hc hrun
  | setOp _ _ hs iha ihb =>
    simp only [SetOp.new, bind_ok, pure_ok] at hs
    obtain ⟨s, hs, t, ht, rfl⟩ := hs
    exact fun x hx => by
      cases hx
      exact closes_setOp rfl (closes_bracketed iha hs) (closes_bracketed ihb ht)
  | select _ hs hc hrun ih => exact fun x hx => closes_select (select_run ih hs hc hrun) hx
  | «with» _ hb _ hrun _ hw ih ihc ihm =>
    exact fun x hx => by cases hx; exact with_run ih hb ihc hrun ihm hw
  | deleteFrom _ hc hw hr hrun ih ihc =>
    obtain ⟨h1, h2, h3, h4⟩ := delete_run (ih _ rfl) ihc hw hr hrun
    exact fun x hx => closes_deleteFrom h1 h2 h3 h4 hx

/-! ## The places -/

/-- Brackets make a group of any value but a named table. -/
theorem grouped_iff {v : VirtualTable} {s : Text} (hs : v.toStringBracketed = .ok s) :
    Grouped v s ↔ v.isNamed = false := by
  constructor
  · intro hg
    obtain ⟨x, hx, rfl⟩ := hg.encloses
    cases hn : v.isNamed
    · rfl
    · -- the name itself stands there, and is shorter than itself in brackets
      rw [bracketed_named hn, hx] at hs
      have := congrArg List.length (Except.ok.inj hs)
      rw [List.length_cons, List.length_append, List.length_singleton] at this
      omega
  · intro hn
    obtain ⟨x, hx, rfl⟩ := bracketed_other hn hs
    exact ⟨⟨x, hx, rfl⟩, fun hv => (hv.closes x hx).group⟩

theorem operand_text {op : SubqueryOp} {e : Expr} {v : VirtualTable} {t : Text}
    (h : (Site.operand op e).call v = .ok t) :
    ∃ s, v.toStringBracketed = .ok s ∧ t = (Site.operand op e).before ++ s := by
  have key : op.apply e v = Expr.subqueryNode (Site.opText op).1 (Site.opText op).2 e v := by
    cases op <;> rfl
  simp only [Site.call, key, Expr.subqueryNode, bind_ok, pure_ok] at h
  obtain ⟨c, ⟨s, hs, rfl⟩, rfl⟩ := h
  refine ⟨s, hs, ?_⟩
  show _ = e.extract (Site.opText op).1 ++ (Site.opText op).2 ++ s
  simp [Condition.toString]

theorem textOf_eq {v : VirtualTable} {s : Text} (h : v.toStringBracketed = .ok s) :
    Site.textOf v = s := by
  rw [Site.textOf, h]
  rfl

/-- Every place has the bracketed text of its value, between what stands around it. -/
theorem site_text {site : Site} {v : VirtualTable} {t : Text} (h : site.call v = .ok t) :
    ∃ s, v.toStringBracketed = .ok s ∧ t = site.before ++ s ++ site.after := by
  cases site with
  | operand op e =>
    obtain ⟨s, hs, rfl⟩ := operand_text h
    exact ⟨s, hs, (List.append_nil _).symm⟩
  | «exists» =>
    simp only [Site.call, Expr.exists, bind_ok, pure_ok] at h
    obtain ⟨c, ⟨s, hs, rfl⟩, rfl⟩ := h
    exact ⟨s, hs, List.append_nil _ ▸ rfl⟩
  | notExists =>
    simp only [Site.call, Expr.notExists, bind_ok, pure_ok] at h
    obtain ⟨c, ⟨s, hs, rfl⟩, rfl⟩ := h
    exact ⟨s, hs, List.append_nil _ ▸ rfl⟩
  | setOpLeft kind b =>
    simp only [Site.call, SetOp.new, bind_ok, pure_ok] at h
    obtain ⟨o, ⟨s, hs, t, ht, rfl⟩, rfl⟩ := h
    refine ⟨s, hs, ?_⟩
    show _ = [] ++ s ++ (" ".toList ++ kind.toString ++ " ".toList ++ Site.textOf b)
    simp only [SetOp.toString, textOf_eq ht, List.nil_append, List.append_assoc]
  | setOpRight a kind =>
    simp only [Site.call, SetOp.new, bind_ok, pure_ok] at h
    obtain ⟨o, ⟨t, ht, s, hs, rfl⟩, rfl⟩ := h
    refine ⟨s, hs, ?_⟩
    show _ = Site.textOf a ++ " ".toList ++ kind.toString ++ " ".toList ++ s ++ []
    simp only [SetOp.toString, textOf_eq ht, List.append_nil]
  | firstCte name =>
    simp only [Site.call, withCte, bind_ok, pure_ok] at h
    obtain ⟨b, ⟨_, -, s, hs, _, -, rfl⟩, rfl⟩ := h
    exact ⟨s, hs, List.append_nil _ ▸ rfl⟩
  | nextCte b name =>
    simp only [Site.call, bind_ok, pure_ok] at h
    obtain ⟨b', hb, rfl⟩ := h
    have hacc : ((⟨name, v⟩ : WithCall).apply b).accepted = some b' := by
      rw [WithCall.apply, Outcome.result_eq_ok.1 hb, Outcome.accepted_ok]
    obtain ⟨_, s, _, -, -, hs, -, rfl⟩ := with_accepted hacc
    refine ⟨s, hs, ?_⟩
    show _ = b.ctes_ ++ ", ".toList ++ name ++ " AS ".toList ++ s ++ []
    simp only [cteText, List.append_nil, List.append_assoc]
  | scalar =>
    simp only [Site.call, VirtualTable.toExpr, bind_ok, pure_ok] at h
    obtain ⟨c, ⟨s, hs, rfl⟩, rfl⟩ := h
    exact ⟨s, hs, List.append_nil _ ▸ rfl⟩

/-- **A table value in the place of a subquery is one bracket, unless it is a named table.** -/
theorem subquery_bracketed {site : Site} {v : VirtualTable} {t : Text}
    (h : site.call v = .ok t) :
    ∃ s, t = site.before ++ s ++ site.after ∧ (Grouped v s ↔ v.isNamed = false) := by
  obtain ⟨s, hs, ht⟩ := site_text h
  exact ⟨s, ht, grouped_iff hs⟩

/-- `EXISTS (SELECT 1 FROM t)`. -/
theorem exists_bracketed :
    let s : SelectExpr := { from_ := "t".toList, select_ := some [⟨"1".toList⟩] }
    ∃ t, Site.exists.call (.select s) = .ok t ∧ t = "EXISTS (SELECT 1 FROM t)".toList ∧
      ∃ x, t = Site.exists.before ++ x ++ Site.exists.after ∧
        (Grouped (.select s) x ↔ (VirtualTable.select s).isNamed = false) :=
  ⟨_, rfl, by decide, subquery_bracketed rfl⟩

/-- A named table stands in no brackets: `EXISTS t`. -/
theorem exists_named_table :
    let v : VirtualTable := .table (.fromRaw "t".toList)
    Nested v ∧ Site.exists.call v = .ok "EXISTS t".toList ∧
      ∀ s, "EXISTS t".toList = Site.exists.before ++ s ++ Site.exists.after → ¬ Grouped v s := by
  refine ⟨.table (.of_reads (reads_const (by decide) rfl) (fun r _ => fresh_front (by decide) r)
    (closed_const (by decide))), rfl, fun s hs hg => ?_⟩
  obtain ⟨x, hx, rfl⟩ := hg.encloses
  cases hx
  exact absurd hs (by decide)

end IronQuery
