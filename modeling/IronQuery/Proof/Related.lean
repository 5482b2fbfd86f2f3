import IronQuery.Program
import IronQuery.Proof.Text
import Mathlib.Data.List.Forall2

/-!
# Two runs of an expression

`NodeRel u x y`: the nodes `x` and `y` are rendered alike but for a text `u` in `y` where `x` has the
mark. `Agree` lifts such a relation to calls that may throw: both throw the same, or neither does.

Each operator of the API keeps the relation; the lemmas are one for each family of nodes.
-/

namespace IronQuery

open OperatorPrecedence Pg

/-! ## Calls that may throw -/

def Agree {α β : Type} (R : α → β → Prop) : Result α → Result β → Prop
  | .ok a, .ok b => R a b
  | .error e, .error e' => e = e'
  | _, _ => False

section
variable {α β γ δ : Type} {R : α → β → Prop} {S : γ → δ → Prop}

theorem Agree.bind_eq {x : Result α} {y : Result β} {f : α → Result γ} {g : β → Result δ}
    (h : Agree R x y) (hf : ∀ a b, x = .ok a → R a b → Agree S (f a) (g b)) :
    Agree S (x >>= f) (y >>= g) := by
  cases x with
  | error e =>
    cases y with
    | error e' => exact h
    | ok b => cases h
  | ok a =>
    cases y with
    | error e => cases h
    | ok b => exact hf a b rfl h

theorem Agree.bind {x : Result α} {y : Result β} {f : α → Result γ} {g : β → Result δ}
    (h : Agree R x y) (hf : ∀ a b, R a b → Agree S (f a) (g b)) : Agree S (x >>= f) (y >>= g) :=
  h.bind_eq fun a b _ => hf a b

theorem Agree.pure {a : α} {b : β} (h : R a b) : Agree R (pure a) (pure b) := h

theorem Agree.error (e : Exception) : Agree R (.error e) (.error e) := rfl

/-- The same check before both. -/
theorem Agree.guard {c : Result Unit} {x : Result α} {y : Result β}
    (h : c = .ok () → Agree R x y) : Agree R (c >>= fun _ => x) (c >>= fun _ => y) := by
  cases c with
  | error e => rfl
  | ok => exact h rfl

theorem Agree.ok_left {x : Result α} {y : Result β} (h : Agree R x y) {a : α} (hx : x = .ok a) :
    ∃ b, y = .ok b ∧ R a b := by
  subst hx
  cases y with
  | error e => cases h
  | ok b => exact ⟨b, rfl, h⟩

theorem Agree.error_left {x : Result α} {y : Result β} (h : Agree R x y) {e : Exception}
    (hx : x = .error e) : y = .error e := by
  subst hx
  cases y with
  | error e' => rw [show e = e' from h]
  | ok b => cases h

end

/-! ## Texts -/

section
variable (u : Text)

/-- `y` is the whole text `x` with `u` in the place of every mark. -/
abbrev Filled (x y : Text) : Prop := Piece mark u ready whole x y

end

section
variable {u : Text} {x y x' y' : Text}

/-- A constant in front. -/
theorem Filled.lead (c : Text) (h : Filled u x y)
    (hc : isFragment mark ready ready c = true) : Filled u (c ++ x) (c ++ y) :=
  (Piece.fragment hc).append h

/-- A constant behind. -/
theorem Filled.trail (c : Text) (h : Filled u x y)
    (hc : isFragment mark whole whole c = true) : Filled u (x ++ c) (y ++ c) :=
  h.append (Piece.fragment hc)

/-- A constant between. -/
theorem Filled.link (c : Text) (h : Filled u x y) (h' : Filled u x' y')
    (hc : isFragment mark whole ready c = true) :
    Filled u (x ++ (c ++ x')) (y ++ (c ++ y')) :=
  h.append ((Piece.fragment hc).append h')

theorem Filled.const (c : Text) (hc : isFragment mark ready whole c = true) :
    Filled u c c :=
  Piece.fragment hc

theorem Filled.parens (h : Filled u x y) : Filled u ('(' :: (x ++ [')'])) ('(' :: (y ++ [')'])) :=
  Filled.lead ['('] (h.trail [')'] (by decide)) (by decide)

theorem Filled.of_closed {s : Text} (h : isClosed s = true) : Filled u s s := by
  rw [isClosed, Bool.and_eq_true] at h
  exact Piece.fragment h.2

/-- `Filled`, of a text that does not end in a string constant. -/
abbrev Named (u x y : Text) : Prop := Piece mark u ready named x y

theorem Named.filled (h : Named u x y) : Filled u x y := h.mono (fun _ h => h) (by decide)

theorem Named.of_tableName {s : Text} (h : isTableName s = true) : Named u s s := by
  simp only [isTableName, Bool.and_eq_true] at h
  exact Piece.fragment h.2

theorem Named.alias (c : Text) {s : Text} (h : Filled u x y)
    (hc : isFragment mark whole ready c = true) (hs : Named u s s) :
    Named u (x ++ c ++ s) (y ++ c ++ s) :=
  (h.append (Piece.fragment hc)).append hs

theorem not_mem_bytes {s : Text} (h : isBytes s = true) : mark ∉ s := fun hm => by
  have := List.all_eq_true.1 h mark hm
  revert this
  decide

theorem Filled.quote {q : Char} {v : Text} (hq : isQuote q = true) (hv : isBytes v = true) :
    Filled u (quote q v) (quote q v) :=
  (Piece.quote hq (not_mem_bytes hv) (by decide)).mono (by decide) (by decide)

/-! ### Names -/

/-- The characters of a dot-qualified name. -/
def isPathChar (c : Char) : Bool := c.isAlphanum || c == '_' || c == '.'

theorem path_of_plain {s : Text} (h : isPlainIdentifier s = true) : s.all isPathChar = true := by
  cases s with
  | nil => cases h
  | cons c s =>
    simp only [isPlainIdentifier, Bool.and_eq_true, List.all_eq_true] at h
    refine List.all_eq_true.2 fun d hd => ?_
    simp only [isPathChar, Bool.or_eq_true]
    rcases List.mem_cons.1 hd with rfl | hd
    · refine .inl ((Bool.or_eq_true _ _ ▸ h.1).imp (fun h => ?_) id)
      simp [Char.isAlphanum, h]
    · exact .inl (Bool.or_eq_true _ _ ▸ h.2 d hd)

theorem path_join {l : List Text} (h : ∀ p ∈ l, p.all isPathChar = true) :
    (joinDots l).all isPathChar = true := by
  induction l with
  | nil => rfl
  | cons p l ih =>
    cases l with
    | nil => exact h p (.head _)
    | cons q l =>
      rw [joinDots, List.all_append, h p (.head _), List.all_cons,
        ih fun p hp => h p (.tail _ hp)]
      rfl

theorem path_of_ok {s : Text} {r : Unit} (h : validateIdentifier s = .ok r) :
    s.all isPathChar = true := by
  rw [← joinDots_dotParts s]
  exact path_join fun p hp => path_of_plain (validateIdentifier_ok h p hp)

theorem isPathChar_lt {c : Char} (h : isPathChar c = true) : 45 < c.toNat ∧ c.toNat < 127 := by
  simp only [isPathChar, Char.isAlphanum, Char.isAlpha, Char.isUpper, Char.isLower, Char.isDigit,
    Bool.or_eq_true, Bool.and_eq_true, decide_eq_true_eq, beq_iff_eq, ge_iff_le,
    UInt32.le_iff_toNat_le] at h
  have hc : c.toNat = c.val.toNat := rfl
  rcases h with ((((⟨h1, h2⟩ | ⟨h1, h2⟩) | ⟨h1, h2⟩)) | rfl) | rfl
  · have e1 : 'A'.val.toNat = 65 := rfl
    have e2 : 'Z'.val.toNat = 90 := rfl
    omega
  · have e1 : 'a'.val.toNat = 97 := rfl
    have e2 : 'z'.val.toNat = 122 := rfl
    omega
  · have e1 : '0'.val.toNat = 48 := rfl
    have e2 : '9'.val.toNat = 57 := rfl
    omega
  · decide
  · decide

theorem isCalm_of_path {c : Char} (h : isPathChar c = true) : isCalm c = true := by
  have hne : ∀ d : Char, isPathChar d = false → c ≠ d := by
    rintro d hd rfl
    rw [h] at hd
    cases hd
  simp only [isCalm, isQuote, Bool.and_eq_true, Bool.not_eq_true', Bool.or_eq_false_iff,
    beq_eq_false_iff_ne, bne_iff_ne]
  exact ⟨⟨⟨⟨hne _ (by decide), hne _ (by decide)⟩, hne _ (by decide)⟩, hne _ (by decide)⟩,
    hne _ (by decide)⟩

theorem Named.path {s : Text} (h : s.all isPathChar = true) : Named u s s := by
  refine (Piece.calm (List.all_eq_true.2 fun c hc => isCalm_of_path (List.all_eq_true.1 h c hc))
    fun hm => ?_).mono (by decide) (by decide)
  have := List.all_eq_true.1 h _ hm
  revert this
  decide

theorem Filled.path {s : Text} (h : s.all isPathChar = true) : Filled u s s := (Named.path h).filled

theorem head_of_path {s : Text} (h : s.all isPathChar = true) : s.head? ≠ some '-' := by
  intro he
  have := List.all_eq_true.1 h _ (List.mem_of_mem_head? he)
  revert this
  decide

/-! ### Numbers -/

theorem isDigit_path {c : Char} (h : c.isDigit = true) : isPathChar c = true := by
  simp [isPathChar, Char.isAlphanum, h]

theorem natToString_path (n : Nat) : (natToString n).all isPathChar = true :=
  List.all_eq_true.2 fun c hc => isDigit_path (List.all_eq_true.1 (natToString_digits n).2 c hc)

theorem Filled.nat (n : Nat) : Filled u (natToString n) (natToString n) :=
  .path (natToString_path n)

theorem Filled.int (n : Int) : Filled u (intToString n) (intToString n) := by
  cases n with
  | ofNat n => exact .nat n
  | negSucc n =>
    exact (Piece.fragment (S := ready) (T := [.dash]) (x := ['-']) (by decide)).append
      ((Filled.nat (n + 1)).after_dash (head_of_path (natToString_path _)))

end

/-! ## Nodes -/

structure NodeRel (u : Text) (x y : Node) : Prop where
  precedence : y.precedence = x.precedence
  text : Filled u (render x) (render y)

section
variable {u : Text} {x y a b c a' b' c' : Node}

theorem NodeRel.extract (h : NodeRel u x y) (ctx : OperatorPrecedence) :
    Filled u (renderWithContext x ctx) (renderWithContext y ctx) := by
  rw [renderWithContext_eq, renderWithContext_eq, h.precedence]
  split
  · exact h.text.parens
  · exact h.text

theorem NodeRel.leaf {x y : Text} (h : Filled u x y) (p : OperatorPrecedence) :
    NodeRel u (makeLeaf x p) (makeLeaf y p) := ⟨rfl, h⟩

theorem NodeRel.of_parts {p : OperatorPrecedence} {l l' : List Part}
    (h : Filled u (l.flatMap Part.render) (l'.flatMap Part.render)) :
    NodeRel u (makeNode p l) (makeNode p l') :=
  ⟨rfl, by rw [render_makeNode, render_makeNode]; exact h⟩

end

/-! ## Operators -/

section
variable {u : Text} {a b c a' b' c' : Expr}

abbrev ExprRel (u : Text) (x y : Expr) : Prop := NodeRel u x.node y.node

abbrev ConditionRel (u : Text) (x y : Condition) : Prop := NodeRel u x.node y.node

theorem ExprRel.toString (h : ExprRel u a a') : Filled u a.toString a'.toString := h.text

theorem ExprRel.child (h : ExprRel u a a') (ctx : OperatorPrecedence) :
    Filled u (a.extract ctx) (a'.extract ctx) := h.extract ctx

theorem binaryNode_rel {op : Text} (hop : validateOperatorName op = .ok ()) (p : OperatorPrecedence)
    (ha : ExprRel u a a') (hb : ExprRel u b b') :
    NodeRel u (Expr.binaryNode p op a b) (Expr.binaryNode p op a' b') := by
  refine ⟨rfl, ?_⟩
  rw [binaryNode_text, binaryNode_text]
  obtain ⟨hne, h1, h2⟩ := operator_of_ok hop
  have hsp : Piece mark u whole spaced [' '] [' '] := Piece.fragment (by decide)
  exact (ha.child p).append ((hsp.append (Piece.ops (by decide) (by decide) hne h1 h2)).append
    (hb.child p))

theorem binaryOp_rel (op : Text) (p : OperatorPrecedence) (ha : ExprRel u a a')
    (hb : ExprRel u b b') : Agree (ExprRel u) (a.binaryOp op b p) (a'.binaryOp op b' p) :=
  Agree.guard fun hop => binaryNode_rel hop p ha hb

theorem prefixOp_rel (op : Text) (p : OperatorPrecedence) (ha : ExprRel u a a') :
    Agree (ExprRel u) (Expr.prefixOp op a p) (Expr.prefixOp op a' p) :=
  Agree.guard fun hop => by
    obtain ⟨hne, h1, h2⟩ := operator_of_ok hop
    refine ⟨rfl, ?_⟩
    rw [prefixOp_text, prefixOp_text]
    exact ((Piece.ops (by decide) (by decide) hne h1 h2).mono (by decide) (fun _ h => h)).append
      (ha.child p)

theorem dot_rel (ha : ExprRel u a a') (hb : ExprRel u b b') : ExprRel u (a.dot b) (a'.dot b') :=
  ⟨rfl, by
    show Filled u (a.dot b).toString (a'.dot b').toString
    rw [dot_text, dot_text]
    exact Filled.link ['.'] (ha.child _) (hb.child _) (by decide)⟩

theorem index_rel (ha : ExprRel u a a') (hb : ExprRel u b b') :
    ExprRel u (a.index b) (a'.index b') :=
  ⟨rfl, by
    show Filled u (a.index b).toString (a'.index b').toString
    rw [index_text, index_text]
    exact Filled.link ['['] (ha.child _) ((hb.child _).trail [']'] (by decide)) (by decide)⟩

theorem castRaw_rel {type : Text} (ht : isClosed type = true) (ha : ExprRel u a a') :
    ExprRel u (a.castRaw type) (a'.castRaw type) :=
  ⟨rfl, by
    show Filled u (a.castRaw type).toString (a'.castRaw type).toString
    rw [castRaw_text, castRaw_text]
    have htype := (Filled.of_closed (u := u) ht).trail [')'] (by decide)
    exact Filled.lead _ (Filled.link _ (ha.child _) htype (by decide)) (by decide)⟩

theorem collate_rel (coll : BuiltinCollation) (ha : ExprRel u a a') :
    ExprRel u (a.collate coll.collation) (a'.collate coll.collation) :=
  ⟨rfl, by
    show Filled u (a.collate coll.collation).toString (a'.collate coll.collation).toString
    rw [collate_text, collate_text]
    refine (ha.child _).trail _ ?_
    cases coll <;> decide⟩

theorem not_rel (ha : ExprRel u a a') : ExprRel u a.not a'.not :=
  ⟨rfl, by
    show Filled u a.not.toString a'.not.toString
    rw [not_text, not_text]
    exact Filled.lead _ (ha.child _) (by decide)⟩

/-- The one operator that puts its operand right behind a character of its own. -/
theorem neg_rel (ha : ExprRel u a a')
    (hm : a.node.precedence.toNat < kUnaryPlus.toNat → a.toString.head? ≠ some '-') :
    ExprRel u a.neg a'.neg :=
  ⟨rfl, by
    show Filled u a.neg.toString a'.neg.toString
    rw [neg_text, neg_text]
    have hhead : (a.extract kUnaryPlus).head? ≠ some '-' := by
      rw [extract_eq]
      split
      · simp
      · exact hm (by omega)
    exact (Piece.fragment (S := ready) (T := [.dash]) (x := ['-']) (by decide)).append
      ((ha.child _).after_dash hhead)⟩

/-! ### Lists of arguments -/

theorem args_rel {l l' : List Expr} (h : List.Forall₂ (ExprRel u) l l') :
    Filled u (argsText l) (argsText l') := by
  induction h with
  | nil => exact Piece.nil (by decide)
  | @cons a b l l' hab hl ih =>
    cases hl with
    | nil =>
      rw [argsText_singleton, argsText_singleton]
      exact hab.child _
    | cons _ _ =>
      rw [argsText_cons, argsText_cons]
      exact (hab.child _).link _ ih (by decide)

theorem buildCallNode_rel {name pre : Text} (hname : name.all isPathChar = true)
    (hpre : isFragment mark ready ready pre = true) {l l' : List Expr}
    (h : List.Forall₂ (ExprRel u) l l') :
    NodeRel u (Expr.buildCallNode name pre l) (Expr.buildCallNode name pre l') := by
  refine ⟨rfl, ?_⟩
  rw [buildCallNode_text, buildCallNode_text]
  have hargs := (args_rel h).trail [')'] (by decide)
  exact (Filled.path hname).link ['('] (hargs.lead pre hpre) (by decide)

theorem call_rel (name : Text) {l l' : List Expr} (h : List.Forall₂ (ExprRel u) l l') :
    Agree (ExprRel u) (Expr.call name l) (Expr.call name l') :=
  Agree.guard fun hname => buildCallNode_rel (path_of_ok hname) (by decide) h

theorem ensureNonEmptyArgs_rel {l l' : List Expr} (h : List.Forall₂ (ExprRel u) l l')
    (name : Text) : Expr.ensureNonEmptyArgs l' name = Expr.ensureNonEmptyArgs l name := by
  rw [Expr.ensureNonEmptyArgs, Expr.ensureNonEmptyArgs, h.length_eq]

theorem callDistinct_rel (name : Text) {l l' : List Expr} (h : List.Forall₂ (ExprRel u) l l') :
    Agree (ExprRel u) (Expr.callDistinct name l) (Expr.callDistinct name l') :=
  Agree.guard fun hname => by
    rw [ensureNonEmptyArgs_rel h]
    exact Agree.guard fun _ => buildCallNode_rel (path_of_ok hname) (by decide) h

theorem function_rel (f : Function) {l l' : List Expr} (h : List.Forall₂ (ExprRel u) l l') :
    Agree (ExprRel u) (f.apply l) (f.apply l') := by
  have checked (name : Text) :
      Agree (ExprRel u) (do Expr.ensureNonEmptyArgs l name; Expr.call name l)
        (do Expr.ensureNonEmptyArgs l' name; Expr.call name l') := by
    rw [ensureNonEmptyArgs_rel h]
    exact Agree.guard fun _ => call_rel name h
  cases f with
  | call name => exact call_rel name h
  | callDistinct name => exact callDistinct_rel name h
  | coalesce => exact checked _
  | greatest => exact checked _
  | least => exact checked _

/-! ### The families -/

theorem unary_rel (op : Unary) (ha : ExprRel u a a')
    (hm : op = .neg → a.node.precedence.toNat < kUnaryPlus.toNat → a.toString.head? ≠ some '-')
    (ht : ∀ type, op = .castRaw type → isClosed type = true) :
    Agree (ExprRel u) (op.apply a) (op.apply a') := by
  have hargs : List.Forall₂ (ExprRel u) [a] [a'] := .cons ha .nil
  cases op with
  | neg => exact neg_rel ha (hm rfl)
  | not => exact not_rel ha
  | collate coll => exact collate_rel coll ha
  | castRaw type => exact castRaw_rel (ht type rfl) ha
  | prefixOp op p => exact prefixOp_rel op p ha
  | countDistinct => exact callDistinct_rel _ hargs
  | count | sum | avg | min | max => exact call_rel _ hargs

theorem binary_rel (op : Binary) (ha : ExprRel u a a') (hb : ExprRel u b b') :
    Agree (ExprRel u) (op.apply a b) (op.apply a' b') := by
  cases op with
  | dot => exact dot_rel ha hb
  | index => exact index_rel ha hb
  | named op => cases op <;> exact binaryOp_rel _ _ ha hb
  | binaryOp op p => exact binaryOp_rel op p ha hb
  | nullIf => exact call_rel _ (.cons ha (.cons hb .nil))

theorem betweenNode_rel (connector : Text) (hc : isFragment mark whole ready connector = true)
    (ha : ExprRel u a a') (hb : ExprRel u b b') (h : ExprRel u c c') :
    ConditionRel u (Expr.betweenNode connector a b c) (Expr.betweenNode connector a' b' c') :=
  ⟨rfl, by
    show Filled u (Expr.betweenNode ..).toString (Expr.betweenNode ..).toString
    rw [betweenNode_text, betweenNode_text]
    exact (ha.child _).link _ ((hb.child _).link _ (h.child _) (by decide)) hc⟩

theorem likeNode_rel (connector : Text) (hc : isFragment mark whole ready connector = true)
    (ha : ExprRel u a a') (hb : ExprRel u b b') :
    ConditionRel u (Expr.likeNode connector a b) (Expr.likeNode connector a' b') :=
  ⟨rfl, by
    show Filled u (Expr.likeNode ..).toString (Expr.likeNode ..).toString
    rw [likeNode_text, likeNode_text]
    exact (ha.child _).link _ (hb.child _) hc⟩

theorem quantNode_rel (connector : Text) (hc : isFragment mark whole ready connector = true)
    (ha : ExprRel u a a') (hb : ExprRel u b b') :
    ConditionRel u (Expr.quantNode connector a b) (Expr.quantNode connector a' b') :=
  ⟨rfl, by
    show Filled u (Expr.quantNode ..).toString (Expr.quantNode ..).toString
    rw [quantNode_text, quantNode_text]
    exact (ha.child _).link _ ((hb.child _).trail [')'] (by decide)) hc⟩

theorem isNode_rel (test : Text) (hc : isFragment mark whole whole test = true)
    (ha : ExprRel u a a') : ConditionRel u (Expr.isNode test a) (Expr.isNode test a') :=
  ⟨rfl, by
    show Filled u (Expr.isNode ..).toString (Expr.isNode ..).toString
    rw [isNode_text, isNode_text]
    exact (ha.child _).trail _ hc⟩

theorem distinctNode_rel (connector : Text) (hc : isFragment mark whole ready connector = true)
    (ha : ExprRel u a a') (hb : ExprRel u b b') :
    ConditionRel u (Expr.distinctNode connector a b) (Expr.distinctNode connector a' b') :=
  ⟨rfl, by
    show Filled u (Expr.distinctNode ..).toString (Expr.distinctNode ..).toString
    rw [distinctNode_text, distinctNode_text]
    exact (ha.child _).link _ (hb.child _) hc⟩

theorem buildInListNode_rel (connector : Text)
    (hc : isFragment mark whole ready connector = true) (ha : ExprRel u a a') {l l' : List Expr}
    (h : List.Forall₂ (ExprRel u) l l') :
    Agree (ConditionRel u) (Expr.buildInListNode a connector l)
      (Expr.buildInListNode a' connector l') := by
  by_cases hl : l.length = 0
  · have hl' : l'.length = 0 := h.length_eq ▸ hl
    simp only [Expr.buildInListNode, hl, hl', if_true]
    exact Agree.error _
  · have hl' : ¬ l'.length = 0 := h.length_eq ▸ hl
    simp only [Expr.buildInListNode, hl, hl', if_false]
    refine NodeRel.of_parts ?_
    simp only [List.flatMap_cons, List.flatMap_append, render_text, render_child, List.flatMap_nil,
      List.append_nil]
    have hargs := (args_rel h).trail [')'] (by decide)
    exact (ha.child _).link _ (hargs.lead ['('] (by decide)) hc

theorem test_rel (op : IsOp) (ha : ExprRel u a a') : ConditionRel u (op.apply a) (op.apply a') := by
  cases op <;> exact isNode_rel _ (by decide) ha

theorem relation_rel (op : Relation) (ha : ExprRel u a a') (hb : ExprRel u b b') :
    ConditionRel u (op.apply a b) (op.apply a' b') := by
  cases op with
  | like op neg => cases op <;> cases neg <;> exact likeNode_rel _ (by decide) ha hb
  | compare op => cases op <;> exact binaryNode_rel (by decide) _ ha hb
  | eqAny => exact quantNode_rel _ (by decide) ha hb
  | neAll => exact quantNode_rel _ (by decide) ha hb
  | distinctFrom neg => cases neg <;> exact distinctNode_rel _ (by decide) ha hb

theorem connective_rel (op : Connective) {c d c' d' : Condition} (hc : ConditionRel u c c')
    (hd : ConditionRel u d d') : ConditionRel u (op.apply c d) (op.apply c' d') := by
  refine ⟨by cases op <;> rfl, ?_⟩
  show Filled u (op.apply c d).toString (op.apply c' d').toString
  cases op with
  | and =>
    simp only [Connective.apply, and_text]
    exact (NodeRel.extract hc _).link _ (NodeRel.extract hd _) (by decide)
  | or =>
    simp only [Connective.apply, or_text]
    exact (NodeRel.extract hc _).link _ (NodeRel.extract hd _) (by decide)

theorem condition_not_rel {c c' : Condition} (hc : ConditionRel u c c') :
    ConditionRel u c.not c'.not :=
  ⟨rfl, by
    show Filled u c.not.toString c'.not.toString
    rw [condition_not_text, condition_not_text]
    exact Filled.lead _ (NodeRel.extract hc _) (by decide)⟩

end

end IronQuery
