import IronQuery.Pg.Proof.Operators
import IronQuery.Proof.Related

/-!
# The names of operators

`validateOperatorName` against PostgreSQL's rule for an operator's name, over all texts, and what the
server makes of an accepted name (`operator_name`).
-/

namespace IronQuery

open Pg

/-- PostgreSQL's rule: operator characters that open no comment, and of several characters the last
is a sign only if one of them is special. -/
def isOperatorName (s : Text) : Bool :=
  !s.isEmpty && s.all isOpChar && !contains "--".toList s && !contains "/*".toList s &&
    (decide (s.length ≤ 1) || !s.getLast?.any isSign || s.any isSpecialOpChar)

/-- The name is accepted if and only if PostgreSQL's rule allows it, a refused one is named in the
exception, and an accepted one between spaces is one token to the server, an operator. -/
def NameChecked (s : Text) : Prop :=
  (validateOperatorName s = .ok () ↔ isOperatorName s = true) ∧
  (validateOperatorName s ≠ .ok () → validateOperatorName s = .error (.invalidOperator s)) ∧
  (validateOperatorName s = .ok () → (Token.op s).isOperator = true ∧
    ∀ r, served (" ".toList ++ s ++ " ".toList ++ r) = some (.op s) :: served r)

/-- Operator characters without a comment, not all of them signs and none of them special, the last
a sign. -/
def mixesSigns (s : Text) : Bool :=
  s.all isOpChar && noComment s && losesSign s && s.any fun c => !isSign c

/-- A name by the rule that the server refuses as an operator: `=>`, or one that is too long. -/
def isRefused (s : Text) : Bool :=
  isOperatorName s && (s == "=>".toList || decide (nameDataLen ≤ s.length))

/-! ## What the code accepts -/

theorem contains_of_noComment {s : Text} (h : noComment s = true) :
    contains "--".toList s = false ∧ contains "/*".toList s = false := by
  induction s with
  | nil => exact ⟨rfl, rfl⟩
  | cons c s ih =>
    simp only [noComment, Bool.and_eq_true, Bool.not_eq_true'] at h
    have two (a b : Char) (h : (c == a && s.head? == some b) = false) :
        [a, b].isPrefixOf (c :: s) = false := by
      cases s with
      | nil => simp [List.isPrefixOf]
      | cons d s =>
        simp only [Bool.and_eq_false_iff, beq_eq_false_iff_ne, ne_eq, List.head?_cons,
          Option.some.injEq] at h
        simp only [List.isPrefixOf, Bool.and_true, Bool.and_eq_false_iff, beq_eq_false_iff_ne, ne_eq]
        exact h.imp (fun h e => h e.symm) fun h e => h e.symm
    obtain ⟨⟨h1, h2⟩, h3⟩ := h
    simp only [contains, Bool.or_eq_false_iff]
    exact ⟨⟨two _ _ h1, (ih h3).1⟩, two _ _ h2, (ih h3).2⟩

theorem noComment_eq (s : Text) :
    noComment s = (!contains "--".toList s && !contains "/*".toList s) := by
  cases h : noComment s
  · symm
    rw [Bool.and_eq_false_iff, Bool.not_eq_false', Bool.not_eq_false']
    by_contra hn
    simp only [not_or, Bool.not_eq_true] at hn
    rw [noComment_of_contains hn.1 hn.2] at h
    cases h
  · obtain ⟨h1, h2⟩ := contains_of_noComment h
    rw [h1, h2]
    rfl

theorem isOperatorChar_eq (c : Char) : isOperatorChar c = isOpChar c := by
  rw [Bool.eq_iff_iff]
  exact ⟨fun h => all_of_contains h (by decide), fun h => all_of_contains h (by decide)⟩

/-- What both rules ask of a name. -/
def isSymbolic (s : Text) : Bool := !s.isEmpty && s.all isOpChar && noComment s

theorem isOperatorName_eq (s : Text) : isOperatorName s = (isSymbolic s && !losesSign s) := by
  have hlen : decide (s.length ≤ 1) = !decide (1 < s.length) := by
    simp only [← decide_not, Nat.not_lt]
  rw [isOperatorName, isSymbolic, noComment_eq, losesSign, hlen]
  simp only [Bool.not_and, Bool.not_not, Bool.and_assoc, Bool.or_assoc]

theorem allSigns_eq (s : Text) :
    (s.all fun c => "+-".toList.contains c) = !s.any fun c => !isSign c := by
  rw [List.not_any_eq_all_not]
  refine congrArg (List.all s) (funext fun c => ?_)
  have htwo : "+-".toList.contains c = (c == '+' || (c == '-' || false)) := rfl
  rw [htwo, isSign, Bool.or_false, Bool.not_not]

/-- **What the code accepts**: it asks that not all characters are signs, where PostgreSQL asks for
a special one. -/
theorem validateOperatorName_eq (s : Text) : validateOperatorName s =
    if isSymbolic s && !(decide (1 < s.length) && s.getLast?.any isSign &&
      !s.any fun c => !isSign c) then .ok () else .error (.invalidOperator s) := by
  have hall : s.all isOperatorChar = s.all isOpChar :=
    congrArg (List.all s) (funext isOperatorChar_eq)
  have hlast : (s.getLast? == some '+' || s.getLast? == some '-') = s.getLast?.any isSign := by
    cases s.getLast? with
    | none => rfl
    | some c => rfl
  have hbad : (s.isEmpty || !s.all isOperatorChar || contains "--".toList s ||
      contains "/*".toList s) = !isSymbolic s := by
    rw [isSymbolic, noComment_eq, hall]
    simp only [Bool.not_and, Bool.not_not, Bool.or_assoc]
  have hgt : decide (s.length > 1) = decide (1 < s.length) := rfl
  unfold validateOperatorName
  rw [hbad, hlast, allSigns_eq, hgt]
  cases isSymbolic s
  · rfl
  · cases decide (1 < s.length) && s.getLast?.any isSign && !s.any fun c => !isSign c <;> rfl

theorem isSign_not_special {c : Char} (h : isSpecialOpChar c = true) : isSign c = false := by
  have hall := all_of_contains (p := fun d => !isSign d) h (by decide)
  simpa only [Bool.not_eq_true'] using hall

/-- A name between spaces is one token if PostgreSQL's rule allows it. -/
theorem scan_name {s : Text} (h : isOperatorName s = true) (r : Text) :
    scan (" ".toList ++ s ++ " ".toList ++ r) = .op s :: scan r := by
  rw [isOperatorName_eq, isSymbolic] at h
  simp only [Bool.and_eq_true, Bool.not_eq_true', List.isEmpty_eq_false_iff] at h
  obtain ⟨⟨⟨hne, ho⟩, hc⟩, hs⟩ := h
  have hspace (t : Text) : scan (' ' :: t) = scan t := by
    rw [scan_cons, step_space (by decide)]
    rfl
  rw [List.append_assoc, List.append_assoc]
  show scan (' ' :: (s ++ (' ' :: r))) = _
  rw [hspace, scan_operator hne ho hc hs (stops_cons.2 (by decide)), hspace]

/-- The server takes a name by the rule for an operator, but for the refused ones. -/
theorem served_name {s : Text} (h : isOperatorName s = true) :
    ((Token.op s).isOperator = true ∧
      ∀ r, served (" ".toList ++ s ++ " ".toList ++ r) = some (.op s) :: served r) ↔
      isRefused s = false := by
  have hserved (r : Text) : served (" ".toList ++ s ++ " ".toList ++ r) =
      (Token.op s).finish :: served r := by
    rw [served, scan_name h, List.map_cons, served]
  simp only [hserved, List.cons.injEq, and_true, isRefused, h, Bool.true_and,
    Bool.or_eq_false_iff, decide_eq_false_iff_not, Nat.not_le, Token.isOperator, Token.finish,
    bne, Bool.not_eq_true', forall_const]
  refine and_congr_right fun _ => ?_
  by_cases hl : s.length < nameDataLen
  · simp [hl]
  · simp [hl]

/-- **The names that the code accepts are PostgreSQL's, and operators to the server, but for those
that mix signs with plain operator characters and for the refused ones.** -/
theorem operator_name (s : Text) :
    NameChecked s ↔ mixesSigns s = false ∧ isRefused s = false := by
  have haccept : validateOperatorName s = .ok () ↔
      (isOperatorName s || (isSymbolic s && losesSign s && s.any fun c => !isSign c)) = true := by
    rw [validateOperatorName_eq, isOperatorName_eq, losesSign]
    cases hsp : s.any isSpecialOpChar with
    | false =>
      cases isSymbolic s <;> cases decide (1 < s.length) <;> cases s.getLast?.any isSign <;>
        cases s.any (fun c => !isSign c) <;> simp
    | true =>
      obtain ⟨c, hc, hcs⟩ := List.any_eq_true.1 hsp
      have : (s.any fun c => !isSign c) = true :=
        List.any_eq_true.2 ⟨c, hc, by rw [isSign_not_special hcs]; rfl⟩
      rw [this]
      cases isSymbolic s <;> simp
  have hmix : mixesSigns s = (isSymbolic s && losesSign s && s.any fun c => !isSign c) := by
    unfold mixesSigns isSymbolic
    cases s with
    | nil => rfl
    | cons c s => rfl
  constructor
  · rintro ⟨hiff, -, hone⟩
    refine ⟨?_, ?_⟩
    · by_contra hm
      rw [Bool.not_eq_false] at hm
      -- the name is accepted, and PostgreSQL cuts its sign off
      rw [hmix] at hm
      have hok := haccept.2 (by rw [hm, Bool.or_true])
      have hname := hiff.1 hok
      rw [isOperatorName_eq] at hname
      simp only [Bool.and_eq_true, Bool.not_eq_true'] at hname hm
      rw [hm.1.2] at hname
      cases hname.2
    · by_cases hname : isOperatorName s = true
      · exact (served_name hname).1 (hone (hiff.2 hname))
      · rw [isRefused, Bool.eq_false_iff.2 hname]
        rfl
  · rintro ⟨hm, hr⟩
    rw [← hmix, hm, Bool.or_false] at haccept
    refine ⟨haccept, fun h => ?_, fun h => (served_name (haccept.1 h)).2 hr⟩
    rw [validateOperatorName_eq] at h ⊢
    split
    · rename_i hc
      rw [if_pos hc] at h
      exact absurd rfl h
    · rfl

/-- `*-` is accepted, and read as `*` and `-`. -/
theorem starMinus_accepted : ¬ NameChecked "*-".toList ∧
    validateOperatorName "*-".toList = .ok () ∧
    lex " *- ".toList = [.op "*".toList, .op "-".toList] :=
  ⟨fun h => absurd (h.1.1 (by decide)) (by decide), by decide, by decide⟩

end IronQuery
