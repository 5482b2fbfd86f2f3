import IronQuery.Expr
import IronQuery.Pg.Proof.Lexemes
import IronQuery.Pg.Proof.Piece

/-!
# What the validated names are

* `validateIdentifier_ok`: an accepted name is plain identifiers between single dots (`dotParts`).
* `seals_path`: it is read as their words with points between them.
* `operator_of_ok`: an accepted operator is operator characters that open no comment.
* `escaped_eq`: a rendered literal is a quoted token.
-/

namespace IronQuery

open Pg

/-! ## Identifiers -/

/-- The parts of a text between dots. -/
def dotParts : Text → List Text
  | [] => [[]]
  | c :: s =>
    if c = '.' then [] :: dotParts s
    else match dotParts s with
      | p :: ps => (c :: p) :: ps
      | [] => [[c]]

/-- The parts with dots between them. -/
def joinDots : List Text → Text
  | [] => []
  | [p] => p
  | p :: q :: l => p ++ '.' :: joinDots (q :: l)

theorem dotParts_of_no_dot {p : Text} (h : ∀ d ∈ p, d ≠ '.') : dotParts p = [p] := by
  induction p with
  | nil => rfl
  | cons c p ih =>
    rw [dotParts, if_neg (h c (.head _)), ih fun d hd => h d (.tail _ hd)]

theorem dotParts_ne_nil (s : Text) : dotParts s ≠ [] := by
  cases s with
  | nil => simp [dotParts]
  | cons c s =>
    rw [dotParts]
    split
    · simp
    · split <;> simp

theorem joinDots_dotParts (s : Text) : joinDots (dotParts s) = s := by
  induction s with
  | nil => rfl
  | cons c s ih =>
    obtain ⟨p, ps, hp⟩ := List.exists_cons_of_ne_nil (dotParts_ne_nil s)
    rw [dotParts, hp]
    rw [hp] at ih
    split
    · rename_i hc
      rw [joinDots, ih, hc]
      rfl
    · cases ps with
      | nil => simpa [joinDots] using ih
      | cons q l => simpa [joinDots] using ih

/-- The first part of a text, and where the search for its dot ends. -/
theorem dotParts_find (s : Text) :
    dotParts s = match s.findIdx? (· == '.') with
      | none => [s]
      | some n => s.take n :: dotParts (s.drop (n + 1)) := by
  induction s with
  | nil => rfl
  | cons c s ih =>
    by_cases hc : c = '.'
    · simp [dotParts, hc, List.findIdx?_cons]
    · rw [dotParts, if_neg hc, List.findIdx?_cons, if_neg (by simpa using hc), ih]
      cases s.findIdx? (· == '.') <;> rfl

/-- One round of the loop. -/
theorem validateParts_succ (n : Nat) (s : Text) (start : Nat) :
    validateParts (n + 1) s start = match (s.drop start).findIdx? (· == '.') with
      | none => if isPlainIdentifier (s.drop start) then .ok () else .error (.invalidIdentifier s)
      | some k => if isPlainIdentifier ((s.drop start).take k) then validateParts n s (start + k + 1)
        else .error (.invalidIdentifier s) := by
  rw [validateParts, find]
  generalize (s.drop start).findIdx? (· == '.') = o
  cases o with
  | none => cases h : isPlainIdentifier (s.drop start) <;> simp [substr, h]
  | some k => cases h : isPlainIdentifier ((s.drop start).take k) <;> simp [substr, h]

theorem validateParts_eq (s : Text) (n start : Nat) (hs : start ≤ s.length)
    (hn : s.length < n + start) :
    validateParts n s start = if (dotParts (s.drop start)).all isPlainIdentifier then .ok ()
      else .error (.invalidIdentifier s) := by
  induction n generalizing start with
  | zero => omega
  | succ n ih =>
    rw [validateParts_succ, dotParts_find]
    match hf : (s.drop start).findIdx? (· == '.') with
    | none => simp only [List.all_cons, List.all_nil, Bool.and_true]
    | some k =>
      have hk : k < (s.drop start).length := (List.findIdx?_eq_some_iff_findIdx_eq.1 hf).1
      rw [List.length_drop] at hk
      have ih := ih (start + k + 1) (by omega) (by omega)
      simp only [List.all_cons, List.drop_drop, ← Nat.add_assoc, ih]
      cases isPlainIdentifier ((s.drop start).take k) <;> simp

/-- **What `ValidateIdentifier` accepts**: plain identifiers between single dots. -/
theorem validateIdentifier_eq (s : Text) :
    validateIdentifier s = if (dotParts s).all isPlainIdentifier then .ok ()
      else .error (.invalidIdentifier s) := by
  have := validateParts_eq s (s.length + 1) 0 (Nat.zero_le _) (by omega)
  rwa [List.drop_zero] at this

theorem validateIdentifier_ok {s : Text} {u : Unit} (h : validateIdentifier s = .ok u) :
    ∀ p ∈ dotParts s, isPlainIdentifier p = true := by
  rw [validateIdentifier_eq] at h
  split at h
  · rename_i ha
    exact List.all_eq_true.1 ha
  · cases h

/-! ### Their words -/

theorem isAlpha_start {c : Char} (h : (c.isAlpha || c == '_') = true) : isIdentStart c = true := by
  simp only [isIdentStart, h, Bool.true_or]

theorem isAlphanum_cont {c : Char} (h : (c.isAlphanum || c == '_') = true) :
    isIdentCont c = true := by
  simp only [Char.isAlphanum, Bool.or_eq_true] at h
  simp only [isIdentCont, isIdentStart, Bool.or_eq_true]
  rcases h with (h | h) | h
  · exact .inl (.inl (.inl (.inl h)))
  · exact .inl (.inr h)
  · exact .inl (.inl (.inl (.inr h)))

/-- A plain identifier by its first character. -/
theorem plain_cons {w : Text} (h : isPlainIdentifier w = true) :
    ∃ c s, w = c :: s ∧ isIdentStart c = true ∧ s.all isIdentCont = true := by
  cases w with
  | nil => cases h
  | cons c s =>
    simp only [isPlainIdentifier, Bool.and_eq_true, List.all_eq_true] at h
    exact ⟨c, s, rfl, isAlpha_start h.1, List.all_eq_true.2 fun d hd => isAlphanum_cont (h.2 d hd)⟩

theorem seals_plain {w : Text} (h : isPlainIdentifier w = true) :
    Seals lex w [.word w] := by
  obtain ⟨c, s, hw, hc, hs⟩ := plain_cons h
  exact seals_name hw hc hs

theorem isIdentStart_not_op {c : Char} (h : isIdentStart c = true) :
    isOpChar c = false ∧ c.isDigit = false := by
  constructor
  · cases ho : isOpChar c
    · rfl
    · have hall := all_of_contains (p := fun d => !isIdentStart d) ho (by decide)
      rw [h] at hall
      cases hall
  · cases hd : c.isDigit
    · rfl
    · rw [isDigit_not_start hd] at h
      cases h

theorem plain_head {w : Text} (h : isPlainIdentifier w = true) :
    Stops isOpChar w ∧ Stops Char.isDigit w := by
  obtain ⟨c, s, rfl, hc, -⟩ := plain_cons h
  exact ⟨stops_cons.2 (isIdentStart_not_op hc).1, stops_cons.2 (isIdentStart_not_op hc).2⟩

/-- The tokens of names with points between them. -/
def pathTokens : List Text → List Token
  | [] => []
  | [p] => [.word p]
  | p :: q :: l => .word p :: .punct '.' :: pathTokens (q :: l)

theorem joinDots_head {p : Char → Bool} {x : Text} (hx : Stops p x) (hne : x ≠ []) (l : List Text) :
    Stops p (joinDots (x :: l)) := by
  cases l with
  | nil => exact hx
  | cons q l =>
    cases x with
    | nil => exact absurd rfl hne
    | cons c x => exact hx

theorem plain_ne_nil {w : Text} (h : isPlainIdentifier w = true) : w ≠ [] := by
  rintro rfl; cases h

/-- **A dot-qualified name is read as its parts.** -/
theorem seals_path : {ps : List Text} → ps ≠ [] → (∀ p ∈ ps, isPlainIdentifier p = true) →
    Seals lex (joinDots ps) (pathTokens ps)
  | [], h, _ => absurd rfl h
  | [p], _, hp => seals_plain (hp p (.head _))
  | p :: q :: l, _, hp => by
    have hq := hp q (.tail _ (.head _))
    exact (seals_plain (hp p (.head _))).point_seals
      (seals_path (by simp) fun r hr => hp r (.tail _ hr))
      (joinDots_head (plain_head hq).2 (plain_ne_nil hq) l)

/-! ## Operators -/

theorem noComment_of_contains {s : Text} (h1 : contains "--".toList s = false)
    (h2 : contains "/*".toList s = false) : noComment s = true := by
  induction s with
  | nil => rfl
  | cons c s ih =>
    simp only [contains, Bool.or_eq_false_iff] at h1 h2
    have two (a b : Char) (h : [a, b].isPrefixOf (c :: s) = false) :
        (c == a && s.head? == some b) = false := by
      cases s with
      | nil => simp
      | cons d s =>
        simp only [List.isPrefixOf, Bool.and_true, Bool.and_eq_false_iff, beq_eq_false_iff_ne,
          List.head?_cons, ne_eq] at h ⊢
        exact h.imp (fun h e => h e.symm) fun h e => h (Option.some.inj e).symm
    rw [noComment, two '-' '-' h1.1, two '/' '*' h2.1, ih h1.2 h2.2]
    rfl

theorem operator_of_ok {s : Text} {r : Unit} (h : validateOperatorName s = .ok r) :
    s ≠ [] ∧ s.all isOpChar = true ∧ noComment s = true := by
  unfold validateOperatorName at h
  split at h
  · cases h
  · rename_i hs
    simp only [Bool.not_eq_true, Bool.or_eq_false_iff, Bool.not_eq_false'] at hs
    obtain ⟨⟨⟨h1, h2⟩, h3⟩, h4⟩ := hs
    refine ⟨fun e => by (rw [e] at h1; cases h1), ?_, noComment_of_contains h3 h4⟩
    refine List.all_eq_true.2 fun c hc => ?_
    exact all_of_contains (List.all_eq_true.1 h2 c hc) (by decide)

/-! ## Literals -/

/-- **The escaping loop writes a quoted token.** -/
theorem escaped_eq (q : Char) (v : Text) : Expr.escaped q v = quote q v := by
  have key : ∀ (v acc : Text),
      v.foldl (fun s c => (if c == q then s ++ [q] else s) ++ [c]) acc = acc ++ escape q v := by
    intro v
    induction v with
    | nil => simp
    | cons c v ih =>
      intro acc
      rw [List.foldl_cons, ih, escape_cons]
      by_cases hc : c = q <;> simp [hc]
  rw [Expr.escaped, key]
  rfl

theorem literal_ok {v : Text} {e : Expr} (h : Expr.literal v = .ok e) :
    '\x00' ∉ v ∧ e = .fromRaw (quote '\'' v) := by
  simp only [Expr.literal, escaped_eq] at h
  split at h
  · cases h
  · rename_i hc
    cases h
    exact ⟨by simpa using hc, rfl⟩

theorem ident_ok {v : Text} {e : Expr} (h : Expr.ident v = .ok e) :
    '\x00' ∉ v ∧ e = .fromRaw (quote '"' v) := by
  simp only [Expr.ident, escaped_eq] at h
  split at h
  · cases h
  · rename_i hc
    cases h
    exact ⟨by simpa using hc, rfl⟩

/-! ## Numbers -/

theorem natToString_digits (n : Nat) :
    natToString n ≠ [] ∧ (natToString n).all Char.isDigit = true :=
  ⟨Nat.toDigits_ne_nil, List.all_eq_true.2 fun _ hc =>
    Nat.isDigit_of_mem_toDigits (by decide) (by decide) hc⟩

theorem natToString_head (n : Nat) : Stops isOpChar (natToString n) := by
  intro c hc
  have hm : c ∈ natToString n := List.mem_of_mem_head? (by simpa using hc)
  have hd := List.all_eq_true.1 (natToString_digits n).2 c hm
  cases ho : isOpChar c
  · rfl
  · have hall := all_of_contains (p := fun d => !d.isDigit) ho (by decide)
    rw [hd] at hall
    cases hall

end IronQuery
