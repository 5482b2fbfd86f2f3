import IronQuery.Pg.Proof.Lexemes
import IronQuery.Pg.Proof.Piece

/-!
# Operators as tokens

* `trimSigns_eq`: which names keep their last character: PostgreSQL cuts a trailing `+` or `-` off
  a name of several characters none of which is special.
* `scan_operator`: a name that opens no comment and keeps its last character is one token.
* `opens_pieces`: any name that opens no comment is its `opPieces`, the signs cut off tokens of their
  own.
-/

namespace Pg

/-- A name of several characters that ends in a sign and holds no special character. -/
def losesSign (o : Text) : Bool :=
  decide (1 < o.length) && o.getLast?.any isSign && !o.any isSpecialOpChar

theorem dropSigns_eq {t : Text} : dropSigns t = t ↔ t.length ≤ 1 ∨ t.head?.any isSign = false := by
  have hlen : ∀ t : Text, (dropSigns t).length ≤ t.length := fun t => by
    induction t using dropSigns.induct with
    | case1 c d s hs ih =>
      rw [dropSigns, if_pos hs]
      exact Nat.le_succ_of_le ih
    | case2 c d s hs => rw [dropSigns, if_neg hs]
    | case3 s hs => rw [dropSigns]; exact hs
  rcases t with _ | ⟨c, _ | ⟨d, s⟩⟩
  · simp [dropSigns]
  · simp [dropSigns]
  · by_cases hc : isSign c = true
    · rw [dropSigns, if_pos hc]
      have : dropSigns (d :: s) ≠ c :: d :: s := fun e => by
        have := hlen (d :: s)
        rw [e, List.length_cons] at this
        omega
      simp [this, hc]
    · rw [dropSigns, if_neg hc]
      simp [hc]

theorem trimSigns_eq {o : Text} : trimSigns o = o ↔ losesSign o = false := by
  unfold trimSigns
  split
  · rename_i hs
    simp [losesSign, hs]
  · rename_i hs
    have hr : (dropSigns o.reverse).reverse = o ↔ dropSigns o.reverse = o.reverse :=
      List.reverse_eq_iff
    rw [hr, dropSigns_eq, List.length_reverse, List.head?_reverse]
    simp only [Bool.not_eq_true] at hs
    cases h : o.getLast?.any isSign <;> simp [losesSign, hs, h]

theorem cutComment_eq {o : Text} (h : noComment o = true) : cutComment o = o := by
  induction o using cutComment.induct with
  | case1 s => simp [noComment] at h
  | case2 s => simp [noComment] at h
  | case3 c s h1 h2 ih =>
    simp only [noComment, Bool.and_eq_true] at h
    rw [cutComment, ih h.2]
    · exact h1
    · exact h2
  | case4 => rfl

/-- What an operator character is not. -/
theorem isOpChar_classes {c : Char} (h : isOpChar c = true) : isSpace c = false ∧ c ≠ '\'' ∧
    c ≠ '"' ∧ isIdentStart c = false ∧ c.isDigit = false ∧ c ≠ '.' ∧ c ≠ '$' := by
  have hall := all_of_contains (p := fun d => !isSpace d && d != '\'' && d != '"' &&
    !isIdentStart d && !d.isDigit && d != '.' && d != '$') h (by decide)
  simpa only [Bool.and_eq_true, Bool.not_eq_true', bne_iff_ne, and_assoc] using hall

theorem dropSigns_suffix (t : Text) : ∃ x, t = x ++ dropSigns t ∧ x.all isSign = true := by
  induction t using dropSigns.induct with
  | case1 c d s hs ih =>
    obtain ⟨x, hx, hall⟩ := ih
    exact ⟨c :: x, by rw [dropSigns, if_pos hs, List.cons_append, ← hx], by simp [hs, hall]⟩
  | case2 c d s hs => exact ⟨[], by rw [dropSigns, if_neg hs]; rfl, rfl⟩
  | case3 s hs => exact ⟨[], by rw [dropSigns]; exacts [rfl, hs], rfl⟩

/-- What is cut off a name are signs. -/
theorem trimSigns_append (o : Text) : trimSigns o ++ o.drop (trimSigns o).length = o ∧
    (o.drop (trimSigns o).length).all isSign = true := by
  have hcut : ∃ x, o = trimSigns o ++ x ∧ x.all isSign = true := by
    unfold trimSigns
    split
    · exact ⟨[], (List.append_nil o).symm, rfl⟩
    · obtain ⟨x, hx, hall⟩ := dropSigns_suffix o.reverse
      refine ⟨x.reverse, ?_, by rw [List.all_reverse]; exact hall⟩
      rw [← List.reverse_append, ← hx, List.reverse_reverse]
  obtain ⟨x, hx, hall⟩ := hcut
  have hdrop : o.drop (trimSigns o).length = x := by
    calc o.drop (trimSigns o).length = (trimSigns o ++ x).drop (trimSigns o).length := by rw [← hx]
      _ = x := List.drop_left' rfl
  rw [hdrop]
  exact ⟨hx.symm, hall⟩

/-- **The first token of a name**, whatever follows the name that is no operator character. -/
theorem scan_opToken {o r : Text} (hne : o ≠ []) (ho : o.all isOpChar = true)
    (hc : noComment o = true) (hr : Stops isOpChar r) :
    scan (o ++ r) = .op (trimSigns o) :: scan (o.drop (trimSigns o).length ++ r) := by
  obtain ⟨c, s, rfl⟩ := List.exists_cons_of_ne_nil hne
  have htoken : opToken (c :: (s ++ r)) = trimSigns (c :: s) := by
    rw [← List.cons_append, opToken_local hr, opToken, (takeWhile_all ho).1, cutComment_eq hc]
  have hlen : (trimSigns (c :: s)).length ≤ (c :: s).length := by
    have := congrArg List.length (trimSigns_append (c :: s)).1
    rw [List.length_append] at this
    exact Nat.le.intro this
  have hopens : stepOp (c :: (s ++ r)) =
      ([.op (trimSigns (c :: s))], (c :: s).drop (trimSigns (c :: s)).length ++ r) := by
    simp only [noComment, Bool.and_eq_true, Bool.not_eq_true', Bool.and_eq_false_iff,
      beq_eq_false_iff_ne, ne_eq] at hc
    have hnext (d : Char) (hd : isOpChar d = true) (he : (s ++ r).head? = some d) :
        s.head? = some d := by
      cases s with
      | nil => exact absurd hd (by rw [hr d he]; decide)
      | cons e s => exact he
    unfold stepOp
    split
    · rename_i t he
      obtain ⟨rfl, ht⟩ := List.cons.inj he
      exact absurd (hnext '-' (by decide) (by rw [ht]; rfl)) (hc.1.1.resolve_left (not_not_intro rfl))
    · rename_i t he
      obtain ⟨rfl, ht⟩ := List.cons.inj he
      exact absurd (hnext '*' (by decide) (by rw [ht]; rfl)) (hc.1.2.resolve_left (not_not_intro rfl))
    · rw [htoken, ← List.cons_append, List.drop_append_of_le_length hlen]
  have hop : isOpChar c = true := by
    simp only [List.all_cons, Bool.and_eq_true] at ho
    exact ho.1
  obtain ⟨h1, h2, h3, h4, h5, h6, h7⟩ := isOpChar_classes hop
  rw [List.cons_append, scan_cons]
  simp only [step, h1, h2, h3, h4, h5, h6, h7, hop, hopens, if_true, if_false, Bool.false_eq_true,
    false_and, or_self, List.cons_append, List.nil_append]

/-- **A name is one token**, whatever follows it that is no operator character. -/
theorem scan_operator {o r : Text} (hne : o ≠ []) (ho : o.all isOpChar = true)
    (hc : noComment o = true) (hs : losesSign o = false) (hr : Stops isOpChar r) :
    scan (o ++ r) = .op o :: scan r := by
  rw [scan_opToken hne ho hc hr, trimSigns_eq.2 hs, List.drop_length, List.nil_append]

/-! ## The tokens of any name -/

/-- A name as PostgreSQL cuts it: the signs cut off are tokens of their own. -/
def opPieces (o : Text) : List Text :=
  trimSigns o :: (o.drop (trimSigns o).length).map fun c => [c]

theorem opPieces_eq {o : Text} (hs : losesSign o = false) : opPieces o = [o] := by
  rw [opPieces, trimSigns_eq.2 hs, List.drop_length, List.map_nil]

theorem opPieces_length {o : Text} (hs : losesSign o = true) : 1 < (opPieces o).length := by
  have hne : o.drop (trimSigns o).length ≠ [] := fun he => by
    have happ := (trimSigns_append o).1
    rw [he, List.append_nil, trimSigns_eq, hs] at happ
    cases happ
  rw [opPieces, List.length_cons, List.length_map]
  exact Nat.lt_add_of_pos_left (List.length_pos_iff.2 hne)

theorem isSign_isOpChar {c : Char} (h : isSign c = true) :
    isOpChar c = true ∧ isSpecialOpChar c = false := by
  simp only [isSign, Bool.or_eq_true, beq_iff_eq] at h
  rcases h with rfl | rfl <;> decide

theorem dropSigns_signs (s : Text) (c : Char) (h : s.all isSign = true) :
    dropSigns (s ++ [c]) = [c] := by
  induction s with
  | nil => rfl
  | cons d s ih =>
    simp only [List.all_cons, Bool.and_eq_true] at h
    obtain ⟨e, t, het⟩ := List.exists_cons_of_ne_nil (l := s ++ [c]) (by simp)
    rw [List.cons_append, het, dropSigns, if_pos h.1, ← het, ih h.2]

/-- Of several signs the first is a token. -/
theorem trimSigns_signs {c : Char} {s : Text} (h : (c :: s).all isSign = true) :
    trimSigns (c :: s) = [c] := by
  have hsp : (c :: s).any isSpecialOpChar = false := List.any_eq_false.2 fun d hd => by
    rw [(isSign_isOpChar (List.all_eq_true.1 h d hd)).2]
    decide
  simp only [List.all_cons, Bool.and_eq_true] at h
  rw [trimSigns, hsp, if_neg (by decide), List.reverse_cons, dropSigns_signs _ _ (by
    rw [List.all_reverse]
    exact h.2)]
  rfl

theorem noComment_drop {o : Text} (h : noComment o = true) (n : Nat) :
    noComment (o.drop n) = true := by
  induction n generalizing o with
  | zero => exact h
  | succ n ih =>
    cases o with
    | nil => rfl
    | cons c o =>
      simp only [noComment, Bool.and_eq_true] at h
      exact ih h.2

theorem scan_signs {s r : Text} (h : s.all isSign = true) (hc : noComment s = true)
    (hr : Stops isOpChar r) : scan (s ++ r) = (s.map fun c => Token.op [c]) ++ scan r := by
  induction s with
  | nil => rfl
  | cons c s ih =>
    have ho : (c :: s).all isOpChar = true := List.all_eq_true.2 fun d hd =>
      (isSign_isOpChar (List.all_eq_true.1 h d hd)).1
    rw [scan_opToken (by simp) ho hc hr, trimSigns_signs h]
    simp only [List.all_cons, Bool.and_eq_true] at h
    exact congrArg _ (ih h.2 (noComment_drop hc 1))

/-- **The tokens of a name between spaces.** -/
theorem opens_pieces {o : Text} (hne : o ≠ []) (ho : o.all isOpChar = true)
    (hc : noComment o = true) : Opens lex (o ++ [' ']) ((opPieces o).map .op) := by
  have hscan : Opens scan (o ++ [' ']) ((opPieces o).map .op) := fun r => by
    have hspace : Stops isOpChar (' ' :: r) := stops_cons.2 (by decide)
    have hskip : scan (' ' :: r) = scan r := by
      rw [scan_cons, step_space (by decide)]
      rfl
    rw [List.append_assoc]
    show scan (o ++ ' ' :: r) = _
    rw [scan_opToken hne ho hc hspace, scan_signs (trimSigns_append o).2 (noComment_drop hc _) hspace, hskip,
      opPieces, List.map_cons, List.map_map, List.cons_append]
    rfl
  have hfilter : ofScan ((opPieces o).map .op) = (opPieces o).map .op :=
    List.filter_eq_self.2 fun t ht => by
      obtain ⟨p, -, rfl⟩ := List.mem_map.1 ht
      simp
  have := hscan.at_lex
  rwa [hfilter] at this

end Pg
