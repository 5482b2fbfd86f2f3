import IronQuery.Pg.Proof.Mode

/-!
# Indenting a text

`indented n x` has `n` spaces behind every line feed of `x`. `lex_indented`: the tokens stay the
same, with the line feeds inside quotes indented like those of the text. Every part of the scanner
commutes with it, since no part but the quoted ones takes a line feed.
-/

namespace Pg

/-- `n` spaces behind every line feed. -/
def indented (n : Nat) (x : Text) : Text := fill '\n' ('\n' :: List.replicate n ' ') x

/-- What an indented text has in the place of a token. -/
def Token.indented (n : Nat) : Token → Token
  | quotedIdent v => .quotedIdent (Pg.indented n v)
  | string v => .string (Pg.indented n v)
  | special opener body => .special opener (Pg.indented n body)
  | t => t

section
variable {n : Nat} {c d q : Char} {s : Text} {p : Char → Bool}

@[simp] theorem indented_nil : indented n [] = [] := rfl

theorem indented_line (s : Text) :
    indented n ('\n' :: s) = '\n' :: (List.replicate n ' ' ++ indented n s) := by
  rw [indented, fill_cons, if_pos rfl]
  rfl

theorem indented_cons (h : c ≠ '\n') (s : Text) : indented n (c :: s) = c :: indented n s := by
  rw [indented, fill_cons, if_neg h]
  rfl

theorem head_indented (s : Text) : (indented n s).head? = s.head? := by
  cases s with
  | nil => rfl
  | cons c s =>
    by_cases hc : c = '\n'
    · rw [hc, indented_line]
      rfl
    · rw [indented_cons hc]
      rfl

theorem indented_append (s t : Text) : indented n (s ++ t) = indented n s ++ indented n t :=
  fill_append _ _ _ _

theorem indented_eq (h : '\n' ∉ s) : indented n s = s := fill_eq h _

theorem indented_spaces (k : Nat) : indented n (List.replicate k ' ') = List.replicate k ' ' :=
  indented_eq fun h => absurd (List.eq_of_mem_replicate h) (by decide)

/-- A text that is indented twice. -/
theorem indented_indented (k : Nat) (s : Text) :
    indented n (indented k s) = indented (n + k) s := by
  induction s with
  | nil => rfl
  | cons c s ih =>
    by_cases hc : c = '\n'
    · rw [hc, indented_line, indented_line, indented_line, indented_append, indented_spaces, ih,
        List.replicate_add, List.append_assoc]
    · rw [indented_cons hc, indented_cons hc, indented_cons hc, ih]

theorem count_indented (s : Text) : (indented n s).count '\n' = s.count '\n' := by
  induction s with
  | nil => rfl
  | cons c s ih =>
    by_cases hc : c = '\n'
    · have hspaces : (List.replicate n ' ').count '\n' = 0 :=
        List.count_eq_zero.2 fun h => absurd (List.eq_of_mem_replicate h) (by decide)
      rw [hc, indented_line, List.count_cons_self, List.count_cons_self, List.count_append, hspaces,
        ih, Nat.zero_add]
    · rw [indented_cons hc, List.count_cons_of_ne hc, List.count_cons_of_ne hc, ih]

theorem length_indented (s : Text) :
    (indented n s).length = s.length + n * s.count '\n' := by
  induction s with
  | nil => rfl
  | cons c s ih =>
    by_cases hc : c = '\n'
    · rw [hc, indented_line, List.count_cons_self, List.length_cons, List.length_cons,
        List.length_append, List.length_replicate, ih, Nat.mul_succ]
      omega
    · rw [indented_cons hc, List.count_cons_of_ne hc, List.length_cons, List.length_cons, ih]
      omega

/-! ## Runs of characters -/

theorem ne_line (hp : p '\n' = false) (hc : p c = true) : c ≠ '\n' := by
  rintro rfl
  rw [hp] at hc
  cases hc

theorem takeWhile_indented (hp : p '\n' = false) (s : Text) :
    (indented n s).takeWhile p = s.takeWhile p := by
  induction s with
  | nil => rfl
  | cons c s ih =>
    cases hc : p c with
    | true => rw [indented_cons (ne_line hp hc), List.takeWhile_cons_of_pos hc,
        List.takeWhile_cons_of_pos hc, ih]
    | false =>
      rw [List.takeWhile_cons_of_neg (by simp [hc])]
      by_cases hl : c = '\n'
      · rw [hl, indented_line, List.takeWhile_cons_of_neg (by simp [hp])]
      · rw [indented_cons hl, List.takeWhile_cons_of_neg (by simp [hc])]

theorem dropWhile_indented (hp : p '\n' = false) (s : Text) :
    (indented n s).dropWhile p = indented n (s.dropWhile p) := by
  induction s with
  | nil => rfl
  | cons c s ih =>
    cases hc : p c with
    | true => rw [indented_cons (ne_line hp hc), List.dropWhile_cons_of_pos hc,
        List.dropWhile_cons_of_pos hc, ih]
    | false =>
      rw [List.dropWhile_cons_of_neg (by simp [hc])]
      by_cases hl : c = '\n'
      · rw [hl, indented_line, List.dropWhile_cons_of_neg (by simp [hp])]
      · rw [indented_cons hl, List.dropWhile_cons_of_neg (by simp [hc])]

/-- A prefix without line feeds, and what stands behind it. -/
theorem indented_prefix {x : Text} (hx : '\n' ∉ x) (s : Text) :
    indented n (x ++ s) = x ++ indented n s := by
  rw [indented, fill_append, fill_eq hx]
  rfl

theorem line_not_mem (hp : p '\n' = false) (s : Text) : '\n' ∉ s.takeWhile p := by
  intro h
  have := List.mem_takeWhile_imp h
  rw [hp] at this
  cases this

theorem drop_indented (hp : p '\n' = false) {k : Nat} (hk : k ≤ (s.takeWhile p).length) :
    (indented n s).drop k = indented n (s.drop k) := by
  have hs : s = s.takeWhile p ++ s.dropWhile p := List.takeWhile_append_dropWhile.symm
  have hmem : '\n' ∉ (s.takeWhile p).drop k := fun h => line_not_mem hp s (List.mem_of_mem_drop h)
  have hcut := dropWhile_indented (n := n) hp s
  conv_lhs => rw [hs, indented_prefix (line_not_mem hp s), List.drop_append_of_le_length hk]
  conv_rhs => rw [hs, List.drop_append_of_le_length hk, indented_prefix hmem]

/-! ## Quoted tokens -/

/-- What is read, indented. -/
def indentedPair (n : Nat) (r : Text × Text) : Text × Text := (indented n r.1, indented n r.2)

theorem map_pair {o : Option (Text × Text)} (hc : c ≠ '\n') :
    (o.map (indentedPair n)).map (fun r => (c :: r.1, r.2)) =
      (o.map fun r => (c :: r.1, r.2)).map (indentedPair n) := by
  cases o with
  | none => rfl
  | some r =>
    simp only [Option.map_some, indentedPair, indented_cons hc]

/-- `x` in front of what is read. -/
def before (x : Text) (o : Option (Text × Text)) : Option (Text × Text) :=
  o.map fun r => (x ++ r.1, r.2)

theorem before_nil (o : Option (Text × Text)) : before [] o = o := by
  cases o <;> rfl

theorem before_cons (x : Text) (o : Option (Text × Text)) :
    before (c :: x) o = (before x o).map fun r => (c :: r.1, r.2) := by
  cases o <;> rfl

/-- A line feed, and the spaces behind it, in front of what is read. -/
theorem map_line {o : Option (Text × Text)} :
    before ('\n' :: List.replicate n ' ') (o.map (indentedPair n)) =
      (o.map fun r => ('\n' :: r.1, r.2)).map (indentedPair n) := by
  cases o with
  | none => rfl
  | some r => simp only [before, Option.map_some, indentedPair, indented_line, List.cons_append]

theorem scanQuoted_ne (h : c ≠ q) (s : Text) :
    scanQuoted q (c :: s) = (scanQuoted q s).map fun r => (c :: r.1, r.2) := by
  cases s with
  | nil => simp [scanQuoted, h]
  | cons d s => rw [scanQuoted, if_neg h]

theorem scanQuoted_end (h : s.head? ≠ some q) : scanQuoted q (q :: s) = some ([], s) := by
  cases s with
  | nil => simp [scanQuoted]
  | cons d s =>
    have hd : d ≠ q := fun he => h (by rw [he, List.head?_cons])
    rw [scanQuoted, if_pos rfl, if_neg hd]

theorem scanQuoted_spaces (hq : q ≠ ' ') (k : Nat) (s : Text) :
    scanQuoted q (List.replicate k ' ' ++ s) = before (List.replicate k ' ') (scanQuoted q s) := by
  induction k with
  | zero => rw [List.replicate_zero, List.nil_append, before_nil]
  | succ k ih =>
    rw [List.replicate_succ, List.cons_append, scanQuoted_ne (Ne.symm hq), ih, before_cons]

theorem scanQuoted_step (hq : q ≠ ' ') (hc : c ≠ q)
    (ih : scanQuoted q (indented n s) = (scanQuoted q s).map (indentedPair n)) :
    scanQuoted q (indented n (c :: s)) = (scanQuoted q (c :: s)).map (indentedPair n) := by
  by_cases hl : c = '\n'
  · subst hl
    rw [indented_line, scanQuoted_ne hc, scanQuoted_ne hc, scanQuoted_spaces hq, ih, ← before_cons,
      map_line]
  · rw [indented_cons hl, scanQuoted_ne hc, scanQuoted_ne hc, ih, map_pair hl]

theorem scanQuoted_indented (hl : q ≠ '\n') (hq : q ≠ ' ') (s : Text) :
    scanQuoted q (indented n s) = (scanQuoted q s).map (indentedPair n) := by
  induction s using scanQuoted.induct q with
  | case1 => rfl
  | case2 => rw [indented_cons hl]; simp [scanQuoted, indentedPair]
  | case3 c hc => exact scanQuoted_step hq hc rfl
  | case4 s ih =>
    rw [indented_cons hl, indented_cons hl, scanQuoted, if_pos rfl, if_pos rfl, ih, map_pair hl,
      scanQuoted, if_pos rfl, if_pos rfl]
  | case5 d s hd =>
    have hhead : (indented n (d :: s)).head? ≠ some q := by
      rw [head_indented, List.head?_cons]
      exact fun he => hd (Option.some.inj he)
    rw [indented_cons hl, scanQuoted_end hhead, scanQuoted_end (by simpa using hd)]
    rfl
  | case6 c d s hc ih => exact scanQuoted_step hq hc ih

/-! ### The continuation of a string -/

theorem continuation_spaces (k : Nat) (s : Text) :
    continuation .after (List.replicate k ' ' ++ s) = continuation .after s := by
  induction k with
  | zero => rfl
  | succ k ih =>
    have hsp : isSpace ' ' = true := rfl
    rw [List.replicate_succ, List.cons_append, continuation, if_pos hsp, ih]

theorem continuation_indented (g : Gap) (s : Text) :
    continuation g (indented n s) = (continuation g s).map (indented n) := by
  induction s generalizing g with
  | nil => cases g <;> rfl
  | cons c s ih =>
    by_cases hl : c = '\n'
    · subst hl
      have hnl : isNewline '\n' = true := rfl
      have hsp : isSpace '\n' = true := rfl
      rw [indented_line]
      cases g <;> simp only [continuation, hnl, hsp, if_true, continuation_spaces, ih]
    · rw [indented_cons hl]
      cases g <;> simp only [continuation, head_indented]
      · repeat' split
        · exact ih _
        · exact ih _
        · exact ih _
        · rfl
      · split <;> exact ih _
      · repeat' split
        · exact ih _
        · rfl
        · exact ih _
        · rfl
      · split <;> exact ih _

theorem scanQuoted_shorter {v r : Text} (h : scanQuoted q s = some (v, r)) :
    r.length < s.length := by
  induction s using scanQuoted.induct q generalizing v r with
  | case1 => cases h
  | case2 =>
    simp only [scanQuoted, if_true, Option.some.injEq, Prod.mk.injEq] at h
    obtain ⟨-, rfl⟩ := h
    simp
  | case3 c hc => simp [scanQuoted, hc] at h
  | case4 s ih =>
    simp only [scanQuoted, if_true, Option.map_eq_some_iff, Prod.mk.injEq] at h
    obtain ⟨a, ha, -, rfl⟩ := h
    have := ih ha
    simp only [List.length_cons]
    omega
  | case5 d s hd =>
    simp only [scanQuoted, if_true, if_neg hd, Option.some.injEq, Prod.mk.injEq] at h
    obtain ⟨-, rfl⟩ := h
    simp
  | case6 c d s hc ih =>
    simp only [scanQuoted, if_neg hc, Option.map_eq_some_iff, Prod.mk.injEq] at h
    obtain ⟨a, ha, -, rfl⟩ := h
    have := ih ha
    simp only [List.length_cons] at this ⊢
    omega

/-- The parts of a string constant, given enough steps for both texts. -/
theorem scanString_indented (k m : Nat) (s : Text) (hk : s.length < k)
    (hm : (indented n s).length < m) :
    scanString m (indented n s) = (scanString k s).map (indentedPair n) := by
  induction k generalizing m s with
  | zero => omega
  | succ k ih =>
    obtain ⟨m, rfl⟩ : ∃ j, m = j + 1 := ⟨m - 1, by omega⟩
    rw [scanString, scanString, scanQuoted_indented (by decide) (by decide)]
    cases hq : scanQuoted '\'' s with
    | none => rfl
    | some r =>
      obtain ⟨v, r⟩ := r
      simp only [Option.map_some, indentedPair, continuation_indented]
      cases hc : continuation .before r with
      | none => rfl
      | some y =>
        have h1 := scanQuoted_shorter hq
        have h2 := (continuation_suffix hc).length_le
        have hq' : scanQuoted '\'' (indented n s) = some (indented n v, indented n r) := by
          rw [scanQuoted_indented (by decide) (by decide), hq]
          rfl
        have hc' : continuation .before (indented n r) = some (indented n y) := by
          rw [continuation_indented, hc]
          rfl
        have h3 := scanQuoted_shorter hq'
        have h4 := (continuation_suffix hc').length_le
        simp only [Option.map_some, ih m y (by omega) (by omega)]
        cases scanString k y with
        | none => rfl
        | some w =>
          simp only [Option.map_some, indentedPair, indented, fill_append]

/-! ### Prefixed and dollar-quoted strings -/

theorem scanEscaped_ne (hb : c ≠ '\\') (hq : c ≠ '\'') (s : Text) :
    scanEscaped (c :: s) = (scanEscaped s).map fun r => (c :: r.1, r.2) := by
  cases s with
  | nil => simp [scanEscaped, hq]
  | cons d s => rw [scanEscaped, if_neg hb, if_neg hq]

theorem scanEscaped_spaces (k : Nat) (s : Text) :
    scanEscaped (List.replicate k ' ' ++ s) = before (List.replicate k ' ') (scanEscaped s) := by
  induction k with
  | zero => rw [List.replicate_zero, List.nil_append, before_nil]
  | succ k ih =>
    rw [List.replicate_succ, List.cons_append, scanEscaped_ne (by decide) (by decide), ih,
      before_cons]

theorem scanEscaped_step (hb : c ≠ '\\') (hq : c ≠ '\'')
    (ih : scanEscaped (indented n s) = (scanEscaped s).map (indentedPair n)) :
    scanEscaped (indented n (c :: s)) = (scanEscaped (c :: s)).map (indentedPair n) := by
  by_cases hl : c = '\n'
  · subst hl
    rw [indented_line, scanEscaped_ne hb hq, scanEscaped_ne hb hq, scanEscaped_spaces, ih,
      ← before_cons, map_line]
  · rw [indented_cons hl, scanEscaped_ne hb hq, scanEscaped_ne hb hq, ih, map_pair hl]

theorem scanEscaped_indented (s : Text) :
    scanEscaped (indented n s) = (scanEscaped s).map (indentedPair n) := by
  have hbl : '\\' ≠ '\n' := by decide
  have hql : '\'' ≠ '\n' := by decide
  induction s using scanEscaped.induct with
  | case1 => rfl
  | case2 => rfl
  | case3 c hc =>
    by_cases hb : c = '\\'
    · subst hb
      rw [indented_cons hbl]
      simp [scanEscaped]
    · exact scanEscaped_step hb hc rfl
  | case4 d s ih =>
    rw [indented_cons hbl]
    have hmap (o : Option (Text × Text)) (x : Text) :
        o.map (fun r => ('\\' :: d :: r.1, r.2)) =
          (o.map fun r => (d :: r.1, r.2)).map fun r => ('\\' :: r.1, r.2) := by
      cases o <;> rfl
    by_cases hl : d = '\n'
    · subst hl
      rw [indented_line, scanEscaped, if_pos rfl, scanEscaped_spaces, ih, scanEscaped, if_pos rfl,
        hmap _ s, hmap _ s, ← before_cons, map_line, map_pair hbl]
    · rw [indented_cons hl, scanEscaped, if_pos rfl, ih, scanEscaped, if_pos rfl, hmap _ s,
        hmap _ s, map_pair hl, map_pair hbl]
  | case5 s hb ih =>
    rw [indented_cons hql, indented_cons hql, scanEscaped, if_neg hb, if_pos rfl, if_pos rfl, ih,
      map_pair hql, scanEscaped, if_neg hb, if_pos rfl, if_pos rfl]
  | case6 d s hd hb =>
    have hhead : ∃ e r, indented n (d :: s) = e :: r ∧ e ≠ '\'' := by
      by_cases hl : d = '\n'
      · exact ⟨_, _, by rw [hl, indented_line], by decide⟩
      · exact ⟨_, _, indented_cons hl s, hd⟩
    obtain ⟨e, r, he, hne⟩ := hhead
    rw [indented_cons hql, he, scanEscaped, if_neg hb, if_pos rfl, if_neg hne, scanEscaped,
      if_neg hb, if_pos rfl, if_neg hd, Option.map_some, indentedPair, he]
    rfl
  | case7 c d s hb hq ih => exact scanEscaped_step hb hq ih

theorem isPrefixOf_indented {x : Text} (hx : '\n' ∉ x) (s : Text) :
    x.isPrefixOf (indented n s) = x.isPrefixOf s := by
  induction x generalizing s with
  | nil => rfl
  | cons c x ih =>
    simp only [List.mem_cons, not_or] at hx
    cases s with
    | nil => rfl
    | cons d s =>
      by_cases hl : d = '\n'
      · have hcd : (c == d) = false := by
          rw [hl]
          simpa using Ne.symm hx.1
        rw [hl, indented_line, ← hl, List.isPrefixOf, List.isPrefixOf, hcd, Bool.false_and,
          Bool.false_and]
      · rw [indented_cons hl, List.isPrefixOf, List.isPrefixOf, ih hx.2]

theorem scanDollar_spaces {x : Text} (k : Nat) (s : Text) :
    scanDollar ('$' :: x) (List.replicate k ' ' ++ s) =
      before (List.replicate k ' ') (scanDollar ('$' :: x) s) := by
  induction k with
  | zero => rw [List.replicate_zero, List.nil_append, before_nil]
  | succ k ih =>
    rw [List.replicate_succ, List.cons_append, scanDollar, if_neg (by simp [List.isPrefixOf]), ih,
      before_cons]

theorem scanDollar_indented {x : Text} (hx : '\n' ∉ '$' :: x) (s : Text) :
    scanDollar ('$' :: x) (indented n s) = (scanDollar ('$' :: x) s).map (indentedPair n) := by
  induction s with
  | nil => rfl
  | cons c s ih =>
    have hp := isPrefixOf_indented (n := n) hx (c :: s)
    cases hc : ('$' :: x).isPrefixOf (c :: s) with
    | true =>
      rw [hc] at hp
      have hl : c ≠ '\n' := by
        rintro rfl
        simp [List.isPrefixOf] at hc
      obtain ⟨r, hr⟩ := List.isPrefixOf_iff_prefix.1 hc
      have hdrop : (indented n (c :: s)).drop ('$' :: x).length =
          indented n ((c :: s).drop ('$' :: x).length) := by
        rw [← hr, indented_prefix hx, List.drop_left, List.drop_left]
      rw [indented_cons hl] at hp hdrop ⊢
      rw [scanDollar, if_pos hp, scanDollar, if_pos hc, hdrop]
      rfl
    | false =>
      rw [hc] at hp
      rw [scanDollar, if_neg (by simp [hc])]
      by_cases hl : c = '\n'
      · subst hl
        rw [indented_line] at hp ⊢
        rw [scanDollar, if_neg (by simp [hp]), scanDollar_spaces, ih, ← before_cons, map_line]
      · rw [indented_cons hl] at hp ⊢
        rw [scanDollar, if_neg (by simp [hp]), ih, map_pair hl]

/-! ## Comments and operators -/

theorem skipBlock_cons (hs : c = '/' → s.head? ≠ some '*') (ht : c = '*' → s.head? ≠ some '/')
    (d : Nat) : skipBlock d (c :: s) = skipBlock d s := by
  rw [skipBlock.eq_def]
  split
  · rename_i he
    cases he
    exact absurd rfl (hs rfl)
  · rename_i he
    cases he
    exact absurd rfl (ht rfl)
  · rename_i he
    cases he
    rfl
  · rename_i he
    cases he

theorem skipBlock_spaces (d k : Nat) (s : Text) :
    skipBlock d (List.replicate k ' ' ++ s) = skipBlock d s := by
  induction k with
  | zero => rfl
  | succ k ih =>
    rw [List.replicate_succ, List.cons_append, skipBlock_cons (fun h => absurd h (by decide))
      (fun h => absurd h (by decide)), ih]

theorem skipBlock_indented (d : Nat) (s : Text) :
    skipBlock d (indented n s) = (skipBlock d s).map (indented n) := by
  induction d, s using skipBlock.induct with
  | case1 d s ih =>
    rw [indented_cons (by decide), indented_cons (by decide), skipBlock, skipBlock, ih]
  | case2 s =>
    rw [indented_cons (by decide), indented_cons (by decide), skipBlock, if_pos rfl, skipBlock,
      if_pos rfl]
    rfl
  | case3 d s hd ih =>
    rw [indented_cons (by decide), indented_cons (by decide), skipBlock, if_neg hd, skipBlock,
      if_neg hd, ih]
  | case4 d c s h1 h2 ih =>
    have hs : c = '/' → s.head? ≠ some '*' := fun hc he => by
      obtain ⟨r, rfl⟩ := List.head?_eq_some_iff.1 he
      exact h1 r hc rfl
    have ht : c = '*' → s.head? ≠ some '/' := fun hc he => by
      obtain ⟨r, rfl⟩ := List.head?_eq_some_iff.1 he
      exact h2 r hc rfl
    rw [skipBlock_cons hs ht]
    by_cases hl : c = '\n'
    · subst hl
      rw [indented_line, skipBlock_cons (fun h => absurd h (by decide))
        (fun h => absurd h (by decide)), skipBlock_spaces, ih]
    · rw [indented_cons hl, skipBlock_cons, ih]
      · rwa [head_indented]
      · rwa [head_indented]
  | case5 d => rfl

theorem opToken_indented (s : Text) : opToken (indented n s) = opToken s := by
  rw [opToken, opToken, takeWhile_indented (by decide)]

/-! ## Numbers -/

theorem scanFraction_indented (s : Text) :
    scanFraction (indented n s) = ((scanFraction s).1, indented n (scanFraction s).2) := by
  by_cases hd : s.head? = some '.'
  · obtain ⟨r, rfl⟩ := List.head?_eq_some_iff.1 hd
    rw [indented_cons (by decide), scanFraction, scanFraction, head_indented]
    split
    · rw [indented_cons (by decide)]
    · rw [takeWhile_indented (by decide), dropWhile_indented (by decide)]
  · rw [scanFraction_other hd, scanFraction_other (by rwa [head_indented])]

theorem scanExponent_indented (s : Text) :
    scanExponent (indented n s) = ((scanExponent s).1, indented n (scanExponent s).2) := by
  cases s with
  | nil => rfl
  | cons e s =>
    by_cases he : e = 'e' ∨ e = 'E'
    · have hel : e ≠ '\n' := by
        rcases he with rfl | rfl <;> decide
      rw [indented_cons hel]
      cases s with
      | nil => simp [scanExponent, he, indented_cons hel]
      | cons d s =>
        by_cases hd : d = '\n'
        · subst hd
          have h1 : Char.isDigit '\n' = false := rfl
          have h2 : isSign '\n' = false := rfl
          rw [indented_line]
          simp only [scanExponent, if_pos he, h1, h2, Bool.false_eq_true, if_false, false_and,
            indented_cons hel, indented_line]
        · have htake := takeWhile_indented (n := n) (p := Char.isDigit) (by decide) (d :: s)
          have hdrop := dropWhile_indented (n := n) (p := Char.isDigit) (by decide) (d :: s)
          rw [indented_cons hd] at htake hdrop ⊢
          simp only [scanExponent, if_pos he, head_indented]
          split
          · rw [htake, hdrop]
          · split
            · rw [takeWhile_indented (by decide), dropWhile_indented (by decide)]
            · rw [indented_cons hel, indented_cons hd]
    · have hne : ∀ c, (e :: s).head? = some c → c ≠ 'e' ∧ c ≠ 'E' := by
        rintro _ ⟨⟩
        exact not_or.1 he
      rw [scanExponent_other hne, scanExponent_other fun c hc => hne c ?_]
      rwa [head_indented] at hc

theorem scanNumber_indented (s : Text) :
    scanNumber (indented n s) = ((scanNumber s).1, indented n (scanNumber s).2) := by
  simp only [scanNumber, dropWhile_indented (p := Char.isDigit) (by decide),
    takeWhile_indented (p := Char.isDigit) (by decide), scanFraction_indented,
    scanExponent_indented]

/-! ## The scanner -/

theorem close_indented {t : Text → Token} (ht : ∀ v, (t v).indented n = t (indented n v))
    (o : Option (Text × Text)) : closeToken t (o.map (indentedPair n)) =
      ((closeToken t o).1.map (Token.indented n), indented n (closeToken t o).2) := by
  cases o with
  | none => rfl
  | some r =>
    simp only [closeToken, Option.map_some, indentedPair, List.map_cons, List.map_nil, ht]

theorem stepWord_long (w : Text) (hw : ∀ c, w ≠ [c]) (r : Text) :
    stepWord w r = ([.word w], r) := by
  unfold stepWord
  split
  · exact absurd rfl (hw _)
  · exact absurd rfl (hw _)
  · rfl

theorem stepWord_other (w : Text) {r : Text} (hq : r.head? ≠ some '\'')
    (ha : r.head? ≠ some '&') : stepWord w r = ([.word w], r) := by
  unfold stepWord
  split
  · exact absurd rfl hq
  · exact absurd rfl ha
  · rfl

theorem stepWord_indented (w r : Text) : stepWord w (indented n r) =
    ((stepWord w r).1.map (Token.indented n), indented n (stepWord w r).2) := by
  by_cases hw : ∀ c, w ≠ [c]
  · rw [stepWord_long w hw, stepWord_long w hw]
    rfl
  obtain ⟨c, hc⟩ := not_forall.1 hw
  obtain rfl := not_not.1 hc
  by_cases hq : r.head? = some '\''
  · obtain ⟨r, rfl⟩ := List.head?_eq_some_iff.1 hq
    rw [indented_cons (by decide)]
    simp only [stepWord]
    split
    · rw [scanEscaped_indented, close_indented fun v => rfl]
    · split
      · rw [scanQuoted_indented (by decide) (by decide), close_indented fun v => rfl]
      · rw [indented_cons (by decide)]
        rfl
  by_cases ha : r.head? = some '&'
  · obtain ⟨r, rfl⟩ := List.head?_eq_some_iff.1 ha
    rw [indented_cons (by decide)]
    cases r with
    | nil => rfl
    | cons q r =>
      by_cases hl : q = '\n'
      · have hq : isQuote '\n' = false := rfl
        rw [hl, indented_line]
        simp only [stepWord, hq, Bool.false_eq_true, and_false, if_false]
        rw [indented_cons (by decide), indented_line]
        rfl
      · rw [indented_cons hl]
        simp only [stepWord]
        split
        · rename_i h
          have hq : q ≠ ' ' := by
            rintro rfl
            exact absurd h.2 (by decide)
          rw [scanQuoted_indented hl hq, close_indented fun v => rfl]
        · rw [indented_cons (by decide), indented_cons hl]
          rfl
  · rw [stepWord_other _ hq ha, stepWord_other _ (by rwa [head_indented]) (by rwa [head_indented])]
    rfl

theorem stepDollar_indented (s : Text) : stepDollar (indented n s) =
    ((stepDollar s).1.map (Token.indented n), indented n (stepDollar s).2) := by
  have htag : isTagChar '\n' = false := by decide
  simp only [stepDollar, head_indented, takeWhile_indented (p := Char.isDigit) (by decide),
    dropWhile_indented (p := Char.isDigit) (by decide), takeWhile_indented htag,
    dropWhile_indented htag]
  split
  · rfl
  · by_cases hd : (s.dropWhile isTagChar).head? = some '$'
    · obtain ⟨r, hr⟩ := List.head?_eq_some_iff.1 hd
      have hmem : '\n' ∉ '$' :: (s.takeWhile isTagChar ++ ['$']) := by
        have := line_not_mem htag s
        simp [this]
      rw [hr, indented_cons (by decide)]
      simp only [scanDollar_indented hmem]
      exact close_indented (fun v => rfl) _
    · have hd' : (indented n (s.dropWhile isTagChar)).head? ≠ some '$' := by rwa [head_indented]
      split
      · rename_i he
        rw [he] at hd'
        exact absurd rfl hd'
      · split
        · rename_i he
          rw [he] at hd
          exact absurd rfl hd
        · rfl

theorem stepOp_other {s : Text} (h1 : c = '-' → s.head? ≠ some '-')
    (h2 : c = '/' → s.head? ≠ some '*') :
    stepOp (c :: s) = ([.op (opToken (c :: s))], (c :: s).drop (opToken (c :: s)).length) := by
  unfold stepOp
  split
  · rename_i he
    cases he
    exact absurd rfl (h1 rfl)
  · rename_i he
    cases he
    exact absurd rfl (h2 rfl)
  · rfl

theorem stepOp_indented (hl : c ≠ '\n') (s : Text) : stepOp (c :: indented n s) =
    ((stepOp (c :: s)).1.map (Token.indented n), indented n (stepOp (c :: s)).2) := by
  by_cases h1 : c = '-' → s.head? ≠ some '-'
  · by_cases h2 : c = '/' → s.head? ≠ some '*'
    · have htoken := opToken_indented (n := n) (c :: s)
      have hdrop := drop_indented (n := n) (p := isOpChar) (by decide) (opToken_length_le (c :: s))
      rw [indented_cons hl] at htoken hdrop
      rw [stepOp_other h1 h2, stepOp_other (by rwa [head_indented]) (by rwa [head_indented]),
        htoken, hdrop]
      rfl
    · obtain ⟨rfl, hs⟩ := Classical.not_imp.1 h2
      obtain ⟨r, rfl⟩ := List.head?_eq_some_iff.1 (not_not.1 hs)
      rw [indented_cons (by decide)]
      simp only [stepOp, skipBlock_indented]
      cases skipBlock 0 r <;> rfl
  · obtain ⟨rfl, hs⟩ := Classical.not_imp.1 h1
    obtain ⟨r, rfl⟩ := List.head?_eq_some_iff.1 (not_not.1 hs)
    rw [indented_cons (by decide)]
    simp only [stepOp, dropWhile_indented (p := fun c => !isNewline c) (by decide)]
    rfl

theorem step_indented (hl : c ≠ '\n') (s : Text) : step c (indented n s) =
    ((step c s).1.map (Token.indented n), indented n (step c s).2) := by
  have hident : isIdentCont '\n' = false := by decide
  unfold step
  split
  · rfl
  split
  · rw [scanString_indented (s.length + 1) _ s (Nat.lt_succ_self _) (Nat.lt_succ_self _),
      close_indented fun v => rfl]
  split
  · rw [scanQuoted_indented (by decide) (by decide), close_indented fun v => rfl]
  split
  · rw [takeWhile_indented hident, dropWhile_indented hident, stepWord_indented]
  rw [head_indented]
  split
  · rw [← indented_cons hl, scanNumber_indented]
    rfl
  split
  · rw [stepDollar_indented]
  split
  · rw [stepOp_indented hl]
  · rfl

theorem scan_spaces (k : Nat) (s : Text) : scan (List.replicate k ' ' ++ s) = scan s := by
  induction k with
  | zero => rfl
  | succ k ih =>
    rw [List.replicate_succ, List.cons_append, scan_cons, step_space rfl]
    exact ih

/-- **Indenting a text indents its tokens.** -/
theorem scan_indented (s : Text) : scan (indented n s) = (scan s).map (Token.indented n) := by
  obtain ⟨k, hk⟩ : ∃ k, s.length ≤ k := ⟨_, Nat.le_refl _⟩
  induction k generalizing s with
  | zero =>
    obtain rfl : s = [] := List.length_eq_zero_iff.1 (by omega)
    rfl
  | succ k ih =>
    cases s with
    | nil => rfl
    | cons c s =>
      have hlen := (step_suffix c s).length_le
      rw [List.length_cons] at hk
      by_cases hl : c = '\n'
      · subst hl
        rw [indented_line, scan_cons, step_space rfl, scan_cons, step_space rfl, List.nil_append,
          List.nil_append, scan_spaces, ih s (by omega)]
      · rw [indented_cons hl, scan_cons, step_indented hl, scan_cons, List.map_append,
          ih _ (by omega)]

theorem lex_indented (s : Text) : lex (indented n s) = (lex s).map (Token.indented n) := by
  rw [lex, lex, scan_indented, List.filter_map]
  congr 1
  refine List.filter_congr fun t _ => ?_
  cases t <;> rfl

end

end Pg
