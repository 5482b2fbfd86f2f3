import IronQuery.Pg.Proof.Indent
import IronQuery.Pg.Proof.Whole

/-!
# A text in front of a closing bracket

Whatever a text is, the scanner either stops at its end, in front of every closing bracket that may
stand behind it (`Shuts`), or the text opens a comment or quotes that take in all such brackets
(`Stuck`): `scan_cut`, by one lemma `*_cut` for each part of the scanner. A whole text is not stuck,
and neither is it when it is indented (`Whole.indented`).
-/

namespace Pg

/-- White space, and then a closing bracket. -/
def Shuts (r : Text) : Prop := ∃ w t, w.all isSpace = true ∧ r = w ++ ')' :: t

/-- At least one closing bracket, and nothing else. -/
def closers (k : Nat) : Text := List.replicate (k + 1) ')'

/-- The text takes in every closing bracket behind it. -/
def Stuck (s : Text) : Prop := ∃ ts, ∀ k, scan (s ++ closers k) = ts

section
variable {n k : Nat} {c d q : Char} {s t r x : Text} {p : Char → Bool}

/-! ## What stands behind the text -/

theorem shuts_closers (k : Nat) : Shuts (closers k) := ⟨[], List.replicate k ')', rfl, rfl⟩

theorem Shuts.head (h : Shuts r) : ∃ c t, r = c :: t ∧ (isSpace c = true ∨ c = ')') := by
  obtain ⟨w, t, hw, rfl⟩ := h
  cases w with
  | nil => exact ⟨')', t, rfl, .inr rfl⟩
  | cons c w =>
    rw [List.all_cons, Bool.and_eq_true] at hw
    exact ⟨c, _, rfl, .inl hw.1⟩

/-- No class holds the first character that has neither white space nor the bracket. -/
theorem Shuts.stops (h : Shuts r) (hp : p ')' = false) (hs : ∀ c, isSpace c = true → p c = false) :
    Stops p r := by
  obtain ⟨c, t, rfl, hc⟩ := h.head
  rw [stops_cons]
  rcases hc with hc | rfl
  · exact hs c hc
  · exact hp

theorem space_false {c : Char} (hp : " \t\n\r\x0b\x0c".toList.all (fun d => !p d) = true)
    (h : isSpace c = true) : p c = false := by
  have hmem : c ∈ " \t\n\r\x0b\x0c".toList := by
    simp only [isSpace, Bool.or_eq_true, beq_iff_eq] at h
    rcases h with ((((rfl | rfl) | rfl) | rfl) | rfl) | rfl <;> decide
  simpa using List.all_eq_true.1 hp c hmem

theorem Shuts.op (h : Shuts r) : Stops isOpChar r := h.stops rfl fun _ => space_false (by decide)

theorem Shuts.ident (h : Shuts r) : Stops isIdentCont r :=
  h.stops rfl fun _ => space_false (by decide)

theorem Shuts.quote (h : Shuts r) : Stops isQuote r := h.stops rfl fun _ => space_false (by decide)

theorem Shuts.ne (h : Shuts r) (hd : d ≠ ')') (hs : isSpace d = false) : r.head? ≠ some d := by
  obtain ⟨c, t, rfl, hc⟩ := h.head
  rintro ⟨⟩
  rcases hc with hc | hc
  · rw [hs] at hc
    cases hc
  · exact hd hc

/-- A first character that is neither is the same with the text in front. -/
theorem Shuts.head_append (h : Shuts r) (hd : d ≠ ')') (hs : isSpace d = false) (s : Text) :
    (s ++ r).head? = some d ↔ s.head? = some d := by
  cases s with
  | nil => simp [h.ne hd hs]
  | cons c s => rfl

theorem Shuts.any_append (h : Stops p r) (s : Text) : (s ++ r).head?.any p = s.head?.any p := by
  cases s with
  | nil =>
    cases r with
    | nil => rfl
    | cons c r => simpa using stops_cons.1 h
  | cons c s => rfl

theorem Shuts.continuation (h : Shuts r) : continuation .before r = none ∧
    continuation .after r = none := by
  obtain ⟨w, t, hw, rfl⟩ := h
  induction w with
  | nil => exact ⟨rfl, rfl⟩
  | cons c w ih =>
    rw [List.all_cons, Bool.and_eq_true] at hw
    obtain ⟨h1, h2⟩ := ih hw.2
    rw [List.cons_append, Pg.continuation, Pg.continuation, h1, h2, if_pos hw.1, if_pos hw.1,
      ite_self]
    exact ⟨rfl, rfl⟩

/-! ## Quoted tokens -/

/-- What `f` reads off the text: it ends inside, whatever closes the text, or it needs more than
brackets. -/
inductive Cut {α : Type} (f : Text → Option (α × Text)) (s : Text) : Prop
  | inner (v : α) (u : Text) (hu : u.length < s.length)
    (h : ∀ r, Shuts r → f (s ++ r) = some (v, u ++ r))
  | outer (h : ∀ k, f (s ++ closers k) = none)

theorem Cut.map {α β : Type} {f : Text → Option (α × Text)} {g : Text → Option (β × Text)}
    {e : α → β} (hl : s.length ≤ t.length)
    (h : ∀ r, Shuts r → g (t ++ r) = (f (s ++ r)).map fun p => (e p.1, p.2)) (hc : Cut f s) :
    Cut g t := by
  cases hc with
  | inner v u hu hf =>
    refine .inner (e v) u (by omega) fun r hr => ?_
    rw [h r hr, hf r hr]
    rfl
  | outer hf =>
    refine .outer fun k => ?_
    rw [h _ (shuts_closers k), hf]
    rfl

theorem scanQuoted_closers (hq : isQuote q = true) (k : Nat) :
    scanQuoted q (List.replicate k ')') = none := by
  have hne : ')' ≠ q := by
    rintro rfl
    cases hq
  induction k with
  | zero => rfl
  | succ k ih => rw [List.replicate_succ, scanQuoted_ne hne, ih, Option.map_none]

theorem scanQuoted_cut (hq : isQuote q = true) (s : Text) : Cut (scanQuoted q) s := by
  have hnil : Cut (scanQuoted q) [] := .outer fun k => scanQuoted_closers hq (k + 1)
  induction s using scanQuoted.induct q with
  | case1 => exact hnil
  | case2 =>
    refine .inner [] [] (by simp) fun r hr => scanQuoted_end fun he => ?_
    rw [hr.quote q he] at hq
    cases hq
  | case3 c hc =>
    refine hnil.map (e := (c :: ·)) (by simp) fun r _ => ?_
    exact scanQuoted_ne hc r
  | case4 s ih =>
    refine ih.map (e := (q :: ·)) (by simp; omega) fun r _ => ?_
    rw [List.cons_append, List.cons_append, scanQuoted, if_pos rfl, if_pos rfl]
  | case5 d s hd =>
    exact .inner [] (d :: s) (by simp) fun r _ => scanQuoted_end fun he => hd (Option.some.inj he)
  | case6 c d s hc ih =>
    exact ih.map (e := (c :: ·)) (by simp) fun r _ => scanQuoted_ne hc (d :: s ++ r)

theorem scanEscaped_closers (k : Nat) : scanEscaped (List.replicate k ')') = none := by
  induction k with
  | zero => rfl
  | succ k ih =>
    rw [List.replicate_succ, scanEscaped_ne (by decide) (by decide), ih, Option.map_none]

theorem scanEscaped_cut (s : Text) : Cut scanEscaped s := by
  have hnil : Cut scanEscaped [] := .outer fun k => scanEscaped_closers (k + 1)
  have hqb : '\'' ≠ '\\' := by decide
  have hend {t : Text} (ht : t.head? ≠ some '\'') : scanEscaped ('\'' :: t) = some ([], t) := by
    cases t with
    | nil => rfl
    | cons d t =>
      have hd : d ≠ '\'' := fun he => ht (by rw [he, List.head?_cons])
      rw [scanEscaped, if_neg hqb, if_pos rfl, if_neg hd]
  induction s using scanEscaped.induct with
  | case1 => exact hnil
  | case2 =>
    exact .inner [] [] (by simp) fun r hr => hend (hr.ne (by decide) (by decide))
  | case3 c hc =>
    by_cases hb : c = '\\'
    · subst hb
      refine .outer fun k => ?_
      have hk : ['\\'] ++ closers k = '\\' :: ')' :: List.replicate k ')' := rfl
      rw [hk, scanEscaped, if_pos rfl, scanEscaped_closers, Option.map_none]
    · refine hnil.map (e := (c :: ·)) (by simp) fun r _ => ?_
      exact scanEscaped_ne hb hc r
  | case4 d s ih =>
    refine ih.map (e := fun v => '\\' :: d :: v) (by simp; omega) fun r _ => ?_
    rw [List.cons_append, List.cons_append, scanEscaped, if_pos rfl]
  | case5 s hb ih =>
    refine ih.map (e := ('\'' :: ·)) (by simp; omega) fun r _ => ?_
    rw [List.cons_append, List.cons_append, scanEscaped, if_neg hqb, if_pos rfl, if_pos rfl]
  | case6 d s hd hb =>
    exact .inner [] (d :: s) (by simp) fun r _ => hend fun he => hd (Option.some.inj he)
  | case7 c d s hb hq ih =>
    exact ih.map (e := (c :: ·)) (by simp) fun r _ => scanEscaped_ne hb hq (d :: s ++ r)

theorem isPrefixOf_stops {x : Text} (hx : x.all p = true) (hr : Stops p r) (s : Text) :
    x.isPrefixOf (s ++ r) = x.isPrefixOf s := by
  induction x generalizing s with
  | nil => rfl
  | cons c x ih =>
    rw [List.all_cons, Bool.and_eq_true] at hx
    cases s with
    | cons d s => rw [List.cons_append, List.isPrefixOf, List.isPrefixOf, ih hx.2]
    | nil =>
      cases r with
      | nil => rfl
      | cons d r =>
        have hne : (c == d) = false := by
          rw [beq_eq_false_iff_ne]
          rintro rfl
          rw [stops_cons.1 hr] at hx
          cases hx.1
        show (c == d && x.isPrefixOf r) = false
        rw [hne, Bool.false_and]

theorem scanDollar_cut {x : Text} (hx : ('$' :: x).all isIdentCont = true) (s : Text) :
    Cut (scanDollar ('$' :: x)) s := by
  induction s with
  | nil =>
    refine .outer fun k => ?_
    rw [List.nil_append, closers]
    induction k + 1 with
    | zero => rfl
    | succ k ih =>
      rw [List.replicate_succ, scanDollar, if_neg (by simp [List.isPrefixOf]), ih, Option.map_none]
  | cons c s ih =>
    cases hc : ('$' :: x).isPrefixOf (c :: s) with
    | true =>
      have hle := (List.isPrefixOf_iff_prefix.1 hc).length_le
      refine .inner [] ((c :: s).drop ('$' :: x).length) ?_ fun r hr => ?_
      · rw [List.length_drop, List.length_cons, List.length_cons]
        omega
      · have hp := isPrefixOf_stops hx hr.ident (c :: s)
        rw [hc, List.cons_append] at hp
        rw [List.cons_append, scanDollar, if_pos hp, ← List.cons_append,
          List.drop_append_of_le_length hle]
    | false =>
      refine ih.map (e := (c :: ·)) (by simp) fun r hr => ?_
      have hp := isPrefixOf_stops hx hr.ident (c :: s)
      rw [hc, List.cons_append] at hp
      rw [List.cons_append, scanDollar, if_neg (by simp [hp])]

/-! ### The continuation of a string -/

/-- Where the scanner is behind a gap: a comment in it goes on to the end of its line. -/
def Gap.rest : Gap → Text → Text
  | .before, s | .after, s => s
  | .beforeComment, s | .afterComment, s => s.dropWhile fun c => !isNewline c

/-- A string goes on inside the text, or it does not, or a comment of the gap goes on. -/
inductive GapCut (g : Gap) (s : Text) : Prop
  | inner (u : Text) (hu : u.length ≤ s.length)
    (h : ∀ r, Shuts r → continuation g (s ++ r) = some (u ++ r))
  | ended (h : ∀ r, Shuts r → continuation g (s ++ r) = none)
  | stuck (h : ∀ k, continuation g (s ++ closers k) = none)
    (hs : ∃ ts, ∀ k, scan (g.rest (s ++ closers k)) = ts)

theorem GapCut.cons {g g' : Gap} (hc : GapCut g' s)
    (h : ∀ r, Shuts r → continuation g (c :: s ++ r) = continuation g' (s ++ r))
    (hs : ∀ ts, (∀ k, scan (g'.rest (s ++ closers k)) = ts) →
      ∃ us, ∀ k, scan (g.rest (c :: s ++ closers k)) = us) : GapCut g (c :: s) := by
  cases hc with
  | inner u hu hf =>
    exact .inner u (by rw [List.length_cons]; omega) fun r hr => (h r hr).trans (hf r hr)
  | ended hf => exact .ended fun r hr => (h r hr).trans (hf r hr)
  | stuck hf hts =>
    obtain ⟨ts, hts⟩ := hts
    exact .stuck (fun k => (h _ (shuts_closers k)).trans (hf k)) (hs ts hts)

theorem scan_space (hc : isSpace c = true) (s : Text) : scan (c :: s) = scan s := by
  rw [scan_cons, step_space hc, List.nil_append]

theorem scan_dashes (s : Text) :
    scan ('-' :: '-' :: s) = .comment :: scan (s.dropWhile fun c => !isNewline c) := by
  rw [scan_cons]
  rfl

theorem newline_space (hc : isNewline c = true) : isSpace c = true := by
  simp only [isNewline, Bool.or_eq_true, beq_iff_eq] at hc
  rcases hc with rfl | rfl <;> rfl

theorem dropWhile_closers (k : Nat) :
    (List.replicate k ')').dropWhile (fun c => !isNewline c) = [] := by
  induction k with
  | zero => rfl
  | succ k ih => rw [List.replicate_succ, List.dropWhile_cons_of_pos rfl, ih]

theorem comment_closers {g : Gap} (hg : g = .beforeComment ∨ g = .afterComment) (k : Nat) :
    continuation g (List.replicate k ')') = none := by
  have hn : isNewline ')' = false := rfl
  induction k with
  | zero => rcases hg with rfl | rfl <;> rfl
  | succ k ih =>
    rcases hg with rfl | rfl <;> rw [List.replicate_succ, continuation, hn, if_neg (by simp), ih]

/-- A line end in a comment of a gap. -/
theorem rest_newline (hc : isNewline c = true) (s : Text) :
    (c :: s).dropWhile (fun c => !isNewline c) = c :: s :=
  List.dropWhile_cons_of_neg (by simp [hc])

theorem rest_comment (hc : isNewline c = false) (s : Text) :
    (c :: s).dropWhile (fun c => !isNewline c) = s.dropWhile fun c => !isNewline c :=
  List.dropWhile_cons_of_pos (by simp [hc])

theorem comment_nil {g : Gap} (hg : g = .beforeComment ∨ g = .afterComment) : GapCut g [] := by
  refine .stuck (fun k => comment_closers hg (k + 1)) ⟨[], fun k => ?_⟩
  have := dropWhile_closers (k + 1)
  rcases hg with rfl | rfl
  · exact congrArg scan this
  · exact congrArg scan this

/-- A comment in a gap goes on, or ends with its line. -/
theorem comment_cut {g : Gap} (hg : g = .beforeComment ∨ g = .afterComment) (c : Char)
    (ha : GapCut .after s) (hs : GapCut g s) : GapCut g (c :: s) := by
  by_cases hn : isNewline c = true
  · refine ha.cons (fun r _ => ?_) fun ts hts => ⟨ts, fun k => ?_⟩
    · rcases hg with rfl | rfl <;> rw [List.cons_append, continuation, if_pos hn]
    · rw [← hts k]
      have hrest := congrArg scan (rest_newline hn (s ++ closers k))
      rcases hg with rfl | rfl
      · exact hrest.trans (scan_space (newline_space hn) _)
      · exact hrest.trans (scan_space (newline_space hn) _)
  · refine hs.cons (fun r _ => ?_) fun ts hts => ⟨ts, fun k => ?_⟩
    · rcases hg with rfl | rfl <;> rw [List.cons_append, continuation, if_neg hn]
    · rw [← hts k]
      have hrest := congrArg scan (rest_comment (c := c) (by simpa using hn) (s ++ closers k))
      rcases hg with rfl | rfl
      · exact hrest
      · exact hrest

theorem continuation_cut (g : Gap) (s : Text) : GapCut g s := by
  induction s generalizing g with
  | nil =>
    cases g with
    | before => exact .ended fun r hr => hr.continuation.1
    | after => exact .ended fun r hr => hr.continuation.2
    | beforeComment => exact comment_nil (.inl rfl)
    | afterComment => exact comment_nil (.inr rfl)
  | cons c s ih =>
    have hdash (r : Text) (hr : Shuts r) := hr.head_append (d := '-') (by decide) (by decide) s
    cases g with
    | beforeComment => exact comment_cut (.inl rfl) c (ih _) (ih _)
    | afterComment => exact comment_cut (.inr rfl) c (ih _) (ih _)
    | before =>
      by_cases hn : isNewline c = true
      · refine (ih .after).cons (fun r _ => ?_) fun ts hts => ⟨ts, fun k => ?_⟩
        · rw [List.cons_append, continuation, if_pos hn]
        · rw [← hts k]
          exact scan_space (newline_space hn) _
      by_cases hs : isSpace c = true
      · refine (ih .before).cons (fun r _ => ?_) fun ts hts => ⟨ts, fun k => ?_⟩
        · rw [List.cons_append, continuation, if_neg hn, if_pos hs]
        · rw [← hts k]
          exact scan_space hs _
      by_cases hd : c = '-' ∧ s.head? = some '-'
      · obtain ⟨rfl, hd⟩ := hd
        obtain ⟨t, rfl⟩ := List.head?_eq_some_iff.1 hd
        refine (ih .beforeComment).cons (fun r _ => ?_) fun ts hts => ⟨.comment :: ts, fun k => ?_⟩
        · rw [List.cons_append, continuation, if_neg hn, if_neg hs, if_pos ⟨rfl, rfl⟩]
        · rw [← hts k]
          exact scan_dashes _
      · refine .ended fun r hr => ?_
        rw [List.cons_append, continuation, if_neg hn, if_neg hs,
          if_neg fun he => hd ⟨he.1, (hdash r hr).1 he.2⟩]
    | after =>
      by_cases hs : isSpace c = true
      · refine (ih .after).cons (fun r _ => ?_) fun ts hts => ⟨ts, fun k => ?_⟩
        · rw [List.cons_append, continuation, if_pos hs]
        · rw [← hts k]
          exact scan_space hs _
      by_cases hq : c = '\''
      · refine .inner s (Nat.le_succ _) fun r _ => ?_
        rw [List.cons_append, continuation, if_neg hs, if_pos hq]
      by_cases hd : c = '-' ∧ s.head? = some '-'
      · obtain ⟨rfl, hd⟩ := hd
        obtain ⟨t, rfl⟩ := List.head?_eq_some_iff.1 hd
        refine (ih .afterComment).cons (fun r _ => ?_) fun ts hts => ⟨.comment :: ts, fun k => ?_⟩
        · rw [List.cons_append, continuation, if_neg hs, if_neg hq, if_pos ⟨rfl, rfl⟩]
        · rw [← hts k]
          exact scan_dashes _
      · refine .ended fun r hr => ?_
        rw [List.cons_append, continuation, if_neg hs, if_neg hq,
          if_neg fun he => hd ⟨he.1, (hdash r hr).1 he.2⟩]

/-! ### Strings in several parts -/

/-- A string ends inside the text, or it needs more than brackets, or a comment behind it does. -/
inductive StringCut (s : Text) : Prop
  | inner (v u : Text) (hu : u.length < s.length)
    (h : ∀ r m, Shuts r → (s ++ r).length < m → scanString m (s ++ r) = some (v, u ++ r))
  | outer (h : ∀ k m, scanString m (s ++ closers k) = none)
  | stuck (v u : Text) (hu : Stuck u)
    (h : ∀ k m, (s ++ closers k).length < m →
      scanString m (s ++ closers k) = some (v, u ++ closers k))

theorem scanString_cut (s : Text) : StringCut s := by
  induction hn : s.length using Nat.strongRecOn generalizing s with
  | ind n ih =>
    subst hn
    have hcut : Cut (scanQuoted '\'') s := scanQuoted_cut rfl s
    cases hcut with
    | outer h =>
      refine .outer fun k m => ?_
      cases m with
      | zero => rfl
      | succ m => rw [scanString, h]
    | inner v u hu h =>
      cases continuation_cut .before u with
      | ended hc =>
        refine .inner v u hu fun r m hr hm => ?_
        obtain ⟨m, rfl⟩ : ∃ j, m = j + 1 := ⟨m - 1, by omega⟩
        simp only [scanString, h r hr, hc r hr]
      | stuck hc hts =>
        refine .stuck v u hts fun k m hm => ?_
        obtain ⟨m, rfl⟩ : ∃ j, m = j + 1 := ⟨m - 1, by omega⟩
        simp only [scanString, h _ (shuts_closers k), hc k]
      | inner y hy hc =>
        have hfuel {r : Text} {m : Nat} (hm : (s ++ r).length < m + 1) : (y ++ r).length < m := by
          rw [List.length_append] at hm ⊢
          omega
        cases ih y.length (by omega) y rfl with
        | inner v' u' hu' hs =>
          refine .inner (v ++ v') u' (by omega) fun r m hr hm => ?_
          obtain ⟨m, rfl⟩ : ∃ j, m = j + 1 := ⟨m - 1, by omega⟩
          simp only [scanString, h r hr, hc r hr, hs r m hr (hfuel hm), Option.map_some]
        | outer hs =>
          refine .outer fun k m => ?_
          cases m with
          | zero => rfl
          | succ m =>
            simp only [scanString, h _ (shuts_closers k), hc _ (shuts_closers k), hs k m,
              Option.map_none]
        | stuck v' u' hu' hs =>
          refine .stuck (v ++ v') u' hu' fun k m hm => ?_
          obtain ⟨m, rfl⟩ : ∃ j, m = j + 1 := ⟨m - 1, by omega⟩
          simp only [scanString, h _ (shuts_closers k), hc _ (shuts_closers k), hs k m (hfuel hm),
            Option.map_some]

/-! ## Comments, words and operators -/

theorem skipBlock_closers (n k : Nat) : skipBlock n (List.replicate k ')') = none := by
  induction k with
  | zero => rfl
  | succ k ih =>
    rw [List.replicate_succ, skipBlock_cons (fun h => absurd h (by decide))
      (fun h => absurd h (by decide)), ih]

/-- A block comment at depth `n` ends in the text, or it takes in all brackets. -/
def BlockCut (n : Nat) (s : Text) : Prop :=
  (∃ u, u.length ≤ s.length ∧ ∀ r, Shuts r → skipBlock n (s ++ r) = some (u ++ r)) ∨
    ∀ k, skipBlock n (s ++ closers k) = none

theorem BlockCut.congr {m : Nat} (hc : BlockCut m s) (hl : s.length ≤ t.length)
    (h : ∀ r, Shuts r → skipBlock n (t ++ r) = skipBlock m (s ++ r)) : BlockCut n t := by
  rcases hc with ⟨u, hu, hf⟩ | hf
  · exact .inl ⟨u, by omega, fun r hr => (h r hr).trans (hf r hr)⟩
  · exact .inr fun k => (h _ (shuts_closers k)).trans (hf k)

theorem skipBlock_cut (n : Nat) (s : Text) : BlockCut n s := by
  induction n, s using skipBlock.induct with
  | case1 n s ih =>
    refine ih.congr (by simp; omega) fun r _ => ?_
    rw [List.cons_append, List.cons_append, skipBlock]
  | case2 s =>
    refine .inl ⟨s, by simp; omega, fun r _ => ?_⟩
    rw [List.cons_append, List.cons_append, skipBlock, if_pos rfl]
  | case3 n s hn ih =>
    refine ih.congr (by simp; omega) fun r _ => ?_
    rw [List.cons_append, List.cons_append, skipBlock, if_neg hn]
  | case4 n c s h1 h2 ih =>
    refine ih.congr (by simp) fun r hr => skipBlock_cons (fun hc he => ?_) (fun hc he => ?_) n
    · have he' := (hr.head_append (d := '*') (by decide) (by decide) s).1 he
      obtain ⟨t, rfl⟩ := List.head?_eq_some_iff.1 he'
      exact h1 t hc rfl
    · have he' := (hr.head_append (d := '/') (by decide) (by decide) s).1 he
      obtain ⟨t, rfl⟩ := List.head?_eq_some_iff.1 he'
      exact h2 t hc rfl
  | case5 n => exact .inr fun k => skipBlock_closers n (k + 1)

/-- What a step reads ends in the text, whatever closes it, or the text is stuck. -/
inductive StepCut (f : Text → List Token × Text) (s : Text) : Prop
  | inner (ts : List Token) (u : Text) (hu : u.length ≤ s.length)
    (h : ∀ r, Shuts r → f (s ++ r) = (ts, u ++ r))
  | stuck (h : ∃ ts, ∀ k, (f (s ++ closers k)).1 ++ scan (f (s ++ closers k)).2 = ts)

theorem Cut.step {f : Text → Option (Text × Text)} {g : Text → List Token × Text}
    {e : Text → Token} (hc : Cut f s) (hl : s.length ≤ t.length)
    (h : ∀ r, Shuts r → g (t ++ r) = closeToken e (f (s ++ r))) : StepCut g t := by
  cases hc with
  | inner v u hu hf =>
    refine .inner [e v] u (by omega) fun r hr => ?_
    rw [h r hr, hf r hr]
    rfl
  | outer hf =>
    refine .stuck ⟨[.unterminated], fun k => ?_⟩
    rw [h _ (shuts_closers k), hf k]
    rfl

theorem StepCut.congr {f g : Text → List Token × Text} (hc : StepCut f s) (hl : s.length ≤ t.length)
    (h : ∀ r, Shuts r → g (t ++ r) = f (s ++ r)) : StepCut g t := by
  cases hc with
  | inner ts u hu hf => exact .inner ts u (by omega) fun r hr => (h r hr).trans (hf r hr)
  | stuck hf =>
    obtain ⟨ts, hf⟩ := hf
    refine .stuck ⟨ts, fun k => ?_⟩
    rw [h _ (shuts_closers k), hf k]

theorem stepWord_cut (w u : Text) : StepCut (stepWord w) u := by
  by_cases hq : ∃ c t, w = [c] ∧ u = '\'' :: t
  · obtain ⟨c, t, rfl, rfl⟩ := hq
    by_cases he : c = 'e' ∨ c = 'E'
    · refine (scanEscaped_cut t).step (e := .special [c]) (Nat.le_succ _) fun r _ => ?_
      rw [List.cons_append, stepWord, if_pos he]
    by_cases hb : c = 'b' ∨ c = 'B' ∨ c = 'x' ∨ c = 'X'
    · have hcut : Cut (scanQuoted '\'') t := scanQuoted_cut rfl t
      refine hcut.step (e := .special [c]) (Nat.le_succ _) fun r _ => ?_
      rw [List.cons_append, stepWord, if_neg he, if_pos hb]
    · refine .inner [.word [c]] ('\'' :: t) (Nat.le_refl _) fun r _ => ?_
      rw [List.cons_append, stepWord, if_neg he, if_neg hb]
  by_cases ha : ∃ c q t, w = [c] ∧ u = '&' :: q :: t
  · obtain ⟨c, q, t, rfl, rfl⟩ := ha
    by_cases hu : (c = 'u' ∨ c = 'U') ∧ isQuote q = true
    · refine (scanQuoted_cut hu.2 t).step (e := .special [c, '&', q]) (by simp; omega) fun r _ => ?_
      rw [List.cons_append, List.cons_append, stepWord, if_pos hu]
    · refine .inner [.word [c]] ('&' :: q :: t) (Nat.le_refl _) fun r _ => ?_
      rw [List.cons_append, List.cons_append, stepWord, if_neg hu]
  · refine .inner [.word w] u (Nat.le_refl _) fun r hr => ?_
    unfold stepWord
    split
    · rename_i c t he
      cases u with
      | nil => exact absurd (congrArg List.head? he) (hr.ne (by decide) (by decide))
      | cons d u =>
        cases he
        exact absurd ⟨c, u, rfl, rfl⟩ hq
    · rename_i c q t he
      cases u with
      | nil => exact absurd (congrArg List.head? he) (hr.ne (by decide) (by decide))
      | cons d u =>
        cases u with
        | nil =>
          cases he
          have hqr : isQuote q = false := stops_cons.1 hr.quote
          rw [if_neg (by simp [hqr])]
        | cons e u =>
          cases he
          exact absurd ⟨c, q, u, rfl, rfl⟩ ha
    · rfl

theorem stepDollar_cut (s : Text) : StepCut stepDollar s := by
  have hany {r : Text} (hr : Shuts r) : (s ++ r).head?.any Char.isDigit =
      s.head?.any Char.isDigit := Shuts.any_append (hr.ident.mono fun _ => isDigit_cont) s
  have htag {r : Text} (hr : Shuts r) : Stops isTagChar r := hr.ident.mono fun c hc => by
    simp only [isTagChar, Bool.or_eq_true] at hc
    simp only [isIdentCont, Bool.or_eq_true]
    exact .inl hc
  by_cases hd : s.head?.any Char.isDigit = true
  · refine .inner [.param (s.takeWhile Char.isDigit)] (s.dropWhile Char.isDigit)
      (List.dropWhile_suffix _).length_le fun r hr => ?_
    have hdig : Stops Char.isDigit r := hr.ident.mono fun _ => isDigit_cont
    rw [stepDollar, hany hr, if_pos hd, takeWhile_stops hdig, dropWhile_stops hdig]
  by_cases ht : (s.dropWhile isTagChar).head? = some '$'
  · obtain ⟨u, hu⟩ := List.head?_eq_some_iff.1 ht
    have hx : ('$' :: (s.takeWhile isTagChar ++ ['$'])).all isIdentCont = true := by
      rw [List.all_cons, List.all_append, Bool.and_eq_true, Bool.and_eq_true]
      refine ⟨by decide, List.all_eq_true.2 fun c hc => ?_, by decide⟩
      have := List.mem_takeWhile_imp hc
      simp only [isTagChar, Bool.or_eq_true] at this
      simp only [isIdentCont, Bool.or_eq_true]
      exact .inl this
    have hl := (List.dropWhile_suffix isTagChar (l := s)).length_le
    rw [hu, List.length_cons] at hl
    refine (scanDollar_cut hx u).step
      (e := .special ('$' :: (s.takeWhile isTagChar ++ ['$']))) (by omega) fun r hr => ?_
    rw [stepDollar, hany hr, if_neg hd, takeWhile_stops (htag hr), dropWhile_stops (htag hr), hu]
    rfl
  · refine .inner [.punct '$'] s (Nat.le_refl _) fun r hr => ?_
    rw [stepDollar, hany hr, if_neg hd, dropWhile_stops (htag hr)]
    dsimp only
    split
    · rename_i t he
      refine absurd ?_ ht
      rw [← hr.head_append (by decide) (by decide), he, List.head?_cons]
    · rfl

theorem dropWhile_cut (s : Text) :
    (∃ u : Text, u.length ≤ s.length ∧
      ∀ r, (s ++ r).dropWhile (fun c => !isNewline c) = u ++ r) ∨
      ∀ k, (s ++ closers k).dropWhile (fun c => !isNewline c) = [] := by
  induction s with
  | nil => exact .inr fun k => dropWhile_closers (k + 1)
  | cons c s ih =>
    by_cases hn : isNewline c = true
    · exact .inl ⟨c :: s, Nat.le_refl _, fun r => rest_newline hn _⟩
    · have hc (r : Text) := rest_comment (c := c) (by simpa using hn) (s ++ r)
      rcases ih with ⟨u, hu, h⟩ | h
      · exact .inl ⟨u, Nat.le_succ_of_le hu, fun r => (hc r).trans (h r)⟩
      · exact .inr fun k => (hc _).trans (h k)

theorem stepOp_operator (h1 : c = '-' → s.head? ≠ some '-') (h2 : c = '/' → s.head? ≠ some '*') :
    stepOp (c :: s) =
      ([.op (opToken (c :: s))], (c :: s).drop (opToken (c :: s)).length) := by
  unfold stepOp
  split
  · rename_i he
    cases he
    exact absurd rfl (h1 rfl)
  · rename_i he
    cases he
    exact absurd rfl (h2 rfl)
  · rfl

theorem stepOp_cut (hc : isOpChar c = true) (s : Text) : StepCut (fun s => stepOp (c :: s)) s := by
  by_cases hd : c = '-' ∧ s.head? = some '-'
  · obtain ⟨rfl, hd⟩ := hd
    obtain ⟨t, rfl⟩ := List.head?_eq_some_iff.1 hd
    rcases dropWhile_cut t with ⟨u, hu, h⟩ | h
    · exact .inner [.comment] u (Nat.le_succ_of_le hu) fun r _ =>
        congrArg (Prod.mk [Token.comment]) (h r)
    · exact .stuck ⟨[.comment], fun k => congrArg (fun u => [Token.comment] ++ scan u) (h k)⟩
  by_cases hb : c = '/' ∧ s.head? = some '*'
  · obtain ⟨rfl, hb⟩ := hb
    obtain ⟨t, rfl⟩ := List.head?_eq_some_iff.1 hb
    rcases skipBlock_cut 0 t with ⟨u, hu, h⟩ | h
    · refine .inner [.comment] u (Nat.le_succ_of_le hu) fun r hr => ?_
      simp only [List.cons_append, stepOp, h r hr]
    · refine .stuck ⟨[.unterminated], fun k => ?_⟩
      simp only [List.cons_append, stepOp, h k, scan_nil, List.append_nil]
  · have hop (r : Text) (hr : Shuts r) : stepOp (c :: (s ++ r)) = ([.op (opToken (c :: (s ++ r)))],
        (c :: (s ++ r)).drop (opToken (c :: (s ++ r))).length) := by
      refine stepOp_operator (fun hc he => ?_) fun hc he => ?_
      · exact hd ⟨hc, (hr.head_append (by decide) (by decide) s).1 he⟩
      · exact hb ⟨hc, (hr.head_append (by decide) (by decide) s).1 he⟩
    have hle : (opToken (c :: s)).length ≤ (c :: s).length :=
      Nat.le_trans (opToken_length_le _) (List.takeWhile_prefix _).length_le
    have hne : opToken (c :: s) ≠ [] := opToken_ne_nil hc (fun h he => hd ⟨h, he⟩)
      fun h he => hb ⟨h, he⟩
    refine .inner [.op (opToken (c :: s))] ((c :: s).drop (opToken (c :: s)).length) ?_
      fun r hr => ?_
    · have := List.length_pos_iff.2 hne
      rw [List.length_drop, List.length_cons]
      omega
    · have htok : opToken (c :: (s ++ r)) = opToken (c :: s) := opToken_local hr.op (c :: s)
      rw [hop r hr, htok, ← List.cons_append, List.drop_append_of_le_length hle]

/-! ## A step, and the whole text -/

theorem step_cut (c : Char) (s : Text) : StepCut (step c) s := by
  by_cases hs : isSpace c = true
  · exact .inner [] s (Nat.le_refl _) fun r _ => step_space hs _
  by_cases hq : c = '\''
  · subst hq
    have hstep (s : Text) : step '\'' s = closeToken .string (scanString (s.length + 1) s) := by
      rw [step, if_neg hs, if_pos rfl]
    cases scanString_cut s with
    | inner v u hu h =>
      refine .inner [.string v] u (by omega) fun r hr => ?_
      rw [hstep, h r _ hr (Nat.lt_succ_self _)]
      rfl
    | outer h =>
      refine .stuck ⟨[.unterminated], fun k => ?_⟩
      rw [hstep, h k]
      rfl
    | stuck v u hu h =>
      obtain ⟨ts, hu⟩ := hu
      refine .stuck ⟨.string v :: ts, fun k => ?_⟩
      rw [hstep, h k _ (Nat.lt_succ_self _)]
      exact congrArg (Token.string v :: ·) (hu k)
  by_cases hd : c = '"'
  · subst hd
    have hcut : Cut (scanQuoted '"') s := scanQuoted_cut rfl s
    refine hcut.step (e := .quotedIdent) (Nat.le_refl _) fun r _ => ?_
    rw [step, if_neg hs, if_neg hq, if_pos rfl]
  by_cases hi : isIdentStart c = true
  · refine (stepWord_cut (c :: s.takeWhile isIdentCont) (s.dropWhile isIdentCont)).congr
      (List.dropWhile_suffix _).length_le fun r hr => ?_
    rw [step, if_neg hs, if_neg hq, if_neg hd, if_pos hi, takeWhile_stops hr.ident,
      dropWhile_stops hr.ident]
  by_cases hn : c.isDigit = true ∨ (c = '.' ∧ s.head?.any Char.isDigit = true)
  · refine .inner [.number (scanNumber (c :: s)).1] (scanNumber (c :: s)).2
      (scanNumber_cons_suffix hn).length_le fun r hr => ?_
    have hloc := scanNumber_local hr.ident hr.op (hr.ne (by decide) (by decide)) (c :: s)
    have hany := Shuts.any_append (hr.ident.mono fun _ => isDigit_cont) s
    rw [List.cons_append] at hloc
    rw [step, if_neg hs, if_neg hq, if_neg hd, if_neg hi, hany, if_pos hn, hloc]
  have hnum {r : Text} (hr : Shuts r) :
      ¬ (c.isDigit = true ∨ (c = '.' ∧ (s ++ r).head?.any Char.isDigit = true)) := by
    rwa [Shuts.any_append (hr.ident.mono fun _ => isDigit_cont) s]
  by_cases hdol : c = '$'
  · refine (stepDollar_cut s).congr (Nat.le_refl _) fun r hr => ?_
    rw [step, if_neg hs, if_neg hq, if_neg hd, if_neg hi, if_neg (hnum hr), if_pos hdol]
  by_cases ho : isOpChar c = true
  · refine (stepOp_cut ho s).congr (Nat.le_refl _) fun r hr => ?_
    rw [step, if_neg hs, if_neg hq, if_neg hd, if_neg hi, if_neg (hnum hr), if_neg hdol, if_pos ho]
  · refine .inner [.punct c] s (Nat.le_refl _) fun r hr => ?_
    rw [step, if_neg hs, if_neg hq, if_neg hd, if_neg hi, if_neg (hnum hr), if_neg hdol, if_neg ho]

/-- **The scanner stops at the end of the text, in front of whatever closes it, or the text takes in
all closing brackets.** -/
theorem scan_cut (s : Text) : (∃ ts, ∀ r, Shuts r → scan (s ++ r) = ts ++ scan r) ∨ Stuck s := by
  induction hn : s.length using Nat.strongRecOn generalizing s with
  | ind n ih =>
    subst hn
    cases s with
    | nil => exact .inl ⟨[], fun r _ => rfl⟩
    | cons c s =>
      cases step_cut c s with
      | stuck h =>
        obtain ⟨ts, h⟩ := h
        exact .inr ⟨ts, fun k => (scan_cons c _).trans (h k)⟩
      | inner ts u hu h =>
        rcases ih u.length (by rw [List.length_cons]; omega) u rfl with ⟨us, hus⟩ | ⟨us, hus⟩
        · refine .inl ⟨ts ++ us, fun r hr => ?_⟩
          rw [List.cons_append, scan_cons, h r hr, hus r hr, List.append_assoc]
        · refine .inr ⟨ts ++ us, fun k => ?_⟩
          rw [List.cons_append, scan_cons, h _ (shuts_closers k), hus k]

/-! ## Whole texts that are indented -/

theorem Shuts.stop (h : Shuts r) : Stop r := ⟨h.op, h.ident, h.quote, h.continuation.1⟩

theorem Whole.shuts (h : Whole x) (hr : Shuts r) : lex (x ++ r) = lex x ++ lex r :=
  h r hr.stop (hr.ne (by decide) (by decide))

theorem indented_closers (k : Nat) : indented n (closers k) = closers k :=
  indented_eq fun h => absurd (List.eq_of_mem_replicate h) (by decide)

/-- **A whole text stays whole when it is indented**, in front of whatever closes it. -/
theorem Whole.indented (h : Whole x) (hr : Shuts r) :
    lex (Pg.indented n x ++ r) = (lex x).map (Token.indented n) ++ lex r := by
  have hclosers (k : Nat) : lex (Pg.indented n x ++ closers k) =
      (lex x).map (Token.indented n) ++ lex (closers k) := by
    have hk := lex_indented (n := n) (closers k)
    rw [indented_closers] at hk
    conv_lhs => rw [← indented_closers (n := n) k, ← indented_append, lex_indented,
      h.shuts (shuts_closers k), List.map_append, ← hk]
  rcases scan_cut (Pg.indented n x) with ⟨ts, hts⟩ | ⟨ts, hts⟩
  · have h0 := (lex_of_scan (hts _ (shuts_closers 0))).symm.trans (hclosers 0)
    rw [lex_of_scan (hts r hr), List.append_cancel_right h0]
  · have heq : lex (Pg.indented n x ++ closers 0) = lex (Pg.indented n x ++ closers 1) := by
      rw [lex, lex, hts 0, hts 1]
    rw [hclosers, hclosers] at heq
    exact absurd (List.append_cancel_left heq) (by decide)

/-! ## Tokens that are indented -/

/-- What a quoted token holds. -/
def Token.body : Token → Text
  | quotedIdent v => v
  | string v => v
  | special _ v => v
  | _ => []

theorem Token.body_indented (t : Token) : (t.indented n).body = Pg.indented n t.body := by
  cases t <;> rfl

theorem Token.indented_eq {t : Token} (h : '\n' ∉ t.body) : t.indented n = t := by
  cases t with
  | quotedIdent v => exact congrArg Token.quotedIdent (Pg.indented_eq h)
  | string v => exact congrArg Token.string (Pg.indented_eq h)
  | special o v => exact congrArg (Token.special o) (Pg.indented_eq h)
  | _ => rfl

/-- `u` is `t`, but for spaces behind its line feeds. -/
structure Drifts (t u : Token) : Prop where
  lines : u.body.count '\n' = t.body.count '\n'
  length : t.body.length ≤ u.body.length
  same : '\n' ∉ t.body → u = t

theorem Drifts.refl (t : Token) : Drifts t t := ⟨rfl, Nat.le_refl _, fun _ => rfl⟩

theorem Drifts.indented {t u : Token} (h : Drifts t u) : Drifts t (u.indented n) where
  lines := by rw [Token.body_indented, count_indented, h.lines]
  length := by
    have := h.length
    rw [Token.body_indented, length_indented]
    omega
  same ht := by
    obtain rfl := h.same ht
    exact Token.indented_eq ht

/-- A token that has been indented is the one it came from only if it has no line feed. -/
theorem Drifts.indented_eq_iff {t u : Token} (h : Drifts t u) (hn : 0 < n) :
    u.indented n = t ↔ '\n' ∉ t.body := by
  constructor
  · intro he hmem
    have hlen := congrArg (fun t => t.body.length) he
    have hpos : 0 < t.body.count '\n' := List.count_pos_iff.2 hmem
    have hle := h.length
    have hmul : 0 < n * t.body.count '\n' := Nat.mul_pos hn hpos
    simp only [Token.body_indented, length_indented, h.lines] at hlen
    omega
  · intro ht
    exact h.indented.same ht

section
variable {ts us : List Token}

theorem drifts_refl (ts : List Token) : List.Forall₂ Drifts ts ts :=
  List.forall₂_same.2 fun t _ => .refl t

theorem drifts_indented (h : List.Forall₂ Drifts ts us) :
    List.Forall₂ Drifts ts (us.map (Token.indented n)) :=
  List.forall₂_map_right_iff.2 (h.imp fun _ _ ht => ht.indented)

theorem map_indented_iff (hn : 0 < n) (h : List.Forall₂ Drifts ts us) :
    us.map (Token.indented n) = ts ↔ ∀ t ∈ ts, '\n' ∉ t.body := by
  induction h with
  | nil => simp
  | cons ht _ ih =>
    rw [List.map_cons, List.cons.injEq, ht.indented_eq_iff hn, ih, List.forall_mem_cons]

/-- Two parts are the same if each of them is. -/
theorem append_iff {ts' us' : List Token} (h : List.Forall₂ Drifts ts us) :
    us ++ us' = ts ++ ts' ↔ us = ts ∧ us' = ts' := by
  constructor
  · intro he
    exact List.append_inj he h.length_eq.symm
  · rintro ⟨rfl, rfl⟩
    rfl

end

end

end Pg
