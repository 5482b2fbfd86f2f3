import IronQuery.Pg.Proof.Reads

/-!
# Pieces of a text with marks in it

`Piece mark u S S' x y`: `y` is `x` with `u` in the place of every mark, and `x` can be read from
every mode of `S`, up to a mode of `S'`. Pieces compose (`Piece.append`), so a text put together
from pieces is a piece, and what is known of its marks is known for every `u` at once.

* `Piece.fragment`: a constant text, by evaluation.
* `Piece.quote`, `Piece.calm`, `Piece.ops`, `Piece.hole`: the texts that are not constant.
* `scan_piece`: the tokens of a piece with one mark, whatever quoted token fills it.
-/

namespace Pg

structure Piece (mark : Char) (u : Text) (S S' : List Mode) (x y : Text) : Prop where
  fill : y = fill mark u x
  run : ∀ m ∈ S, ∃ m' ∈ S', m.run mark x = some m'

/-- The modes behind what asks nothing of the text to come but how a number goes on. -/
def ready : List Mode := [.free, .point]

/-- The modes of a text that ends outside quotes. -/
def plain : List Mode := [.free, .dash, .slash, .word, .wordy, .point, .exponent]

/-- Such modes, but for that of a text that ends in a slash. -/
def unslashed : List Mode := [.free, .dash, .word, .wordy, .point, .exponent]

/-- The modes of a text that ends in a whole token, and not in a string constant. -/
def named : List Mode := .maybe '"' :: plain

/-- The modes of a text that ends in a whole token. -/
def whole : List Mode := .shut :: .maybe '\'' :: named

/-- The modes of a text that ends in white space. -/
def spaced : List Mode := .closed :: ready

section
variable {mark : Char} {u : Text} {S T U V W : List Mode} {x y x' y' : Text}

/-! ## Composition -/

theorem Piece.nil (h : ∀ m ∈ S, m ∈ T) : Piece mark u S T [] [] :=
  ⟨rfl, fun m hm => ⟨m, h m hm, rfl⟩⟩

theorem Piece.append (h : Piece mark u S T x y) (h' : Piece mark u T U x' y') :
    Piece mark u S U (x ++ x') (y ++ y') := by
  refine ⟨by rw [fill_append, ← h.fill, ← h'.fill], fun m hm => ?_⟩
  obtain ⟨m₁, hm₁, e₁⟩ := h.run m hm
  obtain ⟨m₂, hm₂, e₂⟩ := h'.run m₁ hm₁
  exact ⟨m₂, hm₂, by rw [Mode.run_append, e₁]; exact e₂⟩

theorem Piece.mono (h : Piece mark u S T x y) (hS : ∀ m ∈ V, m ∈ S) (hS' : ∀ m ∈ T, m ∈ W) :
    Piece mark u V W x y := by
  refine ⟨h.fill, fun m hm => ?_⟩
  obtain ⟨m', hm', e⟩ := h.run m (hS m hm)
  exact ⟨m', hS' m' hm', e⟩

theorem Piece.eq_nil (h : Piece mark u S T x y) (hu : u ≠ []) : y = [] ↔ x = [] := by
  rw [h.fill, fill_eq_nil hu]

theorem Piece.isEmpty (h : Piece mark u S T x y) (hu : u ≠ []) : y.isEmpty = x.isEmpty := by
  rw [Bool.eq_iff_iff, List.isEmpty_iff, List.isEmpty_iff]
  exact h.eq_nil hu

/-- A text that does not start with a minus may follow one. -/
theorem Piece.after_dash (h : Piece mark u ready whole x y) (hx : x.head? ≠ some '-') :
    Piece mark u [.dash] whole x y := by
  refine ⟨h.fill, fun m hm => ?_⟩
  obtain rfl := List.mem_singleton.1 hm
  cases x with
  | nil => exact ⟨.dash, by decide, rfl⟩
  | cons c x =>
    obtain ⟨m', hm', e⟩ := h.run .free (.head _)
    refine ⟨m', hm', ?_⟩
    have hc : c ≠ '-' := fun e => hx (by rw [e]; rfl)
    rw [Mode.run_cons] at e ⊢
    rwa [show Mode.next mark c .dash = Mode.next mark c .free by simp [Mode.next, hc]]

/-! ## Constant texts -/

/-- `x` has no mark and can be read from `S` up to `T`. -/
def isFragment (mark : Char) (S T : List Mode) (x : Text) : Bool :=
  !x.contains mark && S.all fun m => (m.run mark x).any T.contains

theorem Piece.fragment (h : isFragment mark S T x = true) : Piece mark u S T x x := by
  simp only [isFragment, Bool.and_eq_true, Bool.not_eq_true', List.contains_eq_mem,
    decide_eq_false_iff_not, List.all_eq_true] at h
  refine ⟨(fill_eq h.1 u).symm, fun m hm => ?_⟩
  obtain ⟨m', e, hm'⟩ := (Option.any_eq_true _ _).1 (h.2 m hm)
  exact ⟨m', by simpa using hm', e⟩

/-! ## Texts that are not constant -/

theorem Piece.hole : Piece mark u (.dash :: ready) whole [mark] u := by
  refine ⟨by simp [Pg.fill], fun m hm => ⟨.shut, by decide, ?_⟩⟩
  simp only [ready, List.mem_cons, List.not_mem_nil, or_false] at hm
  rcases hm with rfl | rfl | rfl <;> simp [Mode.run_cons, Mode.next]

theorem run_escape {q : Char} {v : Text} (hv : mark ∉ v) (hq : q ≠ mark) :
    (Mode.inside q).run mark (escape q v ++ [q]) = some (.maybe q) := by
  induction v with
  | nil => simp [Mode.run_cons, Mode.next, hq]
  | cons c v ih =>
    simp only [List.mem_cons, not_or] at hv
    have hc : c ≠ mark := fun e => hv.1 e.symm
    rw [escape_cons]
    by_cases he : c = q
    · simp only [he, if_true, List.cons_append, List.nil_append, Mode.run_cons, Mode.next,
        if_neg hq, Option.bind_some, ih hv.2]
    · simp only [he, if_false, List.cons_append, List.nil_append, Mode.run_cons, Mode.next,
        if_neg hc, Option.bind_some, ih hv.2]

theorem not_mem_escape {q : Char} {v : Text} (hv : mark ∉ v) (hq : q ≠ mark) :
    mark ∉ escape q v := by
  intro hm
  obtain ⟨c, hc, hm⟩ := List.mem_flatMap.1 hm
  split at hm
  · simp only [List.mem_cons, List.not_mem_nil, or_false, or_self] at hm
    exact hq hm.symm
  · exact hv (List.mem_singleton.1 hm ▸ hc)

theorem Piece.quote {q : Char} {v : Text} (h : isQuote q = true) (hv : mark ∉ v)
    (hm : isQuote mark = false) : Piece mark u (.dash :: ready) whole (quote q v) (quote q v) := by
  have hq : q ≠ mark := by rintro rfl; rw [h] at hm; cases hm
  have hmem : Pg.Mode.maybe q ∈ whole := by
    simp only [isQuote, Bool.or_eq_true, beq_iff_eq] at h
    rcases h with rfl | rfl <;> decide
  refine ⟨(fill_eq ?_ u).symm, fun m hm => ⟨.maybe q, hmem, ?_⟩⟩
  · simp only [Pg.quote, List.mem_cons, List.mem_append, List.not_mem_nil, or_false, not_or]
    exact ⟨hq.symm, not_mem_escape hv hq, hq.symm⟩
  · rw [Pg.quote, Mode.run_cons]
    have hn : m.next mark q = some (.inside q) := by
      simp only [ready, List.mem_cons, List.not_mem_nil, or_false] at hm
      rcases hm with rfl | rfl | rfl <;> simp only [Mode.next, if_neg hq, if_pos h]
    rw [hn]
    exact run_escape hv hq

/-- A character that asks nothing of its neighbours outside quotes, but that no quote follows a
word. -/
def isCalm (c : Char) : Bool := !isQuote c && c != '-' && c != '/' && c != '$'

/-- What the text ends in. -/
def Mode.stem : Mode → Stem
  | .word => .ident
  | .wordy => .number
  | .point => .point
  | .exponent => .exponent
  | _ => .none

/-- A character outside quotes that opens no comment. -/
theorem next_plain {c : Char} {m : Mode} (hm : m ∈ plain) (hc : c ≠ mark)
    (hq : isQuote c = false) (hd : m = .dash → c ≠ '-') (hs : m = .slash → c ≠ '*') :
    m.next mark c = some (plainMode m.stem c) := by
  simp only [plain, List.mem_cons, List.not_mem_nil, or_false] at hm
  rcases hm with rfl | rfl | rfl | rfl | rfl | rfl | rfl
  case inr.inl => simp [Mode.next, Mode.stem, hc, hq, hd rfl]
  case inr.inr.inl => simp [Mode.next, Mode.stem, hc, hq, hs rfl]
  all_goals simp [Mode.next, Mode.stem, hc, hq]

theorem plainMode_mem {w : Stem} {c : Char} (hc : c ≠ '$') : plainMode w c ∈ plain ∧
    (plainMode w c = .dash → c = '-') ∧ (plainMode w c = .slash → c = '/') := by
  unfold plainMode
  split_ifs with h1 h2 h3
  · exact ⟨by decide, fun _ => h1, by rintro ⟨⟩⟩
  · exact ⟨by decide, by rintro ⟨⟩, fun _ => h2⟩
  · exact absurd h3.1 hc
  · cases w.next c <;> exact ⟨by decide, by rintro ⟨⟩, by rintro ⟨⟩⟩
  · exact ⟨by decide, by rintro ⟨⟩, by rintro ⟨⟩⟩
  · exact ⟨by decide, by rintro ⟨⟩, by rintro ⟨⟩⟩

theorem calm_next {c : Char} (hc : isCalm c = true) (hm : c ≠ mark) {m : Mode}
    (h : m ∈ unslashed) : ∃ m' ∈ unslashed, m.next mark c = some m' := by
  simp only [isCalm, Bool.and_eq_true, Bool.not_eq_true', bne_iff_ne] at hc
  obtain ⟨⟨⟨h1, h2⟩, h3⟩, h4⟩ := hc
  have hplain : m ∈ plain ∧ m ≠ .slash := by
    simp only [unslashed, List.mem_cons, List.not_mem_nil, or_false] at h
    rcases h with rfl | rfl | rfl | rfl | rfl | rfl <;> decide
  refine ⟨_, ?_, next_plain hplain.1 hm h1 (fun _ => h2) fun e => absurd e hplain.2⟩
  obtain ⟨hp, -, hs⟩ := plainMode_mem (w := m.stem) h4
  have hs : plainMode m.stem c ≠ .slash := fun e => h3 (hs e)
  simp only [plain, unslashed, List.mem_cons, List.not_mem_nil, or_false] at hp ⊢
  tauto

theorem Piece.calm (h : x.all isCalm = true) (hm : mark ∉ x) :
    Piece mark u unslashed unslashed x x := by
  refine ⟨(fill_eq hm u).symm, ?_⟩
  induction x with
  | nil => exact fun m hm => ⟨m, hm, rfl⟩
  | cons c x ih =>
    intro m hmem
    simp only [List.all_cons, Bool.and_eq_true] at h
    simp only [List.mem_cons, not_or] at hm
    obtain ⟨m₁, h₁, e₁⟩ := calm_next h.1 (fun e => hm.1 e.symm) hmem
    obtain ⟨m₂, h₂, e₂⟩ := ih h.2 hm.2 m₁ h₁
    exact ⟨m₂, h₂, by rw [Mode.run_cons, e₁]; exact e₂⟩

/-! ### Operators -/

/-- No comment opens in the text. -/
def noComment : Text → Bool
  | [] => true
  | c :: s => !(c == '-' && s.head? == some '-') && !(c == '/' && s.head? == some '*') && noComment s

theorem isOpChar_not_space {c : Char} (h : isOpChar c = true) : isSpace c = false := by
  cases hs : isSpace c
  · rfl
  · simp only [isSpace, Bool.or_eq_true, beq_iff_eq] at hs
    rcases hs with ((((rfl | rfl) | rfl) | rfl) | rfl) | rfl <;> revert h <;> decide

/-- A run of operator characters, from the modes that the character before it may leave. -/
theorem run_ops (hm : isOpChar mark = false) {o : Text} (ho : o.all isOpChar = true)
    (hc : noComment o = true) {m : Mode} (h : m ∈ plain) (hd : m = .dash → o.head? ≠ some '-')
    (hs : m = .slash → o.head? ≠ some '*') : ∃ m' ∈ plain, m.run mark o = some m' := by
  induction o generalizing m with
  | nil => exact ⟨m, h, rfl⟩
  | cons c o ih =>
    simp only [List.all_cons, Bool.and_eq_true] at ho
    simp only [noComment, Bool.and_eq_true, Bool.not_eq_true', Bool.and_eq_false_iff,
      beq_eq_false_iff_ne, ne_eq] at hc
    obtain ⟨⟨h1, h2⟩, h3⟩ := hc
    have hcm : c ≠ mark := by rintro rfl; rw [ho.1] at hm; cases hm
    have hq : isQuote c = false := isOpChar_not_quote c ho.1
    have hdollar : c ≠ '$' := by rintro rfl; exact absurd ho.1 (by decide)
    have hn : m.next mark c = some (plainMode m.stem c) :=
      next_plain h hcm hq (fun e he => hd e (by rw [he]; rfl)) fun e he => hs e (by rw [he]; rfl)
    obtain ⟨hp, hdash, hslash⟩ := plainMode_mem (w := m.stem) hdollar
    rw [Mode.run_cons, hn]
    exact ih ho.2 h3 hp (fun e => h1.resolve_left (not_not_intro (hdash e)))
      fun e => h2.resolve_left (not_not_intro (hslash e))

/-- An operator and the white space after it. -/
theorem Piece.ops (hm : isOpChar mark = false) (hsp : mark ≠ ' ') {o : Text} (hne : o ≠ [])
    (ho : o.all isOpChar = true) (hc : noComment o = true) :
    Piece mark u spaced ready (o ++ [' ']) (o ++ [' ']) := by
  have hmem : mark ∉ o := fun h => by
    rw [List.all_eq_true.1 ho _ h] at hm
    cases hm
  refine ⟨(fill_eq ?_ u).symm, fun m hmode => ⟨.free, .head _, ?_⟩⟩
  · simp only [List.mem_append, List.mem_singleton, not_or]
    exact ⟨hmem, hsp⟩
  obtain ⟨m', h', e⟩ := run_ops (m := .free) hm ho hc (.head _) (by rintro ⟨⟩) (by rintro ⟨⟩)
  -- an operator character is read alike from all these modes
  have hrun : m.run mark o = some m' := by
    rw [← e]
    obtain ⟨c, o, rfl⟩ := List.exists_cons_of_ne_nil hne
    simp only [List.all_cons, Bool.and_eq_true] at ho
    simp only [List.mem_cons, not_or] at hmem
    have hcm : c ≠ mark := fun e => hmem.1 e.symm
    have hcont := isOpChar_not_cont ho.1
    have hpoint : plainMode .point c = plainMode .none c := by
      simp [plainMode, Stem.next, not_isIdentStart hcont, hcont, Stem.word]
    simp only [spaced, ready, List.mem_cons, List.not_mem_nil, or_false] at hmode
    rcases hmode with rfl | rfl | rfl
    · simp only [Mode.run_cons, Mode.next, if_neg hcm, if_false,
        isOpChar_not_space ho.1, isOpChar_not_quote c ho.1, Bool.false_eq_true]
    · rfl
    · simp only [Mode.run_cons, Mode.next, if_neg hcm, if_false, isOpChar_not_quote c ho.1, hpoint,
        Bool.false_eq_true]
  rw [Mode.run_append, hrun, Option.bind_some, Mode.run_cons,
    next_plain h' hsp.symm (by decide) (fun _ => by decide) (fun _ => by decide),
    plainMode_space (by decide)]
  rfl

/-! ## What a piece says of its text -/

/-- **A piece with one mark**: its tokens are those around the mark, with the quoted token that
fills the mark between them; its value is in no other token. -/
theorem scan_piece (h : Piece mark u ready whole x y) (hx : x.count mark = 1) :
    ∃ pre post, ∀ q v, isQuote q = true →
      scan (Pg.fill mark (quote q v) x) = pre ++ quotedToken q v :: post := by
  obtain ⟨pre, post, rfl⟩ := List.append_of_mem (List.one_le_count_iff.1 (Nat.le_of_eq hx.symm))
  rw [List.count_append, List.count_cons_self] at hx
  have hpre : mark ∉ pre := List.count_eq_zero.1 (by omega)
  have hpost : mark ∉ post := List.count_eq_zero.1 (by omega)
  obtain ⟨m, -, e⟩ := h.run .free (.head _)
  refine ⟨scan pre, scan post, fun q v hq => ?_⟩
  rw [← scan_around hpre hpost e hq v, fill_append, fill_cons, if_pos rfl, fill_eq hpre,
    fill_eq hpost, List.append_assoc]

end

end Pg
