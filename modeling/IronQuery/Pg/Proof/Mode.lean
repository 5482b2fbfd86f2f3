import IronQuery.Pg.Proof.ScanLocal

/-!
# Neatness as an automaton

`run m t` reads the text `t` from the mode `m`: what the last character read forbids of the next
one. A text that runs from `free` to a mode a text may end in is neat (`neat_of_run`), the modes
compose (`run_append`), and a constant text is run by evaluation.

A character can stand for a quoted token whose value is not known yet (the `mark`). `scan_around`:
the text around the mark is scanned alike whatever the value put in its place.
-/

namespace Pg

/-! ## Modes -/

/-- What the text read so far asks of the next character. -/
inductive Mode
  | free
  | dash
  | slash
  /-- In an identifier. -/
  | word
  /-- In a number, or behind a `&`. -/
  | wordy
  /-- Behind a number and its point. -/
  | point
  /-- Behind a number and an `e`. -/
  | exponent
  | dollar
  /-- Inside a token quoted by `q`. -/
  | inside (q : Char)
  /-- After a `q` inside such a token: its end, or the first of two. -/
  | maybe (q : Char)
  /-- After a mark. -/
  | shut
  /-- After a string constant, or a mark, and white space. -/
  | closed
  deriving DecidableEq, Repr

/-- The mode in a word or a number. -/
def Stem.mode : Stem → Mode
  | .ident => .word
  | .exponent => .exponent
  | _ => .wordy

/-- The mode after the character `c`, outside quotes, behind a text that ends in `w`. -/
def plainMode (w : Stem) (c : Char) : Mode :=
  if c = '-' then .dash else if c = '/' then .slash
  else if c = '$' ∧ w.word = false then .dollar
  else if isWordy c then (w.next c).mode
  else if w.next c = .point then .point else .free

section
variable (mark : Char)

def Mode.next (c : Char) : Mode → Option Mode
  | .inside q => if c = mark then none else if c = q then some (.maybe q) else some (.inside q)
  | .maybe q =>
    if c = mark then none else if c = q then some (.inside q)
    else if isSpace c then some (if q = '"' then .free else .closed)
    else if isQuote c then none else some (plainMode .none c)
  | .shut =>
    if c = mark then none else if isSpace c then some .closed
    else if isQuote c then none else some (plainMode .none c)
  | .closed =>
    if c = mark then none else if isSpace c then some .closed
    else if isQuote c then none else some (plainMode .none c)
  | .free =>
    if c = mark then some .shut else if isQuote c then some (.inside c)
    else some (plainMode .none c)
  | .point =>
    if c = mark then some .shut else if isQuote c then some (.inside c)
    else some (plainMode .point c)
  | .dash =>
    if c = mark then some .shut else if isQuote c then some (.inside c)
    else if c = '-' then none else some (plainMode .none c)
  | .slash =>
    if c = mark then some .shut else if isQuote c then some (.inside c)
    else if c = '*' then none else some (plainMode .none c)
  | .word => if c = mark then none else if isQuote c then none else some (plainMode .ident c)
  | .wordy => if c = mark then none else if isQuote c then none else some (plainMode .number c)
  | .exponent =>
    if c = mark then none else if isQuote c then none else some (plainMode .exponent c)
  | .dollar => if c = mark then none else if c.isDigit then some .wordy else none

def Mode.run (m : Mode) : Text → Option Mode
  | [] => some m
  | c :: t => (m.next mark c).bind fun m' => m'.run t

/-- The modes a text may end in. -/
def Mode.ends : Mode → Bool
  | .free | .dash | .slash | .word | .wordy | .point | .exponent | .maybe _ => true
  | _ => false

@[simp] theorem Mode.run_nil (m : Mode) : m.run mark [] = some m := rfl

theorem Mode.run_cons (m : Mode) (c : Char) (t : Text) :
    m.run mark (c :: t) = (m.next mark c).bind fun m' => m'.run mark t := rfl

theorem Mode.run_append (m : Mode) (s t : Text) :
    m.run mark (s ++ t) = (m.run mark s).bind fun m' => m'.run mark t := by
  induction s generalizing m with
  | nil => rfl
  | cons c s ih =>
    simp only [List.cons_append, run_cons]
    cases m.next mark c with
    | none => rfl
    | some m' => exact ih m'

end

/-! ## What a mode says of the text read from it -/

/-- The text `s` may be read from the mode `m`. -/
def Fits (s : Text) : Mode → Prop
  | .free => Neat .none s
  | .point => Neat .point s
  | .dash => Neat .none s ∧ s.head? ≠ some '-'
  | .slash => Neat .none s ∧ s.head? ≠ some '*'
  | .word => Neat .ident s ∧ Stops isQuote s
  | .wordy => Neat .number s ∧ Stops isQuote s
  | .exponent => Neat .exponent s ∧ Stops isQuote s
  | .dollar => Neat .number s ∧ ∃ d, s.head? = some d ∧ d.isDigit = true
  | .inside q => isQuote q = true →
      ∃ v t, s = escape q v ++ q :: t ∧ Neat .none t ∧ follows q t = true
  | .maybe q => isQuote q = true → (Neat .none s ∧ follows q s = true) ∨
      ∃ v t, s = q :: (escape q v ++ q :: t) ∧ Neat .none t ∧ follows q t = true
  | .shut => Neat .none s ∧ after s = true
  | .closed => Neat .none s ∧ after s = true ∧ s ≠ []

theorem after_of_plain {c : Char} {s : Text} (hc : isQuote c = false) (hsp : isSpace c = false) :
    after (c :: s) = true := by
  simp [after, hsp, hc]

theorem after_of_space {c : Char} {s : Text} (hc : isSpace c = true) (h : after s = true)
    (hne : s ≠ []) : after (c :: s) = true := by
  cases s with
  | nil => exact absurd rfl hne
  | cons d s => simpa [after, hc] using h

theorem isSpace_not_quote {c : Char} (h : isSpace c = true) : isQuote c = false := by
  cases hq : isQuote c
  · rfl
  · simp only [isQuote, Bool.or_eq_true, beq_iff_eq] at hq
    rcases hq with rfl | rfl <;> revert h <;> decide

theorem Stem.next_point {w : Stem} {c : Char} (h : w.next c = .point) : c = '.' := by
  unfold Stem.next at h
  split_ifs at h with h1
  exact h1

/-- What the mode in a word says. -/
theorem Fits.of_mode {w : Stem} {s : Text} (hw : w ≠ .point) (h : Fits s w.mode) :
    Neat w s ∧ Stops isQuote s := by
  cases w with
  | none => exact ⟨h.1.mono (Stem.numeric.le_none (.inl rfl)), h.2⟩
  | point => exact absurd rfl hw
  | ident | number | exponent => exact h

/-- A plain character goes in front of a text that its mode admits. -/
theorem Fits.cons {w : Stem} {c : Char} {s : Text} (hc : isQuote c = false)
    (h : Fits s (plainMode w c)) : Neat w (c :: s) := by
  unfold plainMode at h
  split at h
  · rename_i he
    subst he
    have hnext : w.next '-' = .none := by cases w <;> decide
    refine .cons hc (fun d hd => ?_) (by simp) (by rw [hnext]; exact h.1)
    have : d ≠ '-' := fun e => h.2 (e ▸ hd)
    simp [adj, this, isWordy, show isIdentCont '-' = false by decide]
  split at h
  · rename_i he
    subst he
    have hnext : w.next '/' = .none := by cases w <;> decide
    refine .cons hc (fun d hd => ?_) (by simp) (by rw [hnext]; exact h.1)
    have : d ≠ '*' := fun e => h.2 (e ▸ hd)
    simp [adj, this, isWordy, show isIdentCont '/' = false by decide]
  split at h
  · rename_i he
    obtain ⟨rfl, hw⟩ := he
    obtain ⟨hn, d, hd, hdig⟩ := h
    have hnext : w.next '$' = .number := by
      revert hw
      cases w <;> decide
    refine .cons hc (fun d' hd' => ?_) (fun _ => .inr (by simpa [hd] using hdig))
      (by rw [hnext]; exact hn)
    obtain rfl : d = d' := by rw [hd] at hd'; exact Option.some.inj hd'
    have hq := isDigit_not_quote d hdig
    simp [adj, hq]
  rename_i h1 h2 h3
  have hdollar (e : c = '$') : w.word = true ∨ s.head?.any Char.isDigit = true :=
    .inl (by simpa using fun hw => h3 ⟨e, hw⟩)
  split at h
  · rename_i hwordy
    have hp : w.next c ≠ .point := fun e => by
      rw [Stem.next_point e] at hwordy
      exact absurd hwordy (by decide)
    obtain ⟨hn, hs⟩ := Fits.of_mode hp h
    refine .cons hc (fun d hd => ?_) hdollar hn
    simp [adj, h1, h2, hs d hd]
  · rename_i hwordy
    have hcont : isIdentCont c = false := by
      simp only [isWordy, Bool.or_eq_true, not_or, Bool.not_eq_true] at hwordy
      exact hwordy.1
    refine .cons hc (fun d _ => by simp [adj, h1, h2, hwordy]) hdollar ?_
    split at h
    · rename_i hp
      rw [hp]
      exact h
    · rename_i hp
      rw [(Stem.next_other hcont w).resolve_right hp]
      exact h

theorem plainMode_space {c : Char} (h : isSpace c = true) (w : Stem) :
    plainMode w c = .free := by
  simp only [isSpace, Bool.or_eq_true, beq_iff_eq] at h
  rcases h with ((((rfl | rfl) | rfl) | rfl) | rfl) | rfl <;> cases w <;> decide

/-- The step from a mode behind a quoted token, at a character that is not that quote. -/
theorem fits_after {c : Char} {s : Text} {m : Mode}
    (h : (if isSpace c then some Mode.closed else if isQuote c then none else some (plainMode .none c))
      = some m) (hs : Fits s m) : Neat .none (c :: s) ∧ after (c :: s) = true := by
  split at h
  · rename_i hsp
    cases h
    obtain ⟨hn, ha, hne⟩ := hs
    have hfree : Fits s (plainMode .none c) := by rw [plainMode_space hsp]; exact hn
    exact ⟨hfree.cons (isSpace_not_quote hsp), after_of_space hsp ha hne⟩
  split at h
  · cases h
  · rename_i hsp hq
    cases h
    have hq : isQuote c = false := by simpa using hq
    exact ⟨hs.cons hq, after_of_plain hq (by simpa using hsp)⟩

theorem fits_follows {q c : Char} {s : Text} {m : Mode}
    (h : (if isSpace c then some (if q = '"' then Mode.free else Mode.closed)
      else if isQuote c then none else some (plainMode .none c)) = some m) (hs : Fits s m) :
    Neat .none (c :: s) ∧ follows q (c :: s) = true := by
  by_cases hq : q = '"' ∧ isSpace c = true
  · obtain ⟨rfl, hsp⟩ := hq
    rw [if_pos hsp, if_pos rfl] at h
    cases h
    have hfree : Fits s (plainMode .none c) := by rw [plainMode_space hsp]; exact hs
    exact ⟨hfree.cons (isSpace_not_quote hsp), by simp [follows, isSpace_not_quote hsp]⟩
  · have h' : (if isSpace c then some Mode.closed
        else if isQuote c then none else some (plainMode .none c)) = some m := by
      rw [← h]
      split
      · rename_i hsp
        rw [if_neg fun e => hq ⟨e, hsp⟩]
      · rfl
    obtain ⟨hn, ha⟩ := fits_after h' hs
    exact ⟨hn, follows_of_after ha⟩

/-- **A text that runs to an end fits the mode it is read from.** -/
theorem fits_of_run {mark : Char} {s : Text} (hm : mark ∉ s) {m e : Mode}
    (h : m.run mark s = some e) (he : e.ends = true) : Fits s m := by
  induction s generalizing m with
  | nil =>
    simp only [Mode.run_nil, Option.some.injEq] at h
    subst h
    cases m with
    | free | point => exact Neat.nil
    | dash => exact ⟨Neat.nil, by simp⟩
    | slash => exact ⟨Neat.nil, by simp⟩
    | word | wordy | exponent => exact ⟨Neat.nil, Stops.nil _⟩
    | maybe q => exact fun _ => .inl ⟨Neat.nil, follows_of_after rfl⟩
    | dollar | inside _ | shut | closed => cases he
  | cons c s ih =>
    simp only [List.mem_cons, not_or] at hm
    have hcm : c ≠ mark := fun e => hm.1 e.symm
    rw [Mode.run_cons, Option.bind_eq_some_iff] at h
    obtain ⟨m', hn, hr⟩ := h
    have ih := ih hm.2 hr
    -- an opening quote, or a plain character, from a mode that admits both
    have opening (w : Stem) (hq : isQuote c = true) (e : Mode.inside c = m') :
        Neat w (c :: s) := by
      subst e
      obtain ⟨v, t, rfl, ht, ha⟩ := ih hq
      have := Neat.quoted (w := w) (q := c) (v := v) hq ha ht
      simpa [quote] using this
    have plain (w : Stem) (hq : ¬ isQuote c = true) (e : plainMode w c = m') :
        Neat w (c :: s) := Fits.cons (by simpa using hq) (e ▸ ih)
    cases m with
    | free | point =>
      simp only [Mode.next, if_neg hcm] at hn
      split at hn <;> rename_i hq <;> cases hn
      · exact opening _ hq rfl
      · exact plain _ hq rfl
    | dash =>
      simp only [Mode.next, if_neg hcm] at hn
      split at hn
      · rename_i hq; cases hn
        exact ⟨opening _ hq rfl, by rintro h; cases h; cases hq⟩
      split at hn
      · cases hn
      · rename_i hq hd; cases hn
        exact ⟨plain _ hq rfl, by simpa using hd⟩
    | slash =>
      simp only [Mode.next, if_neg hcm] at hn
      split at hn
      · rename_i hq; cases hn
        exact ⟨opening _ hq rfl, by rintro h; cases h; cases hq⟩
      split at hn
      · cases hn
      · rename_i hq hd; cases hn
        exact ⟨plain _ hq rfl, by simpa using hd⟩
    | word | wordy | exponent =>
      simp only [Mode.next, if_neg hcm] at hn
      split at hn <;> rename_i hq <;> cases hn
      exact ⟨plain _ hq rfl, stops_cons.2 (by simpa using hq)⟩
    | dollar =>
      simp only [Mode.next, if_neg hcm] at hn
      split at hn <;> rename_i hd <;> cases hn
      have hw : plainMode .number c = .wordy := by
        have h1 : c ≠ '-' := by rintro rfl; revert hd; decide
        have h2 : c ≠ '/' := by rintro rfl; revert hd; decide
        have h3 : c ≠ '$' := by rintro rfl; revert hd; decide
        simp [plainMode, h1, h2, h3, isWordy_of_ident (isDigit_cont hd),
          Stem.next_digit hd (w := .number) (by decide), Stem.mode]
      exact ⟨plain _ (by simp [isDigit_not_quote c hd]) hw, c, rfl, hd⟩
    | inside q =>
      intro hq
      simp only [Mode.next, if_neg hcm] at hn
      split at hn
      · rename_i hc
        cases hn
        subst hc
        rcases ih hq with ⟨hs, ha⟩ | ⟨v, t, rfl, ht, ha⟩
        · exact ⟨[], s, rfl, hs, ha⟩
        · exact ⟨c :: v, t, by simp [escape_cons], ht, ha⟩
      · rename_i hc
        cases hn
        obtain ⟨v, t, rfl, ht, ha⟩ := ih hq
        exact ⟨c :: v, t, by simp [escape_cons, hc], ht, ha⟩
    | maybe q =>
      intro hq
      simp only [Mode.next, if_neg hcm] at hn
      split at hn
      · rename_i hc
        cases hn
        subst hc
        obtain ⟨v, t, rfl, ht, ha⟩ := ih hq
        exact .inr ⟨v, t, rfl, ht, ha⟩
      · exact .inl (fits_follows hn ih)
    | shut =>
      simp only [Mode.next, if_neg hcm] at hn
      exact fits_after hn ih
    | closed =>
      simp only [Mode.next, if_neg hcm] at hn
      obtain ⟨h1, h2⟩ := fits_after hn ih
      exact ⟨h1, h2, by simp⟩

theorem neat_of_run {mark : Char} {s : Text} (hm : mark ∉ s) {e : Mode}
    (h : Mode.free.run mark s = some e) (he : e.ends = true) : Neat .none s := fits_of_run hm h he

/-! ## The text around a mark -/

/-- `u` in the place of every mark of `x`. -/
def fill (mark : Char) (u x : Text) : Text := x.flatMap fun c => if c = mark then u else [c]

@[simp] theorem fill_nil (mark : Char) (u : Text) : fill mark u [] = [] := rfl

@[simp] theorem fill_append (mark : Char) (u x y : Text) :
    fill mark u (x ++ y) = fill mark u x ++ fill mark u y := by simp [fill]

theorem fill_cons (mark : Char) (u : Text) (c : Char) (x : Text) :
    fill mark u (c :: x) = (if c = mark then u else [c]) ++ fill mark u x := by simp [fill]

theorem fill_eq {mark : Char} {x : Text} (h : mark ∉ x) (u : Text) : fill mark u x = x := by
  induction x with
  | nil => rfl
  | cons c x ih =>
    simp only [List.mem_cons, not_or] at h
    rw [fill_cons, if_neg fun e => h.1 e.symm, ih h.2]
    rfl

theorem fill_eq_nil {mark : Char} {u x : Text} (hu : u ≠ []) : fill mark u x = [] ↔ x = [] := by
  cases x with
  | nil => simp
  | cons c x =>
    rw [fill_cons]
    split <;> simp [hu]

/-- The modes that admit a mark. -/
theorem open_of_next {mark : Char} {m m' : Mode} (h : m.next mark mark = some m') :
    (m = .free ∨ m = .dash ∨ m = .slash ∨ m = .point) ∧ m' = .shut := by
  cases m <;> simp [Mode.next] at h ⊢ <;> exact h.symm

theorem plainMode_wordy {w : Stem} {c : Char} (hc : isWordy c = true) {m : Mode}
    (h : plainMode w c = m) : ¬ (m = .free ∨ m = .dash ∨ m = .slash ∨ m = .point) := by
  have h1 : c ≠ '-' := by rintro rfl; revert hc; decide
  have h2 : c ≠ '/' := by rintro rfl; revert hc; decide
  rw [plainMode, if_neg h1, if_neg h2, hc, if_pos rfl] at h
  subst h
  split
  · decide
  · cases w.next c <;> decide

/-- A mode that admits a mark was reached by a character that may stand before a quote. -/
theorem next_open {mark c : Char} {m m' m'' : Mode} (h : m.next mark c = some m')
    (h' : m'.next mark mark = some m'') (hc : c ≠ mark) :
    isQuote c = false ∧ isWordy c = false := by
  have hm := (open_of_next h').1
  have hp : isQuote c = false ∧ ∃ w, plainMode w c = m' := by
    cases m <;> simp only [Mode.next, if_neg hc] at h
    all_goals
      repeat' split at h
      all_goals first
        | exact ⟨by simpa using ‹¬ isQuote c = true›, _, Option.some.inj h⟩
        | exact ⟨isSpace_not_quote ‹_›, .none,
            (plainMode_space ‹_› .none).trans (Option.some.inj h)⟩
        | (cases h; done)
        | (cases h; exact absurd hm (by simp))
  obtain ⟨hq, w, hw⟩ := hp
  refine ⟨hq, ?_⟩
  cases hcw : isWordy c
  · rfl
  · exact absurd hm (plainMode_wordy hcw hw)

theorem continuation_of_run {mark : Char} {s : Text} {m e : Mode} (hm : mark ∉ s)
    (h : m.run mark s = some e) (hs : m = .shut ∨ m = .closed) (g : Gap)
    (hg : g = .before ∨ g = .after) : continuation g s = none := by
  induction s generalizing m g with
  | nil => rcases hg with rfl | rfl <;> rfl
  | cons c s ih =>
    simp only [List.mem_cons, not_or] at hm
    have hcm : c ≠ mark := fun e => hm.1 e.symm
    rw [Mode.run_cons, Option.bind_eq_some_iff] at h
    obtain ⟨m', hn, hr⟩ := h
    have hn : (if isSpace c then some Mode.closed else if isQuote c then none
        else some (plainMode .none c)) = some m' := by
      rcases hs with rfl | rfl <;> simpa only [Mode.next, if_neg hcm] using hn
    split at hn
    · rename_i hsp
      cases hn
      rcases hg with rfl | rfl
      · cases hnl : isNewline c
        · simpa only [continuation, hnl, hsp, Bool.false_eq_true, if_false, if_true]
            using ih hm.2 hr (.inr rfl) .before (.inl rfl)
        · simpa only [continuation, hnl, if_true] using ih hm.2 hr (.inr rfl) .after (.inr rfl)
      · simpa only [continuation, hsp, if_true] using ih hm.2 hr (.inr rfl) .after (.inr rfl)
    split at hn
    · cases hn
    · rename_i hsp hq
      cases hn
      refine continuation_plain g hg (by simpa using hsp) (by simpa using hq) ?_
      rintro rfl hd
      cases s with
      | nil => cases hd
      | cons d s =>
        obtain rfl : d = '-' := Option.some.inj hd
        simp only [List.mem_cons, not_or] at hm
        rw [Mode.run_cons, Option.bind_eq_some_iff] at hr
        obtain ⟨m'', hn'', -⟩ := hr
        simp [plainMode, Mode.next, if_neg hcm, show isQuote '-' = false by decide] at hn''

theorem head_of_run {mark : Char} {s : Text} {e : Mode} (h : Mode.shut.run mark s = some e) :
    Stops isQuote s := by
  cases s with
  | nil => exact Stops.nil _
  | cons c s =>
    rw [Mode.run_cons, Option.bind_eq_some_iff] at h
    obtain ⟨m', hn, -⟩ := h
    refine stops_cons.2 ?_
    cases hq : isQuote c
    · rfl
    · have hsp : isSpace c = false := by
        cases hsp : isSpace c
        · rfl
        · rw [isSpace_not_quote hsp] at hq; cases hq
      simp [Mode.next, hq, hsp] at hn

/-- **The text around a mark is scanned alike whatever quoted token takes its place**: the token is
one token, and neither side sees its value. -/
theorem scan_around {mark : Char} {pre post : Text} (hpre : mark ∉ pre) (hpost : mark ∉ post)
    {e : Mode} (h : Mode.free.run mark (pre ++ mark :: post) = some e) {q : Char}
    (hq : isQuote q = true) (v : Text) :
    scan (pre ++ quote q v ++ post) = scan pre ++ quotedToken q v :: scan post := by
  rw [Mode.run_append, Option.bind_eq_some_iff] at h
  obtain ⟨m, hm, hr⟩ := h
  rw [Mode.run_cons, Option.bind_eq_some_iff] at hr
  obtain ⟨m', hn, hr⟩ := hr
  obtain ⟨hopen, rfl⟩ := open_of_next hn
  have hneat : Neat .none pre :=
    neat_of_run hpre hm (by rcases hopen with rfl | rfl | rfl | rfl <;> rfl)
  have hlast : ∀ c, pre.getLast? = some c → isQuote c = false ∧ isWordy c = false := by
    intro c hc
    obtain ⟨p, rfl⟩ := List.getLast?_eq_some_iff.1 hc
    rw [Mode.run_append, Option.bind_eq_some_iff] at hm
    obtain ⟨m0, -, hm⟩ := hm
    rw [Mode.run_cons, Option.bind_eq_some_iff] at hm
    obtain ⟨m1, h1, hm⟩ := hm
    simp only [Mode.run_nil, Option.some.injEq] at hm
    subst hm
    refine next_open h1 hn ?_
    rintro rfl
    exact hpre (by simp)
  have hhead : (quote q v ++ post).head? = some q := rfl
  have hends : Ends pre (quote q v ++ post) := by
    refine ⟨fun c hc => ?_, fun c hc => ?_, ?_, fun c hc hw => ?_, fun c hc hw => ?_⟩
    · obtain rfl := Option.some.inj (hhead.symm.trans hc)
      cases ho : isOpChar q
      · rfl
      · rw [isOpChar_not_quote q ho] at hq; cases hq
    · obtain rfl := Option.some.inj (hhead.symm.trans hc)
      cases ho : isIdentCont q
      · rfl
      · rw [isIdentCont_not_quote q ho] at hq; cases hq
    · rintro h
      obtain rfl := Option.some.inj (hhead.symm.trans h)
      revert hq; decide
    · rw [(hlast c hc).2] at hw; cases hw
    · rw [(hlast c hc).1] at hw; cases hw
  rw [List.append_assoc, scan_append hneat hends,
    scan_quote hq (head_ne_quote hq (head_of_run hr))
      fun _ => continuation_of_run hpost hr (.inl rfl) .before (.inl rfl)]

end Pg
