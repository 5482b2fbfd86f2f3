import IronQuery.Pg.Lexer

/-!
# Lists between commas

`entries` cuts a text at the commas outside brackets and quotes. An entry (`IsEntry`) closes its
brackets and quotes and has no such comma; `entries_join` reads back entries between `", "`, and
`isEntry_bracket` makes one of them in brackets.
-/

namespace Pg

/-- Where a reader stands: how deep in brackets, and inside which quote. -/
structure Place where
  depth : Nat
  quote : Option Char
  deriving DecidableEq, Repr

namespace Place

def top : Place := ⟨0, none⟩

def next (c : Char) : Place → Place
  | ⟨d, some q⟩ => if c = q then ⟨d, none⟩ else ⟨d, some q⟩
  | ⟨d, none⟩ =>
    if isQuote c then ⟨d, some c⟩
    else if c = '(' ∨ c = '[' then ⟨d + 1, none⟩
    else if c = ')' ∨ c = ']' then ⟨d - 1, none⟩
    else ⟨d, none⟩

/-- The character belongs to an entry: it is no comma outside all brackets and quotes, and closes no
bracket that the entry did not open. -/
def keeps (p : Place) (c : Char) : Bool := p != top || (c != ',' && c != ')' && c != ']')

/-- The place after a text, if all of it belongs to one entry. -/
def run (p : Place) : Text → Option Place
  | [] => some p
  | c :: s => if p.keeps c then (p.next c).run s else none

end Place

open Place

/-- A text that is one entry of a list. -/
def IsEntry (x : Text) : Prop := x ≠ [] ∧ top.run x = some top

instance (x : Text) : Decidable (IsEntry x) := inferInstanceAs (Decidable (_ ∧ _))

/-- The text put in front of the first entry. -/
def consEntry (x : Text) : List Text → List Text
  | e :: es => (x ++ e) :: es
  | [] => [x]

/-- The entries of the rest of a list; `skip`: a comma came just before. -/
def entriesAux : Bool → Place → Text → List Text
  | _, _, [] => [[]]
  | skip, p, c :: s =>
    if skip && c == ' ' then entriesAux false p s
    else if p == top && c == ',' then [] :: entriesAux true top s
    else consEntry [c] (entriesAux false (p.next c) s)

/-- The entries of a text: cut at the commas outside brackets and quotes, each with the space after
it. -/
def entries (s : Text) : List Text := entriesAux false top s

example : entries "a, f(b, ','), \"x,\"".toList =
    ["a".toList, "f(b, ',')".toList, "\"x,\"".toList] := by decide

/-! ## Reading entries back -/

theorem consEntry_append (x y : Text) (l : List Text) :
    consEntry x (consEntry y l) = consEntry (x ++ y) l := by
  cases l <;> simp [consEntry]

theorem entriesAux_append {p p' : Place} {x : Text} (h : p.run x = some p') (r : Text)
    (hne : entriesAux false p' r ≠ []) :
    entriesAux false p (x ++ r) = consEntry x (entriesAux false p' r) := by
  induction x generalizing p with
  | nil =>
    cases h
    obtain ⟨e, es, he⟩ := List.exists_cons_of_ne_nil hne
    rw [List.nil_append, he]
    rfl
  | cons c x ih =>
    rw [Place.run] at h
    split at h
    · rename_i hk
      have hcomma : (p == top && c == ',') = false := by
        simp only [Place.keeps, Bool.or_eq_true, bne_iff_ne, Bool.and_eq_true] at hk
        rcases hk with hk | hk
        · simp [hk]
        · simp [hk.1.1]
      rw [List.cons_append, entriesAux, Bool.false_and, if_neg (by decide), hcomma,
        if_neg (by decide), ih h, consEntry_append]
      rfl
    · cases h

theorem entriesAux_ne_nil (skip : Bool) (p : Place) (s : Text) : entriesAux skip p s ≠ [] := by
  induction s generalizing skip p with
  | nil => simp [entriesAux]
  | cons c s ih =>
    rw [entriesAux]
    split
    · exact ih _ _
    · split
      · simp
      · obtain ⟨e, es, he⟩ := List.exists_cons_of_ne_nil (ih false (p.next c))
        rw [he]
        simp [consEntry]

/-- **Entries between commas are read back.** -/
theorem entries_join {x : Text} {l : List Text} (hx : IsEntry x) (hl : ∀ y ∈ l, IsEntry y) :
    entries (x ++ l.flatMap fun y => ", ".toList ++ y) = x :: l := by
  induction l generalizing x with
  | nil =>
    rw [entries, List.flatMap_nil, entriesAux_append hx.2 [] (entriesAux_ne_nil _ _ _)]
    simp [entriesAux, consEntry]
  | cons y l ih =>
    have hrest := ih (hl y (.head _)) fun z hz => hl z (.tail _ hz)
    rw [entries, entriesAux_append hx.2 _ (entriesAux_ne_nil _ _ _), List.flatMap_cons,
      List.append_assoc]
    have hcomma : entriesAux false top (", ".toList ++ (y ++ l.flatMap fun y => ", ".toList ++ y)) =
        [] :: entries (y ++ l.flatMap fun y => ", ".toList ++ y) := rfl
    rw [hcomma, hrest, consEntry, List.append_nil]

/-! ## Entries in brackets -/

theorem Place.run_append (p : Place) (x y : Text) :
    p.run (x ++ y) = (p.run x).bind fun p => p.run y := by
  induction x generalizing p with
  | nil => rfl
  | cons c x ih =>
    rw [List.cons_append, Place.run, Place.run]
    split
    · exact ih _
    · rfl

/-- What is one entry outside brackets stays in place inside them. -/
theorem Place.run_deeper {p p' : Place} {x : Text} (h : p.run x = some p') (n : Nat) :
    (⟨p.depth + n, p.quote⟩ : Place).run x = some ⟨p'.depth + n, p'.quote⟩ := by
  induction x generalizing p with
  | nil => cases h; rfl
  | cons c x ih =>
    rw [Place.run] at h
    split at h
    · rename_i hk
      obtain ⟨d, q⟩ := p
      have hkeep : (⟨d + n, q⟩ : Place).keeps c = true := by
        simp only [Place.keeps, top, Bool.or_eq_true, bne_iff_ne, ne_eq, Place.mk.injEq,
          Bool.and_eq_true, not_and] at hk ⊢
        rcases hk with hk | hk
        · exact .inl fun h => hk (by omega)
        · exact .inr hk
      have hnext : (⟨d + n, q⟩ : Place).next c =
          ⟨((⟨d, q⟩ : Place).next c).depth + n, ((⟨d, q⟩ : Place).next c).quote⟩ := by
        cases q with
        | some q => simp only [Place.next]; split <;> rfl
        | none =>
          simp only [Place.next]
          split
          · rfl
          split
          · simp only [Nat.add_right_comm]
          split
          · rename_i hc
            have hd : d ≠ 0 := by
              rintro rfl
              simp only [Place.keeps, top, bne_self_eq_false, Bool.false_or, Bool.and_eq_true,
                bne_iff_ne] at hk
              rcases hc with hc | hc
              · exact hk.1.2 hc
              · exact hk.2 hc
            simp only [Place.mk.injEq, and_true]
            omega
          · rfl
      rw [Place.run, if_pos hkeep, hnext]
      exact ih h
    · cases h

theorem isEntry_bracket {x : Text} {l : List Text} (hx : top.run x = some top)
    (hl : ∀ y ∈ l, IsEntry y) :
    IsEntry ('(' :: (x ++ l.flatMap (fun y => ", ".toList ++ y) ++ [')'])) := by
  refine ⟨List.cons_ne_nil _ _, ?_⟩
  have hdeep : ∀ y, top.run y = some top → (⟨1, none⟩ : Place).run y = some ⟨1, none⟩ :=
    fun y hy => Place.run_deeper hy 1
  have hrest : (⟨1, none⟩ : Place).run (l.flatMap fun y => ", ".toList ++ y) = some ⟨1, none⟩ := by
    induction l with
    | nil => rfl
    | cons y l ih =>
      have hcomma : (⟨1, none⟩ : Place).run ", ".toList = some ⟨1, none⟩ := by decide
      rw [List.flatMap_cons, Place.run_append, Place.run_append, hcomma, Option.bind_some,
        hdeep y (hl y (.head _)).2, Option.bind_some]
      exact ih fun z hz => hl z (.tail _ hz)
  have hopen : top.run ('(' :: (x ++ l.flatMap (fun y => ", ".toList ++ y) ++ [')'])) =
      (⟨1, none⟩ : Place).run (x ++ l.flatMap (fun y => ", ".toList ++ y) ++ [')']) := rfl
  rw [hopen, Place.run_append, Place.run_append, hdeep x hx, Option.bind_some, hrest]
  rfl

end Pg
