import IronQuery.Pg.Proof.Tables
import IronQuery.Pg.Proof.Whole
import IronQuery.Proof.CsvJoin
import IronQuery.Proof.TreeGroups
import IronQuery.Statement

/-!
# What terms and lists spell

`Spells rd x a`: the text `x` is whole, and its tokens are an entry of a list that is read as `a`.
The text of a tree spells its meaning (`Tree.Sound.spells`), and so do items, sort terms and
assignments. A list of such texts is read as their meanings (`Entries.list`), on one line and on
indented ones.
-/

namespace IronQuery

open Pg SelectExpr

/-! ## Lists of texts -/

theorem connector_comma : Connector ", ".toList [.punct ','] :=
  connector_const (fun _ => rfl) (by decide) (by decide)

theorem connector_commaLine : Connector ",\n".toList [.punct ','] :=
  connector_const (fun _ => rfl) (by decide) (by decide)

/-- The tokens of a list of texts. -/
def csvTokens (xs : List Text) : List Token := csv (xs.map lex)

/-- **The two list joiners write the same tokens.** -/
theorem csv_reads {xs : List Text} (h : ∀ x ∈ xs, x ≠ [] ∧ Whole x) :
    Reads lex (joinCsv xs) (csvTokens xs) ∧ Reads lex (joinCsvIndented xs) (csvTokens xs) := by
  constructor
  · cases xs with
    | nil => exact Whole.nil
    | cons x xs =>
      rw [joinCsv_filled (h x (.head _)).1]
      exact reads_intercalate connector_comma fun y hy => (h y hy).2
  · have hindent : Opens lex "    ".toList [] := opens_const (by decide) (by decide)
    have hread {x : Text} (hx : Whole x) : Reads lex ("    ".toList ++ x) (lex x) := hindent.reads hx
    have hlex : csvTokens xs = csv ((xs.map fun x => "    ".toList ++ x).map lex) := by
      have : xs.map lex = (xs.map fun x => "    ".toList ++ x).map lex := by
        rw [List.map_map]
        exact List.map_congr_left fun x hx => ((hread (h x hx).2).lex_eq).symm
      rw [csvTokens, this]
    rw [joinCsvIndented_eq, hlex]
    refine reads_intercalate connector_commaLine fun y hy => ?_
    obtain ⟨x, hx, rfl⟩ := List.mem_map.1 hy
    exact (hread (h x hx).2).whole

section
variable {α β γ : Type} {rd : List Token → Option α} {x : Text} {xs : List Text} {ts : List Token}
  {a : α} {as : List α}

/-- The text of an entry of a list, which is read as `a`. -/
structure Spells (rd : List Token → Option α) (x : Text) (a : α) : Prop where
  whole : Whole x
  opening : Opening (lex x)
  entry : Entry rd (lex x) a

/-- The text of a list, which is read as `as`. -/
structure SpellsList (rd : List Token → Option α) (x : Text) (as : List α) : Prop where
  whole : Whole x
  opening : Opening (lex x)
  listing : Listing rd (lex x) as

theorem Spells.of (hr : Reads lex x ts) (ho : Opening ts) (he : Entry rd ts a) : Spells rd x a := by
  obtain rfl := hr.lex_eq
  exact ⟨hr, ho, he⟩

theorem Spells.text (h : Spells rd x a) : x ≠ [] ∧ Whole x := ⟨h.opening.text, h.whole⟩

/-- A list with at least one entry, each of which spells what it means. -/
structure Entries (rd : List Token → Option α) (text : β → Text) (ys : List β) (as : List α) :
    Prop where
  nonempty : ys ≠ []
  spells : List.Forall₂ (fun y a => Spells rd (text y) a) ys as

section
variable {text : β → Text} {ys : List β}

theorem Entries.texts (h : Entries rd text ys as) : ∀ x ∈ ys.map text, x ≠ [] ∧ Whole x := by
  intro x hx
  obtain ⟨y, hy, rfl⟩ := List.mem_map.1 hx
  obtain ⟨-, hs⟩ := h
  induction hs with
  | nil => cases hy
  | cons hz _ ih =>
    rcases List.mem_cons.1 hy with rfl | hy
    · exact hz.text
    · exact ih hy (List.mem_map_of_mem hy)

theorem Entries.tokens (h : Entries rd text ys as) :
    Opening (csvTokens (ys.map text)) ∧ Listing rd (csvTokens (ys.map text)) as := by
  have hne : (ys.map text).map lex ≠ [] := by simpa using h.nonempty
  constructor
  · refine csv_opening hne fun ts hts => ?_
    obtain ⟨hy, hs⟩ := h
    rw [List.map_map] at hts
    obtain ⟨y, hy, rfl⟩ := List.mem_map.1 hts
    clear hne hts
    induction hs with
    | nil => cases hy
    | cons hz _ ih =>
      rcases List.mem_cons.1 hy with rfl | hy
      · exact hz.opening
      · exact ih (List.ne_nil_of_mem hy) hy
  · refine ⟨_, hne, rfl, ?_⟩
    rw [List.map_map]
    exact List.forall₂_map_left_iff.2 (h.spells.imp fun _ _ hs => hs.entry)

/-- **A list of entries is read back.** -/
theorem Entries.list (h : Entries rd text ys as) : SpellsList rd (joinCsv (ys.map text)) as := by
  have hr := (csv_reads h.texts).1
  obtain ⟨ho, hl⟩ := h.tokens
  refine ⟨hr.whole, ?_, ?_⟩
  · rwa [hr.lex_eq]
  · rwa [hr.lex_eq]

end

/-! ### What is built from lists -/

variable {build : γ → Result β} {text : β → Text} {meant : γ → α} {l : List γ} {ys : List β}

theorem buildAll_ok (h : buildAll build l = .ok ys) :
    List.Forall₂ (fun x y => build x = .ok y) l ys := by
  induction l generalizing ys with
  | nil => cases h; exact .nil
  | cons x l ih =>
    simp only [buildAll, bind_ok, pure_ok] at h
    obtain ⟨y, hy, zs, hz, rfl⟩ := h
    exact .cons hy (ih hz)

/-- At least one term, and every one of them sound. -/
def SoundList (p : α → Prop) (l : List α) : Prop := l ≠ [] ∧ ∀ x ∈ l, p x

instance (p : α → Prop) [DecidablePred p] (l : List α) : Decidable (SoundList p l) :=
  have : Decidable (l ≠ []) := decidable_of_iff (l.isEmpty = false) (by simp)
  inferInstanceAs (Decidable (_ ∧ _))

theorem built_spells {p : γ → Prop} (h : buildAll build l = .ok ys) (hl : ∀ x ∈ l, p x)
    (hs : ∀ x y, p x → build x = .ok y → Spells rd (text y) (meant x)) :
    List.Forall₂ (fun y a => Spells rd (text y) a) ys (l.map meant) := by
  have hall := buildAll_ok h
  clear h
  induction hall with
  | nil => exact .nil
  | cons hx _ ih => exact .cons (hs _ _ (hl _ (.head _)) hx) (ih fun z hz => hl z (.tail _ hz))

theorem built_entries {p : γ → Prop} (h : buildAll build l = .ok ys) (hl : SoundList p l)
    (hs : ∀ x y, p x → build x = .ok y → Spells rd (text y) (meant x)) :
    Entries rd text ys (l.map meant) := by
  refine ⟨?_, built_spells h hl.2 hs⟩
  rintro rfl
  cases buildAll_ok h
  exact hl.1 rfl

end

/-! ## Terms -/

/-- The text of the tree is read as what the tree means: its names are names, no sign or point of
its numbers is lost, and its operators group as they were built. -/
structure Tree.Sound (t : Tree) : Prop where
  named : t.Named
  callable : t.All (·.callable = true)
  intact : t.Intact
  groups : t.All (·.groupsAt = true)

/-- What `Sound` says of the root. -/
def Tree.soundAt (t : Tree) : Bool := t.namesOk && t.callable && t.intactAt && t.groupsAt

section
variable {t : Tree} {e : Expr} {x : Text}

theorem Tree.sound_iff : t.Sound ↔ t.All (·.soundAt = true) := by
  have hsplit (s : Tree) : s.soundAt = true ↔
      s.namesOk = true ∧ s.callable = true ∧ s.intactAt = true ∧ s.groupsAt = true := by
    simp only [Tree.soundAt, Bool.and_eq_true, and_assoc]
  constructor
  · intro h s hs
    exact (hsplit s).2 ⟨h.named s hs, h.callable s hs, h.intact s hs, h.groups s hs⟩
  · intro h
    exact ⟨h.mono fun s hs => ((hsplit s).1 hs).1, h.mono fun s hs => ((hsplit s).1 hs).2.1,
      h.mono fun s hs => ((hsplit s).1 hs).2.2.1, h.mono fun s hs => ((hsplit s).1 hs).2.2.2⟩

instance (t : Tree) : Decidable t.Sound := decidable_of_iff _ Tree.sound_iff.symm

theorem Tree.Sound.term (h : t.Sound) (hb : t.build = .ok e) :
    ∃ ts, Reads lex e.toString ts ∧ IsTerm ts ∧ readTerm ts = some t.toSql := by
  have hr := t.rendered h.named h.intact hb
  have hg := t.grouped_surf none (by rintro _ ⟨⟩) h.callable
  refine ⟨_, hr.reads, Sql.isTerm hr.formed hg, ?_⟩
  have hread := groups_reads h.named h.callable hb h.intact h.groups
  rwa [readExpr, hr.reads.view_eq lex_nil] at hread

theorem Tree.Sound.nonempty (h : t.Sound) (hb : t.build = .ok e) : e.toString ≠ [] :=
  (t.rendered h.named h.intact hb).text_ne_nil

/-- **The text of a tree spells what the tree means.** -/
theorem Tree.Sound.spells (h : t.Sound) (hb : t.build = .ok e) :
    Spells readTerm e.toString t.toSql := by
  obtain ⟨ts, hr, ht, hread⟩ := h.term hb
  exact .of hr ht.opening ⟨ht.in_clause, hread⟩

theorem intTree_build (n : Int) : (intTree n).build = .ok (.fromInteger n) := by
  cases n <;> rfl

theorem intTree_sound (n : Int) : (intTree n).Sound := by
  cases n <;> exact Tree.sound_iff.2 (all_iff.2 ⟨rfl, by rintro _ ⟨⟩⟩)

theorem int_spells (n : Int) : Spells readTerm (intToString n) (intTree n).toSql :=
  (intTree_sound n).spells (intTree_build n)

/-! ### Items, sort terms and assignments -/

/-- An item whose label is no key word. -/
structure ItemTree.Sound (i : ItemTree) : Prop where
  expr : i.expr.Sound
  label : i.label.all isName = true

instance (i : ItemTree) : Decidable i.Sound :=
  decidable_of_iff (i.expr.Sound ∧ i.label.all isName = true)
    ⟨fun h => ⟨h.1, h.2⟩, fun h => ⟨h.1, h.2⟩⟩

theorem plainLabel_name {w : Text} (h : isName w = true) : isPlainLabel (.word w) = true := by
  obtain ⟨hb, hd⟩ := isBoundary_name h
  simp [isPlainLabel, isLabel, hb, hd]

theorem connector_as : Connector " AS ".toList [Key.as.token] :=
  connector_const (fun _ => rfl) (by decide) (by decide)

theorem ItemTree.Sound.spells {i : ItemTree} (h : i.Sound) {s : SelectItem}
    (hb : i.build = .ok s) : Spells (readItem readTerm) s.toString i.meant := by
  obtain ⟨t, label⟩ := i
  simp only [ItemTree.build, bind_ok] at hb
  obtain ⟨e, he, hs⟩ := hb
  obtain ⟨ts, hr, ht, hread⟩ := h.expr.term he
  have hlabel : (label.map Token.word).all isPlainLabel = true := by
    cases label with
    | none => rfl
    | some name => exact plainLabel_name h.label
  have hentry : Entry (readItem readTerm) (Item.tokens ⟨ts, label.map .word⟩)
      (ItemTree.meant ⟨t, label⟩) := ⟨passes_item ht hlabel, readItem_tokens ht hread hlabel⟩
  have hopen : Opening (Item.tokens ⟨ts, label.map .word⟩) := ht.opening.append _
  cases label with
  | none =>
    cases hs
    refine .of ?_ hopen hentry
    rw [Item.tokens, Option.map_none, Option.elim_none, List.append_nil]
    exact hr
  | some name =>
    have hs : e.as name = .ok s := hs
    unfold Expr.as at hs
    split at hs
    · cases hs
    · rename_i hplain
      cases hs
      rw [Bool.not_eq_true', Bool.not_eq_false] at hplain
      have hname := connector_as.trails (seals_plain hplain).reads
      refine .of ?_ hopen hentry
      rw [SelectItem.toString, List.append_assoc]
      exact hr.trails hname

/-- What a sort term has behind its expression. -/
def sortText (d : SortDirection) (n : NullsOrder) : Text :=
  (match d with
    | .kDescending => " DESC".toList
    | .kAscending => []) ++
  match n with
    | .kFirst => " NULLS FIRST".toList
    | .kLast => " NULLS LAST".toList
    | .kDefault => []

theorem sort_trails (d : SortDirection) (n : NullsOrder) :
    Trails (sortText d n) (descTokens (d == .kDescending) ++ nullsTokens n.place) := by
  refine Trails.append ?_ ?_
  · cases d with
    | kAscending => exact .nil
    | kDescending => exact Reads.trailing (by decide) (reads_const (by decide) (by decide))
  · cases n with
    | kDefault => exact .nil
    | kFirst => exact Reads.trailing (by decide) (reads_const (by decide) (by decide))
    | kLast => exact Reads.trailing (by decide) (reads_const (by decide) (by decide))

theorem SortTree.spells {t : SortTree} (h : t.expr.Sound) {s : OrderByTerm}
    (hb : t.build = .ok s) : Spells (readSort readTerm) s.render t.meant := by
  obtain ⟨t, d, n⟩ := t
  simp only [SortTree.build, bind_ok, pure_ok] at hb
  obtain ⟨e, he, rfl⟩ := hb
  obtain ⟨ts, hr, ht, hread⟩ := Tree.Sound.term h he
  have htext : OrderByTerm.render ⟨e, d, n⟩ = e.toString ++ sortText d n :=
    List.append_assoc _ _ _
  refine .of ?_ (ht.opening.append _) ⟨passes_sort ht _ _, readSort_tokens ht hread _ _⟩
  rw [htext]
  exact hr.trails (sort_trails d n)

/-- A column that an assignment may set: its name. -/
def Tree.isColumn : Tree → Bool
  | .column _ | .ident _ => true
  | _ => false

theorem column_target {t : Tree} (ht : t.isColumn = true) (hn : t.Named) :
    isTarget (t.surf none).tokens := by
  cases t with
  | column name =>
    have hname : isColumnName name = true := hn.root
    rw [isColumnName, Bool.and_eq_true] at hname
    exact Passes.nil.cons rfl (by simp) (isBoundary_name hname.2).2
  | ident name => exact Passes.nil.cons rfl (by simp) (by simp [Token.key])
  | _ => cases ht

/-- An assignment to a column. -/
structure AssignmentSound (p : Tree × Tree) : Prop where
  column : p.1.Sound
  value : p.2.Sound
  target : p.1.isColumn = true

theorem connector_eq : Connector " = ".toList [.op "=".toList] :=
  connector_const (fun _ => rfl) (by decide) (by decide)

theorem AssignmentSound.spells {p : Tree × Tree} (h : AssignmentSound p) {c v : Expr}
    (hc : p.1.build = .ok c) (hv : p.2.build = .ok v) :
    Spells (readAssignment readTerm) (c.toString ++ " = ".toList ++ v.toString)
      (meantAssignment p) := by
  have hr := p.1.rendered h.column.named h.column.intact hc
  obtain ⟨ts, hreads, ht, hread⟩ := h.column.term hc
  obtain ⟨us, hvr, hvt, hvread⟩ := h.value.term hv
  have htarget : isTarget ts := by
    have := column_target h.target h.column.named
    rwa [← hr.reads.lex_eq, hreads.lex_eq] at this
  refine .of ?_ (ht.opening.append _)
    ⟨passes_assignment ht hvt, readAssignment_tokens htarget hread hvread⟩
  rw [List.append_assoc]
  exact hreads.trails (connector_eq.trails hvr)

end

/-! ## Clauses -/

section
variable {α β : Type} {R : List Token → α → Prop} {x : Text} {a : α}

/-- A clause that may be missing, in both formats. -/
theorem clause_trails {o : Option β} {render render' : β → Text} {tokens : β → List Token}
    {j k : Text} {m : List Key} (hk : Connector k (m.map Key.token))
    (hj : Connector j (m.map Key.token))
    (h : ∀ b, o = some b → Reads lex (render b) (tokens b) ∧ Reads lex (render' b) (tokens b)) :
    Trails (clause (fun b => k ++ render b) o) (clauseTokens [(m, o.map tokens)]) ∧
      Trails (clause (fun b => j ++ render' b) o) (clauseTokens [(m, o.map tokens)]) := by
  cases o with
  | none => exact ⟨.nil, .nil⟩
  | some b =>
    obtain ⟨hr, hr'⟩ := h b rfl
    exact ⟨hk.clause hr, hj.clause hr'⟩

theorem rel_some {R : α → β → Prop} {o : Option α} {a : Option β} {x : α} (h : Option.Rel R o a)
    (hx : o = some x) : ∃ y, a = some y ∧ R x y := by
  cases h with
  | none => cases hx
  | some h =>
    cases hx
    exact ⟨_, rfl, h⟩

theorem rel_map {γ : Type} {R : β → α → Prop} {S : γ → α → Prop} {f : β → γ} {o : Option β}
    {a : Option α} (h : Option.Rel R o a) (hs : ∀ x y, R x y → S (f x) y) :
    Option.Rel S (o.map f) a := by
  cases h with
  | none => exact .none
  | some h => exact .some (hs _ _ h)

/-- A clause that a builder keeps as text, which is empty if it is not set. -/
inductive Kept (R : List Token → α → Prop) : Text → Option α → Prop
  | unset : Kept R [] none
  | set {x : Text} {a : α} (hne : x ≠ []) (hw : Whole x) (h : R (lex x) a) : Kept R x (some a)

theorem Kept.whole {a : Option α} (h : Kept R x a) : Whole x := by
  cases h with
  | unset => exact .nil
  | set _ hw _ => exact hw

theorem Kept.rel {a : Option α} (h : Kept R x a) : Option.Rel R (keptTokens x) a := by
  cases h with
  | unset => exact .none
  | set hne _ h =>
    rw [keptTokens, if_neg (by simpa using hne)]
    exact .some h

theorem Spells.kept {rd : List Token → Option α} (h : Spells rd x a) :
    Kept (Entry rd) x (some a) := .set h.opening.text h.whole h.entry

theorem SpellsList.kept {rd : List Token → Option α} {as : List α} (h : SpellsList rd x as) :
    Kept (Listing rd) x (some as) := .set h.opening.text h.whole h.listing

end

end IronQuery
