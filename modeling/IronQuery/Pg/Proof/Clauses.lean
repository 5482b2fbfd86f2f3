import IronQuery.Pg.Clauses
import IronQuery.Pg.Proof.Units

/-!
# Reading clauses back

`Passes stop ts`: `ts` belongs to one part as a whole, in which nothing ends it. `Clauses.tokens`
writes clauses down, and `readClauses_tokens` reads them back when each belongs to one part;
`terms_csv` does the same for terms between commas.
-/

namespace Pg

/-! ## Tokens that belong to one part -/

section
variable {stop stop' : Token → Bool} {p q : Spot} {t : Token} {ts us r : List Token}

/-- `ts` belongs to one part: outside its brackets nothing ends the part. -/
def Passes (stop : Token → Bool) (ts : List Token) : Prop := Spot.top.run stop ts = some .top

instance (stop : Token → Bool) (ts : List Token) : Decidable (Passes stop ts) :=
  inferInstanceAs (Decidable (_ = _))

theorem Spot.run_append (p : Spot) (ts us : List Token) :
    p.run stop (ts ++ us) = (p.run stop ts).bind fun q => q.run stop us := by
  induction ts generalizing p with
  | nil => rfl
  | cons t ts ih =>
    rw [List.cons_append, Spot.run, Spot.run]
    split
    · exact ih _
    · rfl

theorem Passes.nil : Passes stop [] := rfl

theorem Passes.append (ht : Passes stop ts) (hu : Passes stop us) : Passes stop (ts ++ us) := by
  rw [Passes, Spot.run_append, ht]
  exact hu

theorem Spot.next_plain (h : isPlain t = true) (p : Spot) :
    p.next t = ⟨p.depth, t.key == some .distinct⟩ := by
  have ho : t ≠ .punct '(' := by rintro rfl; cases h
  have hc : t ≠ .punct ')' := by rintro rfl; cases h
  rw [Spot.next, if_neg ho, if_neg hc]

theorem Spot.next_open (p : Spot) : p.next (.punct '(') = ⟨p.depth + 1, false⟩ := by
  rw [Spot.next, if_pos rfl]

theorem Spot.next_close (p : Spot) : p.next (.punct ')') = ⟨p.depth - 1, false⟩ := by
  rw [Spot.next, if_neg (by decide), if_pos rfl]

theorem Spot.keeps_plain (h : isPlain t = true) (hs : stop t = false) (p : Spot) :
    p.keeps stop t = true := by
  have hc : t ≠ .punct ')' := by rintro rfl; cases h
  simp [Spot.keeps, hs, hc]

/-- A token that is no bracket and does not end the part. -/
theorem Passes.cons (h : isPlain t = true) (hs : stop t = false) (hd : t.key ≠ some .distinct)
    (ht : Passes stop ts) : Passes stop (t :: ts) := by
  have hn : Spot.top.next t = .top := by
    rw [Spot.next_plain h, beq_false_of_ne hd]
    rfl
  rw [Passes, Spot.run, if_pos (Spot.keeps_plain h hs _), hn]
  exact ht

/-- `DISTINCT FROM`, an operator. -/
theorem Passes.distinctFrom (hs : stop Key.distinct.token = false) (ht : Passes stop ts) :
    Passes stop (Key.distinct.token :: Key.from.token :: ts) := by
  have hn : Spot.top.next Key.distinct.token = ⟨0, true⟩ := by decide
  have hf : (⟨0, true⟩ : Spot).next Key.from.token = .top := by decide
  have hk : (⟨0, true⟩ : Spot).keeps stop Key.from.token = true := by
    have : Key.from.token ≠ .punct ')' := by decide
    simp [Spot.keeps, this]
  rw [Passes, Spot.run, if_pos (Spot.keeps_plain (by decide) hs _), hn, Spot.run, if_pos hk, hf]
  exact ht

theorem Spot.run_mono (h : p.run stop ts = some q) (hs : ∀ t, stop' t = true → stop t = true) :
    p.run stop' ts = some q := by
  induction ts generalizing p with
  | nil => exact h
  | cons t ts ih =>
    rw [Spot.run] at h
    split at h
    · rename_i hk
      have hk' : p.keeps stop' t = true := by
        simp only [Spot.keeps, Bool.or_eq_true, Bool.and_eq_true, Bool.not_eq_true'] at hk ⊢
        rcases hk with hk | ⟨hc, hk | hk⟩
        · exact .inl hk
        · have : stop' t = false := by
            by_contra hne
            rw [hs t (by simpa using hne)] at hk
            cases hk
          exact .inr ⟨hc, .inl this⟩
        · exact .inr ⟨hc, .inr hk⟩
      rw [Spot.run, if_pos hk']
      exact ih h
    · cases h

/-- What belongs to a part belongs to every part that fewer tokens end. -/
theorem Passes.mono (h : Passes stop ts) (hs : ∀ t, stop' t = true → stop t = true) :
    Passes stop' ts := Spot.run_mono h hs

theorem isPlain_of_ne (ho : t ≠ .punct '(') (hc : t ≠ .punct ')') : isPlain t = true := by
  cases t with
  | punct c =>
    simp only [isPlain, Bool.and_eq_true, bne_iff_ne]
    exact ⟨fun e => ho (by rw [e]), fun e => hc (by rw [e])⟩
  | _ => rfl

/-- In brackets nothing ends the part. -/
theorem Spot.run_inside {d e : Nat} {y : List Token}
    (h : upTo d (ts ++ .punct ')' :: y) = some (ts, y)) (held : Bool) :
    ∃ held', (⟨d + e + 1, held⟩ : Spot).run stop ts = some ⟨e + 1, held'⟩ := by
  induction ts generalizing d held with
  | nil =>
    cases d with
    | zero => exact ⟨held, by rw [Nat.zero_add, Spot.run]⟩
    | succ d =>
      rw [List.nil_append, upTo_close, Option.map_eq_some_iff] at h
      obtain ⟨_, _, he⟩ := h
      cases he
  | cons t ts ih =>
    have hk (held : Bool) : (⟨d + e + 1, held⟩ : Spot).keeps stop t = true := by
      simp [Spot.keeps]
    rw [List.cons_append] at h
    rw [Spot.run, if_pos (hk held)]
    by_cases ho : t = .punct '('
    · subst ho
      rw [upTo_open, Option.map_eq_some_iff] at h
      obtain ⟨⟨x, z⟩, hx, he⟩ := h
      cases he
      have := ih hx false
      rwa [Spot.next_open, show d + e + 1 + 1 = d + 1 + e + 1 by omega]
    · by_cases hc : t = .punct ')'
      · subst hc
        cases d with
        | zero => rw [upTo_end] at h; cases h
        | succ d =>
          rw [upTo_close, Option.map_eq_some_iff] at h
          obtain ⟨⟨x, z⟩, hx, he⟩ := h
          cases he
          rw [Spot.next_close, show d + 1 + e + 1 - 1 = d + e + 1 by omega]
          exact ih hx false
      · have hp := isPlain_of_ne ho hc
        rw [upTo_plain hp, Option.map_eq_some_iff] at h
        obtain ⟨⟨x, z⟩, hx, he⟩ := h
        cases he
        rw [Spot.next_plain hp]
        exact ih hx _

theorem Passes.bracketed (hs : stop (.punct '(') = false) (h : Closed ts) :
    Passes stop (bracketed ts) := by
  have hk : Spot.top.keeps stop (.punct '(') = true := by
    have : Token.punct '(' ≠ .punct ')' := by decide
    simp [Spot.keeps, hs, this]
  have hinside {e : Nat} : ∃ held, (⟨0 + e + 1, false⟩ : Spot).run stop ts = some ⟨e + 1, held⟩ :=
    Spot.run_inside (h.upTo []) false
  obtain ⟨held, hin⟩ := hinside (e := 0)
  rw [Passes, Pg.bracketed, Spot.run, if_pos hk, Spot.run_append,
    Spot.next_open, show Spot.top.depth + 1 = 0 + 0 + 1 from rfl, hin, Option.bind_some, Spot.run,
    if_pos (by simp [Spot.keeps]), Spot.next_close]
  rfl

/-- Brackets that belong to one part match. -/
theorem Spot.upTo_run {d : Nat} {held : Bool} (h : (⟨d, held⟩ : Spot).run stop ts = some .top)
    (y : List Token) : upTo d (ts ++ .punct ')' :: y) = some (ts, y) := by
  induction ts generalizing d held with
  | nil =>
    cases h
    exact upTo_end y
  | cons t ts ih =>
    rw [Spot.run] at h
    split at h
    · rename_i hk
      rw [List.cons_append]
      by_cases ho : t = .punct '('
      · subst ho
        rw [Spot.next_open] at h
        rw [upTo_open, ih h]
        rfl
      · by_cases hc : t = .punct ')'
        · subst hc
          cases d with
          | zero => simp [Spot.keeps] at hk
          | succ d =>
            rw [Spot.next_close, Nat.add_sub_cancel] at h
            rw [upTo_close, ih h]
            rfl
        · have hp := isPlain_of_ne ho hc
          rw [Spot.next_plain hp] at h
          rw [upTo_plain hp, ih h]
          rfl
    · cases h

theorem Passes.closed (h : Passes stop ts) : Closed ts := closed_of_upTo (Spot.upTo_run h [])

/-! ## The end of a part -/

theorem outside_append (h : p.run stop ts = some q) (r : List Token) :
    outside stop p (ts ++ r) = (ts ++ (outside stop q r).1, (outside stop q r).2) := by
  induction ts generalizing p with
  | nil => cases h; rfl
  | cons t ts ih =>
    rw [Spot.run] at h
    split at h
    · rename_i hk
      rw [List.cons_append, outside, if_pos hk, ih h]
      rfl
    · cases h

/-- The part goes on to the token that ends it. -/
theorem Passes.outside_cons (h : Passes stop ts) (ht : stop t = true) (r : List Token) :
    outside stop .top (ts ++ t :: r) = (ts, t :: r) := by
  have hk : ¬ Spot.top.keeps stop t = true := by simp [Spot.keeps, Spot.top, ht]
  rw [outside_append h, outside, if_neg hk, List.append_nil]

theorem Passes.outside_nil (h : Passes stop ts) : outside stop .top ts = (ts, []) := by
  have := outside_append h []
  rwa [List.append_nil, outside, List.append_nil] at this

/-! ## Terms between commas -/

def isComma (t : Token) : Bool := t == .punct ','

theorem terms_append (h : p.run isComma ts = some q) (r : List Token) :
    terms p (ts ++ r) = (terms q r).modifyHead (ts ++ ·) := by
  induction ts generalizing p with
  | nil =>
    cases h
    rw [List.nil_append]
    cases terms q r <;> rfl
  | cons t ts ih =>
    rw [Spot.run] at h
    split at h
    · rename_i hk
      have hc : ¬ (p.depth = 0 ∧ t = .punct ',') := by
        rintro ⟨hd, rfl⟩
        simp [Spot.keeps, hd, isComma, Token.key] at hk
      rw [List.cons_append, terms, if_neg hc, ih h]
      cases terms q r <;> rfl
    · cases h

/-- Terms with commas between them. -/
def csv : List (List Token) → List Token
  | [] => []
  | [ts] => ts
  | ts :: us :: l => ts ++ .punct ',' :: csv (us :: l)

/-- **Terms between commas are read back.** -/
theorem terms_csv {l : List (List Token)} (hne : l ≠ []) (h : ∀ ts ∈ l, Passes isComma ts) :
    terms .top (csv l) = l := by
  induction l with
  | nil => exact absurd rfl hne
  | cons ts l ih =>
    have hts := h ts (.head _)
    cases l with
    | nil =>
      have := terms_append hts []
      rwa [List.append_nil, terms, List.modifyHead_cons, List.append_nil] at this
    | cons us l =>
      rw [csv, terms_append hts, terms, if_pos ⟨rfl, rfl⟩,
        ih (List.cons_ne_nil _ _) fun y hy => h y (.tail _ hy), List.modifyHead_cons,
        List.append_nil]

/-- A list belongs to one part when its terms do. -/
theorem passes_csv {l : List (List Token)} (h : ∀ ts ∈ l, Passes stop ts)
    (hs : stop (.punct ',') = false) : Passes stop (csv l) := by
  induction l with
  | nil => exact .nil
  | cons ts l ih =>
    have hl := ih fun y hy => h y (.tail _ hy)
    cases l with
    | nil => exact h ts (.head _)
    | cons us l => exact (h ts (.head _)).append (hl.cons rfl hs (by decide))

/-! ## Clauses -/

theorem behind_tokens (ks : List Key) (ts : List Token) :
    behind ks (ks.map Key.token ++ ts) = some ts := by
  induction ks with
  | nil => rfl
  | cons k ks ih => rw [List.map_cons, List.cons_append, behind, key_token, if_pos rfl, ih]

/-- The clauses as tokens, each behind its head if it is there. -/
def clauseTokens (l : List (List Key × Option (List Token))) : List Token :=
  l.flatMap fun c => c.2.elim [] fun ts => c.1.map Key.token ++ ts

/-- Every clause that is there belongs to one part, which only the heads of later ones end. -/
def Separate : List (List Key × Option (List Token)) → Prop
  | [] => True
  | c :: l => (∀ ts, c.2 = some ts → Passes (startsOne (l.map Prod.fst)) ts) ∧ Separate l

/-- The heads start with different words. -/
def Headed (heads : List (List Key)) : Prop := (heads.map List.head?).Nodup ∧ [] ∉ heads

instance (heads : List (List Key)) : Decidable (Headed heads) := inferInstanceAs (Decidable (_ ∧ _))

theorem startsOne_head {heads : List (List Key)} {k : Key} {ks : List Key} (h : k :: ks ∈ heads) :
    startsOne heads k.token = true := by
  rw [startsOne, List.any_eq_true]
  exact ⟨_, h, by simp⟩

/-- What stands behind a clause is nothing, or starts with the head of a later one. -/
theorem clauseTokens_start (l : List (List Key × Option (List Token))) (hne : [] ∉ l.map Prod.fst) :
    clauseTokens l = [] ∨ ∃ k ks r, k :: ks ∈ l.map Prod.fst ∧ clauseTokens l = k.token :: r := by
  induction l with
  | nil => exact .inl rfl
  | cons c l ih =>
    simp only [List.map_cons, List.mem_cons, not_or] at hne
    obtain ⟨h, o⟩ := c
    cases o with
    | none =>
      rcases ih hne.2 with h0 | ⟨k, ks, r, hm, hr⟩
      · exact .inl h0
      · exact .inr ⟨k, ks, r, .tail _ hm, hr⟩
    | some ts =>
      obtain ⟨k, ks, rfl⟩ := List.exists_cons_of_ne_nil (Ne.symm hne.1)
      exact .inr ⟨k, ks, ks.map Key.token ++ ts ++ clauseTokens l, .head _, by simp [clauseTokens]⟩

/-- A clause that is not there is not read. -/
theorem behind_missing {h : List Key} {l : List (List Key × Option (List Token))}
    (hh : Headed (h :: l.map Prod.fst)) : behind h (clauseTokens l) = none := by
  obtain ⟨hnd, hne⟩ := hh
  simp only [List.map_cons, List.nodup_cons, List.mem_cons, not_or] at hnd hne
  obtain ⟨k, ks, rfl⟩ := List.exists_cons_of_ne_nil (Ne.symm hne.1)
  rcases clauseTokens_start l hne.2 with h0 | ⟨j, js, r, hm, hr⟩
  · rw [h0]
    rfl
  · have hjk : ¬ some j = some k := fun e =>
      hnd.1 (List.mem_map.2 ⟨_, hm, by rw [List.head?_cons, List.head?_cons, e]⟩)
    rw [hr, behind, key_token, if_neg hjk]

/-- **Clauses are read back**, with what each of them holds, and the missing ones as missing. -/
theorem readClauses_tokens {l : List (List Key × Option (List Token))}
    (hh : Headed (l.map Prod.fst)) (hs : Separate l) :
    readClauses (l.map Prod.fst) (clauseTokens l) = some (l.map Prod.snd) := by
  induction l with
  | nil => rfl
  | cons c l ih =>
    obtain ⟨h, o⟩ := c
    have hl : Headed (l.map Prod.fst) :=
      ⟨(List.nodup_cons.1 hh.1).2, fun hm => hh.2 (.tail _ hm)⟩
    cases o with
    | none =>
      have hskip : clauseTokens ((h, none) :: l) = clauseTokens l := rfl
      rw [List.map_cons, readClauses, hskip, behind_missing hh, ih hl hs.2]
      rfl
    | some ts =>
      have hpass := hs.1 ts rfl
      have hcut : outside (startsOne (l.map Prod.fst)) .top (ts ++ clauseTokens l) =
          (ts, clauseTokens l) := by
        rcases clauseTokens_start l hl.2 with h0 | ⟨k, ks, r, hm, hr⟩
        · rw [h0, List.append_nil]
          exact hpass.outside_nil
        · rw [hr]
          exact hpass.outside_cons (startsOne_head hm) r
      have hput : clauseTokens ((h, some ts) :: l) = h.map Key.token ++ (ts ++ clauseTokens l) := by
        simp [clauseTokens]
      simp only [List.map_cons, readClauses, hput, behind_tokens, hcut, ih hl hs.2]
      rfl

end

end Pg
