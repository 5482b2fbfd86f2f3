import IronQuery.Pg.Proof.Lexemes
import IronQuery.Pg.Tokens

/-!
# Texts that end

`Ended x`: no token of `x` is still open at its end, so that a text set off behind it is read on its
own. Such texts compose: in brackets, behind a constant, and with a constant between them.
-/

namespace Pg

/-- A text set off behind `x` is read on its own: no quote and no comment of `x` is open. -/
def Ended (x : Text) : Prop := ∀ r, leads r = true → lex (x ++ r) = lex x ++ lex r

section
variable {x y c : Text} {ts : List Token}

theorem Reads.ended (h : Reads lex x ts) : Ended x := fun r hr => by
  have hs := stop_of_leads hr []
  rw [List.append_nil] at hs
  rw [h r hs.1 hs.2, h.view_eq rfl]

theorem Opens.ended (h : Opens lex c ts) (hx : Ended x) : Ended (c ++ x) := fun r hr => by
  rw [List.append_assoc, h, hx r hr, h, List.append_assoc]

/-- Between two operands. -/
theorem Ended.infix (hx : Ended x) (hl : ∀ r, leads (c ++ r) = true) (h : Opens lex c ts) :
    lex (x ++ (c ++ y)) = lex x ++ (ts ++ lex y) := by
  rw [hx _ (hl y), h]

theorem Ended.infix_ended (hx : Ended x) (hl : ∀ r, leads (c ++ r) = true) (h : Opens lex c ts)
    (hy : Ended y) : Ended (x ++ (c ++ y)) := fun r hr => by
  rw [List.append_assoc, List.append_assoc, hx _ (hl _), h, hy r hr, hx.infix hl h]
  simp only [List.append_assoc]

theorem Ended.lex_paren (hx : Ended x) : lex ('(' :: (x ++ [')'])) = bracketed (lex x) := by
  have hopen : Opens lex ['('] [.punct '('] := opens_const (by decide) (by decide)
  have := hopen (x ++ [')'])
  rw [hx _ (by decide), show lex [')'] = [.punct ')'] by decide] at this
  exact this

theorem Ended.paren (hx : Ended x) : Ended ('(' :: (x ++ [')'])) := fun r _ => by
  have hopen : Opens lex ['('] [.punct '('] := opens_const (by decide) (by decide)
  have hclose : Opens lex [')'] [.punct ')'] := opens_const (by decide) (by decide)
  have := hopen (x ++ ')' :: r)
  rw [hx _ rfl, show lex (')' :: r) = [.punct ')'] ++ lex r from hclose r] at this
  rw [hx.lex_paren, bracketed, List.cons_append, List.append_assoc, List.cons_append]
  simpa using this

end

end Pg
