import IronQuery.Proof.Names

/-!
# Literals and quoted identifiers are a codec

`quoted_codec`: `Literal` and `Ident` reject exactly the values with a NUL byte, and the text of any
other is scanned back as that value, whatever follows it that is not the same quote; so no two
values have one text.
-/

namespace IronQuery

open Pg

/-- A quoted token at the start of a text: its value, and what follows it. -/
def scanToken (q : Char) : Text → Option (Text × Text)
  | [] => none
  | c :: s => if c = q then scanQuoted q s else none

/-- Values that are rendered between quotes `q`; `rejected` are the exceptions that a value with a
NUL byte is rejected with. -/
structure QuotedCodec (q : Char) (rejected : Exception → Prop) (make : Text → Result Expr) :
    Prop where
  rejects : ∀ v, (∃ x, make v = .error x ∧ rejected x) ↔ '\x00' ∈ v
  accepts : ∀ v, (∃ e, make v = .ok e) ↔ '\x00' ∉ v
  scans : ∀ v e t, make v = .ok e → t.head? ≠ some q → scanToken q (e.toString ++ t) = some (v, t)
  injective : ∀ v v' e e', make v = .ok e → make v' = .ok e' → e.toString = e'.toString → v = v'

def Exception.isInvalidLiteral : Exception → Prop
  | .invalidLiteral _ => True
  | _ => False

def Exception.isInvalidIdentifier : Exception → Prop
  | .invalidIdentifier _ => True
  | _ => False

/-- A function that rejects a NUL byte and quotes the rest is a codec. -/
theorem QuotedCodec.of_quote {q : Char} {rejected : Exception → Prop} {make : Text → Result Expr}
    {x : Exception} (hx : rejected x) (hbad : ∀ v, '\x00' ∈ v → make v = .error x)
    (hgood : ∀ v, '\x00' ∉ v → make v = .ok (.fromRaw (quote q v))) :
    QuotedCodec q rejected make := by
  have hok {v : Text} {e : Expr} (h : make v = .ok e) : e.toString = quote q v := by
    by_cases hv : '\x00' ∈ v
    · rw [hbad v hv] at h
      cases h
    · rw [hgood v hv] at h
      cases h
      rfl
  have hscan (v : Text) (e : Expr) (t : Text) (h : make v = .ok e) (ht : t.head? ≠ some q) :
      scanToken q (e.toString ++ t) = some (v, t) := by
    rw [hok h, quote, List.cons_append, List.append_assoc, scanToken, if_pos rfl]
    exact scanQuoted_escape ht v
  refine ⟨fun v => ?_, fun v => ?_, hscan, fun v v' e e' h h' he => ?_⟩
  · by_cases hv : '\x00' ∈ v
    · exact iff_of_true ⟨x, hbad v hv, hx⟩ hv
    · rw [hgood v hv]
      exact iff_of_false (by rintro ⟨_, h, _⟩; cases h) hv
  · by_cases hv : '\x00' ∈ v
    · rw [hbad v hv]
      exact iff_of_false (by rintro ⟨_, h⟩; cases h) (not_not_intro hv)
    · exact iff_of_true ⟨_, hgood v hv⟩ hv
  · have hv := hscan v e [] h (by simp)
    rw [he, hscan v' e' [] h' (by simp)] at hv
    cases hv
    rfl

/-- **Escaping is an exact codec**, for literals and for identifiers. -/
theorem quoted_codec : QuotedCodec '\'' Exception.isInvalidLiteral Expr.literal ∧
    QuotedCodec '"' Exception.isInvalidIdentifier Expr.ident := by
  have hnul (v : Text) : v.contains '\x00' = true ↔ '\x00' ∈ v := List.contains_iff_mem
  constructor
  · refine .of_quote (x := .invalidLiteral "string literal must not contain NUL bytes".toList)
      trivial (fun v hv => ?_) fun v hv => ?_
    · rw [Expr.literal, if_pos ((hnul v).2 hv)]
    · rw [Expr.literal, if_neg (mt (hnul v).1 hv), escaped_eq]
  · refine .of_quote (x := .invalidIdentifier "<identifier containing a NUL byte>".toList)
      trivial (fun v hv => ?_) fun v hv => ?_
    · rw [Expr.ident, if_pos ((hnul v).2 hv)]
    · rw [Expr.ident, if_neg (mt (hnul v).1 hv), escaped_eq]

example : scanToken '\'' "'a''b\\' || c".toList = some ("a'b\\".toList, " || c".toList) := by decide

end IronQuery
