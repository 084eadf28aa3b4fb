import WhileLang.Lexeme.Basic
import WhileLang.Lexeme.Longest
import WhileLang.Value.Traversal

/-!
# Cutting a Text into Lexemes

At each place the longest match of any rule is the next lexeme, and the scan
goes on behind it until the text is used up. The rule is read off the value
of the match, which leads through the sides of the choice to the name.

## Main definitions

* `Value.ruleName`: The rule that a match came from, and its own value.
* `Lexeme.cut`: All lexemes from a place on, skipped ones included.
* `Lexeme.ofText`: The lexemes of a text that are not skipped.

## Theorems

* `Lexeme.flatMap_text_cut`: The lexemes make up the text.
-/

namespace WhileLang

/-- The rule that a match of a table came from, and the value of its own pattern. -/
def Value.ruleName : Value → Except Mismatch (String × Value)
  | .left v | .right v => v.ruleName
  | .tagged name v => .ok (name, v)
  | other => .error (.shape .taggedRule other)

namespace Lexeme

/-- The lexeme that a match at a place stands for. -/
def ofMunch (rules : List Rule) (place : Position) (m : Munch) : Except LexError Lexeme := do
  match m.value.ruleName with
  | .error e => throw (.mismatch e)
  | .ok (name, value) =>
    -- A value of another text than the one it was built for would be an error of the matcher.
    if value.flatten ≠ m.text then throw (.mismatch (.shape .matchedText value))
    match rules.find? (·.name = name) with
    | none => throw (.unknownRule name)
    | some rule =>
      return { rule := name
               text := m.text
               span := ⟨place, (place.advance m.text).offset⟩
               isSkipped := rule.isSkipped }

/-- The lexemes of a text that begins at the place, with those that are skipped. The pattern is
    that of all rules together. -/
def cut (rules : List Rule) (p : Pattern) (place : Position) (cs : List Char) :
    Except LexError (List Lexeme) :=
  match cs with
  | [] => .ok []
  | c :: cs =>
    match _h : p.longest (c :: cs) with
    | .error e => .error (.mismatch e)
    | .ok none => .error (.noMatchingRule c place)
    -- The match is not empty, so what is left to cut is shorter.
    | .ok (some m) => do
      let lexeme ← ofMunch rules place m
      return lexeme :: (← cut rules p (place.advance m.text) m.rest)
termination_by cs.length
decreasing_by exact Pattern.length_rest_lt _h

/-- The lexemes of a text that are not skipped. -/
def ofText (rules : List Rule) (cs : List Char) : Except LexError (List Lexeme) := do
  return (← cut rules (Rule.combine rules) .origin cs).filter (!·.isSkipped)

theorem text_ofMunch {rules : List Rule} {place : Position} {m : Munch} {l : Lexeme}
    (h : ofMunch rules place m = .ok l) : l.text = m.text := by
  rw [ofMunch] at h
  split at h
  · simp [throw, throwThe, MonadExceptOf.throw] at h
  · dsimp only [bind, Except.bind] at h
    split at h
    · simp [throw, throwThe, MonadExceptOf.throw] at h
    · split at h
      · simp [throw, throwThe, MonadExceptOf.throw] at h
      · rw [← Except.ok.inj h]

/-- The lexemes of a text make up the text. -/
theorem flatMap_text_cut {rules : List Rule} {p : Pattern} {place : Position} {cs : List Char}
    {ls : List Lexeme} (h : cut rules p place cs = .ok ls) : ls.flatMap text = cs := by
  fun_induction cut rules p place cs generalizing ls with
  | case1 => rw [← Except.ok.inj h, List.flatMap_nil]
  | case2 => simp at h
  | case3 => simp at h
  | case4 place c cs m hm ih =>
    cases ho : ofMunch rules place m with
    | error e => simp [ho, bind, Except.bind] at h
    | ok l =>
      -- The lexeme has the text of the match, and the others make up the rest.
      cases hr : cut rules p (place.advance m.text) m.rest with
      | error e => simp [ho, hr, bind, Except.bind] at h
      | ok ms =>
        simp only [ho, hr, bind, Except.bind, pure, Except.pure, Except.ok.injEq] at h
        rw [← h, List.flatMap_cons, ih hr, text_ofMunch ho, Pattern.text_append_rest hm]

end Lexeme

end WhileLang
