import WhileLang.Proofs.Lexeme.Segments
import WhileLang.Token.OfText

/-!
# Positions Are Settled by the Text

Whatever the table of rules is, a position that cutting a text comes up with
is the place behind what the text has in front of it. This is so for the place
of a lexeme, for the place of an error and for that of the mark at the end,
though the scanner moves its place on from lexeme to lexeme, also over those
that it leaves out, and the mark is counted over the whole text.

The scanner starts at the place behind nothing, and walking over a lexeme from
the place behind what is in front of it leads to the place behind both. So
lexemes are `Laid`, each where those before it end, and what is to be said of
one of them, or of two of them, follows without looking at the scanner again.

## Main definitions

* `Lexeme.Laid`: Lexemes one after the other, from behind a text on.
* `Lexeme.StandsIn`: A lexeme that is a piece of a text, where its span says.

## Theorems

* `Lexeme.laid_cut`: The scanner lays its lexemes.
* `Lexeme.Laid.standsIn`, `Lexeme.Laid.pairwise`: One laid lexeme, and two.
* `Lexeme.cut_eq_noMatchingRule`: The place of an error.
* `Lexeme.ofText_positions`: All positions of a text.
-/

namespace WhileLang

namespace Lexeme

/-- The lexemes follow one another from behind a text on, none of them empty. -/
def Laid : List Char → List Lexeme → Prop
  | _, [] => True
  | before, l :: ls =>
    l.text ≠ [] ∧ l.span = ⟨.behind before, (Utf8.encode (before ++ l.text)).length⟩ ∧
      Laid (before ++ l.text) ls

/-- The lexeme is a piece of the text, and the span is its own. -/
structure StandsIn (l : Lexeme) (cs : List Char) : Prop where
  /-- The span starts at a character, in whose line and column it is. -/
  start : ∃ before rest, before ++ (l.text ++ rest) = cs ∧ l.span.start = .behind before
  /-- There is something in the span. -/
  nonempty : l.span.start.offset < l.span.stop
  /-- What is in the span is the text of the lexeme. -/
  slice : ((Utf8.encode cs).take l.span.stop).drop l.span.start.offset = Utf8.encode l.text

variable {rules : List Rule} {before cs : List Char} {ls : List Lexeme} {l : Lexeme}

/-- The lexeme of a match has its text, and the place where it was found. -/
theorem text_span_ofMunch {place : Position} {m : Munch} (h : ofMunch rules place m = .ok l) :
    l.text = m.text ∧ l.span = ⟨place, (place.advance m.text).offset⟩ := by
  refine ⟨text_ofMunch h, ?_⟩
  rw [ofMunch] at h
  split at h
  · cases h
  · dsimp only [bind, Except.bind] at h
    split at h
    · cases h
    · split at h
      · cases h
      · rw [← Except.ok.inj h]

/-- The scanner lays its lexemes from the place on that it starts from. -/
theorem laid_cut {p : Pattern} {place : Position} (hplace : place = .behind before)
    (h : cut rules p place cs = .ok ls) : Laid before ls := by
  fun_induction cut rules p place cs generalizing before ls with
  | case1 =>
      rw [← Except.ok.inj h]
      trivial
  | case2 => cases h
  | case3 => cases h
  | case4 place c cs m hm ih =>
      cases ho : ofMunch rules place m with
      | error e => simp [ho, bind, Except.bind] at h
      | ok l =>
          cases hr : cut rules p (place.advance m.text) m.rest with
          | error e => simp [ho, hr, bind, Except.bind] at h
          | ok ms =>
              simp only [ho, hr, bind, Except.bind, pure, Except.pure, Except.ok.injEq] at h
              rcases text_span_ofMunch ho with ⟨htext, hspan⟩
              have hnext : place.advance m.text = .behind (before ++ m.text) := by
                rw [hplace, Position.advance_behind]
              rw [← h]
              refine ⟨htext ▸ Pattern.text_ne_nil hm, ?_, htext ▸ ih hnext hr⟩
              rw [hspan, hnext, hplace, htext]
              rfl

/-- A laid lexeme stands behind some of the texts of the others. -/
theorem Laid.exists_before (h : Laid before ls) (hl : l ∈ ls) :
    ∃ front rest, front ++ (l.text ++ rest) = ls.flatMap text ∧ l.text ≠ [] ∧
      l.span = ⟨.behind (before ++ front), (Utf8.encode (before ++ front ++ l.text)).length⟩ := by
  induction ls generalizing before with
  | nil => cases hl
  | cons m ls ih =>
      rcases h with ⟨hne, hspan, hls⟩
      rcases List.mem_cons.mp hl with rfl | hl
      · refine ⟨[], ls.flatMap text, List.flatMap_cons.symm, hne, ?_⟩
        rw [hspan, List.append_nil]
      · rcases ih hls hl with ⟨front, rest, htext, hne', hspan'⟩
        refine ⟨m.text ++ front, rest, ?_, hne', ?_⟩
        · rw [List.append_assoc, htext, List.flatMap_cons]
        · rw [hspan', List.append_assoc before]

/-- A laid lexeme stands in the text that the lexemes make up. -/
theorem Laid.standsIn (h : Laid [] ls) (hl : l ∈ ls) : l.StandsIn (ls.flatMap text) := by
  rcases h.exists_before hl with ⟨front, rest, htext, hne, hspan⟩
  rw [List.nil_append] at hspan
  have hsize : (Utf8.encode (front ++ l.text)).length
      = (Utf8.encode front).length + (Utf8.encode l.text).length := by
    rw [Utf8.encode_append, List.length_append]
  constructor
  · exact ⟨front, rest, htext, by rw [hspan]⟩
  · rcases List.exists_cons_of_ne_nil hne with ⟨c, t, hct⟩
    have hpos : 0 < (Utf8.encode l.text).length := by
      rw [hct, Utf8.length_encode_cons]
      exact Nat.add_pos_left c.utf8Size_pos _
    rw [hspan, hsize]
    exact Nat.lt_add_of_pos_right hpos
  · have hbytes : Utf8.encode (ls.flatMap text)
        = Utf8.encode (front ++ l.text) ++ Utf8.encode rest := by
      rw [← htext, ← List.append_assoc, Utf8.encode_append]
    rw [hspan, hbytes, List.take_left, Utf8.encode_append]
    exact List.drop_left

/-- A laid lexeme ends before those behind it start. -/
theorem Laid.pairwise (h : Laid before ls) :
    ls.Pairwise fun l m => l.span.stop ≤ m.span.start.offset := by
  induction ls generalizing before with
  | nil => exact List.Pairwise.nil
  | cons l ls ih =>
      rcases h with ⟨-, hspan, hls⟩
      refine List.pairwise_cons.mpr ⟨fun m hm => ?_, ih hls⟩
      rcases hls.exists_before hm with ⟨front, rest, -, -, hspan'⟩
      rw [hspan, hspan']
      change (Utf8.encode (before ++ l.text)).length
        ≤ (Utf8.encode (before ++ l.text ++ front)).length
      rw [Utf8.encode_append (before ++ l.text), List.length_append]
      exact Nat.le_add_right _ _

/-- A match that is no lexeme is another error than that there is no match. -/
theorem ofMunch_ne_noMatchingRule {place place' : Position} {m : Munch} {c : Char} :
    ofMunch rules place m ≠ .error (.noMatchingRule c place') := by
  intro h
  rw [ofMunch] at h
  split at h
  · cases h
  · dsimp only [bind, Except.bind] at h
    split at h
    · cases h
    · split at h <;> cases h

/-- Where no rule matches, the scanner names the character and the place that it has come to. -/
theorem cut_eq_noMatchingRule {p : Pattern} {place place' : Position} {c : Char}
    (hplace : place = .behind before)
    (h : cut rules p place cs = .error (.noMatchingRule c place')) :
    ∃ front rest, front ++ c :: rest = cs ∧ place' = .behind (before ++ front) := by
  fun_induction cut rules p place cs generalizing before with
  | case1 => cases h
  | case2 => cases h
  | case3 place d cs hm =>
      cases h
      exact ⟨[], cs, rfl, by rw [hplace, List.append_nil]⟩
  | case4 place d cs m hm ih =>
      cases ho : ofMunch rules place m with
      | error e =>
          simp only [ho, bind, Except.bind, Except.error.injEq] at h
          rw [h] at ho
          exact absurd ho ofMunch_ne_noMatchingRule
      | ok l =>
          cases hr : cut rules p (place.advance m.text) m.rest with
          | ok ms => simp [ho, hr, bind, Except.bind, pure, Except.pure] at h
          | error e =>
              simp only [ho, hr, bind, Except.bind, Except.error.injEq] at h
              have hnext : place.advance m.text = .behind (before ++ m.text) := by
                rw [hplace, Position.advance_behind]
              rcases ih hnext (h ▸ hr) with ⟨front, rest, hrest, hplace'⟩
              refine ⟨m.text ++ front, rest, ?_, ?_⟩
              · rw [List.append_assoc, hrest, Pattern.text_append_rest hm]
              · rw [hplace', List.append_assoc]

/-- The places of the lexemes of a text, of an error where no rule matches, and of the mark at the
    end of its tokens are those behind what is in front of them. -/
theorem ofText_positions (rules : List Rule) (cs : List Char) :
    (∀ ls, ofText rules cs = .ok ls →
      (∀ l ∈ ls, l.StandsIn cs) ∧ ls.Pairwise fun l m => l.span.stop ≤ m.span.start.offset) ∧
    (∀ c place, ofText rules cs = .error (.noMatchingRule c place) →
      ∃ front rest, front ++ c :: rest = cs ∧ place = .behind front) ∧
    ∀ ts, Token.ofText cs = .ok ts →
      ∃ us, ts = us ++ [⟨.eof, ⟨.behind cs, (Utf8.encode cs).length⟩⟩] := by
  have hcuts := ofText_eq_map_cut rules cs
  have horigin : Position.origin = .behind [] := rfl
  refine ⟨fun ls hls => ?_, fun c place herror => ?_, fun ts hts => ?_⟩
  · cases hcut : cut rules (Rule.combine rules) .origin cs with
    | error e =>
        rw [hcuts, hcut] at hls
        cases hls
    | ok all =>
        rw [hcuts, hcut] at hls
        cases hls
        have hlaid := laid_cut horigin hcut
        rw [← flatMap_text_cut hcut]
        -- Leaving out lexemes moves none of the others.
        exact ⟨fun l hl => hlaid.standsIn (List.mem_filter.mp hl).1, hlaid.pairwise.filter _⟩
  · cases hcut : cut rules (Rule.combine rules) .origin cs with
    | ok all =>
        rw [hcuts, hcut] at herror
        cases herror
    | error e =>
        rw [hcuts, hcut] at herror
        cases herror
        exact cut_eq_noMatchingRule horigin hcut
  · rcases Token.ofText_eq_ok.mp hts with ⟨ls, us, -, -, rfl⟩
    exact ⟨us, rfl⟩

/-- Words of two letters, and whatever is between them but exclamation marks. -/
def wordRules : List Rule :=
  [⟨"word", .plus (.anyOf ['a', 'b']), false⟩, ⟨"gap", .plus (.anyBut ['a', 'b', '!']), true⟩]

/-- Words behind gaps with a line feed and with characters of more than one byte in them, a
    character that no rule matches, and the mark behind a string literal on the second line. -/
theorem ofText_positions_of_lines :
    (∃ ls, ofText wordRules "é✓\né ab✓b".toList = .ok ls ∧
      ls.map span = [⟨⟨9, 2, 3⟩, 11⟩, ⟨⟨14, 2, 6⟩, 15⟩] ∧
      (∀ l ∈ ls, l.StandsIn "é✓\né ab✓b".toList) ∧
      ls.Pairwise fun l m => l.span.stop ≤ m.span.start.offset) ∧
    (ofText wordRules "é\na!".toList = .error (.noMatchingRule '!' ⟨4, 2, 2⟩) ∧
      ∃ front rest, front ++ '!' :: rest = "é\na!".toList ∧ ⟨4, 2, 2⟩ = Position.behind front) ∧
    ∃ ts us, Token.ofText "x\n\"é\"".toList = .ok ts ∧
      ts = us ++ [⟨.eof, ⟨.behind "x\n\"é\"".toList, 6⟩⟩] := by
  have hlexemes : ∃ ls, ofText wordRules "é✓\né ab✓b".toList = .ok ls ∧
      ls.map span = [⟨⟨9, 2, 3⟩, 11⟩, ⟨⟨14, 2, 6⟩, 15⟩] :=
    ⟨_, by with_unfolding_all rfl, rfl⟩
  have herror : ofText wordRules "é\na!".toList = .error (.noMatchingRule '!' ⟨4, 2, 2⟩) := by
    with_unfolding_all rfl
  have htokens : ∃ ts, Token.ofText "x\n\"é\"".toList = .ok ts := ⟨_, by with_unfolding_all rfl⟩
  rcases hlexemes with ⟨ls, hls, hspans⟩
  rcases htokens with ⟨ts, hts⟩
  rcases (ofText_positions wordRules _).2.2 ts hts with ⟨us, hus⟩
  exact ⟨⟨ls, hls, hspans, (ofText_positions wordRules _).1 ls hls⟩,
    ⟨herror, (ofText_positions wordRules _).2.1 _ _ herror⟩, ts, us, hts, hus⟩

end Lexeme

end WhileLang
