import Mathlib.Data.List.Forall2
import WhileLang.Proofs.Token.Written

/-!
# Tokens Line by Line

Reading tokens goes line by line: what is read in a line, and whether anything
is, does not depend on the lines around it. Each line can be read as a text of
its own, and its tokens only have to be moved to where the line is.

This is not how the scanner works. It looks at all that is left of the text at
once, and blanks are one lexeme over as many lines as they fill. But all other
lexemes stay in their lines: no rule but that for blanks matches a text with a
line feed in it, so a longest match never depends on what is behind the line.
The line feed itself may be passed by on its own, and so may the blanks around
it, one by one, since no tokens come from them. A scan up to a line feed is
thus the scan of the text in front of it (`scan?_append_newline`).

The places are those behind the texts in front. Where a line begins, the
column is one, so the columns of its tokens are the same as without the lines
before it, which settle the line number and add to the offsets
(`scan?_append`).

## Main definitions

* `Token.scan?`: The tokens of a text behind another one.
* `Token.onLine`: A token of a line, with the line in its place.
* `Token.onLines`, `Token.lastMark`: The tokens of lines, and the mark behind them.

## Theorems

* `Token.scan?_append_newline`: A line feed cuts a scan in two.
* `Token.scan?_append`: A scan behind other lines.
* `Token.ofText_lines`: The tokens of a text are those of its lines.
-/

namespace WhileLang

namespace Token

open LexemeKind

/-- The tokens of two texts, one behind the other. -/
def joined? (us vs : Option (List Token)) : Option (List Token) :=
  us.bind fun us => vs.map (us ++ ·)

/-- The tokens of a segment behind a text: none if it is skipped, and otherwise one. -/
def ofSegment? (before u : List Char) (r : Rule) : Option (List Token) :=
  if r.isSkipped then some []
  else
    let span : Span := ⟨.behind before, (Utf8.encode (before ++ u)).length⟩
    (TokenKind.ofLexeme ⟨r.name, u, span, r.isSkipped⟩).toOption.map fun k => [⟨k, span⟩]

/-- The tokens of a text behind another one, if it has any. -/
def scan? (before cs : List Char) : Option (List Token) :=
  (Lexeme.segments rules before cs).toOption.bind fun ls =>
    ((ls.filter (!·.isSkipped)).mapM ofLexeme).toOption

/-- A token of a line by itself, as it is with the line in its place. -/
def onLine (number start : Nat) (t : Token) : Token :=
  ⟨t.kind, ⟨⟨start + t.span.start.offset, number, t.span.start.column⟩, start + t.span.stop⟩⟩

/-- Where a line starts: behind the bytes of those before it, each with its line feed. -/
def lineStart (lines : List (List Char)) (i : Nat) : Nat :=
  (Utf8.encode ((lines.take i).flatMap (· ++ ['\n']))).length

/-- The tokens of lines that follow one another, from a line number and a byte offset on. -/
def onLines (number start : Nat) (lines : List (List Char)) (tss : List (List Token)) :
    List Token :=
  (tss.mapIdx fun i us => us.map (onLine (number + i) (start + lineStart lines i))).flatten

/-- The mark behind the last one of such lines. -/
def lastMark (number start : Nat) (lines : List (List Char)) (hne : lines ≠ []) : Token :=
  onLine (number + (lines.length - 1)) (start + lineStart lines (lines.length - 1))
    (eof (lines.getLast hne))

section Joined

variable {us vs ws : Option (List Token)}

theorem some_nil_joined? : joined? (some []) vs = vs :=
  Option.map_id'

theorem joined?_assoc : joined? (joined? us vs) ws = joined? us (joined? vs ws) := by
  cases us with
  | none => rfl
  | some us =>
      cases vs with
      | none => rfl
      | some vs =>
          cases ws with
          | none => rfl
          | some ws => exact congrArg some (List.append_assoc us vs ws)

theorem map_joined? (f : Token → Token) :
    (joined? us vs).map (List.map f) = joined? (us.map (List.map f)) (vs.map (List.map f)) := by
  cases us with
  | none => rfl
  | some us =>
      cases vs with
      | none => rfl
      | some vs => exact congrArg some List.map_append

theorem joined?_eq_some {ts : List Token} :
    joined? us vs = some ts ↔ ∃ as bs, us = some as ∧ vs = some bs ∧ as ++ bs = ts := by
  cases us <;> cases vs <;> simp [joined?]

end Joined

variable {before bs cs l rest u t v : List Char} {r : Rule} {start number : Nat} {c : Char}

theorem scan?_nil : scan? before [] = some [] := by
  rw [scan?, Lexeme.segments]
  rfl

theorem scan?_of_segment?_eq_none (h : Lexeme.segment? rules (c :: cs) = none) :
    scan? before (c :: cs) = none := by
  rw [scan?, Lexeme.segments]
  split
  · rfl
  · next hsome => cases h.symm.trans hsome

theorem toOption_mapM_cons (l : Lexeme) (ls : List Lexeme) :
    ((l :: ls).mapM ofLexeme).toOption =
      joined? ((TokenKind.ofLexeme l).toOption.map fun k => [⟨k, l.span⟩])
        (ls.mapM ofLexeme).toOption := by
  rw [List.mapM_cons, ofLexeme]
  cases TokenKind.ofLexeme l with
  | error e => rfl
  | ok t => cases ls.mapM ofLexeme <;> rfl

/-- The tokens begin with those of the first segment. -/
theorem scan?_of_segment? (h : Lexeme.segment? rules cs = some (r, u, t)) :
    scan? before cs = joined? (ofSegment? before u r) (scan? (before ++ u) t) := by
  rw [scan?, Lexeme.segments_of_segment? h, ofSegment?, scan?]
  cases Lexeme.segments rules (before ++ u) t with
  | error e => exact (Option.bind_fun_none _).symm
  | ok ls =>
      simp only [Except.map, Except.toOption, Option.bind_some]
      by_cases hr : r.isSkipped = true
      · rw [List.filter_cons_of_neg (by simpa using hr), if_pos hr, some_nil_joined?]
      · rw [List.filter_cons_of_pos (by simpa using hr), if_neg hr]
        exact toOption_mapM_cons _ _

/-- Tokens of a text are scanned from its beginning, and the mark follows them. -/
theorem ofText_eq_ok_iff_scan? {ts : List Token} :
    ofText cs = .ok ts ↔ ∃ us, scan? [] cs = some us ∧ us ++ [eof cs] = ts := by
  have hscan : ∀ us, scan? [] cs = some us ↔
      ∃ ls, Lexeme.ofText rules cs = .ok ls ∧ ls.mapM ofLexeme = .ok us := by
    intro us
    rw [lexemes_eq_segments, scan?]
    cases Lexeme.segments rules [] cs with
    | error e => simp [Except.map, Except.toOption]
    | ok ls =>
        cases h : (ls.filter (!·.isSkipped)).mapM ofLexeme <;>
          simp [h, Except.map, Except.toOption]
  rw [ofText_eq_ok]
  constructor
  · rintro ⟨ls, us, hls, hus, rfl⟩
    exact ⟨us, (hscan us).mpr ⟨ls, hls, hus⟩, rfl⟩
  · rintro ⟨us, hus, rfl⟩
    rcases (hscan us).mp hus with ⟨ls, hls, hmap⟩
    exact ⟨ls, us, hls, hmap, rfl⟩

/-- Blanks in front of a text that does not begin with one are passed by at once. -/
theorem scan?_blanks (before : List Char) (hbs : ∀ c ∈ bs, c ∈ blanks)
    (hcs : ∀ c ∈ cs.head?, c ∉ blanks) :
    scan? before (bs ++ cs) = scan? (before ++ bs) cs := by
  by_cases hne : bs = []
  · rw [hne, List.append_nil, List.nil_append]
  · have hspells : Spells .whitespace bs := ⟨hne, hbs⟩
    have hsegment :
        Lexeme.segment? rules (bs ++ cs) = some (LexemeKind.whitespace.rule, bs, cs) := by
      refine Lexeme.segment?_append hne (winner?_of_spells hspells nofun) fun w x hw hwx => ?_
      rcases List.exists_cons_of_ne_nil hw with ⟨c, w, rfl⟩
      exact winner?_eq_none (not_spells_blanks_append hne hbs (hcs c (by rw [← hwx]; rfl)))
    rw [scan?_of_segment? hsegment]
    exact some_nil_joined?

/-- So is a blank in front of any text. -/
theorem scan?_blank (hc : c ∈ blanks) : scan? before (c :: cs) = scan? (before ++ [c]) cs := by
  have htake : ∀ d ∈ cs.takeWhile (· ∈ blanks), d ∈ blanks := by
    intro d hd
    exact of_decide_eq_true (List.all_eq_true.mp List.all_takeWhile d hd)
  have hdrop : ∀ d ∈ (cs.dropWhile (· ∈ blanks)).head?, d ∉ blanks := by
    intro d hd hblank
    have h := List.head?_dropWhile_not (· ∈ blanks) cs
    rw [Option.mem_def.mp hd] at h
    exact of_decide_eq_false h hblank
  have hall := scan?_blanks before (List.forall_mem_cons.mpr ⟨hc, htake⟩) hdrop
  have hrest := scan?_blanks (before ++ [c]) htake hdrop
  rw [List.cons_append, List.takeWhile_append_dropWhile] at hall
  rw [List.takeWhile_append_dropWhile, List.append_assoc, List.singleton_append] at hrest
  rw [hall, hrest]

/-- No lexeme goes on over a line feed, unless it begins with a blank. -/
theorem segment?_append_newline (hc : c ∉ blanks) (l rest : List Char) :
    Lexeme.segment? rules (c :: l ++ '\n' :: rest) =
      (Lexeme.segment? rules (c :: l)).map fun (r, u, t) => (r, u, t ++ '\n' :: rest) := by
  refine Lexeme.segment?_append_right fun w y hw hwy => winner?_eq_none fun k hk => hc ?_
  rcases List.exists_cons_of_ne_nil hw with ⟨d, w, rfl⟩
  rw [(List.cons.inj hwy).1] at hk
  cases eq_whitespace_of_newline hk (by simp)
  exact hk.2 c List.mem_cons_self

/-- What is in front of a line feed is scanned as if it was all, and then what is behind it. -/
theorem scan?_append_newline (before l rest : List Char) :
    scan? before (l ++ '\n' :: rest) =
      joined? (scan? before l) (scan? (before ++ l ++ ['\n']) rest) := by
  cases l with
  | nil =>
      have hbreak : '\n' ∈ blanks := by decide
      rw [List.nil_append, scan?_blank hbreak, scan?_nil, List.append_nil, some_nil_joined?]
  | cons c l =>
      by_cases hc : c ∈ blanks
      -- Blanks before the line feed make up one lexeme with it, so they are passed by one by one.
      · rw [List.cons_append, scan?_blank hc, scan?_blank hc,
          scan?_append_newline (before ++ [c]) l, ← List.append_cons]
      · have hsegment := segment?_append_newline hc l rest
        cases h : Lexeme.segment? rules (c :: l) with
        | none =>
            rw [h] at hsegment
            rw [scan?_of_segment?_eq_none h]
            exact scan?_of_segment?_eq_none hsegment
        | some found =>
            rcases found with ⟨r, u, t⟩
            rw [h] at hsegment
            have hut : before ++ c :: l = before ++ u ++ t := by
              rw [List.append_assoc, (Lexeme.segment?_eq_some h).1]
            rw [scan?_of_segment? h, scan?_of_segment? hsegment, scan?_append_newline _ t,
              joined?_assoc, hut]
termination_by l.length
decreasing_by
  · exact Nat.lt_succ_self _
  · exact Lexeme.length_lt_of_segment? h

/-- Whether a lexeme stands for a token, and for which, does not depend on its place. -/
theorem toOption_ofLexeme_congr {l m : Lexeme} (hrule : l.rule = m.rule) (htext : l.text = m.text) :
    (TokenKind.ofLexeme l).toOption = (TokenKind.ofLexeme m).toOption := by
  rw [TokenKind.ofLexeme, TokenKind.ofLexeme, hrule, htext]
  cases ofName? m.rule with
  | none => rfl
  | some k =>
      cases k with
      | number => cases Decimal.readInt32? m.text <;> rfl
      | _ => rfl

/-- A segment in a line that begins behind a text. -/
theorem ofSegment?_append (hbefore : Position.behind before = ⟨start, number, 1⟩)
    (hv : '\n' ∉ v) (u : List Char) (r : Rule) :
    ofSegment? (before ++ v) u r = (ofSegment? v u r).map (List.map (onLine number start)) := by
  have hstart : (Utf8.encode before).length = start := congrArg Position.offset hbefore
  rw [ofSegment?, ofSegment?]
  by_cases hr : r.isSkipped = true
  · rw [if_pos hr, if_pos hr]
    rfl
  · have hplace := Position.behind_append_of_not_mem hbefore hv
    have hstop : (Utf8.encode (before ++ v ++ u)).length
        = start + (Utf8.encode (v ++ u)).length := by
      rw [List.append_assoc, Utf8.encode_append, List.length_append, hstart]
    rw [if_neg hr, if_neg hr, Option.map_map, hplace, hstop]
    exact congrArg (Option.map _) (toOption_ofLexeme_congr rfl rfl)

/-- The rest of a line that begins behind a text is scanned as if it was the first one. -/
theorem scan?_append (hbefore : Position.behind before = ⟨start, number, 1⟩)
    (hline : '\n' ∉ v ++ cs) :
    scan? (before ++ v) cs = (scan? v cs).map (List.map (onLine number start)) := by
  fun_induction Lexeme.segments rules v cs with
  | case1 v => rw [scan?_nil, scan?_nil]; rfl
  | case2 v c cs hnone =>
      rw [scan?_of_segment?_eq_none hnone, scan?_of_segment?_eq_none hnone]
      rfl
  | case3 v c cs r u t hsome ih =>
      rcases Lexeme.segment?_eq_some hsome with ⟨hut, -⟩
      rw [← hut, ← List.append_assoc] at hline
      have hv : '\n' ∉ v := fun h => hline (by simp [h])
      rw [scan?_of_segment? hsome, scan?_of_segment? hsome, map_joined?,
        ofSegment?_append hbefore hv, List.append_assoc, ih hline]

/-- A whole line behind other lines. -/
theorem scan?_line (hbefore : Position.behind before = ⟨start, number, 1⟩) (hl : '\n' ∉ l) :
    scan? before l = (scan? [] l).map (List.map (onLine number start)) := by
  have h := scan?_append (v := []) hbefore hl
  rwa [List.append_nil] at h

/-- A text is one line, or a line in front of another text. -/
theorem lines_induction {P : List Char → Prop} (hline : ∀ l, '\n' ∉ l → P l)
    (hbreak : ∀ l rest, '\n' ∉ l → P rest → P (l ++ '\n' :: rest)) (cs : List Char) : P cs := by
  by_cases hcs : '\n' ∈ cs
  · rcases List.eq_append_cons_of_mem hcs with ⟨l, rest, htext, hl⟩
    rw [htext]
    exact hbreak l rest hl (lines_induction hline hbreak rest)
  · exact hline cs hcs
termination_by cs.length
decreasing_by
  rw [htext, List.length_append, List.length_cons]
  omega

theorem lineStart_cons (line : List Char) (lines : List (List Char)) (i : Nat) :
    lineStart (line :: lines) (i + 1) = (Utf8.encode line).length + 1 + lineStart lines i := by
  rw [lineStart, List.take_succ_cons, List.flatMap_cons, Utf8.encode_append, Utf8.encode_append,
    List.length_append, List.length_append, ← lineStart]
  rfl

/-- The lines behind the first one begin one line further on. -/
theorem onLines_cons (line : List Char) (lines : List (List Char)) (us : List Token)
    (tss : List (List Token)) :
    onLines number start (line :: lines) (us :: tss) = us.map (onLine number start) ++
      onLines (number + 1) (start + (Utf8.encode line).length + 1) lines tss := by
  rw [onLines, List.mapIdx_cons, List.flatten_cons, onLines]
  have hshift : ∀ i, onLine (number + (i + 1)) (start + lineStart (line :: lines) (i + 1))
      = onLine (number + 1 + i) (start + (Utf8.encode line).length + 1 + lineStart lines i) := by
    intro i
    rw [lineStart_cons]
    congr 1 <;> omega
  simp only [hshift]
  rfl

/-- So does the mark behind the last one of them. -/
theorem lastMark_cons (line : List Char) {lines : List (List Char)} (hne : lines ≠ []) :
    lastMark number start (line :: lines) (List.cons_ne_nil _ _) =
      lastMark (number + 1) (start + (Utf8.encode line).length + 1) lines hne := by
  rcases Nat.exists_eq_add_one.mpr (List.length_pos_iff.mpr hne) with ⟨k, hk⟩
  rw [lastMark, lastMark, List.getLast_cons hne, List.length_cons, hk]
  simp only [Nat.add_sub_cancel]
  rw [lineStart_cons]
  congr 1 <;> omega

/-- The first line begins behind nothing. -/
theorem behind_nil : Position.behind [] = ⟨0, 1, 1⟩ := rfl

/-- Behind a line and its line feed, the next line begins. -/
theorem behind_line (hbefore : Position.behind before = ⟨start, number, 1⟩) (hl : '\n' ∉ l) :
    Position.behind (before ++ l ++ ['\n']) =
      ⟨start + (Utf8.encode l).length + 1, number + 1, 1⟩ :=
  Position.behind_newline (Position.behind_append_of_not_mem hbefore hl)

/-- A text that begins a line has the tokens of its lines, which are scanned each on its own. -/
theorem scan?_eq_some_iff_lines (hbefore : Position.behind before = ⟨start, number, 1⟩)
    (cs : List Char) (ts : List Token) :
    scan? before cs = some ts ↔
      ∃ tss, (cs.splitOn '\n').Forall₂ (fun line us => scan? [] line = some us) tss ∧
        onLines number start (cs.splitOn '\n') tss = ts := by
  induction cs using lines_induction generalizing before number start ts with
  | hline l hl =>
      have hone : ∀ us, onLines number start [l] [us] = us.map (onLine number start) := by
        intro us
        rw [onLines_cons]
        exact List.append_nil _
      rw [scan?_line hbefore hl, Option.map_eq_some_iff, List.splitOn_eq_singleton hl]
      constructor
      · rintro ⟨us, hus, rfl⟩
        exact ⟨[us], .cons hus .nil, hone us⟩
      · rintro ⟨_, htss, rfl⟩
        rcases htss with _ | ⟨hus, hnone⟩
        cases hnone
        exact ⟨_, hus, (hone _).symm⟩
  | hbreak l rest hl ih =>
      have hrest := ih (behind_line hbefore hl)
      rw [scan?_append_newline, joined?_eq_some, scan?_line hbefore hl,
        List.splitOn_append_cons_self_of_not_mem hl]
      constructor
      · rintro ⟨_, _, hmap, hvs, rfl⟩
        rcases Option.map_eq_some_iff.mp hmap with ⟨us, hus, rfl⟩
        rcases (hrest _).mp hvs with ⟨tss, htss, rfl⟩
        exact ⟨us :: tss, .cons hus htss, onLines_cons l _ us tss⟩
      · rintro ⟨_, htss, rfl⟩
        rcases htss with _ | ⟨hus, htss⟩
        exact ⟨_, _, Option.map_eq_some_iff.mpr ⟨_, hus, rfl⟩, (hrest _).mpr ⟨_, htss, rfl⟩,
          (onLines_cons l _ _ _).symm⟩

/-- The mark behind a text that begins a line is the one behind its last line. -/
theorem eof_append (hbefore : Position.behind before = ⟨start, number, 1⟩) (cs : List Char) :
    eof (before ++ cs) = lastMark number start (cs.splitOn '\n') (List.splitOn_ne_nil _ _) := by
  induction cs using lines_induction generalizing before number start with
  | hline l hl =>
      simp only [List.splitOn_eq_singleton hl]
      rw [eof, Position.behind_append_of_not_mem hbefore hl]
      rfl
  | hbreak l rest hl ih =>
      have hne := List.splitOn_ne_nil '\n' rest
      have hrest := ih (behind_line hbefore hl)
      rw [List.append_assoc, List.append_assoc, List.singleton_append] at hrest
      simp only [List.splitOn_append_cons_self_of_not_mem hl]
      rw [hrest, lastMark_cons l hne]

/-- The tokens of a text in front of the mark. -/
theorem ofText_eq_ok_append_eof {us : List Token} :
    ofText cs = .ok (us ++ [eof cs]) ↔ scan? [] cs = some us := by
  rw [ofText_eq_ok_iff_scan?]
  constructor
  · rintro ⟨us', hus, h⟩
    rw [hus, List.append_cancel_right h]
  · intro hus
    exact ⟨us, hus, rfl⟩

/-- One related value for each entry makes up a list of them. -/
theorem exists_forall₂_iff {α β : Type} {R : α → β → Prop} {l : List α} :
    (∃ l', l.Forall₂ R l') ↔ ∀ a ∈ l, ∃ b, R a b := by
  induction l with
  | nil => exact iff_of_true ⟨[], .nil⟩ (List.forall_mem_nil _)
  | cons a l ih =>
      rw [List.forall_mem_cons, ← ih]
      simp only [List.forall₂_cons_left_iff]
      constructor
      · rintro ⟨_, b, l', hb, hl', rfl⟩
        exact ⟨⟨b, hb⟩, l', hl'⟩
      · rintro ⟨⟨b, hb⟩, l', hl'⟩
        exact ⟨_, b, l', hb, hl', rfl⟩

/-- Whatever is read, the mark is behind it. -/
theorem exists_ofText_iff :
    (∃ ts, ofText cs = .ok ts) ↔ ∃ us, ofText cs = .ok (us ++ [eof cs]) := by
  constructor
  · rintro ⟨ts, h⟩
    rcases ofText_eq_ok_iff_scan?.mp h with ⟨us, -, rfl⟩
    exact ⟨us, h⟩
  · rintro ⟨us, h⟩
    exact ⟨_, h⟩

/-- The tokens of a text are those of its lines, up to the mark. -/
theorem ofText_eq_ok_iff_lines {ts : List Token} :
    ofText cs = .ok ts ↔ ∃ tss,
      (cs.splitOn '\n').Forall₂ (fun line us => ofText line = .ok (us ++ [eof line])) tss ∧
      onLines 1 0 (cs.splitOn '\n') tss ++ [eof cs] = ts := by
  have hlines := scan?_eq_some_iff_lines behind_nil cs
  simp only [ofText_eq_ok_append_eof]
  rw [ofText_eq_ok_iff_scan?]
  constructor
  · rintro ⟨us, hus, rfl⟩
    rcases (hlines us).mp hus with ⟨tss, htss, rfl⟩
    exact ⟨tss, htss, rfl⟩
  · rintro ⟨tss, htss, rfl⟩
    exact ⟨_, (hlines _).mpr ⟨tss, htss, rfl⟩, rfl⟩

/-- Reading tokens goes line by line. A text has tokens if each of its lines has, read as a text of
    its own; these are then the tokens of the text, with each line in its place, and the mark is
    the one behind the last line. -/
theorem ofText_lines (cs : List Char) :
    ((∃ ts, ofText cs = .ok ts) ↔ ∀ line ∈ cs.splitOn '\n', ∃ ts, ofText line = .ok ts) ∧
    ∀ ts, ofText cs = .ok ts ↔ ∃ tss,
      (cs.splitOn '\n').Forall₂ (fun line us => ofText line = .ok (us ++ [eof line])) tss ∧
      onLines 1 0 (cs.splitOn '\n') tss ++
        [lastMark 1 0 (cs.splitOn '\n') (List.splitOn_ne_nil _ _)] = ts := by
  have heof : lastMark 1 0 (cs.splitOn '\n') (List.splitOn_ne_nil _ _) = eof cs :=
    (eof_append behind_nil cs).symm
  rw [heof]
  refine ⟨?_, fun ts => ofText_eq_ok_iff_lines⟩
  calc (∃ ts, ofText cs = .ok ts)
      ↔ ∃ tss, (cs.splitOn '\n').Forall₂
          (fun line us => ofText line = .ok (us ++ [eof line])) tss := by
        constructor
        · rintro ⟨ts, h⟩
          rcases ofText_eq_ok_iff_lines.mp h with ⟨tss, htss, -⟩
          exact ⟨tss, htss⟩
        · rintro ⟨tss, htss⟩
          exact ⟨_, ofText_eq_ok_iff_lines.mpr ⟨tss, htss, rfl⟩⟩
    _ ↔ ∀ line ∈ cs.splitOn '\n', ∃ us, ofText line = .ok (us ++ [eof line]) := exists_forall₂_iff
    _ ↔ ∀ line ∈ cs.splitOn '\n', ∃ ts, ofText line = .ok ts := by simp only [exists_ofText_iff]

/-- A string literal with slashes in front of a comment with a quote, then an empty line, and a last
    line with nothing in it. -/
def fourLines : List Char :=
  "\"//\" // é\"\n\n\tx := 7\n".toList

/-- Its tokens stand on the first and on the third line. If a string literal goes on over a line
    feed, already the first line has no tokens. -/
theorem ofText_lines_of_fourLines :
    (∃ ts, ofText fourLines = .ok ts ∧
      ts.map span = [⟨⟨0, 1, 1⟩, 4⟩, ⟨⟨14, 3, 2⟩, 15⟩, ⟨⟨16, 3, 4⟩, 18⟩, ⟨⟨19, 3, 7⟩, 20⟩,
        ⟨⟨21, 4, 1⟩, 21⟩] ∧
      (∀ line ∈ fourLines.splitOn '\n', ∃ ts, ofText line = .ok ts) ∧
      ∃ tss, (fourLines.splitOn '\n').Forall₂
          (fun line us => ofText line = .ok (us ++ [eof line])) tss ∧
        onLines 1 0 (fourLines.splitOn '\n') tss ++
          [lastMark 1 0 (fourLines.splitOn '\n') (List.splitOn_ne_nil _ _)] = ts) ∧
    ¬ ∃ ts, ofText "\"a\nb\"".toList = .ok ts := by
  have hts : ∃ ts, ofText fourLines = .ok ts ∧
      ts.map span = [⟨⟨0, 1, 1⟩, 4⟩, ⟨⟨14, 3, 2⟩, 15⟩, ⟨⟨16, 3, 4⟩, 18⟩, ⟨⟨19, 3, 7⟩, 20⟩,
        ⟨⟨21, 4, 1⟩, 21⟩] := ⟨_, by with_unfolding_all rfl, rfl⟩
  have hfirst : ∃ e, ofText "\"a".toList = .error e := ⟨_, by with_unfolding_all rfl⟩
  rcases hts with ⟨ts, hts, hspans⟩
  rcases hfirst with ⟨e, he⟩
  refine ⟨⟨ts, hts, hspans, (ofText_lines _).1.mp ⟨ts, hts⟩, ((ofText_lines _).2 ts).mp hts⟩, ?_⟩
  intro hbroken
  rcases (ofText_lines _).1.mp hbroken "\"a".toList (by decide) with ⟨us, hus⟩
  cases hus.symm.trans he

end Token

end WhileLang
