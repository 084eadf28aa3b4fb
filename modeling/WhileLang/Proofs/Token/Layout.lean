import WhileLang.Proofs.Token.Written

/-!
# Tokens Laid Out

Tokens can be written with more than a blank between them. A separator begins
with a blank, and behind it there may be blanks and comments in any order, each
comment with the end of its line. Whatever the tokens and the separators are,
the text is read back as the tokens.

The blank in front is what ends a token; without it, the slashes of a comment
would join with a division in front of them, and a comment is no lexeme where a
string literal has begun. Behind the first blank nothing has to be asked any
more. Blanks that stand in a row are one lexeme, so an induction over the parts
of a separator collects them until a comment or the next token ends the row.

## Main definitions

* `Token.Filler`: Blanks and whole comments.
* `Token.IsSeparator`: A blank and what may follow it.
* `Token.LaidOut`: Tokens with separators between them.

## Theorems

* `Token.cuts_separator`: A separator in front of a text.
* `Token.ofText_laidOut`: Tokens are read back however they are laid out.
* `Token.cuts_spaced`: So they are with single blanks between them.
-/

namespace WhileLang

namespace Token

open LexemeKind TokenKind

/-- Blanks and comments, each comment with the end of its line. -/
inductive Filler : List Char → Prop
  | nil : Filler []
  | blank {c : Char} {cs : List Char} (hc : c ∈ blanks) (hcs : Filler cs) : Filler (c :: cs)
  | comment {t cs : List Char} (ht : '\n' ∉ t) (hcs : Filler cs) :
      Filler ('/' :: '/' :: t ++ '\n' :: cs)

/-- What may stand between two tokens: a blank, and then blanks and comments. -/
def IsSeparator (sep : List Char) : Prop :=
  ∃ c cs, sep = c :: cs ∧ c ∈ blanks ∧ Filler cs

/-- The text has the tokens, each in one of its spellings, with separators between them. -/
inductive LaidOut : List TokenKind → List Char → Prop
  | nil : LaidOut [] []
  | last {k : TokenKind} {u : List Char} (hk : k.Writable) (hu : k.Spelled u) : LaidOut [k] u
  | cons {k k' : TokenKind} {ks : List TokenKind} {u sep cs : List Char} (hk : k.Writable)
      (hu : k.Spelled u) (hsep : IsSeparator sep) (hcs : LaidOut (k' :: ks) cs) :
      LaidOut (k :: k' :: ks) (u ++ (sep ++ cs))

variable {before bs cs sep : List Char} {k : TokenKind} {ks : List TokenKind}

/-- A row of blanks and what may follow it, in front of a text that does not begin with a blank. -/
theorem cuts_filler {fill : List Char} (hfill : Filler fill) (hne : bs ≠ [])
    (hbs : ∀ c ∈ bs, c ∈ blanks) (hcs : ∀ c ∈ cs.head?, c ∉ blanks)
    (h : ∀ before, Cuts before cs ks) : Cuts before (bs ++ (fill ++ cs)) ks := by
  -- The row grows by each blank that follows, and a comment begins a new one at its end.
  induction hfill generalizing before bs with
  | nil => exact cuts_blanks hne hbs hcs (h _)
  | @blank c fill hc _ ih =>
      have hrow : ∀ d ∈ bs ++ [c], d ∈ blanks := by
        intro d hd
        rcases List.mem_append.mp hd with hd | hd
        · exact hbs d hd
        · rw [List.mem_singleton.mp hd]
          exact hc
      have hrest : Cuts before (bs ++ [c] ++ (fill ++ cs)) ks :=
        ih (List.append_ne_nil_of_right_ne_nil bs (List.cons_ne_nil c [])) hrow
      rw [List.append_assoc] at hrest
      exact hrest
  | @comment t fill ht _ ih =>
      have hcomment : Spells .comment ('/' :: '/' :: t) := ⟨t, rfl, ht⟩
      have hslash : '/' ∉ blanks := by decide
      have hline : ∀ d ∈ ['\n'], d ∈ blanks := by decide
      have hrest : Cuts (before ++ bs ++ '/' :: '/' :: t) (['\n'] ++ (fill ++ cs)) ks :=
        ih (List.cons_ne_nil _ _) hline
      rw [List.append_assoc ('/' :: '/' :: t)]
      refine cuts_blanks hne hbs ?_ (cuts_comment hcomment hrest)
      intro d hd
      cases hd
      exact hslash

/-- A separator in front of a text that does not begin with a blank. -/
theorem cuts_separator (hsep : IsSeparator sep) (hcs : ∀ c ∈ cs.head?, c ∉ blanks)
    (h : ∀ before, Cuts before cs ks) : Cuts before (sep ++ cs) ks := by
  rcases hsep with ⟨c, fill, rfl, hc, hfill⟩
  have hrow : ∀ d ∈ [c], d ∈ blanks := by
    intro d hd
    rw [List.mem_singleton.mp hd]
    exact hc
  exact cuts_filler hfill (List.cons_ne_nil c []) hrow hcs h

/-- Tokens do not begin with a blank, however they are laid out. -/
theorem LaidOut.not_blank (h : LaidOut ks cs) : ∀ c ∈ cs.head?, c ∉ blanks := by
  cases h with
  | nil => exact nofun
  | last hk hu =>
      have hhead : ∀ c ∈ (cs ++ []).head?, c ∉ blanks := not_blank_of_spelled hk hu
      rw [List.append_nil] at hhead
      exact hhead
  | cons hk hu _ _ => exact not_blank_of_spelled hk hu

/-- A text with tokens laid out in it is cut into them. -/
theorem cuts_laidOut (h : LaidOut ks cs) : Cuts before cs ks := by
  induction h generalizing before with
  | nil => exact cuts_nil
  | @last k u hk hu =>
      have hlast : Cuts before (u ++ []) [k] := cuts_spelled hk hu nofun cuts_nil
      rw [List.append_nil] at hlast
      exact hlast
  | cons hk hu hsep hcs ih =>
      refine cuts_spelled hk hu ?_ (cuts_separator hsep hcs.not_blank fun _ => ih)
      rcases hsep with ⟨c, fill, rfl, hc, -⟩
      intro d hd
      cases hd
      exact hc

/-- Single blanks are separators. -/
theorem laidOut_spaced (hks : ∀ k ∈ ks, k.Writable) : LaidOut ks (spaced ks) := by
  -- Two tokens at a time, because only between two there is a blank.
  induction ks with
  | nil => exact .nil
  | cons k ks ih =>
      rw [List.forall_mem_cons] at hks
      cases ks with
      | nil =>
          have htext : spaced [k] = k.text := by simp [spaced]
          rw [htext]
          exact .last hks.1 (.text k)
      | cons k' ks =>
          rw [spaced_cons_cons]
          exact .cons hks.1 (.text k) ⟨' ', [], rfl, by decide, .nil⟩ (ih hks.2)

/-- Tokens separated by blanks are read back. -/
theorem cuts_spaced (hks : ∀ k ∈ ks, k.Writable) : Cuts before (spaced ks) ks :=
  cuts_laidOut (laidOut_spaced hks)

/-- Tokens are read back, in order and with the mark behind them, however they are laid out. -/
theorem ofText_laidOut (ks : List TokenKind) (cs : List Char) (h : LaidOut ks cs) :
    ∃ ts, ofText cs = .ok ts ∧ ts.map kind = ks ++ [.eof] :=
  exists_ofText_of_cuts (cuts_laidOut h)

/-- A division in front of a comment with a quote in it, a string literal with slashes, and a name
    that begins as a keyword does. -/
theorem ofText_laidOut_of_slashes :
    LaidOut [.symbol .slash, .string " //", .symbol .equal, .identifier "iffy"]
        "/ //\"\n\" //\"\t== iffy".toList ∧
      ∃ ts, ofText "/ //\"\n\" //\"\t== iffy".toList = .ok ts ∧
        ts.map kind =
          [.symbol .slash, .string " //", .symbol .equal, .identifier "iffy"] ++ [.eof] := by
  have hslash : (TokenKind.symbol .slash).Writable := trivial
  have hliteral : (TokenKind.string " //").Writable := ⟨by decide, by decide, by decide, trivial⟩
  have hequal : (TokenKind.symbol .equal).Writable := trivial
  have hname : (TokenKind.identifier "iffy").Writable := ⟨by decide, rfl⟩
  have hblank : IsSeparator [' '] := ⟨' ', [], rfl, by decide, .nil⟩
  have htab : IsSeparator ['\t'] := ⟨'\t', [], rfl, by decide, .nil⟩
  have hquote : '\n' ∉ ['"'] := by decide
  have hcomment : IsSeparator " //\"\n".toList :=
    ⟨' ', "//\"\n".toList, rfl, by decide, .comment hquote .nil⟩
  have hlaid : LaidOut [.symbol .slash, .string " //", .symbol .equal, .identifier "iffy"]
      "/ //\"\n\" //\"\t== iffy".toList :=
    .cons hslash (.text _) hcomment (.cons hliteral (.text _) htab
      (.cons hequal .doubled hblank (.last hname (.text _))))
  exact ⟨hlaid, ofText_laidOut _ _ hlaid⟩

end Token

end WhileLang
