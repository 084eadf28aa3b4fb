import WhileLang.Program.Basic
import WhileLang.Proofs.Grammar.Else
import WhileLang.Proofs.Grammar.Ends
import WhileLang.Proofs.Token.Written

/-!
# Printing Programs

A program as tokens, and as a text of these tokens with blanks between them.
Every block is put in braces and every branch has its `else`. An operand is
put in parentheses only where its operator binds weaker than the one beside
it, or equally strong on the right side. In a string literal a backslash, a
quote and a line feed are written with a backslash.

Only some programs have a text at all. Numbers are written without a sign, and
names have to be names of the language.

The tokens of a program are derived by the grammar. Its tree for an expression
follows the levels of the grammar, down to a factor in parentheses where the
operand binds too weakly, and a product or a sum gets one link longer by an
operand on its right.

## Main definitions

* `Arith.tokens`, `Cond.tokens`, `Stmt.tokens`, `Program.tokens`: What is printed.
* `Token.escape`: A text as it is written between quotes.
* `Program.print`: The text of a program.
* `Program.Printable`: The programs that have a text.

## Theorems

* `Token.unescape_escape`: An escaped text stands for the text.
* `Program.exists_tree`: A program is what a derivation of its tokens stands for.
* `Program.writable_tokens`: The tokens of a printable program can be written.
-/

namespace WhileLang

namespace Token

/-- A character as it is written between quotes. -/
def escapeChar : Char → List Char
  | '\\' => ['\\', '\\']
  | '"' => ['\\', '"']
  | '\n' => ['\\', 'n']
  | c => [c]

/-- A text as it is written between quotes. -/
def escape (cs : List Char) : List Char :=
  cs.flatMap escapeChar

end Token

/-- The level of the operator of an expression; without one it is a factor. -/
def Arith.level : Arith → Level
  | .num _ | .var _ => .factor
  | .op o _ _ => o.level

/-- Tokens in parentheses where these are needed. -/
def parenthesizedIf (b : Bool) (w : List TokenKind) : List TokenKind :=
  if b then inParentheses w else w

/-- The tokens of an expression. -/
def Arith.tokens : Arith → List TokenKind
  | .num n => [.integer n]
  | .var x => [.identifier x]
  | .op o l r =>
    parenthesizedIf (o.level.rank < l.level.rank) l.tokens ++ .symbol o.symbol ::
      -- Operators of one level are combined from the left.
      parenthesizedIf (o.level.rank ≤ r.level.rank) r.tokens

/-- The tokens of a condition. -/
def Cond.tokens : Cond → List TokenKind
  | .const b => [.keyword (if b then .trueKw else .falseKw)]
  | .compare o l r => l.tokens ++ .symbol o.symbol :: r.tokens

/-- Statements with semicolons between them. -/
def separated (ws : List (List TokenKind)) : List TokenKind :=
  List.intercalate [.symbol .semicolon] ws

/-- Tokens in braces. -/
def inBraces (w : List TokenKind) : List TokenKind :=
  .symbol .lbrace :: (w ++ [.symbol .rbrace])

mutual

/-- The tokens of a statement. -/
def Stmt.tokens : Stmt → List TokenKind
  | .skip => [.keyword .skipKw]
  | .assign x a => .identifier x :: .symbol .assign :: a.tokens
  | .ifElse c t e =>
    .keyword .ifKw :: (c.tokens ++ .keyword .thenKw :: (inBraces (separated (Stmt.tokensEach t)) ++
      .keyword .elseKw :: inBraces (separated (Stmt.tokensEach e))))
  | .whileDo c b =>
    .keyword .whileKw :: (c.tokens ++ .keyword .doKw :: inBraces (separated (Stmt.tokensEach b)))
  | .forTo x a b body =>
    .keyword .forKw :: .identifier x :: .symbol .assign :: (a.tokens ++ .keyword .toKw ::
      (b.tokens ++ .keyword .doKw :: inBraces (separated (Stmt.tokensEach body))))
  | .read x => [.keyword .readKw, .identifier x]
  | .write a => .keyword .writeKw :: a.tokens
  | .print s => [.keyword .writeKw, .string (String.ofList (Token.escape s.toList))]

/-- The tokens of several statements, each by itself. -/
def Stmt.tokensEach : Block → List (List TokenKind)
  | [] => []
  | s :: rest => s.tokens :: Stmt.tokensEach rest

end

/-- A name of the language. -/
def IsVariable (x : String) : Prop :=
  LexemeKind.IsName x.toList ∧ Keyword.ofText? x = none

instance (x : String) : Decidable (IsVariable x) :=
  inferInstanceAs (Decidable (LexemeKind.IsName x.toList ∧ Keyword.ofText? x = none))

/-- The numbers of the expression are not negative, and its names are names of the language. -/
def Arith.Printable : Arith → Prop
  | .num n => 0 ≤ n.toInt
  | .var x => IsVariable x
  | .op _ l r => l.Printable ∧ r.Printable

instance Arith.decidePrintable : DecidablePred Arith.Printable
  | .num n => inferInstanceAs (Decidable (0 ≤ n.toInt))
  | .var x => inferInstanceAs (Decidable (IsVariable x))
  | .op _ l r =>
    have := Arith.decidePrintable l
    have := Arith.decidePrintable r
    inferInstanceAs (Decidable (l.Printable ∧ r.Printable))

/-- The expressions of the condition are printable. -/
def Cond.Printable : Cond → Prop
  | .const _ => True
  | .compare _ l r => l.Printable ∧ r.Printable

instance : DecidablePred Cond.Printable
  | .const _ => inferInstanceAs (Decidable True)
  | .compare _ l r => inferInstanceAs (Decidable (l.Printable ∧ r.Printable))

mutual

/-- The expressions of the statement are printable, and its names are names of the language. -/
def Stmt.Printable : Stmt → Prop
  | .skip | .print _ => True
  | .assign x a => IsVariable x ∧ a.Printable
  | .ifElse c t e => c.Printable ∧ Stmt.PrintableAll t ∧ Stmt.PrintableAll e
  | .whileDo c b => c.Printable ∧ Stmt.PrintableAll b
  | .forTo x a b body =>
    IsVariable x ∧ a.Printable ∧ b.Printable ∧ Stmt.PrintableAll body
  | .read x => IsVariable x
  | .write a => a.Printable

/-- All of the statements are printable. -/
def Stmt.PrintableAll : Block → Prop
  | [] => True
  | s :: rest => s.Printable ∧ Stmt.PrintableAll rest

end

mutual

instance Stmt.decidePrintable : DecidablePred Stmt.Printable
  | .skip | .print _ => inferInstanceAs (Decidable True)
  | .assign x a => inferInstanceAs (Decidable (IsVariable x ∧ a.Printable))
  | .ifElse c t e =>
    have := Stmt.decidePrintableAll t
    have := Stmt.decidePrintableAll e
    inferInstanceAs (Decidable (c.Printable ∧ Stmt.PrintableAll t ∧ Stmt.PrintableAll e))
  | .whileDo c b =>
    have := Stmt.decidePrintableAll b
    inferInstanceAs (Decidable (c.Printable ∧ Stmt.PrintableAll b))
  | .forTo x a b body =>
    have := Stmt.decidePrintableAll body
    inferInstanceAs
      (Decidable (IsVariable x ∧ a.Printable ∧ b.Printable ∧ Stmt.PrintableAll body))
  | .read x => inferInstanceAs (Decidable (IsVariable x))
  | .write a => inferInstanceAs (Decidable a.Printable)

instance Stmt.decidePrintableAll : DecidablePred Stmt.PrintableAll
  | [] => inferInstanceAs (Decidable True)
  | s :: rest =>
    have := Stmt.decidePrintable s
    have := Stmt.decidePrintableAll rest
    inferInstanceAs (Decidable (s.Printable ∧ Stmt.PrintableAll rest))

end

namespace Program

/-- The tokens of a program, without the mark at its end. -/
def tokens (program : Block) : List TokenKind :=
  separated (Stmt.tokensEach program)

/-- The text of a program. -/
def print (program : Block) : String :=
  String.ofList (Token.spaced (tokens program))

/-- The numbers of the program are not negative, and its names are names of the language. -/
def Printable (program : Block) : Prop :=
  Stmt.PrintableAll program

instance : DecidablePred Printable :=
  Stmt.decidePrintableAll

end Program

namespace Token

theorem unescape_escapeChar (c : Char) (cs : List Char) :
    unescape (escapeChar c ++ cs) = c :: unescape cs := by
  unfold escapeChar
  split
  · rfl
  · rfl
  · rfl
  next hbackslash _ _ =>
    rw [List.singleton_append, unescape]
    intro d t h
    exact absurd h hbackslash

/-- An escaped text stands for the text. -/
theorem unescape_escape (cs : List Char) : unescape (escape cs) = cs := by
  induction cs with
  | nil => rfl
  | cons c cs ih => rw [escape, List.flatMap_cons, unescape_escapeChar, ← escape, ih]

theorem isBody_escapeChar (c : Char) (cs : List Char) :
    LexemeKind.IsBody (escapeChar c ++ cs) ↔ LexemeKind.IsBody cs := by
  unfold escapeChar
  split
  · exact and_iff_right (by decide)
  · exact and_iff_right (by decide)
  · exact and_iff_right (by decide)
  next hbackslash hquote hfeed =>
    rw [List.singleton_append, LexemeKind.isBody_cons hbackslash]
    refine and_iff_right ?_
    simp only [List.mem_cons, List.not_mem_nil, or_false, not_or]
    exact ⟨hquote, hbackslash, hfeed⟩

/-- An escaped text can stand between quotes. -/
theorem isBody_escape (cs : List Char) : LexemeKind.IsBody (escape cs) := by
  induction cs with
  | nil => trivial
  | cons c cs ih =>
      rw [escape, List.flatMap_cons, isBody_escapeChar]
      exact ih

end Token

namespace ArithTree

variable {l : Level}

/-- An operand of one level is by itself an operand of the next one. -/
theorem exists_above (hl : l ≠ .factor) (d : ArithTree (.operand l.below)) :
    ∃ d' : ArithTree (.operand l), d'.value = d.value ∧ d'.yield = d.yield :=
  ⟨.chain hl d .done, rfl, List.append_nil _⟩

/-- An operand of one level is by itself an operand of every weaker one. -/
theorem exists_weaker {l' : Level} (d : ArithTree (.operand l)) (h : l.rank ≤ l'.rank) :
    ∃ d' : ArithTree (.operand l'), d'.value = d.value ∧ d'.yield = d.yield := by
  cases l' with
  | factor =>
      cases l with
      | factor => exact ⟨d, rfl, rfl⟩
      | term | expression => exact absurd h (by decide)
  | term =>
      cases l with
      | factor => exact exists_above (l := .term) (by decide) d
      | term => exact ⟨d, rfl, rfl⟩
      | expression => exact absurd h (by decide)
  | expression =>
      cases l with
      | factor =>
          rcases exists_above (l := .term) (by decide) d with ⟨d₁, hvalue₁, hyield₁⟩
          rcases exists_above (l := .expression) (by decide) d₁ with ⟨d₂, hvalue₂, hyield₂⟩
          exact ⟨d₂, hvalue₂.trans hvalue₁, hyield₂.trans hyield₁⟩
      | term => exact exists_above (l := .expression) (by decide) d
      | expression => exact ⟨d, rfl, rfl⟩

/-- Links get longer at their end. -/
theorem exists_links_snoc {o : ArithOp} (ho : o.level = l) (d : ArithTree (.operand l.below)) :
    ∀ m : ArithTree (.links l), ∃ m' : ArithTree (.links l),
      m'.value = (m.value : List (ArithOp × Arith)) ++ [(o, d.value)] ∧
        m'.yield = m.yield ++ .symbol o.symbol :: d.yield
  | .done => ⟨.link o ho d .done, rfl, congrArg _ (List.append_nil _)⟩
  | .link o' ho' d' more => by
      rcases exists_links_snoc ho d more with ⟨m', hvalue, hyield⟩
      refine ⟨.link o' ho' d' m', ?_, ?_⟩
      · rw [value, hvalue]
        rfl
      · rw [yield, hyield, yield, List.cons_append, List.append_assoc]

/-- A product or a sum with one more operand on its right. -/
theorem exists_snoc {o : ArithOp} (d : ArithTree (.operand o.level))
    (right : ArithTree (.operand o.level.below)) :
    ∃ d' : ArithTree (.operand o.level), d'.value = Arith.op o d.value right.value ∧
      d'.yield = d.yield ++ .symbol o.symbol :: right.yield := by
  -- The level is a variable here, for otherwise the derivation could not be taken apart.
  have hchain : ∀ {l : Level}, o.level = l → ∀ (d : ArithTree (.operand l))
      (right : ArithTree (.operand l.below)), ∃ d' : ArithTree (.operand l),
        d'.value = Arith.op o d.value right.value ∧
          d'.yield = d.yield ++ .symbol o.symbol :: right.yield := by
    intro l ho d right
    cases d with
    | chain hl first more =>
        rcases exists_links_snoc ho right more with ⟨m, hvalue, hyield⟩
        refine ⟨.chain hl first m, ?_, ?_⟩
        · rw [value, hvalue, Arith.combine, List.foldl_append]
          rfl
        · rw [yield, hyield, yield, List.append_assoc]
    | _ => exact absurd ho o.level_ne_factor
  exact hchain rfl d right

/-- An expression in parentheses, where these are needed, is an operand. -/
theorem exists_operand {a : Arith} {l : Level}
    (h : ∀ l : Level, a.level.rank ≤ l.rank →
      ∃ d : ArithTree (.operand l), d.value = a ∧ d.yield = a.tokens)
    {b : Bool} (hb : b = false → a.level.rank ≤ l.rank) :
    ∃ d : ArithTree (.operand l), d.value = a ∧ d.yield = parenthesizedIf b a.tokens := by
  cases b with
  | false => exact h l (hb rfl)
  -- In parentheses it is a factor, however weakly its operator binds.
  | true =>
      rcases h .expression a.level.rank_le_expression with ⟨e, hvalue, hyield⟩
      have hparens : ∃ d : ArithTree (.operand l), d.value = e.value ∧
          d.yield = inParentheses e.yield := exists_weaker (.parens e) (Nat.zero_le _)
      rcases hparens with ⟨d, hd, hdyield⟩
      refine ⟨d, hd.trans hvalue, hdyield.trans ?_⟩
      rw [hyield]
      rfl

end ArithTree

/-- The tokens of an expression are derived at every level that is as weak as its operator. -/
theorem Arith.exists_tree (a : Arith) (l : Level) (h : a.level.rank ≤ l.rank) :
    ∃ d : ArithTree (.operand l), d.value = a ∧ d.yield = a.tokens := by
  induction a generalizing l with
  | num n => exact ArithTree.exists_weaker (.number n) h
  | var x => exact ArithTree.exists_weaker (.name x) h
  | op o left right ihleft ihright =>
      have hbelow : o.level.rank = o.level.below.rank + 1 := by cases o <;> rfl
      have hleft : ∃ d : ArithTree (.operand o.level), d.value = left ∧
          d.yield = parenthesizedIf (o.level.rank < left.level.rank) left.tokens := by
        refine ArithTree.exists_operand ihleft fun hb => ?_
        exact Nat.le_of_not_lt (of_decide_eq_false hb)
      have hright : ∃ d : ArithTree (.operand o.level.below), d.value = right ∧
          d.yield = parenthesizedIf (o.level.rank ≤ right.level.rank) right.tokens := by
        refine ArithTree.exists_operand ihright fun hb => ?_
        have hlt := Nat.lt_of_not_le (of_decide_eq_false hb)
        omega
      rcases hleft with ⟨dl, hvaluel, hyieldl⟩
      rcases hright with ⟨dr, hvaluer, hyieldr⟩
      rcases ArithTree.exists_snoc dl dr with ⟨d, hvalue, hyield⟩
      rw [hvaluel, hvaluer] at hvalue
      rw [hyieldl, hyieldr] at hyield
      -- At a weaker level, the product or the sum stands alone.
      rcases ArithTree.exists_weaker d h with ⟨d', hvalue', hyield'⟩
      exact ⟨d', hvalue'.trans hvalue, hyield'.trans hyield⟩

/-- The tokens of an expression are derived as an expression. -/
theorem Arith.exists_exprTree (a : Arith) : ∃ d : ExprTree, d.value = a ∧ d.yield = a.tokens :=
  a.exists_tree .expression a.level.rank_le_expression

theorem Cond.exists_tree (c : Cond) : ∃ d : CondTree, d.value = c ∧ d.yield = c.tokens := by
  cases c with
  | const b => exact ⟨.const b, rfl, rfl⟩
  | compare o l r =>
      rcases l.exists_exprTree with ⟨dl, hvaluel, hyieldl⟩
      rcases r.exists_exprTree with ⟨dr, hvaluer, hyieldr⟩
      refine ⟨.compare o dl dr, ?_, ?_⟩
      · rw [CondTree.value, hvaluel, hvaluer]
      · rw [CondTree.yield, hyieldl, hyieldr, Cond.tokens]

/-- Each text with a separator in front of it is a separator in front of all of them. -/
theorem flatMap_cons_eq (w : List TokenKind) (ws : List (List TokenKind)) :
    (w :: ws).flatMap (.symbol .semicolon :: ·) = .symbol .semicolon :: separated (w :: ws) := by
  induction ws generalizing w with
  | nil => simp [separated]
  | cons v ws ih =>
      rw [List.flatMap_cons, ih]
      simp [separated, List.intercalate_cons_cons]

/-- Perhaps statements, from those that could be behind another one. -/
theorem StmtTree.exists_opening {b : Block}
    (h : ∃ m : StmtTree .others, m.value = b ∧
      m.yield = (Stmt.tokensEach b).flatMap (.symbol .semicolon :: ·) ∧ m.Nearest) :
    ∃ o : StmtTree .opening, o.value = b ∧ o.yield = separated (Stmt.tokensEach b) ∧
      o.Nearest := by
  rcases h with ⟨m, rfl, hyield, hnear⟩
  cases m with
  | noOthers => exact ⟨.empty false, rfl, rfl, trivial⟩
  | others s more =>
      refine ⟨.filled (.statements s more) false, rfl, ?_, hnear⟩
      -- In front of the first statement the semicolon is dropped.
      simp only [value, Stmt.tokensEach] at hyield ⊢
      rw [flatMap_cons_eq] at hyield
      exact (List.append_nil _).trans (List.tail_eq_of_cons_eq hyield)

/-- Statements in braces, from those that could be behind another one. -/
theorem StmtTree.exists_braces {b : Block}
    (h : ∃ m : StmtTree .others, m.value = b ∧
      m.yield = (Stmt.tokensEach b).flatMap (.symbol .semicolon :: ·) ∧ m.Nearest) :
    ∃ d : StmtTree .block, d.value = b ∧ d.yield = inBraces (separated (Stmt.tokensEach b)) ∧
      d.Nearest ∧ d.isOpen = false := by
  rcases exists_opening h with ⟨o, hvalue, hyield, hnear⟩
  refine ⟨.braces o, hvalue, ?_, hnear, rfl⟩
  rw [yield, hyield]
  rfl

mutual

/-- The tokens of a statement are derived, and every `else` belongs to the nearest `if` since no
    block in braces is open. -/
theorem Stmt.exists_tree : ∀ s : Stmt,
    ∃ d : StmtTree .statement, d.value = s ∧ d.yield = s.tokens ∧ d.Nearest
  | .skip => ⟨.skip, rfl, rfl, trivial⟩
  | .assign x a => by
      rcases a.exists_exprTree with ⟨d, rfl, hyield⟩
      exact ⟨.assign x d, rfl, congrArg (_ :: _ :: ·) hyield, trivial⟩
  | .ifElse c t e => by
      rcases c.exists_tree with ⟨dc, rfl, hc⟩
      rcases StmtTree.exists_braces (Stmt.exists_others t) with ⟨dt, ht, hyieldt, hneart, hopen⟩
      rcases StmtTree.exists_braces (Stmt.exists_others e) with ⟨de, he, hyielde, hneare, -⟩
      -- The brace closes the `then` part, so the `else` can be of no `if` in it.
      refine ⟨.ifThenElse dc dt de, ?_, ?_, hopen, hneart, hneare⟩
      · rw [StmtTree.value, ht, he]
      · rw [StmtTree.yield, StmtTree.ifHead, hc, hyieldt, hyielde, Stmt.tokens, List.cons_append,
          List.append_assoc, List.singleton_append]
  | .whileDo c b => by
      rcases c.exists_tree with ⟨dc, rfl, hc⟩
      rcases StmtTree.exists_braces (Stmt.exists_others b) with ⟨db, hb, hyieldb, hnear, -⟩
      refine ⟨.whileDo dc true db, ?_, ?_, hnear⟩
      · rw [StmtTree.value, hb]
      · rw [StmtTree.yield, StmtTree.whileHead, hc, hyieldb, Stmt.tokens, List.cons_append,
          List.append_assoc]
        rfl
  | .forTo x a b body => by
      rcases a.exists_exprTree with ⟨da, rfl, ha⟩
      rcases b.exists_exprTree with ⟨db, rfl, hb⟩
      rcases StmtTree.exists_braces (Stmt.exists_others body) with ⟨d, hd, hyieldd, hnear, -⟩
      refine ⟨.forTo x da db true d, ?_, ?_, hnear⟩
      · rw [StmtTree.value, hd]
      · rw [StmtTree.yield, StmtTree.forHead, ha, hb, hyieldd, Stmt.tokens]
        simp only [List.cons_append, List.append_assoc]
        rfl
  | .read x => ⟨.read x false, rfl, rfl, trivial⟩
  | .write a => by
      rcases a.exists_exprTree with ⟨d, rfl, hyield⟩
      exact ⟨.write d, rfl, congrArg (_ :: ·) hyield, trivial⟩
  | .print s => by
      refine ⟨.print (String.ofList (Token.escape s.toList)), ?_, rfl, trivial⟩
      rw [StmtTree.value, String.toList_ofList, Token.unescape_escape, String.ofList_toList]

/-- The tokens of several statements are derived behind another one. -/
theorem Stmt.exists_others : ∀ b : Block,
    ∃ m : StmtTree .others, m.value = b ∧
      m.yield = (Stmt.tokensEach b).flatMap (.symbol .semicolon :: ·) ∧ m.Nearest
  | [] => ⟨.noOthers, rfl, rfl, trivial⟩
  | s :: rest => by
      rcases Stmt.exists_tree s with ⟨d, hd, hyield, hnear⟩
      rcases Stmt.exists_others rest with ⟨m, hm, hmyield, hmnear⟩
      refine ⟨.others d m, ?_, ?_, hnear, hmnear⟩
      · rw [StmtTree.value, hd, hm]
      · rw [StmtTree.yield, hyield, hmyield, Stmt.tokensEach, List.flatMap_cons]
        rfl

end

/-- A program is what a derivation of its tokens stands for. -/
theorem Program.exists_tree (program : Block) :
    ∃ d : StmtTree .program, d.value = program ∧ d.yield = tokens program ++ [.eof] ∧
      d.Nearest := by
  rcases StmtTree.exists_opening (Stmt.exists_others program) with ⟨o, hvalue, hyield, hnear⟩
  refine ⟨.program o, hvalue, ?_, hnear⟩
  rw [StmtTree.yield, hyield]
  rfl

/-- All tokens can be written. -/
def AllWritable (w : List TokenKind) : Prop :=
  ∀ k ∈ w, k.Writable

section

variable {v w : List TokenKind} {ws : List (List TokenKind)} {k : TokenKind}

@[simp] theorem allWritable_nil : AllWritable [] := nofun

@[simp] theorem allWritable_cons : AllWritable (k :: w) ↔ k.Writable ∧ AllWritable w :=
  List.forall_mem_cons

@[simp] theorem allWritable_append : AllWritable (v ++ w) ↔ AllWritable v ∧ AllWritable w :=
  List.forall_mem_append

@[simp] theorem writable_keyword (k : Keyword) : (TokenKind.keyword k).Writable := trivial

@[simp] theorem writable_symbol (x : Symbol) : (TokenKind.symbol x).Writable := trivial

@[simp] theorem allWritable_inParentheses : AllWritable (inParentheses w) ↔ AllWritable w := by
  simp [inParentheses]

@[simp] theorem allWritable_inBraces : AllWritable (inBraces w) ↔ AllWritable w := by
  simp [inBraces]

@[simp] theorem allWritable_parenthesizedIf {b : Bool} :
    AllWritable (parenthesizedIf b w) ↔ AllWritable w := by
  cases b with
  | false => exact Iff.rfl
  | true => exact allWritable_inParentheses

theorem allWritable_separated (h : ∀ w ∈ ws, AllWritable w) : AllWritable (separated ws) := by
  induction ws with
  | nil => exact allWritable_nil
  | cons w ws ih =>
      rw [List.forall_mem_cons] at h
      cases ws with
      | nil => simpa [separated] using h.1
      | cons v ws =>
          have hrest := ih h.2
          simp only [separated, List.intercalate_cons_cons, allWritable_append] at hrest ⊢
          exact ⟨⟨h.1, by simp⟩, hrest⟩

end

theorem Arith.writable_tokens {a : Arith} (h : a.Printable) : AllWritable a.tokens := by
  induction a with
  | num n => exact allWritable_cons.mpr ⟨h, allWritable_nil⟩
  | var x => exact allWritable_cons.mpr ⟨h, allWritable_nil⟩
  | op o l r ihl ihr => simp [tokens, ihl h.1, ihr h.2]

theorem Cond.writable_tokens {c : Cond} (h : c.Printable) : AllWritable c.tokens := by
  cases c with
  | const b => simp [tokens]
  | compare o l r => simp [tokens, Arith.writable_tokens h.1, Arith.writable_tokens h.2]

theorem IsVariable.writable {x : String} (h : IsVariable x) :
    (TokenKind.identifier x).Writable := h

mutual

/-- The tokens of a printable statement can be written. -/
theorem Stmt.writable_tokens : ∀ {s : Stmt}, s.Printable → AllWritable s.tokens
  | .skip, _ => by simp [Stmt.tokens]
  | .assign x a, h => by simp [Stmt.tokens, h.1.writable, Arith.writable_tokens h.2]
  | .ifElse c t e, h => by
      have ht := allWritable_separated (Stmt.writable_tokensEach h.2.1)
      have he := allWritable_separated (Stmt.writable_tokensEach h.2.2)
      simp [Stmt.tokens, Cond.writable_tokens h.1, ht, he]
  | .whileDo c b, h => by
      have hb := allWritable_separated (Stmt.writable_tokensEach h.2)
      simp [Stmt.tokens, Cond.writable_tokens h.1, hb]
  | .forTo x a b body, h => by
      have hbody := allWritable_separated (Stmt.writable_tokensEach h.2.2.2)
      simp [Stmt.tokens, h.1.writable, Arith.writable_tokens h.2.1, Arith.writable_tokens h.2.2.1,
        hbody]
  | .read x, h => by
      have hx : IsVariable x := h
      simp [Stmt.tokens, hx.writable]
  | .write a, h => by
      have ha : AllWritable a.tokens := Arith.writable_tokens h
      simp [Stmt.tokens, ha]
  | .print s, _ => by
      have hs : (TokenKind.string (String.ofList (Token.escape s.toList))).Writable := by
        rw [TokenKind.Writable, String.toList_ofList]
        exact Token.isBody_escape s.toList
      simp [Stmt.tokens, hs]

/-- The tokens of printable statements can be written. -/
theorem Stmt.writable_tokensEach : ∀ {b : Block}, Stmt.PrintableAll b →
    ∀ w ∈ Stmt.tokensEach b, AllWritable w
  | [], _ => nofun
  | s :: rest, h => by
      rw [Stmt.tokensEach, List.forall_mem_cons]
      exact ⟨Stmt.writable_tokens h.1, Stmt.writable_tokensEach h.2⟩

end

/-- The tokens of a printable program can be written. -/
theorem Program.writable_tokens {program : Block} (h : Printable program) :
    AllWritable (tokens program) :=
  allWritable_separated (Stmt.writable_tokensEach h)

end WhileLang
