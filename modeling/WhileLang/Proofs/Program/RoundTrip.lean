import WhileLang.Program.OfText
import WhileLang.Proofs.Grammar.Parsed
import WhileLang.Proofs.Program.Print
import WhileLang.Proofs.Token.Layout

/-!
# Reading Printed Programs

The text of a printable program is read as the program: its tokens are read
back from the text since they stand apart, and they have a derivation that
stands for the program. No other programs are read from any text. The tokens
of a text can be written, and what a derivation stands for has only the
numbers and names that are among its tokens.

## Theorems

* `Program.ofText_print`: A printed program is read back.
* `Program.printable_of_ofText`: A program that is read is printable.
* `Program.print_roundTrip`: Both together.
-/

namespace WhileLang

namespace Arith

/-- A combination from the left is printable if its operands are. -/
theorem printable_combine {first : Arith} {more : List (ArithOp × Arith)} (h : first.Printable)
    (hmore : ∀ link ∈ more, link.2.Printable) : (combine first more).Printable := by
  induction more generalizing first with
  | nil => exact h
  | cons link more ih =>
      rw [List.forall_mem_cons] at hmore
      exact ih ⟨h, hmore.1⟩ hmore.2

end Arith

/-- What a part of an expression stands for consists of printable expressions. -/
def ArithPart.PrintableValue : (p : ArithPart) → p.Value → Prop
  | .operand _, a => Arith.Printable a
  | .links _, more => ∀ link ∈ (more : List (ArithOp × Arith)), link.2.Printable

/-- What a part of a program stands for is printable. -/
def StmtPart.PrintableValue : (p : StmtPart) → p.Value → Prop
  | .statement, s => Stmt.Printable s
  | .program, b | .opening, b | .statements, b | .others, b | .block, b => Stmt.PrintableAll b

/-- Tokens that can be written stand for printable parts of expressions. -/
theorem ArithTree.printable_value {p : ArithPart} (d : ArithTree p) (h : AllWritable d.yield) :
    p.PrintableValue d.value := by
  induction d with
  | parens e ih => exact ih (allWritable_inParentheses.mp h)
  | name x => exact (allWritable_cons.mp h).1
  | number n => exact (allWritable_cons.mp h).1
  | chain hl first more ihfirst ihmore =>
      rw [yield, allWritable_append] at h
      exact Arith.printable_combine (ihfirst h.1) (ihmore h.2)
  | done => exact List.forall_mem_nil _
  | link o ho operand more ihoperand ihmore =>
      rw [yield, allWritable_cons, allWritable_append] at h
      exact List.forall_mem_cons.mpr ⟨ihoperand h.2.1, ihmore h.2.2⟩

/-- Tokens that can be written stand for printable conditions. -/
theorem CondTree.printable_value (d : CondTree) (h : AllWritable d.yield) :
    d.value.Printable := by
  induction d with
  | const b => trivial
  | compare o left right =>
      rw [yield, allWritable_append, allWritable_cons] at h
      exact ⟨left.printable_value h.1, right.printable_value h.2.2⟩
  | parens c ih => exact ih (allWritable_inParentheses.mp h)

/-- Tokens that can be written stand for printable parts of programs. -/
theorem StmtTree.printable_value {p : StmtPart} (d : StmtTree p) (h : AllWritable d.yield) :
    p.PrintableValue d.value := by
  induction d with
  -- The mark at the end of a program is not written.
  | program o ih =>
      rw [yield, allWritable_append, allWritable_cons] at h
      exact absurd h.2.1 id
  | empty semicolon => trivial
  | filled ss semicolon ih => exact ih (allWritable_append.mp h).1
  | statements first more ihfirst ihmore =>
      rw [yield, allWritable_append] at h
      exact ⟨ihfirst h.1, ihmore h.2⟩
  | noOthers => trivial
  | others s more ihs ihmore =>
      rw [yield, allWritable_cons, allWritable_append] at h
      exact ⟨ihs h.2.1, ihmore h.2.2⟩
  | braces o ih => exact ih (allWritable_inBraces.mp h)
  | single s ih => exact ⟨ih h, trivial⟩
  | skip => trivial
  | assign x e =>
      rw [yield, allWritable_cons, allWritable_cons] at h
      exact ⟨h.1, e.printable_value h.2.2⟩
  | ifThen c t ih =>
      rw [yield, ifHead, allWritable_append, allWritable_cons, allWritable_append] at h
      exact ⟨c.printable_value h.1.2.1, ih h.2, trivial⟩
  | ifThenElse c t e iht ihe =>
      simp only [yield, ifHead, allWritable_append, allWritable_cons] at h
      rcases h with ⟨⟨-, hc, -⟩, ht, -, he⟩
      exact ⟨c.printable_value hc, iht ht, ihe he⟩
  | whileDo c withDo body ih =>
      rw [yield, whileHead, allWritable_append, allWritable_cons, allWritable_append] at h
      exact ⟨c.printable_value h.1.2.1, ih h.2⟩
  | forTo x start bound withDo body ih =>
      simp only [yield, forHead, allWritable_append, allWritable_cons] at h
      rcases h with ⟨⟨-, hx, -, hstart, -, hbound, -⟩, hbody⟩
      exact ⟨hx, start.printable_value hstart, bound.printable_value hbound, ih hbody⟩
  | read x inParens =>
      cases inParens with
      | false => exact (allWritable_cons.mp (allWritable_cons.mp h).2).1
      | true =>
          have hx := allWritable_inParentheses.mp (allWritable_cons.mp h).2
          exact (allWritable_cons.mp hx).1
  | print raw => trivial
  | write e => exact e.printable_value (allWritable_cons.mp h).2

namespace Program

variable {program : Block} {cs : List Char}

theorem ofText_eq_ok :
    ofText cs = .ok program ↔ ∃ ts, Token.ofText cs = .ok ts ∧ ofTokens ts = .ok program := by
  unfold ofText
  cases Token.ofText cs with
  | error e => exact iff_of_false nofun nofun
  | ok ts =>
      change (ofTokens ts).mapError _ = _ ↔ _
      constructor
      · intro h
        refine ⟨ts, rfl, ?_⟩
        cases hts : ofTokens ts with
        | error e =>
            rw [hts] at h
            cases h
        | ok b =>
            rw [hts] at h
            cases h
            rfl
      · rintro ⟨us, hus, h⟩
        rw [Except.ok.inj hus, h]
        rfl

/-- A printed program is read back. -/
theorem ofText_print (h : Printable program) : ofText (print program).toList = .ok program := by
  rcases exists_tree program with ⟨d, rfl, hyield, hnear⟩
  rcases Token.exists_ofText_of_cuts (Token.cuts_spaced (writable_tokens h)) with
    ⟨ts, hts, hkinds⟩
  refine ofText_eq_ok.mpr ⟨ts, ?_, ofTokens_of_nearest (hyield.trans hkinds.symm) hnear⟩
  rw [print, String.toList_ofList]
  exact hts

/-- A program that is read from a text is printable. -/
theorem printable_of_ofText (h : ofText cs = .ok program) : Printable program := by
  rcases ofText_eq_ok.mp h with ⟨ts, hts, hprogram⟩
  rcases Token.writable_of_ofText hts with ⟨us, rfl, hus⟩
  rcases exists_nearest hprogram with ⟨d, hd, -, rfl⟩
  cases d with
  | program o =>
      -- Up to the mark at the end, on both sides, the tokens are those of the statements.
      have hyield : o.yield = us.map Token.kind := by
        unfold StmtTree.Derives at hd
        rw [StmtTree.yield, List.map_append] at hd
        exact List.append_cancel_right hd
      refine o.printable_value fun k hk => ?_
      rw [hyield] at hk
      rcases List.mem_map.mp hk with ⟨t, ht, rfl⟩
      exact hus t ht

/-- Reading what was printed gives back the program, and there are no other programs than those
    that can be printed. -/
theorem print_roundTrip :
    (∀ program, Printable program → ofText (print program).toList = .ok program) ∧
      ∀ cs program, ofText cs = .ok program → Printable program :=
  ⟨fun _ => ofText_print, fun _ _ => printable_of_ofText⟩

/-- An assignment that needs parentheses, and a literal that needs backslashes. -/
def parensAndEscapes : Block :=
  [.assign "x1" (.op .sub (.op .mul (.num 2) (.var "y")) (.op .sub (.var "z_") (.num 3))),
    .print "a\"b\\\n"]

/-- Only the operand on the right is in parentheses. -/
theorem print_roundTrip_of_parensAndEscapes :
    print parensAndEscapes = "x1 := 2 * y - ( z_ - 3 ) ; write \"a\\\"b\\\\\\n\"" ∧
      Printable parensAndEscapes ∧
      ofText (print parensAndEscapes).toList = .ok parensAndEscapes := by
  have h : Printable parensAndEscapes := by decide
  refine ⟨by decide, h, ?_⟩
  exact print_roundTrip.1 parensAndEscapes h

end Program

end WhileLang
