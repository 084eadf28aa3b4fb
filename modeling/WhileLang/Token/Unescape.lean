/-!
# String Literals

What a string literal stands for. A backslash followed by `n` or `t` is a
line feed or a tab, followed by any other character it is that character. A
backslash with nothing behind it stands for itself; the scanner does not let
one through, but a token may be made in other ways.

## Main definitions

* `unescape`: The text that a literal stands for.

## Theorems

* `unescape_of_not_mem`: Without a backslash a literal stands for itself.
-/

namespace WhileLang

namespace Token

/-- What a character stands for behind a backslash. -/
def unescapeChar : Char → Char
  | 'n' => '\n'
  | 't' => '\t'
  | c => c

/-- The text that a literal stands for, given what is written between its quotes. -/
def unescape : List Char → List Char
  | [] => []
  | '\\' :: c :: cs => unescapeChar c :: unescape cs
  | c :: cs => c :: unescape cs

/-- Without a backslash a literal stands for itself. -/
theorem unescape_of_not_mem (cs : List Char) (h : '\\' ∉ cs) : unescape cs = cs := by
  fun_induction unescape cs with
  | case1 => rfl
  | case2 => simp at h
  | case3 c cs _ ih => rw [ih fun hm => h (List.mem_cons_of_mem _ hm)]

end Token

end WhileLang
