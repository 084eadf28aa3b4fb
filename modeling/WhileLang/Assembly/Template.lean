import WhileLang.Text.Decimal

/-!
# The Frame of an Assembly Text

What stands around the instructions of a program: the head of the class, the
three methods that the instructions call for input and output, the opening of
the main method and its end. The name of the class occurs in the head and in
the calls; everything else is fixed, apart from the number of local
variables. The height of the stack is fixed too, whatever the program needs.

## Main definitions

* `Assembly.header`: The head of the class, with the methods.
* `Assembly.prologue`: The opening of the main method.
* `Assembly.footer`: The end of the main method.
-/

namespace WhileLang

namespace Assembly

/-- Lines, each with a line feed. -/
def unlines (lines : List String) : String :=
  String.join (lines.map (· ++ "\n"))

/-- The methods that write a number and a text and read a number. -/
def methods : String := unlines [
  ".super java/lang/Object",
  "",
  ".method public static write(I)V",
  "    .limit locals 1",
  "    .limit stack 2",
  "    getstatic java/lang/System/out Ljava/io/PrintStream;",
  "    iload 0",
  "    invokevirtual java/io/PrintStream/println(I)V",
  "    return",
  ".end method",
  "",
  ".method public static writes(Ljava/lang/String;)V",
  "    .limit locals 1",
  "    .limit stack 2",
  "    getstatic java/lang/System/out Ljava/io/PrintStream;",
  "    aload 0",
  "    invokevirtual java/io/PrintStream/println(Ljava/lang/String;)V",
  "    return",
  ".end method",
  "",
  "; Reads one line and parses it as a signed decimal integer. Malformed or",
  "; missing input throws NumberFormatException.",
  ".method public static read()I",
  "    .limit locals 3",
  "    .limit stack 3",
  "    new java/lang/StringBuilder",
  "    dup",
  "    invokespecial java/lang/StringBuilder/<init>()V",
  "    astore 0",
  "read_next:",
  "    getstatic java/lang/System/in Ljava/io/InputStream;",
  "    invokevirtual java/io/InputStream/read()I",
  "    istore 1",
  "    iload 1",
  "    iflt read_done",
  "    iload 1",
  "    ldc 10",
  "    if_icmpeq read_done",
  "    aload 0",
  "    iload 1",
  "    i2c",
  "    invokevirtual java/lang/StringBuilder/append(C)Ljava/lang/StringBuilder;",
  "    pop",
  "    goto read_next",
  "read_done:",
  "    aload 0",
  "    invokevirtual java/lang/StringBuilder/toString()Ljava/lang/String;",
  "    invokevirtual java/lang/String/trim()Ljava/lang/String;",
  "    invokestatic java/lang/Integer/parseInt(Ljava/lang/String;)I",
  "    ireturn",
  ".end method",
  ""]

/-- The head of the class, with the methods. -/
def header (cls : String) : String :=
  ".class public " ++ cls ++ "." ++ cls ++ "\n" ++ methods

/-- The fewest local variables that the main method declares. -/
def leastLocals : Nat := 200

/-- The height of the stack that the main method declares. -/
def stackLimit : Nat := 200

/-- The opening of the main method of a program with that many variables. -/
def prologue (slots : Nat) : String := unlines [
  ".method public static main([Ljava/lang/String;)V",
  "    .limit locals " ++ Decimal.natText (max slots leastLocals),
  "    .limit stack " ++ Decimal.natText stackLimit,
  ""]

/-- The end of the main method. -/
def footer : String := unlines ["", "    return", ".end method"]

end Assembly

end WhileLang
