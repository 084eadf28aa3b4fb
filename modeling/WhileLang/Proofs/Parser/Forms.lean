import WhileLang.Proofs.Parser.Limited

/-!
# Recursion Without a Guard

A recursive parser that is closed by `fix` ends whatever it does, because its
calls on inputs that are not shorter are cut off. Here calls are not cut off.
A parser is given by its `Form`, as data: how it is put together by the
combinators from single tokens and from calls by name. A form can be run
strictly, with every call made as it stands and every loop going on until a
level is empty. Such a run has a limit for the nesting of calls and for the
rounds of a loop, and it has no result if it goes beyond the limit.

A form ends if its calls are `guarded`: at the place where it begins it calls
names of a lower rank only, and all other calls stand behind something that
takes a token. What takes a token is read off the form (`nullable`), as long
as the names that are called take one. Both are checked on the form and say
something of the parses, so there is one induction over forms for each of
them. `leaves_parses` is the first: what a parse leaves is a suffix, and a
shorter one if the form is not nullable. `CallsEnd.gives_run` is the second: a
run gives the parses, as each of its calls is on less input or has a lower
rank.

The two numbers are put into one, so that it decreases from call to call. A
limit beyond it is enough (`gives_runs`).

## Main definitions

* `Form`: How a parser is put together.
* `Form.parses`, `Form.run`: What a form parses, and its strict run.
* `Form.nullable`, `Form.guarded`: Which forms may take nothing, and which call
  themselves on less.
* `Form.MayCall`, `Form.Fits`: Which calls can be made, and where a form can
  begin.
* `Form.runs`: The runs of rules that call each other.
* `Form.Grounded`: Rules that do not call themselves where they begin.
* `Form.Obeys`: Parsers that parse what the rules say.

## Theorems

* `Form.leaves_parses`: What the parses of a form leave.
* `Form.CallsEnd.gives_run`: A run ends if its calls do.
* `Form.gives_runs`, `Form.gives_of_grounded`: Rules that do not call
  themselves where they begin end.
* `Form.runs_eq_none_of_leftRecursive`: Those that do have no end.
-/

namespace WhileLang

/-- How a parser is put together by the combinators, from parsers of one token and from calls. The
    names that can be called have the types of their values. -/
inductive Form (τ : Type) (ν : Type → Type) : Type → Type 1 where
  | token {α : Type} (p : Parser τ α) (hp : ∃ f, p = Parser.satisfy f) : Form τ ν α
  | call {α : Type} (name : ν α) : Form τ ν α
  | orElse {α : Type} (p q : Form τ ν α) : Form τ ν α
  | andThen {α β : Type} (p : Form τ ν α) (q : Form τ ν β) : Form τ ν (α × β)
  | map {α β : Type} (f : α → β) (p : Form τ ν α) : Form τ ν β
  | opt {α : Type} (p : Form τ ν α) : Form τ ν (Option α)
  | many {α : Type} (p : Form τ ν α) : Form τ ν (Items α)
  | sepBy1 {α β : Type} (p : Form τ ν α) (sep : Form τ ν β) : Form τ ν (Items α)
  | chainLeft {α ω : Type} (p : Form τ ν α) (op : Form τ ν ω) (combine : α → ω → α → α) :
      Form τ ν α

namespace Form

variable {τ : Type} {ν : Type → Type} {α β : Type}

/-- Both, for the value of the second. -/
def right (p : Form τ ν α) (q : Form τ ν β) : Form τ ν β :=
  .map Prod.snd (.andThen p q)

/-- Both, for the value of the first. -/
def left (p : Form τ ν α) (q : Form τ ν β) : Form τ ν α :=
  .map Prod.fst (.andThen p q)

/-- The parser of that form, with parsers for the names. -/
def parses (env : ∀ α, ν α → Parser τ α) : {α : Type} → Form τ ν α → Parser τ α
  | _, .token p _ => p
  | _, .call name => env _ name
  | _, .orElse p q => Parser.orElse (p.parses env) (q.parses env)
  | _, .andThen p q => Parser.andThen (p.parses env) (q.parses env)
  | _, .map f p => Parser.map f (p.parses env)
  | _, .opt p => Parser.opt (p.parses env)
  | _, .many p => Parser.many (p.parses env)
  | _, .sepBy1 p sep => Parser.sepBy1 (p.parses env) (sep.parses env)
  | _, .chainLeft p op combine => Parser.chainLeft (p.parses env) (op.parses env) combine

/-- A run of the form in which no loop has more than so many rounds. -/
def run (rounds : Nat) (calls : ∀ α, ν α → Limited τ α) : {α : Type} → Form τ ν α → Limited τ α
  | _, .token p _ => fun input => some (p input)
  | _, .call name => calls _ name
  | _, .orElse p q => Limited.orElse (p.run rounds calls) (q.run rounds calls)
  | _, .andThen p q => Limited.andThen (p.run rounds calls) (q.run rounds calls)
  | _, .map f p => Limited.map f (p.run rounds calls)
  | _, .opt p => Limited.opt (p.run rounds calls)
  | _, .many p =>
    Limited.loop rounds (fun xs => Limited.map xs.push (p.run rounds calls))
      fun input => some [(.empty, input)]
  | _, .sepBy1 p sep =>
    let next := Limited.map Prod.snd (Limited.andThen (sep.run rounds calls) (p.run rounds calls))
    Limited.loop rounds (fun xs => Limited.map xs.push next)
      (Limited.map Items.empty.push (p.run rounds calls))
  | _, .chainLeft p op combine =>
    let next := Limited.andThen (op.run rounds calls) (p.run rounds calls)
    Limited.loop rounds (fun x => Limited.map (fun r => combine x r.1 r.2) next)
      (p.run rounds calls)

/-- The form may take nothing, if every name takes something. -/
def nullable : {α : Type} → Form τ ν α → Bool
  | _, .token _ _ | _, .call _ => false
  | _, .opt _ | _, .many _ => true
  | _, .orElse p q => p.nullable || q.nullable
  | _, .andThen p q => p.nullable && q.nullable
  | _, .map _ p | _, .sepBy1 p _ | _, .chainLeft p _ _ => p.nullable

/-- Where it begins, the form calls names of a lower rank only. -/
def guarded (rank : ∀ α, ν α → Nat) (r : Nat) : {α : Type} → Form τ ν α → Bool
  | _, .token _ _ => true
  | _, .call name => rank _ name < r
  | _, .orElse p q => p.guarded rank r && q.guarded rank r
  | _, .map _ p | _, .opt p | _, .many p => p.guarded rank r
  -- What follows is where the form begins only if what is in front may take nothing.
  | _, .andThen p q | _, .sepBy1 p q | _, .chainLeft p q _ =>
    p.guarded rank r && (!p.nullable || q.guarded rank r)

/-- The name may be called on so many tokens, in a form of that rank that began with `l` tokens. -/
def MayCall (rank : ∀ α, ν α → Nat) (l r : Nat) (name : ν α) (n : Nat) : Prop :=
  n < l ∨ n = l ∧ rank α name < r

/-- So many tokens are less than `l`, or the form is guarded. -/
def Fits (rank : ∀ α, ν α → Nat) (l r : Nat) (p : Form τ ν α) (n : Nat) : Prop :=
  n < l ∨ n = l ∧ p.guarded rank r = true

section Fitting

variable {rank : ∀ α, ν α → Nat} {l r n n' : Nat} {p : Form τ ν α} {q : Form τ ν β}

theorem Fits.of_guarded (h : p.Fits rank l r n)
    (hpq : p.guarded rank r = true → q.guarded rank r = true) : q.Fits rank l r n :=
  h.imp_right fun h => ⟨h.1, hpq h.2⟩

theorem fits_call {name : ν α} :
    (call name : Form τ ν α).Fits rank l r n ↔ MayCall rank l r name n := by
  simp only [Fits, MayCall, guarded, decide_eq_true_eq]

theorem Fits.branches {q : Form τ ν α} (h : (orElse p q).Fits rank l r n) :
    p.Fits rank l r n ∧ q.Fits rank l r n :=
  ⟨h.of_guarded fun h => (Bool.and_eq_true_iff.mp h).1,
    h.of_guarded fun h => (Bool.and_eq_true_iff.mp h).2⟩

theorem Fits.mono (h : p.Fits rank l r n) (hle : n' ≤ n) : p.Fits rank l r n' := by
  unfold Fits at *
  rcases h with h | ⟨h, hp⟩
  · omega
  · rcases Nat.lt_or_eq_of_le hle with hlt | heq
    · omega
    · exact Or.inr ⟨heq.trans h, hp⟩

/-- A form fits behind one that takes something, or if it is guarded itself. -/
theorem Fits.behind (h : (andThen p q).Fits rank l r n) (hle : n' ≤ n)
    (hlt : p.nullable = false → n' < n) : q.Fits rank l r n' := by
  rcases h with h | ⟨h, hpq⟩
  · exact Or.inl (Nat.lt_of_le_of_lt hle h)
  · simp only [guarded, Bool.and_eq_true, Bool.or_eq_true, Bool.not_eq_true'] at hpq
    rcases hpq.2 with hnull | hq
    · exact Or.inl (h ▸ hlt hnull)
    · exact Fits.mono (Or.inr ⟨h, hq⟩) hle

theorem Fits.front (h : (andThen p q).Fits rank l r n) : p.Fits rank l r n :=
  h.of_guarded fun h => (Bool.and_eq_true_iff.mp h).1

/-- In a repetition that begins with `p` and goes on with `q` and `p`, a step begins with no more
    than the repetition began with, and both fit there. -/
theorem Fits.next {env : ∀ α, ν α → Parser τ α} {input rest : List τ} {s : α × List τ}
    (h : (andThen p q).Fits rank l r input.length)
    (hp : Parser.Leaves p.nullable (p.parses env) input) (hs : s ∈ p.parses env input)
    (hrest : rest.length ≤ s.2.length) :
    rest.length ≤ input.length ∧ q.Fits rank l r rest.length ∧ p.Fits rank l r rest.length := by
  have hle := hrest.trans (hp s hs).1.length_le
  exact ⟨hle, h.behind hle fun hnull => Nat.lt_of_le_of_lt hrest ((hp s hs).2 hnull),
    h.front.mono hle⟩

end Fitting

section Runs

variable {rank : ∀ α, ν α → Nat} {l r rounds : Nat} {env : ∀ α, ν α → Parser τ α}
  {calls : ∀ α, ν α → Limited τ α}

/-- What the parses of a form leave, if all names that it may call take something. -/
theorem leaves_parses
    (hcalls : ∀ α (name : ν α) (rest : List τ), MayCall rank l r name rest.length →
      Parser.Leaves false (env α name) rest)
    (p : Form τ ν α) (input : List τ) (hfits : p.Fits rank l r input.length) :
    Parser.Leaves p.nullable (p.parses env) input := by
  induction p generalizing input with
  | token p hp =>
      rcases hp with ⟨f, rfl⟩
      exact Parser.leaves_satisfy
  | call name => exact hcalls _ name input (fits_call.mp hfits)
  | orElse p q ihp ihq =>
      exact Parser.leaves_orElse (ihp input hfits.branches.1) (ihq input hfits.branches.2)
  | andThen p q ihp ihq =>
      have hp := ihp input hfits.front
      exact Parser.leaves_andThen hp fun s hs =>
        ihq s.2 (hfits.behind (hp s hs).1.length_le (hp s hs).2)
  | map f p ih => exact Parser.leaves_map (ih input (hfits.of_guarded id))
  | opt p ih => exact Parser.leaves_opt (ih input (hfits.of_guarded id))
  | many p ih =>
      refine Parser.leaves_grow Parser.leaves_start fun s hs xs rest hrest => ?_
      rw [List.mem_singleton.mp hs] at hrest
      exact Parser.leaves_map (ih rest ((hfits.of_guarded id).mono hrest)).weaken
  | sepBy1 p sep ihp ihsep =>
      have hseq : (andThen p sep).Fits rank l r input.length := hfits
      have hp := ihp input hseq.front
      refine Parser.leaves_grow (Parser.leaves_map hp) fun s hs xs rest hrest => ?_
      rcases Parser.mem_map.mp hs with ⟨x, hx, -⟩
      rcases hseq.next hp hx hrest with ⟨-, hsepFits, hpFits⟩
      have hsep := ihsep rest hsepFits
      exact Parser.leaves_map (Parser.leaves_map (Parser.leaves_andThen hsep fun t ht =>
        ihp t.2 (hpFits.mono (hsep t ht).1.length_le)).weaken)
  | chainLeft p op combine ihp ihop =>
      have hseq : (andThen p op).Fits rank l r input.length := hfits
      have hp := ihp input hseq.front
      refine Parser.leaves_grow hp fun s hs x rest hrest => ?_
      rcases hseq.next hp hs hrest with ⟨-, hopFits, hpFits⟩
      have hop := ihop rest hopFits
      exact Parser.leaves_map (Parser.leaves_andThen hop fun t ht =>
        ihp t.2 (hpFits.mono (hop t ht).1.length_le)).weaken

/-- The calls that a form may make come to an end with the parses of the parsers, and these take
    something. -/
def CallsEnd (rank : ∀ α, ν α → Nat) (l r : Nat) (calls : ∀ α, ν α → Limited τ α)
    (env : ∀ α, ν α → Parser τ α) : Prop :=
  ∀ α (name : ν α) (rest : List τ), MayCall rank l r name rest.length →
    Limited.Gives (calls α name) (env α name) rest ∧ Parser.Leaves false (env α name) rest

theorem CallsEnd.leaves_parses (hcalls : CallsEnd rank l r calls env) (p : Form τ ν α)
    (input : List τ) (hfits : p.Fits rank l r input.length) :
    Parser.Leaves p.nullable (p.parses env) input :=
  Form.leaves_parses (fun α name rest h => (hcalls α name rest h).2) p input hfits

/-- A run of a form gives its parses, if the calls that it may make come to an end. -/
theorem CallsEnd.gives_run (hcalls : CallsEnd rank l r calls env) (p : Form τ ν α)
    (input : List τ) (hfits : p.Fits rank l r input.length) (hrounds : input.length < rounds) :
    Limited.Gives (p.run rounds calls) (p.parses env) input := by
  induction p generalizing input with
  | token p hp => rfl
  | call name => exact (hcalls _ name input (fits_call.mp hfits)).1
  | orElse p q ihp ihq =>
      exact Limited.gives_orElse (ihp input hfits.branches.1 hrounds)
        (ihq input hfits.branches.2 hrounds)
  | andThen p q ihp ihq =>
      have hp := hcalls.leaves_parses p input hfits.front
      refine Limited.gives_andThen (ihp input hfits.front hrounds) fun s hs => ?_
      have hle := (hp s hs).1.length_le
      exact ihq s.2 (hfits.behind hle (hp s hs).2) (by omega)
  | map f p ih => exact Limited.gives_map (ih input (hfits.of_guarded id) hrounds)
  | opt p ih => exact Limited.gives_opt (ih input (hfits.of_guarded id) hrounds)
  | many p ih =>
      refine Limited.gives_loop hrounds rfl Parser.leaves_start fun s hs xs rest hrest => ?_
      rw [List.mem_singleton.mp hs] at hrest
      exact Limited.gives_map (ih rest ((hfits.of_guarded id).mono hrest)
        (Nat.lt_of_le_of_lt hrest hrounds))
  | sepBy1 p sep ihp ihsep =>
      have hseq : (andThen p sep).Fits rank l r input.length := hfits
      have hp := hcalls.leaves_parses p input hseq.front
      refine Limited.gives_loop hrounds (Limited.gives_map (ihp input hseq.front hrounds))
        (Parser.leaves_map hp) fun s hs xs rest hrest => ?_
      rcases Parser.mem_map.mp hs with ⟨x, hx, -⟩
      rcases hseq.next hp hx hrest with ⟨hle, hsepFits, hpFits⟩
      have hsep := hcalls.leaves_parses sep rest hsepFits
      refine Limited.gives_map (Limited.gives_map (Limited.gives_andThen
        (ihsep rest hsepFits (by omega)) fun t ht => ?_))
      have hle' := (hsep t ht).1.length_le
      exact ihp t.2 (hpFits.mono hle') (by omega)
  | chainLeft p op combine ihp ihop =>
      have hseq : (andThen p op).Fits rank l r input.length := hfits
      have hp := hcalls.leaves_parses p input hseq.front
      refine Limited.gives_loop hrounds (ihp input hseq.front hrounds) hp
        fun s hs x rest hrest => ?_
      rcases hseq.next hp hs hrest with ⟨hle, hopFits, hpFits⟩
      have hop := hcalls.leaves_parses op rest hopFits
      refine Limited.gives_map (Limited.gives_andThen (ihop rest hopFits (by omega))
        fun t ht => ?_)
      have hle' := (hop t ht).1.length_le
      exact ihp t.2 (hpFits.mono hle') (by omega)

/-- A run of the rule of a name, with so many nested calls and rounds of a loop at most. -/
def runs (rules : ∀ α, ν α → Form τ ν α) : Nat → ∀ α, ν α → Limited τ α
  | 0 => fun _ _ => Limited.exceeded
  | n + 1 => fun _ name => (rules _ name).run (n + 1) (runs rules n)

/-- Rules of which none calls itself where it begins: each one takes something, and it is guarded
    for a rank of its own. -/
structure Grounded (rules : ∀ α, ν α → Form τ ν α) (rank : ∀ α, ν α → Nat) (height : Nat) :
    Prop where
  rank_lt : ∀ α (name : ν α), rank α name < height
  takes : ∀ α (name : ν α), (rules α name).nullable = false
  guarded : ∀ α (name : ν α), (rules α name).guarded rank (rank α name) = true

/-- Parsers for the names that parse what the rules say, as far as calls go that the rules may
    make. What other calls would give does not matter. -/
def Obeys (rules : ∀ α, ν α → Form τ ν α) (rank : ∀ α, ν α → Nat)
    (parser : ∀ α, ν α → Parser τ α) : Prop :=
  ∀ α (name : ν α) (input : List τ), ∃ env : ∀ α, ν α → Parser τ α,
    parser α name input = (rules α name).parses env input ∧
      ∀ β (name' : ν β) (rest : List τ),
        MayCall rank input.length (rank α name) name' rest.length →
          env β name' rest = parser β name' rest

variable {rules : ∀ α, ν α → Form τ ν α} {height : Nat} {parser : ∀ α, ν α → Parser τ α}

/-- A call is smaller than the form that makes it, if both are measured by the input and then by
    the rank. -/
theorem MayCall.measure_lt {name : ν α} {n : Nat} (h : MayCall rank l r name n)
    (hrank : rank α name < height) : height * n + rank α name < height * l + r := by
  rcases h with hlt | ⟨rfl, hlt⟩
  · have hmul : height * (n + 1) ≤ height * l := Nat.mul_le_mul_left height hlt
    rw [Nat.mul_succ] at hmul
    omega
  · omega

/-- A name whose measure is below the limit comes to an end, and takes something. -/
theorem gives_runs (hrules : Grounded rules rank height) (hobeys : Obeys rules rank parser)
    {n : Nat} (name : ν α) (input : List τ)
    (hn : height * input.length + rank α name < n) :
    Limited.Gives (runs rules n α name) (parser α name) input ∧
      Parser.Leaves false (parser α name) input := by
  induction n generalizing α input with
  | zero => exact absurd hn (Nat.not_lt_zero _)
  | succ n ih =>
      rcases hobeys α name input with ⟨env, hparser, henv⟩
      have hcalls : CallsEnd rank input.length (rank α name) (runs rules n) env := by
        intro β name' rest hcall
        have hlt := hcall.measure_lt (hrules.rank_lt β name')
        have hname' := ih name' rest (by omega)
        unfold Limited.Gives Parser.Leaves at *
        rw [henv β name' rest hcall]
        exact hname'
      have hfits : (rules α name).Fits rank input.length (rank α name) input.length :=
        Or.inr ⟨rfl, hrules.guarded α name⟩
      have hrounds : input.length < n + 1 := by
        have hheight : 0 < height := Nat.zero_lt_of_lt (hrules.rank_lt α name)
        have := Nat.le_mul_of_pos_left input.length hheight
        omega
      have hgives := hcalls.gives_run (rules α name) input hfits hrounds
      have hleaves := hcalls.leaves_parses (rules α name) input hfits
      rw [hrules.takes] at hleaves
      unfold Limited.Gives Parser.Leaves at *
      rw [hparser]
      exact ⟨hgives, hleaves⟩

/-- A form that is built on such rules comes to an end too, and its parses leave a suffix, which is
    shorter unless the form is nullable. -/
theorem gives_of_grounded (hrules : Grounded rules rank height)
    (hobeys : Obeys rules rank parser) (hheight : 0 < height) (p : Form τ ν α)
    (input : List τ) {n : Nat} (hn : height * (input.length + 1) ≤ n) :
    Limited.Gives (p.run n (runs rules n)) (p.parses parser) input ∧
      Parser.Leaves p.nullable (p.parses parser) input := by
  -- All calls are on no more than the input, so none of them has to have a lower rank.
  have hcalls : CallsEnd rank (input.length + 1) 0 (runs rules n) parser := by
    intro β name rest hcall
    have hlt := hcall.measure_lt (hrules.rank_lt β name)
    exact gives_runs hrules hobeys name rest (by omega)
  have hfits : p.Fits rank (input.length + 1) 0 input.length := Or.inl (Nat.lt_succ_self _)
  have hrounds : input.length < n := by
    have := Nat.le_mul_of_pos_left (input.length + 1) hheight
    omega
  exact ⟨hcalls.gives_run p input hfits hrounds, hcalls.leaves_parses p input hfits⟩

/-- A rule that calls itself where it begins has no end, however high the limit is. -/
theorem runs_eq_none_of_leftRecursive {name : ν α} {p : Form τ ν α}
    (h : rules α name = .orElse (.call name) p) (n : Nat) (input : List τ) :
    runs rules n α name input = none := by
  induction n with
  | zero => rfl
  | succ n ih =>
      simp only [runs, h, run, Limited.orElse, ih]
      rfl

end Runs

end Form

end WhileLang
