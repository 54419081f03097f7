import ScriptLang.Proofs.Grammar.Operators
import ScriptLang.Proofs.Sessions.Numbers
import ScriptLang.Proofs.Source.Scanning

/-!
# What is taken for granted

Two things are taken for granted where they are used. The quotes are taken off a string, and a number
is read, as if their texts could not be other than they should be. And an operator is evaluated as
if its token could be none but those of the operators that there are.

Both are right, whatever the texts and the tokens are. A string has its quotes and a number its digits
(`Source.Lexes`), and an operator in a tree is a symbol among the tokens from which the tree was
parsed (`Program.signed_of_parse`). What a session evaluates is code of its launches
(`Realm.ofLaunches`), so this is so in every run, in the functions that earlier runs have left, too.
-/

namespace ScriptLang

open Scoping (Phrase)

/-! ## Literals -/

namespace Source

/-- A string has its own two quotes around what it stands for. -/
theorem string_token {source : String} {t : Token} (ht : t ∈ tokens source)
    (hkind : t.kind = .string) : ∃ inside, '"' ∉ inside ∧
      t.lexeme.text.toList = '"' :: (inside ++ ['"']) ∧
      t.literal = .string (String.ofList inside) := by
  obtain ⟨form, text, rest, line, hlexes, htoken⟩ := exists_lexes_of_token ht (by simp [hkind])
  cases htoken with
  | @string inside =>
    refine ⟨inside, ?_, by simp, rfl⟩
    generalize htext : '"' :: (inside ++ ['"']) = text at hlexes
    cases hlexes with
    | string hquote =>
      simp only [List.cons.injEq, List.append_cancel_right_eq, true_and] at htext
      rwa [htext]
  | symbol => cases hkind
  | number => cases hkind
  | keyword => cases hkind
  | identifier => cases hkind

/-- A number has digits only, with a point between two of them at most, and they can be read. -/
theorem number_token {source : String} {t : Token} (ht : t ∈ tokens source)
    (hkind : t.kind = .number) : IsNumeral t.lexeme.text.toList ∧
      ∃ x, Decimal.read t.lexeme.text.toList = some x ∧ t.literal = .number x := by
  obtain ⟨form, text, rest, line, hlexes, htoken⟩ := exists_lexes_of_token ht (by simp [hkind])
  cases htoken with
  | number hread =>
    refine ⟨?_, _, by simpa using hread, rfl⟩
    rw [String.toList_ofList]
    cases hlexes with
    | integer hdigits hlongest _ => exact .integer hdigits hlongest.1
    | fraction hdigits hall hplaces hlongest => exact .fraction hdigits hall hplaces hlongest.1
  | symbol => cases hkind
  | string => cases hkind
  | keyword => cases hkind
  | identifier => cases hkind

end Source

/-! ## Operators -/

/-- The operator with two operands that a kind of token stands for. -/
def BinaryOp.ofKind : Kind → Option BinaryOp
  | .symbol .plus => some .add
  | .symbol .minus => some .subtract
  | .symbol .star => some .multiply
  | .symbol .slash => some .divide
  | .symbol .greater => some .greater
  | .symbol .greaterEqual => some .greaterEqual
  | .symbol .less => some .less
  | .symbol .lessEqual => some .lessEqual
  | .symbol .equalEqual => some .equal
  | .symbol .bangEqual => some .notEqual
  | _ => none

@[simp]
theorem BinaryOp.ofKind_symbol (op : BinaryOp) : ofKind (.symbol op.symbol) = some op := by
  cases op <;> rfl

@[simp]
theorem Grammar.unaryOp_symbol (op : UnaryOp) : unaryOp (.symbol op.symbol) = some op := by
  cases op <;> rfl

namespace Eval

/-- The value of an operator with two operands, told by the kind of its token. What is done for a
kind that is no such operator is given. -/
def binaryBy (stuck : Eval Value) (limits : Limits) (t : Token) (left right : Expr) :
    Eval Value := do
  let v ← expression limits left
  let w ← expression limits right
  match BinaryOp.ofKind t.kind with
  | some op => ofOperator t.lexeme (op.apply v w)
  | none => stuck

/-- The value of an operator with one operand, told by the kind of its token. -/
def unaryBy (stuck : Eval Value) (limits : Limits) (t : Token) (operand : Expr) : Eval Value := do
  let v ← expression limits operand
  match Grammar.unaryOp t.kind with
  | some op => ofOperator t.lexeme (op.apply v)
  | none => stuck

theorem binaryBy_eq {stuck : Eval Value} {limits : Limits} {t : Token} {op : BinaryOp}
    {left right : Expr} (h : t.kind = .symbol op.symbol) :
    binaryBy stuck limits t left right = expression limits (.binary op t.lexeme left right) := by
  unfold binaryBy
  rw [h, BinaryOp.ofKind_symbol, expression]

theorem unaryBy_eq {stuck : Eval Value} {limits : Limits} {t : Token} {op : UnaryOp}
    {operand : Expr} (h : t.kind = .symbol op.symbol) :
    unaryBy stuck limits t operand = expression limits (.unary op t.lexeme operand) := by
  unfold unaryBy
  rw [h, Grammar.unaryOp_symbol, expression]

end Eval

/-! ## Sessions -/

section Sessions

variable {L : List Launch} {l : Launch} {s : Session} {fuel : Nat} {source : String} {mode : Mode}

/-- The program of the launch was parsed from the source. -/
def Launch.ParsedFrom (l : Launch) (source : String) : Prop :=
  ∃ mode nextRef, (Program.parse (Source.tokens source) mode nextRef).result = .ok l.program

theorem Session.parsedFrom_of_launch (h : s.launch? fuel source mode = some l) :
    l.ParsedFrom source := by
  obtain ⟨p, bindings, hparse, -, rfl⟩ := Session.launch?_eq_some.mp h
  exact ⟨mode, s.nextRef, Session.result_of_parse hparse⟩

theorem Session.Launched.exists_source (h : s.Launched L) (hl : l ∈ L) :
    ∃ source, l.ParsedFrom source := by
  induction h with
  | start => cases hl
  | takePrinted _ ih => exact ih hl
  | run _ fuel source mode ih =>
    rcases List.mem_append.mp hl with hl | hl
    · exact ih hl
    · exact ⟨source, parsedFrom_of_launch (Option.mem_toList.mp hl)⟩

/-- The program contains what is in its phrases. -/
theorem Launch.Contains.signed {P : Symbol → Lexeme → Prop} {t : Phrase} (h : l.Contains t)
    (hl : l.program.Signed P) : t.Signed P := by
  rcases h with h | h
  · exact h.signed hl.statements
  · exact h.signed (Expr.allSigned_iff.mpr fun e he => hl.trailing e (Option.mem_toList.mp he))

/-- What is evaluated in a session was parsed from a source of one of its launches, and so its
operators are symbols of that source. -/
theorem Session.Launched.signed (h : s.Launched L) (hl : s.launch? fuel source mode = some l)
    {N : Moment} (hN : l.Runs N) {t : Phrase} (ht : N.task.code? = some t) :
    ∃ l' ∈ L ++ [l], ∃ source', l'.ParsedFrom source' ∧
      t.Signed (Written (Source.tokens source')) := by
  have hstart := h.bound.closed_start (Session.machine_of_launch hl) fun _ hl' =>
    List.mem_append_left [l] hl'
  have hfits := hstart.fits_run (Realm.admits_ofLaunches (by simp)) hN
  obtain ⟨l', hl', hcontains⟩ := hfits.code t ht
  have hsource : ∃ source', l'.ParsedFrom source' := by
    rcases List.mem_append.mp hl' with hl' | hl'
    · exact h.exists_source hl'
    · rw [List.mem_singleton.mp hl']
      exact ⟨source, Session.parsedFrom_of_launch hl⟩
  obtain ⟨source', hparsed⟩ := hsource
  obtain ⟨mode', nextRef, hresult⟩ := hparsed
  exact ⟨l', hl', source', ⟨mode', nextRef, hresult⟩,
    hcontains.signed (Program.signed_of_parse hresult)⟩

end Sessions

/-- **What is taken for granted holds, so nothing can be reached that should not be.**

* The text of a string token is its two quotes and what is between them, which is what the token
  stands for; the text of a number token is digits, or digits, a point and digits, and the number
  is read from it; and no diagnostic is about a number.
* Whatever the tokens are, in every tree that is built from them the operators with one or two
  operands are symbols among the tokens.
* In every run of a session, an operator that is evaluated is a symbol in a source of one of the
  launches. So evaluation may as well look at the kind of that token: whatever it does for other
  kinds, it is not done. -/
theorem literals_and_operators_are_as_expected :
    (∀ source, ∀ t ∈ Source.tokens source,
      (t.kind = .string → ∃ inside, '"' ∉ inside ∧
        t.lexeme.text.toList = '"' :: (inside ++ ['"']) ∧
        t.literal = .string (String.ofList inside)) ∧
      (t.kind = .number → IsNumeral t.lexeme.text.toList ∧
        ∃ x, Decimal.read t.lexeme.text.toList = some x ∧ t.literal = .number x)) ∧
    (∀ source, ∀ d ∈ Source.diagnostics source, ∀ text,
      d.fault ≠ .lexical (.invalidNumber text)) ∧
    (∀ ts fuel n c tree c', (∀ t ∈ c.rest, t ∈ ts) → Grammar.grammar fuel n c = .ok tree c' →
      n.Signed (Written ts) tree) ∧
    (∀ ts mode nextRef p, (Program.parse ts mode nextRef).result = .ok p →
      p.Signed (Written ts)) ∧
    ∀ L s, Session.Launched L s → ∀ fuel source mode l, s.launch? fuel source mode = some l →
      ∀ n m,
        (∀ op sign left right, l.Runs ⟨n, .expression (.binary op sign left right), m⟩ →
          ∃ l' ∈ L ++ [l], ∃ source', l'.ParsedFrom source' ∧ ∃ t ∈ Source.tokens source',
            t.kind = .symbol op.symbol ∧ t.lexeme = sign ∧
            ∀ stuck, Eval.expression (.ofFuel n) (.binary op sign left right) =
              Eval.binaryBy stuck (.ofFuel n) t left right) ∧
        ∀ op sign operand, l.Runs ⟨n, .expression (.unary op sign operand), m⟩ →
          ∃ l' ∈ L ++ [l], ∃ source', l'.ParsedFrom source' ∧ ∃ t ∈ Source.tokens source',
            t.kind = .symbol op.symbol ∧ t.lexeme = sign ∧
            ∀ stuck, Eval.expression (.ofFuel n) (.unary op sign operand) =
              Eval.unaryBy stuck (.ofFuel n) t operand := by
  refine ⟨fun source t ht => ⟨Source.string_token ht, Source.number_token ht⟩,
    fun source d hd => Source.ne_invalidNumber hd,
    fun ts fuel n c tree c' hc htree => Grammar.builds_grammar fuel n c hc tree c' htree,
    fun ts mode nextRef p hp => Program.signed_of_parse hp,
    fun L s h fuel source mode l hl n m => ⟨fun op sign left right hN => ?_,
      fun op sign operand hN => ?_⟩⟩
  · obtain ⟨l', hl', source', hparsed, hsigned⟩ := h.signed hl hN rfl
    obtain ⟨t, ht, hkind, rfl⟩ := hsigned.1
    exact ⟨l', hl', source', hparsed, t, ht, hkind, rfl, fun stuck => (Eval.binaryBy_eq hkind).symm⟩
  · obtain ⟨l', hl', source', hparsed, hsigned⟩ := h.signed hl hN rfl
    obtain ⟨t, ht, hkind, rfl⟩ := hsigned.1
    exact ⟨l', hl', source', hparsed, t, ht, hkind, rfl, fun stuck => (Eval.unaryBy_eq hkind).symm⟩

/-- Two operators in a function that an earlier run has left. -/
theorem earlier_function_dispatches : ∃ l m operand right sign sign',
    (Session.start.run 9 "fun f(a){return !a==a;}" .script).2.launch? 9 "f(nil);" .script =
        some l ∧
      l.Runs ⟨8, .expression (.binary .equal sign (.unary .not sign' operand) right), m⟩ ∧
      l.Runs ⟨8, .expression (.unary .not sign' operand), m⟩ ∧
      (∃ source, ∃ t ∈ Source.tokens source, t.kind = .symbol .equalEqual ∧ t.lexeme = sign) ∧
      ∃ source, ∃ t ∈ Source.tokens source, t.kind = .symbol .bang ∧ t.lexeme = sign' := by
  let a (id : Nat) : Expr := .variable ⟨id, ⟨"a", 1⟩⟩
  let result : Expr := .binary .equal ⟨"==", 1⟩ (.unary .not ⟨"!", 1⟩ (a 0)) (a 1)
  let body : List Stmt := [.returnFrom ⟨"return", 1⟩ (some result)]
  let f : Function := ⟨0, some "f", ⟨[⟨"a", 1⟩], body⟩, 0, false⟩
  let callee : Expr := .variable ⟨2, ⟨"f", 1⟩⟩
  let p : Program := ⟨[.expression (.call callee [.literal .nil] ⟨")", 1⟩)], none⟩
  let l : Launch := ⟨(Session.start.run 9 "fun f(a){return !a==a;}" .script).2.machine, ∅, 9, p⟩
  have hl : (Session.start.run 9 "fun f(a){return !a==a;}" .script).2.launch? 9 "f(nil);"
    .script = some l := rfl
  have hcallee : Eval.expression (.ofFuel 9) callee l.start.home =
    .ok (.callable (.function f)) l.start.home := rfl
  have harguments : Eval.expressions (.ofFuel 9) [.literal .nil] l.start.home =
    .ok [.nil] l.start.home := rfl
  have hstart : l.Runs ⟨9, .topLevel p.statements, l.start.home⟩ := Machine.Starts.statements.runs
  have hcall := (hstart.part .topHead).part .evaluated
  have happly := hcall.part (.apply hcallee harguments rfl (by decide))
  have hresult := (((happly.part .function).part .body).part .head).part .returned
  have hoperand := hresult.part .binaryLeft
  obtain ⟨hbinary, hunary⟩ := literals_and_operators_are_as_expected.2.2.2.2 _ _
    (.run (.start _ _) 9 "fun f(a){return !a==a;}" .script) _ _ _ _ hl _ _
  obtain ⟨-, -, source, -, t, ht, hkind, hsign, -⟩ := hbinary _ _ _ _ hresult
  obtain ⟨-, -, source', -, t', ht', hkind', hsign', -⟩ := hunary _ _ _ hoperand
  exact ⟨l, _, _, _, _, _, hl, hresult, hoperand, ⟨source, t, ht, hkind, hsign⟩,
    source', t', ht', hkind', hsign'⟩

end ScriptLang
