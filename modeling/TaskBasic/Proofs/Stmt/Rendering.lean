import TaskBasic.Proofs.Stmt.Image

/-
Programs in block form.

A text is the block form of a program if its tokens lay out the statements of the
program, one behind the other.  The parser reads it as the same program, with the
lines that the statements have in the text.  Every program that the parser makes
has such a text.
-/

namespace TaskBasic

deriving instance DecidableEq for TokenKind, Token

/-- The text is the block form of the program `p`; `p'` is the program with the lines that its
statements begin on in the text. -/
def BlockForm (text : String) (p p' : Program) : Prop :=
  ∃ ts t, tokens text 1 = ts ++ [t] ∧ t.form = .eof ∧ Lays text (.block p) (.block p') ts

theorem BlockForm.parses {text : String} {p p' : Program} (h : BlockForm text p p') :
    Program.ofText text = .ok p' := by
  obtain ⟨ts, t, htokens, ht, hlays⟩ := h
  exact Program.ofText_laid htokens ht hlays

theorem BlockReady.exists_blockForm {p : Program} (h : BlockReady p) :
    ∃ text p', BlockForm text p p' := by
  obtain ⟨cs, p', hcs⟩ := h []
  have hsource : (String.ofList cs).toList = [] ++ (cs ++ []) := by simp
  obtain ⟨ts, htokenizes, hlays⟩ := hcs (String.ofList cs) [] _ hsource .eof
  have htokens : tokens (String.ofList cs) 1 = ts ++ [_] :=
    Tokenizes.tokens (by rw [hsource]; exact htokenizes)
  exact ⟨String.ofList cs, p', ts, _, htokens, rfl, hlays⟩

/-! ### Programs without their lines -/

mutual

/-- The statement without its lines. -/
def Stmt.unlined : Stmt → Stmt
  | .mk _ kind => .mk 0 kind.unlined

/-- What the statement does, without the lines of its blocks. -/
def StmtKind.unlined : StmtKind → StmtKind
  | .ifChain branches none => .ifChain (branchesUnlined branches) none
  | .ifChain branches (some body) => .ifChain (branchesUnlined branches) (some (blockUnlined body))
  | .whileLoop e body => .whileLoop e (blockUnlined body)
  | .countLoop var start stop step body => .countLoop var start stop step (blockUnlined body)
  | .eachLoop var e body => .eachLoop var e (blockUnlined body)
  | .function name params isAsync isNative body =>
    .function name params isAsync isNative (blockUnlined body)
  | .tryBlock body none none => .tryBlock (blockUnlined body) none none
  | .tryBlock body (some (var, handler)) none =>
    .tryBlock (blockUnlined body) (some (var, blockUnlined handler)) none
  | .tryBlock body none (some cleanup) =>
    .tryBlock (blockUnlined body) none (some (blockUnlined cleanup))
  | .tryBlock body (some (var, handler)) (some cleanup) =>
    .tryBlock (blockUnlined body) (some (var, blockUnlined handler)) (some (blockUnlined cleanup))
  | .switchBlock e cases none => .switchBlock e (casesUnlined cases) none
  | .switchBlock e cases (some body) =>
    .switchBlock e (casesUnlined cases) (some (blockUnlined body))
  | kind => kind

/-- The block without its lines. -/
def blockUnlined : List Stmt → List Stmt
  | [] => []
  | s :: rest => s.unlined :: blockUnlined rest

/-- The branches of an `if` without their lines. -/
def branchesUnlined : List (Expr × List Stmt) → List (Expr × List Stmt)
  | [] => []
  | (e, body) :: rest => (e, blockUnlined body) :: branchesUnlined rest

/-- The cases of a `switch` without their lines. -/
def casesUnlined : List (List Expr × List Stmt) → List (List Expr × List Stmt)
  | [] => []
  | (values, body) :: rest => (values, blockUnlined body) :: casesUnlined rest

end

/-- What is laid out, without its lines. -/
def StmtForm.unlined : StmtForm → StmtForm
  | .stmt s => .stmt s.unlined
  | .block ss => .block (blockUnlined ss)
  | .branches bs o => .branches (branchesUnlined bs) (o.map blockUnlined)
  | .arms cs o => .arms (casesUnlined cs) (o.map blockUnlined)

theorem StmtKind.unlined_ifChain (bs : List (Expr × List Stmt)) (o : Option (List Stmt)) :
    (StmtKind.ifChain bs o).unlined = .ifChain (branchesUnlined bs) (o.map blockUnlined) := by
  cases o <;> simp only [StmtKind.unlined, Option.map]

theorem StmtKind.unlined_switchBlock (e : Expr) (cs : List (List Expr × List Stmt))
    (o : Option (List Stmt)) :
    (StmtKind.switchBlock e cs o).unlined =
      .switchBlock e (casesUnlined cs) (o.map blockUnlined) := by
  cases o <;> simp only [StmtKind.unlined, Option.map]

/-- Laying statements out changes their lines only. -/
theorem Lays.unlined_eq {source : String} {φ φ' : StmtForm} {ts : List Token}
    (h : Lays source φ φ' ts) : φ'.unlined = φ.unlined := by
  induction h with
  | simple => rfl
  | debug => rfl
  | endIf => rfl
  | endSwitch => rfl
  | nil => rfl
  | whileLoop _ _ _ _ _ hbody | countLoop _ _ _ _ _ _ _ _ _ _ _ hbody
  | eachLoop _ _ _ _ _ _ _ _ _ hbody
  | function _ _ _ _ _ hbody =>
    simp only [StmtForm.unlined, StmtForm.block.injEq] at hbody
    simp only [StmtForm.unlined, Stmt.unlined, StmtKind.unlined, hbody]
  | ifChain _ _ _ _ _ _ hbody hrest =>
    simp only [StmtForm.unlined, StmtForm.block.injEq, StmtForm.branches.injEq] at hbody hrest
    simp only [StmtForm.unlined, Stmt.unlined, StmtKind.unlined_ifChain, branchesUnlined, hbody,
      hrest]
  | elseIf _ _ _ _ _ _ hbody hrest =>
    simp only [StmtForm.unlined, StmtForm.block.injEq, StmtForm.branches.injEq] at hbody hrest
    simp only [StmtForm.unlined, branchesUnlined, hbody, hrest]
  | elseBranch _ _ _ _ hbody | defaultArm _ _ _ _ hbody =>
    simp only [StmtForm.unlined, StmtForm.block.injEq] at hbody
    simp only [StmtForm.unlined, Option.map, hbody]
  | tryCatch _ _ _ _ _ _ _ _ hbody hhandler =>
    simp only [StmtForm.unlined, StmtForm.block.injEq] at hbody hhandler
    simp only [StmtForm.unlined, Stmt.unlined, StmtKind.unlined, hbody, hhandler]
  | tryFinally _ _ _ _ _ _ _ hbody hcleanup =>
    simp only [StmtForm.unlined, StmtForm.block.injEq] at hbody hcleanup
    simp only [StmtForm.unlined, Stmt.unlined, StmtKind.unlined, hbody, hcleanup]
  | tryBoth _ _ _ _ _ _ _ _ _ _ _ hbody hhandler hcleanup =>
    simp only [StmtForm.unlined, StmtForm.block.injEq] at hbody hhandler hcleanup
    simp only [StmtForm.unlined, Stmt.unlined, StmtKind.unlined, hbody, hhandler, hcleanup]
  | switchBlock _ _ _ _ harms =>
    simp only [StmtForm.unlined, StmtForm.arms.injEq] at harms
    simp only [StmtForm.unlined, Stmt.unlined, StmtKind.unlined_switchBlock, harms]
  | caseArm _ _ _ _ _ hbody hrest =>
    simp only [StmtForm.unlined, StmtForm.block.injEq, StmtForm.arms.injEq] at hbody hrest
    simp only [StmtForm.unlined, casesUnlined, hbody, hrest]
  | cons _ _ _ hs hrest =>
    simp only [StmtForm.unlined, StmtForm.stmt.injEq, StmtForm.block.injEq] at hs hrest
    simp only [StmtForm.unlined, blockUnlined, hs, hrest]

theorem BlockForm.unlined_eq {text : String} {p p' : Program} (h : BlockForm text p p') :
    blockUnlined p' = blockUnlined p := by
  obtain ⟨ts, t, -, -, hlays⟩ := h
  exact StmtForm.block.inj hlays.unlined_eq

/-- A loop around a decision. -/
def nestedText : String := "while x\nif y then\nprint 1\nelse\nbreak\nend if\nwend\n"

/-- The program of the nested text, with the lines of its statements. -/
def nestedProgram : Program :=
  [.mk 1 (.whileLoop (.var "x") [.mk 2 (.ifChain [(.var "y", [.mk 3 (.print [.int 1])])]
    (some [.mk 5 .breakLoop]))])]

theorem blockForm_nested : ∃ p, BlockForm nestedText p nestedProgram := by
  have hx : SpelledBy (.var "x") [⟨.name "x", 6, 7, 1⟩] := .of_primary (.literal rfl)
  have hy : SpelledBy (.var "y") [⟨.name "y", 11, 12, 2⟩] := .of_primary (.literal rfl)
  have hint : Spells (.items [.int 1]) [.int 1] := .item (.of_primary (.literal rfl))
  let newline (start line : Nat) : Token := ⟨.newline, start, start + 1, line⟩
  -- from the inside out
  have hprint :
      Lays nestedText (.block [.mk 0 (.print [.int 1])]) (.block [.mk 3 (.print [.int 1])])
      ([⟨.keyword .kwPrint, 18, 23, 3⟩, ⟨.int 1, 24, 25, 3⟩] ++ [newline 25 3]) :=
    .cons (.simple (t := ⟨.keyword .kwPrint, 18, 23, 3⟩) (.print hint)) rfl .nil
  have hbreak : Lays nestedText (.block [.mk 0 .breakLoop]) (.block [.mk 5 .breakLoop])
      ([⟨.keyword .kwBreak, 31, 36, 5⟩] ++ [newline 36 5]) :=
    .cons (.simple (t := ⟨.keyword .kwBreak, 31, 36, 5⟩) .breakLoop) rfl .nil
  have hif : Lays nestedText (.stmt (.mk 0 _)) _ _ :=
    .ifChain (t := ⟨.keyword .kwIf, 8, 10, 2⟩) (u := ⟨.keyword .kwThen, 13, 17, 2⟩)
    (n := newline 17 2) rfl hy rfl rfl hprint
    (.elseBranch (t := ⟨.keyword .kwElse, 26, 30, 4⟩) (n := newline 30 4)
      (u := ⟨.keyword .kwEndIf, 37, 43, 6⟩)
      rfl rfl hbreak rfl)
  have hwhile : Lays nestedText (.stmt (.mk 0 _)) _ _ :=
    .whileLoop (t := ⟨.keyword .kwWhile, 0, 5, 1⟩) (n := newline 7 1)
    (u := ⟨.keyword .kwWend, 44, 48, 7⟩) rfl hx rfl
    (.cons hif (n := newline 43 6) rfl .nil) rfl
  exact ⟨_, _, ⟨.eof, 49, 49, 8⟩, by decide +kernel, rfl, .cons hwhile (n := newline 48 7) rfl .nil⟩

/-- Every program that the parser makes has a block form, and every block form of it is read as that
program with the lines that its statements have in the text. -/
theorem block_form_round_trip {source : String} {p : Program} (h : Program.ofText source = .ok p) :
    (∃ text p', BlockForm text p p') ∧ ∀ text p', BlockForm text p p' →
      Program.ofText text = .ok p' ∧ blockUnlined p' = blockUnlined p :=
  ⟨(Program.blockReady h).exists_blockForm, fun _ _ hform => ⟨hform.parses, hform.unlined_eq⟩⟩

theorem nestedProgram_round_trip :
    ∃ text p', BlockForm text nestedProgram p' ∧ Program.ofText text = .ok p' ∧
    blockUnlined p' = blockUnlined nestedProgram := by
  obtain ⟨p, hnested⟩ := blockForm_nested
  obtain ⟨⟨text, p', hform⟩, hall⟩ := block_form_round_trip hnested.parses
  exact ⟨text, p', hform, hall text p' hform⟩

end TaskBasic
