import Reckoner.Proofs.Evaluation.Blame
import Reckoner.Proofs.Grammar.Expected
import Reckoner.Proofs.Session.Journal
import Reckoner.Proofs.Token.Unreadable

/-!
# Summaries and line feeds

A summary is a sentence around what it quotes: a character, a literal or a name (`Problem.quoted`). The sentence itself
is one line, so the summary has a line feed if and only if the quote has one (`Diagnostic.lineFeed_mem_summary_iff`).

Names that a tree reads are lexemes of its text (`Expr.plain_of_mem_namesRead`), and a literal is made of digits, so
neither has a line feed. A character that begins no lexeme is quoted as it is, and the line feed is such a character:
the summary of this one problem takes two lines (`Session.lineFeed_mem_summary_iff_of_run_eq_error`).
-/

namespace Reckoner

/-! ## What a summary quotes -/

/-- What the message repeats of the text, or of an operand's type. -/
def Problem.quoted : Problem → List Char
  | illegalCharacter c => [c]
  | invalidSyntax (.numberOutOfRange literal) => literal.toList
  | invalidSyntax _ => []
  | noOverload typeName => typeName.toList
  | runtime (.undefined name) => name.toList
  | runtime (.arithmetic _) => []

theorem Problem.lineFeed_not_mem_title (problem : Problem) : '\n' ∉ problem.title.toList := by
  cases problem <;> simp [title]

theorem Problem.lineFeed_mem_message_iff (problem : Problem) :
    '\n' ∈ problem.message.toList ↔ '\n' ∈ problem.quoted := by
  cases problem with
  | illegalCharacter c => simp [message, quoted]
  | invalidSyntax problem =>
    cases problem with
    | numberOutOfRange literal =>
      change '\n' ∈ ("Number literal '" ++ literal ++ "' is out of range").toList ↔ '\n' ∈ literal.toList
      simp
    | _ =>
      -- the other messages are literals, which are looked through as lists of characters
      refine iff_of_false ?_ List.not_mem_nil
      change '\n' ∉ (String.ofList _).toList
      rw [String.toList_ofList]
      decide
  | noOverload typeName => simp [message, quoted]
  | runtime problem =>
    cases problem with
    | arithmetic fault => cases fault <;> simp [message, RuntimeProblem.message, Number.Fault.message, quoted]
    | undefined name => simp [message, RuntimeProblem.message, quoted]

theorem lineFeed_not_mem_toDigits (n : Nat) : '\n' ∉ Nat.toDigits 10 n :=
  fun hmem => (plain_of_isDigit (Nat.isDigit_of_mem_toDigits (by decide) (by decide) hmem)).1 rfl

/-- All else in a summary is on one line. -/
theorem Diagnostic.lineFeed_mem_summary_iff (d : Diagnostic) :
    '\n' ∈ d.summary.toList ↔ '\n' ∈ d.problem.quoted := by
  simp [summary, d.problem.lineFeed_not_mem_title, d.problem.lineFeed_mem_message_iff, lineFeed_not_mem_toDigits]

/-! ## Names are lexemes -/

def Token.Kind.name? : Kind → Option String
  | .identifier name => some name
  | _ => none

theorem Lexeme.eq_toList_of_name? {lexeme : List Char} {kind : Token.Kind} {name : String} (h : Lexeme lexeme kind)
    (hname : kind.name? = some name) : lexeme = name.toList := by
  cases h with
  | identifier _ _ _ =>
    cases hname
    exact String.toList_ofList.symm
  | symbol hmem =>
    simp only [symbols, List.mem_cons, List.not_mem_nil, or_false, Prod.mk.injEq] at hmem
    rcases hmem with h | h | h | h | h | h | h | h <;> rw [h.2] at hname <;> cases hname
  | _ => cases hname

/-- Each token of the pieces stands for a lexeme. -/
theorem Token.exists_lexeme_of_mem_tokensAt {source : Source} {cs : List Char} {pieces : List Piece} {i : Nat}
    (h : Pieces cs pieces) : ∀ t ∈ source.tokensAt i pieces, ∃ lexeme, Lexeme lexeme t.kind := by
  induction h generalizing i with
  | nil => exact fun _ ht => absurd ht List.not_mem_nil
  | cons hlexeme _ _ _ ih => exact List.forall_mem_cons.mpr ⟨⟨_, hlexeme⟩, ih⟩

theorem Token.exists_lexeme_of_scan {source : Source} {ts : List Token} (h : scan source = .ok ts) :
    ∀ t ∈ ts, t.isEof = false → ∃ lexeme, Lexeme lexeme t.kind := by
  obtain ⟨lead, pieces, ⟨-, rest, -, hpieces⟩, rfl⟩ := scan_eq_ok_iff.mp h
  refine List.forall_mem_append.mpr ⟨fun t ht _ => exists_lexeme_of_mem_tokensAt hpieces t ht, ?_⟩
  exact List.forall_mem_singleton.mpr fun heof => nomatch heof

namespace Expr

theorem namesRead_operate_sublist {us vs : List Token} {t : Token} {left right : Expr} (op : Op)
    (hleft : left.namesRead.Sublist (us.filterMap (·.kind.name?)))
    (hright : right.namesRead.Sublist (vs.filterMap (·.kind.name?))) :
    (operate left op right).namesRead.Sublist ((us ++ t :: vs).filterMap (·.kind.name?)) := by
  rw [operate, namesRead_binary, List.filterMap_append]
  exact hleft.append (hright.trans ((List.sublist_cons_self t vs).filterMap _))

/-- The names that a tree reads are among those of its tokens, in order. -/
theorem Derives.namesRead_sublist {rule : Rule} {d : Nat} {ts : List Token} {tree : Expr}
    (h : Derives rule d ts tree) : tree.namesRead.Sublist (ts.filterMap (·.kind.name?)) := by
  induction h using Derives.rec (motive_2 := fun _ _ _ ts tree _ =>
    tree.namesRead.Sublist (ts.filterMap (·.kind.name?))) with
  | declaration k name s nameSpan s' _ ih =>
    rw [declare, namesRead_assign]
    exact ih.cons name
  | sum _ ih | chain _ ih | unsigned _ ih | base _ ih | first _ ih => exact ih
  | signed _ _ _ ih =>
    rw [sign, namesRead_unary]
    exact ih.trans ((List.sublist_cons_self _ _).filterMap _)
  | raised s _ _ _ ih₁ ih₂ => exact namesRead_operate_sublist .pow ih₁ ih₂
  | number n s => exact .slnil
  | identifier name s => exact .refl [name]
  | group s s' _ _ ih => exact ih.trans (((List.sublist_append_left _ _).cons _).filterMap _)
  | next _ _ _ _ ih₁ ih₂ => exact namesRead_operate_sublist _ ih₁ ih₂

/-- The names that the tree of a text reads have characters of lexemes only. -/
theorem plain_of_mem_namesRead {source : Source} {ts : List Token} {tree : Expr} (hscan : Token.scan source = .ok ts)
    (h : ofTokens ts = .ok tree) : ∀ name ∈ tree.namesRead, ∀ c ∈ name.toList, Plain c := by
  intro name hname
  have hder := ofTokens_eq_ok_iff.mp h
  obtain ⟨t, ht, hkind⟩ := List.mem_filterMap.mp (hder.namesRead_sublist.subset hname)
  obtain ⟨lexeme, hlexeme⟩ :=
    Token.exists_lexeme_of_scan hscan t (List.takeWhile_subset _ ht) (hder.isEof_eq_false t ht)
  rw [← hlexeme.eq_toList_of_name? hkind]
  exact hlexeme.plain

/-! ## What each stage quotes -/

theorem quoted_of_demanded {kinds : List Token.Kind} {problem : SyntaxProblem} (h : demanded kinds = some problem) :
    (Problem.invalidSyntax problem).quoted = [] := by
  unfold demanded at h
  split at h <;> cases h <;> rfl

theorem quoted_expectedBehind (kinds : List Token.Kind) :
    (Problem.invalidSyntax (expectedBehind kinds)).quoted = [] := by
  unfold expectedBehind
  cases hdemanded : demanded kinds.reverse with
  | some problem => exact quoted_of_demanded hdemanded
  | none =>
    rw [Option.getD_none]
    split <;> rfl

/-- A text that has tokens is refused without a quote. -/
theorem quoted_of_ofTokens_eq_error {ts : List Token} {d : Diagnostic} (hts : Token.Terminated ts)
    (h : ofTokens ts = .error d) : d.problem.quoted = [] := by
  obtain ⟨us, stop, rfl, hstop, hus⟩ := hts
  rw [ofTokens_append_stop hus hstop] at h
  obtain ⟨vs, rest, problem, -, rfl, hrefusal⟩ := exists_refusal_of_ofBody_eq_error h
  rcases hrefusal.eq_tooDeep_or with rfl | rfl
  · rfl
  · exact quoted_expectedBehind _

/-- An evaluation quotes a name that is read, if anything. -/
theorem quoted_of_evaluate_eq_error {context : Context} {tree : Expr} {s : Scope} {d : Diagnostic}
    (h : (tree.evaluate context s).1 = .error d) :
    d.problem.quoted = [] ∨ ∃ name ∈ tree.namesRead, d.problem.quoted = name.toList := by
  obtain ⟨node, hnode, problem, place, hblames, rfl⟩ := exists_failsAt h
  cases hblames with
  | undefined name span =>
    obtain ⟨rest, hrest⟩ := hnode.postorder
    have hmem : access name span ∈ tree.postorder := hrest ▸ List.mem_append_right _ List.mem_cons_self
    exact Or.inr ⟨name, List.mem_filterMap.mpr ⟨_, hmem, rfl⟩, rfl⟩
  | divisionByZero | negation | overflow | notReal => exact Or.inl rfl

end Expr

/-- A lexeme that stands for nothing is quoted as it is. -/
theorem Unreadable.quoted_eq {rest lexeme : List Char} {problem : Problem} (h : Unreadable rest lexeme problem) :
    problem.quoted = lexeme := by
  cases h with
  | character => rfl
  | numeral => exact String.toList_ofList

theorem Unreadable.eq_of_lineFeed_mem {rest lexeme : List Char} {problem : Problem}
    (h : Unreadable rest lexeme problem) (hmem : '\n' ∈ lexeme) : problem = .illegalCharacter '\n' := by
  cases h with
  | character => rw [List.mem_singleton.mp hmem]
  | numeral _ hdigits => exact absurd rfl (plain_of_isDigit (hdigits _ hmem)).1

/-! ## Runs -/

namespace Session

/-- **Summaries are one line, but for one problem**: the summary of what a run reports has a line feed if and only if it
is a line feed that is reported. -/
theorem lineFeed_mem_summary_iff_of_run_eq_error {session : Session} {source : Source} {d : Diagnostic}
    (h : (session.run source).1.outcome = .error d) :
    '\n' ∈ d.summary.toList ↔ d.problem = .illegalCharacter '\n' := by
  rw [d.lineFeed_mem_summary_iff]
  constructor
  · intro hmem
    -- behind the scanner nothing but names is quoted
    rcases run_eq_error _ _ _ h with hscan | ⟨ts, hscan, hread | ⟨tree, hread, hevaluate⟩⟩
    · obtain ⟨before, lexeme, rest, -, -, hunreadable, -⟩ := Token.exists_unreadable_of_scan hscan
      exact hunreadable.eq_of_lineFeed_mem (hunreadable.quoted_eq ▸ hmem)
    · rw [Expr.quoted_of_ofTokens_eq_error (Token.terminated_of_scan hscan) hread] at hmem
      exact absurd hmem List.not_mem_nil
    · rcases Expr.quoted_of_evaluate_eq_error hevaluate with hnone | ⟨name, hname, hquoted⟩
      · rw [hnone] at hmem
        exact absurd hmem List.not_mem_nil
      · rw [hquoted] at hmem
        exact absurd rfl (Expr.plain_of_mem_namesRead hscan hread name hname _ hmem).1
  · intro hproblem
    rw [hproblem]
    exact List.mem_singleton_self _

/-- What is wrong with `1 + x` in a new session. -/
def unbound : Diagnostic :=
  let source : Source := ⟨"<stdin>", "1 + x"⟩
  .ofRuntime (.undefined "x") (source.bytes 4 5) (.root defaultModule)

theorem lineFeed_mem_summary_unbound :
    (({} : Session).run ⟨"<stdin>", "1 + x"⟩).1.outcome = .error unbound ∧
      unbound.summary = "Runtime Error: 'x' is not defined at line 1, column 5" ∧ '\n' ∉ unbound.summary.toList := by
  have h : (({} : Session).run ⟨"<stdin>", "1 + x"⟩).1.outcome = .error unbound := by decide +kernel
  refine ⟨h, by decide +kernel, ?_⟩
  rw [lineFeed_mem_summary_iff_of_run_eq_error h]
  decide

/-- What is wrong with a number at the end of a line. -/
def endOfLine : Diagnostic :=
  let source : Source := ⟨"<stdin>", "1\n"⟩
  ⟨.illegalCharacter '\n', .single (source.byte 1) '\n', none⟩

/-- The line feed is repeated as it is, so the summary breaks off inside of its quotation marks. -/
theorem lineFeed_mem_summary_endOfLine :
    (({} : Session).run ⟨"<stdin>", "1\n"⟩).1.outcome = .error endOfLine ∧
      endOfLine.summary = "Illegal Character: '\n' is not a valid character at line 1, column 2" ∧
      '\n' ∈ endOfLine.summary.toList := by
  refine ⟨by decide +kernel, by decide +kernel, ?_⟩
  rw [Diagnostic.lineFeed_mem_summary_iff]
  exact List.mem_singleton_self _

end Session

end Reckoner
