import Reckoner.Proofs.Evaluation.Alike
import Reckoner.Proofs.Grammar.Unplaced
import Reckoner.Proofs.Session.Journal

/-!
# Layout and names

Two texts that are scanned to tokens of the same kinds may differ in their blanks and in the names of their sources. Two
sessions may differ in their names, and in the places that the values of their tables came from. None of this changes
what a run comes to, up to places and names (`Session.run_of_map_kind_eq`), nor what a whole row of runs leaves in the
tables (`Session.globals_runAll_alike`).
-/

namespace Reckoner

/-- The same names, bound to the same numbers. -/
def Table.Alike (t t' : Table) : Prop :=
  ∀ name : String, t[name]?.map Value.number = t'[name]?.map Value.number

/-- Any two places. -/
def anywhere (_ _ : Option Span) : Prop :=
  True

theorem Value.alike_anywhere_iff {v v' : Value} : v.Alike anywhere v' ↔ v.number = v'.number :=
  ⟨fun h => h.number, fun h => ⟨h, trivial⟩⟩

theorem Scope.alike_anywhere_iff {s s' : Scope} (h : s.outer = []) (h' : s'.outer = []) :
    s.Alike anywhere s' ↔ Table.Alike s.own s'.own := by
  refine forall_congr' fun name => ?_
  simp only [lookup?, Table.lookup?, h, h', List.findSome?_cons, List.findSome?_nil]
  cases s.own[name]? <;> cases s'.own[name]? <;> simp [Value.alike_anywhere_iff]

/-- Trees that are equal up to their spans are alike. -/
theorem Expr.alike_anywhere_of_unplaced_eq {e e' : Expr} (h : e.unplaced = e'.unplaced) : e.Alike anywhere e' := by
  induction e generalizing e' with
  | literal value span =>
    cases e' <;> cases h
    exact .literal value trivial
  | access name span =>
    cases e' <;> cases h
    exact .access name trivial
  | unary op operand span ih =>
    cases e' with
    | unary op' operand' span' =>
      obtain ⟨rfl, hoperand, -⟩ := unary.inj h
      exact .unary op trivial (ih hoperand)
    | _ => cases h
  | binary left op right span ihl ihr =>
    cases e' with
    | binary left' op' right' span' =>
      obtain ⟨hleft, rfl, hright, -⟩ := binary.inj h
      exact .binary op trivial (ihl hleft) (ihr hright)
    | _ => cases h
  | assign k name value span ih =>
    cases e' with
    | assign k' name' value' span' =>
      obtain ⟨rfl, rfl, hvalue, -⟩ := assign.inj h
      exact .assign k name trivial (ih hvalue)
    | _ => cases h

/-! ## What two runs come to -/

/-- Outcomes that are equal up to places and names: the same number, or the same problem. A refused text is refused at
the same index among its tokens. -/
inductive Outcome.Corresponds (c c' : Context) (ts ts' : List Token) : Outcome Value → Outcome Value → Prop
  | ok {v v' : Value} : v.number = v'.number → Corresponds c c' ts ts' (.ok v) (.ok v')
  | refused {t t' : Token} (problem : SyntaxProblem) (i : Nat) : ts[i]? = some t → ts'[i]? = some t' →
      Corresponds c c' ts ts' (.error (.ofSyntax problem t.span)) (.error (.ofSyntax problem t'.span))
  | failed (problem : RuntimeProblem) (span span' : Span) :
      Corresponds c c' ts ts' (.error (.ofRuntime problem span c)) (.error (.ofRuntime problem span' c'))

theorem Outcome.Alike.corresponds {c c' : Context} {o o' : Outcome Value} (h : Outcome.Alike anywhere c c' o o')
    (ts ts' : List Token) : Outcome.Corresponds c c' ts ts' o o' := by
  cases h with
  | ok hv => exact .ok hv.number
  | error problem _ => exact .failed problem _ _

section

variable {source source' : Source} {ts ts' : List Token}

/-- Texts whose tokens are of the same kinds, run in alike scopes, come to corresponding outcomes, and leave alike
scopes behind. -/
theorem run_of_map_kind_eq {c c' : Context} {own own' : Table} {outer outer' : List Table}
    (hscope : Scope.Alike anywhere { own, outer } { own := own', outer := outer' })
    (hscan : Token.scan source = .ok ts) (hscan' : Token.scan source' = .ok ts')
    (hkinds : ts.map Token.kind = ts'.map Token.kind) :
    Outcome.Corresponds c c' ts ts' (run c own outer source).outcome (run c' own' outer' source').outcome ∧
      Scope.Alike anywhere { own := (run c own outer source).table, outer }
        { own := (run c' own' outer' source').table, outer := outer' } := by
  rcases Expr.ofTokens_of_map_kind_eq (Token.terminated_of_scan hscan) hkinds with
    ⟨e, e', he, he', hunplaced⟩ | ⟨problem, i, t, t', ht, ht', he, he'⟩ <;>
    rw [← Expr.ofSource_of_scan hscan] at he <;> rw [← Expr.ofSource_of_scan hscan'] at he'
  · obtain ⟨houtcome, htable, -⟩ := run_of_ofSource_eq_ok c own outer he
    obtain ⟨houtcome', htable', -⟩ := run_of_ofSource_eq_ok c' own' outer' he'
    obtain ⟨ho, hs⟩ := (Expr.alike_anywhere_of_unplaced_eq hunplaced).evaluate c c' hscope
    rw [houtcome, houtcome', htable, htable']
    refine ⟨ho.corresponds ts ts', fun name => ?_⟩
    have hname := hs name
    rw [Scope.lookup?, Scope.lookup?, Expr.outer_evaluate, Expr.outer_evaluate] at hname
    exact hname
  · obtain ⟨houtcome, htable, -⟩ := run_of_ofSource_eq_error c own outer he
    obtain ⟨houtcome', htable', -⟩ := run_of_ofSource_eq_error c' own' outer' he'
    rw [houtcome, houtcome', htable, htable']
    exact ⟨.refused problem i ht ht', hscope⟩

end

/-- Texts whose tokens are of the same kinds. -/
def Source.Alike (source source' : Source) : Prop :=
  ∃ ts ts', Token.scan source = .ok ts ∧ Token.scan source' = .ok ts' ∧ ts.map Token.kind = ts'.map Token.kind

namespace Session

variable {s s' : Session} {source source' : Source} {ts ts' : List Token}

theorem alike_scopes (h : Table.Alike s.globals s'.globals) :
    Scope.Alike anywhere { own := s.globals } { own := s'.globals } :=
  (Scope.alike_anywhere_iff rfl rfl).mpr h

theorem globals_run_alike (hglobals : Table.Alike s.globals s'.globals) (hsource : source.Alike source') :
    Table.Alike (s.run source).2.globals (s'.run source').2.globals := by
  obtain ⟨ts, ts', hscan, hscan', hkinds⟩ := hsource
  exact (Scope.alike_anywhere_iff rfl rfl).mp (run_of_map_kind_eq (alike_scopes hglobals) hscan hscan' hkinds).2

/-- Rows of runs, text by text alike, leave alike tables. -/
theorem globals_runAll_alike {sources sources' : List Source} (hglobals : Table.Alike s.globals s'.globals)
    (hsources : List.Forall₂ Source.Alike sources sources') :
    Table.Alike (s.runAll sources).globals (s'.runAll sources').globals := by
  induction hsources generalizing s s' with
  | nil => exact hglobals
  | cons hsource _ ih => exact ih (globals_run_alike hglobals hsource)

/-- **Layout and names do not count**: two texts whose tokens are of the same kinds, run in sessions whose tables are
equal up to the places of their values, come to the same up to places and names, and so do the tables afterwards. -/
theorem run_corresponds (hglobals : Table.Alike s.globals s'.globals) (hscan : Token.scan source = .ok ts)
    (hscan' : Token.scan source' = .ok ts') (hkinds : ts.map Token.kind = ts'.map Token.kind) :
    Outcome.Corresponds (.root s.moduleName) (.root s'.moduleName) ts ts'
        (s.run source).1.outcome (s'.run source').1.outcome ∧
      Table.Alike (s.run source).2.globals (s'.run source').2.globals :=
  ⟨(run_of_map_kind_eq (alike_scopes hglobals) hscan hscan' hkinds).1,
    globals_run_alike hglobals ⟨ts, ts', hscan, hscan', hkinds⟩⟩

/-- A session that knows where `x` comes from, or one that does not. -/
def withX (moduleName : String) (span : Option Span) : Session :=
  { moduleName, globals := Table.initial.insert "x" ⟨.int 2, span⟩ }

/-- The tokens of `(var y = x) / 0`. -/
def dividedKinds : List Token.Kind :=
  [.leftParen, .keyword .varKeyword, .identifier "y", .equal, .identifier "x", .rightParen, .slash, .number (.int 0),
    .eof]

/-- Two layouts of a division by zero behind a declaration. -/
theorem run_corresponds_withX :
    ∃ ts ts', Token.scan ⟨"<stdin>", "(var y=x)/0"⟩ = .ok ts ∧ Token.scan ⟨"file", " ( var  y = x ) / 0 "⟩ = .ok ts' ∧
      ts.map Token.kind = ts'.map Token.kind ∧
      let s := withX defaultModule none
      let s' := withX "other" (some Expr.nowhere)
      Table.Alike s.globals s'.globals ∧
      Outcome.Corresponds (.root defaultModule) (.root "other") ts ts'
        (s.run ⟨"<stdin>", "(var y=x)/0"⟩).1.outcome (s'.run ⟨"file", " ( var  y = x ) / 0 "⟩).1.outcome ∧
      Table.Alike (s.run ⟨"<stdin>", "(var y=x)/0"⟩).2.globals
        (s'.run ⟨"file", " ( var  y = x ) / 0 "⟩).2.globals := by
  have h : (Token.scan ⟨"<stdin>", "(var y=x)/0"⟩).map (List.map Token.kind) = .ok dividedKinds := by decide +kernel
  have h' : (Token.scan ⟨"file", " ( var  y = x ) / 0 "⟩).map (List.map Token.kind) = .ok dividedKinds := by
    decide +kernel
  obtain ⟨ts, hscan, hts⟩ := Except.map_eq_ok_iff.mp h
  obtain ⟨ts', hscan', hts'⟩ := Except.map_eq_ok_iff.mp h'
  have hglobals : Table.Alike (withX defaultModule none).globals (withX "other" (some Expr.nowhere)).globals := by
    intro name
    simp only [withX, Std.ExtTreeMap.getElem?_insert]
    split <;> rfl
  have hkinds : ts.map Token.kind = ts'.map Token.kind := hts.trans hts'.symm
  exact ⟨ts, ts', hscan, hscan', hkinds, hglobals, run_corresponds hglobals hscan hscan' hkinds⟩

end Session

end Reckoner
