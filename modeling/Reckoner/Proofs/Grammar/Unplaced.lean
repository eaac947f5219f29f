import Reckoner.Proofs.Grammar.Frontier
import Reckoner.Proofs.Grammar.Relocation

/-!
# Reading without spans

The reader never looks at a span. Without their spans (`Token.unplaced`), the same tokens are read to the same tree
without its spans, or stop it for the same problem at the same token (`read_unplaced`): to put every token at one place
is a way to relocate them.

So two lists with the same kinds of tokens are both accepted, with trees that differ in their spans only, or both
refused, for the same problem at the same index (`ofTokens_of_map_kind_eq`).
-/

namespace Reckoner

def Token.unplaced (t : Token) : Token :=
  ⟨t.kind, Expr.nowhere⟩

/-- A list whose kinds end with that of an end has one as its last token. -/
theorem Token.exists_stop_of_map_kind_eq {ts : List Token} {kinds : List Token.Kind}
    (h : ts.map Token.kind = kinds ++ [.eof]) :
    ∃ us stop, ts = us ++ [stop] ∧ stop.isEof = true ∧ us.map Token.kind = kinds := by
  obtain ⟨us, vs, rfl, hus, hvs⟩ := List.map_eq_append_iff.mp h
  obtain ⟨⟨_, s⟩, rfl, rfl⟩ := List.map_eq_singleton_iff.mp hvs
  exact ⟨us, ⟨.eof, s⟩, rfl, rfl, hus⟩

theorem Token.kind_of_isEof {t : Token} (h : t.isEof = true) : t.kind = .eof := by
  by_contra hk
  rw [isEof_eq_false_iff.mpr hk] at h
  cases h

theorem Token.forall_isEof_eq_false_iff {ts : List Token} :
    (∀ t ∈ ts, t.isEof = false) ↔ .eof ∉ ts.map Token.kind := by
  simp only [isEof_eq_false_iff, List.mem_map, not_exists, not_and]

namespace Expr

/-- The tree with every span replaced by the same one. Two trees are equal up to their spans if these are equal. -/
def unplaced : Expr → Expr
  | literal value _ => literal value nowhere
  | access name _ => access name nowhere
  | unary op operand _ => unary op operand.unplaced nowhere
  | binary left op right _ => binary left.unplaced op right.unplaced nowhere
  | assign k name value _ => assign k name value.unplaced nowhere

theorem unplaced_eq_mapSpan (e : Expr) : e.unplaced = e.mapSpan fun _ => nowhere := by
  induction e with
  | literal _ _ | access _ _ => rfl
  | unary op operand s ih | assign k name operand s ih => rw [unplaced, mapSpan, ih]
  | binary left op right s ihl ihr => rw [unplaced, mapSpan, ihl, ihr]

/-! ## The reader -/

def Stuck.unplaced (s : Stuck) : Stuck :=
  ⟨s.problem, s.rest.map Token.unplaced⟩

/-- What was read and what is left, or why nothing was, without the spans. -/
def unplacedReading (r : Except Stuck (Expr × List Token)) : Except Stuck (Expr × List Token) :=
  match r with
  | .ok (tree, rest) => .ok (tree.unplaced, rest.map Token.unplaced)
  | .error stuck => .error stuck.unplaced

theorem unplacedReading_eq (r : Except Stuck (Expr × List Token)) :
    unplacedReading r = mapReading (fun _ => nowhere) r := by
  rcases r with stuck | ⟨tree, rest⟩
  · rfl
  · rw [unplacedReading, unplaced_eq_mapSpan]
    rfl

/-- The reader does not look at spans. -/
theorem read_unplaced (rule : Rule) (room : Nat) (ts : List Token) :
    read rule room (ts.map Token.unplaced) = unplacedReading (read rule room ts) := by
  have hnowhere : Span.Distributes fun _ => nowhere := fun _ _ => rfl
  rw [unplacedReading_eq]
  exact read_mapSpan hnowhere rule room ts

/-! ## Whole lists of tokens -/

theorem map_unplaced (ts : List Token) : ts.map Token.unplaced = (ts.map Token.kind).map (⟨·, nowhere⟩) := by
  simp [Token.unplaced]

theorem length_eq_of_map_unplaced_eq {ts ts' : List Token} (h : ts.map Token.unplaced = ts'.map Token.unplaced) :
    ts.length = ts'.length := by
  simpa using congrArg List.length h

section

variable {ts ts' rest rest' : List Token} {stop stop' : Span} {problem : SyntaxProblem}

/-- The place where reading stops: the first token that is left, or the end. -/
def stopSpan (rest : List Token) (stop : Span) : Span :=
  (rest.head?.map Token.span).getD stop

theorem ofBody_of_read_eq_error (stop : Span) (h : read .expression maxDepth ts = .error ⟨problem, rest⟩) :
    ofBody ts stop = .error (.ofSyntax problem (stopSpan rest stop)) := by
  rw [ofBody, h]
  cases rest <;> rfl

theorem ofBody_of_read_eq_ok_cons (stop : Span) {tree : Expr} {t : Token}
    (h : read .expression maxDepth ts = .ok (tree, t :: rest)) :
    ofBody ts stop = .error (.ofSyntax .expectedOperator (stopSpan (t :: rest) stop)) := by
  rw [ofBody, h]
  rfl

/-- Both bodies are refused for the problem, each behind as many tokens as the other. -/
def RefusedAlike (ts ts' : List Token) (stop stop' : Span) : Prop :=
  ∃ problem us us' rest rest', ts = us ++ rest ∧ ts' = us' ++ rest' ∧ us.length = us'.length ∧
    ofBody ts stop = .error (.ofSyntax problem (stopSpan rest stop)) ∧
    ofBody ts' stop' = .error (.ofSyntax problem (stopSpan rest' stop'))

/-- Bodies with the same kinds of tokens have trees that are equal up to their spans, or are refused alike. -/
theorem ofBody_of_map_kind_eq (stop stop' : Span) (h : ts.map Token.kind = ts'.map Token.kind) :
    (∃ e e', ofBody ts stop = .ok e ∧ ofBody ts' stop' = .ok e' ∧ e.unplaced = e'.unplaced) ∨
      RefusedAlike ts ts' stop stop' := by
  have hts : ts.map Token.unplaced = ts'.map Token.unplaced := by rw [map_unplaced, map_unplaced, h]
  have hlength := length_eq_of_map_unplaced_eq hts
  have hread : unplacedReading (read .expression maxDepth ts) = unplacedReading (read .expression maxDepth ts') := by
    rw [← read_unplaced, ← read_unplaced, hts]
  rcases hr : read .expression maxDepth ts with ⟨problem, rest⟩ | ⟨tree, rest⟩ <;>
    rcases hr' : read .expression maxDepth ts' with ⟨problem', rest'⟩ | ⟨tree', rest'⟩ <;>
    rw [hr, hr'] at hread
  · obtain ⟨rfl, hrest⟩ := Stuck.mk.inj (Except.error.inj hread)
    obtain ⟨us, rfl, -⟩ := exists_blocks_of_read (d := 0) rfl hr
    obtain ⟨us', rfl, -⟩ := exists_blocks_of_read (d := 0) rfl hr'
    have hrest : rest.length = rest'.length := length_eq_of_map_unplaced_eq hrest
    rw [List.length_append, List.length_append] at hlength
    exact Or.inr ⟨problem, us, us', rest, rest', rfl, rfl, by omega, ofBody_of_read_eq_error stop hr,
      ofBody_of_read_eq_error stop' hr'⟩
  · cases hread
  · cases hread
  · obtain ⟨htree, hrest⟩ := Prod.mk.inj (Except.ok.inj hread)
    obtain ⟨us, rfl, -⟩ := exists_derives_of_read (d := 0) rfl hr
    obtain ⟨us', rfl, -⟩ := exists_derives_of_read (d := 0) rfl hr'
    have hrest := length_eq_of_map_unplaced_eq hrest
    rw [List.length_append, List.length_append] at hlength
    rcases rest with _ | ⟨t, rest⟩ <;> rcases rest' with _ | ⟨t', rest'⟩ <;> try cases hrest
    · exact Or.inl ⟨tree, tree', ofBody_eq_ok_iff.mpr hr, ofBody_eq_ok_iff.mpr hr', htree⟩
    · exact Or.inr ⟨_, us, us', t :: rest, t' :: rest', rfl, rfl, by omega, ofBody_of_read_eq_ok_cons stop hr,
        ofBody_of_read_eq_ok_cons stop' hr'⟩

/-- The token at which reading stops is found in the whole list. -/
theorem exists_getElem?_stopSpan (us rest : List Token) (stop : Token) :
    ∃ t, (us ++ rest ++ [stop])[us.length]? = some t ∧ stopSpan rest stop.span = t.span := by
  rw [List.append_assoc, List.getElem?_append_right (Nat.le_refl _), Nat.sub_self]
  cases rest with
  | nil => exact ⟨stop, rfl, rfl⟩
  | cons t rest => exact ⟨t, rfl, rfl⟩

/-- Lists with the same kinds of tokens, whose only end is the last one, are accepted with trees that are equal up to
their spans, or are refused for the same problem at the same index. -/
theorem ofTokens_of_map_kind_eq (hts : Token.Terminated ts) (h : ts.map Token.kind = ts'.map Token.kind) :
    (∃ e e', ofTokens ts = .ok e ∧ ofTokens ts' = .ok e' ∧ e.unplaced = e'.unplaced) ∨
    ∃ (problem : SyntaxProblem) (i : Nat) (t t' : Token), ts[i]? = some t ∧ ts'[i]? = some t' ∧
      ofTokens ts = .error (.ofSyntax problem t.span) ∧ ofTokens ts' = .error (.ofSyntax problem t'.span) := by
  obtain ⟨us, stop, rfl, hstop, hus⟩ := hts
  rw [List.map_append, List.map_singleton, Token.kind_of_isEof hstop] at h
  obtain ⟨us', stop', rfl, hstop', hkinds⟩ := Token.exists_stop_of_map_kind_eq h.symm
  have hus' : ∀ t ∈ us', t.isEof = false := by
    rw [Token.forall_isEof_eq_false_iff] at hus ⊢
    rwa [hkinds]
  rw [ofTokens_append_stop hus hstop, ofTokens_append_stop hus' hstop']
  rcases ofBody_of_map_kind_eq stop.span stop'.span hkinds.symm with
    haccepted | ⟨problem, vs, vs', rest, rest', rfl, rfl, hlength, herror, herror'⟩
  · exact Or.inl haccepted
  · obtain ⟨t, ht, hspan⟩ := exists_getElem?_stopSpan vs rest stop
    obtain ⟨t', ht', hspan'⟩ := exists_getElem?_stopSpan vs' rest' stop'
    exact Or.inr ⟨problem, vs.length, t, t', ht, hlength ▸ ht', hspan ▸ herror, hspan' ▸ herror'⟩

end

end Expr

end Reckoner
