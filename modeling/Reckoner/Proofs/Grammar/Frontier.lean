import Reckoner.Proofs.Grammar.Failure

/-!
# Where a text is refused

The place of a syntax error is the first token that does not fit: what stands in front of it can still be completed to
an expression, and no expression starts with all that and the token itself (`Frontier`,
`exists_frontier_of_ofTokens_eq_error`). There is only one such place in a list (`Frontier.unique`).

The reader is refused in two ways (`Refusal`). A rule may fail, which is the subject of `Fails`. Or an expression has
been read and something is left that does not go on with it; then nothing has to be added to what stands in front.
-/

namespace Reckoner.Expr

theorem body_append {us : List Token} (hus : ∀ t ∈ us, t.isEof = false) (vs : List Token) :
    body (us ++ vs) = us ++ body vs :=
  List.takeWhile_append_of_pos fun t ht => by simp [hus t ht]

/-- Whether an end comes next is up to the next token alone. -/
theorem head?_body_cons (t : Token) (ts : List Token) : (body (t :: ts)).head? = (body [t]).head? := by
  unfold body
  rw [List.takeWhile_cons, List.takeWhile_cons]
  split <;> rfl

theorem body_eq_self {ts : List Token} (hts : ∀ t ∈ ts, t.isEof = false) : body ts = ts := by
  simpa [body] using body_append hts []

theorem endSpan_append_cons_stop {us : List Token} {stop : Token} (hus : ∀ t ∈ us, t.isEof = false)
    (hstop : stop.isEof = true) (rest : List Token) : endSpan (us ++ stop :: rest) = stop.span := by
  have hfind : (us ++ stop :: rest).find? Token.isEof = some stop := by
    rw [List.find?_append, List.find?_eq_none.mpr fun t ht => by simp [hus t ht]]
    simp [hstop]
  rw [endSpan, hfind]

/-- The tokens end at the first end. -/
theorem ofTokens_append_cons_stop {us : List Token} {stop : Token} (hus : ∀ t ∈ us, t.isEof = false)
    (hstop : stop.isEof = true) (rest : List Token) : ofTokens (us ++ stop :: rest) = ofBody us stop.span := by
  rw [ofTokens, body_append_stop hus hstop, endSpan_append_cons_stop hus hstop]

theorem ofTokens_append_stop {us : List Token} {stop : Token} (hus : ∀ t ∈ us, t.isEof = false)
    (hstop : stop.isEof = true) : ofTokens (us ++ [stop]) = ofBody us stop.span :=
  ofTokens_append_cons_stop hus hstop []

/-- Tokens without an end end behind the last of them. -/
theorem ofTokens_of_getLast? {ts : List Token} {last : Token} (hlast : ts.getLast? = some last)
    (hts : ∀ t ∈ ts, t.isEof = false) : ofTokens ts = ofBody ts (.atEnd last.span.stop) := by
  have hfind : ts.find? Token.isEof = none := List.find?_eq_none.mpr fun t ht => by simp [hts t ht]
  rw [ofTokens, body_eq_self hts, endSpan, hfind, hlast]

/-- What stands in front of `next` is why a text is refused there: a rule fails, or an expression is complete and `next`
does not go on with it. -/
inductive Refusal (us : List Token) (next : Option Token) : SyntaxProblem → Prop
  | fails {problem : SyntaxProblem} : Fails .expression 0 us next problem → Refusal us next problem
  | leftOver {tree : Expr} {t : Token} : Derives .expression 0 us tree → next = some t →
      Rule.expression.continues t.kind = false → Refusal us next .expectedOperator

theorem exists_refusal_of_ofBody_eq_error {ts : List Token} {stop : Span} {e : Diagnostic}
    (h : ofBody ts stop = .error e) : ∃ us rest problem, ts = us ++ rest ∧
      e = .ofSyntax problem ((rest.head?.map Token.span).getD stop) ∧ Refusal us rest.head? problem := by
  unfold ofBody at h
  cases hread : read .expression maxDepth ts with
  | error stuck =>
    rw [hread] at h
    obtain ⟨problem, rest⟩ := stuck
    obtain ⟨us, rfl, hfails⟩ := exists_fails_of_read (d := 0) rfl hread
    refine ⟨us, rest, problem, rfl, ?_, .fails hfails⟩
    cases h
    cases rest <;> rfl
  | ok p =>
    rw [hread] at h
    obtain ⟨tree, _ | ⟨t, rest⟩⟩ := p
    · cases h
    obtain ⟨us, rfl, hder, hstops⟩ := exists_derives_of_read (d := 0) rfl hread
    refine ⟨us, t :: rest, _, rfl, ?_, .leftOver hder rfl (Rule.stops_cons.mp hstops)⟩
    cases h
    rfl

section Refusal

variable {us : List Token} {next : Option Token} {problem : SyntaxProblem}

theorem Refusal.completable (h : Refusal us next problem) : ∃ vs tree, Derives .expression 0 (us ++ vs) tree := by
  cases h with
  | fails hfails => exact hfails.blocks.completable
  | @leftOver tree _ hder _ _ => exact ⟨[], tree, by simpa using hder⟩

theorem Refusal.not_derives (h : Refusal us next problem) {rest : List Token} (hrest : rest.head? = next)
    (tree : Expr) : ¬ Derives .expression 0 (us ++ rest) tree := by
  intro htree
  have hok := (read_eq_ok_nil_iff (Nat.zero_le _)).mpr htree
  cases h with
  | fails hfails =>
    rw [hfails.blocks.stuck rest hrest] at hok
    cases hok
  | leftOver hder hnext hstops =>
    rw [hnext] at hrest
    obtain ⟨ts, rfl⟩ := List.head?_eq_some_iff.mp hrest
    rw [hder.read_eq _ (Rule.stops_cons.mpr hstops)] at hok
    cases hok

end Refusal

/-- The first token that does not fit is at index `i`: the tokens in front of it can be completed to a list that is
accepted, and no list that is accepted starts with these tokens and it. -/
structure Frontier (ts : List Token) (i : Nat) : Prop where
  completable : ∃ us stop tree, Token.Terminated (ts.take i ++ us ++ [stop]) ∧
    ofTokens (ts.take i ++ us ++ [stop]) = .ok tree
  refused : ∀ us, ts.take (i + 1) <+: us → ∀ tree, ofTokens us ≠ .ok tree

theorem Frontier.not_lt {ts : List Token} {i j : Nat} (hi : Frontier ts i) (hj : Frontier ts j) : ¬ i < j := by
  intro hlt
  obtain ⟨us, stop, tree, -, htree⟩ := hj.completable
  have hprefix : ts.take (i + 1) <+: ts.take j ++ us ++ [stop] := by
    rw [List.append_assoc]
    exact (List.take_prefix_take_left hlt).trans (List.prefix_append _ _)
  exact hi.refused _ hprefix tree htree

theorem Frontier.unique {ts : List Token} {i j : Nat} (hi : Frontier ts i) (hj : Frontier ts j) : i = j :=
  Nat.le_antisymm (Nat.not_lt.mp (hj.not_lt hi)) (Nat.not_lt.mp (hi.not_lt hj))

/-- The place of a refusal is the frontier. -/
theorem Refusal.frontier {us : List Token} {t : Token} {problem : SyntaxProblem}
    (h : Refusal us (body [t]).head? problem) (hus : ∀ u ∈ us, u.isEof = false) (more : List Token) :
    Frontier (us ++ t :: more) us.length := by
  constructor
  · rw [List.take_left]
    obtain ⟨vs, tree, htree⟩ := h.completable
    exact ⟨vs, ⟨.eof, nowhere⟩, tree, ⟨us ++ vs, _, rfl, rfl, htree.isEof_eq_false⟩, ofTokens_of_derives rfl [] htree⟩
  · have htake : (us ++ t :: more).take (us.length + 1) = us ++ [t] := by
      simp [List.take_append, List.take_of_length_le (Nat.le_succ us.length)]
    rw [htake]
    rintro _ ⟨ws, rfl⟩ tree htree
    rw [ofTokens_eq_ok_iff, List.append_assoc, body_append hus] at htree
    exact h.not_derives (head?_body_cons t ws) tree htree

/-- A list whose only end is its last token is refused at its frontier, in front of the token there. -/
theorem exists_refusal_of_ofTokens_eq_error {ts : List Token} {e : Diagnostic} (hts : Token.Terminated ts)
    (h : ofTokens ts = .error e) : ∃ i t problem, ts[i]? = some t ∧ e = .ofSyntax problem t.span ∧
      Refusal (ts.take i) (body [t]).head? problem ∧ Frontier ts i := by
  obtain ⟨ts, stop, rfl, hstop, hts⟩ := hts
  rw [ofTokens_append_stop hts hstop] at h
  obtain ⟨us, rest, problem, rfl, rfl, hrefusal⟩ := exists_refusal_of_ofBody_eq_error h
  obtain ⟨hus, hrest⟩ := List.forall_mem_append.mp hts
  obtain ⟨t, more, hmore, ht⟩ : ∃ t more, rest ++ [stop] = t :: more ∧
      (rest.head?.map Token.span).getD stop.span = t.span := by
    cases rest with
    | nil => exact ⟨stop, [], rfl, rfl⟩
    | cons t rest => exact ⟨t, rest ++ [stop], rfl, rfl⟩
  -- what comes next in the body is told by `t`, which may be the end
  have hhead : rest.head? = (body [t]).head? := by
    rw [← head?_body_cons t more, ← hmore, body_append_stop hrest hstop]
  rw [hhead] at hrefusal
  rw [List.append_assoc, hmore, ht]
  refine ⟨us.length, t, problem, by simp, rfl, ?_, hrefusal.frontier hus more⟩
  rwa [List.take_left]

/-- **Syntax errors are at the frontier**: when a list whose only end is its last token is refused, for whatever reason,
the span of the diagnostic is that of the first token that does not fit. -/
theorem exists_frontier_of_ofTokens_eq_error {ts : List Token} {e : Diagnostic} (hts : Token.Terminated ts)
    (h : ofTokens ts = .error e) : ∃ i t, ts[i]? = some t ∧ e.span = t.span ∧ Frontier ts i := by
  obtain ⟨i, t, problem, ht, rfl, -, hfrontier⟩ := exists_refusal_of_ofTokens_eq_error hts h
  exact ⟨i, t, ht, rfl, hfrontier⟩

/-- The tokens of `(1 1)`. -/
def juxtaposed (source : Source) : List Token :=
  [⟨.leftParen, source.bytes 0 1⟩, ⟨.number (.int 1), source.bytes 1 2⟩, ⟨.number (.int 1), source.bytes 3 4⟩,
    ⟨.rightParen, source.bytes 4 5⟩, ⟨.eof, source.bytes 5 6⟩]

/-- In `(1 1)` it is the second number that does not fit. -/
theorem frontier_juxtaposed :
    let source : Source := ⟨"<stdin>", "(1 1)"⟩
    let ts := juxtaposed source
    Token.scan source = .ok ts ∧ Token.Terminated ts ∧
      ofTokens ts = .error (.ofSyntax .expectedRightParen (source.bytes 3 4)) ∧ Frontier ts 2 := by
  intro source ts
  have hlast : Token.Terminated ts := ⟨ts.take 4, _, rfl, rfl, by decide⟩
  have herror : ofTokens ts = .error (.ofSyntax .expectedRightParen (source.bytes 3 4)) := by decide +kernel
  refine ⟨by decide +kernel, hlast, herror, ?_⟩
  obtain ⟨i, t, ht, hspan, hfrontier⟩ := exists_frontier_of_ofTokens_eq_error hlast herror
  -- the other tokens stand elsewhere
  have hi : i = 2 := by
    rcases i with _ | _ | _ | _ | _ | i
    case succ.succ.zero => rfl
    case succ.succ.succ.succ.succ => cases ht
    all_goals
      cases ht
      cases hspan
  rwa [hi] at hfrontier

end Reckoner.Expr
